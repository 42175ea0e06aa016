/-
  TypedDoc.Proofs.Value.Elements — an element that is added to a list or array, against the
  check of the whole when it is written.

  Both compare an element with the first one and with a rule of its container, a name or a
  primitive kind (`Row.objections`). The check goes over all elements and reports the first
  objection to the first of them that has any (`check_concat`, `check_eq_error`). Adding
  looks at the new element alone and reports the last (`push_eq`). So they differ in what
  they report but not in what they accept, as long as the elements before are in order, and
  they are in every row that was `Reached` by adding and taking away.
-/

import TypedDoc.Proofs.Value.Violations

namespace TypedDoc

open Wire

/-- The containers whose elements stand in a row. -/
inductive Row where
  | list
  | array
  deriving DecidableEq, Repr

namespace Row

def payload : Row → List Value → Payload
  | .list => .list
  | .array => .array

def check : Row → List Value → Except Error (Option Kind)
  | .list => ListElements.check
  | .array => ArrayElements.check

/-- What becomes of a value as an element: an array takes its payload. -/
def held : Row → Value → Value
  | .list, v => v
  | .array, v => .anonymous v.payload

def push : Row → Value → List Value → Except Error (List Value)
  | .list, v => ListElements.push v
  | .array, v => ArrayElements.push v.payload

/-- The elements after a push, and why it was refused if it was. -/
def pushed (row : Row) (v : Value) (xs : List Value) : List Value × Option Error :=
  match row.push v xs with
  | .ok xs' => (xs', none)
  | .error e => (xs, some e)

def ofValues : Row → List Value → Except Error (List Value)
  | .list, vs => ListElements.ofValues vs
  | .array, vs => ArrayElements.ofPayloads (vs.map (·.payload))

def Passes (row : Row) (xs : List Value) : Prop := ∃ k, row.check xs = .ok k

/-- Rows made by adding and taking away, whatever was refused on the way. -/
inductive Reached (row : Row) : List Value → Prop
  | made {vs xs : List Value} : row.ofValues vs = .ok xs → Reached row xs
  | push {xs : List Value} (v : Value) : Reached row xs → Reached row (row.pushed v xs).1
  | remove {xs : List Value} (i : Nat) : Reached row xs → Reached row (xs.eraseIdx i)

/-! ## One more element -/

/-- What a container asks of each element by itself. -/
def rule : Row → Value → List Error
  | .list => Value.nameless
  | .array => Value.compound

/-- All that is wrong with an element behind the elements `xs`. -/
def objections (row : Row) (xs : List Value) (v : Value) : List Error :=
  match elementKind xs with
  | none => row.rule v
  | some expected => v.stray expected xs.length ++ row.rule v

section

variable {row : Row} {xs : List Value} {v : Value} {e : Error}

theorem check_eq (row : Row) (xs : List Value) :
    row.check xs = verdict (elementKind xs) (elementViolations row.rule xs) := by
  cases row with
  | list => exact ListElements.check_eq xs
  | array => exact ArrayElements.check_eq xs

theorem elementKind_concat (xs : List Value) (v : Value) : elementKind (xs ++ [v]) = (elementKind xs).or (some v.kind) := by
  cases xs <;> rfl

theorem elementViolations_concat (row : Row) (xs : List Value) (v : Value) :
    elementViolations row.rule (xs ++ [v]) = elementViolations row.rule xs ++ row.objections xs v := by
  simp only [elementViolations, objections, elementKind_concat]
  cases h : elementKind xs with
  | none =>
    rw [elementKind_eq_none h]
    simp [Value.stray]
  | some expected => simp [List.zipIdx_append]

theorem passes_iff : row.Passes xs ↔ elementViolations row.rule xs = [] := by
  rw [Passes, check_eq]
  cases elementViolations row.rule xs <;> simp [verdict]

theorem check_error_iff : row.check xs = .error e ↔ (elementViolations row.rule xs).head? = some e := by
  rw [check_eq]
  cases elementViolations row.rule xs <;> simp [verdict]

/-- Elements that pass make way for the objections to the one behind them. -/
theorem passes_concat : row.Passes (xs ++ [v]) ↔ row.Passes xs ∧ row.objections xs v = [] := by
  rw [passes_iff, passes_iff, elementViolations_concat, List.append_eq_nil_iff]

theorem check_concat : row.check (xs ++ [v]) = .error e ↔
    row.check xs = .error e ∨ row.Passes xs ∧ (row.objections xs v).head? = some e := by
  rw [check_error_iff, check_error_iff, passes_iff, elementViolations_concat]
  cases elementViolations row.rule xs <;> simp

/-- What stands behind the first offender does not show. -/
theorem check_append {ys : List Value} (h : row.check xs = .error e) : row.check (xs ++ ys) = .error e := by
  induction ys generalizing xs with
  | nil => rwa [List.append_nil]
  | cons v rest ih =>
    rw [List.append_cons]
    exact ih (check_concat.2 (.inl h))

theorem check_eq_error : row.check xs = .error e ↔
    ∃ before v after, xs = before ++ v :: after ∧ row.Passes before ∧ (row.objections before v).head? = some e := by
  constructor
  · intro h
    induction xs using List.reverseRecOn with
    | nil => cases row <;> cases h
    | append_singleton xs v ih =>
      rcases check_concat.1 h with h | ⟨hp, hv⟩
      · obtain ⟨before, w, after, rfl, hbefore⟩ := ih h
        exact ⟨before, w, after ++ [v], by simp, hbefore⟩
      · exact ⟨xs, v, [], rfl, hp, hv⟩
  · rintro ⟨before, v, after, rfl, hp, hv⟩
    rw [List.append_cons]
    exact check_append (check_concat.2 (.inr ⟨hp, hv⟩))

/-- A push asks for a name or a primitive kind before it compares kinds. -/
theorem push_eq (row : Row) (v : Value) (xs : List Value) : row.push v xs =
    match (row.objections xs (row.held v)).getLast? with
    | none => .ok (xs ++ [row.held v])
    | some e => .error e := by
  cases row with
  | list =>
    obtain ⟨name, p, modified⟩ := v
    simp only [push, ListElements.push, objections, held, rule, Value.nameless, Value.stray]
    cases name with
    | none => cases elementKind xs <;> simp
    | some name =>
      cases elementKind xs with
      | none => simp
      | some expected => by_cases hk : Value.kind ⟨some name, p, modified⟩ = expected <;> simp [hk]
  | array =>
    have hkind : (Value.anonymous v.payload).kind = v.payload.kind := rfl
    simp only [push, ArrayElements.push, objections, held, rule, Value.compound, Value.stray, hkind]
    by_cases hp : v.payload.kind.isPrimitive = true
    · cases elementKind xs with
      | none => simp [hp]
      | some expected =>
        by_cases hk : v.payload.kind = expected
        · subst hk
          simp [hp]
        · simp [hk, hp]
    · cases elementKind xs <;> simp [hp]

theorem push_ok_iff {xs' : List Value} :
    row.push v xs = .ok xs' ↔ row.objections xs (row.held v) = [] ∧ xs' = xs ++ [row.held v] := by
  rw [push_eq]
  cases h : (row.objections xs (row.held v)).getLast? with
  | none => simp [List.getLast?_eq_none_iff.1 h, eq_comm]
  | some e =>
    have hne : row.objections xs (row.held v) ≠ [] := fun he => by simp [he] at h
    simp [hne]

theorem pushed_eq (row : Row) (v : Value) (xs : List Value) : row.pushed v xs =
    match (row.objections xs (row.held v)).getLast? with
    | none => (xs ++ [row.held v], none)
    | some e => (xs, some e) := by
  rw [pushed, push_eq]
  cases (row.objections xs (row.held v)).getLast? <;> rfl

/-! ## Rows that were reached -/

theorem passes_iff_forall : row.Passes xs ↔ Uniform xs ∧ ∀ v ∈ xs, row.rule v = [] := by
  cases row with
  | list => simp [Passes, check, ListElements.check_eq_ok, rule, Value.nameless, Option.isSome_iff_ne_none]
  | array => simp [Passes, check, ArrayElements.check_eq_ok, rule, Value.compound]

end

end Row

/-- Which element comes first does not matter among elements of one kind. -/
theorem Uniform.sublist {xs ys : List Value} (h : Uniform xs) (hsub : ys.Sublist xs) : Uniform ys := by
  cases ys with
  | nil => exact uniform_nil
  | cons y rest =>
    refine uniform_cons.2 fun w hw => ?_
    have hy := h y (hsub.subset List.mem_cons_self)
    exact Option.some.inj ((h w (hsub.subset hw)).symm.trans hy)

namespace Row

variable {row : Row} {xs : List Value} {v : Value} {e : Error}

theorem passes_remove (h : row.Passes xs) (i : Nat) : row.Passes (xs.eraseIdx i) := by
  obtain ⟨huniform, hrule⟩ := passes_iff_forall.1 h
  have hsub := List.eraseIdx_sublist xs i
  exact passes_iff_forall.2 ⟨huniform.sublist hsub, fun v hv => hrule v (hsub.subset hv)⟩

theorem passes_push {xs' : List Value} (h : row.Passes xs) (hpush : row.push v xs = .ok xs') : row.Passes xs' := by
  obtain ⟨hv, rfl⟩ := push_ok_iff.1 hpush
  exact passes_concat.2 ⟨h, hv⟩

theorem passes_pushed (h : row.Passes xs) (v : Value) : row.Passes (row.pushed v xs).1 := by
  unfold pushed
  split
  · exact passes_push h ‹_›
  · exact h

theorem ofValues_eq (row : Row) (vs : List Value) : row.ofValues vs = vs.foldlM (fun xs v => row.push v xs) [] := by
  cases row with
  | list => rfl
  | array => exact List.foldlM_map

theorem passes_foldlM {vs xs' : List Value} (h : row.Passes xs)
    (hvs : vs.foldlM (fun xs v => row.push v xs) xs = .ok xs') : row.Passes xs' := by
  induction vs generalizing xs with
  | nil =>
    cases hvs
    exact h
  | cons v rest ih =>
    rw [List.foldlM_cons] at hvs
    cases hpush : row.push v xs with
    | error e =>
      rw [hpush] at hvs
      cases hvs
    | ok xs₁ =>
      rw [hpush] at hvs
      exact ih (passes_push h hpush) hvs

theorem Reached.passes (h : row.Reached xs) : row.Passes xs := by
  induction h with
  | @made vs xs hvs =>
    rw [ofValues_eq] at hvs
    exact passes_foldlM (passes_iff_forall.2 ⟨uniform_nil, nofun⟩) hvs
  | push v _ ih => exact passes_pushed ih v
  | remove i _ ih => exact passes_remove ih i

/-! ## Writing -/

theorem encode_of_check {c : Charset} {w : Value} {k : Sink} (hw : w.payload = row.payload xs) (hd : w.depth ≤ maxDepth)
    (h : row.check xs = .error e) : w.encode c k = (w, .error e k) := by
  obtain ⟨name, p, modified⟩ := w
  obtain rfl : p = row.payload xs := hw
  rw [Value.encode, if_neg (Nat.not_lt.2 hd)]
  cases row with
  | list =>
    have hemit : (Payload.list xs).emit c k = (.list xs, .error e k) := by
      rw [Payload.emit, show ListElements.check xs = .error e from h]
    simp only [payload, Value.emit, hemit]
  | array =>
    have hemit : (Payload.array xs).emit c k = (.array xs, .error e k) := by
      rw [Payload.emit, show ArrayElements.check xs = .error e from h]
    simp only [payload, Value.emit, hemit]

/-! ## Agreement -/

/-- Of elements that pass the check, with one more: it is added exactly if all of them pass,
    or else nothing is, for one of the reasons against it. So whatever was reached by adding
    and taking away passes. Elements that do not pass are not written, not a byte of them,
    and keep their flags; the error is the first objection to the first that has any. -/
theorem adding_agrees (row : Row) :
    (∀ xs v, row.Passes xs →
      (row.Passes (xs ++ [row.held v]) → row.pushed v xs = (xs ++ [row.held v], none)) ∧
      (¬row.Passes (xs ++ [row.held v]) → ∃ e ∈ row.objections xs (row.held v), row.pushed v xs = (xs, some e))) ∧
    (∀ xs, row.Reached xs → row.Passes xs) ∧
    ∀ xs e, row.check xs = .error e →
      (∃ before v after, xs = before ++ v :: after ∧ row.Passes before ∧ (row.objections before v).head? = some e) ∧
      ∀ (c : Charset) (w : Value) (k : Sink), w.payload = row.payload xs → w.depth ≤ maxDepth →
        w.encode c k = (w, .error e k) := by
  refine ⟨fun xs v hxs => ⟨fun hall => ?_, fun hno => ?_⟩, fun xs h => h.passes, fun xs e h => ⟨check_eq_error.1 h, ?_⟩⟩
  · rw [pushed_eq, (passes_concat.1 hall).2]
    rfl
  · have hne : row.objections xs (row.held v) ≠ [] := fun h => hno (passes_concat.2 ⟨hxs, h⟩)
    refine ⟨_, List.getLast_mem hne, ?_⟩
    rw [pushed_eq, List.getLast?_eq_getLast_of_ne_nil hne]
  · intro c w k hw hd
    exact encode_of_check hw hd h

/-- A nameless element of another kind: the name is missed when it is added, the kind when
    it is written. Once the list was emptied, an element of that kind begins it anew. -/
theorem adding_agrees_nameless :
    let a : Value := .named "a" (.scalar (.byte 1))
    let b : Value := .anonymous (.scalar (.int 2))
    let w : Value := .named "w" (.list [a, b])
    Row.list.pushed b [a] = ([a], some (.unnamedValue Kind.int)) ∧
      w.encode .utf8 .unlimited = (w, .error (.heterogeneousElements 1 Kind.byte Kind.int) .unlimited) ∧
      Row.list.pushed (b.withName "b") [] = ([b.withName "b"], none) ∧ Row.list.Passes [b.withName "b"] := by
  intro a b w
  obtain ⟨hpush, hreached, hwrite⟩ := adding_agrees .list
  have hfails : Row.list.check [a, b] = .error (.heterogeneousElements 1 Kind.byte Kind.int) := rfl
  have hno : ¬Row.list.Passes [a, b] := by
    rintro ⟨k, hk⟩
    cases hfails.symm.trans hk
  have hmade : Row.list.ofValues [a] = .ok [a] := rfl
  have hempty : Row.list.Reached (([a] : List Value).eraseIdx 0) := .remove 0 (.made hmade)
  have hagain := hreached _ (.push (b.withName "b") hempty)
  refine ⟨?_, (hwrite [a, b] _ hfails).2 .utf8 w .unlimited rfl (by decide), ?_, hagain⟩
  · obtain ⟨e, -, he⟩ := (hpush [a] b ⟨_, rfl⟩).2 hno
    rw [he]
    cases he
    rfl
  · exact (hpush [] (b.withName "b") ⟨_, rfl⟩).1 hagain

end Row

end TypedDoc
