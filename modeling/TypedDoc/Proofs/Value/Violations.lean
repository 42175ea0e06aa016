/-
  TypedDoc.Proofs.Value.Violations — all that is wrong with a tree, in order, and what the
  writer says of it.

  Writing looks at a tree bit by bit, at some of it before anything is written and at the
  rest while writing, and stops at the first thing that it cannot write. `violations` goes
  over the whole tree and never stops. It writes nothing and knows nothing of bytes.
  - `Payload.layout_flaw_eq`: the writer stops with the first of the violations.
  - `Value.encode_domain`: which trees can be written, and with what the others are
    refused.
-/

import TypedDoc.Proofs.Value.Writing

namespace TypedDoc

open Wire

/-! ## What can be wrong -/

/-- A length that takes more than 32 bits. -/
def overlong (n : Nat) : List Error := if n < countLimit then [] else [.lengthOverflow n]

def Scalar.violations (c : Charset) : Scalar → List Error
  | .string s => overlong (c.encode s).length
  | .timestamp t => if t = .empty then [.malformedTimestamp .nothingToEncode] else []
  | _ => []

namespace Value

def nameless (v : Value) : List Error := if v.name.isSome then [] else [.unnamedValue v.kind]

def overlongName (c : Charset) (v : Value) : List Error :=
  match v.name with
  | none => []
  | some name => overlong (c.encode name).length

def compound (v : Value) : List Error := if v.kind.isPrimitive then [] else [.nonPrimitiveElement v.kind]

/-- The element at position `i` is not of the kind that it should be. -/
def stray (expected : Kind) (i : Nat) (v : Value) : List Error :=
  if v.kind = expected then [] else [.heterogeneousElements i expected v.kind]

end Value

/-- The elements against the kind of the first, and each against `rule`. -/
def elementViolations (rule : Value → List Error) (xs : List Value) : List Error :=
  match elementKind xs with
  | none => []
  | some expected => xs.zipIdx.flatMap fun e => e.1.stray expected e.2 ++ rule e.1

mutual

def Value.violations (c : Charset) : Value → List Error
  | ⟨_, p, _⟩ => p.violations c

/-- A container's own elements, then their number, then what is below them. -/
def Payload.violations (c : Charset) : Payload → List Error
  | .scalar s => s.violations c
  | .object es => entriesViolations c es
  | .list xs => elementViolations Value.nameless xs ++ overlong xs.length ++ namedViolations c xs
  | .array xs => elementViolations Value.compound xs ++ overlong xs.length ++ bareViolations c xs

def entriesViolations (c : Charset) : List (String × Value) → List Error
  | [] => []
  | (_, v) :: rest => v.nameless ++ v.overlongName c ++ v.violations c ++ entriesViolations c rest

def namedViolations (c : Charset) : List Value → List Error
  | [] => []
  | v :: rest => v.overlongName c ++ v.violations c ++ namedViolations c rest

def bareViolations (c : Charset) : List Value → List Error
  | [] => []
  | v :: rest => v.violations c ++ bareViolations c rest

end

theorem Value.violations_eq (c : Charset) (v : Value) : v.violations c = v.payload.violations c := by
  cases v
  simp only [Value.violations]

theorem entriesViolations_eq (c : Charset) (es : List (String × Value)) :
    entriesViolations c es = es.flatMap fun e => e.2.nameless ++ e.2.overlongName c ++ e.2.payload.violations c := by
  induction es with
  | nil => rfl
  | cons e rest ih => rw [entriesViolations, ih, Value.violations_eq, List.flatMap_cons]

theorem namedViolations_eq (c : Charset) (xs : List Value) : namedViolations c xs =
    xs.flatMap fun v => v.overlongName c ++ v.payload.violations c := by
  induction xs with
  | nil => rfl
  | cons v rest ih => rw [namedViolations, ih, Value.violations_eq, List.flatMap_cons]

theorem bareViolations_eq (c : Charset) (xs : List Value) : bareViolations c xs =
    xs.flatMap fun v => v.payload.violations c := by
  induction xs with
  | nil => rfl
  | cons v rest ih => rw [bareViolations, ih, Value.violations_eq, List.flatMap_cons]

/-! ## The first of them -/

/-- What looking for the first offender makes of a list of all. -/
def verdict {α : Type} (a : α) : List Error → Except Error α
  | [] => .ok a
  | e :: _ => .error e

theorem map_verdict {α β : Type} (f : α → β) (a : α) (es : List Error) : f <$> verdict a es = verdict (f a) es := by
  cases es <;> rfl

theorem ListElements.checkFrom_eq (expected : Kind) (i : Nat) (xs : List Value) : checkFrom expected i xs =
    verdict () ((xs.zipIdx i).flatMap fun e => e.1.stray expected e.2 ++ e.1.nameless) := by
  induction xs generalizing i with
  | nil => rfl
  | cons v rest ih =>
    rw [checkFrom, ih, List.zipIdx_cons, List.flatMap_cons]
    by_cases hk : v.kind = expected
    · cases hn : v.name <;> simp [hk, hn, Value.stray, Value.nameless, verdict]
    · simp [hk, Value.stray, verdict]

theorem ArrayElements.checkFrom_eq (expected : Kind) (hp : expected.isPrimitive = true) (i : Nat) (xs : List Value) :
    checkFrom expected i xs =
      verdict () ((xs.zipIdx i).flatMap fun e => e.1.stray expected e.2 ++ e.1.compound) := by
  induction xs generalizing i with
  | nil => rfl
  | cons v rest ih =>
    rw [checkFrom, ih, List.zipIdx_cons, List.flatMap_cons]
    by_cases hk : v.kind = expected
    · simp [hk, hp, Value.stray, Value.compound]
    · simp [hk, Value.stray, verdict]

theorem ListElements.check_eq (xs : List Value) :
    check xs = verdict (elementKind xs) (elementViolations Value.nameless xs) := by
  rw [check, elementViolations]
  cases elementKind xs with
  | none => rfl
  | some expected => simp only [checkFrom_eq, map_verdict]

/-- An array asks the first element alone whether it is primitive; the others are of its kind. -/
theorem ArrayElements.check_eq (xs : List Value) :
    check xs = verdict (elementKind xs) (elementViolations Value.compound xs) := by
  cases xs with
  | nil => rfl
  | cons v rest =>
    simp only [check, elementViolations, elementKind, List.head?_cons, Option.map_some]
    by_cases hp : v.kind.isPrimitive = true
    · rw [if_neg (by simp [hp]), checkFrom_eq v.kind hp, map_verdict]
    · rw [if_pos (by simp [hp])]
      simp [Value.stray, Value.compound, hp, verdict]

section

variable {c : Charset}

theorem countLayout_flaw_eq (n : Nat) : (countLayout n).flaw = (overlong n).head? := by
  rw [countLayout, overlong]
  split <;> rfl

theorem stringLayout_flaw_eq (s : String) : (stringLayout c s).flaw = (overlong (c.encode s).length).head? := by
  rw [stringLayout, Layout.andThen_flaw_eq, countLayout_flaw_eq]
  exact Option.or_none

theorem Scalar.layout_flaw_eq (s : Scalar) : (s.layout c).flaw = (s.violations c).head? := by
  cases s with
  | string v => exact stringLayout_flaw_eq v
  | timestamp v =>
    simp only [layout, violations, ← Timestamp.isEmpty_iff]
    split <;> rfl
  | _ => rfl

theorem entryHeadLayout_flaw_eq (v : Value) : (entryHeadLayout c v).flaw = (v.nameless ++ v.overlongName c).head? := by
  rw [entryHeadLayout, Value.nameless, Value.overlongName]
  cases v.name with
  | none => rfl
  | some name => exact stringLayout_flaw_eq name

theorem nameLayout_flaw_eq (v : Value) : (stringLayout c (v.name.getD "")).flaw = (v.overlongName c).head? := by
  rw [stringLayout_flaw_eq, Value.overlongName]
  cases v.name with
  | none => cases c <;> rfl
  | some name => rfl

theorem entriesLayout_flaw_eq {es : List (String × Value)}
    (h : ∀ e ∈ es, (e.2.payload.layout c).flaw = (e.2.payload.violations c).head?) :
    (entriesLayout c es).flaw = (entriesViolations c es).head? := by
  induction es with
  | nil => rfl
  | cons e rest ih =>
    obtain ⟨key, v⟩ := e
    obtain ⟨hv, hrest⟩ := List.forall_mem_cons.1 h
    simp only at hv
    rw [entriesLayout, entriesViolations, Layout.andThen_flaw_eq, Layout.andThen_flaw_eq, entryHeadLayout_flaw_eq,
      Value.layout_eq, hv, ih hrest, Value.violations_eq]
    simp only [List.head?_append, Option.or_assoc]

theorem namedLayout_flaw_eq {xs : List Value}
    (h : ∀ v ∈ xs, (v.payload.layout c).flaw = (v.payload.violations c).head?) :
    (namedLayout c xs).flaw = (namedViolations c xs).head? := by
  induction xs with
  | nil => rfl
  | cons v rest ih =>
    obtain ⟨hv, hrest⟩ := List.forall_mem_cons.1 h
    rw [namedLayout, namedViolations, Layout.andThen_flaw_eq, Layout.andThen_flaw_eq, nameLayout_flaw_eq, Value.layout_eq,
      hv, ih hrest, Value.violations_eq, List.head?_append, List.head?_append, Option.or_assoc]

theorem bareLayout_flaw_eq {xs : List Value}
    (h : ∀ v ∈ xs, (v.payload.layout c).flaw = (v.payload.violations c).head?) :
    (bareLayout c xs).flaw = (bareViolations c xs).head? := by
  induction xs with
  | nil => rfl
  | cons v rest ih =>
    obtain ⟨hv, hrest⟩ := List.forall_mem_cons.1 h
    rw [bareLayout, bareViolations, Layout.andThen_flaw_eq, Value.layout_eq, hv, ih hrest, Value.violations_eq,
      List.head?_append]

theorem elementsHeadLayout_flaw_eq (k : Kind) (n : Nat) : (elementsHeadLayout k n).flaw = (overlong n).head? := by
  rw [elementsHeadLayout, Layout.andThen_flaw_eq, countLayout_flaw_eq]
  rfl

/-- Own elements, then the count, then what is below. -/
theorem elementsLayout_flaw_eq {xs : List Value} {check : Except Error (Option Kind)} {l : Layout} {own below : List Error}
    (hcheck : check = verdict (elementKind xs) own)
    (hl : l.flaw = below.head?) (hnil : xs = [] → below = []) :
    (elementsLayout check xs.length l).flaw = (own ++ overlong xs.length ++ below).head? := by
  subst hcheck
  cases own with
  | cons e rest => rfl
  | nil =>
    cases xs with
    | nil =>
      rw [hnil rfl]
      rfl
    | cons v rest =>
      show ((elementsHeadLayout v.kind (v :: rest).length).andThen l).flaw = _
      rw [Layout.andThen_flaw_eq, elementsHeadLayout_flaw_eq, hl, List.nil_append, List.head?_append]

theorem Payload.layout_flaw_eq (p : Payload) : (p.layout c).flaw = (p.violations c).head? := by
  induction p using Payload.tree_induction with
  | scalar s => exact s.layout_flaw_eq
  | object es ih => exact entriesLayout_flaw_eq ih
  | list xs ih =>
    exact elementsLayout_flaw_eq (ListElements.check_eq xs) (namedLayout_flaw_eq ih) fun h => by rw [h]; rfl
  | array xs ih =>
    exact elementsLayout_flaw_eq (ArrayElements.check_eq xs) (bareLayout_flaw_eq ih) fun h => by rw [h]; rfl

/-- A second element of another kind, without a name and with nothing to write. -/
example : (Payload.list [.named "a" (.scalar (.byte 0)), .anonymous (.scalar (.timestamp .empty))]).violations .utf8 =
    [.heterogeneousElements 1 Kind.byte Kind.timestamp, .unnamedValue Kind.timestamp,
      .malformedTimestamp .nothingToEncode] := by
  decide

/-- Nothing is wrong with a tree that can be written, and there is no other. -/
theorem Payload.violations_eq_nil {p : Payload} : p.violations c = [] ↔ p.Every (Encodable c) := by
  rw [← layout_flaw_iff, layout_flaw_eq, List.head?_eq_none_iff]

end

/-! ## Whose fault it is -/

/-- The caller's, but for an empty timestamp. -/
def Error.OfWriting (e : Error) : Prop :=
  e.category = if e = .malformedTimestamp .nothingToEncode then .corruption else .usage

theorem Error.ofWriting_of_usage {e : Error} (h : e.category = .usage) : e.OfWriting := by
  have hne : e ≠ .malformedTimestamp .nothingToEncode := fun he => by
    rw [he] at h
    cases h
  rw [OfWriting, if_neg hne]
  exact h

section

variable {c : Charset}

/-- What one check finds. -/
theorem ofWriting_check {p : Prop} [Decidable p] {e : Error} (h : e.category = .usage) :
    ∀ e' ∈ (if p then [] else [e]), Error.OfWriting e' := by
  intro e' he
  split at he
  · cases he
  · rw [List.mem_singleton.1 he]
    exact Error.ofWriting_of_usage h

theorem ofWriting_overlong (n : Nat) : ∀ e ∈ overlong n, e.OfWriting := ofWriting_check rfl

theorem Value.ofWriting_overlongName (v : Value) : ∀ e ∈ v.overlongName c, e.OfWriting := by
  rw [overlongName]
  split
  · exact List.forall_mem_nil _
  · exact ofWriting_overlong _

theorem Scalar.ofWriting_violations (s : Scalar) : ∀ e ∈ s.violations c, e.OfWriting := by
  cases s with
  | string v => exact ofWriting_overlong _
  | timestamp v =>
    rw [violations]
    split
    · exact List.forall_mem_singleton.2 rfl
    · exact List.forall_mem_nil _
  | _ => exact List.forall_mem_nil _

theorem ofWriting_elementViolations {rule : Value → List Error} (hrule : ∀ v, ∀ e ∈ rule v, Error.OfWriting e)
    (xs : List Value) : ∀ e ∈ elementViolations rule xs, e.OfWriting := by
  rw [elementViolations]
  split
  · exact List.forall_mem_nil _
  · intro e he
    obtain ⟨⟨v, i⟩, -, he⟩ := List.mem_flatMap.1 he
    rcases List.mem_append.1 he with he | he
    · exact ofWriting_check rfl e he
    · exact hrule v e he

theorem Payload.ofWriting_violations (p : Payload) : ∀ e ∈ p.violations c, e.OfWriting := by
  induction p using Payload.tree_induction with
  | scalar s => exact s.ofWriting_violations
  | object es ih =>
    simp only [violations, entriesViolations_eq, List.mem_flatMap, List.mem_append]
    rintro e ⟨x, hx, (he | he) | he⟩
    · exact ofWriting_check rfl e he
    · exact x.2.ofWriting_overlongName e he
    · exact ih x hx e he
  | list xs ih =>
    simp only [violations, namedViolations_eq, List.mem_flatMap, List.mem_append]
    rintro e ((he | he) | ⟨v, hv, he | he⟩)
    · exact ofWriting_elementViolations (fun v => ofWriting_check rfl) xs e he
    · exact ofWriting_overlong _ e he
    · exact v.ofWriting_overlongName e he
    · exact ih v hv e he
  | array xs ih =>
    simp only [violations, bareViolations_eq, List.mem_flatMap, List.mem_append]
    rintro e ((he | he) | ⟨v, hv, he⟩)
    · exact ofWriting_elementViolations (fun v => ofWriting_check rfl) xs e he
    · exact ofWriting_overlong _ e he
    · exact ih v hv e he

end

/-! ## The domain of the writer -/

namespace Value

/-- What the writer stops with, if it does: the depth goes before everything else. -/
def refusal (c : Charset) (v : Value) : Option Error :=
  if maxDepth < v.depth then some (.encodeTooDeep maxDepth) else (v.violations c).head?

theorem encodeLayout_flaw (c : Charset) (v : Value) : (v.encodeLayout c).flaw = v.refusal c := by
  rw [encodeLayout, refusal]
  split
  · rfl
  · rw [layout_eq, violations_eq, Payload.layout_flaw_eq]

theorem output_outcome (c : Charset) (v : Value) : (v.output c).2 =
    match v.refusal c with
    | none => .ok (v.output c).1.length
    | some e => .error e := by
  rw [output_eq, ← encodeLayout_flaw]
  rfl

theorem refusal_eq_none {c : Charset} {v : Value} :
    v.refusal c = none ↔ v.depth ≤ maxDepth ∧ v.payload.Every (Payload.Encodable c) := by
  rw [refusal, ← Payload.violations_eq_nil, ← violations_eq]
  split
  · exact iff_of_false (Option.some_ne_none _) (by omega)
  · rw [List.head?_eq_none_iff, and_iff_right (by omega)]

theorem ofWriting_refusal {c : Charset} {v : Value} {e : Error} (h : v.refusal c = some e) : e.OfWriting := by
  rw [refusal] at h
  split at h
  · cases h
    exact Error.ofWriting_of_usage rfl
  · rw [violations_eq] at h
    exact v.payload.ofWriting_violations e (List.mem_of_head? h)

/-- Exactly those trees can be written that are not too deep and have nothing wrong with
    them; any other is refused for its depth, or else for the first thing wrong with it. -/
theorem encode_domain (c : Charset) (v : Value) :
    ((∃ n, (v.output c).2 = .ok n) ↔ v.depth ≤ maxDepth ∧ v.payload.Every (Payload.Encodable c)) ∧
    (∀ e, (v.output c).2 = .error e ↔ v.refusal c = some e) ∧
    (v.violations c = [] ↔ v.payload.Every (Payload.Encodable c)) ∧
    ∀ e ∈ v.refusal c, e.OfWriting := by
  refine ⟨?_, fun e => ?_, ?_, fun e he => ofWriting_refusal he⟩
  · rw [← refusal_eq_none, output_outcome]
    cases v.refusal c <;> simp
  · rw [output_outcome]
    cases v.refusal c <;> simp
  · rw [violations_eq, Payload.violations_eq_nil]

end Value

end TypedDoc
