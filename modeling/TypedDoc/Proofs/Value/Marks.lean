/-
  TypedDoc.Proofs.Value.Marks — which nodes of a tree lose their flag in an attempt to write it.

  The nodes of a tree are listed with every node behind those below it (`Value.flags`). What
  is said up to the end of each is a layout too (`Value.ends`), and a node is finished if
  the sink takes all of that (`Value.finished`). An attempt clears the flags of the
  finished nodes and no others, whether it succeeds or fails (`Value.flags_encode`).
-/

import Mathlib.Data.List.Forall2
import TypedDoc.Proofs.Value.Layout

namespace TypedDoc

open Wire

/-! ## Lists of flags -/

/-- The flags of what was finished, cleared. -/
def clearedBy (finished flags : List Bool) : List Bool := List.zipWith (fun done flag => flag && !done) finished flags

/-- No flag that is set in one is clear in the other. -/
def Keeps (before after : List Bool) : Prop := List.Forall₂ (fun b a => b = true → a = true) before after

/-- Nothing that was finished is set. -/
def NoneSet (finished flags : List Bool) : Prop := ∀ node ∈ finished.zip flags, node.1 = true → node.2 = false

instance (finished flags : List Bool) : Decidable (NoneSet finished flags) :=
  inferInstanceAs (Decidable (∀ node ∈ finished.zip flags, node.1 = true → node.2 = false))

theorem clearedBy_append {finished finished' flags flags' : List Bool} (h : finished.length = flags.length) :
    clearedBy (finished ++ finished') (flags ++ flags') = clearedBy finished flags ++ clearedBy finished' flags' :=
  List.zipWith_append h

/-- Where nothing was finished. -/
theorem clearedBy_false {finished flags : List Bool} (hlen : finished.length = flags.length)
    (h : ∀ done ∈ finished, done = false) : clearedBy finished flags = flags := by
  induction finished generalizing flags with
  | nil => rw [List.eq_nil_of_length_eq_zero hlen.symm]; rfl
  | cons done rest ih =>
    cases flags with
    | nil => cases hlen
    | cons flag flags =>
      obtain ⟨rfl, hrest⟩ := List.forall_mem_cons.1 h
      have hih := ih (Nat.succ.inj hlen) hrest
      unfold clearedBy at hih ⊢
      rw [List.zipWith_cons_cons, hih, Bool.not_false, Bool.and_true]

theorem keeps_clearedBy {finished flags : List Bool} (hlen : finished.length = flags.length) :
    (Keeps flags (clearedBy finished flags) ↔ NoneSet finished flags) ∧
      (clearedBy finished flags = flags ↔ NoneSet finished flags) := by
  induction finished generalizing flags with
  | nil =>
    rw [List.eq_nil_of_length_eq_zero hlen.symm]
    exact ⟨⟨fun _ => nofun, fun _ => .nil⟩, fun _ => nofun, fun _ => rfl⟩
  | cons done rest ih =>
    cases flags with
    | nil => cases hlen
    | cons flag flags =>
      obtain ⟨hkeeps, heq⟩ := ih (Nat.succ.inj hlen)
      have hnone : NoneSet (done :: rest) (flag :: flags) ↔ (done = true → flag = false) ∧ NoneSet rest flags := by
        unfold NoneSet
        rw [List.zip_cons_cons, List.forall_mem_cons]
      have hcleared : clearedBy (done :: rest) (flag :: flags) = (flag && !done) :: clearedBy rest flags := rfl
      rw [hnone, hcleared, ← hkeeps]
      constructor
      · unfold Keeps
        rw [List.forall₂_cons]
        refine and_congr_left fun _ => ?_
        cases done <;> cases flag <;> decide
      · rw [List.cons.injEq, heq, hkeeps]
        refine and_congr_left fun _ => ?_
        cases done <;> cases flag <;> decide

theorem keeps_concat {before after : List Bool} {b a : Bool} :
    Keeps (before ++ [b]) (after ++ [a]) ↔ Keeps before after ∧ (b = true → a = true) := by
  unfold Keeps
  rw [← List.forall₂_reverse_iff, List.reverse_concat, List.reverse_concat, List.forall₂_cons, List.forall₂_reverse_iff, and_comm]

/-! ## Nodes -/

mutual

/-- The flags of all nodes, each node's behind those below it. -/
def Value.flags : Value → List Bool
  | ⟨_, p, modified⟩ => p.flags ++ [modified]

def Payload.flags : Payload → List Bool
  | .scalar _ => []
  | .object es => flagsOfEntries es
  | .list xs | .array xs => flagsOfElements xs

def flagsOfEntries : List (String × Value) → List Bool
  | [] => []
  | (_, v) :: rest => v.flags ++ flagsOfEntries rest

def flagsOfElements : List Value → List Bool
  | [] => []
  | v :: rest => v.flags ++ flagsOfElements rest

end

mutual

/-- What is said up to the end of each node. -/
def Value.ends (c : Charset) : Value → List Layout
  | ⟨_, p, _⟩ => p.ends c ++ [p.layout c]

def Payload.ends (c : Charset) : Payload → List Layout
  | .scalar _ => []
  | .object es => entriesEnds c es
  | .list xs => (namedEnds c xs).map (elementsLayout (ListElements.check xs) xs.length)
  | .array xs => (bareEnds c xs).map (elementsLayout (ArrayElements.check xs) xs.length)

def entriesEnds (c : Charset) : List (String × Value) → List Layout
  | [] => []
  | (_, v) :: rest => (v.ends c ++ (entriesEnds c rest).map (v.layout c).andThen).map (entryHeadLayout c v).andThen

def namedEnds (c : Charset) : List Value → List Layout
  | [] => []
  | v :: rest => (v.ends c ++ (namedEnds c rest).map (v.layout c).andThen).map (stringLayout c (v.name.getD "")).andThen

def bareEnds (c : Charset) : List Value → List Layout
  | [] => []
  | v :: rest => v.ends c ++ (bareEnds c rest).map (v.layout c).andThen

end

/-- A sink takes all of a layout. -/
def Wire.Layout.fits (l : Layout) (k : Sink) : Bool :=
  match l.write k with
  | .ok .. => true
  | .error .. => false

/-- For each node, whether all up to its end was written. -/
def Value.finished (c : Charset) (v : Value) (k : Sink) : List Bool :=
  (v.ends c).map fun l => decide (v.depth ≤ maxDepth) && l.fits k

namespace Wire.Layout

variable {a : Layout} {n : Nat} {k k' : Sink} {e : Error}

theorem fits_andThen_ok (h : a.write k = .ok n k') (b : Layout) : (a.andThen b).fits k = b.fits k' := by
  unfold fits
  rw [← bind_write]
  show (match EStateM.bind a.write (fun n => EStateM.bind b.write fun m => pure (n + m)) k with
    | .ok .. => true
    | .error .. => false) = _
  simp only [EStateM.bind, h]
  cases b.write k' <;> rfl

theorem fits_andThen_error (h : a.write k = .error e k') (b : Layout) : (a.andThen b).fits k = false := by
  unfold fits
  rw [← bind_write]
  show (match EStateM.bind a.write (fun n => EStateM.bind b.write fun m => pure (n + m)) k with
    | .ok .. => true
    | .error .. => false) = _
  simp only [EStateM.bind, h]

theorem fits_stop (e : Error) (k : Sink) : (stop e).fits k = false := by
  unfold fits
  rw [write_stop]
  rfl

theorem fits_holding (l : Layout) (bs : List UInt8) : l.fits (.holding bs) = l.flaw.isNone := by
  unfold fits
  rw [write_holding]
  cases l.flaw <;> rfl

end Wire.Layout

/-! ## Emission -/

/-- Emitting `a` clears the flags of the nodes up to whose end the sink took everything. -/
structure Tracks {α : Type} (flags : α → List Bool) (a : α) (ends : List Layout) (e : Sink → Emission α) : Prop where
  length : ends.length = (flags a).length
  cleared : ∀ k, flags (e k).1 = clearedBy (ends.map (·.fits k)) (flags a)

namespace Tracks

variable {α β γ : Type} {flags : α → List Bool} {ends : List Layout} {e : Sink → Emission α} {x : α} {a : Layout}

theorem none_fits {ends : List Layout} {fs : List Bool} {k : Sink} (hlen : ends.length = fs.length)
    (h : ∀ l ∈ ends, l.fits k = false) : clearedBy (ends.map (·.fits k)) fs = fs :=
  clearedBy_false (by rw [List.length_map, hlen]) (List.forall_mem_map.2 h)

/-- Something of the layout `a` in front. -/
theorem behind (h : Tracks flags x ends e) {head : Encoder Nat} (hhead : head = a.write) :
    Tracks flags x (ends.map a.andThen) fun k => after (head k) x e := by
  subst hhead
  have hlen : (ends.map a.andThen).length = (flags x).length := by rw [List.length_map, h.length]
  refine ⟨hlen, fun k => ?_⟩
  cases ha : a.write k with
  | error err k' =>
    rw [after_error, none_fits hlen (List.forall_mem_map.2 fun l _ => Layout.fits_andThen_error ha l)]
  | ok n k' =>
    rw [after_ok, h.cleared k', List.map_map]
    simp only [Function.comp_def, Layout.fits_andThen_ok ha]

/-- Two things in turn, joined into one. -/
theorem both {flags' : β → List Bool} {flags'' : γ → List Bool} {ends' : List Layout} {e' : Sink → Emission β} {y : β}
    (hx : Tracks flags x ends e) (hl : ∀ k, (e k).2 = a.write k) (hy : Tracks flags' y ends' e') (join : α → β → γ)
    (hjoin : ∀ x y, flags'' (join x y) = flags x ++ flags' y) :
    Tracks flags'' (join x y) (ends ++ ends'.map a.andThen) fun k =>
      let (x', r) := e k
      after r (join x' y) fun k' =>
        let (y', r') := e' k'
        (join x' y', r') := by
  have hlen : (ends'.map a.andThen).length = (flags' y).length := by rw [List.length_map, hy.length]
  refine ⟨by rw [hjoin, List.length_append, List.length_append, hx.length, hlen], fun k => ?_⟩
  rw [hjoin, List.map_append, clearedBy_append (by rw [List.length_map, hx.length]), ← hx.cleared k]
  cases ha : a.write k with
  | error err k' =>
    rw [none_fits hlen (List.forall_mem_map.2 fun l _ => Layout.fits_andThen_error ha l)]
    simp only [hl k, ha, after_error, hjoin]
  | ok n k' =>
    simp only [hl k, ha, after_ok, hjoin, hy.cleared k', List.map_map, Function.comp_def, Layout.fits_andThen_ok ha]

/-- The same under a constructor. -/
theorem wrap {flags' : β → List Bool} (h : Tracks flags x ends e) (f : α → β) (hf : ∀ x, flags' (f x) = flags x) :
    Tracks flags' (f x) ends fun k => let (x', r) := e k; (f x', r) :=
  ⟨by rw [hf, h.length], fun k => by rw [hf, hf, ← h.cleared k]⟩

/-- Where there are no nodes. -/
theorem still (hx : flags x = []) (w : Encoder Nat) : Tracks flags x [] fun k => (x, w k) :=
  ⟨(congrArg List.length hx).symm, fun _ => hx⟩

end Tracks

/-! ## Payloads and trees -/

theorem Value.tracks_of_payload {c : Charset} {v : Value}
    (h : Tracks Payload.flags v.payload (v.payload.ends c) (v.payload.emit c)) :
    Tracks Value.flags v (v.ends c) (v.emit c) := by
  obtain ⟨name, p, modified⟩ := v
  simp only at h
  refine ⟨?_, fun k => ?_⟩
  · rw [Value.ends, Value.flags, List.length_append, List.length_append, h.length]
    rfl
  · rw [Value.ends, Value.flags, List.map_append, clearedBy_append (by rw [List.length_map, h.length]), ← h.cleared k]
    have ho := (p.emits c).outcome k
    simp only [Value.emit, List.map_cons, List.map_nil, Layout.fits, ← ho]
    rcases p.emit c k with ⟨p', _ | _⟩
    · simp only [Value.flags, clearedBy, List.zipWith_cons_cons, List.zipWith_nil_left, Bool.not_true, Bool.and_false]
    · simp only [Value.flags, clearedBy, List.zipWith_cons_cons, List.zipWith_nil_left, Bool.not_false, Bool.and_true]

section

variable {c : Charset}

theorem tracks_entries {es : List (String × Value)}
    (h : ∀ e ∈ es, Tracks Payload.flags e.2.payload (e.2.payload.ends c) (e.2.payload.emit c)) :
    Tracks flagsOfEntries es (entriesEnds c es) (emitEntries c es) := by
  induction es with
  | nil => exact .still rfl (putBytes [TypeId.terminator.toByte])
  | cons e rest ih =>
    obtain ⟨key, v⟩ := e
    have hv := Value.tracks_of_payload (h _ List.mem_cons_self)
    have hrest := ih fun e he => h e (List.mem_cons_of_mem _ he)
    have hboth : Tracks flagsOfEntries ((key, v) :: rest) _ _ :=
      hv.both (v.emits c).outcome hrest (fun v' rest' => (key, v') :: rest') fun _ _ => rfl
    exact hboth.behind (entryHead_eq c v)

theorem tracks_named {xs : List Value}
    (h : ∀ v ∈ xs, Tracks Payload.flags v.payload (v.payload.ends c) (v.payload.emit c)) :
    Tracks flagsOfElements xs (namedEnds c xs) (emitNamed c xs) := by
  induction xs with
  | nil => exact .still rfl fun k => .ok 0 k
  | cons v rest ih =>
    have hv := Value.tracks_of_payload (h _ List.mem_cons_self)
    have hrest := ih fun v hv => h v (List.mem_cons_of_mem _ hv)
    have hboth : Tracks flagsOfElements (v :: rest) _ _ := hv.both (v.emits c).outcome hrest List.cons fun _ _ => rfl
    exact hboth.behind (putString_eq c _)

theorem tracks_bare {xs : List Value}
    (h : ∀ v ∈ xs, Tracks Payload.flags v.payload (v.payload.ends c) (v.payload.emit c)) :
    Tracks flagsOfElements xs (bareEnds c xs) (emitBare c xs) := by
  induction xs with
  | nil => exact .still rfl fun k => .ok 0 k
  | cons v rest ih =>
    have hv := Value.tracks_of_payload (h _ List.mem_cons_self)
    have hrest := ih fun v hv => h v (List.mem_cons_of_mem _ hv)
    exact hv.both (v.emits c).outcome hrest List.cons fun _ _ => rfl

/-- A list or array, `con` of its elements. -/
theorem tracks_elements {xs : List Value} {ends : List Layout} {e : Sink → Emission (List Value)}
    (h : Tracks flagsOfElements xs ends e) (check : Except Error (Option Kind)) (con : List Value → Payload)
    (hcon : ∀ xs, (con xs).flags = flagsOfElements xs) :
    (check = .ok none → xs = []) → Tracks Payload.flags (con xs) (ends.map (elementsLayout check xs.length)) fun k =>
      match check with
      | .error err => (con xs, .error err k)
      | .ok none => (con xs, putBytes [TypeId.terminator.toByte] k)
      | .ok (some kind) =>
        let (xs', r) := after (elementsHead kind xs.length k) xs fun k' => e k'
        (con xs', r) := by
  intro hnil
  have hlen : (ends.map (elementsLayout check xs.length)).length = (con xs).flags.length := by
    rw [List.length_map, hcon, h.length]
  match check, hnil, hlen with
  | .error err, _, hlen =>
    exact ⟨hlen, fun k => (Tracks.none_fits hlen (List.forall_mem_map.2 fun l _ => Layout.fits_stop err k)).symm⟩
  | .ok none, hnil, _ =>
    obtain rfl := hnil rfl
    obtain rfl := List.eq_nil_of_length_eq_zero h.length
    exact .still (hcon []) (putBytes [TypeId.terminator.toByte])
  | .ok (some kind), _, _ => exact (h.behind (elementsHead_eq kind xs.length)).wrap con hcon

end

theorem Payload.tracks (c : Charset) (p : Payload) : Tracks flags p (p.ends c) (p.emit c) := by
  induction p using Payload.tree_induction with
  | scalar s => exact .still rfl (s.write c)
  | object es ih => exact (tracks_entries ih).wrap Payload.object fun _ => rfl
  | list xs ih =>
    exact tracks_elements (tracks_named ih) (ListElements.check xs) .list (fun _ => rfl) ListElements.eq_nil_of_check
  | array xs ih =>
    exact tracks_elements (tracks_bare ih) (ArrayElements.check xs) .array (fun _ => rfl) ArrayElements.eq_nil_of_check

theorem Value.tracks (c : Charset) (v : Value) : Tracks flags v (v.ends c) (v.emit c) :=
  Value.tracks_of_payload (v.payload.tracks c)

namespace Value

theorem flags_eq (v : Value) : v.flags = v.payload.flags ++ [v.modified] := by
  cases v
  simp only [flags]

theorem length_finished (c : Charset) (v : Value) (k : Sink) : (v.finished c k).length = v.flags.length := by
  unfold finished
  rw [List.length_map, (v.tracks c).length]

/-- What an attempt to encode makes of the flags, whatever comes of it. -/
theorem flags_encode (c : Charset) (v : Value) (k : Sink) : (v.encode c k).1.flags = clearedBy (v.finished c k) v.flags := by
  unfold encode
  by_cases hd : maxDepth < v.depth
  · rw [if_pos hd, clearedBy_false (length_finished c v k)]
    intro done hdone
    obtain ⟨l, -, rfl⟩ := List.mem_map.1 hdone
    rw [decide_eq_false (Nat.not_le.2 hd), Bool.false_and]
  · rw [if_neg hd, (v.tracks c).cleared k]
    unfold finished
    simp only [decide_eq_true (Nat.not_lt.1 hd), Bool.true_and]

theorem clearModified_encode (c : Charset) (v : Value) (k : Sink) : (v.encode c k).1.clearModified = v.clearModified := by
  unfold encode
  split
  · rfl
  · exact (v.emits c).same k

/-- Below the value itself. -/
theorem payload_flags_encode (c : Charset) (v : Value) (k : Sink) : (v.encode c k).1.payload.flags =
    clearedBy ((v.payload.ends c).map fun l => decide (v.depth ≤ maxDepth) && l.fits k) v.payload.flags := by
  have h := v.flags_encode c k
  have hends : v.ends c = v.payload.ends c ++ [v.payload.layout c] := by cases v; simp only [ends]
  have hlen : ((v.payload.ends c).map fun l => decide (v.depth ≤ maxDepth) && l.fits k).length = v.payload.flags.length := by
    rw [List.length_map, (v.payload.tracks c).length]
  rw [flags_eq, flags_eq v, finished, hends, List.map_append, clearedBy_append hlen] at h
  exact (List.append_inj' h rfl).1

end Value

end TypedDoc
