/-
  TypedDoc.Proofs.Value.Layout — writing a tree, taken apart: what it says, and what it
  makes of the flags.

  - `Payload.layout`: what the writer says, by recursion over the tree alone.
  - `Payload.emits`: writing is writing that layout, to any sink; afterwards the tree is
    the same but for flags, and after a success every flag is clear.
  - `Value.encode_limited`: a sink with a limit gets the beginning of what one without gets.
  - `Payload.layout_clearModified`: flags do not show in what is written.
-/

import TypedDoc.Proofs.Timestamp.Wire
import TypedDoc.Proofs.Value.Tree
import TypedDoc.Proofs.Wire.Offers
import TypedDoc.Value.Encode

namespace TypedDoc

open Wire

/-! ## Layouts -/

namespace Scalar

def bytes (c : Charset) : Scalar → List UInt8
  | .boolean v => [if v then 1 else 0]
  | .byte v => BigEndian.toBytes 1 v.toUInt8.toNat
  | .short v => BigEndian.toBytes 2 v.toUInt16.toNat
  | .int v => BigEndian.toBytes 4 v.toUInt32.toNat
  | .long v => BigEndian.toBytes 8 v.toUInt64.toNat
  | .float v => BigEndian.toBytes 4 v.bits.toNat
  | .double v => BigEndian.toBytes 8 v.bits.toNat
  | .string v => stringBytes c v
  | .timestamp v => v.wire

def layout (c : Charset) : Scalar → Layout
  | .string v => stringLayout c v
  | .timestamp v => if v.isEmpty then .stop (.malformedTimestamp .nothingToEncode) else .full v.wire
  | s => .full (s.bytes c)

theorem write_eq (c : Charset) (s : Scalar) : s.write c = (s.layout c).write := by
  cases s with
  | string v => exact putString_eq c v
  | timestamp v =>
    simp only [write, layout, Timestamp.write]
    split
    · exact (Layout.write_stop _).symm
    · rfl
  | _ => rfl

end Scalar

def entryHeadLayout (c : Charset) (v : Value) : Layout :=
  match v.name with
  | none => .stop (.unnamedValue v.kind)
  | some name => (Layout.full [v.kind.toByte]).andThen (stringLayout c name)

def elementsHeadLayout (k : Kind) (count : Nat) : Layout := (Layout.full [k.toByte]).andThen (countLayout count)

/-- So many elements, once they are checked. -/
def elementsLayout (check : Except Error (Option Kind)) (count : Nat) (elements : Layout) : Layout :=
  match check with
  | .error e => .stop e
  | .ok none => .full [TypeId.terminator.toByte]
  | .ok (some kind) => (elementsHeadLayout kind count).andThen elements

mutual

def Value.layout (c : Charset) : Value → Layout
  | ⟨_, p, _⟩ => p.layout c

def Payload.layout (c : Charset) : Payload → Layout
  | .scalar s => s.layout c
  | .object es => entriesLayout c es
  | .list xs => elementsLayout (ListElements.check xs) xs.length (namedLayout c xs)
  | .array xs => elementsLayout (ArrayElements.check xs) xs.length (bareLayout c xs)

def entriesLayout (c : Charset) : List (String × Value) → Layout
  | [] => .full [TypeId.terminator.toByte]
  | (_, v) :: rest => (entryHeadLayout c v).andThen ((v.layout c).andThen (entriesLayout c rest))

def namedLayout (c : Charset) : List Value → Layout
  | [] => .full []
  | v :: rest => (stringLayout c (v.name.getD "")).andThen ((v.layout c).andThen (namedLayout c rest))

def bareLayout (c : Charset) : List Value → Layout
  | [] => .full []
  | v :: rest => (v.layout c).andThen (bareLayout c rest)

end

theorem Value.layout_eq (c : Charset) (v : Value) : v.layout c = v.payload.layout c := by
  cases v
  simp only [Value.layout]

theorem entryHead_eq (c : Charset) (v : Value) : entryHead c v = (entryHeadLayout c v).write := by
  rw [entryHead, entryHeadLayout]
  cases v.name with
  | none => exact (Layout.write_stop _).symm
  | some name =>
    simp only [← Layout.bind_write, Layout.write_full, ← putString_eq]

theorem elementsHead_eq (k : Kind) (count : Nat) : elementsHead k count = (elementsHeadLayout k count).write := by
  rw [elementsHeadLayout, ← Layout.bind_write, Layout.write_full, ← putCount_eq]
  rfl

/-! ## Emission -/

/-- Emitting `a` writes the layout and changes flags at most; `clear` clears all of them. -/
structure Emits {α : Type} (clear : α → α) (a : α) (l : Layout) (e : Sink → Emission α) : Prop where
  outcome : ∀ k, (e k).2 = l.write k
  same : ∀ k, clear (e k).1 = clear a
  cleared : ∀ k n k', (e k).2 = .ok n k' → (e k).1 = clear a

section

variable {α : Type} {kept : α} {next : Sink → Emission α}

theorem after_ok (n : Nat) (k : Sink) : after (.ok n k) kept next = ((next k).1,
    match (next k).2 with
    | .ok m k' => .ok (n + m) k'
    | .error e k' => .error e k') := by
  simp only [after]
  rcases next k with ⟨a, _ | _⟩ <;> rfl

theorem after_error (e : Error) (k : Sink) : after (.error e k) kept next = (kept, .error e k) := rfl

theorem after_outcome {a b : Layout} (h : ∀ k, (next k).2 = b.write k) (k : Sink) :
    (after (a.write k) kept next).2 = (a.andThen b).write k := by
  rw [← Layout.bind_write]
  show _ = EStateM.bind a.write (fun n => EStateM.bind b.write (fun m => pure (n + m))) k
  simp only [EStateM.bind]
  cases a.write k with
  | error e k' => rfl
  | ok n k' =>
    simp only [after_ok, h k']
    cases b.write k' <;> rfl

theorem after_ok_ok {r : EStateM.Result Error Sink Nat} {n : Nat} {k' : Sink} (h : (after r kept next).2 = .ok n k') :
    ∃ m k, r = .ok m k ∧ ∃ m', (next k).2 = .ok m' k' := by
  cases r with
  | error e k => cases h
  | ok m k =>
    rw [after_ok] at h
    refine ⟨m, k, rfl, ?_⟩
    cases hn : (next k).2 with
    | error e k'' => rw [hn] at h; cases h
    | ok m' k'' => rw [hn] at h; cases h; exact ⟨m', rfl⟩

end

namespace Emits

variable {α β γ : Type} {clear : α → α}

/-- Something of the layout `a` in front. -/
theorem behind {x : α} {a b : Layout} {e : Sink → Emission α} (h : Emits clear x b e) {head : Encoder Nat}
    (hhead : head = a.write) : Emits clear x (a.andThen b) fun k => after (head k) x e := by
  subst hhead
  refine ⟨after_outcome h.outcome, fun k => ?_, fun k n k' hk => ?_⟩
  · cases a.write k with
    | error err k' => rfl
    | ok n k' => rw [after_ok]; exact h.same k'
  · obtain ⟨m, k'', hm, m', hm'⟩ := after_ok_ok hk
    rw [hm, after_ok]
    exact h.cleared k'' m' k' hm'

/-- Two things in turn, joined into one. -/
theorem both {clear' : β → β} {clear'' : γ → γ} {x : α} {y : β} {a b : Layout} {e : Sink → Emission α}
    {e' : Sink → Emission β} (hx : Emits clear x a e) (hy : Emits clear' y b e') (join : α → β → γ)
    (hjoin : ∀ x y, clear'' (join x y) = join (clear x) (clear' y)) :
    Emits clear'' (join x y) (a.andThen b) fun k =>
      let (x', r) := e k
      after r (join x' y) fun k' =>
        let (y', r') := e' k'
        (join x' y', r') := by
  refine ⟨fun k => ?_, fun k => ?_, fun k n k' hk => ?_⟩
  · have hnext : ∀ k', ((join (e k).1 (e' k').1, (e' k').2) : Emission γ).2 = b.write k' := hy.outcome
    simp only [hx.outcome k]
    exact after_outcome hnext k
  · have hs := hx.same k
    cases hr : (e k).2 with
    | error err k' =>
      simp only [hr, after_error, hjoin, hs]
    | ok n k' =>
      have hs' := hy.same k'
      simp only [hr, after_ok, hjoin, hs, hs']
  · obtain ⟨m, k'', hm, m', hm'⟩ := after_ok_ok hk
    have hc := hx.cleared k m k'' hm
    have hc' := hy.cleared k'' m' k' hm'
    simp only [hm, after_ok, hc, hc', hjoin]

/-- The same under a constructor. -/
theorem wrap {clear' : β → β} {x : α} {l : Layout} {e : Sink → Emission α} (h : Emits clear x l e) (f : α → β)
    (hf : ∀ x, clear' (f x) = f (clear x)) : Emits clear' (f x) l fun k => let (x', r) := e k; (f x', r) :=
  ⟨h.outcome, fun k => by rw [hf, hf, ← h.same k], fun k n k' hk => by rw [hf, ← h.cleared k n k' hk]⟩

/-- Where nothing has a flag. -/
theorem still {x : α} {l : Layout} {w : Encoder Nat} (hw : w = l.write) (hx : clear x = x) :
    Emits clear x l fun k => (x, w k) :=
  ⟨fun _ => by rw [hw], fun _ => rfl, fun _ _ _ _ => hx.symm⟩

/-- Where nothing is tried. -/
theorem failed (x : α) (err : Error) : Emits clear x (.stop err) fun k => (x, .error err k) :=
  ⟨fun _ => by rw [Layout.write_stop]; rfl, fun _ => rfl, fun _ _ _ h => nomatch h⟩

end Emits

/-! ## Payloads and trees -/

theorem Value.emits_of_payload {c : Charset} {v : Value}
    (h : Emits Payload.clearModified v.payload (v.payload.layout c) (v.payload.emit c)) :
    Emits Value.clearModified v (v.layout c) (v.emit c) := by
  obtain ⟨name, p, modified⟩ := v
  simp only at h
  have hemit (k : Sink) : Value.emit c ⟨name, p, modified⟩ k =
      (⟨name, (p.emit c k).1, match (p.emit c k).2 with | .ok _ _ => false | .error _ _ => modified⟩, (p.emit c k).2) := by
    simp only [Value.emit]
    rcases p.emit c k with ⟨p', _ | _⟩ <;> rfl
  refine ⟨fun k => ?_, fun k => ?_, fun k n k' hk => ?_⟩
  · rw [hemit, Value.layout]
    exact h.outcome k
  · rw [hemit, Value.clearModified, Value.clearModified, h.same k]
  · rw [hemit] at hk ⊢
    simp only at hk
    simp only [hk, h.cleared k n k' hk, Value.clearModified]

section

variable {c : Charset}

theorem emits_entries {es : List (String × Value)}
    (h : ∀ e ∈ es, Emits Payload.clearModified e.2.payload (e.2.payload.layout c) (e.2.payload.emit c)) :
    Emits clearEntries es (entriesLayout c es) (emitEntries c es) := by
  induction es with
  | nil => exact .still rfl rfl
  | cons e rest ih =>
    obtain ⟨key, v⟩ := e
    have hv := Value.emits_of_payload (h _ List.mem_cons_self)
    have hrest := ih fun e he => h e (List.mem_cons_of_mem _ he)
    have hboth : Emits clearEntries ((key, v) :: rest) _ _ :=
      hv.both hrest (fun v' rest' => (key, v') :: rest') fun _ _ => rfl
    exact hboth.behind (entryHead_eq c v)

theorem putBytes_nil : putBytes [] = pure 0 := by
  funext k
  show EStateM.bind (put []) (fun _ => pure 0) k = _
  simp only [EStateM.bind, put_nil]

theorem emits_named {xs : List Value}
    (h : ∀ v ∈ xs, Emits Payload.clearModified v.payload (v.payload.layout c) (v.payload.emit c)) :
    Emits clearElements xs (namedLayout c xs) (emitNamed c xs) := by
  induction xs with
  | nil => exact .still putBytes_nil.symm rfl
  | cons v rest ih =>
    have hv := Value.emits_of_payload (h _ List.mem_cons_self)
    have hrest := ih fun v hv => h v (List.mem_cons_of_mem _ hv)
    have hboth : Emits clearElements (v :: rest) _ _ := hv.both hrest List.cons fun _ _ => rfl
    exact hboth.behind (putString_eq c _)

theorem emits_bare {xs : List Value}
    (h : ∀ v ∈ xs, Emits Payload.clearModified v.payload (v.payload.layout c) (v.payload.emit c)) :
    Emits clearElements xs (bareLayout c xs) (emitBare c xs) := by
  induction xs with
  | nil => exact .still putBytes_nil.symm rfl
  | cons v rest ih =>
    have hv := Value.emits_of_payload (h _ List.mem_cons_self)
    have hrest := ih fun v hv => h v (List.mem_cons_of_mem _ hv)
    exact hv.both hrest List.cons fun _ _ => rfl

theorem elementKind_eq_none {xs : List Value} (h : elementKind xs = none) : xs = [] := by
  cases xs with
  | nil => rfl
  | cons v rest => cases h

theorem ListElements.eq_nil_of_check {xs : List Value} (h : check xs = .ok none) : xs = [] := by
  simp only [check] at h
  split at h
  · exact elementKind_eq_none ‹_›
  · rename_i expected _
    cases hc : checkFrom expected 0 xs <;> rw [hc] at h <;> cases h

theorem ArrayElements.eq_nil_of_check {xs : List Value} (h : check xs = .ok none) : xs = [] := by
  simp only [check] at h
  split at h
  · exact elementKind_eq_none ‹_›
  · rename_i expected _
    split at h
    · cases h
    · cases hc : checkFrom expected 0 xs <;> rw [hc] at h <;> cases h

/-- A list or array, `con` of its elements. -/
theorem emits_elements {xs : List Value} {l : Layout} {e : Sink → Emission (List Value)}
    (h : Emits clearElements xs l e) (check : Except Error (Option Kind)) (con : List Value → Payload)
    (hcon : ∀ xs, (con xs).clearModified = con (clearElements xs)) :
    (check = .ok none → xs = []) → Emits Payload.clearModified (con xs) (elementsLayout check xs.length l) fun k =>
      match check with
      | .error err => (con xs, .error err k)
      | .ok none => (con xs, putBytes [TypeId.terminator.toByte] k)
      | .ok (some kind) =>
        let (xs', r) := after (elementsHead kind xs.length k) xs fun k' => e k'
        (con xs', r) := by
  intro hnil
  match check, hnil with
  | .error err, _ => exact .failed _ err
  | .ok none, hnil =>
    obtain rfl := hnil rfl
    exact .still rfl (hcon [])
  | .ok (some kind), _ => exact (h.behind (elementsHead_eq kind xs.length)).wrap con hcon

end

theorem Payload.emits (c : Charset) (p : Payload) : Emits clearModified p (p.layout c) (p.emit c) := by
  induction p using Payload.tree_induction with
  | scalar s => exact .still (s.write_eq c) rfl
  | object es ih => exact (emits_entries ih).wrap Payload.object fun _ => rfl
  | list xs ih =>
    exact emits_elements (emits_named ih) (ListElements.check xs) .list (fun _ => rfl) ListElements.eq_nil_of_check
  | array xs ih =>
    exact emits_elements (emits_bare ih) (ArrayElements.check xs) .array (fun _ => rfl) ArrayElements.eq_nil_of_check

theorem Value.emits (c : Charset) (v : Value) : Emits clearModified v (v.layout c) (v.emit c) :=
  Value.emits_of_payload (v.payload.emits c)

/-- The flag of a node that was not written in full stays. -/
theorem Value.modified_emit {c : Charset} {v : Value} {k k' : Sink} {e : Error} (h : (v.emit c k).2 = .error e k') :
    (v.emit c k).1.modified = v.modified := by
  obtain ⟨name, p, modified⟩ := v
  simp only [Value.emit] at h ⊢
  cases hp : (p.emit c k).2 with
  | ok n k'' =>
    rw [show p.emit c k = (_, .ok n k'') from Prod.ext rfl hp] at h
    cases h
  | error e' k'' => rw [show p.emit c k = (_, .error e' k'') from Prod.ext rfl hp]

/-! ## Whole trees, and sinks with a limit -/

namespace Value

/-- The limit for nesting goes before anything that is written. -/
def encodeLayout (c : Charset) (v : Value) : Layout :=
  if maxDepth < v.depth then .stop (.encodeTooDeep maxDepth) else v.layout c

theorem encode_outcome (c : Charset) (v : Value) (k : Sink) : (v.encode c k).2 = (v.encodeLayout c).write k := by
  rw [encode, encodeLayout]
  split
  · rw [Layout.write_stop]
    rfl
  · exact (v.emits c).outcome k

/-- The bytes that a sink without limits gets, and what comes of it. -/
def output (c : Charset) (v : Value) : List UInt8 × Except Error Nat := seen (v.encode c .unlimited).2

theorem output_eq (c : Charset) (v : Value) : v.output c = ((v.encodeLayout c).bytes, (v.encodeLayout c).outcome) := by
  rw [output, encode_outcome, Layout.seen_unlimited]

/-- A sink with a limit gets the same up to its limit, and the same comes of it if that is
    all. It may take what it is offered in pieces, down to the last byte that fits. -/
theorem encode_limited (c : Charset) (v : Value) :
    (∀ n, (v.output c).2 = .ok n → n = (v.output c).1.length) ∧
    (∀ (written : Array UInt8) (room : Nat) (full : Error) (flushFault : Option Error),
      seen (v.encode c ⟨written, some room, full, flushFault⟩).2 =
        (written.toList ++ (v.output c).1.take room,
          if (v.output c).1.length ≤ room then (v.output c).2 else .error full)) ∧
    ∀ (more : Sink → Nat) (bs : List UInt8), offerAll more bs = put bs := by
  rw [output_eq]
  refine ⟨fun n hn => ?_, fun written room full flushFault => ?_, offerAll_eq_put⟩
  · simp only [Layout.outcome] at hn
    split at hn
    · cases hn
      rfl
    · cases hn
  · rw [encode_outcome]
    exact (v.encodeLayout c).seen_limited written room full flushFault

end Value

/-! ## Flags do not show -/

section

variable (c : Charset)

theorem entryHeadLayout_clearModified (v : Value) : entryHeadLayout c v.clearModified = entryHeadLayout c v := by
  simp only [entryHeadLayout, Value.name_clearModified, Value.kind_clearModified]

theorem elementKind_clearElements (xs : List Value) : elementKind (clearElements xs) = elementKind xs := by
  cases xs with
  | nil => rfl
  | cons v rest => simp only [clearElements, elementKind, List.head?_cons, Option.map_some, Value.kind_clearModified]

theorem length_clearElements (xs : List Value) : (clearElements xs).length = xs.length := by
  rw [clearElements_eq_map, List.length_map]

theorem ListElements.checkFrom_clearElements (expected : Kind) (i : Nat) (xs : List Value) :
    checkFrom expected i (clearElements xs) = checkFrom expected i xs := by
  induction xs generalizing i with
  | nil => rfl
  | cons v rest ih =>
    simp only [clearElements, checkFrom, Value.kind_clearModified, Value.name_clearModified, ih]

theorem ArrayElements.checkFrom_clearElements (expected : Kind) (i : Nat) (xs : List Value) :
    checkFrom expected i (clearElements xs) = checkFrom expected i xs := by
  induction xs generalizing i with
  | nil => rfl
  | cons v rest ih => simp only [clearElements, checkFrom, Value.kind_clearModified, ih]

theorem ListElements.check_clearElements (xs : List Value) : check (clearElements xs) = check xs := by
  simp only [check, elementKind_clearElements, checkFrom_clearElements]

theorem ArrayElements.check_clearElements (xs : List Value) : check (clearElements xs) = check xs := by
  simp only [check, elementKind_clearElements, checkFrom_clearElements]

theorem Payload.layout_clearModified (p : Payload) : p.clearModified.layout c = p.layout c := by
  induction p using Payload.tree_induction with
  | scalar s => rfl
  | object es ih =>
    simp only [clearModified, layout]
    induction es with
    | nil => rfl
    | cons e rest ihr =>
      obtain ⟨key, v⟩ := e
      have hv := ih _ List.mem_cons_self
      simp only [clearEntries, entriesLayout, entryHeadLayout_clearModified, Value.layout_eq, Value.payload_clearModified, hv,
        ihr fun e he => ih e (List.mem_cons_of_mem _ he)]
  | list xs ih =>
    have hl : namedLayout c (clearElements xs) = namedLayout c xs := by
      induction xs with
      | nil => rfl
      | cons v rest ihr =>
        have hv := ih _ List.mem_cons_self
        simp only [clearElements, namedLayout, Value.name_clearModified, Value.layout_eq, Value.payload_clearModified, hv,
          ihr fun e he => ih e (List.mem_cons_of_mem _ he)]
    simp only [clearModified, layout, ListElements.check_clearElements, hl, length_clearElements]
  | array xs ih =>
    have hl : bareLayout c (clearElements xs) = bareLayout c xs := by
      induction xs with
      | nil => rfl
      | cons v rest ihr =>
        have hv := ih _ List.mem_cons_self
        simp only [clearElements, bareLayout, Value.layout_eq, Value.payload_clearModified, hv,
          ihr fun e he => ih e (List.mem_cons_of_mem _ he)]
    simp only [clearModified, layout, ArrayElements.check_clearElements, hl, length_clearElements]

end

end TypedDoc
