/-
  TypedDoc.Proofs.Value.RoundTrip — what comes back of a tree that was written.

  No tree is ruled out, however it was made: `Payload.collapse` says what is lost. Of
  entries of one name the last is kept, in the place of the first, and elements of an
  array lose their names; all else comes back. Nothing is lost exactly of a tree that is
  `Lossless` at every node.
-/

import TypedDoc.Proofs.Value.Reading
import TypedDoc.Proofs.Value.Writing

namespace TypedDoc

open Wire

/-! ## What is lost -/

mutual

def Value.collapse : Value → Value
  | ⟨name, p, _⟩ => ⟨name, p.collapse, false⟩

/-- The tree with every flag clear, every object's entries put in turn under the names they
    have, and no name on any element of an array. -/
def Payload.collapse : Payload → Payload
  | .scalar s => .scalar s
  | .object es => .object (Entries.putAll (collapseEntries es) [])
  | .list xs => .list (collapseElements xs)
  | .array xs => .array ((collapseElements xs).map fun v => { v with name := none })

def collapseEntries : List (String × Value) → List (String × Value)
  | [] => []
  | (_, v) :: rest => (v.name.getD "", v.collapse) :: collapseEntries rest

def collapseElements : List Value → List Value
  | [] => []
  | v :: rest => v.collapse :: collapseElements rest

end

theorem Value.collapse_eq (v : Value) : v.collapse = ⟨v.name, v.payload.collapse, false⟩ := by
  cases v
  simp only [Value.collapse]

theorem collapseEntries_eq_map (es : List (String × Value)) :
    collapseEntries es = es.map fun e => (e.2.name.getD "", ⟨e.2.name, e.2.payload.collapse, false⟩) := by
  induction es with
  | nil => rfl
  | cons e rest ih => simp only [collapseEntries, ih, List.map_cons, Value.collapse_eq]

theorem collapseElements_eq_map (xs : List Value) :
    collapseElements xs = xs.map fun v => ⟨v.name, v.payload.collapse, false⟩ := by
  induction xs with
  | nil => rfl
  | cons v rest ih => simp only [collapseElements, ih, List.map_cons, Value.collapse_eq]

namespace Payload

/-- Nothing of this node is lost. -/
def Lossless : Payload → Prop
  | .object es => (ObjectEntries.names es).Nodup
  | .array xs => ∀ v ∈ xs, v.name = none
  | _ => True

variable {c : Charset}

/-- The reader makes of the written bytes what is left of the tree. -/
theorem payload_spell {p : Payload} (h : p.Every (Encodable c)) : p.spell.payload = p.collapse := by
  induction p using Payload.tree_induction with
  | scalar s => exact congrArg Payload.scalar (Leaf.value_ofScalar s)
  | object es ih =>
    rw [every_object] at h
    simp only [spell, Spelling.payload, collapse, Spelling.entries_eq_map, spellEntries_eq_map, collapseEntries_eq_map,
      List.map_map]
    congr 2
    refine List.map_congr_left fun e he => ?_
    obtain ⟨name, hn, _⟩ := h.1 e he
    simp [hn, ih e he (h.2 e he)]
  | list xs ih =>
    rw [every_list] at h
    simp only [spell, collapse, collapseElements_eq_map]
    cases hk : elementKind xs with
    | none =>
      obtain rfl := elementKind_eq_none hk
      rfl
    | some k =>
      simp only [Spelling.payload, Spelling.elements_eq_map, spellElements_eq_map, List.map_map]
      congr 1
      refine List.map_congr_left fun v hv => ?_
      obtain ⟨name, hn, _⟩ := h.1.1.2 v hv
      simp [hn, ih v hv (h.2 v hv)]
  | array xs ih =>
    rw [every_array] at h
    simp only [spell, collapse, collapseElements_eq_map]
    cases hk : elementKind xs with
    | none =>
      obtain rfl := elementKind_eq_none hk
      rfl
    | some k =>
      simp only [Spelling.payload, List.map_map]
      congr 1
      refine List.map_congr_left fun v hv => ?_
      obtain ⟨s, hs⟩ := scalar_of_primitive (h.1.1.2 v hv)
      simp [hs, leafOf, Leaf.value_ofScalar, collapse]

/-- A name for every child makes names and children correspond. -/
theorem names_eq_map {es : List (String × Value)} (h : ∀ e ∈ es, ∃ name, e.2.name = some name ∧ Counted c name) :
    ObjectEntries.names es = es.map fun e => e.2.name.getD "" := by
  induction es with
  | nil => rfl
  | cons e rest ih =>
    obtain ⟨⟨name, hn, _⟩, h⟩ := List.forall_mem_cons.1 h
    have hrest := ih h
    simp only [ObjectEntries.names] at hrest ⊢
    rw [List.filterMap_cons, hn, List.map_cons, hn, hrest]
    rfl

theorem contents_collapse_iff {p : Payload} (h : p.Every (Encodable c)) :
    p.collapse.contents = p.contents ↔ p.Every Lossless := by
  induction p using Payload.tree_induction with
  | scalar s => simp [collapse, Lossless]
  | object es ih =>
    rw [every_object] at h
    have hkeys : Entries.keys (collapseEntries es) = ObjectEntries.names es := by
      rw [names_eq_map h.1, collapseEntries_eq_map]
      simp [Entries.keys, Function.comp_def]
    have hall : (∀ e ∈ es, e.2.payload.collapse.contents = e.2.payload.contents) ↔ ∀ e ∈ es, e.2.payload.Every Lossless :=
      forall₂_congr fun e he => ih e he (h.2 e he)
    rw [every_object, Lossless, ← hall, ← hkeys]
    simp only [collapse, contents, object.injEq, contentsOfEntries_eq_map]
    constructor
    · intro heq
      have hnodup : (Entries.keys (collapseEntries es)).Nodup := by
        have hlen := congrArg List.length heq
        rw [List.length_map, List.length_map] at hlen
        exact Entries.nodup_of_length_putAll (by rw [hlen, collapseEntries_eq_map, List.length_map])
      rw [Entries.putAll_nil_of_nodup hnodup, collapseEntries_eq_map, List.map_map,
        List.map_inj_left] at heq
      refine ⟨hnodup, fun e he => ?_⟩
      have := heq e he
      simp only [Function.comp_def, Value.contents_eq, Prod.mk.injEq, Value.mk.injEq, true_and, and_true] at this
      exact this
    · rintro ⟨hnodup, hsub⟩
      rw [Entries.putAll_nil_of_nodup hnodup, collapseEntries_eq_map, List.map_map]
      refine List.map_congr_left fun e he => ?_
      simp only [Function.comp_def, Value.contents_eq, hsub e he]
  | list xs ih =>
    rw [every_list] at h
    have hall : (∀ v ∈ xs, v.payload.collapse.contents = v.payload.contents) ↔ ∀ v ∈ xs, v.payload.Every Lossless :=
      forall₂_congr fun v hv => ih v hv (h.2 v hv)
    rw [every_list, ← hall]
    simp only [collapse, contents, list.injEq, contentsOfElements_eq_map, collapseElements_eq_map, List.map_map,
      List.map_inj_left, Lossless, true_and]
    refine forall₂_congr fun v _ => ?_
    simp only [Function.comp_def, Value.contents_eq, Value.mk.injEq, true_and, and_true]
  | array xs ih =>
    rw [every_array] at h
    have hall : (∀ v ∈ xs, v.payload.collapse.contents = v.payload.contents) ↔ ∀ v ∈ xs, v.payload.Every Lossless :=
      forall₂_congr fun v hv => ih v hv (h.2 v hv)
    rw [every_array, ← hall, Lossless, ← forall₂_and]
    simp only [collapse, contents, array.injEq, contentsOfElements_eq_map, collapseElements_eq_map, List.map_map,
      List.map_inj_left]
    refine forall₂_congr fun v _ => ?_
    simp only [Function.comp_def, Value.contents_eq, Value.mk.injEq, and_true]
    exact and_congr_left fun _ => eq_comm

end Payload

/-! ## A whole value -/

/-- What a success of `encode` into memory says of the tree and the bytes. -/
theorem Value.encode_ok {v v' : Value} {c : Charset} {n : Nat} {k : Sink} (h : v.encode c .unlimited = (v', .ok n k)) :
    v.payload.depth ≤ maxDepth ∧ v.payload.Every (Payload.Encodable c) ∧ k.written.toList = v.payload.spell.bytes c ∧
      n = (v.payload.spell.bytes c).length ∧ v' = v.clearModified := by
  simp only [encode] at h
  split at h
  · cases h
  rename_i hd
  have he := v.emits c
  have ho := he.outcome .unlimited
  rw [h, Value.layout_eq, show Sink.unlimited = .holding [] from rfl, Layout.write_holding] at ho
  cases hf : (v.payload.layout c).flaw with
  | some e => rw [hf] at ho; cases ho
  | none =>
    rw [hf] at ho
    cases ho
    have hen := Payload.layout_flaw_iff.1 hf
    refine ⟨by rw [← v.depth_eq]; omega, hen, ?_, ?_, ?_⟩
    · rw [← Payload.layout_bytes hen]
      rfl
    · rw [← Payload.layout_bytes hen]
    · have := he.cleared .unlimited _ _ (congrArg Prod.snd h)
      rw [h] at this
      exact this

/-- Bytes that a tree was written as are read back as what is left of it, byte for byte and
    whatever comes behind them, and nothing is lost exactly if no object has two children of
    one name and no element of an array has a name. -/
theorem Value.decode_of_encode {v v' : Value} {c : Charset} {n : Nat} {k : Sink}
    (h : v.encode c .unlimited = (v', .ok n k)) :
    ∃ fresh, Registry.standard.instantiate v.kind.toByte = .ok fresh ∧ n = k.written.size ∧
      (∀ (s : Supply) (rest : List UInt8), s.pieces.flatten = k.written.toList ++ rest →
        ∃ s', fresh.decode .standard c s = .ok ⟨none, v.payload.collapse, false⟩ s' ∧ s'.pieces.flatten = rest ∧
          s'.parting = s.parting ∧ s'.ending = s.ending) ∧
      (v.payload.collapse.contents = v.payload.contents ↔ v.payload.Every Payload.Lossless) := by
  obtain ⟨hd, he, hbytes, hn, -⟩ := Value.encode_ok h
  refine ⟨.initial v.kind, ?_, ?_, fun s rest hs => ?_, Payload.contents_collapse_iff he⟩
  · simp only [Registry.instantiate, Registry.kindOf_standard]
    rfl
  · rw [hn, ← hbytes, Array.length_toList]
  · rw [hbytes] at hs
    have ht := takes_decode (Payload.fits_spell he (Nat.lt_succ_of_le hd))
    rw [Payload.kind_spell, Payload.payload_spell he] at ht
    have hkind : (Value.initial v.kind).kind = v.payload.kind := Payload.kind_initial v.kind
    obtain ⟨s', h1, h2⟩ := (ht.map fun p => (⟨none, p, false⟩ : Value)) s rest hs
    refine ⟨s', ?_, h2⟩
    rw [← h1]
    simp only [Value.decode, hkind]
    rfl

/-- Two children that were renamed to one name: the bytes hold both, and the second is read back. -/
theorem Value.decode_of_encode_renamed :
    let v : Value := .anonymous (.object [("a", ⟨some "n", .scalar (.byte 1), true⟩), ("b", ⟨some "n", .scalar (.byte 2), true⟩)])
    let bs : List UInt8 := [2, 0, 0, 0, 1, 110, 1, 2, 0, 0, 0, 1, 110, 2, 0]
    ∃ s', v.encode .utf8 .unlimited = (v.clearModified, .ok 15 (.holding bs)) ∧
      (Value.initial .object).decode .standard .utf8 (.ofBytes bs) =
        .ok ⟨none, .object [("n", ⟨some "n", .scalar (.byte 2), false⟩)], false⟩ s' ∧ s'.pieces.flatten = [] := by
  intro v bs
  have h : v.encode .utf8 .unlimited = (v.clearModified, .ok 15 (.holding bs)) := rfl
  obtain ⟨fresh, hfresh, -, hd, -⟩ := Value.decode_of_encode h
  obtain ⟨s', hs, hrest, -⟩ := hd (.ofBytes bs) [] rfl
  cases hfresh
  exact ⟨s', h, hs, hrest⟩

end TypedDoc
