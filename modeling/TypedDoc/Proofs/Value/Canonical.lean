/-
  TypedDoc.Proofs.Value.Canonical — what becomes of bytes that are read and written again.

  Whatever is read can be written (`Spelling.encodable`, `Spelling.depth_lt`) and loses
  nothing by it (`Spelling.collapse_payload`). The new bytes are never more than the old,
  and they are the old bytes exactly if those were canonical (`Spelling.rewrite`).

  Only the bytes of booleans can change without a change of length. So where the length
  stays, it stays in every part, and the parts can be compared one by one.
-/

import TypedDoc.Proofs.Value.RoundTrip

namespace TypedDoc

open Wire

namespace Spelling

variable {c : Charset} {n : Nat} {σ : Spelling}

/-! ## It can be written -/

theorem uniform_of_kind {k : Kind} {xs : List Value} (h : ∀ v ∈ xs, v.kind = k) : Uniform xs := by
  intro v hv
  cases xs with
  | nil => cases hv
  | cons w rest =>
    rw [h v hv, ← h w List.mem_cons_self]
    rfl

theorem fits_value {l : Leaf} (h : l.Fits c) : l.value.Fits c := by
  cases l with
  | boolean raw => trivial
  | scalar s => exact h.2

/-- What an entry of the payload comes from. -/
theorem mem_putAll_entries {es : List (UInt8 × String × Spelling)} {e : String × Value}
    (h : e ∈ Entries.putAll (entries es) []) :
    ∃ e' ∈ es, e = (e'.2.1, ⟨some e'.2.1, e'.2.2.payload, false⟩) := by
  rcases Entries.mem_putAll h with h | h
  · cases h
  · rw [entries_eq_map] at h
    obtain ⟨e', he', rfl⟩ := List.mem_map.1 h
    exact ⟨e', he', rfl⟩

theorem encodable {reg : Registry} (h : σ.Fits reg c n) : σ.payload.Every (Payload.Encodable c) := by
  induction h with
  | leaf h =>
    rw [payload, Payload.every_scalar]
    exact fits_value h
  | object ids names below ih =>
    rw [payload, Payload.every_object]
    refine ⟨fun e he => ?_, fun e he => ?_⟩ <;> obtain ⟨e', he', rfl⟩ := mem_putAll_entries he
    · exact ⟨_, rfl, names e' he'⟩
    · exact ih e' he'
  | noList => exact Payload.every_list.2 ⟨⟨⟨uniform_nil, List.forall_mem_nil _⟩, by decide⟩, List.forall_mem_nil _⟩
  | @list n id k xs hid hk count kinds names below ih =>
    rw [payload, Payload.every_list, elements_eq_map]
    refine ⟨⟨⟨uniform_of_kind (k := k) fun v hv => ?_, fun v hv => ?_⟩, by rwa [List.length_map]⟩, fun v hv => ?_⟩ <;>
      obtain ⟨e, he, rfl⟩ := List.mem_map.1 hv
    · exact (kind_payload e.2).trans (kinds e he)
    · exact ⟨_, rfl, names e he⟩
    · exact ih e he
  | noArray => exact Payload.every_array.2 ⟨⟨⟨uniform_nil, List.forall_mem_nil _⟩, by decide⟩, List.forall_mem_nil _⟩
  | @array n id k xs hid hk hp count kinds below fits =>
    rw [payload, Payload.every_array]
    refine ⟨⟨⟨uniform_of_kind (k := k) fun v hv => ?_, fun v hv => ?_⟩, by rwa [List.length_map]⟩, fun v hv => ?_⟩ <;>
      obtain ⟨l, hl, rfl⟩ := List.mem_map.1 hv
    · exact kinds l hl
    · exact (congrArg Kind.isPrimitive (kinds l hl)).trans hp
    · exact Payload.every_scalar.2 (fits_value (fits l hl))

theorem depth_lt {reg : Registry} (h : σ.Fits reg c n) : σ.payload.depth < n := by
  induction h with
  | leaf h => exact Nat.succ_pos _
  | object ids names below ih =>
    refine Nat.lt_succ_of_le (entriesDepth_le.2 fun e he => ?_)
    obtain ⟨e', he', rfl⟩ := mem_putAll_entries he
    exact ih e' he'
  | noList => exact Nat.succ_pos _
  | list hid hk count kinds names below ih =>
    refine Nat.lt_succ_of_le (elementsDepth_le.2 fun v hv => ?_)
    rw [elements_eq_map] at hv
    obtain ⟨e, he, rfl⟩ := List.mem_map.1 hv
    exact ih e he
  | noArray => exact Nat.succ_pos _
  | array hid hk hp count kinds below fits =>
    refine Nat.lt_succ_of_le (elementsDepth_le.2 fun v hv => ?_)
    obtain ⟨l, hl, rfl⟩ := List.mem_map.1 hv
    rcases below with hn | rfl
    · exact Nat.one_le_iff_ne_zero.2 hn
    · cases hl

/-! ## Nothing is lost -/

theorem collapse_payload {reg : Registry} (h : σ.Fits reg c n) : σ.payload.collapse = σ.payload := by
  induction h with
  | leaf h => rfl
  | @object n es ids names below ih =>
    have hsame : collapseEntries (Entries.putAll (entries es) []) = Entries.putAll (entries es) [] := by
      rw [collapseEntries_eq_map]
      refine (List.map_congr_left (g := id) fun e he => ?_).trans (List.map_id _)
      obtain ⟨e', he', rfl⟩ := mem_putAll_entries he
      simp [ih e' he']
    simp only [payload, Payload.collapse, hsame]
    rw [Entries.putAll_nil_of_nodup (Entries.nodup_putAll_nil _)]
  | noList => rfl
  | list hid hk count kinds names below ih =>
    simp only [payload, Payload.collapse, collapseElements_eq_map, elements_eq_map, List.map_map]
    congr 1
    refine List.map_congr_left fun e he => ?_
    simp [ih e he]
  | noArray => rfl
  | array hid hk hp count kinds below fits =>
    simp only [payload, Payload.collapse, collapseElements_eq_map, List.map_map]
    congr 1

/-- Nothing that was read is marked. -/
theorem clearModified_payload {reg : Registry} (h : σ.Fits reg c n) : σ.payload.clearModified = σ.payload := by
  induction h with
  | leaf h => rfl
  | @object n es ids names below ih =>
    simp only [payload, Payload.clearModified, clearEntries_eq_map]
    congr 1
    refine (List.map_congr_left (g := id) fun e he => ?_).trans (List.map_id _)
    obtain ⟨e', he', rfl⟩ := mem_putAll_entries he
    simp [Value.clearModified, ih e' he']
  | noList => rfl
  | list hid hk count kinds names below ih =>
    simp only [payload, Payload.clearModified, clearElements_eq_map, elements_eq_map, List.map_map]
    congr 1
    refine List.map_congr_left fun e he => ?_
    simp [Value.clearModified, ih e he]
  | noArray => rfl
  | array hid hk hp count kinds below fits =>
    simp only [payload, Payload.clearModified, clearElements_eq_map, List.map_map]
    congr 1

/-! ## What is written anew -/

section

variable {α β : Type} {f g : α → List β} {xs : List α}

theorem length_flatMap_le (hle : ∀ a ∈ xs, (f a).length ≤ (g a).length) :
    (xs.flatMap f).length ≤ (xs.flatMap g).length := by
  induction xs with
  | nil => exact Nat.le_refl _
  | cons a rest ih =>
    obtain ⟨ha, hle⟩ := List.forall_mem_cons.1 hle
    have := ih hle
    simp only [List.flatMap_cons, List.length_append]
    omega

/-- Parts of at most the old lengths make up the old bytes only if each is its old part. -/
theorem flatMap_eq_iff (hle : ∀ a ∈ xs, (f a).length ≤ (g a).length) :
    xs.flatMap f = xs.flatMap g ↔ ∀ a ∈ xs, f a = g a := by
  induction xs with
  | nil => simp
  | cons a rest ih =>
    obtain ⟨ha, hle⟩ := List.forall_mem_cons.1 hle
    rw [List.forall_mem_cons, ← ih hle, List.flatMap_cons, List.flatMap_cons]
    constructor
    · intro h
      have hlen := congrArg List.length h
      have hrest := length_flatMap_le hle
      simp only [List.length_append] at hlen
      exact List.append_inj h (by omega)
    · rintro ⟨h1, h2⟩
      rw [h1, h2]

end

/-- The bytes of an entry when it is written. -/
def rewritten (c : Charset) (e : String × Value) : List UInt8 :=
  e.2.kind.toByte :: (stringBytes c (e.2.name.getD "") ++ e.2.payload.spell.bytes c)

theorem entriesBytes_spellEntries (es : List (String × Value)) :
    entriesBytes c (spellEntries es) = es.flatMap (rewritten c) := by
  rw [entriesBytes_eq_flatMap, spellEntries_eq_map, List.flatMap_map]
  rfl

theorem leaf_rewrite {l : Leaf} (h : l.Fits c) :
    ((Leaf.ofScalar l.value).bytes c).length ≤ (l.bytes c).length ∧
      ((Leaf.ofScalar l.value).bytes c = l.bytes c ↔ l.Canonical) := by
  cases l with
  | boolean raw =>
    refine ⟨Nat.le_refl _, ?_⟩
    simp only [Leaf.value, Leaf.ofScalar, Leaf.bytes, Leaf.Canonical, List.cons.injEq, and_true]
    by_cases h0 : raw = 0
    · simp [h0]
    · rw [if_pos (by simpa using h0)]
      exact ⟨fun h => .inr h.symm, fun h => (h.resolve_left h0).symm⟩
  | scalar s =>
    have hs : Leaf.ofScalar s = .scalar s := by
      cases s with
      | boolean v => exact absurd rfl h.1
      | _ => rfl
    rw [Leaf.value, hs]
    exact ⟨Nat.le_refl _, iff_of_true rfl trivial⟩

/-- Entries put in turn are written in at most the old bytes, and in those bytes only if no
    name came twice and each payload is written as it was. -/
theorem entries_rewrite {es : List (UInt8 × String × Spelling)}
    (ids : ∀ e ∈ es, e.1 ≠ TypeId.terminator.toByte ∧ Registry.standard.kindOf e.1 = .ok e.2.2.kind)
    (below : ∀ e ∈ es, (e.2.2.payload.spell.bytes c).length ≤ (e.2.2.bytes c).length) :
    (entriesBytes c (spellEntries (Entries.putAll (entries es) []))).length ≤ (entriesBytes c es).length ∧
      (entriesBytes c (spellEntries (Entries.putAll (entries es) [])) = entriesBytes c es ↔
        (es.map (·.2.1)).Nodup ∧ ∀ e ∈ es, e.2.2.payload.spell.bytes c = e.2.2.bytes c) := by
  have hkeys : Entries.keys (entries es) = es.map (·.2.1) := by
    simp [Entries.keys, entries_eq_map, Function.comp_def]
  have hpos : ∀ e, 0 < (rewritten c e).length := fun e => Nat.succ_pos _
  have hlen (xs : List (String × Value)) : (xs.flatMap (rewritten c)).length = Entries.weight (fun e => (rewritten c e).length) xs :=
    List.length_flatMap
  -- entry by entry, had all of them been kept
  have hle : ∀ e ∈ es, (rewritten c (e.2.1, ⟨some e.2.1, e.2.2.payload, false⟩)).length ≤
      (e.1 :: (stringBytes c e.2.1 ++ e.2.2.bytes c)).length := by
    intro e he
    have := below e he
    simp only [rewritten, Option.getD_some, List.length_cons, List.length_append]
    omega
  have hmap : (entries es).flatMap (rewritten c) =
      es.flatMap fun e => rewritten c (e.2.1, ⟨some e.2.1, e.2.2.payload, false⟩) := by
    rw [entries_eq_map, List.flatMap_map]
  have hkept : ((entries es).flatMap (rewritten c)).length ≤ (entriesBytes c es).length := by
    rw [hmap, entriesBytes_eq_flatMap]
    exact length_flatMap_le hle
  have hput := Entries.weight_putAll_le (fun e => (rewritten c e).length) (entries es) []
  rw [← hlen, ← hlen, ← hlen] at hput
  rw [entriesBytes_spellEntries, ← hkeys]
  refine ⟨Nat.le_trans (by simpa using hput) hkept, ?_⟩
  by_cases hnodup : (Entries.keys (entries es)).Nodup
  · rw [Entries.putAll_nil_of_nodup hnodup, hmap, entriesBytes_eq_flatMap, flatMap_eq_iff hle]
    simp only [hnodup, true_and]
    refine forall₂_congr fun e he => ?_
    have hid : e.2.2.payload.kind.toByte = e.1 := by rw [kind_payload]; exact Registry.toByte_of_kindOf (ids e he).2
    simp only [rewritten, Value.kind, hid, Option.getD_some, List.cons.injEq, true_and, List.append_cancel_left_eq]
  · have hlt := Entries.weight_putAll_lt (fun e => (rewritten c e).length) hpos
      (show (Entries.keys ([] : List (String × Value))).Nodup from List.nodup_nil) (show ¬(Entries.keys ([] ++ entries es)).Nodup from hnodup)
    rw [← hlen, ← hlen, ← hlen] at hlt
    refine iff_of_false (fun heq => ?_) fun h => hnodup h.1
    rw [heq] at hlt
    simp only [List.flatMap_nil, List.length_nil, Nat.zero_add] at hlt
    omega

theorem elementKind_elements {k : Kind} {xs : List (String × Spelling)} (hne : xs ≠ []) (kinds : ∀ e ∈ xs, e.2.kind = k) :
    elementKind (elements xs) = some k := by
  cases xs with
  | nil => exact absurd rfl hne
  | cons e rest =>
    rw [elements_eq_map]
    exact congrArg some ((kind_payload e.2).trans (kinds e List.mem_cons_self))

theorem respell_list {id : UInt8} {k : Kind} {xs : List (String × Spelling)} (hne : xs ≠ [])
    (hk : Registry.standard.kindOf id = .ok k) (kinds : ∀ e ∈ xs, e.2.kind = k) :
    (list id xs).payload.spell.bytes c =
      id :: (BigEndian.toBytes 4 xs.length ++ xs.flatMap fun e => stringBytes c e.1 ++ e.2.payload.spell.bytes c) := by
  rw [payload, Payload.spell, elementKind_elements hne kinds]
  simp only [bytes, elementsBytes_eq_flatMap, spellElements_eq_map, elements_eq_map, List.map_map, List.flatMap_map,
    List.length_map, Function.comp_def, Option.getD_some, Registry.toByte_of_kindOf hk]

theorem respell_array {id : UInt8} {k : Kind} {xs : List Leaf} (hne : xs ≠ [])
    (hk : Registry.standard.kindOf id = .ok k) (kinds : ∀ l ∈ xs, l.kind = k) :
    (array id xs).payload.spell.bytes c =
      id :: (BigEndian.toBytes 4 xs.length ++ xs.flatMap fun l => (Leaf.ofScalar l.value).bytes c) := by
  have hkind : elementKind (xs.map fun l => (⟨none, .scalar l.value, false⟩ : Value)) = some k := by
    cases xs with
    | nil => exact absurd rfl hne
    | cons l rest => exact congrArg some (kinds l List.mem_cons_self)
  rw [payload, Payload.spell, hkind]
  simp only [bytes, List.map_map, List.flatMap_map, List.length_map, Function.comp_def, leafOf, Registry.toByte_of_kindOf hk]

/-- Elements behind an id and their number. -/
theorem row_rewrite {α : Type} {xs : List α} {f g : α → List UInt8} {P : α → Prop}
    (h : ∀ a ∈ xs, (f a).length ≤ (g a).length ∧ (f a = g a ↔ P a)) (id : UInt8) (count : List UInt8) :
    (id :: (count ++ xs.flatMap f)).length ≤ (id :: (count ++ xs.flatMap g)).length ∧
      (id :: (count ++ xs.flatMap f) = id :: (count ++ xs.flatMap g) ↔ ∀ a ∈ xs, P a) := by
  have hle : ∀ a ∈ xs, (f a).length ≤ (g a).length := fun a ha => (h a ha).1
  have := length_flatMap_le hle
  refine ⟨by simp only [List.length_cons, List.length_append]; omega, ?_⟩
  rw [List.cons.injEq, List.append_cancel_left_eq, flatMap_eq_iff hle, forall₂_congr fun a ha => (h a ha).2]
  exact and_iff_right rfl

/-- What is read and written again takes up at most the old bytes, and the same bytes if
    they were canonical. -/
theorem rewrite (h : σ.Fits .standard c n) :
    (σ.payload.spell.bytes c).length ≤ (σ.bytes c).length ∧ (σ.payload.spell.bytes c = σ.bytes c ↔ σ.Canonical) := by
  induction h with
  | leaf h =>
    obtain ⟨hle, hiff⟩ := leaf_rewrite h
    exact ⟨hle, hiff.trans canonical_leaf.symm⟩
  | object ids names below ih =>
    obtain ⟨hle, hiff⟩ := entries_rewrite ids fun e he => (ih e he).1
    simp only [payload, Payload.spell, bytes, List.length_append, List.append_cancel_right_eq, hiff]
    refine ⟨Nat.add_le_add_right hle _, ?_⟩
    rw [forall₂_congr fun e he => (ih e he).2]
    exact canonical_object.symm
  | noList => exact ⟨Nat.le_refl _, iff_of_true rfl .noList⟩
  | @list n id k xs hid hk count kinds names below ih =>
    by_cases hne : xs = []
    · subst hne
      refine ⟨Nat.le_add_left _ _, iff_of_false (fun heq => ?_) fun hc => (canonical_list.1 hc).1 rfl⟩
      exact absurd (congrArg List.length heq) (by simp [bytes, payload, Payload.spell, elements, elementKind])
    · rw [respell_list hne hk kinds, bytes, elementsBytes_eq_flatMap]
      have hone : ∀ e ∈ xs, (stringBytes c e.1 ++ e.2.payload.spell.bytes c).length ≤ (stringBytes c e.1 ++ e.2.bytes c).length ∧
          (stringBytes c e.1 ++ e.2.payload.spell.bytes c = stringBytes c e.1 ++ e.2.bytes c ↔ e.2.Canonical) := by
        intro e he
        obtain ⟨hle, hiff⟩ := ih e he
        simp only [List.length_append, List.append_cancel_left_eq]
        exact ⟨Nat.add_le_add_left hle _, hiff⟩
      obtain ⟨hle, hiff⟩ := row_rewrite hone id (BigEndian.toBytes 4 xs.length)
      exact ⟨hle, hiff.trans ((and_iff_right hne).symm.trans canonical_list.symm)⟩
  | noArray => exact ⟨Nat.le_refl _, iff_of_true rfl .noArray⟩
  | @array n id k xs hid hk hp count kinds below fits =>
    by_cases hne : xs = []
    · subst hne
      refine ⟨Nat.le_add_left _ _, iff_of_false (fun heq => ?_) fun hc => (canonical_array.1 hc).1 rfl⟩
      exact absurd (congrArg List.length heq) (by simp [bytes, payload, Payload.spell, elementKind])
    · rw [respell_array hne hk kinds, bytes]
      obtain ⟨hle, hiff⟩ := row_rewrite (fun l hl => leaf_rewrite (fits l hl)) id (BigEndian.toBytes 4 xs.length)
      exact ⟨hle, hiff.trans ((and_iff_right hne).symm.trans canonical_array.symm)⟩

end Spelling

end TypedDoc
