/-
  TypedDoc.Proofs.Value.Writing — which trees can be written, and how.
  - `layout_flaw_iff`: those that are `Encodable` at every node.
  - `Payload.spell`: the spelling that is written. It fits, at the depth of the tree, and
    it is the layout byte for byte.
-/

import TypedDoc.Proofs.Value.Spelling

namespace TypedDoc

open Wire

/-! ## Checks of whole lists and arrays -/

/-- All of one kind. -/
def Uniform (xs : List Value) : Prop := ∀ v ∈ xs, elementKind xs = some v.kind

theorem uniform_nil : Uniform [] := nofun

theorem uniform_cons {v : Value} {rest : List Value} : Uniform (v :: rest) ↔ ∀ w ∈ v :: rest, w.kind = v.kind := by
  simp only [Uniform, elementKind, List.head?_cons, Option.map_some, Option.some.injEq]
  exact ⟨fun h w hw => (h w hw).symm, fun h w hw => (h w hw).symm⟩

namespace ListElements

theorem checkFrom_eq_ok {expected : Kind} {i : Nat} {xs : List Value} :
    checkFrom expected i xs = .ok () ↔ ∀ v ∈ xs, v.kind = expected ∧ v.name.isSome = true := by
  induction xs generalizing i with
  | nil => simp [checkFrom]
  | cons v rest ih =>
    rw [checkFrom, List.forall_mem_cons, ← ih (i := i + 1)]
    by_cases hk : v.kind = expected
    · cases hn : v.name <;> simp [hk]
    · simp [hk]

theorem check_eq_ok {o : Option Kind} {xs : List Value} :
    check xs = .ok o ↔ o = elementKind xs ∧ Uniform xs ∧ ∀ v ∈ xs, v.name.isSome = true := by
  cases xs with
  | nil =>
    constructor
    · intro h
      cases h
      exact ⟨rfl, uniform_nil, List.forall_mem_nil _⟩
    · intro h
      rw [h.1]
      rfl
  | cons v rest =>
    have hc : checkFrom v.kind 0 (v :: rest) = .ok () ↔ _ := checkFrom_eq_ok
    rw [forall₂_and, ← uniform_cons] at hc
    simp only [check, elementKind, List.head?_cons, Option.map_some]
    cases h : checkFrom v.kind 0 (v :: rest) with
    | error e =>
      rw [h] at hc
      constructor
      · intro ho
        cases ho
      · intro ho
        cases hc.2 ho.2
    | ok u =>
      constructor
      · intro ho
        cases ho
        exact ⟨rfl, hc.1 h⟩
      · intro ho
        rw [ho.1]
        rfl

end ListElements

namespace ArrayElements

theorem checkFrom_eq_ok {expected : Kind} {i : Nat} {xs : List Value} :
    checkFrom expected i xs = .ok () ↔ ∀ v ∈ xs, v.kind = expected := by
  induction xs generalizing i with
  | nil => simp [checkFrom]
  | cons v rest ih =>
    rw [checkFrom, List.forall_mem_cons, ← ih (i := i + 1)]
    by_cases hk : v.kind = expected <;> simp [hk]

theorem check_eq_ok {o : Option Kind} {xs : List Value} :
    check xs = .ok o ↔ o = elementKind xs ∧ Uniform xs ∧ ∀ v ∈ xs, v.kind.isPrimitive = true := by
  cases xs with
  | nil =>
    constructor
    · intro h
      cases h
      exact ⟨rfl, uniform_nil, List.forall_mem_nil _⟩
    · intro h
      rw [h.1]
      rfl
  | cons v rest =>
    have hc : checkFrom v.kind 0 (v :: rest) = .ok () ↔ _ := checkFrom_eq_ok
    rw [← uniform_cons] at hc
    simp only [check, elementKind, List.head?_cons, Option.map_some]
    by_cases hp : v.kind.isPrimitive = true
    · rw [if_neg (by simp [hp])]
      cases h : checkFrom v.kind 0 (v :: rest) with
      | error e =>
        rw [h] at hc
        constructor
        · intro ho
          cases ho
        · intro ho
          cases hc.2 ho.2.1
      | ok u =>
        have hu := hc.1 h
        have hall : ∀ w ∈ v :: rest, w.kind.isPrimitive = true := fun w hw => by rw [uniform_cons.1 hu w hw, hp]
        constructor
        · intro ho
          cases ho
          exact ⟨rfl, hu, hall⟩
        · intro ho
          rw [ho.1]
          rfl
    · rw [if_pos (by simp [hp])]
      constructor
      · intro ho
        cases ho
      · intro ho
        exact absurd (ho.2.2 v List.mem_cons_self) hp

end ArrayElements

/-! ## What can be written -/

namespace Payload

/-- What a node must be like to be written, apart from the nodes below it. -/
def Encodable (c : Charset) : Payload → Prop
  | .scalar s => s.Fits c
  | .object es => ∀ e ∈ es, ∃ name, e.2.name = some name ∧ Counted c name
  | .list xs => (Uniform xs ∧ ∀ v ∈ xs, ∃ name, v.name = some name ∧ Counted c name) ∧ xs.length < countLimit
  | .array xs => (Uniform xs ∧ ∀ v ∈ xs, v.kind.isPrimitive = true) ∧ xs.length < countLimit

end Payload

theorem Scalar.layout_flaw {c : Charset} {s : Scalar} : (s.layout c).flaw = none ↔ s.Fits c := by
  cases s with
  | string v => exact stringLayout_flaw
  | timestamp v =>
    simp only [layout, Fits]
    cases h : v.isEmpty
    · simp [Layout.full]
    · simp [Layout.stop]
  | _ => exact ⟨fun _ => trivial, fun _ => rfl⟩

theorem Scalar.layout_bytes {c : Charset} {s : Scalar} (h : s.Fits c) : (s.layout c).bytes = s.bytes c := by
  cases s with
  | string v => exact stringLayout_bytes h
  | timestamp v =>
    simp only [layout, show v.isEmpty = false from h]
    rfl
  | _ => rfl

section

variable {c : Charset}

theorem entryHeadLayout_flaw {v : Value} :
    (entryHeadLayout c v).flaw = none ↔ ∃ name, v.name = some name ∧ Counted c name := by
  rw [entryHeadLayout]
  cases v.name with
  | none => simp [Layout.stop]
  | some name =>
    simp only [Layout.andThen_flaw, stringLayout_flaw, Option.some.injEq, exists_eq_left']
    exact and_iff_right rfl

theorem entriesLayout_flaw {es : List (String × Value)} : (entriesLayout c es).flaw = none ↔
    (∀ e ∈ es, ∃ name, e.2.name = some name ∧ Counted c name) ∧ ∀ e ∈ es, (e.2.payload.layout c).flaw = none := by
  induction es with
  | nil => simp [entriesLayout, Layout.full]
  | cons e rest ih =>
    obtain ⟨key, v⟩ := e
    simp only [entriesLayout, Layout.andThen_flaw, entryHeadLayout_flaw, Value.layout_eq, ih, List.forall_mem_cons]
    tauto

theorem namedLayout_flaw {xs : List Value} : (namedLayout c xs).flaw = none ↔
    (∀ v ∈ xs, Counted c (v.name.getD "")) ∧ ∀ v ∈ xs, (v.payload.layout c).flaw = none := by
  induction xs with
  | nil => simp [namedLayout, Layout.full]
  | cons v rest ih =>
    simp only [namedLayout, Layout.andThen_flaw, stringLayout_flaw, Value.layout_eq, ih, List.forall_mem_cons]
    tauto

theorem bareLayout_flaw {xs : List Value} :
    (bareLayout c xs).flaw = none ↔ ∀ v ∈ xs, (v.payload.layout c).flaw = none := by
  induction xs with
  | nil => simp [bareLayout, Layout.full]
  | cons v rest ih => simp only [bareLayout, Layout.andThen_flaw, Value.layout_eq, ih, List.forall_mem_cons]

theorem elementsHeadLayout_flaw {k : Kind} {n : Nat} : (elementsHeadLayout k n).flaw = none ↔ n < countLimit := by
  rw [elementsHeadLayout, Layout.andThen_flaw, countLayout_flaw]
  exact and_iff_right rfl

theorem elementsLayout_flaw {xs : List Value} {check : Except Error (Option Kind)} {l : Layout} {Passes : Prop}
    (hcheck : ∀ {o}, check = .ok o ↔ o = elementKind xs ∧ Passes) (hnil : xs = [] → l.flaw = none) :
    (elementsLayout check xs.length l).flaw = none ↔ (Passes ∧ xs.length < countLimit) ∧ l.flaw = none := by
  cases h : check with
  | error e =>
    have hno : ¬Passes := fun hp => nomatch (hcheck.2 ⟨rfl, hp⟩).symm.trans h
    simp [elementsLayout, Layout.stop, hno]
  | ok o =>
    obtain ⟨ho, hp⟩ := hcheck.1 h
    cases xs with
    | nil =>
      subst ho
      exact ⟨fun _ => ⟨⟨hp, by decide⟩, hnil rfl⟩, fun _ => rfl⟩
    | cons v rest =>
      subst ho
      simp only [elementsLayout, elementKind, List.head?_cons, Option.map_some, Layout.andThen_flaw, elementsHeadLayout_flaw]
      exact ⟨fun h => ⟨⟨hp, h.1⟩, h.2⟩, fun h => ⟨h.1.2, h.2⟩⟩

theorem counted_getD {v : Value} (h : v.name.isSome = true) :
    Counted c (v.name.getD "") ↔ ∃ name, v.name = some name ∧ Counted c name := by
  obtain ⟨name, hn⟩ := Option.isSome_iff_exists.1 h
  simp [hn]

namespace Payload

theorem layout_flaw_iff {p : Payload} : (p.layout c).flaw = none ↔ p.Every (Encodable c) := by
  induction p using Payload.tree_induction with
  | scalar s =>
    rw [every_scalar]
    exact Scalar.layout_flaw
  | object es ih =>
    rw [layout, entriesLayout_flaw, every_object]
    exact and_congr_right fun _ => forall₂_congr ih
  | list xs ih =>
    rw [layout, elementsLayout_flaw ListElements.check_eq_ok (fun h => by rw [h]; rfl), namedLayout_flaw, every_list]
    simp only [← forall₂_congr ih, Encodable]
    constructor
    · rintro ⟨⟨⟨hu, hn⟩, hc⟩, hs, hsub⟩
      exact ⟨⟨⟨hu, fun v hv => (counted_getD (hn v hv)).1 (hs v hv)⟩, hc⟩, hsub⟩
    · rintro ⟨⟨⟨hu, hn⟩, hc⟩, hsub⟩
      have hs : ∀ v ∈ xs, v.name.isSome = true := fun v hv => by
        obtain ⟨name, h, _⟩ := hn v hv
        rw [h]
        rfl
      exact ⟨⟨⟨hu, hs⟩, hc⟩, fun v hv => (counted_getD (hs v hv)).2 (hn v hv), hsub⟩
  | array xs ih =>
    rw [layout, elementsLayout_flaw ArrayElements.check_eq_ok (fun h => by rw [h]; rfl), bareLayout_flaw, every_array]
    exact and_congr_right fun _ => forall₂_congr ih

end Payload

end

/-! ## How it is written -/

/-- A scalar payload as an element of an array. -/
def leafOf : Payload → Leaf
  | .scalar s => .ofScalar s
  | _ => .boolean 0

mutual

/-- The spelling that is written. -/
def Payload.spell : Payload → Spelling
  | .scalar s => .leaf (.ofScalar s)
  | .object es => .object (spellEntries es)
  | .list xs =>
    match elementKind xs with
    | none => .noList
    | some k => .list k.toByte (spellElements xs)
  | .array xs =>
    match elementKind xs with
    | none => .noArray
    | some k => .array k.toByte (xs.map fun v => leafOf v.payload)

def spellEntries : List (String × Value) → List (UInt8 × String × Spelling)
  | [] => []
  | (_, ⟨name, p, _⟩) :: rest => (p.kind.toByte, name.getD "", p.spell) :: spellEntries rest

def spellElements : List Value → List (String × Spelling)
  | [] => []
  | ⟨name, p, _⟩ :: rest => (name.getD "", p.spell) :: spellElements rest

end

theorem spellEntries_eq_map (es : List (String × Value)) :
    spellEntries es = es.map fun e => (e.2.kind.toByte, e.2.name.getD "", e.2.payload.spell) := by
  induction es with
  | nil => rfl
  | cons e rest ih =>
    obtain ⟨key, name, p, modified⟩ := e
    simp only [spellEntries, ih, List.map_cons, Value.kind]

theorem spellElements_eq_map (xs : List Value) :
    spellElements xs = xs.map fun v => (v.name.getD "", v.payload.spell) := by
  induction xs with
  | nil => rfl
  | cons v rest ih =>
    obtain ⟨name, p, modified⟩ := v
    simp only [spellElements, ih, List.map_cons]

/-- Flags do not show in a spelling. -/
theorem Payload.spell_clearModified (p : Payload) : p.clearModified.spell = p.spell := by
  induction p using Payload.tree_induction with
  | scalar s => rfl
  | object es ih =>
    simp only [clearModified, spell, spellEntries_eq_map, clearEntries_eq_map, List.map_map]
    congr 1
    refine List.map_congr_left fun e he => ?_
    simp [ih e he]
  | list xs ih =>
    have hl : spellElements (clearElements xs) = spellElements xs := by
      rw [spellElements_eq_map, spellElements_eq_map, clearElements_eq_map, List.map_map]
      refine List.map_congr_left fun v hv => ?_
      simp [ih v hv]
    simp only [clearModified, spell, elementKind_clearElements, hl]
  | array xs ih =>
    have hl : (clearElements xs).map (fun v => leafOf v.payload) = xs.map fun v => leafOf v.payload := by
      rw [clearElements_eq_map, List.map_map]
      refine List.map_congr_left fun v _ => ?_
      cases hp : v.payload <;> simp [hp, leafOf, clearModified]
    simp only [clearModified, spell, elementKind_clearElements, hl]

namespace Leaf

theorem value_ofScalar (s : Scalar) : (ofScalar s).value = s := by
  cases s with
  | boolean v => cases v <;> rfl
  | _ => rfl

theorem bytes_ofScalar (c : Charset) (s : Scalar) : (ofScalar s).bytes c = s.bytes c := by
  cases s <;> rfl

theorem fits_ofScalar {c : Charset} {s : Scalar} (h : s.Fits c) : (ofScalar s).Fits c := by
  cases s with
  | boolean v => trivial
  | _ => exact ⟨nofun, h⟩

theorem kind_ofScalar (s : Scalar) : (ofScalar s).kind = s.kind := by rw [kind, value_ofScalar]

end Leaf

theorem Payload.kind_spell (p : Payload) : p.spell.kind = p.kind := by
  cases p with
  | scalar s => exact Leaf.kind_ofScalar s
  | object es => rfl
  | list xs =>
    simp only [spell]
    cases elementKind xs <;> rfl
  | array xs =>
    simp only [spell]
    cases elementKind xs <;> rfl

/-- An element of an array that can be written is a scalar. -/
theorem Payload.scalar_of_primitive {p : Payload} (h : p.kind.isPrimitive = true) : ∃ s, p = .scalar s := by
  cases p with
  | scalar s => exact ⟨s, rfl⟩
  | _ => cases h

section

variable {c : Charset}

theorem entriesLayout_bytes {es : List (String × Value)}
    (names : ∀ e ∈ es, ∃ name, e.2.name = some name ∧ Counted c name)
    (flaws : ∀ e ∈ es, (e.2.payload.layout c).flaw = none)
    (below : ∀ e ∈ es, (e.2.payload.layout c).bytes = e.2.payload.spell.bytes c) :
    (entriesLayout c es).bytes = Spelling.entriesBytes c (spellEntries es) ++ [TypeId.terminator.toByte] := by
  induction es with
  | nil => rfl
  | cons e rest ih =>
    obtain ⟨key, v⟩ := e
    obtain ⟨hname, names⟩ := List.forall_mem_cons.1 names
    obtain ⟨hflaw, flaws⟩ := List.forall_mem_cons.1 flaws
    obtain ⟨hv, below⟩ := List.forall_mem_cons.1 below
    have hhead : (entryHeadLayout c v).flaw = none := entryHeadLayout_flaw.2 hname
    obtain ⟨name, hn, hc⟩ := hname
    have hbytes : (entryHeadLayout c v).bytes = v.kind.toByte :: stringBytes c name := by
      rw [entryHeadLayout, hn]
      simp only
      rw [Layout.andThen_bytes rfl, stringLayout_bytes hc]
      rfl
    simp only at hflaw hv hn
    rw [entriesLayout, Layout.andThen_bytes hhead, hbytes, Value.layout_eq, Layout.andThen_bytes hflaw, hv,
      ih names flaws below]
    simp [spellEntries_eq_map, Spelling.entriesBytes, hn]

theorem namedLayout_bytes {xs : List Value} (names : ∀ v ∈ xs, Counted c (v.name.getD ""))
    (flaws : ∀ v ∈ xs, (v.payload.layout c).flaw = none)
    (below : ∀ v ∈ xs, (v.payload.layout c).bytes = v.payload.spell.bytes c) :
    (namedLayout c xs).bytes = Spelling.elementsBytes c (spellElements xs) := by
  induction xs with
  | nil => rfl
  | cons v rest ih =>
    obtain ⟨hname, names⟩ := List.forall_mem_cons.1 names
    obtain ⟨hflaw, flaws⟩ := List.forall_mem_cons.1 flaws
    obtain ⟨hv, below⟩ := List.forall_mem_cons.1 below
    rw [namedLayout, Layout.andThen_bytes (stringLayout_flaw.2 hname), stringLayout_bytes hname, Value.layout_eq,
      Layout.andThen_bytes hflaw, hv, ih names flaws below]
    simp [spellElements_eq_map, Spelling.elementsBytes]

theorem bareLayout_bytes {xs : List Value} (flaws : ∀ v ∈ xs, (v.payload.layout c).flaw = none)
    (below : ∀ v ∈ xs, (v.payload.layout c).bytes = (leafOf v.payload).bytes c) :
    (bareLayout c xs).bytes = (xs.map fun v => leafOf v.payload).flatMap (Leaf.bytes c) := by
  induction xs with
  | nil => rfl
  | cons v rest ih =>
    obtain ⟨hflaw, flaws⟩ := List.forall_mem_cons.1 flaws
    obtain ⟨hv, below⟩ := List.forall_mem_cons.1 below
    rw [bareLayout, Value.layout_eq, Layout.andThen_bytes hflaw, hv, ih flaws below]
    rfl

theorem elementsLayout_bytes {k : Kind} {n : Nat} {l : Layout} (hn : n < countLimit) :
    (elementsLayout (.ok (some k)) n l).bytes = k.toByte :: (BigEndian.toBytes 4 n ++ l.bytes) := by
  rw [elementsLayout, Layout.andThen_bytes (elementsHeadLayout_flaw.2 hn), elementsHeadLayout, Layout.andThen_bytes rfl,
    countLayout_bytes hn]
  rfl

namespace Payload

theorem layout_bytes {p : Payload} (h : p.Every (Encodable c)) : (p.layout c).bytes = p.spell.bytes c := by
  induction p using Payload.tree_induction with
  | scalar s =>
    rw [every_scalar] at h
    exact (Scalar.layout_bytes h).trans (Leaf.bytes_ofScalar c s).symm
  | object es ih =>
    rw [every_object] at h
    exact entriesLayout_bytes h.1 (fun e he => layout_flaw_iff.2 (h.2 e he)) fun e he => ih e he (h.2 e he)
  | list xs ih =>
    rw [every_list] at h
    obtain ⟨⟨⟨hu, hn⟩, hcount⟩, hsub⟩ := h
    have hs : ∀ v ∈ xs, v.name.isSome = true := fun v hv => by
      obtain ⟨name, h, _⟩ := hn v hv
      rw [h]
      rfl
    have hl := namedLayout_bytes (fun v hv => (counted_getD (hs v hv)).2 (hn v hv))
      (fun v hv => layout_flaw_iff.2 (hsub v hv)) fun v hv => ih v hv (hsub v hv)
    rw [layout, ListElements.check_eq_ok.2 ⟨rfl, hu, hs⟩, spell]
    cases hk : elementKind xs with
    | none => rfl
    | some k =>
      rw [elementsLayout_bytes hcount, hl, Spelling.bytes, spellElements_eq_map, List.length_map]
  | array xs ih =>
    rw [every_array] at h
    obtain ⟨⟨⟨hu, hp⟩, hcount⟩, hsub⟩ := h
    have hleaf : ∀ v ∈ xs, (v.payload.layout c).bytes = (leafOf v.payload).bytes c := by
      intro v hv
      obtain ⟨s, hs⟩ := scalar_of_primitive (hp v hv)
      rw [ih v hv (hsub v hv), hs]
      rfl
    have hl := bareLayout_bytes (fun v hv => layout_flaw_iff.2 (hsub v hv)) hleaf
    rw [layout, ArrayElements.check_eq_ok.2 ⟨rfl, hu, hp⟩, spell]
    cases hk : elementKind xs with
    | none => rfl
    | some k =>
      rw [elementsLayout_bytes hcount, hl, Spelling.bytes, List.length_map]

end Payload

end

/-! ## It can be read -/

theorem Registry.kindOf_standard (k : Kind) : Registry.standard.kindOf k.toByte = .ok k := by
  cases k <;> rfl

theorem Registry.toByte_of_kindOf {id : UInt8} {k : Kind} (h : standard.kindOf id = .ok k) : k.toByte = id := by
  simp only [kindOf] at h
  split at h
  · rename_i k' hk'
    cases h
    obtain ⟨l₁, l₂, hl, -⟩ := List.lookup_eq_some_iff.1 hk'
    have hmem : (id, k) ∈ Kind.all.map fun k => (k.toByte, k) := by
      rw [show (Kind.all.map fun k => (k.toByte, k)) = l₁ ++ (id, k) :: l₂ from hl]
      exact List.mem_append_right _ List.mem_cons_self
    obtain ⟨k', -, he⟩ := List.mem_map.1 hmem
    cases he
    rfl
  · cases h

theorem Kind.toByte_ne_terminator (k : Kind) : k.toByte ≠ TypeId.terminator.toByte := by
  cases k <;> decide

theorem elementKind_eq_some {xs : List Value} {k : Kind} (h : elementKind xs = some k) (hu : Uniform xs) :
    ∀ v ∈ xs, v.kind = k := fun v hv => Option.some.inj ((hu v hv).symm.trans h)

theorem Payload.fits_spell {c : Charset} {p : Payload} (h : p.Every (Encodable c)) {n : Nat} (hd : p.depth < n) :
    p.spell.Fits .standard c n := by
  induction p using Payload.tree_induction generalizing n with
  | scalar s =>
    obtain ⟨n, rfl⟩ : ∃ m, n = m + 1 := ⟨n - 1, by omega⟩
    rw [every_scalar] at h
    exact .leaf (Leaf.fits_ofScalar h)
  | object es ih =>
    obtain ⟨n, rfl⟩ : ∃ m, n = m + 1 := ⟨n - 1, by omega⟩
    rw [every_object] at h
    have hle := entriesDepth_le.1 (Nat.le_of_lt_succ hd)
    simp only [spell, spellEntries_eq_map]
    refine .object ?_ ?_ ?_ <;> intro _ hmem <;> obtain ⟨e, he, rfl⟩ := List.mem_map.1 hmem
    · exact ⟨e.2.kind.toByte_ne_terminator, by rw [kind_spell]; exact Registry.kindOf_standard e.2.kind⟩
    · obtain ⟨name, hn, hc⟩ := h.1 e he
      simpa [hn] using hc
    · exact ih e he (h.2 e he) (hle e he)
  | list xs ih =>
    obtain ⟨n, rfl⟩ : ∃ m, n = m + 1 := ⟨n - 1, by omega⟩
    rw [every_list] at h
    obtain ⟨⟨⟨hu, hn⟩, hcount⟩, hsub⟩ := h
    have hle := elementsDepth_le.1 (Nat.le_of_lt_succ hd)
    simp only [spell]
    cases hk : elementKind xs with
    | none => exact .noList
    | some k =>
      simp only [spellElements_eq_map]
      refine .list k.toByte_ne_terminator (Registry.kindOf_standard k) (by rwa [List.length_map]) ?_ ?_ ?_ <;>
        intro _ hmem <;> obtain ⟨v, hv, rfl⟩ := List.mem_map.1 hmem
      · rw [kind_spell]
        exact elementKind_eq_some hk hu v hv
      · obtain ⟨name, hn, hc⟩ := hn v hv
        simpa [hn] using hc
      · exact ih v hv (hsub v hv) (hle v hv)
  | array xs ih =>
    obtain ⟨n, rfl⟩ : ∃ m, n = m + 1 := ⟨n - 1, by omega⟩
    rw [every_array] at h
    obtain ⟨⟨⟨hu, hp⟩, hcount⟩, hsub⟩ := h
    have hle := elementsDepth_le.1 (Nat.le_of_lt_succ hd)
    simp only [spell]
    cases hk : elementKind xs with
    | none => exact .noArray
    | some k =>
      have hkind := elementKind_eq_some hk hu
      have hbelow : n ≠ 0 ∨ (xs.map fun v => leafOf v.payload) = [] := by
        cases xs with
        | nil => exact .inr rfl
        | cons v rest => exact .inl (by have := hle v List.mem_cons_self; omega)
      have hprim : k.isPrimitive = true := by
        cases xs with
        | nil => cases hk
        | cons v rest => exact hkind v List.mem_cons_self ▸ hp v List.mem_cons_self
      refine .array k.toByte_ne_terminator (Registry.kindOf_standard k) hprim (by rwa [List.length_map]) ?_ hbelow ?_ <;>
        intro _ hmem <;> obtain ⟨v, hv, rfl⟩ := List.mem_map.1 hmem <;> obtain ⟨s, hs⟩ := scalar_of_primitive (hp v hv)
      · rw [hs]
        exact (Leaf.kind_ofScalar s).trans (by rw [← hkind v hv, Value.kind, hs]; rfl)
      · have hfit := hsub v hv
        rw [hs, every_scalar] at hfit
        rw [hs]
        exact Leaf.fits_ofScalar hfit

end TypedDoc
