/-
  TypedDoc.Proofs.Value.Tree — induction over trees of values, what holds at every node of
  one, and the parts of a tree that tell two trees apart.

  - `Payload.Every`: a property of payloads at every node.
  - `Payload.contents`: the tree without flags and without the keys of objects; two trees
    of the same contents have the same names and payloads bit for bit.
-/

import Mathlib.Algebra.Order.Ring.Nat
import TypedDoc.Value.Basic

namespace TypedDoc

/-! ## Induction -/

mutual

/-- What holds of a container once it holds below it, and of scalars, holds of every payload. -/
theorem Payload.tree_induction {motive : Payload → Prop} (scalar : ∀ s, motive (.scalar s))
    (object : ∀ es : List (String × Value), (∀ e ∈ es, motive e.2.payload) → motive (.object es))
    (list : ∀ xs : List Value, (∀ v ∈ xs, motive v.payload) → motive (.list xs))
    (array : ∀ xs : List Value, (∀ v ∈ xs, motive v.payload) → motive (.array xs)) : ∀ p : Payload, motive p
  | .scalar s => scalar s
  | .object es => object es (entries_induction scalar object list array es)
  | .list xs => list xs (elements_induction scalar object list array xs)
  | .array xs => array xs (elements_induction scalar object list array xs)

theorem entries_induction {motive : Payload → Prop} (scalar : ∀ s, motive (.scalar s))
    (object : ∀ es : List (String × Value), (∀ e ∈ es, motive e.2.payload) → motive (.object es))
    (list : ∀ xs : List Value, (∀ v ∈ xs, motive v.payload) → motive (.list xs))
    (array : ∀ xs : List Value, (∀ v ∈ xs, motive v.payload) → motive (.array xs)) :
    ∀ (es : List (String × Value)), ∀ e ∈ es, motive e.2.payload
  | [] => fun _ he => absurd he List.not_mem_nil
  | (_, ⟨_, p, _⟩) :: rest => fun e he => by
    rcases List.mem_cons.1 he with rfl | he
    · exact Payload.tree_induction scalar object list array p
    · exact entries_induction scalar object list array rest e he

theorem elements_induction {motive : Payload → Prop} (scalar : ∀ s, motive (.scalar s))
    (object : ∀ es : List (String × Value), (∀ e ∈ es, motive e.2.payload) → motive (.object es))
    (list : ∀ xs : List Value, (∀ v ∈ xs, motive v.payload) → motive (.list xs))
    (array : ∀ xs : List Value, (∀ v ∈ xs, motive v.payload) → motive (.array xs)) :
    ∀ (xs : List Value), ∀ v ∈ xs, motive v.payload
  | [] => fun _ hv => absurd hv List.not_mem_nil
  | ⟨_, p, _⟩ :: rest => fun v hv => by
    rcases List.mem_cons.1 hv with rfl | hv
    · exact Payload.tree_induction scalar object list array p
    · exact elements_induction scalar object list array rest v hv

end

/-! ## At every node -/

mutual

def Value.Every (P : Payload → Prop) : Value → Prop
  | ⟨_, p, _⟩ => p.Every P

/-- `P` holds of the payload and of every payload below it. -/
def Payload.Every (P : Payload → Prop) : Payload → Prop
  | .scalar s => P (.scalar s)
  | .object es => P (.object es) ∧ EveryEntry P es
  | .list xs => P (.list xs) ∧ EveryElement P xs
  | .array xs => P (.array xs) ∧ EveryElement P xs

def EveryEntry (P : Payload → Prop) : List (String × Value) → Prop
  | [] => True
  | (_, v) :: rest => v.Every P ∧ EveryEntry P rest

def EveryElement (P : Payload → Prop) : List Value → Prop
  | [] => True
  | v :: rest => v.Every P ∧ EveryElement P rest

end

variable {P : Payload → Prop}

theorem Value.every_iff {v : Value} : v.Every P ↔ v.payload.Every P := by
  cases v
  simp only [Value.Every]

theorem everyEntry_iff {es : List (String × Value)} : EveryEntry P es ↔ ∀ e ∈ es, e.2.payload.Every P := by
  induction es with
  | nil => simp [EveryEntry]
  | cons e rest ih => simp only [EveryEntry, ih, Value.every_iff, List.forall_mem_cons]

theorem everyElement_iff {xs : List Value} : EveryElement P xs ↔ ∀ v ∈ xs, v.payload.Every P := by
  induction xs with
  | nil => simp [EveryElement]
  | cons v rest ih => simp only [EveryElement, ih, Value.every_iff, List.forall_mem_cons]

namespace Payload

@[simp] theorem every_scalar {s : Scalar} : (Payload.scalar s).Every P ↔ P (.scalar s) := by simp only [Every]

@[simp] theorem every_object {es : List (String × Value)} :
    (Payload.object es).Every P ↔ P (.object es) ∧ ∀ e ∈ es, e.2.payload.Every P := by
  simp only [Every, everyEntry_iff]

@[simp] theorem every_list {xs : List Value} :
    (Payload.list xs).Every P ↔ P (.list xs) ∧ ∀ v ∈ xs, v.payload.Every P := by
  simp only [Every, everyElement_iff]

@[simp] theorem every_array {xs : List Value} :
    (Payload.array xs).Every P ↔ P (.array xs) ∧ ∀ v ∈ xs, v.payload.Every P := by
  simp only [Every, everyElement_iff]

end Payload

/-! ## Flags and depth, list by list -/

theorem clearEntries_eq_map (es : List (String × Value)) : clearEntries es = es.map fun e => (e.1, e.2.clearModified) := by
  induction es with
  | nil => rfl
  | cons e rest ih => simp only [clearEntries, ih, List.map_cons]

theorem clearElements_eq_map (xs : List Value) : clearElements xs = xs.map Value.clearModified := by
  induction xs with
  | nil => rfl
  | cons v rest ih => simp only [clearElements, ih, List.map_cons]

namespace Value

@[simp] theorem name_clearModified (v : Value) : v.clearModified.name = v.name := by cases v; rfl

@[simp] theorem payload_clearModified (v : Value) : v.clearModified.payload = v.payload.clearModified := by cases v; rfl

theorem depth_eq (v : Value) : v.depth = v.payload.depth := by cases v; rfl

end Value

@[simp] theorem Payload.kind_clearModified (p : Payload) : p.clearModified.kind = p.kind := by
  cases p <;> rfl

@[simp] theorem Value.kind_clearModified (v : Value) : v.clearModified.kind = v.kind := by
  rw [Value.kind, Value.kind, Value.payload_clearModified, Payload.kind_clearModified]

theorem entriesDepth_le {n : Nat} {es : List (String × Value)} :
    entriesDepth es ≤ n ↔ ∀ e ∈ es, e.2.payload.depth + 1 ≤ n := by
  induction es with
  | nil => simp [entriesDepth]
  | cons e rest ih => simp only [entriesDepth, Nat.max_le, ih, Value.depth_eq, List.forall_mem_cons]

theorem elementsDepth_le {n : Nat} {xs : List Value} :
    elementsDepth xs ≤ n ↔ ∀ v ∈ xs, v.payload.depth + 1 ≤ n := by
  induction xs with
  | nil => simp [elementsDepth]
  | cons v rest ih => simp only [elementsDepth, Nat.max_le, ih, Value.depth_eq, List.forall_mem_cons]

theorem Payload.depth_clearModified (p : Payload) : p.clearModified.depth = p.depth := by
  induction p using Payload.tree_induction with
  | scalar s => rfl
  | object es ih =>
    refine eq_of_forall_ge_iff fun n => ?_
    simp only [clearModified, depth, entriesDepth_le, clearEntries_eq_map, List.forall_mem_map, Value.payload_clearModified]
    exact forall₂_congr fun e he => by rw [ih e he]
  | list xs ih =>
    refine eq_of_forall_ge_iff fun n => ?_
    simp only [clearModified, depth, elementsDepth_le, clearElements_eq_map, List.forall_mem_map, Value.payload_clearModified]
    exact forall₂_congr fun v hv => by rw [ih v hv]
  | array xs ih =>
    refine eq_of_forall_ge_iff fun n => ?_
    simp only [clearModified, depth, elementsDepth_le, clearElements_eq_map, List.forall_mem_map, Value.payload_clearModified]
    exact forall₂_congr fun v hv => by rw [ih v hv]

theorem Payload.clearModified_clearModified (p : Payload) : p.clearModified.clearModified = p.clearModified := by
  have hv : ∀ v : Value, v.payload.clearModified.clearModified = v.payload.clearModified →
      v.clearModified.clearModified = v.clearModified := by
    rintro ⟨name, p, m⟩ h
    exact congrArg (Value.mk name · false) h
  induction p using Payload.tree_induction with
  | scalar s => rfl
  | object es ih =>
    simp only [clearModified, clearEntries_eq_map, List.map_map]
    exact congrArg Payload.object (List.map_congr_left fun e he => congrArg (Prod.mk e.1) (hv e.2 (ih e he)))
  | list xs ih =>
    simp only [clearModified, clearElements_eq_map, List.map_map]
    exact congrArg Payload.list (List.map_congr_left fun v h => hv v (ih v h))
  | array xs ih =>
    simp only [clearModified, clearElements_eq_map, List.map_map]
    exact congrArg Payload.array (List.map_congr_left fun v h => hv v (ih v h))

/-! ## Contents -/

mutual

def Value.contents : Value → Value
  | ⟨name, p, _⟩ => ⟨name, p.contents, false⟩

/-- The tree with every flag and every key of an object wiped out. -/
def Payload.contents : Payload → Payload
  | .scalar s => .scalar s
  | .object es => .object (contentsOfEntries es)
  | .list xs => .list (contentsOfElements xs)
  | .array xs => .array (contentsOfElements xs)

def contentsOfEntries : List (String × Value) → List (String × Value)
  | [] => []
  | (_, v) :: rest => ("", v.contents) :: contentsOfEntries rest

def contentsOfElements : List Value → List Value
  | [] => []
  | v :: rest => v.contents :: contentsOfElements rest

end

theorem contentsOfEntries_eq_map (es : List (String × Value)) : contentsOfEntries es = es.map fun e => ("", e.2.contents) := by
  induction es with
  | nil => rfl
  | cons e rest ih => simp only [contentsOfEntries, ih, List.map_cons]

theorem contentsOfElements_eq_map (xs : List Value) : contentsOfElements xs = xs.map Value.contents := by
  induction xs with
  | nil => rfl
  | cons v rest ih => simp only [contentsOfElements, ih, List.map_cons]

theorem Value.contents_eq (v : Value) : v.contents = ⟨v.name, v.payload.contents, false⟩ := by cases v; rfl

end TypedDoc
