/-
  TypedDoc.Proofs.Value.Spelling — the byte strings that can be read as a payload, as
  trees of their parts.

  A spelling keeps what the payload forgets: which byte stood for a boolean, which id for
  a kind, the entries of an object as they came, and the element type that an empty list
  or array declared. `bytes` puts it in a row, `payload` is what it means, and `Fits` says
  which ones the reader takes, at so many levels.

  The ways to spell one payload differ in three things only, and a spelling that avoids
  them all is `Canonical`: a boolean byte above 1, an entry name twice in one object, and
  an element type for no elements.
-/

import TypedDoc.Proofs.Value.Entries
import TypedDoc.Proofs.Value.Layout
import TypedDoc.Value.Decode

namespace TypedDoc

open Wire

/-! ## Scalars -/

/-- A scalar in a stream. -/
inductive Leaf where
  | boolean (raw : UInt8)
  /-- Any other kind. -/
  | scalar (s : Scalar)

namespace Scalar

/-- What can be written: no empty timestamp, and no string too long to tell its length. -/
def Fits (c : Charset) : Scalar → Prop
  | .string v => Counted c v
  | .timestamp v => v.isEmpty = false
  | _ => True

end Scalar

namespace Leaf

def value : Leaf → Scalar
  | .boolean raw => .boolean (raw != 0)
  | .scalar s => s

def kind (l : Leaf) : Kind := l.value.kind

def bytes (c : Charset) : Leaf → List UInt8
  | .boolean raw => [raw]
  | .scalar s => s.bytes c

def Fits (c : Charset) : Leaf → Prop
  | .boolean _ => True
  | .scalar s => s.kind ≠ .boolean ∧ s.Fits c

def Canonical : Leaf → Prop
  | .boolean raw => raw = 0 ∨ raw = 1
  | .scalar _ => True

/-- The way a scalar is written. -/
def ofScalar : Scalar → Leaf
  | .boolean v => .boolean (if v then 1 else 0)
  | s => .scalar s

end Leaf

/-! ## Payloads -/

inductive Spelling where
  | leaf (l : Leaf)
  /-- Id, name and payload of each entry. -/
  | object (entries : List (UInt8 × String × Spelling))
  | noList
  | list (id : UInt8) (elements : List (String × Spelling))
  | noArray
  | array (id : UInt8) (elements : List Leaf)

namespace Spelling

def kind : Spelling → Kind
  | .leaf l => l.kind
  | .object _ => .object
  | .noList | .list _ _ => .list
  | .noArray | .array _ _ => .array

mutual

def bytes (c : Charset) : Spelling → List UInt8
  | .leaf l => l.bytes c
  | .object es => entriesBytes c es ++ [TypeId.terminator.toByte]
  | .noList | .noArray => [TypeId.terminator.toByte]
  | .list id xs => id :: (BigEndian.toBytes 4 xs.length ++ elementsBytes c xs)
  | .array id xs => id :: (BigEndian.toBytes 4 xs.length ++ xs.flatMap (Leaf.bytes c))

def entriesBytes (c : Charset) : List (UInt8 × String × Spelling) → List UInt8
  | [] => []
  | (id, name, v) :: rest => id :: (stringBytes c name ++ (v.bytes c ++ entriesBytes c rest))

def elementsBytes (c : Charset) : List (String × Spelling) → List UInt8
  | [] => []
  | (name, v) :: rest => stringBytes c name ++ (v.bytes c ++ elementsBytes c rest)

end

mutual

def payload : Spelling → Payload
  | .leaf l => .scalar l.value
  | .object es => .object (Entries.putAll (entries es) [])
  | .noList => .list []
  | .list _ xs => .list (elements xs)
  | .noArray => .array []
  | .array _ xs => .array (xs.map fun l => ⟨none, .scalar l.value, false⟩)

def entries : List (UInt8 × String × Spelling) → List (String × Value)
  | [] => []
  | (_, name, v) :: rest => (name, ⟨some name, v.payload, false⟩) :: entries rest

def elements : List (String × Spelling) → List Value
  | [] => []
  | (name, v) :: rest => ⟨some name, v.payload, false⟩ :: elements rest

end

theorem elementsBytes_eq_flatMap (c : Charset) (xs : List (String × Spelling)) :
    elementsBytes c xs = xs.flatMap fun e => stringBytes c e.1 ++ e.2.bytes c := by
  induction xs with
  | nil => rfl
  | cons e rest ih => simp only [elementsBytes, ih, List.flatMap_cons, List.append_assoc]

theorem entriesBytes_eq_flatMap (c : Charset) (es : List (UInt8 × String × Spelling)) :
    entriesBytes c es = es.flatMap fun e => e.1 :: (stringBytes c e.2.1 ++ e.2.2.bytes c) := by
  induction es with
  | nil => rfl
  | cons e rest ih => simp only [entriesBytes, ih, List.flatMap_cons, List.append_assoc, List.cons_append]

theorem length_le_entriesBytes (c : Charset) (es : List (UInt8 × String × Spelling)) :
    es.length ≤ (entriesBytes c es).length := by
  induction es with
  | nil => exact Nat.zero_le _
  | cons e rest ih =>
    simp only [entriesBytes, List.length_cons, List.length_append]
    omega

theorem length_bytes_of_mem_entries (c : Charset) {es : List (UInt8 × String × Spelling)} {e : UInt8 × String × Spelling}
    (h : e ∈ es) : (e.2.2.bytes c).length ≤ (entriesBytes c es).length := by
  induction es with
  | nil => cases h
  | cons e' rest ih =>
    obtain ⟨id, name, v⟩ := e'
    simp only [entriesBytes, List.length_cons, List.length_append]
    rcases List.mem_cons.1 h with rfl | h
    · show (v.bytes c).length ≤ _
      omega
    · have := ih h
      omega

theorem length_bytes_of_mem_elements (c : Charset) {xs : List (String × Spelling)} {e : String × Spelling}
    (h : e ∈ xs) : (e.2.bytes c).length ≤ (elementsBytes c xs).length := by
  induction xs with
  | nil => cases h
  | cons e' rest ih =>
    obtain ⟨name, v⟩ := e'
    simp only [elementsBytes, List.length_append]
    rcases List.mem_cons.1 h with rfl | h
    · show (v.bytes c).length ≤ _
      omega
    · have := ih h
      omega

theorem entries_eq_map (es : List (UInt8 × String × Spelling)) :
    entries es = es.map fun e => (e.2.1, ⟨some e.2.1, e.2.2.payload, false⟩) := by
  induction es with
  | nil => rfl
  | cons e rest ih => simp only [entries, ih, List.map_cons]

theorem elements_eq_map (xs : List (String × Spelling)) :
    elements xs = xs.map fun e => ⟨some e.1, e.2.payload, false⟩ := by
  induction xs with
  | nil => rfl
  | cons e rest ih => simp only [elements, ih, List.map_cons]

@[simp] theorem kind_payload (σ : Spelling) : σ.payload.kind = σ.kind := by
  cases σ <;> rfl

/-- What the reader takes with so many levels, ids being the registry's. -/
inductive Fits (reg : Registry) (c : Charset) : (levels : Nat) → Spelling → Prop where
  | leaf {n : Nat} {l : Leaf} (h : l.Fits c) : Fits reg c (n + 1) (.leaf l)
  | object {n : Nat} {es : List (UInt8 × String × Spelling)}
      (ids : ∀ e ∈ es, e.1 ≠ TypeId.terminator.toByte ∧ reg.kindOf e.1 = .ok e.2.2.kind)
      (names : ∀ e ∈ es, Counted c e.2.1) (below : ∀ e ∈ es, Fits reg c n e.2.2) : Fits reg c (n + 1) (.object es)
  | noList {n : Nat} : Fits reg c (n + 1) .noList
  | list {n : Nat} {id : UInt8} {k : Kind} {xs : List (String × Spelling)} (hid : id ≠ TypeId.terminator.toByte)
      (hk : reg.kindOf id = .ok k) (count : xs.length < countLimit) (kinds : ∀ e ∈ xs, e.2.kind = k)
      (names : ∀ e ∈ xs, Counted c e.1) (below : ∀ e ∈ xs, Fits reg c n e.2) : Fits reg c (n + 1) (.list id xs)
  | noArray {n : Nat} : Fits reg c (n + 1) .noArray
  | array {n : Nat} {id : UInt8} {k : Kind} {xs : List Leaf} (hid : id ≠ TypeId.terminator.toByte)
      (hk : reg.kindOf id = .ok k) (hp : k.isPrimitive = true) (count : xs.length < countLimit)
      (kinds : ∀ l ∈ xs, l.kind = k) (below : n ≠ 0 ∨ xs = []) (fits : ∀ l ∈ xs, l.Fits c) :
      Fits reg c (n + 1) (.array id xs)

inductive Canonical : Spelling → Prop where
  | leaf {l : Leaf} (h : l.Canonical) : Canonical (.leaf l)
  | object {es : List (UInt8 × String × Spelling)} (names : (es.map (·.2.1)).Nodup) (below : ∀ e ∈ es, Canonical e.2.2) :
      Canonical (.object es)
  | noList : Canonical .noList
  | list {id : UInt8} {xs : List (String × Spelling)} (some : xs ≠ []) (below : ∀ e ∈ xs, Canonical e.2) :
      Canonical (.list id xs)
  | noArray : Canonical .noArray
  | array {id : UInt8} {xs : List Leaf} (some : xs ≠ []) (below : ∀ l ∈ xs, l.Canonical) : Canonical (.array id xs)

theorem canonical_leaf {l : Leaf} : (leaf l).Canonical ↔ l.Canonical := by
  constructor
  · intro h
    cases h with
    | leaf h => exact h
  · exact .leaf

theorem canonical_object {es : List (UInt8 × String × Spelling)} :
    (object es).Canonical ↔ (es.map (·.2.1)).Nodup ∧ ∀ e ∈ es, e.2.2.Canonical := by
  constructor
  · intro h
    cases h with
    | object names below => exact ⟨names, below⟩
  · exact fun h => .object h.1 h.2

theorem canonical_list {id : UInt8} {xs : List (String × Spelling)} :
    (list id xs).Canonical ↔ xs ≠ [] ∧ ∀ e ∈ xs, e.2.Canonical := by
  constructor
  · intro h
    cases h with
    | list some below => exact ⟨some, below⟩
  · exact fun h => .list h.1 h.2

theorem canonical_array {id : UInt8} {xs : List Leaf} :
    (array id xs).Canonical ↔ xs ≠ [] ∧ ∀ l ∈ xs, l.Canonical := by
  constructor
  · intro h
    cases h with
    | array some below => exact ⟨some, below⟩
  · exact fun h => .array h.1 h.2

end Spelling

end TypedDoc
