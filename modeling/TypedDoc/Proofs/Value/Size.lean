/-
  TypedDoc.Proofs.Value.Size — how large a tree can be that was read from so many bytes.

  Every node has a byte of its own in the stream: a scalar one of its bytes, an object its
  terminator, a list or array the id of its elements or the zero in its place. Beside them
  stand the bytes of every string and every name. What an object loses, when a later entry
  takes the place of an earlier one, only makes the tree smaller.
  - `Spelling.size_payload`: nodes and text together are no more than the bytes of the spelling.
  - `Value.size_decode`: so they are no more than what decoding took.
-/

import TypedDoc.Proofs.Value.Reading

namespace TypedDoc

open Wire

/-! ## Measures -/

mutual

/-- The value itself, all its children and elements, and so on. -/
def Value.nodes : Value → Nat
  | ⟨_, p, _⟩ => p.nodesBelow + 1

def Payload.nodesBelow : Payload → Nat
  | .scalar _ => 0
  | .object es => entriesNodes es
  | .list xs | .array xs => elementsNodes xs

def entriesNodes : List (String × Value) → Nat
  | [] => 0
  | (_, v) :: rest => v.nodes + entriesNodes rest

def elementsNodes : List Value → Nat
  | [] => 0
  | v :: rest => v.nodes + elementsNodes rest

end

def Scalar.text (c : Charset) : Scalar → Nat
  | .string s => (c.encode s).length
  | _ => 0

/-- Nothing for a node without a name. -/
def nameText (c : Charset) (name : Option String) : Nat := (name.map fun s => (c.encode s).length).getD 0

theorem nameText_some (c : Charset) (s : String) : nameText c (some s) = (c.encode s).length := rfl

theorem nameText_none (c : Charset) : nameText c none = 0 := rfl

mutual

/-- The bytes, in a charset, of all strings in a tree and of all names below its root. -/
def Value.text (c : Charset) : Value → Nat
  | ⟨_, p, _⟩ => p.text c

def Payload.text (c : Charset) : Payload → Nat
  | .scalar s => s.text c
  | .object es => entriesText c es
  | .list xs | .array xs => elementsText c xs

def entriesText (c : Charset) : List (String × Value) → Nat
  | [] => 0
  | (_, v) :: rest => nameText c v.name + v.text c + entriesText c rest

def elementsText (c : Charset) : List Value → Nat
  | [] => 0
  | v :: rest => nameText c v.name + v.text c + elementsText c rest

end

/-- What a node adds to the tree that it stands in. -/
def Value.size (c : Charset) (v : Value) : Nat := v.nodes + (nameText c v.name + v.text c)

/-- What stands below a node, and its own strings. -/
def Payload.size (c : Charset) (p : Payload) : Nat := p.nodesBelow + p.text c

theorem Value.size_mk (c : Charset) (name : Option String) (p : Payload) (modified : Bool) :
    (⟨name, p, modified⟩ : Value).size c = p.size c + 1 + nameText c name := by
  simp only [size, nodes, text, Payload.size]
  omega

theorem size_object (c : Charset) (es : List (String × Value)) :
    (Payload.object es).size c = Entries.weight (fun e => e.2.size c) es := by
  simp only [Payload.size, Payload.nodesBelow, Payload.text]
  induction es with
  | nil => rfl
  | cons e rest ih =>
    simp only [Entries.weight, entriesNodes, entriesText, List.map_cons, List.sum_cons, Value.size] at ih ⊢
    omega

theorem size_list (c : Charset) (xs : List Value) : (Payload.list xs).size c = (xs.map (Value.size c)).sum := by
  simp only [Payload.size, Payload.nodesBelow, Payload.text]
  induction xs with
  | nil => rfl
  | cons v rest ih =>
    simp only [elementsNodes, elementsText, List.map_cons, List.sum_cons, Value.size] at ih ⊢
    omega

theorem size_array (c : Charset) (xs : List Value) : (Payload.array xs).size c = (xs.map (Value.size c)).sum :=
  size_list c xs

theorem size_scalar (c : Charset) (s : Scalar) : (Payload.scalar s).size c = s.text c := by
  simp only [Payload.size, Payload.nodesBelow, Payload.text, Nat.zero_add]

/-! ## Spellings -/

theorem length_stringBytes (c : Charset) (s : String) : (stringBytes c s).length = 4 + (c.encode s).length := by
  rw [stringBytes, List.length_append, BigEndian.length_toBytes]

theorem Leaf.text_lt (c : Charset) (l : Leaf) : l.value.text c < (l.bytes c).length := by
  cases l with
  | boolean raw => exact Nat.zero_lt_one
  | scalar s =>
    show s.text c < (s.bytes c).length
    cases s with
    | string v =>
      simp only [Scalar.text, Scalar.bytes, length_stringBytes]
      omega
    | timestamp v => exact Nat.succ_pos _
    | boolean v => exact Nat.zero_lt_one
    | _ => simp only [Scalar.text, Scalar.bytes, BigEndian.length_toBytes, Nat.reduceLT]

namespace Spelling

variable {reg : Registry} {c : Charset} {n : Nat} {σ : Spelling}

/-- The payload of a spelling and the node that has it, against the bytes. -/
theorem size_payload (h : σ.Fits reg c n) : σ.payload.size c + 1 ≤ (σ.bytes c).length := by
  induction h with
  | @leaf n l h =>
    rw [payload, size_scalar, bytes]
    exact l.text_lt c
  | @object n es ids names below ih =>
    have hentry : ∀ e ∈ es, (⟨some e.2.1, e.2.2.payload, false⟩ : Value).size c ≤
        (e.1 :: (stringBytes c e.2.1 ++ e.2.2.bytes c)).length := by
      intro e he
      have := ih e he
      rw [Value.size_mk, List.length_cons, List.length_append, length_stringBytes, nameText_some]
      omega
    have hentries : Entries.weight (fun e => e.2.size c) (entries es) ≤ (entriesBytes c es).length := by
      rw [Entries.weight, entries_eq_map, List.map_map, entriesBytes_eq_flatMap, List.length_flatMap]
      exact List.sum_le_sum hentry
    have hput : Entries.weight (fun e => e.2.size c) (Entries.putAll (entries es) []) ≤ _ :=
      Entries.weight_putAll_le (fun e => e.2.size c) (entries es) []
    rw [show Entries.weight (fun e : String × Value => e.2.size c) [] = 0 from rfl] at hput
    rw [payload, size_object, bytes, List.length_append, List.length_singleton]
    omega
  | noList => exact Nat.le_refl 1
  | @list n id k xs hid hk count kinds names below ih =>
    have helements : (xs.map fun e => (⟨some e.1, e.2.payload, false⟩ : Value).size c).sum ≤ (elementsBytes c xs).length := by
      rw [elementsBytes_eq_flatMap, List.length_flatMap]
      refine List.sum_le_sum fun e he => ?_
      have := ih e he
      rw [Value.size_mk, List.length_append, length_stringBytes, nameText_some]
      omega
    rw [payload, size_list, elements_eq_map, List.map_map, bytes, List.length_cons, List.length_append]
    exact Nat.succ_le_succ (helements.trans (Nat.le_add_left _ _))
  | noArray => exact Nat.le_refl 1
  | @array n id k xs hid hk hp count kinds below fits =>
    have helements : (xs.map fun l => (⟨none, .scalar l.value, false⟩ : Value).size c).sum ≤ (xs.flatMap (Leaf.bytes c)).length := by
      rw [List.length_flatMap]
      refine List.sum_le_sum fun l _ => ?_
      have := l.text_lt c
      rw [Value.size_mk, size_scalar, nameText_none]
      omega
    rw [payload, size_array, List.map_map, bytes, List.length_cons, List.length_append]
    exact Nat.succ_le_succ (helements.trans (Nat.le_add_left _ _))

end Spelling

/-- Decoding makes nothing out of nothing. -/
theorem Value.size_decode {reg : Registry} {c : Charset} {v v' : Value} {s s' : Supply}
    (h : v.decode reg c s = .ok v' s') : ∃ bs, Took s bs s' ∧ v'.nodes + v'.text c ≤ bs.length := by
  obtain ⟨p, s₁, hp, h⟩ := bind_ok h
  obtain ⟨rfl, rfl⟩ := pure_ok h
  obtain ⟨σ, -, fits, rfl, took⟩ := decode_ok hp
  refine ⟨σ.bytes c, took, ?_⟩
  have hsize := Spelling.size_payload fits
  simp only [Payload.size] at hsize
  simp only [nodes, text]
  omega

end TypedDoc
