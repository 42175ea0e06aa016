/-
  TypedDoc.Value.Basic — typed values: a tree of named nodes, each with a payload and a
  flag that says whether it was modified since it was last encoded or decoded.

  A payload is a scalar or one of three containers. An object keeps its children under
  the names they were added with, in the order of first addition: the key stays when a
  child is renamed in place. A list holds named elements of one kind, an array nameless
  elements of one primitive kind; `Value.Container` checks these rules where elements are
  added, but a tree may break them until it is encoded.

  The flag belongs to one node. Making a value, replacing its payload and opening its
  container for a change set it; a change further down does not.
-/

import TypedDoc.Value.Entries
import TypedDoc.Value.Scalar

namespace TypedDoc

mutual

structure Value where
  name : Option String
  payload : Payload
  modified : Bool

inductive Payload where
  | scalar (s : Scalar)
  | object (entries : List (String × Value))
  | list (elements : List Value)
  | array (elements : List Value)

end

namespace Payload

def kind : Payload → Kind
  | .scalar s => s.kind
  | .object _ => .object
  | .list _ => .list
  | .array _ => .array

/-- The payload a value of each kind starts with. -/
def initial : Kind → Payload
  | .object => .object []
  | .byte => .scalar (.byte 0)
  | .boolean => .scalar (.boolean false)
  | .short => .scalar (.short 0)
  | .int => .scalar (.int 0)
  | .long => .scalar (.long 0)
  | .float => .scalar (.float ⟨0⟩)
  | .double => .scalar (.double ⟨0⟩)
  | .string => .scalar (.string "")
  | .timestamp => .scalar (.timestamp .empty)
  | .list => .list []
  | .array => .array []

@[simp] theorem kind_initial (k : Kind) : (initial k).kind = k := by cases k <;> rfl

def scalar? : Payload → Option Scalar
  | .scalar s => some s
  | _ => none

def entries? : Payload → Option (List (String × Value))
  | .object es => some es
  | _ => none

def listElements? : Payload → Option (List Value)
  | .list xs => some xs
  | _ => none

def arrayElements? : Payload → Option (List Value)
  | .array xs => some xs
  | _ => none

end Payload

namespace Value

def named (name : String) (p : Payload) : Value := ⟨some name, p, true⟩

def anonymous (p : Payload) : Value := ⟨none, p, true⟩

/-- A nameless, unmodified value of a kind. -/
def initial (k : Kind) : Value := ⟨none, .initial k, false⟩

def kind (v : Value) : Kind := v.payload.kind

def withName (v : Value) (name : String) : Value := { v with name := some name }

def setPayload (v : Value) (p : Payload) : Value := { v with payload := p, modified := true }

def markModified (v : Value) : Value := { v with modified := true }

end Value

/-! ## Flags -/

mutual

/-- Clears the flag of the node and of everything below it. -/
def Value.clearModified : Value → Value
  | ⟨name, p, _⟩ => ⟨name, p.clearModified, false⟩

def Payload.clearModified : Payload → Payload
  | .scalar s => .scalar s
  | .object es => .object (clearEntries es)
  | .list xs => .list (clearElements xs)
  | .array xs => .array (clearElements xs)

def clearEntries : List (String × Value) → List (String × Value)
  | [] => []
  | (k, v) :: rest => (k, v.clearModified) :: clearEntries rest

def clearElements : List Value → List Value
  | [] => []
  | v :: rest => v.clearModified :: clearElements rest

end

/-! ## Depth -/

mutual

/-- Container levels below a value: 0 for a scalar or an empty container. -/
def Value.depth : Value → Nat
  | ⟨_, p, _⟩ => p.depth

def Payload.depth : Payload → Nat
  | .scalar _ => 0
  | .object es => entriesDepth es
  | .list xs => elementsDepth xs
  | .array xs => elementsDepth xs

def entriesDepth : List (String × Value) → Nat
  | [] => 0
  | (_, v) :: rest => max (v.depth + 1) (entriesDepth rest)

def elementsDepth : List Value → Nat
  | [] => 0
  | v :: rest => max (v.depth + 1) (elementsDepth rest)

end

/-! ## Equality of contents -/

mutual

/-- The same name and contents. Flags do not count, nor do the keys of an object. -/
def Value.same : Value → Value → Bool
  | ⟨name, p, _⟩, ⟨name', p', _⟩ => name == name' && p.same p'

def Payload.same : Payload → Payload → Bool
  | .scalar s, .scalar s' => s.same s'
  | .object es, .object es' => sameEntries es es'
  | .list xs, .list xs' => sameElements xs xs'
  | .array xs, .array xs' => sameElements xs xs'
  | _, _ => false

def sameEntries : List (String × Value) → List (String × Value) → Bool
  | [], [] => true
  | (_, v) :: rest, (_, v') :: rest' => v.same v' && sameEntries rest rest'
  | _, _ => false

def sameElements : List Value → List Value → Bool
  | [], [] => true
  | v :: rest, v' :: rest' => v.same v' && sameElements rest rest'
  | _, _ => false

end

end TypedDoc
