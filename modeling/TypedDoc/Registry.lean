/-
  TypedDoc.Registry — which kind each type id stands for when a document is read.

  Bindings are added one at a time, each id and each kind at most once, never id 0 and
  never the terminator; a refused binding changes nothing. Writing does not look here: it
  always uses the standard ids.
-/

import TypedDoc.Value.Basic

namespace TypedDoc

structure Registry where
  /-- In the order they were made. -/
  bindings : List (UInt8 × Kind)
  deriving DecidableEq, Repr

namespace Registry

def empty : Registry := ⟨[]⟩

def standard : Registry := ⟨Kind.all.map fun k => (k.toByte, k)⟩

def resolve? (r : Registry) (id : UInt8) : Option Kind := r.bindings.lookup id

/-- The id a kind is bound to. -/
def idOf? (r : Registry) (k : Kind) : Option UInt8 := (r.bindings.find? (·.2 == k)).map (·.1)

def register (r : Registry) (id : UInt8) (type : TypeId) : Except Error Registry :=
  if id = 0 then .error (.duplicateRegistration .reservedId)
  else
    match type with
    | .terminator => .error (.duplicateRegistration .terminatorKind)
    | .kind k =>
      match r.resolve? id, r.idOf? k with
      | some bound, _ => .error (.duplicateRegistration (.idBound id bound))
      | none, some other => .error (.duplicateRegistration (.kindBound k other))
      | none, none => .ok ⟨r.bindings ++ [(id, k)]⟩

def contains (r : Registry) (id : UInt8) : Bool := (r.resolve? id).isSome

/-- The kind an id stands for. -/
def kindOf (r : Registry) (id : UInt8) : Except Error Kind :=
  match r.resolve? id with
  | some k => .ok k
  | none => .error (.unknownTypeId id)

/-- A fresh value of the kind an id stands for. -/
def instantiate (r : Registry) (id : UInt8) : Except Error Value := .initial <$> r.kindOf id

def size (r : Registry) : Nat := r.bindings.length

def isEmpty (r : Registry) : Bool := r.bindings.isEmpty

/-- Bound ids in increasing order. -/
def ids (r : Registry) : List UInt8 := (r.bindings.map (·.1)).mergeSort (· ≤ ·)

end Registry

end TypedDoc
