/-
  TypedDoc.Value.Walk — reaching a node below a value and changing it there.

  A path is a list of steps, each to a child of an object by its key or to an element of
  a list or array by its position. Walking marks nothing: every node passed keeps its
  name, its flag and its other children. Opening the container of the node itself
  (`editObject` and its like) marks that node, and only if it is such a container.
-/

import TypedDoc.Value.Basic

namespace TypedDoc

inductive Step where
  | child (key : String)
  | element (index : Nat)
  deriving DecidableEq, Repr

namespace Value

def child? (v : Value) : Step → Option Value
  | .child key => v.payload.entries?.bind (·.lookup key)
  | .element i =>
    match v.payload with
    | .list xs => xs[i]?
    | .array xs => xs[i]?
    | _ => none

/-- Puts another node in the place of a child; where there is none, nothing changes. -/
def replaceChild (v : Value) (step : Step) (new : Value) : Value :=
  match v.payload, step with
  | .object es, .child key =>
    { v with payload := .object (es.map fun e => if e.1 = key then (e.1, new) else e) }
  | .list xs, .element i => { v with payload := .list (xs.set i new) }
  | .array xs, .element i => { v with payload := .array (xs.set i new) }
  | _, _ => v

/-- Runs `f` on the node at the end of a path, if there is one. -/
def updateAt {α : Type} (f : Value → Value × α) : List Step → Value → Option (Value × α)
  | [], v => some (f v)
  | step :: rest, v => do
    let (new, a) ← updateAt f rest (← v.child? step)
    return (v.replaceChild step new, a)

/-! ## Opening a container -/

def editObject {α : Type} (f : List (String × Value) → List (String × Value) × α) (v : Value) :
    Value × Option α :=
  match v.payload with
  | .object es => let (es', a) := f es; ({ v with payload := .object es', modified := true }, some a)
  | _ => (v, none)

def editList {α : Type} (f : List Value → List Value × α) (v : Value) : Value × Option α :=
  match v.payload with
  | .list xs => let (xs', a) := f xs; ({ v with payload := .list xs', modified := true }, some a)
  | _ => (v, none)

def editArray {α : Type} (f : List Value → List Value × α) (v : Value) : Value × Option α :=
  match v.payload with
  | .array xs => let (xs', a) := f xs; ({ v with payload := .array xs', modified := true }, some a)
  | _ => (v, none)

end Value

end TypedDoc
