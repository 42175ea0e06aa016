/-
  TypedDoc.Value.Indexed — the children of an object in a row, and an index that says at
  which position the child of each key stands.

  Looking up goes by the index alone, so the key of a child is the name that it was added
  with: the index does not learn of it when the child is given another name in place.
  Names are those that the children have now. Taking a child out moves those behind it up,
  and their positions in the index with them.

  Nothing keeps the index and the children together but what is done here. A position that
  the index has and the children do not is a stray, and who follows it is stopped.
-/

import Mathlib.Data.List.Infix
import TypedDoc.Value.Decode

namespace TypedDoc

open Wire

structure Indexed where
  children : Array Value
  index : Std.HashMap String Nat

namespace Indexed

/-- A position that was followed to no child. -/
structure Stray where
  position : Nat
  size : Nat
  deriving DecidableEq, Repr

def empty : Indexed := ⟨#[], ∅⟩

def childAt (position : Nat) (o : Indexed) : Except Stray Value :=
  match o.children[position]? with
  | some v => .ok v
  | none => .error ⟨position, o.children.size⟩

def get (key : String) (o : Indexed) : Except Stray (Option Value) :=
  match o.index[key]? with
  | none => .ok none
  | some position => some <$> o.childAt position

def contains (key : String) (o : Indexed) : Bool := o.index.contains key

/-- The names the children have now; a nameless child is skipped. -/
def names (o : Indexed) : List String := o.children.toList.filterMap (·.name)

/-- Puts a child under its name. The result has the child that it replaced. -/
def add (child : Value) (o : Indexed) : Except Stray (Except Error (Option Value) × Indexed) :=
  match child.name with
  | none => .ok (.error (.unnamedValue child.kind), o)
  | some name =>
    match o.index[name]? with
    | some position => do
      let old ← o.childAt position
      return (.ok (some old), { o with children := o.children.setIfInBounds position child })
    | none => .ok (.ok none, ⟨o.children.push child, o.index.insert name o.children.size⟩)

/-- The position of what stood behind a child that was taken out. -/
def movedUp (position slot : Nat) : Nat := if position < slot then slot - 1 else slot

def remove (key : String) (o : Indexed) : Except Stray (Option Value × Indexed) :=
  match o.index[key]? with
  | none => .ok (none, o)
  | some position => do
    let old ← o.childAt position
    return (some old, ⟨o.children.eraseIdxIfInBounds position, (o.index.erase key).map fun _ => movedUp position⟩)

/-- Runs `f` on the child of a key, in its place. -/
def change (key : String) (f : Value → Value) (o : Indexed) : Except Stray (Option Value × Indexed) :=
  match o.index[key]? with
  | none => .ok (none, o)
  | some position => do
    let v ← o.childAt position
    return (some v, { o with children := o.children.setIfInBounds position (f v) })

/-- Puts any value in the place of each child; `f` has all of them and the position. -/
def changeAll (f : List Value → Nat → Value) (o : Indexed) : Indexed :=
  { o with children := o.children.mapIdx fun position _ => f o.children.toList position }

/-- Adds one after another, up to the first that has no name. -/
def addAll : List Value → Indexed → Except Stray (Except Error Indexed)
  | [], o => .ok (.ok o)
  | v :: rest, o => do
    match ← o.add v with
    | (.error e, _) => return .error e
    | (.ok _, o') => addAll rest o'

def ofValues (vs : List Value) : Except Stray (Except Error Indexed) := addAll vs empty

/-- Entries up to the terminator, added to `o` in turn; `payload` reads one of a kind. -/
def takeEntries (reg : Registry) (c : Charset) (payload : Kind → Decoder Payload) :
    (budget : Nat) → (o : Indexed) → Decoder (Except Stray Indexed)
  | 0, _ => throw (.truncatedStream .fixedWidth)
  | n + 1, o => do
    let id ← takeByte
    if id = TypeId.terminator.toByte then return .ok o
    let kind ← settled (reg.kindOf id)
    let name ← takeString c
    let p ← payload kind
    match o.add ⟨some name, p, false⟩ with
    | .error stray => return .error stray
    | .ok (.error e, _) => throw e
    | .ok (.ok _, o') => takeEntries reg c payload n o'

end Indexed

end TypedDoc
