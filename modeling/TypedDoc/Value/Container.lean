/-
  TypedDoc.Value.Container — what may be put into an object, a list and an array.

  Adding is checked at once: a child of an object or list needs a name, all elements of a
  list or array have one kind, and those of an array are primitive. `check` looks at a
  whole list or array, which may have been made without such checks, and names the first
  offender in order.
-/

import TypedDoc.Value.Basic

namespace TypedDoc

namespace ObjectEntries

/-- Puts a child under its name and returns the one it replaced. -/
def add (child : Value) (es : List (String × Value)) :
    Except Error (Option Value × List (String × Value)) :=
  match child.name with
  | none => .error (.unnamedValue child.kind)
  | some name => .ok (es.lookup name, Entries.put name child es)

def ofValues (vs : List Value) : Except Error (List (String × Value)) :=
  vs.foldlM (fun es v => (·.2) <$> add v es) []

/-- The names the children have now; a nameless child is skipped. -/
def names (es : List (String × Value)) : List String := es.filterMap (·.2.name)

end ObjectEntries

/-- The kind of the elements of a list or array, if it has any. -/
def elementKind (xs : List Value) : Option Kind := xs.head?.map Value.kind

namespace ListElements

/-- Adds at the end. -/
def push (v : Value) (xs : List Value) : Except Error (List Value) :=
  if v.name.isNone then .error (.unnamedValue v.kind)
  else
    match elementKind xs with
    | none => .ok (xs ++ [v])
    | some expected =>
      if v.kind = expected then .ok (xs ++ [v])
      else .error (.heterogeneousElements xs.length expected v.kind)

def ofValues (vs : List Value) : Except Error (List Value) := vs.foldlM (fun xs v => push v xs) []

/-- Elements from position `i` on: each of the expected kind and named. -/
def checkFrom (expected : Kind) (i : Nat) : List Value → Except Error Unit
  | [] => .ok ()
  | v :: rest =>
    if v.kind ≠ expected then .error (.heterogeneousElements i expected v.kind)
    else if v.name.isNone then .error (.unnamedValue v.kind)
    else checkFrom expected (i + 1) rest

/-- The kind of the elements, unless one of them does not belong. -/
def check (xs : List Value) : Except Error (Option Kind) :=
  match elementKind xs with
  | none => .ok none
  | some expected => (fun _ => some expected) <$> checkFrom expected 0 xs

end ListElements

namespace ArrayElements

/-- Adds a nameless element at the end. -/
def push (p : Payload) (xs : List Value) : Except Error (List Value) :=
  if !p.kind.isPrimitive then .error (.nonPrimitiveElement p.kind)
  else
    match elementKind xs with
    | none => .ok (xs ++ [.anonymous p])
    | some expected =>
      if p.kind = expected then .ok (xs ++ [.anonymous p])
      else .error (.heterogeneousElements xs.length expected p.kind)

def ofPayloads (ps : List Payload) : Except Error (List Value) := ps.foldlM (fun xs p => push p xs) []

/-- Elements from position `i` on: each of the expected kind. -/
def checkFrom (expected : Kind) (i : Nat) : List Value → Except Error Unit
  | [] => .ok ()
  | v :: rest =>
    if v.kind ≠ expected then .error (.heterogeneousElements i expected v.kind)
    else checkFrom expected (i + 1) rest

/-- The kind of the elements, unless one of them does not belong. -/
def check (xs : List Value) : Except Error (Option Kind) :=
  match elementKind xs with
  | none => .ok none
  | some expected =>
    if !expected.isPrimitive then .error (.nonPrimitiveElement expected)
    else (fun _ => some expected) <$> checkFrom expected 0 xs

end ArrayElements

end TypedDoc
