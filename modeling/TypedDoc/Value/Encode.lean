/-
  TypedDoc.Value.Encode — writing a value's payload, node by node, and the tree as it is
  afterwards.

    object   for each child: id of its kind, name, payload; then a zero byte
    list     id of the elements' kind, their number, then name and payload of each
    array    the same without names
    empty    a list or array without elements is one zero byte

  A list or array is checked as a whole before any of it is written; a child of an object
  is checked when its turn comes. A node that was written in full has its flag cleared;
  when a later one fails, those before it stay cleared and those above it are untouched.
  A tree deeper than `maxDepth` is refused at once.
-/

import TypedDoc.Value.Container

namespace TypedDoc

open Wire

/-- The deepest nesting that is written or read. -/
def maxDepth : Nat := 128

/-- What an attempt to write leaves behind: the tree it was given, with the flags of what
    was written cleared, and the outcome. -/
abbrev Emission (α : Type) := α × EStateM.Result Error Sink Nat

/-- Goes on after a success and adds the lengths; after a failure, keeps `kept`. -/
def after {α : Type} (r : EStateM.Result Error Sink Nat) (kept : α) (next : Sink → Emission α) : Emission α :=
  match r with
  | .error e k => (kept, .error e k)
  | .ok n k =>
    match next k with
    | (a, .ok m k') => (a, .ok (n + m) k')
    | (a, .error e k') => (a, .error e k')

/-- What precedes the payload of an object's child. -/
def entryHead (c : Charset) (v : Value) : Encoder Nat :=
  match v.name with
  | none => throw (.unnamedValue v.kind)
  | some name => do
    let id ← putBytes [v.kind.toByte]
    let label ← putString c name
    return id + label

/-- What precedes the elements of a list or array that is not empty. -/
def elementsHead (k : Kind) (count : Nat) : Encoder Nat := do
  let id ← putBytes [k.toByte]
  let counted ← putCount count
  return id + counted

mutual

def Value.emit (c : Charset) : Value → Sink → Emission Value
  | ⟨name, p, modified⟩, k =>
    match p.emit c k with
    | (p', .ok n k') => (⟨name, p', false⟩, .ok n k')
    | (p', .error e k') => (⟨name, p', modified⟩, .error e k')

def Payload.emit (c : Charset) : Payload → Sink → Emission Payload
  | .scalar s, k => (.scalar s, s.write c k)
  | .object es, k =>
    let (es', r) := emitEntries c es k
    (.object es', r)
  | .list xs, k =>
    match ListElements.check xs with
    | .error e => (.list xs, .error e k)
    | .ok none => (.list xs, putBytes [TypeId.terminator.toByte] k)
    | .ok (some kind) =>
      let (xs', r) := after (elementsHead kind xs.length k) xs fun k' => emitNamed c xs k'
      (.list xs', r)
  | .array xs, k =>
    match ArrayElements.check xs with
    | .error e => (.array xs, .error e k)
    | .ok none => (.array xs, putBytes [TypeId.terminator.toByte] k)
    | .ok (some kind) =>
      let (xs', r) := after (elementsHead kind xs.length k) xs fun k' => emitBare c xs k'
      (.array xs', r)

/-- The children of an object and its terminator. -/
def emitEntries (c : Charset) : List (String × Value) → Sink → Emission (List (String × Value))
  | [], k => ([], putBytes [TypeId.terminator.toByte] k)
  | (key, v) :: rest, k =>
    after (entryHead c v k) ((key, v) :: rest) fun k' =>
      let (v', r) := v.emit c k'
      after r ((key, v') :: rest) fun k'' =>
        let (rest', r') := emitEntries c rest k''
        ((key, v') :: rest', r')

/-- The elements of a list. -/
def emitNamed (c : Charset) : List Value → Sink → Emission (List Value)
  | [], k => ([], .ok 0 k)
  | v :: rest, k =>
    after (putString c (v.name.getD "") k) (v :: rest) fun k' =>
      let (v', r) := v.emit c k'
      after r (v' :: rest) fun k'' =>
        let (rest', r') := emitNamed c rest k''
        (v' :: rest', r')

/-- The elements of an array. -/
def emitBare (c : Charset) : List Value → Sink → Emission (List Value)
  | [], k => ([], .ok 0 k)
  | v :: rest, k =>
    let (v', r) := v.emit c k
    after r (v' :: rest) fun k' =>
      let (rest', r') := emitBare c rest k'
      (v' :: rest', r')

end

/-- Writes the payload of a value that is not too deep; its name and id are not written. -/
def Value.encode (c : Charset) (v : Value) (k : Sink) : Emission Value :=
  if maxDepth < v.depth then (v, .error (.encodeTooDeep maxDepth) k) else v.emit c k

end TypedDoc
