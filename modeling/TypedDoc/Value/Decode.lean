/-
  TypedDoc.Value.Decode — reading a payload of a given kind back from a stream.

  What the ids in the stream mean is the registry's to say. Every node read is unmodified.
  An object's later entry takes the place of an earlier one of the same name; a list or
  array whose element type is the terminator is empty and has no count. An array refuses
  elements that are not primitive before it looks at their number. More than `maxDepth`
  container levels are refused at the first node beyond, before its payload is read.

  Reading is total: levels run down with the nesting, elements with their count, and
  entries with a budget of more steps than there are bytes to take, since each takes one.
-/

import TypedDoc.Registry
import TypedDoc.Value.Encode

namespace TypedDoc

open Wire

/-- Entries up to the terminator, put into `es` in turn; `payload` reads one of a kind. -/
def takeEntries (reg : Registry) (c : Charset) (payload : Kind → Decoder Payload) :
    (budget : Nat) → (es : List (String × Value)) → Decoder (List (String × Value))
  | 0, _ => throw (.truncatedStream .fixedWidth)
  | n + 1, es => do
    let id ← takeByte
    if id = TypeId.terminator.toByte then return es
    let kind ← settled (reg.kindOf id)
    let name ← takeString c
    let p ← payload kind
    takeEntries reg c payload n (Entries.put name ⟨some name, p, false⟩ es)

/-- `one`, so many times, with the results so far in `acc`, newest first. -/
def takeMany {α : Type} (one : Decoder α) : (count : Nat) → (acc : List α) → Decoder (List α)
  | 0, acc => return acc.reverse
  | n + 1, acc => do
    let a ← one
    takeMany one n (a :: acc)

def takeList (reg : Registry) (c : Charset) (payload : Kind → Decoder Payload) : Decoder (List Value) := do
  let id ← takeByte
  if id = TypeId.terminator.toByte then return []
  let kind ← settled (reg.kindOf id)
  let count ← takeCount
  takeMany (do
    let name ← takeString c
    let p ← payload kind
    return ⟨some name, p, false⟩) count []

def takeArray (reg : Registry) (payload : Kind → Decoder Payload) : Decoder (List Value) := do
  let id ← takeByte
  if id = TypeId.terminator.toByte then return []
  let kind ← settled (reg.kindOf id)
  if !kind.isPrimitive then throw (.invalidElementType id)
  let count ← takeCount
  takeMany (do
    let p ← payload kind
    return ⟨none, p, false⟩) count []

/-- A payload of a kind, with so many levels left for it and what is below it. -/
def takePayload (reg : Registry) (c : Charset) (budget : Nat) : (levels : Nat) → Kind → Decoder Payload
  | 0, _ => throw (.nestingTooDeep maxDepth)
  | _ + 1, .byte => return .scalar (.byte (← takeInt8))
  | _ + 1, .boolean => return .scalar (.boolean (← takeBoolean))
  | _ + 1, .short => return .scalar (.short (← takeInt16))
  | _ + 1, .int => return .scalar (.int (← takeInt32))
  | _ + 1, .long => return .scalar (.long (← takeInt64))
  | _ + 1, .float => return .scalar (.float (← takeSingle))
  | _ + 1, .double => return .scalar (.double (← takeDouble))
  | _ + 1, .string => return .scalar (.string (← takeString c))
  | _ + 1, .timestamp => return .scalar (.timestamp (← Timestamp.read))
  | levels + 1, .object => return .object (← takeEntries reg c (takePayload reg c budget levels) budget [])
  | levels + 1, .list => return .list (← takeList reg c (takePayload reg c budget levels))
  | levels + 1, .array => return .array (← takeArray reg (takePayload reg c budget levels))

/-- A payload of a kind from the front of a stream. -/
def Payload.decode (reg : Registry) (c : Charset) (kind : Kind) : Decoder Payload := fun s =>
  takePayload reg c (s.size + 1) (maxDepth + 1) kind s

/-- The value with a payload of its own kind from the stream, unmodified. -/
def Value.decode (reg : Registry) (c : Charset) (v : Value) : Decoder Value := do
  let p ← Payload.decode reg c v.kind
  return { v with payload := p, modified := false }

/-- Runs a decoder on the stream beside a value. -/
def Wire.Decoder.beside {α : Type} (d : Decoder α) : EStateM Error (Value × Supply) α := fun (v, s) =>
  match d s with
  | .ok a s' => .ok a (v, s')
  | .error e s' => .error e (v, s')

/-- Decodes into the value at hand, which is changed once its payload was read. -/
def Value.load (reg : Registry) (c : Charset) : EStateM Error (Value × Supply) Unit := do
  let (v, _) ← get
  let p ← (Payload.decode reg c v.kind).beside
  modify fun (v, s) => ({ v with payload := p, modified := false }, s)

end TypedDoc
