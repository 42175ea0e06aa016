/-
  TypedDoc.Document — a document: a header, a named root object, and the envelope it was
  read from or will be written in.

    header, id of an object, root name, payload of the root object

  A document is encoded in full before any byte is written, so a failure to encode writes
  nothing. Encoding clears the flags of the tree; when writing then fails, the root is
  marked again. Reading is lazy: nothing after the root's terminator is looked at.

  Members are made and read by a codec; `write` and `read` are those of `Gzip.Codec.stored`.
-/

import TypedDoc.Envelope
import TypedDoc.Header
import TypedDoc.Value.Decode
import TypedDoc.Value.Walk

namespace TypedDoc

open Wire

structure Document where
  header : Header
  rootName : String
  entries : List (String × Value)
  /-- The root's flag. -/
  modified : Bool
  envelope : Envelope

namespace Document

/-- An empty document, not written yet. -/
def ofHeader (h : Header) : Document := ⟨h, "", [], true, .plain⟩

def root (d : Document) : Value := ⟨some d.rootName, .object d.entries, d.modified⟩

/-- The document with the contents and flag of a root that was worked on. -/
def updateRoot (d : Document) (v : Value) : Document :=
  { d with entries := v.payload.entries?.getD d.entries, modified := v.modified }

def markModified (d : Document) : Document := { d with modified := true }

/-- Changes the root object, and marks the root. -/
def editEntries {α : Type} (f : List (String × Value) → List (String × Value) × α) (d : Document) : Document × α :=
  let (es, a) := f d.entries
  ({ d with entries := es, modified := true }, a)

/-- Runs `f` on the node that a path from the root leads to; marks nothing. -/
def updateAt {α : Type} (f : Value → Value × α) (path : List Step) (d : Document) : Option (Document × α) := do
  let (v, a) ← d.root.updateAt f path
  return (d.updateRoot v, a)

/-- The same header, root and envelope; flags do not count. -/
def same (d d' : Document) : Bool :=
  d.header == d'.header && d.root.same d'.root && d.envelope == d'.envelope

/-! ## Writing -/

/-- Everything before the root's payload. -/
def preamble (d : Document) : Encoder Unit := do
  let _ ← d.header.write
  let _ ← putBytes [Kind.object.toByte]
  let _ ← putString d.header.charset d.rootName

/-- The document's bytes without an envelope, and the document afterwards. -/
def encode (d : Document) : Document × Except Error (List UInt8) :=
  match d.preamble .unlimited with
  | .error e _ => (d, .error e)
  | .ok _ k =>
    match d.root.encode d.header.charset k with
    | (v, .ok _ k') => (d.updateRoot v, .ok k'.written.toList)
    | (v, .error e _) => (d.updateRoot v, .error e)

/-- Writes the document in an envelope. The result is the length without it. -/
def writeBy {σ : Type} [Writer σ] (codec : Gzip.Codec) (level : Nat) (d : Document) (envelope : Envelope) (k : σ) :
    Document × EStateM.Result Error σ Nat :=
  match d.encode with
  | (d', .error e) => (d', .error e k)
  | (d', .ok bs) =>
    match envelope.writeBy codec level bs k with
    | .ok _ k' => (d', .ok bs.length k')
    | .error e k' => (d'.markModified, .error e k')

def write (d : Document) (envelope : Envelope) (k : Sink) : Document × EStateM.Result Error Sink Nat :=
  d.writeBy .stored Gzip.defaultLevel envelope k

/-- The document's bytes in its own envelope. -/
def toBytes (d : Document) : Document × Except Error (List UInt8) :=
  match d.write d.envelope .unlimited with
  | (d', .ok _ k) => (d', .ok k.written.toList)
  | (d', .error e _) => (d', .error e)

/-! ## Reading -/

/-- A document without an envelope. -/
def readPlain (reg : Registry) : Decoder Document := do
  let header ← Header.read
  let id ← takeByte
  if id ≠ Kind.object.toByte then throw (.notAnObject id)
  let name ← takeString header.charset
  let kind ← settled (reg.kindOf id)
  if kind ≠ .object then throw (.notAnObject id)
  let p ← Payload.decode reg header.charset .object
  return ⟨header, name, p.entries?.getD [], false, .plain⟩

/-- A document in whatever envelope the stream shows. -/
def readBy (codec : Gzip.Codec) (reg : Registry) (s : Supply) : Except Error Document := do
  let envelope ← Envelope.sniff s
  let d ← (readPlain reg).value (envelope.unwrapBy codec s)
  return { d with envelope }

def read (reg : Registry) (s : Supply) : Except Error Document := readBy .stored reg s

def ofBytes (bs : List UInt8) : Except Error Document := read .standard (.ofBytes bs)

end Document

end TypedDoc
