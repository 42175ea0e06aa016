/-
  TypedDoc.Envelope — what a whole document is wrapped in: nothing, or a gzip member.

  Nothing but the first two bytes tells which: a stream that begins with 1F 8B is a
  member, any other is plain. Only what the first read call returns is looked at, so a
  stream that gives its first byte alone passes for plain.

  A codec makes and reads the members; `unwrap` and `write` are those of `Gzip.Codec.stored`.
-/

import TypedDoc.Gzip.Member
import TypedDoc.Wire.Codec

namespace TypedDoc

open Wire

inductive Envelope where
  | plain
  | gzip
  deriving DecidableEq, Repr

namespace Envelope

def label : Envelope → String
  | .plain => "none"
  | .gzip => "gzip"

def ofLabel? (s : String) : Option Envelope :=
  if s = "none" then some .plain else if s = "gzip" then some .gzip else none

/-- Which envelope the first bytes of a stream show. -/
def detect (start : List UInt8) : Envelope := if start.take 2 = Gzip.magic then .gzip else .plain

/-- Which envelope a stream shows at its first read; takes nothing. -/
def sniff (s : Supply) : Except Error Envelope := detect <$> s.firstPiece

/-- The bytes in this envelope, packed at the highest level at most. -/
def wrapBy (codec : Gzip.Codec) (level : Nat) : Envelope → List UInt8 → List UInt8
  | .plain, bs => bs
  | .gzip, bs => codec.pack (min level Gzip.maxLevel) bs

/-- The stream inside. -/
def unwrapBy (codec : Gzip.Codec) : Envelope → Supply → Supply
  | .plain, s => s
  | .gzip, s => codec.unpack s

/-- Writes the bytes in this envelope and flushes. -/
def writeBy {σ : Type} [Writer σ] (codec : Gzip.Codec) (level : Nat) (e : Envelope) (bs : List UInt8) :
    EStateM Error σ Unit := do
  Writer.put (e.wrapBy codec level bs)
  Writer.flush

def unwrap (e : Envelope) (s : Supply) : Supply := e.unwrapBy .stored s

def write (e : Envelope) (bs : List UInt8) : Encoder Unit := e.writeBy .stored Gzip.defaultLevel bs

end Envelope

end TypedDoc
