/-
  TypedDoc.Wire.Supply — where bytes are read from: the pieces a stream will still
  deliver, one per read call, and how it ends.

  A stream ends properly (`ending = none`) or every read beyond its last byte fails with
  a given error. How the bytes are cut into pieces shows only to someone who looks at a
  single read call (`firstPiece`); `exactly` and `upTo` read on until they have enough.
  A read that fails has taken all there was.

  Some streams part with the last of their bytes only once: after the pieces one more
  read call can have any of `parting`, and what it leaves is lost. There the size of a
  read call shows: `exactly` asks for all it still wants, `upTo` for what its buffer has
  room for.
-/

import TypedDoc.Error
import TypedDoc.Wire.Buffer

namespace TypedDoc.Wire

structure Supply where
  pieces : List (List UInt8)
  /-- Empty in a stream that ends properly. -/
  parting : List UInt8
  ending : Option Error

/-- Reading: takes from a supply, or fails having taken something. -/
abbrev Decoder := EStateM Error Supply

/-- Up to `n` bytes from the front, and what is left. -/
def pull : Nat → List (List UInt8) → List UInt8 × List (List UInt8)
  | _, [] => ([], [])
  | n, p :: ps =>
    let got := p.take n
    if got.length < n then
      let (more, rest) := pull (n - got.length) ps
      (got ++ more, rest)
    else (got, p.drop n :: ps)

/-- Cuts the bytes, at most `n` times, into pieces of `size + 1`; the last may be shorter. -/
def slicesUpTo (size : Nat) : Nat → List UInt8 → List (List UInt8)
  | _, [] => []
  | 0, bs => [bs]
  | n + 1, b :: rest => (b :: rest.take size) :: slicesUpTo size n (rest.drop size)

/-- Cuts bytes into pieces of `size + 1`; the last may be shorter. -/
def slices (size : Nat) (bs : List UInt8) : List (List UInt8) := slicesUpTo size bs.length bs

namespace Supply

/-- The most that one read call asks for. -/
def window : Nat := 8192

/-- All of `bs` at hand, then the end. -/
def ofBytes (bs : List UInt8) : Supply := ⟨slices (window - 1) bs, [], none⟩

/-- A stream over `bs` that gives at most `chunk` bytes a read (`none`: as many as are
    asked for). `fault` is a place where it breaks off, and the error from there on; one
    beyond the last byte is never met. -/
def limited (bs : List UInt8) (chunk : Option Nat) (fault : Option (Nat × Error)) : Supply :=
  let size := min window (chunk.getD window) - 1
  match fault with
  | some (at', e) => if at' ≤ bs.length then ⟨slices size (bs.take at'), [], some e⟩ else ⟨slices size bs, [], none⟩
  | none => ⟨slices size bs, [], none⟩

/-- Nothing to read, and every read fails. -/
def broken (e : Error) : Supply := ⟨[], [], some e⟩

/-- A piece in front. -/
def behind (s : Supply) (piece : List UInt8) : Supply := { s with pieces := piece :: s.pieces }

/-- Bytes still to come. -/
def bytes (s : Supply) : List UInt8 := s.pieces.flatten ++ s.parting

def size (s : Supply) : Nat := s.bytes.length

/-- What the next read call returns, or why it fails. -/
def firstPiece (s : Supply) : Except Error (List UInt8) :=
  match s.pieces, s.parting, s.ending with
  | p :: _, _, _ => .ok p
  | [], b :: bs, _ => .ok (b :: bs)
  | [], [], none => .ok []
  | [], [], some e => .error e

/-- All that is left, if the stream ends properly. -/
def drain (s : Supply) : Except Error (List UInt8) :=
  match s.ending with
  | none => .ok s.bytes
  | some e => .error e

/-- Up to `n` bytes from the front, and what is left. Who still wants some after the pieces
    has one read call for those that the supply parts with; `ask` of the pieces is how many
    it asks for, or fewer if fewer are wanted. -/
def take (s : Supply) (n : Nat) (ask : List (List UInt8) → Nat) : List UInt8 × Supply :=
  let (got, rest) := pull n s.pieces
  let wanted := n - got.length
  if wanted = 0 then (got, { s with pieces := rest })
  else (got ++ s.parting.take (min wanted (ask s.pieces)), { s with pieces := rest, parting := [] })

end Supply

/-- Exactly `n` bytes. -/
def exactly (n : Nat) : Decoder (List UInt8) := fun s =>
  let (got, rest) := s.take n fun _ => n
  if got.length = n then .ok got rest else .error (s.ending.getD (.truncatedStream .fixedWidth)) rest

/-- `n` bytes, or all there are before a proper end. -/
def upTo (n : Nat) : Decoder (List UInt8) := fun s =>
  let (got, rest) := s.take n Buffer.askAfter
  match s.ending with
  | some e => if got.length = n then .ok got rest else .error e rest
  | none => .ok got rest

/-- Runs a decoder for its value alone. -/
def Decoder.value {α : Type} (d : Decoder α) (s : Supply) : Except Error α :=
  match d s with
  | .ok a _ => .ok a
  | .error e _ => .error e

end TypedDoc.Wire
