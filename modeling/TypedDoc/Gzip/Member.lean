/-
  TypedDoc.Gzip.Member — gzip members: a header, a deflate stream, and a trailer with the
  check and the length of the contents.

  `pack` writes the contents as stored blocks. `unpack` turns a stream that holds a member
  into a stream of its contents. The trailer is looked at only by who reads on after the
  last byte, and what follows it is not looked at at all. A packed stream that stops
  anywhere before its end leaves the contents cut short.

  Who packs and unpacks is a `Codec`; these two are `Codec.stored`.
-/

import TypedDoc.Gzip.Crc32
import TypedDoc.Gzip.Delivery

namespace TypedDoc.Gzip

open Wire

def magic : List UInt8 := [0x1F, 0x8B]

/-- The `width` low bytes of `n`, least significant first. -/
def littleEndian : (width : Nat) → (n : Nat) → List UInt8
  | 0, _ => []
  | w + 1, n => UInt8.ofNat (n % 256) :: littleEndian w (n / 256)

def ofLittleEndian (bs : List UInt8) : Nat := bs.foldr (fun b n => b.toNat + 256 * n) 0

/-! ## Packing -/

/-- The most bytes a stored block holds. -/
def storedLimit : Nat := 65535

/-- One stored block. -/
def stored (final : Bool) (bs : List UInt8) : List UInt8 :=
  (if final then 1 else 0) :: littleEndian 2 bs.length ++ littleEndian 2 (storedLimit - bs.length) ++ bs

/-- Stored blocks: at most `n`, and then one that holds the rest. -/
def storedBlocks : (n : Nat) → List UInt8 → List UInt8
  | 0, bs => stored true bs
  | n + 1, bs =>
    if bs.length ≤ storedLimit then stored true bs
    else stored false (bs.take storedLimit) ++ storedBlocks n (bs.drop storedLimit)

/-- The check and the length of the contents. -/
def trailer (bs : List UInt8) : List UInt8 := littleEndian 4 (crc32 bs).toNat ++ littleEndian 4 bs.length

def plainHeader : List UInt8 := magic ++ [8, 0, 0, 0, 0, 0, 0, 255]

def pack (bs : List UInt8) : List UInt8 :=
  plainHeader ++ storedBlocks (bs.length / storedLimit) bs ++ trailer bs

/-! ## The header -/

/-- The longest text in a header. -/
def textLimit : Nat := 65535

/-- A text up to its zero byte, as it stands; `fuel` bytes at most. -/
def zeroTerminated : (fuel : Nat) → Decoder (List UInt8)
  | 0 => do
    let bs ← exactly 1
    if bs = [0] then return bs else throw (.damaged .header)
  | fuel + 1 => do
    let bs ← exactly 1
    if bs = [0] then return bs
    let rest ← zeroTerminated fuel
    return bs ++ rest

/-- Reads a part of the header if its flag is set. -/
def optionalPart (flags weight : UInt8) (part : Decoder (List UInt8)) : Decoder (List UInt8) :=
  if flags &&& weight = 0 then return [] else part

def extraField : Decoder (List UInt8) := do
  let size ← exactly 2
  let body ← exactly (ofLittleEndian size)
  return size ++ body

def header : Decoder Unit := do
  let fixed ← exactly 10
  let flags := fixed.getD 3 0
  if fixed.take 3 ≠ magic ++ [8] ∨ flags &&& 0xE0 ≠ 0 then throw (.damaged .header)
  let extra ← optionalPart flags 4 extraField
  let name ← optionalPart flags 8 (zeroTerminated textLimit)
  let comment ← optionalPart flags 16 (zeroTerminated textLimit)
  let check ← optionalPart flags 2 (exactly 2)
  let sum := (crc32 (fixed ++ extra ++ name ++ comment)).toNat % 65536
  if flags &&& 2 ≠ 0 ∧ ofLittleEndian check ≠ sum then throw (.damaged .check)

/-! ## The contents -/

/-- Where each piece ends, counted from the start. -/
def pieceEnds (start : Nat) : List (List UInt8) → List Nat
  | [] => []
  | p :: ps => (start + p.length) :: pieceEnds (start + p.length) ps

/-- The contents' check and length, as the trailer states them. -/
def trailerFits (bytes contents : List UInt8) : Bool := bytes.take 8 == trailer contents

/-- How the contents end if `bytes` follow the deflate stream; too few of them end it in `cut`. -/
def ending (cut : Error) (bytes contents : List UInt8) : Option Error :=
  if bytes.length < 8 then some cut else if trailerFits bytes contents then none else some (.damaged .check)

/-- The contents of the member a stream starts with. A header that is damaged or cut
    short shows at the first read. -/
def unpack (s : Supply) : Supply :=
  let cut := s.ending.getD (.truncatedStream .envelope)
  match header { s with ending := some cut } with
  | .error e _ => .broken e
  | .ok _ body =>
    let packed := body.bytes
    let result := inflate packed
    let close :=
      match result.outcome with
      | .finished used => ending cut (packed.drop used) (result.bytes.map (·.byte))
      | .corrupt _ | .starved => none
    deliver ⟨result.outcome, s.ending, close⟩ 0 (pieceEnds 0 body.pieces) result.bytes

/-! ## Codecs -/

/-- The highest level to pack at. -/
def maxLevel : Nat := 9

def defaultLevel : Nat := 6

/-- How members are made and read. -/
structure Codec where
  pack : (level : Nat) → List UInt8 → List UInt8
  /-- The contents of the member a stream starts with. -/
  unpack : Supply → Supply

/-- Stored blocks, at every level. -/
def Codec.stored : Codec := ⟨fun _ => Gzip.pack, Gzip.unpack⟩

end TypedDoc.Gzip
