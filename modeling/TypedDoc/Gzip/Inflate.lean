/-
  TypedDoc.Gzip.Inflate — the contents of a deflate stream: blocks that are stored, coded
  with the fixed codes, or coded with codes of their own, up to the one marked final.

  `inflate` keeps all that was known before the stream ended, ran out or turned out to be
  corrupt, and for each byte how far one had to read to know it.
-/

import TypedDoc.Gzip.Huffman

namespace TypedDoc.Gzip

/-! ## Matches -/

/-- A match's length symbols from 257 on: least length and number of extra bits. -/
def lengthTable : List (Nat × Nat) :=
  [(3, 0), (4, 0), (5, 0), (6, 0), (7, 0), (8, 0), (9, 0), (10, 0), (11, 1), (13, 1), (15, 1), (17, 1),
   (19, 2), (23, 2), (27, 2), (31, 2), (35, 3), (43, 3), (51, 3), (59, 3), (67, 4), (83, 4), (99, 4), (115, 4),
   (131, 5), (163, 5), (195, 5), (227, 5), (258, 0)]

/-- Distance symbols: least distance and number of extra bits. -/
def distanceTable : List (Nat × Nat) :=
  [(1, 0), (2, 0), (3, 0), (4, 0), (5, 1), (7, 1), (9, 2), (13, 2), (17, 3), (25, 3), (33, 4), (49, 4),
   (65, 5), (97, 5), (129, 6), (193, 6), (257, 7), (385, 7), (513, 8), (769, 8), (1025, 9), (1537, 9),
   (2049, 10), (3073, 10), (4097, 11), (6145, 11), (8193, 12), (12289, 12), (16385, 13), (24577, 13)]

/-- The number a symbol stands for, its extra bits read. -/
def extended (table : List (Nat × Nat)) (symbol : Nat) : Inflater Nat :=
  match table[symbol]? with
  | none => throw .corrupt
  | some (base, extra) => do
    return base + (← number extra)

def copy (distance : Nat) : (length : Nat) → Inflater Unit
  | 0 => return ()
  | n + 1 => do
    emitBack distance
    copy distance n

/-! ## Blocks -/

/-- Literals and matches up to the end of the block; `fuel` exceeds the bits there are. -/
def codedBlock (literals distances : Code) : (fuel : Nat) → Inflater Unit
  | 0 => throw .starved
  | fuel + 1 => do
    let symbol ← literals.read
    if symbol < 256 then
      emit (.ofNat symbol)
      codedBlock literals distances fuel
    else if symbol = 256 then return ()
    else
      let length ← extended lengthTable (symbol - 257)
      let distance ← extended distanceTable (← distances.read)
      copy distance length
      codedBlock literals distances fuel

def storedBytes : (length : Nat) → Inflater Unit
  | 0 => return ()
  | n + 1 => do
    emitStored (.ofNat (← number 8))
    storedBytes n

def storedBlock : Inflater Unit := do
  alignBits
  let length ← number 16
  let complement ← number 16
  if length + complement ≠ 65535 then throw .corrupt
  storedBytes length

def fixedLiterals : Code :=
  .canonical (List.replicate 144 8 ++ List.replicate 112 9 ++ List.replicate 24 7 ++ List.replicate 8 8)

def fixedDistances : Code := .canonical (List.replicate 32 5)

/-- The order in which the lengths of the code for lengths are written. -/
def lengthOrder : List Nat := [16, 17, 18, 0, 8, 7, 9, 6, 10, 5, 11, 4, 12, 3, 13, 2, 14, 1, 15]

def numbers (width : Nat) : (count : Nat) → Inflater (List Nat)
  | 0 => return []
  | n + 1 => do
    let x ← number width
    let rest ← numbers width n
    return x :: rest

/-- Code lengths, run-length coded, until there are `total`; `got` is newest first. -/
def codeLengths (c : Code) (total : Nat) : (fuel : Nat) → (got : List Nat) → Inflater (List Nat)
  | 0, _ => throw .starved
  | fuel + 1, got =>
    if total < got.length then throw .corrupt
    else if got.length = total then return got.reverse
    else do
      let symbol ← c.read
      if symbol < 16 then codeLengths c total fuel (symbol :: got)
      else if symbol = 16 then
        match got with
        | [] => throw .corrupt
        | last :: _ =>
          let times ← number 2
          codeLengths c total fuel (List.replicate (times + 3) last ++ got)
      else
        let times ← if symbol = 17 then (· + 3) <$> number 3 else (· + 11) <$> number 7
        codeLengths c total fuel (List.replicate times 0 ++ got)

/-- The code with words of the given lengths. -/
def codeOf (lengths : List Nat) : Inflater Code :=
  match Code.ofLengths? lengths with
  | some code => return code
  | none => throw .corrupt

/-- The two codes of a block that brings its own. -/
def ownCodes : Inflater (Code × Code) := do
  let literalCount := (← number 5) + 257
  let distanceCount := (← number 5) + 1
  let lengthCount := (← number 4) + 4
  if 286 < literalCount ∨ 30 < distanceCount then throw .corrupt
  let given := (lengthOrder.take lengthCount).zip (← numbers 3 lengthCount)
  let code ← codeOf ((List.range 19).map fun symbol => (given.lookup symbol).getD 0)
  if !code.isComplete then throw .corrupt
  let total := literalCount + distanceCount
  let lengths ← codeLengths code total (total + 1) []
  let literals ← codeOf (lengths.take literalCount)
  let distances ← codeOf (lengths.drop literalCount)
  return (literals, distances)

/-- Blocks up to the final one. -/
def blocks : (fuel : Nat) → Inflater Unit
  | 0 => throw .starved
  | fuel + 1 => do
    let final ← nextBit
    let type ← number 2
    match type with
    | 0 => storedBlock
    | 1 => codedBlock fixedLiterals fixedDistances fuel
    | 2 =>
      let (literals, distances) ← ownCodes
      codedBlock literals distances fuel
    | _ => throw .corrupt
    if final then return () else blocks fuel

/-- What came of a deflate stream. -/
inductive Outcome where
  /-- It ended after so many bytes. -/
  | finished (used : Nat)
  | starved
  /-- So many bytes had to be seen to tell. -/
  | corrupt (seen : Nat)
  deriving DecidableEq, Repr

structure Inflation where
  bytes : List Known
  outcome : Outcome

def inflate (bs : List UInt8) : Inflation :=
  match blocks (8 * bs.length + 1) ⟨.ofBytes bs, #[]⟩ with
  | .ok _ s => ⟨s.out.toList, .finished s.bits.seen⟩
  | .error .starved s => ⟨s.out.toList, .starved⟩
  | .error .corrupt s => ⟨s.out.toList, .corrupt s.bits.seen⟩

end TypedDoc.Gzip
