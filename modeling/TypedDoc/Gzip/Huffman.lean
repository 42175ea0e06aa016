/-
  TypedDoc.Gzip.Huffman — canonical Huffman codes given by the length of each symbol's
  code word, at most 15; length 0 is a symbol that does not occur.

  Code words of one length are consecutive numbers in the order of their symbols, and go
  on from the next shorter ones. A code is complete if every long enough string of bits
  begins with a word. The only other codes allowed have no word, or one word of one bit.
-/

import TypedDoc.Gzip.Bits

namespace TypedDoc.Gzip

inductive Code where
  | none
  /-- One word: a zero. -/
  | lone (symbol : Nat)
  /-- How many words there are of length 1, 2, up to 15, and the symbols by length, then by
      value. -/
  | complete (counts : List Nat) (symbols : Array Nat)

namespace Code

def maxLength : Nat := 15

def lengths : List Nat := (List.range maxLength).map (· + 1)

/-- How many words there are of each length. -/
def counts (given : List Nat) : List Nat := lengths.map fun w => given.count w

/-- The symbols by the length of their words, then by value. -/
def symbols (given : List Nat) : List Nat :=
  let marked := given.zipIdx
  lengths.flatMap fun w => (marked.filter (·.1 == w)).map (·.2)

/-- How many strings of `maxLength` bits begin with a word. -/
def share (counts : List Nat) : Nat := counts.foldl (fun s n => 2 * s + n) 0

/-- The code with words of the given lengths, as if complete. -/
def canonical (given : List Nat) : Code := .complete (counts given) (symbols given).toArray

/-- The code with words of the given lengths, if it is one of those allowed. -/
def ofLengths? (given : List Nat) : Option Code :=
  if share (counts given) = 1 <<< maxLength then some (canonical given)
  else
    match counts given, symbols given with
    | _, [] => some .none
    | 1 :: _, [symbol] => some (.lone symbol)
    | _, _ => Option.none

def isComplete : Code → Bool
  | .complete .. => true
  | _ => false

/-- Reads on bit by bit: `word` is what was read so far, `first` the first word of the
    present length, and `index` the position of its symbol. -/
def readFrom (symbols : Array Nat) (word first index : Nat) : (counts : List Nat) → Inflater Nat
  | [] => throw .corrupt
  | n :: longer => do
    let bit ← nextBit
    let word := 2 * word + bit.toNat
    let first := 2 * first
    if word < first + n then return symbols.getD (index + (word - first)) 0
    else readFrom symbols word (first + n) (index + n) longer

def read : Code → Inflater Nat
  | .none => do
    let _ ← nextBit
    throw .corrupt
  | .lone symbol => do
    if ← nextBit then throw .corrupt else return symbol
  | .complete counts symbols => readFrom symbols 0 0 0 counts

end Code

end TypedDoc.Gzip
