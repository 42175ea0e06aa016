/-
  TypedDoc.Gzip.Bits — a byte string read bit by bit, low bits first.

  A reader that runs out of bits is `starved`; one that meets bits that mean nothing is
  `corrupt`. `seen` is how many bytes have been looked at, the current one included.
-/

namespace TypedDoc.Gzip

structure Bits where
  /-- From the byte of the next bit on. -/
  rest : List UInt8
  /-- How many bits of its first byte are taken. -/
  taken : Nat
  /-- Bytes before it. -/
  passed : Nat
  /-- A byte of which some bits are taken is there. -/
  begun : taken ≠ 0 → rest ≠ []

namespace Bits

def ofBytes (bs : List UInt8) : Bits := ⟨bs, 0, 0, fun h => absurd rfl h⟩

def seen (b : Bits) : Nat := if b.taken = 0 then b.passed else b.passed + 1

def next? (b : Bits) : Option (Bool × Bits) :=
  match b.rest with
  | [] => none
  | x :: rest =>
    some (x.toNat.testBit b.taken,
      if b.taken = 7 then ⟨rest, 0, b.passed + 1, fun h => absurd rfl h⟩
      else ⟨x :: rest, b.taken + 1, b.passed, fun _ => List.cons_ne_nil x rest⟩)

/-- Skips to the next byte boundary. -/
def align (b : Bits) : Bits :=
  if b.taken = 0 then b else ⟨b.rest.drop 1, 0, b.passed + 1, fun h => absurd rfl h⟩

end Bits

inductive Stop where
  | starved
  | corrupt
  deriving DecidableEq, Repr

/-- A byte of the contents. -/
structure Known where
  byte : UInt8
  /-- How many bytes had to be seen to know it. -/
  need : Nat
  /-- How many of them were taken before there had to be room for it. -/
  reach : Nat
  deriving DecidableEq, Repr

/-- What inflating has to show so far. -/
structure Progress where
  bits : Bits
  out : Array Known

abbrev Inflater := EStateM Stop Progress

def nextBit : Inflater Bool := fun s =>
  match s.bits.next? with
  | none => .error .starved s
  | some (bit, bits) => .ok bit { s with bits }

/-- An unsigned number of so many bits, low bit first. -/
def number : (width : Nat) → Inflater Nat
  | 0 => return 0
  | w + 1 => do
    let bit ← nextBit
    let high ← number w
    return bit.toNat + 2 * high

def alignBits : Inflater Unit := fun s => .ok () { s with bits := s.bits.align }

/-- Adds a byte that was just worked out. -/
def emit (b : UInt8) : Inflater Unit := fun s =>
  .ok () { s with out := s.out.push ⟨b, s.bits.seen, s.bits.seen⟩ }

/-- Adds a byte that was just read as it stands; it was left where it was until there was room. -/
def emitStored (b : UInt8) : Inflater Unit := fun s =>
  .ok () { s with out := s.out.push ⟨b, s.bits.seen, s.bits.seen - 1⟩ }

/-- Adds the byte that lies `distance` back; before the beginning there are zeros. -/
def emitBack (distance : Nat) : Inflater Unit := fun s =>
  let b := if distance ≤ s.out.size then (s.out[s.out.size - distance]?.map (·.byte)).getD 0 else 0
  emit b s

end TypedDoc.Gzip
