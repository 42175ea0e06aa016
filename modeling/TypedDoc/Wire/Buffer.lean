/-
  TypedDoc.Wire.Buffer — how many bytes each read call asks for while bytes of unknown
  number are collected.

  The first call asks for a few; the buffer then has just room for what came. A later
  call asks for the room there is. A buffer that is full grows to twice its size, or by
  as many as the first call asks for. No call asks for more than `most`, and this doubles
  each time a call is met in full.
-/

namespace TypedDoc.Wire

structure Buffer where
  held : Nat
  capacity : Nat
  /-- The most that the next read call asks for. -/
  most : Nat
  deriving DecidableEq, Repr

namespace Buffer

def empty : Buffer := ⟨0, 0, 8192⟩

/-- What the first read call asks for. -/
def probe : Nat := 32

/-- The capacity at the next read call. -/
def nextCapacity (b : Buffer) : Nat :=
  if b.held = b.capacity then max (2 * b.capacity) (b.held + probe) else b.capacity

/-- What the next read call asks for. -/
def ask (b : Buffer) : Nat := if b.held = 0 then probe else min (b.nextCapacity - b.held) b.most

/-- The buffer after a read call that gave `n` bytes. -/
def filled (b : Buffer) (n : Nat) : Buffer :=
  if b.held = 0 then { b with held := n, capacity := max 8 n }
  else ⟨b.held + n, b.nextCapacity, if b.most ≤ b.ask ∧ n = b.ask then 2 * b.most else b.most⟩

/-- The buffer after as many read calls as it takes to get `n` bytes, at most `calls`. -/
def filledBy (b : Buffer) : (calls n : Nat) → Buffer
  | 0, _ => b
  | _, 0 => b
  | calls + 1, n => (b.filled (min b.ask n)).filledBy calls (n - min b.ask n)

/-- What the next read call asks for once the pieces are taken. -/
def askAfter (pieces : List (List UInt8)) : Nat :=
  (pieces.foldl (fun b p => b.filledBy p.length p.length) empty).ask

end Buffer

end TypedDoc.Wire
