/-
  TypedDoc.Wire.BigEndian — natural numbers as a fixed number of bytes, most significant
  first.
-/

namespace TypedDoc.Wire.BigEndian

/-- The `width` low bytes of `n`. -/
def toBytes : (width : Nat) → (n : Nat) → List UInt8
  | 0, _ => []
  | w + 1, n => toBytes w (n / 256) ++ [UInt8.ofNat (n % 256)]

def ofBytes (bs : List UInt8) : Nat := bs.foldl (fun n b => n * 256 + b.toNat) 0

@[simp] theorem length_toBytes (w n : Nat) : (toBytes w n).length = w := by
  induction w generalizing n with
  | zero => rfl
  | succ w ih => simp [toBytes, ih]

end TypedDoc.Wire.BigEndian
