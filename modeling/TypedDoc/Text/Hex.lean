/-
  TypedDoc.Text.Hex — bytes as two lowercase hexadecimal digits, alone or in a
  bracketed list.
-/

namespace TypedDoc.Text.Hex

def digit (n : Nat) : Char := if n < 10 then Char.ofNat (48 + n) else Char.ofNat (87 + n)

def byte (b : UInt8) : String := String.ofList [digit (b.toNat / 16), digit (b.toNat % 16)]

/-- Bytes in brackets, as in `[4d, 4f]`. -/
def listing (bs : List UInt8) : String := "[" ++ String.intercalate ", " (bs.map byte) ++ "]"

end TypedDoc.Text.Hex
