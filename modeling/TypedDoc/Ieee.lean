/-
  TypedDoc.Ieee — floating-point numbers as their IEEE-754 bit patterns.

  A document stores and returns the pattern itself, so the payload of a NaN survives.
  Only `same` looks inside: it is the comparison of IEEE-754, under which a NaN differs
  from everything, itself included, and the two zeros are the same.
-/

namespace TypedDoc

structure Single where
  bits : UInt32
  deriving DecidableEq, Repr

structure Double where
  bits : UInt64
  deriving DecidableEq, Repr

namespace Single

/-- The pattern without its sign. -/
def magnitude (x : Single) : UInt32 := x.bits &&& 0x7FFFFFFF

def isNaN (x : Single) : Bool := 0x7F800000 < x.magnitude

def same (x y : Single) : Bool :=
  !x.isNaN && !y.isNaN && (x.bits == y.bits || (x.magnitude == 0 && y.magnitude == 0))

end Single

namespace Double

/-- The pattern without its sign. -/
def magnitude (x : Double) : UInt64 := x.bits &&& 0x7FFFFFFFFFFFFFFF

def isNaN (x : Double) : Bool := 0x7FF0000000000000 < x.magnitude

def same (x y : Double) : Bool :=
  !x.isNaN && !y.isNaN && (x.bits == y.bits || (x.magnitude == 0 && y.magnitude == 0))

end Double

end TypedDoc
