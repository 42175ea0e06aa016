/-
  TypedDoc.Kind — the kinds of value a document can hold, and the one-byte type ids
  that name them on the wire.

  Twelve kinds have an id, 1 to 12. Id 0 is the terminator: it ends the entries of an
  object and stands where an empty list or array would name its element type, so no
  value ever has it.
-/

namespace TypedDoc

inductive Category where
  | primitive
  | container
  | advanced
  deriving DecidableEq, Repr

inductive Kind where
  | object
  | byte
  | boolean
  | short
  | int
  | long
  | float
  | double
  | string
  | timestamp
  | list
  | array
  deriving DecidableEq, Repr

inductive TypeId where
  | terminator
  | kind (k : Kind)
  deriving DecidableEq, Repr

instance : Coe Kind TypeId := ⟨.kind⟩

namespace Kind

/-- Every kind, in the order of the ids. -/
def all : List Kind :=
  [.object, .byte, .boolean, .short, .int, .long, .float, .double, .string, .timestamp, .list, .array]

/-- The standard id. -/
def toByte : Kind → UInt8
  | .object => 1
  | .byte => 2
  | .boolean => 3
  | .short => 4
  | .int => 5
  | .long => 6
  | .float => 7
  | .double => 8
  | .string => 9
  | .timestamp => 10
  | .list => 11
  | .array => 12

def label : Kind → String
  | .object => "Object"
  | .byte => "Byte"
  | .boolean => "Boolean"
  | .short => "Short"
  | .int => "Int"
  | .long => "Long"
  | .float => "Float"
  | .double => "Double"
  | .string => "String"
  | .timestamp => "Timestamp"
  | .list => "List"
  | .array => "Array"

def category : Kind → Category
  | .object | .list | .array => .container
  | .string | .timestamp => .advanced
  | _ => .primitive

/-- Fixed-width kinds: the ones an array can hold. -/
def isPrimitive (k : Kind) : Bool := k.category == .primitive

end Kind

namespace TypeId

def toByte : TypeId → UInt8
  | .terminator => 0
  | .kind k => k.toByte

def label : TypeId → String
  | .terminator => "Terminator"
  | .kind k => k.label

def category : TypeId → Option Category
  | .terminator => none
  | .kind k => some k.category

def isPrimitive : TypeId → Bool
  | .terminator => false
  | .kind k => k.isPrimitive

def all : List TypeId := .terminator :: Kind.all.map .kind

/-- Bytes above 12 name no id. -/
def ofByte? (b : UInt8) : Option TypeId := all.find? (·.toByte == b)

end TypeId

end TypedDoc
