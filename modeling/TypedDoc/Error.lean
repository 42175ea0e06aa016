/-
  TypedDoc.Error — every way an operation of this library can fail, the category each
  failure belongs to, and its wording.

  A failure is a cause, not a text: where several causes share one error (a stream that
  ended early, a string that does not decode) they have an inductive type of their own,
  and `message?` is the only place that words them. Causes that come from outside, such
  as a file system's, may have no wording of their own (`none`).

  Categories: `stream` for too few bytes, `corruption` for bytes that mean nothing,
  `registryMiss` for an id nothing is registered for; these three blame the data
  (`isDataError`). `usage` blames the caller, `io` the stream itself.
-/

import TypedDoc.Kind
import TypedDoc.Text.Hex

namespace TypedDoc

inductive ErrorCategory where
  | stream
  | corruption
  | usage
  | registryMiss
  | io
  deriving DecidableEq, Repr

/-- What a stream that ended early was short of. -/
inductive Shortfall where
  | fixedWidth
  | stringBody (declared held : Nat)
  /-- A compressed envelope that is itself cut off. -/
  | envelope
  | told (text : String)
  deriving DecidableEq, Repr

inductive TimestampFlaw where
  | zeroControl
  | nothingToEncode
  | outOfRange (field : String) (value : Int)
  | unknownUnit (tag : Nat)
  | reservedOffsetBit (raw : UInt8)
  | negativeZeroOffset
  | told (text : String)
  deriving DecidableEq, Repr

inductive TextFlaw where
  /-- `length` bytes from `index` on that begin no UTF-8 character. -/
  | badSequence (length index : Nat)
  /-- The text ends inside a UTF-8 character that starts at `index`. -/
  | cutSequence (index : Nat)
  | oddLength (length : Nat)
  | loneSurrogate
  | told (text : String)
  deriving DecidableEq, Repr

inductive BindingConflict where
  | reservedId
  | terminatorKind
  | idBound (id : UInt8) (bound : Kind)
  | kindBound (kind : Kind) (bound : UInt8)
  | told (text : String)
  deriving DecidableEq, Repr

inductive ConfigFlaw where
  /-- The text is not a configuration file. -/
  | unreadable
  | levelOutOfRange (level : Nat)
  | told (text : String)
  deriving DecidableEq, Repr

/-- What of a gzip member is damaged. -/
inductive MemberFlaw where
  | header
  /-- The deflate stream. -/
  | contents
  /-- A check that does not fit, in the header or in the trailer. -/
  | check
  deriving DecidableEq, Repr

structure IoFault where
  notFound : Bool
  /-- `none` where the wording is the environment's. -/
  text : Option String
  /-- The damage that a gzip decoder reports. -/
  member : Option MemberFlaw
  deriving DecidableEq, Repr

inductive Error where
  | truncatedStream (of : Shortfall)
  | badSignature (expected found : List UInt8)
  | badCharset (id : UInt8)
  | badTrailer (found : List UInt8)
  | notAnObject (id : UInt8)
  | malformedTimestamp (flaw : TimestampFlaw)
  | invalidString (flaw : TextFlaw)
  /-- An array declared an element type it cannot hold. -/
  | invalidElementType (id : UInt8)
  | nestingTooDeep (limit : Nat)
  | unnamedValue (type : TypeId)
  | nonPrimitiveElement (type : TypeId)
  | heterogeneousElements (index : Nat) (expected found : TypeId)
  | duplicateRegistration (conflict : BindingConflict)
  | noHeaderOrRoot
  | invalidTimestampField (field : String) (value : Int)
  | lengthOverflow (length : Nat)
  | encodeTooDeep (limit : Nat)
  | invalidConfig (flaw : ConfigFlaw)
  | unknownTypeId (id : UInt8)
  | io (fault : IoFault)
  deriving DecidableEq, Repr

/-! ## Wording -/

def Shortfall.message? : Shortfall → Option String
  | .fixedWidth => some "failed to fill whole buffer"
  | .stringBody declared held => some s!"string declared {declared} bytes, stream held {held}"
  | .envelope => none
  | .told text => some text

def TimestampFlaw.message : TimestampFlaw → String
  | .zeroControl => "control byte is zero"
  | .nothingToEncode => "timestamp has no fields to encode"
  | .outOfRange field value => s!"{field} out of range: {value}"
  | .unknownUnit tag => s!"unknown sub-second unit tag {tag}"
  | .reservedOffsetBit raw => "offset byte 0x" ++ Text.Hex.byte raw ++ " sets reserved bit 6"
  | .negativeZeroOffset => "negative zero offset"
  | .told text => text

def TextFlaw.message : TextFlaw → String
  | .badSequence length index => s!"invalid utf-8 sequence of {length} bytes from index {index}"
  | .cutSequence index => s!"incomplete utf-8 byte sequence from index {index}"
  | .oddLength length => s!"odd UTF-16 byte length {length}"
  | .loneSurrogate => "invalid utf-16: lone surrogate found"
  | .told text => text

def BindingConflict.message : BindingConflict → String
  | .reservedId => "id 0 is reserved for the terminator"
  | .terminatorKind => "the terminator is not a decodable variant"
  | .idBound id bound => s!"id {id} is already bound to {bound.label}"
  | .kindBound kind bound => s!"{kind.label} is already bound to id {bound}"
  | .told text => text

def ConfigFlaw.message? : ConfigFlaw → Option String
  | .unreadable => none
  | .levelOutOfRange level => some s!"gzip_level {level} is out of range 0..=9"
  | .told text => some text

namespace Error

/-- The full wording, where all of it is this library's. -/
def message? : Error → Option String
  | .truncatedStream s => s.message?.map ("Truncated stream: " ++ ·)
  | .badSignature expected found =>
    some ("Bad signature: expected " ++ Text.Hex.listing expected ++ ", found " ++ Text.Hex.listing found)
  | .badCharset id => some ("Bad charset id: 0x" ++ Text.Hex.byte id)
  | .badTrailer found => some ("Bad header trailer: " ++ Text.Hex.listing found)
  | .notAnObject id => some s!"Document root is not an object (type id {id})"
  | .malformedTimestamp flaw => some ("Malformed timestamp: " ++ flaw.message)
  | .invalidString flaw => some ("Invalid string: " ++ flaw.message)
  | .invalidElementType id => some s!"Invalid element type {id} in array"
  | .nestingTooDeep limit => some s!"Nesting depth exceeds {limit}"
  | .unnamedValue type => some s!"Unnamed {type.label} value inside a named container"
  | .nonPrimitiveElement type => some s!"Array elements must be primitive, found {type.label}"
  | .heterogeneousElements index expected found =>
    some s!"Heterogeneous elements at index {index}: expected {expected.label}, found {found.label}"
  | .duplicateRegistration conflict => some ("Duplicate registration: " ++ conflict.message)
  | .noHeaderOrRoot => some "No header or root document to write"
  | .invalidTimestampField field value => some s!"Invalid timestamp field {field}: {value}"
  | .lengthOverflow length => some s!"Length {length} exceeds the 32-bit wire limit"
  | .encodeTooDeep limit => some s!"Value nests deeper than {limit} levels and cannot be encoded"
  | .invalidConfig flaw => flaw.message?.map ("Invalid config: " ++ ·)
  | .unknownTypeId id => some s!"Unknown type id: {id}"
  | .io fault => fault.text.map ("I/O error: " ++ ·)

/-! ## Blame -/

def category : Error → ErrorCategory
  | .truncatedStream _ => .stream
  | .badSignature .. | .badCharset _ | .badTrailer _ | .notAnObject _ | .malformedTimestamp _
  | .invalidString _ | .invalidElementType _ | .nestingTooDeep _ => .corruption
  | .unnamedValue _ | .nonPrimitiveElement _ | .heterogeneousElements .. | .duplicateRegistration _
  | .noHeaderOrRoot | .invalidTimestampField .. | .lengthOverflow _ | .encodeTooDeep _
  | .invalidConfig _ => .usage
  | .unknownTypeId _ => .registryMiss
  | .io _ => .io

/-- The bytes being decoded are at fault. -/
def isDataError (e : Error) : Bool :=
  match e.category with
  | .stream | .corruption | .registryMiss => true
  | .usage | .io => false

/-- The caller asked for something the format cannot express. -/
def isUsageError (e : Error) : Bool := e.category == .usage

/-- A stream failure worded by whoever made the stream. -/
def ioOther (text : String) : Error := .io ⟨false, some text, none⟩

def ioNotFound (text : String) : Error := .io ⟨true, some text, none⟩

/-- Nothing at that place, in the environment's words. -/
def hostNotFound : Error := .io ⟨true, none, none⟩

/-- Any other failure in the environment's words. -/
def hostOther : Error := .io ⟨false, none, none⟩

/-- Damage to a gzip member, in the decoder's words. -/
def damaged (flaw : MemberFlaw) : Error := .io ⟨false, none, some flaw⟩

end Error

end TypedDoc
