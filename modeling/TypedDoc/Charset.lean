/-
  TypedDoc.Charset — the two character sets a document can be written in, and their ids
  in the header. The charset of the header rules every name and string of the document.
-/

import TypedDoc.Text.Utf8
import TypedDoc.Text.Utf16

namespace TypedDoc

inductive Charset where
  | utf8
  | utf16
  deriving DecidableEq, Repr

namespace Charset

def toByte : Charset → UInt8
  | .utf8 => 1
  | .utf16 => 2

def ofByte (b : UInt8) : Except Error Charset :=
  if b = 1 then .ok .utf8 else if b = 2 then .ok .utf16 else .error (.badCharset b)

def label : Charset → String
  | .utf8 => "utf-8"
  | .utf16 => "utf-16"

def ofLabel? (s : String) : Option Charset :=
  if s = "utf-8" then some .utf8 else if s = "utf-16" then some .utf16 else none

def encode : Charset → String → List UInt8
  | .utf8 => Text.Utf8.encode
  | .utf16 => Text.Utf16.encode

def decode (c : Charset) (bs : List UInt8) : Except Error String :=
  (match c with
  | .utf8 => Text.Utf8.decode bs
  | .utf16 => Text.Utf16.decode bs).mapError .invalidString

end Charset

end TypedDoc
