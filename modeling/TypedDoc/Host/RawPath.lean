/-
  TypedDoc.Host.RawPath — paths as bytes, which need not be the bytes of a text.

  The rules are those of paths that are texts, read byte by byte: the byte of a slash parts
  names, that of a dot parts an extension from its stem, and any other byte is part of a name.
-/

import TypedDoc.Host.FilePath
import TypedDoc.Text.Utf8

namespace TypedDoc.Host

structure RawPath where
  bytes : List UInt8
  deriving DecidableEq, Repr

/-- The bytes of a path that is a text. -/
def FilePath.raw (p : FilePath) : RawPath := ⟨Text.Utf8.encode p.text⟩

namespace RawPath

def slash : UInt8 := 0x2F

def dot : UInt8 := 0x2E

/-- A path, last byte first, without what may stand behind its last name. -/
def dropTrailing : List UInt8 → List UInt8
  | [] => []
  | b :: bs => if b = slash ∨ b = dot ∧ bs.head? = some slash then dropTrailing bs else b :: bs

/-- The last name, last byte first. -/
def lastName? (p : RawPath) : Option (List UInt8) :=
  let name := (dropTrailing p.bytes.reverse).takeWhile (· != slash)
  if name = [] ∨ name = [dot] ∨ name = [dot, dot] then none else some name

/-- The extension of a name, last byte first. -/
def extensionOf (name : List UInt8) : Option (List UInt8) :=
  if (name.dropWhile (· != dot)).drop 1 = [] then none else some (name.takeWhile (· != dot)).reverse

def extension? (p : RawPath) : Option (List UInt8) := do
  let name ← p.lastName?
  extensionOf name

/-! ## Documents -/

/-- The extension of documents. -/
def documentExtension : List UInt8 := Text.Utf8.encode FilePath.documentExtension

/-- The path with a dot and the extension of documents behind it. -/
def suffixed (p : RawPath) : RawPath := ⟨p.bytes ++ dot :: documentExtension⟩

/-- The path with the extension of documents, added after any other. -/
def ofDocument (p : RawPath) : RawPath := if p.extension? = some documentExtension then p else p.suffixed

end RawPath

end TypedDoc.Host
