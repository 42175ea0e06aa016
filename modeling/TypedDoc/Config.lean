/-
  TypedDoc.Config — how a store writes: the envelope, the header of new documents and the
  gzip level. Reading needs none of it.

  A configuration is kept as a TOML text. Keys that are absent have their defaults, other
  keys and tables are ignored, and a value of the wrong type or beyond its range makes the
  whole text unreadable. Only the gzip level has a range of its own, 0 to 9, which is
  checked last and reported on its own.
-/

import TypedDoc.Header
import TypedDoc.Envelope
import TypedDoc.Toml.Text

namespace TypedDoc

structure Config where
  envelope : Envelope
  charset : Charset
  version : UInt8
  gzipLevel : UInt32
  deriving DecidableEq, Repr

namespace Config

def standard : Config := ⟨.plain, .utf8, 1, .ofNat Gzip.defaultLevel⟩

/-- Passes a usable configuration on. -/
def validated (c : Config) : Except Error Config :=
  if c.gzipLevel.toNat ≤ Gzip.maxLevel then .ok c else .error (.invalidConfig (.levelOutOfRange c.gzipLevel.toNat))

/-- The header of a document that is new. -/
def header (c : Config) : Header := ⟨c.charset, c.version⟩

/-! ## Reading -/

/-- The value of a key that names one of a few words: the word as a string, or as the one
    name in a table, with nothing under it. -/
def word? {α : Type} (ofLabel? : String → Option α) : Toml.Node → Option α
  | .text s => ofLabel? s
  | .table _ [(s, .table _ [])] | .table _ [(s, .array [])] => ofLabel? s
  | _ => none

/-- The value of a key that is a number below `limit`. -/
def number? (limit : Nat) : Toml.Node → Option Nat
  | .integer i => if 0 ≤ i ∧ i < limit then some i.toNat else none
  | _ => none

/-- What a table gives for a key. -/
def setting {α : Type} (t : Toml.Table) (key : String) (value? : Toml.Node → Option α) (default : α) : Option α :=
  match t.lookup key with
  | none => some default
  | some n => value? n

def ofTable? (t : Toml.Table) : Option Config := do
  let envelope ← setting t "compression" (word? Envelope.ofLabel?) standard.envelope
  let charset ← setting t "charset" (word? Charset.ofLabel?) standard.charset
  let version ← setting t "version" (number? 256) standard.version.toNat
  let level ← setting t "gzip_level" (number? 4294967296) standard.gzipLevel.toNat
  return ⟨envelope, charset, .ofNat version, .ofNat level⟩

def ofText (s : String) : Except Error Config :=
  match Toml.ofText? s >>= ofTable? with
  | none => .error (.invalidConfig .unreadable)
  | some c => c.validated

/-! ## Writing -/

def toText (c : Config) : String :=
  s!"compression = \"{c.envelope.label}\"\ncharset = \"{c.charset.label}\"\n" ++
    s!"version = {c.version.toNat}\ngzip_level = {c.gzipLevel.toNat}\n"

/-- The text of the standard configuration, with a comment on every key. -/
def standardText : String :=
  "# MOBF store configuration\n#\n" ++
  "# Envelope for new output: \"none\" (default) or \"gzip\".\n" ++
  "# Reads detect gzip on their own regardless of this setting.\n" ++
  "compression = \"none\"\n\n" ++
  "# Charset for strings in new documents: \"utf-8\" (default) or \"utf-16\"\n" ++
  "charset = \"utf-8\"\n\n" ++
  "# Format version byte written into new headers\n" ++
  "version = 1\n\n" ++
  "# Gzip level 0-9, used only when compression = \"gzip\"\n" ++
  "gzip_level = 6\n"

end Config

end TypedDoc
