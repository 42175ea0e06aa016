/-
  TypedDoc.Host.FilePath — paths as texts: their names, the extension of the last one,
  and the extension every document has.

  Names are what stands between slashes; empty ones and single dots name nothing. A path
  ends in a name unless its last is a pair of dots or it has none; slashes and single dots
  behind that name do not count. Its extension is what follows the last dot, if something
  stands before the dot.
-/

namespace TypedDoc.Host

structure FilePath where
  text : String
  deriving DecidableEq, Repr

namespace FilePath

def isSlash (c : Char) : Bool := c == '/'

/-- The parts of a text between the slashes. -/
def splitSlashes : List Char → List (List Char)
  | [] => [[]]
  | c :: cs =>
    match isSlash c, splitSlashes cs with
    | true, parts => [] :: parts
    | false, [] => [[c]]
    | false, part :: parts => (c :: part) :: parts

/-- The steps to take from the top: names, dots that stay and pairs of dots that go up. -/
def steps (p : FilePath) : List String :=
  ((splitSlashes p.text.toList).map String.ofList).filter (· ≠ "")

/-- A slash at the end allows a folder only. -/
def endsInSlash (p : FilePath) : Bool := p.text.toList.getLast? = some '/'

/-! ## The last name -/

/-- A path, last character first, without what may stand behind its last name. -/
def dropTrailing : List Char → List Char
  | '/' :: cs => dropTrailing cs
  | '.' :: '/' :: cs => dropTrailing cs
  | cs => cs

/-- The text up to the end of the last name, last character first. -/
def reversed (p : FilePath) : List Char := dropTrailing p.text.toList.reverse

/-- The last name and, in front of it, the text before it; both last character first. -/
def lastName? (p : FilePath) : Option (List Char × List Char) :=
  let name := p.reversed.takeWhile (!isSlash ·)
  if name = [] ∨ name = ['.'] ∨ name = ['.', '.'] then none
  else some (p.reversed.dropWhile (!isSlash ·), name)

/-- Splits a name, last character first, into its stem and its extension. -/
def splitExtension (name : List Char) : List Char × Option (List Char) :=
  let extension := name.takeWhile (· != '.')
  let stem := (name.dropWhile (· != '.')).drop 1
  if stem = [] then (name, none) else (stem, some extension)

def extension? (p : FilePath) : Option String := do
  let (_, name) ← p.lastName?
  return String.ofList (← (splitExtension name).2).reverse

/-- The path with another extension, after its stem, and nothing behind the last name. -/
def withExtension (extension : String) (p : FilePath) : FilePath :=
  match p.lastName? with
  | none => p
  | some (before, name) => ⟨String.ofList ((splitExtension name).1 ++ before).reverse ++ "." ++ extension⟩

/-- There is a folder in front of the last name. -/
def hasFolder (p : FilePath) : Bool :=
  match p.lastName? with
  | none => false
  | some (before, _) => before ≠ []

/-! ## Documents -/

/-- The extension of documents. -/
def documentExtension : String := "mobf"

/-- The path with the extension of documents, added after any other. -/
def ofDocument (p : FilePath) : FilePath :=
  if p.extension? = some documentExtension then p else ⟨p.text ++ "." ++ documentExtension⟩

/-- Where the next contents of a document are prepared: beside it. -/
def ofDraft (p : FilePath) : FilePath := p.withExtension (documentExtension ++ ".tmp")

end FilePath

end TypedDoc.Host
