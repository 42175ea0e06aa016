/-
  TypedDoc.Toml.Reader — reading a text from the front: what is taken, what is left, and
  nothing at all where the text is not what it should be. Every choice is made by looking
  at the next character or two, so no reader is ever run twice on the same text.
-/

namespace TypedDoc.Toml

abbrev Reader := StateT (List Char) Option

def isBlank (c : Char) : Bool := c == ' ' || c == '\t'

/-- What may stand in a comment: everything but control characters, of which only the tab
    may. -/
def isPrintable (c : Char) : Bool := c == '\t' || (' ' ≤ c && c != '\x7f')

namespace Reader

def next? : Reader (Option Char) := fun cs => some (cs.head?, cs)

def next : Reader Char
  | [] => none
  | c :: cs => some (c, cs)

def expect (c : Char) : Reader Unit := do
  let c' ← next
  guard (c' = c)

/-- Takes `start` if the text begins with it. -/
def accept (start : List Char) : Reader Bool := fun cs =>
  if start.isPrefixOf cs then some (true, cs.drop start.length) else some (false, cs)

def takeWhile (p : Char → Bool) : Reader (List Char) := fun cs => some (cs.takeWhile p, cs.dropWhile p)

def skip (rest : List Char → List Char) : Reader Unit := fun cs => some ((), rest cs)

def skipBlanks : Reader Unit := skip (·.dropWhile isBlank)

/-- The results of `step` up to the first that is `none`, if that is one of the first `n`. -/
def collectUpTo {α : Type} (step : Reader (Option α)) : (n : Nat) → Reader (List α)
  | 0 => failure
  | n + 1 => do
    match ← step with
    | none => return []
    | some a => return a :: (← collectUpTo step n)

/-- The results of `step` up to the first that is `none`. Each must take a character. -/
def collect {α : Type} (step : Reader (Option α)) : Reader (List α) := fun cs => collectUpTo step (cs.length + 1) cs

/-! ## Lines -/

/-- A line end, or nothing. -/
def newline : Reader Bool := do
  if ← accept ['\n'] then return true else accept ['\r', '\n']

/-- Blanks, a comment if there is one, and the end of the line or of the text. -/
def lineEnd : Reader Unit := do
  skipBlanks
  if ← accept ['#'] then
    let _ ← takeWhile isPrintable
  let ended ← newline
  guard (ended || (← next?).isNone)

/-- What is left after blanks and line ends. -/
def dropBlankLines : List Char → List Char
  | '\r' :: '\n' :: cs => dropBlankLines cs
  | c :: cs => if c == '\n' || isBlank c then dropBlankLines cs else c :: cs
  | [] => []

/-- What is left after blanks, line ends and comments; `comment` tells whether one has
    begun. -/
def dropSpace (comment : Bool) : List Char → List Char
  | '\r' :: '\n' :: cs => dropSpace false cs
  | '\n' :: cs => dropSpace false cs
  | '#' :: cs => dropSpace true cs
  | c :: cs => if isBlank c || (comment && isPrintable c) then dropSpace comment cs else c :: cs
  | [] => []

def skipSpace : Reader Unit := skip (dropSpace false)

end Reader

end TypedDoc.Toml
