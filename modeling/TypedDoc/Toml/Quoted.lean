/-
  TypedDoc.Toml.Quoted — the four kinds of strings: in single or double quotes, on one
  line or, with three quotes at each end, on several.

  Double quotes allow escapes, single quotes none. In the long kinds a line end right
  after the opening quotes is dropped, every other line end counts as a single line feed,
  and one or two quotes may stand anywhere, also right before the closing three. A
  backslash at the end of a line in double quotes joins it to the next text.
-/

import TypedDoc.Toml.Reader
import TypedDoc.Toml.Scalar

namespace TypedDoc.Toml.Quoted

open Reader

/-- The character with a code given in `digits` hexadecimal digits. -/
def unicode (digits : Nat) : Reader Char := fun cs =>
  let ds := cs.take digits
  let code := Scalar.ofDigits 16 ds
  if ds.length = digits ∧ ds.all Scalar.isHexDigit ∧ code.isValidChar then some (Char.ofNat code, cs.drop digits)
  else none

/-- What stands after a backslash. -/
def escape : Reader Char := do
  match ← next with
  | 'b' => return '\x08'
  | 't' => return '\t'
  | 'n' => return '\n'
  | 'f' => return '\x0c'
  | 'r' => return '\r'
  | '"' => return '"'
  | '\\' => return '\\'
  | 'u' => unicode 4
  | 'U' => unicode 8
  | _ => failure

/-- A character of a string in double quotes; none at the closing quote. -/
def escapedChar : Reader (Option Char) := do
  match ← next with
  | '"' => return none
  | '\\' => some <$> escape
  | c => if isPrintable c then return some c else failure

/-- A character of a string in single quotes; none at the closing quote. -/
def literalChar : Reader (Option Char) := do
  let c ← next
  if c = '\x27' then return none
  else if isPrintable c then return some c
  else failure

/-- Quotes inside a long string; none at the closing three. -/
def quotes (q : Char) : Reader (Option (List Char)) := fun cs =>
  let n := (cs.takeWhile (· == q)).length
  if n < 3 then some (some (cs.take n), cs.drop n)
  else if n = 3 then some (none, cs.drop n)
  else if n ≤ 5 then some (some (cs.take (n - 3)), cs.drop (n - 3))
  else none

/-- A line end or a printable character. -/
def longChar : Reader (List Char) := do
  if ← newline then return ['\n']
  let c ← next
  if isPrintable c then return [c] else failure

/-- A part of a long string in double quotes; none at its end. -/
def escapedPart : Reader (Option (List Char)) := do
  match ← next? with
  | some '"' => quotes '"'
  | some '\\' =>
    let _ ← next
    let cs ← get
    let joined := cs.dropWhile isBlank
    if joined.head? = some '\n' || joined.take 2 = ['\r', '\n'] then
      set (dropBlankLines joined)
      return some []
    else
      return some [← escape]
  | _ => some <$> longChar

/-- A part of a long string in single quotes; none at its end. -/
def literalPart : Reader (Option (List Char)) := do
  if (← next?) = some '\x27' then quotes '\x27' else some <$> longChar

/-- A string of one line. -/
def short : Reader String := do
  match ← next with
  | '"' => String.ofList <$> collect escapedChar
  | '\x27' => String.ofList <$> collect literalChar
  | _ => failure

/-- A string of any kind. -/
def string : Reader String := do
  let long (part : Reader (Option (List Char))) : Reader String := do
    let _ ← newline
    return String.ofList (← collect part).flatten
  if ← accept ['"', '"', '"'] then long escapedPart
  else if ← accept ['\x27', '\x27', '\x27'] then long literalPart
  else short

end TypedDoc.Toml.Quoted
