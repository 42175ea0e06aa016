/-
  TypedDoc.Toml.Scalar — the values of a TOML text that are written without quotes or
  brackets: truth values, integers, numbers with a fraction or exponent, dates and times.

  Such a value is a run of letters, digits and `+ - . _ :`, and nothing that may follow it
  begins with one of these, so it is read by taking the whole run and asking what it is.
  Only a date and a time with a space between them are two runs.
-/

import TypedDoc.Timestamp.Calendar
import TypedDoc.Toml.Node

namespace TypedDoc.Toml.Scalar

def isDigit (c : Char) : Bool := '0' ≤ c && c ≤ '9'

/-- The value of a digit of any base up to sixteen. -/
def digitValue (c : Char) : Nat :=
  if isDigit c then c.toNat - 48 else if 'a' ≤ c then c.toNat - 87 else c.toNat - 55

def isHexDigit (c : Char) : Bool := isDigit c || ('a' ≤ c && c ≤ 'f') || ('A' ≤ c && c ≤ 'F')

def isOctalDigit (c : Char) : Bool := '0' ≤ c && c ≤ '7'

def isBinaryDigit (c : Char) : Bool := c == '0' || c == '1'

def ofDigits (base : Nat) (ds : List Char) : Nat := ds.foldl (fun n d => n * base + digitValue d) 0

/-- Digits, with single underscores between some of them. -/
def grouped (digit : Char → Bool) : List Char → Option (List Char)
  | [] => none
  | [c] => if digit c then some [c] else none
  | c :: '_' :: rest => if digit c then (c :: ·) <$> grouped digit rest else none
  | c :: rest => if digit c then (c :: ·) <$> grouped digit rest else none

/-- Decimal digits without a zero in front. -/
def decimal (cs : List Char) : Option (List Char) := do
  let ds ← grouped isDigit cs
  if ds.head? = some '0' && 1 < ds.length then none else some ds

/-- Whether a sign is a minus, and what follows it. -/
def signed : List Char → Bool × List Char
  | '-' :: cs => (true, cs)
  | '+' :: cs => (false, cs)
  | cs => (false, cs)

/-! ## Numbers -/

/-- An integer, if 64 bits hold it. -/
def inRange (i : Int) : Option Int := if -9223372036854775808 ≤ i ∧ i ≤ 9223372036854775807 then some i else none

def integer? : List Char → Option Int
  | '0' :: 'x' :: cs => do inRange (ofDigits 16 (← grouped isHexDigit cs))
  | '0' :: 'o' :: cs => do inRange (ofDigits 8 (← grouped isOctalDigit cs))
  | '0' :: 'b' :: cs => do inRange (ofDigits 2 (← grouped isBinaryDigit cs))
  | cs => do
    let (negative, body) := signed cs
    let n := ofDigits 10 (← decimal body)
    inRange (if negative then -n else n)

/-- The smallest number that is nearer to 2 ^ 1024 than to any double below it. -/
def overflow : Nat := 1 <<< 1024 - 1 <<< 970

/-- Whether `digits · 10 ^ exponent` rounds to infinity. -/
def overflows (digits : List Char) (exponent : Int) : Bool :=
  let ds := digits.dropWhile (· == '0')
  let magnitude := ds.length + exponent
  if ds.isEmpty || magnitude < 309 then false
  else if 309 < magnitude then true
  else if 0 ≤ exponent then overflow ≤ ofDigits 10 ds * Nat.pow 10 exponent.toNat
  else overflow * Nat.pow 10 (-exponent).toNat ≤ ofDigits 10 ds

/-- A number with a fraction, an exponent or both, or a name for infinity or no number.
    One above all doubles is refused; one below them all is not. -/
def isFloat (cs : List Char) : Bool :=
  let (negative, body) := signed cs
  if body = ['i', 'n', 'f'] || body = ['n', 'a', 'n'] then true
  else
    let mantissa := body.takeWhile fun c => c != 'e' && c != 'E'
    let fraction := (mantissa.dropWhile (· != '.')).drop 1
    let whole := mantissa.takeWhile (· != '.')
    let power := body.drop (mantissa.length + 1)
    let hasFraction := mantissa.contains '.'
    let hasPower := mantissa.length < body.length
    let (negativePower, exponent) := signed power
    let parts : Option (List Char × List Char × List Char) := do
      let w ← decimal whole
      let f ← if hasFraction then grouped isDigit fraction else some []
      let p ← if hasPower then grouped isDigit exponent else some []
      return (w, f, p)
    match parts with
    | none => false
    | some (w, f, p) =>
      let power : Int := ofDigits 10 p
      let shift := (if negativePower then -power else power) - f.length
      (hasFraction || hasPower) && (negative || !overflows (w ++ f) shift)

/-! ## Dates and times -/

/-- A number of two digits, at least `least` and at most `most`. -/
def twoDigits (least most : Nat) (a b : Char) : Option Nat :=
  let n := ofDigits 10 [a, b]
  if isDigit a && isDigit b && least ≤ n && n ≤ most then some n else none

/-- A date at the front, and what follows it. -/
def date? : List Char → Option (List Char)
  | y₁ :: y₂ :: y₃ :: y₄ :: '-' :: m₁ :: m₂ :: '-' :: d₁ :: d₂ :: rest => do
    let month ← twoDigits 1 12 m₁ m₂
    let day ← twoDigits 1 31 d₁ d₂
    let year := [y₁, y₂, y₃, y₄]
    if year.all isDigit && Calendar.dayExists (ofDigits 10 year) month day then some rest else none
  | _ => none

/-- A fraction of a second, if there is one. -/
def afterFraction : List Char → Option (List Char)
  | '.' :: c :: rest => if isDigit c then some (rest.dropWhile isDigit) else none
  | '.' :: [] => none
  | rest => some rest

/-- A time of day at the front, and what follows it. -/
def time? : List Char → Option (List Char)
  | h₁ :: h₂ :: ':' :: m₁ :: m₂ :: ':' :: s₁ :: s₂ :: rest => do
    let _ ← twoDigits 0 23 h₁ h₂
    let _ ← twoDigits 0 59 m₁ m₂
    let _ ← twoDigits 0 60 s₁ s₂
    afterFraction rest
  | _ => none

/-- The distance from UTC, if one is given. -/
def isOffset : List Char → Bool
  | [] | ['Z'] | ['z'] => true
  | sign :: h₁ :: h₂ :: ':' :: m₁ :: [m₂] =>
    (sign == '+' || sign == '-') && (twoDigits 0 23 h₁ h₂).isSome && (twoDigits 0 59 m₁ m₂).isSome
  | _ => false

def isDate (cs : List Char) : Bool := date? cs == some []

/-- A time of day that goes with a date. -/
def isZonedTime (cs : List Char) : Bool := (time? cs).any isOffset

def isMoment (cs : List Char) : Bool :=
  match date? cs with
  | some [] => true
  | some (delim :: rest) => (delim == 'T' || delim == 't') && isZonedTime rest
  | none => time? cs == some []

/-! ## Reading -/

def inRun (c : Char) : Bool :=
  isDigit c || ('a' ≤ c && c ≤ 'z') || ('A' ≤ c && c ≤ 'Z') || ['+', '-', '.', '_', ':'].contains c

/-- What a run denotes. -/
def ofRun? (cs : List Char) : Option Node :=
  if cs = "true".toList then some (.boolean true)
  else if cs = "false".toList then some (.boolean false)
  else if isMoment cs then some .moment
  else if isFloat cs then some .float
  else .integer <$> integer? cs

/-- An unquoted value at the front of a text, and the text after it. -/
def read? (cs : List Char) : Option (Node × List Char) :=
  let run := cs.takeWhile inRun
  let rest := cs.dropWhile inRun
  match isDate run, rest with
  | true, ' ' :: c :: rest =>
    if isDigit c then
      if isZonedTime ((c :: rest).takeWhile inRun) then some (.moment, (c :: rest).dropWhile inRun) else none
    else some (.moment, ' ' :: c :: rest)
  | _, _ => do return (← ofRun? run, rest)

end TypedDoc.Toml.Scalar
