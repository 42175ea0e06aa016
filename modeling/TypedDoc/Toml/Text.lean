/-
  TypedDoc.Toml.Text — TOML texts: the table that one denotes, or none if it is not TOML.

  A text is read line by line; what the lines say is then put together in order. A
  dotted key has fewer than 80 parts, and no more than 79 brackets and braces stand open
  at once.
-/

import TypedDoc.Toml.Quoted

namespace TypedDoc.Toml

open Reader

inductive Line where
  | blank
  | header (keys : List String)
  | arrayHeader (keys : List String)
  | pair (keys : List String) (value : Node)

/-! ## Reading -/

def isBare (c : Char) : Bool :=
  Scalar.isDigit c || ('a' ≤ c && c ≤ 'z') || ('A' ≤ c && c ≤ 'Z') || c == '-' || c == '_'

/-- One part of a key, with the blanks around it. -/
def keyPart : Reader String := do
  skipBlanks
  let part ← match ← next? with
    | some '"' | some '\x27' => Quoted.short
    | _ =>
      let cs ← takeWhile isBare
      guard !cs.isEmpty
      pure (String.ofList cs)
  skipBlanks
  return part

/-- The least number of parts that is too many for a key. -/
def keyLimit : Nat := 80

def key : Reader (List String) := do
  let first ← keyPart
  let others ← collect do
    if ← accept ['.'] then some <$> keyPart else return none
  guard (others.length + 1 < keyLimit)
  return first :: others

/-- A key and its value; `value` reads the value. -/
def keyValue (value : Reader Node) : Reader (List String × Node) := do
  let keys ← key
  expect '='
  skipBlanks
  return (keys, ← value)

/-- The inside of brackets. A comma may follow the last item. -/
def items (value : Reader Node) : Reader (List Node) := collect do
  skipSpace
  if ← accept [']'] then return none
  let item ← value
  skipSpace
  let more ← accept [',']
  guard (more || (← next?) = some ']')
  return some item

/-- The inside of braces, all on one line. -/
def braced (value : Reader Node) : Reader Table := do
  skipBlanks
  if ← accept ['}'] then return []
  let pair : Reader (List String × Node) := do
    let p ← keyValue value
    skipBlanks
    return p
  let first ← pair
  let others ← collect do
    if ← accept [','] then some <$> pair else return none
  expect '}'
  (first :: others).foldlM (fun t p => t.assign p.2 p.1) ([] : Table)

/-- A value in which at most `depth` brackets and braces stand open at once. -/
def value (depth : Nat) : Reader Node := do
  match depth, ← next? with
  | n + 1, some '[' => next *> Node.array <$> items (value n)
  | n + 1, some '{' => next *> Node.table .closed <$> braced (value n)
  | _, some '"' | _, some '\x27' => .text <$> Quoted.string
  | _, _ => Scalar.read?

/-- The most brackets and braces that may stand open at once. -/
def depthLimit : Nat := 79

def line : Reader (Option Line) := do
  skipBlanks
  match ← next? with
  | none => return none
  | some '#' | some '\n' | some '\r' =>
    lineEnd
    return some .blank
  | some '[' =>
    expect '['
    let array ← accept ['[']
    let keys ← key
    expect ']'
    if array then expect ']'
    lineEnd
    return some (if array then .arrayHeader keys else .header keys)
  | some _ =>
    let (keys, v) ← keyValue (value depthLimit)
    lineEnd
    return some (.pair keys v)

/-! ## Putting together -/

/-- A text so far: all it says, and the keys of the last header. -/
structure Draft where
  root : Table
  current : List String

def Draft.add (d : Draft) : Line → Option Draft
  | .blank => some d
  | .header keys => do
    let name ← keys.getLast?
    return ⟨← d.root.within (Table.define name) keys.dropLast, keys⟩
  | .arrayHeader keys => do
    let name ← keys.getLast?
    return ⟨← d.root.within (Table.extend name) keys.dropLast, keys⟩
  | .pair keys v => do
    return { d with root := ← d.root.within (Table.assign v keys) d.current }

/-- The table that a text denotes. A byte-order mark may stand in front. -/
def ofText? (s : String) : Option Table := do
  let cs := s.toList
  let (lines, _) ← collect line (if cs.head? = some '\ufeff' then cs.drop 1 else cs)
  let d ← lines.foldlM Draft.add ⟨[], []⟩
  return d.root

end TypedDoc.Toml
