/-
  TypedDoc.Toml.Node — what a TOML text denotes: a table of named nodes, and the rules for
  adding to one while the text is read.

  A name is given once. What may still be added to a table depends on how it came to be:
  - `defined`, by a header of its own: dotted keys elsewhere no longer reach into it;
  - `implied`, by the header of a table below it: one header may still define it, and
    dotted keys may pass through it but not end in it;
  - `dotted`, by a dotted key: dotted keys may add to it, and no header may define it;
  - `closed`, written in braces: nothing more.
  A header passes through any table that is not closed, and through the last one of an
  array of tables.

  Numbers with a fraction, dates and times are recognised, but their values are not kept.
-/

namespace TypedDoc.Toml

inductive Role where
  | defined
  | implied
  | dotted
  | closed
  deriving DecidableEq, Repr

inductive Node where
  | text (s : String)
  | integer (i : Int)
  | float
  | boolean (b : Bool)
  | moment
  | array (items : List Node)
  | table (role : Role) (entries : List (String × Node))
  /-- An array of tables, each begun by a header in double brackets. -/
  | tables (items : List (List (String × Node)))

abbrev Table := List (String × Node)

namespace Table

/-- Replaces what `key` names, or adds it at the end. -/
def alter (key : String) (f : Option Node → Option Node) : Table → Option Table
  | [] => do return [(key, ← f none)]
  | (k, n) :: t =>
    if k = key then do return (k, ← f (some n)) :: t else do return (k, n) :: (← alter key f t)

/-- Changes the last of an array of tables. -/
def alterLast (f : Table → Option Table) (items : List Table) : Option Node := do
  let t ← f (← items.getLast?)
  return .tables (items.dropLast ++ [t])

/-- Runs `f` on the table that the keys of a header lead to. -/
def within (f : Table → Option Table) : List String → Table → Option Table
  | [], t => f t
  | key :: keys, t =>
    t.alter key fun
      | none => .table .implied <$> within f keys []
      | some (.table .closed _) => none
      | some (.table role below) => .table role <$> within f keys below
      | some (.tables items) => alterLast (within f keys) items
      | some _ => none

/-- A header in single brackets: defines the table, which may so far only be implied. -/
def define (key : String) (t : Table) : Option Table :=
  t.alter key fun
    | none => some (.table .defined [])
    | some (.table .implied below) => some (.table .defined below)
    | some _ => none

/-- A header in double brackets: one more table for the array. -/
def extend (key : String) (t : Table) : Option Table :=
  t.alter key fun
    | none => some (.tables [[]])
    | some (.tables items) => some (.tables (items ++ [[]]))
    | some _ => none

/-- A key and its value. All but the last part of a dotted key name tables. -/
def assign (value : Node) : List String → Table → Option Table
  | [], _ => none
  | [key], t => t.alter key fun
      | none => some value
      | some _ => none
  | key :: keys, t =>
    t.alter key fun
      | none => .table .dotted <$> assign value keys []
      | some (.table .dotted below) => .table .dotted <$> assign value keys below
      | some (.table .implied below) => if keys.length = 1 then none else .table .implied <$> assign value keys below
      | some (.tables items) => if keys.length = 1 then none else alterLast (assign value keys) items
      | some _ => none

end Table

end TypedDoc.Toml
