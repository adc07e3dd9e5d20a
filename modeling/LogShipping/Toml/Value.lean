/-!
# Values and tables

A table is filled by assignments and opened by headers. Where it came from decides what may be added
to it: a table that only stands on the way to another one can still be opened, a table made by a
dotted key takes more dotted keys, and an inline table is complete. Main rules: a key is assigned once,
and a table is opened once.
-/

namespace LogShipping.Toml

/-! ## Values -/

/-- How a table came to be. -/
inductive Origin where
  /-- By a header of its own. -/
  | header
  /-- On the way to a table that a header opened. -/
  | implied
  /-- On the way to a key that was assigned. -/
  | dotted
  /-- As a value. -/
  | inline
  deriving DecidableEq, Repr

/-- A value. -/
inductive Value where
  | text (s : String)
  | integer (n : Int)
  /-- A real number, as written. -/
  | real (written : String)
  | truth (b : Bool)
  /-- A date or a time, as written. -/
  | moment (written : String)
  | array (elements : List Value)
  | table (origin : Origin) (entries : List (String × Value))
  /-- An array of tables that headers open one after another. -/
  | tables (elements : List (List (String × Value)))

/-- The content of a table: keys with their values. -/
abbrev Table := List (String × Value)

namespace Table

/-! ## Changes to tables -/

/-- The table with another value for a key that it has. -/
def replace (t : Table) (key : String) (v : Value) : Table :=
  t.map fun entry => if entry.1 = key then (key, v) else entry

/-- The table with one more key. -/
def append (t : Table) (key : String) (v : Value) : Table := t ++ [(key, v)]

/-- The array of tables with a change to its last one. -/
def atLast? (change : Table → Option Table) : List Table → Option (List Table)
  | [] => none
  | [last] => (change last).map fun last => [last]
  | first :: rest => (atLast? change rest).map (first :: ·)

/-- Assigns a value under a dotted key. `here` tells whether this very table takes keys. -/
def assign? (here : Bool) (t : Table) : List String → Value → Option Table
  | [], _ => none
  | [key], v => if here && (t.lookup key).isNone then some (t.append key v) else none
  | key :: rest, v =>
    match t.lookup key with
    | none => (assign? true [] rest v).map fun inner => t.append key (.table .dotted inner)
    | some (.table .dotted inner) =>
      (assign? true inner rest v).map fun inner => t.replace key (.table .dotted inner)
    -- A table that a header made, or will make, takes no key here, but dotted tables inside it do.
    | some (.table .implied inner) =>
      (assign? false inner rest v).map fun inner => t.replace key (.table .implied inner)
    | some (.tables elements) =>
      (atLast? (fun last => assign? false last rest v) elements).map fun elements =>
        t.replace key (.tables elements)
    | some _ => none

/-- Changes the table at the end of a path, making the tables that are missing on the way. -/
def within? (change : Table → Option Table) (t : Table) : List String → Option Table
  | [] => change t
  | key :: rest =>
    match t.lookup key with
    | none => (within? change [] rest).map fun inner => t.append key (.table .implied inner)
    | some (.table .inline _) => none
    | some (.table origin inner) =>
      (within? change inner rest).map fun inner => t.replace key (.table origin inner)
    | some (.tables elements) =>
      (atLast? (fun last => within? change last rest) elements).map fun elements =>
        t.replace key (.tables elements)
    | some _ => none

/-- Opens a table by a header. -/
def open? (key : String) (t : Table) : Option Table :=
  match t.lookup key with
  | none => some (t.append key (.table .header []))
  | some (.table .implied inner) => some (t.replace key (.table .header inner))
  | some _ => none

/-- Opens one more table of an array by a header. -/
def openNext? (key : String) (t : Table) : Option Table :=
  match t.lookup key with
  | none => some (t.append key (.tables [[]]))
  | some (.tables elements) => some (t.replace key (.tables (elements ++ [[]])))
  | some _ => none

/-- The table that assignments make, one after another. -/
def ofAssignments? (assignments : List (List String × Value)) : Option Table :=
  assignments.foldlM (fun t (key, v) => assign? true t key v) []

end Table

end LogShipping.Toml
