import LogShipping.Toml.Number
import LogShipping.Toml.Text
import LogShipping.Toml.Value

/-!
# Documents

A document is read in two steps: its text as a list of statements, and the statements, in order, as
changes to one table. Either step can fail, the first at a line, the second at a key.
-/

namespace LogShipping.Toml

namespace Scan

/-! ## Values -/

/-- What a scan recognises, as it is written. -/
def written (p : Scan Unit) : Scan String := fun s => do
  let ((), rest) ← p s
  return (String.ofList (s.take (s.length - rest.length)), rest)

/-- A value that does not contain others. -/
def scalar : Scan Value :=
  (.text <$> text) <|> (.moment <$> written moment) <|> (.real <$> written (realInDigits <|> namedReal))
    <|> (.integer <$> integer) <|> (chars "true".toList *> pure (.truth true))
    <|> (chars "false".toList *> pure (.truth false))

/-- An array; a comma may follow its last element. -/
def array (element : Scan Value) : Scan Value := do
  char '['
  let elements ← separated (spread *> element <* spread) (char ',')
  if !elements.isEmpty then
    let _ ← perhaps (char ',')
  spread
  char ']'
  return .array elements

/-- An assignment inside an inline table. -/
def inlineAssignment (element : Scan Value) : Scan (List String × Value) := do
  let path ← key
  char '='
  gap
  let v ← element
  gap
  return (path, v)

/-- An inline table. -/
def inlineTable (element : Scan Value) : Scan Value := do
  char '\x7b'
  let assignments ← separated (inlineAssignment element) (char ',')
  gap
  char '\x7d'
  match Table.ofAssignments? assignments with
  | some entries => return .table .inline entries
  | none => failure

/-- A value in which others are nested at most `depth` deep. -/
def value : (depth : Nat) → Scan Value
  | 0 => scalar
  | depth + 1 => scalar <|> array (value depth) <|> inlineTable (value depth)

/-- How deep values may be nested. -/
def depthLimit : Nat := 79

end Scan

open Scan

/-! ## Statements -/

/-- What a line says. -/
inductive Statement where
  /-- A value for a key of the present table. -/
  | assignment (path : List String) (v : Value)
  /-- A table is the present one from here on. -/
  | header (path : List String)
  /-- A new table at the end of an array of tables is the present one from here on. -/
  | nextHeader (path : List String)

/-- An assignment. -/
def assignment : Scan Statement := do
  let path ← key
  char '='
  gap
  let v ← value depthLimit
  lineRest
  return .assignment path v

/-- The header of a table. -/
def header : Scan Statement := do
  char '['
  let path ← key
  char ']'
  lineRest
  return .header path

/-- The header of a table in an array. -/
def nextHeader : Scan Statement := do
  chars ['[', '[']
  let path ← key
  chars [']', ']']
  lineRest
  return .nextHeader path

/-- A line that says nothing. -/
def emptyLine : Scan Unit := newline <|> (comment *> (newline <|> finish))

/-- One line, or more if a value goes over lines. -/
def line : Scan (Option Statement) :=
  ((emptyLine *> pure none) <|> (some <$> (nextHeader <|> header <|> assignment))) <* gap

/-- The mark that a text may begin with. -/
def byteOrderMark : Char := '\ufeff'

/-- All lines of a text. -/
def lines : Scan (List Statement) := do
  let _ ← perhaps (char byteOrderMark)
  gap
  return (← many line).filterMap id

/-! ## Reading documents -/

/-- Why a text is no document. -/
inductive Fault where
  /-- A line is not well formed. -/
  | malformed (line : Nat)
  /-- A key or a table is defined again, or as something else. -/
  | redefined (path : List String)
  deriving DecidableEq, Repr

/-- The text of a fault. -/
def Fault.message : Fault → String
  | .malformed line => s!"line {line} is not well formed"
  | .redefined path => ".".intercalate path ++ " is defined already"

/-- A table under way, with the path of the present table in it. -/
structure Progress where
  /-- The table. -/
  root : Table := []
  /-- The path of the present table. -/
  present : List String := []

/-- The effect of a statement. -/
def Progress.step? (progress : Progress) : Statement → Except (List String) Progress
  | .assignment path v =>
    match Table.within? (fun t => t.assign? true path v) progress.root progress.present with
    | some root => .ok { progress with root := root }
    | none => .error (progress.present ++ path)
  | .header path => enter path Table.open?
  | .nextHeader path => enter path Table.openNext?
where
  /-- Makes a table the present one, which a header opens. -/
  enter (path : List String) (opening : String → Table → Option Table) :
      Except (List String) Progress :=
    match path.getLast? with
    | none => .error path
    | some last =>
      match Table.within? (opening last) progress.root path.dropLast with
      | some root => .ok ⟨root, path⟩
      | none => .error path

/-- The table of a text. -/
def parse (content : String) : Except Fault Table :=
  let chars := content.toList
  match lines chars with
  | none => .error (.malformed 1)
  | some (statements, []) =>
    match statements.foldlM Progress.step? {} with
    | .ok progress => .ok progress.root
    | .error path => .error (.redefined path)
  | some (_, rest) =>
    .error (.malformed ((chars.take (chars.length - rest.length)).count '\n' + 1))

end LogShipping.Toml
