/-!
# Scanning

A scan takes what it recognises from the front of a text and leaves the rest; where it recognises
nothing the text stays untouched, so that another scan can be tried. The scans here are those that all
of TOML is made of: single characters, runs of characters, repetitions, blanks, comments and the ends
of lines.
-/

namespace LogShipping.Toml

/-- A scan of the characters of a text. -/
abbrev Scan := StateT (List Char) Option

namespace Scan

variable {α β : Type}

/-! ## Characters -/

/-- One character of a class. -/
def one (p : Char → Bool) : Scan Char := fun s =>
  match s with
  | c :: rest => if p c then some (c, rest) else none
  | [] => none

/-- One certain character. -/
def char (c : Char) : Scan Unit := do
  let _ ← one (· == c)

/-- Certain characters, one after another. -/
def chars : List Char → Scan Unit
  | [] => return ()
  | c :: rest => do
    char c
    chars rest

/-- All characters of a class that the text begins with. -/
def run (p : Char → Bool) : Scan (List Char) := fun s => some (s.takeWhile p, s.dropWhile p)

/-- At least one character of a class. -/
def run1 (p : Char → Bool) : Scan (List Char) := do
  let first ← one p
  let rest ← run p
  return first :: rest

/-- So many characters of a class. -/
def exactly (p : Char → Bool) : Nat → Scan (List Char)
  | 0 => return []
  | n + 1 => do
    let first ← one p
    let rest ← exactly p n
    return first :: rest

/-- The end of the text. -/
def finish : Scan Unit := fun s => if s.isEmpty then some ((), s) else none

/-- A text that does not go on with a character. -/
def notBefore (c : Char) : Scan Unit := fun s => if s.head? = some c then none else some ((), s)

/-! ## Repetition -/

/-- What may be there or not. -/
def perhaps (p : Scan α) : Scan (Option α) := (some <$> p) <|> pure none

/-- A repetition, for at most `count` times. -/
def repeated (p : Scan α) : (count : Nat) → Scan (List α)
  | 0 => return []
  | count + 1 => do
    match ← perhaps p with
    | none => return []
    | some first => return first :: (← repeated p count)

/-- As many repetitions as there are; each of them takes at least one character. -/
def many (p : Scan α) : Scan (List α) := fun s => repeated p s.length s

/-- Things with a separator between them. -/
def separated (p : Scan α) (separator : Scan β) : Scan (List α) := do
  match ← perhaps p with
  | none => return []
  | some first => return first :: (← many (separator *> p))

/-! ## Blanks and lines -/

/-- Whether a character is a blank or a tab. -/
def isGap (c : Char) : Bool := c == ' ' || c == '\t'

/-- Blanks and tabs. -/
def gap : Scan Unit := do
  let _ ← run isGap

/-- The end of a line. -/
def newline : Scan Unit := char '\n' <|> chars ['\r', '\n']

/-- Whether a character is beyond the ASCII range. -/
def isForeign (c : Char) : Bool := 0x80 ≤ c.toNat

/-- Whether a character may stand in a comment. -/
def isCommentChar (c : Char) : Bool := c == '\t' || (' ' ≤ c && c ≤ '~') || isForeign c

/-- A comment. -/
def comment : Scan Unit := do
  char '#'
  let _ ← run isCommentChar

/-- What may follow on a line that says something: blanks and a comment. -/
def lineRest : Scan Unit := do
  gap
  let _ ← perhaps comment
  newline <|> finish

/-- Blanks, comments and ends of lines. -/
def spread : Scan Unit := do
  let _ ← many ((do let _ ← run1 isGap) <|> newline <|> comment)

end Scan

end LogShipping.Toml
