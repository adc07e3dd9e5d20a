import LogShipping.Text.Digits
import LogShipping.Toml.Scan

/-!
# Texts and keys

A text stands between double quotes, where a backslash begins an escape, or between single quotes,
where every character stands for itself; three quotes instead of one allow it to go over lines. A key
is a text on one line, or bare, or several of them with dots between.
-/

namespace LogShipping.Toml

open Scan

namespace Scan

/-! ## Escapes -/

/-- The character that a hexadecimal number names, if it names one. -/
def charOfHex? (digits : List Char) : Option Char := do
  let n ← Text.ofDigits? 16 digits
  if n.isValidChar then some (Char.ofNat n) else none

/-- A character by its number in so many hexadecimal digits. -/
def numbered (width : Nat) : Scan Char := do
  let digits ← exactly (fun c => (Text.digit? 16 c).isSome) width
  match charOfHex? digits with
  | some c => return c
  | none => failure

/-- The characters that a backslash and one character stand for. -/
def shortEscapes : List (Char × Char) :=
  [('b', '\x08'), ('t', '\t'), ('n', '\n'), ('f', '\x0c'), ('r', '\r'), ('"', '"'), ('\\', '\\')]

/-- An escape. -/
def escaped : Scan Char := do
  char '\\'
  let c ← one fun _ => true
  if c = 'u' then numbered 4
  else if c = 'U' then numbered 8
  else
    match shortEscapes.lookup c with
    | some meant => return meant
    | none => failure

/-! ## Texts -/

/-- Whether a character stands for itself between double quotes. -/
def isPlain (c : Char) : Bool := isCommentChar c && c != '"' && c != '\\'

/-- Whether a character stands for itself between single quotes. -/
def isLiteral (c : Char) : Bool := isCommentChar c && c != '\''

/-- A text on one line between double quotes. -/
def basicText : Scan (List Char) := do
  char '"'
  let content ← many (one isPlain <|> escaped)
  char '"'
  return content

/-- A text on one line between single quotes. -/
def literalText : Scan (List Char) := do
  char '\''
  let content ← run isLiteral
  char '\''
  return content

/-- The end of a line inside a text, which is a line feed however it is written. -/
def lineBreak : Scan (List Char) := do
  newline
  return ['\n']

/-- A backslash at the end of a line, with all blanks and line ends that follow. -/
def joint : Scan (List Char) := do
  char '\\'
  gap
  newline
  let _ ← many ((do let _ ← run1 isGap) <|> newline)
  return []

/-- One or two quotes inside a text that ends with three. -/
def innerQuotes (quote : Char) : Scan (List Char) := do
  -- Three of them would be the end of the text.
  let quotes ← run1 (· == quote)
  if quotes.length < 3 then return quotes else failure

/-- The three quotes at the end of a text; up to two quotes before them belong to the text. -/
def closing (quote : Char) : Scan (List Char) := do
  chars [quote, quote, quote]
  (chars [quote, quote] *> pure [quote, quote]) <|> (char quote *> pure [quote]) <|> pure []

/-- A text over lines, out of its pieces. A line end right at the beginning does not count. -/
def longText (quote : Char) (piece : Scan (List Char)) : Scan (List Char) := do
  chars [quote, quote, quote]
  let _ ← perhaps newline
  let content ← many (piece <|> lineBreak <|> innerQuotes quote)
  let last ← closing quote
  return content.flatten ++ last

/-- A text over lines between double quotes. -/
def longBasicText : Scan (List Char) :=
  longText '"' (run1 isPlain <|> joint <|> (do return [← escaped]))

/-- A text over lines between single quotes. -/
def longLiteralText : Scan (List Char) := longText '\'' (run1 isLiteral)

/-- A text of any kind. -/
def text : Scan String :=
  String.ofList <$> (longBasicText <|> basicText <|> longLiteralText <|> literalText)

/-! ## Keys -/

/-- Whether a character may stand in a bare key. -/
def isBare (c : Char) : Bool :=
  ('a' ≤ c && c ≤ 'z') || ('A' ≤ c && c ≤ 'Z') || ('0' ≤ c && c ≤ '9') || c == '-' || c == '_'

/-- A key without dots. -/
def simpleKey : Scan String := String.ofList <$> (basicText <|> literalText <|> run1 isBare)

/-- The number of parts that a key must stay below. -/
def keyLimit : Nat := 80

/-- A key, in its parts. -/
def key : Scan (List String) := do
  let parts ← separated (gap *> simpleKey <* gap) (char '.')
  if parts.isEmpty || keyLimit ≤ parts.length then failure else return parts

end Scan

end LogShipping.Toml
