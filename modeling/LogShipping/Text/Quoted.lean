import LogShipping.Text.Invisible

/-!
# Quoted text

A quoted text stands between double quotes. Inside, the quote, the backslash, NUL, tab, line feed
and carriage return have a two-character form, invisible characters are shown by their number in
hexadecimal, and every other character stands for itself.
-/

namespace LogShipping.Text

/-- The hexadecimal digits of a number, lower case, at least `width` of them. -/
def hexDigits (width n : Nat) : List Char :=
  let digits := Nat.toDigits 16 n
  List.replicate (width - digits.length) '0' ++ digits

/-- The written form of one character inside quotes. -/
def quoteChar (c : Char) : List Char :=
  if c = '\x00' then ['\\', '0']
  else if c = '\t' then ['\\', 't']
  else if c = '\r' then ['\\', 'r']
  else if c = '\n' then ['\\', 'n']
  else if c = '"' then ['\\', '"']
  else if c = '\\' then ['\\', '\\']
  else if isInvisible c then ['\\', 'u', '\x7b'] ++ hexDigits 1 c.toNat ++ ['\x7d']
  else [c]

/-- A text between double quotes. -/
def quote (s : String) : String :=
  String.ofList ('"' :: s.toList.flatMap quoteChar ++ ['"'])

/-- Octets in brackets, two hexadecimal digits each. -/
def octetList (bytes : List UInt8) : String :=
  "[" ++ ", ".intercalate (bytes.map fun b => String.ofList (hexDigits 2 b.toNat)) ++ "]"

/-- A number that may be absent, named as present or absent. -/
def presence : Option UInt64 → String
  | some n => s!"Some({n})"
  | none => "None"

end LogShipping.Text
