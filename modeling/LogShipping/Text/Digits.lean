/-!
# Digits

Whole numbers as texts of digits, the most significant first. Letters of either case stand for the
values from ten on.
-/

namespace LogShipping.Text

/-- The value of a character as a digit. -/
def digitValue (c : Char) : Option Nat :=
  if '0' ≤ c ∧ c ≤ '9' then some (c.toNat - '0'.toNat)
  else if 'a' ≤ c ∧ c ≤ 'z' then some (c.toNat - 'a'.toNat + 10)
  else if 'A' ≤ c ∧ c ≤ 'Z' then some (c.toNat - 'A'.toNat + 10)
  else none

/-- The value of a digit of a base. -/
def digit? (base : Nat) (c : Char) : Option Nat := (digitValue c).filter (· < base)

/-- The number that digits spell after those that spell `value`. -/
def appendDigits? (base value : Nat) : List Char → Option Nat
  | [] => some value
  | c :: rest => (digit? base c).bind fun d => appendDigits? base (value * base + d) rest

/-- The number that at least one digit spells. -/
def ofDigits? (base : Nat) (chars : List Char) : Option Nat :=
  if chars.isEmpty then none else appendDigits? base 0 chars

/-- The decimal number of 32 bits that a text spells; it may begin with a plus sign. -/
def word32? (s : String) : Option UInt32 :=
  let digits := match s.toList with
    | '+' :: rest => rest
    | chars => chars
  ((ofDigits? 10 digits).filter (· < UInt32.size)).map UInt32.ofNat

end LogShipping.Text
