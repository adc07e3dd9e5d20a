import LogShipping.Text.Digits
import LogShipping.Toml.Scan

/-!
# Numbers and times

Whole numbers have 64 bits and are written in base ten, sixteen, eight or two; reals in base ten with
a fraction or an exponent, or by name; times as dates, times of day, or both, perhaps with a distance
from universal time. An underscore may stand between two digits. Only whole numbers are evaluated:
reals and times are kept as they are written, once it is clear that they are well formed.
-/

namespace LogShipping.Toml.Scan

/-! ## Digits -/

/-- Whether a character is a digit of a base. -/
def isDigit (base : Nat) (c : Char) : Bool := (Text.digit? base c).isSome

/-- Digits, perhaps with underscores between them; the result is the digits. -/
def digits (base : Nat) : Scan (List Char) := do
  let first ← one (isDigit base)
  let rest ← many do
    let _ ← perhaps (char '_')
    one (isDigit base)
  return first :: rest

/-- A sign; the result is whether it is a minus. -/
def sign : Scan Bool := (char '-' *> pure true) <|> (char '+' *> pure false)

/-- Digits of a whole number in base ten, which has no zero in front of others. -/
def wholeDigits : Scan (List Char) := do
  match ← perhaps (char '0') with
  | some () => return ['0']
  | none => digits 10

/-! ## Whole numbers -/

/-- A number if it has 64 bits. -/
def inRange (n : Int) : Scan Int :=
  if Int64.minValue.toInt ≤ n ∧ n ≤ Int64.maxValue.toInt then return n else failure

/-- A whole number in another base than ten. -/
def based (mark : Char) (base : Nat) : Scan Int := do
  chars ['0', mark]
  inRange ((Text.ofDigits? base (← digits base)).getD 0)

/-- A whole number in base ten. -/
def decimal : Scan Int := do
  let negative ← perhaps sign
  let n : Int := (Text.ofDigits? 10 (← wholeDigits)).getD 0
  inRange (if negative = some true then -n else n)

/-- A whole number. -/
def integer : Scan Int := based 'x' 16 <|> based 'o' 8 <|> based 'b' 2 <|> decimal

/-! ## Reals -/

/-- The digits of a real without its sign, in which the point stands before the last `places`, and the
exponent of ten that goes with them. -/
structure RealDigits where
  /-- The digits. -/
  mantissa : Nat
  /-- The digits behind the point. -/
  places : Nat
  /-- The exponent. -/
  exponent : Int

/-- An exponent. -/
def exponent : Scan Int := do
  let _ ← one fun c => c == 'e' || c == 'E'
  let negative ← perhaps sign
  let n : Int := (Text.ofDigits? 10 (← digits 10)).getD 0
  return if negative = some true then -n else n

/-- The fraction and the exponent of a real, one of which may be missing. -/
def realEnding : Scan (List Char × Int) :=
  (do
    char '.'
    let fraction ← digits 10
    return (fraction, (← perhaps exponent).getD 0)) <|> (do return ([], ← exponent))

/-- The least number above all that have 64 bits as a real, as a whole number: halfway from the
greatest of them to the next that would follow. -/
def realBound : Nat := (1 <<< 1024) - (1 <<< 970)

/-- A power of ten. -/
def tenTo (n : Nat) : Nat := Nat.pow 10 n

/-- Whether digits spell a number that 64 bits can hold. The number of digits decides this unless it is
close to that of the bound. -/
def RealDigits.isFinite (r : RealDigits) : Bool :=
  let shift : Int := r.exponent - r.places
  let size : Int := (Nat.toDigits 10 r.mantissa).length + shift
  if r.mantissa = 0 ∨ size < 300 then true
  else if 320 < size then false
  else r.mantissa * tenTo shift.toNat < realBound * tenTo (-shift).toNat

/-- A real in digits. One that is too large is refused, if it is positive. -/
def realInDigits : Scan Unit := do
  let negative ← perhaps sign
  let whole ← wholeDigits
  let (fraction, exponent) ← realEnding
  let mantissa := (Text.ofDigits? 10 (whole ++ fraction)).getD 0
  let r : RealDigits := ⟨mantissa, fraction.length, exponent⟩
  if negative = some true || r.isFinite then return () else failure

/-- A real by name. -/
def namedReal : Scan Unit := do
  let _ ← perhaps sign
  chars "inf".toList <|> chars "nan".toList

/-! ## Times -/

/-- A number in so many digits, between two bounds. -/
def bounded (width low high : Nat) : Scan Nat := do
  let n := (Text.ofDigits? 10 (← exactly (isDigit 10) width)).getD 0
  if low ≤ n ∧ n ≤ high then return n else failure

/-- The number of days of a month. -/
def daysOf (year month : Nat) : Nat :=
  if month = 2 then
    if year % 4 = 0 ∧ (year % 100 ≠ 0 ∨ year % 400 = 0) then 29 else 28
  else if month = 4 ∨ month = 6 ∨ month = 9 ∨ month = 11 then 30
  else 31

/-- A date. -/
def date : Scan Unit := do
  let year ← bounded 4 0 9999
  char '-'
  let month ← bounded 2 1 12
  char '-'
  let _ ← bounded 2 1 (daysOf year month)

/-- A time of day. -/
def timeOfDay : Scan Unit := do
  let _ ← bounded 2 0 23
  char ':'
  let _ ← bounded 2 0 59
  char ':'
  let _ ← bounded 2 0 60
  let _ ← perhaps (char '.' *> run1 (isDigit 10))

/-- The distance from universal time. -/
def offset : Scan Unit :=
  (do let _ ← one fun c => c == 'Z' || c == 'z') <|> do
    let _ ← sign
    let _ ← bounded 2 0 23
    char ':'
    let _ ← bounded 2 0 59

/-- A date, a time of day, or both. -/
def moment : Scan Unit :=
  (do
    date
    let _ ← perhaps do
      let _ ← one fun c => c == 'T' || c == 't' || c == ' '
      timeOfDay
      perhaps offset) <|> timeOfDay

end LogShipping.Toml.Scan
