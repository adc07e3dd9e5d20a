import LogShipping.Bytes

/-!
# Base64

Three octets are written as four symbols of six bits each; a last group of one or two octets is
filled up with the padding symbol. Decoding takes exactly what encoding writes: it asks for the
padding, refuses any symbol that is not of the alphabet, and refuses a last symbol whose unused bits
are not zero. The first fault in reading order is reported, except that a lone last symbol outside
the alphabet is noticed before all else.
-/

namespace LogShipping.Base64

/-! ## Symbols -/

/-- The symbol that fills up the last group. -/
def padding : UInt8 := 61

/-- The symbol of a six-bit value: `A`–`Z`, `a`–`z`, `0`–`9`, `+`, `/`. -/
def symbol (value : Nat) : UInt8 :=
  if value < 26 then UInt8.ofNat (65 + value)
  else if value < 52 then UInt8.ofNat (97 + (value - 26))
  else if value < 62 then UInt8.ofNat (48 + (value - 52))
  else if value = 62 then 43
  else 47

/-- The value of a symbol of the alphabet. -/
def value? (s : UInt8) : Option Nat :=
  let n := s.toNat
  if 65 ≤ n ∧ n ≤ 90 then some (n - 65)
  else if 97 ≤ n ∧ n ≤ 122 then some (n - 97 + 26)
  else if 48 ≤ n ∧ n ≤ 57 then some (n - 48 + 52)
  else if n = 43 then some 62
  else if n = 47 then some 63
  else none

/-- Every six-bit value is read back from its symbol. -/
theorem value?_symbol : ∀ v < 64, value? (symbol v) = some v := by decide

/-! ## Faults -/

/-- Why a text is not Base64. -/
inductive Fault where
  /-- A symbol outside the alphabet, or padding where none may stand. -/
  | symbol (found : UInt8) (offset : Nat)
  /-- A last group of a single symbol; the number counts the symbols up to its end. -/
  | length (symbols : Nat)
  /-- A last symbol that carries bits which belong to no octet. -/
  | lastSymbol (found : UInt8) (offset : Nat)
  /-- A last group that is not filled up. -/
  | padding
  deriving DecidableEq, Repr

/-- The text of a fault. -/
def Fault.message : Fault → String
  | .symbol found offset => s!"Invalid symbol {found}, offset {offset}."
  | .length symbols => s!"Invalid input length: {symbols}"
  | .lastSymbol found offset => s!"Invalid last symbol {found}, offset {offset}."
  | .padding => "Invalid padding"

/-! ## Encoding -/

/-- The symbols of a byte string, last group filled up. -/
def encode : Bytes → Bytes
  | a :: b :: c :: rest =>
    let n := a.toNat * 65536 + b.toNat * 256 + c.toNat
    symbol (n / 262144) :: symbol (n / 4096 % 64) :: symbol (n / 64 % 64) :: symbol (n % 64) ::
      encode rest
  | [a, b] =>
    let n := a.toNat * 256 + b.toNat
    [symbol (n / 1024), symbol (n / 16 % 64), symbol (n % 16 * 4), padding]
  | [a] => [symbol (a.toNat / 4), symbol (a.toNat % 4 * 16), padding, padding]
  | [] => []

/-! ## Decoding -/

/-- Splits the last group, which starts at `start`, into the values of its symbols and the number of
padding symbols after them. -/
def scanLast (start : Nat) (values : List Nat) (pads : Nat) : Bytes → Except Fault (List Nat × Nat)
  | [] => .ok (values, pads)
  | s :: rest =>
    if s = padding then
      -- Padding stands behind two symbols at least.
      if values.length + pads < 2 then .error (.symbol s (start + values.length + pads))
      else scanLast start values (pads + 1) rest
    -- A symbol behind padding: the padding is what is out of place.
    else if 0 < pads then .error (.symbol padding (start + values.length))
    else
      match value? s with
      | none => .error (.symbol s (start + values.length))
      | some v => scanLast start (values ++ [v]) 0 rest

/-- The octets of a last group that starts at `start`. -/
def finish (start : Nat) : List Nat × Nat → Except Fault Bytes
  | ([], _) => .ok []
  | ([_], _) => .error (.length (start + 1))
  | ([a, b], pads) =>
    if pads ≠ 2 then .error .padding
    else if b % 16 ≠ 0 then .error (.lastSymbol (symbol b) (start + 1))
    else .ok [UInt8.ofNat (a * 4 + b / 16)]
  | ([a, b, c], pads) =>
    if pads ≠ 1 then .error .padding
    else if c % 4 ≠ 0 then .error (.lastSymbol (symbol c) (start + 2))
    else
      let n := a * 1024 + b * 16 + c / 4
      .ok [UInt8.ofNat (n / 256), UInt8.ofNat n]
  | (a :: b :: c :: d :: _, _) =>
    let n := a * 262144 + b * 4096 + c * 64 + d
    .ok [UInt8.ofNat (n / 65536), UInt8.ofNat (n / 256), UInt8.ofNat n]

/-- The value of the symbol at `offset`. -/
def valueAt (offset : Nat) (s : UInt8) : Except Fault Nat :=
  match value? s with
  | some v => .ok v
  | none => .error (.symbol s offset)

/-- Decodes symbols whose offset in the whole text is `start`; `octets` holds what is decoded
already, last octet first. -/
def decodeFrom (start : Nat) (octets : Bytes) : Bytes → Except Fault Bytes
  | a :: b :: c :: d :: e :: rest => do
    let a ← valueAt start a
    let b ← valueAt (start + 1) b
    let c ← valueAt (start + 2) c
    let d ← valueAt (start + 3) d
    let n := a * 262144 + b * 4096 + c * 64 + d
    decodeFrom (start + 4)
      (UInt8.ofNat n :: UInt8.ofNat (n / 256) :: UInt8.ofNat (n / 65536) :: octets) (e :: rest)
  | last => do
    let group ← scanLast start [] 0 last
    let tail ← finish start group
    return octets.reverse ++ tail

/-- The octets written by a text, or its first fault. -/
def decode (text : Bytes) : Except Fault Bytes :=
  match text.getLast? with
  | none => .ok []
  | some last =>
    if text.length % 4 = 1 ∧ last ≠ padding ∧ value? last = none then
      .error (.symbol last (text.length - 1))
    else decodeFrom 0 [] text

end LogShipping.Base64
