import LogShipping.Text.Utf8

/-!
# Binary format

Records and messages share one binary format: numbers have a fixed width with the least octet first,
a truth value or the presence of an option is one octet, and a text or a list is its length in eight
octets followed by its content. A `Codec` pairs the writer of a type with its reader; the reader
takes its value from the front and returns what follows, so that codecs compose.
-/

namespace LogShipping.Binary

/-! ## Faults -/

/-- Why octets do not spell a value. -/
inductive Fault where
  /-- The input ends inside a number, or before one. -/
  | endOfInput
  /-- A text is longer than what is left of the input. -/
  | shortText
  /-- A truth value that is neither 0 nor 1. -/
  | truth (found : UInt8)
  /-- A presence mark that is neither 0 nor 1. -/
  | presence (found : UInt8)
  /-- A choice beyond the last one of `count`. -/
  | choice (found : UInt32) (count : Nat)
  /-- A text that is not UTF-8. -/
  | text (fault : Utf8.Fault)
  deriving DecidableEq, Repr

/-- The text of a fault. -/
def Fault.message : Fault → String
  | .endOfInput => "io error: unexpected end of file"
  | .shortText => "io error: "
  | .truth found => s!"invalid u8 while decoding bool, expected 0 or 1, found {found}"
  | .presence found => s!"tag for enum is not valid, found {found}"
  | .choice found count =>
    s!"invalid value: integer `{found}`, expected variant index 0 <= i < {count}"
  | .text fault => s!"string is not valid utf8: {fault.message}"

/-! ## Codecs -/

/-- A written form of a type with its reader. -/
structure Codec (α : Type) where
  /-- The octets of a value. -/
  write : α → Bytes
  /-- Takes a value from the front of the input. -/
  read : Bytes → Except Fault (α × Bytes)

namespace Codec

variable {α β : Type}

/-- The value at the front of the input, whatever follows it. -/
def decode (codec : Codec α) (input : Bytes) : Except Fault α :=
  (codec.read input).map Prod.fst

/-- Numbers of a fixed width, least octet first. -/
def word (width : Nat) : Codec Nat where
  write n := Bytes.littleEndian width n
  read input :=
    let taken := input.take width
    if taken.length < width then .error .endOfInput
    else .ok (Bytes.ofLittleEndian taken, input.drop width)

/-- The written form of `β` for a type that is one to one with it. -/
def via (codec : Codec β) (forth : α → β) (back : β → α) : Codec α where
  write value := codec.write (forth value)
  read input := (codec.read input).map fun (value, rest) => (back value, rest)

/-- Single octets. -/
def octet : Codec UInt8 := (word 1).via UInt8.toNat UInt8.ofNat

/-- Numbers of four octets. -/
def word32 : Codec UInt32 := (word 4).via UInt32.toNat UInt32.ofNat

/-- Numbers of eight octets. -/
def word64 : Codec UInt64 := (word 8).via UInt64.toNat UInt64.ofNat

/-- Truth values, one octet each. -/
def truth : Codec Bool where
  write b := [if b then 1 else 0]
  read input := do
    let (mark, rest) ← octet.read input
    if mark = 0 then return (false, rest)
    else if mark = 1 then return (true, rest)
    else throw (.truth mark)

/-- One value after another. -/
def pair (first : Codec α) (second : Codec β) : Codec (α × β) where
  write value := first.write value.1 ++ second.write value.2
  read input := do
    let (a, rest) ← first.read input
    let (b, rest) ← second.read rest
    return ((a, b), rest)

/-- A value that may be absent: its presence, then the value. -/
def option (codec : Codec α) : Codec (Option α) where
  write
    | none => [0]
    | some value => 1 :: codec.write value
  read input := do
    let (mark, rest) ← octet.read input
    if mark = 0 then return (none, rest)
    else if mark = 1 then return (← codec.read rest).map some id
    else throw (.presence mark)

/-- Takes `count` values, adding them to those taken already, which come last first. -/
def readMany (codec : Codec α) : (count : Nat) → (taken : List α) → Bytes →
    Except Fault (List α × Bytes)
  | 0, taken, input => .ok (taken.reverse, input)
  | count + 1, taken, input =>
    match codec.read input with
    | .ok (value, rest) => readMany codec count (value :: taken) rest
    | .error fault => .error fault

/-- Lists: their length, then their elements. -/
def list (codec : Codec α) : Codec (List α) where
  write values := (word 8).write values.length ++ values.flatMap codec.write
  read input := do
    let (count, rest) ← (word 8).read input
    readMany codec count [] rest

/-- Byte strings, as lists of octets. -/
def octets : Codec Bytes := list octet

/-- Texts: the number of their octets, then these. -/
def text : Codec String where
  write s := (word 8).write (Bytes.ofString s).length ++ Bytes.ofString s
  read input := do
    let (count, rest) ← (word 8).read input
    let taken := rest.take count
    if taken.length < count then throw .shortText
    else
      match Utf8.decode taken with
      | .ok s => return (s, rest.drop count)
      | .error fault => throw (.text fault)

end Codec

end LogShipping.Binary
