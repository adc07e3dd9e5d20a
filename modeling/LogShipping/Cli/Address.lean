import LogShipping.Bytes
import LogShipping.Text.Digits

/-!
# Addresses to listen at

An address is a host and a port with a colon between them. A host is a name or a number of version 4 or
6 of the internet protocol; a number of version 4 has one to four parts, of which the last fills all the
octets that the others leave, and a part may be decimal, octal behind a zero, or hexadecimal. Only a
host that stands for the machine itself can be listened at.
-/

namespace LogShipping.Cli

/-! ## Version 4 -/

/-- The value of a part of a number. -/
def partValue? : List Char → Option Nat
  | '0' :: 'x' :: digits | '0' :: 'X' :: digits => Text.ofDigits? 16 digits
  | '0' :: digits => Text.appendDigits? 8 0 digits
  | digits => Text.ofDigits? 10 digits

/-- The number that parts spell after those that spell `value`, when `room` octets are left. -/
def appendParts? : (room value : Nat) → List Nat → Option Nat
  | room + 1, value, [last] =>
    if last < Bytes.values (room + 1) then some (value * Bytes.values (room + 1) + last) else none
  | room + 1, value, first :: rest =>
    if first < 256 then appendParts? room (value * 256 + first) rest else none
  | _, _, _ => none

/-- The number of version 4 that a text spells. -/
def shortNumber? (text : String) : Option Nat := do
  appendParts? 4 0 (← (text.splitOn ".").mapM fun part => partValue? part.toList)

/-- Whether a number of version 4 can be listened at: the machine itself, any of its numbers, all
machines near, or a group of them. -/
def isLocalNumber (n : Nat) : Bool :=
  n == 0 || n / Bytes.values 3 == 127 || n / Bytes.values 3 / 16 == 14 || n + 1 == Bytes.values 4

/-! ## Version 6 -/

/-- The number of version 4 at the end of one of version 6: four decimal parts without needless zeros. -/
def tailNumber? (text : String) : Option Nat := do
  let parts := text.splitOn "."
  if parts.any fun part => part.startsWith "0" && part != "0" then none
  else appendParts? 4 0 (← parts.mapM fun part => (Text.ofDigits? 10 part.toList).filter (· < 256))

/-- The values of groups. -/
def groupValues? : List String → Option (List Nat)
  | [] => some []
  | group :: rest => do
    if rest.isEmpty && group.contains '.' then
      let n ← tailNumber? group
      return [n / Bytes.values 2, n % Bytes.values 2]
    else
      if 4 < group.length then none
      let value ← Text.ofDigits? 16 group.toList
      return value :: (← groupValues? rest)

/-- The groups of a text; an empty one has none. -/
def groupsOf? (text : String) : Option (List Nat) :=
  if text.isEmpty then some [] else groupValues? (text.splitOn ":")

/-- The eight groups of a number of version 6. Two colons stand for as many zeros as are missing. -/
def groups? (text : String) : Option (List Nat) :=
  match text.splitOn "::" with
  | [whole] => (groupsOf? whole).filter (·.length == 8)
  | [front, back] => do
    let before ← if front.contains '.' then none else groupsOf? front
    let after ← groupsOf? back
    let missing := 8 - (before.length + after.length)
    if missing = 0 then none else return before ++ List.replicate missing 0 ++ after
  | _ => none

/-- Whether groups can be listened at. -/
def areLocalGroups : List Nat → Bool
  | [0, 0, 0, 0, 0, 0, 0, last] => last ≤ 1
  | [0, 0, 0, 0, 0, 0xFFFF, high, low] => isLocalNumber (high * Bytes.values 2 + low)
  | _ => false

/-! ## Hosts and ports -/

/-- Whether a host stands for the machine itself. -/
def isLocalHost (host : String) : Bool :=
  host.toLower == "localhost" || (shortNumber? host).any isLocalNumber ||
    (groups? host).any areLocalGroups

/-- Whether a text is a number of 16 bits. -/
def isPort (text : String) : Bool := ((Text.word32? text).filter (· < 65536)).isSome

/-- Whether an address has a port of the machine itself. A number of version 6 may stand in brackets,
and the port behind them has digits alone. -/
def isLocalAddress (address : String) : Bool :=
  match (address.splitOn ":").reverse with
  | [] => false
  | port :: words =>
    let host := ":".intercalate words.reverse
    if host.startsWith "[" && host.endsWith "]" then
      let inner := String.ofList ((host.toList.drop 1).dropLast)
      isPort port && !port.startsWith "+" && (groups? inner).any areLocalGroups
    else isPort port && isLocalHost host

end LogShipping.Cli
