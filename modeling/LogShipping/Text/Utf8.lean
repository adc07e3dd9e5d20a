import LogShipping.Bytes

/-!
# UTF-8 text in byte strings

`decode` turns octets into a string when they are UTF-8 and otherwise says where and how they fail.
The first failing sequence is either cut short by the end of the input or ruled out by an octet; the
second case counts the octets before that one, at least one. Main statement: `decode` accepts
exactly the octets of strings.
-/

namespace LogShipping.Utf8

/-! ## Faults -/

/-- Why octets are not UTF-8: the place of the first sequence that fails, and how it fails. -/
inductive Fault where
  /-- The sequence at `index` fails after `length` octets. -/
  | invalid (length index : Nat)
  /-- The input ends inside the sequence at `index`. -/
  | incomplete (index : Nat)
  deriving DecidableEq, Repr

/-- The text of a fault. -/
def Fault.message : Fault → String
  | .invalid length index => s!"invalid utf-8 sequence of {length} bytes from index {index}"
  | .incomplete index => s!"incomplete utf-8 byte sequence from index {index}"

/-! ## Sequences -/

/-- The ranges that the octets after the first one have to lie in, for each first octet that may
begin a sequence. -/
def followers (first : UInt8) : Option (List (UInt8 × UInt8)) :=
  if first < 0x80 then some []
  else if first < 0xC2 then none
  else if first < 0xE0 then some [(0x80, 0xBF)]
  else if first = 0xE0 then some [(0xA0, 0xBF), (0x80, 0xBF)]
  else if first = 0xED then some [(0x80, 0x9F), (0x80, 0xBF)]
  else if first < 0xF0 then some [(0x80, 0xBF), (0x80, 0xBF)]
  else if first = 0xF0 then some [(0x90, 0xBF), (0x80, 0xBF), (0x80, 0xBF)]
  else if first < 0xF4 then some [(0x80, 0xBF), (0x80, 0xBF), (0x80, 0xBF)]
  else if first = 0xF4 then some [(0x80, 0x8F), (0x80, 0xBF), (0x80, 0xBF)]
  else none

/-- Where a sequence that began at `index` fails, `seen` octets of it being read already: `none`
when it is complete. -/
def faultIn (index : Nat) : (seen : Nat) → List (UInt8 × UInt8) → Bytes → Option Fault
  | _, [], _ => none
  | _, _ :: _, [] => some (.incomplete index)
  | seen, (low, high) :: ranges, b :: rest =>
    if low ≤ b ∧ b ≤ high then faultIn index (seen + 1) ranges rest
    else some (.invalid seen index)

/-- The first fault of octets whose position in the whole input is `index`. Octets that continue a
sequence already checked are skipped. -/
def firstFault : (index skip : Nat) → Bytes → Option Fault
  | _, _, [] => none
  | index, skip + 1, _ :: rest => firstFault (index + 1) skip rest
  | index, 0, b :: rest =>
    match followers b with
    | none => some (.invalid 1 index)
    | some ranges =>
      match faultIn index 1 ranges rest with
      | some fault => some fault
      | none => firstFault (index + 1) ranges.length rest

/-! ## Decoding -/

/-- The string whose octets these are, or the first fault. -/
def decode (bytes : Bytes) : Except Fault String :=
  match String.fromUTF8? ⟨bytes.toArray⟩ with
  | some s => .ok s
  | none => .error ((firstFault 0 0 bytes).getD (.incomplete bytes.length))

/-- Decoding accepts exactly the octets of strings. -/
theorem decode_eq_ok_iff {bytes : Bytes} {s : String} :
    decode bytes = .ok s ↔ bytes = Bytes.ofString s := by
  unfold decode
  constructor
  · intro h
    split at h
    · next t ht =>
      cases h
      simp only [String.fromUTF8?] at ht
      split at ht
      · cases ht
        simp [Bytes.ofString, String.toUTF8, String.fromUTF8]
      · cases ht
    · cases h
  · rintro rfl
    have octets : String.fromUTF8? ⟨(Bytes.ofString s).toArray⟩ = some s := by
      have valid : (ByteArray.mk s.toUTF8.data).IsValidUTF8 := s.isValidUTF8
      simp only [Bytes.ofString, String.fromUTF8?, Array.toArray_toList]
      exact dif_pos valid
    rw [octets]

end LogShipping.Utf8
