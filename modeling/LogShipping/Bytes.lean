/-!
# Byte strings

Keys, values and messages are byte strings, kept as lists so that prefixes, concatenation and
induction are those of lists. They are ordered bytewise from the left, a proper beginning first,
which is the order `compare` has on lists of octets.

Whole numbers enter byte strings in a fixed width, with the least octet first (`littleEndian`, in
messages and records) or last (`bigEndian`, in keys, where it makes the order of the bytes the order
of the numbers). Main statements: `littleEndian` has the width asked for, and reading it back gives
the number modulo `values width`.
-/

namespace LogShipping

/-- A string of octets, ordered bytewise from the left. -/
abbrev Bytes := List UInt8

namespace Bytes

/-! ## Strings as octets -/

/-- The UTF-8 octets of a string. -/
def ofString (s : String) : Bytes := s.toUTF8.data.toList

/-! ## Fixed-width numbers -/

/-- How many numbers there are of a width in octets. -/
def values : (width : Nat) → Nat
  | 0 => 1
  | width + 1 => 256 * values width

/-- The lowest `width` octets of `n`, the least one first. -/
def littleEndian : (width : Nat) → (n : Nat) → Bytes
  | 0, _ => []
  | width + 1, n => UInt8.ofNat n :: littleEndian width (n / 256)

/-- The number whose octets, least one first, are `bytes`. -/
def ofLittleEndian : (bytes : Bytes) → Nat
  | [] => 0
  | b :: rest => b.toNat + 256 * ofLittleEndian rest

/-- The lowest `width` octets of `n`, the least one last. -/
def bigEndian (width n : Nat) : Bytes := (littleEndian width n).reverse

/-- The number whose octets, least one last, are `bytes`. -/
def ofBigEndian (bytes : Bytes) : Nat := ofLittleEndian bytes.reverse

@[simp] theorem length_littleEndian (width n : Nat) : (littleEndian width n).length = width := by
  induction width generalizing n with
  | zero => rfl
  | succ width ih => simp [littleEndian, ih]

@[simp] theorem length_bigEndian (width n : Nat) : (bigEndian width n).length = width := by
  simp [bigEndian]

/-- A width that is too small keeps the remainder. -/
theorem ofLittleEndian_littleEndian (width n : Nat) :
    ofLittleEndian (littleEndian width n) = n % values width := by
  induction width generalizing n with
  | zero => simp [littleEndian, ofLittleEndian, values, Nat.mod_one]
  | succ width ih =>
    have octet : (UInt8.ofNat n).toNat = n % 256 := by simp
    rw [littleEndian, ofLittleEndian, ih, octet, values, Nat.mod_mul]

/-- Octets determine, and are determined by, the number they spell. -/
theorem littleEndian_ofLittleEndian (bytes : Bytes) :
    littleEndian bytes.length (ofLittleEndian bytes) = bytes := by
  induction bytes with
  | nil => rfl
  | cons b rest ih =>
    have hb : b.toNat < 256 := b.toNat_lt
    have hdiv : (b.toNat + 256 * ofLittleEndian rest) / 256 = ofLittleEndian rest := by omega
    have hoct : UInt8.ofNat (b.toNat + 256 * ofLittleEndian rest) = b := by
      apply UInt8.toNat_inj.mp
      rw [UInt8.toNat_ofNat']
      omega
    simp [littleEndian, ofLittleEndian, hdiv, hoct, ih]

/-- Octets spell one of the numbers of their width. -/
theorem ofLittleEndian_lt (bytes : Bytes) : ofLittleEndian bytes < values bytes.length := by
  induction bytes with
  | nil => simp [ofLittleEndian, values]
  | cons b rest ih =>
    have hb : b.toNat < 256 := b.toNat_lt
    simp only [ofLittleEndian, List.length_cons, values]
    omega

/-- A width that is too small keeps the remainder. -/
theorem ofBigEndian_bigEndian (width n : Nat) :
    ofBigEndian (bigEndian width n) = n % values width := by
  simp [ofBigEndian, bigEndian, ofLittleEndian_littleEndian]

end Bytes

end LogShipping
