import LogShipping.Bytes

/-!
# Cyclic redundancy check

The 32-bit check of the reflected polynomial `0xEDB88320` (IEEE 802.3): the register starts with all
bits set, takes in the octets from the least bit on, and is complemented at the end. Each bit step is
a bijection of the register, which is why a change within four neighbouring octets always shows.
-/

namespace LogShipping.Checksum

/-- The reflected generator polynomial. -/
def polynomial : UInt32 := 0xEDB88320

/-- Shifts one bit out of the register, folding the polynomial in when that bit is set. -/
def shiftBit (register : UInt32) : UInt32 :=
  if register &&& 1 = 1 then (register >>> 1) ^^^ polynomial else register >>> 1

/-- Takes one octet into the register. -/
def absorb (register : UInt32) (octet : UInt8) : UInt32 :=
  Nat.repeat shiftBit 8 (register ^^^ octet.toUInt32)

/-- The check of a byte string. -/
def crc32 (bytes : Bytes) : UInt32 := ~~~ bytes.foldl absorb 0xFFFFFFFF

/-- The check value that identifies this polynomial: that of the digits `1` to `9`. -/
example : crc32 (Bytes.ofString "123456789") = 0xCBF43926 := by decide +kernel

end LogShipping.Checksum
