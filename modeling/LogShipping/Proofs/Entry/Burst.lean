import LogShipping.Checksum
import Mathlib.Algebra.Group.Nat.Defs
import Mathlib.Tactic.Common

/-!
# Bursts and the redundancy check

The check tells two byte strings apart that differ within four neighbouring octets only
(`crc32_ne_of_burst`).

The idea is to look at the register alone. Shifting a bit out of it is linear in exclusive or
(`shiftBit_xor`) and, since the top bit of the polynomial is set, one to one. So what is taken in behind
the damage cannot make two registers agree again, and it is enough to look at the damage itself. Octets
that leave the register untouched on their way down to its low end can as well be folded in at once;
hence up to four octets act on the register as the one number that they spell (`foldl_absorb_eq`), and
two such numbers are different.

Nothing here depends on how long the string is, as the proof is an induction on what follows the burst
and not a table of cases. Four octets is where it ends: the register holds no more, and beyond that
there are strings that the check takes for one another. Octets that were lost or put in are not bursts
either; what those come to is left open.
-/

namespace LogShipping.Checksum

/-! ## One bit -/

theorem and_one_eq_one_iff (register : UInt32) :
    register &&& 1 = 1 ↔ register.toBitVec.getLsbD 0 = true := by
  have low : (register &&& 1).toBitVec
      = BitVec.setWidth 32 (BitVec.ofBool (register.toBitVec.getLsbD 0)) := by
    rw [UInt32.toBitVec_and]
    exact BitVec.and_one_eq_setWidth_ofBool_getLsbD
  rw [← UInt32.toBitVec_inj, low]
  cases register.toBitVec.getLsbD 0 <;> decide

/-- A bit shifted out, on the bits of the register. -/
theorem toBitVec_shiftBit (register : UInt32) :
    (shiftBit register).toBitVec =
      (register.toBitVec >>> 1) ^^^
        (if register.toBitVec.getLsbD 0 then polynomial.toBitVec else 0) := by
  simp only [shiftBit, and_one_eq_one_iff]
  split <;> simp

/-- The shift is linear. -/
theorem shiftBit_xor (a b : UInt32) : shiftBit (a ^^^ b) = shiftBit a ^^^ shiftBit b := by
  -- What is folded in is linear as well: two sets of bits that both carry the polynomial lose it.
  have folded : ∀ x y : Bool, (if x ^^ y then polynomial.toBitVec else 0) =
      (if x then polynomial.toBitVec else 0) ^^^ (if y then polynomial.toBitVec else 0) := by
    decide
  apply UInt32.toBitVec_inj.mp
  rw [UInt32.toBitVec_xor, toBitVec_shiftBit, toBitVec_shiftBit, toBitVec_shiftBit,
    UInt32.toBitVec_xor, BitVec.ushiftRight_xor_distrib, BitVec.getLsbD_xor, folded]
  ac_rfl

/-- The top bit after a shift is the bit that was shifted out. -/
theorem getLsbD_shiftBit_top (register : UInt32) :
    (shiftBit register).toBitVec.getLsbD 31 = register.toBitVec.getLsbD 0 := by
  have top : polynomial.toBitVec.getLsbD 31 = true := by decide
  rw [toBitVec_shiftBit, BitVec.getLsbD_xor, BitVec.getLsbD_ushiftRight,
    BitVec.getLsbD_of_ge _ (1 + 31) (by decide)]
  cases register.toBitVec.getLsbD 0 <;> simp [top]

theorem shiftBit_injective : Function.Injective shiftBit := by
  intro a b h
  have low : a.toBitVec.getLsbD 0 = b.toBitVec.getLsbD 0 := by
    rw [← getLsbD_shiftBit_top a, h, getLsbD_shiftBit_top b]
  have high : a.toBitVec >>> 1 = b.toBitVec >>> 1 := by
    have shifted := congrArg UInt32.toBitVec h
    rw [toBitVec_shiftBit, toBitVec_shiftBit, low] at shifted
    exact (BitVec.xor_left_inj _).mp shifted
  apply UInt32.toBitVec_inj.mp
  apply BitVec.eq_of_getLsbD_eq
  intro i _
  cases i with
  | zero => exact low
  | succ i =>
    have bit := congrArg (·.getLsbD i) high
    simpa only [BitVec.getLsbD_ushiftRight, Nat.add_comm 1 i] using bit

/-! ## Several bits -/

theorem repeat_shiftBit_xor (n : Nat) (a b : UInt32) :
    Nat.repeat shiftBit n (a ^^^ b) = Nat.repeat shiftBit n a ^^^ Nat.repeat shiftBit n b := by
  induction n with
  | zero => rfl
  | succ n ih => rw [Nat.repeat, ih, shiftBit_xor]; rfl

theorem repeat_shiftBit_injective (n : Nat) : Function.Injective (Nat.repeat shiftBit n) := by
  induction n with
  | zero => exact fun _ _ h => h
  | succ n ih => exact fun _ _ h => ih (shiftBit_injective h)

theorem repeat_shiftBit_add (m n : Nat) (register : UInt32) :
    Nat.repeat shiftBit (m + n) register
      = Nat.repeat shiftBit m (Nat.repeat shiftBit n register) := by
  induction m with
  | zero => rw [Nat.zero_add]; rfl
  | succ m ih => rw [Nat.add_right_comm, Nat.repeat, ih]; rfl

/-- A bit that is not set is shifted out without a trace. -/
theorem shiftBit_ofNat_two_mul {m : Nat} (h : 2 * m < 2 ^ 32) :
    shiftBit (UInt32.ofNat (2 * m)) = UInt32.ofNat m := by
  have low : (UInt32.ofNat (2 * m)).toBitVec.getLsbD 0 = false := by
    have parity : 2 * m % 2 ^ 32 % 2 = 0 := by omega
    show (2 * m % 2 ^ 32).testBit 0 = false
    rw [Nat.testBit_zero, parity]
    rfl
  rw [shiftBit, if_neg (by rw [and_one_eq_one_iff, low]; decide)]
  apply UInt32.toNat_inj.mp
  have half : 2 * m % 2 ^ 32 / 2 ^ 1 = m % 2 ^ 32 := by omega
  simpa [UInt32.toNat_shiftRight, Nat.shiftRight_eq_div_pow] using half

/-- Low bits that are not set are shifted out without a trace. -/
theorem repeat_shiftBit_ofNat (k : Nat) {m : Nat} (h : 2 ^ k * m < 2 ^ 32) :
    Nat.repeat shiftBit k (UInt32.ofNat (2 ^ k * m)) = UInt32.ofNat m := by
  induction k generalizing m with
  | zero => simp [Nat.repeat]
  | succ k ih =>
    have hm : 2 ^ k * (2 * m) < 2 ^ 32 := by rwa [← Nat.mul_assoc, ← Nat.pow_succ]
    have hone : 2 * m < 2 ^ 32 := Nat.lt_of_le_of_lt (Nat.le_mul_of_pos_left _ (Nat.two_pow_pos k)) hm
    rw [Nat.repeat, Nat.pow_succ, Nat.mul_assoc, ih hm, shiftBit_ofNat_two_mul hone]

/-! ## Octets -/

theorem absorb_injective (octet : UInt8) : Function.Injective (absorb · octet) := by
  intro a b h
  have := repeat_shiftBit_injective 8 h
  rwa [UInt32.xor_left_inj] at this

/-- What is taken in later cannot make two registers agree. -/
theorem foldl_absorb_injective (bytes : Bytes) :
    Function.Injective (bytes.foldl absorb ·) := by
  induction bytes with
  | nil => exact fun _ _ h => h
  | cons b rest ih => exact fun _ _ h => absorb_injective b (ih h)

theorem ofLittleEndian_lt_two_pow {bytes : Bytes} {width : Nat} (h : bytes.length ≤ width) :
    Bytes.ofLittleEndian bytes < 2 ^ (8 * width) := by
  induction bytes generalizing width with
  | nil => exact Nat.two_pow_pos _
  | cons b rest ih =>
    rw [List.length_cons] at h
    obtain ⟨width, rfl⟩ : ∃ w, width = w + 1 := ⟨width - 1, by omega⟩
    have hrest : Bytes.ofLittleEndian rest < 2 ^ (8 * width) := ih (by omega)
    have hb := b.toNat_lt
    rw [Bytes.ofLittleEndian, Nat.mul_succ, Nat.pow_add]
    omega

/-- An octet below other octets of a number occupies bits of its own. -/
theorem ofNat_octet_add (b : UInt8) (m : Nat) :
    UInt32.ofNat (b.toNat + 256 * m) = b.toUInt32 ^^^ UInt32.ofNat (2 ^ 8 * m) := by
  have hb : b.toNat < 2 ^ 8 := b.toNat_lt
  have disjoint : b.toNat + 256 * m = b.toNat ^^^ 2 ^ 8 * m := by
    apply Nat.eq_of_testBit_eq
    intro i
    rw [Nat.add_comm, show (256 : Nat) = 2 ^ 8 from rfl, Nat.testBit_two_pow_mul_add _ hb,
      Nat.testBit_xor, Nat.testBit_two_pow_mul]
    by_cases hi : i < 8
    · simp [hi, Nat.not_le.mpr hi]
    · have high : b.toNat.testBit i = false :=
        Nat.testBit_lt_two_pow (Nat.lt_of_lt_of_le hb (Nat.pow_le_pow_right (by decide) (by omega)))
      simp [hi, Nat.not_lt.mp hi, high]
  have octet : UInt32.ofNat b.toNat = b.toUInt32 := by
    apply UInt32.toNat_inj.mp
    simp only [UInt32.toNat_ofNat', UInt8.toNat_toUInt32]
    omega
  rw [disjoint, UInt32.ofNat_xor, octet]

/-- Up to four octets are taken in as the number that they spell. -/
theorem foldl_absorb_eq (register : UInt32) (bytes : Bytes) (h : bytes.length ≤ 4) :
    bytes.foldl absorb register =
      Nat.repeat shiftBit (8 * bytes.length)
        (register ^^^ UInt32.ofNat (Bytes.ofLittleEndian bytes)) := by
  induction bytes generalizing register with
  | nil => simp [Bytes.ofLittleEndian, Nat.repeat]
  | cons b rest ih =>
    rw [List.length_cons] at h
    have room : 2 ^ 8 * Bytes.ofLittleEndian rest < 2 ^ 32 := by
      have := ofLittleEndian_lt_two_pow (show rest.length ≤ 3 by omega)
      omega
    -- The later octets wait above the first one, eight places from where they act.
    have waiting : Nat.repeat shiftBit 8 (UInt32.ofNat (2 ^ 8 * Bytes.ofLittleEndian rest))
        = UInt32.ofNat (Bytes.ofLittleEndian rest) := repeat_shiftBit_ofNat 8 room
    rw [List.foldl_cons, ih _ (by omega), Bytes.ofLittleEndian, ofNat_octet_add, absorb, ← waiting,
      ← repeat_shiftBit_xor, ← repeat_shiftBit_add, UInt32.xor_assoc, List.length_cons, Nat.mul_succ]

/-- Up to four octets are known from what they make of the register. -/
theorem foldl_absorb_octets_inj {register : UInt32} {xs ys : Bytes} (hlen : xs.length = ys.length)
    (hfour : xs.length ≤ 4) (h : xs.foldl absorb register = ys.foldl absorb register) :
    xs = ys := by
  rw [foldl_absorb_eq register xs hfour, foldl_absorb_eq register ys (hlen ▸ hfour), hlen] at h
  have words := congrArg UInt32.toNat
    ((UInt32.xor_right_inj _).mp (repeat_shiftBit_injective _ h))
  have hx : Bytes.ofLittleEndian xs < 2 ^ 32 := ofLittleEndian_lt_two_pow hfour
  have hy : Bytes.ofLittleEndian ys < 2 ^ 32 := ofLittleEndian_lt_two_pow (hlen ▸ hfour)
  rw [UInt32.toNat_ofNat', UInt32.toNat_ofNat', Nat.mod_eq_of_lt hx, Nat.mod_eq_of_lt hy] at words
  rw [← Bytes.littleEndian_ofLittleEndian xs, ← Bytes.littleEndian_ofLittleEndian ys, words, hlen]

/-! ## Bursts -/

/-- The string `damaged` is as long as `bytes` and not the same, but all octets outside the four from
`start` on are. -/
structure Burst (start : Nat) (bytes damaged : Bytes) : Prop where
  length_eq : damaged.length = bytes.length
  outside : ∀ i, i < start ∨ start + 4 ≤ i → damaged[i]? = bytes[i]?
  differs : damaged ≠ bytes

namespace Burst

variable {start n : Nat} {bytes damaged : Bytes}

/-- What stands before a burst is as it was. -/
theorem take_eq (h : Burst start bytes damaged) (hn : n ≤ start) :
    damaged.take n = bytes.take n := by
  apply List.ext_getElem?
  intro i
  rw [List.getElem?_take, List.getElem?_take]
  split
  · exact h.outside i (.inl (by omega))
  · rfl

/-- What stands behind a burst is as it was. -/
theorem drop_eq (h : Burst start bytes damaged) (hn : start + 4 ≤ n) :
    damaged.drop n = bytes.drop n := by
  apply List.ext_getElem?
  intro i
  rw [List.getElem?_drop, List.getElem?_drop]
  exact h.outside (n + i) (.inr (by omega))

/-- A burst is one of the octets that are left without some of those before it. -/
theorem drop (h : Burst start bytes damaged) (hn : n ≤ start) :
    Burst (start - n) (bytes.drop n) (damaged.drop n) where
  length_eq := by rw [List.length_drop, List.length_drop, h.length_eq]
  outside i hi := by
    rw [List.getElem?_drop, List.getElem?_drop]
    exact h.outside (n + i) (by omega)
  differs heq := h.differs <| by
    rw [← List.take_append_drop n damaged, h.take_eq hn, heq, List.take_append_drop]

/-- A burst stays one behind octets that are as they were. -/
theorem append_left (front : Bytes) (h : Burst start bytes damaged) :
    Burst (front.length + start) (front ++ bytes) (front ++ damaged) where
  length_eq := by rw [List.length_append, List.length_append, h.length_eq]
  outside i hi := by
    by_cases hfront : i < front.length
    · rw [List.getElem?_append_left hfront, List.getElem?_append_left hfront]
    · rw [List.getElem?_append_right (by omega), List.getElem?_append_right (by omega)]
      exact h.outside (i - front.length) (by omega)
  differs heq := h.differs (List.append_cancel_left heq)

/-- A burst in terms of what stands before it and behind it. -/
theorem iff_parts : Burst start bytes damaged ↔
    damaged.length = bytes.length ∧ damaged.take start = bytes.take start ∧
      damaged.drop (start + 4) = bytes.drop (start + 4) ∧ damaged ≠ bytes := by
  constructor
  · intro h
    exact ⟨h.length_eq, h.take_eq (Nat.le_refl start), h.drop_eq (Nat.le_refl _), h.differs⟩
  · rintro ⟨hlen, hbefore, hbehind, hne⟩
    refine ⟨hlen, ?_, hne⟩
    rintro i (hi | hi)
    · have := congrArg (·[i]?) hbefore
      simpa only [List.getElem?_take_of_lt hi] using this
    · have := congrArg (·[i - (start + 4)]?) hbehind
      simpa only [List.getElem?_drop, Nat.add_sub_cancel' hi] using this

instance : Decidable (Burst start bytes damaged) := decidable_of_iff' _ iff_parts

end Burst

/-- **Bursts show.** A burst changes the check, however long the string is and wherever the burst. -/
theorem crc32_ne_of_burst {start : Nat} {bytes damaged : Bytes} (h : Burst start bytes damaged) :
    crc32 damaged ≠ crc32 bytes := by
  -- The register comes to the burst the same, and what follows cannot undo the difference.
  have cut : ∀ octets : Bytes, octets = octets.take start ++
      ((octets.drop start).take 4 ++ octets.drop (start + 4)) := by
    intro octets
    rw [← List.drop_drop, List.take_append_drop, List.take_append_drop]
  have hlen : ((damaged.drop start).take 4).length = ((bytes.drop start).take 4).length := by
    simp only [List.length_take, List.length_drop, h.length_eq]
  intro same
  have registers := UInt32.not_inj.mp same
  rw [cut damaged, cut bytes, h.take_eq (Nat.le_refl start), h.drop_eq (Nat.le_refl (start + 4))]
    at registers
  simp only [List.foldl_append] at registers
  have hwindow := foldl_absorb_octets_inj hlen (List.length_take_le 4 _)
    (foldl_absorb_injective _ registers)
  apply h.differs
  rw [cut damaged, cut bytes, h.take_eq (Nat.le_refl start), h.drop_eq (Nat.le_refl (start + 4)),
    hwindow]

end LogShipping.Checksum
