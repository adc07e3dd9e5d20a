import LogShipping.Key
import LogShipping.Store.Rows
import Mathlib.Data.List.Sort
import Mathlib.Order.Basic

/-!
# Order of keys

Keys are compared bytewise from the left. Because the least octet of a sequence number comes last, this
compares the partitions first, then the sequence numbers as numbers, then the suffixes
(`compare_encode`). So two keys agree only in all three parts (`encode_inj`), and all keys of a
partition stand between its fence and the fence of the next one.

The order of octets is the lexicographic one (`before_iff_lt`), and for two numbers of the same width it
is the order of the numbers (`compare_bigEndian_append`), by induction on the width, from the last octet
on. The suffix comes after eight octets in any case, so it need not have a length of its own, and it is
never taken for a part of the number.

The rows of a store stand in this order. Rows in order have every row once and are determined by what
they are (`eq_of_increasing`), which is how two stores are compared in what follows: it is enough that
they hold the same rows.
-/

namespace LogShipping

open Std

namespace Bytes

/-! ## Strings of octets -/

theorem before_iff {a b : Bytes} : before a b = true ↔ compare a b = .lt := by
  rw [before]
  cases compare a b <;> decide

/-- To come before is to be less in the lexicographic order of the octets. -/
theorem before_iff_lt {a b : Bytes} : before a b = true ↔ a < b := by
  rw [before_iff]
  induction a generalizing b with
  | nil => cases b <;> simp
  | cons x a ih =>
    cases b with
    | nil => simp
    | cons y b =>
      rw [List.compare_cons_cons, Ordering.then_eq_lt, compare_eq_lt, LawfulEqOrd.compare_eq_iff_eq,
        ih, List.cons_lt_cons_iff]

theorem not_before_self (a : Bytes) : before a a = false := by
  have h : compare a a = .eq := ReflCmp.compare_self
  rw [before, h]
  rfl

theorem before_trans {a b c : Bytes} (hab : before a b = true) (hbc : before b c = true) :
    before a c = true := by
  rw [before_iff] at *
  exact TransCmp.lt_trans hab hbc

/-- Of two strings only one comes before the other. -/
theorem before_asymm {a b : Bytes} (h : before a b = true) : before b a = false := by
  rw [Bool.eq_false_iff]
  intro hback
  have hself := before_trans h hback
  rw [not_before_self] at hself
  cases hself

/-- Of two strings one comes first, unless they are the same. -/
theorem before_total (a b : Bytes) : before a b = true ∨ a = b ∨ before b a = true := by
  simp only [before_iff]
  cases h : compare a b with
  | lt => exact Or.inl rfl
  | eq => exact Or.inr (Or.inl (LawfulEqCmp.eq_of_compare h))
  | gt => exact Or.inr (Or.inr (OrientedCmp.gt_iff_lt.mp h))

/-! ## Numbers of a fixed width -/

theorem bigEndian_succ (width n : Nat) :
    bigEndian (width + 1) n = bigEndian width (n / 256) ++ [UInt8.ofNat n] := by
  simp [bigEndian, littleEndian]

/-- Comparing the last octets after all others compares the numbers. -/
theorem compare_div_then_mod (m n : Nat) :
    (compare (m / 256) (n / 256)).then (compare (UInt8.ofNat m) (UInt8.ofNat n)) = compare m n := by
  have octet (k : Nat) : (UInt8.ofNat k).toNat = k % 256 := by simp
  have octets : compare (UInt8.ofNat m) (UInt8.ofNat n) = compare (m % 256) (n % 256) := by
    rw [← octet m, ← octet n]
    simp only [compare, compareOfLessAndEq, UInt8.lt_iff_toNat_lt, ← UInt8.toNat_inj]
  rw [octets]
  rcases Nat.lt_trichotomy (m / 256) (n / 256) with h | h | h
  · have hmn : m < n := by omega
    rw [Nat.compare_eq_lt.mpr h, Nat.compare_eq_lt.mpr hmn]
    rfl
  · rw [Nat.compare_eq_eq.mpr h, Ordering.eq_then]
    rcases Nat.lt_trichotomy (m % 256) (n % 256) with h' | h' | h'
    · have hmn : m < n := by omega
      rw [Nat.compare_eq_lt.mpr h', Nat.compare_eq_lt.mpr hmn]
    · have hmn : m = n := by omega
      rw [Nat.compare_eq_eq.mpr h', Nat.compare_eq_eq.mpr hmn]
    · have hnm : n < m := by omega
      rw [Nat.compare_eq_gt.mpr h', Nat.compare_eq_gt.mpr hnm]
  · have hnm : n < m := by omega
    rw [Nat.compare_eq_gt.mpr h, Nat.compare_eq_gt.mpr hnm]
    rfl

/-- With the least octet last, the order of the octets is the order of the numbers. -/
theorem compare_bigEndian_append {width m n : Nat} (hm : m < values width) (hn : n < values width)
    (x y : Bytes) :
    compare (bigEndian width m ++ x) (bigEndian width n ++ y) =
      (compare m n).then (compare x y) := by
  induction width generalizing m n x y with
  | zero =>
    simp only [values, Nat.lt_one_iff] at hm hn
    subst hm hn
    rw [Nat.compare_eq_eq.mpr rfl]
    rfl
  | succ width ih =>
    simp only [values] at hm hn
    rw [bigEndian_succ, bigEndian_succ, List.append_assoc, List.append_assoc,
      ih (by omega) (by omega), List.singleton_append, List.singleton_append,
      List.compare_cons_cons, ← Ordering.then_assoc, compare_div_then_mod]

end Bytes

namespace Rows

/-! ## Rows in the order of their keys -/

/-- Rows in order have every row once. -/
theorem nodup_of_increasing {rows : List Row} (increasing : rows.Pairwise fun a b => a.1 < b.1) :
    rows.Nodup := by
  refine List.Pairwise.imp ?_ increasing
  rintro a b hlt rfl
  exact List.lt_irrefl a.1 hlt

/-- Rows in order are determined by what they are. -/
theorem eq_of_increasing {rows rows' : List Row}
    (increasing : rows.Pairwise fun a b => a.1 < b.1)
    (increasing' : rows'.Pairwise fun a b => a.1 < b.1) (hsame : ∀ row, row ∈ rows ↔ row ∈ rows') :
    rows = rows' := by
  have hirrefl : Std.Irrefl fun a b : Row => a.1 < b.1 := ⟨fun row => List.lt_irrefl row.1⟩
  have hantisymm : Std.Antisymm fun a b : Row => a.1 < b.1 :=
    ⟨fun a b hab hba => absurd hba (List.lt_asymm hab)⟩
  exact increasing.eq_of_mem_iff increasing' hsame

end Rows

namespace Key

/-! ## Keys -/

/-- Keys are ordered by partition, then by sequence number, then by suffix. -/
theorem compare_encode (p q : Partition) (s t : UInt64) (x y : Bytes) :
    compare (encode p s x) (encode q t y) =
      (compare p.tag q.tag).then ((compare s.toNat t.toNat).then (compare x y)) := by
  have bound (n : UInt64) : n.toNat < Bytes.values 8 := n.toNat_lt
  simp only [encode, List.cons_append, List.compare_cons_cons,
    Bytes.compare_bigEndian_append (bound s) (bound t)]

/-- A key has one partition, one sequence number and one suffix. -/
theorem encode_inj {p q : Partition} {s t : UInt64} {x y : Bytes} :
    encode p s x = encode q t y ↔ p = q ∧ s = t ∧ x = y := by
  constructor
  · intro h
    have hp : p = q := by
      have := congrArg partition? h
      simpa using this
    have hs : s = t := by
      have := congrArg sequence? h
      simpa using this
    subst hp hs
    refine ⟨rfl, rfl, ?_⟩
    simpa [encode] using h
  · rintro ⟨rfl, rfl, rfl⟩
    rfl

/-- A key with a full head has all three parts. -/
theorem exists_encode {key : Bytes} {p : Partition} (hp : partition? key = some p)
    (hlength : headLength ≤ key.length) : ∃ sequence suffix, key = encode p sequence suffix := by
  cases key with
  | nil => cases hp
  | cons octet rest =>
    have htag : octet = p.tag := by
      have hfind : Partition.ofTag? octet = some p := hp
      have := List.find?_some hfind
      exact (beq_iff_eq.mp this).symm
    have hrest : 8 ≤ rest.length := by
      rw [headLength, List.length_cons] at hlength
      omega
    have htake : (rest.take 8).length = 8 := by
      rw [List.length_take]
      omega
    have hback := Bytes.littleEndian_ofLittleEndian (rest.take 8).reverse
    rw [List.length_reverse, htake] at hback
    have hlt := Bytes.ofLittleEndian_lt (rest.take 8).reverse
    rw [List.length_reverse, htake] at hlt
    refine ⟨UInt64.ofNat (Bytes.ofBigEndian (rest.take 8)), rest.drop 8, ?_⟩
    have hn : (UInt64.ofNat (Bytes.ofBigEndian (rest.take 8))).toNat =
        Bytes.ofLittleEndian (rest.take 8).reverse := by
      rw [UInt64.toNat_ofNat']
      exact Nat.mod_eq_of_lt hlt
    rw [encode, hn, Bytes.bigEndian, hback, List.reverse_reverse, htag, List.cons_append,
      List.take_append_drop]

theorem before_encode_of_tag {p q : Partition} (h : p.tag < q.tag) (s t : UInt64) (x y : Bytes) :
    Bytes.before (encode p s x) (encode q t y) = true := by
  have htag : compare p.tag q.tag = .lt := by
    simp only [compare, compareOfLessAndEq, if_pos h]
  rw [Bytes.before_iff, compare_encode, htag]
  rfl

theorem before_encode_of_sequence {p : Partition} {s t : UInt64} (h : s < t) (x y : Bytes) :
    Bytes.before (encode p s x) (encode p t y) = true := by
  have htag : compare p.tag p.tag = .eq := ReflCmp.compare_self
  have hst : compare s.toNat t.toNat = .lt := Nat.compare_eq_lt.mpr (UInt64.lt_iff_toNat_lt.mp h)
  rw [Bytes.before_iff, compare_encode, htag, hst]
  rfl

/-! ## Keys of data, of the log and of the time index -/

theorem partition?_fence (p : Partition) : partition? (fence p) = some p := partition?_encode p 0 []

theorem partition?_log (id : LogId) : partition? (log id) = some .log := partition?_encode .log id []

theorem partition?_logTime (timestamp : Instant) (id : LogId) :
    partition? (logTime timestamp id) = some .logTime :=
  partition?_encode .logTime timestamp _

/-- A key of data lies in a partition that holds data, and is not its fence. -/
theorem isData_spec {key : Bytes} (h : isData key = true) :
    ∃ p, partition? key = some p ∧ p.holdsData = true ∧ key ≠ fence p ∧
      headLength ≤ key.length := by
  unfold isData at h
  split at h
  · next p hp =>
    simp only [Bool.and_eq_true, decide_eq_true_eq, bne_iff_ne] at h
    exact ⟨p, hp, h.1.1, h.2, h.1.2⟩
  · cases h

theorem isData_fence (p : Partition) : isData (fence p) = false := by
  cases hd : isData (fence p) with
  | false => rfl
  | true =>
    obtain ⟨q, hq, -, hne, -⟩ := isData_spec hd
    rw [partition?_fence] at hq
    cases hq
    exact absurd rfl hne

/-- A key outside the partitions that hold data is not one of data. -/
theorem isData_eq_false {key : Bytes} {p : Partition} (hp : partition? key = some p)
    (hd : p.holdsData = false) : isData key = false := by
  unfold isData
  rw [hp]
  simp only [hd, Bool.false_and]

theorem log_inj {a b : LogId} : log a = log b ↔ a = b := by
  simp [log, encode_inj]

theorem log_eq_fence_iff {id : LogId} {p : Partition} : log id = fence p ↔ p = .log ∧ id = 0 := by
  simp only [log, fence, encode_inj, and_true, @eq_comm _ p]

theorem logTime_ne_log (timestamp : Instant) (id other : LogId) : logTime timestamp id ≠ log other := by
  intro h
  have := congrArg partition? h
  rw [partition?_logTime, partition?_log] at this
  cases this

theorem logTime_ne_fence (timestamp : Instant) (id : LogId) (p : Partition) :
    logTime timestamp id ≠ fence p := by
  intro h
  have := congrArg List.length h
  simp [logTime, fence, encode] at this

end Key

end LogShipping
