import LogShipping.Proofs.Store.Recovery

/-!
# The layout of the key space

Keys stand in the order of their partitions, within a partition in the order of their sequence numbers,
and with the same number in the order of their suffixes (`encode_lt_encode_iff`). So every key of data
has its place between the fence and the upper bound of one of the partitions that hold data, and of no
other (`exists_within`), and stays clear of all that belongs to the log (`Apart`).

The order of the partitions is that of the list of key types (`Precedes`), told by the octet that keys
begin with. What lies between two fences is therefore what has the type of the first, and this is used
in both directions: a key is found in its partition, and what is found in a partition has its type.

A key is of data if its type holds data and it is not the fence. Keys that do not have a full head of
nine octets are not of data, and neither are those whose first octet is that of no type. They may stand
in a store all the same; what the modules below say of them is that commits do not write them.
-/

namespace LogShipping

open Std

/-! ## Partitions in order -/

namespace Partition

/-- One partition is listed before another. -/
def Precedes (p q : Partition) : Prop := all.idxOf p < all.idxOf q

instance (p q : Partition) : Decidable (p.Precedes q) :=
  inferInstanceAs (Decidable (all.idxOf p < all.idxOf q))

/-- The octets at the front of the keys are in the order in which the partitions are listed. -/
theorem tag_lt_iff_precedes {p q : Partition} : p.tag < q.tag ↔ p.Precedes q := by
  cases p <;> cases q <;> decide

theorem tag_inj {p q : Partition} : p.tag = q.tag ↔ p = q := by
  cases p <;> cases q <;> decide

/-- No partition of data comes before that of the profiles. -/
theorem not_precedes_of_holdsData {p : Partition} (h : p.holdsData = true) : ¬ p.Precedes profile := by
  revert h
  cases p <;> decide

theorem exists_next_of_holdsData {p : Partition} (h : p.holdsData = true) :
    ∃ next, p.next? = some next := by
  cases p with
  | profile | record | blob => exact ⟨_, rfl⟩
  | log | logTime | sentinel => cases h

theorem mem_of_holdsData {p : Partition} (h : p.holdsData = true) : p ∈ [profile, record, blob] := by
  revert h
  cases p <;> decide

end Partition

namespace Key

variable {p q : Partition} {s t : UInt64} {x y key : Bytes}

/-! ## Keys in order -/

/-- Keys stand in the order of their partitions, then of their sequence numbers, then of their
suffixes. -/
theorem encode_lt_encode_iff :
    encode p s x < encode q t y ↔ p.Precedes q ∨ p = q ∧ (s < t ∨ s = t ∧ x < y) := by
  rw [← Bytes.before_iff_lt, Bytes.before_iff, compare_encode, Ordering.then_eq_lt,
    Ordering.then_eq_lt, compare_eq_lt, LawfulEqOrd.compare_eq_iff_eq, Nat.compare_eq_lt,
    Nat.compare_eq_eq, Partition.tag_lt_iff_precedes, Partition.tag_inj, UInt64.toNat_inj,
    ← UInt64.lt_iff_toNat_lt, ← Bytes.before_iff, Bytes.before_iff_lt]

/-- The fence is the first key of its partition. -/
theorem fence_lt_encode_iff : fence p < encode p s x ↔ encode p s x ≠ fence p := by
  rw [fence, encode_lt_encode_iff, Ne, encode_inj]
  rcases UInt64.lt_or_eq_of_le (UInt64.zero_le (a := s)) with hlt | rfl
  · exact iff_of_true (Or.inr ⟨rfl, Or.inl hlt⟩) fun h => absurd h.2.1 (UInt64.ne_of_lt hlt).symm
  · cases x with
    | nil => simp [Partition.Precedes]
    | cons octet rest => simp

/-- A key before the fence of a partition lies in an earlier one. -/
theorem precedes_of_lt_fence (h : encode p s x < fence q) : p.Precedes q :=
  Partition.tag_lt_iff_precedes.mp (tag_lt_of_before_fence (Bytes.before_iff_lt.mpr h))

/-! ## Places of keys -/

/-- A key has its place in a partition: behind the fence and before the upper bound. -/
def Within (p : Partition) (key : Bytes) : Prop := fence p < key ∧ key < upperBound p

theorem upperBound_eq_fence {next : Partition} (hnext : p.next? = some next) :
    upperBound p = fence next := by
  rw [upperBound, hnext]

/-- No key has its place in a partition other than its own. -/
theorem Within.eq (h : Within q (encode p s x)) : p = q := by
  rcases encode_lt_encode_iff.mp h.1 with hlt | ⟨rfl, -⟩
  · cases hnext : q.next? with
    | none =>
      revert hlt hnext
      cases q <;> cases p <;> decide
    | some next =>
      have hupper : encode p s x < fence next := upperBound_eq_fence hnext ▸ h.2
      refine Partition.eq_of_tag hnext ?_ (Partition.tag_lt_iff_precedes.mpr (precedes_of_lt_fence hupper))
      rw [Partition.tag_lt_iff_precedes]
      exact Nat.lt_asymm hlt
  · rfl

/-- A key that is not the fence has its place in its partition, as long as another one follows. -/
theorem within_encode {next : Partition} (hnext : p.next? = some next)
    (hfence : encode p s x ≠ fence p) : Within p (encode p s x) := by
  refine ⟨fence_lt_encode_iff.mpr hfence, ?_⟩
  rw [upperBound_eq_fence hnext, fence, encode_lt_encode_iff]
  exact Or.inl (Partition.tag_lt_iff_precedes.mp (Partition.tag_lt_next hnext))

/-- A key of data is made of a partition that holds data, a sequence number and a suffix, and it is
not the fence of the partition. -/
theorem exists_encode_of_isData (h : isData key = true) :
    ∃ p sequence suffix, key = encode p sequence suffix ∧ p.holdsData = true ∧
      encode p sequence suffix ≠ fence p := by
  obtain ⟨p, hp, hdata, hfence, hlength⟩ := isData_spec h
  obtain ⟨sequence, suffix, rfl⟩ := exists_encode hp hlength
  exact ⟨p, sequence, suffix, rfl, hdata, hfence⟩

/-- A key of data has its place in one of the partitions of data, and in no other partition. -/
theorem exists_within (h : isData key = true) :
    ∃ p ∈ [Partition.profile, .record, .blob], Within p key ∧ ∀ q, Within q key → q = p := by
  obtain ⟨p, sequence, suffix, rfl, hdata, hfence⟩ := exists_encode_of_isData h
  obtain ⟨next, hnext⟩ := Partition.exists_next_of_holdsData hdata
  exact ⟨p, Partition.mem_of_holdsData hdata, within_encode hnext hfence, fun q hq => hq.eq.symm⟩

/-! ## Keys of data and what belongs to the log -/

/-- What keeps a key clear of all that belongs to the log: its place, the keys that it is not, the
ranges that pages and listings are read from, and the gap behind the last record, where recovery looks
for that record. -/
structure Apart (key : Bytes) : Prop where
  place : ∃ p ∈ [Partition.profile, .record, .blob], Within p key ∧ ∀ q, Within q key → q = p
  fences : ∀ p, key ≠ fence p
  records : ∀ id, key ≠ log id
  index : ∀ timestamp id, key ≠ logTime timestamp id
  pages : ∀ first, ¬ (log first ≤ key ∧ key < upperBound .log)
  listings : ∀ since, ¬ (logTime since 0 ≤ key ∧ key < upperBound .logTime)
  recovery : ∀ last, ¬ (log last < key ∧ key < fence .logTime)

/-- Nothing before the first partition of data is a key of data. -/
theorem not_lt_fence_profile (h : isData key = true) : ¬ key < fence .profile := by
  obtain ⟨p, sequence, suffix, rfl, hdata, -⟩ := exists_encode_of_isData h
  exact fun hlt => Partition.not_precedes_of_holdsData hdata (precedes_of_lt_fence hlt)

theorem not_lt_fence_logTime (h : isData key = true) : ¬ key < fence .logTime := by
  intro hlt
  have hfences : fence .logTime < fence .profile := encode_lt_encode_iff.mpr (Or.inl (by decide))
  exact not_lt_fence_profile h (List.lt_trans hlt hfences)

theorem ne_of_isData {other : Bytes} (h : isData key = true) (hother : isData other = false) :
    key ≠ other := by
  rintro rfl
  rw [h] at hother
  cases hother

theorem apart_of_isData (h : isData key = true) : Apart key where
  place := exists_within h
  fences p := ne_of_isData h (isData_fence p)
  records id := ne_of_isData h (isData_eq_false (partition?_log id) rfl)
  index timestamp id := ne_of_isData h (isData_eq_false (partition?_logTime timestamp id) rfl)
  pages _ hrange := not_lt_fence_logTime h hrange.2
  listings _ hrange := not_lt_fence_profile h hrange.2
  recovery _ hgap := not_lt_fence_logTime h hgap.2

end Key

end LogShipping
