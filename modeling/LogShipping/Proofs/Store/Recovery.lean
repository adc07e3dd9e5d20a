import LogShipping.Proofs.Store.Ensures
import LogShipping.Proofs.Store.Search
import LogShipping.Store.Recovery
import Mathlib.Tactic.Push

/-!
# Fences and recovery of counters

Of rows whose keys all have a full head (`Rows.Headed`), the row right before the fence of the next
partition is one of the partition itself, because the partition's own fence stands there at least; and
bytewise order being numeric order, its sequence number is the greatest of the partition. So the last
sequence number is found by one search backward (`ensures_lastSequence`). Fences that are in place
already are not written again.

The argument needs that no partition lies between one and the next (`eq_of_tag`), which is a fact about
the list of partitions, and is the only place where the list is gone through. What has a suffix counts
like what has none: keys with the same number are all last.

Here the fences are there and the searches may be refused. What happens where fences are missing is the
subject of `Proofs.Store.Fences`, and what the numbers mean for a log is that of `Proofs.Log.Reopening`.
-/

namespace LogShipping

open Std

/-- Rows whose keys all have a partition, a sequence number and possibly a suffix. -/
def Rows.Headed (rows : Rows) : Prop :=
  ∀ key ∈ rows, ∃ p sequence suffix, key = Key.encode p sequence suffix

/-- The greatest sequence number of a partition. -/
def Rows.IsLastSequence (rows : Rows) (p : Partition) (last : UInt64) : Prop :=
  (∃ suffix, Key.encode p last suffix ∈ rows) ∧
    ∀ sequence suffix, Key.encode p sequence suffix ∈ rows → sequence ≤ last

theorem Rows.IsLastSequence.unique {rows : Rows} {p : Partition} {a b : UInt64}
    (ha : rows.IsLastSequence p a) (hb : rows.IsLastSequence p b) : a = b := by
  obtain ⟨⟨x, hx⟩, ha⟩ := ha
  obtain ⟨⟨y, hy⟩, hb⟩ := hb
  exact UInt64.le_antisymm (hb a x hx) (ha b y hy)

namespace Partition

theorem tag_lt_next {p q : Partition} (h : p.next? = some q) : p.tag < q.tag := by
  cases p <;> cases h <;> decide

/-- No partition lies between one and the next. -/
theorem eq_of_tag {p q r : Partition} (h : p.next? = some q) (hp : ¬ r.tag < p.tag)
    (hq : r.tag < q.tag) : r = p := by
  cases p <;> cases h <;> cases r <;> first | rfl | exact absurd hq (by decide) | exact absurd (by decide) hp

end Partition

namespace Key

/-- A key before a fence lies in an earlier partition. -/
theorem tag_lt_of_before_fence {p q : Partition} {sequence : UInt64} {suffix : Bytes}
    (h : Bytes.before (encode p sequence suffix) (fence q) = true) : p.tag < q.tag := by
  by_contra hnot
  have hback : p = q ∨ q.tag < p.tag := by
    revert hnot
    cases p <;> cases q <;> decide
  rcases hback with rfl | hlt
  · rw [Bytes.before_iff, fence, compare_encode] at h
    have hsequence : compare sequence.toNat (0 : UInt64).toNat ≠ .lt := by
      rw [Ne, Nat.compare_eq_lt]
      exact Nat.not_lt_zero _
    have hself : compare p.tag p.tag = .eq := ReflCmp.compare_self
    rw [hself, Ordering.eq_then] at h
    cases hc : compare sequence.toNat (0 : UInt64).toNat with
    | lt => exact hsequence hc
    | eq =>
      rw [hc, Ordering.eq_then] at h
      cases suffix with
      | nil => cases h
      | cons => cases h
    | gt =>
      rw [hc] at h
      cases h
  · have := Bytes.before_trans h (before_encode_of_tag hlt 0 sequence [] suffix)
    rw [Bytes.not_before_self] at this
    cases this

end Key

namespace Store

variable {s : Store}

/-! ## Fences -/

/-- The writes of the fences that are not there. -/
def absentFences (rows : Rows) (partitions : List Partition) : List BatchOp :=
  (partitions.filter fun p => rows[Key.fence p]?.isNone).map fun p => .put (Key.fence p) []

theorem ensures_missingFences (partitions : List Partition) :
    Ensures (missingFences partitions) s fun r t =>
      s.Aged t ∧ (r = .ok (absentFences s.rows partitions) ∨ s.Refused .get r) := by
  induction partitions generalizing s with
  | nil => exact Ensures.pure ⟨Aged.refl s, Or.inl rfl⟩
  | cons p rest ih =>
    refine Ensures.bind ((ensures_lookup (Key.fence p)).mono ?_)
    rintro r t ⟨ht, rfl | hr⟩
    · refine Ensures.bind (ih.mono ?_)
      rintro r u ⟨hu, rfl | hr⟩
      · refine Ensures.pure ⟨ht.trans hu, Or.inl ?_⟩
        rw [absentFences, absentFences, List.filter_cons, ht.1]
        split <;> rfl
      · obtain ⟨hnot, fault, rfl⟩ := ht.refused hr
        exact ⟨ht.trans hu, Or.inr ⟨hnot, fault, rfl⟩⟩
    · obtain ⟨hnot, fault, rfl⟩ := hr
      exact ⟨ht, Or.inr ⟨hnot, fault, rfl⟩⟩

/-- Where all fences are in place, nothing is written. -/
theorem ensures_ensureFences_of_present (h : ∀ p, Key.fence p ∈ s.rows) :
    Ensures ensureFences s fun r t => s.Aged t ∧ (r = .ok 0 ∨ s.Refused .get r) := by
  have hnone : absentFences s.rows Partition.all = [] := by
    rw [absentFences, List.map_eq_nil_iff, List.filter_eq_nil_iff]
    intro p _
    have := ExtTreeMap.mem_iff_isSome_getElem?.mp (h p)
    rw [Option.isNone_iff_eq_none, ← Option.not_isSome_iff_eq_none, not_not]
    exact this
  refine Ensures.bind ((ensures_missingFences Partition.all).mono ?_)
  rintro r t ⟨ht, rfl | ⟨hnot, fault, rfl⟩⟩
  · rw [hnone]
    exact ⟨ht, Or.inl rfl⟩
  · exact ⟨ht, Or.inr ⟨hnot, fault, rfl⟩⟩

/-! ## Counters -/

/-- The row before the next partition holds the last sequence number. -/
theorem exists_lastSequence (engine : Engine) {rows : Rows} {p next : Partition}
    (headed : rows.Headed) (hfence : Key.fence p ∈ rows) (hnext : p.next? = some next) :
    ∃ last suffix v, engine.seekPrev rows (Key.fence next) = some (Key.encode p last suffix, v) ∧
      rows.IsLastSequence p last := by
  have htag := Partition.tag_lt_next hnext
  obtain ⟨k, v, hseek, hk, hbefore, hlast⟩ :=
    Engine.exists_seekPrev engine hfence (Key.before_encode_of_tag htag 0 0 [] [])
  obtain ⟨q, last, suffix, rfl⟩ := headed k hk
  have hq : q = p := by
    refine Partition.eq_of_tag hnext ?_ (Key.tag_lt_of_before_fence hbefore)
    intro hlt
    have := hlast _ hfence (Key.before_encode_of_tag htag 0 0 [] [])
    rw [Key.fence, Key.before_encode_of_tag hlt] at this
    cases this
  subst hq
  refine ⟨last, suffix, v, hseek, ⟨suffix, hk⟩, ?_⟩
  intro sequence other hother
  have := hlast _ hother (Key.before_encode_of_tag htag sequence 0 other [])
  by_contra hnot
  rw [Key.before_encode_of_sequence (UInt64.not_le.mp hnot)] at this
  cases this

/-- The last sequence number of a partition is found, unless the search is refused. -/
theorem ensures_lastSequence {p next : Partition} (headed : s.rows.Headed)
    (hfence : Key.fence p ∈ s.rows) (hnext : p.next? = some next) :
    ∃ last, s.rows.IsLastSequence p last ∧
      Ensures (lastSequence p) s fun r t => s.Aged t ∧ (r = .ok last ∨ s.Refused .seekPrev r) := by
  obtain ⟨last, suffix, v, hseek, hlast⟩ := exists_lastSequence s.engine headed hfence hnext
  refine ⟨last, hlast, ?_⟩
  unfold lastSequence
  rw [hnext]
  refine Ensures.bind ((ensures_seekPrev (Key.fence next)).mono ?_)
  rintro r t ⟨ht, rfl | ⟨hnot, fault, rfl⟩⟩
  · simp only [hseek, Key.partition?_encode, Key.sequence?_encode, if_true]
    exact Ensures.pure ⟨ht, Or.inl rfl⟩
  · exact ⟨ht, Or.inr ⟨hnot, fault, rfl⟩⟩

/-- The counters that are recovered stand at the last sequence numbers of log and records. -/
theorem ensures_recoverCounters (headed : s.rows.Headed) (hfences : ∀ p, Key.fence p ∈ s.rows) :
    ∃ position primary, s.rows.IsLastSequence .log position ∧
      s.rows.IsLastSequence .record primary ∧
      Ensures recoverCounters s fun r t =>
        s.Aged t ∧ (r = .ok ⟨primary, position⟩ ∨ s.Refused .seekPrev r) := by
  obtain ⟨position, hposition, hfirst⟩ :=
    @ensures_lastSequence s .log _ headed (hfences .log) rfl
  obtain ⟨primary, hprimary, -⟩ := @ensures_lastSequence s .record _ headed (hfences .record) rfl
  refine ⟨position, primary, hposition, hprimary, Ensures.bind (hfirst.mono ?_)⟩
  rintro r t ⟨ht, rfl | ⟨hnot, fault, rfl⟩⟩
  · have hrows := ht.1
    obtain ⟨again, hagain, hsecond⟩ := @ensures_lastSequence t .record _
      (by rw [hrows]; exact headed) (by rw [hrows]; exact hfences .record) rfl
    have hsame : again = primary := by
      rw [hrows] at hagain
      exact hagain.unique hprimary
    refine Ensures.bind (hsecond.mono ?_)
    rintro r u ⟨hu, rfl | hr⟩
    · rw [hsame]
      exact Ensures.pure ⟨ht.trans hu, Or.inl rfl⟩
    · obtain ⟨hnot, fault, rfl⟩ := ht.refused hr
      exact ⟨ht.trans hu, Or.inr ⟨hnot, fault, rfl⟩⟩
  · exact ⟨ht, Or.inr ⟨hnot, fault, rfl⟩⟩

end Store

end LogShipping
