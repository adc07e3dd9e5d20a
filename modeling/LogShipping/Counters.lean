import LogShipping.Key

/-!
# Counters

A node counts the record ids it has issued and the log ids it has used; each counter holds the last
number given out. A log id is either issued by the node that commits or claimed by the node that
applies, and a claim succeeds only for the id that follows the position. An id whose entry did not reach
the store is released again. Plain additions are those of the program built with checks of overflow:
behind the greatest number there is no next one, and to ask for it breaks the work down.
-/

namespace LogShipping

/-- The last record id issued, and the last log id used: the node's position. -/
structure Counters where
  /-- The last record id issued or observed. -/
  primary : UInt64 := 0
  /-- The position: the id of the last entry of the log. -/
  position : LogId := 0
  deriving DecidableEq, Repr

namespace Counters

/-- The number after `n`, unless `n` is the greatest one. -/
def next? (n : UInt64) : Option UInt64 := if n + 1 = 0 then none else some (n + 1)

/-- Issues the next record id. The counter itself runs over before that is noticed. -/
def issueRecord (c : Counters) : Option UInt64 × Counters :=
  (next? c.primary, { c with primary := c.primary + 1 })

/-- Raises the record counter to a sequence number seen in a key. -/
def observeRecord (c : Counters) (sequence : UInt64) : Counters :=
  { c with primary := max c.primary sequence }

/-- Issues the next log id. The counter itself runs over before that is noticed. -/
def issueLog (c : Counters) : Option LogId × Counters :=
  (next? c.position, { c with position := c.position + 1 })

/-- The id before `id`, or 0 for the first. -/
def before (id : LogId) : LogId := if id = 0 then 0 else id - 1

/-- Moves the position to `id` if it stands right before it. -/
def claimLog? (c : Counters) (id : LogId) : Option Counters :=
  if c.position = before id then some { c with position := id } else none

/-- Moves the position back from `id`, if it stands there. -/
def releaseLog? (c : Counters) (id : LogId) : Option Counters :=
  if c.position = id then some { c with position := before id } else none

/-- The counters after a release, whether or not it had an effect. -/
def releaseLog (c : Counters) (id : LogId) : Counters := (c.releaseLog? id).getD c

/-- A claim succeeds only right behind the position, and moves the position there. -/
theorem claimLog?_eq_some_iff {c claimed : Counters} {id : LogId} :
    c.claimLog? id = some claimed ↔
      c.position = before id ∧ claimed = { c with position := id } := by
  unfold claimLog?
  split <;> simp_all [eq_comm]

theorem next?_eq_some_iff {n next : UInt64} : next? n = some next ↔ n + 1 ≠ 0 ∧ next = n + 1 := by
  unfold next?
  split <;> simp_all [eq_comm]

theorem next?_eq_none_iff {n : UInt64} : next? n = none ↔ n + 1 = 0 := by
  unfold next?
  split <;> simp_all

/-- Below a number that has a next one every number has. -/
theorem succ_ne_zero_of_le {n m : UInt64} (hle : n ≤ m) (h : m + 1 ≠ 0) : n + 1 ≠ 0 := by
  have hle := UInt64.le_iff_toNat_le.mp hle
  have hm := m.toNat_lt
  rw [ne_eq, ← UInt64.toNat_inj, UInt64.toNat_add, UInt64.toNat_one, UInt64.toNat_zero] at h ⊢
  omega

theorem issueLog_of_room {c : Counters} (h : c.position + 1 ≠ 0) :
    c.issueLog = (some (c.position + 1), { c with position := c.position + 1 }) := by
  rw [issueLog, next?_eq_some_iff.mpr ⟨h, rfl⟩]

/-- Behind the last id the counter is at the beginning again, and there is no id. -/
theorem issueLog_of_full {c : Counters} (h : c.position + 1 = 0) :
    c.issueLog = (none, { c with position := 0 }) := by
  rw [issueLog, next?_eq_none_iff.mpr h, h]

/-- Releasing an id that was just issued takes the counters back. -/
theorem releaseLog_issueLog {c : Counters} {id : LogId} (h : c.issueLog.1 = some id) :
    c.issueLog.2.releaseLog id = c := by
  obtain ⟨hne, rfl⟩ := next?_eq_some_iff.mp h
  simp [issueLog, releaseLog, releaseLog?, before, hne]

end Counters

end LogShipping
