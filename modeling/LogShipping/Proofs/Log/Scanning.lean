import LogShipping.Proofs.Log.AppendOnly
import LogShipping.Proofs.Store.Search

/-!
# Records in a row

A page of the log comes out of a scan that starts at the record behind the one last seen. Where the log
partition holds keys of full length only (`Rows.LogUpTo`), the rows that such a scan finds are the next
record and what stands behind that one in turn (`behind_eq_cons`), or none of them bears the next number
(`sequence?_ne`). So the rows can be walked record by record.

The rows behind an id are named once (`Rows.behind`), as the rows between its record and the time index,
and the scan is shown to find just these. After that no module speaks of scans, bounds or rows of a
store when it speaks of pages.

`Rows.LogUpTo` is a bound on keys and does not look at values: which of the ids have a record, and what
is in it, is open. A log that only commits and applications have written into is bounded so by its
position; a key with a suffix in the log partition, which neither of them writes, would stand between
two records and is excluded.
-/

namespace LogShipping

open Std

/-! ## Keys behind a record -/

theorem Bytes.head_le_of_before {a b : UInt8} {x y : Bytes}
    (h : Bytes.before (a :: x) (b :: y) = true) : a ≤ b := by
  rw [Bytes.before_iff, List.compare_cons_cons] at h
  rcases UInt8.lt_or_le b a with hlt | hle
  · rw [compare_eq_gt.mpr hlt] at h
    cases h
  · exact hle

namespace Key

/-- What stands between a record and the fence of the time index begins like a key of the log or like
that fence. -/
theorem eq_cons_of_behind {id : LogId} {key : Bytes} (hafter : Bytes.before (log id) key = true)
    (hbefore : Bytes.before key (upperBound .log) = true) :
    (∃ rest, key = Partition.log.tag :: rest) ∨ ∃ rest, key = Partition.logTime.tag :: rest := by
  cases key with
  | nil =>
    rw [Bytes.before_iff] at hafter
    cases hafter
  | cons octet rest =>
    have hlow : Partition.log.tag ≤ octet := Bytes.head_le_of_before hafter
    have hhigh : octet ≤ Partition.logTime.tag := Bytes.head_le_of_before hbefore
    have htag : octet = Partition.log.tag ∨ octet = Partition.logTime.tag := by
      simp only [Partition.tag, UInt8.le_iff_toNat_le, ← UInt8.toNat_inj] at hlow hhigh ⊢
      simp at hlow hhigh ⊢
      omega
    rcases htag with rfl | rfl
    · exact Or.inl ⟨rest, rfl⟩
    · exact Or.inr ⟨rest, rfl⟩

/-- Behind a record, a key with a full head that comes before the time index is one of the log. -/
theorem partition?_of_sequence? {id sequence : LogId} {key : Bytes}
    (hafter : Bytes.before (log id) key = true) (hbefore : Bytes.before key (upperBound .log) = true)
    (hsequence : sequence? key = some sequence) : partition? key = some .log := by
  rcases eq_cons_of_behind hafter hbefore with ⟨rest, rfl⟩ | ⟨rest, rfl⟩
  · exact Partition.ofTag?_tag .log
  · have hlength : headLength ≤ (Partition.logTime.tag :: rest).length := by
      by_contra hshort
      rw [sequence?, if_pos (Nat.not_le.mp hshort)] at hsequence
      cases hsequence
    have hp : partition? (Partition.logTime.tag :: rest) = some .logTime :=
      Partition.ofTag?_tag .logTime
    obtain ⟨s, suffix, hkey⟩ := exists_encode hp hlength
    rw [hkey] at hbefore
    have hlt : Partition.logTime.tag < Partition.logTime.tag := tag_lt_of_before_fence hbefore
    exact absurd hlt (by decide)

/-- Records stand in the order of their ids. -/
theorem before_log_iff {a b : LogId} : Bytes.before (log a) (log b) = true ↔ a < b := by
  constructor
  · intro h
    rcases UInt64.lt_or_le a b with hlt | hle
    · exact hlt
    · exfalso
      rcases UInt64.lt_or_eq_of_le hle with hlt | rfl
      · have hself : Bytes.before (log a) (log a) = true :=
          Bytes.before_trans h (before_encode_of_sequence hlt [] [])
        rw [Bytes.not_before_self] at hself
        cases hself
      · rw [Bytes.not_before_self] at h
        cases h
  · exact fun h => before_encode_of_sequence h [] []

theorem before_log_upperBound (id : LogId) : Bytes.before (log id) (upperBound .log) = true :=
  before_encode_of_tag (by decide) _ _ _ _

end Key

namespace Rows

variable {rows : Rows} {position : LogId}

/-! ## The rows behind a record -/

/-- In the log partition there are only keys of full length without a suffix, with ids up to
`position`. -/
def LogUpTo (rows : Rows) (position : LogId) : Prop :=
  ∀ key ∈ rows, Key.partition? key = some .log → ∃ id ≤ position, key = Key.log id

/-- The rows between the record of an id and the time index, in key order. -/
def behind (rows : Rows) (id : LogId) : List Row :=
  rows.toList.filter fun row =>
    Bytes.before (Key.log id) row.1 && Bytes.before row.1 (Key.upperBound .log)

/-- No row stands between the records of an id and of the next one. -/
theorem LogUpTo.not_between (h : rows.LogUpTo position) {id next : LogId}
    (hnext : next.toNat = id.toNat + 1) {key : Bytes} (hkey : key ∈ rows)
    (hafter : Bytes.before (Key.log id) key = true) : Bytes.before key (Key.log next) = false := by
  rw [Bool.eq_false_iff]
  intro hbefore
  have hupper : Bytes.before key (Key.upperBound .log) = true :=
    Bytes.before_trans hbefore (Key.before_encode_of_tag (by decide) _ _ _ _)
  rcases Key.eq_cons_of_behind hafter hupper with ⟨rest, rfl⟩ | ⟨rest, rfl⟩
  · obtain ⟨other, -, hother⟩ := h _ hkey (Partition.ofTag?_tag .log)
    rw [hother, Key.before_log_iff, UInt64.lt_iff_toNat_lt] at hafter hbefore
    omega
  · exact absurd (Bytes.head_le_of_before hbefore) (by decide)

/-- A scan from the record behind `lastSeen` on finds what stands behind `lastSeen`. -/
theorem LogUpTo.filter_eq_behind (h : rows.LogUpTo position) {id next : LogId}
    (hnext : next.toNat = id.toNat + 1) :
    (rows.toList.filter fun row =>
      !Bytes.before row.1 (Key.log next) && Bytes.before row.1 (Key.upperBound .log)) =
      rows.behind id := by
  have hstep : Bytes.before (Key.log id) (Key.log next) = true := by
    rw [Key.before_log_iff, UInt64.lt_iff_toNat_lt]
    omega
  refine List.filter_congr fun row hrow => ?_
  have hkey := mem_of_getElem? (ExtTreeMap.mem_toList_iff_getElem?_eq_some.mp hrow)
  have hsame : (!Bytes.before row.1 (Key.log next)) = Bytes.before (Key.log id) row.1 := by
    cases hafter : Bytes.before (Key.log id) row.1 with
    | true => rw [h.not_between hnext hkey hafter]; rfl
    | false =>
      rcases Bytes.before_total (Key.log id) row.1 with hlt | heq | hgt
      · rw [hlt] at hafter
        cases hafter
      · rw [← heq, hstep]; rfl
      · rw [Bytes.before_trans hgt hstep]; rfl
  rw [hsame]

/-- A record that is there is the first row behind the id before. -/
theorem LogUpTo.behind_eq_cons (h : rows.LogUpTo position) {id next : LogId}
    (hnext : next.toNat = id.toNat + 1) {record : Bytes} (hrow : rows[Key.log next]? = some record) :
    rows.behind id = (Key.log next, record) :: rows.behind next := by
  obtain ⟨front, back, hsplit⟩ :=
    List.append_of_mem (ExtTreeMap.mem_toList_iff_getElem?_eq_some.mpr hrow)
  have sorted := Engine.sorted_toList rows
  rw [hsplit, List.pairwise_append, List.pairwise_cons] at sorted
  have hfront : ∀ row ∈ front, Bytes.before row.1 (Key.log next) = true :=
    fun row hr => sorted.2.2 row hr _ List.mem_cons_self
  have hback : ∀ row ∈ back, Bytes.before (Key.log next) row.1 = true := sorted.2.1.1
  have hself := Bytes.not_before_self (Key.log next)
  -- of the rows in front of the record none is left, of those behind it all below the time index
  have hrest : rows.behind next =
      back.filter fun row => Bytes.before row.1 (Key.upperBound .log) := by
    have hnone : front.filter (fun row => Bytes.before (Key.log next) row.1 &&
        Bytes.before row.1 (Key.upperBound .log)) = [] := by
      rw [List.filter_eq_nil_iff]
      intro row hr
      simp [Bytes.before_asymm (hfront row hr)]
    rw [behind, hsplit, List.filter_append, hnone, List.nil_append, List.filter_cons, hself]
    exact List.filter_congr fun row hr => by rw [hback row hr, Bool.true_and]
  have hnone : front.filter (fun row => !Bytes.before row.1 (Key.log next) &&
      Bytes.before row.1 (Key.upperBound .log)) = [] := by
    rw [List.filter_eq_nil_iff]
    intro row hr
    simp [hfront row hr]
  have hall : back.filter (fun row => !Bytes.before row.1 (Key.log next) &&
      Bytes.before row.1 (Key.upperBound .log)) = rows.behind next := by
    rw [hrest]
    exact List.filter_congr fun row hr => by
      rw [Bytes.before_asymm (hback row hr), Bool.not_false, Bool.true_and]
  rw [← h.filter_eq_behind hnext, hsplit, List.filter_append, hnone, List.nil_append,
    List.filter_cons, hself, Key.before_log_upperBound, hall]
  rfl

/-- Where the next record is missing, no row behind the id bears its number. -/
theorem LogUpTo.sequence?_ne (h : rows.LogUpTo position) {id : LogId}
    (hmissing : ∀ next : LogId, next.toNat = id.toNat + 1 → Key.log next ∉ rows) {row : Row}
    (hrow : row ∈ rows.behind id) : Key.sequence? row.1 ≠ some (id + 1) := by
  obtain ⟨hin, hbounds⟩ := List.mem_filter.mp hrow
  rw [Bool.and_eq_true] at hbounds
  have hkey := mem_of_getElem? (ExtTreeMap.mem_toList_iff_getElem?_eq_some.mp hin)
  intro hsequence
  obtain ⟨other, -, hother⟩ := h _ hkey (Key.partition?_of_sequence? hbounds.1 hbounds.2 hsequence)
  rw [hother, Key.log, Key.sequence?_encode] at hsequence
  have hnext : other = id + 1 := Option.some.inj hsequence
  have hlt : id < other := by
    rw [← Key.before_log_iff, ← hother]
    exact hbounds.1
  refine hmissing other ?_ (hother ▸ hkey)
  rw [hnext] at hlt ⊢
  exact Counters.toNat_next fun hzero => by
    rw [hzero] at hlt
    exact absurd hlt (by rw [UInt64.not_lt]; exact UInt64.zero_le)

end Rows

end LogShipping
