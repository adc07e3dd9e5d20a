import LogShipping.Proofs.Key.Order
import LogShipping.Store.Engine
import Mathlib.Algebra.Group.Nat.Defs
import Mathlib.Data.List.TakeWhile
import Mathlib.Tactic.Set

/-!
# Searches

Both engines find the same row when they look for the last one before a key: the row whose key is the
greatest of those that come before (`exists_seekPrev`). The tree stops at the first row that does not
come before the key, the table filters all rows; on rows in key order this selects the same ones. A scan
of either engine returns rows of the store between its bounds (`mem_scan`), the first ones in key order
unless the limit is beyond all stores (`scan_eq_take`). Both searches look only at the rows that they
may return (`seekPrev_congr`, `scan_congr`).

Going on while a condition holds and selecting by the condition are the same on rows in order, as what
comes before a key is a front of them. That is the one idea here, used once for the rows before a key
and once for those that do not come before it.

The searches are those of the engines' interfaces, over rows that are a map in key order. How an engine
lays its rows out, and what it does to search them, is not described. Bounds may be the wrong way round,
and then there is nothing between them.
-/

namespace LogShipping.Engine

open Std

/-! ## Rows in order -/

/-- The rows of a store stand in the order of their keys. -/
theorem sorted_toList (rows : Rows) :
    rows.toList.Pairwise fun a b => Bytes.before a.1 b.1 = true := by
  have h := rows.ordered_keys_toList
  refine h.imp ?_
  intro a b hab
  exact Bytes.before_iff.mpr hab

theorem increasing_toList (rows : Rows) : rows.toList.Pairwise fun a b => a.1 < b.1 :=
  (sorted_toList rows).imp Bytes.before_iff_lt.mp

/-- On rows in order, those before a key come first. -/
theorem takeWhile_before_eq_filter {rows : List Row} (key : Bytes)
    (sorted : rows.Pairwise fun a b => Bytes.before a.1 b.1 = true) :
    rows.takeWhile (fun row => Bytes.before row.1 key) =
      rows.filter fun row => Bytes.before row.1 key := by
  induction rows with
  | nil => rfl
  | cons row rows ih =>
    rw [List.pairwise_cons] at sorted
    by_cases h : Bytes.before row.1 key = true
    · simp only [List.takeWhile_cons, List.filter_cons, h, if_true, ih sorted.2]
    · -- whatever stands behind a row that is not before the key is not before it either
      have hrest : rows.filter (fun row => Bytes.before row.1 key) = [] := by
        rw [List.filter_eq_nil_iff]
        intro other hother hbefore
        exact h (Bytes.before_trans (sorted.1 other hother) hbefore)
      simp only [List.takeWhile_cons, List.filter_cons, h, hrest, Bool.false_eq_true, if_false]

/-- Both engines look at the rows before the key and take the last of them. -/
theorem seekPrev_eq_getLast? (engine : Engine) (rows : Rows) (key : Bytes) :
    engine.seekPrev rows key =
      (rows.toList.filter fun row => Bytes.before row.1 key).getLast? := by
  cases engine with
  | tree =>
    show treeSeekPrev rows key = _
    rw [treeSeekPrev, takeWhile_before_eq_filter key (sorted_toList rows)]
  | table =>
    show tableSeekPrev rows key = _
    rw [tableSeekPrev, List.filter_reverse, ← List.head?_reverse]
    cases (rows.toList.filter fun row => Bytes.before row.1 key).reverse with
    | nil => rfl
    | cons row rest => rfl

/-! ## Rows that agree -/

/-- Rows that agree on certain keys have the same rows with such keys. -/
theorem filter_congr {rows rows' : Rows} (selects : Bytes → Bool)
    (h : ∀ key, selects key = true → rows[key]? = rows'[key]?) :
    (rows.toList.filter fun row => selects row.1) = rows'.toList.filter fun row => selects row.1 := by
  refine Rows.eq_of_increasing ((increasing_toList rows).filter _) ((increasing_toList rows').filter _) ?_
  rintro ⟨key, value⟩
  rw [List.mem_filter, List.mem_filter]
  refine and_congr_left fun hselected => ?_
  rw [ExtTreeMap.mem_toList_iff_getElem?_eq_some, ExtTreeMap.mem_toList_iff_getElem?_eq_some,
    h key hselected]

/-- What is found before a key depends on the rows before it. -/
theorem seekPrev_congr (engine : Engine) {rows rows' : Rows} {key : Bytes}
    (h : ∀ other, Bytes.before other key = true → rows[other]? = rows'[other]?) :
    engine.seekPrev rows key = engine.seekPrev rows' key := by
  rw [seekPrev_eq_getLast?, seekPrev_eq_getLast?, filter_congr (fun other => Bytes.before other key) h]

/-! ## The row found -/

/-- If any row comes before the key, one is found, and no other row between it and the key. -/
theorem exists_seekPrev (engine : Engine) {rows : Rows} {key first : Bytes} (hmem : first ∈ rows)
    (hfirst : Bytes.before first key = true) :
    ∃ k v, engine.seekPrev rows key = some (k, v) ∧ k ∈ rows ∧ Bytes.before k key = true ∧
      ∀ other, other ∈ rows → Bytes.before other key = true → Bytes.before k other = false := by
  rw [seekPrev_eq_getLast?]
  set found := rows.toList.filter fun row => Bytes.before row.1 key with hfound
  have hin : ∀ row : Row, row ∈ found ↔ rows[row.1]? = some row.2 ∧ Bytes.before row.1 key = true := by
    intro row
    rw [hfound, List.mem_filter, ExtTreeMap.mem_toList_iff_getElem?_eq_some]
  have sorted : found.Pairwise fun a b => Bytes.before a.1 b.1 = true := (sorted_toList rows).filter _
  cases hlast : found.getLast? with
  | none =>
    obtain ⟨v, hv⟩ := Option.isSome_iff_exists.mp (ExtTreeMap.mem_iff_isSome_getElem?.mp hmem)
    have hrow := (hin (first, v)).mpr ⟨hv, hfirst⟩
    rw [List.getLast?_eq_none_iff.mp hlast] at hrow
    cases hrow
  | some row =>
    obtain ⟨front, hfront⟩ := List.getLast?_eq_some_iff.mp hlast
    have hrow := (hin row).mp (hfront ▸ List.mem_append_right _ (List.mem_singleton_self row))
    refine ⟨row.1, row.2, rfl, Rows.mem_of_getElem? hrow.1, hrow.2, ?_⟩
    · intro other hother hbefore
      obtain ⟨v, hv⟩ := Option.isSome_iff_exists.mp (ExtTreeMap.mem_iff_isSome_getElem?.mp hother)
      have hmem := (hin (other, v)).mpr ⟨hv, hbefore⟩
      rw [hfront] at hmem sorted
      rcases List.mem_append.mp hmem with hmem | hmem
      · -- a row in front of the last one comes before it, so the last one does not come before it
        have hlt := (List.pairwise_append.mp sorted).2.2 _ hmem row (List.mem_singleton_self row)
        cases h : Bytes.before row.1 other with
        | false => rfl
        | true =>
          have := Bytes.before_trans h hlt
          rw [Bytes.not_before_self] at this
          cases this
      · rw [← List.mem_singleton.mp hmem]
        exact Bytes.not_before_self other

/-! ## Scans -/

theorem mem_limited {limit : Int64} {rows : List Row} {row : Row} (h : row ∈ limited limit rows) :
    row ∈ rows := by
  unfold limited at h
  split at h
  · exact h
  · exact List.mem_of_mem_take h

/-- Behind the rows before a key no row comes before it. -/
theorem not_before_of_mem_dropWhile {rows : List Row} {key : Bytes}
    (sorted : rows.Pairwise fun a b => Bytes.before a.1 b.1 = true) {row : Row}
    (h : row ∈ rows.dropWhile fun row => Bytes.before row.1 key) :
    Bytes.before row.1 key = false := by
  induction rows with
  | nil => cases h
  | cons first rest ih =>
    rw [List.pairwise_cons] at sorted
    by_cases hfirst : Bytes.before first.1 key = true
    · rw [List.dropWhile_cons, if_pos hfirst] at h
      exact ih sorted.2 h
    · rw [List.dropWhile_cons, if_neg hfirst] at h
      rcases List.mem_cons.mp h with rfl | h
      · exact Bool.eq_false_iff.mpr hfirst
      · rw [Bool.eq_false_iff]
        intro hbefore
        exact hfirst (Bytes.before_trans (sorted.1 row h) hbefore)

/-- A scan returns rows of the store between its bounds. -/
theorem mem_scan {engine : Engine} {rows : Rows} {start stop : Bytes} {limit : UInt64} {row : Row}
    (h : row ∈ engine.scan rows start stop limit) :
    rows[row.1]? = some row.2 ∧ Bytes.before row.1 start = false ∧
      Bytes.before row.1 stop = true := by
  rw [← ExtTreeMap.mem_toList_iff_getElem?_eq_some]
  cases engine with
  | tree =>
    change row ∈ treeScan rows start stop limit at h
    unfold treeScan at h
    split at h
    · have hrange := List.mem_of_mem_take h
      have hbehind := (List.takeWhile_sublist _).subset hrange
      exact ⟨(List.dropWhile_sublist _).subset hbehind,
        not_before_of_mem_dropWhile (sorted_toList rows) hbehind,
        @List.mem_takeWhile_imp _ (fun other : Row => Bytes.before other.1 stop) _ _ hrange⟩
    · cases h
  | table =>
    change row ∈ tableScan rows start stop limit at h
    have hrange := List.mem_filter.mp (mem_limited h)
    rw [Bool.and_eq_true, Bool.not_eq_true'] at hrange
    exact hrange

/-- On rows in order, those that do not come before a key come last. -/
theorem dropWhile_before_eq_filter {rows : List Row} (key : Bytes)
    (sorted : rows.Pairwise fun a b => Bytes.before a.1 b.1 = true) :
    rows.dropWhile (fun row => Bytes.before row.1 key) =
      rows.filter fun row => !Bytes.before row.1 key := by
  induction rows with
  | nil => rfl
  | cons row rest ih =>
    rw [List.pairwise_cons] at sorted
    by_cases h : Bytes.before row.1 key = true
    · rw [List.dropWhile_cons, if_pos h, List.filter_cons, h, ih sorted.2]
      rfl
    · have hkept : (row :: rest).filter (fun row => !Bytes.before row.1 key) = row :: rest := by
        rw [List.filter_eq_self]
        intro other hother
        have hbehind : other ∈ (row :: rest).dropWhile fun row => Bytes.before row.1 key := by
          rw [List.dropWhile_cons, if_neg h]
          exact hother
        rw [not_before_of_mem_dropWhile (List.pairwise_cons.mpr sorted) hbehind]
        rfl
      rw [List.dropWhile_cons, if_neg h, hkept]

/-- The tree returns the first rows between the bounds in key order. -/
theorem treeScan_eq_take (rows : Rows) (start stop : Bytes) (limit : UInt64) :
    treeScan rows start stop limit =
      (rows.toList.filter fun row =>
        !Bytes.before row.1 start && Bytes.before row.1 stop).take limit.toNat := by
  have sorted := sorted_toList rows
  have hrange : (rows.toList.dropWhile fun row => Bytes.before row.1 start).takeWhile
      (fun row => Bytes.before row.1 stop) = rows.toList.filter fun row =>
        !Bytes.before row.1 start && Bytes.before row.1 stop := by
    rw [takeWhile_before_eq_filter stop (sorted.sublist (List.dropWhile_sublist _)),
      dropWhile_before_eq_filter start sorted, List.filter_filter]
    refine List.filter_congr fun row _ => Bool.and_comm _ _
  rw [treeScan]
  split
  · rw [hrange]
  · next hempty =>
    -- between bounds that are the wrong way round there is no row
    have hnone : (rows.toList.filter fun row =>
        !Bytes.before row.1 start && Bytes.before row.1 stop) = [] := by
      rw [List.filter_eq_nil_iff]
      intro row _ hboth
      rw [Bool.and_eq_true, Bool.not_eq_true'] at hboth
      rcases Bytes.before_total start row.1 with h | rfl | h
      · exact hempty (Bytes.before_trans h hboth.2)
      · exact hempty hboth.2
      · rw [h] at hboth
        exact absurd hboth.1 (by decide)
    rw [hnone, List.take_nil]

/-- So does the table, if the limit is below the signed range or there are no more rows than that range
has numbers. -/
theorem tableScan_eq_take (rows : Rows) (start stop : Bytes) {limit : UInt64}
    (hlimit : limit.toNat < 2 ^ 63 ∨ (rows.toList.filter fun row =>
      !Bytes.before row.1 start && Bytes.before row.1 stop).length ≤ 2 ^ 63) :
    tableScan rows start stop limit =
      (rows.toList.filter fun row =>
        !Bytes.before row.1 start && Bytes.before row.1 stop).take limit.toNat := by
  rw [tableScan, limited]
  by_cases hsmall : limit.toNat < 2 ^ 63
  · have hsigned : limit.toInt64.toInt = limit.toNat := by
      have hhalf : 2 * limit.toBitVec.toNat < 2 ^ 64 := by
        rw [UInt64.toNat_toBitVec]
        omega
      exact BitVec.toInt_eq_toNat_of_lt hhalf
    have hnonneg : ¬ limit.toInt64 < 0 := by
      rw [Int64.lt_iff_toInt_lt, hsigned]
      exact Int.not_lt.mpr (Int.natCast_nonneg _)
    rw [if_neg hnonneg, hsigned, Int.toNat_natCast]
  · -- beyond the signed range the limit reads as a negative number, which cuts nothing off
    have hnegative : limit.toInt64 < 0 := by
      rw [Int64.lt_iff_toInt_lt]
      show limit.toBitVec.toInt < 0
      rw [BitVec.toInt_neg_iff, UInt64.toNat_toBitVec]
      omega
    rw [if_pos hnegative, List.take_of_length_le]
    exact (hlimit.resolve_left hsmall).trans (Nat.not_lt.mp hsmall)

/-- Under a limit that can be a number of rows, both engines return the first rows between the bounds
in key order. -/
theorem scan_eq_take (engine : Engine) (rows : Rows) (start stop : Bytes) {limit : UInt64}
    (hlimit : limit.toNat < 2 ^ 63) :
    engine.scan rows start stop limit =
      (rows.toList.filter fun row =>
        !Bytes.before row.1 start && Bytes.before row.1 stop).take limit.toNat := by
  cases engine with
  | tree => exact treeScan_eq_take rows start stop limit
  | table => exact tableScan_eq_take rows start stop (Or.inl hlimit)

/-- What a scan finds depends on the rows between its bounds. -/
theorem scan_congr (engine : Engine) {rows rows' : Rows} {start stop : Bytes} (limit : UInt64)
    (h : ∀ key, Bytes.before key start = false → Bytes.before key stop = true →
      rows[key]? = rows'[key]?) :
    engine.scan rows start stop limit = engine.scan rows' start stop limit := by
  have hrange := @filter_congr rows rows'
    (fun key => !Bytes.before key start && Bytes.before key stop) fun key hkey => by
      rw [Bool.and_eq_true, Bool.not_eq_true'] at hkey
      exact h key hkey.1 hkey.2
  cases engine with
  | tree =>
    show treeScan rows start stop limit = treeScan rows' start stop limit
    rw [treeScan_eq_take, treeScan_eq_take, hrange]
  | table =>
    show tableScan rows start stop limit = tableScan rows' start stop limit
    rw [tableScan, tableScan, hrange]

end LogShipping.Engine
