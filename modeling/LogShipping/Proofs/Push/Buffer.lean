import LogShipping.PushBuffer
import Mathlib.Tactic.Push

/-!
# What a push buffer holds

A buffer comes to hold an entry by taking it in and in no other way; what is handed out was held, and
what is kept was held before. The entries handed out run on from the position, and the entry behind the
last of them is not in the buffer (`not_mem_behind_ready`): that is why they end there.

What is to be handed out is named apart from the drain (`ready`), as the run at the front of the rows
beyond the position. Rows are in the order of ids, so the front is where a run may begin, and the first
id that is missing ends it.

The drain may break down instead, behind an entry of the last id or at the last position, and then it
hands out nothing; what it has taken out by then is lost. These lemmas say what is in the buffer before
and after, with and without a breakdown; histories are the subject of `Proofs.Push.History`.
-/

namespace LogShipping

open Std

namespace PushBuffer

variable {b : PushBuffer} {position : LogId}

/-- The rows that a drain does not throw away, in order of id. -/
def rowsFrom (b : PushBuffer) (next : LogId) : List (LogId × Entry) :=
  (b.entries.filter fun id _ => next ≤ id).toList

/-- The rows that are taken out at a position: those that follow it without a gap. -/
def readyRows (b : PushBuffer) (position : LogId) : List (LogId × Entry) :=
  match Counters.next? position with
  | none => []
  | some next => run next (b.rowsFrom next)

/-- The entries that are to be handed out at a position. -/
def ready (b : PushBuffer) (position : LogId) : List Entry := (b.readyRows position).map (·.2)

/-! ## Contents -/

theorem of_mem_insert {e f : Entry} {id : LogId}
    (h : (b.insert e position).2.entries[id]? = some f) :
    (id = e.id ∧ f = e ∧ position < e.id) ∨ b.entries[id]? = some f := by
  unfold insert at h
  split at h
  · next haccepts =>
    change (b.entries.insert e.id e)[id]? = some f at h
    rw [ExtTreeMap.getElem?_insert] at h
    split at h
    · next heq =>
      unfold accepts at haccepts
      rw [Bool.and_eq_true, decide_eq_true_eq] at haccepts
      cases h
      exact Or.inl ⟨(LawfulEqCmp.eq_of_compare heq).symm, rfl, haccepts.1⟩
    · exact Or.inr h
  · exact Or.inr h

theorem of_mem_foldl_erase {rows : List (LogId × Entry)} {held : ExtTreeMap LogId Entry} {id : LogId}
    {e : Entry} (h : (rows.foldl (fun held row => held.erase row.1) held)[id]? = some e) :
    held[id]? = some e := by
  induction rows generalizing held with
  | nil => exact h
  | cons row rows ih =>
    rw [List.foldl_cons] at h
    have := ih h
    rw [ExtTreeMap.getElem?_erase] at this
    split at this
    · cases this
    · exact this

theorem of_mem_filter {held : ExtTreeMap LogId Entry} {keep : LogId → Entry → Bool} {id : LogId}
    {e : Entry} (h : (held.filter keep)[id]? = some e) : held[id]? = some e ∧ keep id e = true := by
  rw [ExtTreeMap.getElem?_filter'] at h
  exact Option.filter_eq_some_iff.mp h

theorem drain_of_last (h : position + 1 = 0) : b.drain position = (none, b) := by
  rw [drain, Counters.next?_eq_none_iff.mpr h]

theorem readyRows_of_room (h : position + 1 ≠ 0) :
    b.readyRows position = run (position + 1) (b.rowsFrom (position + 1)) := by
  rw [readyRows, Counters.next?_eq_some_iff.mpr ⟨h, rfl⟩]

theorem drain_of_room (h : position + 1 ≠ 0) : b.drain position =
    (if (b.readyRows position).all fun row => (Counters.next? row.1).isSome then
        some (b.ready position) else none,
      ⟨(b.readyRows position).foldl (fun held row => held.erase row.1)
        (b.entries.filter fun id _ => position + 1 ≤ id), b.capacity⟩) := by
  rw [ready, readyRows_of_room h, drain, Counters.next?_eq_some_iff.mpr ⟨h, rfl⟩]
  rfl

/-- What is handed out is what was to be. -/
theorem eq_ready_of_drain {entries : List Entry} (h : (b.drain position).1 = some entries) :
    entries = b.ready position := by
  by_cases hroom : position + 1 = 0
  · rw [drain_of_last hroom] at h
    cases h
  · rw [drain_of_room hroom] at h
    split at h
    · exact (Option.some.inj h).symm
    · cases h

/-- What is kept was held. -/
theorem of_mem_drain {id : LogId} {e : Entry} (h : (b.drain position).2.entries[id]? = some e) :
    b.entries[id]? = some e := by
  by_cases hroom : position + 1 = 0
  · rwa [drain_of_last hroom] at h
  · rw [drain_of_room hroom] at h
    exact (of_mem_filter (of_mem_foldl_erase h)).1

/-! ## The run in front -/

theorem mem_rowsFrom {next id : LogId} {e : Entry} :
    (id, e) ∈ b.rowsFrom next ↔ b.entries[id]? = some e ∧ next ≤ id := by
  unfold rowsFrom
  rw [ExtTreeMap.mem_toList_iff_getElem?_eq_some, ExtTreeMap.getElem?_filter',
    Option.filter_eq_some_iff, decide_eq_true_eq]

theorem sorted_rowsFrom (next : LogId) : (b.rowsFrom next).Pairwise fun a b => a.1 < b.1 := by
  unfold rowsFrom
  refine (ExtTreeMap.ordered_keys_toList).imp ?_
  intro a b hab
  simp only [compare, compareOfLessAndEq] at hab
  split at hab
  · assumption
  · split at hab <;> cases hab

theorem le_of_mem_rowsFrom {next : LogId} : ∀ row ∈ b.rowsFrom next, next ≤ row.1 := by
  rintro ⟨id, e⟩ hrow
  exact (mem_rowsFrom.mp hrow).2

/-- What is to be handed out is held. -/
theorem of_mem_ready {e : Entry} (h : e ∈ b.ready position) :
    ∃ id : LogId, b.entries[id]? = some e := by
  obtain ⟨⟨id, f⟩, hmem, rfl⟩ := List.mem_map.mp h
  unfold readyRows at hmem
  split at hmem
  · cases hmem
  · exact ⟨id, (mem_rowsFrom.mp ((run_isPrefix _ _).subset hmem)).1⟩

theorem length_ready : (b.ready position).length = (b.readyRows position).length :=
  List.length_map _

theorem toNat_succ_of_lt {id next : LogId} (h : id < next) : (id + 1).toNat = id.toNat + 1 := by
  have hlt := UInt64.lt_iff_toNat_lt.mp h
  have hbound := next.toNat_lt
  rw [UInt64.toNat_add, UInt64.toNat_one]
  omega

theorem succ_le_of_lt {id next : LogId} (h : id < next) : id + 1 ≤ next := by
  rw [UInt64.le_iff_toNat_le, toNat_succ_of_lt h]
  exact UInt64.lt_iff_toNat_lt.mp h

/-- The ids of a run follow one another. -/
theorem ids_run {rows : List (LogId × Entry)} {next : LogId}
    (sorted : rows.Pairwise fun a b => a.1 < b.1) (hnext : ∀ row ∈ rows, next ≤ row.1) :
    (run next rows).map (·.1.toNat) = List.range' next.toNat (run next rows).length := by
  induction rows generalizing next with
  | nil => rfl
  | cons row rows ih =>
    obtain ⟨id, e⟩ := row
    rw [List.pairwise_cons] at sorted
    unfold run
    by_cases hid : id = next
    · subst hid
      have hrest := ih sorted.2 fun row hrow => succ_le_of_lt (sorted.1 row hrow)
      rw [if_pos rfl, List.map_cons, List.length_cons, List.range'_succ, hrest]
      cases rows with
      | nil => rfl
      | cons row rows => rw [toNat_succ_of_lt (sorted.1 row List.mem_cons_self)]
    · rw [if_neg hid]
      rfl

/-- Of rows in order of id, none has the id behind the run at the front. -/
theorem not_mem_behind_run {rows : List (LogId × Entry)} {next : LogId}
    (sorted : rows.Pairwise fun a b => a.1 < b.1) (hnext : ∀ row ∈ rows, next ≤ row.1) :
    ∀ row ∈ rows, row.1.toNat ≠ next.toNat + (run next rows).length := by
  induction rows generalizing next with
  | nil => simp
  | cons row rows ih =>
    obtain ⟨id, e⟩ := row
    rw [List.pairwise_cons] at sorted
    unfold run
    -- the run goes on with this row, or it ends here and all rows are above its id
    by_cases hid : id = next
    · subst hid
      rw [if_pos rfl, List.length_cons]
      have hrest := ih sorted.2 fun row hrow => succ_le_of_lt (sorted.1 row hrow)
      intro row hrow
      rcases List.mem_cons.mp hrow with rfl | hrow
      · show id.toNat ≠ id.toNat + ((run (id + 1) rows).length + 1)
        omega
      · have hne := hrest row hrow
        rw [toNat_succ_of_lt (sorted.1 row hrow)] at hne
        show row.1.toNat ≠ id.toNat + ((run (id + 1) rows).length + 1)
        rwa [Nat.add_right_comm, Nat.add_assoc] at hne
    · rw [if_neg hid, List.length_nil, Nat.add_zero]
      have hlt : next < id := UInt64.lt_of_le_of_ne (hnext _ List.mem_cons_self) (Ne.symm hid)
      intro row hrow heq
      have hsame : row.1 = next := UInt64.toNat_inj.mp heq
      rcases List.mem_cons.mp hrow with rfl | hrow
      · exact hid hsame
      · have := sorted.1 row hrow
        rw [hsame] at this
        exact absurd (UInt64.lt_trans hlt this) (UInt64.lt_irrefl _)

theorem succ_ne_zero_of_lt {id : LogId} (h : position < id) : position + 1 ≠ 0 := by
  intro hzero
  have hsucc := toNat_succ_of_lt h
  rw [hzero] at hsucc
  exact Nat.succ_ne_zero _ hsucc.symm

/-- The buffer does not hold the entry that would follow what is to be handed out. -/
theorem not_mem_behind_ready {id : LogId} {e : Entry} (h : b.entries[id]? = some e) :
    id.toNat ≠ position.toNat + (b.ready position).length + 1 := by
  intro hid
  have hlt : position < id := by
    rw [UInt64.lt_iff_toNat_lt]
    omega
  apply not_mem_behind_run (sorted_rowsFrom _) le_of_mem_rowsFrom _
    (mem_rowsFrom.mpr ⟨h, succ_le_of_lt hlt⟩)
  show id.toNat = _
  rw [← readyRows_of_room (succ_ne_zero_of_lt hlt), ← length_ready, toNat_succ_of_lt hlt, hid]
  omega

end PushBuffer

end LogShipping
