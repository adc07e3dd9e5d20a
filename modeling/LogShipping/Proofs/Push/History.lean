import LogShipping.Proofs.Lists
import LogShipping.Proofs.Push.Buffer
import Mathlib.Algebra.Group.Nat.Defs

/-!
# Histories of a push buffer

Pushes arrive out of order, twice or late, and between them the buffer is drained at positions that the
pull path moved, or cleared. A diary writes down what the buffer did. Whatever is asked of it, the diary
accounts for what is held (`Diary.Good`): an entry that is held is the one taken last for its id, and an
entry that was taken is held unless a later record removed it. So nothing is lost and nothing is handed
out twice (`Diary.run_lawful`).

An entry may go for one of five reasons (`Record.Removes`): a later one took its place, it was handed
out, the position has overtaken it, the buffer was cleared, or a drain broke down that had taken it out.
The last is the outcome of the overflow check behind an entry of the last id, and the entries of such a
drain are lost, since it never comes to return them. At the last position the check is made first, so
nothing is lost there, and nothing thrown away either (`overtaken_left_at_last_position`).

The laws are stated for every list of calls and every position, positions that go back included. Each
call is one step: the buffer has a lock of its own, and its calls do not overlap. That entries with one
id are the same entry is not assumed; the one taken last is the one that counts.
-/

namespace LogShipping

open Std

namespace PushBuffer

variable {b : PushBuffer} {position : LogId} {e : Entry}

/-! ## Taking in -/

theorem accepts_iff : b.accepts e position = true ↔
    position < e.id ∧ (b.size < b.capacity ∨ (b.entries[e.id]?).isSome = true) := by
  unfold accepts size
  rw [Bool.and_eq_true, Bool.or_eq_true, decide_eq_true_eq, decide_eq_true_eq,
    ExtTreeMap.contains_eq_isSome_getElem?]

theorem insert_of_accepts (h : b.accepts e position = true) :
    b.insert e position = (true, { b with entries := b.entries.insert e.id e }) := by
  unfold insert
  rw [if_pos h]

theorem insert_of_declines (h : b.accepts e position = false) :
    b.insert e position = (false, b) := by
  unfold insert
  rw [h]
  rfl

theorem insert_fst : (b.insert e position).1 = b.accepts e position := by
  cases h : b.accepts e position with
  | true => rw [insert_of_accepts h]
  | false => rw [insert_of_declines h]

theorem getElem?_insert (held : ExtTreeMap LogId Entry) (e : Entry) (id : LogId) :
    (held.insert e.id e)[id]? = if id = e.id then some e else held[id]? := by
  rw [ExtTreeMap.getElem?_insert]
  by_cases hid : id = e.id
  · rw [if_pos (LawfulEqCmp.compare_eq_iff_eq.mpr hid.symm), if_pos hid]
  · rw [if_neg fun heq => hid (LawfulEqCmp.eq_of_compare heq).symm, if_neg hid]

/-! ## Handing out -/

theorem getElem?_foldl_erase (rows : List (LogId × Entry)) (held : ExtTreeMap LogId Entry)
    (id : LogId) : (rows.foldl (fun held row => held.erase row.1) held)[id]? =
      if id ∈ rows.map (·.1) then none else held[id]? := by
  induction rows generalizing held with
  | nil => rfl
  | cons row rows ih =>
    rw [List.foldl_cons, ih, ExtTreeMap.getElem?_erase]
    simp only [LawfulEqCmp.compare_eq_iff_eq, List.map_cons, List.mem_cons]
    by_cases hrest : id ∈ rows.map (·.1)
    · rw [if_pos hrest, if_pos (Or.inr hrest)]
    · rw [if_neg hrest]
      by_cases hid : row.1 = id
      · rw [if_pos hid, if_pos (Or.inl hid.symm)]
      · rw [if_neg hid, if_neg (not_or.mpr ⟨Ne.symm hid, hrest⟩)]

theorem size_foldl_erase_le (rows : List (LogId × Entry)) (held : ExtTreeMap LogId Entry) :
    (rows.foldl (fun held row => held.erase row.1) held).size ≤ held.size := by
  induction rows generalizing held with
  | nil => exact Nat.le_refl _
  | cons row rows ih => exact Nat.le_trans (ih _) ExtTreeMap.size_erase_le

theorem size_drain_le : (b.drain position).2.size ≤ b.size := by
  by_cases hroom : position + 1 = 0
  · exact Nat.le_of_eq (by rw [drain_of_last hroom])
  · rw [drain_of_room hroom]
    exact Nat.le_trans (size_foldl_erase_le _ _) ExtTreeMap.size_filter_le_size

theorem capacity_drain : (b.drain position).2.capacity = b.capacity := by
  by_cases hroom : position + 1 = 0
  · rw [drain_of_last hroom]
  · rw [drain_of_room hroom]

/-- Every entry is held under its own id, and none under the id 0. -/
def Keyed (b : PushBuffer) : Prop :=
  ∀ (id : LogId) (e : Entry), b.entries[id]? = some e → e.id = id ∧ id ≠ 0

theorem Keyed.mem_ready (h : b.Keyed) (he : e ∈ b.ready position) : b.entries[e.id]? = some e := by
  obtain ⟨id, hid⟩ := of_mem_ready he
  rwa [(h id e hid).1]

/-- The rows that are taken out are the entries to be handed out, under their ids. -/
theorem Keyed.rows_eq (h : b.Keyed) (position : LogId) :
    b.readyRows position = (b.ready position).map fun e => (e.id, e) := by
  rw [ready, List.map_map]
  refine (List.map_id _).symm.trans (List.map_congr_left ?_)
  rintro ⟨id, e⟩ hrow
  unfold readyRows at hrow
  split at hrow
  · cases hrow
  · have hheld := (mem_rowsFrom.mp ((run_isPrefix _ _).subset hrow)).1
    show (id, e) = (e.id, e)
    rw [(h id e hheld).1]

theorem toNat_succ_of_ne_zero (h : position + 1 ≠ 0) :
    (position + 1).toNat = position.toNat + 1 := by
  have hbound := position.toNat_lt
  have hne : (position + 1).toNat ≠ 0 := fun hzero => h (UInt64.toNat_inj.mp hzero)
  rw [UInt64.toNat_add, UInt64.toNat_one] at hne ⊢
  omega

/-- The entries to be handed out are numbered one after another, from behind the position on. -/
theorem Keyed.ids_ready (h : b.Keyed) (position : LogId) :
    (b.ready position).map (·.id.toNat) =
      List.range' (position.toNat + 1) (b.ready position).length := by
  by_cases hroom : position + 1 = 0
  · rw [ready, readyRows, Counters.next?_eq_none_iff.mpr hroom]
    rfl
  · have hids := ids_run (sorted_rowsFrom (b := b) (position + 1)) le_of_mem_rowsFrom
    rwa [← readyRows_of_room hroom, h.rows_eq, List.map_map, List.length_map,
      toNat_succ_of_ne_zero hroom] at hids

theorem Keyed.mem_ids_ready (h : b.Keyed) {id : LogId} :
    id ∈ (b.ready position).map (·.id) ↔
      position.toNat < id.toNat ∧ id.toNat ≤ position.toNat + (b.ready position).length := by
  have hmem : id ∈ (b.ready position).map (·.id) ↔
      id.toNat ∈ (b.ready position).map (·.id.toNat) := by
    simp only [List.mem_map, UInt64.toNat_inj]
  rw [hmem, h.ids_ready, List.mem_range'_1]
  omega

theorem Keyed.mem_ready_iff (h : b.Keyed) : e ∈ b.ready position ↔ b.entries[e.id]? = some e ∧
    position.toNat < e.id.toNat ∧ e.id.toNat ≤ position.toNat + (b.ready position).length := by
  rw [← h.mem_ids_ready]
  constructor
  · exact fun he => ⟨h.mem_ready he, List.mem_map_of_mem he⟩
  · rintro ⟨he, hrun⟩
    obtain ⟨f, hf, hid⟩ := List.mem_map.mp hrun
    have hheld := h.mem_ready hf
    rw [hid, he] at hheld
    rwa [Option.some.inj hheld]

/-- The entries to be handed out are handed out exactly if there is an id behind them. -/
theorem Keyed.drain_fst (h : b.Keyed) (position : LogId) : (b.drain position).1 =
    if position.toNat + (b.ready position).length + 1 < 2 ^ 64 then some (b.ready position)
    else none := by
  by_cases hroom : position + 1 = 0
  · have hlast := UInt64.toNat_inj.mpr hroom
    rw [UInt64.toNat_add, UInt64.toNat_one, UInt64.toNat_zero] at hlast
    have hbound := position.toNat_lt
    rw [drain_of_last hroom, if_neg (by omega)]
  · have hnext : ((b.readyRows position).all fun row => (Counters.next? row.1).isSome) = true ↔
        position.toNat + (b.ready position).length + 1 < 2 ^ 64 := by
      have hsucc := toNat_succ_of_ne_zero hroom
      have hbound := (position + 1).toNat_lt
      rw [h.rows_eq, List.all_map, List.all_eq_true]
      constructor
      · intro hall
        by_contra hfull
        -- the run goes up to the last id, and its entry has none behind it
        have hmem : (18446744073709551615 : LogId) ∈ (b.ready position).map (·.id) :=
          h.mem_ids_ready.mpr (by
            rw [show (18446744073709551615 : LogId).toNat = 18446744073709551615 from rfl]
            omega)
        obtain ⟨e, he, hid⟩ := List.mem_map.mp hmem
        have hsome := hall e he
        simp only [Function.comp_apply, hid] at hsome
        exact absurd hsome (by decide)
      · intro hspace e he
        have hle := (h.mem_ids_ready.mp (List.mem_map_of_mem he)).2
        rw [Function.comp_apply, Option.isSome_iff_ne_none, ne_eq, Counters.next?_eq_none_iff]
        intro hzero
        have hover : (e.id + 1).toNat = 0 := UInt64.toNat_inj.mpr hzero
        rw [UInt64.toNat_add, UInt64.toNat_one] at hover
        omega
    rw [drain_of_room hroom]
    by_cases hspace : position.toNat + (b.ready position).length + 1 < 2 ^ 64
    · rw [if_pos (hnext.mpr hspace), if_pos hspace]
    · rw [if_neg (mt hnext.mp hspace), if_neg hspace]

/-- A drain leaves what is beyond the entries to be handed out, unless the position is the last one. -/
theorem Keyed.getElem?_drain (h : b.Keyed) (hnext : position + 1 ≠ 0) (id : LogId) :
    (b.drain position).2.entries[id]? =
      if position.toNat + (b.ready position).length < id.toNat then b.entries[id]? else none := by
  have hids : (b.readyRows position).map (·.1) = (b.ready position).map (·.id) := by
    rw [h.rows_eq, List.map_map]
    rfl
  have hsucc := toNat_succ_of_ne_zero hnext
  rw [drain_of_room hnext]
  show (List.foldl _ (b.entries.filter fun id _ => position + 1 ≤ id) (b.readyRows position))[id]? = _
  rw [getElem?_foldl_erase, hids, ExtTreeMap.getElem?_filter']
  by_cases hrun : id ∈ (b.ready position).map (·.id)
  · rw [if_pos hrun, if_neg (Nat.not_lt.mpr (h.mem_ids_ready.mp hrun).2)]
  · rw [if_neg hrun]
    have hout := fun hin => hrun (h.mem_ids_ready.mpr hin)
    by_cases hbeyond : position.toNat + (b.ready position).length < id.toNat
    · have hkeep : position + 1 ≤ id := by
        rw [UInt64.le_iff_toNat_le, hsucc]
        omega
      rw [if_pos hbeyond, decide_eq_true hkeep]
      cases b.entries[id]? <;> rfl
    · have hthrow : ¬position + 1 ≤ id := by
        rw [UInt64.le_iff_toNat_le, hsucc]
        exact fun hle => hout ⟨hle, Nat.not_lt.mp hbeyond⟩
      rw [if_neg hbeyond, decide_eq_false hthrow]
      cases b.entries[id]? <;> rfl

theorem Keyed.getElem?_drain_of_ready (h : b.Keyed) (he : e ∈ b.ready position) :
    (b.drain position).2.entries[e.id]? = none := by
  obtain ⟨-, hlt, hle⟩ := h.mem_ready_iff.mp he
  rw [h.getElem?_drain (succ_ne_zero_of_lt (UInt64.lt_iff_toNat_lt.mpr hlt)),
    if_neg (Nat.not_lt.mpr hle)]

/-! ## Calls and records -/

/-- What may be asked of a buffer. -/
inductive Call where
  /-- To take an entry in, at a position. -/
  | insert (e : Entry) (position : LogId)
  /-- To hand out what follows a position. -/
  | drain (position : LogId)
  /-- To forget all entries. -/
  | clear

/-- What a buffer did. -/
inductive Record where
  /-- It took an entry in. -/
  | taken (e : Entry)
  /-- It declined an entry. -/
  | declined (e : Entry)
  /-- It handed out entries, at a position. -/
  | handed (position : LogId) (entries : List Entry)
  /-- It took entries out at a position, and broke down before it handed them out. -/
  | broken (position : LogId) (entries : List Entry)
  /-- It forgot all entries. -/
  | cleared

/-- Whether a record is a reason for an entry not to be held any more: it was replaced, handed out or
lost on the way, overtaken by the position of a drain, or forgotten with all others. -/
def Record.Removes (e : Entry) : Record → Prop
  | .taken f => f.id = e.id
  | .declined _ => False
  | .handed position entries | .broken position entries => e ∈ entries ∨ e.id ≤ position
  | .cleared => True

/-- Whether a record moves what is held under an id. -/
def Record.Moves (id : LogId) : Record → Prop
  | .taken e => e.id = id
  | .declined _ => False
  | .handed _ entries | .broken _ entries => ∃ e ∈ entries, e.id = id
  | .cleared => True

/-- A buffer and what it did so far, the earliest record first. -/
structure Diary where
  /-- The buffer. -/
  buffer : PushBuffer
  /-- What it did. -/
  records : List Record := []

namespace Diary

/-- The diary of a new buffer. -/
def new (capacity : Nat) : Diary := { buffer := PushBuffer.new capacity }

/-- The diary after a call. -/
def after (d : Diary) : Call → Diary
  | .insert e position =>
    let record := if (d.buffer.insert e position).1 then Record.taken e else .declined e
    ⟨(d.buffer.insert e position).2, d.records ++ [record]⟩
  | .drain position =>
    let record := match (d.buffer.drain position).1 with
      | some entries => Record.handed position entries
      | none => .broken position (d.buffer.ready position)
    ⟨(d.buffer.drain position).2, d.records ++ [record]⟩
  | .clear => ⟨d.buffer.clear, d.records ++ [.cleared]⟩

/-- The diary after some calls. -/
def run (d : Diary) (calls : List Call) : Diary := calls.foldl after d

/-- Whether an entry is the one taken last for its id. -/
def TakenLast (d : Diary) (e : Entry) : Prop :=
  ∃ before later, d.records = before ++ .taken e :: later ∧ ∀ f, .taken f ∈ later → f.id ≠ e.id

theorem after_insert_of_accepts {d : Diary} (h : d.buffer.accepts e position = true) :
    d.after (.insert e position) =
      ⟨{ d.buffer with entries := d.buffer.entries.insert e.id e }, d.records ++ [.taken e]⟩ := by
  simp only [after, insert_of_accepts h, if_true]

theorem after_insert_of_declines {d : Diary} (h : d.buffer.accepts e position = false) :
    d.after (.insert e position) = ⟨d.buffer, d.records ++ [.declined e]⟩ := by
  simp only [after, insert_of_declines h, Bool.false_eq_true, if_false]

theorem after_drain (d : Diary) (position : LogId) : ∃ r,
    d.after (.drain position) = ⟨(d.buffer.drain position).2, d.records ++ [r]⟩ ∧
      (r = .handed position (d.buffer.ready position) ∨
        r = .broken position (d.buffer.ready position)) := by
  cases h : (d.buffer.drain position).1 with
  | none => exact ⟨_, by simp only [after, h], Or.inr rfl⟩
  | some entries =>
    have hready := eq_ready_of_drain h
    subst hready
    exact ⟨_, by simp only [after, h], Or.inl rfl⟩

/-! ## What the records account for -/

/-- A diary that accounts for what its buffer holds. -/
structure Good (d : Diary) : Prop where
  /-- The buffer holds at most what it has room for. -/
  bounded : d.buffer.size ≤ d.buffer.capacity
  /-- No entry is held under the id of another, nor under the id 0. -/
  keyed : d.buffer.Keyed
  /-- An entry that is held was taken, and no later record moves what is held under its id. -/
  held : ∀ (id : LogId) (e : Entry), d.buffer.entries[id]? = some e →
    ∃ before later, d.records = before ++ .taken e :: later ∧ ∀ r ∈ later, ¬r.Moves id
  /-- An entry that was taken is held, unless a later record removed it. -/
  kept : ∀ before e later, d.records = before ++ .taken e :: later →
    d.buffer.entries[e.id]? = some e ∨ ∃ r ∈ later, r.Removes e
  /-- Between two records that hand out an id, the entry handed out second was taken. -/
  again : ∀ before p es middle q fs later (e f : Entry),
    d.records = before ++ .handed p es :: middle ++ .handed q fs :: later →
    e ∈ es → f ∈ fs → e.id = f.id → .taken f ∈ middle

variable {d : Diary}

theorem good_new (capacity : Nat) : (new capacity).Good where
  bounded := Nat.zero_le _
  keyed := by
    intro id e h
    rw [show (new capacity).buffer.entries[id]? = none from ExtTreeMap.getElem?_empty] at h
    cases h
  held := by
    intro id e h
    rw [show (new capacity).buffer.entries[id]? = none from ExtTreeMap.getElem?_empty] at h
    cases h
  kept := by
    intro before e later h
    exact absurd h.symm (List.append_ne_nil_of_right_ne_nil _ (List.cons_ne_nil _ _))
  again := by
    intro before p es middle q fs later e f h
    exact absurd h.symm (List.append_ne_nil_of_right_ne_nil _ (List.cons_ne_nil _ _))

/-- A buffer that did one thing more keeps a good diary, if what it holds now was held before or is
the entry just taken, and what it does not hold any more was removed by this record. -/
theorem Good.snoc (h : d.Good) {b : PushBuffer} {r : Record} (hbounded : b.size ≤ b.capacity)
    (hheld : ∀ (id : LogId) (e : Entry), b.entries[id]? = some e →
      (e.id = id ∧ id ≠ 0 ∧ r = .taken e) ∨ (d.buffer.entries[id]? = some e ∧ ¬r.Moves id))
    (htaken : ∀ e, r = .taken e → b.entries[e.id]? = some e)
    (hkept : ∀ e : Entry, d.buffer.entries[e.id]? = some e →
      b.entries[e.id]? = some e ∨ r.Removes e)
    (hhanded : ∀ p es, r = .handed p es → ∀ e ∈ es, d.buffer.entries[e.id]? = some e) :
    Good ⟨b, d.records ++ [r]⟩ where
  bounded := hbounded
  keyed := by
    intro id e he
    rcases hheld id e he with ⟨hid, hzero, -⟩ | ⟨hold, -⟩
    · exact ⟨hid, hzero⟩
    · exact h.keyed id e hold
  held := by
    intro id e he
    rcases hheld id e he with ⟨hid, -, rfl⟩ | ⟨hold, hmoves⟩
    · exact ⟨d.records, [], rfl, fun r hr => absurd hr List.not_mem_nil⟩
    · obtain ⟨before, later, hsplit, hnone⟩ := h.held id e hold
      refine ⟨before, later ++ [r], ?_, ?_⟩
      · rw [hsplit, List.append_assoc, List.cons_append]
      · intro r' hr'
        rcases List.mem_append.mp hr' with hr' | hr'
        · exact hnone r' hr'
        · rw [List.mem_singleton.mp hr']
          exact hmoves
  kept := by
    intro before e later hsplit
    rcases List.eq_nil_or_concat later with rfl | ⟨later, last, rfl⟩
    · exact Or.inl (htaken e (List.singleton_inj.mp (List.append_inj_right' hsplit rfl)))
    · rw [List.concat_eq_append, ← List.cons_append, ← List.append_assoc] at hsplit
      have hpast := List.append_inj_left' hsplit rfl
      have hlast := List.singleton_inj.mp (List.append_inj_right' hsplit rfl)
      subst hlast
      rw [List.concat_eq_append]
      rcases h.kept before e later hpast with hin | ⟨r', hr', hremoves⟩
      · rcases hkept e hin with hin | hremoves
        · exact Or.inl hin
        · exact Or.inr ⟨r, List.mem_append_right _ List.mem_cons_self, hremoves⟩
      · exact Or.inr ⟨r', List.mem_append_left _ hr', hremoves⟩
  again := by
    intro before p es middle q fs later e f hsplit he hf hid
    rcases List.eq_nil_or_concat later with rfl | ⟨later, last, rfl⟩
    · -- the second of the two records is the new one, so its entry was held before
      have hpast := List.append_inj_left' hsplit rfl
      have hr := List.singleton_inj.mp (List.append_inj_right' hsplit rfl)
      obtain ⟨before', later', hsplit', hnone⟩ := h.held f.id f (hhanded q fs hr f hf)
      rcases mem_of_append_cons_eq (hpast.symm.trans hsplit') nofun with htaken | hfirst
      · exact htaken
      · exact absurd ⟨e, he, hid⟩ (hnone _ hfirst)
    · rw [List.concat_eq_append, ← List.cons_append, ← List.append_assoc] at hsplit
      exact h.again before p es middle q fs later e f (List.append_inj_left' hsplit rfl) he hf hid

theorem good_after_insert (h : d.Good) (e : Entry) (position : LogId) :
    (d.after (.insert e position)).Good := by
  have hbounded := d.buffer.size_insert_le e position h.bounded
  cases haccepts : d.buffer.accepts e position with
  | true =>
    rw [insert_of_accepts haccepts] at hbounded
    rw [after_insert_of_accepts haccepts]
    have hlt : position < e.id := (accepts_iff.mp haccepts).1
    refine h.snoc hbounded ?_ ?_ ?_ nofun
    · intro id f hf
      rw [getElem?_insert] at hf
      split at hf
      · next hid =>
        cases hf
        have hzero : id ≠ 0 := by
          rintro rfl
          exact UInt64.not_lt_zero (hid ▸ hlt)
        exact Or.inl ⟨hid.symm, hzero, rfl⟩
      · next hid => exact Or.inr ⟨hf, Ne.symm hid⟩
    · intro f hf
      cases hf
      rw [getElem?_insert, if_pos rfl]
    · intro f hf
      rw [getElem?_insert]
      by_cases hid : f.id = e.id
      · exact Or.inr hid.symm
      · rw [if_neg hid]
        exact Or.inl hf
  | false =>
    rw [after_insert_of_declines haccepts]
    exact h.snoc h.bounded (fun _ _ hf => Or.inr ⟨hf, id⟩) nofun (fun _ hf => Or.inl hf) nofun

theorem good_after_drain (h : d.Good) (position : LogId) : (d.after (.drain position)).Good := by
  obtain ⟨r, hafter, hr⟩ := d.after_drain position
  have hremoves : ∀ e, r.Removes e ↔ e ∈ d.buffer.ready position ∨ e.id ≤ position := by
    rcases hr with rfl | rfl <;> exact fun e => Iff.rfl
  have hmoves : ∀ id, r.Moves id ↔ ∃ e ∈ d.buffer.ready position, e.id = id := by
    rcases hr with rfl | rfl <;> exact fun id => Iff.rfl
  rw [hafter]
  refine h.snoc ?_ ?_ ?_ ?_ ?_
  · rw [capacity_drain]
    exact Nat.le_trans size_drain_le h.bounded
  · intro id e he
    refine Or.inr ⟨of_mem_drain he, fun hmove => ?_⟩
    obtain ⟨f, hf, rfl⟩ := (hmoves id).mp hmove
    rw [h.keyed.getElem?_drain_of_ready hf] at he
    cases he
  · rintro e rfl
    rcases hr with hr | hr <;> cases hr
  · intro e he
    rw [hremoves]
    by_cases hle : e.id ≤ position
    · exact Or.inr (Or.inr hle)
    · have hlt := UInt64.not_le.mp hle
      rw [h.keyed.getElem?_drain (succ_ne_zero_of_lt hlt)]
      split
      · exact Or.inl he
      · next hbeyond =>
        have hle := Nat.not_lt.mp hbeyond
        exact Or.inr (Or.inl
          (h.keyed.mem_ready_iff.mpr ⟨he, UInt64.lt_iff_toNat_lt.mp hlt, hle⟩))
  · rintro p es rfl e he
    rcases hr with hr | hr <;> cases hr
    exact h.keyed.mem_ready he

theorem good_after_clear (h : d.Good) : (d.after .clear).Good := by
  have hnone : ∀ id : LogId, d.buffer.clear.entries[id]? = none := fun _ => ExtTreeMap.getElem?_empty
  refine h.snoc (Nat.zero_le _) ?_ nofun (fun _ _ => Or.inr trivial) nofun
  intro id e he
  rw [hnone] at he
  cases he

theorem Good.after (h : d.Good) (call : Call) : (d.after call).Good := by
  cases call with
  | insert e position => exact good_after_insert h e position
  | drain position => exact good_after_drain h position
  | clear => exact good_after_clear h

theorem Good.run (h : d.Good) (calls : List Call) : (d.run calls).Good := by
  induction calls generalizing d with
  | nil => exact h
  | cons call calls ih => exact ih (h.after call)

/-! ## The laws of a buffer in use -/

theorem capacity_after (d : Diary) (call : Call) :
    (d.after call).buffer.capacity = d.buffer.capacity := by
  cases call with
  | insert e position =>
    cases h : d.buffer.accepts e position with
    | true => rw [after_insert_of_accepts h]
    | false => rw [after_insert_of_declines h]
  | drain position => exact capacity_drain
  | clear => rfl

theorem capacity_run (d : Diary) (calls : List Call) :
    (d.run calls).buffer.capacity = d.buffer.capacity := by
  induction calls generalizing d with
  | nil => rfl
  | cons call calls ih => exact (ih _).trans (d.capacity_after call)

/-- What the buffer does with an entry at a position. -/
structure Inserts (d : Diary) (e : Entry) (position : LogId) : Prop where
  /-- The entry is taken if it is above the position, and if there is room or its id is held. -/
  taken_iff : (d.buffer.insert e position).1 = true ↔ position < e.id ∧
    (d.buffer.size < d.buffer.capacity ∨ (d.buffer.entries[e.id]?).isSome = true)
  /-- An entry that is taken is held under its id from then on; under other ids nothing changes. -/
  replaces : (d.buffer.insert e position).1 = true → ∀ id : LogId,
    (d.buffer.insert e position).2.entries[id]? = if id = e.id then some e else d.buffer.entries[id]?
  /-- An entry that is declined changes nothing. -/
  declines : (d.buffer.insert e position).1 = false → (d.buffer.insert e position).2 = d.buffer

/-- What a drain at a position hands out and leaves. -/
structure Drains (d : Diary) (position : LogId) : Prop where
  /-- The entries that are ready are handed out, if there is an id behind them. -/
  hands : (d.buffer.drain position).1 =
    if position.toNat + (d.buffer.ready position).length + 1 < 2 ^ 64
    then some (d.buffer.ready position) else none
  /-- The ids of the ready entries follow the position, one after another. -/
  ids : (d.buffer.ready position).map (·.id.toNat) =
    List.range' (position.toNat + 1) (d.buffer.ready position).length
  /-- Each of the entries was held, and is the one taken last for its id. -/
  newest : ∀ e ∈ d.buffer.ready position, d.buffer.entries[e.id]? = some e ∧ d.TakenLast e
  /-- The id that would follow is not held. -/
  gap : ∀ id : LogId, id.toNat = position.toNat + (d.buffer.ready position).length + 1 →
    d.buffer.entries[id]? = none
  /-- The entries with ids above are left and no others, unless the position is the last of all. -/
  left : position + 1 ≠ 0 → ∀ id : LogId, (d.buffer.drain position).2.entries[id]? =
    if position.toNat + (d.buffer.ready position).length < id.toNat then d.buffer.entries[id]?
    else none
  /-- At the last position of all nothing is thrown away. -/
  stuck : position + 1 = 0 → (d.buffer.drain position).2 = d.buffer

/-- The laws of a buffer of some capacity, with what it did so far. -/
structure Lawful (capacity : Nat) (d : Diary) : Prop where
  /-- There is room for as many entries as asked for, and for one at least. -/
  room : d.buffer.capacity = max capacity 1
  /-- The room is never exceeded. -/
  bounded : d.buffer.size ≤ max capacity 1
  inserts : ∀ e position, d.Inserts e position
  drains : ∀ position, d.Drains position
  clears : ∀ id : LogId, d.buffer.clear.entries[id]? = none
  /-- No loss: an entry that was taken is held, unless a later record removed it. -/
  kept : ∀ before e later, d.records = before ++ .taken e :: later →
    d.buffer.entries[e.id]? = some e ∨ ∃ r ∈ later, r.Removes e
  /-- No duplicates: before an id is handed out again, the entry handed out is taken again. -/
  again : ∀ before p es middle q fs later (e f : Entry),
    d.records = before ++ .handed p es :: middle ++ .handed q fs :: later →
    e ∈ es → f ∈ fs → e.id = f.id → .taken f ∈ middle

theorem inserts (d : Diary) (e : Entry) (position : LogId) : d.Inserts e position where
  taken_iff := by
    rw [insert_fst]
    exact accepts_iff
  replaces := by
    intro htaken id
    rw [insert_fst] at htaken
    rw [insert_of_accepts htaken]
    exact getElem?_insert _ _ _
  declines := by
    intro hdeclined
    rw [insert_fst] at hdeclined
    rw [insert_of_declines hdeclined]

theorem Good.takenLast (h : d.Good) (he : d.buffer.entries[e.id]? = some e) : d.TakenLast e := by
  obtain ⟨before, later, hsplit, hnone⟩ := h.held e.id e he
  exact ⟨before, later, hsplit, fun f hf => hnone (.taken f) hf⟩

theorem Good.drains (h : d.Good) (position : LogId) : d.Drains position where
  hands := h.keyed.drain_fst position
  ids := h.keyed.ids_ready position
  newest := by
    intro e he
    have hheld := h.keyed.mem_ready he
    exact ⟨hheld, h.takenLast hheld⟩
  gap := by
    intro id hid
    by_contra hheld
    obtain ⟨e, he⟩ := Option.ne_none_iff_exists'.mp hheld
    exact not_mem_behind_ready he hid
  left := h.keyed.getElem?_drain
  stuck := fun hlast => by rw [drain_of_last hlast]

/-- Whatever was asked of a new buffer: its room is never exceeded; an entry is taken exactly if it is
above the position and there is room or its id is held; a drain hands out the entries that follow the
position up to the first gap, each the one taken last for its id, and leaves those beyond, and it breaks
down exactly if they go up to the last id of all; an entry that was taken is lost only for one of the
reasons; and no id is handed out twice without being taken in between. -/
theorem run_lawful (capacity : Nat) (calls : List Call) :
    ((new capacity).run calls).Lawful capacity := by
  have hgood := (good_new capacity).run calls
  have hroom : ((new capacity).run calls).buffer.capacity = max capacity 1 :=
    capacity_run (new capacity) calls
  exact {
    room := hroom
    bounded := hroom ▸ hgood.bounded
    inserts := inserts _
    drains := hgood.drains
    clears := fun _ => ExtTreeMap.getElem?_empty
    kept := hgood.kept
    again := hgood.again }

/-- Pushes that came out of order are handed out in order, up to the gap. -/
example : (((new 4).run [.insert { id := 4, updater := "x" } 2, .insert { id := 6, updater := "x" } 2,
    .insert { id := 3, updater := "x" } 2]).buffer.ready 2).map (·.id) = [3, 4] := by
  decide +kernel

/-- Behind the last position of all there is no next one: a drain there breaks down, and throws away
nothing of what the position has overtaken. -/
theorem overtaken_left_at_last_position :
    let e : Entry := { id := 5, timestamp := 1, updater := "x", items := [] }
    let d := (new 4).run [.insert e 0]
    let position : LogId := 18446744073709551615
    e.id ≤ position ∧ (d.buffer.drain position).1 = none ∧
      (d.buffer.drain position).2.entries[e.id]? = some e := by
  decide +kernel

end Diary

end PushBuffer

end LogShipping
