import LogShipping.Proofs.Log.Pages
import LogShipping.Proofs.Log.Reopening

/-!
# Intact logs

A log partition is intact if it holds the entries from 1 up to its position, each in a record of its own
(`Rows.Intact`). Its pages are its entries, cut to the limit, and entries that follow the position and
touch nothing but data make it a longer intact log (`Intact.append`).

This asks for less than holding a history. It is a property of the rows of one partition, without the
time index, without the data, and without any assumption on where the entries came from; it is what a
reader of pages depends on. A log that holds a history is intact, but so is one whose data somebody else
has written.

An intact log may end at the last id there is. Then its last page is not handed out
(`Proofs.Log.Pages`), so statements about pages say that an id is left behind the position.
-/

namespace LogShipping

open Std

namespace Rows

variable {rows : Rows} {position lastSeen id : LogId} {most : Nat} {entries page : List Entry}

/-- The log partition holds the entries, numbered from 1 up to the position, each in a record of its
own, and no id beyond. -/
structure Intact (rows : Rows) (position : LogId) (entries : List Entry) : Prop where
  reached : position.toNat = entries.length
  upTo : rows.LogUpTo position
  numbered : ∀ (i : Nat) (h : i < entries.length), entries[i].id.toNat = i + 1
  records : ∀ e ∈ entries, ∃ record, rows[Key.log e.id]? = some record ∧
    Stored.decode record = .ok e

namespace Intact

/-- The entry behind an id below the position is the one at that place. -/
theorem record_at (h : rows.Intact position entries) {i : Nat} (hi : i < entries.length)
    (hid : id.toNat = i + 1) :
    ∃ record, rows[Key.log id]? = some record ∧ Stored.decode record = .ok entries[i] := by
  have heq : entries[i].id = id := by
    rw [← UInt64.toNat_inj, h.numbered i hi, hid]
  rw [← heq]
  exact h.records _ (List.getElem_mem hi)

/-- In an intact log no run meets a flaw. -/
theorem not_flawed (h : rows.Intact position entries) (hrun : rows.InRun lastSeen most id) :
    ¬ rows.Flawed id := by
  rintro ⟨record, hrow, hflaw⟩
  have hposition := h.reached
  have hbeyond := UInt64.lt_iff_toNat_lt.mp hrun.beyond
  have hle := UInt64.le_iff_toNat_le.mp (h.upTo.le_of_inRun hrun)
  have hi : id.toNat - 1 < entries.length := by omega
  obtain ⟨record', hrow', hrecord⟩ := h.record_at hi (show id.toNat = _ by omega)
  rw [hrow, Option.some.injEq] at hrow'
  subst hrow'
  refine hflaw _ hrecord (UInt64.toNat_inj.mp ?_)
  rw [h.numbered _ hi]
  omega

/-- An id is in the run as long as the limit and the log reach to it. -/
theorem inRun (h : rows.Intact position entries) (hbeyond : lastSeen < id)
    (hnear : id.toNat ≤ lastSeen.toNat + most) (hle : id.toNat ≤ entries.length) :
    rows.InRun lastSeen most id where
  beyond := hbeyond
  near := hnear
  present other hother hle' := by
    rw [UInt64.lt_iff_toNat_lt] at hother
    rw [UInt64.le_iff_toNat_le] at hle'
    have hi : other.toNat - 1 < entries.length := by omega
    obtain ⟨record, hrow, -⟩ := h.record_at hi (show other.toNat = _ by omega)
    exact mem_of_getElem? hrow

/-- A page of an intact log is as long as the limit and what is left of the log allow. -/
theorem length_page (h : rows.Intact position entries) (hseen : lastSeen ≤ position)
    (hpage : rows.Page lastSeen most page) :
    page.length = min most (entries.length - lastSeen.toNat) := by
  have hposition := h.reached
  have hend := hpage.length_le h.upTo hseen
  have hmax := position.toNat_lt
  have hmost : page.length ≤ most := by
    by_contra hmore
    have hlast : page.length - 1 < page.length := by omega
    have hrun := (hpage.run page[page.length - 1].id).mpr ⟨_, List.getElem_mem hlast, rfl⟩
    have hnear := hrun.near
    rw [hpage.numbered _ hlast] at hnear
    omega
  by_contra hshort
  -- the id behind the page would be in the run, so the page would have its entry
  have hid : (UInt64.ofNat (lastSeen.toNat + page.length + 1)).toNat
      = lastSeen.toNat + page.length + 1 := by
    rw [UInt64.toNat_ofNat', Nat.mod_eq_of_lt (by omega)]
  have hrun : rows.InRun lastSeen most (UInt64.ofNat (lastSeen.toNat + page.length + 1)) :=
    h.inRun (by rw [UInt64.lt_iff_toNat_lt]; omega) (by omega) (by omega)
  obtain ⟨e, he, heid⟩ := (hpage.run _).mp hrun
  obtain ⟨i, hi, rfl⟩ := List.getElem_of_mem he
  have := hpage.numbered i hi
  rw [heid] at this
  omega

/-- The pages of an intact log are its entries, cut to the limit. -/
theorem page_eq (h : rows.Intact position entries) (hseen : lastSeen ≤ position)
    (hpage : rows.Page lastSeen most page) : page = (entries.drop lastSeen.toNat).take most := by
  have hlength := h.length_page hseen hpage
  refine List.ext_getElem (by rw [hlength, List.length_take, List.length_drop]) fun i hi _ => ?_
  rw [List.getElem_take, List.getElem_drop]
  obtain ⟨record, hrow, hrecord⟩ := hpage.records _ (List.getElem_mem hi)
  have hplace : lastSeen.toNat + i < entries.length := by omega
  obtain ⟨record', hrow', hrecord'⟩ := h.record_at hplace (hpage.numbered i hi)
  rw [hrow, Option.some.injEq] at hrow'
  rw [hrow', hrecord'] at hrecord
  exact (Except.ok.inj hrecord).symm

/-- A store without rows has the empty log. -/
theorem empty : (∅ : Rows).Intact 0 [] where
  reached := rfl
  upTo _ hkey := absurd hkey ExtTreeMap.not_mem_empty
  numbered i hi := absurd hi (Nat.not_lt_zero i)
  records _ he := absurd he List.not_mem_nil

/-! ### Entries taken in -/

/-- The entry that follows the position makes the log one entry longer. -/
theorem concat (h : rows.Intact position entries) {e : Entry} (hdata : e.reserved? = none)
    (hfits : e.Fits) (hid : e.id.toNat = position.toNat + 1) :
    (rows.applyAll e.ops).Intact e.id (entries ++ [e]) where
  reached := by rw [hid, h.reached, List.length_append, List.length_singleton]
  upTo := by
    intro key hkey hpartition
    have hitems := Entry.reserved?_eq_none_iff.mp hdata
    rcases (mem_applyAll_ops_iff hitems (Key.isData_eq_false hpartition rfl)).mp hkey with
      rfl | rfl | hkey
    · rw [Key.partition?_logTime] at hpartition
      cases hpartition
    · exact ⟨e.id, UInt64.le_refl _, rfl⟩
    · obtain ⟨id, hle, rfl⟩ := h.upTo key hkey hpartition
      refine ⟨id, UInt64.le_iff_toNat_le.mpr ?_, rfl⟩
      rw [UInt64.le_iff_toNat_le] at hle
      omega
  numbered := by
    intro i hi
    by_cases hlt : i < entries.length
    · rw [List.getElem_append_left hlt, h.numbered i hlt]
    · rw [List.length_append, List.length_singleton] at hi
      have hlast : i = entries.length := by omega
      subst hlast
      rw [List.getElem_concat_length rfl, hid, h.reached]
  records := by
    intro f hf
    rw [getElem?_log_applyAll_ops rows (Entry.reserved?_eq_none_iff.mp hdata)]
    rcases List.mem_append.mp hf with hf | hf
    · -- an entry that was there has a lower id
      obtain ⟨i, hi, rfl⟩ := List.getElem_of_mem hf
      rw [if_neg]
      · exact h.records _ (List.getElem_mem hi)
      · intro hsame
        have hother := h.numbered i hi
        rw [← hsame, hid, h.reached] at hother
        omega
    · rw [List.mem_singleton.mp hf, if_pos rfl]
      exact ⟨_, rfl, Stored.decode_encode hfits⟩

/-- Entries that follow the position make the log longer. -/
theorem append (h : rows.Intact position entries) {new : List Entry}
    (hdata : ∀ e ∈ new, e.reserved? = none) (hfits : ∀ e ∈ new, e.Fits)
    (hnumbered : ∀ (i : Nat) (hi : i < new.length), new[i].id.toNat = position.toNat + i + 1)
    {reached : LogId} (hreached : reached.toNat = position.toNat + new.length) :
    (rows.applyAll (new.flatMap Entry.ops)).Intact reached (entries ++ new) := by
  induction new generalizing rows position entries with
  | nil =>
    have hsame : reached = position := UInt64.toNat_inj.mp hreached
    rw [hsame, List.append_nil]
    exact h
  | cons e rest ih =>
    have hid : e.id.toNat = position.toNat + 1 := hnumbered 0 (Nat.succ_pos _)
    have hfirst := h.concat (hdata e List.mem_cons_self) (hfits e List.mem_cons_self) hid
    rw [List.flatMap_cons, applyAll_append, List.append_cons]
    refine ih hfirst (fun f hf => hdata f (List.mem_cons_of_mem _ hf))
      (fun f hf => hfits f (List.mem_cons_of_mem _ hf)) ?_ ?_
    · intro i hi
      have := hnumbered (i + 1) (Nat.succ_lt_succ hi)
      rw [List.getElem_cons_succ] at this
      omega
    · rw [List.length_cons] at hreached
      omega

end Intact

end Rows

namespace Log

variable {position lastSeen : LogId} {entries : List Entry} {s : Store}

/-- Behind the position, an intact log serves its entries, cut to the limit, as long as an id is left
behind the position. -/
theorem ensures_readLog_intact (h : s.rows.Intact position entries) (hscan : s.Answers .scan)
    (hroom : position + 1 ≠ 0) (now : Instant) (hseen : lastSeen < position) (limit : UInt32) :
    Ensures (readLog position now lastSeen limit) s fun r t => s.Aged t ∧
      ∃ chunk, r = .ok chunk ∧ Serves s.rows position now lastSeen (pageSize limit).toNat chunk ∧
        chunk.entries = (entries.drop lastSeen.toNat).take (pageSize limit).toNat := by
  refine (ensures_readLog_behind h.upTo hscan now hseen limit).mono ?_
  rintro r t ⟨ht, ⟨chunk, rfl, hserves, -⟩ | ⟨fault, id, -, hrun, hflawed⟩ |
    ⟨-, ⟨id, hrun, hlast⟩, -⟩⟩
  · exact ⟨ht, chunk, rfl, hserves,
      h.page_eq (UInt64.le_of_lt hseen) hserves.page⟩
  · exact absurd hflawed (h.not_flawed hrun)
  · exact absurd hlast (Counters.succ_ne_zero_of_le (h.upTo.le_of_inRun hrun) hroom)

/-- A reader that is not ahead gets the next entries of an intact log, cut to the limit; as long as an id
is left behind the position, the page is current exactly if the limit reaches to the position. -/
theorem ensures_readLog_next (h : s.rows.Intact position entries) (hscan : s.Answers .scan)
    (hroom : position + 1 ≠ 0) (now : Instant) (hseen : lastSeen ≤ position) (limit : UInt32) :
    Ensures (readLog position now lastSeen limit) s fun r _ => ∃ chunk, r = .ok chunk ∧
      chunk.currid = position ∧
      chunk.entries = (entries.drop lastSeen.toNat).take (pageSize limit).toNat ∧
      (chunk.isCurrent = true ↔ entries.length ≤ lastSeen.toNat + (pageSize limit).toNat) := by
  have hposition := h.reached
  rcases UInt64.lt_or_eq_of_le hseen with hbehind | rfl
  · refine (ensures_readLog_intact h hscan hroom now hbehind limit).mono ?_
    rintro r t ⟨-, chunk, rfl, hserves, hentries⟩
    refine ⟨chunk, rfl, hserves.currid, hentries, ?_⟩
    have hlt := UInt64.lt_iff_toNat_lt.mp hbehind
    have hlength := h.length_page hseen hserves.page
    have hmost := pageSize_pos limit
    rw [hserves.current, Chunk.lastId?, hserves.page.lastId?_eq_some_iff, ← List.length_pos_iff]
    omega
  · rw [Ensures, run_readLog_at]
    refine ⟨_, rfl, rfl, ?_, fun _ => ?_, fun _ => rfl⟩
    · rw [hposition, List.drop_length, List.take_nil]
      rfl
    · omega

end Log

end LogShipping
