import LogShipping.Proofs.Log.Applying
import LogShipping.Proofs.Log.Scanning

/-!
# Pages of the log

A page is the entries of the records behind the one last seen, up to the first that is missing and no
more than the limit allows (`Rows.Page`); a record among them that is not one of its entry makes the
whole page fail (`Rows.Flawed`). A page is said to be current if it ends at the position of the log
(`Log.Serves`).

All this is said of ids and not of how they are found: an id is in the run behind the last one seen if
no record up to its own is missing (`Rows.InRun`). The scan is taken apart in `Proofs.Log.Scanning`;
here the run is walked by induction on the places that are left, one record at a time (`Page.cons`), and
a flaw further on is one of the run that begins at the next record.

The reader counts on from one id to the next, and behind the last id of all that count overflows. The
program is followed in its overflow-checked form there: the page breaks down, and it does so although
its last record may be sound. Without the check, the count would begin again at 0 and the page would be
handed out as one that is not current. Either way the entry behind the last id is never said to be the
newest.
-/

namespace LogShipping

open Std

namespace Rows

/-! ## Runs of records -/

/-- The id lies in the run behind `lastSeen`: it is one of the next `most`, and no record up to its own
is missing. -/
structure InRun (rows : Rows) (lastSeen : LogId) (most : Nat) (id : LogId) : Prop where
  beyond : lastSeen < id
  near : id.toNat ≤ lastSeen.toNat + most
  present : ∀ other, lastSeen < other → other ≤ id → Key.log other ∈ rows

/-- The record of the id cannot be read, or it holds an entry of another id. -/
def Flawed (rows : Rows) (id : LogId) : Prop :=
  ∃ record, rows[Key.log id]? = some record ∧ ∀ e, Stored.decode record = .ok e → e.id ≠ id

/-- The entries are those of the run behind `lastSeen`: numbered on from it, each the content of its
record, and one for every id of the run. -/
structure Page (rows : Rows) (lastSeen : LogId) (most : Nat) (entries : List Entry) : Prop where
  numbered : ∀ (i : Nat) (h : i < entries.length), entries[i].id.toNat = lastSeen.toNat + i + 1
  records : ∀ e ∈ entries, ∃ record, rows[Key.log e.id]? = some record ∧
    Stored.decode record = .ok e
  run : ∀ id, rows.InRun lastSeen most id ↔ ∃ e ∈ entries, e.id = id

variable {rows : Rows} {position lastSeen next id : LogId} {most : Nat} {entries : List Entry}

/-- A run of one more place begins with the next id and goes on from there. -/
theorem InRun.succ_iff (hnext : next.toNat = lastSeen.toNat + 1) (hrow : Key.log next ∈ rows) :
    rows.InRun lastSeen (most + 1) id ↔ id = next ∨ rows.InRun next most id := by
  have hlt : lastSeen < next := by
    rw [UInt64.lt_iff_toNat_lt]
    omega
  -- behind the last id seen comes the next one, and then those behind it
  have hcases : ∀ other, lastSeen < other → other = next ∨ next < other := by
    intro other hother
    rw [UInt64.lt_iff_toNat_lt] at hother ⊢
    rw [← UInt64.toNat_inj]
    omega
  constructor
  · intro h
    rcases hcases id h.beyond with heq | hbeyond
    · exact Or.inl heq
    · have hnear := h.near
      exact Or.inr ⟨hbeyond, by omega, fun other hother hle =>
        h.present other (UInt64.lt_trans hlt hother) hle⟩
  · rintro (rfl | h)
    · refine ⟨hlt, by omega, fun other hother hle => ?_⟩
      rcases hcases other hother with rfl | hbeyond
      · exact hrow
      · exact absurd hle (UInt64.not_le.mpr hbeyond)
    · have hnear := h.near
      refine ⟨UInt64.lt_trans hlt h.beyond, by omega, fun other hother hle => ?_⟩
      rcases hcases other hother with rfl | hbeyond
      · exact hrow
      · exact h.present other hbeyond hle

/-- No run goes beyond the position. -/
theorem LogUpTo.le_of_inRun (h : rows.LogUpTo position) (hrun : rows.InRun lastSeen most id) :
    id ≤ position := by
  obtain ⟨other, hle, hkey⟩ :=
    h _ (hrun.present id hrun.beyond (UInt64.le_refl id)) (Key.partition?_log id)
  exact Key.log_inj.mp hkey ▸ hle

/-- Where the next record is missing, or no place is left, there is no run. -/
theorem Page.nil (h : most = 0 ∨ ∀ next : LogId, next.toNat = lastSeen.toNat + 1 →
    Key.log next ∉ rows) : rows.Page lastSeen most [] where
  numbered i hi := absurd hi (Nat.not_lt_zero i)
  records e he := absurd he List.not_mem_nil
  run id := by
    simp only [List.not_mem_nil, false_and, exists_false, iff_false]
    intro hrun
    have hbeyond := UInt64.lt_iff_toNat_lt.mp hrun.beyond
    rcases h with rfl | hmissing
    · have := hrun.near
      omega
    · have hnext : (lastSeen + 1).toNat = lastSeen.toNat + 1 := by
        have := id.toNat_lt
        rw [UInt64.toNat_add, UInt64.toNat_one, Nat.mod_eq_of_lt (by omega)]
      refine hmissing _ hnext (hrun.present _ ?_ ?_)
      · rw [UInt64.lt_iff_toNat_lt]
        omega
      · rw [UInt64.le_iff_toNat_le]
        omega

/-- The entry of the next record and a page behind it are a page of one more place. -/
theorem Page.cons {e : Entry} {record : Bytes} (hnext : e.id.toNat = lastSeen.toNat + 1)
    (hrow : rows[Key.log e.id]? = some record) (hrecord : Stored.decode record = .ok e)
    (h : rows.Page e.id most entries) : rows.Page lastSeen (most + 1) (e :: entries) where
  numbered i hi := by
    cases i with
    | zero => exact hnext
    | succ i =>
      rw [List.getElem_cons_succ, h.numbered i (by simpa using hi)]
      omega
  records f hf := by
    rcases List.mem_cons.mp hf with rfl | hf
    · exact ⟨record, hrow, hrecord⟩
    · exact h.records f hf
  run id := by
    rw [InRun.succ_iff hnext (mem_of_getElem? hrow), h.run]
    simp only [List.mem_cons, exists_eq_or_imp, @eq_comm _ id]

namespace Page

/-- A page ends below the position that bounds the ids of the log. -/
theorem length_le (h : rows.Page lastSeen most entries) (hkeys : rows.LogUpTo position)
    (hseen : lastSeen ≤ position) : lastSeen.toNat + entries.length ≤ position.toNat := by
  rcases Nat.eq_zero_or_pos entries.length with hzero | hpos
  · rw [hzero]
    exact UInt64.le_iff_toNat_le.mp hseen
  · have hlast : entries.length - 1 < entries.length := by omega
    obtain ⟨record, hrow, -⟩ := h.records _ (List.getElem_mem hlast)
    obtain ⟨id, hid, hkey⟩ := hkeys _ (mem_of_getElem? hrow) (Key.partition?_log _)
    have hle := UInt64.le_iff_toNat_le.mp hid
    rw [← Key.log_inj.mp hkey, h.numbered _ hlast] at hle
    omega

/-- The last id of a page counts its entries. -/
theorem lastId?_eq_some_iff (h : rows.Page lastSeen most entries) :
    entries.getLast?.map (·.id) = some id ↔
      entries ≠ [] ∧ id.toNat = lastSeen.toNat + entries.length := by
  rcases List.eq_nil_or_concat entries with rfl | ⟨front, e, rfl⟩
  · simp
  · have hid := h.numbered front.length (by simp)
    simp only [List.concat_eq_append, List.getElem_concat_length] at hid
    simp only [List.concat_eq_append, List.getLast?_concat, Option.map_some, Option.some.injEq,
      List.length_append, List.length_singleton, ne_eq, List.append_eq_nil_iff, List.cons_ne_self,
      and_false, not_false_eq_true, true_and, ← UInt64.toNat_inj, hid]
    omega

/-- What a page has of a run is not flawed. -/
theorem not_flawed (h : rows.Page lastSeen most entries) (hrun : rows.InRun lastSeen most id) :
    ¬ rows.Flawed id := by
  rintro ⟨record, hrow, hflaw⟩
  obtain ⟨e, he, rfl⟩ := (h.run id).mp hrun
  obtain ⟨record', hrow', hrecord⟩ := h.records e he
  rw [hrow, Option.some.injEq] at hrow'
  exact hflaw e (hrow' ▸ hrecord) rfl

end Page

end Rows

namespace Log

variable {rows : Rows} {position lastSeen : LogId}

/-- Where the next record is missing, nothing is read. -/
theorem entriesFrom_behind_missing (hkeys : rows.LogUpTo position)
    (hmissing : ∀ next : LogId, next.toNat = lastSeen.toNat + 1 → Key.log next ∉ rows) (most : Nat) :
    entriesFrom (lastSeen + 1) ((rows.behind lastSeen).take most) = .ok ([], lastSeen + 1) := by
  cases hrows : (rows.behind lastSeen).take most with
  | nil => rfl
  | cons row rest =>
    have hrow : row ∈ rows.behind lastSeen :=
      List.mem_of_mem_take (hrows ▸ List.mem_cons_self)
    rw [entriesFrom, if_pos (hkeys.sequence?_ne hmissing hrow)]

/-- A run over a sound record is sound if what lies behind that record is. -/
theorem sound_of_behind {next : LogId} {record : Bytes} {e : Entry} {most : Nat}
    (hnext : next.toNat = lastSeen.toNat + 1) (hrow : rows[Key.log next]? = some record)
    (hrecord : Stored.decode record = .ok e) (hid : e.id = next)
    (hbehind : ∀ id, rows.InRun next most id → ¬ rows.Flawed id) :
    ∀ id, rows.InRun lastSeen (most + 1) id → ¬ rows.Flawed id := by
  intro id hrun
  rcases (Rows.InRun.succ_iff hnext (Rows.mem_of_getElem? hrow)).mp hrun with rfl | hrun
  · rintro ⟨record', hrow', hflaw⟩
    rw [hrow, Option.some.injEq] at hrow'
    exact hflaw e (hrow' ▸ hrecord) hid
  · exact hbehind id hrun

/-- The rows behind an id are read as the page behind it, unless a record of the run is flawed, or the
run goes up to the last id of all: behind that the search for the next one breaks down. -/
theorem entriesFrom_behind (hkeys : rows.LogUpTo position) (most : Nat) (lastSeen : LogId) :
    (∃ entries, entriesFrom (lastSeen + 1) ((rows.behind lastSeen).take most) =
        .ok (entries, lastSeen + 1 + UInt64.ofNat entries.length) ∧
      rows.Page lastSeen most entries ∧ ∀ e ∈ entries, e.id + 1 ≠ 0) ∨
    (∃ fault id, entriesFrom (lastSeen + 1) ((rows.behind lastSeen).take most) =
        .error (.storage fault) ∧ rows.InRun lastSeen most id ∧ rows.Flawed id) ∨
    (entriesFrom (lastSeen + 1) ((rows.behind lastSeen).take most) = .error .overflow ∧
      (∃ id, rows.InRun lastSeen most id ∧ id + 1 = 0) ∧
      ∀ id, rows.InRun lastSeen most id → ¬ rows.Flawed id) := by
  induction most generalizing lastSeen with
  | zero => exact Or.inl ⟨[], by simp [entriesFrom], Rows.Page.nil (Or.inl rfl), by simp⟩
  | succ most ih =>
    by_cases hthere : ∃ next : LogId, next.toNat = lastSeen.toNat + 1 ∧ Key.log next ∈ rows
    · obtain ⟨next, hnext, hmem⟩ := hthere
      obtain ⟨record, hrow⟩ := Option.isSome_iff_exists.mp (ExtTreeMap.mem_iff_isSome_getElem?.mp hmem)
      have hsucc : lastSeen + 1 = next := by
        rw [← UInt64.toNat_inj, hnext, UInt64.toNat_add, UInt64.toNat_one]
        exact Nat.mod_eq_of_lt (hnext ▸ next.toNat_lt)
      have hself : rows.InRun lastSeen (most + 1) next :=
        (Rows.InRun.succ_iff hnext hmem).mpr (Or.inl rfl)
      rw [hkeys.behind_eq_cons hnext hrow, List.take_succ_cons, entriesFrom, Key.log,
        Key.sequence?_encode, if_neg (by simp [hsucc])]
      cases hrecord : Stored.decode record with
      | error fault =>
        refine Or.inr (Or.inl ⟨_, next, rfl, hself, record, hrow, fun e he => ?_⟩)
        rw [hrecord] at he
        cases he
      | ok e =>
        by_cases hid : e.id = next
        · subst hid
          simp only [hsucc, ne_eq, not_true_eq_false, if_false]
          have hsound : (∀ id, rows.InRun e.id most id → ¬ rows.Flawed id) →
              ∀ id, rows.InRun lastSeen (most + 1) id → ¬ rows.Flawed id :=
            sound_of_behind hnext hrow hrecord rfl
          by_cases hlast : e.id + 1 = 0
          · -- behind the last id there is no run any more
            rw [Counters.next?_eq_none_iff.mpr hlast]
            refine Or.inr (Or.inr ⟨rfl, ⟨e.id, hself, hlast⟩, hsound fun id hrun => ?_⟩)
            have hbeyond := UInt64.lt_iff_toNat_lt.mp hrun.beyond
            have hmax := id.toNat_lt
            have hzero : (e.id + 1).toNat = 0 := UInt64.toNat_inj.mpr hlast
            rw [UInt64.toNat_add, UInt64.toNat_one] at hzero
            omega
          rw [Counters.next?_eq_some_iff.mpr ⟨hlast, rfl⟩]
          dsimp only
          rcases ih e.id with ⟨entries, hpage, h, hnext'⟩ | ⟨fault, id, hfault, hrun, hflawed⟩ |
            ⟨hover, ⟨id, hrun, hid⟩, hnone⟩
          · rw [hpage]
            refine Or.inl ⟨e :: entries, ?_, Rows.Page.cons hnext hrow hrecord h,
              List.forall_mem_cons.mpr ⟨hlast, hnext'⟩⟩
            have hcount : e.id + 1 + UInt64.ofNat entries.length =
                e.id + UInt64.ofNat (e :: entries).length := by
              rw [List.length_cons, UInt64.ofNat_add, UInt64.add_assoc,
                UInt64.add_comm (UInt64.ofNat entries.length)]
              rfl
            rw [← hcount]
            rfl
          · rw [hfault]
            exact Or.inr (Or.inl
              ⟨fault, id, rfl, (Rows.InRun.succ_iff hnext hmem).mpr (Or.inr hrun), hflawed⟩)
          · rw [hover]
            exact Or.inr (Or.inr ⟨rfl,
              ⟨id, (Rows.InRun.succ_iff hnext hmem).mpr (Or.inr hrun), hid⟩, hsound hnone⟩)
        · have hother : e.id ≠ lastSeen + 1 := fun heq => hid (heq.trans hsucc)
          simp only [ne_eq, hother, not_false_eq_true, if_true]
          refine Or.inr (Or.inl ⟨_, next, rfl, hself, record, hrow, fun f hf => ?_⟩)
          rw [hrecord] at hf
          cases hf
          exact hid
    · have hmissing : ∀ next : LogId, next.toNat = lastSeen.toNat + 1 → Key.log next ∉ rows :=
        fun next hnext hmem => hthere ⟨next, hnext, hmem⟩
      refine Or.inl ⟨[], ?_, Rows.Page.nil (Or.inr hmissing), by simp⟩
      rw [entriesFrom_behind_missing hkeys hmissing]
      simp

/-! ## Pages -/

theorem toNat_pageSize (limit : UInt32) : (pageSize limit).toNat = max 1 (min limit.toNat 10000) := by
  have hmost : maxPage.toNat = 10000 := rfl
  have hone : (1 : UInt32).toNat = 1 := rfl
  rw [pageSize, UInt32.max_def, UInt32.min_def]
  split <;> split <;> simp only [UInt32.le_iff_toNat_le] at * <;> omega

/-- A page has room for an entry. -/
theorem pageSize_pos (limit : UInt32) : 0 < (pageSize limit).toNat := by
  rw [toNat_pageSize]
  omega

/-- The chunk is a page behind `lastSeen`, served at a position and a time; it is said to be current if
its last entry is the one at the position. -/
structure Serves (rows : Rows) (position : LogId) (now : Instant) (lastSeen : LogId) (most : Nat)
    (chunk : Chunk) : Prop where
  currid : chunk.currid = position
  timestamp : chunk.timestamp = now
  page : rows.Page lastSeen most chunk.entries
  current : chunk.isCurrent = true ↔ chunk.lastId? = some position

/-- The id behind a page is beyond the position exactly if the page ends at the position. -/
theorem current_iff {most : Nat} {entries : List Entry} (h : rows.Page lastSeen most entries)
    (hnext : ∀ e ∈ entries, e.id + 1 ≠ 0) (hkeys : rows.LogUpTo position)
    (hseen : lastSeen < position) :
    position < lastSeen + 1 + UInt64.ofNat entries.length ↔
      entries.getLast?.map (·.id) = some position := by
  have hle := h.length_le hkeys (UInt64.le_of_lt hseen)
  have hmax := position.toNat_lt
  have hlt := UInt64.lt_iff_toNat_lt.mp hseen
  have hnonempty : entries = [] ↔ entries.length = 0 := List.length_eq_zero_iff.symm
  -- a page that ends at the position ends with an entry, and that has an id behind it
  have hroom : entries.getLast?.map (·.id) = some position → position.toNat + 1 < 2 ^ 64 := by
    intro hlast
    obtain ⟨e, he, rfl⟩ := Option.map_eq_some_iff.mp hlast
    have hne := hnext e (List.mem_of_getLast? he)
    rw [ne_eq, ← UInt64.toNat_inj, UInt64.toNat_add, UInt64.toNat_one, UInt64.toNat_zero] at hne
    omega
  rw [h.lastId?_eq_some_iff, ne_eq, hnonempty] at hroom ⊢
  rw [UInt64.lt_iff_toNat_lt]
  simp only [UInt64.toNat_add, UInt64.toNat_one, UInt64.toNat_ofNat']
  omega

/-- A reader behind the position gets the page behind what it has seen, unless a record of the run is
flawed or the run goes up to the last id of all. -/
theorem ensures_readLog_behind {s : Store} (hkeys : s.rows.LogUpTo position)
    (hscan : s.Answers .scan) (now : Instant) (hseen : lastSeen < position) (limit : UInt32) :
    Ensures (readLog position now lastSeen limit) s fun r t => s.Aged t ∧
      ((∃ chunk, r = .ok chunk ∧
          Serves s.rows position now lastSeen (pageSize limit).toNat chunk ∧
          ∀ e ∈ chunk.entries, e.id + 1 ≠ 0) ∨
        (∃ fault id, r = .error (.storage fault) ∧
          s.rows.InRun lastSeen (pageSize limit).toNat id ∧ s.rows.Flawed id) ∨
        (r = .error .overflow ∧
          (∃ id, s.rows.InRun lastSeen (pageSize limit).toNat id ∧ id + 1 = 0) ∧
          ∀ id, s.rows.InRun lastSeen (pageSize limit).toNat id → ¬ s.rows.Flawed id)) := by
  have hahead : ¬ position < lastSeen := UInt64.not_lt.mpr (UInt64.le_of_lt hseen)
  have hne : ¬ lastSeen = position := UInt64.ne_of_lt hseen
  have hnext : (lastSeen + 1).toNat = lastSeen.toNat + 1 := by
    have hlt := UInt64.lt_iff_toNat_lt.mp hseen
    have hmax := position.toNat_lt
    rw [UInt64.toNat_add, UInt64.toNat_one, Nat.mod_eq_of_lt (by omega)]
  have hsize : (pageSize limit).toUInt64.toNat = (pageSize limit).toNat := UInt32.toNat_toUInt64 _
  unfold readLog
  simp only [if_neg hahead, if_neg hne]
  refine Ensures.bind ((Store.ensures_scan _ _ _).mono ?_)
  rintro r t ⟨ht, rfl | ⟨hnot, -⟩⟩
  · have hrange : s.engine.scan s.rows (Key.log (lastSeen + 1)) (Key.upperBound .log)
        (pageSize limit).toUInt64 = (s.rows.behind lastSeen).take (pageSize limit).toNat := by
      rw [Engine.scan_eq_take _ _ _ _ (by rw [hsize]; have := (pageSize limit).toNat_lt; omega),
        hkeys.filter_eq_behind hnext, hsize]
    simp only [hrange]
    refine Ensures.bind ?_
    rcases entriesFrom_behind hkeys (pageSize limit).toNat lastSeen with
      ⟨entries, hpage, h, hnext⟩ | ⟨fault, id, hfault, hrun, hflawed⟩ | ⟨hover, hlast, hnone⟩
    · rw [hpage]
      refine Ensures.pure ⟨ht, Or.inl ⟨_, rfl, ⟨rfl, rfl, h, ?_⟩, hnext⟩⟩
      rw [decide_eq_true_iff]
      exact current_iff h hnext hkeys hseen
    · rw [hfault]
      exact ⟨ht, Or.inr (Or.inl ⟨fault, id, rfl, hrun, hflawed⟩)⟩
    · rw [hover]
      exact ⟨ht, Or.inr (Or.inr ⟨rfl, hlast, hnone⟩)⟩
  · exact absurd hscan hnot

/-- A page with entries has a last id. -/
theorem Serves.exists_lastId? {rows : Rows} {now : Instant} {most : Nat} {chunk : Chunk}
    (h : Serves rows position now lastSeen most chunk) (hne : chunk.entries ≠ []) :
    ∃ last, chunk.lastId? = some last ∧ last.toNat = lastSeen.toNat + chunk.entries.length := by
  obtain ⟨last, hlast⟩ : ∃ last, chunk.lastId? = some last := by
    rw [Chunk.lastId?, List.getLast?_eq_some_getLast hne]
    exact ⟨_, rfl⟩
  exact ⟨last, hlast, (h.page.lastId?_eq_some_iff.mp hlast).2⟩

/-- A reader at the position is told that it is current. -/
theorem run_readLog_at (position : LogId) (now : Instant) (limit : UInt32) (s : Store) :
    (readLog position now position limit).run.run s = (.ok (Chunk.heartbeat position now), s) := by
  unfold readLog
  rw [if_neg (UInt64.lt_irrefl position), if_pos rfl]
  rfl

end Log

end LogShipping
