import LogShipping.Proofs.Log.AppendOnly
import LogShipping.Proofs.Store.Fences

/-!
# Opening a log again

A log may be opened over any rows with full heads, whatever they hold. From then on the rows stand at
the position of the log (`Rows.StandAt`): the fences are there, and the position is the last sequence
number of the log partition. An entry that is taken in puts the next key of that partition and no other,
its mutations being ones of data, so every run keeps this up and a log that is opened again stands where
it stood.

The rows need not be a replay of anything. What is in the records of the log, and whether they follow
one another, is never looked at when a log is opened; the last key of a partition decides. That is less
than a log that holds a history has, and so recovery is shown for more logs than the rest of the theory
speaks of (`Recoverable`).

A key without a full head is left out: what number it would count as is not said. Missing fences are put
in when the log is opened, and opening it once more finds nothing to put in. The counter of record ids
is found at the last record that is there, which may be less than it was (`Proofs.Log.RecordIds`).
-/

namespace LogShipping

open Std

/-- Rows with all fences, whose log partition ends at a position. -/
structure Rows.StandAt (rows : Rows) (position : LogId) : Prop where
  headed : rows.Headed
  fences : ∀ p, Key.fence p ∈ rows
  last : rows.IsLastSequence .log position

namespace Rows

variable {rows : Rows} {position : LogId}

/-! ## Taking entries in -/

/-- A key outside the data is there after an entry if it was there before, or if it is one of the two
keys of the entry. -/
theorem mem_applyAll_ops_iff {e : Entry} (he : ∀ item ∈ e.items, Key.isData item.key = true)
    {key : Bytes} (hkey : Key.isData key = false) : key ∈ rows.applyAll e.ops ↔
      key = Key.logTime e.timestamp e.id ∨ key = Key.log e.id ∨ key ∈ rows := by
  rw [ExtTreeMap.mem_iff_isSome_getElem?, ExtTreeMap.mem_iff_isSome_getElem?,
    getElem?_applyAll_ops rows he hkey]
  by_cases hindex : Key.logTime e.timestamp e.id = key
  · simp [hindex]
  · by_cases hrecord : Key.log e.id = key
    · simp [hindex, hrecord]
    · simp [hindex, hrecord, Ne.symm hindex, Ne.symm hrecord]

namespace StandAt

/-- The entry that follows the position moves the position on. -/
theorem entry (h : rows.StandAt position) {e : Entry}
    (he : ∀ item ∈ e.items, Key.isData item.key = true)
    (hid : e.id.toNat = position.toNat + 1) : (rows.applyAll e.ops).StandAt e.id where
  headed := by
    intro key hkey
    cases hdata : Key.isData key with
    | true =>
      obtain ⟨p, hp, -, -, hlength⟩ := Key.isData_spec hdata
      exact ⟨p, Key.exists_encode hp hlength⟩
    | false =>
      rcases (mem_applyAll_ops_iff he hdata).mp hkey with rfl | rfl | hkey
      · exact ⟨.logTime, e.timestamp, _, rfl⟩
      · exact ⟨.log, e.id, [], rfl⟩
      · exact h.headed key hkey
  fences := by
    intro p
    exact (mem_applyAll_ops_iff he (Key.isData_fence p)).mpr (Or.inr (Or.inr (h.fences p)))
  last := by
    have hdata (sequence : UInt64) (suffix : Bytes) :
        Key.isData (Key.encode .log sequence suffix) = false :=
      Key.isData_eq_false (Key.partition?_encode .log sequence suffix) rfl
    refine ⟨⟨[], (mem_applyAll_ops_iff he (hdata e.id [])).mpr (Or.inr (Or.inl rfl))⟩, ?_⟩
    intro sequence suffix hmem
    rcases (mem_applyAll_ops_iff he (hdata sequence suffix)).mp hmem with hkey | hkey | hmem
    · obtain ⟨hp, -, -⟩ := Key.encode_inj.mp hkey
      cases hp
    · obtain ⟨-, rfl, -⟩ := Key.encode_inj.mp hkey
      exact UInt64.le_refl _
    · have := UInt64.le_iff_toNat_le.mp (h.last.2 sequence suffix hmem)
      rw [UInt64.le_iff_toNat_le]
      omega

/-- Entries that follow the position one after the other move it on by their number. -/
theorem entries (h : rows.StandAt position) {new : List Entry}
    (hnew : ∀ e ∈ new, ∀ item ∈ e.items, Key.isData item.key = true)
    (hnumbered : ∀ (i : Nat) (hi : i < new.length), new[i].id.toNat = position.toNat + i + 1)
    {reached : LogId} (hreached : reached.toNat = position.toNat + new.length) :
    (rows.applyAll (new.flatMap Entry.ops)).StandAt reached := by
  induction new generalizing rows position with
  | nil =>
    have hsame : reached = position := UInt64.toNat_inj.mp hreached
    rw [hsame]
    exact h
  | cons e rest ih =>
    have hid : e.id.toNat = position.toNat + 1 := hnumbered 0 (Nat.succ_pos _)
    have hfirst := h.entry (hnew e List.mem_cons_self) hid
    rw [List.flatMap_cons, applyAll_append]
    refine ih hfirst (fun f hf => hnew f (List.mem_cons_of_mem _ hf)) ?_ ?_
    · intro i hi
      have := hnumbered (i + 1) (Nat.succ_lt_succ hi)
      rw [List.getElem_cons_succ] at this
      omega
    · rw [List.length_cons] at hreached
      omega

end StandAt

end Rows

namespace Log

/-! ## The invariant -/

/-- A log that can be opened again: its rows stand at its position, and reads are answered. -/
structure Recoverable (log : Log) : Prop where
  rows : log.store.rows.StandAt log.position
  answers : ∀ call, call ≠ .writeBatch → log.store.Answers call

/-- The log `log` is the log `live` opened again. -/
structure Reopened (live : Log) (standing : Standing) (log : Log) : Prop where
  rows : log.store.rows = live.store.rows
  answers : ∀ call, live.store.Answers call → log.store.Answers call
  position : log.position = live.position
  primary : live.store.rows.IsLastSequence .record log.counters.primary
  standing : log.standing = standing

variable {log live : Log}

/-- Over rows with all fences, opening finds the last sequence numbers. -/
theorem ensures_openOver {s : Store} (headed : s.rows.Headed) (hfences : ∀ p, Key.fence p ∈ s.rows)
    (standing : Standing) :
    Ensures (openOver standing) s fun r t => s.Aged t ∧
      ((∃ log, r = .ok log ∧ log.store = t ∧ log.standing = standing ∧
          s.rows.IsLastSequence .log log.position ∧
          s.rows.IsLastSequence .record log.counters.primary) ∨
        s.Refused .get r ∨ s.Refused .seekPrev r) := by
  refine Ensures.bind ((Store.ensures_ensureFences_of_present hfences).mono ?_)
  rintro r t ⟨ht, rfl | ⟨hnot, fault, rfl⟩⟩
  · obtain ⟨position, primary, hposition, hprimary, hrun⟩ := @Store.ensures_recoverCounters t
      (by rw [ht.1]; exact headed) (by rw [ht.1]; exact hfences)
    rw [ht.1] at hposition hprimary
    refine Ensures.bind (hrun.mono ?_)
    rintro r u ⟨hu, rfl | hr⟩
    · apply Ensures.read_bind
      exact Ensures.pure ⟨ht.trans hu, Or.inl ⟨_, rfl, rfl, rfl, hposition, hprimary⟩⟩
    · obtain ⟨hnot, fault, rfl⟩ := ht.refused hr
      exact ⟨ht.trans hu, Or.inr (Or.inr ⟨hnot, fault, rfl⟩)⟩
  · exact ⟨ht, Or.inr (Or.inl ⟨hnot, fault, rfl⟩)⟩

/-- The log that is opened over a store that answers. -/
def opened (standing : Standing) (s : Store) : Log where
  standing := standing
  counters := ⟨s.rows.lastSequence .record, s.rows.lastSequence .log⟩
  store := { s with rows := s.rows.withFences }

theorem run_openOver {s : Store} (headed : s.rows.Headed) (hs : s.outage = none)
    (standing : Standing) :
    (openOver standing).run.run s = (.ok (opened standing s), (opened standing s).store) := by
  apply Store.run_eq_of_ensures
  refine Ensures.bind (Store.ensures_of_run (Store.run_ensureFences hs) ?_)
  refine Ensures.bind (Store.ensures_of_run (Store.run_recoverCounters headed hs) ?_)
  exact Ensures.read_bind (Ensures.pure ⟨rfl, rfl⟩)

/-- An empty store opens as a fresh log. -/
theorem opened_empty (standing : Standing) (engine : Engine) :
    opened standing { engine := engine } = fresh standing engine := by
  have hrows : Rows.withFences ∅ = Rows.fenced := by
    have hall : Store.absentFences ∅ Partition.all =
        Partition.all.map fun p => .put (Key.fence p) [] := by decide +kernel
    rw [Rows.withFences, hall]
    rfl
  have hcounters (p : Partition) : Rows.lastSequence ∅ p = 0 := by
    cases p <;> decide +kernel
  simp only [opened, fresh, hrows, hcounters]

theorem recoverable_opened {s : Store} (headed : s.rows.Headed) (hs : s.outage = none)
    (standing : Standing) : (opened standing s).Recoverable where
  rows := by
    obtain ⟨last, hlast, -⟩ := @Store.ensures_lastSequence { s with rows := s.rows.withFences } .log
      .logTime headed.withFences (Rows.fence_mem_withFences .log) rfl
    have hposition : (opened standing s).position = last := hlast.eq_lastSequence.symm
    rw [hposition]
    exact ⟨headed.withFences, Rows.fence_mem_withFences, hlast⟩
  answers := fun call _ => Store.answers_of_no_outage hs call

theorem recoverable_fresh (standing : Standing) (engine : Engine) :
    (fresh standing engine).Recoverable := by
  have headed : Rows.Headed ∅ := by decide +kernel
  rw [← opened_empty]
  exact recoverable_opened headed rfl standing

namespace Recoverable

theorem took {log' : Log} {new : List Entry} (h : log.Recoverable) (htook : log.Took new log')
    (hnew : ∀ e ∈ new, ∀ item ∈ e.items, Key.isData item.key = true) : log'.Recoverable where
  rows := by
    rw [htook.rows]
    exact h.rows.entries hnew htook.numbered htook.position
  answers := fun call hcall => htook.answers call (h.answers call hcall)

/-- Opening the log again succeeds and finds the position. -/
theorem reopen (h : live.Recoverable) (standing : Standing) :
    ∃ log, ((openOver standing).run.run live.store).1 = .ok log ∧ live.Reopened standing log := by
  obtain ⟨haged, hr⟩ := ensures_openOver h.rows.headed h.rows.fences standing
  rcases hr with ⟨log, hr, hstore, hstanding, hposition, hprimary⟩ | hr | hr
  · refine ⟨log, hr, ⟨?_, ?_, hposition.unique h.rows.last, hprimary, hstanding⟩⟩
    · rw [hstore]
      exact haged.1
    · rw [hstore]
      exact haged.2.2
  · exact absurd (h.answers .get (by decide)) hr.1
  · exact absurd (h.answers .seekPrev (by decide)) hr.1

theorem of_reopened {standing : Standing} (h : live.Recoverable)
    (hlog : live.Reopened standing log) : log.Recoverable where
  rows := by
    rw [hlog.rows, hlog.position]
    exact h.rows
  answers := fun call hcall => hlog.answers call (h.answers call hcall)

/-- An event that is admitted leaves a log that can be opened again. -/
theorem after (h : log.Recoverable) {event : LogEvent} (hadmits : log.Admits event) :
    (log.after event).Recoverable := by
  rcases after_cases hadmits with ⟨new, htook, hnew⟩ | ⟨hbeside, -⟩ | ⟨standing, rfl⟩
  · exact h.took htook fun e he => (hnew e he).data
  · refine ⟨?_, fun call hcall => hbeside.answers call hcall (h.answers call hcall)⟩
    rw [hbeside.rows, hbeside.position]
    exact h.rows
  · obtain ⟨log', hr, hlog'⟩ := h.reopen standing
    rw [after_restart hr]
    exact h.of_reopened hlog'

theorem run (h : log.Recoverable) {events : List LogEvent} (hadmits : log.AdmitsAll events) :
    (log.run events).Recoverable := by
  induction events generalizing log with
  | nil => exact h
  | cons event rest ih => exact ih (h.after hadmits.1) hadmits.2

end Recoverable

/-! ## Going on -/

/-- The log `log` goes on where the log `live` stood: at its position, over its rows, with the next id
for a commit and with a record id that no key has. -/
structure Continues (log live : Log) : Prop where
  position : log.position = live.position
  rows : log.store.rows = live.store.rows
  answers : ∀ call, live.store.Answers call → log.store.Answers call
  records : ∀ sequence suffix, Key.encode .record sequence suffix ∈ live.store.rows →
    sequence ≤ log.counters.primary
  commits : ∀ now e, live.position + 1 ≠ 0 → log.Commits e →
    Ensures (commit now e) log fun r log' =>
      r = .ok (some { e with id := live.position + 1, timestamp := now }) ∧
        log'.position = live.position + 1
  issues : log.counters.primary + 1 ≠ 0 → ∃ id, log.issueRecord.1 = some id ∧
    ∀ suffix, Key.encode .record id suffix ∉ live.store.rows

/-- As long as there is a next record id it is issued, and lies above the last one. -/
theorem exists_issueRecord (h : log.counters.primary + 1 ≠ 0) :
    ∃ id, log.issueRecord.1 = some id ∧ log.counters.primary < id ∧
      log.issueRecord.2.counters.primary = id := by
  refine ⟨_, Counters.next?_eq_some_iff.mpr ⟨h, rfl⟩, ?_, rfl⟩
  rw [UInt64.lt_iff_toNat_lt, Counters.toNat_next h]
  exact Nat.lt_succ_self _

theorem Reopened.continues {standing : Standing} (h : live.Reopened standing log) :
    log.Continues live where
  position := h.position
  rows := h.rows
  answers := h.answers
  records := h.primary.2
  commits := by
    intro now e hroom hcommits
    rw [← h.position] at hroom ⊢
    refine (ensures_commit hroom).mono ?_
    rintro r log' (⟨committed, rfl, htook, rfl, -⟩ | ⟨-, -, hnot⟩)
    · refine ⟨rfl, UInt64.toNat_inj.mp ?_⟩
      rw [htook.position, Counters.toNat_next hroom]
      rfl
    · exact absurd hcommits hnot
  issues := by
    intro hroom
    obtain ⟨id, hid, habove, -⟩ := exists_issueRecord hroom
    exact ⟨id, hid, fun suffix hmem => UInt64.not_le.mpr habove (h.primary.2 id suffix hmem)⟩

/-- Opening a store recovers its counters exactly, whatever rows with full heads it holds and whichever
fences it lacks: it adds the fences that are missing and nothing else, once and for all, and finds the
greatest sequence numbers of the log and of the records. A log opened over such a store, after whatever
run, goes on after a restart where it stood. -/
theorem reopening_recovers (s : Store) (headed : s.rows.Headed) (hs : s.outage = none) :
    (∃ added fenced,
      Store.ensureFences.run.run s = (.ok added, fenced) ∧
      (∀ key ∈ s.rows, fenced.rows[key]? = s.rows[key]?) ∧
      (∀ key ∈ fenced.rows, key ∈ s.rows ∨ ∃ p, key = Key.fence p) ∧
      Store.ensureFences.run.run fenced = (.ok 0, fenced) ∧
      Store.recoverCounters.run.run fenced =
        (.ok ⟨s.rows.lastSequence .record, s.rows.lastSequence .log⟩, fenced)) ∧
    ∀ standing, ((openOver standing).run.run s).1 = .ok (opened standing s) ∧
      ∀ events, (opened standing s).AdmitsAll events → ∀ again, ∃ log,
        ((openOver again).run.run ((opened standing s).run events).store).1 = .ok log ∧
          log.standing = again ∧ log.Continues ((opened standing s).run events) := by
  refine ⟨⟨_, _, Store.run_ensureFences hs, fun key hkey => Rows.getElem?_withFences hkey,
    fun key hkey => Rows.mem_or_fence_of_mem_withFences hkey, Store.run_ensureFences_again hs,
    Store.run_recoverCounters headed hs⟩, ?_⟩
  intro standing
  refine ⟨by rw [run_openOver headed hs], ?_⟩
  intro events hadmits again
  obtain ⟨log, hlog, hreopened⟩ := ((recoverable_opened headed hs standing).run hadmits).reopen again
  exact ⟨log, hlog, hreopened.standing, hreopened.continues⟩

/-- Rows of a log record and of two application records, and no fence. -/
def stocked : Store where
  engine := .table
  rows := Rows.applyAll ∅
    [.put (Key.encode .record 9 [1]) [], .put (Key.log 2) [], .put (Key.record 3) []]

/-- Over these rows the counters are found at the record 9 and the entry 2, and a restart after failing
writes loses neither. -/
theorem reopening_recovers_stocked :
    stocked.rows.Headed ∧ stocked.outage = none ∧
      (∃ fenced, Store.recoverCounters.run.run fenced = (.ok ⟨9, 2⟩, fenced)) ∧
      (opened alone stocked).AdmitsAll interrupted ∧
      ∃ log, ((openOver alone).run.run ((opened alone stocked).run interrupted).store).1 = .ok log ∧
        log.Continues ((opened alone stocked).run interrupted) := by
  have headed : stocked.rows.Headed := by decide +kernel
  obtain ⟨⟨added, fenced, -, -, -, -, hrecovered⟩, hlive⟩ := reopening_recovers stocked headed rfl
  have hcounters : (⟨stocked.rows.lastSequence .record, stocked.rows.lastSequence .log⟩ : Counters) =
      ⟨9, 2⟩ := by decide +kernel
  rw [hcounters] at hrecovered
  have hadmits : (opened alone stocked).AdmitsAll interrupted := by
    refine ⟨trivial, ⟨sample_fits, ?_⟩, trivial, trivial, ⟨sample_fits, ?_⟩, trivial⟩
    all_goals decide +kernel
  obtain ⟨log, hlog, -, hcontinues⟩ := (hlive alone).2 interrupted hadmits alone
  exact ⟨headed, rfl, ⟨fenced, hrecovered⟩, hadmits, log, hlog, hcontinues⟩

end Log

end LogShipping
