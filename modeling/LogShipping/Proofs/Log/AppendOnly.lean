import LogShipping.Proofs.Log.Run

/-!
# The log as a list, the data as its replay

Whatever happens to a log that started over the fences alone, what can be read of it is a list that only
ever grows at its end, and the store holds that list twice: as records and index in the log partitions
(`Shows`), and replayed in the partitions of data. Since the rows are a function of the list, logs of
equal entries have equal stores, however the entries came into them.

All of it is read off from one invariant, that the log holds a history (`Log.Good`), and from what
`Proofs.Log.Replay` says of the rows of a history. So there is no second induction over runs: what is
read is the history, and the history of a later state has that of an earlier one as its beginning.

A run is a list of any events in any order, failures and restarts among them. What an event may bring is
bounded in two ways (`Log.AdmitsAll`), and both are limits of the numbers: the form of an entry takes
fewer than 2^64 octets, and a commit does not come when the ids are used up. What entries of other nodes
touch has to be data as well, since an application does not look (`Proofs.Log.Protection`). Events are
whole: nobody reads between the claim of an id and the write of its entry.
-/

namespace LogShipping

open Std

namespace Log

/-- The log partitions hold the entries, whose ids count from 1 up to the position, and nothing else
but the fences. -/
structure Shows (log : Log) (entries : List Entry) : Prop where
  /-- The ids are those from 1 up to the position. -/
  numbered : entries.map (fun e => e.id.toNat) = List.range' 1 log.position.toNat
  /-- The log partition has its fence and one key per entry. -/
  keys : ∀ key, Key.partition? key = some .log →
    (key ∈ log.store.rows ↔ key = Key.fence .log ∨ ∃ e ∈ entries, key = Key.log e.id)
  /-- Under the key of an id stands a record that is read back as the entry of that id. -/
  records : ∀ e ∈ entries, ∃ record, log.store.rows[Key.log e.id]? = some record ∧
    Stored.decode record = .ok e
  /-- The time index has its fence and one key per entry. -/
  index : ∀ key, Key.partition? key = some .logTime →
    (key ∈ log.store.rows ↔ key = Key.fence .logTime ∨
      ∃ e ∈ entries, key = Key.logTime e.timestamp e.id)

variable {log : Log} {entries : List Entry}

theorem Holds.shows (h : log.Holds entries) : log.Shows entries where
  numbered := by
    rw [h.position]
    apply List.ext_getElem
    · rw [List.length_map, List.length_range']
    · intro i hi hi'
      rw [List.length_map] at hi
      rw [List.getElem_map, h.history.numbered i hi, List.getElem_range']
      omega
  keys := by
    intro key hkey
    rw [h.rows, Rows.mem_replay_iff h.history (Key.isData_eq_false hkey rfl)]
    constructor
    · rintro (⟨p, rfl⟩ | ⟨e, he, rfl | rfl⟩)
      · rw [Key.partition?_fence] at hkey
        cases hkey
        exact Or.inl rfl
      · exact Or.inr ⟨e, he, rfl⟩
      · rw [Key.partition?_logTime] at hkey
        cases hkey
    · rintro (rfl | ⟨e, he, rfl⟩)
      · exact Or.inl ⟨.log, rfl⟩
      · exact Or.inr ⟨e, he, Or.inl rfl⟩
  records := by
    intro e he
    refine ⟨Stored.encode e, ?_, Stored.decode_encode (h.history.proper e he).fits⟩
    rw [h.rows]
    exact Rows.getElem?_replay_log h.history he
  index := by
    intro key hkey
    rw [h.rows, Rows.mem_replay_iff h.history (Key.isData_eq_false hkey rfl)]
    constructor
    · rintro (⟨p, rfl⟩ | ⟨e, he, rfl | rfl⟩)
      · rw [Key.partition?_fence] at hkey
        cases hkey
        exact Or.inl rfl
      · rw [Key.partition?_log] at hkey
        cases hkey
      · exact Or.inr ⟨e, he, rfl⟩
    · rintro (rfl | ⟨e, he, rfl⟩)
      · exact Or.inl ⟨.logTime, rfl⟩
      · exact Or.inr ⟨e, he, Or.inr rfl⟩

/-- What a run reaches: what can be read is a history that the log holds. -/
theorem good_run {standing : Standing} {engine : Engine} {events : List LogEvent}
    (hadmits : (fresh standing engine).AdmitsAll events) :
    ((fresh standing engine).run events).Good ((fresh standing engine).run events).contents := by
  obtain ⟨new, hgood⟩ := (good_fresh standing engine).run hadmits
  rw [hgood.contents_eq]
  exact hgood

/-! ## The list -/

/-- The standing of a master. -/
def alone : Standing := Standing.start "http://a" true none

/-- An entry that writes one record. -/
def sample : Entry := { updater := "x", items := [.put (Key.record 7) [1]] }

/-- Writes fail, the log is opened again, and writes succeed once more. -/
def interrupted : List LogEvent :=
  [.writesFail (some ("disk full", 0)), .commit 6 sample, .restart alone, .writesFail none,
    .commit 7 sample]

theorem sample_fits : sample.Fits := by
  unfold Entry.Fits
  decide +kernel

/-- A log refines a list that is only appended to: in every state the log partitions show the entries
that can be read, and later states have these entries first, so that neither the position nor what is
read under an id is ever taken back. -/
theorem run_appends_only (standing : Standing) (engine : Engine) (first second : List LogEvent)
    (hadmits : (fresh standing engine).AdmitsAll (first ++ second)) :
    let log := (fresh standing engine).run first
    let later := (fresh standing engine).run (first ++ second)
    log.Shows log.contents ∧ later.Shows later.contents ∧
      log.contents <+: later.contents ∧ log.position ≤ later.position ∧
      ∀ id e, ((readOne id).run.run log.store).1 = .ok (some e) →
        ((readOne id).run.run later.store).1 = .ok (some e) := by
  intro log later
  obtain ⟨hfirst, hsecond⟩ := admitsAll_append.mp hadmits
  have hlog : log.Good log.contents := good_run hfirst
  obtain ⟨new, hnew⟩ := hlog.run hsecond
  rw [← run_append] at hnew
  have hlater : later.Good (log.contents ++ new) := hnew
  have hcontents : later.contents = log.contents ++ new := hlater.contents_eq
  refine ⟨hlog.holds.shows, ?_, ?_, ?_, ?_⟩
  · rw [hcontents]
    exact hlater.holds.shows
  · rw [hcontents]
    exact List.prefix_append _ _
  · rw [UInt64.le_iff_toNat_le, hlog.holds.position, hlater.holds.position, List.length_append]
    omega
  · intro id e hread
    obtain ⟨he, hid⟩ := hlog.readOne_eq_some_iff.mp hread
    exact hlater.readOne_eq_some_iff.mpr ⟨List.mem_append_left _ he, hid⟩

/-- A master commits, fails to commit, is opened again and commits once more: what is read under the
first id is what was read before, and nothing of the failed commit is read under the second. -/
theorem run_appends_only_over_failure :
    (fresh alone .tree).AdmitsAll ([.commit 5 sample] ++ interrupted) ∧
      ((readOne 1).run.run ((fresh alone .tree).run ([.commit 5 sample] ++ interrupted)).store).1 =
        .ok (some { sample with id := 1, timestamp := 5 }) ∧
      ((readOne 2).run.run ((fresh alone .tree).run ([.commit 5 sample] ++ interrupted)).store).1 =
        .ok (some { sample with id := 2, timestamp := 7 }) := by
  have hadmits : (fresh alone .tree).AdmitsAll ([.commit 5 sample] ++ interrupted) := by
    refine ⟨⟨sample_fits, ?_⟩, trivial, ⟨sample_fits, ?_⟩, trivial, trivial, ⟨sample_fits, ?_⟩, trivial⟩
    all_goals decide +kernel
  obtain ⟨-, -, -, -, hkept⟩ := run_appends_only alone .tree _ _ hadmits
  have hfirst : ((readOne 1).run.run ((fresh alone .tree).run [.commit 5 sample]).store).1 =
      .ok (some { sample with id := 1, timestamp := 5 }) := by
    decide +kernel
  exact ⟨hadmits, hkept 1 _ hfirst, by decide +kernel⟩

/-! ## The replay -/

/-- The data of a log are the replay of the entries that can be read, and logs with equal entries have
equal stores. -/
theorem run_replays_data (standing : Standing) (engine : Engine) (events : List LogEvent)
    (hadmits : (fresh standing engine).AdmitsAll events) :
    let log := (fresh standing engine).run events
    log.store.rows.data = Rows.replayData log.contents ∧
      ∀ (standing' : Standing) (engine' : Engine) (events' : List LogEvent),
        (fresh standing' engine').AdmitsAll events' →
        ((fresh standing' engine').run events').contents = log.contents →
        ((fresh standing' engine').run events').store.rows = log.store.rows := by
  intro log
  have hlog : log.Good log.contents := good_run hadmits
  constructor
  · rw [hlog.holds.rows]
    exact Rows.data_replay hlog.holds.history
  · intro standing' engine' events' hadmits' hcontents
    rw [(good_run hadmits').holds.rows, hcontents, hlog.holds.rows]

/-- Two records are written, then the first is written again and the second removed. -/
def revising : List LogEvent :=
  [.commit 5 { updater := "x", items := [.put (Key.record 7) [1]] },
    .commit 6 { updater := "x", items := [.put (Key.record 9) [3]] },
    .commit 7 { updater := "x", items := [.put (Key.record 7) [2]] },
    .commit 8 { updater := "x", items := [.delete (Key.record 9)] }]

/-- Of the record that was written twice the second value stands, and the one that was removed is not
there. -/
theorem run_replays_data_of_commits :
    (fresh alone .table).AdmitsAll revising ∧
      let data := ((fresh alone .table).run revising).store.rows.data
      data[Key.record 7]? = some [2] ∧ data[Key.record 9]? = none ∧ data.size = 1 := by
  have hadmits : (fresh alone .table).AdmitsAll revising := by
    refine ⟨⟨?_, ?_⟩, ⟨?_, ?_⟩, ⟨?_, ?_⟩, ⟨?_, ?_⟩, trivial⟩
    all_goals try unfold Entry.Fits
    all_goals decide +kernel
  have hitems : ((fresh alone .table).run revising).contents.flatMap (·.items) =
      [.put (Key.record 7) [1], .put (Key.record 9) [3], .put (Key.record 7) [2],
        .delete (Key.record 9)] := by
    decide +kernel
  obtain ⟨hdata, -⟩ := run_replays_data alone .table _ hadmits
  rw [Rows.replayData, hitems] at hdata
  refine ⟨hadmits, ?_⟩
  rw [hdata]
  exact ⟨by decide +kernel, by decide +kernel, by decide +kernel⟩

end Log

end LogShipping
