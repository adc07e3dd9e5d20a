import LogShipping.Proofs.Log.Reopening

/-!
# Record ids

The counter of record ids is raised by every id that is issued and by every record that an entry writes,
so until the next restart an id that is issued lies above all of them (`run_issues_above`). A restart
finds only the records that are still there, and then the ids of records removed since are issued once
more (`run_issues_again`).

Two invariants are carried through a run. The counter has reached every record that is there (`Covers`),
which outlasts restarts, as a restart finds those records again. And between two moments without a
restart in between it has passed all that was put and issued (`Raised`), which does not. The loss is
therefore at the restart alone, and only of what has been removed, or issued and never written.

The ids are counted in 64 bits, and an id is issued only while there is one left; that a run never found
them used up is asked for. That two nodes do not issue the same id is not claimed: only a master
commits, but any node issues.
-/

namespace LogShipping

open Std

/-- Whether an event opens the log again. -/
def LogEvent.isRestart : LogEvent → Bool
  | .restart _ => true
  | _ => false

/-! ## Records that an entry puts -/

namespace Rows

variable {rows : Rows}

/-- What is there after a batch was there before or was put by the batch. -/
theorem mem_of_mem_applyAll {ops : List BatchOp} {key : Bytes} (h : key ∈ rows.applyAll ops) :
    key ∈ rows ∨ ∃ value, BatchOp.put key value ∈ ops := by
  induction ops generalizing rows with
  | nil => exact Or.inl h
  | cons op ops ih =>
    rw [applyAll_cons] at h
    rcases ih h with hmem | ⟨value, hput⟩
    · rw [ExtTreeMap.mem_iff_isSome_getElem?, getElem?_apply] at hmem
      cases op with
      | put k value =>
        by_cases hkey : k = key
        · exact Or.inr ⟨value, by rw [hkey]; exact List.mem_cons_self⟩
        · rw [if_neg (show ¬ BatchOp.key (.put k value) = key from hkey),
            ← ExtTreeMap.mem_iff_isSome_getElem?] at hmem
          exact Or.inl hmem
      | delete k =>
        by_cases hkey : k = key
        · rw [if_pos (show BatchOp.key (.delete k) = key from hkey)] at hmem
          cases hmem
        · rw [if_neg (show ¬ BatchOp.key (.delete k) = key from hkey),
            ← ExtTreeMap.mem_iff_isSome_getElem?] at hmem
          exact Or.inl hmem
    · exact Or.inr ⟨value, List.mem_cons_of_mem _ hput⟩

end Rows

/-- The records that an entry puts are among its record sequences. -/
theorem Entry.mem_recordSequences_of_put {e : Entry} {sequence : UInt64} {suffix value : Bytes}
    (h : BatchOp.put (Key.encode .record sequence suffix) value ∈ e.ops) :
    sequence ∈ e.recordSequences := by
  rcases List.mem_append.mp h with h | h
  · have hkeys : Key.encode .record sequence suffix = Key.log e.id ∨
        Key.encode .record sequence suffix = Key.logTime e.timestamp e.id := by
      simp only [recordOps, List.mem_cons, BatchOp.put.injEq, List.not_mem_nil, or_false] at h
      exact h.imp And.left And.left
    rcases hkeys with hkey | hkey
    · cases (Key.encode_inj.mp hkey).1
    · cases (Key.encode_inj.mp hkey).1
  · obtain ⟨item, hitem, hop⟩ := List.mem_map.mp h
    refine List.mem_filterMap.mpr ⟨item, hitem, ?_⟩
    unfold Mutation.toOp at hop
    split at hop
    · cases hop
    · next hput =>
      obtain ⟨hkey, -⟩ := BatchOp.put.inj hop
      simp [Mutation.recordSequence?, Mutation.partition?, hput, hkey]

namespace Log

variable {log : Log}

/-! ## The record counter -/

/-- The record counter of `log'` has passed that of `log`, the records of some entries and some ids. -/
structure Raised (log : Log) (new : List Entry) (ids : List (Option UInt64)) (log' : Log) : Prop where
  primary : log.counters.primary ≤ log'.counters.primary
  records : ∀ e ∈ new, ∀ sequence ∈ e.recordSequences, sequence ≤ log'.counters.primary
  ids : ∀ id, some id ∈ ids → id ≤ log'.counters.primary

namespace Raised

theorem refl (log : Log) : log.Raised [] [] log where
  primary := UInt64.le_refl _
  records := by simp
  ids := by simp

theorem trans {log' log'' : Log} {new more : List Entry} {ids others : List (Option UInt64)}
    (h : log.Raised new ids log') (h' : log'.Raised more others log'') :
    log.Raised (new ++ more) (ids ++ others) log'' where
  primary := UInt64.le_trans h.primary h'.primary
  records := by
    intro e he sequence hsequence
    rcases List.mem_append.mp he with he | he
    · exact UInt64.le_trans (h.records e he sequence hsequence) h'.primary
    · exact h'.records e he sequence hsequence
  ids := by
    intro id hid
    rcases List.mem_append.mp hid with hid | hid
    · exact UInt64.le_trans (h.ids id hid) h'.primary
    · exact h'.ids id hid

end Raised

theorem Took.raised {log' : Log} {new : List Entry} (h : log.Took new log') :
    log.Raised new [] log' where
  primary := by
    rw [h.primary]
    exact le_foldl_max _ _
  records := by
    intro e he sequence hsequence
    rw [h.primary]
    exact le_foldl_max_of_mem _ (List.mem_flatMap.mpr ⟨e, he, hsequence⟩)
  ids := by simp

/-- The record counter has reached every record that is there. -/
def Covers (log : Log) : Prop :=
  ∀ sequence suffix, Key.encode .record sequence suffix ∈ log.store.rows →
    sequence ≤ log.counters.primary

theorem covers_fresh (standing : Standing) (engine : Engine) : (fresh standing engine).Covers := by
  intro sequence suffix hmem
  by_cases hfence : ∃ p, Key.encode .record sequence suffix = Key.fence p
  · obtain ⟨p, hkey⟩ := hfence
    rw [(Key.encode_inj.mp hkey).2.1]
    exact UInt64.zero_le
  · have habsent := Rows.getElem?_fenced_eq_none fun p hkey => hfence ⟨p, hkey⟩
    change Key.encode .record sequence suffix ∈ Rows.fenced at hmem
    rw [ExtTreeMap.mem_iff_isSome_getElem?, habsent] at hmem
    cases hmem

theorem Covers.took {log' : Log} {new : List Entry} (h : log.Covers) (htook : log.Took new log') :
    log'.Covers := by
  intro sequence suffix hmem
  rw [htook.rows] at hmem
  rcases Rows.mem_of_mem_applyAll hmem with hmem | ⟨value, hput⟩
  · exact UInt64.le_trans (h sequence suffix hmem) htook.raised.primary
  · obtain ⟨e, he, hput⟩ := List.mem_flatMap.mp hput
    exact htook.raised.records e he sequence (Entry.mem_recordSequences_of_put hput)

/-! ## Ids along a run -/

/-- The record id that an event issues, or that there was none to issue. -/
def issuedBy (log : Log) : LogEvent → List (Option UInt64)
  | .issueRecord => [log.issueRecord.1]
  | _ => []

/-- The record ids that are issued along some events. -/
def issued (log : Log) : List LogEvent → List (Option UInt64)
  | [] => []
  | event :: rest => log.issuedBy event ++ (log.after event).issued rest

theorem issued_append (log : Log) (first second : List LogEvent) :
    log.issued (first ++ second) = log.issued first ++ (log.run first).issued second := by
  induction first generalizing log with
  | nil => rfl
  | cons event rest ih =>
    have hrun : log.run (event :: rest) = (log.after event).run rest := rfl
    rw [List.cons_append, issued, issued, ih, hrun, List.append_assoc]

/-- There is room for the id that is issued. -/
theorem room_of_issuedBy (hroom : none ∉ log.issuedBy .issueRecord) : log.counters.primary + 1 ≠ 0 :=
  fun h => hroom (List.mem_singleton.mpr (Counters.next?_eq_none_iff.mpr h).symm)

/-- The counter reaches the id that is issued. -/
theorem raised_issueRecord (hroom : none ∉ log.issuedBy .issueRecord) :
    log.Raised [] (log.issuedBy .issueRecord) (log.after .issueRecord) := by
  obtain ⟨issued, hissued, habove, hcounter⟩ := exists_issueRecord (room_of_issuedBy hroom)
  have hreached : (log.after .issueRecord).counters.primary = issued := hcounter
  refine ⟨?_, by simp, fun id hid => ?_⟩
  · rw [hreached]
    exact UInt64.le_of_lt habove
  · have hsame : some id = log.issueRecord.1 := List.mem_singleton.mp hid
    rw [hissued, Option.some.injEq] at hsame
    rw [hreached, hsame]
    exact UInt64.le_refl _

/-- Between restarts the record counter only goes up, past the records of the entries that are taken
in and past the ids that are issued. -/
theorem Good.after_raised {entries : List Entry} (h : log.Good entries) {event : LogEvent}
    (hadmits : log.Admits event) (hstay : event.isRestart = false)
    (hroom : none ∉ log.issuedBy event) :
    ∃ new, (log.after event).Good (entries ++ new) ∧
      log.Raised new (log.issuedBy event) (log.after event) := by
  by_cases hissue : event = .issueRecord
  · subst hissue
    refine ⟨[], ?_, raised_issueRecord hroom⟩
    rw [List.append_nil]
    exact ⟨⟨h.holds.rows, h.holds.position, h.holds.history⟩, h.answers⟩
  have hnone : log.issuedBy event = [] := by
    cases event
    case issueRecord => exact absurd rfl hissue
    all_goals rfl
  rw [hnone]
  rcases after_cases hadmits with ⟨new, htook, hnew⟩ | ⟨hbeside, hcounters | hevent⟩ | ⟨standing, rfl⟩
  · exact ⟨new, h.took htook hnew, htook.raised⟩
  · refine ⟨[], ?_, ?_⟩
    · rw [List.append_nil]
      refine ⟨⟨hbeside.rows.trans h.holds.rows, ?_, h.holds.history⟩, ?_⟩
      · rw [hbeside.position]
        exact h.holds.position
      · exact fun call hcall => hbeside.answers call hcall (h.answers call hcall)
    · refine ⟨?_, by simp, by simp⟩
      rw [hcounters]
      exact UInt64.le_refl _
  · exact absurd hevent hissue
  · cases hstay

theorem Good.run_raised {entries : List Entry} (h : log.Good entries) {events : List LogEvent}
    (hadmits : log.AdmitsAll events) (hstay : ∀ event ∈ events, event.isRestart = false)
    (hroom : none ∉ log.issued events) :
    ∃ new, (log.run events).Good (entries ++ new) ∧
      log.Raised new (log.issued events) (log.run events) := by
  induction events generalizing log entries with
  | nil => exact ⟨[], by rw [List.append_nil]; exact h, Raised.refl log⟩
  | cons event rest ih =>
    rw [issued, List.mem_append, not_or] at hroom
    obtain ⟨new, hgood, hraised⟩ := h.after_raised hadmits.1 (hstay event List.mem_cons_self) hroom.1
    obtain ⟨more, hmore, hrest⟩ := ih hgood hadmits.2
      (fun other hother => hstay other (List.mem_cons_of_mem _ hother)) hroom.2
    refine ⟨new ++ more, ?_, hraised.trans hrest⟩
    rw [← List.append_assoc]
    exact hmore

/-- Restarts included, the counter has reached every record that is there. -/
theorem Covers.run (h : log.Covers) (hlog : log.Recoverable) {events : List LogEvent}
    (hadmits : log.AdmitsAll events) (hroom : none ∉ log.issued events) : (log.run events).Covers := by
  induction events generalizing log with
  | nil => exact h
  | cons event rest ih =>
    rw [issued, List.mem_append, not_or] at hroom
    refine ih ?_ (hlog.after hadmits.1) hadmits.2 hroom.2
    rcases after_cases hadmits.1 with ⟨new, htook, -⟩ | ⟨hbeside, hcounters | rfl⟩ | ⟨standing, rfl⟩
    · exact h.took htook
    · intro sequence suffix hmem
      rw [hbeside.rows] at hmem
      rw [hcounters]
      exact h sequence suffix hmem
    · exact fun sequence suffix hmem =>
        UInt64.le_trans (h sequence suffix hmem) (raised_issueRecord hroom.1).primary
    · obtain ⟨log', hr, hreopened⟩ := hlog.reopen standing
      rw [after_restart hr]
      intro sequence suffix hmem
      rw [hreopened.rows] at hmem
      exact hreopened.primary.2 sequence suffix hmem

/-- An id that is issued lies above every record that was there at the last restart, above every record
that an entry taken in since then put, removed or not, and above every id issued since then. -/
theorem run_issues_above (standing : Standing) (engine : Engine) (first rest : List LogEvent)
    (hadmits : (fresh standing engine).AdmitsAll (first ++ rest))
    (hstay : ∀ event ∈ rest, event.isRestart = false)
    (hroom : none ∉ (fresh standing engine).issued (first ++ rest ++ [.issueRecord])) :
    let log := (fresh standing engine).run first
    let later := (fresh standing engine).run (first ++ rest)
    ∃ next, later.issueRecord.1 = some next ∧
      (∀ sequence suffix, Key.encode .record sequence suffix ∈ log.store.rows → sequence < next) ∧
      (∀ e ∈ later.contents, log.position < e.id → ∀ sequence ∈ e.recordSequences, sequence < next) ∧
      ∀ id, some id ∈ log.issued rest → id < next := by
  intro log later
  obtain ⟨hfirst, hrest⟩ := admitsAll_append.mp hadmits
  rw [issued_append, issued_append, List.mem_append, List.mem_append, not_or, not_or] at hroom
  obtain ⟨⟨hroomFirst, hroomRest⟩, hroomLast⟩ := hroom
  have hcovers : log.Covers :=
    (covers_fresh standing engine).run (recoverable_fresh standing engine) hfirst hroomFirst
  have hgood : log.Good log.contents := good_run hfirst
  obtain ⟨new, hlater, hraised⟩ := hgood.run_raised hrest hstay hroomRest
  rw [← run_append] at hlater hraised
  have hlast : later.counters.primary + 1 ≠ 0 :=
    room_of_issuedBy fun hnone => hroomLast (List.mem_append_left _ hnone)
  obtain ⟨next, hnext, habove, -⟩ := exists_issueRecord hlast
  refine ⟨next, hnext, ?_, ?_, ?_⟩
  · intro sequence suffix hmem
    exact UInt64.lt_of_le_of_lt
      (UInt64.le_trans (hcovers sequence suffix hmem) hraised.primary) habove
  · intro e he hnew sequence hsequence
    rw [hlater.contents_eq] at he
    rcases List.mem_append.mp he with he | he
    · have hbound := (hgood.holds.history.id_bounds he).2
      rw [← hgood.holds.position] at hbound
      exact absurd (UInt64.le_iff_toNat_le.mpr hbound) (UInt64.not_le.mpr hnew)
    · exact UInt64.lt_of_le_of_lt (hraised.records e he sequence hsequence) habove
  · intro id hid
    exact UInt64.lt_of_le_of_lt (hraised.ids id hid) habove

/-- An entry that removes the record of `sample`. -/
def removal : Entry := { updater := "x", items := [.delete (Key.record 7)] }

theorem removal_fits : removal.Fits := by
  unfold Entry.Fits
  decide +kernel

/-- While the log stays open, the record that was removed keeps its id. -/
theorem run_issues_above_removed :
    (fresh alone .tree).AdmitsAll ([.restart alone] ++ [.commit 5 sample, .commit 6 removal]) ∧
      (∀ event ∈ [LogEvent.commit 5 sample, .commit 6 removal], event.isRestart = false) ∧
      none ∉ (fresh alone .tree).issued
        ([.restart alone] ++ [.commit 5 sample, .commit 6 removal] ++ [.issueRecord]) ∧
      ∃ next, ((fresh alone .tree).run
          ([.restart alone] ++ [.commit 5 sample, .commit 6 removal])).issueRecord.1 = some next ∧
        7 < next := by
  have hadmits : (fresh alone .tree).AdmitsAll
      ([.restart alone] ++ [.commit 5 sample, .commit 6 removal]) := by
    refine ⟨trivial, ⟨sample_fits, ?_⟩, ⟨removal_fits, ?_⟩, trivial⟩
    all_goals decide +kernel
  have hstay : ∀ event ∈ [LogEvent.commit 5 sample, .commit 6 removal],
      event.isRestart = false := by
    simp [LogEvent.isRestart]
  have hroom : none ∉ (fresh alone .tree).issued
      ([.restart alone] ++ [.commit 5 sample, .commit 6 removal] ++ [.issueRecord]) := by
    decide +kernel
  obtain ⟨next, hnext, -, habove, -⟩ := run_issues_above alone .tree _ _ hadmits hstay hroom
  have hput : { sample with id := 1, timestamp := 5 } ∈ ((fresh alone .tree).run
      ([.restart alone] ++ [.commit 5 sample, .commit 6 removal])).contents := by
    decide +kernel
  exact ⟨hadmits, hstay, hroom, next, hnext, habove _ hput (by decide +kernel) 7 (by decide +kernel)⟩

/-- It is not so that an id lies above all records that were ever put: after a restart the id of a
record that was removed is issued again. -/
theorem run_issues_again :
    ¬ ∀ (standing : Standing) (engine : Engine) (events : List LogEvent),
      (fresh standing engine).AdmitsAll events →
      none ∉ (fresh standing engine).issued (events ++ [.issueRecord]) →
      ∀ e ∈ ((fresh standing engine).run events).contents, ∀ sequence ∈ e.recordSequences,
        ∃ next, ((fresh standing engine).run events).issueRecord.1 = some next ∧ sequence < next := by
  intro hall
  have hadmits : (fresh alone .tree).AdmitsAll
      [.commit 5 sample, .commit 6 removal, .restart alone] := by
    refine ⟨⟨sample_fits, ?_⟩, ⟨removal_fits, ?_⟩, trivial, trivial⟩
    all_goals decide +kernel
  have habove := hall alone .tree _ hadmits (by decide +kernel)
  have hput : { sample with id := 1, timestamp := 5 } ∈ ((fresh alone .tree).run
      [.commit 5 sample, .commit 6 removal, .restart alone]).contents := by
    decide +kernel
  obtain ⟨next, hnext, hlt⟩ := habove _ hput 7 (by decide +kernel)
  have hfirst : ((fresh alone .tree).run
      [.commit 5 sample, .commit 6 removal, .restart alone]).issueRecord.1 = some 1 := by
    decide +kernel
  rw [hfirst, Option.some.injEq] at hnext
  subst hnext
  exact absurd hlt (by decide)

end Log

end LogShipping
