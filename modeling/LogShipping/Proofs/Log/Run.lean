import LogShipping.Proofs.Lists
import LogShipping.Proofs.Log.Reading

/-!
# Runs of a log

A log starts over a store that holds the fences alone. From then on anything may happen to it in any
order: commits and applications that succeed or fail, changes of role, an outage of writes, restarts
over the same store. Every step keeps the invariant `Log.Good`: the log holds a history, and reads of
its store are answered. What a reader gets of the log, entry by entry, is that history
(`Good.contents_eq`), so all that is said of a run is said of what can be read.

`after_cases` says once what an event can do: the log takes entries in, or rows and position stay, or
the log is opened again. Every invariant of runs, here and in the modules that follow, is three cases
from there, and then an induction over the list of events.

What events may bring is bounded (`Log.Admits`). An entry has a form of fewer than 2^64 octets; a commit
comes while an id is left; and what is applied is such as a commit lets through. The first two are room
that no deployment runs out of, and the third is what a follower of an honest master meets. An event is
one step: the claim of an id, the write and its undoing are not told apart, and what can be seen in
between is not part of a run (`Proofs.World.Midway` is about that).
-/

namespace LogShipping

open Std

/-! ## Events -/

/-- What can happen to a log. -/
inductive LogEvent where
  /-- A commit of an entry at some time. -/
  | commit (now : Instant) (e : Entry)
  /-- An application of entries of another node. -/
  | apply (entries : List Entry)
  /-- A record id is issued. -/
  | issueRecord
  /-- One more observer is registered. -/
  | observe
  /-- The node takes over as master. -/
  | promote
  /-- The node follows a master. -/
  | follow (master : String)
  /-- From now on batches fail for a reason, after some that still succeed; or they fail no more. -/
  | writesFail (reason : Option (String × Nat))
  /-- The log is opened again over its store, with a standing of its own. -/
  | restart (standing : Standing)

namespace Log

/-- A log over a store that holds the fences and nothing else. -/
def fresh (standing : Standing) (engine : Engine) : Log where
  standing := standing
  counters := {}
  store := { engine := engine, rows := Rows.fenced }

/-- Opening a log over a store, missing fences included. -/
def openOver (standing : Standing) : Access Log := do
  let _ ← Store.ensureFences
  reopen standing

/-- A log after an event. A restart that fails leaves the log as it was. -/
def after (log : Log) : LogEvent → Log
  | .commit now e => ((commit now e).run.run log).2
  | .apply entries => ((applyReplicated entries).run.run log).2
  | .issueRecord => log.issueRecord.2
  | .observe => { log with observers := log.observers + 1 }
  | .promote => { log with standing := log.standing.promote }
  | .follow master => { log with standing := log.standing.follow master }
  | .writesFail reason =>
    let outage := reason.map fun (reason, spared) => ⟨.writeBatch, reason, spared⟩
    { log with store := { log.store with outage := outage } }
  | .restart standing => (((openOver standing).run.run log.store).1).toOption.getD log

/-- A log after some events. -/
def run (log : Log) (events : List LogEvent) : Log := events.foldl after log

/-- What an event may bring: an entry fits into memory, the last log id has not been used up, and
entries of other nodes touch keys of data, as a commit makes sure where they come from. -/
def Admits (log : Log) : LogEvent → Prop
  | .commit _ e => e.Fits ∧ log.position + 1 ≠ 0
  | .apply entries => ∀ e ∈ entries, e.Proper
  | _ => True

/-- Whether each of some events is admitted when it comes. -/
def AdmitsAll (log : Log) : List LogEvent → Prop
  | [] => True
  | event :: rest => log.Admits event ∧ (log.after event).AdmitsAll rest

/-- The entries that a reader is given for the ids from 1 up to the position. -/
def contents (log : Log) : List Entry :=
  (List.range log.position.toNat).filterMap fun i =>
    match ((readOne (UInt64.ofNat (i + 1))).run.run log.store).1 with
    | .ok entry => entry
    | .error _ => none

theorem run_append (log : Log) (first second : List LogEvent) :
    log.run (first ++ second) = (log.run first).run second := List.foldl_append

theorem admitsAll_append {log : Log} {first second : List LogEvent} :
    log.AdmitsAll (first ++ second) ↔ log.AdmitsAll first ∧ (log.run first).AdmitsAll second := by
  induction first generalizing log with
  | nil =>
    constructor
    · exact fun h => ⟨trivial, h⟩
    · exact fun h => h.2
  | cons event rest ih =>
    show log.Admits event ∧ (log.after event).AdmitsAll (rest ++ second) ↔ _
    rw [ih]
    exact and_assoc.symm

/-! ## What an event does -/

/-- The log `log'` has the rows and the position of `log`, and answers the same reads. -/
structure Beside (log log' : Log) : Prop where
  rows : log'.store.rows = log.store.rows
  position : log'.position = log.position
  answers : ∀ call, call ≠ .writeBatch → log.store.Answers call → log'.store.Answers call

/-- An event that is admitted makes a log take entries in, or it leaves rows and position alone, or it
opens the log again. The record counter is moved by entries, by an id that is issued and by a
restart. -/
theorem after_cases {log : Log} {event : LogEvent} (hadmits : log.Admits event) :
    (∃ new, log.Took new (log.after event) ∧ ∀ e ∈ new, e.Proper) ∨
      (log.Beside (log.after event) ∧
        ((log.after event).counters = log.counters ∨ event = .issueRecord)) ∨
      ∃ standing, event = .restart standing := by
  cases event with
  | commit now e =>
    left
    rcases @ensures_commit log now e hadmits.2 with ⟨committed, -, htook, rfl, hreserved, -⟩ | ⟨-, hsame, -⟩
    · refine ⟨_, htook, ?_⟩
      intro f hf
      rw [List.mem_singleton.mp hf]
      exact ⟨Entry.reserved?_eq_none_iff.mp hreserved, (Entry.fits_congr rfl rfl).mpr hadmits.1⟩
    · have hlog : log.after (.commit now e) = log := hsame
      rw [hlog]
      exact ⟨[], Took.refl log, by simp⟩
  | apply received =>
    obtain ⟨new, hsub, htook, -⟩ := @ensures_applyReplicated log received
    exact Or.inl ⟨new, htook, fun e he => hadmits e (hsub.subset he)⟩
  | issueRecord => exact Or.inr (Or.inl ⟨⟨rfl, rfl, fun _ _ h => h⟩, Or.inr rfl⟩)
  | observe => exact Or.inr (Or.inl ⟨⟨rfl, rfl, fun _ _ h => h⟩, Or.inl rfl⟩)
  | promote => exact Or.inr (Or.inl ⟨⟨rfl, rfl, fun _ _ h => h⟩, Or.inl rfl⟩)
  | follow master => exact Or.inr (Or.inl ⟨⟨rfl, rfl, fun _ _ h => h⟩, Or.inl rfl⟩)
  | writesFail reason =>
    refine Or.inr (Or.inl ⟨⟨rfl, rfl, ?_⟩, Or.inl rfl⟩)
    intro call hcall _ o ho
    obtain ⟨-, -, rfl⟩ := Option.map_eq_some_iff.mp ho
    exact fun heq => hcall heq.symm
  | restart standing => exact Or.inr (Or.inr ⟨standing, rfl⟩)

/-- After a restart that succeeds the log is the one that was opened. -/
theorem after_restart {log log' : Log} {standing : Standing}
    (h : ((openOver standing).run.run log.store).1 = .ok log') :
    log.after (.restart standing) = log' := by
  show (((openOver standing).run.run log.store).1).toOption.getD log = log'
  rw [h]
  rfl

/-! ## The invariant -/

/-- The log holds a history, and its store answers reads. -/
structure Good (log : Log) (entries : List Entry) : Prop where
  holds : log.Holds entries
  answers : ∀ call, call ≠ .writeBatch → log.store.Answers call

variable {log : Log} {entries : List Entry}

theorem good_fresh (standing : Standing) (engine : Engine) : (fresh standing engine).Good [] where
  holds := ⟨rfl, rfl, IsHistory.nil⟩
  answers := fun call _ => Store.answers_of_no_outage rfl call

namespace Good

theorem took {log' : Log} {new : List Entry} (h : log.Good entries) (htook : log.Took new log')
    (hnew : ∀ e ∈ new, e.Proper) : log'.Good (entries ++ new) where
  holds := h.holds.took htook hnew
  answers := fun call hcall => htook.answers call (h.answers call hcall)

/-- Where reads are answered, opening the log again succeeds and finds the position. -/
theorem restart (h : log.Good entries) (standing : Standing) :
    ∃ log', ((openOver standing).run.run log.store).1 = .ok log' ∧ log'.Good entries ∧
      log'.standing = standing := by
  obtain ⟨haged, hr⟩ := ensures_reopen h.holds.rows h.holds.history standing
  rcases hr with ⟨log', hr, hholds, hstanding, hstore⟩ | hr | hr
  · refine ⟨log', hr, ⟨hholds, ?_⟩, hstanding⟩
    intro call hcall
    rw [hstore]
    exact haged.2.2 call (h.answers call hcall)
  · exact absurd (h.answers .get (by decide)) hr.1
  · exact absurd (h.answers .seekPrev (by decide)) hr.1

/-- What leaves rows and position alone leaves the history alone. -/
theorem unchanged {log' : Log} (h : log.Good entries) (hrows : log'.store.rows = log.store.rows)
    (hposition : log'.position = log.position)
    (hanswers : ∀ call, call ≠ .writeBatch → log'.store.Answers call) :
    ∃ new, log'.Good (entries ++ new) := by
  refine ⟨[], ?_⟩
  rw [List.append_nil]
  refine ⟨⟨hrows.trans h.holds.rows, ?_, h.holds.history⟩, hanswers⟩
  rw [hposition]
  exact h.holds.position

/-- An event that is admitted makes the history longer at most. -/
theorem after (h : log.Good entries) {event : LogEvent} (hadmits : log.Admits event) :
    ∃ new, (log.after event).Good (entries ++ new) := by
  rcases after_cases hadmits with ⟨new, htook, hnew⟩ | ⟨hbeside, -⟩ | ⟨standing, rfl⟩
  · exact ⟨new, h.took htook hnew⟩
  · refine h.unchanged hbeside.rows hbeside.position ?_
    exact fun call hcall => hbeside.answers call hcall (h.answers call hcall)
  · obtain ⟨log', hr, hgood, -⟩ := h.restart standing
    rw [after_restart hr]
    exact ⟨[], by rw [List.append_nil]; exact hgood⟩

theorem run (h : log.Good entries) {events : List LogEvent} (hadmits : log.AdmitsAll events) :
    ∃ new, (log.run events).Good (entries ++ new) := by
  induction events generalizing log entries with
  | nil => exact ⟨[], by rw [List.append_nil]; exact h⟩
  | cons event rest ih =>
    obtain ⟨new, hnew⟩ := h.after hadmits.1
    obtain ⟨more, hmore⟩ := ih hnew hadmits.2
    refine ⟨new ++ more, ?_⟩
    rw [← List.append_assoc]
    exact hmore

/-! ## What can be read -/

/-- The entry of an id is handed out exactly if the history has it. -/
theorem readOne_eq_some_iff (h : log.Good entries) {id : LogId} {e : Entry} :
    ((readOne id).run.run log.store).1 = .ok (some e) ↔ e ∈ entries ∧ e.id = id := by
  obtain ⟨-, hr⟩ := ensures_readOne h.holds.rows h.holds.history id
  rcases hr with ⟨f, hf, hid, hr⟩ | ⟨hnone, hr⟩ | ⟨hnot, -⟩
  · rw [hr]
    constructor
    · rintro heq
      cases heq
      exact ⟨hf, hid⟩
    · rintro ⟨he, heid⟩
      rw [h.holds.history.eq_of_id he hf (heid.trans hid.symm)]
  · constructor
    · intro heq
      rcases hr with hr | ⟨error, hr⟩
      · rw [hr] at heq
        cases heq
      · rw [hr] at heq
        cases heq
    · rintro ⟨he, heid⟩
      exact absurd heid (hnone e he)
  · exact absurd (h.answers .get (by decide)) hnot

/-- What can be read is the history. -/
theorem contents_eq (h : log.Good entries) : log.contents = entries := by
  have hentry : ∀ i ∈ List.range log.position.toNat,
      (match ((readOne (UInt64.ofNat (i + 1))).run.run log.store).1 with
        | .ok entry => entry
        | .error _ => none) = entries[i]? := by
    intro i hi
    rw [List.mem_range, h.holds.position] at hi
    have hid : (UInt64.ofNat (i + 1)).toNat = i + 1 := by
      have hlt := log.position.toNat_lt
      rw [h.holds.position] at hlt
      rw [UInt64.toNat_ofNat']
      exact Nat.mod_eq_of_lt (by omega)
    have hread := (@readOne_eq_some_iff _ _ h (UInt64.ofNat (i + 1)) entries[i]).mpr
      ⟨List.getElem_mem hi, by
        apply UInt64.toNat_inj.mp
        rw [h.holds.history.numbered i hi, hid]⟩
    rw [hread, List.getElem?_eq_getElem hi]
  rw [contents, List.filterMap_congr hentry, h.holds.position]
  exact filterMap_getElem?_range entries

end Good

end Log

end LogShipping
