import LogShipping.Proofs.Log.Run

/-!
# A log and its push target

Nothing that a log does depends on where fresh entries are pushed to, or on whether the node was told to
stop: work on a log is blind to both (`Log.Blind`). So two logs that differ in nothing else stay so,
whatever happens to both of them (`after_aimed`).

It is a statement about two runs side by side, and is proved for each kind of work from the parts that
it is made of: what is blind may be done one after the other, under a condition, for each entry of a
list, and is blind as a whole. No work on the log is looked into more than once.

The sender of pushes relies on this. Of all that it does, the target is the one thing that it writes
into the log it shares with the commits, so a node with a sender and a node without one can be compared
(`Proofs.Push.Sender`). What the target means, and who sets it, does not enter here.
-/

namespace LogShipping

open Std

namespace Log

variable {α β : Type}

/-- The log with another push target, and told to stop or not. -/
def aimed (log : Log) (target : Option String) (shutDown : Bool) : Log :=
  { log with standing := { log.standing with pushTarget := target, shutDown := shutDown } }

/-- Work on a log that neither looks at the push target nor changes it. -/
def Blind (work : LogWork α) : Prop :=
  ∀ log target shutDown, work.run.run (log.aimed target shutDown) =
    ((work.run.run log).1, (work.run.run log).2.aimed target shutDown)

namespace Blind

theorem pure (a : α) : Blind (Pure.pure a) := fun _ _ _ => rfl

theorem fail (error : Error) : Blind (throw error : LogWork α) := fun _ _ _ => rfl

theorem bind {work : LogWork α} {next : α → LogWork β} (h : Blind work) (hnext : ∀ a, Blind (next a)) :
    Blind (work >>= next) := by
  intro log target shutDown
  rw [run_bind_work, run_bind_work, h log target shutDown]
  rcases work.run.run log with ⟨_ | a, log'⟩
  · rfl
  · exact hnext a log' target shutDown

theorem handle {work : LogWork α} {handler : Error → LogWork α} (h : Blind work)
    (hhandler : ∀ error, Blind (handler error)) : Blind (tryCatch work handler) := by
  intro log target shutDown
  rw [run_tryCatch_work, run_tryCatch_work, h log target shutDown]
  rcases work.run.run log with ⟨error | _, log'⟩
  · exact hhandler error log' target shutDown
  · rfl

theorem onStore (work : Access α) : Blind (Log.onStore work) := fun _ _ _ => rfl

theorem update {f : Log → Log}
    (h : ∀ log target shutDown, f (log.aimed target shutDown) = (f log).aimed target shutDown) :
    Blind (modify f : LogWork PUnit) :=
  fun log target shutDown => Prod.ext rfl (h log target shutDown)

/-- Work that looks at the log first. -/
theorem read {next : Log → LogWork α}
    (h : ∀ log target shutDown, (next (log.aimed target shutDown)).run.run (log.aimed target shutDown) =
      (((next log).run.run log).1, ((next log).run.run log).2.aimed target shutDown)) :
    Blind (get >>= next) := h

end Blind

theorem blind_persistOrRelease (e : Entry) : Blind (persistOrRelease e) := by
  rw [persistOrRelease, persist_eq]
  refine Blind.handle (Blind.bind (Blind.onStore _) fun _ => Blind.update fun _ _ _ => rfl) fun error => ?_
  exact Blind.bind (Blind.update fun _ _ _ => rfl) fun _ => Blind.fail error

theorem blind_commit (now : Instant) (e : Entry) : Blind (commit now e) := by
  unfold commit
  by_cases hempty : e.items.isEmpty = true
  · simp only [if_pos hempty]
    exact Blind.pure none
  simp only [if_neg hempty]
  cases e.reserved? with
  | some item => exact Blind.fail _
  | none =>
    refine Blind.read fun log target shutDown => ?_
    have hmaster : (log.aimed target shutDown).standing.isMaster = log.standing.isMaster := rfl
    rw [hmaster]
    cases log.standing.isMaster with
    | false => rfl
    | true =>
      have hcounters : (log.aimed target shutDown).counters = log.counters := rfl
      simp only [hcounters, Bool.not_true, Bool.false_eq_true, if_false]
      cases log.counters.issueLog.1 with
      | none => rfl
      | some id =>
        have hput := Blind.bind (blind_persistOrRelease { e with id := id, timestamp := now })
          fun _ => Blind.pure (some { e with id := id, timestamp := now })
        exact hput { log with counters := log.counters.issueLog.2 } target shutDown

theorem blind_applyFrom (entries : List Entry) (applied : Nat) : Blind (applyFrom applied entries) := by
  induction entries generalizing applied with
  | nil => exact Blind.pure applied
  | cons e rest ih =>
    refine Blind.read fun log target shutDown => ?_
    have hposition : (log.aimed target shutDown).position = log.position := rfl
    have hcounters : (log.aimed target shutDown).counters = log.counters := rfl
    rw [hposition, hcounters]
    by_cases hskip : e.id ≤ log.position
    · simp only [if_pos hskip]
      exact ih applied log target shutDown
    · simp only [if_neg hskip]
      cases log.counters.claimLog? e.id with
      | none => rfl
      | some counters =>
        have hput := Blind.bind (blind_persistOrRelease e) fun _ => ih (applied + 1)
        exact hput { log with counters := counters } target shutDown

theorem blind_applyReplicated (entries : List Entry) : Blind (applyReplicated entries) := by
  refine Blind.read fun log target shutDown => ?_
  have hmaster : (log.aimed target shutDown).standing.isMaster = log.standing.isMaster := rfl
  rw [hmaster]
  cases log.standing.isMaster with
  | false => exact blind_applyFrom entries 0 log target shutDown
  | true => rfl

/-- Logs that differ in the push target at most stay so, whatever happens to both of them. -/
theorem after_aimed (log : Log) (target : Option String) (shutDown : Bool) (event : LogEvent) :
    ∃ target' shutDown',
      (log.aimed target shutDown).after event = (log.after event).aimed target' shutDown' := by
  cases event with
  | commit now e => exact ⟨target, shutDown, congrArg Prod.snd (blind_commit now e log target shutDown)⟩
  | apply entries =>
    exact ⟨target, shutDown, congrArg Prod.snd (blind_applyReplicated entries log target shutDown)⟩
  | issueRecord => exact ⟨target, shutDown, rfl⟩
  | observe => exact ⟨target, shutDown, rfl⟩
  | promote => exact ⟨none, shutDown, rfl⟩
  | follow master => exact ⟨none, shutDown, rfl⟩
  | writesFail reason => exact ⟨target, shutDown, rfl⟩
  | restart standing =>
    -- the log opened again has the push target of its new standing
    show ∃ target' shutDown', (((openOver standing).run.run log.store).1).toOption.getD _ =
      ((((openOver standing).run.run log.store).1).toOption.getD log).aimed target' shutDown'
    cases ((openOver standing).run.run log.store).1 with
    | error => exact ⟨target, shutDown, rfl⟩
    | ok opened => exact ⟨opened.standing.pushTarget, opened.standing.shutDown, rfl⟩

end Log

end LogShipping
