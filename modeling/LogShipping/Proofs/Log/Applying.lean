import LogShipping.Proofs.Log.AppendOnly

/-!
# Applying entries of another node

A follower that is handed entries applies those that its position picks of them (`Log.Picks`) and says
how it ended (`Log.Ends`). Since an application only looks at the log as the entries before have left
it, it does not matter how a sequence of entries is cut into batches (`applyFrom_append`), and what has
been applied as a whole is skipped when it comes again.

What is picked is a function of the position and of the list, told without a log, by one constructor for
each thing that may happen to the first entry: it is skipped, it is taken, or it leaves a gap and ends
the whole. An outage shortens what is taken in, but takes nothing out of its middle.

Entries may be anything here, as a follower may be handed anything: out of order, twice, with gaps, of
any author. That they come from one history is assumed only where logs of several nodes are compared.
-/

namespace LogShipping

open Std

namespace Log

/-! ## What a position picks -/

namespace Picks

variable {position : Nat} {entries new left : List Entry}

/-- The entries picked are numbered on from the position. -/
theorem numbered (h : Picks position entries new left) :
    new.map (fun e => e.id.toNat) = List.range' (position + 1) new.length := by
  induction h with
  | done => rfl
  | skip _ _ ih => exact ih
  | pick next _ ih => rw [List.map_cons, ih, next, List.length_cons, List.range'_succ]
  | stop => rfl

/-- Entries that are numbered on from the position are picked one after the other. -/
theorem eq_append (h : Picks position entries new left)
    (hnumbered : ∀ (i : Nat) (hi : i < entries.length), entries[i].id.toNat = position + i + 1) :
    entries = new ++ left := by
  induction h with
  | done => rfl
  | skip had _ _ =>
    have hfirst := hnumbered 0 (Nat.succ_pos _)
    rw [List.getElem_cons_zero] at hfirst
    omega
  | pick _ _ ih =>
    rw [List.cons_append, ← ih fun i hi => ?_]
    have hnext := hnumbered (i + 1) (Nat.succ_lt_succ hi)
    rw [List.getElem_cons_succ] at hnext
    omega
  | stop => rfl

/-- If nothing is left, the position has come past every entry. -/
theorem id_le (h : Picks position entries new []) :
    ∀ e ∈ entries, e.id.toNat ≤ position + new.length := by
  generalize hleft : ([] : List Entry) = left at h
  induction h with
  | done => simp
  | skip had _ ih =>
    intro e he
    rcases List.mem_cons.mp he with rfl | he
    · omega
    · exact ih hleft e he
  | pick next _ ih =>
    intro e he
    rw [List.length_cons]
    rcases List.mem_cons.mp he with rfl | he
    · omega
    · have := ih hleft e he
      omega
  | stop => cases hleft

end Picks

/-! ## Batches -/

/-- Applying two lists at once is applying one after the other. -/
theorem applyFrom_append (applied : Nat) (first second : List Entry) :
    applyFrom applied (first ++ second) =
      applyFrom applied first >>= fun count => applyFrom count second := by
  induction first generalizing applied with
  | nil => exact (pure_bind _ _).symm
  | cons e rest ih =>
    simp only [List.cons_append, applyFrom, bind_assoc]
    refine bind_congr fun log => ?_
    split
    · exact ih applied
    · split
      · rfl
      · simp only [bind_assoc, ih]

/-- The entries applied before are only counted. -/
theorem applyFrom_add (before applied : Nat) (entries : List Entry) :
    applyFrom (before + applied) entries = (before + ·) <$> applyFrom applied entries := by
  induction entries generalizing applied with
  | nil => exact (map_pure _ _).symm
  | cons e rest ih =>
    simp only [applyFrom, map_bind]
    refine bind_congr fun log => ?_
    split
    · exact ih applied
    · split
      · rfl
      · simp only [map_bind]
        exact bind_congr fun _ => bind_congr fun _ => ih (applied + 1)

variable {log : Log}

/-- Entries that the log has already are all skipped. -/
theorem applyFrom_of_le {entries : List Entry} (applied : Nat)
    (hle : ∀ e ∈ entries, e.id ≤ log.position) :
    (applyFrom applied entries).run.run log = (.ok applied, log) := by
  induction entries with
  | nil => rfl
  | cons e rest ih =>
    have hskip : (applyFrom applied (e :: rest)).run.run log = (applyFrom applied rest).run.run log := by
      show (if e.id ≤ log.position then applyFrom applied rest else _ : LogWork Nat).run.run log = _
      rw [if_pos (hle e List.mem_cons_self)]
    rw [hskip]
    exact ih fun e he => hle e (List.mem_cons_of_mem _ he)

/-! ## Applications on a follower -/

/-- What an application answers, and the log after it. -/
def applied (log : Log) (entries : List Entry) : Except Error Nat × Log :=
  (applyReplicated entries).run.run log

theorem applied_eq (hfollower : log.standing.isMaster = false) (entries : List Entry) :
    log.applied entries = (applyFrom 0 entries).run.run log := by
  show (if log.standing.isMaster = true then _ else _ : LogWork Nat).run.run log = _
  rw [hfollower]
  rfl

/-- Entries that come in two batches are applied as if they had come in one. -/
theorem applied_append {first : List Entry} {count : Nat} {log' : Log}
    (hfollower : log.standing.isMaster = false) (hfollower' : log'.standing.isMaster = false)
    (h : log.applied first = (.ok count, log')) (second : List Entry) :
    log.applied (first ++ second) =
      ((log'.applied second).1.map (count + ·), (log'.applied second).2) := by
  rw [applied_eq hfollower] at h
  have hcount := applyFrom_add count 0 second
  rw [Nat.add_zero] at hcount
  rw [applied_eq hfollower, applied_eq hfollower', applyFrom_append, run_bind_work, h]
  show (applyFrom count second).run.run log' = _
  rw [hcount]
  exact run_map_work _ _ _

/-- The log `log'` is the log `log` after it was handed entries, of which it took `new` in and left
`left`; nothing but `new` has come into the store. -/
structure Applies (log : Log) (entries new left : List Entry) (r : Except Error Nat) (log' : Log) :
    Prop where
  picks : Picks log.position.toNat entries new left
  numbered : new.map (fun e => e.id.toNat) = List.range' (log.position.toNat + 1) new.length
  contents : log'.contents = log.contents ++ new
  rows : log'.store.rows = log.store.rows.applyAll (new.flatMap Entry.ops)
  position : log'.position.toNat = log.position.toNat + new.length
  ends : log.Ends 0 new left r

/-- Whatever a follower has been through, it takes in what its position picks of the entries that it
is handed, also when the store fails in between. Handed all of them again after a success, it changes
nothing; and more entries could as well have come in the same batch. -/
theorem run_applies_exactly (standing : Standing) (engine : Engine) (events : List LogEvent)
    (entries : List Entry) (hadmits : (fresh standing engine).AdmitsAll events)
    (hfollower : ((fresh standing engine).run events).standing.isMaster = false)
    (hproper : ∀ e ∈ entries, e.Proper) :
    let log := (fresh standing engine).run events
    let r := (log.applied entries).1
    let log' := (log.applied entries).2
    (∃ new left, log.Applies entries new left r log') ∧
      ∀ count, r = .ok count →
        log'.applied entries = (.ok 0, log') ∧
        ∀ more, log.applied (entries ++ more) =
          ((log'.applied more).1.map (count + ·), (log'.applied more).2) := by
  intro log r log'
  have hgood : log.Good log.contents := good_run hadmits
  have happlied : log.applied entries = (r, log') := rfl
  obtain ⟨new, left, hpicks, htook, hends⟩ := @ensures_applyFrom log entries 0
  rw [← applied_eq hfollower] at htook hends
  have hafter : log'.Good (log.contents ++ new) :=
    hgood.took htook fun e he => hproper e (hpicks.sublist.subset he)
  have hfollower' : log'.standing.isMaster = false := by
    rw [show log'.standing = log.standing from htook.standing]
    exact hfollower
  constructor
  · exact ⟨new, left, hpicks, hpicks.numbered, hafter.contents_eq, htook.rows, htook.position, hends⟩
  · intro count hr
    refine ⟨?_, fun more => applied_append hfollower hfollower' (by rw [happlied, hr]) more⟩
    -- after a success nothing is left, so the position has come past every entry
    have hleft : left = [] := by
      have hends' : log.Ends 0 new left (.ok count) := hr ▸ hends
      cases hends'
      rfl
    subst hleft
    rw [applied_eq hfollower']
    apply applyFrom_of_le
    intro e he
    rw [UInt64.le_iff_toNat_le, show log'.position.toNat = _ from htook.position]
    exact hpicks.id_le e he

/-- The standing of a follower. -/
def led : Standing := Standing.start "http://b" false (some "http://a")

/-- An entry that another node committed under an id. -/
def foreign (id : LogId) : Entry := { sample with id := id, timestamp := 5 }

theorem foreign_proper (id : LogId) : (foreign id).Proper :=
  ⟨show ∀ item ∈ sample.items, Key.isData item.key = true by decide,
    (Entry.fits_congr rfl rfl).mpr sample_fits⟩

/-- A follower that has the first entry is handed it again, with the next one behind it. -/
theorem run_applies_exactly_again :
    (fresh led .table).AdmitsAll [.apply [foreign 1]] ∧
      ((fresh led .table).run [.apply [foreign 1]]).standing.isMaster = false ∧
      (∀ e ∈ [foreign 1, foreign 2], e.Proper) ∧
      let log := (fresh led .table).run [.apply [foreign 1]]
      let log' := (log.applied [foreign 1, foreign 2]).2
      (log.applied [foreign 1, foreign 2]).1 = .ok 1 ∧
        log'.applied [foreign 1, foreign 2] = (.ok 0, log') := by
  have hproper : ∀ ids : List LogId, ∀ e ∈ ids.map foreign, e.Proper := by
    intro ids e he
    obtain ⟨id, -, rfl⟩ := List.mem_map.mp he
    exact foreign_proper id
  have hadmits : (fresh led .table).AdmitsAll [.apply [foreign 1]] := ⟨hproper [1], trivial⟩
  have hone : (((fresh led .table).run [.apply [foreign 1]]).applied [foreign 1, foreign 2]).1 =
      .ok 1 := by rfl
  refine ⟨hadmits, rfl, hproper [1, 2], hone, ?_⟩
  exact ((run_applies_exactly led .table _ _ hadmits rfl (hproper [1, 2])).2 1 hone).1

end Log

end LogShipping
