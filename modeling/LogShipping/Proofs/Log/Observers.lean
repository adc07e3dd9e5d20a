import LogShipping.Proofs.Log.Applying
import LogShipping.Proofs.Log.RecordIds
import Mathlib.Data.List.Nodup

/-!
# What observers are told

While a log stays open, every entry that it takes in is told to the observers that are registered by
then: mutation by mutation, and each mutation to all of them in the order of their registration. What is
rejected or skipped, and what the store refuses, is not told at all. So an observer hears the log from
its registration on, each entry once and in the order of the ids (`Log.run_tells_once`).

A run is compared with the entries that it took in (`Log.intakes`). What an observer finds when it is
called is seen by watching the calls: `Log.watch` tells an observer and notes the log as it is then. It
takes the place of the plain call, which it is shown to agree with but for the notes.

An observer is an index and what it was told; what it does with that is its own business, and one that
fails or never returns is not modelled. A restart ends all registrations, and so it ends the statement.
The log may start in any state at all, with any rows, counters and outage, and no entry is asked to fit
or to be of data. Only that ids follow one another needs some to be left (`Log.HasRoom`).
-/

namespace LogShipping

open Std

/-! ## Notices -/

/-- What an observer is told of an entry: its mutations in their order, each with its partition.
Mutations of unknown partitions are left out. -/
def Entry.told (e : Entry) : List (Partition × Mutation) :=
  e.items.filterMap fun item => item.partition?.map fun p => (p, item)

/-- What an observer is told by some notices. -/
def Notice.heardBy (observer : Nat) (notices : List Notice) : List (Partition × Mutation) :=
  (notices.filter (·.observer == observer)).map fun notice => (notice.partition, notice.item)

theorem Notice.heardBy_append (observer : Nat) (notices more : List Notice) :
    heardBy observer (notices ++ more) = heardBy observer notices ++ heardBy observer more := by
  rw [heardBy, List.filter_append, List.map_append]
  rfl

theorem Notice.heardBy_flatMap {α : Type} (observer : Nat) (l : List α) (f : α → List Notice) :
    heardBy observer (l.flatMap f) = l.flatMap fun a => heardBy observer (f a) := by
  rw [heardBy, List.filter_flatMap, List.map_flatMap]
  rfl

/-- Observers that are not registered yet are told nothing. -/
theorem Notice.heardBy_eq_nil {observer : Nat} {notices : List Notice}
    (h : ∀ notice ∈ notices, notice.observer < observer) : heardBy observer notices = [] := by
  have hnone : notices.filter (·.observer == observer) = [] := by
    rw [List.filter_eq_nil_iff]
    intro notice hnotice
    simpa using (h notice hnotice).ne
  rw [heardBy, hnone]
  rfl

namespace Entry

variable {observers : Nat}

theorem observer_lt_of_mem_notices {e : Entry} {notice : Notice}
    (h : notice ∈ e.notices observers) : notice.observer < observers := by
  obtain ⟨item, -, hnotice⟩ := List.mem_flatMap.mp h
  cases hp : item.partition? with
  | none =>
    rw [hp] at hnotice
    cases hnotice
  | some p =>
    rw [hp] at hnotice
    obtain ⟨i, hi, rfl⟩ := List.mem_map.mp hnotice
    exact List.mem_range.mp hi

/-- Each observer is told of each mutation once, and of the mutations in their order. -/
theorem heardBy_notices (e : Entry) {observer : Nat} (hobserver : observer < observers) :
    Notice.heardBy observer (e.notices observers) = e.told := by
  rw [notices, told, Notice.heardBy_flatMap, List.filterMap_eq_flatMap_toList]
  refine List.flatMap_congr fun item _ => ?_
  cases item.partition? with
  | none => rfl
  | some p =>
    have hone : (List.range observers).filter (· == observer) = [observer] := by
      rw [List.filter_beq,
        List.count_eq_one_of_mem List.nodup_range (List.mem_range.mpr hobserver)]
      rfl
    show ((((List.range observers).map fun i => Notice.mk i p item).filter
      (·.observer == observer)).map fun notice => (notice.partition, notice.item)) = [(p, item)]
    rw [List.filter_map, show (fun notice : Notice => notice.observer == observer) ∘
      (fun i => Notice.mk i p item) = (· == observer) from rfl, hone]
    rfl

end Entry

namespace Log

/-! ## Watching the calls -/

/-- A call of an observer: what it is told, and the log that it finds. -/
structure Telling where
  /-- What the observer is told. -/
  notice : Notice
  /-- The log at the time of the call. -/
  found : Log

/-- Tells an observer of a mutation, and notes the log that the observer finds. -/
def watch (notice : Notice) : LogWork Telling := do
  let found ← get
  tell notice
  return ⟨notice, found⟩

/-- Calls change nothing but what the observers have been told. -/
theorem run_mapM_watch (notices : List Notice) (log : Log) :
    ∃ tellings : List Telling,
      (notices.mapM watch).run.run log =
          (.ok tellings, { log with notices := log.notices ++ notices }) ∧
        tellings.map Telling.notice = notices ∧
        ∀ t ∈ tellings, t.found.store = log.store ∧ t.found.counters = log.counters := by
  induction notices generalizing log with
  | nil =>
    refine ⟨[], ?_, rfl, by simp⟩
    rw [List.append_nil]
    rfl
  | cons notice rest ih =>
    obtain ⟨tellings, hrun, hnotices, hfound⟩ := ih { log with notices := log.notices ++ [notice] }
    have hfirst : (watch notice).run.run log =
        (.ok ⟨notice, log⟩, { log with notices := log.notices ++ [notice] }) := rfl
    refine ⟨⟨notice, log⟩ :: tellings, ?_, by rw [List.map_cons, hnotices], ?_⟩
    · rw [List.mapM_cons, run_bind_work, hfirst]
      show (rest.mapM watch >>= fun more => pure (_ :: more) : LogWork _).run.run
        { log with notices := log.notices ++ [notice] } = _
      rw [run_bind_work, hrun]
      simp only [List.append_assoc, List.singleton_append]
      rfl
    · intro t ht
      rcases List.mem_cons.mp ht with rfl | ht
      · exact ⟨rfl, rfl⟩
      · exact hfound t ht

/-- The store takes an entry or refuses it. If it takes it, the calls start from a log that holds the
entry and has counted its records; if not, nobody is called. -/
theorem persistCalling_cases (e : Entry) (log : Log) :
    (∃ s : Store, s.rows = log.store.rows.applyAll e.ops ∧
      ∀ (α : Type) (call : Notice → LogWork α),
        (persistCalling call e).run.run log =
          ((e.notices log.observers).mapM call).run.run
            { log with
              store := s
              counters := e.recordSequences.foldl Counters.observeRecord log.counters }) ∨
    ∃ error, ∀ (α : Type) (call : Notice → LogWork α),
      (persistCalling call e).run.run log = (.error error, log) := by
  have hbatch : Ensures (onStore (Store.writeBatch e.ops)) log fun r log' =>
      (r = .ok () ∧ ∃ s : Store, s.rows = log.store.rows.applyAll e.ops ∧
        log' = { log with store := s }) ∨ ∃ error, r = .error error ∧ log' = log := by
    refine ensures_onStore ((Store.ensures_writeBatch e.ops).mono ?_)
    rintro r s (⟨rfl, hs⟩ | ⟨⟨-, fault, rfl⟩, rfl⟩)
    · exact Or.inl ⟨rfl, s, hs.1, rfl⟩
    · exact Or.inr ⟨_, rfl, rfl⟩
  unfold Ensures at hbatch
  unfold persistCalling
  rcases hr : (onStore (Store.writeBatch e.ops)).run.run log with ⟨r, log'⟩
  rw [hr] at hbatch
  rcases hbatch with ⟨rfl, s, hs, rfl⟩ | ⟨error, rfl, rfl⟩
  · refine Or.inl ⟨s, hs, fun α call => ?_⟩
    rw [run_bind_work, hr]
    rfl
  · refine Or.inr ⟨error, fun α call => ?_⟩
    rw [run_bind_work, hr]

/-! ## Entries that are taken in -/

/-- An entry that a log takes in, and the log as it was before. -/
structure Intake where
  /-- The log before. -/
  before : Log
  /-- The entry under its id. -/
  entry : Entry

namespace Intake

/-- The log whose position has moved to the id of the entry, which is not in the store yet. -/
def claimed (i : Intake) : Log :=
  { i.before with counters := { i.before.counters with position := i.entry.id } }

/-- The calls that are made when the entry is put into the store. -/
def tellings (i : Intake) : List Telling :=
  match ((persistCalling watch i.entry).run.run i.claimed).1 with
  | .ok tellings => tellings
  | .error _ => []

/-- The entry was put into the store, and the observers were called for each of its mutations. Each of
them has found the whole entry in the store and its records counted. -/
structure Done (i : Intake) (log' : Log) : Prop where
  persisted : (persist i.entry).run.run i.claimed = (.ok (), log')
  watched : (persistCalling watch i.entry).run.run i.claimed = (.ok i.tellings, log')
  told : i.tellings.map Telling.notice = i.entry.notices i.before.observers
  stored : ∀ t ∈ i.tellings, t.found.store.rows = i.before.store.rows.applyAll i.entry.ops
  counted : ∀ t ∈ i.tellings, ∀ sequence ∈ i.entry.recordSequences,
    sequence ≤ t.found.counters.primary
  rows : log'.store.rows = i.before.store.rows.applyAll i.entry.ops
  position : log'.position = i.entry.id
  notices : log'.notices = i.before.notices ++ i.entry.notices i.before.observers
  observers : log'.observers = i.before.observers
  standing : log'.standing = i.before.standing

/-- An entry whose id is taken is put into the store and told, or nothing happens. -/
theorem done_or_refused (i : Intake) :
    (∃ log', i.Done log') ∨
      ∃ error, (persist i.entry).run.run i.claimed = (.error error, i.claimed) := by
  rcases persistCalling_cases i.entry i.claimed with ⟨s, hs, hrun⟩ | ⟨error, hrun⟩
  · left
    obtain ⟨tellings, hwatched, htold, hfound⟩ :=
      run_mapM_watch (i.entry.notices i.claimed.observers) _
    rw [← hrun Telling watch] at hwatched
    -- telling and watching start from the same log, so what the watchers find is what there was to find
    have htellings : i.tellings = tellings := by rw [Intake.tellings, hwatched]
    refine ⟨{ i.claimed with
        store := s
        counters := i.entry.recordSequences.foldl Counters.observeRecord i.claimed.counters
        notices := i.before.notices ++ i.entry.notices i.before.observers }, {
      persisted := ?_
      watched := by rw [htellings]; exact hwatched
      told := by rw [htellings]; exact htold
      stored := ?_
      counted := ?_
      rows := hs
      position := ?_
      notices := rfl
      observers := rfl
      standing := rfl }⟩
    · rw [persist, run_bind_work, hrun, run_mapM_tell]
      rfl
    · intro t ht
      rw [(hfound t (htellings ▸ ht)).1]
      exact hs
    · intro t ht sequence hsequence
      rw [(hfound t (htellings ▸ ht)).2, foldl_observeRecord]
      exact le_foldl_max_of_mem _ hsequence
    · show (i.entry.recordSequences.foldl Counters.observeRecord i.claimed.counters).position = _
      rw [foldl_observeRecord]
      rfl
  · right
    refine ⟨error, ?_⟩
    rw [persist, run_bind_work, hrun]

end Intake

/-- The log `log'` has the rows of the log `log`, its observers and what they were told. The position
is the same too unless the ids are used up. -/
structure Silent (log log' : Log) : Prop where
  rows : log'.store.rows = log.store.rows
  notices : log'.notices = log.notices
  observers : log'.observers = log.observers
  standing : log'.standing = log.standing
  position : log.position + 1 ≠ 0 → log'.position = log.position

theorem Silent.refl (log : Log) : log.Silent log := ⟨rfl, rfl, rfl, rfl, fun _ => rfl⟩

variable {log : Log}

/-- An entry under the id after the position is taken in, or the id is given back. -/
theorem ensures_persistOrRelease_intake {e : Entry} (hid : e.id = log.position + 1) :
    Ensures (persistOrRelease e) (Intake.claimed ⟨log, e⟩) fun r log' =>
      (r = .ok () ∧ (Intake.mk log e).Done log') ∨ (∃ error, r = .error error) ∧ log.Silent log' := by
  unfold Ensures persistOrRelease
  rw [run_tryCatch_work]
  rcases (Intake.mk log e).done_or_refused with ⟨log', hdone⟩ | ⟨error, hrefused⟩
  · rw [hdone.persisted]
    exact Or.inl ⟨rfl, hdone⟩
  · rw [hrefused]
    refine Or.inr ⟨⟨error, rfl⟩, rfl, rfl, rfl, rfl, ?_⟩
    intro hroom
    show (Counters.releaseLog { log.counters with position := e.id } e.id).position = _
    rw [hid]
    have hissued : log.counters.issueLog.1 = some (log.position + 1) :=
      Counters.next?_eq_some_iff.mpr ⟨hroom, rfl⟩
    exact congrArg Counters.position (Counters.releaseLog_issueLog hissued)

/-- A commit takes in the entry that it returns, or nobody hears of it. -/
theorem ensures_commit_intake (now : Instant) (e : Entry) :
    Ensures (commit now e) log fun r log' =>
      (∃ committed, r = .ok (some committed) ∧ committed.id = log.position + 1 ∧
        (Intake.mk log committed).Done log') ∨
      (r = .ok none ∨ ∃ error, r = .error error) ∧ log.Silent log' := by
  unfold commit
  by_cases hempty : e.items.isEmpty = true
  · simp only [if_pos hempty]
    exact Ensures.pure (Or.inr ⟨Or.inl rfl, Silent.refl log⟩)
  simp only [if_neg hempty]
  cases e.reserved? with
  | some item => exact Ensures.fail (Or.inr ⟨Or.inr ⟨_, rfl⟩, Silent.refl log⟩)
  | none =>
    apply Ensures.read_bind
    cases log.standing.isMaster with
    | false => exact Ensures.fail (Or.inr ⟨Or.inr ⟨_, rfl⟩, Silent.refl log⟩)
    | true =>
      by_cases hroom : log.position + 1 = 0
      · rw [Counters.issueLog_of_full hroom]
        exact Ensures.write_bind (Ensures.fail
          (Or.inr ⟨Or.inr ⟨_, rfl⟩, rfl, rfl, rfl, rfl, fun h => absurd hroom h⟩))
      rw [Counters.issueLog_of_room hroom]
      refine Ensures.write_bind (Ensures.bind ((ensures_persistOrRelease_intake rfl).mono ?_))
      rintro r log' (⟨rfl, hdone⟩ | ⟨⟨error, rfl⟩, hsilent⟩)
      · exact Ensures.pure (Or.inl ⟨_, rfl, rfl, hdone⟩)
      · exact Or.inr ⟨Or.inr ⟨error, rfl⟩, hsilent⟩

/-- An entry of another node is skipped, or it is taken in, or nobody hears of it. -/
theorem applied_singleton_cases (log : Log) (e : Entry) :
    ((log.applied [e]).1 = .ok 0 ∧ (log.applied [e]).2 = log) ∨
      ((log.applied [e]).1 = .ok 1 ∧ e.id.toNat = log.position.toNat + 1 ∧
        (Intake.mk log e).Done (log.applied [e]).2) ∨
      (∃ error, (log.applied [e]).1 = .error error) ∧ log.Silent (log.applied [e]).2 ∧
        (log.applied [e]).2.position = log.position := by
  show Ensures (applyReplicated [e]) log fun r log' =>
    (r = .ok 0 ∧ log' = log) ∨
      (r = .ok 1 ∧ e.id.toNat = log.position.toNat + 1 ∧ (Intake.mk log e).Done log') ∨
      (∃ error, r = .error error) ∧ log.Silent log' ∧ log'.position = log.position
  apply Ensures.read_bind
  cases log.standing.isMaster with
  | true => exact Ensures.fail (Or.inr (Or.inr ⟨⟨_, rfl⟩, Silent.refl log, rfl⟩))
  | false =>
    apply Ensures.read_bind
    by_cases hskip : e.id ≤ log.position
    · simp only [if_pos hskip]
      exact Ensures.pure (Or.inl ⟨rfl, rfl⟩)
    simp only [if_neg hskip]
    cases hclaim : log.counters.claimLog? e.id with
    | none => exact Ensures.fail (Or.inr (Or.inr ⟨⟨_, rfl⟩, Silent.refl log, rfl⟩))
    | some claimed =>
      obtain ⟨hbefore, rfl⟩ := Counters.claimLog?_eq_some_iff.mp hclaim
      have hnext : e.id.toNat = log.position.toNat + 1 :=
        (Counters.eq_before_iff (UInt64.not_le.mp hskip)).mp hbefore
      have hid : e.id = log.position + 1 := by
        have hlt := e.id.toNat_lt
        apply UInt64.toNat_inj.mp
        rw [UInt64.toNat_add, UInt64.toNat_one, Nat.mod_eq_of_lt (by omega), hnext]
      refine Ensures.write_bind (Ensures.bind ((ensures_persistOrRelease_intake hid).mono ?_))
      rintro r log' (⟨rfl, hdone⟩ | ⟨⟨error, rfl⟩, hsilent⟩)
      · exact Ensures.pure (Or.inr (Or.inl ⟨rfl, hnext, hdone⟩))
      · refine Or.inr (Or.inr ⟨⟨error, rfl⟩, hsilent, hsilent.position ?_⟩)
        rw [← hid]
        rintro h0
        rw [h0] at hnext
        cases hnext

/-! ## Entries along a run -/

/-- The entries that a log takes in when it is handed some of another node, one after the other. -/
def intakesOf (log : Log) : List Entry → List Intake
  | [] => []
  | e :: rest =>
    match (log.applied [e]).1 with
    | .ok count => (if count = 0 then [] else [⟨log, e⟩]) ++ (log.applied [e]).2.intakesOf rest
    | .error _ => []

/-- The entries that an event makes a log take in: what is committed, and what is applied. -/
def intakesBy (log : Log) : LogEvent → List Intake
  | .commit now e =>
    match ((commit now e).run.run log).1 with
    | .ok (some committed) => [⟨log, committed⟩]
    | _ => []
  | .apply entries => log.intakesOf entries
  | _ => []

/-- The entries that a log takes in along some events. -/
def intakes (log : Log) : List LogEvent → List Intake
  | [] => []
  | event :: rest => log.intakesBy event ++ (log.after event).intakes rest

/-- Between `log` and `log'` some entries were taken in and told to the observers registered by then,
and nothing else was written or told. -/
structure Tells (log : Log) (intakes : List Intake) (log' : Log) : Prop where
  rows : log'.store.rows = log.store.rows.applyAll (intakes.flatMap fun i => i.entry.ops)
  notices : log'.notices =
    log.notices ++ intakes.flatMap fun i => i.entry.notices i.before.observers
  observers : log.observers ≤ log'.observers
  present : ∀ i ∈ intakes, log.observers ≤ i.before.observers ∧ i.before.observers ≤ log'.observers
  done : ∀ i ∈ intakes, ∃ after, i.Done after

namespace Tells

variable {log' log'' : Log} {first second : List Intake}

/-- Nobody is told anything where rows and notices stay as they are. -/
theorem nothing (hrows : log'.store.rows = log.store.rows) (hnotices : log'.notices = log.notices)
    (hobservers : log.observers ≤ log'.observers) : log.Tells [] log' where
  rows := hrows
  notices := by rw [hnotices, List.flatMap_nil, List.append_nil]
  observers := hobservers
  present := by simp
  done := by simp

theorem refl (log : Log) : log.Tells [] log := nothing rfl rfl (Nat.le_refl _)

theorem trans (h : log.Tells first log') (h' : log'.Tells second log'') :
    log.Tells (first ++ second) log'' where
  rows := by rw [h'.rows, h.rows, List.flatMap_append, Rows.applyAll_append]
  notices := by rw [h'.notices, h.notices, List.flatMap_append, List.append_assoc]
  observers := Nat.le_trans h.observers h'.observers
  present := by
    intro i hi
    rcases List.mem_append.mp hi with hi | hi
    · exact ⟨(h.present i hi).1, Nat.le_trans (h.present i hi).2 h'.observers⟩
    · exact ⟨Nat.le_trans h.observers (h'.present i hi).1, (h'.present i hi).2⟩
  done := fun i hi => (List.mem_append.mp hi).elim (h.done i) (h'.done i)

/-- Of the entries taken in, an observer that was there from the start hears each. -/
theorem heardBy (h : log.Tells first log') {observer : Nat} (hobserver : observer < log.observers) :
    Notice.heardBy observer log'.notices =
      Notice.heardBy observer log.notices ++ first.flatMap fun i => i.entry.told := by
  rw [h.notices, Notice.heardBy_append, Notice.heardBy_flatMap]
  congr 1
  refine List.flatMap_congr fun i hi => i.entry.heardBy_notices ?_
  exact Nat.lt_of_lt_of_le hobserver (h.present i hi).1

/-- Where nobody had been told anything, only observers that are registered have been told since. -/
theorem observer_lt (h : log.Tells first log') (hnone : log.notices = []) :
    ∀ notice ∈ log'.notices, notice.observer < log'.observers := by
  intro notice hnotice
  rw [h.notices, hnone, List.nil_append] at hnotice
  obtain ⟨i, hi, hnotice⟩ := List.mem_flatMap.mp hnotice
  exact Nat.lt_of_lt_of_le (Entry.observer_lt_of_mem_notices hnotice) (h.present i hi).2

end Tells

theorem Silent.tells {log' : Log} (h : log.Silent log') : log.Tells [] log' :=
  Tells.nothing h.rows h.notices h.observers.ge

theorem Intake.Done.tells {i : Intake} {log' : Log} (h : i.Done log') : i.before.Tells [i] log' where
  rows := by
    rw [List.flatMap_singleton]
    exact h.rows
  notices := by
    rw [List.flatMap_singleton]
    exact h.notices
  observers := h.observers.ge
  present := by
    intro j hj
    rw [List.mem_singleton.mp hj]
    exact ⟨Nat.le_refl _, h.observers.ge⟩
  done := by
    intro j hj
    rw [List.mem_singleton.mp hj]
    exact ⟨log', h⟩

/-- What an application does to a log is what it does entry by entry, up to the first failure. -/
theorem applied_cons (e : Entry) (rest : List Entry) :
    (log.applied (e :: rest)).2 =
      match (log.applied [e]).1 with
      | .ok _ => ((log.applied [e]).2.applied rest).2
      | .error _ => (log.applied [e]).2 := by
  cases hmaster : log.standing.isMaster with
  | true =>
    have hrefused : ∀ entries, log.applied entries =
        (.error (.consistency .masterApplies), log) := by
      intro entries
      show (if log.standing.isMaster = true then _ else _ : LogWork Nat).run.run log = _
      rw [hmaster]
      rfl
    rw [hrefused, hrefused]
  | false =>
    have hstanding : (log.applied [e]).2.standing.isMaster = false := by
      have h : (log.applied [e]).2.standing = log.standing :=
        @ensures_applyReplicated_standing log [e]
      rw [h, hmaster]
    rcases hone : log.applied [e] with ⟨error | count, log'⟩
    · rw [applied_eq hmaster] at hone
      rw [applied_eq hmaster, ← List.singleton_append, applyFrom_append, run_bind_work, hone]
    · rw [hone] at hstanding
      rw [← List.singleton_append, applied_append hmaster hstanding hone]

/-- What holds of every entry taken in and of every failure, and carries over from one to the next,
holds of a whole application. -/
theorem intakesOf_induction {P : Log → List Intake → Log → Prop}
    (silent : ∀ {log log' : Log}, log.Silent log' → log'.position = log.position → P log [] log')
    (done : ∀ {i : Intake} {log' : Log}, i.entry.id.toNat = i.before.position.toNat + 1 →
      i.Done log' → P i.before [i] log')
    (trans : ∀ {log log' log'' : Log} {first second : List Intake}, P log first log' →
      P log' second log'' → P log (first ++ second) log'')
    (log : Log) (entries : List Entry) :
    P log (log.intakesOf entries) (log.applied entries).2 := by
  induction entries generalizing log with
  | nil =>
    have hnone : (log.applied []).2 = log := by
      cases hmaster : log.standing.isMaster with
      | true =>
        show ((if log.standing.isMaster = true then _ else _ : LogWork Nat).run.run log).2 = _
        rw [hmaster]
        rfl
      | false =>
        rw [applied_eq hmaster]
        rfl
    rw [hnone]
    exact silent (Silent.refl log) rfl
  | cons e rest ih =>
    rw [applied_cons, intakesOf]
    rcases log.applied_singleton_cases e with
      ⟨hr, hsame⟩ | ⟨hr, hid, hdone⟩ | ⟨⟨error, hr⟩, hsilent, hposition⟩
    · rw [hr, hsame]
      exact ih log
    · rw [hr]
      exact trans (done hid hdone) (ih _)
    · rw [hr]
      exact silent hsilent hposition

/-- A commit takes in one entry under the next id, or nobody hears of it. -/
theorem commit_intake_cases (log : Log) (now : Instant) (e : Entry) :
    (∃ committed, log.intakesBy (.commit now e) = [⟨log, committed⟩] ∧
      committed.id = log.position + 1 ∧ (Intake.mk log committed).Done (log.after (.commit now e))) ∨
    log.intakesBy (.commit now e) = [] ∧ log.Silent (log.after (.commit now e)) := by
  rw [intakesBy]
  obtain ⟨committed, hr, hid, hdone⟩ | ⟨hr | ⟨error, hr⟩, hsilent⟩ :=
    @ensures_commit_intake log now e
  · rw [hr]
    exact Or.inl ⟨committed, rfl, hid, hdone⟩
  · rw [hr]
    exact Or.inr ⟨rfl, hsilent⟩
  · rw [hr]
    exact Or.inr ⟨rfl, hsilent⟩

/-- While the log stays open, an event tells what it makes the log take in, and nothing else. -/
theorem tells_after {event : LogEvent} (hstay : event.isRestart = false) :
    log.Tells (log.intakesBy event) (log.after event) := by
  cases event with
  | commit now e =>
    obtain ⟨committed, hintakes, -, hdone⟩ | ⟨hintakes, hsilent⟩ := log.commit_intake_cases now e
    · rw [hintakes]
      exact hdone.tells
    · rw [hintakes]
      exact hsilent.tells
  | apply entries =>
    exact intakesOf_induction (fun hsilent _ => hsilent.tells) (fun _ hdone => hdone.tells)
      Tells.trans log entries
  | restart standing => cases hstay
  | observe => exact Tells.nothing rfl rfl (Nat.le_succ _)
  | _ => exact Tells.nothing rfl rfl (Nat.le_refl _)

theorem tells_run {events : List LogEvent} (hstay : ∀ event ∈ events, event.isRestart = false) :
    log.Tells (log.intakes events) (log.run events) := by
  induction events generalizing log with
  | nil => exact Tells.refl log
  | cons event rest ih =>
    exact (tells_after (hstay event List.mem_cons_self)).trans
      (ih fun other hother => hstay other (List.mem_cons_of_mem _ hother))

/-! ## The ids -/

/-- Whether the ids are not used up when an entry is to be committed. Behind the last one a commit
breaks down, and the position begins again at 0. -/
def HasRoom (log : Log) : List LogEvent → Prop
  | [] => True
  | event :: rest =>
    (∀ now e, event = .commit now e → log.position + 1 ≠ 0) ∧ (log.after event).HasRoom rest

/-- The entries that were taken in between `log` and `log'` are numbered on from the position. -/
structure Numbers (log : Log) (intakes : List Intake) (log' : Log) : Prop where
  position : log'.position.toNat = log.position.toNat + intakes.length
  numbered : intakes.map (fun i => i.entry.id.toNat) =
    List.range' (log.position.toNat + 1) intakes.length

namespace Numbers

variable {log' log'' : Log} {first second : List Intake}

theorem nothing (h : log'.position = log.position) : log.Numbers [] log' where
  position := by
    rw [h]
    rfl
  numbered := rfl

theorem one {i : Intake} (hid : i.entry.id.toNat = i.before.position.toNat + 1)
    (h : log'.position = i.entry.id) : i.before.Numbers [i] log' where
  position := by
    rw [h]
    exact hid
  numbered := by
    rw [List.map_singleton, hid]
    rfl

theorem trans (h : log.Numbers first log') (h' : log'.Numbers second log'') :
    log.Numbers (first ++ second) log'' where
  position := by
    rw [h'.position, h.position, List.length_append]
    omega
  numbered := by
    have hstart : log'.position.toNat + 1 = log.position.toNat + 1 + first.length := by
      rw [h.position]
      omega
    rw [List.map_append, h.numbered, h'.numbered, hstart, List.range'_append_1, List.length_append]

end Numbers

theorem numbers_after {event : LogEvent} (hstay : event.isRestart = false)
    (hroom : ∀ now e, event = .commit now e → log.position + 1 ≠ 0) :
    log.Numbers (log.intakesBy event) (log.after event) := by
  cases event with
  | commit now e =>
    have hnext := hroom now e rfl
    obtain ⟨committed, hintakes, hid, hdone⟩ | ⟨hintakes, hsilent⟩ := log.commit_intake_cases now e
    · rw [hintakes]
      refine Numbers.one (i := ⟨log, committed⟩) ?_ hdone.position
      exact (congrArg UInt64.toNat hid).trans (Counters.toNat_next hnext)
    · rw [hintakes]
      exact Numbers.nothing (hsilent.position hnext)
  | apply entries =>
    exact intakesOf_induction (fun _ hposition => Numbers.nothing hposition)
      (fun hid hdone => Numbers.one hid hdone.position) Numbers.trans log entries
  | restart standing => cases hstay
  | _ => exact Numbers.nothing rfl

theorem numbers_run {events : List LogEvent} (hstay : ∀ event ∈ events, event.isRestart = false)
    (hroom : log.HasRoom events) : log.Numbers (log.intakes events) (log.run events) := by
  induction events generalizing log with
  | nil => exact Numbers.nothing rfl
  | cons event rest ih =>
    exact (numbers_after (hstay event List.mem_cons_self) hroom.1).trans
      (ih (fun other hother => hstay other (List.mem_cons_of_mem _ hother)) hroom.2)

/-! ## What an observer hears -/

/-- Whatever a log goes through as long as it stays open, an observer hears of the entries taken in
after its registration, each with its mutations in their order and once, and of nothing else. All
observers that are there are told of a mutation before the next one comes. At each call the entry is
in the store as a whole and its records are counted. And the entries are numbered on from the position
at the registration. -/
theorem run_tells_once (standing : Standing) (counters : Counters) (store : Store)
    (first rest : List LogEvent)
    (hstay : ∀ event ∈ first ++ rest, event.isRestart = false) :
    let joined := ({ standing, counters, store } : Log).run first
    let later := joined.run (.observe :: rest)
    let intakes := joined.intakes (.observe :: rest)
    Notice.heardBy joined.observers later.notices = intakes.flatMap (fun i => i.entry.told) ∧
      later.notices =
        joined.notices ++ intakes.flatMap (fun i => i.entry.notices i.before.observers) ∧
      later.store.rows = joined.store.rows.applyAll (intakes.flatMap fun i => i.entry.ops) ∧
      (∀ i ∈ intakes, joined.observers < i.before.observers ∧ ∃ after, i.Done after) ∧
      (joined.HasRoom (.observe :: rest) →
        intakes.map (fun i => i.entry.id.toNat) =
          List.range' (joined.position.toNat + 1) intakes.length) := by
  intro joined later intakes
  have hbefore : Tells { standing, counters, store } _ joined :=
    tells_run fun event hevent => hstay event (List.mem_append_left _ hevent)
  have hrest : ∀ event ∈ rest, event.isRestart = false :=
    fun event hevent => hstay event (List.mem_append_right _ hevent)
  have hafter : (joined.after .observe).Tells intakes later := tells_run hrest
  refine ⟨?_, hafter.notices, hafter.rows, ?_, ?_⟩
  · have hnone : Notice.heardBy joined.observers joined.notices = [] :=
      Notice.heardBy_eq_nil (hbefore.observer_lt rfl)
    rw [hafter.heardBy (Nat.lt_succ_self _)]
    -- the registration itself tells nobody anything
    show Notice.heardBy joined.observers joined.notices ++ _ = _
    rw [hnone, List.nil_append]
  · exact fun i hi => ⟨(hafter.present i hi).1, hafter.done i hi⟩
  · intro hroom
    have hnumbers : (joined.after .observe).Numbers intakes later := numbers_run hrest hroom.2
    exact hnumbers.numbered

/-- An observer that joins behind the first entry, while writes fail and come back, the node changes
its role and entries come that it has or that leave a gap. -/
def eventful : List LogEvent :=
  [.commit 6 sample, .writesFail (some ("disk full", 0)), .commit 7 sample, .writesFail none,
    .observe, .commit 8 { sample with items := [] }, .follow "http://b",
    .apply [foreign 2, foreign 3, foreign 5]]

/-- The second observer of a log hears of the second and the third entry. -/
theorem run_tells_once_eventful :
    (∀ event ∈ [.observe, .commit 5 sample] ++ eventful, event.isRestart = false) ∧
      let joined := (fresh alone .tree).run [.observe, .commit 5 sample]
      joined.HasRoom (.observe :: eventful) ∧
      Notice.heardBy joined.observers (joined.run (.observe :: eventful)).notices =
        sample.told ++ (foreign 3).told ∧
      (joined.intakes (.observe :: eventful)).map (fun i => i.entry.id.toNat) = [2, 3] := by
  have hstay : ∀ event ∈ [.observe, .commit 5 sample] ++ eventful, event.isRestart = false := by
    simp [eventful, LogEvent.isRestart]
  have hroom : ((fresh alone .tree).run [.observe, .commit 5 sample]).HasRoom
      (.observe :: eventful) := by
    refine ⟨?_, ?_, ?_, ?_, ?_, ?_, ?_, ?_, ?_, trivial⟩
    all_goals rintro now e ⟨⟩ <;> decide +kernel
  obtain ⟨hheard, -, -, -, hnumbered⟩ := run_tells_once alone {} (fresh alone .tree).store
    [.observe, .commit 5 sample] eventful hstay
  refine ⟨hstay, hroom, hheard.trans ?_, (hnumbered hroom).trans ?_⟩
  · decide +kernel
  · decide +kernel

end Log

end LogShipping
