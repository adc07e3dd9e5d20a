import LogShipping.Log
import LogShipping.Proofs.Log.Replay
import LogShipping.Proofs.Store.Recovery

/-!
# What operations do to a log

A commit and an application of entries change a log in one way only: it takes in entries that follow its
position, one after the other (`Log.Took`). So a log that holds a history holds a longer one afterwards
(`Log.Holds`, `Took.holds`). Whatever fails leaves no trace but an outage come closer. What a log that
holds a history hands out are entries of that history, and its counters are found again in its store.

This is the module through which the operations of a log are seen. Each has one lemma (`ensures_commit`,
`ensures_applyFrom`, `ensures_applyReplicated`) that says everything it can do, success and failure with
their conditions, and what follows rests on those and does not open an operation again. Where the code
of one changes, its lemma has to be proved anew.

A failure of the store is one that the store reports: the batch was not written. A crash in the middle
of a batch is left to the store, whose batches are whole. The last id there is has an outcome of its
own: an entry behind it is not taken in, and the position begins again at 0, which `Took` does not
cover; so a commit is asked to have an id left.
-/

namespace LogShipping

open Std

/-- The number after one that is not the last. -/
theorem Counters.toNat_next {n : UInt64} (h : n + 1 ≠ 0) : (n + 1).toNat = n.toNat + 1 := by
  have hlt := n.toNat_lt
  have hne : (n + 1).toNat ≠ 0 := fun h0 => h (UInt64.toNat_inj.mp h0)
  rw [UInt64.toNat_add] at hne ⊢
  simp only [UInt64.toNat_one] at hne ⊢
  omega

/-- A position stands right before an id beyond it exactly if the id is the next one. -/
theorem Counters.eq_before_iff {position id : LogId} (hbeyond : position < id) :
    position = Counters.before id ↔ id.toNat = position.toNat + 1 := by
  have hlt := UInt64.lt_iff_toNat_lt.mp hbeyond
  have hne : id ≠ 0 := by
    rintro rfl
    exact absurd hlt (Nat.not_lt_zero _)
  have hle : (1 : UInt64) ≤ id := by
    rw [UInt64.le_iff_toNat_le, UInt64.toNat_one]
    omega
  rw [Counters.before, if_neg hne, ← UInt64.toNat_inj, UInt64.toNat_sub_of_le _ _ hle,
    UInt64.toNat_one]
  omega

/-- The sequence numbers of the records that an entry writes. -/
def Entry.recordSequences (e : Entry) : List UInt64 := e.items.filterMap Mutation.recordSequence?

namespace Log

/-! ## Taking entries in -/

/-- The log `log'` is the log `log` after it took in the entries `new`. -/
structure Took (log : Log) (new : List Entry) (log' : Log) : Prop where
  rows : log'.store.rows = log.store.rows.applyAll (new.flatMap Entry.ops)
  engine : log'.store.engine = log.store.engine
  answers : ∀ call, log.store.Answers call → log'.store.Answers call
  position : log'.position.toNat = log.position.toNat + new.length
  numbered : ∀ (i : Nat) (h : i < new.length), new[i].id.toNat = log.position.toNat + i + 1
  primary : log'.counters.primary =
    (new.flatMap Entry.recordSequences).foldl max log.counters.primary
  notices : log'.notices = log.notices ++ new.flatMap fun e => e.notices log.observers
  standing : log'.standing = log.standing
  observers : log'.observers = log.observers
  locked : log'.lockedClasses = log.lockedClasses

namespace Took

theorem refl (log : Log) : log.Took [] log where
  rows := rfl
  engine := rfl
  answers := fun _ h => h
  position := rfl
  numbered := fun i h => absurd h (Nat.not_lt_zero i)
  primary := rfl
  notices := (List.append_nil _).symm
  standing := rfl
  observers := rfl
  locked := rfl

theorem trans {log log' log'' : Log} {new more : List Entry} (h : log.Took new log')
    (h' : log'.Took more log'') : log.Took (new ++ more) log'' where
  rows := by rw [h'.rows, h.rows, List.flatMap_append, Rows.applyAll_append]
  engine := h'.engine.trans h.engine
  answers := fun call hcall => h'.answers call (h.answers call hcall)
  position := by
    rw [h'.position, h.position, List.length_append]
    omega
  numbered := by
    intro i hi
    by_cases hlt : i < new.length
    · rw [List.getElem_append_left hlt]
      exact h.numbered i hlt
    · rw [List.length_append] at hi
      rw [List.getElem_append_right (by omega), h'.numbered _ (by omega), h.position]
      omega
  primary := by rw [h'.primary, h.primary, List.flatMap_append, List.foldl_append]
  notices := by
    rw [h'.notices, h.notices, h.observers, List.flatMap_append, List.append_assoc]
  standing := h'.standing.trans h.standing
  observers := h'.observers.trans h.observers
  locked := h'.locked.trans h.locked

/-- The position afterwards is the old one, or the id of an entry that was taken in. -/
theorem position_eq {log log' : Log} {new : List Entry} (h : log.Took new log') :
    log'.position = log.position ∨ ∃ e ∈ new, log'.position = e.id := by
  have hposition := h.position
  by_cases hempty : new.length = 0
  · left
    rw [hempty] at hposition
    exact UInt64.toNat_inj.mp hposition
  · right
    have hlast : new.length - 1 < new.length := by omega
    refine ⟨new[new.length - 1], List.getElem_mem hlast, UInt64.toNat_inj.mp ?_⟩
    rw [hposition, h.numbered _ hlast]
    omega

end Took

variable {log : Log}

/-- Counting the records of one entry. -/
theorem foldl_observeRecord (c : Counters) (sequences : List UInt64) :
    sequences.foldl Counters.observeRecord c =
      { c with primary := sequences.foldl max c.primary } := by
  induction sequences generalizing c with
  | nil => rfl
  | cons sequence rest ih =>
    rw [List.foldl_cons, ih]
    rfl

theorem ensures_onStore {α : Type} {work : Access α} {Q : Except Error α → Log → Prop}
    (h : Ensures work log.store fun r s => Q r { log with store := s }) :
    Ensures (onStore work) log Q := h

/-- Observers that are told one after the other have been told all. -/
theorem run_mapM_tell (notices : List Notice) (log : Log) :
    (notices.mapM tell).run.run log =
      (.ok (notices.map fun _ => ()), { log with notices := log.notices ++ notices }) := by
  induction notices generalizing log with
  | nil =>
    rw [List.append_nil]
    rfl
  | cons notice rest ih =>
    have hfirst : (tell notice).run.run log =
        (.ok (), { log with notices := log.notices ++ [notice] }) := rfl
    rw [List.mapM_cons, run_bind_work, hfirst]
    show (rest.mapM tell >>= fun units => pure (() :: units) : LogWork (List Unit)).run.run
      { log with notices := log.notices ++ [notice] } = _
    rw [run_bind_work, ih]
    simp only [List.append_assoc, List.singleton_append, List.map_cons]
    rfl

/-- What follows the batch of an entry changes the counters and the notices at once. -/
theorem persist_eq (e : Entry) :
    persist e = (do
      onStore (Store.writeBatch e.ops)
      modify fun log =>
        { log with
          counters := (e.items.filterMap Mutation.recordSequence?).foldl Counters.observeRecord
            log.counters
          notices := log.notices ++ e.notices log.observers }) := by
  unfold persist persistCalling
  rw [bind_assoc]
  refine congrArg (onStore (Store.writeBatch e.ops) >>= ·) (funext fun _ => funext fun log => ?_)
  show ((e.notices log.observers).mapM tell >>= fun _ => pure () : LogWork Unit).run.run
    { log with
      counters := (e.items.filterMap Mutation.recordSequence?).foldl Counters.observeRecord
        log.counters } = _
  rw [run_bind_work, run_mapM_tell]
  rfl

/-- An entry whose id is next in the counters is taken in, or nothing at all happens to the log as it
was before the id was used. -/
theorem ensures_persistOrRelease {e : Entry} (hid : e.id.toNat = log.position.toNat + 1) :
    Ensures (persistOrRelease e) { log with counters := { log.counters with position := e.id } }
      fun r log' =>
        r = .ok () ∧ log.Took [e] log' ∨ log.store.Refused .writeBatch r ∧ log' = log := by
  rw [persistOrRelease, persist_eq]
  refine Ensures.handle (Ensures.bind (ensures_onStore ((Store.ensures_writeBatch e.ops).mono ?_)))
  rintro r s (⟨rfl, hs⟩ | ⟨⟨hnot, fault, rfl⟩, rfl⟩)
  · refine Ensures.update (Or.inl ⟨rfl, ?_⟩)
    exact {
      rows := by
        rw [List.flatMap_singleton]
        exact hs.1
      engine := hs.2.1
      answers := hs.2.2
      position := by
        rw [Log.position, foldl_observeRecord]
        exact hid
      numbered := by
        intro i hi
        have hi' : i = 0 := by simpa using hi
        subst hi'
        exact hid
      primary := by
        rw [List.flatMap_singleton, foldl_observeRecord]
        rfl
      notices := by rw [List.flatMap_singleton]
      standing := rfl
      observers := rfl
      locked := rfl }
  · refine Ensures.bind (Ensures.update (Ensures.fail (Or.inr ⟨⟨hnot, fault, rfl⟩, ?_⟩)))
    -- the id given back, the counters stand where they stood before
    have hback : Counters.releaseLog { log.counters with position := e.id } e.id = log.counters := by
      have hne : e.id ≠ 0 := by
        intro h0
        rw [h0] at hid
        exact absurd hid (by simp)
      have hprev : e.id - 1 = log.position := by
        apply UInt64.toNat_inj.mp
        have hle : (1 : UInt64) ≤ e.id := by
          rw [UInt64.le_iff_toNat_le, hid]
          simp
        rw [UInt64.toNat_sub_of_le _ _ hle, hid]
        simp
      rw [Counters.releaseLog, Counters.releaseLog?, if_pos rfl, Counters.before, if_neg hne, hprev]
      rfl
    exact congrArg (fun counters => { log with counters := counters }) hback

/-- What putting an entry into the store costs, and why it fails. -/
theorem ensures_persistOrRelease_spent (e : Entry) :
    Ensures (persistOrRelease e) log fun r log' =>
      r = .ok () ∧ log.store.Spent .writeBatch log'.store ∨
        ∃ reason, log.store.Fails .writeBatch reason ∧ r = .error (.storage (.stated reason)) := by
  rw [persistOrRelease, persist_eq]
  refine Ensures.handle (Ensures.bind
    (ensures_onStore ((Store.ensures_writeBatch_spent e.ops).mono ?_)))
  rintro r s (⟨rfl, hs⟩ | ⟨reason, hfails, rfl, rfl⟩)
  · exact Ensures.update (Or.inl ⟨rfl, hs⟩)
  · exact Ensures.bind (Ensures.update (Ensures.fail (Or.inr ⟨reason, hfails, rfl⟩)))

/-! ## Commits -/

/-- Whether a log commits an entry: the entry writes something and only data, the node is the master,
and the store takes batches. -/
structure Commits (log : Log) (e : Entry) : Prop where
  items : e.items ≠ []
  reserved : e.reserved? = none
  master : log.standing.isMaster = true
  answers : log.store.Answers .writeBatch

/-- A commit takes in the entry under the next id and the current time, or it changes nothing, which
happens only where the log does not commit the entry. -/
theorem ensures_commit {now : Instant} {e : Entry} (hroom : log.position + 1 ≠ 0) :
    Ensures (commit now e) log fun r log' =>
      (∃ committed, r = .ok (some committed) ∧ log.Took [committed] log' ∧
        committed = { e with id := log.position + 1, timestamp := now } ∧
        e.reserved? = none ∧ log.standing.isMaster = true) ∨
      (r = .ok none ∨ ∃ error, r = .error error) ∧ log' = log ∧ ¬ log.Commits e := by
  unfold commit
  by_cases hempty : e.items.isEmpty = true
  · simp only [if_pos hempty]
    refine Ensures.pure (Or.inr ⟨Or.inl rfl, rfl, ?_⟩)
    exact fun h => h.items (List.isEmpty_iff.mp hempty)
  simp only [if_neg hempty]
  cases hreserved : e.reserved? with
  | some item =>
    refine Ensures.fail (Or.inr ⟨Or.inr ⟨_, rfl⟩, rfl, fun h => ?_⟩)
    cases hreserved.symm.trans h.reserved
  | none =>
    apply Ensures.read_bind
    cases hmaster : log.standing.isMaster with
    | false =>
      refine Ensures.fail (Or.inr ⟨Or.inr ⟨_, rfl⟩, rfl, fun h => ?_⟩)
      cases hmaster.symm.trans h.master
    | true =>
      rw [Counters.issueLog_of_room hroom]
      refine Ensures.write_bind (Ensures.bind
        ((ensures_persistOrRelease (Counters.toNat_next hroom)).mono ?_))
      rintro r log' (⟨rfl, htook⟩ | ⟨⟨hnot, fault, rfl⟩, rfl⟩)
      · exact Ensures.pure (Or.inl ⟨_, rfl, htook, rfl, rfl, rfl⟩)
      · exact Or.inr ⟨Or.inr ⟨_, rfl⟩, rfl, fun h => hnot h.answers⟩

/-! ## Application of entries -/

/-- What a log at a position picks of the entries that it is handed one by one, and what is left when
it stops: an entry that it has already is skipped whatever it holds, and one is picked only if its id
is the next one. -/
inductive Picks : Nat → List Entry → List Entry → List Entry → Prop where
  | done (position : Nat) : Picks position [] [] []
  | skip {position : Nat} {e : Entry} {rest new left : List Entry} (had : e.id.toNat ≤ position)
      (more : Picks position rest new left) : Picks position (e :: rest) new left
  | pick {position : Nat} {e : Entry} {rest new left : List Entry}
      (next : e.id.toNat = position + 1) (more : Picks (position + 1) rest new left) :
      Picks position (e :: rest) (e :: new) left
  | stop {position : Nat} {e : Entry} (rest : List Entry) (beyond : position < e.id.toNat) :
      Picks position (e :: rest) [] (e :: rest)

namespace Picks

variable {position : Nat} {entries new left : List Entry}

theorem sublist (h : Picks position entries new left) : new.Sublist entries := by
  induction h with
  | done => exact List.Sublist.slnil
  | skip _ _ ih => exact ih.trans (List.sublist_cons_self _ _)
  | pick _ _ ih => exact ih.cons_cons _
  | stop => exact List.nil_sublist _

end Picks

/-- How an application ends that found `applied` entries applied before, took `new` in and left
`left`: at the end of the list, at an entry behind a gap, or because of an outage that spares exactly
the batches of `new`. -/
inductive Ends (log : Log) (applied : Nat) (new : List Entry) :
    List Entry → Except Error Nat → Prop where
  | all : Ends log applied new [] (.ok (applied + new.length))
  | gap (e : Entry) (rest : List Entry) (expected : LogId)
      (hexpected : expected.toNat = log.position.toNat + new.length + 1)
      (hgap : expected < e.id) :
      Ends log applied new (e :: rest) (.error (.outOfSequence expected e.id))
  | failed (e : Entry) (rest : List Entry) (reason : String)
      (hnext : e.id.toNat = log.position.toNat + new.length + 1)
      (hfails : log.store.outage = some ⟨.writeBatch, reason, new.length⟩) :
      Ends log applied new (e :: rest) (.error (.storage (.stated reason)))

/-- What ends an application after one entry more ends it from that entry on. -/
theorem Ends.cons {log' : Log} {applied : Nat} {e : Entry} {new left : List Entry}
    {r : Except Error Nat} (htook : log.Took [e] log')
    (hspent : log.store.Spent .writeBatch log'.store) (h : log'.Ends (applied + 1) new left r) :
    log.Ends applied (e :: new) left r := by
  have hposition : log'.position.toNat = log.position.toNat + 1 := htook.position
  cases h with
  | all =>
    have hcount : applied + 1 + new.length = applied + (e :: new).length := by
      rw [List.length_cons]
      omega
    rw [hcount]
    exact .all
  | gap f rest expected hexpected hgap =>
    exact .gap f rest expected (by rw [hexpected, hposition, List.length_cons]; omega) hgap
  | failed f rest reason hnext hfails =>
    refine .failed f rest reason (by rw [hnext, hposition, List.length_cons]; omega) ?_
    exact (hspent reason new.length).mp hfails

/-- Application takes in what the position picks of the entries, one by one in their order. -/
theorem ensures_applyFrom (entries : List Entry) (applied : Nat) :
    Ensures (applyFrom applied entries) log fun r log' =>
      ∃ new left, Picks log.position.toNat entries new left ∧ log.Took new log' ∧
        log.Ends applied new left r := by
  induction entries generalizing log applied with
  | nil => exact Ensures.pure ⟨[], [], .done _, Took.refl log, .all⟩
  | cons e rest ih =>
    apply Ensures.read_bind
    by_cases hskip : e.id ≤ log.position
    · simp only [if_pos hskip]
      refine (ih applied).mono ?_
      rintro r log' ⟨new, left, hpicks, htook, hends⟩
      exact ⟨new, left, .skip (UInt64.le_iff_toNat_le.mp hskip) hpicks, htook, hends⟩
    -- an entry that is not skipped is applied only if its id is the next one
    · have hbeyond : log.position < e.id := UInt64.not_le.mp hskip
      simp only [if_neg hskip]
      cases hclaim : log.counters.claimLog? e.id with
      | none =>
        have hnext : ¬ e.id.toNat = log.position.toNat + 1 := by
          rw [← Counters.eq_before_iff hbeyond]
          intro hbefore
          rw [Counters.claimLog?_eq_some_iff.mpr ⟨hbefore, rfl⟩] at hclaim
          cases hclaim
        have hlt := UInt64.lt_iff_toNat_lt.mp hbeyond
        have hmax := e.id.toNat_lt
        have hexpected : (log.position + 1).toNat = log.position.toNat + 1 := by
          rw [UInt64.toNat_add, UInt64.toNat_one]
          exact Nat.mod_eq_of_lt (by omega)
        refine Ensures.fail ⟨[], _, .stop rest hlt, Took.refl log, .gap e rest _ hexpected ?_⟩
        rw [UInt64.lt_iff_toNat_lt, hexpected]
        omega
      | some claimed =>
        obtain ⟨hbefore, rfl⟩ := Counters.claimLog?_eq_some_iff.mp hclaim
        have hid : e.id.toNat = log.position.toNat + 1 := (Counters.eq_before_iff hbeyond).mp hbefore
        refine Ensures.write_bind (Ensures.bind
          (((ensures_persistOrRelease hid).and (ensures_persistOrRelease_spent e)).mono ?_))
        rintro r log' ⟨⟨rfl, htook⟩ | ⟨⟨-, fault, rfl⟩, rfl⟩, ⟨hr, hspent⟩ | ⟨reason, hfails, hr⟩⟩
        · refine (ih (applied + 1)).mono ?_
          rintro r log'' ⟨new, left, hpicks, hmore, hends⟩
          have hposition : log'.position.toNat = log.position.toNat + 1 := htook.position
          rw [hposition] at hpicks
          exact ⟨e :: new, left, .pick hid hpicks, htook.trans hmore, hends.cons htook hspent⟩
        · cases hr
        · cases hr
        · cases hr
          refine ⟨[], _, .stop rest (UInt64.lt_iff_toNat_lt.mp hbeyond), Took.refl _, ?_⟩
          exact .failed e rest reason hid hfails

/-- A follower takes in some of the entries that it is handed, a master none. -/
theorem ensures_applyReplicated (entries : List Entry) :
    Ensures (applyReplicated entries) log fun r log' =>
      ∃ new, new.Sublist entries ∧ log.Took new log' ∧
        (log.standing.isMaster = true → new = []) ∧
        (r = .ok new.length ∨ (∃ error, r = .error error ∧ error.isConsistency = true) ∨
          log.store.Refused .writeBatch r) := by
  apply Ensures.read_bind
  cases hmaster : log.standing.isMaster with
  | true =>
    exact Ensures.fail ⟨[], List.nil_sublist _, Took.refl log, fun _ => rfl,
      Or.inr (Or.inl ⟨_, rfl, rfl⟩)⟩
  | false =>
    refine (ensures_applyFrom entries 0).mono ?_
    rintro r log' ⟨new, left, hpicks, htook, hends⟩
    refine ⟨new, hpicks.sublist, htook, fun h => absurd h (by decide), ?_⟩
    cases hends with
    | all => exact Or.inl (by rw [Nat.zero_add])
    | gap => exact Or.inr (Or.inl ⟨_, rfl, rfl⟩)
    | failed e rest reason _ hfails =>
      exact Or.inr (Or.inr ⟨fun hanswers => hanswers _ hfails rfl, _, rfl⟩)

/-- Applying entries leaves the standing alone. -/
theorem ensures_applyReplicated_standing (entries : List Entry) :
    Ensures (applyReplicated entries) log fun _ log' => log'.standing = log.standing :=
  (ensures_applyReplicated entries).mono fun _ _ ⟨_, _, htook, _⟩ => htook.standing

/-! ## Logs that hold a history -/

/-- The log holds the history `entries`: the rows are those of its replay, and the position is the id
of its last entry. -/
structure Holds (log : Log) (entries : List Entry) : Prop where
  rows : log.store.rows = Rows.replay entries
  position : log.position.toNat = entries.length
  history : IsHistory entries

namespace Holds

variable {entries : List Entry}

/-- What is taken in continues the history. -/
theorem took {log' : Log} {new : List Entry} (h : log.Holds entries) (htook : log.Took new log')
    (hnew : ∀ e ∈ new, e.Proper) : log'.Holds (entries ++ new) where
  rows := by
    rw [htook.rows, h.rows, Rows.replay, Rows.replay, List.flatMap_append, Rows.applyAll_append]
  position := by rw [htook.position, h.position, List.length_append]
  history := by
    refine h.history.append ?_ hnew
    intro i hi
    rw [htook.numbered i hi, h.position]

/-- No entry is beyond the position. -/
theorem le_position (h : log.Holds entries) {e : Entry} (he : e ∈ entries) :
    e.id ≤ log.position := by
  rw [UInt64.le_iff_toNat_le, h.position]
  exact (h.history.id_bounds he).2

/-- A log holds one history only. -/
theorem unique {other : List Entry} (h : log.Holds entries) (h' : log.Holds other) :
    entries = other := by
  have hlength : entries.length = other.length := h.position.symm.trans h'.position
  have hsub : ∀ e ∈ entries, e ∈ other := by
    intro e he
    obtain ⟨h1, hn⟩ := h.history.id_bounds he
    obtain ⟨f, hf, hid⟩ := h'.history.exists_of_id h1 (hlength ▸ hn)
    have hrecord := Rows.getElem?_replay_log h.history he
    rw [← h.rows, h'.rows, ← hid, Rows.getElem?_replay_log h'.history hf] at hrecord
    have hdecoded := Stored.decode_encode (h.history.proper e he).fits
    rw [← Option.some.inj hrecord, Stored.decode_encode (h'.history.proper f hf).fits] at hdecoded
    cases hdecoded
    exact hf
  have htake := h'.history.eq_take_of_subset h.history hsub
  rw [hlength, List.take_length] at htake
  exact htake

end Holds

end Log

end LogShipping
