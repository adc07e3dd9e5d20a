import LogShipping.Node
import LogShipping.Proofs.Key.Layout
import LogShipping.Proofs.Log.AppendOnly

/-!
# Commits, all or nothing

A commit takes its entry in as a whole, under the next id and the time of the commit, and the entry can
then be read under that id (`Node.TakesIn`). Otherwise it is declined, for one of four reasons
(`Log.Declines`), and the node is the very one that it was. The id that a declined commit would have had
is therefore free: after any number of them, the next commit that succeeds gets it.

What taking an entry in means is said on the mutations: a key that is put has its last value, a key that
is removed is gone, other rows stay, and the record counter is the greatest of what it was and of the
records put (`Entry.Raises`). None of this mentions the batch that the program makes of them.

Behind the last id there is a third outcome (`Log.UsedUp`): the position has run over before it is
noticed, and the commit breaks down with neither an id nor an error. Nothing is written then, but the
position stands at 0, and what a program goes on to do that stands there is no matter of this module. All
else is one step here; that others may see the id before the write, and that it may be taken back, is
shown in `Proofs.World.Midway`.
-/

namespace LogShipping

open Std

/-- The entry as a commit at some time puts it behind a position. -/
def Entry.stamped (e : Entry) (position : LogId) (now : Instant) : Entry :=
  { e with id := position + 1, timestamp := now }

/-- The number `last` is the greatest of `before` and the sequence numbers of the records that an entry
puts. -/
structure Entry.Raises (e : Entry) (before last : UInt64) : Prop where
  kept : before ≤ last
  puts : ∀ item ∈ e.items, item.isDelete = false → ∀ sequence suffix,
    item.key = Key.encode .record sequence suffix → sequence ≤ last
  least : last = before ∨ ∃ item ∈ e.items, item.isDelete = false ∧
    ∃ suffix, item.key = Key.encode .record last suffix

/-- The number that a data entry raises the record counter to. -/
theorem Entry.raises_foldl_max {e : Entry} (hdata : e.reserved? = none) (before : UInt64) :
    e.Raises before (e.recordSequences.foldl max before) where
  kept := le_foldl_max _ _
  puts item hitem hput sequence suffix hkey := by
    refine le_foldl_max_of_mem _ (List.mem_filterMap.mpr ⟨item, hitem, ?_⟩)
    simp [Mutation.recordSequence?, Mutation.partition?, hput, hkey]
  least := by
    refine (foldl_max_eq_or_mem _ _).imp_right fun hmem => ?_
    obtain ⟨item, hitem, hsequence⟩ := List.mem_filterMap.mp hmem
    -- a key of data has a full head, so that it is made of its partition and its sequence number
    obtain ⟨p, sequence, suffix, hkey, -⟩ :=
      Key.exists_encode_of_isData (Entry.reserved?_eq_none_iff.mp hdata item hitem)
    simp only [Mutation.recordSequence?, Mutation.partition?, hkey, Key.partition?_encode,
      Key.sequence?_encode] at hsequence
    split at hsequence
    · next hrecord =>
      simp only [Bool.and_eq_true, Bool.not_eq_true', beq_iff_eq, Option.some.injEq] at hrecord
      obtain ⟨hput, rfl⟩ := hrecord
      exact ⟨item, hitem, hput, suffix, by rw [hkey, Option.some.inj hsequence]⟩
    · cases hsequence

namespace Log

variable {log : Log} {e : Entry}

/-! ## Reasons to decline -/

/-- Why a log declines an entry: there is nothing to write, or an error. The reasons are looked for in
this order, so no two of them hold of one entry. -/
inductive Declines (log : Log) (e : Entry) : Except Error Unit → Prop where
  /-- The entry has no mutations, which is no error. -/
  | nothing (hitems : e.items = []) : Declines log e (.ok ())
  /-- Some mutation, wherever in the entry, touches a key that is not one of data. -/
  | reserved (item : Mutation) (hitem : e.reserved? = some item) :
      Declines log e (.error (.protocol (.reservedKey item.key e.updater)))
  /-- Another node is the master. -/
  | follower (hitems : e.items ≠ []) (hdata : e.reserved? = none)
      (hfollower : log.standing.isMaster = false) :
      Declines log e (.error (.notMaster log.standing.master))
  /-- The store refuses the batch. -/
  | refused (hitems : e.items ≠ []) (hdata : e.reserved? = none)
      (hmaster : log.standing.isMaster = true) (reason : String)
      (hfails : log.store.Fails .writeBatch reason) :
      Declines log e (.error (.storage (.stated reason)))

/-- A log that has to take an entry in and has no id left for it. -/
structure UsedUp (log : Log) (e : Entry) : Prop where
  items : e.items ≠ []
  data : e.reserved? = none
  master : log.standing.isMaster = true
  full : log.position + 1 = 0

/-- The log when its position has run over. -/
def runOver (log : Log) : Log := { log with counters := { log.counters with position := 0 } }

/-- A commit takes the stamped entry in, or it is declined and changes nothing, or it breaks down for
want of an id. -/
theorem ensures_commit_declines {now : Instant} :
    Ensures (commit now e) log fun r log' =>
      (log.position + 1 ≠ 0 ∧ r = .ok (some (e.stamped log.position now)) ∧
        log.Took [e.stamped log.position now] log' ∧ e.reserved? = none) ∨
      ((∃ why, log.Declines e why ∧ r = why.map fun _ => none) ∧ log' = log) ∨
      (log.UsedUp e ∧ r = .error .overflow ∧ log' = log.runOver) := by
  unfold commit
  by_cases hempty : e.items.isEmpty = true
  · simp only [if_pos hempty]
    exact Ensures.pure (Or.inr (Or.inl ⟨⟨_, .nothing (List.isEmpty_iff.mp hempty), rfl⟩, rfl⟩))
  have hitems : e.items ≠ [] := fun h => hempty (List.isEmpty_iff.mpr h)
  simp only [if_neg hempty]
  cases hreserved : e.reserved? with
  | some item => exact Ensures.fail (Or.inr (Or.inl ⟨⟨_, .reserved item hreserved, rfl⟩, rfl⟩))
  | none =>
    apply Ensures.read_bind
    cases hmaster : log.standing.isMaster with
    | false =>
      exact Ensures.fail (Or.inr (Or.inl ⟨⟨_, .follower hitems hreserved hmaster, rfl⟩, rfl⟩))
    | true =>
      by_cases hroom : log.position + 1 = 0
      · rw [Counters.issueLog_of_full hroom]
        exact Ensures.write_bind
          (Ensures.fail (Or.inr (Or.inr ⟨⟨hitems, hreserved, hmaster, hroom⟩, rfl, rfl⟩)))
      rw [Counters.issueLog_of_room hroom]
      have hput := (ensures_persistOrRelease (e := e.stamped log.position now)
        (Counters.toNat_next hroom)).and (ensures_persistOrRelease_spent _)
      refine Ensures.write_bind (Ensures.bind (hput.mono ?_))
      rintro r log' ⟨⟨rfl, htook⟩ | ⟨⟨-, fault, rfl⟩, rfl⟩, hspent⟩
      · exact Ensures.pure (Or.inl ⟨hroom, rfl, htook, rfl⟩)
      · rcases hspent with ⟨hok, -⟩ | ⟨reason, hfails, hr⟩
        · cases hok
        · cases hr
          exact Or.inr (Or.inl ⟨⟨_, .refused hitems hreserved hmaster reason hfails, rfl⟩, rfl⟩)

/-- No entry is declined by a breakdown. -/
theorem Declines.ne_overflow {why : Except Error Unit} (h : log.Declines e why) :
    why ≠ .error .overflow := by
  cases h <;> nofun

/-! ## A log with one more entry -/

namespace Took

variable {log' : Log}

/-- A log that took entries in differs from the one before in rows, outage, counters and notices. -/
theorem rest {new : List Entry} (h : log.Took new log') :
    log' = { log with
      store := { log.store with rows := log'.store.rows, outage := log'.store.outage }
      counters := log'.counters
      notices := log'.notices } := by
  obtain ⟨standing', counters', ⟨engine', rows', outage'⟩, observers', notices', locked'⟩ := log'
  have hstanding : standing' = log.standing := h.standing
  have hengine : engine' = log.store.engine := h.engine
  have hobservers : observers' = log.observers := h.observers
  have hlocked : locked' = log.lockedClasses := h.locked
  rw [hstanding, hengine, hobservers, hlocked]

/-- Right after its batch an entry is read under its id: no mutation of data touches its record. -/
theorem readOne_eq (h : log.Took [e] log') (hproper : e.Proper) (hget : log.store.Answers .get) :
    ((readOne e.id).run.run log'.store).1 = .ok (some e) := by
  have hrecord : log'.store.rows[Key.log e.id]? = some (Stored.encode e) := by
    rw [h.rows, List.flatMap_singleton, Rows.getElem?_log_applyAll_ops _ hproper.data, if_pos rfl]
  have hread : Ensures (readOne e.id) log'.store fun r _ => r = .ok (some e) := by
    refine Ensures.bind ((Store.ensures_lookup (Key.log e.id)).mono ?_)
    rintro r t ⟨-, rfl | ⟨hnot, -⟩⟩
    · rw [hrecord]
      simp only [Stored.decode_encode hproper.fits]
      exact Ensures.pure rfl
    · exact absurd (h.answers .get hget) hnot
  exact hread

end Took

end Log

namespace Node

/-! ## Commits of a node -/

/-- The node `n'` is the node `n` after it took `e` in at some time, under the id `id`. -/
structure TakesIn (n : Node) (now : Instant) (e : Entry) (id : LogId) (n' : Node) : Prop where
  /-- The id is the next one. -/
  next : id = n.position + 1
  /-- The store got the record and the place in the time index, then every mutation in order. -/
  rows : n'.log.store.rows = e.items.foldl Rows.mutate
    ((n.log.store.rows.insert (Key.log id) (Stored.encode { e with id := id, timestamp := now })).insert
      (Key.logTime now id) [])
  /-- The position is the id. -/
  position : n'.position = id
  /-- The record counter has passed every record that was put, and goes no further. -/
  records : e.Raises n.log.counters.primary n'.log.counters.primary
  /-- The entry is read under its id, with the time of the commit. -/
  read : e.Fits → n.log.store.Answers .get →
    ((Log.readOne id).run.run n'.log.store).1 = .ok (some { e with id := id, timestamp := now })
  /-- The observers were told of every mutation. -/
  notices : n'.log.notices = n.log.notices ++ e.notices n.log.observers
  /-- The entry was offered for pushing. -/
  queue : n'.queue = (n.offer { e with id := id, timestamp := now }).queue
  /-- The rest of the node is as it was; an outage of the store may have come closer. -/
  rest : n' =
    { n with
      log := { n.log with
        store := { n.log.store with rows := n'.log.store.rows, outage := n'.log.store.outage }
        counters := n'.log.counters
        notices := n'.log.notices }
      queue := n'.queue }

/-- A node after commits one after the other, and what they answered. -/
def commitAll (n : Node) : List (Instant × Entry) → List (Except Error (Option LogId)) × Node
  | [] => ([], n)
  | (now, e) :: rest =>
    let (result, n) := n.commit now e
    let (results, n) := n.commitAll rest
    (result :: results, n)

variable {n : Node} {e : Entry}

/-- An offer changes the queue only, by the push target and the queue. -/
theorem offer_eq (n : Node) (e : Entry) : n.offer e = { n with queue := (n.offer e).queue } := by
  unfold offer
  split <;> rfl

/-- What the log of a node takes in by a commit, the node takes in. -/
theorem takesIn_of_took {now : Instant} {log' : Log} (hroom : n.position + 1 ≠ 0)
    (htook : n.log.Took [e.stamped n.position now] log') (hdata : e.reserved? = none) :
    n.TakesIn now e (n.position + 1)
      (({ n with log := log' } : Node).offer (e.stamped n.position now)) := by
  have hproper (hfits : e.Fits) : (e.stamped n.position now).Proper :=
    ⟨Entry.reserved?_eq_none_iff.mp hdata, (Entry.fits_congr rfl rfl).mpr hfits⟩
  have hqueue : (({ n with log := log' } : Node).offer (e.stamped n.position now)).queue =
      (n.offer (e.stamped n.position now)).queue := by
    have hstanding : ({ n with log := log' } : Node).standing = n.standing := htook.standing
    unfold offer
    rw [hstanding]
    split <;> rfl
  rw [offer_eq, hqueue]
  refine ⟨rfl, ?_, ?_, ?_, fun hfits => htook.readOne_eq (hproper hfits), ?_, rfl, ?_⟩
  · show log'.store.rows = _
    rw [htook.rows, List.flatMap_singleton, Entry.ops, Rows.applyAll_append, Rows.applyAll_dataOps]
    rfl
  · apply UInt64.toNat_inj.mp
    rw [Counters.toNat_next hroom]
    exact htook.position
  · show e.Raises _ log'.counters.primary
    rw [htook.primary, List.flatMap_singleton]
    exact Entry.raises_foldl_max hdata _
  · show log'.notices = _
    rw [htook.notices, List.flatMap_singleton]
    rfl
  · exact congrArg (fun log => { n with log := log, queue := (n.offer (e.stamped n.position now)).queue })
      htook.rest

/-- A commit takes the entry in under the next id, or it is declined and the node stays as it is, or it
breaks down for want of an id. -/
theorem commit_takesIn_or_declines (now : Instant) :
    ((n.commit now e).1 = .ok (some (n.position + 1)) ∧
      n.TakesIn now e (n.position + 1) (n.commit now e).2) ∨
    ((∃ why, n.log.Declines e why ∧ (n.commit now e).1 = why.map fun _ => none) ∧
      (n.commit now e).2 = n) ∨
    (n.log.UsedUp e ∧ (n.commit now e).1 = .error .overflow ∧
      (n.commit now e).2 = { n with log := n.log.runOver }) := by
  have hcommit := @Log.ensures_commit_declines n.log e now
  rcases hrun : (Log.commit now e).run.run n.log with ⟨r, log'⟩
  have honLog : n.onLog (Log.commit now e) = (r, { n with log := log' }) := by rw [onLog, hrun]
  rw [Ensures, hrun] at hcommit
  rw [commit, honLog]
  rcases hcommit with ⟨hroom, rfl, htook, hdata⟩ | ⟨⟨why, hwhy, rfl⟩, rfl⟩ | ⟨hused, rfl, rfl⟩
  · exact Or.inl ⟨rfl, takesIn_of_took hroom htook hdata⟩
  · right
    left
    match why with
    | .ok () => exact ⟨⟨_, hwhy, rfl⟩, rfl⟩
    | .error error => exact ⟨⟨_, hwhy, rfl⟩, rfl⟩
  · exact Or.inr (Or.inr ⟨hused, rfl, rfl⟩)

/-- Commits that were all declined leave the node as it is. -/
theorem commitAll_of_none {attempts : List (Instant × Entry)}
    (hnone : ∀ r ∈ (n.commitAll attempts).1, (∀ id, r ≠ .ok (some id)) ∧ r ≠ .error .overflow) :
    (n.commitAll attempts).2 = n := by
  induction attempts with
  | nil => rfl
  | cons attempt rest ih =>
    obtain ⟨now, e⟩ := attempt
    obtain ⟨hfirst, hintact⟩ := hnone (n.commit now e).1 List.mem_cons_self
    have hsame : (n.commit now e).2 = n := by
      rcases @commit_takesIn_or_declines n e now with ⟨hr, -⟩ | ⟨-, hn⟩ | ⟨-, hr, -⟩
      · exact absurd hr (hfirst _)
      · exact hn
      · exact absurd hr hintact
    have hresults : ((n.commit now e).2.commitAll rest).1 = (n.commitAll rest).1 := by rw [hsame]
    show ((n.commit now e).2.commitAll rest).2 = n
    rw [hsame]
    exact ih fun r hr => hnone r (List.mem_cons_of_mem _ (hresults ▸ hr))

/-- A commit is all or nothing: with an id, it has taken the entry in under the next one; without, it
was declined and the node is the one it was. So the next commit that gets an id, after any number of
declined ones, gets the id that each of them would have had. The third outcome is that a commit does not
come back at all: it breaks down where an entry has to be taken in behind the last id, with nothing
written but the position run over. -/
theorem commit_all_or_nothing (n : Node) (now : Instant) (e : Entry) :
    (match (n.commit now e).1 with
      | .ok (some id) => n.TakesIn now e id (n.commit now e).2
      | .ok none => n.log.Declines e (.ok ()) ∧ (n.commit now e).2 = n
      | .error .overflow => n.log.UsedUp e ∧ (n.commit now e).2 = { n with log := n.log.runOver }
      | .error error => n.log.Declines e (.error error) ∧ (n.commit now e).2 = n) ∧
    ∀ attempts : List (Instant × Entry),
      (∀ r ∈ (n.commitAll attempts).1, (∀ id, r ≠ .ok (some id)) ∧ r ≠ .error .overflow) →
      ∀ id, ((n.commitAll attempts).2.commit now e).1 = .ok (some id) → id = n.position + 1 := by
  constructor
  · rcases commit_takesIn_or_declines now with ⟨hr, htakes⟩ | ⟨⟨why, hwhy, hr⟩, hn⟩ | ⟨hused, hr, hn⟩
    · rw [hr]
      exact htakes
    · rw [hr]
      match why with
      | .ok () => exact ⟨hwhy, hn⟩
      | .error error =>
        show (match (Except.error error : Except Error (Option LogId)) with
          | .ok (some id) => _
          | .ok none => _
          | .error .overflow => _
          | .error error => _)
        split
        · next h => cases h
        · next h => cases h
        · next h => cases h; exact absurd rfl hwhy.ne_overflow
        · next h => cases h; exact ⟨hwhy, hn⟩
    · rw [hr]
      exact ⟨hused, hn⟩
  · intro attempts hnone id hid
    rw [commitAll_of_none hnone] at hid
    rcases commit_takesIn_or_declines now with ⟨hr, -⟩ | ⟨⟨why, -, hr⟩, -⟩ | ⟨-, hr, -⟩
    · rw [hid] at hr
      cases hr
      rfl
    · rw [hid] at hr
      match why with
      | .ok () => cases hr
      | .error error => cases hr
    · rw [hid] at hr
      cases hr

/-- A master over a store that holds the fences alone. -/
def sole : Node where
  log := Log.fresh Log.alone .tree
  hosts := HostTable.new "http://a" 0 0
  buffer := PushBuffer.new 4
  queue := PushQueue.new 4
  phase := .master
  settings := ⟨100, 2, 4, 50, 100, 1000⟩
  secret := "wolf"

/-- An entry whose second mutation touches the log. -/
def forged : Entry :=
  { updater := "x", items := [.put (Key.record 7) [1], .put (Key.log 1) [2]] }

/-- An entry that writes one record twice, and another that it removes again. -/
def revising : Entry :=
  { updater := "x", items := [.put (Key.record 7) [1], .put (Key.record 9) [3],
    .put (Key.record 7) [2], .delete (Key.record 9)] }

/-- A commit is refused for its second mutation, and changes nothing. The next one gets the first id: of
a record that it writes twice the second value stands, one that it removes again is not there, and the
record counter has passed both. -/
theorem commit_all_or_nothing_sole :
    (sole.commit 4 forged).2 = sole ∧
      (sole.commit 5 revising).2.log.store.rows[Key.record 7]? = some [2] ∧
      (sole.commit 5 revising).2.log.store.rows[Key.record 9]? = none ∧
      (sole.commit 5 revising).2.log.counters = ⟨9, 1⟩ := by
  have hrefused : (sole.commit 4 forged).1 = .error (.protocol (.reservedKey (Key.log 1) "x")) := rfl
  have hdeclines := (commit_all_or_nothing sole 4 forged).1
  rw [hrefused] at hdeclines
  have hid : (sole.commit 5 revising).1 = .ok (some 1) := by rfl
  have htakes := (commit_all_or_nothing sole 5 revising).1
  rw [hid] at htakes
  refine ⟨hdeclines.2, ?_, ?_, ?_⟩
  · rw [htakes.rows]
    decide +kernel
  · rw [htakes.rows]
    decide +kernel
  · have hposition : (sole.commit 5 revising).2.log.counters.position = 1 := htakes.position
    have hput : (9 : UInt64) ≤ (sole.commit 5 revising).2.log.counters.primary :=
      htakes.records.puts (.put (Key.record 9) [3]) (by decide) rfl 9 [] rfl
    have hleast : (sole.commit 5 revising).2.log.counters.primary ≤ 9 := by
      rcases htakes.records.least with hzero | ⟨item, hitem, -, suffix, hkey⟩
      · rw [hzero]
        decide
      · -- the record of the greatest number is one of the two that the entry writes
        have hkeys : ∀ item ∈ revising.items, item.key = Key.record 7 ∨ item.key = Key.record 9 := by
          decide
        rcases hkeys item hitem with h | h
        · rw [← (Key.encode_inj.mp (h.symm.trans hkey)).2.1]
          decide
        · rw [← (Key.encode_inj.mp (h.symm.trans hkey)).2.1]
          decide
    rw [← hposition, ← UInt64.le_antisymm hleast hput]

end Node

end LogShipping
