import LogShipping.Entry.Batch
import LogShipping.Standing
import LogShipping.Store.Recovery

/-!
# The log

A log is a store, the counters that go with it, and the standing of its node. An entry reaches the
store in one batch with its time index and its mutations, so log and data cannot come apart. A master
commits entries under the next id; a follower applies entries of others as far as they follow its
position. Observers are told of every mutation once its entry is in the store.
-/

namespace LogShipping

/-! ## Logs -/

/-- A mutation as an observer was told of it. -/
structure Notice where
  /-- The number of the observer, in the order of registration. -/
  observer : Nat
  /-- The partition of the mutation. -/
  partition : Partition
  /-- The mutation. -/
  item : Mutation
  deriving DecidableEq, Repr

/-- What `observers` observers are told of an entry: mutation by mutation, each to all of them. -/
def Entry.notices (e : Entry) (observers : Nat) : List Notice :=
  e.items.flatMap fun item =>
    match item.partition? with
    | some p => (List.range observers).map fun i => ⟨i, p, item⟩
    | none => []

/-- A node's log. -/
structure Log where
  /-- The node's standing. -/
  standing : Standing
  /-- The node's counters. -/
  counters : Counters
  /-- The store that holds records, index and data. -/
  store : Store
  /-- The number of observers. -/
  observers : Nat := 0
  /-- What the observers have been told, in order. -/
  notices : List Notice := []
  /-- The classes of operations that are locked. -/
  lockedClasses : List String := []

/-- Work on a log: what it did before failing stays done. -/
abbrev LogWork := ExceptT Error (StateM Log)

namespace Log

/-- The id of the last entry. -/
def position (log : Log) : LogId := log.counters.position

/-- Opens the log of a store, finding the counters again. -/
def reopen (standing : Standing) : Access Log := do
  let counters ← Store.recoverCounters
  return { standing := standing, counters := counters, store := ← get }

/-- Works on the store of a log. -/
def onStore {α : Type} (work : Access α) : LogWork α := fun log =>
  let (result, store) := work.run.run log.store
  (result, { log with store := store })

/-! ## Writing -/

/-- Raises the record counter to the records that an entry writes. -/
def countRecords (e : Entry) : LogWork Unit :=
  modify fun log =>
    { log with
      counters := (e.items.filterMap Mutation.recordSequence?).foldl Counters.observeRecord
        log.counters }

/-- Tells an observer of a mutation. -/
def tell (notice : Notice) : LogWork Unit :=
  modify fun log => { log with notices := log.notices ++ [notice] }

/-- Puts an entry into the store, then raises the record counter to the records it writes and calls
the observers, one after the other. What a call does is up to `call`; the result are the results of
the calls. -/
def persistCalling {α : Type} (call : Notice → LogWork α) (e : Entry) : LogWork (List α) := do
  onStore (Store.writeBatch e.ops)
  -- From here on the entry is durable; nothing below can fail unless a call does.
  countRecords e
  (e.notices (← get).observers).mapM call

/-- Puts an entry into the store and tells the observers of it. -/
def persist (e : Entry) : LogWork Unit := do
  let _ ← persistCalling tell e

/-- Puts an entry into the store under an id that is taken already, and gives the id back if that
fails. -/
def persistOrRelease (e : Entry) : LogWork Unit := do
  try persist e
  catch error =>
    modify fun log => { log with counters := log.counters.releaseLog e.id }
    throw error

/-- Commits an entry of this node under the next id and the current time. An entry without mutations
is not committed; one that would touch a reserved key is refused, as is any entry on a follower. The
result is the entry as committed. -/
def commit (now : Instant) (e : Entry) : LogWork (Option Entry) := do
  if e.items.isEmpty then return none
  if let some item := e.reserved? then
    throw (.protocol (.reservedKey item.key e.updater))
  let log ← get
  if !log.standing.isMaster then throw (.notMaster log.standing.master)
  -- The position moves before the batch is written, and back if that fails.
  let (id?, counters) := log.counters.issueLog
  set { log with counters := counters }
  let some id := id? | throw .overflow
  let committed := { e with id := id, timestamp := now }
  persistOrRelease committed
  return some committed

/-- Applies entries in order: those at or below the position are skipped, and the first one that does
not follow the position ends the work. `applied` counts the entries applied before. -/
def applyFrom (applied : Nat) : List Entry → LogWork Nat
  | [] => return applied
  | e :: rest => do
    let log ← get
    if e.id ≤ log.position then applyFrom applied rest
    else
      match log.counters.claimLog? e.id with
      | none => throw (.outOfSequence (log.position + 1) e.id)
      | some counters =>
        set { log with counters := counters }
        persistOrRelease e
        applyFrom (applied + 1) rest

/-- Applies entries that another node committed; the result is how many were applied. -/
def applyReplicated (entries : List Entry) : LogWork Nat := do
  if (← get).standing.isMaster then throw (.consistency .masterApplies)
  applyFrom 0 entries

/-- Issues the next record id, if there is one. -/
def issueRecord (log : Log) : Option UInt64 × Log :=
  let (id, counters) := log.counters.issueRecord
  (id, { log with counters := counters })

/-! ## Reading -/

/-- The entry of an id. -/
def readOne (id : LogId) : Access (Option Entry) := do
  match ← Store.lookup (Key.log id) with
  | none => return none
  | some record =>
    match Stored.decode record with
    | .ok e => return some e
    | .error fault => throw (.storage (.record fault))

/-- The most entries that a page holds. -/
def maxPage : UInt32 := 10000

/-- The size of a page for the limit that a reader asks. -/
def pageSize (limit : UInt32) : UInt32 := max 1 (min limit maxPage)

/-- The entries of rows that start at the id `expected`, up to the first gap, and the id after them. -/
def entriesFrom (expected : LogId) : List Row → Except Error (List Entry × LogId)
  | [] => .ok ([], expected)
  | (key, record) :: rest =>
    -- A gap ends the page; what lies beyond it is not part of the log.
    if Key.sequence? key ≠ some expected then .ok ([], expected)
    else
      match Stored.decode record with
      | .error fault => .error (.storage (.record fault))
      | .ok e =>
        if e.id ≠ expected then .error (.storage (.misplaced expected e.id))
        else
          match Counters.next? expected with
          | none => .error .overflow
          | some following =>
            (entriesFrom following rest).map fun (entries, next) => (e :: entries, next)

/-- The page after `lastSeen` of a log that stands at `position`. A reader at the position gets an
empty page, one beyond it an error. -/
def readLog (position : LogId) (now : Instant) (lastSeen : LogId) (limit : UInt32) :
    Access Chunk := do
  if position < lastSeen then throw (.consistency (.readerAhead lastSeen position))
  if lastSeen = position then return Chunk.heartbeat position now
  let rows ← Store.scan (Key.log (lastSeen + 1)) (Key.upperBound .log) (pageSize limit).toUInt64
  let (entries, next) ← liftExcept (entriesFrom (lastSeen + 1) rows)
  return { currid := position, timestamp := now, entries := entries, isCurrent := position < next }
where
  /-- A computation that may fail, as work on a store. -/
  liftExcept {α : Type} (result : Except Error α) : Access α := ExceptT.mk (pure result)

/-- The log id in a key of the time index. -/
def indexedId? (key : Bytes) : Option LogId :=
  let octets := (key.drop Key.headLength).take 8
  if octets.length = 8 then some (UInt64.ofNat (Bytes.ofBigEndian octets)) else none

/-- The ids of the first `limit` entries stamped at or after `since`, the oldest first. -/
def idsSince (since : Instant) (limit : UInt64) : Access (List LogId) := do
  let rows ← Store.scan (Key.logTime since 0) (Key.upperBound .logTime) limit
  return rows.filterMap fun row => indexedId? row.1

/-! ## Locks -/

/-- Locks a class of operations, unless it is locked. -/
def lockClass (log : Log) (name : String) : Bool × Log :=
  if log.lockedClasses.contains name then (false, log)
  else (true, { log with lockedClasses := name :: log.lockedClasses })

/-- Unlocks a class of operations; the result is whether it was locked. -/
def unlockClass (log : Log) (name : String) : Bool × Log :=
  (log.lockedClasses.contains name,
    { log with lockedClasses := log.lockedClasses.filter (· != name) })

end Log

end LogShipping
