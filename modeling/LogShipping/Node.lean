import LogShipping.HostTable
import LogShipping.Log
import LogShipping.PushBuffer

/-!
# Nodes

A node is a log together with its host table, the buffer of entries pushed to it, the queue of
entries that it pushes to others, and the phase its coordinator has reached. Fresh commits of a master
are offered to the queue; an offer is dropped when there is no follower to push to or no room, which
never touches the commit itself.
-/

namespace LogShipping

/-! ## Phases -/

/-- How far the coordinator of a node has come. -/
inductive Phase where
  /-- Started, not yet compared with the master. -/
  | cold
  /-- Pulling what was committed before. -/
  | catchup
  /-- Following the master. -/
  | tailing
  /-- Acting as master. -/
  | master
  /-- Ended. -/
  | stopped
  deriving DecidableEq, Repr

/-- The name of a phase in answers. -/
def Phase.name : Phase → String
  | .cold => "FOLLOWER_COLD"
  | .catchup => "FOLLOWER_CATCHUP"
  | .tailing => "FOLLOWER_TAILING"
  | .master => "MASTER"
  | .stopped => "STOPPED"

/-! ## Settings -/

/-- The times and thresholds that a coordinator works with. Times are in milliseconds. -/
structure Settings where
  /-- The size of the pages asked for. -/
  readLogLimit : UInt32
  /-- How many pulls in a row fail before all hosts are probed. -/
  hostUpdateThreshold : UInt32
  /-- How many pulls in a row fail before an election. -/
  electionThreshold : UInt32
  /-- The pause after a pull that brought entries. -/
  busyInterval : UInt64
  /-- The pause after a pull that brought nothing. -/
  idleInterval : UInt64
  /-- The time between two distributions of the host table. -/
  refreshInterval : UInt64
  deriving DecidableEq, Repr

/-- All that is needed to open a node over a store. -/
structure Setup where
  /-- The node's address. -/
  url : String
  /-- Whether it starts as master. -/
  isMaster : Bool
  /-- The master to follow. -/
  master : Option String
  /-- The secret that authenticates requests. -/
  secret : String
  /-- How many fresh entries wait to be pushed, and how many pushed entries are buffered. -/
  queueSize : Nat
  /-- The coordinator's settings. -/
  settings : Settings
  deriving DecidableEq, Repr

/-! ## Push queues -/

/-- Entries that wait to be pushed. -/
structure PushQueue where
  /-- How many entries may wait. -/
  capacity : Nat
  /-- The entries, the oldest first. -/
  pending : List Entry := []
  /-- Whether a push is under way that was never answered. -/
  stalled : Bool := false
  deriving DecidableEq, Repr

namespace PushQueue

/-- An empty queue, which has room for at least one entry. -/
def new (capacity : Nat) : PushQueue := { capacity := max capacity 1 }

/-- Puts an entry at the end if there is room. -/
def offer (q : PushQueue) (e : Entry) : PushQueue :=
  if q.pending.length < q.capacity then { q with pending := q.pending ++ [e] } else q

end PushQueue

/-! ## Nodes -/

/-- A node of the cluster. -/
structure Node where
  /-- The log, with the standing, the counters and the store. -/
  log : Log
  /-- What the node knows of the cluster. -/
  hosts : HostTable
  /-- Entries pushed to the node. -/
  buffer : PushBuffer
  /-- Entries that the node pushes. -/
  queue : PushQueue
  /-- The phase of its coordinator. -/
  phase : Phase
  /-- The settings of its coordinator. -/
  settings : Settings
  /-- The secret that authenticates requests. -/
  secret : String

namespace Node

/-- The node's standing. -/
def standing (n : Node) : Standing := n.log.standing

/-- The node's address. -/
def url (n : Node) : String := n.log.standing.self

/-- The id of the node's last entry. -/
def position (n : Node) : LogId := n.log.position

/-- Opens a node over a store: writes the missing fences and finds the counters again. -/
def start (setup : Setup) (now : Instant) : Access Node := do
  let _ ← Store.ensureFences
  let log ← Log.reopen (Standing.start setup.url setup.isMaster setup.master)
  return {
    log := log
    hosts := HostTable.new setup.url log.position now
    buffer := PushBuffer.new setup.queueSize
    queue := PushQueue.new setup.queueSize
    phase := if setup.isMaster then .master else .cold
    settings := setup.settings
    secret := setup.secret }

/-- Works on the log of a node. -/
def onLog {α : Type} (work : LogWork α) (n : Node) : Except Error α × Node :=
  let (result, log) := work.run.run n.log
  (result, { n with log := log })

/-- Changes the standing of a node. -/
def restand (n : Node) (change : Standing → Standing) : Node :=
  { n with log := { n.log with standing := change n.log.standing } }

/-- Offers a fresh entry to the push queue, if there is a follower to push to. -/
def offer (n : Node) (e : Entry) : Node :=
  if n.standing.pushTarget.isSome then { n with queue := n.queue.offer e } else n

/-- Commits an entry and offers it for pushing; the result is its id, or nothing for an entry without
mutations. -/
def commit (now : Instant) (e : Entry) (n : Node) : Except Error (Option LogId) × Node :=
  match n.onLog (Log.commit now e) with
  | (.error error, n) => (.error error, n)
  | (.ok none, n) => (.ok none, n)
  | (.ok (some committed), n) => (.ok (some committed.id), n.offer committed)

/-- Takes over as master. -/
def promote (n : Node) : Node := n.restand Standing.promote

/-- Runs the election over the hosts seen since the cutoff; the node takes over if it wins and is not
master yet. -/
def elect (cutoff : Instant) (n : Node) : Option Host × Node :=
  match n.hosts.winner? cutoff with
  | some winner =>
    if winner.url = n.hosts.self ∧ !n.standing.isMaster then (some winner, n.promote)
    else (some winner, n)
  | none => (none, n)

end Node

end LogShipping
