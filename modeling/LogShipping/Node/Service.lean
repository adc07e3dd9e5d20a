import LogShipping.Node

/-!
# The service of a node

How a node answers each message. Apart from the reply, a message may change the host table, the push
target and the push buffer, and a registration has the new host announced to the other hosts. A
message that is refused changes nothing.
-/

namespace LogShipping

/-- A host to be made known to other hosts. -/
structure Announcement where
  /-- The host. -/
  host : Host
  /-- Who is told of it, in order. -/
  targets : List String
  deriving DecidableEq, Repr

/-- What becomes of a message. -/
structure Answer where
  /-- The reply, or why there is none. -/
  reply : Except Error Message
  /-- What is to be announced because of it. -/
  announcement : Option Announcement := none

namespace Node

/-- The announcement of a host to all others that the node knows. -/
def announcing (n : Node) (host : Host) : Option Announcement :=
  let targets := n.hosts.peers.filter (· != host.url)
  if targets.isEmpty then none else some ⟨host, targets⟩

/-- Takes a follower in, on a master. -/
def handleRegister (now : Instant) (url : String) (logPosition : LogId) (n : Node) :
    Answer × Node :=
  if !n.standing.isMaster then (⟨.error (.notMaster n.standing.master), none⟩, n)
  else
    let n := { n with hosts := n.hosts.observe url logPosition now }
    let announcement := (n.hosts.host? url).bind n.announcing
    (⟨.ok (.register url logPosition n.hosts.toList), announcement⟩, n)

/-- Hands out one entry. -/
def handleReadOne (id : LogId) (n : Node) : Answer × Node :=
  let (result, n) := n.onLog (Log.onStore (Log.readOne id))
  (⟨result.map fun entry => .readOne id entry, none⟩, n)

/-- The node after it has served a page to a reader: it has seen the reader, and a master pushes to a
reader that is up to date. -/
def noteReader (now : Instant) (url : String) (lastSeen : LogId) (isCurrent : Bool) (n : Node) : Node :=
  if url = "" ∨ url = n.url then n
  else
    let n := { n with hosts := n.hosts.observe url lastSeen now }
    if n.standing.isMaster && isCurrent then n.restand (·.aimAt url) else n

/-- Hands out a page of the log. -/
def handleReadLog (now : Instant) (url : String) (lastSeen : LogId) (limit : UInt32) (n : Node) :
    Answer × Node :=
  match n.onLog (Log.onStore (Log.readLog n.position now lastSeen limit)) with
  | (.error error, n) => (⟨.error error, none⟩, n)
  | (.ok chunk, n) =>
    (⟨.ok (.readLog url lastSeen limit chunk), none⟩, n.noteReader now url lastSeen chunk.isCurrent)

/-- Refuses on a master what only followers take. -/
def followersOnly (n : Node) (command : Command) : Except Error Unit :=
  if n.standing.isMaster then .error (.protocol (.followersOnly command)) else .ok ()

/-- Takes in what another node knows of a host. -/
def handleAddHost (host : Host) (n : Node) : Answer × Node :=
  match n.followersOnly .addHost with
  | .error error => (⟨.error error, none⟩, n)
  | .ok () =>
    (⟨.ok (.addHost host), none⟩,
      { n with hosts := n.hosts.observe host.url host.logPosition host.lastSeen })

/-- Buffers a pushed entry, if it comes from the master that the node follows. -/
def handlePush (source : String) (e : Entry) (n : Node) : Answer × Node :=
  match n.followersOnly .pushTransaction with
  | .error error => (⟨.error error, none⟩, n)
  | .ok () =>
    if source = n.standing.master then
      let (accepted, buffer) := n.buffer.insert e n.position
      (⟨.ok (.pushTransaction source e accepted), none⟩, { n with buffer := buffer })
    else (⟨.ok (.pushTransaction source e false), none⟩, n)

/-- The description that a node gives of itself. -/
def describe (n : Node) : Message :=
  .status n.url n.position n.standing.isMaster n.standing.master

/-- Answers a message. -/
def handle (now : Instant) (m : Message) (n : Node) : Answer × Node :=
  match m with
  | .register url logPosition _ => n.handleRegister now url logPosition
  | .readOne id _ => n.handleReadOne id
  | .readLog url lastSeen limit _ => n.handleReadLog now url lastSeen limit
  | .setHosts hosts => (⟨.ok (.setHosts hosts), none⟩, { n with hosts := n.hosts.adopt hosts })
  | .addHost host => n.handleAddHost host
  | .pushTransaction source e _ => n.handlePush source e
  | .status .. => (⟨.ok n.describe, none⟩, n)

end Node

end LogShipping
