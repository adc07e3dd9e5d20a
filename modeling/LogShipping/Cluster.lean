import LogShipping.Node.Service

/-!
# Clusters

Several nodes joined by a network, with one clock. A call is answered at once: by nobody when the
peer is down, by a script when one stands in for the peer, and otherwise by the peer's service, whose
errors reach the caller as wire code and wording. Announcements and pushes are work in the background,
done when the cluster settles.
-/

namespace LogShipping

/-! ## Scripts and calls -/

/-- One scripted reply. -/
inductive Scripted where
  /-- A message. -/
  | message (m : Message)
  /-- A failure of the call. -/
  | error (error : Error)
  /-- No answer, ever. -/
  | hang
  deriving DecidableEq, Repr

/-- Scripted replies by command; the last reply of a command is given for ever. -/
abbrev Script := List (Command × List Scripted)

namespace Script

/-- The next reply to a command, and the script after it. -/
def next? (command : Command) : Script → Option (Scripted × Script)
  | [] => none
  | (c, replies) :: rest =>
    if c = command then
      match replies with
      | [] => none
      | [reply] => some (reply, (c, [reply]) :: rest)
      | reply :: more => some (reply, (c, more) :: rest)
    else (next? command rest).map fun (reply, rest) => (reply, (c, replies) :: rest)

/-- A script with the replies of a newer one wherever that one has replies to a command. -/
def revise (newer script : Script) : Script :=
  newer ++ script.filter fun entry => (newer.lookup entry.1).isNone

end Script

/-- A message that was put on the network. -/
structure Sent where
  /-- The address it went to. -/
  peer : String
  /-- The message. -/
  message : Message
  deriving DecidableEq, Repr

/-! ## Clusters -/

/-- Nodes, the network between them, and what was observed of both. -/
structure Cluster where
  /-- The time of every clock in the cluster. -/
  now : Instant
  /-- The nodes, by address. -/
  nodes : Std.ExtTreeMap String Node := ∅
  /-- The addresses that nobody answers. -/
  down : List String := []
  /-- The scripts that stand in for peers, by address. -/
  scripts : List (String × Script) := []
  /-- Announcements that are still to be made, the oldest first. -/
  announcements : List Announcement := []
  /-- The messages sent, in order. -/
  sent : List Sent := []
  /-- What observers were told, in order, with the address of their node. -/
  notices : List (String × Notice) := []
  /-- Nodes that were closed or replaced, as they were then, the latest first. -/
  gone : List Node := []

/-- Work on a cluster. -/
abbrev ClusterWork := StateM Cluster

namespace Cluster

/-- The node at an address. -/
def node? (c : Cluster) (url : String) : Option Node := c.nodes[url]?

/-- Moves what the observers of a node were told to the record of the cluster. -/
def collect (c : Cluster) (url : String) (n : Node) : Node × Cluster :=
  ({ n with log := { n.log with notices := [] } },
    { c with notices := c.notices ++ n.log.notices.map fun notice => (url, notice) })

/-- The cluster with a node in its place, and with what its observers were told. -/
def putNode (c : Cluster) (url : String) (n : Node) : Cluster :=
  let (n, c) := c.collect url n
  { c with nodes := c.nodes.insert url n }

/-- Works on the node at an address, if there is one. -/
def onNode {α : Type} (url : String) (work : Node → α × Node) : ClusterWork (Option α) := fun c =>
  match c.node? url with
  | none => (none, c)
  | some n =>
    let (value, n) := work n
    (some value, c.putNode url n)

/-! ## The network -/

/-- An error as the caller of the failed service sees it: by its code and wording, or as a closed
connection where the service broke down. -/
def remoteError (peer : String) : Error → Error
  | .overflow => .transport peer "connection closed"
  | error => .remote error.code error.message

/-- Keeps an announcement until the background work makes it. -/
def defer (announcement : Option Announcement) : ClusterWork Unit :=
  modify fun c => { c with announcements := c.announcements ++ announcement.toList }

/-- Has the node at an address answer a message, if there is a node. -/
def ask (url : String) (m : Message) : ClusterWork (Option (Except Error Message)) := do
  let now := (← get).now
  match ← onNode url (Node.handle now m) with
  | none => return none
  | some answer =>
    defer answer.announcement
    return some answer.reply

/-- Has the node at an address answer a message that came over the network. -/
def serve (peer : String) (m : Message) : ClusterWork (Except Error Message) := do
  match ← ask peer m with
  | none => return .error (.transport peer "no route to host")
  | some reply => return reply.mapError (remoteError peer)

/-- Takes the scripted reply to a command, if a script stands in for the peer there. -/
def takeScripted (peer : String) (command : Command) : ClusterWork (Option Scripted) := fun c =>
  match c.scripts.lookup peer with
  | none => (none, c)
  | some script =>
    match script.next? command with
    | none => (none, c)
    | some (reply, script) =>
      (some reply,
        { c with scripts := (peer, script) :: c.scripts.filter (·.1 != peer) })

/-- Sends a message to a peer; the result is the reply, or nothing when none will ever come. -/
def send (peer : String) (m : Message) : ClusterWork (Option (Except Error Message)) := do
  modify fun c => { c with sent := c.sent ++ [⟨peer, m⟩] }
  if (← get).down.contains peer then return some (.error (.transport peer "connection refused"))
  match ← takeScripted peer m.command with
  | some (.message reply) => return some (.ok reply)
  | some (.error error) => return some (.error error)
  | some .hang => return none
  | none => return some (← serve peer m)

/-- Sends a message and checks the command of the reply. -/
def call (peer : String) (m : Message) : ClusterWork (Option (Except Error Message)) := do
  return (← send peer m).map fun reply => reply.bind (Message.expect m.command)

/-! ## Work in the background -/

/-- Tells one host after another of an announced host; a host that never answers ends this. -/
def announce (host : Host) : List String → ClusterWork Unit
  | [] => return ()
  | peer :: rest => do
    if (← call peer (.addHost host)).isSome then announce host rest

/-- Makes all announcements. -/
def announceAll : ClusterWork Unit := do
  let announcements := (← get).announcements
  modify fun c => { c with announcements := [] }
  announcements.forM fun a => announce a.host a.targets

/-- Whether a push was taken. -/
def delivered : Except Error Message → Bool
  | .ok (.pushTransaction _ _ accepted) => accepted
  | _ => false

/-- Takes the next entry to push and its target. Entries are thrown away while there is no target, and
all of them once the node has been told to stop. -/
def nextPush (n : Node) : Option (Entry × String) × Node :=
  if n.queue.stalled then (none, n)
  else if n.standing.shutDown then (none, { n with queue := { n.queue with pending := [] } })
  else
    match n.queue.pending, n.standing.pushTarget with
    | e :: rest, some target =>
      (some (e, target), { n with queue := { n.queue with pending := rest } })
    | _, _ => (none, { n with queue := { n.queue with pending := [] } })

/-- Pushes up to `count` waiting entries of a node. -/
def pushPending (url : String) : (count : Nat) → ClusterWork Unit
  | 0 => return ()
  | count + 1 => do
    match ← onNode url nextPush with
    | some (some (e, target)) =>
      match ← call target (.pushRequest url e) with
      | none =>
        -- The queue waits for this answer for ever.
        let _ ← onNode url fun n => ((), { n with queue := { n.queue with stalled := true } })
      | some reply =>
        -- The target may have changed meanwhile; a new one is kept.
        if !delivered reply then
          let _ ← onNode url fun n => ((), n.restand (·.lose target))
        pushPending url count
    | _ => return ()

/-- Pushes all waiting entries of all nodes. -/
def pushAll : ClusterWork Unit := do
  (← get).nodes.toList.forM fun (url, n) => pushPending url (n.queue.pending.length + 1)

/-- Does all work in the background. -/
def settle : ClusterWork Unit := do
  announceAll
  pushAll

end Cluster

end LogShipping
