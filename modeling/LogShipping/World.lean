import LogShipping.Cluster
import LogShipping.Lifecycle

/-!
# Worlds

A cluster as it runs by itself: every node carries on its activities side by side, messages are on their
way for any time, arrive in any order, more than once or never, and answers may be lost. A world is
changed by events, one at a time, and an event that cannot happen changes nothing; so any list of events
is a run.

What holds after every list of events holds of every interleaving of these events, and of no finer one.
An activity is cut wherever it reaches out: calls to other nodes, pauses, and each look at or change of
its own node are steps of their own, and anything may come in between. But four things are one step each
that the program does in several, with no lock held throughout that all others would wait for:

* a commit raises the position, writes the entry, and takes the position back if the write failed; a
  reader in between sees an id whose entry is not there yet, or will never be;

* an application of entries of another node does the same, entry by entry;

* a push is checked against the master, and then put into the buffer;

* a node that turns to another master sets the master, and then clears the buffer.

There is one time for all nodes, but any event may be preceded by one that sets it to anything; so the
clock of each node shows what it likes when the node looks at it.

`Proofs.World.Midway` takes commits apart, and `Proofs.Activity.Racing` pushes and turns, and show what
else may then happen: a host table that tells of a position which the host never reached, and an entry
of a former master in the buffer. An application that fails may be told of too early just as a commit
may, which is not followed any further. Results that are stated of worlds are stated at the grain of the
events here.
-/

namespace LogShipping

/-! ## Nets -/

/-- The nodes, and the time of every clock. -/
structure Net where
  now : Instant
  /-- The nodes, by address. -/
  nodes : Std.ExtTreeMap String Node := ∅

namespace Net

/-- The node at an address. -/
def node? (net : Net) (url : String) : Option Node := net.nodes[url]?

/-- The net with a node at an address. -/
def put (net : Net) (url : String) (n : Node) : Net := { net with nodes := net.nodes.insert url n }

end Net

/-! ## Messages and activities under way -/

/-- A message that was sent, once and for all. -/
structure Packet where
  /-- The address of the sender. -/
  sender : String
  /-- The address it goes to. -/
  peer : String
  message : Message
  deriving DecidableEq, Repr

/-- What the sender of a message gets. -/
inductive Outcome where
  /-- An answer that the peer gave, by its number. -/
  | answered (answer : Nat)
  /-- A failure of the call. -/
  | failed (error : Error)
  deriving DecidableEq, Repr

/-- How an activity stands. -/
inductive Progress : Type 1 where
  /-- It can go on. -/
  | ready (activity : Activity Node PUnit)
  /-- It waits for what becomes of messages, which it knows by their numbers. -/
  | waiting (packets : List Nat) (resume : List (Except Error Message) → Activity Node PUnit)
  /-- It pauses. -/
  | resting (resume : Bool → Activity Node PUnit)
  /-- It has ended, or its node was opened anew. -/
  | ended

/-- An activity of a node. -/
structure Task : Type 1 where
  /-- The address of the node. -/
  url : String
  progress : Progress

/-! ## Jobs -/

/-- Follows the master from a streak on, and acts as master once promoted. -/
def Lifecycle.goOn (streak : Streak) : Work Unit := do
  match ← Work.iterate tailPass streak with
  | .shutdown => Work.enter .stopped
  | .promoted =>
    masterLoop
    Work.enter .stopped

/-- What a node can be set to do. -/
inductive Job where
  /-- Live from start to stop. -/
  | run
  /-- Start up. -/
  | startup
  /-- Compare the newest entry with a peer. -/
  | compareLog (peer : String)
  /-- Catch up with a peer. -/
  | catchUp (peer : String)
  /-- Find out who is master. -/
  | confirmMaster (peer : String)
  /-- Follow a master from now on. -/
  | retarget (master : String)
  /-- Register with a master. -/
  | register (master : String)
  /-- Apply what was pushed. -/
  | drain
  /-- Pull one page. -/
  | pull (master : String)
  /-- Probe all hosts. -/
  | probe
  /-- Tail until promoted or stopped. -/
  | tail
  /-- Go on between two passes of tailing. -/
  | goOn (streak : Lifecycle.Streak)
  /-- Distribute the host table. -/
  | refresh
  /-- Act as master. -/
  | lead
  deriving DecidableEq, Repr

/-- Work whose result nobody waits for. -/
def Work.finish {α : Type} (work : Work α) : Activity Node PUnit := work.run.bind fun _ => .done ⟨⟩

/-- The activity of a job. -/
def Job.activity : Job → Activity Node PUnit
  | .run => Lifecycle.run.finish
  | .startup => Lifecycle.startup.finish
  | .compareLog peer => (Lifecycle.compareLog peer).finish
  | .catchUp peer => (Lifecycle.catchUp peer).finish
  | .confirmMaster peer => (Lifecycle.confirmMaster peer).finish
  | .retarget master => (Lifecycle.retarget master).finish
  | .register master => (Lifecycle.register master).finish
  | .drain => Lifecycle.drainPushed.finish
  | .pull master => (Lifecycle.pullAndApply master).finish
  | .probe => Lifecycle.hostUpdate.finish
  | .tail => Lifecycle.tail.finish
  | .goOn streak => (Lifecycle.goOn streak).finish
  | .refresh => Lifecycle.refreshFollowers.finish
  | .lead => Lifecycle.masterLoop.finish

/-! ## Worlds -/

/-- A net with all that is under way in it. -/
structure World : Type 1 where
  net : Net
  /-- The messages sent, in order. -/
  packets : List Packet := []
  /-- The answers given, each with the number of the message, in order. -/
  answers : List (Nat × Except Error Message) := []
  /-- The activities, in order. -/
  tasks : List Task := []

/-- What can happen in a world. -/
inductive Event where
  /-- The clock is set. -/
  | clock (now : Instant)
  /-- A commit at a node. -/
  | commit (url : String) (e : Entry)
  /-- The store of a node falls out, or is repaired. -/
  | outage (url : String) (outage : Option Outage)
  /-- A node is opened anew over its store; what it had under way is gone. -/
  | restart (setup : Setup)
  /-- A node is told to stop. -/
  | stop (url : String)
  /-- A node begins a job. -/
  | begin (url : String) (job : Job)
  /-- A task goes one step on. -/
  | move (task : Nat)
  /-- A message arrives, perhaps once more, and is answered. -/
  | arrive (packet : Nat)
  /-- A task gets what became of its messages. -/
  | hear (task : Nat) (outcomes : List Outcome)
  /-- The pause of a task is over. -/
  | wake (task : Nat)
  /-- A node pushes the next entry of its queue. -/
  | push (url : String)
  /-- A node gets what became of a push. -/
  | pushed (packet : Nat) (outcome : Outcome)

namespace World

/-- The packets that announce a host. -/
def announcing (sender : String) : Option Announcement → List Packet
  | some a => a.targets.map fun target => ⟨sender, target, .addHost a.host⟩
  | none => []

/-- What an outcome tells of a message. -/
def heard? (answers : List (Nat × Except Error Message)) (packet : Nat) :
    Outcome → Option (Except Error Message)
  | .answered answer =>
    match answers[answer]? with
    | some (number, reply) => if number = packet then some reply else none
    | none => none
  | .failed error => some (.error error)

/-- What outcomes tell of messages, each of its own. -/
def heardAll? (answers : List (Nat × Except Error Message)) :
    List Nat → List Outcome → Option (List (Except Error Message))
  | [], [] => some []
  | packet :: packets, outcome :: outcomes =>
    match heard? answers packet outcome, heardAll? answers packets outcomes with
    | some reply, some replies => some (reply :: replies)
    | _, _ => none
  | _, _ => none

/-- The world with a task in another state. -/
def setTask (w : World) (task : Nat) (url : String) (progress : Progress) : World :=
  { w with tasks := w.tasks.set task ⟨url, progress⟩ }

/-- The world with more messages under way. -/
def post (w : World) (packets : List Packet) : World := { w with packets := w.packets ++ packets }

/-- Works on the node at an address, if there is one. -/
def onNode (w : World) (url : String) (work : Node → Node) : World :=
  match w.net.node? url with
  | some n => { w with net := w.net.put url (work n) }
  | none => w

/-- One step of an activity that can go on; work on a node that is not there never begins. -/
def advance (w : World) (task : Nat) (url : String) : Activity Node PUnit → World
  | .done _ => w.setTask task url .ended
  | .atomic work resume =>
    match w.net.node? url with
    | some n =>
      let (value, n) := work w.net.now n
      setTask { w with net := w.net.put url n } task url (.ready (resume value))
    | none => w
  | .call peer m resume =>
    (w.post [⟨url, peer, m⟩]).setTask task url
      (.waiting [w.packets.length] fun replies => resume (replies.headD (.error .cancelled)))
  | .callAll peers m resume =>
    (w.post (peers.map fun peer => ⟨url, peer, m⟩)).setTask task url
      (.waiting (List.range' w.packets.length peers.length) resume)
  | .pause _ resume => w.setTask task url (.resting resume)
  | .loop body start resume => w.setTask task url (.ready (Activity.unfoldLoop body start resume))

/-- A task that can go on takes its next step. -/
def moveTask (w : World) (task : Nat) : World :=
  match w.tasks[task]? with
  | some ⟨url, .ready activity⟩ => w.advance task url activity
  | _ => w

/-- A task that waits gets what became of its messages. -/
def hearTask (w : World) (task : Nat) (outcomes : List Outcome) : World :=
  match w.tasks[task]? with
  | some ⟨url, .waiting packets resume⟩ =>
    match heardAll? w.answers packets outcomes with
    | some replies => w.setTask task url (.ready (resume replies))
    | none => w
  | _ => w

/-- A task that pauses goes on, and learns whether its node was told to stop. -/
def wakeTask (w : World) (task : Nat) : World :=
  match w.tasks[task]? with
  | some ⟨url, .resting resume⟩ =>
    let stopped := (w.net.node? url).any (·.standing.shutDown)
    w.setTask task url (.ready (resume stopped))
  | _ => w

/-- The node at an address answers a message. -/
def answer (w : World) (number : Nat) (packet : Packet) : World :=
  match w.net.node? packet.peer with
  | some n =>
    let (answer, n) := n.handle w.net.now packet.message
    { w with
      net := w.net.put packet.peer n
      packets := w.packets ++ announcing packet.peer answer.announcement
      answers := w.answers ++ [(number, answer.reply.mapError (Cluster.remoteError packet.peer))] }
  | none => w

/-- A node is opened anew over its store. -/
def reopen (w : World) (setup : Setup) : World :=
  match w.net.node? setup.url with
  | some old =>
    match ((Node.start setup w.net.now).run.run old.log.store).1 with
    | .ok n =>
      { w with
        net := w.net.put setup.url n
        tasks := w.tasks.map fun task =>
          if task.url = setup.url then { task with progress := .ended } else task }
    | .error _ => w
  | none => w

/-- A node pushes the next entry of its queue. -/
def pushNext (w : World) (url : String) : World :=
  match w.net.node? url with
  | some n =>
    match Cluster.nextPush n with
    | (some (e, target), n) =>
      { w with
        net := w.net.put url n
        packets := w.packets ++ [⟨url, target, .pushRequest url e⟩] }
    | (none, n) => { w with net := w.net.put url n }
  | none => w

/-- A node that hears that a push was not taken has lost the follower. -/
def notePush (w : World) (number : Nat) (outcome : Outcome) : World :=
  match w.packets[number]?, heard? w.answers number outcome with
  | some ⟨sender, target, .pushTransaction ..⟩, some reply =>
    if Cluster.delivered (reply.bind (Message.expect .pushTransaction)) then w
    else w.onNode sender fun n => n.restand (·.lose target)
  | _, _ => w

/-- The world after an event. -/
def after (w : World) : Event → World
  | .clock now => { w with net := { w.net with now := now } }
  | .commit url e => w.onNode url fun n => (n.commit w.net.now e).2
  | .outage url outage =>
    w.onNode url fun n => { n with log := { n.log with store := { n.log.store with outage := outage } } }
  | .restart setup => w.reopen setup
  | .stop url => w.onNode url fun n => n.restand Standing.stop
  | .begin url job => { w with tasks := w.tasks ++ [⟨url, .ready job.activity⟩] }
  | .move task => w.moveTask task
  | .arrive number =>
    match w.packets[number]? with
    | some packet => w.answer number packet
    | none => w
  | .hear task outcomes => w.hearTask task outcomes
  | .wake task => w.wakeTask task
  | .push url => w.pushNext url
  | .pushed packet outcome => w.notePush packet outcome

/-- The world after some events. -/
def run (w : World) (events : List Event) : World := events.foldl after w

end World

end LogShipping
