import LogShipping.Activity
import LogShipping.Node

/-!
# The work of a node's lifecycle

Activities of a node that may fail, and the steps they are made of: looking at the node, changing it,
working on its log, and asking peers. A reply of another command than the request counts as a failed
call.
-/

namespace LogShipping

/-- An activity of a node that may fail. -/
abbrev Work := ExceptT Error (Activity Node)

namespace Work

variable {α : Type}

/-! ## Steps on the node -/

/-- Works on the node at the present time. -/
def onNode (work : Instant → Node → α × Node) : Work α := ExceptT.lift (.atomic work .done)

/-- Looks at the node. -/
def inspect (look : Node → α) : Work α := onNode fun _ n => (look n, n)

/-- Changes the node. -/
def change (change : Instant → Node → Node) : Work Unit := onNode fun now n => ((), change now n)

/-- Works on the node's log. -/
def onLog (work : LogWork α) : Work α := ExceptT.mk (.atomic (fun _ n => n.onLog work) .done)

/-- Looks at the clock. -/
def clock : Work Instant := onNode fun now n => (now, n)

/-- Puts the node into a phase. -/
def enter (phase : Phase) : Work Unit := change fun _ n => { n with phase := phase }

/-! ## Control -/

/-- The outcome of work, failure included. -/
def outcome (work : Work α) : Work (Except Error α) := ExceptT.lift work.run

/-- A result that is there already, or a failure. -/
def ofExcept (result : Except Error α) : Work α := ExceptT.mk (.done result)

/-- Repeats a body until it gives a result or fails. -/
def iterate {τ ρ : Type} (body : τ → Work (τ ⊕ ρ)) (start : τ) : Work ρ :=
  let round (t : τ) : Activity Node (τ ⊕ Except Error ρ) := do
    match ← (body t).run with
    | .ok (.inl next) => return .inl next
    | .ok (.inr result) => return .inr (.ok result)
    | .error error => return .inr (.error error)
  ExceptT.mk (.loop round start .done)

/-- Pauses for some milliseconds; the result is whether the node was told to stop meanwhile. -/
def pause (duration : UInt64) : Work Bool := ExceptT.lift (.pause duration .done)

/-! ## Calls -/

/-- Calls a peer. -/
def call (peer : String) (m : Message) : Work Message := do
  let reply ← ExceptT.mk (.call peer m .done)
  ofExcept (reply.expect m.command)

/-- Calls several peers at once; each reply is judged by itself. -/
def callAll (peers : List String) (m : Message) : Work (List (Except Error Message)) :=
  ExceptT.lift (.callAll peers m fun replies =>
    .done (replies.map fun reply => reply.bind (Message.expect m.command)))

/-- Asks a peer for one entry. -/
def askEntry (peer : String) (id : LogId) : Work (Option Entry) := do
  match ← call peer (.readOneRequest id) with
  | .readOne _ entry => return entry
  | other => throw (.protocol (.wrongCommand .readOne other.command))

/-- Asks a peer for the page after `lastSeen`, and notes the position that the peer reports. -/
def pull (peer : String) (lastSeen : LogId) : Work Chunk := do
  let (url, limit) ← inspect fun n => (n.url, n.settings.readLogLimit)
  match ← call peer (.readLogRequest url lastSeen limit) with
  | .readLog _ _ _ chunk =>
    change fun now n => { n with hosts := n.hosts.observe peer chunk.currid now }
    return chunk
  | other => throw (.protocol (.wrongCommand .readLog other.command))

/-- Asks a peer whether it is master and which master it names, and notes its position. -/
def askStatus (peer : String) : Work (Bool × String) := do
  match ← call peer .statusRequest with
  | .status _ logPosition isMaster masterAddress =>
    change fun now n => { n with hosts := n.hosts.observe peer logPosition now }
    return (isMaster, masterAddress)
  | other => throw (.protocol (.wrongCommand .status other.command))

end Work

end LogShipping
