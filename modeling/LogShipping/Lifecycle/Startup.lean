import LogShipping.Lifecycle.Work

/-!
# Starting up

A node that starts as follower compares its newest entry with its configured peer, pulls the history
that it misses, finds out who is master, compares with the master too if that is another node, and
registers there. A master has nothing to do.
-/

namespace LogShipping.Lifecycle

open Work

/-! ## Comparing and catching up -/

/-- Checks that the newest local entry is on the peer with the same timestamp. An empty log agrees with
any other. -/
def compareLog (peer : String) : Work Unit := do
  let id ← inspect (·.position)
  if id ≠ 0 then
    match ← onLog (Log.onStore (Log.readOne id)) with
    | none => throw (.storage (.entryMissing id))
    | some mine =>
      let theirs := (← askEntry peer id).map (·.timestamp)
      if theirs ≠ some mine.timestamp then
        throw (.logMismatch id (some mine.timestamp) theirs)

/-- Pulls one page and applies it. The node has caught up when the page says so and the position has
reached the peer's; a page that moves the position nowhere otherwise ends the work. -/
def catchUpOnce (peer : String) : Work (Unit ⊕ Unit) := do
  let before ← inspect (·.position)
  let chunk ← pull peer before
  if !chunk.entries.isEmpty then
    let _ ← onLog (Log.applyReplicated chunk.entries)
  let after ← inspect (·.position)
  if chunk.isCurrent && chunk.currid ≤ after then return .inr ()
  if after = before then throw (.consistency (.noProgress peer before chunk.currid))
  return .inl ()

/-- Pulls and applies pages until the node has caught up with the peer. -/
def catchUp (peer : String) : Work Unit := iterate (fun () => catchUpOnce peer) ()

/-! ## Finding the master -/

/-- The master: the peer, or the one node that the peer names as such. -/
def confirmMaster (peer : String) : Work String := do
  let (isMaster, named) ← askStatus peer
  if isMaster then return peer
  if named = "" ∨ named = peer then throw (.config (.noMasterNamed peer))
  let (namedIsMaster, _) ← askStatus named
  if namedIsMaster then return named
  throw (.config (.namedNoMaster peer named))

/-- Follows a master from now on; what the former one pushed is dropped. -/
def retarget (master : String) : Work Unit :=
  change fun _ n => { n.restand (·.follow master) with buffer := n.buffer.clear }

/-- Makes the node known to the master and adopts the master's host table. -/
def register (master : String) : Work Unit := do
  let (url, position) ← inspect fun n => (n.url, n.position)
  match ← call master (.registerRequest url position) with
  | .register _ _ hosts => change fun _ n => { n with hosts := n.hosts.adopt hosts }
  | other => throw (.protocol (.wrongCommand .register other.command))

/-! ## Startup -/

/-- Notes the node's own position in its host table. -/
def touchSelf : Work Unit :=
  change fun now n => { n with hosts := n.hosts.touchSelf n.position now }

/-- Starts a follower up. -/
def startFollower : Work Unit := do
  -- Nothing is applied before the logs are known to agree.
  enter .cold
  let configured ← inspect (·.standing.master)
  compareLog configured
  enter .catchup
  catchUp configured
  -- The configured peer may itself be a follower.
  let master ← confirmMaster configured
  if master ≠ configured then
    retarget master
    compareLog master
  register master
  enter .tailing

/-- Starts a node up. -/
def startup : Work Unit := do
  touchSelf
  if ← inspect (·.standing.isMaster) then enter .master
  else startFollower

end LogShipping.Lifecycle
