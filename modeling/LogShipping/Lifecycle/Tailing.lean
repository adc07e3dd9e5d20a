import LogShipping.Lifecycle.Startup

/-!
# Tailing

The steady state of a follower: in each pass it applies what was pushed to it and then pulls from its
master. Failed pulls in a row make a streak; at one length of the streak all hosts are probed, at a
greater one a master is elected among the hosts heard of since the streak began, and a new streak
begins.
-/

namespace LogShipping.Lifecycle

open Work

/-! ## Applying and pulling -/

/-- Applies the pushed entries that follow the position; the result is how many were applied. Entries
that do not fit are dropped. -/
def drainPushed : Work Nat := do
  let drained ← onNode fun _ n =>
    let (drained, buffer) := n.buffer.drain n.position
    (drained, { n with buffer := buffer })
  let some ready := drained | throw .overflow
  if ready.isEmpty then return 0
  match ← outcome (onLog (Log.applyReplicated ready)) with
  | .ok applied => return applied
  | .error error => if error.isConsistency then return 0 else throw error

/-- Pulls one page from the master and applies it as far as it fits; the result is how far the
position moved. -/
def pullAndApply (master : String) : Work UInt64 := do
  let before ← inspect (·.position)
  let chunk ← pull master before
  if !chunk.entries.isEmpty then
    match ← outcome (onLog (Log.applyReplicated chunk.entries)) with
    | .ok _ => pure ()
    | .error error => if !error.isConsistency then throw error
  return (← inspect (·.position)) - before

/-! ## Probing and electing -/

/-- Notes the positions of the peers that answered a probe; the result is how many did. -/
def noteProbes (now : Instant) (answers : List (String × Except Error Message)) (n : Node) :
    Nat × Node :=
  answers.foldl (fun (count, n) answer =>
    match answer with
    | (peer, .ok (.status _ logPosition _ _)) =>
      (count + 1, { n with hosts := n.hosts.observe peer logPosition now })
    | _ => (count, n)) (0, n)

/-- Asks every known peer for its status; the result is how many answered. -/
def hostUpdate : Work Nat := do
  let peers ← inspect (·.hosts.peers)
  let replies ← callAll peers .statusRequest
  onNode fun now n => noteProbes now (peers.zip replies) n

/-- Runs the election with the node's own position up to date; the result is the winner's address. -/
def elect (cutoff : Instant) : Work (Option String) := do
  touchSelf
  let winner ← onNode fun _ n => n.elect cutoff
  return winner.map (·.url)

/-! ## Passes -/

/-- Failed pulls in a row. -/
structure Streak where
  /-- How many there are. -/
  failures : UInt32 := 0
  /-- When the first one was noticed. -/
  since : Option Instant := none
  deriving DecidableEq, Repr

/-- Why tailing ends. -/
inductive TailEnd where
  /-- The node is master now. -/
  | promoted
  /-- The node was told to stop. -/
  | shutdown
  deriving DecidableEq, Repr

/-- Rests after a pass. -/
def restAfter (interval : Settings → UInt64) (streak : Streak) : Work (Streak ⊕ TailEnd) := do
  let stopped ← pause (interval (← inspect (·.settings)))
  return if stopped then .inr .shutdown else .inl streak

/-- Ends a streak with an election: the node takes over, follows another winner, or goes on with the
same master. -/
def endStreak (master : String) (since : Instant) : Work (Streak ⊕ TailEnd) := do
  match ← elect since with
  | some winner =>
    if winner = (← inspect (·.url)) then return .inr .promoted
    if winner ≠ master then retarget winner
  | none => pure ()
  restAfter (·.idleInterval) {}

/-- Counts a failed pull, and acts on it if the streak has come to a threshold. -/
def noteFailure (master : String) (streak : Streak) : Work (Streak ⊕ TailEnd) := do
  -- The first failure of a streak sets the time that an election looks back to.
  let failures := streak.failures + 1
  let since := streak.since.getD (← clock)
  let settings ← inspect (·.settings)
  if failures = settings.hostUpdateThreshold then
    let _ ← hostUpdate
  if settings.electionThreshold ≤ failures then endStreak master since
  else restAfter (·.idleInterval) { failures := failures, since := some since }

/-- One pass of tailing. -/
def tailPass (streak : Streak) : Work (Streak ⊕ TailEnd) := do
  let standing ← inspect (·.standing)
  if standing.shutDown then return .inr .shutdown
  if standing.isMaster then return .inr .promoted
  let _ ← drainPushed
  let master ← inspect (·.standing.master)
  match ← outcome (pullAndApply master) with
  | .ok moved => restAfter (if moved = 0 then (·.idleInterval) else (·.busyInterval)) {}
  | .error .cancelled => return .inr .shutdown
  | .error error => if error.isRecoverable then noteFailure master streak else throw error

/-- Follows the master until the node is promoted or told to stop. -/
def tail : Work TailEnd := do
  enter .tailing
  iterate tailPass {}

end LogShipping.Lifecycle
