import LogShipping.Lifecycle.Tailing

/-!
# The lifecycle of a node

A node starts up, follows its master until it is promoted, and then acts as master until it is told
to stop. A master distributes its host table to the other hosts at a fixed interval.
-/

namespace LogShipping.Lifecycle

open Work

/-! ## Acting as master -/

/-- Notes the peers that took the host table; the result is how many did. -/
def noteReached (now : Instant) (answers : List (String × Except Error Message)) (n : Node) :
    Nat × Node :=
  answers.foldl (fun (count, n) answer =>
    match answer with
    | (peer, .ok _) => (count + 1, { n with hosts := n.hosts.observe peer 0 now })
    | _ => (count, n)) (0, n)

/-- Sends the host table to every known peer; the result is how many took it. -/
def refreshFollowers : Work Nat := do
  touchSelf
  let (hosts, peers) ← inspect fun n => (n.hosts.toList, n.hosts.peers)
  let replies ← callAll peers (.setHosts hosts)
  onNode fun now n => noteReached now (peers.zip replies) n

/-- One round of a master's duties. -/
def masterRound : Work (Unit ⊕ Unit) := do
  if ← inspect (·.standing.shutDown) then return .inr ()
  let _ ← refreshFollowers
  let stopped ← pause (← inspect (·.settings.refreshInterval))
  return if stopped then .inr () else .inl ()

/-- Acts as master until the node is told to stop. -/
def masterLoop : Work Unit := do
  enter .master
  iterate (fun () => masterRound) ()

/-! ## From start to stop -/

/-- Tails if the node is a follower. -/
def follow : Work TailEnd := do
  if ← inspect (·.standing.isMaster) then return .promoted else tail

/-- The whole life of a node. -/
def run : Work Unit := do
  match ← outcome startup with
  | .error .cancelled => enter .stopped
  | .error error =>
    enter .stopped
    throw error
  | .ok () =>
    match ← follow with
    | .shutdown => enter .stopped
    | .promoted =>
      masterLoop
      enter .stopped

end LogShipping.Lifecycle
