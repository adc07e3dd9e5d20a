import LogShipping.Cluster.Control
import LogShipping.Lifecycle

/-!
# Timelines

Runs an activity of one node inside a cluster. Pauses take no real time: a timeline has its own
milliseconds, which pass only while the activity pauses or waits for an answer that does not come.
While it waits the cluster settles, and at set times other things happen to it. At the end of the
timeline the activity is left where it waits. An activity that outlives its node, because the node was
closed or replaced, goes on with what the node was.
-/

namespace LogShipping.Cluster

variable {α ε ω ρ : Type}

/-! ## Actors -/

/-- The node that an activity belongs to. -/
structure Actor where
  /-- The address of the node. -/
  url : String
  /-- The node itself, once it is gone from the cluster. -/
  gone : Option Node := none

namespace Actor

/-- The node as it stands. -/
def node? (actor : Actor) (c : Cluster) : Option Node := actor.gone <|> c.node? actor.url

/-- Whether the node was told to stop, or is not there. -/
def stopped (actor : Actor) (c : Cluster) : Bool :=
  match actor.node? c with
  | some n => n.standing.shutDown
  | none => true

/-- Works on the node. -/
def act (actor : Actor) (work : Node → α × Node) (c : Cluster) : Option (α × Actor × Cluster) :=
  match actor.gone with
  | some n =>
    let (value, n) := work n
    let (n, c) := c.collect actor.url n
    some (value, { actor with gone := some n }, c)
  | none =>
    match onNode actor.url work c with
    | (some value, c) => some (value, actor, c)
    | (none, _) => none

/-- The actor after nodes have left the cluster; `before` is how many had left it until then. -/
def outlive (actor : Actor) (before : Nat) (c : Cluster) : Actor :=
  if actor.gone.isSome then actor
  else
    let gone := c.gone.take (c.gone.length - before)
    { actor with gone := gone.reverse.find? fun n => n.url == actor.url }

end Actor

/-! ## Running up to the next wait -/

/-- Where an activity comes to a halt. -/
inductive Halt (α : Type) : Type 1 where
  /-- It has ended. -/
  | done (value : α)
  /-- It pauses. -/
  | paused (duration : Nat) (resume : Bool → Activity Node α)
  /-- It waits for an answer that does not come; it may be able to go on when the node is told to
  stop. -/
  | hanging (resume : Option (Activity Node α))
  /-- It ran out of steps, or its node does not exist. -/
  | lost

/-- Sends a message to peers one after another; the result is nothing if one of them never answers. All
of them are sent to in any case. -/
def sendAll (m : Message) : List String → ClusterWork (Option (List (Except Error Message)))
  | [] => return some []
  | peer :: rest => do
    let reply ← send peer m
    let replies ← sendAll m rest
    return reply.bind fun reply => replies.map (reply :: ·)

/-- Runs an activity until it halts, for at most `steps` steps. -/
def advance : (steps : Nat) → Actor → Activity Node α → Cluster → Halt α × Actor × Cluster
  | 0, actor, _, c => (.lost, actor, c)
  | steps + 1, actor, activity, c =>
    match activity with
    | .done value => (.done value, actor, c)
    | .atomic work resume =>
      match actor.act (work c.now) c with
      | some (value, actor, c) => advance steps actor (resume value) c
      | none => (.lost, actor, c)
    | .call peer m resume =>
      if actor.stopped c then advance steps actor (resume (.error .cancelled)) c
      else
        match send peer m c with
        | (some reply, c) => advance steps actor (resume reply) c
        | (none, c) => (.hanging (some (resume (.error .cancelled))), actor, c)
    | .callAll peers m resume =>
      match sendAll m peers c with
      | (some replies, c) => advance steps actor (resume replies) c
      | (none, c) => (.hanging none, actor, c)
    | .pause duration resume => (.paused duration.toNat resume, actor, c)
    | .loop body start resume => advance steps actor (Activity.unfoldLoop body start resume) c

/-- The number of steps that an activity may take before it halts. -/
def stepLimit : Nat := 1000000000

/-- Runs work of a node that does not wait; nothing if it does. -/
def perform (url : String) (work : Work α) : ClusterWork (Option (Except Error α)) := fun c =>
  match advance stepLimit ⟨url, none⟩ work.run c with
  | (.done result, _, c) => (some result, c)
  | (_, _, c) => (none, c)

/-! ## Waiting -/

/-- Something that happened while an activity waited. -/
structure Happening (ρ : Type) where
  /-- The messages sent since the previous happening. -/
  sentBefore : List Sent
  /-- What there is to say about it. -/
  report : ρ

/-- What is planned for a cluster during a timeline. -/
structure Plan (ε ω ρ : Type) where
  /-- The end of the timeline. -/
  limit : Nat
  /-- Whether the activity runs by itself, so that one that an event wakes goes on before there is a
  report on that event. -/
  apart : Bool
  /-- How something happens. -/
  occur : ε → ClusterWork ω
  /-- The report on what happened, which covers the messages sent because of it. -/
  report : ω → ClusterWork ρ

/-- Where a timeline has come to. -/
structure Moment (ε ω ρ : Type) where
  /-- The time. -/
  time : Nat
  /-- What is still to happen, with its times, in order. -/
  ahead : List (Nat × ε)
  /-- What has happened, in order. -/
  past : List (Happening ρ) := []
  /-- What has happened since without a report, after the messages sent before it. -/
  pending : Option (List Sent × ω) := none
  /-- The actor. -/
  actor : Actor
  /-- The cluster. -/
  cluster : Cluster

/-- Why a wait is over. -/
inductive Waking where
  /-- The time has come. -/
  | elapsed
  /-- The node was told to stop. -/
  | stopped
  /-- The timeline is over. -/
  | expired
  deriving DecidableEq, Repr

namespace Moment

/-- Makes the report that is still to be made. -/
def conclude (plan : Plan ε ω ρ) (m : Moment ε ω ρ) : Moment ε ω ρ :=
  match m.pending with
  | none => m
  | some (sentBefore, outcome) =>
    let (report, c) := (plan.report outcome).run m.cluster
    { m with
      past := m.past ++ [⟨sentBefore, report⟩]
      pending := none
      cluster := { c with sent := [] } }

/-- Lets something happen, and reports on it unless the activity goes on first. -/
def happen (plan : Plan ε ω ρ) (heedsStop : Bool) (time : Nat) (event : ε) (rest : List (Nat × ε))
    (m : Moment ε ω ρ) : Moment ε ω ρ :=
  let (outcome, c) := (plan.occur event).run { m.cluster with sent := [] }
  let actor := m.actor.outlive m.cluster.gone.length c
  let m : Moment ε ω ρ :=
    { m with
      time := time
      ahead := rest
      pending := some (m.cluster.sent, outcome)
      actor := actor
      cluster := c }
  if plan.apart && heedsStop && actor.stopped c then m else m.conclude plan

end Moment

/-- Whether a time comes before the end of a wait that has no end or ends at `wake`. -/
def precedes (time : Nat) (wake : Option Nat) : Bool := wake.all (time < ·)

/-- Waits until the time `wake`, if there is one, or the end of the timeline, or until the node is told
to stop if the wait heeds that. Of what falls on the same time, the wait ends first, then things
happen, and the timeline ends last. -/
def wait (plan : Plan ε ω ρ) (wake : Option Nat) (heedsStop : Bool) :
    List (Nat × ε) → Moment ε ω ρ → Waking × Moment ε ω ρ
  | ahead, m =>
    if heedsStop && m.actor.stopped m.cluster then (.stopped, m)
    else
      let ended : Waking × Moment ε ω ρ :=
        match wake with
        | some time =>
          if time ≤ plan.limit then (.elapsed, { m with time := time }) else (.expired, m)
        | none => (.expired, m)
      match ahead with
      | [] => ended
      | (time, event) :: rest =>
        -- An event is due only strictly before the wait ends.
        if time ≤ plan.limit && precedes time wake then
          wait plan wake heedsStop rest (m.happen plan heedsStop time event rest)
        else ended

/-! ## Timelines -/

/-- Runs an activity along a timeline, for at most `waits` waits; the result is nothing when the
timeline is over before the activity is. A pause of no length leaves no room for other work. -/
def follow (plan : Plan ε ω ρ) :
    (waits : Nat) → Activity Node α → Moment ε ω ρ → Option α × Moment ε ω ρ
  | 0, _, m => (none, m)
  | waits + 1, activity, m =>
    let (halt, actor, c) := advance stepLimit m.actor activity m.cluster
    let m := Moment.conclude plan { m with actor := actor, cluster := c }
    let settled := { m with cluster := (settle.run m.cluster).2 }
    match halt with
    | .done value => (some value, m)
    | .lost => (none, m)
    | .paused duration resume =>
      let m := if duration = 0 then m else settled
      match wait plan (some (m.time + duration)) true m.ahead m with
      | (.elapsed, m) => follow plan waits (resume false) m
      | (.stopped, m) => follow plan waits (resume true) m
      | (.expired, m) => (none, m)
    | .hanging resume =>
      match resume, wait plan none resume.isSome m.ahead settled with
      | some activity, (.stopped, m) => follow plan waits activity m
      | _, (_, m) => (none, m)

/-- The number of waits that a timeline has room for. -/
def waitLimit : Nat := 1000000000

/-- What became of an activity on a timeline. -/
structure Course (α ρ : Type) where
  /-- Its result, if it came to one. -/
  result : Option α
  /-- What happened meanwhile, in order. -/
  happenings : List (Happening ρ)

/-- Runs work of a node along a timeline. -/
def live (url : String) (work : Work α) (plan : Plan ε ω ρ) (events : List (Nat × ε)) :
    ClusterWork (Course (Except Error α) ρ) := fun c =>
  let start : Moment ε ω ρ := { time := 0, ahead := events, actor := ⟨url, none⟩, cluster := c }
  let (result, m) := follow plan waitLimit work.run start
  (⟨result, m.past⟩, m.cluster)

end LogShipping.Cluster
