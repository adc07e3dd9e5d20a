import LogShipping.Lifecycle
import LogShipping.Proofs.Host.Notes
import LogShipping.Proofs.Log.Holding

/-!
# The steps of the lifecycle

Whatever a node is set to do, each step of it is one of a few (`Node.Stride`): it looks, notes something
of other hosts, enters a phase, reads an entry, takes entries from the buffer, applies entries, follows
another master, or elects. Most work takes calm steps only (`Node.Calm`): they leave alone who the node
is, what role it has, whom it follows and which phase it is in, and its host table grows. Much of that
work only takes notes of hosts (`Node.Notes`). Nothing but a drain takes entries out of the buffer
(`Node.Undrained`).

This needs no assumption at all on what comes back from peers or on what happens between two steps, so
it is said here once of every function (`Activity.Steps`), and what steps of a kind keep is kept by all
work that takes only such steps.

A step is what the program does between two points at which it may be interrupted, with one exception:
to follow another master is taken as one step here, though role and buffer are set under two locks. The
halves are treated in `Proofs.Activity.Racing`. An application of entries is one step too; it holds the
lock of the log from beginning to end, but its position can be read meanwhile (`Proofs.World.Midway`).
-/

namespace LogShipping

/-! ## Kinds of steps -/

/-- What one step of the lifecycle makes of its node. -/
inductive Node.Stride (n : Node) : Node → Prop where
  /-- It looks at the node. -/
  | stay : n.Stride n
  /-- It changes what the node knows of hosts. -/
  | note (hosts : HostTable) : n.Stride { n with hosts := hosts }
  /-- It enters a phase. -/
  | enter (phase : Phase) : n.Stride { n with phase := phase }
  /-- It reads an entry. -/
  | read (id : LogId) : n.Stride (n.onLog (Log.onStore (Log.readOne id))).2
  /-- It takes entries that were pushed out of the buffer. -/
  | drain : n.Stride { n with buffer := (n.buffer.drain n.position).2 }
  /-- It applies entries. -/
  | apply (entries : List Entry) : n.Stride (n.onLog (Log.applyReplicated entries)).2
  /-- It follows another master from now on. -/
  | retarget (master : String) :
    n.Stride { n.restand (·.follow master) with buffer := n.buffer.clear }
  /-- It elects a master. -/
  | elect (cutoff : Instant) : n.Stride (n.elect cutoff).2

/-- Two nodes are of one address, with the same settings and the same master. -/
structure Node.Akin (n n' : Node) : Prop where
  url : n'.url = n.url
  settings : n'.settings = n.settings
  self : n'.hosts.self = n.hosts.self
  isMaster : n'.standing.isMaster = n.standing.isMaster
  master : n'.standing.master = n.standing.master

theorem Node.Akin.refl (n : Node) : n.Akin n := ⟨rfl, rfl, rfl, rfl, rfl⟩

theorem Node.Akin.trans {n n' n'' : Node} (h : n.Akin n') (h' : n'.Akin n'') : n.Akin n'' where
  url := h'.url.trans h.url
  settings := h'.settings.trans h.settings
  self := h'.self.trans h.self
  isMaster := h'.isMaster.trans h.isMaster
  master := h'.master.trans h.master

theorem Node.akin_onLog {α : Type} (n : Node) {work : LogWork α}
    (h : Ensures work n.log fun _ log => log.standing = n.log.standing) :
    n.Akin (n.onLog work).2 := by
  have hstanding : (n.onLog work).2.standing = n.standing := h
  exact ⟨congrArg Standing.self hstanding, rfl, rfl, congrArg Standing.isMaster hstanding,
    congrArg Standing.master hstanding⟩

/-- A step that looks at the node or notes something of hosts. -/
def Node.Notes (n n' : Node) : Prop := ∃ hosts, n.hosts.Grows hosts ∧ n' = { n with hosts := hosts }

/-- A step that looks at the node or observes hosts. -/
def Node.Observes (n n' : Node) : Prop :=
  ∃ hosts, n.hosts.Gains hosts ∧ n' = { n with hosts := hosts }

/-- A step of the lifecycle that takes in news, of hosts or of entries, and changes nothing else. -/
structure Node.Calm (n n' : Node) : Prop extends n.Akin n' where
  stride : n.Stride n'
  phase : n'.phase = n.phase
  grows : n.hosts.Grows n'.hosts

/-- A calm step that leaves the buffer alone. -/
structure Node.News (n n' : Node) : Prop extends n.Calm n' where
  buffer : n'.buffer = n.buffer

/-- A step that takes nothing out of the buffer, unless it empties it. -/
structure Node.Undrained (n n' : Node) : Prop where
  stride : n.Stride n'
  buffer : n'.buffer = n.buffer ∨ n'.buffer = n.buffer.clear

instance Node.instReflStride : Std.Refl Node.Stride := ⟨fun _ => .stay⟩

instance Node.instReflNotes : Std.Refl Node.Notes :=
  ⟨fun n => ⟨n.hosts, HostTable.Grows.refl n.hosts, rfl⟩⟩

instance Node.instReflObserves : Std.Refl Node.Observes :=
  ⟨fun n => ⟨n.hosts, HostTable.Gains.refl n.hosts, rfl⟩⟩

instance Node.instReflCalm : Std.Refl Node.Calm :=
  ⟨fun n => ⟨.refl n, .stay, rfl, HostTable.Grows.refl n.hosts⟩⟩

instance Node.instReflNews : Std.Refl Node.News := ⟨fun n => ⟨Std.Refl.refl n, rfl⟩⟩

instance Node.instReflUndrained : Std.Refl Node.Undrained := ⟨fun _ => ⟨.stay, Or.inl rfl⟩⟩

namespace Node

theorem Notes.calm {n n' : Node} (h : n.Notes n') : n.Calm n' := by
  obtain ⟨hosts, hgrows, rfl⟩ := h
  exact ⟨⟨rfl, rfl, hgrows.self, rfl, rfl⟩, .note hosts, rfl, hgrows⟩

theorem Notes.news {n n' : Node} (h : n.Notes n') : n.News n' := by
  refine ⟨h.calm, ?_⟩
  obtain ⟨hosts, -, rfl⟩ := h
  rfl

theorem News.undrained {n n' : Node} (h : n.News n') : n.Undrained n' := ⟨h.stride, Or.inl h.buffer⟩

theorem undrained_elect (n : Node) (cutoff : Instant) : n.Undrained (n.elect cutoff).2 := by
  refine ⟨.elect cutoff, Or.inl ?_⟩
  unfold elect
  split
  · split <;> rfl
  · rfl

theorem Observes.notes {n n' : Node} (h : n.Observes n') : n.Notes n' := by
  obtain ⟨hosts, hgains, rfl⟩ := h
  exact ⟨hosts, hgains.grows, rfl⟩

theorem observes_observe (n : Node) (url : String) (position : LogId) (seen : Instant) :
    n.Observes { n with hosts := n.hosts.observe url position seen } :=
  ⟨_, HostTable.gains_observe n.hosts url position seen, rfl⟩

theorem notes_observe (n : Node) (url : String) (position : LogId) (seen : Instant) :
    n.Notes { n with hosts := n.hosts.observe url position seen } :=
  (n.observes_observe url position seen).notes

theorem calm_read (n : Node) (id : LogId) : n.Calm (n.onLog (Log.onStore (Log.readOne id))).2 :=
  ⟨n.akin_onLog rfl, .read id, rfl, HostTable.Grows.refl n.hosts⟩

theorem calm_drain (n : Node) : n.Calm { n with buffer := (n.buffer.drain n.position).2 } :=
  ⟨⟨rfl, rfl, rfl, rfl, rfl⟩, .drain, rfl, HostTable.Grows.refl n.hosts⟩

theorem calm_apply (n : Node) (entries : List Entry) :
    n.Calm (n.onLog (Log.applyReplicated entries)).2 :=
  ⟨n.akin_onLog (Log.ensures_applyReplicated_standing entries), .apply entries, rfl,
    HostTable.Grows.refl n.hosts⟩

end Node

/-- The notes of all that took the host table are one note. -/
theorem Lifecycle.exists_noteReached (now : Instant) (answers : List (String × Except Error Message))
    (n : Node) :
    ∃ hosts, n.hosts.Gains hosts ∧ (noteReached now answers n).2 = { n with hosts := hosts } := by
  refine List.foldlRecOn (motive := fun acc : Nat × Node => ∃ hosts, n.hosts.Gains hosts ∧
    acc.2 = { n with hosts := hosts }) answers _ ⟨n.hosts, HostTable.Gains.refl n.hosts, rfl⟩ ?_
  rintro ⟨count, _⟩ ⟨hosts, hgains, rfl⟩ ⟨peer, reply⟩ -
  dsimp only
  split
  · exact ⟨_, hgains.trans (HostTable.gains_observe hosts _ 0 now), rfl⟩
  · exact ⟨hosts, hgains, rfl⟩

/-! ## Activities that take steps of a kind -/

namespace Activity

/-- Each step that an activity takes on its node is of some kind, and no call of it pushes an entry,
whatever comes back. -/
def Steps (acts : Node → Node → Prop) : {α : Type} → Activity Node α → Prop
  | _, .done _ => True
  | _, .atomic work resume => (∀ now n, acts n (work now n).2) ∧ ∀ result, Steps acts (resume result)
  | _, .call _ m resume => m.command ≠ .pushTransaction ∧ ∀ reply, Steps acts (resume reply)
  | _, .callAll _ m resume => m.command ≠ .pushTransaction ∧ ∀ replies, Steps acts (resume replies)
  | _, .pause _ resume => ∀ stopped, Steps acts (resume stopped)
  | _, .loop body _ resume => (∀ t, Steps acts (body t)) ∧ ∀ result, Steps acts (resume result)

namespace Steps

variable {acts acts' : Node → Node → Prop} {α β : Type}

theorem mono {a : Activity Node α} (h : a.Steps acts) (himp : ∀ {n n'}, acts n n' → acts' n n') :
    a.Steps acts' := by
  induction a with
  | done value => trivial
  | atomic work resume ih => exact ⟨fun now n => himp (h.1 now n), fun result => ih result (h.2 result)⟩
  | call peer m resume ih => exact ⟨h.1, fun reply => ih reply (h.2 reply)⟩
  | callAll peers m resume ih => exact ⟨h.1, fun replies => ih replies (h.2 replies)⟩
  | pause duration resume ih => exact fun stopped => ih stopped (h stopped)
  | loop body start resume ihbody ih =>
    exact ⟨fun t => ihbody t (h.1 t), fun result => ih result (h.2 result)⟩

theorem bind {a : Activity Node α} {next : α → Activity Node β} (h : a.Steps acts)
    (hnext : ∀ value, (next value).Steps acts) : (a.bind next).Steps acts := by
  induction a with
  | done value => exact hnext value
  | atomic work resume ih => exact ⟨h.1, fun result => ih result (h.2 result) hnext⟩
  | call peer m resume ih => exact ⟨h.1, fun reply => ih reply (h.2 reply) hnext⟩
  | callAll peers m resume ih => exact ⟨h.1, fun replies => ih replies (h.2 replies) hnext⟩
  | pause duration resume ih => exact fun stopped => ih stopped (h stopped) hnext
  | loop body start resume _ ih => exact ⟨h.1, fun result => ih result (h.2 result) hnext⟩

/-- The first round of a loop, written out, takes the steps of the loop. -/
theorem unfoldLoop {τ ρ : Type} {body : τ → Activity Node (τ ⊕ ρ)} {start : τ}
    {resume : ρ → Activity Node α} (h : (Activity.loop body start resume).Steps acts) :
    (Activity.unfoldLoop body start resume).Steps acts := by
  refine bind (h.1 start) ?_
  rintro (next | result)
  · exact h
  · exact h.2 result

end Steps

end Activity

/-- Each step of some work is of some kind. -/
def Work.Steps (acts : Node → Node → Prop) {α : Type} (work : Work α) : Prop :=
  Activity.Steps acts work.run

namespace Work.Steps

variable {acts acts' : Node → Node → Prop} {α β : Type}

/-! ### Rules -/

theorem mono {work : Work α} (h : work.Steps acts) (himp : ∀ {n n'}, acts n n' → acts' n n') :
    work.Steps acts' := Activity.Steps.mono h himp

theorem pure (a : α) : Work.Steps acts (Pure.pure a : Work α) := trivial

theorem fail {error : Error} : Work.Steps acts (throw error : Work α) := trivial

theorem bind {work : Work α} {next : α → Work β} (h : work.Steps acts)
    (hnext : ∀ a, (next a).Steps acts) : Work.Steps acts (work >>= next) := by
  refine Activity.Steps.bind h ?_
  rintro (error | a)
  · trivial
  · exact hnext a

theorem outcome {work : Work α} (h : work.Steps acts) : (Work.outcome work).Steps acts :=
  Activity.Steps.bind h fun _ => trivial

theorem onNode {work : Instant → Node → α × Node} (h : ∀ now n, acts n (work now n).2) :
    (Work.onNode work).Steps acts := ⟨h, fun _ => trivial⟩

theorem onLog {work : LogWork α} (h : ∀ n : Node, acts n (n.onLog work).2) :
    (Work.onLog work).Steps acts := ⟨fun _ n => h n, fun _ => trivial⟩

theorem change {f : Instant → Node → Node} (h : ∀ now n, acts n (f now n)) :
    (Work.change f).Steps acts := onNode h

theorem inspect [Std.Refl acts] (look : Node → α) : (Work.inspect look).Steps acts :=
  onNode fun _ n => Std.Refl.refl n

theorem clock [Std.Refl acts] : Work.clock.Steps acts := onNode fun _ n => Std.Refl.refl n

theorem call {peer : String} {m : Message} (hm : m.command ≠ .pushTransaction) :
    (Work.call peer m).Steps acts := by
  refine ⟨hm, ?_⟩
  rintro (error | answer)
  · trivial
  · show Activity.Steps acts (Work.ofExcept (Message.expect m.command answer)).run
    trivial

theorem callAll {peers : List String} {m : Message} (hm : m.command ≠ .pushTransaction) :
    (Work.callAll peers m).Steps acts := ⟨hm, fun _ => trivial⟩

theorem pause (duration : UInt64) : (Work.pause duration).Steps acts := fun _ => trivial

theorem iterate {τ ρ : Type} {body : τ → Work (τ ⊕ ρ)} {start : τ} (h : ∀ t, (body t).Steps acts) :
    (Work.iterate body start).Steps acts := by
  refine ⟨fun t => Activity.Steps.bind (h t) ?_, fun _ => trivial⟩
  rintro (error | (next | result)) <;> trivial

end Work.Steps

/-! ## Work that takes notes -/

namespace Work

theorem notes_askEntry (peer : String) (id : LogId) : (askEntry peer id).Steps Node.Notes := by
  unfold askEntry
  refine Steps.bind (Steps.call nofun) fun m => ?_
  split
  · exact Steps.pure _
  · exact Steps.fail

theorem notes_of_observes {α : Type} {work : Work α} (h : work.Steps Node.Observes) :
    work.Steps Node.Notes := h.mono Node.Observes.notes

theorem observes_pull (peer : String) (lastSeen : LogId) :
    (pull peer lastSeen).Steps Node.Observes := by
  unfold pull
  refine Steps.bind (Steps.inspect _) fun own => Steps.bind (Steps.call nofun) fun m => ?_
  split
  · exact Steps.bind (Steps.change fun _ n => n.observes_observe _ _ _) fun _ => Steps.pure _
  · exact Steps.fail

theorem notes_pull (peer : String) (lastSeen : LogId) : (pull peer lastSeen).Steps Node.Notes :=
  notes_of_observes (observes_pull peer lastSeen)

theorem notes_askStatus (peer : String) : (askStatus peer).Steps Node.Notes := by
  unfold askStatus
  refine Steps.bind (Steps.call nofun) fun m => ?_
  split
  · exact Steps.bind (Steps.change fun _ n => n.notes_observe _ _ _) fun _ => Steps.pure _
  · exact Steps.fail

end Work

namespace Lifecycle

open Work

theorem notes_confirmMaster (peer : String) : (confirmMaster peer).Steps Node.Notes := by
  unfold confirmMaster
  refine Steps.bind (notes_askStatus peer) ?_
  rintro ⟨isMaster, named⟩
  dsimp only
  split
  · exact Steps.pure _
  · split
    · exact Steps.fail
    · refine Steps.bind (notes_askStatus named) ?_
      rintro ⟨namedIsMaster, _⟩
      dsimp only
      split
      · exact Steps.pure _
      · exact Steps.fail

theorem notes_register (master : String) : (register master).Steps Node.Notes := by
  unfold register
  refine Steps.bind (Steps.inspect _) fun own => Steps.bind (Steps.call nofun) fun m => ?_
  split
  · exact Steps.change fun _ n => ⟨_, HostTable.grows_adopt n.hosts _, rfl⟩
  · exact Steps.fail

theorem observes_touchSelf : touchSelf.Steps Node.Observes :=
  Steps.change fun _ n => n.observes_observe _ _ _

theorem notes_touchSelf : touchSelf.Steps Node.Notes := notes_of_observes observes_touchSelf

theorem notes_hostUpdate : hostUpdate.Steps Node.Notes := by
  unfold hostUpdate
  refine Steps.bind (Steps.inspect _) fun peers => Steps.bind (Steps.callAll nofun) fun replies => ?_
  refine Steps.onNode fun now n => ?_
  obtain ⟨hosts, heq, hgains, -⟩ := noteProbes_spec now (peers.zip replies) n
  exact ⟨hosts, hgains.grows, heq⟩

theorem steps_restAfter {acts : Node → Node → Prop} [Std.Refl acts] (interval : Settings → UInt64)
    (streak : Streak) : (restAfter interval streak).Steps acts := by
  unfold restAfter
  exact Steps.bind (Steps.inspect _) fun _ => Steps.bind (Steps.pause _) fun _ => Steps.pure _

theorem notes_restAfter (interval : Settings → UInt64) (streak : Streak) :
    (restAfter interval streak).Steps Node.Notes := steps_restAfter interval streak

theorem observes_refreshFollowers : refreshFollowers.Steps Node.Observes := by
  unfold refreshFollowers
  refine Steps.bind observes_touchSelf fun _ => Steps.bind (Steps.inspect _) ?_
  rintro ⟨hosts, peers⟩
  refine Steps.bind (Steps.callAll nofun) fun replies => ?_
  refine Steps.onNode fun now n => ?_
  exact exists_noteReached now (peers.zip replies) n

theorem notes_refreshFollowers : refreshFollowers.Steps Node.Notes :=
  notes_of_observes observes_refreshFollowers

theorem observes_masterRound : masterRound.Steps Node.Observes := by
  unfold masterRound
  refine Steps.bind (Steps.inspect _) fun shutDown => ?_
  split
  · exact Steps.pure _
  · exact Steps.bind observes_refreshFollowers fun _ => Steps.bind (Steps.inspect _) fun _ =>
      Steps.bind (Steps.pause _) fun _ => Steps.pure _

theorem notes_masterRound : masterRound.Steps Node.Notes := notes_of_observes observes_masterRound

/-! ## Calm work -/

theorem news_of_notes {α : Type} {work : Work α} (h : work.Steps Node.Notes) :
    work.Steps Node.News := h.mono Node.Notes.news

theorem calm_of_news {α : Type} {work : Work α} (h : work.Steps Node.News) :
    work.Steps Node.Calm := h.mono fun hnews => hnews.toCalm

theorem calm_of_notes {α : Type} {work : Work α} (h : work.Steps Node.Notes) :
    work.Steps Node.Calm := h.mono Node.Notes.calm

theorem news_apply (entries : List Entry) : (onLog (Log.applyReplicated entries)).Steps Node.News :=
  Steps.onLog fun n => ⟨n.calm_apply entries, rfl⟩

theorem calm_apply (entries : List Entry) : (onLog (Log.applyReplicated entries)).Steps Node.Calm :=
  calm_of_news (news_apply entries)

theorem news_compareLog (peer : String) : (compareLog peer).Steps Node.News := by
  unfold compareLog
  refine Steps.bind (Steps.inspect _) fun id => ?_
  split
  · refine Steps.bind (Steps.onLog fun n => ⟨n.calm_read id, rfl⟩) fun entry => ?_
    split
    · exact Steps.fail
    · refine Steps.bind (news_of_notes (notes_askEntry peer id)) fun theirs => ?_
      dsimp only
      split
      · exact Steps.fail
      · exact Steps.pure _
  · exact Steps.pure _

theorem news_catchUpOnce (peer : String) : (catchUpOnce peer).Steps Node.News := by
  unfold catchUpOnce
  have hrest (before : LogId) (chunk : Chunk) : Work.Steps Node.News (do
      let after ← Work.inspect (·.position)
      if chunk.isCurrent && chunk.currid ≤ after then return .inr ()
      if after = before then throw (.consistency (.noProgress peer before chunk.currid))
      return (.inl () : Unit ⊕ Unit)) := by
    refine Steps.bind (Steps.inspect _) fun after => ?_
    split
    · exact Steps.pure _
    · split
      · exact Steps.fail
      · exact Steps.pure _
  refine Steps.bind (Steps.inspect _) fun before => ?_
  refine Steps.bind (news_of_notes (notes_pull peer before)) fun chunk => ?_
  dsimp only
  split
  · exact Steps.bind (news_apply _) fun _ => hrest before chunk
  · exact hrest before chunk

theorem news_catchUp (peer : String) : (catchUp peer).Steps Node.News :=
  Steps.iterate fun _ => news_catchUpOnce peer

/-- What pulling and applying is made of: observations and applications. -/
theorem steps_pullAndApply {acts : Node → Node → Prop} [Std.Refl acts]
    (hobserve : ∀ {n n' : Node}, n.Observes n' → acts n n')
    (happly : ∀ entries (n : Node), acts n (n.onLog (Log.applyReplicated entries)).2)
    (master : String) : (pullAndApply master).Steps acts := by
  unfold pullAndApply
  have hrest (before : LogId) : Work.Steps acts (do
      return (← Work.inspect (·.position)) - before) :=
    Steps.bind (Steps.inspect _) fun _ => Steps.pure _
  refine Steps.bind (Steps.inspect _) fun before => ?_
  refine Steps.bind ((observes_pull master before).mono hobserve) fun chunk => ?_
  dsimp only
  split
  · refine Steps.bind (Steps.outcome (Steps.onLog (happly _))) fun r => ?_
    split
    · exact hrest before
    · split
      · exact Steps.fail
      · exact hrest before
  · exact hrest before

theorem news_pullAndApply (master : String) : (pullAndApply master).Steps Node.News :=
  steps_pullAndApply (fun h => h.notes.news) (fun entries n => ⟨n.calm_apply entries, rfl⟩) master

theorem calm_compareLog (peer : String) : (compareLog peer).Steps Node.Calm :=
  calm_of_news (news_compareLog peer)

theorem calm_catchUp (peer : String) : (catchUp peer).Steps Node.Calm :=
  calm_of_news (news_catchUp peer)

theorem calm_pullAndApply (master : String) : (pullAndApply master).Steps Node.Calm :=
  calm_of_news (news_pullAndApply master)

/-- What a drain is made of: what is taken out of the buffer, and an application. -/
theorem steps_drainPushed {acts : Node → Node → Prop}
    (hdrain : ∀ n : Node, acts n { n with buffer := (n.buffer.drain n.position).2 })
    (happly : ∀ entries (n : Node), acts n (n.onLog (Log.applyReplicated entries)).2) :
    drainPushed.Steps acts := by
  unfold drainPushed
  refine Steps.bind (Steps.onNode fun _ n => hdrain n) fun drained => ?_
  cases drained with
  | none => exact Steps.fail
  | some ready =>
    dsimp only
    split
    · exact Steps.pure _
    · refine Steps.bind (Steps.outcome (Steps.onLog (happly _))) fun r => ?_
      split
      · exact Steps.pure _
      · split
        · exact Steps.pure _
        · exact Steps.fail

theorem calm_drainPushed : drainPushed.Steps Node.Calm :=
  steps_drainPushed Node.calm_drain fun entries n => n.calm_apply entries

/-! ## All of the lifecycle -/

theorem undrained_of_news {α : Type} {work : Work α} (h : work.Steps Node.News) :
    work.Steps Node.Undrained := h.mono Node.News.undrained

theorem undrained_of_notes {α : Type} {work : Work α} (h : work.Steps Node.Notes) :
    work.Steps Node.Undrained := undrained_of_news (news_of_notes h)

theorem undrained_enter (phase : Phase) : (enter phase).Steps Node.Undrained :=
  Steps.change fun _ _ => ⟨.enter phase, Or.inl rfl⟩

theorem undrained_retarget (master : String) : (retarget master).Steps Node.Undrained :=
  Steps.change fun _ _ => ⟨.retarget master, Or.inr rfl⟩

theorem undrained_startFollower : startFollower.Steps Node.Undrained := by
  unfold startFollower
  refine Steps.bind (undrained_enter _) fun _ => Steps.bind (Steps.inspect _) fun configured => ?_
  refine Steps.bind (undrained_of_news (news_compareLog configured)) fun _ => ?_
  refine Steps.bind (undrained_enter _) fun _ => ?_
  refine Steps.bind (undrained_of_news (news_catchUp configured)) fun _ => ?_
  refine Steps.bind (undrained_of_notes (notes_confirmMaster configured)) fun master => ?_
  have hrest : Work.Steps Node.Undrained (do register master; enter .tailing) :=
    Steps.bind (undrained_of_notes (notes_register master)) fun _ => undrained_enter _
  dsimp only
  split
  · refine Steps.bind (undrained_retarget master) fun _ => ?_
    exact Steps.bind (undrained_of_news (news_compareLog master)) fun _ => hrest
  · exact hrest

theorem undrained_startup : startup.Steps Node.Undrained := by
  unfold startup
  refine Steps.bind (undrained_of_notes notes_touchSelf) fun _ => ?_
  refine Steps.bind (Steps.inspect _) fun isMaster => ?_
  split
  · exact undrained_enter _
  · exact undrained_startFollower

theorem undrained_elect (cutoff : Instant) : (elect cutoff).Steps Node.Undrained := by
  unfold elect
  refine Steps.bind (undrained_of_notes notes_touchSelf) fun _ => ?_
  exact Steps.bind (Steps.onNode fun _ n => n.undrained_elect cutoff) fun _ => Steps.pure _

theorem undrained_endStreak (master : String) (since : Instant) :
    (endStreak master since).Steps Node.Undrained := by
  unfold endStreak
  have hrest : (restAfter (·.idleInterval) {}).Steps Node.Undrained :=
    undrained_of_notes (notes_restAfter _ _)
  refine Steps.bind (undrained_elect since) fun winner => ?_
  split
  · refine Steps.bind (Steps.inspect _) fun own => ?_
    split
    · exact Steps.pure _
    · split
      · exact Steps.bind (undrained_retarget _) fun _ => hrest
      · exact hrest
  · exact hrest

theorem undrained_noteFailure (master : String) (streak : Streak) :
    (noteFailure master streak).Steps Node.Undrained := by
  unfold noteFailure
  refine Steps.bind Steps.clock fun now => Steps.bind (Steps.inspect _) fun settings => ?_
  have hrest (failures : UInt32) (since : Instant) : Work.Steps Node.Undrained
      (if settings.electionThreshold ≤ failures then endStreak master since
        else restAfter (·.idleInterval) { failures := failures, since := some since }) := by
    split
    · exact undrained_endStreak master since
    · exact undrained_of_notes (notes_restAfter _ _)
  dsimp only
  split
  · exact Steps.bind (undrained_of_notes notes_hostUpdate) fun _ => hrest _ _
  · exact hrest _ _

/-- What a pass does when it has drained the buffer. -/
theorem undrained_tailPass (streak : Streak) : Work.Steps Node.Undrained (do
    let master ← Work.inspect (·.standing.master)
    match ← outcome (pullAndApply master) with
    | .ok moved => restAfter (if moved = 0 then (·.idleInterval) else (·.busyInterval)) {}
    | .error .cancelled => return (.inr .shutdown : Streak ⊕ TailEnd)
    | .error error => if error.isRecoverable then noteFailure master streak else throw error) := by
  refine Steps.bind (Steps.inspect _) fun master => ?_
  refine Steps.bind (Steps.outcome (undrained_of_news (news_pullAndApply master))) fun r => ?_
  split
  · exact undrained_of_notes (notes_restAfter _ _)
  · exact Steps.pure _
  · split
    · exact undrained_noteFailure _ _
    · exact Steps.fail

theorem undrained_masterLoop : masterLoop.Steps Node.Undrained := by
  unfold masterLoop
  exact Steps.bind (undrained_enter _) fun _ =>
    Steps.iterate fun _ => undrained_of_notes notes_masterRound

/-! ### Strides -/

theorem strides_of_undrained {α : Type} {work : Work α} (h : work.Steps Node.Undrained) :
    work.Steps Node.Stride := h.mono fun hundrained => hundrained.stride

theorem strides_of_calm {α : Type} {work : Work α} (h : work.Steps Node.Calm) :
    work.Steps Node.Stride := h.mono fun hcalm => hcalm.stride

theorem strides_of_notes {α : Type} {work : Work α} (h : work.Steps Node.Notes) :
    work.Steps Node.Stride := strides_of_calm (calm_of_notes h)

theorem strides_enter (phase : Phase) : (enter phase).Steps Node.Stride :=
  strides_of_undrained (undrained_enter phase)

theorem strides_retarget (master : String) : (retarget master).Steps Node.Stride :=
  strides_of_undrained (undrained_retarget master)

theorem strides_startup : startup.Steps Node.Stride := strides_of_undrained undrained_startup

theorem strides_tailPass (streak : Streak) : (tailPass streak).Steps Node.Stride := by
  unfold tailPass
  refine Steps.bind (Steps.inspect _) fun standing => ?_
  split
  · exact Steps.pure _
  · split
    · exact Steps.pure _
    · exact Steps.bind (strides_of_calm calm_drainPushed) fun _ =>
        strides_of_undrained (undrained_tailPass streak)

theorem strides_tail : tail.Steps Node.Stride := by
  unfold tail
  exact Steps.bind (strides_enter _) fun _ => Steps.iterate strides_tailPass

theorem strides_masterLoop : masterLoop.Steps Node.Stride := strides_of_undrained undrained_masterLoop

theorem strides_follow : follow.Steps Node.Stride := by
  unfold follow
  refine Steps.bind (Steps.inspect _) fun isMaster => ?_
  split
  · exact Steps.pure _
  · exact strides_tail

theorem strides_run : run.Steps Node.Stride := by
  unfold run
  refine Steps.bind (Steps.outcome strides_startup) fun r => ?_
  split
  · exact strides_enter _
  · exact Steps.bind (strides_enter _) fun _ => Steps.fail
  · refine Steps.bind strides_follow fun ending => ?_
    split
    · exact strides_enter _
    · exact Steps.bind strides_masterLoop fun _ => strides_enter _

end Lifecycle

end LogShipping
