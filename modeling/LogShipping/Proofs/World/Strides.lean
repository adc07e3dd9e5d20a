import LogShipping.Proofs.Activity.Steps
import LogShipping.Proofs.World.Reachable

/-!
# What may happen to a node

Whatever a node is set to do, each step of it is one of the lifecycle (`Node.Stride`), whatever the net
does meanwhile. Apart from such steps, a node can only commit, be opened anew, or go through what leaves
its log, its role and its phase alone (`World.Turn`); so what holds of a node after any event is a
matter of these four cases.

That tasks consist of strides is shown once for all activities (`steps_activity`), with nothing relied
on: the discipline has no terms but that every step is a stride. So it holds in every world, good or
not, and later modules read off from it which fields of a node an event can have changed.

A stride is as small as the activity makes it, and one that turns to another master is a single one.
Commits and restarts are whole as well.
-/

namespace LogShipping

namespace Net

/-- Steps of the lifecycle, whatever happens between them and whatever peers answer. -/
def striding : Discipline where
  rely _ _ _ := True
  acts url u v := ∃ n n', u.node? url = some n ∧ v = u.put url n' ∧ n.Stride n'
  asks _ _ _ m := m.command ≠ .pushTransaction
  hears _ _ _ _ _ := True
  rely_refl := fun _ => trivial
  rely_trans := fun _ _ => trivial

namespace Strides

open Discipline Lifecycle

variable {url : String}

/-- An activity that takes steps of the lifecycle takes them in every net. -/
theorem of_steps {α : Type} {a : Activity Node α} (h : a.Steps Node.Stride) (u : Net) :
    striding.Sound url a (fun _ _ => True) u := by
  induction a generalizing u with
  | done value => exact fun _ _ => trivial
  | atomic work resume ih =>
    intro v n _ hn
    exact ⟨⟨n, _, hn, rfl, h.1 v.now n⟩, ih _ (h.2 _) _⟩
  | call peer m resume ih =>
    intro v _
    exact ⟨h.1, fun w reply _ _ => ih reply (h.2 reply) w⟩
  | callAll peers m resume ih =>
    intro v _
    exact ⟨fun _ _ => h.1, fun w replies _ _ => ih replies (h.2 replies) w⟩
  | pause duration resume ih => exact fun v stopped _ => ih stopped (h stopped) v
  | loop body start resume ihbody ih =>
    refine ⟨fun _ _ => True, fun _ _ => trivial, fun t v _ => (ihbody t (h.1 t) v).mono ?_⟩
    rintro (next | result) w -
    · trivial
    · exact ih result (h.2 result) w

theorem goOn (streak : Streak) : (goOn streak).Steps Node.Stride := by
  unfold Lifecycle.goOn
  refine Work.Steps.bind (Work.Steps.iterate strides_tailPass) fun ending => ?_
  split
  · exact strides_enter _
  · exact Work.Steps.bind strides_masterLoop fun _ => strides_enter _

/-- Whatever a node is set to do consists of steps of the lifecycle. -/
theorem steps_activity (job : Job) : job.activity.Steps Node.Stride := by
  have finish {α : Type} {work : Work α} (h : work.Steps Node.Stride) :
      work.finish.Steps Node.Stride := Activity.Steps.bind h fun _ => trivial
  cases job with
  | run => exact finish strides_run
  | startup => exact finish strides_startup
  | compareLog peer => exact finish (strides_of_calm (calm_compareLog peer))
  | catchUp peer => exact finish (strides_of_calm (calm_catchUp peer))
  | confirmMaster peer => exact finish (strides_of_notes (notes_confirmMaster peer))
  | retarget master => exact finish (strides_retarget master)
  | register master => exact finish (strides_of_notes (notes_register master))
  | drain => exact finish (strides_of_calm calm_drainPushed)
  | pull master => exact finish (strides_of_calm (calm_pullAndApply master))
  | probe => exact finish (strides_of_notes notes_hostUpdate)
  | tail => exact finish strides_tail
  | goOn streak => exact finish (goOn streak)
  | refresh => exact finish (strides_of_notes notes_refreshFollowers)
  | lead => exact finish strides_masterLoop

theorem activity (job : Job) (u : Net) : striding.Sound url job.activity (fun _ _ => True) u :=
  of_steps (steps_activity job) u

end Strides

end Net

/-! ## What leaves the log alone -/

namespace Log

theorem aged_readOne (id : LogId) {s : Store} : Ensures (readOne id) s fun _ t => s.Aged t := by
  refine Ensures.bind ((Store.ensures_lookup (Key.log id)).mono ?_)
  rintro r t ⟨ht, rfl | ⟨-, fault, rfl⟩⟩
  · dsimp only
    split
    · apply Ensures.pure
      exact ht
    · split
      · apply Ensures.pure
        exact ht
      · apply Ensures.fail
        exact ht
  · exact ht

theorem aged_readLog (position : LogId) (now : Instant) (lastSeen : LogId) (limit : UInt32)
    {s : Store} : Ensures (readLog position now lastSeen limit) s fun _ t => s.Aged t := by
  unfold readLog
  by_cases hahead : position < lastSeen
  · simp only [if_pos hahead]
    apply Ensures.fail
    exact Store.Aged.refl s
  simp only [if_neg hahead]
  by_cases hcurrent : lastSeen = position
  · simp only [if_pos hcurrent]
    apply Ensures.pure
    exact Store.Aged.refl s
  simp only [if_neg hcurrent]
  refine Ensures.bind ((Store.ensures_scan _ _ _).mono ?_)
  rintro r t ⟨ht, rfl | ⟨-, fault, rfl⟩⟩
  · refine Ensures.bind ?_
    cases entriesFrom (lastSeen + 1) (s.engine.scan s.rows (Key.log (lastSeen + 1))
      (Key.upperBound .log) (pageSize limit).toUInt64) with
    | ok page => exact ht
    | error error => exact ht
  · exact ht

end Log

/-- What leaves the log of a node, its role and its phase alone. What it buffers besides was pushed. -/
structure Node.Apart (pushed : Entry → Prop) (n n' : Node) : Prop where
  rows : n'.log.store.rows = n.log.store.rows
  answers : ∀ call, n.log.store.Answers call → n'.log.store.Answers call
  position : n'.position = n.position
  self : n'.standing.self = n.standing.self
  isMaster : n'.standing.isMaster = n.standing.isMaster
  master : n'.standing.master = n.standing.master
  phase : n'.phase = n.phase
  buffer : ∀ (id : LogId) e, n'.buffer.entries[id]? = some e →
    n.buffer.entries[id]? = some e ∨ pushed e
  queue : ∀ e ∈ n'.queue.pending, e ∈ n.queue.pending

namespace Node.Apart

variable {pushed more : Entry → Prop} {n n' n'' : Node}

theorem refl (n : Node) : n.Apart pushed n :=
  ⟨rfl, fun _ h => h, rfl, rfl, rfl, rfl, rfl, fun _ _ h => Or.inl h, fun _ h => h⟩

theorem mono (h : n.Apart pushed n') (himp : ∀ e, pushed e → more e) : n.Apart more n' :=
  ⟨h.rows, h.answers, h.position, h.self, h.isMaster, h.master, h.phase,
    fun id e he => (h.buffer id e he).imp_right (himp e), h.queue⟩

theorem trans (h : n.Apart pushed n') (h' : n'.Apart pushed n'') : n.Apart pushed n'' where
  rows := h'.rows.trans h.rows
  answers := fun call hcall => h'.answers call (h.answers call hcall)
  position := h'.position.trans h.position
  self := h'.self.trans h.self
  isMaster := h'.isMaster.trans h.isMaster
  master := h'.master.trans h.master
  phase := h'.phase.trans h.phase
  buffer := by
    intro id e he
    rcases h'.buffer id e he with he | he
    · exact h.buffer id e he
    · exact Or.inr he
  queue := fun e he => h.queue e (h'.queue e he)

theorem note (n : Node) (hosts : HostTable) : n.Apart pushed { n with hosts := hosts } :=
  ⟨rfl, fun _ h => h, rfl, rfl, rfl, rfl, rfl, fun _ _ h => Or.inl h, fun _ h => h⟩

theorem onStore {α : Type} {work : Access α} (h : Ensures work n.log.store fun _ t => n.log.store.Aged t) :
    n.Apart pushed (n.onLog (Log.onStore work)).2 :=
  ⟨h.1, h.2.2, rfl, rfl, rfl, rfl, rfl, fun _ _ h => Or.inl h, fun _ h => h⟩

theorem lose (n : Node) (target : String) : n.Apart pushed (n.restand (·.lose target)) := by
  obtain ⟨hself, hisMaster, hmaster⟩ := n.standing.lose_frame target
  exact ⟨rfl, fun _ h => h, rfl, hself, hisMaster, hmaster, rfl, fun _ _ h => Or.inl h, fun _ h => h⟩

theorem noteReader (n : Node) (now : Instant) (url : String) (lastSeen : LogId) (isCurrent : Bool) :
    n.Apart pushed (n.noteReader now url lastSeen isCurrent) := by
  unfold Node.noteReader
  split
  · exact refl n
  · dsimp only
    split
    · exact ⟨rfl, fun _ h => h, rfl, rfl, rfl, rfl, rfl, fun _ _ h => Or.inl h, fun _ h => h⟩
    · exact note n _

/-- Answering a message: a push is buffered only if it names the master that the node follows. -/
theorem handle (n : Node) (now : Instant) (m : Message) :
    n.Apart (fun e => ∃ accepted, m = .pushTransaction n.standing.master e accepted)
      (n.handle now m).2 := by
  cases m with
  | register url position hosts =>
    show n.Apart _ (n.handleRegister now url position).2
    unfold Node.handleRegister
    split
    · exact refl n
    · exact note n _
  | readOne id entry => exact onStore (Log.aged_readOne id)
  | readLog url lastSeen limit chunk =>
    show n.Apart _ (n.handleReadLog now url lastSeen limit).2
    have hread : n.Apart (fun e => ∃ accepted, Message.readLog url lastSeen limit chunk =
        .pushTransaction n.standing.master e accepted)
        (n.onLog (Log.onStore (Log.readLog n.position now lastSeen limit))).2 :=
      onStore (Log.aged_readLog n.position now lastSeen limit)
    unfold Node.handleReadLog
    split
    · next heq =>
      rw [heq] at hread
      exact hread
    · next n' heq =>
      rw [heq] at hread
      exact hread.trans (noteReader n' now url lastSeen _)
  | setHosts hosts => exact note n _
  | addHost host =>
    show n.Apart _ (n.handleAddHost host).2
    unfold Node.handleAddHost
    split
    · exact refl n
    · exact note n _
  | pushTransaction source e accepted =>
    show n.Apart _ (n.handlePush source e).2
    unfold Node.handlePush
    split
    · exact refl n
    · split
      · next hsource =>
        refine ⟨rfl, fun _ h => h, rfl, rfl, rfl, rfl, rfl, ?_, fun _ h => h⟩
        intro id f hf
        rcases PushBuffer.of_mem_insert hf with ⟨-, rfl, -⟩ | hold
        · exact Or.inr ⟨accepted, by rw [hsource]⟩
        · exact Or.inl hold
      · exact refl n
  | status url position isMaster master => exact refl n

theorem nextPush (n : Node) : n.Apart pushed (Cluster.nextPush n).2 := by
  obtain ⟨queue, heq, hsub⟩ := Net.exists_queue_nextPush n
  rw [heq]
  exact ⟨rfl, fun _ h => h, rfl, rfl, rfl, rfl, rfl, fun _ _ h => Or.inl h, hsub⟩

end Node.Apart

/-- What others leave alone of a node: its role, its master and its phase, and the log of a follower. -/
structure Node.Unmoved (n n' : Node) : Prop where
  isMaster : n'.standing.isMaster = n.standing.isMaster
  master : n'.standing.master = n.standing.master
  phase : n'.phase = n.phase
  rows : n.standing.isMaster = false → n'.log.store.rows = n.log.store.rows
  position : n.standing.isMaster = false → n'.position = n.position

namespace Node

variable {pushed : Entry → Prop} {n n' n'' : Node}

theorem Unmoved.refl (n : Node) : n.Unmoved n := ⟨rfl, rfl, rfl, fun _ => rfl, fun _ => rfl⟩

theorem Unmoved.trans (h : n.Unmoved n') (h' : n'.Unmoved n'') : n.Unmoved n'' where
  isMaster := h'.isMaster.trans h.isMaster
  master := h'.master.trans h.master
  phase := h'.phase.trans h.phase
  rows := fun hfollower => (h'.rows (h.isMaster.trans hfollower)).trans (h.rows hfollower)
  position := fun hfollower =>
    (h'.position (h.isMaster.trans hfollower)).trans (h.position hfollower)

theorem Apart.unmoved (h : n.Apart pushed n') : n.Unmoved n' :=
  ⟨h.isMaster, h.master, h.phase, fun _ => h.rows, fun _ => h.position⟩

theorem unmoved_commit {now : Instant} {e : Entry} (hroom : n.position + 1 ≠ 0) :
    n.Unmoved (n.commit now e).2 := by
  rcases Net.commit_cases now e hroom with ⟨committed, log, hafter, htook, -, hmaster, -⟩ | hsame
  · rw [hafter]
    have hphase : (Node.offer { n with log := log } committed).phase = n.phase := by
      unfold Node.offer
      split <;> rfl
    have hstanding : (Node.offer { n with log := log } committed).standing = n.standing := by
      rw [Node.standing, (Net.offer_frame { n with log := log } committed).1]
      exact htook.standing
    exact {
      isMaster := congrArg Standing.isMaster hstanding
      master := congrArg Standing.master hstanding
      phase := hphase
      rows := fun hfollower => by cases hmaster.symm.trans hfollower
      position := fun hfollower => by cases hmaster.symm.trans hfollower }
  · rw [hsame]
    exact .refl n

end Node

namespace World

variable {w : World} {event : Event} {url : String} {n n' : Node}

/-! ## Steps in a world -/

/-- What is left of every task consists of steps of the lifecycle. -/
def Strides (w : World) : Prop :=
  ∀ task ∈ w.tasks, Net.striding.Pending 0 w.packets w.net task

theorem hears_striding (w : World) (event : Event) :
    Hears Net.striding 0 (fun _ => True) w event := by
  cases event with
  | hear i outcomes => exact fun _ _ _ _ _ _ _ _ _ _ _ _ _ _ => trivial
  | _ => trivial

theorem Strides.after (h : w.Strides) (event : Event) : (w.after event).Strides :=
  fun task htask => pending_after (Nat.zero_le _) (fun task htask _ => h task htask)
    (fun _ _ => trivial) (fun _ _ _ _ _ _ _ => trivial)
    (fun _ job _ _ => Net.Strides.activity job _) (hears_striding w event) task htask trivial

theorem Strides.run (h : w.Strides) (events : List Event) : (w.run events).Strides := by
  induction events generalizing w with
  | nil => exact h
  | cons event rest ih => exact ih (h.after event)

/-- An event that is about a task takes one step of the lifecycle, if it does anything. -/
theorem Strides.advanced (h : w.Strides) {i : Nat} (hevent : event.task? = some i) :
    w.after event = w ∨ ∃ task, w.tasks[i]? = some task ∧
      Advanced Net.striding 0 w i task.url (w.after event) := by
  cases hi : w.tasks[i]? with
  | none => exact Or.inl (after_of_no_task hevent hi)
  | some task =>
    rcases advanced_after hevent (Nat.zero_le _) hi trivial (h task (List.mem_of_getElem? hi))
      trivial (hears_striding w event) with hsame | hadvanced
    · exact Or.inl hsame
    · exact Or.inr ⟨task, rfl, hadvanced⟩

/-- What an event makes of the node at an address. -/
inductive Turn (w : World) (event : Event) (url : String) (n : Node) : Node → Prop where
  /-- Its log, its role and its phase stay as they are. -/
  | apart {n' : Node} (h : n.Apart (fun e => ∃ p ∈ w.packets, ∃ accepted,
      p.message = .pushTransaction n.standing.master e accepted) n') : Turn w event url n n'
  /-- Its store falls out, or is repaired. -/
  | outage (outage : Option Outage) (hevent : event = .outage url outage) : Turn w event url n
      { n with log := { n.log with store := { n.log.store with outage := outage } } }
  /-- It commits. -/
  | commit (e : Entry) (hevent : event = .commit url e) :
    Turn w event url n (n.commit w.net.now e).2
  /-- It is opened anew over its store. -/
  | restart {n' : Node} (setup : Setup) (hevent : event = .restart setup) (hurl : setup.url = url)
    (hr : ((Node.start setup w.net.now).run.run n.log.store).1 = .ok n') : Turn w event url n n'
  /-- One of its tasks takes a step. -/
  | stride {n' : Node} (i : Nat) (task : Task) (hevent : event.task? = some i)
    (htask : w.tasks[i]? = some task) (hurl : task.url = url) (h : n.Stride n') :
    Turn w event url n n'

/-- Nothing happens to a node that an event leaves as it is. -/
theorem Turn.same (hn : w.net.node? url = some n) :
    ∃ m, w.net.node? url = some m ∧ w.Turn event url m n := ⟨n, hn, .apart (Node.Apart.refl n)⟩

/-- Of the nodes of a net, one may have taken a turn. -/
theorem turn_of_put {other : String} {m m' : Node} (hm : w.net.node? other = some m)
    (hturn : w.Turn event other m m') (hn' : (w.net.put other m').node? url = some n') :
    ∃ n, w.net.node? url = some n ∧ w.Turn event url n n' := by
  rw [Net.node?_put] at hn'
  by_cases heq : other = url
  · subst heq
    rw [if_pos rfl] at hn'
    cases hn'
    exact ⟨m, hm, hturn⟩
  · rw [if_neg heq] at hn'
    exact Turn.same hn'

theorem turn_of_onNode {other : String} {work : Node → Node}
    (h : ∀ m, w.net.node? other = some m → w.Turn event other m (work m))
    (hn' : (w.onNode other work).net.node? url = some n') :
    ∃ n, w.net.node? url = some n ∧ w.Turn event url n n' := by
  unfold onNode at hn'
  split at hn'
  · next m hm => exact turn_of_put hm (h m hm) hn'
  · exact Turn.same hn'

/-- Every node after an event was there before, and the event made of it what events may make of
nodes. -/
theorem Strides.turn (h : w.Strides) (hn' : (w.after event).net.node? url = some n') :
    ∃ n, w.net.node? url = some n ∧ w.Turn event url n n' := by
  have task {i : Nat} (hevent : event.task? = some i) :
      ∃ n, w.net.node? url = some n ∧ w.Turn event url n n' := by
    rcases h.advanced hevent with hsame | ⟨task, htask, hadvanced⟩
    · rw [hsame] at hn'
      exact Turn.same hn'
    · rcases hadvanced.net with hsame | ⟨m, m', hm, hput, m₁, m₂, hm₁, hput', hstride⟩
      · rw [hsame] at hn'
        exact Turn.same hn'
      · rw [hput'] at hn'
        exact turn_of_put hm₁ (.stride i task hevent htask rfl hstride) hn'
  cases event with
  | clock now => exact Turn.same hn'
  | commit other e => exact turn_of_onNode (fun m _ => .commit e rfl) hn'
  | outage other outage => exact turn_of_onNode (fun m _ => .outage outage rfl) hn'
  | restart setup =>
    change (w.reopen setup).net.node? url = some n' at hn'
    unfold reopen at hn'
    split at hn'
    · next m hm =>
      split at hn'
      · next m' hr => exact turn_of_put hm (.restart setup rfl rfl hr) hn'
      · exact Turn.same hn'
    · exact Turn.same hn'
  | stop other =>
    refine turn_of_onNode (fun m _ => .apart ?_) hn'
    exact ⟨rfl, fun _ h => h, rfl, rfl, rfl, rfl, rfl, fun _ _ h => Or.inl h, fun _ h => h⟩
  | begin other job => exact Turn.same hn'
  | move i => exact task rfl
  | arrive number =>
    dsimp only [World.after] at hn'
    split at hn'
    · next packet hpacket =>
      unfold World.answer at hn'
      split at hn'
      · next m hm =>
        refine turn_of_put hm (.apart ((Node.Apart.handle m w.net.now packet.message).mono ?_)) hn'
        rintro e ⟨accepted, hpush⟩
        exact ⟨packet, List.mem_of_getElem? hpacket, accepted, hpush⟩
      · exact Turn.same hn'
    · exact Turn.same hn'
  | hear i outcomes => exact task rfl
  | wake i => exact task rfl
  | push other =>
    change (w.pushNext other).net.node? url = some n' at hn'
    unfold pushNext at hn'
    split at hn'
    · next m hm =>
      have hturn : w.Turn (.push other) other m (Cluster.nextPush m).2 :=
        .apart (Node.Apart.nextPush m)
      split at hn'
      · next e target m' heq =>
        rw [heq] at hturn
        exact turn_of_put hm hturn hn'
      · next m' heq =>
        rw [heq] at hturn
        exact turn_of_put hm hturn hn'
    · exact Turn.same hn'
  | pushed number outcome =>
    change (w.notePush number outcome).net.node? url = some n' at hn'
    rcases notePush_eq w number outcome with heq | ⟨sender, target, heq⟩
    · rw [heq] at hn'
      exact Turn.same hn'
    · rw [heq] at hn'
      exact turn_of_onNode (fun m _ => .apart (Node.Apart.lose m target)) hn'

/-- An event that is not about the one live task of a node, and does not end it, leaves the node alone. -/
theorem Strides.unmoved (h : w.Strides) (hadmits : w.Admits event) {j : Nat} {task : Task}
    (hj : event.task? ≠ some j) (htask : w.tasks[j]? = some task)
    (hstays : (w.after event).tasks[j]? = some task) (hlive : task.live = true)
    (hsingle : ∀ (i : Nat) other, w.tasks[i]? = some other → other.url = task.url →
      other.live = true → i = j)
    (hn' : (w.after event).net.node? task.url = some n') :
    ∃ n, w.net.node? task.url = some n ∧ n.Unmoved n' := by
  obtain ⟨n, hn, hturn⟩ := h.turn hn'
  refine ⟨n, hn, ?_⟩
  cases hturn with
  | apart hapart => exact hapart.unmoved
  | outage outage hevent => exact ⟨rfl, rfl, rfl, fun _ => rfl, fun _ => rfl⟩
  | commit e hevent =>
    subst hevent
    exact Node.unmoved_commit (hadmits.2 n hn)
  | restart setup hevent hsetup hr =>
    -- a node that is opened anew has no live task left
    subst hevent
    change (w.reopen setup).tasks[j]? = some task at hstays
    rw [← hsetup] at hn
    simp only [reopen, hn, hr, List.getElem?_map, htask, Option.map_some, if_pos hsetup.symm] at hstays
    rw [← Option.some.inj hstays] at hlive
    cases hlive
  | stride i other hevent hother hurl hstride =>
    cases hother' : other.live with
    | true =>
      have hij := hsingle i other hother hurl hother'
      exact absurd (hevent.trans (congrArg some hij)) hj
    | false =>
      rw [after_of_ended hevent hother hother', hn] at hn'
      cases hn'
      exact .refl _

end World

end LogShipping
