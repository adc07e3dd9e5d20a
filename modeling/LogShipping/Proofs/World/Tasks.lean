import LogShipping.Proofs.World.Sound

/-!
# Tasks of a world

A task is pending in a world if what is left of its activity keeps to the discipline; one that waits for
answers does so whatever answers may come back for its messages. What a task does in a step is what the
discipline allows it (`Advanced`), and pending tasks stay pending under every event whose effect on the
net the others rely on (`pending_after`). A discipline need not be that of all nodes, nor from the first
message on: `who` are the nodes that keep to it, and `since` is the number of messages that were sent
before.

What an event does beside the nodes, to packets, answers, tasks and the clock, is said by one lemma for
each kind of event (`Frame`), and packets, answers and tasks after an event are read off from it. No later
module goes through the twelve events to learn that a task was left alone.

A world may hold tasks of any number at a node; that a node has one live task at most is a condition of
its own (`Single`), kept by runs that begin a task only where none is live. A task that has ended stays
in the list, so that the numbers of tasks do not change.
-/

namespace LogShipping

/-- Whether a task has not ended. -/
def Task.live (task : Task) : Bool :=
  match task.progress with
  | .ended => false
  | _ => true

namespace Discipline

variable {D : Discipline} {since : Nat}

/-- What is left of a task keeps to the discipline. -/
def Pending (D : Discipline) (since : Nat) (packets : List Packet) (u : Net) (task : Task) : Prop :=
  match task.progress with
  | .ready activity => D.Sound task.url activity (fun _ _ => True) u
  | .waiting numbers resume => ∃ peers m,
      List.Forall₂ (fun number peer => since ≤ number ∧
        packets[number]? = some ⟨task.url, peer, m⟩) numbers peers ∧
      ∀ v replies, D.rely task.url u v →
        List.Forall₂ (fun peer => D.hears task.url v peer m) peers replies →
        D.Sound task.url (resume replies) (fun _ _ => True) v
  | .resting resume => ∀ v stopped, D.rely task.url u v →
      D.Sound task.url (resume stopped) (fun _ _ => True) v
  | .ended => True

/-- There is nothing left of a task that has ended. -/
theorem pending_of_ended {packets : List Packet} {u : Net} {task : Task} (h : task.live = false) :
    D.Pending since packets u task := by
  obtain ⟨url, progress⟩ := task
  cases progress with
  | ended => trivial
  | _ => cases h

/-- A task stays pending while others act and more is sent. -/
theorem Pending.stable {packets more : List Packet} {u v : Net} {task : Task}
    (h : D.Pending since packets u task) (huv : task.live = true → D.rely task.url u v) :
    D.Pending since (packets ++ more) v task := by
  obtain ⟨url, progress⟩ := task
  cases progress with
  | ready activity => exact Sound.stable h (huv rfl)
  | waiting numbers resume =>
    obtain ⟨peers, m, hsent, hresume⟩ := h
    refine ⟨peers, m, ?_, fun w replies hvw => hresume w replies (D.rely_trans (huv rfl) hvw)⟩
    refine hsent.imp ?_
    rintro number peer ⟨hsince, hnumber⟩
    rw [List.getElem?_append_left (List.getElem?_eq_some_iff.mp hnumber).1]
    exact ⟨hsince, hnumber⟩
  | resting resume => exact fun w stopped hvw => h w stopped (D.rely_trans (huv rfl) hvw)
  | ended => trivial

end Discipline

namespace Event

/-- The task that an event is about, if it is about one. -/
def task? : Event → Option Nat
  | .move task => some task
  | .hear task _ => some task
  | .wake task => some task
  | _ => none

end Event

namespace World

variable {D : Discipline} {since : Nat} {who : String → Prop} {w : World}

/-! ## What an event leaves alone -/

/-- A push that was not taken changes one node at most. -/
theorem notePush_eq (w : World) (number : Nat) (outcome : Outcome) :
    w.notePush number outcome = w ∨ ∃ sender target,
      w.notePush number outcome = w.onNode sender fun n => n.restand (·.lose target) := by
  unfold notePush
  split
  · split
    · exact Or.inl rfl
    · exact Or.inr ⟨_, _, rfl⟩
  · exact Or.inl rfl

/-- What is pushed was waiting to be pushed. -/
theorem mem_of_nextPush {n : Node} {e : Entry} {target : String}
    (h : (Cluster.nextPush n).1 = some (e, target)) : e ∈ n.queue.pending := by
  unfold Cluster.nextPush at h
  split at h
  · cases h
  · split at h
    · cases h
    · split at h
      · next heq _ =>
        cases h
        rw [heq]
        exact List.mem_cons_self
      · cases h

/-- A message that a node sends of its own accord: an announcement of a host, or a push of an entry that
waits for it. -/
def Speaks (w : World) (p : Packet) : Prop :=
  ∃ n, w.net.node? p.sender = some n ∧ ((∃ host, p.message = .addHost host) ∨
    ∃ e ∈ n.queue.pending, p.message = .pushRequest p.sender e)

/-- What an event makes of the tasks: a task is begun, goes on, or ends with its node. -/
inductive Tasked (w : World) : Event → List Task → Prop where
  | begun (url : String) (job : Job) :
    Tasked w (.begin url job) (w.tasks ++ [⟨url, .ready job.activity⟩])
  | taken {event : Event} {i : Nat} {task : Task} (progress : Progress) :
    event.task? = some i → w.tasks[i]? = some task → task.live = true →
    Tasked w event (w.tasks.set i ⟨task.url, progress⟩)
  | ended (setup : Setup) :
    Tasked w (.restart setup) (w.tasks.map fun task =>
      if task.url = setup.url then { task with progress := .ended } else task)

/-- What an event brings to a world beside what it does to nodes. -/
structure Frame (w : World) (event : Event) (w' : World) : Prop where
  packets : ∃ more, w'.packets = w.packets ++ more ∧
    (event.task? = none → ∀ p ∈ more, w.Speaks p)
  answers : w'.answers = w.answers ∨ ∃ number p n, event = .arrive number ∧
    w.packets[number]? = some p ∧ w.net.node? p.peer = some n ∧ w'.answers = w.answers ++
      [(number, (n.handle w.net.now p.message).1.reply.mapError (Cluster.remoteError p.peer))]
  tasks : w'.tasks = w.tasks ∨ w.Tasked event w'.tasks
  now : w'.net.now = w.net.now ∨ ∃ now, event = .clock now

/-- Nothing but a node has changed. -/
theorem Frame.of_net {event : Event} {net : Net} (hnow : net.now = w.net.now) :
    w.Frame event { w with net := net } :=
  ⟨⟨[], (List.append_nil _).symm, by simp⟩, Or.inl rfl, Or.inl rfl, Or.inl hnow⟩

/-- A node sends something. -/
theorem Frame.of_post {event : Event} {net : Net} {more : List Packet}
    (h : ∀ p ∈ more, w.Speaks p) (hnow : net.now = w.net.now) :
    w.Frame event { w with net := net, packets := w.packets ++ more } :=
  ⟨⟨more, rfl, fun _ => h⟩, Or.inl rfl, Or.inl rfl, Or.inl hnow⟩

theorem frame_onNode (w : World) (event : Event) (url : String) (work : Node → Node) :
    w.Frame event (w.onNode url work) := by
  unfold onNode
  split <;> exact Frame.of_net rfl

theorem frame_reopen (w : World) (setup : Setup) : w.Frame (.restart setup) (w.reopen setup) := by
  unfold reopen
  split
  · split
    · exact ⟨⟨[], (List.append_nil _).symm, by simp⟩, Or.inl rfl, Or.inr (.ended setup), Or.inl rfl⟩
    · exact Frame.of_net rfl
  · exact Frame.of_net rfl

theorem frame_arrive (w : World) (number : Nat) :
    w.Frame (.arrive number) (w.after (.arrive number)) := by
  dsimp only [after]
  split
  · next packet hp =>
    unfold answer
    split
    · next n hn =>
      refine ⟨⟨_, rfl, fun _ p hmem => ?_⟩, Or.inr ⟨number, packet, n, rfl, hp, hn, rfl⟩, Or.inl rfl,
        Or.inl rfl⟩
      -- what a node announces it announces in its own name
      cases ha : (n.handle w.net.now packet.message).1.announcement with
      | none =>
        rw [ha] at hmem
        cases hmem
      | some a =>
        rw [ha] at hmem
        obtain ⟨target, -, rfl⟩ := List.mem_map.mp hmem
        exact ⟨n, hn, Or.inl ⟨_, rfl⟩⟩
    · exact Frame.of_net rfl
  · exact Frame.of_net rfl

theorem frame_pushNext (w : World) (event : Event) (url : String) :
    w.Frame event (w.pushNext url) := by
  unfold pushNext
  split
  · next n hn =>
    split
    · next e target n' heq =>
      refine Frame.of_post (fun p hp => ?_) rfl
      rw [List.mem_singleton.mp hp]
      exact ⟨n, hn, Or.inr ⟨e, mem_of_nextPush (congrArg Prod.fst heq), rfl⟩⟩
    · exact Frame.of_net rfl
  · exact Frame.of_net rfl

theorem frame_notePush (w : World) (event : Event) (number : Nat) (outcome : Outcome) :
    w.Frame event (w.notePush number outcome) := by
  rcases notePush_eq w number outcome with heq | ⟨sender, target, heq⟩
  · rw [heq]
    exact Frame.of_net rfl
  · rw [heq]
    exact frame_onNode w event _ _

/-- A task goes one step on, and may send something. -/
theorem Frame.of_task {event : Event} {i : Nat} {task : Task} {w' : World} {more : List Packet}
    {progress : Progress} (hevent : event.task? = some i) (hi : w.tasks[i]? = some task)
    (hlive : task.live = true) (hpackets : w'.packets = w.packets ++ more)
    (hanswers : w'.answers = w.answers) (htasks : w'.tasks = w.tasks.set i ⟨task.url, progress⟩)
    (hnow : w'.net.now = w.net.now) : w.Frame event w' where
  packets := ⟨more, hpackets, fun hnone => absurd (hnone ▸ hevent) nofun⟩
  answers := Or.inl hanswers
  tasks := Or.inr (htasks ▸ .taken progress hevent hi hlive)
  now := Or.inl hnow

theorem frame_move (w : World) (i : Nat) : w.Frame (.move i) (w.moveTask i) := by
  have quiet := List.append_nil w.packets
  unfold moveTask
  split
  · next url activity hi =>
    cases activity with
    | atomic work resume =>
      dsimp only [advance]
      split
      · exact Frame.of_task rfl hi rfl quiet.symm rfl rfl rfl
      · exact Frame.of_net rfl
    | call peer m resume => exact Frame.of_task rfl hi rfl rfl rfl rfl rfl
    | callAll peers m resume => exact Frame.of_task rfl hi rfl rfl rfl rfl rfl
    | done value => exact Frame.of_task rfl hi rfl quiet.symm rfl rfl rfl
    | pause duration resume => exact Frame.of_task rfl hi rfl quiet.symm rfl rfl rfl
    | loop body start resume => exact Frame.of_task rfl hi rfl quiet.symm rfl rfl rfl
  · exact Frame.of_net rfl

theorem frame_hear (w : World) (i : Nat) (outcomes : List Outcome) :
    w.Frame (.hear i outcomes) (w.hearTask i outcomes) := by
  unfold hearTask
  split
  · next hi =>
    split
    · exact Frame.of_task rfl hi rfl (List.append_nil _).symm rfl rfl rfl
    · exact Frame.of_net rfl
  · exact Frame.of_net rfl

theorem frame_wake (w : World) (i : Nat) : w.Frame (.wake i) (w.wakeTask i) := by
  unfold wakeTask
  split
  · next hi => exact Frame.of_task rfl hi rfl (List.append_nil _).symm rfl rfl rfl
  · exact Frame.of_net rfl

theorem frame_after (w : World) (event : Event) : w.Frame event (w.after event) := by
  cases event with
  | clock now =>
    exact ⟨⟨[], (List.append_nil _).symm, by simp⟩, Or.inl rfl, Or.inl rfl, Or.inr ⟨now, rfl⟩⟩
  | commit url e => exact frame_onNode w _ _ _
  | outage url outage => exact frame_onNode w _ _ _
  | restart setup => exact frame_reopen w setup
  | stop url => exact frame_onNode w _ _ _
  | begin url job =>
    exact ⟨⟨[], (List.append_nil _).symm, by simp⟩, Or.inl rfl, Or.inr (.begun url job), Or.inl rfl⟩
  | move i => exact frame_move w i
  | arrive number => exact frame_arrive w number
  | hear i outcomes => exact frame_hear w i outcomes
  | wake i => exact frame_wake w i
  | push url => exact frame_pushNext w _ url
  | pushed number outcome => exact frame_notePush w _ number outcome

/-- Messages that were sent stay sent. -/
theorem packets_after (w : World) (event : Event) :
    ∃ more, (w.after event).packets = w.packets ++ more :=
  have ⟨more, hmore, _⟩ := (frame_after w event).packets
  ⟨more, hmore⟩

/-- A new answer is what a node answers to a message that arrives. -/
theorem answers_after (w : World) (event : Event) : ∀ a ∈ (w.after event).answers, a ∈ w.answers ∨
    ∃ number p n, event = .arrive number ∧ w.packets[number]? = some p ∧
      w.net.node? p.peer = some n ∧ a =
        (number, (n.handle w.net.now p.message).1.reply.mapError (Cluster.remoteError p.peer)) := by
  intro a ha
  rcases (frame_after w event).answers with hsame | ⟨number, p, n, hevent, hp, hn, hmore⟩
  · exact Or.inl (hsame ▸ ha)
  · rw [hmore, List.mem_append, List.mem_singleton] at ha
    exact ha.imp_right fun heq => ⟨number, p, n, hevent, hp, hn, heq⟩

/-- An event that is about a task leaves all other tasks alone. -/
theorem tasks_of_task {event : Event} {i : Nat} (hevent : event.task? = some i) :
    (w.after event).tasks = w.tasks ∨ ∃ task progress, w.tasks[i]? = some task ∧
      task.live = true ∧ (w.after event).tasks = w.tasks.set i ⟨task.url, progress⟩ := by
  refine (frame_after w event).tasks.imp_right fun h => ?_
  generalize (w.after event).tasks = tasks at h
  cases h with
  | begun url job => cases hevent
  | ended setup => cases hevent
  | @taken _ j task progress hj hi hlive =>
    rw [hevent] at hj
    cases hj
    exact ⟨task, progress, hi, hlive, rfl⟩

/-- An event that is about no task leaves the tasks alone, but that a restart ends some and that a new
job is one more. -/
theorem tasks_after {event : Event} (hevent : event.task? = none) :
    ∀ (j : Nat) task, (w.after event).tasks[j]? = some task → w.tasks[j]? = some task ∨
      (task.live = false ∧ ∃ old, w.tasks[j]? = some old ∧ old.url = task.url) ∨
      (j = w.tasks.length ∧ ∃ url job, event = .begin url job ∧ task = ⟨url, .ready job.activity⟩) := by
  intro j task htask
  rcases (frame_after w event).tasks with hsame | h
  · exact Or.inl (hsame ▸ htask)
  generalize (w.after event).tasks = tasks at h htask
  cases h with
  | taken progress hi => rw [hevent] at hi; cases hi
  | begun url job =>
    rw [List.getElem?_append] at htask
    split at htask
    · exact Or.inl htask
    -- what stands behind the old tasks is the one that was begun
    · obtain ⟨hlt, rfl⟩ := List.getElem?_eq_some_iff.mp htask
      rw [List.length_singleton] at hlt
      exact Or.inr (Or.inr ⟨by omega, url, job, rfl, by simp⟩)
  | ended setup =>
    rw [List.getElem?_map] at htask
    obtain ⟨old, hold, rfl⟩ := Option.map_eq_some_iff.mp htask
    by_cases hurl : old.url = setup.url
    · rw [if_pos hurl]
      exact Or.inr (Or.inl ⟨rfl, old, hold, rfl⟩)
    · rw [if_neg hurl]
      exact Or.inl hold

/-! ## Steps of tasks -/

/-- What one step of a task makes of a world: the net changes as the discipline allows it, what is
sent may be sent, and the task itself stays pending. -/
structure Advanced (D : Discipline) (since : Nat) (w : World) (i : Nat) (url : String) (w' : World) :
    Prop where
  net : w'.net = w.net ∨
    ∃ n n', w.net.node? url = some n ∧ w'.net = w.net.put url n' ∧ D.acts url w.net w'.net
  packets : ∃ new, w'.packets = w.packets ++ new ∧
    ∀ p ∈ new, p.sender = url ∧ D.asks url w.net p.peer p.message
  answers : w'.answers = w.answers
  tasks : ∃ progress, w'.tasks = w.tasks.set i ⟨url, progress⟩ ∧
    D.Pending since w'.packets w'.net ⟨url, progress⟩

theorem advance_spec {i : Nat} {url : String} {activity : Activity Node PUnit}
    (hsince : since ≤ w.packets.length) (h : D.Sound url activity (fun _ _ => True) w.net)
    (here : D.rely url w.net w.net) :
    w.advance i url activity = w ∨ Advanced D since w i url (w.advance i url activity) := by
  cases activity with
  | done value =>
    exact Or.inr ⟨Or.inl rfl, ⟨[], (List.append_nil _).symm, by simp⟩, rfl, .ended, rfl, trivial⟩
  | atomic work resume =>
    unfold advance
    cases hn : w.net.node? url with
    | none => exact Or.inl rfl
    | some n =>
      -- the net at the time of the step is one that the judgement allows for
      obtain ⟨hacts, hresume⟩ := h w.net n here hn
      exact Or.inr ⟨Or.inr ⟨n, _, hn, rfl, hacts⟩, ⟨[], (List.append_nil _).symm, by simp⟩, rfl, _, rfl, hresume⟩
  | call peer m resume =>
    obtain ⟨hasks, hresume⟩ := h w.net here
    refine Or.inr ⟨Or.inl rfl, ⟨_, rfl, ?_⟩, rfl, _, rfl, [peer], m, ?_, ?_⟩
    · intro p hp
      rw [List.mem_singleton.mp hp]
      exact ⟨rfl, hasks⟩
    · refine List.Forall₂.cons ⟨hsince, ?_⟩ List.Forall₂.nil
      show (w.packets ++ [_])[w.packets.length]? = _
      rw [List.getElem?_append_right (Nat.le_refl _), Nat.sub_self]
      rfl
    · intro v replies huv hreplies
      cases hreplies with
      | cons hreply hrest =>
        cases hrest
        exact hresume v _ huv hreply
  | callAll peers m resume =>
    obtain ⟨hasks, hresume⟩ := h w.net here
    refine Or.inr ⟨Or.inl rfl, ⟨_, rfl, ?_⟩, rfl, _, rfl, peers, m, ?_, hresume⟩
    · intro p hp
      obtain ⟨peer, hpeer, rfl⟩ := List.mem_map.mp hp
      exact ⟨rfl, hasks peer hpeer⟩
    · rw [List.forall₂_iff_get]
      refine ⟨List.length_range', ?_⟩
      intro k hk hk'
      rw [List.get_eq_getElem, List.getElem_range']
      refine ⟨by omega, ?_⟩
      show (w.packets ++ _)[_]? = _
      rw [List.getElem?_append_right (by omega)]
      simp [hk']
  | pause duration resume =>
    exact Or.inr ⟨Or.inl rfl, ⟨[], (List.append_nil _).symm, by simp⟩, rfl, _, rfl,
      fun v stopped huv => h v stopped huv⟩
  | loop body start resume =>
    exact Or.inr ⟨Or.inl rfl, ⟨[], (List.append_nil _).symm, by simp⟩, rfl, _, rfl,
      Discipline.Sound.unfoldLoop h⟩

/-- Two lists related to a third one, member by member. -/
theorem forall₂_of_common {α β γ : Type} {R : α → β → Prop} {S : α → γ → Prop} {T : β → γ → Prop}
    {as : List α} {bs : List β} {cs : List γ} (hR : List.Forall₂ R as bs) (hS : List.Forall₂ S as cs)
    (hT : ∀ a b c, R a b → S a c → T b c) : List.Forall₂ T bs cs := by
  induction hR generalizing cs with
  | nil =>
    cases hS
    exact List.Forall₂.nil
  | cons hab _ ih =>
    cases hS with
    | cons hac hrest => exact List.Forall₂.cons (hT _ _ _ hab hac) (ih hrest)

/-- What is heard of a message is a failure of the call, or an answer to that very message. -/
theorem heard?_eq_some {answers : List (Nat × Except Error Message)} {number : Nat} {o : Outcome}
    {reply : Except Error Message} (h : heard? answers number o = some reply) :
    (∃ error, o = .failed error ∧ reply = .error error) ∨ (number, reply) ∈ answers := by
  cases o with
  | failed error =>
    cases h
    exact Or.inl ⟨error, rfl, rfl⟩
  | answered a =>
    simp only [heard?] at h
    split at h
    · next number' reply' hanswer =>
      split at h
      · next heq =>
        cases h
        subst heq
        exact Or.inr (List.mem_of_getElem? hanswer)
      · cases h
    · cases h

/-- The replies that outcomes stand for, one by one. -/
theorem forall₂_heardAll? {answers : List (Nat × Except Error Message)} {numbers : List Nat}
    {outcomes : List Outcome} {replies : List (Except Error Message)}
    (h : heardAll? answers numbers outcomes = some replies) :
    List.Forall₂ (fun number reply => ∃ o, (number, o) ∈ numbers.zip outcomes ∧
      heard? answers number o = some reply) numbers replies := by
  induction numbers generalizing outcomes replies with
  | nil =>
    cases outcomes with
    | nil =>
      cases h
      exact List.Forall₂.nil
    | cons o outcomes => cases h
  | cons number numbers ih =>
    cases outcomes with
    | nil => cases h
    | cons o outcomes =>
      unfold heardAll? at h
      split at h
      · next reply rest hreply hrest =>
        cases h
        refine List.Forall₂.cons ⟨o, List.mem_cons_self, hreply⟩ ((ih hrest).imp ?_)
        rintro number reply ⟨o', ho', hreply'⟩
        exact ⟨o', List.mem_cons_of_mem _ ho', hreply'⟩
      · cases h

/-! ## Events -/

/-- An event about a task that does not exist does nothing. -/
theorem after_of_no_task {event : Event} {i : Nat} (hevent : event.task? = some i)
    (hi : w.tasks[i]? = none) : w.after event = w := by
  cases event with
  | move j =>
    cases hevent
    simp only [after, moveTask, hi]
  | hear j outcomes =>
    cases hevent
    simp only [after, hearTask, hi]
  | wake j =>
    cases hevent
    simp only [after, wakeTask, hi]
  | _ => cases hevent

/-- An event about a task that has ended does nothing. -/
theorem after_of_ended {event : Event} {i : Nat} (hevent : event.task? = some i) {task : Task}
    (hi : w.tasks[i]? = some task) (hended : task.live = false) : w.after event = w := by
  obtain ⟨url, progress⟩ := task
  cases progress with
  | ended =>
    cases event with
    | move j =>
      cases hevent
      simp only [after, moveTask, hi]
    | hear j outcomes =>
      cases hevent
      simp only [after, hearTask, hi]
    | wake j =>
      cases hevent
      simp only [after, wakeTask, hi]
    | _ => cases hevent
  | _ => cases hended

/-- What becomes of a message that a task waits for is what may be heard of it. -/
def Hears (D : Discipline) (since : Nat) (who : String → Prop) (w : World) : Event → Prop
  | .hear i outcomes => ∀ url numbers resume, w.tasks[i]? = some ⟨url, .waiting numbers resume⟩ →
      who url → ∀ number o, (number, o) ∈ numbers.zip outcomes → since ≤ number →
      ∀ p, w.packets[number]? = some p → p.sender = url →
      ∀ reply, heard? w.answers number o = some reply → D.hears url w.net p.peer p.message reply
  | _ => True

/-- An event that is about a task does nothing, or it takes the task one step on. -/
theorem advanced_after {event : Event} {i : Nat} (hevent : event.task? = some i)
    (hsince : since ≤ w.packets.length) {task : Task} (hi : w.tasks[i]? = some task)
    (hwho : who task.url) (h : D.Pending since w.packets w.net task)
    (here : D.rely task.url w.net w.net) (hhear : Hears D since who w event) :
    w.after event = w ∨ Advanced D since w i task.url (w.after event) := by
  obtain ⟨url, progress⟩ := task
  have stays {progress : Progress} (hp : D.Pending since w.packets w.net ⟨url, progress⟩) :
      Advanced D since w i url (w.setTask i url progress) :=
    ⟨Or.inl rfl, ⟨[], (List.append_nil _).symm, by simp⟩, rfl, progress, rfl, hp⟩
  cases event with
  | move j =>
    cases hevent
    cases progress with
    | ready activity =>
      have hafter : w.after (.move i) = w.advance i url activity := by
        simp only [after, moveTask, hi]
      rw [hafter]
      exact advance_spec hsince h here
    | waiting packets resume => exact Or.inl (by simp only [after, moveTask, hi])
    | resting resume => exact Or.inl (by simp only [after, moveTask, hi])
    | ended => exact Or.inl (by simp only [after, moveTask, hi])
  | hear j outcomes =>
    cases hevent
    cases progress with
    | waiting numbers resume =>
      cases hreplies : heardAll? w.answers numbers outcomes with
      | none => exact Or.inl (by simp only [after, hearTask, hi, hreplies])
      | some replies =>
        obtain ⟨peers, m, hsent, hresume⟩ := h
        right
        simp only [after, hearTask, hi, hreplies]
        refine stays (hresume w.net replies here ?_)
        refine forall₂_of_common hsent (forall₂_heardAll? hreplies) ?_
        rintro number peer reply ⟨hlate, hnumber⟩ ⟨o, ho, hreply⟩
        exact hhear url numbers resume hi hwho number o ho hlate _ hnumber rfl reply hreply
    | ready activity => exact Or.inl (by simp only [after, hearTask, hi])
    | resting resume => exact Or.inl (by simp only [after, hearTask, hi])
    | ended => exact Or.inl (by simp only [after, hearTask, hi])
  | wake j =>
    cases hevent
    cases progress with
    | resting resume =>
      right
      simp only [after, wakeTask, hi]
      exact stays (h w.net _ here)
    | ready activity => exact Or.inl (by simp only [after, wakeTask, hi])
    | waiting numbers resume => exact Or.inl (by simp only [after, wakeTask, hi])
    | ended => exact Or.inl (by simp only [after, wakeTask, hi])
  | _ => cases hevent

theorem Hears.mono {more : String → Prop} {event : Event} (h : Hears D since who w event)
    (himp : ∀ url, more url → who url) : Hears D since more w event := by
  cases event with
  | hear i outcomes => exact fun url numbers resume hi hurl => h url numbers resume hi (himp url hurl)
  | _ => trivial

/-- A task that goes on to live is as it was, unless the event is about it. -/
theorem eq_of_live {event : Event} {j : Nat} {old task : Task} (hj : event.task? ≠ some j)
    (hold : w.tasks[j]? = some old) (htask : (w.after event).tasks[j]? = some task)
    (hlive : task.live = true) : task = old := by
  cases hevent : event.task? with
  | none =>
    rcases tasks_after hevent j task htask with hsame | ⟨hended, -⟩ | ⟨rfl, -⟩
    · exact Option.some.inj (hsame.symm.trans hold)
    · rw [hended] at hlive
      cases hlive
    · have := (List.getElem?_eq_some_iff.mp hold).1
      omega
  | some i =>
    have hij : i ≠ j := fun heq => hj (hevent.trans (congrArg some heq))
    rcases tasks_of_task (w := w) hevent with hsame | ⟨other, progress, -, -, hset⟩
    · rw [hsame] at htask
      exact Option.some.inj (htask.symm.trans hold)
    · rw [hset, List.getElem?_set, if_neg hij] at htask
      exact Option.some.inj (htask.symm.trans hold)

/-- A task stays pending, whether an event is about it or not. -/
theorem pending_of_old {event : Event} (hsince : since ≤ w.packets.length) {j : Nat} {old task : Task}
    (hold : w.tasks[j]? = some old) (htask : (w.after event).tasks[j]? = some task)
    (h : D.Pending since w.packets w.net old) (here : D.rely old.url w.net w.net)
    (others : event.task? ≠ some j → task = old → task.live = true →
      D.rely old.url w.net (w.after event).net)
    (hhear : Hears D since (· = old.url) w event) :
    D.Pending since (w.after event).packets (w.after event).net task := by
  by_cases hj : event.task? = some j
  · rcases @advanced_after D since (· = old.url) w event j hj hsince old hold rfl h here hhear
      with hsame | hadvanced
    · rw [hsame] at htask ⊢
      exact Option.some.inj (htask.symm.trans hold) ▸ h
    · obtain ⟨progress, hset, hpending⟩ := hadvanced.tasks
      rw [hset, List.getElem?_set, if_pos rfl,
        if_pos (List.getElem?_eq_some_iff.mp hold).1] at htask
      cases htask
      exact hpending
  · cases hlive : task.live with
    | false => exact Discipline.pending_of_ended hlive
    | true =>
      obtain ⟨more, hmore⟩ := packets_after w event
      obtain rfl := eq_of_live hj hold htask hlive
      rw [hmore]
      exact h.stable (others hj rfl)

/-- A task that was there is there at any time. -/
theorem exists_task_after (event : Event) {j : Nat} {old : Task} (hold : w.tasks[j]? = some old) :
    ∃ task, (w.after event).tasks[j]? = some task ∧ task.url = old.url := by
  obtain ⟨hlt, -⟩ := List.getElem?_eq_some_iff.mp hold
  rcases (frame_after w event).tasks with hsame | h
  · exact ⟨old, hsame ▸ hold, rfl⟩
  generalize (w.after event).tasks = tasks at h
  cases h with
  | begun url job => exact ⟨old, by rw [List.getElem?_append_left hlt, hold], rfl⟩
  | @taken _ i task progress _ hi _ =>
    rw [List.getElem?_set]
    by_cases hij : i = j
    · subst hij
      rw [hold] at hi
      cases hi
      exact ⟨⟨old.url, progress⟩, by rw [if_pos rfl, if_pos hlt], rfl⟩
    · exact ⟨old, by rw [if_neg hij, hold], rfl⟩
  | ended setup =>
    refine ⟨_, by rw [List.getElem?_map, hold]; rfl, ?_⟩
    dsimp only
    split <;> rfl

/-- While a task waits, an event that is about it changes no node. -/
theorem net_of_waiting {event : Event} {i : Nat} (hevent : event.task? = some i) {url : String}
    {numbers : List Nat} {resume : List (Except Error Message) → Activity Node PUnit}
    (hi : w.tasks[i]? = some ⟨url, .waiting numbers resume⟩) : (w.after event).net = w.net := by
  cases event with
  | move j =>
    cases hevent
    simp only [after, moveTask, hi]
  | hear j outcomes =>
    cases hevent
    simp only [after, hearTask, hi]
    split <;> rfl
  | wake j =>
    cases hevent
    simp only [after, wakeTask, hi]
  | _ => cases hevent

/-- A task was there before, at the same node, and live if it is live now, or it was begun. -/
theorem task_after {event : Event} {j : Nat} {task : Task}
    (hj : (w.after event).tasks[j]? = some task) :
    (∃ old, w.tasks[j]? = some old ∧ old.url = task.url ∧ (task.live = true → old.live = true)) ∨
      (j = w.tasks.length ∧ ∃ url job, event = .begin url job ∧ task = ⟨url, .ready job.activity⟩) := by
  cases hevent : event.task? with
  | none =>
    rcases tasks_after hevent j task hj with hold | ⟨hended, old, hold, hurl⟩ | hbegun
    · exact Or.inl ⟨task, hold, rfl, id⟩
    · exact Or.inl ⟨old, hold, hurl, fun hlive => by rw [hended] at hlive; cases hlive⟩
    · exact Or.inr hbegun
  | some i =>
    left
    rcases tasks_of_task (w := w) hevent with hsame | ⟨old, progress, hi, hlive, hset⟩
    · rw [hsame] at hj
      exact ⟨task, hj, rfl, id⟩
    · rw [hset, List.getElem?_set] at hj
      by_cases hij : i = j
      · subst hij
        rw [if_pos rfl] at hj
        split at hj
        · cases hj
          exact ⟨old, hi, rfl, fun _ => hlive⟩
        · cases hj
      · rw [if_neg hij] at hj
        exact ⟨task, hj, rfl, id⟩

/-- A node has one live task at most. -/
def Single (url : String) (w : World) : Prop :=
  ∀ (i j : Nat) t t', w.tasks[i]? = some t → w.tasks[j]? = some t' → t.url = url → t'.url = url →
    t.live = true → t'.live = true → i = j

/-- A node that begins a task only when it has none that is live goes on to have one at most. -/
theorem Single.after {url : String} {event : Event} (h : w.Single url) (hbegin : ∀ job,
      event = .begin url job → ∀ task ∈ w.tasks, task.url = url → task.live = false) :
    (w.after event).Single url := by
  intro i j t t' hi hj ht ht' hlive hlive'
  -- a task that is begun meets no live one
  have begun {begun old : Task} (hbegun : ∃ name job, event = .begin name job ∧
      begun = ⟨name, .ready job.activity⟩) (hurl : begun.url = url) (hold : old ∈ w.tasks)
      (holdUrl : old.url = url) (holdLive : old.live = true) : False := by
    obtain ⟨name, job, hevent, rfl⟩ := hbegun
    rw [hbegin job (hurl ▸ hevent) old hold holdUrl] at holdLive
    cases holdLive
  rcases task_after hi with ⟨o, ho, hou, hol⟩ | ⟨hlast, hbegun⟩
  · rcases task_after hj with ⟨o', ho', hou', hol'⟩ | ⟨-, hbegun⟩
    · exact h i j o o' ho ho' (hou.trans ht) (hou'.trans ht') (hol hlive) (hol' hlive')
    · exact (begun hbegun ht' (List.mem_of_getElem? ho) (hou.trans ht) (hol hlive)).elim
  · rcases task_after hj with ⟨o', ho', hou', hol'⟩ | ⟨hlast', -⟩
    · exact (begun hbegun ht (List.mem_of_getElem? ho') (hou'.trans ht') (hol' hlive')).elim
    · rw [hlast, hlast']

/-- Tasks stay pending if those that an event is not about rely on what it does, a job begun is sound,
and what a task hears may be heard. -/
theorem pending_after {event : Event} (hsince : since ≤ w.packets.length)
    (h : ∀ task ∈ w.tasks, who task.url → D.Pending since w.packets w.net task)
    (here : ∀ url, who url → D.rely url w.net w.net)
    (others : ∀ (j : Nat) task, event.task? ≠ some j → w.tasks[j]? = some task →
      (w.after event).tasks[j]? = some task → who task.url → task.live = true →
      D.rely task.url w.net (w.after event).net)
    (hbegin : ∀ url job, event = .begin url job → who url →
      D.Sound url job.activity (fun _ _ => True) (w.after event).net)
    (hhear : Hears D since who w event) :
    ∀ task ∈ (w.after event).tasks, who task.url →
      D.Pending since (w.after event).packets (w.after event).net task := by
  intro task htask hwho
  obtain ⟨j, hj⟩ := List.getElem?_of_mem htask
  rcases task_after hj with ⟨old, hold, hurl, -⟩ | ⟨-, url, job, hjob, rfl⟩
  · rw [← hurl] at hwho
    refine pending_of_old hsince hold hj (h old (List.mem_of_getElem? hold) hwho) (here old.url hwho) ?_
      (hhear.mono fun url heq => heq ▸ hwho)
    rintro hevent rfl hlive
    exact others j task hevent hold hj hwho hlive
  · exact hbegin url job hjob hwho

end World

end LogShipping
