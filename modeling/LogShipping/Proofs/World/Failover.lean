import LogShipping.Proofs.World.Joining

/-!
# Worlds without a master

What events do to nodes that were left to themselves, seen from the whole world. What remains in order is
`Succession.Holds`: the net is, what the nodes ask and answer each other is what their terms say, and what
is left of their activities keeps to these terms. One step keeps it (`Holds.after`), and so does a run
(`Holds.run`).

A task that waited for answers when the nodes were left to themselves may hear anything in their place, as
what it sent then may not have got through; it does no harm, since its node has not turned away from the
former master (`Holds.tasks`). That a task was in order then is found from what it was at an earlier
stage of its life, however long ago (`pending_of_tended`).

Two hypotheses of a step are about the world after it and are not proven here: that whoever was promoted
was informed (`Succession.Informed`), and that no follower of the former master gets beyond where
it gets at last (`Succession.Within`). The second one is a matter of how a succession is chosen; the first
one is what a failover depends on.
-/

namespace LogShipping

open Std

namespace Succession

instance {url master : String} {net : Net} : Decidable (Follows url master net) :=
  inferInstanceAs (Decidable
    (∃ n ∈ net.node? url, n.standing.isMaster = false ∧ n.standing.master = master))

end Succession

namespace World

open Succession

variable {w : World} {event : Event} {former : String} {since : Nat}

/-! ## Events -/

instance {o : Outcome} : Decidable (∃ answer, o = .answered answer) :=
  match o with
  | .answered answer => isTrue ⟨answer, rfl⟩
  | .failed _ => isFalse nofun

instance {o : Outcome} : Decidable (∃ error, o = .failed error) :=
  match o with
  | .answered _ => isFalse nofun
  | .failed error => isTrue ⟨error, rfl⟩

instance {job : Job} : Decidable (∃ streak, job = .goOn streak) :=
  match job with
  | .goOn streak => isTrue ⟨streak, rfl⟩
  | .run | .startup | .compareLog _ | .catchUp _ | .confirmMaster _ | .retarget _ | .register _
  | .drain | .pull _ | .probe | .tail | .refresh | .lead => isFalse nofun

/-- What a task gets of one of its messages. -/
structure Hearing where
  /-- The address of the node that the task is of. -/
  url : String
  /-- The number of the message. -/
  number : Nat
  packet : Packet
  outcome : Outcome

/-- What a task gets of each of the messages that it waits for. -/
def hearings (w : World) (i : Nat) (outcomes : List Outcome) : List Hearing :=
  match w.tasks[i]? with
  | some ⟨url, .waiting numbers _⟩ =>
    (numbers.zip outcomes).filterMap fun (number, outcome) =>
      w.packets[number]?.map fun packet => ⟨url, number, packet, outcome⟩
  | _ => []

/-- An event that leaves all nodes but one up, and able to reach each other with what they send from some
message on. A node whose task has ended may begin to tail, or to start up behind the one node. This one
may answer the others or not, and whatever else may happen to it. -/
def Spares (former : String) (since : Nat) (w : World) : Event → Prop
  | .commit url e => w.Admits (.commit url e)
  | .outage url _ => url = former
  | .restart setup => setup.url = former
  | .begin url job => url = former ∨ (∀ task ∈ w.tasks, task.url = url → task.live = false) ∧
      (job = .tail ∨ (∃ streak, job = .goOn streak) ∨ job = .run ∧ Succession.Follows url former w.net)
  | .arrive number => ∀ p ∈ w.packets[number]?, p.peer ≠ former →
      ∀ n ∈ w.net.node? p.peer, n.position + 1 ≠ 0
  | .hear i outcomes => ∀ got ∈ w.hearings i outcomes, since ≤ got.number → got.url ≠ former →
      got.packet.peer ≠ former → ∃ answer, got.outcome = .answered answer
  | _ => True

instance : Decidable (w.Spares former since event) :=
  match event with
  | .commit url e => inferInstanceAs (Decidable (w.Admits (.commit url e)))
  | .outage url _ => inferInstanceAs (Decidable (url = former))
  | .restart setup => inferInstanceAs (Decidable (setup.url = former))
  | .begin url job => inferInstanceAs (Decidable
      (url = former ∨ (∀ task ∈ w.tasks, task.url = url → task.live = false) ∧
        (job = .tail ∨ (∃ streak, job = .goOn streak) ∨ job = .run ∧ Succession.Follows url former w.net)))
  | .arrive number => inferInstanceAs (Decidable
      (∀ p ∈ w.packets[number]?, p.peer ≠ former → ∀ n ∈ w.net.node? p.peer, n.position + 1 ≠ 0))
  | .hear i outcomes => inferInstanceAs (Decidable
      (∀ got ∈ w.hearings i outcomes, since ≤ got.number → got.url ≠ former →
        got.packet.peer ≠ former → ∃ answer, got.outcome = .answered answer))
  | .clock _ | .stop _ | .move _ | .wake _ | .push _ | .pushed _ _ => isTrue trivial

theorem Spares.admits (h : w.Spares former since event) : w.Admits event := by
  cases event with
  | commit url e => exact h
  | _ => trivial

/-- What one of the other nodes hears of what it sent to another one is an answer to that. -/
theorem Spares.answered {i : Nat} {outcomes : List Outcome}
    (h : w.Spares former since (.hear i outcomes)) {url : String} {numbers : List Nat}
    {resume : List (Except Error Message) → Activity Node PUnit}
    (hi : w.tasks[i]? = some ⟨url, .waiting numbers resume⟩) {number : Nat} {o : Outcome}
    (ho : (number, o) ∈ numbers.zip outcomes) (hlate : since ≤ number) {p : Packet}
    (hp : w.packets[number]? = some p) (hurl : url ≠ former) (hpeer : p.peer ≠ former)
    {reply : Except Error Message} (hreply : heard? w.answers number o = some reply) :
    (number, reply) ∈ w.answers := by
  have hgets : ⟨url, number, p, o⟩ ∈ w.hearings i outcomes := by
    simp only [hearings, hi, List.mem_filterMap, Option.map_eq_some_iff]
    exact ⟨(number, o), ho, p, hp, rfl⟩
  obtain ⟨answer, rfl⟩ := h _ hgets hlate hurl hpeer
  rcases heard?_eq_some hreply with ⟨error, hfailed, -⟩ | hanswer
  · cases hfailed
  · exact hanswer

end World

namespace Succession

variable {S : Succession} {since : Nat} {w : World} {event : Event} {url : String} {n n' : Node}

/-! ## What others do to a node -/

/-- What a commit does to a node. -/
theorem step_commit {now : Instant} {e : Entry} (hroom : n.position + 1 ≠ 0) :
    S.Step True w.net url n (n.commit now e).2 := by
  rcases Net.commit_cases now e hroom with ⟨committed, log, hafter, htook, -, hmaster, -⟩ | hsame
  · rw [hafter]
    obtain ⟨hlog, -⟩ := Net.offer_frame { n with log := log } committed
    have hstanding : (Node.offer { n with log := log } committed).standing = n.standing := by
      rw [Node.standing, hlog]
      exact htook.standing
    exact {
      isMaster := congrArg Standing.isMaster hstanding
      master := congrArg Standing.master hstanding
      position := fun _ hfollower => by cases hmaster.symm.trans hfollower
      climbs := by
        have hposition := htook.position
        rw [Node.position, Node.position, hlog, UInt64.le_iff_toNat_le, hposition]
        omega
      answers := by
        rw [hlog]
        exact htook.answers
      trails := fun hfollower => by cases hmaster.symm.trans hfollower }
  · rw [hsame]
    exact Step.refl n

/-- What happens to a remaining node, apart from the steps of its own live tasks. -/
theorem step_of_turn (hgood : w.Good anywhere) (hspares : w.Spares S.former since event)
    (hurl : S.remaining url) (hn : w.net.node? url = some n) (hn' : (w.after event).net.node? url = some n')
    (hidle : ∀ i task, event.task? = some i → w.tasks[i]? = some task → task.url = url →
      task.live = false)
    (hturn : w.Turn event url n n') : S.Step True w.net url n n' := by
  cases hturn with
  | apart hapart =>
    refine Step.of_frame hapart.isMaster hapart.master hapart.position hapart.answers ?_
    -- what is buffered besides was pushed by the node that is followed, which has got as far as that
    intro id e he
    refine (hapart.buffer id e he).imp_right ?_
    rintro ⟨p, hp, accepted, hpush⟩
    have hhonest := hgood.packets p hp
    rw [hpush] at hhonest
    exact hhonest.2
  | outage outage hevent =>
    subst hevent
    exact absurd hspares (S.apart url hurl)
  | commit e hevent =>
    subst hevent
    exact step_commit (hspares.2 n hn)
  | restart setup hevent hsetup hr =>
    subst hevent
    exact absurd (hsetup.symm.trans hspares) (S.apart url hurl)
  | stride i task hevent htask hsame hstride =>
    rw [World.after_of_ended hevent htask (hidle i task hevent htask hsame), hn] at hn'
    cases hn'
    exact Step.refl n

/-- Who follows a master goes on to follow it while others act. -/
theorem Follows.unmoved {master : String} (h : Follows url master w.net)
    (hnode : ∀ n, w.net.node? url = some n →
      ∃ n', (w.after event).net.node? url = some n' ∧ n.Unmoved n') :
    Follows url master (w.after event).net := by
  obtain ⟨n, hn, hfollower, hmaster⟩ := h
  obtain ⟨n', hn', hunmoved⟩ := hnode n hn
  exact ⟨n', hn', hunmoved.isMaster.trans hfollower, hunmoved.master.trans hmaster⟩

/-- What an event does to a node with a live task that it is not about. -/
theorem exists_unmoved (hgood : w.Good anywhere) (hstrides : w.Strides) (hadmits : w.Admits event)
    {j : Nat} {task : Task} (hj : event.task? ≠ some j) (htask : w.tasks[j]? = some task)
    (hstays : (w.after event).tasks[j]? = some task) (hlive : task.live = true)
    (hsingle : w.Single task.url) : ∀ n, w.net.node? task.url = some n →
      ∃ n', (w.after event).net.node? task.url = some n' ∧ n.Unmoved n' := by
  intro n hn
  have hclimbs := (hgood.kept (fun _ _ _ _ => trivial) hadmits).grows.climbs hgood.net
  obtain ⟨n', hn', -⟩ := hclimbs task.url n hn
  obtain ⟨m, hm, hunmoved⟩ := hstrides.unmoved hadmits hj htask hstays hlive
    (fun i other hi hother hothers => hsingle i j other task hi htask hother rfl hothers hlive) hn'
  rw [hn] at hm
  cases hm
  exact ⟨n', hn', hunmoved⟩

/-! ## Before the nodes were left to themselves -/

/-- What a follower of the former master hears may be anything that is honest. -/
theorem hears_of_follows (hgood : w.Good anywhere) (hfollows : Follows url S.former w.net)
    (event : Event) : World.Hears S.discipline 0 (· = url) w event := by
  cases event with
  | hear i outcomes =>
    rintro _ numbers resume _ rfl number o _ _ p hp _ reply hreply
    exact ⟨hgood.heard hp hreply, fun _ => Or.inl hfollows⟩
  | _ => trivial

/-- A follower of the former master relies on nothing but that it goes on to follow it. -/
theorem rely_of_follows {u v : Net} (hgood : v.Good anywhere) (hclimbs : u.Climbs v)
    (hfollows : Follows url S.former v)
    (hnode : ∀ n, u.node? url = some n → ∃ n', v.node? url = some n' ∧ n.Unmoved n') :
    S.discipline.rely url u v :=
  ⟨⟨hgood, hclimbs, fun hleft => absurd hfollows hleft⟩, hnode⟩

/-- A node follows a master, and has one live task at most. -/
structure Tended (former url : String) (w : World) : Prop where
  follows : Follows url former w.net
  single : w.Single url

/-- What is left of a task was in order from the beginning, if its node has followed the former master
all the time. -/
theorem pending_of_tended {events : List Event} {i : Nat} {task : Task} (hgood : w.Good anywhere)
    (hstrides : w.Strides) (hadmits : w.Always World.Admits events)
    (htended : ∀ first, first <+: events → Tended S.former task.url (w.run first))
    (hi : w.tasks[i]? = some task) (h : S.discipline.Pending 0 w.packets w.net task) :
    ∀ last, (w.run events).tasks[i]? = some last →
      S.discipline.Pending 0 (w.run events).packets (w.run events).net last := by
  induction events generalizing w task with
  | nil =>
    intro last hlast
    rw [show w.run [] = w from rfl, hi] at hlast
    cases hlast
    exact h
  | cons event rest ih =>
    have hnow := htended [] List.nil_prefix
    have hnext := htended [event] ((List.prefix_cons_inj event).mpr List.nil_prefix)
    have hkept := hgood.kept (fun _ _ _ _ => trivial) hadmits.1
    obtain ⟨task', htask', hurl⟩ := World.exists_task_after event hi
    refine ih (hgood.after (fun _ _ _ _ => trivial) hadmits.1) (hstrides.after event) hadmits.2 ?_ htask' ?_
    · intro first hfirst
      rw [hurl]
      exact htended (event :: first) ((List.prefix_cons_inj event).mpr hfirst)
    · refine World.pending_of_old (Nat.zero_le _) hi htask' h ?_ ?_
        (hears_of_follows hgood hnow.follows event)
      · exact rely_of_follows hgood.net (Net.Climbs.refl _) hnow.follows fun n hn => ⟨n, hn, .refl n⟩
      · rintro hj rfl hlive
        exact rely_of_follows hkept.good (hkept.grows.climbs hgood.net) hnext.follows
          (exists_unmoved hgood hstrides hadmits.1 hj hi htask' hlive hnow.single)

/-! ## What holds -/

variable (S) in
/-- What holds of a world in which some nodes were left to themselves, after so many messages. -/
structure Holds (since : Nat) (w : World) : Prop where
  good : w.Good anywhere
  strides : w.Strides
  ordered : S.Ordered w.net
  early : since ≤ w.packets.length
  asks : ∀ (k : Nat) p, since ≤ k → w.packets[k]? = some p → S.remaining p.sender →
    S.Asks p.sender w.net p.peer p.message
  answers : ∀ a ∈ w.answers, since ≤ a.1 → ∀ p, w.packets[a.1]? = some p → S.remaining p.sender →
    S.remaining p.peer → S.Told p.sender p.message a.2
  tasks : ∀ task ∈ w.tasks, S.remaining task.url → S.discipline.Pending since w.packets w.net task ∨
    S.discipline.Pending 0 w.packets w.net task ∧ Follows task.url S.former w.net
  single : ∀ url, S.remaining url → w.Single url

theorem Holds.rely (h : S.Holds since w) (url : String) : S.discipline.rely url w.net w.net :=
  ⟨⟨h.good.net, Net.Climbs.refl _, fun _ => h.ordered⟩, fun n hn => ⟨n, hn, .refl n⟩⟩

theorem Holds.climbs (h : S.Holds since w) (hspares : w.Spares S.former since event) :
    w.net.Climbs (w.after event).net :=
  (h.good.kept (fun _ _ _ _ => trivial) hspares.admits).grows.climbs h.good.net

/-- What a remaining node hears from another one is what that one answers. -/
theorem Holds.hears (h : S.Holds since w) (hspares : w.Spares S.former since event) :
    World.Hears S.discipline since S.remaining w event := by
  cases event with
  | hear i outcomes =>
    intro url numbers resume hi hurl number o ho hlate p hp hsender reply hreply
    refine ⟨h.good.heard hp hreply, fun hpeer => Or.inr ?_⟩
    have hanswer := hspares.answered hi ho hlate hp (S.apart url hurl) (S.apart p.peer hpeer) hreply
    exact hsender ▸ h.answers _ hanswer hlate p hp (hsender ▸ hurl) hpeer
  | _ => trivial

/-! ## Steps of tasks -/

/-- An event about a task of a remaining node does nothing, or it takes the task one step on. -/
theorem Holds.advanced (h : S.Holds since w) (hspares : w.Spares S.former since event) {i : Nat}
    (hevent : event.task? = some i) {task : Task} (hi : w.tasks[i]? = some task)
    (hurl : S.remaining task.url) :
    w.after event = w ∨ ∃ sent, World.Advanced S.discipline sent w i task.url (w.after event) := by
  rcases h.tasks task (List.mem_of_getElem? hi) hurl with hpending | ⟨hpending, hfollows⟩
  · exact (World.advanced_after hevent h.early hi hurl hpending (h.rely task.url)
      (h.hears hspares)).imp_right fun hadvanced => ⟨since, hadvanced⟩
  · have hhears := hears_of_follows h.good hfollows event
    exact (@World.advanced_after S.discipline 0 (· = task.url) w event i hevent (Nat.zero_le _) task hi
      rfl hpending (h.rely task.url) hhears).imp_right fun hadvanced => ⟨0, hadvanced⟩

/-- A promotion that leaves the net in order is one of an informed node. -/
theorem Holds.orderly_after (h : S.Holds since w) (hspares : w.Spares S.former since event)
    (hinformed : ∀ url, S.remaining url → S.Informed url w.net (w.after event).net) :
    S.Orderly (w.after event).net := by
  by_cases hown : ∃ i task, event.task? = some i ∧ w.tasks[i]? = some task ∧ S.remaining task.url
  · obtain ⟨i, task, hevent, hi, hurl⟩ := hown
    rcases h.advanced hspares hevent hi hurl with hsame | ⟨sent, hadvanced⟩
    · rw [hsame]
      exact h.ordered.toOrderly
    · rcases hadvanced.net with hsame | ⟨n, n', -, -, hacts⟩
      · rw [hsame]
        exact h.ordered.toOrderly
      · exact hacts h.ordered (hinformed task.url hurl)
  · -- no remaining node takes a step of its own
    have hsteps (url : String) (hurl : S.remaining url) (n' : Node)
        (hn' : (w.after event).net.node? url = some n') :
        ∃ n, w.net.node? url = some n ∧ S.Step True w.net url n n' := by
      obtain ⟨n, hn, hturn⟩ := h.strides.turn hn'
      refine ⟨n, hn, step_of_turn h.good hspares hurl hn hn' ?_ hturn⟩
      intro i task hevent hi hsame
      exact absurd ⟨i, task, hevent, hi, hsame ▸ hurl⟩ hown
    exact {
      known := by
        intro url n' hn'
        obtain ⟨n, hn, -⟩ := h.strides.turn hn'
        exact h.ordered.known url n hn
      there := by
        intro url hurl
        obtain ⟨n, hn⟩ := h.ordered.there url hurl
        obtain ⟨n', hn', -⟩ := h.climbs hspares url n hn
        exact ⟨n', hn'⟩
      member := by
        intro url n' hurl hn'
        obtain ⟨n, hn, hstep⟩ := hsteps url hurl n' hn'
        exact ((h.ordered.member url n hurl hn).step hstep).climbs (h.climbs hspares) }

/-- What a remaining node sends is what its terms allow. -/
theorem Holds.asks_of_new (h : S.Holds since w) (hspares : w.Spares S.former since event) {k : Nat}
    {p : Packet} (hnew : w.packets.length ≤ k) (hp : (w.after event).packets[k]? = some p)
    (hsender : S.remaining p.sender) : S.Asks p.sender w.net p.peer p.message := by
  obtain ⟨more, hmore, hspeaks⟩ := (World.frame_after w event).packets
  have hmem : p ∈ more := by
    rw [hmore, List.getElem?_append_right hnew] at hp
    exact List.mem_of_getElem? hp
  -- all that one step sends is in one list, whoever judges it
  have hsent {D : Discipline} {sent i : Nat} {url : String}
      (hadvanced : World.Advanced D sent w i url (w.after event)) :
      p.sender = url ∧ D.asks url w.net p.peer p.message := by
    obtain ⟨new, hnew, hasks⟩ := hadvanced.packets
    exact hasks p ((List.append_cancel_left (hmore.symm.trans hnew)) ▸ hmem)
  cases hevent : event.task? with
  | none =>
    obtain ⟨n, hn, ⟨host, heq⟩ | ⟨e, -, heq⟩⟩ := hspeaks hevent p hmem
    · rw [heq]
      trivial
    · rw [heq]
      trivial
  | some i =>
    rcases h.strides.advanced hevent with hsame | ⟨task, hi, hadvanced⟩
    · rw [hsame] at hp
      have := (List.getElem?_eq_some_iff.mp hp).1
      omega
    · obtain ⟨hsame, -⟩ := hsent hadvanced
      rw [hsame] at hsender ⊢
      rcases h.advanced hspares hevent hi hsender with hsame | ⟨sent, hadvanced⟩
      · rw [hsame] at hp
        have := (List.getElem?_eq_some_iff.mp hp).1
        omega
      · exact (hsent hadvanced).2

/-- What a remaining node answers to another one is what that one was promised. -/
theorem Holds.told (h : S.Holds since w) {number : Nat} (hlate : since ≤ number) {p : Packet}
    (hp : w.packets[number]? = some p) (hsender : S.remaining p.sender) (hpeer : S.remaining p.peer)
    (hspares : w.Spares S.former since (.arrive number)) {n : Node}
    (hn : w.net.node? p.peer = some n) :
    S.Told p.sender p.message
      ((n.handle w.net.now p.message).1.reply.mapError (Cluster.remoteError p.peer)) := by
  have hasks := h.asks number p hlate hp hsender
  cases hm : p.message with
  | readLog reader lastSeen limit chunk =>
    rw [hm] at hasks
    rcases hasks hpeer with hreached | hle
    · -- the reader is not ahead and the store answers, so there is a page
      left
      obtain ⟨m, hm', hlastSeen⟩ := hreached
      rw [hn] at hm'
      cases hm'
      obtain ⟨entries, hholds, -⟩ := (h.good.net p.peer n hn).log
      obtain ⟨-, hpage⟩ :=
        Log.ensures_readLog hholds.rows hholds.history n.position w.net.now lastSeen limit
      show ∃ url lastSeen' limit' chunk',
        (n.handleReadLog w.net.now reader lastSeen limit).1.reply.mapError
          (Cluster.remoteError p.peer) = .ok (.readLog url lastSeen' limit' chunk')
      unfold Node.handleReadLog
      split
      · next error n' heq =>
        have hfailed : ((Log.readLog n.position w.net.now lastSeen limit).run.run n.log.store).1 =
            .error error := congrArg Prod.fst heq
        rcases hpage with ⟨chunk, hchunk, -⟩ | ⟨hahead, -⟩ | ⟨-, e, he, hlast⟩ | ⟨hrefused, -⟩
        · rw [hfailed] at hchunk
          cases hchunk
        · exact absurd hlastSeen (UInt64.not_le.mpr hahead)
        · exact absurd hlast (Counters.succ_ne_zero_of_le (hholds.le_position he)
            (hspares p hp (S.apart p.peer hpeer) n hn))
        · exact absurd ((h.ordered.member p.peer n hpeer hn).answers .scan) hrefused
      · exact ⟨_, _, _, _, rfl⟩
    · exact Or.inr hle
  | _ => trivial

/-! ## Every event -/

/-- What is left of a task of a remaining node goes on to keep to the terms. -/
theorem Holds.pending_after (h : S.Holds since w) (hspares : w.Spares S.former since event)
    (hordered : S.Ordered (w.after event).net) {j : Nat} {old task : Task}
    (hold : w.tasks[j]? = some old) (htask : (w.after event).tasks[j]? = some task)
    (hurl : S.remaining old.url) :
    S.discipline.Pending since (w.after event).packets (w.after event).net task ∨
      S.discipline.Pending 0 (w.after event).packets (w.after event).net task ∧
        Follows old.url S.former (w.after event).net := by
  have hgood := h.good.after (fun _ _ _ _ => trivial) hspares.admits
  have hnode (hj : event.task? ≠ some j) (hsame : task = old) (hlive : task.live = true) :=
    exists_unmoved h.good h.strides hspares.admits hj hold (hsame ▸ htask) (hsame ▸ hlive)
      (h.single old.url hurl)
  have hothers (hj : event.task? ≠ some j) (hsame : task = old) (hlive : task.live = true) :
      S.discipline.rely old.url w.net (w.after event).net :=
    ⟨⟨hgood.net, h.climbs hspares, fun _ => hordered⟩, hnode hj hsame hlive⟩
  have hkeeps (hpending : S.discipline.Pending since w.packets w.net old) :
      S.discipline.Pending since (w.after event).packets (w.after event).net task :=
    World.pending_of_old h.early hold htask hpending (h.rely old.url) hothers
      ((h.hears hspares).mono fun url heq => heq ▸ hurl)
  rcases h.tasks old (List.mem_of_getElem? hold) hurl with hpending | ⟨hpending, hfollows⟩
  · exact Or.inl (hkeeps hpending)
  obtain ⟨name, progress⟩ := old
  cases progress with
  | waiting numbers resume =>
    -- what it hears for a message of before may be anything, as its node has not turned away
    cases hlive : task.live with
    | false => exact Or.inl (Discipline.pending_of_ended hlive)
    | true =>
      refine Or.inr ⟨World.pending_of_old (Nat.zero_le _) hold htask hpending (h.rely name) hothers
        (hears_of_follows h.good hfollows event), ?_⟩
      by_cases hj : event.task? = some j
      · rw [World.net_of_waiting hj hold]
        exact hfollows
      · exact hfollows.unmoved (hnode hj (World.eq_of_live hj hold htask hlive) hlive)
  | ready activity => exact Or.inl (hkeeps hpending)
  | resting resume => exact Or.inl (hkeeps hpending)
  | ended => exact Or.inl (hkeeps trivial)

/-- A task that begins at a remaining node is in order. -/
theorem sound_begin {job : Job}
    (hspares : w.Spares S.former since (.begin url job)) (hurl : S.remaining url) :
    S.discipline.Sound url job.activity (fun _ _ => True) w.net := by
  rcases hspares with hformer | ⟨-, rfl | ⟨streak, rfl⟩ | ⟨rfl, hfollows⟩⟩
  · exact absurd hformer (S.apart url hurl)
  · exact sound_finish (keeps_tail hurl)
  · exact sound_finish (keeps_goOn hurl streak)
  · exact sound_stage hurl hfollows .run

/-- Every event that leaves the remaining nodes up keeps what holds, as long as they get no further than
they get at last, and whoever is promoted is informed. -/
theorem Holds.after (h : S.Holds since w) (hspares : w.Spares S.former since event)
    (hinformed : ∀ url, S.remaining url → S.Informed url w.net (w.after event).net)
    (hwithin : S.Within (w.after event).net) : S.Holds since (w.after event) := by
  have hclimbs := h.climbs hspares
  have hordered : S.Ordered (w.after event).net := ⟨h.orderly_after hspares hinformed, hwithin⟩
  obtain ⟨more, hmore⟩ := World.packets_after w event
  exact {
    good := h.good.after (fun _ _ _ _ => trivial) hspares.admits
    strides := h.strides.after event
    ordered := hordered
    early := by
      rw [hmore, List.length_append]
      exact Nat.le_add_right_of_le h.early
    asks := by
      intro k p hlate hp hsender
      by_cases hk : k < w.packets.length
      · rw [hmore, List.getElem?_append_left hk] at hp
        exact (h.asks k p hlate hp hsender).climbs hclimbs
      · exact (h.asks_of_new hspares (by omega) hp hsender).climbs hclimbs
    answers := by
      intro a ha hlate p hp hsender hpeer
      obtain ⟨hsent, hanswer | ⟨n, rfl, hn, hreply⟩⟩ := h.good.answered_after ha hp
      · exact h.answers a hanswer hlate p hsent hsender hpeer
      · rw [hreply]
        exact h.told hlate hsent hsender hpeer hspares hn
    tasks := by
      intro task htask hurl
      obtain ⟨j, hj⟩ := List.getElem?_of_mem htask
      rcases World.task_after hj with ⟨old, hthere, hsame, -⟩ | ⟨-, url, job, rfl, rfl⟩
      · rw [← hsame] at hurl ⊢
        exact h.pending_after hspares hordered hthere hj hurl
      · exact Or.inl (sound_begin (w := w) hspares hurl)
    single := by
      intro url hurl
      apply (h.single url hurl).after
      rintro job rfl
      exact (hspares.resolve_left (S.apart url hurl)).1 }

/-- What holds when the nodes are left to themselves holds ever after. -/
theorem Holds.run {events : List Event} (h : S.Holds since w)
    (hspares : w.Always (World.Spares S.former since) events)
    (hinformed : w.Always (fun w event => ∀ url, S.remaining url →
      S.Informed url w.net (w.after event).net) events)
    (hwithin : ∀ first, first <+: events → S.Within (w.run first).net) :
    S.Holds since (w.run events) := by
  induction events generalizing w with
  | nil => exact h
  | cons event rest ih =>
    refine ih (h.after hspares.1 hinformed.1 (hwithin [event] ?_)) hspares.2 hinformed.2 ?_
    · exact (List.prefix_cons_inj event).mpr List.nil_prefix
    · intro first hprefix
      exact hwithin (event :: first) ((List.prefix_cons_inj event).mpr hprefix)

end Succession

end LogShipping
