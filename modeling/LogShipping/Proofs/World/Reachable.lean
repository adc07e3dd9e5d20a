import LogShipping.Proofs.World.Lifecycle

/-!
# What holds in every reachable world

In a good world the net is good, all messages under way are honest, every answer is one that its peer
may have given, and all activities keep to the terms of `Net.backing`. Every event leads from a good
world to a good world (`World.Good.after`), logs only grow on the way, and the position of a master
moves by commits alone and by one at a time (`World.Kept.masters`).

There are events of two sorts. One that is about a task takes a step of that task, and what the step
does is known from the terms that the task keeps to (`Kept.advanced`). All others do one thing to one
node or one message each, and are gone through case by case. That other tasks keep to their terms
follows from what all events have in common (`pending_after`).

What an event may bring is bounded (`World.Admits`): an entry has a form of fewer than 2^64 octets, a
commit finds an id left, and only a node of origin commits as a master. An event is one step, a commit
as much as any; what a reader may see in the middle of a commit is not in a world.
-/

namespace LogShipping

theorem Standing.lose_frame (s : Standing) (follower : String) : (s.lose follower).self = s.self ∧
    (s.lose follower).isMaster = s.isMaster ∧ (s.lose follower).master = s.master := by
  unfold lose
  split <;> exact ⟨rfl, rfl, rfl⟩

namespace World

/-! ## Good worlds -/

/-- Nothing in a world tells more than is vouched for. -/
structure Good (origin : String → Prop) (w : World) : Prop where
  net : w.net.Good origin
  packets : ∀ p ∈ w.packets, w.net.Honest origin p.message
  answers : ∀ answer ∈ w.answers, ∃ p, w.packets[answer.1]? = some p ∧
    w.net.HonestAnswer origin p.peer answer.2
  tasks : ∀ task ∈ w.tasks, (Net.backing origin).Pending 0 w.packets w.net task

/-- What an event may bring: an entry fits into memory, the last log id has not been used up, and only
nodes of origin are masters when they commit. -/
def Admits (w : World) : Event → Prop
  | .commit url e => e.Fits ∧ ∀ n, w.net.node? url = some n → n.position + 1 ≠ 0
  | _ => True

/-- What is said of an event in a world is so for each of some events when it comes. -/
def Always (P : World → Event → Prop) (w : World) : List Event → Prop
  | [] => True
  | event :: rest => P w event ∧ (w.after event).Always P rest

instance {w : World} {event : Event} : Decidable (w.Admits event) :=
  match event with
  | .commit url e => inferInstanceAs
      (Decidable ((Entry.codec.write e).length < Bytes.values 8 ∧
        ∀ n ∈ w.net.node? url, n.position + 1 ≠ 0))
  | .clock _ | .outage _ _ | .restart _ | .stop _ | .begin _ _ | .move _ | .arrive _ | .hear _ _
  | .wake _ | .push _ | .pushed _ _ => isTrue trivial

/-- Whether something is so throughout a run is found out event by event. -/
def decideAlways (P : World → Event → Prop) [∀ w event, Decidable (P w event)] :
    (events : List Event) → (w : World) → Decidable (w.Always P events)
  | [], _ => isTrue trivial
  | event :: rest, w =>
    have := decideAlways P rest (w.after event)
    inferInstanceAs (Decidable (P w event ∧ (w.after event).Always P rest))

instance {P : World → Event → Prop} [∀ w event, Decidable (P w event)] {w : World}
    {events : List Event} : Decidable (w.Always P events) := decideAlways P events w

/-- Masters are nodes of origin. -/
def MastersFrom (origin : String → Prop) (w : World) : Prop :=
  ∀ url n, w.net.node? url = some n → n.standing.isMaster = true → origin url

/-- What an event makes of a good world, the activities apart. -/
structure Kept (origin : String → Prop) (w : World) (event : Event) (w' : World) : Prop where
  grows : w.net.Grows w'.net
  good : w'.net.Good origin
  packets : ∀ p ∈ w'.packets, p ∈ w.packets ∨ w'.net.Honest origin p.message
  answers : ∀ answer ∈ w'.answers, answer ∈ w.answers ∨
    ∃ p, w.packets[answer.1]? = some p ∧ w'.net.HonestAnswer origin p.peer answer.2
  masters : ∀ url n, w.net.node? url = some n → n.standing.isMaster = true →
    ∃ n', w'.net.node? url = some n' ∧ (n'.position = n.position ∨
      n'.position.toNat = n.position.toNat + 1 ∧ ∃ e, event = .commit url e)

/-! ## Conditions on runs -/

section Always

variable {P Q : World → Event → Prop} {w : World} {events : List Event}

theorem run_append (w : World) (first second : List Event) :
    w.run (first ++ second) = (w.run first).run second := List.foldl_append

theorem always_append {P : World → Event → Prop} {first second : List Event} :
    w.Always P (first ++ second) ↔ w.Always P first ∧ (w.run first).Always P second := by
  induction first generalizing w with
  | nil =>
    constructor
    · exact fun h => ⟨trivial, h⟩
    · exact fun h => h.2
  | cons event rest ih =>
    show P w event ∧ (w.after event).Always P (rest ++ second) ↔ _
    rw [ih]
    exact and_assoc.symm

theorem always_iff : w.Always P events ↔
    ∀ first event rest, first ++ event :: rest = events → P (w.run first) event := by
  induction events generalizing w with
  | nil =>
    constructor
    · intro _ first event rest heq
      cases first <;> cases heq
    · exact fun _ => trivial
  | cons next events ih =>
    constructor
    · rintro ⟨hnext, hrest⟩ first event rest heq
      cases first with
      | nil =>
        cases heq
        exact hnext
      | cons other first =>
        cases heq
        exact ih.mp hrest first event rest rfl
    · intro h
      refine ⟨h [] next events rfl, ih.mpr ?_⟩
      rintro first event rest rfl
      exact h (next :: first) event rest rfl

theorem Always.mono (h : w.Always P events) (hPQ : ∀ w event, P w event → Q w event) :
    w.Always Q events :=
  always_iff.mpr fun first event rest heq => hPQ _ _ (always_iff.mp h first event rest heq)

theorem Always.take {first : List Event} (h : w.Always P events) (hfirst : first <+: events) :
    w.Always P first := by
  obtain ⟨rest, rfl⟩ := hfirst
  exact (always_append.mp h).1

end Always

variable {origin : String → Prop} {w w' : World} {event : Event}

/-! ## Steps of the net -/

/-- An event that changes no node, and neither sends nor answers anything. -/
theorem Kept.of_nodes (h : w.Good origin) (hnodes : w'.net.nodes = w.net.nodes)
    (hpackets : w'.packets = w.packets) (hanswers : w'.answers = w.answers) :
    Kept origin w event w' := by
  have hnode (url : String) : w'.net.node? url = w.net.node? url := by
    rw [Net.node?, hnodes]
    rfl
  have hgrows : w.net.Grows w'.net := by
    intro url n hn
    rw [hnode]
    exact Net.Grows.refl w.net url n hn
  exact {
    grows := hgrows
    good := by
      intro url n hn
      rw [hnode] at hn
      exact (h.net url n hn).grows h.net hgrows
    packets := by
      intro p hp
      rw [hpackets] at hp
      exact Or.inl hp
    answers := by
      intro a ha
      rw [hanswers] at ha
      exact Or.inl ha
    masters := by
      intro url n hn _
      rw [hnode]
      exact ⟨n, hn, Or.inl rfl⟩ }

theorem Kept.same (h : w.Good origin) : Kept origin w event w := Kept.of_nodes h rfl rfl rfl

/-- Where the positions of masters rest, none of them has moved. -/
theorem masters_of_rests (h : w.net.Rests w'.net) : ∀ url n, w.net.node? url = some n →
    n.standing.isMaster = true → ∃ n', w'.net.node? url = some n' ∧ (n'.position = n.position ∨
      n'.position.toNat = n.position.toNat + 1 ∧ ∃ e, event = .commit url e) := by
  intro url n hn hmaster
  obtain ⟨n', hn', hposition⟩ := h url n hn hmaster
  exact ⟨n', hn', Or.inl hposition⟩

/-- An event that does nothing but that a node takes an admissible step and that messages are sent. -/
theorem Kept.step (h : w.Good origin) {url : String} {n n' : Node} (hn : w.net.node? url = some n)
    (hstep : Net.Admissible origin w.net n n') (hposition : n'.position = n.position)
    (hnet : w'.net = w.net.put url n') (more : List Packet) (hmore : w'.packets = w.packets ++ more)
    (hhonest : ∀ p ∈ more, w.net.Honest origin p.message) (hanswers : w'.answers = w.answers) :
    Kept origin w event w' := by
  obtain ⟨hgrows, hgood⟩ := h.net.step hn hstep
  rw [← hnet] at hgrows hgood
  exact {
    grows := hgrows
    good := hgood
    packets := by
      intro p hp
      rw [hmore] at hp
      rcases List.mem_append.mp hp with hp | hp
      · exact Or.inl hp
      · exact Or.inr ((hhonest p hp).grows h.net hgrows)
    answers := by
      intro a ha
      rw [hanswers] at ha
      exact Or.inl ha
    masters := by
      apply masters_of_rests
      rw [hnet]
      exact Net.rests_put hn fun _ => hposition }

theorem Kept.onNode (h : w.Good origin) {url : String} {work : Node → Node}
    (hwork : ∀ n, w.net.node? url = some n →
      Net.Admissible origin w.net n (work n) ∧ (work n).position = n.position) :
    Kept origin w event (w.onNode url work) := by
  unfold World.onNode
  split
  · next n hn =>
    exact Kept.step h hn (hwork n hn).1 (hwork n hn).2 rfl [] (List.append_nil _).symm nofun rfl
  · exact Kept.same h

theorem Kept.commit (h : w.Good origin) (hmasters : w.MastersFrom origin) {url : String} {e : Entry}
    (hadmits : w.Admits (.commit url e)) : Kept origin w (.commit url e) (w.after (.commit url e)) := by
  show Kept origin w _ (w.onNode url fun n => (n.commit w.net.now e).2)
  unfold World.onNode
  split
  · next n hn =>
    have hroom := hadmits.2 n hn
    obtain ⟨hgrows, hgood⟩ := h.net.commit w.net.now hn hadmits.1 hroom (hmasters url n hn)
    exact {
      grows := hgrows
      good := hgood
      packets := fun _ hp => Or.inl hp
      answers := fun _ ha => Or.inl ha
      masters := by
        intro other m hm _
        show ∃ n', (w.net.put url (n.commit w.net.now e).2).node? other = some n' ∧ _
        rw [Net.node?_put]
        by_cases heq : url = other
        · subst heq
          rw [hn] at hm
          cases hm
          refine ⟨(n.commit w.net.now e).2, if_pos rfl, ?_⟩
          rcases Net.commit_cases w.net.now e hroom with ⟨committed, log, hafter, htook, -⟩ | hsame
          · rw [hafter, Node.position, (Net.offer_frame { n with log := log } committed).1]
            exact Or.inr ⟨htook.position, e, rfl⟩
          · rw [hsame]
            exact Or.inl rfl
        · rw [if_neg heq]
          exact ⟨m, hm, Or.inl rfl⟩ }
  · exact Kept.same h

theorem Kept.restart (h : w.Good origin) (setup : Setup) :
    Kept origin w event (w.reopen setup) := by
  unfold reopen
  split
  · next old hold =>
    split
    · next n hn =>
      obtain ⟨hgrows, hgood⟩ := h.net.reopen hold rfl hn
      exact {
        grows := hgrows
        good := hgood
        packets := fun _ hp => Or.inl hp
        answers := fun _ ha => Or.inl ha
        masters := masters_of_rests (Net.rests_put hold fun _ => h.net.position_reopen hold hn) }
    · exact Kept.same h
  · exact Kept.same h

theorem Kept.arrive (h : w.Good origin) {number : Nat} {packet : Packet}
    (hpacket : w.packets[number]? = some packet) :
    Kept origin w event (w.answer number packet) := by
  unfold answer
  split
  · next n hn =>
    -- the message was honest when it was sent, and has stayed so
    have hhonest := h.packets packet (List.mem_of_getElem? hpacket)
    have hanswers := Net.handle_honest w.net.now h.net hn hhonest
    obtain ⟨hgrows, hgood⟩ := h.net.step hn hanswers.step
    exact {
      grows := hgrows
      good := hgood
      packets := by
        intro p hp
        rcases List.mem_append.mp hp with hp | hp
        · exact Or.inl hp
        · right
          cases ha : (n.handle w.net.now packet.message).1.announcement with
          | none =>
            rw [ha] at hp
            cases hp
          | some a =>
            rw [ha] at hp
            obtain ⟨target, -, rfl⟩ := List.mem_map.mp hp
            exact (hanswers.announcement a ha).grows h.net hgrows
      answers := by
        intro a ha
        rcases List.mem_append.mp ha with ha | ha
        · exact Or.inl ha
        · rw [List.mem_singleton.mp ha]
          exact Or.inr ⟨packet, hpacket, hanswers.reply.mapError.grows h.net hgrows⟩
      masters := masters_of_rests (Net.rests_put hn fun _ => hanswers.position) }
  · exact Kept.same h

theorem Kept.push (h : w.Good origin) (url : String) : Kept origin w event (w.pushNext url) := by
  unfold pushNext
  split
  · next n hn =>
    obtain ⟨hstep, hlog, hpush⟩ := Net.nextPush_honest h.net hn
    have hposition : (Cluster.nextPush n).2.position = n.position := congrArg Log.position hlog
    split
    · next e target n' heq =>
      rw [heq] at hstep hposition hpush
      refine Kept.step h hn hstep hposition rfl _ rfl ?_ rfl
      intro p hp
      rw [List.mem_singleton.mp hp]
      exact hpush e target rfl
    · next n' heq =>
      rw [heq] at hstep hposition
      exact Kept.step h hn hstep hposition rfl [] (List.append_nil _).symm nofun rfl
  · exact Kept.same h

theorem Kept.pushed (h : w.Good origin) (number : Nat) (outcome : Outcome) :
    Kept origin w event (w.notePush number outcome) := by
  rcases notePush_eq w number outcome with heq | ⟨sender, target, heq⟩
  · rw [heq]
    exact Kept.same h
  · rw [heq]
    apply Kept.onNode h
    intro n hn
    have hnode := h.net sender n hn
    exact ⟨hnode.admissible (n.standing.lose_frame target).1 rfl rfl rfl hnode.hosts hnode.buffer
      fun _ h => h, rfl⟩

/-- What may be heard of a message is an answer that the peer may have given, or a failure. -/
theorem Good.heard (h : w.Good origin) {k : Nat} {p : Packet} (hp : w.packets[k]? = some p)
    {o : Outcome} {reply : Except Error Message} (hreply : heard? w.answers k o = some reply) :
    w.net.HonestAnswer origin p.peer reply := by
  rcases heard?_eq_some hreply with ⟨error, -, rfl⟩ | hanswer
  · exact fun m hm => nomatch hm
  · obtain ⟨p', hp', hhonest⟩ := h.answers _ hanswer
    rw [hp] at hp'
    cases hp'
    exact hhonest

/-- What answers a message after an event answered it before, or is what its node answers now. -/
theorem Good.answered_after (h : w.Good origin) {a : Nat × Except Error Message}
    (ha : a ∈ (w.after event).answers) {p : Packet} (hp : (w.after event).packets[a.1]? = some p) :
    w.packets[a.1]? = some p ∧ (a ∈ w.answers ∨ ∃ n, event = .arrive a.1 ∧
      w.net.node? p.peer = some n ∧
      a.2 = (n.handle w.net.now p.message).1.reply.mapError (Cluster.remoteError p.peer)) := by
  obtain ⟨more, hmore⟩ := packets_after w event
  have hold {p' : Packet} (hp' : w.packets[a.1]? = some p') : p' = p := by
    rw [hmore, List.getElem?_append_left (List.getElem?_eq_some_iff.mp hp').1, hp'] at hp
    exact Option.some.inj hp
  rcases answers_after w event a ha with hanswer | ⟨number, p', n, rfl, hp', hn, rfl⟩
  · obtain ⟨p', hp', -⟩ := h.answers a hanswer
    obtain rfl := hold hp'
    exact ⟨hp', Or.inl hanswer⟩
  · obtain rfl := hold hp'
    exact ⟨hp', Or.inr ⟨n, rfl, hn, rfl⟩⟩

theorem Good.hears (h : w.Good origin) (event : Event) :
    Hears (Net.backing origin) 0 (fun _ => True) w event := by
  cases event with
  | hear i outcomes =>
    intro url numbers resume _ _ number o _ _ p hp _ reply hreply
    exact h.heard hp hreply
  | _ => trivial

theorem Good.rely (h : w.Good origin) (url : String) : (Net.backing origin).rely url w.net w.net :=
  ⟨h.net, h.net, Net.Grows.refl _⟩

/-- An event about a task takes one step of it, if it does anything. -/
theorem Good.advanced (h : w.Good origin) {i : Nat} (hevent : event.task? = some i) :
    w.after event = w ∨ ∃ task, w.tasks[i]? = some task ∧
      Advanced (Net.backing origin) 0 w i task.url (w.after event) := by
  cases hi : w.tasks[i]? with
  | none => exact Or.inl (after_of_no_task hevent hi)
  | some task =>
    rcases advanced_after hevent (Nat.zero_le _) hi trivial (h.tasks task (List.mem_of_getElem? hi))
      (h.rely task.url) (h.hears event) with hsame | hadvanced
    · exact Or.inl hsame
    · exact Or.inr ⟨task, rfl, hadvanced⟩

/-- One step of a task. -/
theorem Kept.advanced (h : w.Good origin) {i : Nat} {url : String}
    (hadvanced : Advanced (Net.backing origin) 0 w i url w') : Kept origin w event w' := by
  obtain ⟨more, hmore, hasks⟩ := hadvanced.packets
  have hnet : w'.net.Good origin ∧ w.net.Grows w'.net ∧ w.net.Rests w'.net := by
    rcases hadvanced.net with hsame | ⟨n, n', -, -, hacts⟩
    · rw [hsame]
      exact ⟨h.net, Net.Grows.refl _, fun url n hn _ => ⟨n, hn, rfl⟩⟩
    · exact hacts
  obtain ⟨hgood, hgrows, hrests⟩ := hnet
  exact {
    grows := hgrows
    good := hgood
    packets := by
      intro p hp
      rw [hmore] at hp
      rcases List.mem_append.mp hp with hp | hp
      · exact Or.inl hp
      · exact Or.inr ((hasks p hp).2.grows h.net hgrows)
    answers := by
      intro a ha
      rw [hadvanced.answers] at ha
      exact Or.inl ha
    masters := masters_of_rests hrests }

/-! ## Events -/

theorem Good.kept (h : w.Good origin) (hmasters : w.MastersFrom origin) (hadmits : w.Admits event) :
    Kept origin w event (w.after event) := by
  have task {i : Nat} (hevent : event.task? = some i) : Kept origin w event (w.after event) := by
    rcases h.advanced hevent with hsame | ⟨task, -, hadvanced⟩
    · rw [hsame]
      exact Kept.same h
    · exact Kept.advanced h hadvanced
  cases event with
  | clock now => exact Kept.of_nodes h rfl rfl rfl
  | commit url e => exact Kept.commit h hmasters hadmits
  | outage url outage =>
    apply Kept.onNode h
    intro n hn
    have hnode := h.net url n hn
    exact ⟨hnode.admissible rfl rfl rfl rfl hnode.hosts hnode.buffer fun _ h => h, rfl⟩
  | restart setup => exact Kept.restart h setup
  | stop url =>
    apply Kept.onNode h
    intro n hn
    have hnode := h.net url n hn
    exact ⟨hnode.admissible rfl rfl rfl rfl hnode.hosts hnode.buffer fun _ h => h, rfl⟩
  | begin url job => exact Kept.of_nodes h rfl rfl rfl
  | move i => exact task rfl
  | arrive number =>
    dsimp only [World.after]
    split
    · next packet hpacket => exact Kept.arrive h hpacket
    · exact Kept.same h
  | hear i outcomes => exact task rfl
  | wake i => exact task rfl
  | push url => exact Kept.push h url
  | pushed number outcome => exact Kept.pushed h number outcome

/-- Every event leads from a good world to a good world. -/
theorem Good.after (h : w.Good origin) (hmasters : w.MastersFrom origin) (hadmits : w.Admits event) :
    (w.after event).Good origin := by
  have hkept := h.kept hmasters hadmits
  obtain ⟨more, hmore⟩ := packets_after w event
  exact {
    net := hkept.good
    packets := by
      intro p hp
      rcases hkept.packets p hp with hold | hnew
      · exact (h.packets p hold).grows h.net hkept.grows
      · exact hnew
    answers := by
      intro a ha
      have hanswer : ∃ p, w.packets[a.1]? = some p ∧
          (w.after event).net.HonestAnswer origin p.peer a.2 := by
        rcases hkept.answers a ha with hold | hnew
        · obtain ⟨p, hp, hhonest⟩ := h.answers a hold
          exact ⟨p, hp, hhonest.grows h.net hkept.grows⟩
        · exact hnew
      obtain ⟨p, hp, hhonest⟩ := hanswer
      refine ⟨p, ?_, hhonest⟩
      rw [hmore, List.getElem?_append_left (List.getElem?_eq_some_iff.mp hp).1]
      exact hp
    tasks := fun task htask => pending_after (Nat.zero_le _) (fun task htask _ => h.tasks task htask)
      (fun url _ => h.rely url) (fun _ _ _ _ _ _ _ => ⟨h.net, hkept.good, hkept.grows⟩)
      (fun _ job _ _ => Net.Yields.activity job) (h.hears event) task htask trivial }

end World

end LogShipping
