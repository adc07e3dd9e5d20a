import LogShipping.Proofs.Activity.Beside
import LogShipping.Proofs.World.Election
import LogShipping.Proofs.World.Midway
import LogShipping.Proofs.World.Probing

/-!
# When nodes are informed

At most one node takes over if those that are promoted are informed (`World.Informed`). They are, in a
cluster that is left to itself while nobody tails and all nodes know each other (`Poised`), if three
things are so (`informed_of_settles`): the clock does not go back; no host table arrives that leaves one
of the nodes out (`Attends`); and once a node has answered the probe of another one, it gets no further as
a follower of the former master (`Settles`).

The first two make a table keep what it heard since a streak began, and the third makes what it heard
enough. That the probe was made at all, and since the streak began, is what `Proofs.World.Probing` says of
the lifecycle. Here its terms are carried through a run: what others do to a node takes nothing back of
what the node knows (`Watches.kept_after`), and an answer to a probe tells as much as was promised
(`Watches.after`).

The third condition is about what the former master had pushed before it was gone, and nothing in the
program looks after it: `run_promotes_two` is what comes of it. Nodes that are left to themselves in the
middle of a streak may be informed as well, but that depends on what they sent before.
-/

namespace LogShipping

open Std

/-- A message that leaves a host out of no table: it brings none, or one with that host in it. -/
def Message.Includes (url : String) : Message → Prop
  | .setHosts hosts => ∃ h ∈ hosts, h.url = url
  | _ => True

instance {url : String} {m : Message} : Decidable (m.Includes url) :=
  match m with
  | .setHosts hosts => inferInstanceAs (Decidable (∃ h ∈ hosts, h.url = url))
  | .register .. | .readOne .. | .readLog .. | .addHost _ | .pushTransaction .. | .status .. =>
    isTrue trivial

namespace World

variable {former : String} {w start : World} {before events : List Event} {event : Event}

/-! ## Conditions -/

/-- All nodes but one are idle and know each other, and their thresholds are as a configuration demands
them. -/
structure Poised (former : String) (w : World) : Prop where
  idle : ∀ task ∈ w.tasks, task.url ≠ former → task.live = false
  known : ∀ url n, w.net.node? url = some n → url ≠ former → ∀ other m,
    w.net.node? other = some m → other ≠ former → (n.hosts.host? other).isSome = true
  thresholds : ∀ url n, w.net.node? url = some n → url ≠ former →
    0 < n.settings.hostUpdateThreshold ∧
      n.settings.hostUpdateThreshold < n.settings.electionThreshold

/-- An event that does not set the clock back. Of all nodes but one, those that begin something begin to
tail, and no table reaches them that leaves one of them out. -/
def Attends (former : String) (w : World) : Event → Prop
  | .clock now => w.net.now ≤ now
  | .begin url job => url = former ∨ job = .tail ∨ job = .goOn {}
  | .arrive number => ∀ p ∈ w.packets[number]?, p.peer ≠ former → ∀ url n,
      w.net.node? url = some n → url ≠ former → p.message.Includes url
  | _ => True

instance : Decidable (w.Attends former event) :=
  match event with
  | .clock now => inferInstanceAs (Decidable (w.net.now ≤ now))
  | .begin url job => inferInstanceAs (Decidable (url = former ∨ job = .tail ∨ job = .goOn {}))
  | .arrive number => inferInstanceAs (Decidable (∀ p ∈ w.packets[number]?, p.peer ≠ former →
      ∀ url n, w.net.node? url = some n → url ≠ former → p.message.Includes url))
  | .commit _ _ | .outage _ _ | .stop _ | .restart _ | .move _ | .hear _ _ | .wake _ | .push _
  | .pushed _ _ => isTrue trivial

/-- Once a node has answered the probe of another one, it gets no further as long as it follows the
former master. -/
def Settles (former : String) (w : World) (events : List Event) : Prop :=
  ∀ first number more, first ++ .arrive number :: more <+: events → w.packets.length ≤ number →
    ∀ p, (w.run first).packets[number]? = some p → p.message = .statusRequest →
    p.sender ≠ former → p.peer ≠ former → p.peer ≠ p.sender →
    ∀ n, (w.run first).net.node? p.peer = some n → ∀ position,
    (w.run (first ++ .arrive number :: more)).tailing? former p.peer = some position →
      position ≤ n.position

/-- An event that is about a task works on the node of the task, if it works on any. -/
theorem url_of_place? {i : Nat} {task : Task} {url : String} (hevent : event.task? = some i)
    (hi : w.tasks[i]? = some task) (hplace : w.place? event = some url) : task.url = url := by
  cases event with
  | move j =>
    cases hevent
    simpa only [place?, hi, Option.map_some, Option.some.injEq] using hplace
  | wake j =>
    cases hevent
    simpa only [place?, hi, Option.map_some, Option.some.injEq] using hplace
  | hear j outcomes => cases hplace
  | _ => cases hevent

end World

namespace Probing

open Discipline

variable {P : Probing} {former url : String} {since : Nat} {w : World} {event : Event} {n n' : Node}

/-! ## What others do to a node -/

theorem gains_handleReadLog (n : Node) (now : Instant) (peer : String) (lastSeen : LogId)
    (limit : UInt32) : n.hosts.Gains (n.handleReadLog now peer lastSeen limit).2.hosts := by
  have hread : (n.onLog (Log.onStore (Log.readLog n.position now lastSeen limit))).2.hosts =
      n.hosts := rfl
  unfold Node.handleReadLog
  split
  · next heq =>
    rw [heq] at hread
    exact hread ▸ HostTable.Gains.refl _
  · next m heq =>
    rw [heq] at hread
    rw [← hread]
    show m.hosts.Gains (m.noteReader now peer lastSeen _).hosts
    unfold Node.noteReader
    split
    · exact HostTable.Gains.refl _
    · dsimp only
      split <;> exact HostTable.gains_observe _ _ _ _

/-- Answering a message takes back nothing of what a node knows of some hosts, unless the message leaves
one of them out. -/
theorem kept_handle (n : Node) (now : Instant) {m : Message}
    (hincludes : ∀ other, P.remaining other → m.Includes other) :
    P.Kept n (n.handle now m).2 := by
  refine ⟨(n.served_handle now m).settings, ?_⟩
  have gains {table : HostTable} (h : n.hosts.Gains table) :
      HostTable.Raises P.remaining n.hosts table := h.raises.mono fun _ _ => trivial
  cases m with
  | setHosts hosts => exact HostTable.raises_adopt hincludes
  | readLog peer lastSeen limit chunk => exact gains (gains_handleReadLog n now peer lastSeen limit)
  | readOne id entry => exact HostTable.Raises.refl _
  | status self position isMaster master => exact HostTable.Raises.refl _
  | register peer position hosts =>
    show HostTable.Raises _ _ (n.handleRegister now peer position).2.hosts
    unfold Node.handleRegister
    split
    · exact HostTable.Raises.refl _
    · exact HostTable.raises_observe _ _ _ _
  | addHost host =>
    show HostTable.Raises _ _ (n.handleAddHost host).2.hosts
    unfold Node.handleAddHost
    split
    · exact HostTable.Raises.refl _
    · exact HostTable.raises_observe _ _ _ _
  | pushTransaction source e accepted =>
    show HostTable.Raises _ _ (n.handlePush source e).2.hosts
    unfold Node.handlePush
    split
    · exact HostTable.Raises.refl _
    · split <;> exact HostTable.Raises.refl _

/-! ## Worlds -/

variable (P) in
/-- A node that answers the probe of another one has got as far as it gets. -/
def Reaches (since : Nat) (w : World) : Event → Prop
  | .arrive number => since ≤ number → ∀ p ∈ w.packets[number]?,
      p.message = .statusRequest → P.remaining p.sender → P.remaining p.peer → p.peer ≠ p.sender →
      ∀ n ∈ w.net.node? p.peer, P.final p.peer ≤ n.position
  | _ => True

instance [DecidablePred P.remaining] : Decidable (P.Reaches since w event) :=
  match event with
  | .arrive number => inferInstanceAs (Decidable (since ≤ number → ∀ p ∈ w.packets[number]?,
      p.message = .statusRequest → P.remaining p.sender → P.remaining p.peer → p.peer ≠ p.sender →
      ∀ n ∈ w.net.node? p.peer, P.final p.peer ≤ n.position))
  | .clock _ | .commit _ _ | .outage _ _ | .stop _ | .restart _ | .begin _ _ | .move _ | .hear _ _
  | .wake _ | .push _ | .pushed _ _ => isTrue trivial

variable (P) in
/-- What holds of a world in which some nodes watch each other, after so many messages. -/
structure Watches (former : String) (since : Nat) (w : World) : Prop where
  apart : ∀ url, P.remaining url → url ≠ former
  good : w.Good anywhere
  early : since ≤ w.packets.length
  prepared : ∀ url, P.remaining url → ∃ n, w.net.node? url = some n ∧ P.Prepared n
  answers : ∀ a ∈ w.answers, since ≤ a.1 → ∀ p, w.packets[a.1]? = some p →
    p.message = .statusRequest → P.remaining p.sender → P.remaining p.peer → p.peer ≠ p.sender →
    P.Answers p.peer a.2
  tasks : ∀ task ∈ w.tasks, P.remaining task.url → P.discipline.Pending since w.packets w.net task

namespace Watches

theorem rely (h : P.Watches former since w) (url : String) : P.discipline.rely url w.net w.net :=
  ⟨h.good.net, UInt64.le_refl _, fun n hn => ⟨n, hn, .refl n⟩⟩

/-- What an event that is not about a task makes of a node. -/
theorem kept_after (h : P.Watches former since w) (hspares : w.Spares former since event)
    (hattends : w.Attends former event) (hevent : event.task? = none) (hurl : P.remaining url)
    (hn : w.net.node? url = some n) : ∃ n', (w.after event).net.node? url = some n' ∧ P.Kept n n' ∧
      n'.standing.isMaster = n.standing.isMaster := by
  by_cases hplace : w.place? event = some url
  · have onNode (work : Node → Node) (hkept : P.Kept n (work n))
        (hrole : (work n).standing.isMaster = n.standing.isMaster) :
        ∃ n', (w.onNode url work).net.node? url = some n' ∧ P.Kept n n' ∧
          n'.standing.isMaster = n.standing.isMaster := by
      refine ⟨work n, ?_, hkept, hrole⟩
      simp only [World.onNode, hn]
      exact (Net.node?_put ..).trans (if_pos rfl)
    have same {m : Node} (hsettings : m.settings = n.settings) (hhosts : m.hosts = n.hosts) :
        P.Kept n m := ⟨hsettings, hhosts ▸ HostTable.Raises.refl _⟩
    cases event with
    | clock now => cases hplace
    | begin other job => cases hplace
    | move i => cases hevent
    | hear i outcomes => cases hevent
    | wake i => cases hevent
    | restart setup =>
      cases hplace
      exact absurd hspares (h.apart _ hurl)
    | commit other e =>
      cases hplace
      obtain ⟨hstanding, -, hsettings, hhosts, -⟩ := n.commit_frame w.net.now e
      exact onNode _ (same hsettings hhosts) (congrArg Standing.isMaster hstanding)
    | outage other outage =>
      cases hplace
      exact onNode _ (same rfl rfl) rfl
    | stop other =>
      cases hplace
      exact onNode _ (same rfl rfl) rfl
    | arrive number =>
      simp only [World.place?, Option.map_eq_some_iff] at hplace
      obtain ⟨p, hp, rfl⟩ := hplace
      refine ⟨(n.handle w.net.now p.message).2, ?_, kept_handle n w.net.now ?_,
        (Node.Apart.handle n w.net.now p.message).isMaster⟩
      · simp only [World.after, hp, World.answer, hn]
        exact (Net.node?_put ..).trans (if_pos rfl)
      · intro other hother
        obtain ⟨m, hm, -⟩ := h.prepared other hother
        exact hattends p hp (h.apart _ hurl) other m hm (h.apart other hother)
    | push other =>
      cases hplace
      obtain ⟨queue, heq, -⟩ := Net.exists_queue_nextPush n
      refine ⟨(Cluster.nextPush n).2, ?_, ?_, ?_⟩
      · simp only [World.after, World.pushNext, hn]
        split
        · next heq => exact (Net.node?_put ..).trans ((if_pos rfl).trans (by rw [heq]))
        · next heq => exact (Net.node?_put ..).trans ((if_pos rfl).trans (by rw [heq]))
      · rw [heq]
        exact same rfl rfl
      · rw [heq]
        rfl
    | pushed number outcome =>
      show ∃ n', (w.notePush number outcome).net.node? url = some n' ∧ _
      rcases World.notePush_eq w number outcome with heq | ⟨sender, target, heq⟩
      · rw [heq]
        exact ⟨n, hn, .refl n, rfl⟩
      · rw [heq]
        by_cases hsender : sender = url
        · subst hsender
          exact onNode _ (same rfl rfl) (n.standing.lose_frame target).2.1
        · rw [World.node?_onNode (Ne.symm hsender)]
          exact ⟨n, hn, .refl n, rfl⟩
  · exact ⟨n, (World.node?_after hplace).trans hn, .refl n, rfl⟩

/-- What a remaining node hears of a probe is what another one answers. -/
theorem hears (h : P.Watches former since w) (hspares : w.Spares former since event) :
    World.Hears P.discipline since P.remaining w event := by
  cases event with
  | hear i outcomes =>
    intro url numbers resume hi hurl number o ho hlate p hp hsender reply hreply hprobe hpeer hother
    have hanswer := hspares.answered hi ho hlate hp (h.apart url hurl) (h.apart p.peer hpeer) hreply
    exact h.answers _ hanswer hlate p hp hprobe (hsender ▸ hurl) hpeer (hsender ▸ hother)
  | _ => trivial

/-- What any event makes of a remaining node. -/
theorem step (h : P.Watches former since w) (hspares : w.Spares former since event)
    (hattends : w.Attends former event) (hurl : P.remaining url) (hn : w.net.node? url = some n) :
    ∃ n', (w.after event).net.node? url = some n' ∧ P.Kept n n' ∧ P.Promotes url n n' := by
  have same (heq : (w.after event).net.node? url = w.net.node? url) :
      ∃ n', (w.after event).net.node? url = some n' ∧ P.Kept n n' ∧ P.Promotes url n n' :=
    ⟨n, heq.trans hn, .refl n, fun hfollower hmaster => by cases hfollower.symm.trans hmaster⟩
  cases hevent : event.task? with
  | none =>
    obtain ⟨n', hn', hkept, hrole⟩ := h.kept_after hspares hattends hevent hurl hn
    exact ⟨n', hn', hkept, fun hfollower hmaster => by
      cases hfollower.symm.trans (hrole.symm.trans hmaster)⟩
  | some i =>
    cases hi : w.tasks[i]? with
    | none => exact same (by rw [World.after_of_no_task hevent hi])
    | some task =>
      by_cases htask : task.url = url
      · subst htask
        rcases World.advanced_after hevent h.early hi hurl (h.tasks task (List.mem_of_getElem? hi) hurl)
          (h.rely task.url) (h.hears hspares) with hsame | hadvanced
        · exact same (by rw [hsame])
        · rcases hadvanced.net with hsame | ⟨m, n', -, hput, hacts⟩
          · exact same (by rw [hsame])
          · have hn' : (w.after event).net.node? task.url = some n' := by
              rw [hput]
              exact (Net.node?_put ..).trans (if_pos rfl)
            exact ⟨n', hn', hacts n n' hn hn'⟩
      · -- a task is of one node only
        refine same (World.node?_after fun hplace => htask ?_)
        exact World.url_of_place? hevent hi hplace

/-- What a task of a remaining node relies on, if an event is not about it. -/
theorem rely_after (h : P.Watches former since w) (hspares : w.Spares former since event)
    (hattends : w.Attends former event) (hurl : P.remaining url) :
    P.discipline.rely url w.net (w.after event).net := by
  refine ⟨(h.good.after (fun _ _ _ _ => trivial) hspares.admits).net, ?_, ?_⟩
  · -- only the clock itself sets the clock
    rcases (World.frame_after w event).now with hsame | ⟨now, rfl⟩
    · exact UInt64.le_of_eq hsame.symm
    · exact hattends
  · intro n hn
    obtain ⟨n', hn', hkept, -⟩ := h.step hspares hattends hurl hn
    exact ⟨n', hn', hkept⟩

/-- A task that begins at a remaining node keeps to the terms. -/
theorem sound_begin {job : Job} (h : P.Watches former since w)
    (hattends : w.Attends former (.begin url job)) (hurl : P.remaining url) :
    P.discipline.Sound url job.activity (fun _ _ => True) w.net := by
  obtain ⟨n, hn, hprepared⟩ := h.prepared url hurl
  rcases hattends with hformer | rfl | rfl
  · exact absurd hformer (h.apart url hurl)
  · exact sound_tail hn hprepared
  · exact sound_goOn hn hprepared

/-- What holds of nodes that watch each other is kept by every event, if those that answer a probe have got
as far as they get. -/
theorem after (h : P.Watches former since w) (hspares : w.Spares former since event)
    (hattends : w.Attends former event) (hreaches : P.Reaches since w event) :
    P.Watches former since (w.after event) := by
  obtain ⟨more, hmore⟩ := World.packets_after w event
  exact {
    apart := h.apart
    good := h.good.after (fun _ _ _ _ => trivial) hspares.admits
    early := by
      rw [hmore, List.length_append]
      exact Nat.le_add_right_of_le h.early
    prepared := by
      intro url hurl
      obtain ⟨n, hn, hprepared⟩ := h.prepared url hurl
      obtain ⟨n', hn', hkept, -⟩ := h.step hspares hattends hurl hn
      exact ⟨n', hn', hprepared.kept hkept⟩
    answers := by
      intro a ha hlate p hp hprobe hsender hpeer hother
      obtain ⟨hsent, hanswer | ⟨n, rfl, hn, hreply⟩⟩ := h.good.answered_after ha hp
      · exact h.answers a hanswer hlate p hsent hprobe hsender hpeer hother
      · rw [hreply, hprobe]
        exact ⟨_, _, _, _, rfl, hreaches hlate p hsent hprobe hsender hpeer hother n hn⟩
    tasks := by
      intro task htask hurl
      obtain ⟨j, hj⟩ := List.getElem?_of_mem htask
      rcases World.task_after hj with ⟨old, hthere, hsame, -⟩ | ⟨-, url, job, rfl, rfl⟩
      · rw [← hsame] at hurl
        exact World.pending_of_old h.early hthere hj (h.tasks old (List.mem_of_getElem? hthere) hurl)
          (h.rely old.url) (fun _ _ _ => h.rely_after hspares hattends hurl)
          ((h.hears hspares).mono fun url heq => heq ▸ hurl)
      · exact h.sound_begin hattends hurl }

theorem run {events : List Event} (h : P.Watches former since w)
    (hspares : w.Always (World.Spares former since) events)
    (hattends : w.Always (World.Attends former) events)
    (hreaches : w.Always (P.Reaches since) events) : P.Watches former since (w.run events) := by
  induction events generalizing w with
  | nil => exact h
  | cons event rest ih =>
    exact ih (h.after hspares.1 hattends.1 hreaches.1) hspares.2 hattends.2 hreaches.2

end Watches

end Probing

namespace World

variable {former : String} {start w : World} {before events : List Event}

/-! ## Nodes that settle -/

/-- What a node stands at later in a run is not behind what it stood at before. -/
theorem Good.position_mono (h : w.Good anywhere) (hadmits : w.Always Admits events)
    {first second : List Event} (hfirst : first <+: second) (hsecond : second <+: events)
    {url : String} {n m : Node} (hn : (w.run first).net.node? url = some n)
    (hm : (w.run second).net.node? url = some m) : n.position ≤ m.position := by
  obtain ⟨rest, rfl⟩ := hfirst
  obtain ⟨hbefore, hrest⟩ := always_append.mp (hadmits.take hsecond)
  have hgood := (h.run hbefore fun _ _ _ _ _ _ => trivial).1
  have hgrows := (hgood.run hrest fun _ _ _ _ _ _ => trivial).2
  rw [run_append] at hm
  obtain ⟨m', hm', hle⟩ := hgrows.climbs hgood.net url n hn
  rw [hm] at hm'
  cases hm'
  exact hle

/-- Nodes that settle have got as far as they get when they answer a probe. -/
theorem Settles.reaches (h : w.Settles former events) (hgood : w.Good anywhere)
    (hadmits : w.Always Admits events) {P : Probing}
    (hremaining : ∀ url, P.remaining url → url ≠ former)
    (hfinal : ∀ url, P.final url = 0 ∨ ∃ part, part <+: events ∧
      (w.run part).tailing? former url = some (P.final url)) :
    w.Always (P.Reaches w.packets.length) events := by
  rw [always_iff]
  rintro first event rest rfl
  cases event with
  | arrive number =>
    intro hlate p hp hprobe hsender hpeer hother n hn
    rcases hfinal p.peer with hzero | ⟨last, hlast, hposition⟩
    · rw [hzero, UInt64.le_iff_toNat_le]
      exact Nat.zero_le _
    obtain ⟨m, hm, -, -, heq⟩ := tailing?_eq_some.mp hposition
    have hfirst : first <+: first ++ .arrive number :: rest := List.prefix_append _ _
    -- the node gets as far as it gets before it answers, or after that it gets no further
    rcases List.prefix_or_prefix_of_prefix hlast hfirst with hbefore | ⟨more, rfl⟩
    · rw [← heq]
      exact hgood.position_mono hadmits hbefore hfirst hm hn
    · cases more with
      | nil =>
        rw [List.append_nil, Option.mem_def.mp hn] at hm
        cases hm
        rw [heq]
        exact UInt64.le_refl _
      | cons next more =>
        obtain ⟨rfl, -⟩ := List.cons_prefix_cons.mp ((List.prefix_append_right_inj first).mp hlast)
        exact h first number more hlast hlate p hp hprobe (hremaining _ hsender)
          (hremaining _ hpeer) hother n hn _ hposition
  | _ => trivial

/-- Nodes settle if there are bounds that none of them goes beyond as a follower of the former master, and
that each of them has got to when it answers a probe. -/
theorem settles_of_reaches {P : Probing} (hremaining : ∀ url, url ≠ former → P.remaining url)
    (hbounds : ∀ part, part <+: events → (w.run part).Bounds former P.final)
    (hreaches : w.Always (P.Reaches w.packets.length) events) : w.Settles former events := by
  rintro first number more ⟨rest, rfl⟩ hlate p hp hprobe hsender hpeer hother n hn position hposition
  have hreached := always_iff.mp hreaches first (.arrive number) (more ++ rest) (by simp) hlate p hp
    hprobe (hremaining _ hsender) (hremaining _ hpeer) hother n hn
  obtain ⟨m, hm, -⟩ := tailing?_eq_some.mp hposition
  have hbound := hbounds _ (List.prefix_append _ _) p.peer m hm
  rw [hposition] at hbound
  exact UInt64.le_trans (of_decide_eq_true hbound) hreached

/-- A node that is there at last was there from the beginning. -/
theorem Strides.exists_node (h : w.Strides) {url : String} {n' : Node}
    (hn' : (w.run events).net.node? url = some n') : ∃ n, w.net.node? url = some n := by
  induction events generalizing w with
  | nil => exact ⟨n', hn'⟩
  | cons event rest ih =>
    obtain ⟨m, hm⟩ := ih (h.after event) hn'
    obtain ⟨n, hn, -⟩ := h.turn hm
    exact ⟨n, hn⟩

/-- Nodes that are left to themselves while nobody tails, and settle, are informed when they are promoted. -/
theorem informed_of_settles (h : Assembled former start before)
    (hpoised : Poised former (start.run before))
    (hspares : (start.run before).Always (Spares former (start.run before).packets.length) events)
    (hattends : (start.run before).Always (Attends former) events)
    (hsettles : (start.run before).Settles former events) :
    (start.run before).Informed former events := by
  choose final hbound hfinal using exists_final former (start.run before) events
  let P : Probing := {
    remaining := fun url => url ≠ former ∧ ∃ n, (start.run before).net.node? url = some n
    final }
  have hwatches : P.Watches former (start.run before).packets.length (start.run before) := {
    apart := fun url hurl => hurl.1
    good := h.good
    early := Nat.le_refl _
    prepared := by
      rintro url ⟨hurl, n, hn⟩
      obtain ⟨hprobes, helects⟩ := hpoised.thresholds url n hn hurl
      refine ⟨n, hn, ?_, hprobes, helects⟩
      rintro other ⟨hother, m, hm⟩
      exact Option.isSome_iff_exists.mp (hpoised.known url n hn hurl other m hm hother)
    answers := by
      intro a _ hk p hp
      have := (List.getElem?_eq_some_iff.mp hp).1
      omega
    tasks := fun task htask hurl => Discipline.pending_of_ended (hpoised.idle task htask hurl.1) }
  have hadmits := hspares.mono fun _ _ => Spares.admits
  have hreaches := hsettles.reaches h.good hadmits (P := P) (fun _ hurl => hurl.1) hfinal
  rintro first event rest rfl url n n' hurl hn hn' hfollower hmaster
  obtain ⟨hspares', hspares⟩ := always_append.mp hspares
  obtain ⟨hattends', hattends⟩ := always_append.mp hattends
  have hlater := hwatches.run hspares' hattends' (always_append.mp hreaches).1
  have hremains : P.remaining url := ⟨hurl, h.strides.exists_node hn⟩
  obtain ⟨m, hm, -, hpromotes⟩ := hlater.step hspares.1 hattends.1 hremains hn
  rw [hn'] at hm
  cases hm
  obtain ⟨cutoff, winner, hwinner, hself, hsees⟩ := hpromotes hfollower hmaster
  refine ⟨cutoff, winner, hwinner, hself, ?_⟩
  intro other m hm hother hapart
  obtain ⟨host, hhost, hseen, hreach⟩ := hsees other ⟨hother, m, hm⟩ hapart
  refine ⟨host, hhost, hseen, ?_⟩
  intro part hpart position hposition
  exact UInt64.le_trans (hbound other part hpart position hposition) hreach

/-! ## A run -/

/-- Both followers register, one of them pulls, and the master pushes it an entry, which it buffers. -/
def orphaning : List Event :=
  [[.begin "b" (.register "a")], steps 0 2, [.arrive 0, .hear 0 [.answered 0]], steps 0 2,
    [.begin "c" (.register "a")], steps 1 2, [.arrive 1, .hear 1 [.answered 1]], steps 1 2,
    [.arrive 2, .begin "c" (.pull "a")], steps 2 3, [.arrive 3, .hear 2 [.answered 3]], steps 2 3,
    [.commit "a" Log.sample, .push "a", .arrive 4, .clock 1000]].flatten

/-- The one that has buffered an entry applies it, fails twice to pull and takes over, and the other one,
which fails twice as well, follows it. -/
def handover : List Event :=
  [[.begin "c" (.goOn {}), .begin "b" (.goOn {})], steps 3 8, [.hear 3 [refusal]], steps 3 4,
    [.arrive 7, .hear 3 [refusal, .answered 5]], steps 3 3, [.wake 3], steps 3 7,
    [.hear 3 [refusal]], steps 3 11, steps 4 7, [.hear 4 [refusal]], steps 4 4,
    [.arrive 13, .hear 4 [refusal, .answered 6]], steps 4 3, [.wake 4], steps 4 7,
    [.hear 4 [refusal]], steps 4 10].flatten

theorem assembled_orphaning : Assembled "a" trio orphaning where
  starts := begins_trio.starts
  admits := by decide +kernel
  following := by decide +kernel
  up := by decide +kernel
  stages := by
    have hidle : ∀ task ∈ (trio.run orphaning).tasks, task.live = false := by decide +kernel
    intro i task n hi _ _ hlive
    rw [hidle task (List.mem_of_getElem? hi)] at hlive
    cases hlive

/-- Who follows the former master gets to the entry if it is the one that has buffered it. -/
theorem settles_handover : (trio.run orphaning).Settles "a" handover := by
  refine settles_of_reaches (P := ⟨(· ≠ "a"), fun url => if url = "c" then 1 else 0⟩)
    (fun _ hurl => hurl) ?_ (by decide +kernel)
  simp only [← List.mem_inits]
  decide +kernel

/-- The one that takes over is informed. -/
theorem informed_handover :
    (∃ n ∈ ((trio.run orphaning).run handover).net.node? "c", n.standing.isMaster = true) ∧
    (trio.run orphaning).Informed "a" handover :=
  ⟨by decide +kernel, informed_of_settles assembled_orphaning
    ⟨by decide +kernel, by decide +kernel, by decide +kernel⟩ (by decide +kernel) (by decide +kernel)
    settles_handover⟩

end World

end LogShipping
