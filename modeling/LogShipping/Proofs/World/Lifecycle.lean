import LogShipping.Proofs.World.Working

/-!
# The lifecycle, function by function

Each function of the lifecycle keeps good nets good and sends honest messages only, whatever becomes of
its calls and whatever other activities do meanwhile. What is pulled from a peer is backed, what is
drained from the buffer was backed when it came in, and both go through the same application.

There is one lemma for each function, in the order in which they call each other, and none opens a
function that it calls. They end with `activity`: whatever a node is set to do keeps good nets good, and
that is all that the induction over events needs to know of the lifecycle.

Good nets are kept, and nothing is said of whether anything is achieved: a node that only ever pauses
keeps them too. A function may be cut off by a restart between any two of its steps.
-/

namespace LogShipping

namespace Net.Yields

open Work

variable {origin : String → Prop} {url : String} {u : Net}

/-! ## Asking peers -/

theorem askEntry (peer : String) (id : LogId) :
    Yields origin url (Work.askEntry peer id) (fun _ _ => True) u := by
  unfold Work.askEntry
  refine bind (call fun v _ _ => trivial) ?_
  intro v m _ _ _
  split
  · exact pure fun _ _ _ => trivial
  · exact fail

/-- A position that a peer tells of itself is noted. -/
theorem note {peer : String} {position : LogId} (hu : u.Good origin)
    (h : u.Reached peer position) :
    Yields origin url (Work.change fun now n => { n with hosts := n.hosts.observe peer position now })
      (fun _ _ => True) u := by
  apply change
  intro v n hv huv hn
  have hnode := hv url n hn
  exact ⟨hnode.admissible rfl rfl rfl rfl (hnode.hosts.observe (h.grows hu huv)) hnode.buffer
    fun _ h => h, rfl⟩

/-- The entries of a page are backed. -/
theorem pull {peer : String} {lastSeen : LogId} (hu : u.Good origin)
    (h : u.Reached url lastSeen) :
    Yields origin url (Work.pull peer lastSeen)
      (fun v chunk => ∀ e ∈ chunk.entries, v.Backed origin e) u := by
  unfold Work.pull
  have hself : Yields origin url (Work.inspect fun n => (n.url, n.settings.readLogLimit))
      (fun _ a => a.1 = url) u := by
    apply inspect
    intro v n _ hv _ hn _ _
    exact (hv url n hn).self
  refine bind hself ?_
  rintro v ⟨self, limit⟩ hv huv rfl
  refine bind (call fun w _ hvw => ⟨(h.grows hu huv).grows hv hvw, nofun⟩) ?_
  rintro w m hw hvw ⟨-, hm, hown⟩
  split
  · refine bind (note hw hown.1) ?_
    intro x _ _ hwx _
    exact pure fun y _ hxy e he => ((hm.2 e he).grows hwx).grows hxy
  · exact fail

theorem askStatus (peer : String) :
    Yields origin url (Work.askStatus peer) (fun _ _ => True) u := by
  unfold Work.askStatus
  refine bind (call fun v _ _ => trivial) ?_
  rintro v m hv _ ⟨-, -, hown⟩
  split
  · refine bind (note hv hown) ?_
    intro w _ _ _ _
    exact pure fun _ _ _ => trivial
  · exact fail

/-- A node knows its own position. -/
theorem position : Yields origin url (Work.inspect (·.position)) (fun v p => v.Reached url p) u := by
  apply inspect
  intro v n w hv _ hn _ hvw
  exact (reached_position hn).grows hv hvw

theorem look {α : Type} {f : Node → α} : Yields origin url (Work.inspect f) (fun _ _ => True) u :=
  inspect fun _ _ _ _ _ _ _ _ => trivial

/-! ## Starting up -/

theorem compareLog (peer : String) :
    Yields origin url (Lifecycle.compareLog peer) (fun _ _ => True) u := by
  unfold Lifecycle.compareLog
  refine bind position ?_
  intro v id _ _ _
  split
  · refine bind (readOne id) ?_
    intro w entry _ _ _
    split
    · exact fail
    · refine bind (askEntry peer id) ?_
      intro x theirs _ _ _
      dsimp only
      split
      · exact fail
      · exact pure fun _ _ _ => trivial
  · exact pure fun _ _ _ => trivial

theorem catchUpOnce (peer : String) :
    Yields origin url (Lifecycle.catchUpOnce peer) (fun _ _ => True) u := by
  unfold Lifecycle.catchUpOnce
  refine bind position ?_
  intro v before hv _ hbefore
  refine bind (pull hv hbefore) ?_
  intro w chunk _ _ hchunk
  have hrest : ∀ x : Net, Yields origin url (do
      let after ← Work.inspect (·.position)
      if chunk.isCurrent && chunk.currid ≤ after then return .inr ()
      if after = before then throw (.consistency (.noProgress peer before chunk.currid))
      return (.inl () : Unit ⊕ Unit)) (fun _ _ => True) x := by
    intro x
    refine bind position ?_
    intro y after _ _ _
    split
    · exact pure fun _ _ _ => trivial
    · split
      · exact fail
      · exact pure fun _ _ _ => trivial
  dsimp only
  split
  · refine bind (apply hchunk) ?_
    intro x _ _ _ _
    exact hrest x
  · exact hrest w

theorem catchUp (peer : String) :
    Yields origin url (Lifecycle.catchUp peer) (fun _ _ => True) u :=
  iterate fun _ _ _ _ => catchUpOnce peer

theorem confirmMaster (peer : String) :
    Yields origin url (Lifecycle.confirmMaster peer) (fun _ _ => True) u := by
  unfold Lifecycle.confirmMaster
  refine bind (askStatus peer) ?_
  rintro v ⟨isMaster, named⟩ _ _ -
  dsimp only
  split
  · exact pure fun _ _ _ => trivial
  · split
    · exact fail
    · refine bind (askStatus named) ?_
      rintro w ⟨namedIsMaster, _⟩ _ _ -
      dsimp only
      split
      · exact pure fun _ _ _ => trivial
      · exact fail

theorem retarget (master : String) :
    Yields origin url (Lifecycle.retarget master) (fun _ _ => True) u := by
  apply change
  intro v n hv _ hn
  have hnode := hv url n hn
  refine ⟨hnode.admissible rfl rfl rfl rfl hnode.hosts ?_ fun _ h => h, rfl⟩
  intro id e he
  change (∅ : Std.ExtTreeMap LogId Entry)[id]? = some e at he
  rw [Std.ExtTreeMap.getElem?_empty] at he
  cases he

theorem register (master : String) :
    Yields origin url (Lifecycle.register master) (fun _ _ => True) u := by
  unfold Lifecycle.register
  have hself : Yields origin url (Work.inspect fun n => (n.url, n.position))
      (fun v a => v.Reached a.1 a.2) u := by
    apply inspect
    intro v n w hv _ hn _ hvw
    have hurl : n.url = url := (hv url n hn).self
    rw [hurl]
    exact (reached_position hn).grows hv hvw
  refine bind hself ?_
  rintro v ⟨self, position⟩ hv _ hposition
  refine bind (call fun w _ hvw => ⟨hposition.grows hv hvw, nofun⟩) ?_
  rintro w m hw _ ⟨-, hm, -⟩
  split
  · apply change
    intro x n hx hwx hn
    have hnode := hx url n hn
    refine ⟨hnode.admissible rfl rfl rfl (HostTable.self_adopt _ _) ?_ hnode.buffer fun _ h => h, rfl⟩
    exact hnode.hosts.adopt fun host hhost => (hm.2 host hhost).grows hw hwx
  · exact fail

theorem touchSelf : Yields origin url Lifecycle.touchSelf (fun _ _ => True) u := by
  apply change
  intro v n hv _ hn
  have hnode := hv url n hn
  refine ⟨hnode.admissible rfl rfl rfl rfl ?_ hnode.buffer fun _ h => h, rfl⟩
  apply hnode.hosts.observe
  rw [hnode.own]
  exact reached_position hn

theorem startFollower : Yields origin url Lifecycle.startFollower (fun _ _ => True) u := by
  unfold Lifecycle.startFollower
  refine bind (enter _) fun _ _ _ _ _ => ?_
  refine bind look fun _ configured _ _ _ => ?_
  refine bind (compareLog configured) fun _ _ _ _ _ => ?_
  refine bind (enter _) fun _ _ _ _ _ => ?_
  refine bind (catchUp configured) fun _ _ _ _ _ => ?_
  refine bind (confirmMaster configured) fun _ master _ _ _ => ?_
  dsimp only
  split
  · refine bind (retarget master) fun _ _ _ _ _ => ?_
    refine bind (compareLog master) fun _ _ _ _ _ => ?_
    exact bind (register master) fun _ _ _ _ _ => enter _
  · exact bind (register master) fun _ _ _ _ _ => enter _

theorem startup : Yields origin url Lifecycle.startup (fun _ _ => True) u := by
  unfold Lifecycle.startup
  refine bind touchSelf fun _ _ _ _ _ => ?_
  refine bind look fun _ isMaster _ _ _ => ?_
  split
  · exact enter _
  · exact startFollower

/-! ## Tailing -/

theorem drainPushed : Yields origin url Lifecycle.drainPushed (fun _ _ => True) u := by
  unfold Lifecycle.drainPushed
  have hready : Yields origin url (Work.onNode fun _ n =>
      ((n.buffer.drain n.position).1, { n with buffer := (n.buffer.drain n.position).2 }))
        (fun v drained => ∀ ready, drained = some ready → ∀ e ∈ ready, v.Backed origin e) u := by
    apply onNode
    intro v n hv _ hn
    have hnode := hv url n hn
    refine ⟨hnode.admissible rfl rfl rfl rfl hnode.hosts ?_ fun _ h => h, fun _ => rfl, ?_⟩
    · exact fun id e he => hnode.buffer id e (PushBuffer.of_mem_drain he)
    · intro w _ hvw ready hready e he
      obtain ⟨id, hid⟩ := PushBuffer.of_mem_ready (PushBuffer.eq_ready_of_drain hready ▸ he)
      exact (hnode.buffer id e hid).2.grows hvw
  refine bind hready ?_
  intro v drained _ _ hbacked
  cases drained with
  | none => exact fail
  | some ready =>
    dsimp only
    split
    · exact pure fun _ _ _ => trivial
    · refine bind (outcome (apply (hbacked ready rfl))) ?_
      intro w r _ _ _
      split
      · exact pure fun _ _ _ => trivial
      · split
        · exact pure fun _ _ _ => trivial
        · exact fail

theorem pullAndApply (master : String) :
    Yields origin url (Lifecycle.pullAndApply master) (fun _ _ => True) u := by
  unfold Lifecycle.pullAndApply
  refine bind position ?_
  intro v before hv _ hbefore
  refine bind (pull hv hbefore) ?_
  intro w chunk _ _ hchunk
  have hrest : ∀ x : Net, Yields origin url (do
      return (← Work.inspect (·.position)) - before) (fun _ _ => True) x := by
    intro x
    refine bind position ?_
    intro y after _ _ _
    exact pure fun _ _ _ => trivial
  dsimp only
  split
  · refine bind (outcome (apply hchunk)) ?_
    intro x r _ _ _
    split
    · exact hrest x
    · split
      · exact fail
      · exact hrest x
  · exact hrest w

/-! ## Probing and electing -/

/-- A node after it has noted positions that are reached, and done nothing else. -/
def Noted (v : Net) (n n' : Node) : Prop :=
  ∃ hosts, n' = { n with hosts := hosts } ∧ hosts.self = n.hosts.self ∧ v.Vouches hosts

theorem Noted.observe {v : Net} {n n' : Node} (h : Noted v n n') {peer : String} {position : LogId}
    (hreached : v.Reached peer position) (now : Instant) :
    Noted v n { n' with hosts := n'.hosts.observe peer position now } := by
  obtain ⟨hosts, rfl, hself, hvouches⟩ := h
  exact ⟨hosts.observe peer position now, rfl, hself, hvouches.observe hreached⟩

/-- Noting what answers tell, one after the other, keeps a good net good. -/
theorem notes {peers : List String} {replies : List (Except Error Message)}
    {note : Instant → List (String × Except Error Message) → Node → Nat × Node}
    (hnote : ∀ v now n answers, v.Vouches n.hosts →
      (∀ answer ∈ answers, v.HonestAnswer origin answer.1 answer.2) →
      Noted v n (note now answers n).2)
    (hu : u.Good origin) (h : List.Forall₂ (u.HonestAnswer origin) peers replies) :
    Yields origin url (Work.onNode fun now n => note now (peers.zip replies) n)
      (fun _ _ => True) u := by
  apply onNode
  intro v n hv huv hn
  have hnode := hv url n hn
  have hanswers : ∀ answer ∈ peers.zip replies, v.HonestAnswer origin answer.1 answer.2 := by
    intro answer hanswer
    exact ((List.forall₂_iff_zip.mp h).2 hanswer).grows hu huv
  obtain ⟨hosts, heq, hself, hvouches⟩ := hnote v v.now n _ hnode.hosts hanswers
  rw [heq]
  exact ⟨hnode.admissible rfl rfl rfl hself hvouches hnode.buffer fun _ h => h, fun _ => rfl,
    fun _ _ _ => trivial⟩

theorem noted_noteProbes {v : Net} {now : Instant} {n : Node}
    {answers : List (String × Except Error Message)} (hn : v.Vouches n.hosts)
    (h : ∀ answer ∈ answers, v.HonestAnswer origin answer.1 answer.2) :
    Noted v n (Lifecycle.noteProbes now answers n).2 := by
  refine List.foldlRecOn (motive := fun acc : Nat × Node => Noted v n acc.2) answers _ ⟨n.hosts, rfl, rfl, hn⟩ ?_
  rintro ⟨count, n'⟩ hnoted ⟨peer, reply⟩ hanswer
  dsimp only
  split
  · next heq =>
    cases heq
    exact hnoted.observe (h _ hanswer _ rfl).2.2 now
  · exact hnoted

theorem hostUpdate : Yields origin url Lifecycle.hostUpdate (fun _ _ => True) u := by
  unfold Lifecycle.hostUpdate
  refine bind look fun v peers _ _ _ => ?_
  refine bind (callAll fun _ _ _ => trivial) fun w replies hw _ hreplies => ?_
  exact notes (fun _ _ _ _ => noted_noteProbes) hw hreplies

theorem elect (cutoff : Instant) : Yields origin url (Lifecycle.elect cutoff) (fun _ _ => True) u := by
  unfold Lifecycle.elect
  refine bind touchSelf fun _ _ _ _ _ => ?_
  have helect : ∀ v : Net, Yields origin url (Work.onNode fun _ n => n.elect cutoff)
      (fun _ _ => True) v := by
    intro v
    apply onNode
    intro w n hw _ hn
    have hnode := hw url n hn
    have hsame : Admissible origin w n n :=
      hnode.admissible rfl rfl rfl rfl hnode.hosts hnode.buffer fun _ h => h
    unfold Node.elect
    split
    · split
      · exact ⟨hnode.admissible rfl rfl rfl rfl hnode.hosts hnode.buffer fun _ h => h, fun _ => rfl,
          fun _ _ _ => trivial⟩
      · exact ⟨hsame, fun _ => rfl, fun _ _ _ => trivial⟩
    · exact ⟨hsame, fun _ => rfl, fun _ _ _ => trivial⟩
  refine bind (helect _) fun _ _ _ _ _ => ?_
  exact pure fun _ _ _ => trivial

/-! ## Passes -/

theorem restAfter (interval : Settings → UInt64) (streak : Lifecycle.Streak) :
    Yields origin url (Lifecycle.restAfter interval streak) (fun _ _ => True) u := by
  unfold Lifecycle.restAfter
  refine bind look fun _ settings _ _ _ => ?_
  refine bind (pause _) fun _ stopped _ _ _ => ?_
  exact pure fun _ _ _ => trivial

theorem endStreak (master : String) (since : Instant) :
    Yields origin url (Lifecycle.endStreak master since) (fun _ _ => True) u := by
  unfold Lifecycle.endStreak
  refine bind (elect since) fun _ winner _ _ _ => ?_
  split
  · refine bind look fun _ self _ _ _ => ?_
    split
    · exact pure fun _ _ _ => trivial
    · split
      · exact bind (retarget _) fun _ _ _ _ _ => restAfter _ _
      · exact restAfter _ _
  · exact restAfter _ _

theorem noteFailure (master : String) (streak : Lifecycle.Streak) :
    Yields origin url (Lifecycle.noteFailure master streak) (fun _ _ => True) u := by
  unfold Lifecycle.noteFailure
  refine bind clock fun _ now _ _ _ => ?_
  refine bind look fun _ settings _ _ _ => ?_
  dsimp only
  split
  · refine bind hostUpdate fun _ _ _ _ _ => ?_
    split
    · exact endStreak _ _
    · exact restAfter _ _
  · split
    · exact endStreak _ _
    · exact restAfter _ _

theorem tailPass (streak : Lifecycle.Streak) :
    Yields origin url (Lifecycle.tailPass streak) (fun _ _ => True) u := by
  unfold Lifecycle.tailPass
  refine bind look fun _ standing _ _ _ => ?_
  split
  · exact pure fun _ _ _ => trivial
  · split
    · exact pure fun _ _ _ => trivial
    · refine bind drainPushed fun _ _ _ _ _ => ?_
      refine bind look fun _ master _ _ _ => ?_
      refine bind (outcome (pullAndApply master)) fun _ r _ _ _ => ?_
      split
      · exact restAfter _ _
      · exact pure fun _ _ _ => trivial
      · split
        · exact noteFailure _ _
        · exact fail

theorem tail : Yields origin url Lifecycle.tail (fun _ _ => True) u := by
  unfold Lifecycle.tail
  exact bind (enter _) fun _ _ _ _ _ => iterate fun _ _ _ _ => tailPass _

/-! ## Acting as master -/

theorem noted_noteReached {v : Net} {now : Instant} {n : Node}
    {answers : List (String × Except Error Message)} (hn : v.Vouches n.hosts)
    (h : ∀ answer ∈ answers, v.HonestAnswer origin answer.1 answer.2) :
    Noted v n (Lifecycle.noteReached now answers n).2 := by
  refine List.foldlRecOn (motive := fun acc : Nat × Node => Noted v n acc.2) answers _ ⟨n.hosts, rfl, rfl, hn⟩ ?_
  rintro ⟨count, n'⟩ hnoted ⟨peer, reply⟩ hanswer
  dsimp only
  split
  · next heq =>
    cases heq
    exact hnoted.observe (h _ hanswer _ rfl).1 now
  · exact hnoted

theorem refreshFollowers : Yields origin url Lifecycle.refreshFollowers (fun _ _ => True) u := by
  unfold Lifecycle.refreshFollowers
  refine bind touchSelf fun _ _ _ _ _ => ?_
  have hlook : ∀ v : Net, Yields origin url (Work.inspect fun n => (n.hosts.toList, n.hosts.peers))
      (fun w a => ∀ host ∈ a.1, w.Reached host.url host.logPosition) v := by
    intro v
    apply inspect
    intro w n x hw _ hn _ hwx host hhost
    exact ((hw url n hn).hosts.mem_toList hhost).grows hw hwx
  refine bind (hlook _) ?_
  rintro v ⟨hosts, peers⟩ hv _ hhosts
  refine bind (callAll fun w _ hvw host hhost => (hhosts host hhost).grows hv hvw) ?_
  intro w replies hw _ hreplies
  exact notes (fun _ _ _ _ => noted_noteReached) hw hreplies

theorem masterRound : Yields origin url Lifecycle.masterRound (fun _ _ => True) u := by
  unfold Lifecycle.masterRound
  refine bind look fun _ shutDown _ _ _ => ?_
  split
  · exact pure fun _ _ _ => trivial
  · refine bind refreshFollowers fun _ _ _ _ _ => ?_
    refine bind look fun _ interval _ _ _ => ?_
    refine bind (pause _) fun _ stopped _ _ _ => ?_
    exact pure fun _ _ _ => trivial

theorem masterLoop : Yields origin url Lifecycle.masterLoop (fun _ _ => True) u := by
  unfold Lifecycle.masterLoop
  exact bind (enter _) fun _ _ _ _ _ => iterate fun _ _ _ _ => masterRound

/-! ## From start to stop -/

theorem follow : Yields origin url Lifecycle.follow (fun _ _ => True) u := by
  unfold Lifecycle.follow
  refine bind look fun _ isMaster _ _ _ => ?_
  split
  · exact pure fun _ _ _ => trivial
  · exact tail

theorem goOn (streak : Lifecycle.Streak) :
    Yields origin url (Lifecycle.goOn streak) (fun _ _ => True) u := by
  unfold Lifecycle.goOn
  refine bind (iterate fun _ _ _ _ => tailPass _) fun _ ending _ _ _ => ?_
  split
  · exact enter _
  · exact bind masterLoop fun _ _ _ _ _ => enter _

theorem run : Yields origin url Lifecycle.run (fun _ _ => True) u := by
  unfold Lifecycle.run
  refine bind (outcome startup) fun _ r _ _ _ => ?_
  split
  · exact enter _
  · exact bind (enter _) fun _ _ _ _ _ => fail
  · refine bind follow fun _ ending _ _ _ => ?_
    split
    · exact enter _
    · exact bind masterLoop fun _ _ _ _ _ => enter _

/-- Whatever a node is set to do keeps good nets good. -/
theorem activity (job : Job) :
    (backing origin).Sound url job.activity (fun _ _ => True) u := by
  have finish {α : Type} {work : Work α} (h : Yields origin url work (fun _ _ => True) u) :
      (backing origin).Sound url work.finish (fun _ _ => True) u :=
    Discipline.Sound.bind h fun _ _ _ => fun _ _ => trivial
  cases job with
  | run => exact finish run
  | startup => exact finish startup
  | compareLog peer => exact finish (compareLog peer)
  | catchUp peer => exact finish (catchUp peer)
  | confirmMaster peer => exact finish (confirmMaster peer)
  | retarget master => exact finish (retarget master)
  | register master => exact finish (register master)
  | drain => exact finish drainPushed
  | pull master => exact finish (pullAndApply master)
  | probe => exact finish hostUpdate
  | tail => exact finish tail
  | goOn streak => exact finish (goOn streak)
  | refresh => exact finish refreshFollowers
  | lead => exact finish masterLoop

end Net.Yields

end LogShipping
