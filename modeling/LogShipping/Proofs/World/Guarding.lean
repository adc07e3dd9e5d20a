import LogShipping.Proofs.World.Following

/-!
# The coordinator and diverged logs

The lifecycle of a node, function by function: whatever its peers answer and whatever histories their
logs hold, the coordinator continues the log of a follower with entries of a master that agrees with the
node, and leaves it alone otherwise (`Net.sound_run`). What was compared at the start stays true while
the node catches up and tails, because entries of the master are again ones that the master has. The one
step after which a tailing node need not agree with its master is that it turns to the winner of an
election.

Each function has one lemma, of the form that work begun where the node stands so and so keeps to the
terms and ends where it stands so and so. They are put together as the functions call each other, and a
change of one function is a change of its lemma and of the hypotheses of those that call it.

Entries that come in between, pushed by the master, are ones that the master has too (`quiet_drain`).
This rests on the check of a push and the change of the master not overlapping; where they do, an entry
of a former master may be among them (`Proofs.Activity.Racing`).
-/

namespace LogShipping

namespace Net

variable {u v w : Net} {url peer : String} {n n' : Node} {α β : Type}

/-! ## Applying entries -/

/-- A follower agrees with its master. -/
def Agreed (url : String) (u : Net) : Prop :=
  ∀ n, u.node? url = some n → n.standing.isMaster = false → u.Agrees n n.standing.master

/-- Where a node stands: the phase that it is in and the master that it has. -/
def Stands (url : String) (P : Phase → String → Prop) (u : Net) : Prop :=
  ∀ n, u.node? url = some n → P n.phase n.standing.master

/-- Entries that the master of a follower has. -/
def Offers (url : String) (entries : List Entry) (u : Net) : Prop :=
  ∀ n, u.node? url = some n → n.standing.isMaster = false →
    ∀ e ∈ entries, u.entryAt? n.standing.master e.id = some e

theorem Quiet.master : Quiet url (Work.inspect (·.standing.master))
    (fun v master => v.Stands url fun _ now => now = master) u :=
  Quiet.inspect fun _ _ hseen n hn => (hseen n hn).master

section Later

variable {P : Phase → String → Prop} {entries : List Entry}

theorem Agreed.later (h : u.Agreed url) (huv : Later url u v) : v.Agreed url := by
  intro n hn hfollower
  obtain ⟨m, hm, hunmoved⟩ := huv.node n hn
  have hm' : m.standing.isMaster = false := hunmoved.isMaster.symm.trans hfollower
  rw [hunmoved.master]
  exact ((h m hm hm').unmoved hunmoved hm').grows huv.before huv.grows

theorem Stands.later (h : u.Stands url P) (huv : Later url u v) : v.Stands url P := by
  intro n hn
  obtain ⟨m, hm, hunmoved⟩ := huv.node n hn
  rw [hunmoved.phase, hunmoved.master]
  exact h m hm

theorem Stands.mono {R : Phase → String → Prop} (h : u.Stands url P)
    (hPR : ∀ phase master, P phase master → R phase master) : u.Stands url R :=
  fun n hn => hPR _ _ (h n hn)

theorem Offers.later (h : u.Offers url entries) (huv : Later url u v) : v.Offers url entries := by
  intro n hn hfollower e he
  obtain ⟨m, hm, hunmoved⟩ := huv.node n hn
  rw [hunmoved.master]
  exact entryAt?_grows (h m hm (hunmoved.isMaster.symm.trans hfollower) e he) huv.before huv.grows

/-- A follower agrees with its master if it does so with a peer that is its master. -/
theorem AgreesWith.agreed (h : u.AgreesWith url peer)
    (hstands : u.Stands url fun _ master => master = peer) : u.Agreed url := by
  intro n hn hfollower
  rw [hstands n hn]
  exact h n hn hfollower

theorem Stands.agreed (h : u.Stands url fun phase _ => phase = .tailing) (huv : Later url u v) :
    v.Agreed url :=
  fun n hn hfollower => huv.guarded n hn (h.later huv n hn) hfollower

end Later

/-- A node that has taken entries from a peer with which it agreed agrees with it again. -/
theorem agrees_of_took (hu : u.Good anywhere) (hn : u.node? url = some n) {new : List Entry}
    (htook : n.log.Took new n'.log) (hnew : ∀ e ∈ new, u.entryAt? peer e.id = some e)
    (h : u.Agrees n peer) : (u.put url n').Agrees n' peer := by
  obtain ⟨entries, hholds, -⟩ := (hu url n hn).log
  have hproper : ∀ e ∈ new, e.Proper := by
    intro e he
    obtain ⟨m, hm, hentry⟩ := Option.bind_eq_some_iff.mp (hnew e he)
    obtain ⟨theirs, hholds, -⟩ := (hu peer m hm).log
    exact hholds.history.proper e (hholds.entryAt?_eq_some_iff.mp hentry).1
  have hholds' : n'.log.Holds (entries ++ new) := hholds.took htook hproper
  have hgrows : u.Grows (u.put url n') :=
    grows_put hn fun es hes => ⟨new, hes.took htook hproper⟩
  rcases List.eq_nil_or_concat new with rfl | ⟨front, last, rfl⟩
  · refine (h.congr htook.rows ?_).grows hu hgrows
    exact UInt64.toNat_inj.mp htook.position
  · -- the newest entry is the last one that was taken
    intro e he
    have hlast : n'.log.entryAt? n'.position = some last := by
      rw [Node.position, hholds'.entryAt?_position]
      simp
    rw [Option.mem_def, hlast] at he
    cases he
    rw [← (hholds'.entryAt?_eq_some_iff.mp hlast).2]
    exact ⟨last, entryAt?_grows (hnew last (by simp)) hu hgrows, rfl⟩

section Keeps

open Discipline

variable {P : Phase → String → Prop} {Q : Except Error β → Net → Prop}

/-- Work that leaves the log alone, and what is done with its result. -/
theorem Quiet.keeps {work : Work α} {next : α → Work β} {R : Net → α → Prop}
    (h : Quiet url work R u) (herror : ∀ v error, Later url u v → Q (.error error) v)
    (hnext : ∀ v a, Later url u v → R v a → following.Keeps url (next a) Q v) :
    following.Keeps url (work >>= next) Q u := by
  refine Keeps.bind (Keeps.mono h ?_)
  rintro r v ⟨huv, hr⟩
  cases r with
  | error error => exact herror v error huv
  | ok a => exact hnext v a huv (hr a rfl)

/-- Applying entries of a master that agrees. -/
theorem keeps_apply {entries : List Entry} (hstands : u.Stands url P)
    (hagreed : ∀ v, Later url u v → v.Agreed url) (hoffers : u.Offers url entries) :
    following.Keeps url (Work.onLog (Log.applyReplicated entries))
      (fun _ v => v.Stands url P ∧ v.Agreed url) u := by
  apply Keeps.onLog
  intro v n huv hn
  obtain ⟨new, hsub, htook, -⟩ := @Log.ensures_applyReplicated n.log entries
  set n' := (n.onLog (Log.applyReplicated entries)).2 with hn'
  have hstanding : n'.standing = n.standing := htook.standing
  have hnew (hfollower : n.standing.isMaster = false) :
      ∀ e ∈ new, v.entryAt? n.standing.master e.id = some e :=
    fun e he => (hoffers.later huv) n hn hfollower e (hsub.subset he)
  have hagrees (hfollower : n'.standing.isMaster = false) :
      (v.put url n').Agrees n' n'.standing.master := by
    rw [hstanding] at hfollower ⊢
    exact agrees_of_took huv.good hn htook (hnew hfollower) (hagreed v huv n hn hfollower)
  refine ⟨acts_put hn ?_ fun _ hfollower => Or.inr (hagrees hfollower), ?_⟩
  · exact fun hfollower =>
      Or.inr ⟨hagreed v huv n hn hfollower, new, htook, hnew hfollower⟩
  · intro w hw
    constructor
    · refine Stands.later ?_ hw
      intro m hm
      rw [node?_put, if_pos rfl] at hm
      cases hm
      rw [hstanding]
      exact hstands.later huv n hn
    · refine Agreed.later ?_ hw
      intro m hm
      rw [node?_put, if_pos rfl] at hm
      cases hm
      exact hagrees

/-- A step that leaves the log alone and enters no tailing but from tailing. -/
theorem keeps_of_same {work : Instant → Node → α × Node} {R : Phase → String → Prop}
    (hstands : u.Stands url P)
    (h : ∀ now n, P n.phase n.standing.master →
      (work now n).2.log.store.rows = n.log.store.rows ∧ (work now n).2.position = n.position ∧
        ((work now n).2.phase = .tailing → n.phase = .tailing) ∧
        R (work now n).2.phase (work now n).2.standing.master) :
    following.Keeps url (Work.onNode work) (fun _ v => v.Stands url R) u := by
  apply Keeps.onNode
  intro v n huv hn
  obtain ⟨hrows, hposition, hphase, hR⟩ := h v.now n (hstands.later huv n hn)
  refine ⟨acts_of_same huv.good huv.guarded hn hrows hposition hphase, ?_⟩
  intro w hw
  refine Stands.later ?_ hw
  intro m hm
  rw [node?_put, if_pos rfl] at hm
  cases hm
  exact hR

/-- Entering a phase; tailing is entered only by a follower that agrees with its master. -/
theorem keeps_enter {phase : Phase} {R : String → Prop} (hstands : u.Stands url fun _ => R)
    (hphase : phase = .tailing → ∀ v, Later url u v → v.Agreed url) :
    following.Keeps url (Work.enter phase) (fun _ v =>
      (v.Stands url fun now master => now = phase ∧ R master) ∧ (u.Agreed url → v.Agreed url)) u := by
  apply Keeps.onNode
  intro v n huv hn
  have hgrows : v.Grows (v.put url { n with phase := phase }) := grows_put_of_same hn rfl rfl
  have hkeeps (hagreed : v.Agreed url) : (v.put url { n with phase := phase }).Agreed url := by
    intro m hm hfollower
    rw [node?_put, if_pos rfl] at hm
    cases hm
    exact ((hagreed n hn hfollower).congr rfl rfl).grows huv.good hgrows
  refine ⟨acts_put hn (fun _ => Or.inl ⟨rfl, rfl⟩) ?_, ?_⟩
  · intro htailing hfollower
    exact Or.inr (hkeeps (hphase htailing v huv) _ (by rw [node?_put, if_pos rfl]) hfollower)
  · intro w hw
    refine ⟨Stands.later ?_ hw, fun hagreed => (hkeeps (hagreed.later huv)).later hw⟩
    intro m hm
    rw [node?_put, if_pos rfl] at hm
    cases hm
    exact ⟨rfl, hstands.later huv n hn⟩

theorem keeps_retarget {master : String} {R : Phase → Prop}
    (hstands : u.Stands url fun phase _ => R phase) :
    following.Keeps url (Lifecycle.retarget master)
      (fun _ v => v.Stands url fun phase now => R phase ∧ now = master) u :=
  keeps_of_same hstands fun _ _ hR => ⟨rfl, rfl, id, hR, rfl⟩

/-! ## Starting up -/

/-- A node follows a peer with which it agrees. -/
def Joined (url peer : String) (u : Net) : Prop :=
  (u.Stands url fun _ master => master = peer) ∧ u.Agreed url

theorem Joined.later (h : u.Joined url peer) (huv : Later url u v) : v.Joined url peer :=
  ⟨h.1.later huv, h.2.later huv⟩

/-- The entries of a page of the master are ones that it has. -/
theorem offers_of_chunk {chunk : Chunk} (hstands : u.Stands url fun _ master => master = peer)
    (hchunk : ∀ e ∈ chunk.entries, u.entryAt? peer e.id = some e) : u.Offers url chunk.entries := by
  intro n hn _ e he
  rw [hstands n hn]
  exact hchunk e he

theorem keeps_catchUpOnce (h : u.Joined url peer) :
    following.Keeps url (Lifecycle.catchUpOnce peer) (fun _ v => v.Joined url peer) u := by
  unfold Lifecycle.catchUpOnce
  have hrest (before : LogId) (chunk : Chunk) {v : Net} (hv : v.Joined url peer) :
      following.Keeps url (do
        let after ← Work.inspect (·.position)
        if chunk.isCurrent && chunk.currid ≤ after then return .inr ()
        if after = before then throw (.consistency (.noProgress peer before chunk.currid))
        return (.inl () : Unit ⊕ Unit)) (fun _ w => w.Joined url peer) v := by
    refine Quiet.keeps Quiet.look (fun w _ hvw => hv.later hvw) fun w after hvw _ => ?_
    have hw := hv.later hvw
    split
    · exact Keeps.pure fun x hwx => hw.later hwx
    · split
      · exact Keeps.fail fun x hwx => hw.later hwx
      · exact Keeps.pure fun x hwx => hw.later hwx
  refine Quiet.keeps Quiet.look (fun v _ huv => h.later huv) fun v before huv _ => ?_
  refine Quiet.keeps (Quiet.pull peer before) (fun w _ hvw => (h.later huv).later hvw)
    fun w chunk hvw hchunk => ?_
  have hw := (h.later huv).later hvw
  dsimp only
  split
  · refine Keeps.bind (Keeps.mono (keeps_apply hw.1 (fun x hwx => hw.2.later hwx)
      (offers_of_chunk hw.1 hchunk)) ?_)
    intro r x hx
    cases r with
    | error error => exact hx
    | ok applied => exact hrest before chunk hx
  · exact hrest before chunk hw

theorem keeps_catchUp (h : u.Joined url peer) :
    following.Keeps url (Lifecycle.catchUp peer) (fun _ v => v.Joined url peer) u := by
  refine Keeps.iterate (fun _ v => v.Joined url peer) (fun v huv => h.later huv) ?_
  intro t v hv
  refine Keeps.mono (keeps_catchUpOnce hv) ?_
  intro r w hw
  match r with
  | .ok (.inl next) => exact hw
  | .ok (.inr result) => exact hw
  | .error error => exact hw

/-- A node is tailing. -/
def Tails (url : String) (u : Net) : Prop := u.Stands url fun phase _ => phase = .tailing

/-- Registering with the master and going on to tail. -/
theorem keeps_join (h : u.Joined url peer) : following.Keeps url (do
    Lifecycle.register peer
    Work.enter .tailing) (fun r v => ∀ a, r = .ok a → v.Tails url) u := by
  refine Quiet.keeps (Quiet.of_notes (Lifecycle.notes_register peer)) (fun _ _ _ => nofun)
    fun v _ huv _ => ?_
  have hv := h.later huv
  refine Keeps.mono (keeps_enter hv.1 fun _ w hvw => hv.2.later hvw) ?_
  exact fun _ w hw _ _ => hw.1.mono fun _ _ hstands => hstands.1

theorem keeps_startFollower :
    following.Keeps url Lifecycle.startFollower (fun r v => ∀ a, r = .ok a → v.Tails url) u := by
  unfold Lifecycle.startFollower
  have hany : u.Stands url fun _ _ => True := fun _ _ => trivial
  refine Keeps.bind (Keeps.mono (keeps_enter hany nofun) ?_)
  rintro (error | _) v -
  · exact nofun
  refine Quiet.keeps Quiet.master (fun _ _ _ => nofun) fun w configured _ hw => ?_
  refine Quiet.keeps (Quiet.compareLog configured) (fun _ _ _ => nofun) fun x _ hwx hagrees => ?_
  have hx : x.Joined url configured := ⟨hw.later hwx, hagrees.agreed (hw.later hwx)⟩
  refine Keeps.bind (Keeps.mono (keeps_enter hx.1 nofun) ?_)
  rintro (error | _) y ⟨hy, hkeeps⟩
  · exact nofun
  have hy : y.Joined url configured := ⟨hy.mono fun _ _ hstands => hstands.2, hkeeps hx.2⟩
  refine Keeps.bind (Keeps.mono (keeps_catchUp hy) ?_)
  rintro (error | _) z hz
  · exact nofun
  refine Quiet.keeps (Quiet.of_notes (Lifecycle.notes_confirmMaster configured))
    (fun _ _ _ => nofun) fun z' master hzz' _ => ?_
  have hz := hz.later hzz'
  dsimp only
  split
  -- the peer named another node, with which the log has to be compared again
  · have hany : z'.Stands url fun _ _ => True := fun _ _ => trivial
    refine Keeps.bind (Keeps.mono (keeps_retarget hany) ?_)
    rintro (error | _) a ha
    · exact nofun
    refine Quiet.keeps (Quiet.compareLog master) (fun _ _ _ => nofun) fun b _ hab hagrees => ?_
    have hb : b.Stands url fun _ now => now = master :=
      (ha.later hab).mono fun _ _ hstands => hstands.2
    exact keeps_join ⟨hb, hagrees.agreed hb⟩
  · next hsame =>
    rw [not_not.mp hsame]
    exact keeps_join hz

/-- A node that has started up agrees with its master, if it has one. -/
theorem keeps_startup : following.Keeps url Lifecycle.startup
    (fun r v => ∀ a, r = .ok a → ∀ w, Later url v w → w.Agreed url) u := by
  unfold Lifecycle.startup
  refine Quiet.keeps (Quiet.of_notes Lifecycle.notes_touchSelf) (fun _ _ _ => nofun) fun v _ _ _ => ?_
  have hrole : Quiet url (Work.inspect (·.standing.isMaster))
      (fun w isMaster => ∀ n, w.node? url = some n → n.standing.isMaster = isMaster) v :=
    Quiet.inspect fun _ _ hseen n hn => (hseen n hn).isMaster
  refine Quiet.keeps hrole (fun _ _ _ => nofun) fun w isMaster _ hw => ?_
  split
  · next hisMaster =>
    have hagreed : w.Agreed url := by
      intro n hn hfollower
      rw [hw n hn, hisMaster] at hfollower
      cases hfollower
    have hany : w.Stands url fun _ _ => True := fun _ _ => trivial
    refine Keeps.mono (keeps_enter hany nofun) ?_
    exact fun _ x hx _ _ y hxy => (hx.2 hagreed).later hxy
  · refine Keeps.mono keeps_startFollower ?_
    exact fun _ x hx a ha y hxy => (hx a ha).agreed hxy

/-! ## Tailing -/

/-- One piece of work after another, neither of which ends tailing. -/
theorem tails_bind {work : Work α} {next : α → Work β}
    (h : following.Keeps url work (fun _ v => v.Tails url) u)
    (hnext : ∀ v a, v.Tails url → following.Keeps url (next a) (fun _ w => w.Tails url) v) :
    following.Keeps url (work >>= next) (fun _ v => v.Tails url) u := by
  refine Keeps.bind (Keeps.mono h ?_)
  intro r v hv
  cases r with
  | error error => exact hv
  | ok a => exact hnext v a hv

theorem Quiet.tails {work : Work α} {R : Net → α → Prop} (h : Quiet url work R u) (hu : u.Tails url) :
    following.Keeps url work (fun _ v => v.Tails url) u :=
  Keeps.mono h fun _ _ hr => hu.later hr.1

theorem tails_pure {a : α} (hu : u.Tails url) :
    following.Keeps url (Pure.pure a) (fun _ v => v.Tails url) u :=
  Keeps.pure fun _ huv => hu.later huv

theorem tails_fail {error : Error} (hu : u.Tails url) :
    following.Keeps url (throw error : Work α) (fun _ v => v.Tails url) u :=
  Keeps.fail fun _ huv => hu.later huv

/-- Entries of the master are applied while tailing, whatever becomes of it. -/
theorem tails_apply {entries : List Entry} (hu : u.Tails url) (hoffers : u.Offers url entries) :
    following.Keeps url (Work.outcome (Work.onLog (Log.applyReplicated entries)))
      (fun _ v => v.Tails url) u :=
  Keeps.outcome (Keeps.mono (keeps_apply hu (fun _ huv => hu.agreed huv) hoffers) fun _ _ hv => hv.1)

/-- What a follower takes from its buffer is in the log of its master. -/
theorem quiet_drain : Quiet url (Work.onNode fun _ n =>
      ((n.buffer.drain n.position).1, { n with buffer := (n.buffer.drain n.position).2 }))
    (fun v drained => ∀ ready, drained = some ready → v.Offers url ready) u := by
  apply Quiet.onNode
  intro v n huv hn
  refine ⟨⟨rfl, fun _ h => h, rfl, rfl, rfl, rfl, rfl, fun id e he => Or.inl (PushBuffer.of_mem_drain he),
    fun _ he => he⟩, ?_⟩
  intro w hw ready hready m hm hfollower e he
  obtain ⟨n', hn', hunmoved⟩ := hw.node m hm
  rw [node?_put, if_pos rfl] at hn'
  cases hn'
  obtain ⟨id, hid⟩ := PushBuffer.of_mem_ready (PushBuffer.eq_ready_of_drain hready ▸ he)
  have hthere := (huv.sourced n hn).buffer (hunmoved.isMaster.symm.trans hfollower) id e hid
  rw [hunmoved.master]
  have hgrows : v.Grows (v.put url { n with buffer := (n.buffer.drain n.position).2 }) :=
    grows_put_of_same hn rfl rfl
  exact entryAt?_grows hthere huv.good (hgrows.trans hw.grows)

theorem tails_drainPushed (hu : u.Tails url) :
    following.Keeps url Lifecycle.drainPushed (fun _ v => v.Tails url) u := by
  unfold Lifecycle.drainPushed
  refine Quiet.keeps quiet_drain (fun _ _ huv => hu.later huv) fun v drained huv hoffers => ?_
  have hv : v.Tails url := hu.later huv
  cases drained with
  | none => exact tails_fail hv
  | some ready =>
    dsimp only
    split
    · exact tails_pure hv
    · refine tails_bind (tails_apply hv (hoffers ready rfl)) fun w r hw => ?_
      split
      · exact tails_pure hw
      · split
        · exact tails_pure hw
        · exact tails_fail hw

theorem tails_pullAndApply {master : String} (hu : u.Tails url)
    (hmaster : u.Stands url fun _ now => now = master) :
    following.Keeps url (Lifecycle.pullAndApply master) (fun _ v => v.Tails url) u := by
  unfold Lifecycle.pullAndApply
  have hrest (before : LogId) {v : Net} (hv : v.Tails url) : following.Keeps url (do
      return (← Work.inspect (·.position)) - before) (fun _ w => w.Tails url) v :=
    tails_bind (Quiet.look.tails hv) fun _ _ hw => tails_pure hw
  refine Quiet.keeps Quiet.look (fun _ _ huv => hu.later huv) fun v before huv _ => ?_
  refine Quiet.keeps (Quiet.pull master before) (fun _ _ hvw => (hu.later huv).later hvw)
    fun w chunk hvw hchunk => ?_
  have hw : w.Tails url := (hu.later huv).later hvw
  dsimp only
  split
  · have hoffers := offers_of_chunk ((hmaster.later huv).later hvw) hchunk
    refine tails_bind (tails_apply hw hoffers) fun x r hx => ?_
    split
    · exact hrest before hx
    · split
      · exact tails_fail hx
      · exact hrest before hx
  · exact hrest before hw

theorem tails_elect (cutoff : Instant) (hu : u.Tails url) :
    following.Keeps url (Lifecycle.elect cutoff) (fun _ v => v.Tails url) u := by
  unfold Lifecycle.elect
  refine tails_bind ((Quiet.of_notes Lifecycle.notes_touchSelf).tails hu) fun v _ hv => ?_
  have helect : following.Keeps url (Work.onNode fun _ n => n.elect cutoff)
      (fun _ w => w.Tails url) v := by
    refine keeps_of_same hv fun _ n htailing => ?_
    unfold Node.elect
    split
    · split
      · exact ⟨rfl, rfl, id, htailing⟩
      · exact ⟨rfl, rfl, id, htailing⟩
    · exact ⟨rfl, rfl, id, htailing⟩
  exact tails_bind helect fun w _ hw => tails_pure hw

theorem tails_endStreak (master : String) (since : Instant) (hu : u.Tails url) :
    following.Keeps url (Lifecycle.endStreak master since) (fun _ v => v.Tails url) u := by
  unfold Lifecycle.endStreak
  refine tails_bind (tails_elect since hu) fun v winner hv => ?_
  split
  · next winner =>
    refine tails_bind (Quiet.look.tails hv) fun w own hw => ?_
    split
    · exact tails_pure hw
    · split
      -- the node turns to the winner without a comparison
      · refine tails_bind ?_ fun x _ hx => (Quiet.of_notes (Lifecycle.notes_restAfter _ _)).tails hx
        exact Keeps.mono (keeps_retarget hw) fun _ _ hx => hx.mono fun _ _ hstands => hstands.1
      · exact (Quiet.of_notes (Lifecycle.notes_restAfter _ _)).tails hw
  · exact (Quiet.of_notes (Lifecycle.notes_restAfter _ _)).tails hv

theorem tails_noteFailure (master : String) (streak : Lifecycle.Streak) (hu : u.Tails url) :
    following.Keeps url (Lifecycle.noteFailure master streak) (fun _ v => v.Tails url) u := by
  unfold Lifecycle.noteFailure
  refine tails_bind ((Quiet.of_notes Work.Steps.clock).tails hu) fun v now hv => ?_
  refine tails_bind (Quiet.look.tails hv) fun w settings hw => ?_
  dsimp only
  split
  · refine tails_bind ((Quiet.of_notes Lifecycle.notes_hostUpdate).tails hw) fun x _ hx => ?_
    split
    · exact tails_endStreak _ _ hx
    · exact (Quiet.of_notes (Lifecycle.notes_restAfter _ _)).tails hx
  · split
    · exact tails_endStreak _ _ hw
    · exact (Quiet.of_notes (Lifecycle.notes_restAfter _ _)).tails hw

theorem tails_tailPass (streak : Lifecycle.Streak) (hu : u.Tails url) :
    following.Keeps url (Lifecycle.tailPass streak) (fun _ v => v.Tails url) u := by
  unfold Lifecycle.tailPass
  refine tails_bind (Quiet.look.tails hu) fun v standing hv => ?_
  split
  · exact tails_pure hv
  · split
    · exact tails_pure hv
    · refine tails_bind (tails_drainPushed hv) fun w _ hw => ?_
      refine Quiet.keeps Quiet.master (fun _ _ hwx => hw.later hwx) fun x master hwx hmaster => ?_
      have hx : x.Tails url := hw.later hwx
      refine tails_bind (Keeps.outcome (tails_pullAndApply hx hmaster)) fun y r hy => ?_
      split
      · exact (Quiet.of_notes (Lifecycle.notes_restAfter _ _)).tails hy
      · exact tails_pure hy
      · split
        · exact tails_noteFailure _ _ hy
        · exact tails_fail hy

theorem keeps_tail (hu : u.Agreed url) :
    following.Keeps url Lifecycle.tail (fun _ _ => True) u := by
  unfold Lifecycle.tail
  have hany : u.Stands url fun _ _ => True := fun _ _ => trivial
  refine Keeps.bind (Keeps.mono (keeps_enter hany fun _ v huv => hu.later huv) ?_)
  rintro (error | _) v ⟨hv, -⟩
  · trivial
  have hv : v.Tails url := hv.mono fun _ _ hstands => hstands.1
  refine Keeps.iterate (fun _ w => w.Tails url) (fun w hvw => hv.later hvw) ?_
  intro streak w hw
  refine Keeps.mono (tails_tailPass streak hw) ?_
  intro r x hx
  match r with
  | .ok (.inl next) => exact hx
  | .ok (.inr result) => trivial
  | .error error => trivial

/-! ## From start to stop -/

theorem keeps_masterLoop : following.Keeps url Lifecycle.masterLoop (fun _ _ => True) u := by
  unfold Lifecycle.masterLoop
  have hany : u.Stands url fun _ _ => True := fun _ _ => trivial
  refine Keeps.bind (Keeps.mono (keeps_enter hany nofun) ?_)
  rintro (error | _) v -
  · trivial
  refine Keeps.iterate (fun _ _ => True) (fun _ _ => trivial) ?_
  intro t w _
  refine Keeps.mono (Quiet.of_notes Lifecycle.notes_masterRound) ?_
  intro r x _
  match r with
  | .ok (.inl next) => trivial
  | .ok (.inr result) => trivial
  | .error error => trivial

theorem keeps_stop : following.Keeps url (Work.enter .stopped) (fun _ _ => True) u := by
  have hany : u.Stands url fun _ _ => True := fun _ _ => trivial
  exact Keeps.mono (keeps_enter hany nofun) fun _ _ _ => trivial

theorem keeps_follow (hu : ∀ v, Later url u v → v.Agreed url) :
    following.Keeps url Lifecycle.follow (fun _ _ => True) u := by
  unfold Lifecycle.follow
  refine Quiet.keeps Quiet.look (fun _ _ _ => trivial) fun v isMaster huv _ => ?_
  split
  · exact Keeps.pure fun _ _ => trivial
  · exact keeps_tail (hu v huv)

/-- The coordinator of a node, from start to stop. -/
theorem sound_run : following.Sound url Job.run.activity (fun _ _ => True) u := by
  have hrun : following.Keeps url Lifecycle.run (fun _ _ => True) u := by
    unfold Lifecycle.run
    refine Keeps.bind (Keeps.outcome (Keeps.mono keeps_startup ?_))
    intro r v hr
    dsimp only
    split
    · exact keeps_stop
    · refine Keeps.bind (Keeps.mono keeps_stop ?_)
      rintro (error | _) w -
      · trivial
      · exact Keeps.fail fun _ _ => trivial
    · refine Keeps.bind (Keeps.mono (keeps_follow (hr () rfl)) ?_)
      rintro (error | ending) w -
      · trivial
      dsimp only
      split
      · exact keeps_stop
      · refine Keeps.bind (Keeps.mono keeps_masterLoop ?_)
        rintro (error | _) x -
        · trivial
        · exact keeps_stop
  exact Sound.bind hrun fun _ _ _ => fun _ _ => trivial

end Keeps

end Net

end LogShipping
