import LogShipping.Proofs.World.Sources

/-!
# Following a master whose log may differ

A follower should extend its log only with entries of a node that has its newest entry too, under the
same id and with the same timestamp (`Net.Agrees`); otherwise its log would be one that no master ever
had. In two of the three ways in which a follower comes to its master there is a guard: it compares logs
with the configured peer before it catches up, and with the master that the peer names before it tails.
There is none in the third: when an election makes it follow the winner, it goes on pulling without a
comparison. `Net.following` are the terms that the coordinator of a node keeps to all the same, and a
comparison that succeeds shows that the logs agree (`Quiet.compareLog`).

What was compared is of use only as long as it stays true while others act. It does, as a follower's log
is left alone by others and the logs of its peers only grow (`Agrees.unmoved`). The one who breaks it is
the node itself, by turning to another master.

The comparison reads one entry of the peer, the one under the node's own position. Nothing is said of
entries below it, and nothing of a node with an empty log, which agrees with everyone.
-/

namespace LogShipping

/-! ## Turning to another master -/

namespace Node

variable {n n' : Node}

/-- While tailing, a node begins to follow a master that it did not follow before. -/
def Turns (n n' : Node) : Prop :=
  n.phase = .tailing ∧ n'.phase = .tailing ∧ n'.standing.isMaster = false ∧
    (n.standing.isMaster = true ∨ n'.standing.master ≠ n.standing.master)

instance : Decidable (n.Turns n') := inferInstanceAs (Decidable
  (n.phase = .tailing ∧ n'.phase = .tailing ∧ n'.standing.isMaster = false ∧
    (n.standing.isMaster = true ∨ n'.standing.master ≠ n.standing.master)))

end Node

namespace Net

variable {t u v w : Net} {url peer master : String} {n n' : Node} {pushed : Entry → Prop} {α β : Type}

/-! ## Agreement -/

/-- The newest entry of a node is under its id at an address too, with the same timestamp. A node with
an empty log agrees with any other. -/
def Agrees (u : Net) (n : Node) (peer : String) : Prop :=
  ∀ e ∈ n.log.entryAt? n.position, ∃ f ∈ u.entryAt? peer n.position, f.timestamp = e.timestamp

instance : Decidable (u.Agrees n peer) := inferInstanceAs (Decidable
  (∀ e ∈ n.log.entryAt? n.position, ∃ f ∈ u.entryAt? peer n.position, f.timestamp = e.timestamp))

theorem Agrees.grows (h : u.Agrees n peer) (hu : u.Good anywhere) (huv : u.Grows v) :
    v.Agrees n peer := by
  intro e he
  obtain ⟨f, hf, htimestamp⟩ := h e he
  exact ⟨f, entryAt?_grows hf hu huv, htimestamp⟩

theorem Agrees.congr (h : u.Agrees n peer) (hrows : n'.log.store.rows = n.log.store.rows)
    (hposition : n'.position = n.position) : u.Agrees n' peer := by
  intro e he
  rw [hposition, Option.mem_def, Log.entryAt?_congr hrows] at he
  rw [hposition]
  exact h e he

/-- A follower agrees with a node as long as others leave it alone. -/
theorem Agrees.unmoved (h : u.Agrees n peer) (hunmoved : n.Unmoved n')
    (hfollower : n.standing.isMaster = false) : u.Agrees n' peer :=
  h.congr (hunmoved.rows hfollower) (hunmoved.position hfollower)

/-- What may happen to the log of a follower: nothing, or it is continued with entries of its master, if
it agrees with that one. -/
def Continues (u : Net) (n n' : Node) : Prop :=
  (n'.log.store.rows = n.log.store.rows ∧ n'.position = n.position) ∨
    u.Agrees n n.standing.master ∧ ∃ new, n.log.Took new n'.log ∧
      ∀ e ∈ new, u.entryAt? n.standing.master e.id = some e

/-- While it is tailing, a follower agrees with its master. -/
def Guarded (url : String) (u : Net) : Prop :=
  ∀ n, u.node? url = some n → n.phase = .tailing → n.standing.isMaster = false →
    u.Agrees n n.standing.master

/-! ## Terms -/

/-- What may happen to a net between two steps of the coordinator of a node. -/
structure Later (url : String) (u v : Net) : Prop where
  before : u.Good anywhere
  good : v.Good anywhere
  grows : u.Grows v
  guarded : v.Guarded url
  sourced : ∀ n, v.node? url = some n → v.Sourced url n
  node : ∀ n, v.node? url = some n → ∃ m, u.node? url = some m ∧ m.Unmoved n

theorem Later.here (h : Later url u v) : Later url v v :=
  ⟨h.good, h.good, Grows.refl v, h.guarded, h.sourced, fun n hn => ⟨n, hn, .refl n⟩⟩

theorem Later.trans (h : Later url u v) (h' : Later url v w) : Later url u w where
  before := h.before
  good := h'.good
  grows := h.grows.trans h'.grows
  guarded := h'.guarded
  sourced := h'.sourced
  node := by
    intro n hn
    obtain ⟨m, hm, hunmoved⟩ := h'.node n hn
    obtain ⟨k, hk, hunmoved'⟩ := h.node m hm
    exact ⟨k, hk, hunmoved'.trans hunmoved⟩

/-- The coordinator of a node continues the log with entries of a master that agrees with it, and while
it is tailing the node agrees with its master, unless it has just turned to that one. -/
def following : Discipline where
  rely := Later
  acts url u v := ∀ n n', u.node? url = some n → v.node? url = some n' →
    (n.standing.isMaster = false → u.Continues n n') ∧
      (n'.phase = .tailing → n'.standing.isMaster = false →
        n.Turns n' ∨ v.Agrees n' n'.standing.master)
  asks _ _ _ _ := True
  hears _ u peer m reply := u.Tells peer m reply
  rely_refl := Later.here
  rely_trans := Later.trans

/-! ## Steps -/

theorem acts_put (hn : u.node? url = some n)
    (hcontinues : n.standing.isMaster = false → u.Continues n n')
    (hagrees : n'.phase = .tailing → n'.standing.isMaster = false →
      n.Turns n' ∨ (u.put url n').Agrees n' n'.standing.master) :
    following.acts url u (u.put url n') := by
  intro m m' hm hm'
  rw [hn] at hm
  cases hm
  rw [node?_put, if_pos rfl] at hm'
  cases hm'
  exact ⟨hcontinues, hagrees⟩

/-- Where the log of a node is left alone, all logs are continued. -/
theorem grows_put_of_same (hn : u.node? url = some n) (hrows : n'.log.store.rows = n.log.store.rows)
    (hposition : n'.position = n.position) : u.Grows (u.put url n') := by
  refine grows_put hn fun entries hholds => ⟨[], ?_⟩
  rw [List.append_nil]
  refine ⟨hrows.trans hholds.rows, ?_, hholds.history⟩
  exact (congrArg UInt64.toNat hposition).trans hholds.position

/-- A step that leaves the log alone and enters no tailing but from tailing. -/
theorem acts_of_same (hu : u.Good anywhere) (hguarded : u.Guarded url) (hn : u.node? url = some n)
    (hrows : n'.log.store.rows = n.log.store.rows) (hposition : n'.position = n.position)
    (hphase : n'.phase = .tailing → n.phase = .tailing) :
    following.acts url u (u.put url n') := by
  refine acts_put hn (fun _ => Or.inl ⟨hrows, hposition⟩) ?_
  intro htailing hfollower
  by_cases hturns : n.Turns n'
  · exact Or.inl hturns
  right
  -- a node that does not turn was a follower of the same master before
  have hstays : n.standing.isMaster = false ∧ n'.standing.master = n.standing.master := by
    by_contra hnot
    refine hturns ⟨hphase htailing, htailing, hfollower, ?_⟩
    cases hisMaster : n.standing.isMaster with
    | true => exact Or.inl rfl
    | false => exact Or.inr fun hsame => hnot ⟨hisMaster, hsame⟩
  rw [hstays.2]
  have hagrees := hguarded n hn (hphase htailing) hstays.1
  exact (hagrees.congr hrows hposition).grows hu (grows_put_of_same hn hrows hposition)

theorem acts_apart (hu : u.Good anywhere) (hguarded : u.Guarded url) (hn : u.node? url = some n)
    (h : n.Apart pushed n') : following.acts url u (u.put url n') :=
  acts_of_same hu hguarded hn h.rows h.position fun htailing => h.phase.symm.trans htailing

theorem Later.put (h : Later url u v) (hn : v.node? url = some n) (hapart : n.Apart pushed n')
    (hw : Later url (v.put url n') w) : Later url u w where
  before := h.before
  good := hw.good
  grows := h.grows.trans ((grows_put_of_same hn hapart.rows hapart.position).trans hw.grows)
  guarded := hw.guarded
  sourced := hw.sourced
  node := by
    intro m hm
    obtain ⟨m', hm', hunmoved⟩ := hw.node m hm
    rw [node?_put, if_pos rfl] at hm'
    cases hm'
    obtain ⟨k, hk, hunmoved'⟩ := h.node n hn
    exact ⟨k, hk, hunmoved'.trans (hapart.unmoved.trans hunmoved)⟩

theorem Tells.expect {m : Message} {reply : Except Error Message} {command : Command}
    (h : u.Tells peer m reply) : u.Tells peer m (reply.bind (Message.expect command)) := by
  cases reply with
  | error error => exact Tells.failure error
  | ok answer =>
    show u.Tells peer m (Message.expect command answer)
    unfold Message.expect
    split
    · exact h
    · exact Tells.failure _

/-! ## Work that leaves the log alone -/

/-- Work that does nothing to the node but what others may do to it too, and a fact holds of its
result. -/
def Quiet (url : String) (work : Work α) (P : Net → α → Prop) (u : Net) : Prop :=
  following.Keeps url work (fun r v => Later url u v ∧ ∀ a, r = .ok a → P v a) u

namespace Quiet

open Discipline

theorem pure {a : α} {P : Net → α → Prop} (h : ∀ v, Later url u v → P v a) :
    Quiet url (Pure.pure a) P u := by
  refine Keeps.pure fun v huv => ⟨huv, ?_⟩
  intro b hb
  cases hb
  exact h v huv

theorem fail {error : Error} {P : Net → α → Prop} : Quiet url (throw error) P u :=
  Keeps.fail fun _ huv => ⟨huv, nofun⟩

theorem bind {work : Work α} {next : α → Work β} {P : Net → α → Prop} {R : Net → β → Prop}
    (h : Quiet url work P u)
    (hnext : ∀ v a, Later url u v → P v a → Quiet url (next a) R v) :
    Quiet url (work >>= next) R u := by
  refine Keeps.bind (Keeps.mono h ?_)
  rintro r v ⟨huv, hr⟩
  cases r with
  | error error => exact ⟨huv, nofun⟩
  | ok a => exact Keeps.mono (hnext v a huv (hr a rfl)) fun _ _ hr => ⟨huv.trans hr.1, hr.2⟩

theorem onNode {work : Instant → Node → α × Node} {P : Net → α → Prop}
    (h : ∀ v n, Later url u v → v.node? url = some n →
      n.Apart (fun _ => True) (work v.now n).2 ∧
        ∀ w, Later url (v.put url (work v.now n).2) w → P w (work v.now n).1) :
    Quiet url (Work.onNode work) P u := by
  apply Keeps.onNode
  intro v n huv hn
  obtain ⟨hapart, hP⟩ := h v n huv hn
  refine ⟨acts_apart huv.good huv.guarded hn hapart, ?_⟩
  intro w hw
  refine ⟨huv.put hn hapart hw, ?_⟩
  intro a ha
  cases ha
  exact hP w hw

/-- What was seen of a node is still so of what others leave alone. -/
theorem inspect {look : Node → α} {P : Net → α → Prop}
    (h : ∀ v m, (∀ n, v.node? url = some n → m.Unmoved n) → P v (look m)) :
    Quiet url (Work.inspect look) P u := by
  apply onNode
  intro v m huv hm
  refine ⟨.refl m, ?_⟩
  rw [put_node? hm]
  intro w hvw
  apply h
  intro n hn
  obtain ⟨m', hm', hunmoved⟩ := hvw.node n hn
  rw [hm] at hm'
  cases hm'
  exact hunmoved

theorem look {f : Node → α} : Quiet url (Work.inspect f) (fun _ _ => True) u :=
  inspect fun _ _ _ => trivial

theorem note {table : Instant → Node → HostTable} :
    Quiet url (Work.change fun now n => { n with hosts := table now n }) (fun _ _ => True) u :=
  onNode fun _ n _ _ => ⟨.note n _, fun _ _ => trivial⟩

theorem call {peer : String} {m : Message} :
    Quiet url (Work.call peer m) (fun v reply => v.Tells peer m (.ok reply)) u := by
  refine Keeps.call (fun _ _ => trivial) ?_
  intro v reply huv hreply w hvw
  refine ⟨huv.trans hvw, ?_⟩
  intro a ha
  rw [← ha]
  exact (Tells.expect hreply).grows hvw.before hvw.grows

/-- An activity that only takes notes leaves the log alone, however long it takes. -/
theorem sound_of_notes {a : Activity Node α} (h : a.Steps Node.Notes)
    (huv : ∀ w, Later url v w → Later url u w) :
    following.Sound url a (fun _ w => Later url u w) v := by
  induction a generalizing v with
  | done value => exact huv
  | atomic work resume ih =>
    intro w n hvw hn
    obtain ⟨hosts, -, heq⟩ := h.1 w.now n
    have hlater := huv w hvw
    have hapart : n.Apart (fun _ => True) { n with hosts := hosts } := .note n hosts
    rw [heq]
    exact ⟨acts_apart hlater.good hlater.guarded hn hapart,
      ih _ (h.2 _) fun x hx => hlater.put hn hapart hx⟩
  | call peer m resume ih =>
    intro w hvw
    exact ⟨trivial, fun x reply hwx _ =>
      ih reply (h.2 reply) fun y hxy => huv y ((hvw.trans hwx).trans hxy)⟩
  | callAll peers m resume ih =>
    intro w hvw
    exact ⟨fun _ _ => trivial, fun x replies hwx _ =>
      ih replies (h.2 replies) fun y hxy => huv y ((hvw.trans hwx).trans hxy)⟩
  | pause duration resume ih =>
    intro w stopped hvw
    exact ih stopped (h stopped) fun y hwy => huv y (hvw.trans hwy)
  | loop body start resume ihbody ih =>
    refine ⟨fun _ w => ∀ x, Later url w x → Later url u x,
      fun w hvw x hwx => huv x (hvw.trans hwx), fun t w hw => (ihbody t (h.1 t) hw).mono ?_⟩
    rintro (next | result) x hx
    · exact fun y hxy => hx.trans hxy
    · exact ih result (h.2 result) fun y hxy => hx.trans hxy

theorem of_notes {work : Work α} (h : work.Steps Node.Notes) :
    Quiet url work (fun _ _ => True) u :=
  Sound.mono (sound_of_notes h fun _ huw => huw) fun _ _ hv => ⟨hv, fun _ _ => trivial⟩

/-! ## Asking peers -/

theorem askEntry (peer : String) (id : LogId) : Quiet url (Work.askEntry peer id)
    (fun v entry => ∀ e ∈ entry, v.entryAt? peer id = some e) u := by
  unfold Work.askEntry
  refine bind call fun v m _ hm => ?_
  split
  · exact pure fun w hvw e he => entryAt?_grows (hm e he) hvw.before hvw.grows
  · exact fail

/-- The entries of a page are in the log of the peer. -/
theorem pull (peer : String) (lastSeen : LogId) : Quiet url (Work.pull peer lastSeen)
    (fun v chunk => ∀ e ∈ chunk.entries, v.entryAt? peer e.id = some e) u := by
  unfold Work.pull
  refine bind look fun _ own _ _ => ?_
  refine bind call fun v m _ hm => ?_
  split
  · refine bind note fun w _ hvw _ => ?_
    exact pure fun x hwx e he =>
      entryAt?_grows (hm e he) hvw.before (hvw.grows.trans hwx.grows)
  · exact fail

end Quiet

/-! ## Comparing logs -/

/-- A follower agrees with the node at an address. -/
def AgreesWith (url peer : String) (u : Net) : Prop :=
  ∀ n, u.node? url = some n → n.standing.isMaster = false → u.Agrees n peer

namespace Quiet

theorem position : Quiet url (Work.inspect (·.position)) (fun v id =>
    ∀ n, v.node? url = some n → n.standing.isMaster = false → n.position = id) u := by
  apply inspect
  intro v m hseen n hn hfollower
  exact (hseen n hn).position ((hseen n hn).isMaster.symm.trans hfollower)

/-- What is read is in the log. -/
theorem readOne (id : LogId) : Quiet url (Work.onLog (Log.onStore (Log.readOne id)))
    (fun v entry => ∀ e ∈ entry, ∀ n, v.node? url = some n → n.standing.isMaster = false →
      n.log.entryAt? id = some e) u := by
  apply Discipline.Keeps.onLog
  intro v n huv hn
  have hapart : n.Apart (fun _ => True) (n.onLog (Log.onStore (Log.readOne id))).2 :=
    .onStore (Log.aged_readOne id)
  refine ⟨acts_apart huv.good huv.guarded hn hapart, ?_⟩
  intro w hw
  refine ⟨huv.put hn hapart hw, ?_⟩
  rintro entry hr e rfl m hm hfollower
  have hread : ((Log.readOne id).run.run n.log.store).1 = .ok (some e) := hr
  have hentry : n.log.entryAt? id = some e := by
    obtain ⟨entries, hholds, -⟩ := (huv.good url n hn).log
    rcases (Log.ensures_readOne hholds.rows hholds.history id).2 with
      ⟨f, hf, hid, hfound⟩ | ⟨-, hnone | ⟨error, hfailed⟩⟩ | ⟨-, fault, hfailed⟩
    · rw [hread] at hfound
      cases hfound
      exact hholds.entryAt?_eq_some_iff.mpr ⟨hf, hid⟩
    · rw [hread] at hnone
      cases hnone
    · rw [hread] at hfailed
      cases hfailed
    · rw [hread] at hfailed
      cases hfailed
  obtain ⟨n', hn', hunmoved⟩ := hw.node m hm
  rw [node?_put, if_pos rfl] at hn'
  cases hn'
  rw [Log.entryAt?_congr (hunmoved.rows (hunmoved.isMaster.symm.trans hfollower)),
    Log.entryAt?_congr hapart.rows]
  exact hentry

/-- A comparison of logs succeeds only if they agree. -/
theorem compareLog (peer : String) :
    Quiet url (Lifecycle.compareLog peer) (fun v _ => v.AgreesWith url peer) u := by
  unfold Lifecycle.compareLog
  refine bind position fun v id _ hposition => ?_
  have hid {w : Net} {n : Node} (hvw : Later url v w) (hn : w.node? url = some n)
      (hfollower : n.standing.isMaster = false) : n.position = id := by
    obtain ⟨m, hm, hunmoved⟩ := hvw.node n hn
    have hm' := hunmoved.isMaster.symm.trans hfollower
    exact (hunmoved.position hm').trans (hposition m hm hm')
  split
  · refine bind (readOne id) fun w entry hvw hentry => ?_
    split
    · exact fail
    · next mine =>
      refine bind (askEntry peer id) fun x theirs hwx htheirs => ?_
      dsimp only
      split
      · exact fail
      · next hsame =>
        apply pure
        intro y hxy n hn hfollower e he
        have hwy := hwx.trans hxy
        rw [hid (hvw.trans hwy) hn hfollower] at he ⊢
        obtain ⟨m, hm, hunmoved⟩ := hwy.node n hn
        have hm' := hunmoved.isMaster.symm.trans hfollower
        rw [Option.mem_def, Log.entryAt?_congr (hunmoved.rows hm'), hentry mine rfl m hm hm'] at he
        cases he
        obtain ⟨f, hf, htimestamp⟩ := Option.map_eq_some_iff.mp (not_not.mp hsame)
        exact ⟨f, entryAt?_grows (htheirs f hf) hxy.before hxy.grows, htimestamp⟩
  · next hzero =>
    -- there is no entry under the id of an empty log
    apply pure
    intro w hvw n hn hfollower e he
    rw [hid hvw hn hfollower, not_not.mp hzero] at he
    obtain ⟨entries, hholds, -⟩ := (hvw.good url n hn).log
    obtain ⟨he, hid⟩ := hholds.entryAt?_eq_some_iff.mp he
    exact absurd hid (hholds.history.id_ne_zero he)

end Quiet

end Net

end LogShipping
