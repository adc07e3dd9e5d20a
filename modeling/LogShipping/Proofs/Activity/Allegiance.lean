import LogShipping.Proofs.Activity.Phases
import LogShipping.Proofs.Host.Winner

/-!
# Whom a node obeys

The role of a node, its master, its push target and the entries pushed to it are set by three parties:
the service, the sender of pushes, and the coordinator. Whatever these do, in any order, they fit
together (`Node.Loyal`): a master is its own master; only a master has a push target, which is some
other node; and all that a follower buffers was pushed to it in the name of the master that it follows
now. The coordinator takes entries out of the buffer while the node is a follower only, so entries that
a former master pushed are never applied (`Node.reached_loyal`).

The history of a node is the list of what it met besides its coordinator (`Node.Incident`), messages
included; a run of the coordinator is told as a list of deeds, and what was met meanwhile is read off
from the deeds of others in it (`Explains`). One lemma for each kind of step says that a loyal node
stays loyal, and a story of a run (`accounts`) carries that from the opening of the node to any moment.

All of this takes the handling of a push, and the turn to another master, as one step each. The program
takes two steps for either, with no lock that both hold, so what is shown here is the law of the steps
as a whole; `Proofs.Activity.Racing` takes them apart and finds where the law breaks. Nothing is said of
who may push: any peer that names the right master is believed.
-/

namespace LogShipping

/-! ## Incidents -/

/-- What a node may meet besides its coordinator: a message, a commit, the loss or the repair of its
store, the order to stop, and its sender of pushes taking an entry or giving a target up. -/
inductive Node.Incident where
  | answer (now : Instant) (m : Message)
  | commit (now : Instant) (e : Entry)
  | outage (outage : Option Outage)
  | stop
  | push
  | lose (target : String)

namespace Node

/-- The node after an incident. -/
def meet (n : Node) : Incident → Node
  | .answer now m => (n.handle now m).2
  | .commit now e => (n.commit now e).2
  | .outage outage => { n with log := { n.log with store := { n.log.store with outage := outage } } }
  | .stop => n.restand Standing.stop
  | .push => (Cluster.nextPush n).2
  | .lose target => n.restand (·.lose target)

variable {n m : Node}

theorem beside_meet (n : Node) (i : Incident) : n.Beside (n.meet i) := by
  cases i with
  | answer now m => exact .answer now m
  | commit now e => exact .commit now e
  | outage outage => exact .outage outage
  | stop => exact .stop
  | push => exact .push
  | lose target => exact .lose target

theorem Beside.exists_incident (h : n.Beside m) : ∃ i, m = n.meet i := by
  cases h with
  | answer now m => exact ⟨.answer now m, rfl⟩
  | commit now e => exact ⟨.commit now e, rfl⟩
  | outage outage => exact ⟨.outage outage, rfl⟩
  | stop => exact ⟨.stop, rfl⟩
  | push => exact ⟨.push, rfl⟩
  | lose target => exact ⟨.lose target, rfl⟩

end Node

open Node

/-- How the deeds of others in a run came about. -/
def Explains : List Deed → List Incident → Prop
  | [], incidents => incidents = []
  | .beside before after :: rest, incidents =>
    ∃ i later, incidents = i :: later ∧ after = before.meet i ∧ Explains rest later
  | _ :: rest, incidents => Explains rest incidents

section Explains

variable {deeds more : List Deed} {incidents : List Incident}

theorem explains_append : Explains (deeds ++ more) incidents ↔
    ∃ first second, incidents = first ++ second ∧ Explains deeds first ∧ Explains more second := by
  induction deeds generalizing incidents with
  | nil =>
    constructor
    · exact fun h => ⟨[], incidents, rfl, rfl, h⟩
    · rintro ⟨_, second, rfl, rfl, hmore⟩
      exact hmore
  | cons deed deeds ih =>
    cases deed with
    | beside before after =>
      constructor
      · rintro ⟨i, later, rfl, hafter, hlater⟩
        obtain ⟨first, second, rfl, hfirst, hsecond⟩ := ih.mp hlater
        exact ⟨i :: first, second, rfl, ⟨i, first, rfl, hafter, hfirst⟩, hsecond⟩
      · rintro ⟨_, second, rfl, ⟨i, later, rfl, hafter, hlater⟩, hsecond⟩
        exact ⟨i, later ++ second, rfl, hafter, ih.mpr ⟨later, second, rfl, hlater, hsecond⟩⟩
    | _ => exact ih

theorem explains_snoc_beside {before after : Node} :
    Explains (deeds ++ [.beside before after]) incidents ↔
      ∃ past i, incidents = past ++ [i] ∧ Explains deeds past ∧ after = before.meet i := by
  rw [explains_append]
  constructor
  · rintro ⟨past, _, rfl, hpast, i, _, rfl, hafter, rfl⟩
    exact ⟨past, i, rfl, hpast, hafter⟩
  · rintro ⟨past, i, rfl, hpast, hafter⟩
    exact ⟨past, [i], rfl, hpast, i, [], rfl, hafter, rfl⟩

/-- Deeds of the coordinator itself need no explanation. -/
theorem explains_snoc_own {deed : Deed} (h : ∀ before after, deed ≠ .beside before after) :
    Explains (deeds ++ [deed]) incidents ↔ Explains deeds incidents := by
  have hown : ∀ incidents, Explains [deed] incidents ↔ incidents = [] := by
    intro incidents
    cases deed with
    | beside before after => exact absurd rfl (h before after)
    | _ => exact Iff.rfl
  rw [explains_append]
  constructor
  · rintro ⟨first, second, rfl, hfirst, hsecond⟩
    rw [(hown second).mp hsecond, List.append_nil]
    exact hfirst
  · exact fun hdeeds => ⟨incidents, [], (List.append_nil _).symm, hdeeds, (hown []).mpr rfl⟩

/-- Whatever others do in a run can be explained. -/
theorem Activity.Runs.exists_explains {α : Type} {a : Activity Node α} {n n' : Node} {r : Option α}
    (h : a.Runs n deeds r n') : ∃ incidents, Explains deeds incidents := by
  induction h with
  | done | underWay | calling | callingAll => exact ⟨[], rfl⟩
  | beside _ hbeside _ ih =>
    obtain ⟨i, hi⟩ := hbeside.exists_incident
    obtain ⟨incidents, hincidents⟩ := ih
    exact ⟨i :: incidents, i, incidents, rfl, hi, hincidents⟩
  | atomic _ _ ih | call _ _ ih | callAll _ _ _ ih | pause _ _ ih | round _ ih => exact ih

end Explains

/-! ## Reachable nodes -/

/-- A node that was opened can get here, and this is what it met on its way, in order. Its coordinator
may be set to any job at any time, and a job may be left under way. -/
inductive Node.Reached : List Incident → Node → Prop
  | opened {setup : Setup} {now : Instant} {store : Store} {n : Node}
      (h : ((Node.start setup now).run.run store).1 = .ok n) : Reached [] n
  | met {history : List Incident} {n : Node} (h : Reached history n) (i : Incident) :
      Reached (history ++ [i]) (n.meet i)
  | coordinated {history incidents : List Incident} {n m : Node} {deeds : List Deed}
      {r : Option PUnit} (h : Reached history n) (job : Job) (hrun : job.activity.Runs n deeds r m)
      (hmet : Explains deeds incidents) : Reached (history ++ incidents) m

/-- A push of an entry in the name of a master is part of a history. -/
def Pushed (history : List Incident) (master : String) (e : Entry) : Prop :=
  ∃ now accepted, .answer now (.pushTransaction master e accepted) ∈ history

theorem Pushed.append {history : List Incident} {master : String} {e : Entry}
    (h : Pushed history master e) (more : List Incident) : Pushed (history ++ more) master e := by
  obtain ⟨now, accepted, hpush⟩ := h
  exact ⟨now, accepted, List.mem_append_left _ hpush⟩

/-- Role and push target fit together. -/
structure Node.Upright (n : Node) : Prop where
  /-- A master is its own master. -/
  own : n.standing.isMaster = true → n.standing.master = n.url
  /-- Only a master pushes, and not to itself. -/
  target : ∀ target, n.standing.pushTarget = some target →
    n.standing.isMaster = true ∧ target ≠ "" ∧ target ≠ n.url

/-- Role, push target and buffered pushes fit together. -/
structure Node.Loyal (history : List Incident) (n : Node) : Prop extends n.Upright where
  /-- What a follower buffers was pushed in the name of its master. -/
  buffer : n.standing.isMaster = false → ∀ (id : LogId) (e : Entry),
    n.buffer.entries[id]? = some e → Pushed history n.standing.master e

/-! ## Incidents keep a node loyal -/

namespace Node

variable {n m : Node} {history : List Incident} {i : Incident} {target : String}

theorem pushTarget_noteReader {now : Instant} {url : String} {lastSeen : LogId} {isCurrent : Bool}
    (h : (n.noteReader now url lastSeen isCurrent).standing.pushTarget = some target) :
    n.standing.pushTarget = some target ∨
      (n.standing.isMaster = true ∧ target ≠ "" ∧ target ≠ n.url) := by
  unfold noteReader at h
  split at h
  · exact Or.inl h
  · next hother =>
    dsimp only at h
    split at h
    · next haims =>
      obtain ⟨hmaster, -⟩ := Bool.and_eq_true_iff.mp haims
      obtain rfl : url = target := Option.some.inj h
      exact Or.inr ⟨hmaster, not_or.mp hother⟩
    · exact Or.inl h

/-- A message sets a push target on a master only, and never an empty one or the node itself. -/
theorem pushTarget_handle {now : Instant} {message : Message}
    (h : (n.handle now message).2.standing.pushTarget = some target) :
    n.standing.pushTarget = some target ∨
      (n.standing.isMaster = true ∧ target ≠ "" ∧ target ≠ n.url) := by
  cases message with
  | register url position hosts =>
    change (n.handleRegister now url position).2.standing.pushTarget = _ at h
    unfold handleRegister at h
    split at h <;> exact Or.inl h
  | readOne id entry => exact Or.inl h
  | readLog url lastSeen limit chunk =>
    change (n.handleReadLog now url lastSeen limit).2.standing.pushTarget = _ at h
    have hread : (n.onLog (Log.onStore (Log.readLog n.position now lastSeen limit))).2.standing =
      n.standing := rfl
    have hself : (n.onLog (Log.onStore (Log.readLog n.position now lastSeen limit))).2.url = n.url := rfl
    unfold handleReadLog at h
    split at h
    · next heq =>
      rw [heq] at hread
      rw [← hread]
      exact Or.inl h
    · next heq =>
      rw [heq] at hread hself
      rw [← hread, ← hself]
      exact pushTarget_noteReader h
  | setHosts hosts => exact Or.inl h
  | addHost host =>
    change (n.handleAddHost host).2.standing.pushTarget = _ at h
    unfold handleAddHost at h
    split at h <;> exact Or.inl h
  | pushTransaction source e accepted =>
    change (n.handlePush source e).2.standing.pushTarget = _ at h
    unfold handlePush at h
    split at h
    · exact Or.inl h
    · split at h <;> exact Or.inl h
  | status url position isMaster master => exact Or.inl h

theorem buffer_commit (n : Node) (now : Instant) (e : Entry) : (n.commit now e).2.buffer = n.buffer := by
  have hbuffer : (n.onLog (Log.commit now e)).2.buffer = n.buffer := rfl
  unfold commit
  split
  · next heq => exact (congrArg (·.2.buffer) heq).symm.trans hbuffer
  · next heq => exact (congrArg (·.2.buffer) heq).symm.trans hbuffer
  · next committed m heq =>
    have hm : m.buffer = n.buffer := (congrArg (·.2.buffer) heq).symm.trans hbuffer
    exact (Net.offer_frame m committed).2.2.trans hm

theorem pushTarget_meet (h : (n.meet i).standing.pushTarget = some target) :
    n.standing.pushTarget = some target ∨
      (n.standing.isMaster = true ∧ target ≠ "" ∧ target ≠ n.url) := by
  cases i with
  | answer now m => exact pushTarget_handle h
  | commit now e =>
    change (n.commit now e).2.standing.pushTarget = _ at h
    rw [(commit_frame n now e).1] at h
    exact Or.inl h
  | outage outage => exact Or.inl h
  | stop => exact Or.inl h
  | push =>
    obtain ⟨queue, heq, -⟩ := Net.exists_queue_nextPush n
    change (Cluster.nextPush n).2.standing.pushTarget = _ at h
    rw [heq] at h
    exact Or.inl h
  | lose lost =>
    change (n.standing.lose lost).pushTarget = _ at h
    unfold Standing.lose at h
    split at h
    · cases h
    · exact Or.inl h

/-- What is buffered after an incident was buffered before, or is the entry of a push in the name of
the master. -/
theorem buffer_meet {id : LogId} {e : Entry} (h : (n.meet i).buffer.entries[id]? = some e) :
    n.buffer.entries[id]? = some e ∨
      ∃ now accepted, i = .answer now (.pushTransaction n.standing.master e accepted) := by
  cases i with
  | answer now m =>
    refine ((Apart.handle n now m).buffer id e h).imp_right ?_
    rintro ⟨accepted, rfl⟩
    exact ⟨now, accepted, rfl⟩
  | commit now c =>
    change (n.commit now c).2.buffer.entries[id]? = _ at h
    rw [buffer_commit] at h
    exact Or.inl h
  | push =>
    obtain ⟨queue, heq, -⟩ := Net.exists_queue_nextPush n
    change (Cluster.nextPush n).2.buffer.entries[id]? = _ at h
    rw [heq] at h
    exact Or.inl h
  | outage outage | stop | lose lost => exact Or.inl h

theorem Upright.meet (h : n.Upright) (i : Incident) : (n.meet i).Upright where
  own := by
    have halike := (n.beside_meet i).alike
    intro hmaster
    rw [halike.isMaster] at hmaster
    rw [halike.master, halike.url]
    exact h.own hmaster
  target := by
    have halike := (n.beside_meet i).alike
    intro target htarget
    rw [halike.isMaster, halike.url]
    exact (pushTarget_meet htarget).elim (h.target target) id

theorem Loyal.meet (h : n.Loyal history) (i : Incident) : (n.meet i).Loyal (history ++ [i]) where
  toUpright := h.toUpright.meet i
  buffer := by
    have halike := (n.beside_meet i).alike
    intro hfollower id e he
    rw [halike.isMaster] at hfollower
    rw [halike.master]
    rcases buffer_meet he with hold | ⟨now, accepted, rfl⟩
    · exact (h.buffer hfollower id e hold).append [i]
    · exact ⟨now, accepted, List.mem_append_right _ List.mem_cons_self⟩

/-! ## The coordinator keeps a node loyal -/

theorem Upright.keep (h : n.Upright) (hstanding : m.standing = n.standing) : m.Upright := by
  have hurl : m.url = n.url := congrArg Standing.self hstanding
  constructor
  · rw [hstanding, hurl]
    exact h.own
  · rw [hstanding, hurl]
    exact h.target

/-- A step that leaves the standing alone and takes nothing into the buffer. -/
theorem Loyal.keep (h : n.Loyal history) (hstanding : m.standing = n.standing)
    (hbuffer : ∀ (id : LogId) (e : Entry),
      m.buffer.entries[id]? = some e → n.buffer.entries[id]? = some e) : m.Loyal history where
  toUpright := h.toUpright.keep hstanding
  buffer := by
    rw [hstanding]
    exact fun hfollower id e he => h.buffer hfollower id e (hbuffer id e he)

theorem Loyal.promote (n : Node) : n.promote.Loyal history where
  own := fun _ => rfl
  target := nofun
  buffer := fun hfollower => absurd hfollower.symm Bool.false_ne_true

theorem Upright.follow (n : Node) (master : String) : (n.restand (·.follow master)).Upright where
  own := fun hmaster => absurd hmaster Bool.false_ne_true
  target := nofun

/-- A node that follows another master has forgotten all that the former one pushed. -/
theorem Loyal.retarget (n : Node) (master : String) :
    Loyal history { n.restand (·.follow master) with buffer := n.buffer.clear } where
  toUpright := (Upright.follow n master).keep rfl
  buffer := by
    intro _ id e he
    rw [show n.buffer.clear.entries[id]? = none from Std.ExtTreeMap.getElem?_empty] at he
    cases he

theorem Loyal.stride (h : n.Loyal history) (hstride : n.Stride m) : m.Loyal history := by
  cases hstride with
  | stay => exact h
  | note hosts | enter phase => exact h.keep rfl fun _ _ he => he
  | read id => exact h.keep rfl fun _ _ he => he
  | drain => exact h.keep rfl fun _ _ he => PushBuffer.of_mem_drain he
  | apply entries =>
    exact h.keep (Log.ensures_applyReplicated_standing entries) fun _ _ he => he
  | retarget master => exact Loyal.retarget n master
  | elect cutoff =>
    by_cases hwins : n.Wins cutoff
    · rw [elect_of_wins hwins]
      exact Loyal.promote n
    · rw [elect_of_not_wins hwins]
      exact h

/-- A node is loyal, whatever explains what others did meanwhile. -/
def accounts (history : List Incident) : Story := fun deeds n =>
  ∀ incidents, Explains deeds incidents → n.Loyal (history ++ incidents)

theorem allows_accounts (history : List Incident) : (accounts history).Allows Stride where
  work := by
    intro deeds n m now h hstride incidents hexplains
    have hown : ∀ before after, Deed.work now n m ≠ .beside before after :=
      fun _ _ hsame => by cases hsame
    rw [explains_snoc_own hown] at hexplains
    exact (h incidents hexplains).stride hstride
  beside := by
    intro deeds n m h hbeside incidents hexplains
    obtain ⟨past, i, rfl, hpast, rfl⟩ := explains_snoc_beside.mp hexplains
    rw [← List.append_assoc]
    exact (h past hpast).meet i
  idle := by
    intro deeds n deed h hidle incidents hexplains
    have hown : ∀ before after, deed ≠ .beside before after := by
      rintro before after rfl
      cases hidle
    rw [explains_snoc_own hown] at hexplains
    exact h incidents hexplains

end Node

theorem Node.ensures_start_buffer (setup : Setup) (now : Instant) (s : Store) :
    Ensures (Node.start setup now) s fun r _ => ∀ n, r = .ok n →
      n.buffer = PushBuffer.new setup.queueSize := by
  refine Ensures.bind ((Ensures.any Store.ensureFences s).mono ?_)
  rintro (error | _) t -
  · intro _ hfailed
    cases hfailed
  refine Ensures.bind ((Ensures.any (Log.reopen _) t).mono ?_)
  rintro (error | log) t' -
  · intro _ hfailed
    cases hfailed
  · refine Ensures.pure ?_
    intro n hn
    cases hn
    rfl

/-- A node that was opened is loyal: it has no push target, and its buffer is empty. -/
theorem Node.loyal_of_start {setup : Setup} {now : Instant} {store : Store} {n : Node}
    (h : ((Node.start setup now).run.run store).1 = .ok n) : n.Loyal [] := by
  have hstanding := (Node.ensures_start_standing setup now store n h).1
  have hbuffer := Node.ensures_start_buffer setup now store n h
  refine ⟨⟨?_, ?_⟩, ?_⟩
  · intro hmaster
    have hurl : n.url = setup.url := congrArg Standing.self hstanding
    rw [hstanding] at hmaster ⊢
    rw [hurl]
    exact if_pos hmaster
  · intro target htarget
    rw [hstanding] at htarget
    cases htarget
  · intro _ id e he
    rw [hbuffer, show (PushBuffer.new setup.queueSize).entries[id]? = none from
      Std.ExtTreeMap.getElem?_empty] at he
    cases he

/-- Wherever the coordinator of a reachable node gets to, the node can be reached. -/
theorem Node.Reached.of_runs {history : List Incident} {n m : Node} (h : Reached history n) {job : Job}
    {deeds : List Deed} {r : Option PUnit} (hrun : job.activity.Runs n deeds r m) :
    ∃ incidents, Explains deeds incidents ∧ Reached (history ++ incidents) m := by
  obtain ⟨incidents, hmet⟩ := hrun.exists_explains
  exact ⟨incidents, hmet, h.coordinated job hrun hmet⟩

theorem Node.Reached.loyal {history : List Incident} {n : Node} (h : Reached history n) :
    n.Loyal history := by
  induction h with
  | opened hstart => exact Node.loyal_of_start hstart
  | met _ i ih => exact ih.meet i
  | @coordinated history incidents n m deeds r _ job hrun hmet ih =>
    have hbegin : accounts history [] n := by
      rintro _ rfl
      rw [List.append_nil]
      exact ih
    have hsteps := Net.Strides.steps_activity job
    exact (allows_accounts history).runs hsteps hrun hbegin incidents hmet

/-! ## What a drain applies -/

/-- A deed leaves the log of its node alone, or it applies entries that were pushed in the name of the
node's master. -/
def Deed.Heeds (history : List Incident) : Deed → Prop
  | .work _ before after => after.log = before.log ∨
    ∃ ready, after = (before.onLog (Log.applyReplicated ready)).2 ∧
      ∀ e ∈ ready, Pushed history before.standing.master e
  | _ => True

/-- All deeds of a run do so, with what was met before each of them. -/
def AllHeed (history : List Incident) (deeds : List Deed) : Prop :=
  ∀ first deed rest, deeds = first ++ deed :: rest → ∀ incidents, Explains first incidents →
    deed.Heeds (history ++ incidents)

theorem AllHeed.snoc {history : List Incident} {deeds : List Deed}
    (h : AllHeed history deeds) {deed : Deed}
    (hdeed : ∀ incidents, Explains deeds incidents → deed.Heeds (history ++ incidents)) :
    AllHeed history (deeds ++ [deed]) := by
  intro first d rest hsplit
  rcases List.eq_nil_or_concat rest with rfl | ⟨rest, last, rfl⟩
  · obtain rfl := List.append_inj_left' hsplit rfl
    obtain rfl := List.singleton_inj.mp (List.append_inj_right' hsplit rfl)
    exact hdeed
  · rw [List.concat_eq_append, ← List.cons_append, ← List.append_assoc] at hsplit
    exact h first d rest (List.append_inj_left' hsplit rfl)

namespace Lifecycle

open Work Terms

variable {history : List Incident} {deeds : List Deed} {n : Node} {ready : List Entry}

/-- A follower in the midst of a drain: the entries at hand were pushed in the name of its master. -/
structure Draining (history : List Incident) (ready : List Entry) (deeds : List Deed) (n : Node) :
    Prop where
  loyal : accounts history deeds n
  follower : n.standing.isMaster = false
  heed : AllHeed history deeds
  ready : ∀ incidents, Explains deeds incidents →
    ∀ e ∈ ready, Pushed (history ++ incidents) n.standing.master e

theorem Draining.done (h : Draining history ready deeds n) : Draining history [] deeds n :=
  ⟨h.loyal, h.follower, h.heed, fun _ _ => nofun⟩

theorem waits_draining (history : List Incident) (ready : List Entry) :
    (keeping (Draining history [])).Waits (Draining history ready) where
  beside := by
    intro deeds n m h hbeside
    have halike := hbeside.alike
    refine ⟨(allows_accounts history).beside h.loyal hbeside, halike.isMaster.trans h.follower,
      h.heed.snoc fun _ _ => trivial, ?_⟩
    intro incidents hexplains e he
    obtain ⟨past, i, rfl, hpast, -⟩ := explains_snoc_beside.mp hexplains
    rw [halike.master, ← List.append_assoc]
    exact (h.ready past hpast e he).append [i]
  round := by
    intro deeds n h
    refine ⟨(allows_accounts history).idle h.loyal rfl, h.follower, h.heed.snoc fun _ _ => trivial, ?_⟩
    intro incidents hexplains
    rw [explains_snoc_own fun _ _ hsame => by cases hsame] at hexplains
    exact h.ready incidents hexplains
  underWay := Draining.done

/-- A drain takes out of the buffer what was pushed in the name of the master. -/
theorem Draining.take (h : Draining history [] deeds n) (now : Instant) :
    Draining history ((n.buffer.drain n.position).1.getD [])
      (deeds ++ [.work now n { n with buffer := (n.buffer.drain n.position).2 }])
      { n with buffer := (n.buffer.drain n.position).2 } where
  loyal := (allows_accounts history).work h.loyal .drain
  follower := h.follower
  heed := h.heed.snoc fun _ _ => Or.inl rfl
  ready := by
    intro incidents hexplains e he
    rw [explains_snoc_own fun _ _ hsame => by cases hsame] at hexplains
    obtain ⟨ready, hready, he⟩ : ∃ ready, (n.buffer.drain n.position).1 = some ready ∧ e ∈ ready := by
      cases hdrain : (n.buffer.drain n.position).1 with
      | none =>
        rw [hdrain] at he
        cases he
      | some ready =>
        rw [hdrain] at he
        exact ⟨ready, rfl, he⟩
    obtain ⟨id, hid⟩ := PushBuffer.of_mem_ready (PushBuffer.eq_ready_of_drain hready ▸ he)
    exact (h.loyal incidents hexplains).buffer h.follower id e hid

/-- A drain applies what it has at hand. -/
theorem Draining.apply (h : Draining history ready deeds n) (now : Instant) :
    Draining history [] (deeds ++ [.work now n (n.onLog (Log.applyReplicated ready)).2])
      (n.onLog (Log.applyReplicated ready)).2 where
  loyal := (allows_accounts history).work h.loyal (.apply ready)
  follower := (n.calm_apply ready).isMaster.trans h.follower
  heed := h.heed.snoc fun incidents hexplains =>
    Or.inr ⟨ready, rfl, h.ready incidents hexplains⟩
  ready := fun _ _ => nofun

theorem acts_drainPushed (history : List Incident) :
    (keeping (Draining history [])).Acts drainPushed (Draining history [])
      fun _ => Draining history [] := by
  unfold drainPushed
  refine Acts.bind (R := fun drained => Draining history (drained.getD []))
    (Acts.onNode (waits_draining history []) fun _ _ now h => h.take now) fun drained => ?_
  cases drained with
  | none => exact Acts.fail fun _ _ h => h
  | some ready =>
  dsimp only [Option.getD_some]
  split
  · exact Acts.pure fun _ _ h => h.done
  have happly : (keeping (Draining history [])).Acts (outcome (onLog (Log.applyReplicated ready)))
      (Draining history ready) fun _ => Draining history [] := by
    refine Acts.outcome (Acts.onLog (waits_draining history ready) fun deeds n now h => ?_)
    have hdone := h.apply now
    cases (n.onLog (Log.applyReplicated ready)).1 with
    | ok applied => exact hdone
    | error error => exact hdone
  refine Acts.bind happly fun result => ?_
  split
  · exact Acts.pure fun _ _ h => h
  · split
    · exact Acts.pure fun _ _ h => h
    · exact Acts.fail fun _ _ h => h

end Lifecycle

/-! ## When entries are taken out of the buffer -/

/-- A deed takes no entries out of the buffer of a master: it leaves that buffer alone, or empties it. -/
def Deed.SparesMaster : Deed → Prop
  | .work _ before after => before.standing.isMaster = true →
    after.buffer = before.buffer ∨ after.buffer = before.buffer.clear
  | _ => True

namespace Lifecycle

open Work Terms

/-- All deeds so far spare masters. -/
def Sparing : Story := fun deeds _ => ∀ deed ∈ deeds, deed.SparesMaster

variable {deeds : List Deed} {n m : Node}

theorem Sparing.snoc {deed : Deed} (h : Sparing deeds n) (hdeed : deed.SparesMaster) :
    Sparing (deeds ++ [deed]) m :=
  List.forall_mem_append.mpr ⟨h, List.forall_mem_singleton.mpr hdeed⟩

theorem Sparing.idle {deed : Deed} (h : Sparing deeds n) (hidle : deed.left = none) :
    Sparing (deeds ++ [deed]) m := by
  refine h.snoc ?_
  cases deed with
  | work | beside => cases hidle
  | call | callAll | pause | round => trivial

theorem allows_sparing : Story.Allows Node.Undrained Sparing where
  work := fun h hundrained => h.snoc fun _ => hundrained.buffer
  beside := fun h _ => h.snoc trivial
  idle := Sparing.idle

/-- Among followers, calm steps may also take entries out of the buffer. -/
theorem allows_sparing_follower : Story.Allows Node.Calm
    fun deeds n => Sparing deeds n ∧ n.standing.isMaster = false where
  work := by
    rintro deeds n m now ⟨h, hfollower⟩ hcalm
    refine ⟨h.snoc fun hmaster => ?_, hcalm.isMaster.trans hfollower⟩
    exact absurd (hfollower.symm.trans hmaster) Bool.false_ne_true
  beside := fun h hbeside => ⟨h.1.snoc trivial, hbeside.alike.isMaster.trans h.2⟩
  idle := fun h hidle => ⟨h.1.idle hidle, h.2⟩

/-- What is asked of work that spares masters. -/
abbrev Spares {α : Type} (work : Work α) : Prop := (keeping Sparing).Acts work Sparing fun _ => Sparing

theorem Spares.of_steps {α : Type} {work : Work α} (h : work.Steps Node.Undrained) : Spares work :=
  Acts.of_steps h allows_sparing

theorem spares_tailPass (streak : Streak) : Spares (tailPass streak) := by
  unfold tailPass
  refine Acts.bind (R := fun standing deeds n => Sparing deeds n ∧
    n.standing.isMaster = standing.isMaster) ?_ fun standing => ?_
  · exact Acts.inspect (waits_keeping allows_sparing.steady) fun deeds n now h =>
      ⟨allows_sparing.work h (Std.Refl.refl n), rfl⟩
  split
  · exact Acts.pure fun _ _ h => h.1
  split
  · exact Acts.pure fun _ _ h => h.1
  next hfollower =>
    -- nothing but the coordinator itself could promote the node between the look and the drain
    refine Acts.bind (R := fun _ => Sparing) ?_ fun _ => Spares.of_steps (undrained_tailPass streak)
    refine ((Acts.of_steps calm_drainPushed allows_sparing_follower).relax (fun _ _ h => h.1)
      fun _ _ _ h => h.1).mono ?_ fun _ _ _ h => h.1
    exact fun deeds n h => ⟨h.1, h.2.trans (eq_false_of_ne_true hfollower)⟩

theorem spares_passes (streak : Streak) : Spares (iterate tailPass streak) := by
  refine Acts.iterate (fun _ => Sparing) (fun _ => waits_keeping allows_sparing.steady) fun streak => ?_
  refine (spares_tailPass streak).mono (fun _ _ h => h) ?_
  rintro (next | ending) deeds n h
  · exact h
  · exact h

theorem spares_tail : Spares tail := by
  unfold tail
  exact Acts.bind (Spares.of_steps (undrained_enter _)) fun _ => spares_passes {}

theorem spares_follow : Spares follow := by
  unfold follow
  refine Acts.bind (Spares.of_steps (Steps.inspect _)) fun isMaster => ?_
  split
  · exact Acts.pure fun _ _ h => h
  · exact spares_tail

theorem spares_run : Spares run := by
  unfold run
  refine Acts.bind (Spares.of_steps (Steps.outcome undrained_startup)) fun r => ?_
  split
  · exact Spares.of_steps (undrained_enter _)
  · exact Spares.of_steps (Steps.bind (undrained_enter _) fun _ => Steps.fail)
  · refine Acts.bind spares_follow fun ending => ?_
    split
    · exact Spares.of_steps (undrained_enter _)
    · exact Spares.of_steps (Steps.bind undrained_masterLoop fun _ => undrained_enter _)

theorem spares_goOn (streak : Streak) : Spares (goOn streak) := by
  unfold goOn
  refine Acts.bind (spares_passes streak) fun ending => ?_
  split
  · exact Spares.of_steps (undrained_enter _)
  · exact Spares.of_steps (Steps.bind undrained_masterLoop fun _ => undrained_enter _)

theorem Spares.finish {α : Type} {work : Work α} (h : Spares work) {r : Option PUnit}
    (hrun : work.finish.Runs n deeds r m) : Sparing deeds m := by
  rcases Activity.Runs.split hrun with @⟨value, first, second, k, rfl, hfirst, hsecond⟩ | ⟨rfl, hfirst⟩
  · obtain ⟨rfl, rfl, rfl⟩ := hsecond.eq_of_done
    have hends := h [] n first (some value) m (fun _ => nofun) hfirst
    rw [List.append_nil]
    match value with
    | .error error => exact hends
    | .ok a => exact hends
  · exact h [] n deeds none m (fun _ => nofun) hfirst

/-- A coordinator takes nothing out of the buffer of a master, whatever it is set to do: it looks at its
role before each drain. -/
theorem sparing_job {job : Job} (hjob : job ≠ .drain) {r : Option PUnit}
    (hrun : job.activity.Runs n deeds r m) : Sparing deeds m := by
  cases job with
  | run => exact spares_run.finish hrun
  | startup => exact (Spares.of_steps undrained_startup).finish hrun
  | compareLog peer => exact (Spares.of_steps (undrained_of_news (news_compareLog peer))).finish hrun
  | catchUp peer => exact (Spares.of_steps (undrained_of_news (news_catchUp peer))).finish hrun
  | confirmMaster peer =>
    exact (Spares.of_steps (undrained_of_notes (notes_confirmMaster peer))).finish hrun
  | retarget master => exact (Spares.of_steps (undrained_retarget master)).finish hrun
  | register master => exact (Spares.of_steps (undrained_of_notes (notes_register master))).finish hrun
  | drain => exact absurd rfl hjob
  | pull master => exact (Spares.of_steps (undrained_of_news (news_pullAndApply master))).finish hrun
  | probe => exact (Spares.of_steps (undrained_of_notes notes_hostUpdate)).finish hrun
  | tail => exact spares_tail.finish hrun
  | goOn streak => exact (spares_goOn streak).finish hrun
  | refresh => exact (Spares.of_steps (undrained_of_notes notes_refreshFollowers)).finish hrun
  | lead => exact (Spares.of_steps undrained_masterLoop).finish hrun

end Lifecycle

/-- A drain that begins at a loyal follower applies no entry that was pushed in the name of another master
than the one followed at that moment, whatever happens between its steps. -/
theorem Lifecycle.allHeed_drainPushed {history : List Incident} {n m : Node} (hloyal : n.Loyal history)
    (hfollower : n.standing.isMaster = false) {deeds : List Deed} {r : Option (Except Error Nat)}
    (hrun : Lifecycle.drainPushed.run.Runs n deeds r m) : AllHeed history deeds := by
  have hbegin : Lifecycle.Draining history [] [] n := by
    refine ⟨?_, hfollower, ?_, fun _ _ => nofun⟩
    · rintro _ rfl
      rw [List.append_nil]
      exact hloyal
    · intro first deed rest hsplit
      exact absurd hsplit.symm (List.append_ne_nil_of_right_ne_nil _ (List.cons_ne_nil _ _))
  have hends := Lifecycle.acts_drainPushed history [] n deeds r m hbegin hrun
  match r with
  | none => exact hends.heed
  | some (.ok _) => exact hends.heed
  | some (.error _) => exact hends.heed

end LogShipping
