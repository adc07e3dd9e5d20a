import LogShipping.Proofs.Activity.Allegiance

/-!
# Pushes and retargeting in halves

A push is taken in two halves: the service looks whether its source is the master that the node follows,
and then puts the entry into the buffer. The coordinator turns to another master in two halves as well: it
follows that one, and then empties the buffer. `Node.handle` and `Lifecycle.retarget` are these halves
without anything between them (`Node.handlePush_snd`, `Node.forget_follow`), but nothing in a node keeps
them together. Here every half is a step of its own, among all else that a node meets and all steps of its
coordinator (`Raced`); a run in whole steps is one of these runs (`Node.Reached.raced`).

A push that was looked at before the node turned away from its source may thus be buffered behind the
clearing, and a drain hands it out (`Racing.former_master_drained`): the entry of a former master is
applied. It is the only way for the parts of a node to fall out with each other. If no push stands between
its halves whenever the node turns to another master, role and push target fit together at any moment, the
buffer fits to them whenever the coordinator is not between its own halves, and drains apply what the
present master pushed (`Node.raced_loyal`).

How `follow` sets the role, the push target and the address one after the other is not taken apart any
further, nor are the steps of a drain, which begins and ends between two steps of this grain.
-/

namespace LogShipping

open Std

namespace Node

/-! ## The halves -/

/-- Whether a push in the name of a source is let through: the look at the role and at the master. -/
def letsIn (source : String) (n : Node) : Bool := !n.standing.isMaster && source == n.standing.master

/-- The entry of a push that was let through comes into the buffer. -/
def take (e : Entry) (n : Node) : Node := { n with buffer := (n.buffer.insert e n.position).2 }

/-- The buffer is emptied. -/
def forget (n : Node) : Node := { n with buffer := n.buffer.clear }

variable {n : Node} {source : String} {e : Entry}

theorem letsIn_eq_true_iff :
    n.letsIn source = true ↔ n.standing.isMaster = false ∧ source = n.standing.master := by
  simp [letsIn]

/-- Between the halves of a push nothing happens if it is handled at once. -/
theorem handlePush_snd (n : Node) (source : String) (e : Entry) :
    (n.handlePush source e).2 = if n.letsIn source then n.take e else n := by
  unfold handlePush followersOnly letsIn
  cases n.standing.isMaster with
  | true => rfl
  | false =>
    by_cases hsource : source = n.standing.master
    · simp [hsource, take]
    · simp [hsource]

/-- Nor does anything between the halves of a retargeting that is done at once. -/
theorem forget_follow (n : Node) (master : String) :
    (n.restand (·.follow master)).forget =
      { n.restand (·.follow master) with buffer := n.buffer.clear } := rfl

theorem buffer_take {id : LogId} {f : Entry} (h : (n.take e).buffer.entries[id]? = some f) :
    f = e ∨ n.buffer.entries[id]? = some f := by
  rcases PushBuffer.of_mem_insert h with ⟨-, rfl, -⟩ | hold
  · exact Or.inl rfl
  · exact Or.inr hold

end Node

/-! ## Runs in halves -/

/-- A node with the halves under way at it. -/
structure Racing where
  node : Node
  /-- The pushes that were let through and are not in the buffer yet, with their sources. -/
  pushes : List (String × Entry) := []
  /-- Whether the coordinator has turned to another master and is about to empty the buffer. -/
  turning : Bool := false

open Node

/-- A node can get here in halves, and this is what it met on its way. It turns to another master only
where it is free to. -/
inductive Raced (free : Racing → Prop) : List Incident → Racing → Prop
  /-- It was opened. -/
  | opened {setup : Setup} {now : Instant} {store : Store} {n : Node}
      (h : ((Node.start setup now).run.run store).1 = .ok n) : Raced free [] { node := n }
  /-- It meets something as a whole. -/
  | met {history : List Incident} {s : Racing} (h : Raced free history s) (i : Incident) :
      Raced free (history ++ [i]) { s with node := s.node.meet i }
  /-- A push is let through. -/
  | letIn {history : List Incident} {s : Racing} (h : Raced free history s) (now : Instant)
      (source : String) (e : Entry) (accepted : Bool) (hlets : s.node.letsIn source = true) :
      Raced free (history ++ [.answer now (.pushTransaction source e accepted)])
        { s with pushes := (source, e) :: s.pushes }
  /-- The entry of a push that was let through comes into the buffer. -/
  | taken {history : List Incident} {s : Racing} (h : Raced free history s) {push : String × Entry}
      (hpush : push ∈ s.pushes) :
      Raced free history { s with node := s.node.take push.2, pushes := s.pushes.erase push }
  /-- The coordinator takes a step as a whole, which is no turn to another master. -/
  | strode {history : List Incident} {s : Racing} {m : Node} (h : Raced free history s)
      (hwhole : s.turning = false) (hstride : s.node.Stride m)
      (hstays : m.standing.isMaster = false →
        s.node.standing.isMaster = false ∧ m.standing.master = s.node.standing.master) :
      Raced free history { s with node := m }
  /-- The coordinator follows another master. -/
  | followed {history : List Incident} {s : Racing} (h : Raced free history s)
      (hwhole : s.turning = false) (hfree : free s) (master : String) :
      Raced free history { s with node := s.node.restand (·.follow master), turning := true }
  /-- It empties the buffer behind that. -/
  | cleared {history : List Incident} {s : Racing} (h : Raced free history s)
      (hturning : s.turning = true) :
      Raced free history { s with node := s.node.forget, turning := false }

namespace Racing

/-- No push is between its halves. -/
def Calm (s : Racing) : Prop := s.pushes = []

/-- What holds at any moment if a node turns to another master in calm moments only. -/
structure Sound (history : List Incident) (s : Racing) : Prop extends s.node.Upright where
  /-- The pushes under way are in the name of the master. -/
  pushes : s.node.standing.isMaster = false → ∀ push ∈ s.pushes,
    Pushed history s.node.standing.master push.2
  /-- Between the halves of a turn the node is a follower. -/
  follower : s.turning = true → s.node.standing.isMaster = false
  /-- Apart from these moments, what it buffers was pushed in the name of its master. -/
  buffer : s.turning = false → s.node.standing.isMaster = false → ∀ (id : LogId) (e : Entry),
    s.node.buffer.entries[id]? = some e → Pushed history s.node.standing.master e

namespace Sound

variable {history : List Incident} {s : Racing}

theorem loyal (h : s.Sound history) (hwhole : s.turning = false) : s.node.Loyal history :=
  ⟨h.toUpright, h.buffer hwhole⟩

theorem met (h : s.Sound history) (i : Incident) :
    Sound (history ++ [i]) { s with node := s.node.meet i } where
  toUpright := h.toUpright.meet i
  pushes := by
    have halike := (s.node.beside_meet i).alike
    intro hfollower push hpush
    rw [halike.master]
    exact (h.pushes (halike.isMaster.symm.trans hfollower) push hpush).append [i]
  follower := fun hturning => (s.node.beside_meet i).alike.isMaster.trans (h.follower hturning)
  buffer := fun hwhole => ((h.loyal hwhole).meet i).buffer

theorem letThrough (h : s.Sound history) (now : Instant) {source : String} (e : Entry) (accepted : Bool)
    (hlets : s.node.letsIn source = true) :
    Sound (history ++ [.answer now (.pushTransaction source e accepted)])
      { s with pushes := (source, e) :: s.pushes } where
  toUpright := h.toUpright
  pushes := by
    intro hfollower push hpush
    rcases List.mem_cons.mp hpush with rfl | hpush
    · obtain ⟨-, rfl⟩ := letsIn_eq_true_iff.mp hlets
      exact ⟨now, accepted, List.mem_append_right _ List.mem_cons_self⟩
    · exact (h.pushes hfollower push hpush).append _
  follower := h.follower
  buffer := fun hwhole hfollower id f hf => (h.buffer hwhole hfollower id f hf).append _

theorem taken (h : s.Sound history) {push : String × Entry} (hpush : push ∈ s.pushes) :
    Sound history { s with node := s.node.take push.2, pushes := s.pushes.erase push } where
  toUpright := h.toUpright.keep rfl
  pushes := fun hfollower other hother => h.pushes hfollower other (List.mem_of_mem_erase hother)
  follower := h.follower
  buffer := by
    intro hwhole hfollower id e he
    rcases buffer_take he with rfl | hold
    · exact h.pushes hfollower push hpush
    · exact h.buffer hwhole hfollower id e hold

theorem strode {m : Node} (h : s.Sound history) (hwhole : s.turning = false)
    (hstride : s.node.Stride m) (hstays : m.standing.isMaster = false →
      s.node.standing.isMaster = false ∧ m.standing.master = s.node.standing.master) :
    Sound history { s with node := m } where
  toUpright := ((h.loyal hwhole).stride hstride).toUpright
  pushes := by
    intro hfollower push hpush
    obtain ⟨hbefore, hmaster⟩ := hstays hfollower
    rw [hmaster]
    exact h.pushes hbefore push hpush
  follower := fun hturning => absurd (hwhole.symm.trans hturning) Bool.false_ne_true
  buffer := fun _ => ((h.loyal hwhole).stride hstride).buffer

/-- Turning to another master leaves no push under way behind. -/
theorem followed (hcalm : s.Calm) (master : String) :
    Sound history { s with node := s.node.restand (·.follow master), turning := true } where
  toUpright := Upright.follow s.node master
  pushes := by
    intro _ push hpush
    rw [show s.pushes = [] from hcalm] at hpush
    cases hpush
  follower := fun _ => rfl
  buffer := nofun

theorem cleared (h : s.Sound history) :
    Sound history { s with node := s.node.forget, turning := false } where
  toUpright := h.toUpright.keep rfl
  pushes := h.pushes
  follower := nofun
  buffer := by
    intro _ _ id e he
    rw [show s.node.forget.buffer.entries[id]? = none from ExtTreeMap.getElem?_empty] at he
    cases he

end Sound

end Racing

variable {free : Racing → Prop} {history : List Incident} {s : Racing} {n m : Node}

theorem Raced.sound (h : Raced Racing.Calm history s) : s.Sound history := by
  induction h with
  | opened hstart =>
    have hloyal := Node.loyal_of_start hstart
    exact ⟨hloyal.toUpright, fun _ => nofun, nofun, fun _ => hloyal.buffer⟩
  | met _ i ih => exact ih.met i
  | letIn _ now source e accepted hlets ih => exact ih.letThrough now e accepted hlets
  | taken _ hpush ih => exact ih.taken hpush
  | strode _ hwhole hstride hstays ih => exact ih.strode hwhole hstride hstays
  | followed _ _ hcalm master _ => exact Racing.Sound.followed hcalm master
  | cleared _ _ ih => exact ih.cleared

/-! ## Whole steps -/

/-- A step of the coordinator makes no follower of a master and turns to no other one, or it is a turn to
another master. -/
theorem Node.Stride.stays_or_turns (h : n.Stride m) :
    (m.standing.isMaster = false →
      n.standing.isMaster = false ∧ m.standing.master = n.standing.master) ∨
    ∃ master, m = (n.restand (·.follow master)).forget := by
  cases h with
  | retarget master => exact Or.inr ⟨master, rfl⟩
  | apply entries =>
    have hsame : (n.onLog (Log.applyReplicated entries)).2.standing = n.standing :=
      Log.ensures_applyReplicated_standing entries
    rw [hsame]
    exact Or.inl fun hfollower => ⟨hfollower, rfl⟩
  | elect cutoff =>
    by_cases hwins : n.Wins cutoff
    · rw [elect_of_wins hwins]
      exact Or.inl fun hfollower => absurd hfollower.symm Bool.false_ne_true
    · rw [elect_of_not_wins hwins]
      exact Or.inl fun hfollower => ⟨hfollower, rfl⟩
  | stay | note | enter | read | drain => exact Or.inl fun hfollower => ⟨hfollower, rfl⟩

theorem Raced.stride (h : Raced Racing.Calm history { node := n }) (hstride : n.Stride m) :
    Raced Racing.Calm history { node := m } := by
  rcases hstride.stays_or_turns with hstays | ⟨master, rfl⟩
  · exact h.strode rfl hstride hstays
  · exact (h.followed rfl rfl master).cleared rfl

/-- A node can be reached in halves, whatever explains what others did meanwhile. -/
def Node.races (history : List Incident) : Story := fun deeds n =>
  ∀ incidents, Explains deeds incidents → Raced Racing.Calm (history ++ incidents) { node := n }

theorem Node.allows_races (history : List Incident) : (races history).Allows Stride where
  work := by
    intro deeds n m now h hstride incidents hexplains
    rw [explains_snoc_own fun _ _ hsame => by cases hsame] at hexplains
    exact (h incidents hexplains).stride hstride
  beside := by
    intro deeds n m h hbeside incidents hexplains
    obtain ⟨past, i, rfl, hpast, rfl⟩ := explains_snoc_beside.mp hexplains
    rw [← List.append_assoc]
    exact (h past hpast).met i
  idle := by
    intro deeds n deed h hidle incidents hexplains
    have hown : ∀ before after, deed ≠ .beside before after := by
      rintro before after rfl
      cases hidle
    rw [explains_snoc_own hown] at hexplains
    exact h incidents hexplains

/-- What can be reached in whole steps can be reached in halves. -/
theorem Node.Reached.raced (h : Reached history n) : Raced Racing.Calm history { node := n } := by
  induction h with
  | opened hstart => exact .opened hstart
  | met _ i ih => exact ih.met i
  | @coordinated history incidents n m deeds r _ job hrun hmet ih =>
    have hbegin : races history [] n := by
      rintro _ rfl
      rw [List.append_nil]
      exact ih
    have hsteps := Net.Strides.steps_activity job
    exact (allows_races history).runs hsteps hrun hbegin incidents hmet

/-! ## What holds at any moment -/

/-- Role, push target and buffered pushes of a node stay consistent, whatever its service, its commits,
its sender and its coordinator do, and in whatever order their halves come, as long as no push stands
between its halves when the node turns to another master. A master is its own master; only a master has a
push target, which is neither empty nor the master itself. Between two steps of its coordinator, a
follower buffers entries of its present master only, and a drain that begins then applies no entry that was
pushed in the name of another one than the master followed at that moment, whatever is met between its
steps. Nothing that the coordinator is set to do drains the buffer of a master, unless it is told to do
just that. -/
theorem Node.raced_loyal (h : Raced Racing.Calm history s) :
    (s.node.standing.isMaster = true → s.node.standing.master = s.node.url) ∧
    (∀ target, s.node.standing.pushTarget = some target →
      s.node.standing.isMaster = true ∧ target ≠ "" ∧ target ≠ s.node.url) ∧
    (s.turning = false → s.node.standing.isMaster = false →
      (∀ (id : LogId) (e : Entry), s.node.buffer.entries[id]? = some e →
        Pushed history s.node.standing.master e) ∧
      ∀ deeds r m, Lifecycle.drainPushed.run.Runs s.node deeds r m → AllHeed history deeds) ∧
    ∀ job ≠ Job.drain, ∀ deeds r m, job.activity.Runs s.node deeds r m →
      ∀ deed ∈ deeds, deed.SparesMaster := by
  have hsound := h.sound
  refine ⟨hsound.own, hsound.target, fun hwhole hfollower => ⟨hsound.buffer hwhole hfollower, ?_⟩,
    fun job hjob deeds r m hrun => Lifecycle.sparing_job hjob hrun⟩
  intro deeds r m hrun
  exact Lifecycle.allHeed_drainPushed (hsound.loyal hwhole) hfollower hrun

/-- A follower takes a push of its master in. -/
theorem Node.meet_push {n : Node} (hfollower : n.standing.isMaster = false) (now : Instant) (e : Entry)
    (accepted : Bool) :
    n.meet (.answer now (.pushTransaction n.standing.master e accepted)) = n.take e :=
  (handlePush_snd n n.standing.master e).trans (if_pos (letsIn_eq_true_iff.mpr ⟨hfollower, rfl⟩))

/-- A drain that finds entries applies them. -/
theorem Lifecycle.runs_drainPushed {n : Node} {ready : List Entry} {buffer : PushBuffer}
    (hdrain : n.buffer.drain n.position = (some ready, buffer)) (hready : ready.isEmpty = false)
    (now : Instant) : ∃ r, drainPushed.run.Runs n
      [.work now n { n with buffer := buffer }, .work now { n with buffer := buffer }
        (Node.onLog (Log.applyReplicated ready) { n with buffer := buffer }).2] (some r)
      (Node.onLog (Log.applyReplicated ready) { n with buffer := buffer }).2 := by
  have htake := Work.runs_onNode (fun _ n => ((n.buffer.drain n.position).1,
    { n with buffer := (n.buffer.drain n.position).2 })) now n
  rw [hdrain] at htake
  cases happly : Node.onLog (Log.applyReplicated ready) { n with buffer := buffer } with
  | mk result m =>
    have hrun := Work.runs_outcome (Work.runs_onLog now happly)
    match result with
    | .ok applied =>
      refine ⟨.ok applied, Work.runs_bind htake ?_⟩
      dsimp only
      rw [hready]
      exact Work.runs_bind hrun (Work.runs_pure applied m)
    | .error error =>
      cases hconsistency : error.isConsistency with
      | true =>
        refine ⟨.ok 0, Work.runs_bind htake ?_⟩
        dsimp only
        rw [hready]
        refine Work.runs_bind hrun ?_
        dsimp only
        rw [hconsistency]
        exact Work.runs_pure 0 m
      | false =>
        refine ⟨.error error, Work.runs_bind htake ?_⟩
        dsimp only
        rw [hready]
        refine Work.runs_bind hrun ?_
        dsimp only
        rw [hconsistency]
        exact .done _ m

/-- An entry that is pushed. -/
def pushedEntry : Entry := { id := 1, timestamp := 3, updater := "x" }

/-- A follower that has nothing yet takes the entry in and hands it out. -/
theorem Node.take_pushedEntry {n : Node} (hposition : n.position = 0)
    (hbuffer : n.buffer = PushBuffer.new 4) :
    (n.take pushedEntry).buffer.entries[pushedEntry.id]? = some pushedEntry ∧
      ((n.take pushedEntry).buffer.drain (n.take pushedEntry).position).1 = some [pushedEntry] := by
  have htaken : (n.take pushedEntry).buffer = ((PushBuffer.new 4).insert pushedEntry 0).2 := by
    rw [take, hbuffer, hposition]
  rw [show (n.take pushedEntry).position = 0 from hposition, htaken]
  exact ⟨by decide +kernel, by decide +kernel⟩

/-- A follower that was just opened. -/
def pupil : Except Error Node :=
  ((Node.start (Lifecycle.setupAt "http://b" false (some "http://a")) 0).run.run
    Lifecycle.emptyStore).1

theorem exists_pupil : ∃ n, pupil = .ok n ∧ n.standing.isMaster = false ∧
    n.standing.master = "http://a" ∧ n.position = 0 ∧ n.buffer = PushBuffer.new 4 := by
  obtain ⟨n, hstart, hopened⟩ :=
    Lifecycle.exists_opened (Lifecycle.setupAt "http://b" false (some "http://a")) 0
  refine ⟨n, hstart, ?_, ?_, UInt64.toNat_inj.mp hopened.holds.position, hopened.buffer⟩
  · rw [hopened.standing]
    rfl
  · rw [hopened.standing]
    rfl

/-- A follower buffers an entry of its master and applies it. -/
theorem Node.raced_loyal_pushed :
    let history : List Incident := [.answer 3 (.pushTransaction "http://a" pushedEntry false)]
    ∃ s m m' r, Raced Racing.Calm history s ∧ s.turning = false ∧ s.node.standing.isMaster = false ∧
      s.node.buffer.entries[pushedEntry.id]? = some pushedEntry ∧
      Pushed history s.node.standing.master pushedEntry ∧
      Lifecycle.drainPushed.run.Runs s.node [.work 7 s.node m, .work 7 m m'] (some r) m' ∧
      m' = (m.onLog (Log.applyReplicated [pushedEntry])).2 ∧
      AllHeed history [.work 7 s.node m, .work 7 m m'] := by
  intro history
  obtain ⟨n, hstart, hfollower, hmaster, hposition, hbuffer⟩ := exists_pupil
  have hraced : Raced Racing.Calm history { node := n.take pushedEntry } := by
    rw [← meet_push hfollower 3 pushedEntry false, hmaster]
    exact (Raced.opened hstart).met _
  obtain ⟨hheld, hready⟩ := take_pushedEntry hposition hbuffer
  obtain ⟨r, hrun⟩ := Lifecycle.runs_drainPushed (Prod.ext hready (Eq.refl (Prod.snd _))) rfl 7
  obtain ⟨-, -, hwhole, -⟩ := raced_loyal hraced
  obtain ⟨hpushed, hheeds⟩ := hwhole rfl hfollower
  exact ⟨_, _, _, r, hraced, rfl, hfollower, hheld, hpushed pushedEntry.id pushedEntry hheld, hrun, rfl,
    hheeds _ _ _ hrun⟩

/-- The pupil, once it has turned to another master between the halves of a push. -/
def Node.astray (n : Node) : Node := ((n.restand (·.follow "http://c")).forget).take pushedEntry

/-- It takes the entry for the next one of its log. -/
theorem position_astray {n : Node} (h : pupil = .ok n) :
    (n.astray.onLog (Log.applyReplicated [pushedEntry])).2.position = 1 := by
  have hall : pupil.toOption.all (fun n => decide
      ((n.astray.onLog (Log.applyReplicated [pushedEntry])).2.position = 1)) = true := by
    decide +kernel
  rw [h] at hall
  exact of_decide_eq_true hall

/-- A push of the former master that was let through before the node turned to another one comes into
the buffer behind the clearing, and a drain hands it out and applies it. -/
theorem Racing.former_master_drained :
    ∃ s m deeds r, Raced (fun _ => True)
        [.answer 3 (.pushTransaction "http://a" pushedEntry false)] s ∧
      s.turning = false ∧ s.pushes = [] ∧
      s.node.standing.isMaster = false ∧ s.node.standing.master = "http://c" ∧
      s.node.buffer.entries[pushedEntry.id]? = some pushedEntry ∧
      ¬ Pushed [.answer 3 (.pushTransaction "http://a" pushedEntry false)] s.node.standing.master
        pushedEntry ∧
      s.node.position = 0 ∧ Lifecycle.drainPushed.run.Runs s.node deeds (some r) m ∧
      m.position = pushedEntry.id := by
  obtain ⟨n, hstart, hfollower, hmaster, hposition, hbuffer⟩ := exists_pupil
  have hopened : Raced (fun _ => True) [] { node := n } := .opened hstart
  have hlet := hopened.letIn 3 "http://a" pushedEntry false
    (letsIn_eq_true_iff.mpr ⟨hfollower, hmaster.symm⟩)
  have hraced := ((hlet.followed rfl trivial "http://c").cleared rfl).taken List.mem_cons_self
  rw [List.erase_cons_head] at hraced
  have hempty : ((n.restand (·.follow "http://c")).forget).buffer = PushBuffer.new 4 := by
    show n.buffer.clear = _
    rw [hbuffer]
    rfl
  obtain ⟨hheld, hready⟩ :=
    take_pushedEntry (n := (n.restand (·.follow "http://c")).forget) hposition hempty
  obtain ⟨r, hrun⟩ := Lifecycle.runs_drainPushed (Prod.ext hready (Eq.refl (Prod.snd _))) rfl 7
  refine ⟨_, _, _, r, hraced, rfl, rfl, rfl, rfl, hheld, ?_, hposition, hrun,
    position_astray hstart⟩
  -- the only push that was met is in the name of the former master
  rintro ⟨now, accepted, hpush⟩
  have hsource := List.mem_singleton.mp hpush
  simp only [Node.Incident.answer.injEq, Message.pushTransaction.injEq] at hsource
  have hapart : "http://c" ≠ "http://a" := by decide
  exact hapart hsource.2.1

end LogShipping
