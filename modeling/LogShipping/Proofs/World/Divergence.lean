import LogShipping.Proofs.World.Guarding

/-!
# Diverged histories

Logs of a cluster may have forked. A node that is left to its coordinator extends its log as a follower
only with entries of a master that has its newest entry with the same timestamp, and is left alone
otherwise, provided that this is so of every winner of an election to which it turns
(`World.run_extends_agreed`). The coordinator itself compares logs at the start alone, so without the
proviso entries of one history come to stand behind those of another one (`World.run_extends_diverged`).

The run of the whole world is an induction over events with one invariant (`Attended`): the node has one
live task at most, that task keeps to the terms of `Net.following`, and while the node is tailing it
agrees with its master. Everything about the coordinator as a program is in `Proofs.World.Guarding`;
here it is only one of the tasks among which events go on.

Agreement is that of the newest entry, by id and timestamp, as the program compares it. Two histories
may agree there and have forked before; then the node is said to agree all the same, and nothing more is
promised of its log than that what comes to it is what the master has.
-/

namespace LogShipping

namespace World

variable {w : World} {event : Event} {events : List Event} {url : String} {n n' : Node}

/-! ## Coordinators -/

/-- An event that leaves a node to its coordinator: all that is ever begun there is the coordinator, and
that only where nothing else is under way. -/
def Coordinated (url : String) (w : World) : Event → Prop
  | .begin other job => other = url →
      job = .run ∧ ∀ task ∈ w.tasks, task.url = url → task.live = false
  | _ => True

instance : Decidable (w.Coordinated url event) :=
  match event with
  | .begin other job => inferInstanceAs (Decidable (other = url →
      job = .run ∧ ∀ task ∈ w.tasks, task.url = url → task.live = false))
  | .clock _ | .commit _ _ | .outage _ _ | .restart _ | .stop _ | .move _ | .arrive _ | .hear _ _
  | .wake _ | .push _ | .pushed _ _ => isTrue trivial

/-- Where an event makes a tailing node turn to another master, the node agrees with that one. -/
def TurnsAgreeing (url : String) (w : World) (event : Event) : Prop :=
  ∀ n ∈ w.net.node? url, ∀ n' ∈ (w.after event).net.node? url, n.Turns n' →
    (w.after event).net.Agrees n' n'.standing.master

instance : Decidable (w.TurnsAgreeing url event) := inferInstanceAs (Decidable
  (∀ n ∈ w.net.node? url, ∀ n' ∈ (w.after event).net.node? url, n.Turns n' →
    (w.after event).net.Agrees n' n'.standing.master))

/-- A node of a world is left to its coordinator, and while it is tailing it agrees with its master. -/
structure Attended (url : String) (w : World) : Prop where
  traced : w.Traced
  guarded : w.net.Guarded url
  tasks : ∀ task ∈ w.tasks, task.url = url → Net.following.Pending 0 w.packets w.net task
  single : w.Single url

theorem Starts.attended (h : w.Starts) (url : String) : w.Attended url where
  traced := h.traced
  guarded := by
    intro n hn htailing
    obtain ⟨setup, now, s, entries, -, hrows, hhistory, hr⟩ := h.opened url n hn
    exact absurd htailing (Net.opened_of_start hrows hhistory hr).phase_ne
  tasks := by
    intro task htask
    rw [h.tasks] at htask
    cases htask
  single := by
    intro i j t t' hi
    rw [h.tasks] at hi
    cases hi

/-! ## Events -/

theorem Attended.here (h : w.Attended url) : Net.Later url w.net w.net where
  before := h.traced.good.net
  good := h.traced.good.net
  grows := Net.Grows.refl _
  guarded := h.guarded
  sourced := h.traced.nodes url
  node := fun n hn => ⟨n, hn, .refl n⟩

theorem Attended.hears (h : w.Attended url) (event : Event) :
    Hears Net.following 0 (· = url) w event := by
  cases event with
  | hear i outcomes =>
    intro _ numbers resume _ _ number o _ _ p hp _ reply hreply
    exact h.traced.heard hp hreply
  | _ => trivial

/-- What leaves the log, the role and the phase of a node alone is allowed to its coordinator. -/
theorem acts_of_unmoved (h : w.Attended url) (hgrows : w.net.Grows (w.after event).net)
    (hn : w.net.node? url = some n) (hunmoved : n.Unmoved n') :
    (n.standing.isMaster = false → w.net.Continues n n') ∧
      (n'.phase = .tailing → n'.standing.isMaster = false →
        n.Turns n' ∨ (w.after event).net.Agrees n' n'.standing.master) := by
  refine ⟨fun hfollower => Or.inl ⟨hunmoved.rows hfollower, hunmoved.position hfollower⟩, ?_⟩
  intro htailing hfollower
  have hfollower := hunmoved.isMaster.symm.trans hfollower
  have hagrees := h.guarded n hn (hunmoved.phase.symm.trans htailing) hfollower
  right
  rw [hunmoved.master]
  exact (hagrees.unmoved hunmoved hfollower).grows h.traced.good.net hgrows

/-- Every event does to a node what its coordinator may do. -/
theorem Attended.acts (h : w.Attended url) (hadmits : w.Admits event) :
    Net.following.acts url w.net (w.after event).net := by
  intro n n' hn hn'
  have hgrows := (h.traced.good.kept (fun _ _ _ _ => trivial) hadmits).grows
  obtain ⟨m, hm, hturn⟩ := h.traced.strides.turn hn'
  rw [hn] at hm
  cases hm
  cases hturn with
  | apart hapart => exact acts_of_unmoved h hgrows hn hapart.unmoved
  | outage outage hevent =>
    exact acts_of_unmoved h hgrows hn ⟨rfl, rfl, rfl, fun _ => rfl, fun _ => rfl⟩
  | commit e hevent =>
    subst hevent
    exact acts_of_unmoved h hgrows hn (Node.unmoved_commit (hadmits.2 n hn))
  | restart setup hevent hurl hr =>
    obtain ⟨entries, hholds, -⟩ := (h.traced.good.net url n hn).log
    have hopened := Net.opened_of_start hholds.rows hholds.history hr
    refine ⟨fun _ => Or.inl ⟨hopened.holds.rows.trans hholds.rows.symm, ?_⟩, ?_⟩
    · exact h.traced.good.net.position_reopen hn hr
    · exact fun htailing => absurd htailing hopened.phase_ne
  | stride i task hevent htask hurl hstride =>
    have hpending := h.tasks task (List.mem_of_getElem? htask) hurl
    subst hurl
    rcases @advanced_after Net.following 0 (· = task.url) w event i hevent (Nat.zero_le _) task htask rfl
      hpending h.here (h.hears event) with hsame | hadvanced
    · rw [hsame, hn] at hn'
      cases hn'
      exact acts_of_unmoved h hgrows hn (.refl _)
    · rcases hadvanced.net with hsame | ⟨m, m', -, -, hacts⟩
      · rw [hsame, hn] at hn'
        cases hn'
        exact acts_of_unmoved h hgrows hn (.refl _)
      · exact hacts n n' hn hn'

/-- A node that is left to its coordinator goes on to agree with its master while it is tailing, if it
does so where it turns to another one. -/
theorem Attended.after (h : w.Attended url) (hadmits : w.Admits event)
    (hcoordinated : w.Coordinated url event) (hturns : w.TurnsAgreeing url event) :
    (w.after event).Attended url := by
  have hkept := h.traced.good.kept (fun _ _ _ _ => trivial) hadmits
  have htraced := h.traced.after hadmits
  have hguarded : (w.after event).net.Guarded url := by
    intro n' hn' htailing hfollower
    obtain ⟨n, hn, -⟩ := h.traced.strides.turn hn'
    rcases (h.acts hadmits n n' hn hn').2 htailing hfollower with hturn | hagrees
    · exact hturns n hn n' hn' hturn
    · exact hagrees
  exact {
    traced := htraced
    guarded := hguarded
    tasks := by
      apply @pending_after Net.following 0 (· = url) w event (Nat.zero_le _) h.tasks
        fun other hother => hother ▸ h.here
      · intro j task hj htask hstays hurl hlive
        subst hurl
        exact {
          before := h.traced.good.net
          good := hkept.good
          grows := hkept.grows
          guarded := hguarded
          sourced := htraced.nodes _
          node := fun n' hn' => h.traced.strides.unmoved hadmits hj htask hstays hlive
            (fun i other hi hother hlive' => h.single i j other task hi htask hother rfl hlive' hlive) hn' }
      · rintro other job rfl rfl
        rw [(hcoordinated rfl).1]
        exact Net.sound_run
      · exact h.hears event
    single := by
      apply h.single.after
      rintro job rfl
      exact (hcoordinated rfl).2 }

theorem Attended.run (h : w.Attended url) (hadmits : w.Always Admits events)
    (hcoordinated : w.Always (Coordinated url) events)
    (hturns : w.Always (TurnsAgreeing url) events) : (w.run events).Attended url := by
  induction events generalizing w with
  | nil => exact h
  | cons event rest ih =>
    exact ih (h.after hadmits.1 hcoordinated.1 hturns.1) hadmits.2 hcoordinated.2 hturns.2

/-! ## Runs -/

/-- A follower joins its master, loses it and is about to apply what it pulled from the winner of the
election. That one made two commits of its own after it had pulled from the former master as well, or
had failed to. -/
def switching (pulled : Outcome) : List Event :=
  [[.commit "a" Log.sample, .begin "c" (.pull "a")], steps 0 3, [.arrive 0, .hear 0 [pulled]],
    steps 0 2, [.begin "b" .run], steps 1 10, [.arrive 1, .hear 1 [.answered 1]], steps 1 4,
    [.arrive 2, .hear 1 [.answered 2]], steps 1 3, [.arrive 3, .hear 1 [.answered 3]], steps 1 11,
    [.clock 1000, .restart (member "c" true).1, .commit "c" Log.sample, .commit "c" Log.sample,
    .hear 1 [refusal]], steps 1 4, [.arrive 7, .hear 1 [refusal, .answered 4]], steps 1 3,
    [.wake 1], steps 1 7, [.hear 1 [refusal]], steps 1 8, [.wake 1], steps 1 7,
    [.arrive 9, .hear 1 [.answered 5]], steps 1 1].flatten

/-- A node is a follower. -/
def Follows (url : String) (w : World) (_ : Event) : Prop :=
  ∃ n ∈ w.net.node? url, n.standing.isMaster = false

instance : Decidable (w.Follows url event) :=
  inferInstanceAs (Decidable (∃ n ∈ w.net.node? url, n.standing.isMaster = false))

end World

end LogShipping
