import LogShipping.Proofs.Activity.Runs

/-!
# Runs that come to an end

An activity without loops takes a bounded number of deeds of its own, whatever comes back and whatever
others do meanwhile (`Activity.Within`). A run under way is never stuck: it goes on with a deed of its
own, once the call that it waits for, if any, is answered (`Runs.exists_leaves`, `exists_step`). So
where the deeds of all runs of a kind are bounded, every one of them can be carried on to its end
(`Runs.exists_end`).

Ends are a matter of what may happen, not of what does: there is no clock here and no fairness, so
nothing is said of how long a call takes or whether it is ever answered. That a run can be carried on is
what is left of termination when the surroundings are free, and it is enough to say of a function that
it gives a result wherever its calls come back.
-/

namespace LogShipping

/-! ## Own deeds -/

/-- Whether the activity does it itself. -/
def Deed.isOwn : Deed → Bool
  | .beside .. => false
  | _ => true

/-- How many deeds of a run are the activity's own. -/
def ownDeeds (deeds : List Deed) : Nat := deeds.countP Deed.isOwn

@[simp] theorem ownDeeds_nil : ownDeeds [] = 0 := rfl

@[simp] theorem ownDeeds_append (first second : List Deed) :
    ownDeeds (first ++ second) = ownDeeds first + ownDeeds second := List.countP_append

@[simp] theorem ownDeeds_beside (before after : Node) (deeds : List Deed) :
    ownDeeds (.beside before after :: deeds) = ownDeeds deeds := by simp [ownDeeds, Deed.isOwn]

theorem ownDeeds_cons {deed : Deed} (h : deed.isOwn = true) (deeds : List Deed) :
    ownDeeds (deed :: deeds) = ownDeeds deeds + 1 := List.countP_cons_of_pos h

namespace Activity

variable {α β : Type} {a b c : Activity Node α} {n m k n' : Node} {deeds first second : List Deed}

/-! ## Activities without loops -/

/-- The activity has no loops and takes so many deeds of its own at most, whatever comes back. -/
def Within : {α : Type} → Activity Node α → Nat → Prop
  | _, .done _, _ => True
  | _, .atomic _ resume, steps + 1 => ∀ result, Within (resume result) steps
  | _, .call _ _ resume, steps + 1 => ∀ reply, Within (resume reply) steps
  | _, .callAll _ _ resume, steps + 1 => ∀ replies, Within (resume replies) steps
  | _, .pause _ resume, steps + 1 => ∀ stopped, Within (resume stopped) steps
  | _, _, _ => False

theorem Within.mono {steps more : Nat} (h : a.Within steps) (hle : steps ≤ more) : a.Within more := by
  induction a generalizing steps more with
  | done value => trivial
  | atomic work resume ih | call peer m resume ih | callAll peers m resume ih
  | pause duration resume ih =>
    match steps, more with
    | steps + 1, more + 1 => exact fun result => ih result (h result) (Nat.le_of_succ_le_succ hle)
  | loop body start resume _ _ => exact h.elim

theorem Within.bind {next : α → Activity Node β} {steps more : Nat} (h : a.Within steps)
    (hnext : ∀ value, (next value).Within more) : (a.bind next).Within (steps + more) := by
  induction a generalizing steps with
  | done value => exact (hnext value).mono (Nat.le_add_left _ _)
  | atomic work resume ih | call peer m resume ih | callAll peers m resume ih
  | pause duration resume ih =>
    match steps with
    | steps + 1 =>
      rw [Nat.add_right_comm]
      exact fun result => ih result (h result) hnext
  | loop body start resume _ _ => exact h.elim

/-- All runs of such an activity are as short. -/
theorem Runs.ownDeeds_le {r : Option α} {steps : Nat} (h : a.Runs n deeds r n') (ha : a.Within steps) :
    ownDeeds deeds ≤ steps := by
  induction h generalizing steps with
  | done | underWay => exact Nat.zero_le _
  | beside _ _ _ ih =>
    rw [ownDeeds_beside]
    exact ih ha
  | atomic now _ ih | call reply _ ih | callAll reply _ _ ih | pause reply _ ih =>
    match steps with
    | steps + 1 =>
      rw [ownDeeds_cons rfl]
      exact Nat.succ_le_succ (ih (ha _))
  | calling | callingAll =>
    match steps with
    | steps + 1 => exact Nat.succ_le_succ (Nat.zero_le _)
  | round => exact ha.elim

/-! ## Going on -/

/-- After these deeds of `a` at `n`, the activity `b` is left to be done at `m`. -/
def Leaves (a : Activity Node α) (n : Node) (deeds : List Deed) (b : Activity Node α) (m : Node) : Prop :=
  ∀ ⦃later : List Deed⦄ ⦃r : Option α⦄ ⦃n' : Node⦄, b.Runs m later r n' → a.Runs n (deeds ++ later) r n'

theorem Leaves.refl (a : Activity Node α) (n : Node) : a.Leaves n [] a n := fun _ _ _ h => h

theorem Leaves.trans (h : a.Leaves n first b m) (h' : b.Leaves m second c k) :
    a.Leaves n (first ++ second) c k := by
  intro later r n' hlater
  rw [List.append_assoc]
  exact h (h' hlater)

end Activity

/-- A call that waits for its reply. -/
def Deed.Waiting : Deed → Prop
  | .call _ _ none | .callAll _ _ none => True
  | _ => False

/-- A deed of the activity itself; if it is a call, then it is answered in this way. -/
def Deed.AnsweredBy (answer : String → Message → Except Error Message) : Deed → Prop
  | .call peer m reply => reply = some (answer peer m)
  | .callAll peers m replies => replies = some (peers.map fun peer => answer peer m)
  | .beside .. => False
  | _ => True

theorem Deed.AnsweredBy.isOwn {answer : String → Message → Except Error Message} {deed : Deed}
    (h : deed.AnsweredBy answer) : deed.isOwn = true := by
  cases deed with
  | beside => exact h.elim
  | _ => rfl

/-- The deeds of a run, but for a call that waits for its reply, are carried on with deeds of the activity
itself, and its calls are answered in this way. -/
def CarriedOn (answer : String → Message → Except Error Message) (deeds further : List Deed) : Prop :=
  ∃ done waiting later, deeds = done ++ waiting ∧ (∀ deed ∈ waiting, deed.Waiting) ∧
    further = done ++ later ∧ ∀ deed ∈ later, deed.AnsweredBy answer

namespace Activity

variable {α : Type} {a b : Activity Node α} {n m n' : Node} {deeds done : List Deed}

/-- In a run under way something is left to be done, up to a call that waits for its reply. -/
theorem Runs.exists_leaves (h : a.Runs n deeds none n') :
    ∃ done waiting b, deeds = done ++ waiting ∧ (∀ deed ∈ waiting, deed.Waiting) ∧
      a.Leaves n done b n' := by
  generalize hr : (none : Option α) = r at h
  induction h with
  | done => cases hr
  | @underWay a _ n => exact ⟨[], [], a, rfl, by simp, .refl a n⟩
  | calling peer m resume n | callingAll peer m resume n =>
    refine ⟨[], _, _, rfl, fun deed hdeed => ?_, .refl _ n⟩
    rw [List.mem_singleton.mp hdeed]
    trivial
  | beside hunfinished hbeside _ ih =>
    obtain ⟨done, waiting, b, rfl, hwaiting, hleaves⟩ := ih hr
    exact ⟨_ :: done, waiting, b, rfl, hwaiting, fun _ _ _ h => .beside hunfinished hbeside (hleaves h)⟩
  | atomic now _ ih =>
    obtain ⟨done, waiting, b, rfl, hwaiting, hleaves⟩ := ih hr
    exact ⟨_ :: done, waiting, b, rfl, hwaiting, fun _ _ _ h => .atomic now (hleaves h)⟩
  | call reply _ ih =>
    obtain ⟨done, waiting, b, rfl, hwaiting, hleaves⟩ := ih hr
    exact ⟨_ :: done, waiting, b, rfl, hwaiting, fun _ _ _ h => .call reply (hleaves h)⟩
  | callAll replies hlength _ ih =>
    obtain ⟨done, waiting, b, rfl, hwaiting, hleaves⟩ := ih hr
    exact ⟨_ :: done, waiting, b, rfl, hwaiting, fun _ _ _ h => .callAll replies hlength (hleaves h)⟩
  | pause stopped _ ih =>
    obtain ⟨done, waiting, b, rfl, hwaiting, hleaves⟩ := ih hr
    exact ⟨_ :: done, waiting, b, rfl, hwaiting, fun _ _ _ h => .pause stopped (hleaves h)⟩
  | round _ ih =>
    obtain ⟨done, waiting, b, rfl, hwaiting, hleaves⟩ := ih hr
    exact ⟨_ :: done, waiting, b, rfl, hwaiting, fun _ _ _ h => .round (hleaves h)⟩

/-- Whatever is left to be done goes on with a deed of its own. -/
theorem exists_step (answer : String → Message → Except Error Message) (h : b.Unfinished) (n : Node) :
    ∃ deed c m, deed.AnsweredBy answer ∧ b.Leaves n [deed] c m := by
  cases b with
  | done value => exact (h value rfl).elim
  | atomic work resume => exact ⟨.work 0 n (work 0 n).2, _, _, trivial, fun _ _ _ h => .atomic 0 h⟩
  | call peer m resume =>
    exact ⟨.call peer m (some (answer peer m)), _, n, rfl, fun _ _ _ h => .call _ h⟩
  | callAll peers m resume =>
    exact ⟨.callAll peers m (some (peers.map fun peer => answer peer m)), _, n, rfl,
      fun _ _ _ h => .callAll _ (List.length_map _) h⟩
  | pause duration resume => exact ⟨.pause duration false, _, n, trivial, fun _ _ _ h => .pause false h⟩
  | loop body start resume => exact ⟨.round, _, n, trivial, fun _ _ _ h => .round h⟩

section Ending

variable {W : List Deed → Prop} {answer : String → Message → Except Error Message} {bound : Nat}
  (hanswer : ∀ deeds deed, W deeds → deed.AnsweredBy answer → W (deeds ++ [deed]))
  (hbound : ∀ deeds r n', a.Runs n deeds r n' → W deeds → ownDeeds deeds ≤ bound)

include hanswer hbound

theorem Leaves.exists_end (h : a.Leaves n done b m) (hdone : W done) :
    ∃ later value n', (∀ deed ∈ later, deed.AnsweredBy answer) ∧
      a.Runs n (done ++ later) (some value) n' ∧ W (done ++ later) := by
  -- each deed of the activity itself leaves fewer of them before the bound
  induction hleft : bound - ownDeeds done using Nat.strongRecOn generalizing done b m with
  | ind left ih =>
    rcases b.done_or_unfinished with ⟨value, rfl⟩ | hunfinished
    · exact ⟨[], value, m, by simp, h (.done value m), by rwa [List.append_nil]⟩
    · obtain ⟨deed, c, k, hdeed, hstep⟩ := exists_step answer hunfinished m
      have hnext := h.trans hstep
      have hmore := hanswer done deed hdone hdeed
      have hlast : ∃ r n', a.Runs n (done ++ [deed]) r n' := by
        rcases c.done_or_unfinished with ⟨value, rfl⟩ | hc
        · exact ⟨_, _, by simpa using hnext (.done value k)⟩
        · exact ⟨_, _, by simpa using hnext (.underWay hc k)⟩
      obtain ⟨r, n', hrun⟩ := hlast
      have hle := hbound _ _ _ hrun hmore
      have hcount : ownDeeds (done ++ [deed]) = ownDeeds done + 1 := by
        rw [ownDeeds_append, ownDeeds_cons hdeed.isOwn, ownDeeds_nil]
      obtain ⟨later, value, n', hlater, hend, hW⟩ := ih _ (by omega) hnext hmore rfl
      rw [List.append_assoc] at hend hW
      exact ⟨_, value, n', List.forall_mem_cons.mpr ⟨hdeed, hlater⟩, hend, hW⟩

/-- If no run of a kind has more than some number of own deeds, then a run of that kind that is under way
can be carried on to its end, once the call that it waits for is answered. -/
theorem Runs.exists_end (hbegins : ∀ first second, W (first ++ second) → W first)
    (h : a.Runs n deeds none n') (hdeeds : W deeds) :
    ∃ further value m, CarriedOn answer deeds further ∧
      a.Runs n further (some value) m ∧ W further := by
  obtain ⟨done, waiting, b, rfl, hwaiting, hleaves⟩ := h.exists_leaves
  obtain ⟨later, value, m, hlater, hend, hW⟩ :=
    hleaves.exists_end hanswer hbound (hbegins _ _ hdeeds)
  exact ⟨_, value, m, ⟨done, waiting, later, rfl, hwaiting, rfl, hlater⟩, hend, hW⟩

end Ending

end Activity

/-! ## Work without loops -/

namespace Work

variable {α β : Type} {steps more : Nat}

/-- The work has no loops and takes so many deeds of its own at most. -/
def Within (work : Work α) (steps : Nat) : Prop := work.run.Within steps

namespace Within

theorem pure (a : α) : Work.Within (Pure.pure a : Work α) 0 := trivial

theorem fail (error : Error) : Work.Within (throw error : Work α) 0 := trivial

theorem mono {work : Work α} (h : work.Within steps) (hle : steps ≤ more) : work.Within more :=
  Activity.Within.mono h hle

theorem bind (more : Nat) {work : Work α} {next : α → Work β} (h : work.Within steps)
    (hnext : ∀ a, (next a).Within more) : (work >>= next).Within (steps + more) := by
  refine Activity.Within.bind h ?_
  rintro (error | a)
  · trivial
  · exact hnext a

theorem onNode (work : Instant → Node → α × Node) : (Work.onNode work).Within 1 := fun _ => trivial

theorem onLog (work : LogWork α) : (Work.onLog work).Within 1 := fun _ => trivial

theorem inspect (look : Node → α) : (Work.inspect look).Within 1 := onNode _

theorem change (f : Instant → Node → Node) : (Work.change f).Within 1 := onNode _

theorem call (peer : String) (m : Message) : (Work.call peer m).Within 1 := by
  rintro (error | answer)
  · trivial
  · show Activity.Within (Work.ofExcept (Message.expect m.command answer)).run 0
    trivial

end Within

end Work

end LogShipping
