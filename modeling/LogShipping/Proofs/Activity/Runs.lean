import LogShipping.Lifecycle
import LogShipping.Proofs.Activity.Beside

/-!
# Runs of activities

What a node does while it carries on an activity, whatever comes back from its peers and whatever else
happens at the node meanwhile. A run is told as a list of deeds: the steps of the activity itself, its
calls with what became of them, and what others do to the node between its steps. A run may be under way
still; then it ends in no value. `Work.Acts` is the judgement that all runs of some work which begin
well end well, with the deeds so far at hand; its rules build the judgement of a program from those of
its parts, and a loop comes with an invariant of its rounds.

A story (`Story`) is what is known of a run so far, of its deeds and of the node as it is now. What
others do must leave it as it is (`Story.Steady`), which is shown once for a story and then used at
every point of the program where others may act.

The judgement is one about a single activity of a single node, with the rest of the world as free as it
can be: replies are any at all, and need not be what any peer would send. Where peers matter, the
judgement of `Proofs.World.Sound` is the one to use; the two share the rules but not the world. Neither
of them speaks of the order in which two nodes act by the clock.
-/

namespace LogShipping

/-! ## Deeds -/

/-- One thing that happens while a node carries on an activity. -/
inductive Deed where
  /-- The activity works on the node. -/
  | work (now : Instant) (before after : Node)
  /-- The activity calls a peer; while it waits for the reply, there is none. -/
  | call (peer : String) (message : Message) (reply : Option (Except Error Message))
  /-- The activity calls several peers at once; while it waits for replies, there are none. -/
  | callAll (peers : List String) (message : Message)
      (replies : Option (List (Except Error Message)))
  /-- The activity has paused; perhaps the node was told to stop. -/
  | pause (duration : UInt64) (stopped : Bool)
  /-- A loop begins a round. -/
  | round
  /-- Something else changes the node. -/
  | beside (before after : Node)

/-- The node that a deed leaves, if it works on one. -/
def Deed.left : Deed → Option Node
  | .work _ _ after | .beside _ after => some after
  | _ => none

namespace Activity

variable {α β : Type}

/-- Whether something is left to do. -/
def Unfinished {σ : Type} (a : Activity σ α) : Prop := ∀ value, a ≠ .done value

theorem done_or_unfinished {σ : Type} (a : Activity σ α) : (∃ value, a = .done value) ∨ a.Unfinished := by
  cases a with
  | done value => exact .inl ⟨value, rfl⟩
  | _ => exact .inr fun value h => by cases h

/-- An activity that begins at a node may go on with these deeds and leave the node like this; it ends
in a value, or it is under way. Replies are any, one for each peer called. -/
inductive Runs : Activity Node α → Node → List Deed → Option α → Node → Prop where
  | done (value : α) (n : Node) : Runs (.done value) n [] (some value) n
  | underWay {a : Activity Node α} (h : a.Unfinished) (n : Node) : Runs a n [] none n
  | beside {a : Activity Node α} {n m n' : Node} {deeds : List Deed} {r : Option α}
      (h : a.Unfinished) (hbeside : n.Beside m) (hrest : Runs a m deeds r n') :
      Runs a n (.beside n m :: deeds) r n'
  | atomic {τ : Type} {work : Instant → Node → τ × Node} {resume : τ → Activity Node α} {n n' : Node}
      {deeds : List Deed} {r : Option α} (now : Instant)
      (hrest : Runs (resume (work now n).1) (work now n).2 deeds r n') :
      Runs (.atomic work resume) n (.work now n (work now n).2 :: deeds) r n'
  | call {peer : String} {m : Message} {resume : Except Error Message → Activity Node α} {n n' : Node}
      {deeds : List Deed} {r : Option α} (reply : Except Error Message)
      (hrest : Runs (resume reply) n deeds r n') :
      Runs (.call peer m resume) n (.call peer m (some reply) :: deeds) r n'
  | calling (peer : String) (m : Message) (resume : Except Error Message → Activity Node α) (n : Node) :
      Runs (.call peer m resume) n [.call peer m none] none n
  | callAll {peers : List String} {m : Message} {resume : List (Except Error Message) → Activity Node α}
      {n n' : Node} {deeds : List Deed} {r : Option α} (replies : List (Except Error Message))
      (hlength : replies.length = peers.length) (hrest : Runs (resume replies) n deeds r n') :
      Runs (.callAll peers m resume) n (.callAll peers m (some replies) :: deeds) r n'
  | callingAll (peers : List String) (m : Message)
      (resume : List (Except Error Message) → Activity Node α) (n : Node) :
      Runs (.callAll peers m resume) n [.callAll peers m none] none n
  | pause {duration : UInt64} {resume : Bool → Activity Node α} {n n' : Node} {deeds : List Deed}
      {r : Option α} (stopped : Bool) (hrest : Runs (resume stopped) n deeds r n') :
      Runs (.pause duration resume) n (.pause duration stopped :: deeds) r n'
  | round {τ ρ : Type} {body : τ → Activity Node (τ ⊕ ρ)} {start : τ} {resume : ρ → Activity Node α}
      {n n' : Node} {deeds : List Deed} {r : Option α}
      (hrest : Runs (unfoldLoop body start resume) n deeds r n') :
      Runs (.loop body start resume) n (.round :: deeds) r n'

/-- Nothing more happens in a run that has ended. -/
theorem Runs.eq_of_done {value : α} {n n' : Node} {deeds : List Deed} {r : Option α}
    (h : (Activity.done value).Runs n deeds r n') : deeds = [] ∧ r = some value ∧ n' = n := by
  cases h with
  | done => exact ⟨rfl, rfl, rfl⟩
  | underWay hunfinished => exact (hunfinished _ rfl).elim
  | beside hunfinished => exact (hunfinished _ rfl).elim

/-! ## One activity after another -/

/-- How a run of one activity after another is made up: the first one has ended, or the whole is under
way in it. -/
inductive Runs.Split (a : Activity Node α) (next : α → Activity Node β) (n : Node) (deeds : List Deed)
    (r : Option β) (n' : Node) : Prop where
  | both {value : α} {first second : List Deed} {m : Node} (hdeeds : deeds = first ++ second)
      (hfirst : a.Runs n first (some value) m) (hsecond : (next value).Runs m second r n')
  | within (hr : r = none) (hfirst : a.Runs n deeds none n')

section Split

variable {a b : Activity Node α} {next : α → Activity Node β} {n m n' : Node} {deeds : List Deed}
  {r : Option β}

theorem Runs.Split.of_done {value : α} {whole : Activity Node β}
    (hwhole : (Activity.done value).bind next = whole) (h : whole.Runs n deeds r n') :
    Split (.done value) next n deeds r n' := by
  subst hwhole
  exact .both rfl (.done value n) h

/-- A deed of the first activity, in front of what is left of it and of the second one. -/
theorem Runs.Split.cons {deed : Deed} (h : Split b next m deeds r n')
    (hdeed : ∀ {deeds : List Deed} {r : Option α} {n' : Node},
      b.Runs m deeds r n' → a.Runs n (deed :: deeds) r n') :
    Split a next n (deed :: deeds) r n' := by
  rcases h with ⟨hdeeds, hfirst, hsecond⟩ | ⟨hr, hfirst⟩
  · exact .both (by rw [hdeeds]; rfl) (hdeed hfirst) hsecond
  · exact .within hr (hdeed hfirst)

theorem bind_unfoldLoop {τ ρ : Type} (body : τ → Activity Node (τ ⊕ ρ)) (start : τ)
    (resume : ρ → Activity Node α) (next : α → Activity Node β) :
    (unfoldLoop body start resume).bind next =
      unfoldLoop body start fun result => (resume result).bind next := by
  unfold unfoldLoop
  show ((body start >>= _) >>= next) = body start >>= _
  rw [bind_assoc]
  congr 1
  funext result
  cases result with
  | inl again => rfl
  | inr result => rfl

/-- A run of one activity after another is a run of the first one, and of the second one if that has
ended. -/
theorem Runs.split (h : (a.bind next).Runs n deeds r n') : Split a next n deeds r n' := by
  -- by induction on the run of the whole, with whatever is left of the first activity
  generalize hwhole : a.bind next = whole at h
  induction h generalizing a with
  | done value n =>
    cases a with
    | done v => exact .of_done hwhole (.done value n)
    | _ => cases hwhole
  | underWay hunfinished n =>
    rcases a.done_or_unfinished with ⟨v, rfl⟩ | ha
    · exact .of_done hwhole (.underWay hunfinished n)
    · exact .within rfl (.underWay ha n)
  | beside hunfinished hbeside hrest ih =>
    rcases a.done_or_unfinished with ⟨v, rfl⟩ | ha
    · exact .of_done hwhole (.beside hunfinished hbeside hrest)
    · exact (ih hwhole).cons fun h => .beside ha hbeside h
  | atomic now hrest ih =>
    cases a with
    | done v => exact .of_done hwhole (.atomic now hrest)
    | atomic work resume =>
      cases hwhole
      exact (ih rfl).cons fun h => .atomic now h
    | _ => cases hwhole
  | call reply hrest ih =>
    cases a with
    | done v => exact .of_done hwhole (.call reply hrest)
    | call peer m resume =>
      cases hwhole
      exact (ih rfl).cons fun h => .call reply h
    | _ => cases hwhole
  | calling peer m resume n =>
    cases a with
    | done v => exact .of_done hwhole (.calling peer m resume n)
    | call peer' m' resume' =>
      cases hwhole
      exact .within rfl (.calling peer m resume' n)
    | _ => cases hwhole
  | callAll replies hlength hrest ih =>
    cases a with
    | done v => exact .of_done hwhole (.callAll replies hlength hrest)
    | callAll peers m resume =>
      cases hwhole
      exact (ih rfl).cons fun h => .callAll replies hlength h
    | _ => cases hwhole
  | callingAll peers m resume n =>
    cases a with
    | done v => exact .of_done hwhole (.callingAll peers m resume n)
    | callAll peers' m' resume' =>
      cases hwhole
      exact .within rfl (.callingAll peers m resume' n)
    | _ => cases hwhole
  | pause stopped hrest ih =>
    cases a with
    | done v => exact .of_done hwhole (.pause stopped hrest)
    | pause duration resume =>
      cases hwhole
      exact (ih rfl).cons fun h => .pause stopped h
    | _ => cases hwhole
  | round hrest ih =>
    cases a with
    | done v => exact .of_done hwhole (.round hrest)
    | loop body start resume =>
      cases hwhole
      exact (ih (bind_unfoldLoop _ _ _ _)).cons fun h => .round h
    | _ => cases hwhole

/-- A run of one activity that has ended, and a run of the next one from there. -/
theorem Runs.bind {value : α} {first second : List Deed} (h : a.Runs n first (some value) m)
    (hnext : (next value).Runs m second r n') : (a.bind next).Runs n (first ++ second) r n' := by
  generalize hended : some value = result at h
  induction h with
  | done value n =>
    cases hended
    exact hnext
  | beside hunfinished hbeside _ ih =>
    refine .beside (fun v hdone => ?_) hbeside (ih hnext hended)
    cases ‹Activity Node α› with
    | done v => exact hunfinished v rfl
    | _ => cases hdone
  | atomic now _ ih => exact .atomic now (ih hnext hended)
  | call reply _ ih => exact .call reply (ih hnext hended)
  | callAll replies hlength _ ih => exact .callAll replies hlength (ih hnext hended)
  | pause stopped _ ih => exact .pause stopped (ih hnext hended)
  | round _ ih =>
    refine .round ?_
    rw [← bind_unfoldLoop]
    exact ih hnext hended
  | underWay | calling | callingAll => cases hended

end Split

end Activity

/-! ## Rounds of a loop -/

namespace Work

variable {τ ρ : Type} {body : τ → Work (τ ⊕ ρ)} {start : τ} {n n' : Node} {deeds : List Deed}

/-- What a round of a loop comes to. -/
def roundEnd : Except Error (τ ⊕ ρ) → τ ⊕ Except Error ρ
  | .ok (.inl next) => .inl next
  | .ok (.inr result) => .inr (.ok result)
  | .error error => .inr (.error error)

theorem run_iterate (body : τ → Work (τ ⊕ ρ)) (start : τ) :
    (iterate body start).run =
      .loop (fun t => (body t).run.bind fun r => .done (roundEnd r)) start .done := by
  unfold iterate
  show Activity.loop _ _ _ = _
  congr 1
  funext t
  show Activity.bind _ _ = _
  congr 1
  funext r
  cases r with
  | ok r => cases r <;> rfl
  | error => rfl

/-- How a run of a loop is made up of runs of its rounds: the last one may be under way, fail or give the
result of the loop, and those before it have each given the start of the next. -/
inductive Rounds (body : τ → Work (τ ⊕ ρ)) :
    τ → Node → List Deed → Option (Except Error ρ) → Node → Prop where
  | waits (start : τ) (n : Node) : Rounds body start n [] none n
  | beside {start : τ} {n m n' : Node} {deeds : List Deed} {r : Option (Except Error ρ)}
      (hbeside : n.Beside m) (hrest : Rounds body start m deeds r n') :
      Rounds body start n (.beside n m :: deeds) r n'
  | within {start : τ} {n n' : Node} {deeds : List Deed}
      (hround : (body start).run.Runs n deeds none n') :
      Rounds body start n (.round :: deeds) none n'
  | fails {start : τ} {n n' : Node} {deeds : List Deed} {error : Error}
      (hround : (body start).run.Runs n deeds (some (.error error)) n') :
      Rounds body start n (.round :: deeds) (some (.error error)) n'
  | ends {start : τ} {n n' : Node} {deeds : List Deed} {result : ρ}
      (hround : (body start).run.Runs n deeds (some (.ok (.inr result))) n') :
      Rounds body start n (.round :: deeds) (some (.ok result)) n'
  | next {start next : τ} {n m n' : Node} {first deeds : List Deed} {r : Option (Except Error ρ)}
      (hround : (body start).run.Runs n first (some (.ok (.inl next))) m)
      (hrest : Rounds body next m deeds r n') :
      Rounds body start n (.round :: (first ++ deeds)) r n'

/-- A run of a loop is a run of its rounds. -/
theorem rounds_of_runs {r : Option (Except Error ρ)} (h : (iterate body start).run.Runs n deeds r n') :
    Rounds body start n deeds r n' := by
  rw [run_iterate] at h
  -- each round begins with a deed, so what is left of the run gets shorter
  induction hlength : deeds.length using Nat.strongRecOn generalizing start n deeds with
  | ind count ih =>
    subst hlength
    cases h with
    | underWay => exact .waits start _
    | beside _ hbeside hrest => exact .beside hbeside (ih _ (by simp) hrest rfl)
    | round hrest =>
      rcases hrest.split with @⟨outcome, round, later, m, rfl, hround, hlater⟩ | ⟨rfl, hround⟩
      · rcases hround.split with @⟨result, begun, ended, k, rfl, hbegun, hended⟩ | ⟨⟨⟩, -⟩
        match result with
        | .ok (.inl next) =>
          obtain ⟨rfl, ⟨⟩, rfl⟩ := hended.eq_of_done
          have hshorter : later.length < (Deed.round :: (begun ++ [] ++ later)).length := by
            rw [List.length_cons, List.length_append]
            omega
          have hagain := Rounds.next hbegun (ih _ hshorter hlater rfl)
          rwa [← List.append_nil begun] at hagain
        | .ok (.inr result) =>
          obtain ⟨rfl, ⟨⟩, rfl⟩ := hended.eq_of_done
          obtain ⟨rfl, rfl, rfl⟩ := hlater.eq_of_done
          simpa using Rounds.ends hbegun
        | .error error =>
          obtain ⟨rfl, ⟨⟩, rfl⟩ := hended.eq_of_done
          obtain ⟨rfl, rfl, rfl⟩ := hlater.eq_of_done
          simpa using Rounds.fails hbegun
      · rcases hround.split with @⟨result, begun, ended, k, rfl, hbegun, hended⟩ | ⟨-, hbegun⟩
        · cases hended.eq_of_done.2.1
        · exact .within hbegun

end Work

/-! ## Stories -/

/-- What is known of a run so far: of its deeds and of the node as it is now. -/
abbrev Story := List Deed → Node → Prop

/-- What others do, and the beginning of a round, leave the story as it is. -/
structure Story.Steady (P : Story) : Prop where
  beside : ∀ {h : List Deed} {n m : Node}, P h n → n.Beside m → P (h ++ [.beside n m]) m
  round : ∀ {h : List Deed} {n : Node}, P h n → P (h ++ [.round]) n

/-- A run waits for the first deed of its own, and a steady story goes on meanwhile. -/
theorem Story.Steady.settle {α : Type} {P : Story} (hP : P.Steady) {a : Activity Node α} {n n' : Node}
    {deeds h : List Deed} {r : Option α} (hrun : a.Runs n deeds r n') (hh : P h n) :
    ∃ waited rest m, deeds = waited ++ rest ∧ P (h ++ waited) m ∧ a.Runs m rest r n' ∧
      ∀ m' later, rest ≠ .beside m m' :: later := by
  induction deeds generalizing n h with
  | nil => exact ⟨[], [], n, rfl, by simpa using hh, hrun, by simp⟩
  | cons deed deeds ih =>
    by_cases hdeed : ∃ before after, deed = .beside before after
    · obtain ⟨before, after, rfl⟩ := hdeed
      cases hrun with
      | beside hunfinished hbeside hrest =>
        obtain ⟨waited, rest, m, rfl, hm, hrun, hown⟩ := ih hrest (hP.beside hh hbeside)
        exact ⟨.beside _ _ :: waited, rest, m, rfl, by simpa using hm, hrun, hown⟩
    · refine ⟨[], deed :: deeds, n, rfl, by simpa using hh, hrun, ?_⟩
      rintro m' later hsame
      cases hsame
      exact hdeed ⟨_, _, rfl⟩

/-- A story goes on when the activity takes a step of some kind, when others do something, and when the
node is left alone. -/
structure Story.Allows (acts : Node → Node → Prop) (P : Story) : Prop where
  work : ∀ {h : List Deed} {n m : Node} {now : Instant}, P h n → acts n m → P (h ++ [.work now n m]) m
  beside : ∀ {h : List Deed} {n m : Node}, P h n → n.Beside m → P (h ++ [.beside n m]) m
  idle : ∀ {h : List Deed} {n : Node} {deed : Deed}, P h n → deed.left = none → P (h ++ [deed]) n

section Allows

variable {acts : Node → Node → Prop} {P : Story}

theorem Story.Allows.steady (hP : P.Allows acts) : P.Steady := ⟨hP.beside, fun h => hP.idle h rfl⟩

/-- A story that allows the steps of an activity goes on through all its runs. -/
theorem Story.Allows.runs (hP : P.Allows acts) {α : Type} {a : Activity Node α} (ha : a.Steps acts)
    {n n' : Node} {deeds h : List Deed} {r : Option α} (hrun : a.Runs n deeds r n') (hh : P h n) :
    P (h ++ deeds) n' := by
  induction hrun generalizing h with
  | done | underWay => rwa [List.append_nil]
  | beside _ hbeside _ ih => simpa using ih ha (hP.beside hh hbeside)
  | atomic now _ ih => simpa using ih (ha.2 _) (hP.work hh (ha.1 now _))
  | call reply _ ih => simpa using ih (ha.2 reply) (hP.idle hh rfl)
  | callAll replies _ _ ih => simpa using ih (ha.2 replies) (hP.idle hh rfl)
  | pause stopped _ ih => simpa using ih (ha stopped) (hP.idle hh rfl)
  | round _ ih => simpa using ih ha.unfoldLoop (hP.idle hh rfl)
  | calling | callingAll => exact hP.idle hh rfl

end Allows

/-! ## Judging work -/

/-- What is asked of the runs of some work that has not come to a value. -/
structure Terms where
  /-- While it is under way. -/
  underWay : Story
  /-- When it has failed. -/
  failed : Error → Story

namespace Terms

open Work

variable {T : Terms} {α β : Type} {P : Story} {R : α → Story}

/-- What is asked of a run, by how it ends. -/
def Ends (T : Terms) (R : α → Story) : Option (Except Error α) → Story
  | none => T.underWay
  | some (.error error) => T.failed error
  | some (.ok a) => R a

/-- Every run of some work that continues a story of one kind ends as it should. -/
def Acts (T : Terms) (work : Work α) (P : Story) (R : α → Story) : Prop :=
  ∀ h n deeds r n', P h n → work.run.Runs n deeds r n' → T.Ends R r (h ++ deeds) n'

/-- In a story of this kind an activity may wait for what comes next. -/
structure Waits (T : Terms) (P : Story) : Prop extends P.Steady where
  underWay : ∀ {h : List Deed} {n : Node}, P h n → T.underWay h n

/-- What is asked of work that keeps a story going, however it ends. -/
def keeping (P : Story) : Terms := ⟨P, fun _ => P⟩

theorem waits_keeping (hP : P.Steady) : (keeping P).Waits P := ⟨hP, fun h => h⟩

namespace Acts

theorem mono {work : Work α} {P' : Story} {R' : α → Story} (h : T.Acts work P R)
    (hP : ∀ h n, P' h n → P h n) (hR : ∀ a h n, R a h n → R' a h n) : T.Acts work P' R' := by
  intro hist n deeds r n' hstory hrun
  have hends := h hist n deeds r n' (hP _ _ hstory) hrun
  match r with
  | none => exact hends
  | some (.error _) => exact hends
  | some (.ok a) => exact hR a _ _ hends

/-- What is asked may be less. -/
theorem relax {T' : Terms} {work : Work α} (h : T.Acts work P R)
    (hunderWay : ∀ h n, T.underWay h n → T'.underWay h n)
    (hfailed : ∀ error h n, T.failed error h n → T'.failed error h n) : T'.Acts work P R := by
  intro hist n deeds r n' hstory hrun
  have hends := h hist n deeds r n' hstory hrun
  match r with
  | none => exact hunderWay _ _ hends
  | some (.error error) => exact hfailed error _ _ hends
  | some (.ok _) => exact hends

theorem pure {a : α} (h : ∀ h n, P h n → R a h n) : T.Acts (Pure.pure a) P R := by
  intro hist n deeds r n' hstory hrun
  obtain ⟨rfl, rfl, rfl⟩ := hrun.eq_of_done
  simpa [Ends] using h _ _ hstory

theorem fail {error : Error} (h : ∀ h n, P h n → T.failed error h n) :
    T.Acts (throw error : Work α) P R := by
  intro hist n deeds r n' hstory hrun
  obtain ⟨rfl, rfl, rfl⟩ := hrun.eq_of_done
  simpa [Ends] using h _ _ hstory

theorem bind {work : Work α} {next : α → Work β} {S : β → Story} (h : T.Acts work P R)
    (hnext : ∀ a, T.Acts (next a) (R a) S) : T.Acts (work >>= next) P S := by
  intro hist n deeds r n' hstory hrun
  rcases Activity.Runs.split hrun with @⟨value, first, second, m, rfl, hfirst, hsecond⟩ | ⟨rfl, hfirst⟩
  · have hends := h _ _ _ _ _ hstory hfirst
    match value with
    | .error error =>
      obtain ⟨rfl, rfl, rfl⟩ := hsecond.eq_of_done
      simpa [Ends] using hends
    | .ok a =>
      rw [← List.append_assoc]
      exact hnext a _ _ _ _ _ hends hsecond
  · exact h _ _ _ _ _ hstory hfirst

/-- The outcome of work is there whether it fails or not. -/
theorem outcome {work : Work α} {S : Except Error α → Story}
    (h : Acts { T with failed := fun error => S (.error error) } work P fun a => S (.ok a)) :
    T.Acts (Work.outcome work) P S := by
  intro hist n deeds r n' hstory hrun
  rcases Activity.Runs.split hrun with @⟨value, first, second, m, rfl, hfirst, hsecond⟩ | ⟨rfl, hfirst⟩
  · have hends := h _ _ _ _ _ hstory hfirst
    obtain ⟨rfl, rfl, rfl⟩ := hsecond.eq_of_done
    match value with
    | .error error => simpa [Ends] using hends
    | .ok a => simpa [Ends] using hends
  · exact h _ _ _ _ _ hstory hfirst

/-- Work whose steps are all of a kind that a story allows. -/
theorem of_steps {acts : Node → Node → Prop} {work : Work α} (h : work.Steps acts) (hP : P.Allows acts) :
    (keeping P).Acts work P fun _ => P := by
  intro hist n deeds r n' hstory hrun
  have hends := hP.runs h hrun hstory
  match r with
  | none => exact hends
  | some (.error _) => exact hends
  | some (.ok _) => exact hends

/-! ### Steps and calls -/

theorem onNode {work : Instant → Node → α × Node} (hP : T.Waits P)
    (h : ∀ h n now, P h n →
      R (work now n).1 (h ++ [.work now n (work now n).2]) (work now n).2) :
    T.Acts (Work.onNode work) P R := by
  intro hist n deeds r n' hstory hrun
  obtain ⟨waited, rest, m, rfl, hm, hrun, hown⟩ := hP.settle hrun hstory
  rw [← List.append_assoc]
  cases hrun with
  | underWay => simpa [Ends] using hP.underWay hm
  | beside => exact (hown _ _ rfl).elim
  | atomic now hrest =>
    obtain ⟨rfl, rfl, rfl⟩ := hrest.eq_of_done
    exact h _ _ now hm

theorem onLog {work : LogWork α} (hP : T.Waits P)
    (h : ∀ h n now, P h n →
      T.Ends R (some (n.onLog work).1) (h ++ [.work now n (n.onLog work).2]) (n.onLog work).2) :
    T.Acts (Work.onLog work) P R := by
  intro hist n deeds r n' hstory hrun
  obtain ⟨waited, rest, m, rfl, hm, hrun, hown⟩ := hP.settle hrun hstory
  rw [← List.append_assoc]
  cases hrun with
  | underWay => simpa [Ends] using hP.underWay hm
  | beside => exact (hown _ _ rfl).elim
  | atomic now hrest =>
    obtain ⟨rfl, rfl, rfl⟩ := hrest.eq_of_done
    exact h _ _ now hm

/-- A call gives the reply if it is of the command called, and fails with anything else. -/
theorem call {peer : String} {m : Message} {R : Message → Story} (hP : T.Waits P)
    (hcalling : ∀ h n, P h n → T.underWay (h ++ [.call peer m none]) n)
    (hfailed : ∀ h n reply error, P h n → (∀ answer, reply = .ok answer → answer.command ≠ m.command) →
      T.failed error (h ++ [.call peer m (some reply)]) n)
    (hanswered : ∀ h n answer, P h n → answer.command = m.command →
      R answer (h ++ [.call peer m (some (.ok answer))]) n) :
    T.Acts (Work.call peer m) P R := by
  intro hist n deeds r n' hstory hrun
  obtain ⟨waited, rest, k, rfl, hk, hrun, hown⟩ := hP.settle hrun hstory
  rw [← List.append_assoc]
  cases hrun with
  | underWay => simpa [Ends] using hP.underWay hk
  | beside => exact (hown _ _ rfl).elim
  | calling => exact hcalling _ _ hk
  | call reply hrest =>
    cases reply with
    | error error =>
      obtain ⟨rfl, rfl, rfl⟩ := hrest.eq_of_done
      exact hfailed _ _ _ error hk fun answer hsame => by cases hsame
    | ok answer =>
      by_cases hcommand : answer.command = m.command
      · have hexpect : Message.expect m.command answer = .ok answer := if_pos hcommand
        change (ofExcept (Message.expect m.command answer)).run.Runs _ _ _ _ at hrest
        rw [hexpect] at hrest
        obtain ⟨rfl, rfl, rfl⟩ := hrest.eq_of_done
        exact hanswered _ _ answer hk hcommand
      · have hexpect : Message.expect m.command answer =
            .error (.protocol (.wrongCommand m.command answer.command)) := if_neg hcommand
        change (ofExcept (Message.expect m.command answer)).run.Runs _ _ _ _ at hrest
        rw [hexpect] at hrest
        obtain ⟨rfl, rfl, rfl⟩ := hrest.eq_of_done
        exact hfailed _ _ _ _ hk fun other hsame => by cases hsame; exact hcommand

theorem callAll {peers : List String} {m : Message} {R : List (Except Error Message) → Story}
    (hP : T.Waits P) (hcalling : ∀ h n, P h n → T.underWay (h ++ [.callAll peers m none]) n)
    (h : ∀ h n replies, P h n → replies.length = peers.length →
      R (replies.map fun reply => reply.bind (Message.expect m.command))
        (h ++ [.callAll peers m (some replies)]) n) :
    T.Acts (Work.callAll peers m) P R := by
  intro hist n deeds r n' hstory hrun
  obtain ⟨waited, rest, k, rfl, hk, hrun, hown⟩ := hP.settle hrun hstory
  rw [← List.append_assoc]
  cases hrun with
  | underWay => simpa [Ends] using hP.underWay hk
  | beside => exact (hown _ _ rfl).elim
  | callingAll => exact hcalling _ _ hk
  | callAll replies hlength hrest =>
    obtain ⟨rfl, rfl, rfl⟩ := hrest.eq_of_done
    exact h _ _ replies hk hlength

theorem pause {duration : UInt64} {R : Bool → Story} (hP : T.Waits P)
    (h : ∀ h n stopped, P h n → R stopped (h ++ [.pause duration stopped]) n) :
    T.Acts (Work.pause duration) P R := by
  intro hist n deeds r n' hstory hrun
  obtain ⟨waited, rest, k, rfl, hk, hrun, hown⟩ := hP.settle hrun hstory
  rw [← List.append_assoc]
  cases hrun with
  | underWay => simpa [Ends] using hP.underWay hk
  | beside => exact (hown _ _ rfl).elim
  | pause stopped hrest =>
    obtain ⟨rfl, rfl, rfl⟩ := hrest.eq_of_done
    exact h _ _ stopped hk

/-- Looking at the node leaves it alone. -/
theorem inspect {look : Node → α} (hP : T.Waits P)
    (h : ∀ h n now, P h n → R (look n) (h ++ [.work now n n]) n) : T.Acts (Work.inspect look) P R :=
  onNode hP h

theorem change {f : Instant → Node → Node} {R : Unit → Story} (hP : T.Waits P)
    (h : ∀ h n now, P h n → R () (h ++ [.work now n (f now n)]) (f now n)) :
    T.Acts (Work.change f) P R :=
  onNode hP h

/-- What is known of a story, whatever it is a story of. -/
theorem of_exists {ι : Sort*} {work : Work α} {P : ι → Story} (h : ∀ i, T.Acts work (P i) R) :
    T.Acts work (fun h n => ∃ i, P i h n) R := by
  rintro hist n deeds r n' ⟨i, hstory⟩ hrun
  exact h i _ _ _ _ _ hstory hrun

theorem assuming {work : Work α} {φ : Prop} (h : φ → T.Acts work P R) :
    T.Acts work (fun h n => φ ∧ P h n) R := by
  rintro hist n deeds r n' ⟨hφ, hstory⟩ hrun
  exact h hφ _ _ _ _ _ hstory hrun

/-! ### Loops -/

/-- A loop acts as it should if each of its rounds keeps an invariant. -/
theorem iterate {τ ρ : Type} {body : τ → Work (τ ⊕ ρ)} {start : τ} {R : ρ → Story} (I : τ → Story)
    (hI : ∀ t, T.Waits (I t))
    (hround : ∀ t, T.Acts (body t) (I t) fun
      | .inl next => I next
      | .inr result => R result) :
    T.Acts (Work.iterate body start) (I start) R := by
  intro hist n deeds r n' hstory hrun
  have hbody : ∀ {t hist n deeds r n'}, I t hist n → (body t).run.Runs n deeds r n' →
      T.Ends (fun | .inl next => I next | .inr result => R result) r (hist ++ .round :: deeds) n' := by
    intro t hist n deeds r n' hstory hrun
    simpa using hround t _ _ _ _ _ ((hI t).round hstory) hrun
  replace hrun := Work.rounds_of_runs hrun
  induction hrun generalizing hist with
  | waits t n => simpa [Ends] using (hI t).underWay hstory
  | beside hbeside hrest ih => simpa using ih _ ((hI _).beside hstory hbeside)
  | within hround => exact hbody hstory hround
  | fails hround => exact hbody hstory hround
  | ends hround => exact hbody hstory hround
  | next hround hrest ih => simpa using ih _ (hbody hstory hround)

end Acts

end Terms

/-! ## Runs of work that succeeds -/

namespace Work

section Completed

variable {α β : Type} {work : Work α} {next : α → Work β} {n m n' : Node} {first second : List Deed}

theorem runs_bind {r : Option (Except Error β)} {a : α} (h : work.run.Runs n first (some (.ok a)) m)
    (hnext : (next a).run.Runs m second r n') : (work >>= next).run.Runs n (first ++ second) r n' :=
  h.bind hnext

/-- What follows failed work is left out. -/
theorem runs_bind_error {error : Error} (h : work.run.Runs n first (some (.error error)) m) :
    (work >>= next).run.Runs n first (some (.error error)) m := by
  rw [← List.append_nil first]
  exact Activity.Runs.bind h (.done _ m)

theorem runs_outcome {r : Except Error α} (h : work.run.Runs n first (some r) m) :
    (outcome work).run.Runs n first (some (.ok r)) m := by
  rw [← List.append_nil first]
  exact Activity.Runs.bind h (.done _ m)

theorem runs_pure (a : α) (n : Node) : (pure a : Work α).run.Runs n [] (some (.ok a)) n :=
  .done _ n

theorem runs_onNode (work : Instant → Node → α × Node) (now : Instant) (n : Node) :
    (onNode work).run.Runs n [.work now n (work now n).2] (some (.ok (work now n).1)) (work now n).2 :=
  .atomic now (.done _ _)

theorem runs_inspect (look : Node → α) (now : Instant) (n : Node) :
    (inspect look).run.Runs n [.work now n n] (some (.ok (look n))) n :=
  runs_onNode _ now n

theorem runs_change (f : Instant → Node → Node) (now : Instant) (n : Node) :
    (change f).run.Runs n [.work now n (f now n)] (some (.ok ())) (f now n) :=
  runs_onNode _ now n

theorem runs_onLog {work : LogWork α} {result : Except Error α} (now : Instant)
    (h : n.onLog work = (result, m)) :
    (onLog work).run.Runs n [.work now n m] (some result) m := by
  have hrun : (onLog work).run.Runs n [.work now n (n.onLog work).2] (some (n.onLog work).1)
      (n.onLog work).2 := .atomic now (.done _ _)
  rwa [h] at hrun

theorem runs_call (peer : String) {m : Message} (answer : Message) (h : answer.command = m.command)
    (n : Node) :
    (call peer m).run.Runs n [.call peer m (some (.ok answer))] (some (.ok answer)) n := by
  have hexpect : Message.expect m.command answer = .ok answer := if_pos h
  refine .call (.ok answer) ?_
  change (ofExcept (Message.expect m.command answer)).run.Runs _ _ _ _
  rw [hexpect]
  exact .done _ n

theorem runs_call_error (peer : String) (m : Message) (error : Error) (n : Node) :
    (call peer m).run.Runs n [.call peer m (some (.error error))] (some (.error error)) n :=
  .call (.error error) (.done _ n)

theorem runs_callAll (peers : List String) (m : Message) (replies : List (Except Error Message))
    (h : replies.length = peers.length) (n : Node) :
    (callAll peers m).run.Runs n [.callAll peers m (some replies)]
      (some (.ok (replies.map fun reply => reply.bind (Message.expect m.command)))) n :=
  .callAll replies h (.done _ n)

theorem runs_pause (duration : UInt64) (stopped : Bool) (n : Node) :
    (pause duration).run.Runs n [.pause duration stopped] (some (.ok stopped)) n :=
  .pause stopped (.done _ n)

section Rounds

variable {τ ρ : Type} {body : τ → Work (τ ⊕ ρ)} {start : τ}

theorem runs_round {result : Except Error (τ ⊕ ρ)} (h : (body start).run.Runs n first (some result) m) :
    ((body start).run.bind fun r => .done (roundEnd r)).Runs n first (some (roundEnd result)) m := by
  rw [← List.append_nil first]
  exact h.bind (.done _ m)

/-- The last round of a loop. -/
theorem runs_iterate_done {result : ρ}
    (h : (body start).run.Runs n first (some (.ok (.inr result))) m) :
    (iterate body start).run.Runs n (.round :: first) (some (.ok result)) m := by
  rw [run_iterate, ← List.append_nil first]
  refine .round (Activity.Runs.bind (runs_round h) ?_)
  exact .done _ m

/-- A round in which a loop fails. -/
theorem runs_iterate_error {error : Error}
    (h : (body start).run.Runs n first (some (.error error)) m) :
    (iterate body start).run.Runs n (.round :: first) (some (.error error)) m := by
  rw [run_iterate, ← List.append_nil first]
  refine .round (Activity.Runs.bind (runs_round h) ?_)
  exact .done _ m

/-- A round of a loop that goes on. -/
theorem runs_iterate_next {next : τ} {r : Option (Except Error ρ)}
    (h : (body start).run.Runs n first (some (.ok (.inl next))) m)
    (hnext : (iterate body next).run.Runs m second r n') :
    (iterate body start).run.Runs n (.round :: (first ++ second)) r n' := by
  rw [run_iterate] at hnext ⊢
  exact .round (Activity.Runs.bind (runs_round h) hnext)

end Rounds

end Completed

end Work

end LogShipping
