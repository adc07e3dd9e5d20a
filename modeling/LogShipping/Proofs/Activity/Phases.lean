import LogShipping.Proofs.Activity.Startup
import LogShipping.Proofs.Activity.Escalation

/-!
# The phases of a coordinator

The phase that a coordinator reports only moves forward, and the master's phase is reported by masters
only: every deed of a run climbs (`Deed.Climbs`). Each part of the lifecycle begins and ends in a stage
(`Stage`), which says where the phase stands; calm steps and what others do stay in a stage, so only the
steps that enter a phase, follow another master or elect are looked at one by one.

A coordinator that has ended has stopped, unless tailing has failed for good: that failure is handed on
without the last phase being entered (`run_ends_tailing`), although a startup that fails does enter it.
All other ways out are covered by `run_stops`, for a freshly opened node, whatever its store, its peers
and everybody else do.

Only one coordinator is looked at. Two that were set to work on one node would enter phases across each
other, and the program does not start two. That a coordinator ends at all is not claimed here: a
follower whose master answers goes on for ever.
-/

namespace LogShipping

open Work Lifecycle Terms

/-! ## Climbing -/

/-- The place of a phase in the order in which a coordinator goes through them. -/
def Phase.rank : Phase → Nat
  | .cold => 0
  | .catchup => 1
  | .tailing => 2
  | .master => 3
  | .stopped => 4

/-- A node that reports the master's phase is master. -/
def Node.Rightful (n : Node) : Prop := n.phase = .master → n.standing.isMaster = true

/-- A deed takes a node forward or leaves it in its phase. -/
def Deed.Climbs : Deed → Prop
  | .work _ before after | .beside before after =>
    before.phase.rank ≤ after.phase.rank ∧ after.Rightful
  | _ => True

/-- The states that a node goes through. -/
def passed (n : Node) (deeds : List Deed) : List Node := n :: deeds.filterMap Deed.left

section Passing

variable {n m : Node} {deeds : List Deed}

theorem passed_cons_of_left {deed : Deed} (h : deed.left = some m) :
    passed n (deed :: deeds) = n :: passed m deeds := by
  unfold passed
  rw [List.filterMap_cons_some h]

theorem passed_cons_of_idle {deed : Deed} (h : deed.left = none) :
    passed n (deed :: deeds) = passed n deeds := by
  unfold passed
  rw [List.filterMap_cons_none h]

/-- Deeds that climb take a node forward only. -/
theorem Leads.forward (h : Leads deeds n m) (hclimbs : ∀ deed ∈ deeds, deed.Climbs) :
    (passed n deeds).Pairwise fun k k' => k.phase.rank ≤ k'.phase.rank := by
  induction deeds generalizing n with
  | nil => exact List.pairwise_singleton _ n
  | cons deed deeds ih =>
    obtain ⟨k, hdeed, hrest⟩ := h
    have hlater := ih hrest fun d hd => hclimbs d (List.mem_cons_of_mem _ hd)
    have hclimb := hclimbs deed List.mem_cons_self
    cases deed with
    | work | beside =>
      obtain ⟨rfl, rfl⟩ := hdeed
      rw [passed_cons_of_left rfl]
      refine List.pairwise_cons.mpr ⟨fun k' hk' => ?_, hlater⟩
      rcases List.mem_cons.mp hk' with rfl | hk'
      · exact hclimb.1
      · exact hclimb.1.trans ((List.pairwise_cons.mp hlater).1 k' hk')
    | call | callAll | pause | round =>
      cases hdeed
      rw [passed_cons_of_idle rfl]
      exact hlater

/-- Deeds that climb report the master's phase of masters only. -/
theorem rightful_of_climbs (hn : n.Rightful) (hclimbs : ∀ deed ∈ deeds, deed.Climbs) :
    ∀ k ∈ passed n deeds, k.Rightful := by
  intro k hk
  rcases List.mem_cons.mp hk with rfl | hk
  · exact hn
  · obtain ⟨deed, hdeed, hleft⟩ := List.mem_filterMap.mp hk
    have hclimb := hclimbs deed hdeed
    cases deed with
    | work | beside =>
      cases hleft
      exact hclimb.2
    | call | callAll | pause | round => cases hleft

end Passing

theorem Node.Rightful.keep {n n' : Node} (h : n.Rightful) (hphase : n'.phase = n.phase)
    (hisMaster : n'.standing.isMaster = n.standing.isMaster) : n'.Rightful := by
  unfold Node.Rightful
  rw [hphase, hisMaster]
  exact h

/-! ## Stages -/

/-- All deeds so far climb, the node has come to this phase, and something is known of its address and
its role. -/
structure Stage (phase : Phase) (Known : String → Bool → Prop) (h : List Deed) (n : Node) : Prop where
  climbs : ∀ deed ∈ h, deed.Climbs
  phase : n.phase = phase
  rightful : n.Rightful
  own : n.hosts.self = n.url
  known : Known n.url n.standing.isMaster

namespace Stage

variable {phase phase' : Phase} {Known Known' : String → Bool → Prop} {h : List Deed} {n m : Node}

/-- One more deed. -/
theorem snoc {deed : Deed} (hstage : Stage phase Known h n) (hdeed : deed.Climbs)
    (hphase : m.phase = phase') (hrightful : m.Rightful) (hown : m.hosts.self = m.url)
    (hknown : Known' m.url m.standing.isMaster) : Stage phase' Known' (h ++ [deed]) m where
  climbs := by
    intro d hd
    rcases List.mem_append.mp hd with hd | hd
    · exact hstage.climbs d hd
    · rw [List.mem_singleton.mp hd]
      exact hdeed
  phase := hphase
  rightful := hrightful
  own := hown
  known := hknown

theorem weaken (hstage : Stage phase Known h n) (himp : ∀ url isMaster, Known url isMaster →
    Known' url isMaster) : Stage phase Known' h n :=
  ⟨hstage.climbs, hstage.phase, hstage.rightful, hstage.own, himp _ _ hstage.known⟩

/-- A stage lasts while the phase, the address and the role stay as they are. -/
theorem keep {deed : Deed} (hstage : Stage phase Known h n)
    (hdeed : n.phase.rank ≤ m.phase.rank ∧ m.Rightful → deed.Climbs) (hphase : m.phase = n.phase)
    (hurl : m.url = n.url) (hself : m.hosts.self = n.hosts.self)
    (hisMaster : m.standing.isMaster = n.standing.isMaster) : Stage phase Known (h ++ [deed]) m := by
  have hrightful : m.Rightful := hstage.rightful.keep hphase hisMaster
  refine hstage.snoc (hdeed ⟨by rw [hphase], hrightful⟩) (hphase.trans hstage.phase) hrightful ?_ ?_
  · rw [hself, hurl]
    exact hstage.own
  · rw [hurl, hisMaster]
    exact hstage.known

/-- A step on a node that is no master stays in its stage if the phase and the address stay. -/
theorem step {now : Instant} (hstage : Stage phase Known h n) (hfollower : phase ≠ .master)
    (hphase : m.phase = n.phase) (hurl : m.url = n.url) (hself : m.hosts.self = n.hosts.self)
    (hknown : Known' m.url m.standing.isMaster) : Stage phase Known' (h ++ [.work now n m]) m := by
  have hrightful : m.Rightful := fun hmaster =>
    (hfollower (hstage.phase.symm.trans (hphase.symm.trans hmaster))).elim
  refine hstage.snoc ⟨by rw [hphase], hrightful⟩ (hphase.trans hstage.phase) hrightful ?_ hknown
  rw [hself, hurl]
  exact hstage.own

/-- Calm steps stay in a stage, and so does what others do. -/
theorem allows (phase : Phase) (Known : String → Bool → Prop) :
    Story.Allows Node.Calm (Stage phase Known) where
  work := fun hstage hcalm => hstage.keep id hcalm.phase hcalm.url hcalm.self hcalm.isMaster
  beside := fun hstage hbeside =>
    hstage.keep id hbeside.alike.phase hbeside.alike.url hbeside.alike.self hbeside.alike.isMaster
  idle := by
    intro h n deed hstage hleft
    refine hstage.keep (fun _ => ?_) rfl rfl rfl rfl
    cases deed with
    | work | beside => cases hleft
    | call | callAll | pause | round => trivial

end Stage

/-- Nothing is known of the address and the role. -/
def Stage.Any : String → Bool → Prop := fun _ _ => True

/-- The node is master. -/
def Stage.Leading : String → Bool → Prop := fun _ isMaster => isMaster = true

/-- The coordinator has not stopped. -/
def Going (Known : String → Bool → Prop) : Story := fun h n =>
  ∃ phase, phase ≠ .stopped ∧ Stage phase Known h n

theorem Stage.forget {phase : Phase} {Known : String → Bool → Prop} {h : List Deed} {n : Node}
    (hstage : Stage phase Known h n) : Stage phase Stage.Any h n := hstage.weaken fun _ _ _ => trivial

theorem rank_le_stopped (phase : Phase) : phase.rank ≤ Phase.stopped.rank := by
  cases phase <;> decide

theorem rank_le_master {phase : Phase} (h : phase ≠ .stopped) : phase.rank ≤ Phase.master.rank := by
  cases phase <;> first | decide | exact (h rfl).elim

theorem rank_le_tailing {phase : Phase} (h : phase ≠ .stopped) (h' : phase ≠ .master) :
    phase.rank ≤ Phase.tailing.rank := by
  cases phase <;> first | decide | exact (h rfl).elim | exact (h' rfl).elim

/-- What is asked of work that climbs. -/
def climbing (failed : Error → Story) : Terms := ⟨fun h _ => ∀ deed ∈ h, deed.Climbs, failed⟩

namespace Stage

variable {phase : Phase} {Known : String → Bool → Prop} {F : Error → Story} {α : Type}

theorem waits (F : Error → Story) (phase : Phase) (Known : String → Bool → Prop) :
    (climbing F).Waits (Stage phase Known) := ⟨(Stage.allows phase Known).steady, Stage.climbs⟩

/-- Calm work stays in a stage. -/
theorem calm {work : Work α} (h : work.Steps Node.Calm)
    (hF : ∀ {error h n}, Stage phase Known h n → F error h n) :
    (climbing F).Acts work (Stage phase Known) fun _ => Stage phase Known :=
  (Acts.of_steps h (Stage.allows phase Known)).relax (fun _ _ hstage => hstage.climbs)
    fun _ _ _ hstage => hF hstage

/-- A look at the node's address or its role tells what is known of it. -/
theorem look {look : Node → α} (Known' : α → String → Bool → Prop)
    (h : ∀ n : Node, Known n.url n.standing.isMaster → Known' (look n) n.url n.standing.isMaster) :
    (climbing F).Acts (inspect look) (Stage phase Known) fun a => Stage phase (Known' a) :=
  Acts.inspect (Stage.waits F phase Known) fun _ n _ hstage =>
    hstage.snoc ⟨Nat.le_refl _, hstage.rightful⟩ hstage.phase hstage.rightful hstage.own
      (h n hstage.known)

/-- A later phase may be entered, that of a master by a master only. -/
theorem enter {next : Phase} (hrank : phase.rank ≤ next.rank)
    (hmaster : next = .master → ∀ url isMaster, Known url isMaster → isMaster = true) :
    (climbing F).Acts (enter next) (Stage phase Known) fun _ => Stage next Known :=
  Acts.change (Stage.waits F phase Known) fun _ n _ hstage => by
    have hrightful : Node.Rightful { n with phase := next } :=
      fun hnext => hmaster hnext _ _ hstage.known
    refine hstage.snoc ⟨?_, hrightful⟩ rfl hrightful hstage.own hstage.known
    rw [hstage.phase]
    exact hrank

/-- A follower may follow another master. -/
theorem retarget (master : String) (hfollower : phase ≠ .master) :
    (climbing F).Acts (retarget master) (Stage phase Known) fun _ => Stage phase Any :=
  Acts.change (Stage.waits F phase _) fun _ _ _ hstage => hstage.step hfollower rfl rfl rfl trivial

end Stage

/-! ## The parts of the lifecycle -/

namespace Lifecycle

open Stage

/-! ### Starting up -/

/-- Calm work of a coordinator that has not stopped. -/
theorem climbs_calm {phase : Phase} {Known : String → Bool → Prop} {α : Type} {work : Work α}
    (h : work.Steps Node.Calm) (hphase : phase ≠ .stopped) :
    (climbing fun _ => Going Any).Acts work (Stage phase Known) fun _ => Stage phase Known :=
  Stage.calm h fun hstage => ⟨phase, hphase, hstage.forget⟩

theorem climbs_startFollower :
    (climbing fun _ => Going Any).Acts startFollower (Stage .cold Any) fun _ =>
      Stage .tailing Any := by
  unfold startFollower
  refine Acts.bind (Stage.enter (Nat.le_refl _) nofun) fun _ => ?_
  refine Acts.bind (climbs_calm (Steps.inspect _) (by decide)) fun configured => ?_
  refine Acts.bind (climbs_calm (calm_compareLog configured) (by decide)) fun _ => ?_
  refine Acts.bind (Stage.enter (by decide) nofun) fun _ => ?_
  refine Acts.bind (climbs_calm (calm_catchUp configured) (by decide)) fun _ => ?_
  refine Acts.bind
    (climbs_calm (calm_of_notes (notes_confirmMaster configured)) (by decide)) fun master => ?_
  have hrest {Known : String → Bool → Prop} : (climbing fun _ => Going Any).Acts
      (do register master; Work.enter .tailing) (Stage .catchup Known) fun _ => Stage .tailing Any := by
    refine Acts.bind (climbs_calm (calm_of_notes (notes_register master)) (by decide)) fun _ => ?_
    exact (Stage.enter (by decide) nofun).mono (fun _ _ h => h) fun _ _ _ h => h.forget
  dsimp only
  split
  · refine Acts.bind (Stage.retarget master (by decide)) fun _ => ?_
    exact Acts.bind (climbs_calm (calm_compareLog master) (by decide)) fun _ => hrest
  · exact hrest

/-- The phase in which a node is opened. -/
def firstPhase (isMaster : Bool) : Phase := if isMaster then .master else .cold

theorem rightful_of_first {n : Node} (h : n.phase = firstPhase n.standing.isMaster) : n.Rightful := by
  intro hmaster
  rw [h] at hmaster
  revert hmaster
  cases n.standing.isMaster <;> decide

theorem climbs_startup (isMaster : Bool) :
    (climbing fun _ => Going Any).Acts startup
      (Stage (firstPhase isMaster) fun _ role => role = isMaster) fun _ => Going Any := by
  have hfirst : firstPhase isMaster ≠ .stopped := by cases isMaster <;> decide
  unfold startup
  refine Acts.bind (climbs_calm (calm_of_notes notes_touchSelf) hfirst) fun _ => ?_
  refine Acts.bind (Stage.look (fun a _ role => role = isMaster ∧ a = isMaster)
    fun n hrole => ⟨hrole, hrole⟩) fun a => ?_
  -- the phase that the node was opened in tells its role
  cases a with
  | true =>
    refine (Stage.enter (rank_le_master hfirst) ?_).mono (fun _ _ h => h) fun _ _ _ hstage =>
      ⟨.master, nofun, hstage.forget⟩
    rintro - url role ⟨rfl, rfl⟩
    rfl
  | false =>
    refine climbs_startFollower.mono ?_ fun _ _ _ hstage => ⟨.tailing, by decide, hstage⟩
    intro h n hstage
    obtain rfl : isMaster = false := hstage.known.2.symm
    exact hstage.forget

/-! ### Tailing -/

/-- Where a pass of tailing leaves a node; a promotion has made it master. -/
def Passing : Streak ⊕ TailEnd → Story
  | .inr .promoted => Stage .tailing Leading
  | _ => Stage .tailing Any

/-- What is asked of tailing: a failure leaves it tailing. -/
def tailingTerms : Terms := climbing fun _ => Stage .tailing Any

theorem tails_calm {Known : String → Bool → Prop} {α : Type} {work : Work α}
    (h : work.Steps Node.Calm) :
    tailingTerms.Acts work (Stage .tailing Known) fun _ => Stage .tailing Known :=
  Stage.calm h Stage.forget

theorem climbs_restAfter {Known : String → Bool → Prop} (interval : Settings → UInt64)
    (streak : Streak) :
    tailingTerms.Acts (restAfter interval streak) (Stage .tailing Known) Passing := by
  unfold restAfter
  refine Acts.bind (tails_calm (Steps.inspect _)) fun settings => ?_
  refine Acts.bind (tails_calm (Steps.pause _)) fun stopped => Acts.pure fun h n hstage => ?_
  cases stopped with
  | true => exact hstage.forget
  | false => exact hstage.forget

/-- A node whose election it wins is master. -/
theorem climbs_elect (cutoff : Instant) :
    tailingTerms.Acts (elect cutoff) (Stage .tailing Any) fun winner =>
      Stage .tailing fun url isMaster => winner = some url → isMaster = true := by
  unfold elect
  refine Acts.bind (tails_calm (calm_of_notes notes_touchSelf)) fun _ => ?_
  refine Acts.bind (R := fun winner => Stage .tailing fun url isMaster =>
    winner.map (·.url) = some url → isMaster = true) ?_ fun winner => Acts.pure fun _ _ h => h
  refine Acts.onNode (Stage.waits _ _ _) fun h n now hstage => ?_
  obtain ⟨hurl, -, hwins, -⟩ := Node.elect_cases n cutoff
  refine hstage.step (by decide) (n.phase_elect cutoff) hurl (by rw [Node.hosts_elect]) ?_
  rw [hurl, ← hstage.own]
  exact hwins

theorem climbs_endStreak (master : String) (since : Instant) :
    tailingTerms.Acts (endStreak master since) (Stage .tailing Any) Passing := by
  unfold endStreak
  refine Acts.bind (climbs_elect since) fun winner => ?_
  cases winner with
  | none => exact climbs_restAfter _ _
  | some winner =>
    refine Acts.bind (Stage.look (fun own url isMaster => own = url ∧
      (some winner = some url → isMaster = true)) fun n hwins => ⟨rfl, hwins⟩) fun own => ?_
    split
    · next hown =>
      refine Acts.pure fun h n hstage => hstage.weaken ?_
      rintro url isMaster ⟨rfl, hwins⟩
      exact hwins (by rw [hown])
    · split
      · exact Acts.bind (Stage.retarget winner (by decide)) fun _ => climbs_restAfter _ _
      · exact climbs_restAfter _ _

theorem climbs_noteFailure (master : String) (streak : Streak) :
    tailingTerms.Acts (noteFailure master streak) (Stage .tailing Any) Passing := by
  unfold noteFailure
  refine Acts.bind (tails_calm Steps.clock) fun now => ?_
  refine Acts.bind (tails_calm (Steps.inspect _)) fun settings => ?_
  have hrest (failures : UInt32) (since : Instant) : tailingTerms.Acts
      (if settings.electionThreshold ≤ failures then endStreak master since
        else restAfter (·.idleInterval) { failures := failures, since := some since })
      (Stage .tailing Any) Passing := by
    split
    · exact climbs_endStreak master since
    · exact climbs_restAfter _ _
  dsimp only
  split
  · exact Acts.bind (tails_calm (calm_of_notes notes_hostUpdate)) fun _ => hrest _ _
  · exact hrest _ _

theorem climbs_tailPass (streak : Streak) :
    tailingTerms.Acts (tailPass streak) (Stage .tailing Any) Passing := by
  unfold tailPass
  refine Acts.bind (Stage.look (fun standing _ isMaster => standing.isMaster = isMaster)
    fun n _ => rfl) fun standing => ?_
  split
  · exact Acts.pure fun h n hstage => hstage.forget
  split
  · next hmaster =>
    refine Acts.pure fun h n hstage => hstage.weaken ?_
    rintro url isMaster rfl
    exact hmaster
  refine Acts.bind (tails_calm calm_drainPushed) fun _ => ?_
  refine Acts.bind (tails_calm (Steps.inspect _)) fun master => ?_
  refine Acts.bind (tails_calm (Steps.outcome (calm_pullAndApply master))) fun outcome => ?_
  split
  · exact climbs_restAfter _ _
  · exact Acts.pure fun h n hstage => hstage.forget
  · split
    · exact (climbs_noteFailure _ _).mono (fun _ _ hstage => hstage.forget) fun _ _ _ h => h
    · exact Acts.fail fun h n hstage => hstage.forget

/-- Where tailing leaves a node; it is promoted only if it is master. -/
def Tailed (ending : TailEnd) : Story := Passing (.inr ending)

theorem climbs_tail {phase : Phase} {Known : String → Bool → Prop}
    (hphase : phase.rank ≤ Phase.tailing.rank) :
    tailingTerms.Acts tail (Stage phase Known) Tailed := by
  unfold tail
  refine Acts.bind (R := fun _ => Stage .tailing Any) ?_ fun _ => ?_
  · exact (Stage.enter hphase nofun).mono (fun _ _ h => h) fun _ _ _ h => h.forget
  · refine Acts.iterate (fun _ => Stage .tailing Any) (fun _ => Stage.waits _ _ _) fun streak => ?_
    refine (climbs_tailPass streak).mono (fun _ _ h => h) ?_
    rintro (next | ending) h n hpassing
    · exact hpassing
    · exact hpassing

/-- How a follower, or a node that is master already, comes to the end of following. -/
def Followed : TailEnd → Story
  | .promoted => Going Leading
  | .shutdown => Going Any

theorem climbs_follow : tailingTerms.Acts follow (Going Any) Followed := by
  refine Acts.of_exists fun phase => Acts.assuming fun hphase => ?_
  unfold follow
  refine Acts.bind (Stage.look (fun a _ role => a = role) fun n _ => rfl) fun a => ?_
  cases a with
  | true => exact Acts.pure fun h n hstage => ⟨phase, hphase, hstage.weaken fun _ _ hrole => hrole.symm⟩
  | false =>
    by_cases hmaster : phase = .master
    · -- a node in the master's phase is master
      intro hist n deeds r n' hstage hrun
      have hrole := hstage.rightful (hstage.phase.trans hmaster)
      rw [← hstage.known] at hrole
      cases hrole
    · refine (climbs_tail (rank_le_tailing hphase hmaster)).mono (fun _ _ h => h) ?_
      rintro (_ | _) h n htailed
      · exact ⟨.tailing, by decide, htailed⟩
      · exact ⟨.tailing, by decide, htailed⟩

/-! ### Acting as master -/

/-- What is asked of work that cannot fail. -/
def safe : Terms := climbing fun _ _ _ => False

theorem safe_look {α : Type} (look : Node → α) :
    safe.Acts (inspect look) (Stage .master Leading) fun _ => Stage .master Leading :=
  Stage.look (fun _ => Leading) fun _ hleading => hleading

theorem climbs_refreshFollowers :
    safe.Acts refreshFollowers (Stage .master Leading) fun _ => Stage .master Leading := by
  have hallows := Stage.allows .master Leading
  have hwaits : safe.Waits (Stage .master Leading) := Stage.waits _ _ _
  unfold refreshFollowers
  refine Acts.bind (R := fun _ => Stage .master Leading) ?_ fun _ => Acts.bind (safe_look _) ?_
  · exact Acts.change hwaits fun h n now hstage => hallows.work hstage (n.notes_observe _ _ _).calm
  rintro ⟨hosts, peers⟩
  refine Acts.bind (R := fun _ => Stage .master Leading) ?_ fun replies => ?_
  · exact Acts.callAll hwaits (fun h n hstage => (hallows.idle hstage rfl).climbs)
      fun h n replies hstage _ => hallows.idle hstage rfl
  · refine Acts.onNode hwaits fun h n now hstage => hallows.work hstage ?_
    obtain ⟨hosts, hgains, heq⟩ := exists_noteReached now (peers.zip replies) n
    rw [heq]
    exact (Node.Notes.calm ⟨hosts, hgains.grows, rfl⟩)

theorem climbs_masterRound :
    safe.Acts masterRound (Stage .master Leading) fun _ => Stage .master Leading := by
  unfold masterRound
  refine Acts.bind (safe_look _) fun shutDown => ?_
  split
  · exact Acts.pure fun _ _ hstage => hstage
  · refine Acts.bind climbs_refreshFollowers fun _ => Acts.bind (safe_look _) fun interval => ?_
    refine Acts.bind (R := fun _ => Stage .master Leading) ?_ fun _ => Acts.pure fun _ _ hstage => hstage
    exact Acts.pause (Stage.waits _ _ _) fun h n stopped hstage =>
      (Stage.allows .master Leading).idle hstage rfl

theorem climbs_masterLoop :
    safe.Acts masterLoop (Going Leading) fun _ => Stage .master Leading := by
  refine Acts.of_exists fun phase => Acts.assuming fun hphase => ?_
  unfold masterLoop
  refine Acts.bind (Stage.enter (rank_le_master hphase) fun _ _ _ hleading => hleading) fun _ => ?_
  refine Acts.iterate (fun _ => Stage .master Leading) (fun _ => Stage.waits _ _ _) fun _ => ?_
  refine climbs_masterRound.mono (fun _ _ h => h) ?_
  rintro (next | result) h n hstage
  · exact hstage
  · exact hstage

/-! ### From start to stop -/

/-- The node has not started up. -/
def Unstarted (n : Node) (deeds : List Deed) (error : Error) : Prop :=
  ∃ first m, first <+: deeds ∧ startup.run.Runs n first (some (.error error)) m

/-- The node has started up, and following has failed. -/
def Broken (n : Node) (deeds : List Deed) (error : Error) (n' : Node) : Prop :=
  ∃ first second m, deeds = first ++ second ∧ startup.run.Runs n first (some (.ok ())) m ∧
    follow.run.Runs m second (some (.error error)) n'

/-- How a coordinator has failed: while it started up, and then it has stopped, or later, and then it is
still tailing. -/
def Failed (n : Node) (error : Error) : Story := fun h n' =>
  (∀ deed ∈ h, deed.Climbs) ∧
    (n'.phase = .stopped ∧ Unstarted n h error ∨ n'.phase = .tailing ∧ Broken n h error n')

/-- A startup that has ended. -/
def Launched (n : Node) (r : Except Error Unit) : Story := fun h m =>
  Going Any h m ∧ startup.run.Runs n h (some r) m

theorem climbs_stop {F : Error → Story} {Known : String → Bool → Prop} :
    (climbing F).Acts (enter .stopped) (Going Known) fun _ => Stage .stopped Any :=
  Acts.of_exists fun phase => Acts.assuming fun _ =>
    (Stage.enter (rank_le_stopped phase) nofun).mono (fun _ _ h => h) fun _ _ _ h => h.forget

/-- A coordinator that stops after its startup has failed. -/
theorem climbs_stop_unstarted (n : Node) (error : Error) :
    (climbing (Failed n)).Acts (enter .stopped) (Launched n (.error error)) fun _ h m =>
      Stage .stopped Any h m ∧ Unstarted n h error := by
  rintro hist m deeds r n' ⟨hgoing, hstartup⟩ hrun
  have hends := climbs_stop (F := fun _ _ _ => False) hist m deeds r n' hgoing hrun
  match r with
  | none => exact hends
  | some (.error _) => exact hends.elim
  | some (.ok _) => exact ⟨hends, hist, m, List.prefix_append _ _, hstartup⟩

theorem climbs_launched {n : Node} (hown : n.hosts.self = n.url)
    (hphase : n.phase = firstPhase n.standing.isMaster) :
    Acts { climbing (Failed n) with failed := fun error => Launched n (.error error) } startup
      (fun h m => h = [] ∧ m = n) fun _ => Launched n (.ok ()) := by
  rintro hist m deeds r n' ⟨rfl, rfl⟩ hrun
  have hends := climbs_startup m.standing.isMaster [] m deeds r n'
    ⟨by simp, hphase, rightful_of_first hphase, hown, rfl⟩ hrun
  match r with
  | none => exact hends
  | some (.error _) => exact ⟨hends, hrun⟩
  | some (.ok _) => exact ⟨hends, hrun⟩

theorem climbs_follow_launched (n : Node) :
    (climbing (Failed n)).Acts follow (Launched n (.ok ())) Followed := by
  rintro hist m deeds r n' ⟨hgoing, hstartup⟩ hrun
  have hends := climbs_follow hist m deeds r n' hgoing hrun
  match r with
  | none => exact hends
  | some (.error _) => exact ⟨hends.climbs, .inr ⟨hends.phase, hist, deeds, m, rfl, hstartup, hrun⟩⟩
  | some (.ok _) => exact hends

theorem climbs_run {n : Node} (hown : n.hosts.self = n.url)
    (hphase : n.phase = firstPhase n.standing.isMaster) :
    (climbing (Failed n)).Acts run (fun h m => h = [] ∧ m = n) fun _ => Stage .stopped Any := by
  unfold run
  refine Acts.bind (Acts.outcome (climbs_launched hown hphase)) fun outcome => ?_
  split
  · exact climbs_stop.mono (fun _ _ hlaunched => hlaunched.1) fun _ _ _ h => h
  · next error _ =>
    refine Acts.bind (climbs_stop_unstarted n error) fun _ => Acts.fail ?_
    exact fun h m ⟨hstage, hunstarted⟩ => ⟨hstage.climbs, .inl ⟨hstage.phase, hunstarted⟩⟩
  · refine Acts.bind (climbs_follow_launched n) fun ending => ?_
    cases ending with
    | shutdown => exact climbs_stop
    | promoted =>
      refine Acts.bind (R := fun _ => Stage .master Leading) ?_ fun _ => ?_
      · exact climbs_masterLoop.relax (fun _ _ h => h) fun _ _ _ hfalse => hfalse.elim
      · exact climbs_stop.mono (fun h m hstage => ⟨.master, by decide, hstage⟩) fun _ _ _ h => h

end Lifecycle

/-! ## Opened nodes -/

/-- A log that could be opened has the standing that it was opened with. -/
theorem Log.ensures_reopen_standing (standing : Standing) (s : Store) :
    Ensures (Log.reopen standing) s fun r _ => ∀ log, r = .ok log → log.standing = standing := by
  refine Ensures.bind ((Ensures.any Store.recoverCounters s).mono ?_)
  rintro (error | counters) t -
  · intro _ hfailed
    cases hfailed
  · refine Ensures.read_bind (Ensures.pure ?_)
    intro log hlog
    cases hlog
    rfl

/-- A node that could be opened has the standing it was set up with, and is in its first phase. -/
theorem Node.ensures_start_standing (setup : Setup) (now : Instant) (s : Store) :
    Ensures (Node.start setup now) s fun r _ => ∀ n, r = .ok n →
      n.standing = Standing.start setup.url setup.isMaster setup.master ∧
        n.hosts.self = setup.url ∧ n.phase = firstPhase setup.isMaster := by
  refine Ensures.bind ((Ensures.any Store.ensureFences s).mono ?_)
  rintro (error | _) t -
  · intro _ hfailed
    cases hfailed
  refine Ensures.bind ((Log.ensures_reopen_standing _ t).mono ?_)
  rintro (error | log) t' hlog
  · intro _ hfailed
    cases hfailed
  · refine Ensures.pure ?_
    intro n hn
    cases hn
    exact ⟨hlog log rfl, rfl, rfl⟩

namespace Lifecycle

/-- A coordinator of a freshly opened node, whatever its store, its peers and everybody else do. Its phase
only moves forward, and it reports the master's phase only while the node is master. When it has ended
well it has stopped. When it has ended with an error, either it failed while it started up, and then it
has stopped too, or following failed later, and then it reports to be tailing still. -/
theorem run_stops {setup : Setup} {now : Instant} {s : Store} {n n' : Node} {deeds : List Deed}
    {r : Option (Except Error Unit)} (hstart : ((Node.start setup now).run.run s).1 = .ok n)
    (hrun : run.run.Runs n deeds r n') :
    (passed n deeds).Pairwise (fun m k => m.phase.rank ≤ k.phase.rank) ∧
      (∀ m ∈ passed n deeds, m.phase = .master → m.standing.isMaster = true) ∧
      (r = some (.ok ()) → n'.phase = .stopped) ∧
      ∀ error, r = some (.error error) →
        n'.phase = .stopped ∧ Unstarted n deeds error ∨
          n'.phase = .tailing ∧ Broken n deeds error n' := by
  obtain ⟨hstanding, hself, hphase⟩ := Node.ensures_start_standing setup now s n hstart
  have hown : n.hosts.self = n.url := hself.trans (congrArg Standing.self hstanding).symm
  have hfirst : n.phase = firstPhase n.standing.isMaster := by
    rw [hphase, hstanding]
    rfl
  have hends := climbs_run hown hfirst [] n deeds r n' ⟨rfl, rfl⟩ hrun
  rw [List.nil_append] at hends
  have hpasses (hclimbs : ∀ deed ∈ deeds, deed.Climbs) :
      (passed n deeds).Pairwise (fun m k => m.phase.rank ≤ k.phase.rank) ∧
        ∀ m ∈ passed n deeds, m.Rightful :=
    ⟨hrun.leads.forward hclimbs, rightful_of_climbs (rightful_of_first hfirst) hclimbs⟩
  match r with
  | none => exact ⟨(hpasses hends).1, (hpasses hends).2, nofun, nofun⟩
  | some (.error error) =>
    refine ⟨(hpasses hends.1).1, (hpasses hends.1).2, nofun, ?_⟩
    rintro _ ⟨⟩
    exact hends.2
  | some (.ok ()) =>
    exact ⟨(hpasses hends.climbs).1, (hpasses hends.climbs).2, fun _ => hends.phase, nofun⟩

/-! ### Runs of opened nodes -/

section Running

variable {n : Node}

/-- A node set up alone. -/
def setupAt (url : String) (isMaster : Bool) (master : Option String) : Setup :=
  { url := url, isMaster := isMaster, master := master, secret := "wolf", queueSize := 4
    settings := ⟨100, 2, 4, 50, 100, 1000⟩ }

/-- A store with the fences alone. -/
def emptyStore : Store := { engine := .tree, rows := Rows.replay [] }

theorem exists_opened (setup : Setup) (now : Instant) :
    ∃ n, ((Node.start setup now).run.run emptyStore).1 = .ok n ∧ Net.Opened setup now [] n := by
  obtain ⟨-, ⟨n, hn, hopened, -⟩ | ⟨hnot, -⟩ | ⟨hnot, -⟩⟩ :=
    @Net.ensures_start now setup emptyStore [] rfl IsHistory.nil
  · exact ⟨n, hn, hopened⟩
  · exact (hnot fun _ h => nomatch h).elim
  · exact (hnot fun _ h => nomatch h).elim

/-- A master whose coordinator is told to stop while it rests after its first round. -/
theorem runs_run_master (hmaster : n.standing.isMaster = true) (hup : n.standing.shutDown = false)
    (now : Instant) : ∃ deeds n', run.run.Runs n deeds (some (.ok ())) n' := by
  have hround (m : Node) (hm : m.standing.shutDown = false) :
      ∃ deeds m', masterRound.run.Runs m deeds (some (.ok (.inr ()))) m' := by
    apply Exists.intro
    apply Exists.intro
    apply runs_bind (runs_inspect _ now m)
    rw [hm]
    apply runs_bind
    · apply runs_bind (runs_change _ now m)
      apply runs_bind (runs_inspect _ now _)
      apply runs_bind (runs_callAll _ _ (List.replicate _ (.error .cancelled)) List.length_replicate _)
      apply runs_onNode _ now
    apply runs_bind (runs_inspect _ now _)
    apply runs_bind (runs_pause _ true _)
    apply runs_pure
  apply Exists.intro
  apply Exists.intro
  apply runs_bind
  · apply runs_outcome
    apply runs_bind (runs_change _ now n)
    apply runs_bind (runs_inspect _ now _)
    rw [if_pos (by exact hmaster)]
    apply runs_change _ now
  apply runs_bind
  · apply runs_bind (runs_inspect _ now _)
    rw [if_pos (by exact hmaster)]
    apply runs_pure
  apply runs_bind
  · apply runs_bind (runs_change _ now _)
    exact runs_iterate_done (hround _ (by exact hup)).choose_spec.choose_spec
  apply runs_change _ now

theorem runs_confirmMaster (peer : String) (now : Instant) (n : Node) :
    ∃ deeds, (confirmMaster peer).run.Runs n deeds (some (.ok peer))
      { n with hosts := n.hosts.observe peer 0 now } :=
  ⟨_, runs_bind (runs_askStatus peer peer true peer 0 n now) (runs_pure peer _)⟩

theorem runs_register (master : String) (now : Instant) (n : Node) :
    ∃ deeds, (register master).run.Runs n deeds (some (.ok ()))
      { n with hosts := n.hosts.adopt [] } :=
  ⟨_, runs_bind (runs_inspect _ now n) (runs_bind
    (runs_call master (.register n.url n.position []) (by rfl) n) (runs_change _ now n))⟩

/-- A follower with an empty log, whose configured peer is master and has an empty log too, starts up. -/
theorem runs_startup_follower (hfollower : n.standing.isMaster = false) (hposition : n.position = 0)
    (now : Instant) : ∃ deeds hosts, startup.run.Runs n deeds (some (.ok ()))
      { n with hosts := hosts, phase := .tailing } := by
  have hcompare (peer : String) (m : Node) (hm : m.position = 0) :
      (compareLog peer).run.Runs m [.work now m m] (some (.ok ())) m := by
    refine runs_bind (runs_inspect _ now m) ?_
    rw [if_neg (by simp [hm])]
    exact runs_pure () m
  apply Exists.intro
  apply Exists.intro
  apply runs_bind (runs_change _ now n)
  apply runs_bind (runs_inspect _ now _)
  have hnot : ¬ n.standing.isMaster = true := by simp [hfollower]
  rw [if_neg (by exact hnot)]
  apply runs_bind (runs_change _ now _)
  apply runs_bind (runs_inspect _ now _)
  apply runs_bind (hcompare _ _ (by exact hposition))
  apply runs_bind (runs_change _ now _)
  apply runs_bind (runs_catchUp _ _ now).choose_spec
  apply runs_bind (runs_confirmMaster _ now _).choose_spec
  dsimp only
  rw [if_neg (fun h => h rfl)]
  apply runs_bind (runs_register _ now _).choose_spec
  exact runs_change _ now _

/-- A follower whose master refuses a pull for good. -/
theorem runs_tail_refused (hfollower : n.standing.isMaster = false)
    (hup : n.standing.shutDown = false) (hbuffer : n.buffer.drain n.position = (some [], n.buffer))
    (reason : String) (now : Instant) :
    ∃ deeds, tail.run.Runs n deeds (some (.error (.remote .unauthorized reason)))
      { n with phase := .tailing } := by
  have hpass (m : Node) (hm : m.standing = n.standing)
      (hmbuffer : m.buffer.drain m.position = (some [], m.buffer)) :
      ∃ deeds, (tailPass {}).run.Runs m deeds (some (.error (.remote .unauthorized reason))) m := by
    apply Exists.intro
    apply runs_bind (runs_inspect _ now m)
    rw [hm, if_neg (by simp [hup]), if_neg (by simp [hfollower])]
    apply runs_bind (runs_drainPushed_empty hmbuffer now)
    apply runs_bind (runs_inspect _ now m)
    apply runs_bind
    · apply runs_outcome (runs_pullAndApply_error _ (.remote .unauthorized reason) now m)
    · exact .done _ m
  exact ⟨_, runs_bind (runs_change _ now n)
    (runs_iterate_error (hpass { n with phase := .tailing } rfl hbuffer).choose_spec)⟩

/-- A follower fails after it has started up. -/
theorem runs_run_refused (hfollower : n.standing.isMaster = false)
    (hup : n.standing.shutDown = false) (hposition : n.position = 0)
    (hbuffer : n.buffer.drain n.position = (some [], n.buffer)) (reason : String) (now : Instant) :
    ∃ deeds n', run.run.Runs n deeds (some (.error (.remote .unauthorized reason))) n' ∧
      n'.phase = .tailing := by
  obtain ⟨deeds, hosts, hstartup⟩ := runs_startup_follower hfollower hposition now
  have hfollow : ∃ deeds, follow.run.Runs { n with hosts := hosts, phase := .tailing } deeds
      (some (.error (.remote .unauthorized reason))) { n with hosts := hosts, phase := .tailing } := by
    apply Exists.intro
    have hnot : ¬ n.standing.isMaster = true := by simp [hfollower]
    apply runs_bind (runs_inspect _ now _)
    rw [if_neg (by exact hnot)]
    exact (runs_tail_refused (n := { n with hosts := hosts, phase := .tailing }) hfollower hup hbuffer
      reason now).choose_spec
  obtain ⟨_, hfollow⟩ := hfollow
  exact ⟨_, _, runs_bind (runs_outcome hstartup) (runs_bind_error hfollow), rfl⟩

end Running

theorem run_stops_resting :
    ∃ n n' deeds,
      ((Node.start (setupAt "http://a" true none) 0).run.run emptyStore).1 = .ok n ∧
      run.run.Runs n deeds (some (.ok ())) n' ∧
      (passed n deeds).Pairwise (fun m k => m.phase.rank ≤ k.phase.rank) ∧
      (∀ m ∈ passed n deeds, m.phase = .master → m.standing.isMaster = true) ∧
      n'.phase = .stopped := by
  obtain ⟨n, hstart, hopened⟩ := exists_opened (setupAt "http://a" true none) 0
  obtain ⟨deeds, n', hrun⟩ := runs_run_master (n := n) (by rw [hopened.standing]; rfl)
    (by rw [hopened.standing]; rfl) 7
  obtain ⟨hforward, hrightful, hstopped, -⟩ := run_stops hstart hrun
  exact ⟨n, n', deeds, hstart, hrun, hforward, hrightful, hstopped rfl⟩

/-- A coordinator that has ended without stopping. -/
theorem run_ends_tailing :
    ∃ n n' deeds,
      ((Node.start (setupAt "http://b" false (some "http://a")) 0).run.run emptyStore).1 = .ok n ∧
      run.run.Runs n deeds (some (.error (.remote .unauthorized "refused"))) n' ∧
      n'.phase = .tailing := by
  obtain ⟨n, hstart, hopened⟩ := exists_opened (setupAt "http://b" false (some "http://a")) 0
  have hposition : n.position = 0 := UInt64.toNat_inj.mp hopened.holds.position
  obtain ⟨deeds, n', hrun, hphase⟩ := runs_run_refused (n := n) (by rw [hopened.standing]; rfl)
    (by rw [hopened.standing]; rfl) hposition (by rw [hopened.buffer, hposition]; rfl) "refused" 7
  exact ⟨n, n', deeds, hstart, hrun, hphase⟩

end Lifecycle

end LogShipping
