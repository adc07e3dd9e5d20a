import LogShipping.Proofs.World.Tailing

/-!
# Starting up behind a master

A node that is left to itself may be anywhere in its life: it starts up behind the former master, has
turned to it in its startup, tails, or has just taken over. Each of these is a stage of its activity
(`Stage`), from which it goes on in an orderly way (`sound_stage`).

The startup itself moves a position only by pulling from the master that the node is configured with,
which is the former one here, and it turns to another one at most once. So the node is eligible when it
turns, as it is after a failed pull. Nothing is said of a node that starts up behind another one of the
remaining nodes: it may get beyond where it got by following the former master, and is then sent on to a
node that has less.
-/

namespace LogShipping

open Std

namespace Lifecycle

open Work

/-- What a node does after its startup. -/
def settle (started : Except Error Unit) : Work Unit := do
  match started with
  | .error .cancelled => enter .stopped
  | .error error =>
    enter .stopped
    throw error
  | .ok () =>
    match ← follow with
    | .shutdown => enter .stopped
    | .promoted =>
      masterLoop
      enter .stopped

theorem run_eq : run = outcome startup >>= settle := rfl

/-- What is left of the life of a node that has turned to a master in its startup. -/
def join (master : String) : Work Unit := do
  settle (← outcome do
    compareLog master
    register master
    enter .tailing)

end Lifecycle

namespace Succession

open Discipline Lifecycle

variable {S : Succession} {url : String} {u v w : Net} {still : Prop}

/-! ## Startup -/

/-- A read changes neither the log nor the standing. -/
theorem calm_read {α : Type} {work : Access α}
    (hwork : ∀ s, Ensures work s fun _ t => s.Aged t) :
    S.Calm still url (Work.onLog (Log.onStore work)) (fun _ _ => True) u := by
  apply Keeps.onLog
  intro v n huv hn
  have hstep : S.Step still v url n (n.onLog (Log.onStore work)).2 :=
    Step.of_frame rfl rfl rfl (hwork n.log.store).2.2 fun _ _ h => Or.inl h
  refine ⟨fun hordered _ => hordered.step hn hstep, ?_⟩
  exact fun w hw => ⟨(after_of_rely huv).trans (after_put hn hstep hw).1, trivial⟩

theorem calm_askEntry {peer : String} {id : LogId} :
    S.Calm still url (Work.askEntry peer id) (fun _ _ => True) u := by
  unfold Work.askEntry
  refine Calm.bind (Calm.call (R := fun _ _ => True) (fun _ _ => trivial)
    fun _ _ _ _ _ _ _ => trivial) ?_ fun _ _ _ _ => trivial
  intro v reply _ _
  split
  · exact Calm.pure fun _ _ => trivial
  · exact Calm.fail fun _ _ => trivial

/-- Who answers for its status is there. -/
theorem calm_askStatus {peer : String} :
    S.Calm still url (Work.askStatus peer)
      (fun r v => ∀ told, r = .ok told → ∃ m, v.node? peer = some m) u := by
  unfold Work.askStatus
  refine Calm.bind (Calm.call (R := fun r v => ∀ reply, r = .ok reply → ∃ m, v.node? peer = some m)
    (fun _ _ => trivial) ?_) ?_ fun _ _ _ _ => nofun
  · intro v reply _ hhonest _ w hvw reply' hreply'
    obtain ⟨m, hm, -⟩ := ((hhonest.expect reply' hreply').1).climbs hvw.1.climbs
    exact ⟨m, hm⟩
  · intro v reply _ hthere
    obtain ⟨m, hm⟩ := hthere reply rfl
    split
    · refine Calm.seq Calm.note fun w _ hvw _ => Calm.pure fun x hwx _ _ => ?_
      obtain ⟨m', hm', -⟩ := (hvw.trans hwx).1.climbs peer m hm
      exact ⟨m', hm'⟩
    · exact Calm.fail fun _ _ => nofun

theorem calm_compareLog {peer : String} :
    S.Calm still url (compareLog peer) (fun _ _ => True) u := by
  unfold compareLog
  refine Calm.seq Calm.look fun v id _ _ => ?_
  dsimp only
  split
  · refine Calm.bind (calm_read fun _ => Log.aged_readOne id) ?_ fun _ _ _ _ => trivial
    intro w mine _ _
    split
    · exact Calm.fail fun _ _ => trivial
    · refine Calm.bind calm_askEntry ?_ fun _ _ _ _ => trivial
      intro x theirs _ _
      split
      · exact Calm.fail fun _ _ => trivial
      · exact Calm.pure fun _ _ => trivial
  · exact Calm.pure fun _ _ => trivial

/-- From the former master nothing is pulled that would have to be accounted for. -/
theorem calm_catchUpOnce (hurl : S.remaining url) (hfollows : Follows url S.former u) :
    S.Calm False url (catchUpOnce S.former) (fun _ _ => True) u := by
  have hnone : ¬ S.remaining S.former := fun h => S.apart S.former h rfl
  have hrest (before : LogId) (chunk : Chunk) (x : Net) : S.Calm False url (do
      let after ← Work.inspect (·.position)
      if chunk.isCurrent && chunk.currid ≤ after then return .inr ()
      if after = before then throw (.consistency (.noProgress S.former before chunk.currid))
      return .inl () : Work (Unit ⊕ Unit)) (fun _ _ => True) x := by
    refine Calm.seq Calm.look fun y after _ _ => ?_
    split
    · exact Calm.pure fun _ _ => trivial
    · split
      · exact Calm.fail fun _ _ => trivial
      · exact Calm.pure fun _ _ => trivial
  unfold catchUpOnce
  refine Calm.seq Calm.look fun v before huv _ => ?_
  refine Calm.bind (calm_pull (hfollows.after huv) fun h => absurd h hnone).relax ?_
    fun _ _ _ _ => trivial
  intro w chunk hvw _
  dsimp only
  split
  · refine Calm.bind (calm_apply hurl (hfollows.after (huv.trans hvw)) fun h => absurd h hnone) ?_
      fun _ _ _ _ => trivial
    exact fun x _ _ _ => hrest before chunk x
  · exact hrest before chunk w

theorem calm_catchUp (hurl : S.remaining url) (hfollows : Follows url S.former u) :
    S.Calm False url (catchUp S.former) (fun _ _ => True) u := by
  refine Keeps.iterate (fun _ v => S.After False url u v) (fun _ huv => after_of_rely huv) ?_
  intro t v huv
  refine Keeps.mono (calm_catchUpOnce hurl (hfollows.after huv)) ?_
  rintro r w ⟨hvw, -⟩
  match r with
  | .ok (.inl next) => exact huv.trans hvw
  | .ok (.inr result) => exact ⟨huv.trans hvw, trivial⟩
  | .error error => exact ⟨huv.trans hvw, trivial⟩

/-- Whoever turns out to be master is there. -/
theorem calm_confirmMaster {peer : String} :
    S.Calm still url (confirmMaster peer)
      (fun r v => ∀ master, r = .ok master → ∃ m, v.node? master = some m) u := by
  have later {name : String} {v x : Net} (h : ∃ m, v.node? name = some m)
      (hvx : S.After still url v x) : ∃ m, x.node? name = some m := by
    obtain ⟨m, hm⟩ := h
    obtain ⟨m', hm', -⟩ := hvx.1.climbs name m hm
    exact ⟨m', hm'⟩
  unfold confirmMaster
  refine Calm.bind calm_askStatus ?_ fun _ _ _ _ => nofun
  rintro v ⟨isMaster, named⟩ _ hthere
  dsimp only
  split
  · refine Calm.pure fun w hvw master hmaster => ?_
    cases hmaster
    exact later (hthere _ rfl) hvw
  · split
    · exact Calm.fail fun _ _ => nofun
    · refine Calm.bind calm_askStatus ?_ fun _ _ _ _ => nofun
      rintro w ⟨namedIsMaster, _⟩ _ hnamed
      split
      · refine Calm.pure fun x hwx master hmaster => ?_
        cases hmaster
        exact later (hnamed _ rfl) hwx
      · exact Calm.fail fun _ _ => nofun

theorem calm_register {master : String} :
    S.Calm still url (register master) (fun _ _ => True) u := by
  unfold register
  refine Calm.seq Calm.look fun v told _ _ => ?_
  refine Calm.bind (Calm.call (R := fun _ _ => True) (fun _ _ => trivial)
    fun _ _ _ _ _ _ _ => trivial) ?_ fun _ _ _ _ => trivial
  intro w reply _ _
  split
  · refine Keeps.mono Calm.note fun r x hr => ⟨hr.1, trivial⟩
  · exact Calm.fail fun _ _ => trivial

/-- A node registers, and begins to tail. -/
theorem calm_enlist {master : String} :
    S.Calm still url (do register master; Work.enter .tailing) (fun _ _ => True) u := by
  refine Calm.bind calm_register ?_ fun _ _ _ _ => trivial
  exact fun v _ _ _ => Keeps.mono (Calm.enter _) fun r x hr => ⟨hr.1, trivial⟩

theorem keeps_startFollower (hurl : S.remaining url) (hfollows : Follows url S.former u) :
    S.discipline.Keeps url startFollower (fun _ _ => True) u := by
  unfold startFollower
  have hcold : S.Calm True url (Work.enter .cold) (Gives fun _ _ => True) u := Calm.enter _
  refine Calm.next hcold ?_ fun _ _ _ hr => hr.elim
  intro v _ huv _
  have hmaster : S.Calm True url (Work.inspect (·.standing.master))
      (Gives fun _ master => master = S.former) v := by
    apply Calm.inspect
    intro w n hvw hn _ _
    obtain ⟨n', hn', -, hsame⟩ := (hfollows.after huv).after hvw
    rw [hn] at hn'
    cases hn'
    exact hsame
  refine Calm.next hmaster ?_ fun _ _ _ hr => hr.elim
  rintro w _ hvw rfl
  have hthere := hfollows.after (huv.trans hvw)
  have hcompare : S.Calm True url (compareLog S.former) (fun _ _ => True) w := calm_compareLog
  refine Calm.next hcompare ?_ fun _ _ _ _ => trivial
  intro x _ hwx _
  have hcatchup : S.Calm True url (Work.enter .catchup) (Gives fun _ _ => True) x := Calm.enter _
  refine Calm.next hcatchup ?_ fun _ _ _ hr => hr.elim
  intro y _ hxy _
  have hthere := hthere.after (hwx.trans hxy)
  refine Calm.next (calm_catchUp hurl hthere) ?_ fun _ _ _ _ => trivial
  intro z _ hyz _
  have hthere := hthere.after hyz
  have hconfirm : S.Calm True url (confirmMaster S.former)
      (fun r v => ∀ master, r = .ok master → ∃ m, v.node? master = some m) z := calm_confirmMaster
  refine Calm.next hconfirm ?_ fun _ _ _ _ => trivial
  intro a master hza hmaster
  obtain ⟨n, hn, hfollower, hformer⟩ := hthere.after hza
  split
  · -- the node turns to the master that it was told of
    refine Keeps.bind (Keeps.mono (keeps_retarget hurl ⟨n, hn, hfollower, Or.inl hformer⟩
      (hmaster master rfl)) ?_)
    rintro r b -
    cases r with
    | error error => trivial
    | ok _ =>
      have hcompare : S.Calm True url (compareLog master) (fun _ _ => True) b := calm_compareLog
      refine Calm.next hcompare ?_ fun _ _ _ _ => trivial
      exact fun c _ _ _ => Calm.keeps calm_enlist
  · exact Calm.keeps calm_enlist

theorem keeps_startup (hurl : S.remaining url) (hfollows : Follows url S.former u) :
    S.discipline.Keeps url startup (fun _ _ => True) u := by
  unfold startup
  have htouch : S.Calm True url touchSelf (Gives fun _ _ => True) u := calm_touchSelf
  refine Calm.next htouch ?_ fun _ _ _ hr => hr.elim
  intro v _ huv _
  have hrole : S.Calm True url (Work.inspect (·.standing.isMaster)) (Gives fun _ _ => True) v :=
    Calm.look
  refine Calm.next hrole ?_ fun _ _ _ hr => hr.elim
  intro w isMaster hvw _
  split
  · exact keeps_enter _
  · exact keeps_startFollower hurl (hfollows.after (huv.trans hvw))

/-! ## Stages -/

theorem keeps_settle (hurl : S.remaining url) (started : Except Error Unit) :
    S.discipline.Keeps url (settle started) (fun _ _ => True) u := by
  unfold settle
  split
  · exact keeps_enter _
  · have hstop : S.Calm True url (Work.enter .stopped) (Gives fun _ _ => True) u := Calm.enter _
    refine Calm.next hstop ?_ fun _ _ _ hr => hr.elim
    exact fun v _ _ _ => Keeps.fail fun _ _ => trivial
  · have hfollow : S.discipline.Keeps url follow (fun _ _ => True) u := by
      unfold follow
      have hrole : S.Calm True url (Work.inspect (·.standing.isMaster)) (Gives fun _ _ => True) u :=
        Calm.look
      refine Calm.next hrole ?_ fun _ _ _ hr => hr.elim
      intro v isMaster _ _
      split
      · exact Keeps.pure fun _ _ => trivial
      · exact keeps_tail hurl
    refine Keeps.bind (Keeps.mono hfollow ?_)
    rintro r v -
    cases r with
    | error error => trivial
    | ok ending =>
      cases ending with
      | shutdown => exact keeps_enter _
      | promoted =>
        refine Keeps.bind (Keeps.mono keeps_masterLoop ?_)
        rintro r w -
        cases r with
        | error error => trivial
        | ok _ => exact keeps_enter _

/-- The stages of a node's life at which it may be left to itself. -/
inductive Stage (former : String) : Activity Node PUnit → Prop where
  /-- It is about to start up. -/
  | run : Stage former Job.run.activity
  /-- It has turned to the former master in its startup. -/
  | join : Stage former (Lifecycle.join former).finish
  /-- It is about to tail. -/
  | tail : Stage former Job.tail.activity
  /-- It is between two passes of tailing, in the middle of whatever streak. -/
  | goOn (streak : Streak) : Stage former (Job.goOn streak).activity

theorem sound_finish {α : Type} {work : Work α}
    (h : S.discipline.Keeps url work (fun _ _ => True) u) :
    S.discipline.Sound url work.finish (fun _ _ => True) u :=
  Sound.bind h fun _ _ _ => fun _ _ => trivial

/-- A node that follows the former master goes on in an orderly way from every stage. -/
theorem sound_stage (hurl : S.remaining url) (hfollows : Follows url S.former u)
    {activity : Activity Node PUnit} (h : Stage S.former activity) :
    S.discipline.Sound url activity (fun _ _ => True) u := by
  cases h with
  | run =>
    refine sound_finish (run_eq ▸ Keeps.bind (Keeps.outcome ?_))
    exact Keeps.mono (keeps_startup hurl hfollows) fun r v _ => keeps_settle hurl r
  | join =>
    refine sound_finish (Keeps.bind (Keeps.outcome ?_))
    have hcompare : S.Calm True url (compareLog S.former) (fun _ _ => True) u := calm_compareLog
    refine Calm.next hcompare ?_ fun v error _ _ => keeps_settle hurl _
    intro v _ _ _
    have henlist : S.Calm True url (do register S.former; Work.enter .tailing) (fun _ _ => True) v :=
      calm_enlist
    exact Keeps.mono henlist fun r w _ => keeps_settle hurl r
  | tail => exact sound_finish (keeps_tail hurl)
  | goOn streak => exact sound_finish (keeps_goOn hurl streak)

end Succession

end LogShipping
