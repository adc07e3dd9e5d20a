import LogShipping.Config
import LogShipping.Proofs.Activity.Streaks

/-!
# Escalation

A follower whose pulls fail in a row probes all hosts and elects a master, as its streaks ask for
(`Lawful`). A probe notes the hosts that answer it, and the node looks at itself before it elects; so an
election always has a winner, the node itself may win it, and so may the hosts that answered the probe
of the same streak, while a host not heard of since the streak began never wins (`Fair`). All of that
holds of every run of tailing (`Lifecycle.tail_escalates`).

The run is cut into sections, each of which is a part of the program that is marked for what it does
(`Proofs.Activity.Marks`), and the law is stated at every cut: what comes next is a matter of the marks
before it alone (`Proofs.Activity.Streaks`). What the host table knows at an election is found by
following one record through the deeds since the probe, in which it stays and only grows.

The cutoff is a reading of the node's own clock. That a probe is not before the first failure of its
streak is so if the clock does not go back in the streak (`le_of_timely`); otherwise the order of events
still holds, but a host that answered the probe may count as not heard of. Which of the hosts heard of
is the better one is not a matter of this module but of `Proofs.Host.Winner`.
-/

namespace LogShipping

open Work Lifecycle Terms

/-! ## Who may win -/

/-- The host table of a node is its own, and each record in it is under the address of its host. -/
structure Node.Formed (n : Node) : Prop where
  own : n.hosts.self = n.url
  keyed : n.hosts.Keyed

/-- A node that is vouched for in some net, as all nodes of a run are, is formed. -/
theorem Net.Vouched.formed {origin : String → Prop} {net : Net} {url : String} {n : Node}
    (h : net.Vouched origin url n) : n.Formed :=
  ⟨h.own.trans h.self.symm, fun url host hhost => (h.hosts url host hhost).1⟩

/-- The thresholds of a configuration that keeps all rules. -/
theorem Config.thresholds_of_validate {c : Config} (h : c.validate = .ok ()) :
    1 ≤ c.setup.settings.hostUpdateThreshold ∧
      c.setup.settings.hostUpdateThreshold < c.setup.settings.electionThreshold := by
  have hnone := validate_eq_ok_iff.mp h
  unfold fault? at hnone
  split_ifs at hnone with _ _ _ _ _ hzero hless
  refine ⟨?_, UInt32.not_le.mp hless⟩
  rw [UInt32.le_iff_toNat_le]
  exact Nat.one_le_iff_ne_zero.mpr fun h => hzero (UInt32.toNat_inj.mp h)

section Fairness

variable {n m : Node} {first second earlier later between : List Section} {s probed : Section}
  {cutoff t : Instant}

theorem failure_of_mem_streak {ms : List Mark} (h : t ∈ streak ms) : .failure t ∈ ms := by
  induction ms using List.reverseRecOn with
  | nil => cases h
  | append_singleton ms mark ih =>
    rw [streak_snoc] at h
    cases mark with
    | failure now =>
      rcases List.mem_append.mp h with h | h
      · exact List.mem_append_left _ (ih h)
      · rw [List.mem_singleton.mp h]
        simp
    | pull | probe | election =>
      unfold Mark.extend at h
      dsimp only at h
      split at h
      · cases h
      · exact List.mem_append_left _ (ih h)

/-- A streak that nothing breaks goes on. -/
theorem streak_append (before : List Mark) {after : List Mark}
    (h : ∀ mark ∈ after, mark.breaks = false) :
    ∃ more, streak (before ++ after) = streak before ++ more := by
  induction after using List.reverseRecOn with
  | nil => exact ⟨[], by simp⟩
  | append_singleton after mark ih =>
    obtain ⟨more, hmore⟩ := ih fun other hother => h other (List.mem_append_left _ hother)
    have hmark := h mark (by simp)
    rw [← List.append_assoc, streak_snoc, hmore]
    cases mark with
    | failure now => exact ⟨more ++ [now], List.append_assoc ..⟩
    | pull | probe | election =>
      refine ⟨more, ?_⟩
      unfold Mark.extend
      dsimp only
      rw [if_neg (by simpa using hmark)]

theorem mem_clocks_of_clock {deeds : List Deed}
    (h : clock.run.Runs n deeds (some (.ok t)) m) : t ∈ clocks deeds := by
  have hsteady : Story.Steady fun _ _ => True := ⟨fun _ _ => trivial, fun _ => trivial⟩
  have hacts : (sure fun _ _ => True).Acts clock (fun _ _ => True) fun t h _ => t ∈ clocks h :=
    Acts.onNode (waits_sure hsteady) fun h m now _ => by simp
  exact hacts [] n deeds _ m trivial h

theorem Told.mem_clocks (h : Told n first m) (ht : .failure t ∈ marks first) :
    t ∈ clocks (deedsOf first) := by
  induction first generalizing n with
  | nil => cases ht
  | cons s first ih =>
    obtain ⟨rfl, hpart, hrest⟩ := h
    rw [deedsOf_cons, clocks_append]
    rw [marks_cons] at ht
    rcases List.mem_append.mp ht with ht | ht
    · rw [Option.mem_toList.mp ht] at hpart
      exact List.mem_append_left _ (mem_clocks_of_clock hpart)
    · exact List.mem_append_right _ (ih hrest ht)

/-- A clock that never goes back reads no less in a later part. -/
theorem le_of_timely (htimely : (clocks (deedsOf (first ++ s :: second))).Pairwise (· ≤ ·))
    {t t' : Instant} (ht : t ∈ clocks (deedsOf first)) (ht' : t' ∈ clocks s.deeds) : t ≤ t' := by
  rw [deedsOf_append, deedsOf_cons, clocks_append, clocks_append] at htimely
  exact (List.pairwise_append.mp htimely).2.2 t ht t' (List.mem_append_left _ ht')

/-- A peer that answered a probe of the streak was heard of then, which is not before the first failure
of the streak. -/
theorem Told.heard_of_probed {master : String} {answers : Option Nat} {peer : String}
    (hleast : 1 ≤ n.settings.hostUpdateThreshold) (htold : Told n (first ++ probed :: between) m)
    (hended : ∀ mark ∈ marks (first ++ probed :: between), mark.Ended)
    (hfollows : (Mark.probe answers).Follows n.settings master (marks first))
    (htimely : (clocks (deedsOf (first ++ probed :: between))).Pairwise (· ≤ ·))
    (hcutoff : (streak (marks (first ++ probed :: between))).head? = some cutoff)
    (hprobed : probed.mark = some (.probe answers))
    (hunbroken : ∀ mark ∈ marks between, mark.breaks = false)
    (hanswered : Answered probed.deeds peer) : probed.after.hosts.Heard cutoff peer := by
  obtain ⟨_, hfirst, rfl, hpart, -⟩ := htold.split
  rw [hprobed] at hpart
  have hmarks : marks (first ++ probed :: between) =
      marks first ++ (.probe answers :: marks between) := by simp [hprobed]
  obtain ⟨count, rfl⟩ : ∃ count, answers = some count :=
    Option.isSome_iff_exists.mp (hended (.probe answers) (by rw [hmarks]; simp))
  obtain ⟨-, t, ht, hheard⟩ := acts_hostUpdate probed.before [] probed.before probed.deeds
    (some (.ok count)) probed.after ⟨.refl _, by simp [Answered]⟩ hpart
  -- the streak was there before the probe, and began with the same failure
  have hunbrokenProbe : ∀ mark ∈ .probe (some count) :: marks between, mark.breaks = false := by
    simpa [Mark.breaks] using hunbroken
  obtain ⟨more, hmore⟩ := streak_append (marks first) hunbrokenProbe
  have hlong := (hfollows.probe.mp ⟨_, rfl⟩).2
  have hfailure : cutoff ∈ streak (marks first) := by
    rw [hmarks, hmore] at hcutoff
    cases hstreak : streak (marks first) with
    | nil =>
      rw [hstreak] at hlong
      rw [UInt32.le_iff_toNat_le, ← hlong] at hleast
      cases hleast
    | cons earliest rest =>
      rw [hstreak] at hcutoff
      cases hcutoff
      exact List.mem_cons_self
  have hclock := hfirst.mem_clocks (failure_of_mem_streak hfailure)
  exact (hheard peer hanswered).mono (le_of_timely htimely hclock ht)

/-- A host is in the table whenever a deed leaves the node. -/
def Stays (url : String) (deeds : List Deed) : Prop :=
  ∀ deed ∈ deeds, ∀ k, deed.left = some k → ∃ host, k.hosts.host? url = some host

/-- An election is won by a host heard of since its cutoff. The node itself may win it, and so may each
peer that answered a probe of the streak and has stayed in the table since. -/
def Fair (url : String) (earlier : List Section) (s : Section) (cutoff : Instant)
    (winner : Option String) : Prop :=
  ∃ waiting now b host, s.deeds = waiting ++ [.work now b s.after] ∧ s.after = (b.elect cutoff).2 ∧
    winner = some host.url ∧ b.hosts.host? host.url = some host ∧ cutoff ≤ host.lastSeen ∧
    b.hosts.Heard cutoff url ∧
    ∀ first probed between answers peer, earlier = first ++ probed :: between →
      probed.mark = some (.probe answers) → (∀ mark ∈ marks between, mark.breaks = false) →
      Answered probed.deeds peer → Stays peer (deedsOf between ++ waiting) → b.hosts.Heard cutoff peer

/-- An election at a node that was heard of since the cutoff is won by a host that was, too. -/
theorem Node.elect_wins {b : Node} {url : String} (hkeyed : b.hosts.Keyed)
    (hown : b.hosts.Heard cutoff url) :
    ∃ host, (b.elect cutoff).1 = some host ∧ b.hosts.host? host.url = some host ∧
      cutoff ≤ host.lastSeen := by
  have hspec := HostTable.winner?_spec hkeyed cutoff
  cases hchosen : b.hosts.winner? cutoff with
  | none =>
    rw [hchosen] at hspec
    obtain ⟨own, hrecord, hseen⟩ := hown
    exact (hspec _ own hrecord hseen).elim
  | some host =>
    rw [hchosen] at hspec
    refine ⟨host, ?_, hspec.1, hspec.2.1⟩
    unfold Node.elect
    rw [hchosen]
    dsimp only
    split <;> rfl

theorem Told.fair {master : String} {winner : Option String}
    (hleast : 1 ≤ n.settings.hostUpdateThreshold) (hformed : n.Formed)
    (htold : Told n (earlier ++ s :: later) m)
    (hlawful : Lawful n.settings master (marks (earlier ++ s :: later)))
    (htimely : (clocks (deedsOf (earlier ++ s :: later))).Pairwise (· ≤ ·))
    (hs : s.mark = some (.election cutoff (some winner))) :
    Fair n.url earlier s cutoff winner := by
  obtain ⟨_, hearlier, rfl, hpart, hlater⟩ := htold.split
  rw [hs] at hpart
  obtain ⟨waiting, now, b, hdeeds, ⟨hkept, t, ht, hheard⟩, hwinner, hafter⟩ :=
    acts_elect s.before cutoff [] s.before s.deeds _ s.after (.refl _) hpart
  rw [List.nil_append] at hdeeds
  -- what happened before the decision
  obtain ⟨_, hwaiting, _, ⟨rfl, -⟩, -⟩ : ∃ k, Leads waiting s.before k ∧
      Leads [.work now b s.after] k s.after := Leads.split (hdeeds ▸ Activity.Runs.leads hpart)
  have hmarks : marks (earlier ++ s :: later) =
      marks earlier ++ (.election cutoff (some winner) :: marks later) := by simp [hs]
  have hfollows := hlawful (marks earlier) _ (marks later) hmarks
  have hcutoff := hfollows.cutoff cutoff _ rfl
  have hclock := hearlier.mem_clocks (failure_of_mem_streak (List.mem_of_head? hcutoff))
  obtain ⟨hkeyedBefore, hselfBefore⟩ := hearlier.leads.grown hearlier.grows
  have hbself : b.hosts.self = n.url := hkept.akin.self.trans (hselfBefore.trans hformed.own)
  have hbkeyed : b.hosts.Keyed := (hwaiting.grown hkept.grows).1 (hkeyedBefore hformed.keyed)
  have hown : b.hosts.Heard cutoff n.url := by
    have ht' : t ∈ clocks s.deeds := by
      rw [hdeeds, clocks_append]
      exact List.mem_append_left _ ht
    rw [← hbself]
    exact hheard.mono (le_of_timely htimely hclock ht')
  obtain ⟨host, helected, hrecord, hseen⟩ := Node.elect_wins hbkeyed hown
  refine ⟨waiting, now, b, host, hdeeds, hafter, by rw [hwinner, helected]; rfl, hrecord, hseen, hown, ?_⟩
  rintro first probed between answers peer rfl hprobed hunbroken hanswered hstays
  obtain ⟨_, hfirst, rfl, -, hbetween⟩ := hearlier.split
  have hfollowsProbe : (Mark.probe answers).Follows n.settings master (marks first) := by
    refine hlawful (marks first) _ (marks between ++ marks (s :: later)) ?_
    simp [hprobed]
  have htimelyEarlier : (clocks (deedsOf (first ++ probed :: between))).Pairwise (· ≤ ·) := by
    rw [deedsOf_append, clocks_append] at htimely
    exact (List.pairwise_append.mp htimely).1
  have hprobedHeard := hearlier.heard_of_probed hleast hfollows.ended hfollowsProbe htimelyEarlier
    hcutoff hprobed hunbroken hanswered
  refine (hbetween.leads.append hwaiting).heard ?_ hprobedHeard hstays
  intro deed hdeed
  rcases List.mem_append.mp hdeed with hdeed | hdeed
  · exact hbetween.grows deed hdeed
  · exact hkept.grows deed hdeed

end Fairness

/-- How failures escalate in a run of tailing that is told in sections. -/
structure Escalates (n : Node) (deeds : List Deed) (r : Option (Except Error TailEnd)) (n' : Node)
    (sections : List Section) : Prop where
  told : Told n sections n'
  deeds_eq : deedsOf sections = deeds
  /-- Each part may follow the parts before it. -/
  lawful : Lawful n.settings n.standing.master (marks sections)
  /-- A run that has ended owes no probe and no election. -/
  quiet : r ≠ none → Quiet n.settings (marks sections)
  fair : ∀ earlier s later cutoff winner, sections = earlier ++ s :: later →
    s.mark = some (.election cutoff (some winner)) → Fair n.url earlier s cutoff winner
  promoted : r = some (.ok .promoted) → n'.standing.isMaster = true
  followed : r ≠ none → r ≠ some (.ok .promoted) →
    n'.standing.master = followed n.standing.master (marks sections)
  heeds : Heeds n.standing.master n'.standing.isMaster n'.standing.master (marks sections)

namespace Lifecycle

/-- Failures escalate while a follower tails, whatever comes back from its peers and whatever else happens
at it. All hosts are probed right after the failure with which a streak comes to the first threshold, an
election is held right after the one with which it comes to the second, and neither happens otherwise;
a run that has ended owes neither. An election looks back to the first failure of its streak, always
has a winner and is fair. Tailing ends in a promotion only if the node is master; else it has followed the
same master or the winner of the last election all along. -/
theorem tail_escalates {n n' : Node} {deeds : List Deed} {r : Option (Except Error TailEnd)}
    (hleast : 1 ≤ n.settings.hostUpdateThreshold)
    (hless : n.settings.hostUpdateThreshold < n.settings.electionThreshold)
    (hformed : n.Formed)
    (htimely : (clocks deeds).Pairwise (· ≤ ·)) (hrun : tail.run.Runs n deeds r n') :
    ∃ sections, Escalates n deeds r n' sections := by
  have hends := acts_tail hformed.own hless [] n deeds r n' (Tails.start n) hrun
  rw [List.nil_append] at hends
  have hfair : ∀ {sections}, Told n sections n' → deedsOf sections = deeds →
      Lawful n.settings n.standing.master (marks sections) →
      ∀ earlier s later cutoff winner, sections = earlier ++ s :: later →
        s.mark = some (.election cutoff (some winner)) → Fair n.url earlier s cutoff winner := by
    rintro _ htold rfl hlawful earlier s later cutoff winner rfl hs
    exact htold.fair hleast hformed hlawful htimely hs
  have hfollower : r ≠ some (.ok .promoted) → Follower n deeds n' →
      ∃ sections, Escalates n deeds r n' sections := by
    rintro hr ⟨isMaster, _, hlawful, hquiet, htails⟩
    obtain ⟨sections, htold, hdeeds, rfl⟩ := htails.told
    exact ⟨sections, htold, hdeeds, hlawful, fun _ => hquiet, hfair htold hdeeds hlawful,
      fun hpromoted => (hr hpromoted).elim, fun _ _ => htails.master, .inr (.inl htails.master)⟩
  rcases r with _ | error | ending
  · obtain ⟨isMaster, master, _, hlawful, hheeds, htails⟩ := hends
    obtain ⟨sections, htold, hdeeds, rfl⟩ := htails.told
    obtain ⟨rfl, rfl⟩ := And.intro htails.isMaster htails.master
    exact ⟨sections, htold, hdeeds, hlawful, fun hnone => (hnone rfl).elim,
      hfair htold hdeeds hlawful, nofun, fun hnone => (hnone rfl).elim, hheeds⟩
  · exact hfollower nofun hends
  · cases ending with
    | shutdown => exact hfollower nofun hends
    | promoted =>
      obtain ⟨master, _, hlawful, hquiet, htails⟩ := hends
      obtain ⟨sections, htold, hdeeds, rfl⟩ := htails.told
      exact ⟨sections, htold, hdeeds, hlawful, fun _ => hquiet, hfair htold hdeeds hlawful,
        fun _ => htails.isMaster, fun _ hother => (hother rfl).elim, .inl htails.isMaster⟩

/-! ### A run with an election -/

section Running

variable {n m : Node} {t : Streak} {deeds : List Deed}

/-- A pull that the master does not answer. -/
theorem runs_pullAndApply_error (master : String) (error : Error) (now : Instant) (n : Node) :
    (pullAndApply master).run.Runs n
      [.work now n n, .work now n n,
        .call master (.readLogRequest n.url n.position n.settings.readLogLimit) (some (.error error))]
      (some (.error error)) n := by
  refine runs_bind (runs_inspect _ now n) ?_
  refine runs_bind_error (runs_bind (runs_inspect _ now n) ?_)
  exact runs_bind_error (runs_call_error master _ error n)

/-- A probe of the only peer. -/
theorem runs_hostUpdate {peer : String} (hpeers : n.hosts.peers = [peer]) (position : LogId)
    (isMaster : Bool) (master : String) (now : Instant) :
    hostUpdate.run.Runs n
      [.work now n n,
        .callAll [peer] .statusRequest (some [.ok (.status peer position isMaster master)]),
        .work now n { n with hosts := n.hosts.observe peer position now }]
      (some (.ok 1)) { n with hosts := n.hosts.observe peer position now } := by
  refine runs_bind (runs_inspect _ now n) ?_
  rw [hpeers]
  refine runs_bind
    (runs_callAll [peer] .statusRequest [.ok (.status peer position isMaster master)] rfl n) ?_
  exact runs_onNode _ now n

theorem runs_elect {cutoff now : Instant} {winner : Host}
    (hwinner : Node.elect cutoff { n with hosts := n.hosts.touchSelf n.position now } =
      (some winner, m)) :
    (elect cutoff).run.Runs n
      [.work now n { n with hosts := n.hosts.touchSelf n.position now },
        .work now { n with hosts := n.hosts.touchSelf n.position now } m]
      (some (.ok (some winner.url))) m := by
  have hrun := runs_onNode (fun _ n => Node.elect cutoff n) now
    { n with hosts := n.hosts.touchSelf n.position now }
  rw [hwinner] at hrun
  refine runs_bind (runs_change _ now n) ?_
  exact runs_bind hrun (runs_pure _ m)

theorem runs_restAfter (interval : Settings → UInt64) (t : Streak) (stopped : Bool) (now : Instant)
    (n : Node) :
    (restAfter interval t).run.Runs n [.work now n n, .pause (interval n.settings) stopped]
      (some (.ok (if stopped then .inr .shutdown else .inl t))) n := by
  refine runs_bind (runs_inspect _ now n) ?_
  exact runs_bind (runs_pause _ stopped n) (runs_pure _ n)

/-- Nothing was pushed that could be applied. -/
theorem runs_drainPushed_empty (hbuffer : n.buffer.drain n.position = (some [], n.buffer)) (now : Instant) :
    drainPushed.run.Runs n [.work now n n] (some (.ok 0)) n := by
  have hdrain := runs_onNode (fun _ n => ((n.buffer.drain n.position).1,
    { n with buffer := (n.buffer.drain n.position).2 })) now n
  rw [hbuffer] at hdrain
  exact runs_bind hdrain (runs_pure 0 n)

/-- A pass with a failed pull. -/
theorem runs_tailPass_error (error : Error) {result : Streak ⊕ TailEnd} (now : Instant)
    (hup : n.standing.shutDown = false) (hfollower : n.standing.isMaster = false)
    (hbuffer : n.buffer.drain n.position = (some [], n.buffer)) (hrecoverable : error.isRecoverable = true)
    (hnote : (noteFailure n.standing.master t).run.Runs n deeds (some (.ok result)) m) :
    (tailPass t).run.Runs n
      (.work now n n :: .work now n n :: .work now n n :: .work now n n :: .work now n n ::
        .call n.standing.master (.readLogRequest n.url n.position n.settings.readLogLimit)
          (some (.error error)) :: deeds) (some (.ok result)) m := by
  refine runs_bind (runs_inspect _ now n) ?_
  rw [if_neg (by simp [hup]), if_neg (by simp [hfollower])]
  refine runs_bind (runs_drainPushed_empty hbuffer now) ?_
  refine runs_bind (runs_inspect _ now n) ?_
  refine runs_bind (runs_outcome (runs_pullAndApply_error n.standing.master error now n)) ?_
  split
  · next heq => cases heq
  · next heq => cases heq; cases hrecoverable
  · next heq =>
    cases heq
    rw [if_pos hrecoverable]
    exact hnote

/-- The first failure, at which the only peer is probed. -/
theorem runs_noteFailure_probe {peer : String} (master : String) (now : Instant) (position : LogId)
    (hprobe : n.settings.hostUpdateThreshold = 1) (helection : n.settings.electionThreshold = 2)
    (hpeers : n.hosts.peers = [peer])
    (hm : m = { n with hosts := n.hosts.observe peer position now }) :
    (noteFailure master {}).run.Runs n
      [.work now n n, .work now n n, .work now n n,
        .callAll [peer] .statusRequest (some [.ok (.status peer position false master)]),
        .work now n m, .work now m m, .pause m.settings.idleInterval false]
      (some (.ok (.inl ⟨1, some now⟩))) m := by
  refine runs_bind (runs_onNode (fun now n => (now, n)) now n) ?_
  refine runs_bind (runs_inspect _ now n) ?_
  have hfirst : ({} : Streak).failures + 1 = n.settings.hostUpdateThreshold := hprobe.symm
  have hbelow : ¬ n.settings.electionThreshold ≤ ({} : Streak).failures + 1 := by
    rw [helection]
    decide
  dsimp only
  rw [if_pos hfirst]
  subst hm
  refine runs_bind (runs_hostUpdate hpeers position false master now) ?_
  rw [if_neg hbelow]
  exact runs_restAfter _ _ false now _

/-- The second failure, at which another host is elected, and the node is told to stop. -/
theorem runs_noteFailure_elect {master : String} {since : Instant} {winner : Host} {n' : Node}
    (now : Instant) (hprobe : n.settings.hostUpdateThreshold = 1)
    (helection : n.settings.electionThreshold = 2)
    (hm : m = { n with hosts := n.hosts.touchSelf n.position now })
    (hwinner : m.elect since = (some winner, m)) (hurl : winner.url ≠ n.url)
    (hmaster : winner.url ≠ master)
    (hn' : n' = { m.restand (·.follow winner.url) with buffer := m.buffer.clear }) :
    (noteFailure master ⟨1, some since⟩).run.Runs n
      [.work now n n, .work now n n, .work now n m, .work now m m, .work now m m, .work now m n',
        .work now n' n', .pause n'.settings.idleInterval true]
      (some (.ok (.inr .shutdown))) n' := by
  refine runs_bind (runs_onNode (fun now n => (now, n)) now n) ?_
  refine runs_bind (runs_inspect _ now n) ?_
  have hsecond : ¬ (1 : UInt32) + 1 = n.settings.hostUpdateThreshold := by
    rw [hprobe]
    decide
  have hreached : n.settings.electionThreshold ≤ (1 : UInt32) + 1 := by
    rw [helection]
    decide
  dsimp only
  rw [if_neg hsecond, if_pos hreached]
  subst hm hn'
  refine runs_bind (runs_elect hwinner) ?_
  refine runs_bind (runs_inspect _ now _) ?_
  split
  · next hown => exact (hurl hown).elim
  · refine runs_bind (runs_change _ now _) ?_
    exact runs_restAfter _ _ true now _

end Running

/-- A follower of a master that it cannot reach, with an empty log. -/
def stranded (phase : Phase) (hosts : HostTable) : Node where
  log := { standing := Standing.start "http://b" false (some "http://a"), counters := {}
           store := { engine := .tree } }
  hosts := hosts
  buffer := PushBuffer.new 4
  queue := PushQueue.new 4
  phase := phase
  settings := ⟨100, 1, 2, 50, 100, 1000⟩
  secret := "wolf"

/-- What it knows: itself, and another host. -/
def knownHosts : HostTable := (HostTable.new "http://b" 0 0).observe "http://c" 7 5

/-- What it knows when the other host has answered a probe and it has looked at itself. -/
def heardHosts : HostTable := (knownHosts.observe "http://c" 7 10).touchSelf 0 12

theorem elect_stranded :
    (stranded .tailing heardHosts).elect 10 =
      (some ⟨"http://c", 7, 10⟩, stranded .tailing heardHosts) := by
  have hchosen : (stranded .tailing heardHosts).hosts.winner? 10 = some ⟨"http://c", 7, 10⟩ := by
    decide +kernel
  unfold Node.elect
  rw [hchosen]
  rfl

theorem runs_tail_stranded :
    ∃ deeds n', tail.run.Runs (stranded .cold knownHosts) deeds (some (.ok .shutdown)) n' ∧
      (clocks deeds).Pairwise (· ≤ ·) ∧ n'.standing.master = "http://c" := by
  have hbuffer : ∀ hosts, (stranded .tailing hosts).buffer.drain (stranded .tailing hosts).position =
      (some [], (stranded .tailing hosts).buffer) := fun hosts => rfl
  have hpeers : knownHosts.peers = ["http://c"] := by decide +kernel
  have hfirst : (tailPass {}).run.Runs (stranded .tailing knownHosts) _ (some (.ok (.inl ⟨1, some 10⟩)))
      (stranded .tailing (knownHosts.observe "http://c" 7 10)) :=
    runs_tailPass_error (.transport "http://a" "refused") 10 rfl rfl (hbuffer _) rfl
      (runs_noteFailure_probe "http://a" 10 7 rfl rfl hpeers rfl)
  have hsecond := runs_tailPass_error (.transport "http://a" "refused") 12 rfl rfl
    (hbuffer (knownHosts.observe "http://c" 7 10)) rfl
    (runs_noteFailure_elect 12 rfl rfl rfl elect_stranded (by decide) (by decide) rfl)
  refine ⟨_, _, runs_bind (runs_change _ 10 _)
    (runs_iterate_next hfirst (runs_iterate_done hsecond)), ?_, rfl⟩
  decide

theorem tail_escalates_stranded :
    ∃ (n n' : Node) (deeds : List Deed) (sections : List Section),
      1 ≤ n.settings.hostUpdateThreshold ∧
      n.settings.hostUpdateThreshold < n.settings.electionThreshold ∧ n.Formed ∧
      (clocks deeds).Pairwise (· ≤ ·) ∧ tail.run.Runs n deeds (some (.ok .shutdown)) n' ∧
      n'.standing.master ≠ n.standing.master ∧
      Escalates n deeds (some (.ok .shutdown)) n' sections := by
  obtain ⟨deeds, n', hrun, htimely, hmaster⟩ := runs_tail_stranded
  have hformed : (stranded .cold knownHosts).Formed := by
    refine ⟨rfl, (HostTable.gains_observe _ _ _ _).keyed ?_⟩
    exact HostTable.keyed_new "http://b" 0 0
  obtain ⟨sections, hsections⟩ :=
    tail_escalates (by decide) (by decide) hformed htimely hrun
  refine ⟨_, n', deeds, sections, by decide, by decide, hformed, htimely, hrun, ?_, hsections⟩
  rw [hmaster]
  decide

end Lifecycle

end LogShipping
