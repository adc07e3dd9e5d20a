import LogShipping.Proofs.Host.Notes
import LogShipping.Proofs.Host.Winner
import LogShipping.Proofs.World.Calm

/-!
# Tailing without a master

The lifecycle of a node that was left to itself, from a pass of tailing on and with whatever streak of
failures. It comes to an election only after a failed pull. One of the remaining nodes refuses a pull only
if the node that pulls is ahead of it, and a node that has gone beyond where it got as a follower of the
former master has done so with entries of the node that it follows now, so it is not ahead of that one.
Hence a node that elects still follows the former master, or has not gone beyond where it has got by
following it (`Eligible`), and nothing moves it between the pull and the election. If it wins, and if its
table knows how far the champion gets, it is the champion itself (`eq_champion`, `keeps_elect`). If
another node wins, it may follow that one, whether this one has got as far or not.

Nothing is said here of probes and cutoffs: that the table knows as much is a hypothesis
(`Succession.Informed`).
-/

namespace LogShipping

open Std

namespace Succession

open Discipline Lifecycle

variable {S : Succession} {url : String} {u v w : Net} {still : Prop}

/-! ## Pulling and applying -/

/-- Entries are applied that do not go beyond the node that is followed, or the former master is. What
fails is the consistency of the entries, if it is not the former master that is followed. -/
theorem calm_apply (hurl : S.remaining url) {entries : List Entry} {master : String}
    (hfollows : Follows url master u)
    (hentries : S.remaining master → ∀ e ∈ entries, u.Reached master e.id) :
    S.Calm False url (Work.onLog (Log.applyReplicated entries)) (fun r v => ∀ error,
      r = .error error → error.isConsistency = true ∨ Follows url S.former v) u := by
  apply Keeps.onLog
  intro v n huv hn
  have hafter : S.After False url u v := after_of_rely huv
  obtain ⟨new, hsub, htook, hmaster, hr⟩ := @Log.ensures_applyReplicated n.log entries
  have hstep : S.Step False v url n (n.onLog (Log.applyReplicated entries)).2 := {
    isMaster := congrArg Standing.isMaster htook.standing
    master := congrArg Standing.master htook.standing
    position := False.elim
    climbs := by
      have := htook.position
      rw [UInt64.le_iff_toNat_le]
      show n.log.position.toNat ≤ ((Log.applyReplicated entries).run.run n.log).2.position.toNat
      omega
    answers := fun call hcall => htook.answers call hcall
    -- the last entry that was applied is one that the node followed has
    trails := by
      intro _ htrails
      have hsame : (n.onLog (Log.applyReplicated entries)).2.standing.master = n.standing.master :=
        congrArg Standing.master htook.standing
      obtain ⟨m, hm, -, rfl⟩ := hfollows.after hafter
      rw [hn] at hm
      cases hm
      refine ⟨by rw [hsame]; exact htrails.remaining, ?_, by rw [hsame]; exact htrails.buffer⟩
      rw [hsame, Node.position]
      rcases htook.position_eq with hposition | ⟨e, he, hposition⟩
      · rw [show (n.onLog (Log.applyReplicated entries)).2.log.position = _ from hposition]
        exact htrails.position
      · rw [show (n.onLog (Log.applyReplicated entries)).2.log.position = _ from hposition]
        exact Or.inr ((hentries htrails.remaining e (hsub.subset he)).climbs huv.1.climbs) }
  refine ⟨fun hordered _ => hordered.step hn hstep, ?_⟩
  intro w hw
  have hall := (after_put hn hstep hw).1
  refine ⟨hafter.trans hall, ?_⟩
  intro error herror
  rcases hr with hr | ⟨error', hr, hconsistency⟩ | ⟨hnot, -⟩
  · change (n.onLog (Log.applyReplicated entries)).1 = .ok _ at hr
    rw [hr] at herror
    cases herror
  · change (n.onLog (Log.applyReplicated entries)).1 = .error error' at hr
    rw [hr] at herror
    cases herror
    exact Or.inl hconsistency
  · right
    by_contra hleft
    have hordered := huv.1.ordered fun hformer => hleft (hformer.after hall)
    exact hnot ((hordered.member url n hurl hn).answers .writeBatch)

/-- One of the remaining nodes answers a pull, unless it is asked for more than it has. -/
theorem calm_pull {peer : String} {lastSeen : LogId} (hfollows : Follows url peer u)
    (h : S.remaining peer → u.Reached peer lastSeen ∨ lastSeen ≤ S.final url) :
    S.Calm True url (Work.pull peer lastSeen) (fun r v =>
      (∀ error, r = .error error → S.remaining peer → lastSeen ≤ S.final url) ∧
      ∀ chunk, r = .ok chunk → ∀ e ∈ chunk.entries, v.Reached peer e.id) u := by
  unfold Work.pull
  refine Calm.seq Calm.look ?_
  rintro v ⟨self, limit⟩ huv -
  have hcall : S.Calm True url (Work.call peer (.readLogRequest self lastSeen limit)) (fun r w =>
      (∀ error, r = .error error → S.remaining peer → lastSeen ≤ S.final url) ∧
      ∀ reply, r = .ok reply → w.Own peer reply ∧ (S.remaining peer →
        (∃ url lastSeen limit chunk, reply = .readLog url lastSeen limit chunk) ∨
          lastSeen ≤ S.final url)) v := by
    apply Calm.call
    · intro w hvw hpeer
      exact (h hpeer).imp_left fun hreached => hreached.climbs (huv.trans hvw).1.climbs
    · intro w reply hvw hhonest htold x hwx
      -- who follows a remaining node does not follow the former master
      have hpage (hpeer : S.remaining peer) : S.Told url (.readLogRequest self lastSeen limit) reply := by
        refine (htold hpeer).resolve_left ?_
        rintro ⟨n, hn, -, hformer⟩
        obtain ⟨m, hm, -, hmaster⟩ := hfollows.after (huv.trans hvw)
        rw [hn] at hm
        cases hm
        exact S.apart peer hpeer (hmaster.symm.trans hformer)
      constructor
      · intro error herror hpeer
        rcases hpage hpeer with ⟨_, _, _, _, rfl⟩ | hle
        · cases herror
        · exact hle
      · intro reply' hreply'
        refine ⟨(hhonest.expect reply' hreply').2.2.climbs hwx.1.climbs, fun hpeer => ?_⟩
        rcases hpage hpeer with ⟨_, _, _, chunk, rfl⟩ | hle
        · cases hreply'
          exact Or.inl ⟨_, _, _, chunk, rfl⟩
        · exact Or.inr hle
  refine Calm.bind hcall ?_ ?_
  · rintro w reply hvw ⟨-, hreply⟩
    obtain ⟨hown, hpage⟩ := hreply reply rfl
    split
    · next chunk =>
      refine Calm.seq Calm.note ?_
      intro x _ hwx _
      refine Calm.pure fun y hxy => ⟨fun error herror => (nomatch herror), ?_⟩
      intro chunk' hchunk' e he
      cases hchunk'
      exact (hown.1.mono (hown.2 e he)).climbs (hwx.trans hxy).1.climbs
    · next other hother =>
      refine Calm.fail fun x _ => ⟨fun _ _ hpeer => ?_, fun chunk hchunk => nomatch hchunk⟩
      rcases hpage hpeer with ⟨_, _, _, chunk, rfl⟩ | hle
      · exact absurd rfl (hother _ _ _ chunk)
      · exact hle
  · rintro w error _ ⟨herror, -⟩
    exact ⟨fun _ _ => herror error rfl, fun chunk hchunk => nomatch hchunk⟩

/-- What a node drains does not go beyond the one that it follows. -/
theorem calm_drainPushed (hurl : S.remaining url) {master : String}
    (hfollows : Follows url master u) :
    S.Calm False url drainPushed (fun _ _ => True) u := by
  unfold drainPushed
  have hready : S.Calm False url (Work.onNode fun _ n =>
      ((n.buffer.drain n.position).1, { n with buffer := (n.buffer.drain n.position).2 }))
        (Gives fun v drained => ∀ ready, drained = some ready → S.remaining master →
          ∀ e ∈ ready, v.Reached master e.id) u := by
    apply Calm.onNode
    intro v n huv hn
    refine ⟨Step.of_log rfl fun id e he => PushBuffer.of_mem_drain he, ?_⟩
    intro w hvw ready hready hmaster e he
    obtain ⟨n', hn', hfollower, rfl⟩ := hfollows.after huv
    rw [hn] at hn'
    cases hn'
    obtain ⟨id, hid⟩ := PushBuffer.of_mem_ready (PushBuffer.eq_ready_of_drain hready ▸ he)
    exact ((huv.1.trails hurl hn hfollower hmaster).buffer id e hid).climbs hvw.1.climbs
  refine Calm.seq hready ?_
  intro v drained huv hreached
  cases drained with
  | none => exact Calm.fail fun _ _ => trivial
  | some ready =>
    dsimp only
    split
    · exact Calm.pure fun _ _ => trivial
    · refine Calm.seq (Calm.outcome (calm_apply hurl (hfollows.after huv) (hreached ready rfl))) ?_
      intro w r _ _
      split
      · exact Calm.pure fun _ _ => trivial
      · split
        · exact Calm.pure fun _ _ => trivial
        · exact Calm.fail fun _ _ => trivial

/-! ## Failed pulls -/

variable (S) in
/-- The node follows the former master, or has not gone beyond where it has got by following it. -/
def Eligible (url : String) (net : Net) : Prop :=
  ∃ n, net.node? url = some n ∧ n.standing.isMaster = false ∧
    (n.standing.master = S.former ∨ n.position ≤ S.final url)

theorem Eligible.after (h : S.Eligible url u) (huv : S.After True url u v) : S.Eligible url v := by
  obtain ⟨n, hn, hfollower, hbound⟩ := h
  obtain ⟨n', hn', hsteady⟩ := huv.2 n hn
  refine ⟨n', hn', hsteady.isMaster.trans hfollower, ?_⟩
  rw [hsteady.master, hsteady.position trivial hfollower]
  exact hbound

/-- In an ordered net a node that is eligible has not gone beyond where it gets. -/
theorem Eligible.position_le (h : S.Eligible url u) (hu : S.Ordered u) (hurl : S.remaining url)
    {n : Node} (hn : u.node? url = some n) :
    n.standing.isMaster = false ∧ n.position ≤ S.final url := by
  obtain ⟨m, hm, hfollower, hbound⟩ := h
  rw [hn] at hm
  cases hm
  exact ⟨hfollower, hbound.elim (hu.within url n hurl hn hfollower) id⟩

/-- A node whose pull fails is eligible. -/
theorem calm_pullAndApply (hurl : S.remaining url) {master : String}
    (hfollows : Follows url master u)
    (htarget : master = S.former ∨ S.remaining master) :
    S.Calm False url (pullAndApply master)
      (fun r v => ∀ error, r = .error error → S.Eligible url v) u := by
  unfold pullAndApply
  have hposition : S.Calm True url (Work.inspect (·.position)) (Gives fun v p =>
      (S.remaining master → v.Reached master p ∨ p ≤ S.final url) ∧ ∃ n, v.node? url = some n ∧
        n.standing.isMaster = false ∧ n.standing.master = master ∧ n.position = p) u := by
    apply Calm.inspect
    intro v n huv hn w hvw
    obtain ⟨n', hn', hfollower, rfl⟩ := hfollows.after huv
    rw [hn] at hn'
    cases hn'
    constructor
    · intro hmaster
      rcases (huv.1.trails hurl hn hfollower hmaster).position with hle | hreached
      · exact Or.inr hle
      · exact Or.inl (hreached.climbs hvw.1.climbs)
    · obtain ⟨n', hn', hsteady⟩ := hvw.2 n hn
      exact ⟨n', hn', hsteady.isMaster.trans hfollower, hsteady.master,
        hsteady.position trivial hfollower⟩
  have hrest : ∀ before (x : Net), S.Calm False url (do return (← Work.inspect (·.position)) - before)
      (fun r v => ∀ error, r = .error error → S.Eligible url v) x := by
    intro before x
    refine Calm.seq Calm.look fun y after _ _ => ?_
    exact Calm.pure fun _ _ => nofun
  refine Calm.next_still hposition ?_ fun _ _ _ hr => hr.elim
  rintro v before huv ⟨hbefore, n, hn, hfollower, hmaster, rfl⟩
  refine Calm.next_still (calm_pull ⟨n, hn, hfollower, hmaster⟩ hbefore) ?_ ?_
  · rintro w chunk hvw ⟨-, hchunk⟩
    dsimp only
    split
    · refine Calm.seq (Calm.outcome
        (calm_apply hurl (hfollows.after (huv.trans hvw)) fun _ => hchunk chunk rfl)) ?_
      intro x r hwx hr
      split
      · exact hrest n.position x
      · next error =>
        split
        · -- the store fails, so it is the former master that is followed
          next hstorage =>
          refine Calm.fail fun y hxy _ _ => ?_
          have hformer := (hr error rfl).resolve_left (by simpa using hstorage)
          obtain ⟨m, hm, hfollower, hformer⟩ := hformer.after hxy
          exact ⟨m, hm, hfollower, Or.inl hformer⟩
        · exact hrest n.position x
    · exact hrest n.position w
  · rintro w error hvw ⟨hrefused, -⟩ _ _
    refine Eligible.after ⟨n, hn, hfollower, ?_⟩ hvw
    rcases htarget with rfl | hremaining
    · exact Or.inl hmaster
    · exact Or.inr (hrefused error rfl hremaining)

/-! ## Electing -/

/-- An eligible node that wins in a table that knows how far the champion gets is the champion. -/
theorem eq_champion (hu : u.Good anywhere) (hurl : S.remaining url) {n : Node}
    (hn : u.node? url = some n) (hbound : n.position ≤ S.final url) {cutoff : Instant}
    {winner c : Host} (hwinner : n.hosts.winner? cutoff = some winner) (hself : winner.url = url)
    (hc : n.hosts.host? S.champion = some c) (hseen : cutoff ≤ c.lastSeen)
    (hfinal : S.final S.champion ≤ c.logPosition) : url = S.champion := by
  have hvouched := hu url n hn
  have hspec := HostTable.winner?_spec (fun key host hhost => (hvouched.hosts key host hhost).1) cutoff
  rw [hwinner] at hspec
  obtain ⟨hown, -, hbeats⟩ := hspec
  rw [hself] at hown
  have hkey : c.url = S.champion := (hvouched.hosts S.champion c hc).1
  obtain ⟨hle, htie⟩ := hbeats S.champion c hc hseen
  obtain ⟨m, hm, hreached⟩ := (hvouched.hosts url winner hown).2
  rw [hn] at hm
  cases hm
  obtain ⟨hleads, hfirst⟩ := S.leads url hurl
  -- the two are equal, as each of them is no less than the other
  have hround : S.final S.champion ≤ S.final url :=
    UInt64.le_trans hfinal (UInt64.le_trans hle (UInt64.le_trans hreached hbound))
  have heq : S.final url = S.final S.champion := UInt64.le_antisymm hleads hround
  have hsame : c.logPosition = winner.logPosition := by
    refine UInt64.le_antisymm hle (UInt64.le_trans hreached (UInt64.le_trans hbound ?_))
    exact UInt64.le_trans hleads hfinal
  have hback := htie hsame
  rw [hself, hkey] at hback
  exact LawfulEqCmp.eq_of_compare (OrientedCmp.isLE_antisymm hback (hfirst heq))

theorem calm_touchSelf : S.Calm still url touchSelf (Gives fun _ _ => True) u := Calm.note

/-- Who wins an election is known, and if it is not the node itself, nothing else has changed. -/
theorem keeps_elect (hurl : S.remaining url) {cutoff : Instant} (heligible : S.Eligible url u) :
    S.discipline.Keeps url (elect cutoff) (fun r v => ∃ elected, r = .ok elected ∧
      ∀ winner, elected = some winner → winner ≠ url →
        S.Eligible url v ∧ ∃ m, v.node? winner = some m) u := by
  unfold elect
  have htouch : S.Calm True url touchSelf (Gives fun _ _ => True) u := calm_touchSelf
  refine Calm.next htouch ?_ fun _ _ _ hr => hr.elim
  intro v _ huv _
  refine Keeps.bind (Keeps.onNode ?_)
  intro x n hvx hn
  have hthere : S.Eligible url x := (heligible.after huv).after (after_of_rely hvx)
  have hsame : S.discipline.acts url x (x.put url n) := by
    rw [Net.put_node? hn]
    exact fun hordered _ => hordered.toOrderly
  have hvouched := hvx.1.good url n hn
  unfold Node.elect
  cases hwinner : n.hosts.winner? cutoff with
  | none => exact ⟨hsame, fun y hy => Keeps.pure fun z hz => ⟨none, rfl, nofun⟩⟩
  | some winner =>
    dsimp only
    split
    · next hpromotes =>
      have hself : winner.url = url := hpromotes.1.trans hvouched.own
      refine ⟨?_, ?_⟩
      · intro hordered hinformed
        obtain ⟨hfollower, hbound⟩ := hthere.position_le hordered hurl hn
        have hmember := hordered.member url n hurl hn
        refine hordered.put hn (UInt64.le_refl _) fun _ => ⟨hmember.answers, fun _ => ?_, nofun⟩
        by_contra hother
        obtain ⟨cutoff', winner', c, hwinner', hself', hc, hseen, hfinal⟩ :=
          hinformed hother n n.promote hn ((Net.node?_put ..).trans (if_pos rfl)) hfollower rfl
        exact hother (eq_champion hvx.1.good hurl hn hbound hwinner' hself' hc hseen hfinal)
      · intro y hy
        refine Keeps.pure fun z hz => ⟨some winner.url, rfl, ?_⟩
        intro name hname hother
        cases hname
        exact absurd hself hother
    · next hstill =>
      refine ⟨hsame, ?_⟩
      intro y hy
      rw [Net.put_node? hn] at hy
      refine Keeps.pure fun z hz => ⟨some winner.url, rfl, ?_⟩
      intro name hname _
      cases hname
      -- the winner is in the table, and whoever is in a table is there
      have hspec := HostTable.winner?_spec
        (fun key host hhost => (hvouched.hosts key host hhost).1) cutoff
      rw [hwinner] at hspec
      obtain ⟨m, hm, -⟩ := (hvouched.hosts winner.url winner hspec.1).2
      obtain ⟨m', hm', -⟩ := (S.discipline.rely_trans hy hz).1.climbs winner.url m hm
      exact ⟨hthere.after (after_of_rely (S.discipline.rely_trans hy hz)), m', hm'⟩

/-- A node that is eligible may follow any other one. -/
theorem keeps_retarget (hurl : S.remaining url) {winner : String} (heligible : S.Eligible url u)
    (hthere : ∃ m, u.node? winner = some m) :
    S.discipline.Keeps url (retarget winner) (fun _ _ => True) u := by
  apply Keeps.onNode
  intro v n huv hn
  refine ⟨?_, fun _ _ => trivial⟩
  intro hordered _
  obtain ⟨-, hbound⟩ := (heligible.after (after_of_rely huv)).position_le hordered hurl hn
  obtain ⟨m, hm⟩ := hthere
  obtain ⟨m', hm', -⟩ := huv.1.climbs winner m hm
  refine hordered.put hn (UInt64.le_refl _) fun _ =>
    ⟨(hordered.member url n hurl hn).answers, nofun, fun _ => ?_⟩
  refine (hordered.known winner m' hm').imp id fun hremaining => ⟨hremaining, Or.inl hbound, ?_⟩
  -- the buffer was cleared
  intro id e he
  change (∅ : ExtTreeMap LogId Entry)[id]? = some e at he
  rw [ExtTreeMap.getElem?_empty] at he
  cases he

/-! ## Passes -/

theorem calm_restAfter (interval : Settings → UInt64) (streak : Streak) :
    S.Calm still url (restAfter interval streak) (fun _ _ => True) u := by
  unfold restAfter
  refine Calm.seq Calm.look fun v settings _ _ => ?_
  refine Calm.seq (Calm.pause _) fun w stopped _ _ => ?_
  exact Calm.pure fun _ _ => trivial

theorem keeps_restAfter (interval : Settings → UInt64) (streak : Streak) :
    S.discipline.Keeps url (restAfter interval streak) (fun _ _ => True) u :=
  Calm.keeps (calm_restAfter interval streak)

theorem keeps_endStreak (hurl : S.remaining url) {master : String} {since : Instant}
    (heligible : S.Eligible url u) :
    S.discipline.Keeps url (endStreak master since) (fun _ _ => True) u := by
  unfold endStreak
  refine Keeps.bind (Keeps.mono (keeps_elect hurl heligible) ?_)
  rintro r v ⟨elected, rfl, helected⟩
  dsimp only
  cases elected with
  | none => exact keeps_restAfter _ _
  | some winner =>
    refine Keeps.bind (Keeps.onNode ?_)
    intro w n hvw hn
    refine ⟨?_, ?_⟩
    · rw [Net.put_node? hn]
      exact fun hordered _ => hordered.toOrderly
    · intro x hx
      rw [Net.put_node? hn] at hx
      have hself : n.url = url := (hvw.1.good url n hn).self
      dsimp only
      rw [hself]
      split
      · exact Keeps.pure fun _ _ => trivial
      · next hother =>
        split
        · obtain ⟨heligible, m, hm⟩ := helected winner rfl hother
          have hrelies := S.discipline.rely_trans hvw hx
          obtain ⟨m', hm', -⟩ := hrelies.1.climbs winner m hm
          refine Keeps.bind (Keeps.mono
            (keeps_retarget hurl (heligible.after (after_of_rely hrelies)) ⟨m', hm'⟩) ?_)
          rintro r y -
          cases r with
          | ok _ => exact keeps_restAfter _ _
          | error error => trivial
        · exact keeps_restAfter _ _

theorem calm_hostUpdate : S.Calm still url hostUpdate (Gives fun _ _ => True) u := by
  unfold hostUpdate
  refine Calm.seq Calm.look fun v peers _ _ => ?_
  refine Calm.seq (Calm.callAll fun _ _ _ _ => trivial) fun w replies _ _ => ?_
  apply Calm.onNode
  intro x n _ _
  obtain ⟨hosts, heq, -⟩ := noteProbes_spec x.now (peers.zip replies) n
  rw [heq]
  exact ⟨Step.of_hosts hosts, fun _ _ => trivial⟩

/-- Whatever a failure leads to, it finds the node eligible and leaves it so until it elects. -/
theorem keeps_noteFailure (hurl : S.remaining url) {master : String} {streak : Streak}
    (heligible : S.Eligible url u) :
    S.discipline.Keeps url (noteFailure master streak) (fun _ _ => True) u := by
  unfold noteFailure
  have hclock : S.Calm True url Work.clock (Gives fun _ _ => True) u := Calm.clock
  refine Calm.next hclock ?_ fun _ _ _ hr => hr.elim
  intro v now huv _
  have hsettings : S.Calm True url (Work.inspect (·.settings)) (Gives fun _ _ => True) v := Calm.look
  refine Calm.next hsettings ?_ fun _ _ _ hr => hr.elim
  intro w settings hvw _
  have hrest : ∀ x, S.After True url u x → S.discipline.Keeps url
      (if settings.electionThreshold ≤ streak.failures + 1
        then endStreak master (streak.since.getD now)
        else restAfter (·.idleInterval)
          { failures := streak.failures + 1, since := some (streak.since.getD now) })
      (fun _ _ => True) x := by
    intro x hux
    split
    · exact keeps_endStreak hurl (heligible.after hux)
    · exact keeps_restAfter _ _
  dsimp only
  split
  · have hprobe : S.Calm True url hostUpdate (Gives fun _ _ => True) w := calm_hostUpdate
    refine Calm.next hprobe ?_ fun _ _ _ hr => hr.elim
    exact fun x _ hwx _ => hrest x ((huv.trans hvw).trans hwx)
  · exact hrest w (huv.trans hvw)

/-- A pass is in order, whatever streak it goes on with. -/
theorem keeps_tailPass (hurl : S.remaining url) (streak : Streak) :
    S.discipline.Keeps url (tailPass streak) (fun _ _ => True) u := by
  unfold tailPass
  have hstanding : S.Calm False url (Work.inspect (·.standing)) (Gives fun v standing =>
      standing.isMaster = false → Follows url standing.master v ∧
        (standing.master = S.former ∨ S.remaining standing.master)) u := by
    apply Calm.inspect
    intro v n huv hn w hvw hfollower
    refine ⟨Follows.after ⟨n, hn, hfollower, rfl⟩ hvw, ?_⟩
    by_contra hneither
    rw [not_or] at hneither
    -- a node that does not follow the former master finds the net in order
    have hordered := huv.1.ordered fun ⟨m, hm, _, hformer⟩ => by
      rw [hn] at hm
      cases hm
      exact hneither.1 hformer
    rcases (hordered.member url n hurl hn).target hfollower with hformer | htrails
    · exact hneither.1 hformer
    · exact hneither.2 htrails.remaining
  refine Calm.next hstanding ?_ fun _ _ _ hr => hr.elim
  intro v standing huv hfollower
  split
  · exact Keeps.pure fun _ _ => trivial
  · split
    · exact Keeps.pure fun _ _ => trivial
    · next hno =>
      obtain ⟨hfollows, htarget⟩ := hfollower (Bool.eq_false_iff.mpr hno)
      refine Calm.next (calm_drainPushed hurl hfollows) ?_ fun _ _ _ _ => trivial
      intro w _ hvw _
      have hmaster : S.Calm False url (Work.inspect (·.standing.master))
          (Gives fun _ master => master = standing.master) w := by
        apply Calm.inspect
        intro x n hwx hn _ _
        obtain ⟨n', hn', -, hsame⟩ := hfollows.after (hvw.trans hwx)
        rw [hn] at hn'
        cases hn'
        exact hsame
      refine Calm.next hmaster ?_ fun _ _ _ hr => hr.elim
      rintro x _ hwx rfl
      refine Calm.next (Calm.outcome (calm_pullAndApply hurl (hfollows.after (hvw.trans hwx))
        htarget)) ?_ fun _ _ _ hr => hr.elim
      intro y r hxy hr
      split
      · exact keeps_restAfter _ _
      · exact Keeps.pure fun _ _ => trivial
      · next error _ =>
        split
        · exact keeps_noteFailure hurl (hr error rfl)
        · exact Keeps.fail fun _ _ => trivial

/-! ## Acting as master -/

theorem calm_refreshFollowers : S.Calm still url refreshFollowers (Gives fun _ _ => True) u := by
  unfold refreshFollowers
  refine Calm.seq calm_touchSelf fun v _ _ _ => ?_
  refine Calm.seq Calm.look ?_
  rintro w ⟨hosts, peers⟩ _ _
  refine Calm.seq (Calm.callAll fun _ _ _ _ => trivial) fun x replies _ _ => ?_
  apply Calm.onNode
  intro y n _ _
  obtain ⟨table, -, heq⟩ := exists_noteReached y.now (peers.zip replies) n
  rw [heq]
  exact ⟨Step.of_hosts table, fun _ _ => trivial⟩

theorem calm_masterRound : S.Calm still url masterRound (fun _ _ => True) u := by
  unfold masterRound
  refine Calm.seq Calm.look fun v _ _ _ => ?_
  split
  · exact Calm.pure fun _ _ => trivial
  · refine Calm.seq calm_refreshFollowers fun w _ _ _ => ?_
    refine Calm.seq Calm.look fun x _ _ _ => ?_
    refine Calm.seq (Calm.pause _) fun y _ _ _ => ?_
    exact Calm.pure fun _ _ => trivial

/-! ## From start to stop -/

theorem keeps_rounds {τ ρ : Type} {body : τ → Work (τ ⊕ ρ)} {start : τ}
    (h : ∀ t v, S.discipline.Keeps url (body t) (fun _ _ => True) v) :
    S.discipline.Keeps url (Work.iterate body start) (fun _ _ => True) u := by
  refine Keeps.iterate (fun _ _ => True) (fun _ _ => trivial) fun t v _ => ?_
  refine Keeps.mono (h t v) fun r w _ => ?_
  match r with
  | .ok (.inl next) => trivial
  | .ok (.inr result) => trivial
  | .error error => trivial

theorem keeps_enter (phase : Phase) :
    S.discipline.Keeps url (Work.enter phase) (fun _ _ => True) u := Calm.keeps (Calm.enter phase)

theorem keeps_masterLoop : S.discipline.Keeps url masterLoop (fun _ _ => True) u := by
  unfold masterLoop
  have henter : S.Calm True url (Work.enter .master) (Gives fun _ _ => True) u := Calm.enter _
  refine Calm.next henter ?_ fun _ _ _ hr => hr.elim
  exact fun v _ _ _ => keeps_rounds fun _ w => Calm.keeps calm_masterRound

/-- A node that was left to itself goes on in an orderly way, in the middle of whatever streak. -/
theorem keeps_goOn (hurl : S.remaining url) (streak : Streak) :
    S.discipline.Keeps url (Lifecycle.goOn streak) (fun _ _ => True) u := by
  unfold Lifecycle.goOn
  refine Keeps.bind (Keeps.mono (keeps_rounds fun streak v => keeps_tailPass hurl streak) ?_)
  rintro r v -
  cases r with
  | error error => trivial
  | ok ending =>
    cases ending with
    | shutdown => exact keeps_enter _
    | promoted =>
      refine Keeps.bind (Keeps.mono keeps_masterLoop ?_)
      rintro r w -
      cases r with
      | error error => trivial
      | ok _ => exact keeps_enter _

theorem keeps_tail (hurl : S.remaining url) :
    S.discipline.Keeps url tail (fun _ _ => True) u := by
  unfold tail
  have henter : S.Calm True url (Work.enter .tailing) (Gives fun _ _ => True) u := Calm.enter _
  refine Calm.next henter ?_ fun _ _ _ hr => hr.elim
  exact fun v _ _ _ => keeps_rounds fun streak w => keeps_tailPass hurl streak

end Succession

end LogShipping
