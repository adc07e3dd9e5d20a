import LogShipping.Proofs.Lists
import LogShipping.Proofs.World.Strides

/-!
# Probing before an election

A node that tails probes all hosts of its table in the course of a streak of failed pulls, before the streak
comes to an election. So if its table tells of certain nodes, and each of these answers a probe with the
position to which it gets, the node wins an election only with a table that has heard as much of them since
the streak began (`sound_goOn`).

What is relied on is little: others may raise what the node knows of these hosts but not take it back, and the
clock does not go back. What the node itself does besides is known from the kinds of its steps
(`sound_of_steps`): whatever it pulls, applies, pushes or follows, it only observes hosts. Neither roles nor
positions of other nodes matter here, nor whether the log of the node moves between the probe and the
election.

A streak is followed from its first failure on. One that was under way before anybody could rely on anything is
not covered: its probe may have been lost. A table that is adopted from a master, as in a startup, may
drop hosts, so a node that starts up is not covered either.
-/

namespace LogShipping

open Std

/-- A step that promotes nobody, leaves the settings alone and takes nothing back of what the node knows of
hosts. -/
structure Node.Retains (n n' : Node) : Prop where
  settings : n'.settings = n.settings
  hosts : n.hosts.Gains n'.hosts
  isMaster : n'.standing.isMaster = true → n.standing.isMaster = true

instance Node.instReflRetains : Std.Refl Node.Retains :=
  ⟨fun n => ⟨rfl, HostTable.Gains.refl n.hosts, id⟩⟩

theorem Node.Observes.retains {n n' : Node} (h : n.Observes n') : n.Retains n' := by
  obtain ⟨hosts, hgains, rfl⟩ := h
  exact ⟨rfl, hgains, id⟩

theorem Node.retains_apply (entries : List Entry) (n : Node) :
    n.Retains (n.onLog (Log.applyReplicated entries)).2 := by
  have hstanding : (n.onLog (Log.applyReplicated entries)).2.standing = n.standing :=
    Log.ensures_applyReplicated_standing entries
  exact ⟨rfl, HostTable.Gains.refl n.hosts, fun h => hstanding ▸ h⟩

/-! ## Work that retains what is known -/

namespace Lifecycle

open Work

theorem retains_enter (phase : Phase) : (enter phase).Steps Node.Retains :=
  Steps.change fun _ n => ⟨rfl, HostTable.Gains.refl n.hosts, id⟩

theorem retains_retarget (master : String) : (retarget master).Steps Node.Retains :=
  Steps.change fun _ n => ⟨rfl, HostTable.Gains.refl n.hosts, nofun⟩

theorem retains_touchSelf : touchSelf.Steps Node.Retains :=
  observes_touchSelf.mono Node.Observes.retains

theorem retains_drainPushed : drainPushed.Steps Node.Retains :=
  steps_drainPushed (fun n => ⟨rfl, HostTable.Gains.refl n.hosts, id⟩) Node.retains_apply

theorem retains_pullAndApply (master : String) : (pullAndApply master).Steps Node.Retains :=
  steps_pullAndApply Node.Observes.retains Node.retains_apply master

theorem retains_masterLoop : masterLoop.Steps Node.Retains := by
  unfold masterLoop
  exact Steps.bind (retains_enter _) fun _ =>
    Steps.iterate fun _ => observes_masterRound.mono Node.Observes.retains

end Lifecycle

/-- Nodes that are probed, and how far each of them gets. -/
structure Probing where
  remaining : String → Prop
  final : String → LogId

namespace Probing

variable (P : Probing)

/-! ## Terms -/

/-- A table tells of all the nodes. -/
def Knows (table : HostTable) : Prop := ∀ other, P.remaining other → ∃ h, table.host? other = some h

/-- A table has heard of all the nodes but one since some time, and no less than how far they get. -/
def Sees (url : String) (since : Instant) (table : HostTable) : Prop :=
  ∀ other, P.remaining other → other ≠ url →
    ∃ h, table.host? other = some h ∧ since ≤ h.lastSeen ∧ P.final other ≤ h.logPosition

/-- A step that leaves the settings of a node alone and takes nothing back of what it knows of the nodes. -/
structure Kept (n n' : Node) : Prop where
  settings : n'.settings = n.settings
  hosts : HostTable.Raises P.remaining n.hosts n'.hosts

/-- A node that is promoted has won in its table since some time, and its table sees all others since then. -/
def Promotes (url : String) (n n' : Node) : Prop :=
  n.standing.isMaster = false → n'.standing.isMaster = true →
    ∃ cutoff winner, n.hosts.winner? cutoff = some winner ∧ winner.url = url ∧
      P.Sees url cutoff n.hosts

/-- A node answers a probe, having got as far as it gets. -/
def Answers (peer : String) (reply : Except Error Message) : Prop :=
  ∃ self position isMaster master, reply = .ok (.status self position isMaster master) ∧
    P.final peer ≤ position

variable {P} {url : String} {u v w : Net} {n n' n'' : Node} {since : Instant} {α β : Type}

theorem Kept.refl (n : Node) : P.Kept n n := ⟨rfl, HostTable.Raises.refl _⟩

theorem Kept.trans (h : P.Kept n n') (h' : P.Kept n' n'') : P.Kept n n'' :=
  ⟨h'.settings.trans h.settings, h.hosts.trans h'.hosts⟩

theorem kept_of_retains (h : n.Retains n') : P.Kept n n' :=
  ⟨h.settings, h.hosts.raises.mono fun _ _ => trivial⟩

theorem Knows.kept (h : P.Knows n.hosts) (hkept : P.Kept n n') : P.Knows n'.hosts := by
  intro other hother
  obtain ⟨host, hhost⟩ := h other hother
  obtain ⟨host', hhost', -⟩ := hkept.hosts other host hother hhost
  exact ⟨host', hhost'⟩

theorem Sees.kept (h : P.Sees url since n.hosts) (hkept : P.Kept n n') :
    P.Sees url since n'.hosts := by
  intro other hother hne
  obtain ⟨host, hhost, hseen, hfinal⟩ := h other hother hne
  obtain ⟨host', hhost', hposition, hlater⟩ := hkept.hosts other host hother hhost
  exact ⟨host', hhost', UInt64.le_trans hseen hlater, UInt64.le_trans hfinal hposition⟩

variable (P) in
/-- On these terms a node that tails goes on beside the others. -/
def discipline : Discipline where
  rely url u v := v.Good anywhere ∧ u.now ≤ v.now ∧
    ∀ n, u.node? url = some n → ∃ n', v.node? url = some n' ∧ P.Kept n n'
  acts url u v := ∀ n n', u.node? url = some n → v.node? url = some n' →
    P.Kept n n' ∧ P.Promotes url n n'
  asks _ _ _ _ := True
  hears url _ peer m reply :=
    m = .statusRequest → P.remaining peer → peer ≠ url → P.Answers peer reply
  rely_refl h := ⟨h.1, UInt64.le_refl _, fun n hn => ⟨n, hn, .refl n⟩⟩
  rely_trans h h' := by
    refine ⟨h'.1, UInt64.le_trans h.2.1 h'.2.1, ?_⟩
    intro n hn
    obtain ⟨n', hn', hkept⟩ := h.2.2 n hn
    obtain ⟨n'', hn'', hkept'⟩ := h'.2.2 n' hn'
    exact ⟨n'', hn'', hkept.trans hkept'⟩

open Discipline Lifecycle

/-! ## Rules -/

theorem acts_of_retains (hn : u.node? url = some n) (h : n.Retains n') :
    P.discipline.acts url u (u.put url n') := by
  intro m m' hm hm'
  rw [hn] at hm
  cases hm
  rw [Net.node?_put, if_pos rfl] at hm'
  cases hm'
  exact ⟨kept_of_retains h, fun hfollower hmaster => by cases hfollower.symm.trans (h.isMaster hmaster)⟩

/-- What is relied on after a step of the node itself was relied on before. -/
theorem rely_put (hn : u.node? url = some n) (hkept : P.Kept n n')
    (h : P.discipline.rely url (u.put url n') v) : P.discipline.rely url u v := by
  refine ⟨h.1, h.2.1, ?_⟩
  intro m hm
  rw [hn] at hm
  cases hm
  obtain ⟨m', hm', hlater⟩ := h.2.2 n' ((Net.node?_put ..).trans (if_pos rfl))
  exact ⟨m', hm', hkept.trans hlater⟩

/-- An activity that retains what is known keeps to the terms. -/
theorem sound_of_steps {a : Activity Node α} (h : a.Steps Node.Retains) (u : Net) :
    P.discipline.Sound url a (fun _ v => P.discipline.rely url u v) u := by
  induction a generalizing u with
  | done value => exact fun v huv => huv
  | atomic work resume ih =>
    intro v n huv hn
    refine ⟨acts_of_retains hn (h.1 v.now n), (ih _ (h.2 _) _).mono fun value w hw => ?_⟩
    exact P.discipline.rely_trans huv (rely_put hn (kept_of_retains (h.1 v.now n)) hw)
  | call peer m resume ih =>
    intro v huv
    refine ⟨trivial, fun w reply hvw _ => (ih reply (h.2 reply) w).mono fun value x hx => ?_⟩
    exact P.discipline.rely_trans (P.discipline.rely_trans huv hvw) hx
  | callAll peers m resume ih =>
    intro v huv
    refine ⟨fun _ _ => trivial, fun w replies hvw _ =>
      (ih replies (h.2 replies) w).mono fun value x hx => ?_⟩
    exact P.discipline.rely_trans (P.discipline.rely_trans huv hvw) hx
  | pause duration resume ih =>
    intro v stopped huv
    exact (ih stopped (h stopped) v).mono fun value w hw => P.discipline.rely_trans huv hw
  | loop body start resume ihbody ih =>
    refine ⟨fun _ v => P.discipline.rely url u v, fun v huv => huv, fun t v huv => ?_⟩
    refine (ihbody t (h.1 t) v).mono ?_
    rintro (next | result) w hvw
    · exact P.discipline.rely_trans huv hvw
    · refine (ih result (h.2 result) w).mono fun value x hx => ?_
      exact P.discipline.rely_trans (P.discipline.rely_trans huv hvw) hx

/-- After work that retains what is known, other work. -/
theorem next {work : Work α} {rest : α → Work β} {R : Except Error β → Net → Prop}
    (h : work.Steps Node.Retains)
    (hok : ∀ v a, P.discipline.rely url u v → P.discipline.Keeps url (rest a) R v)
    (herror : ∀ v error, P.discipline.rely url u v → R (.error error) v) :
    P.discipline.Keeps url (work >>= rest) R u := by
  refine Keeps.bind (Sound.mono (sound_of_steps h u) ?_)
  intro r v huv
  cases r with
  | ok a => exact hok v a huv
  | error error => exact herror v error huv

/-- After a look at the node. -/
theorem look {f : Instant → Node → α} {rest : α → Work β} {R : Except Error β → Net → Prop}
    (h : ∀ v n, P.discipline.rely url u v → v.node? url = some n →
      ∀ w, P.discipline.rely url v w → P.discipline.Keeps url (rest (f v.now n)) R w) :
    P.discipline.Keeps url (Work.onNode (fun now n => (f now n, n)) >>= rest) R u := by
  refine Keeps.bind (Keeps.onNode ?_)
  intro v n huv hn
  refine ⟨acts_of_retains hn (Std.Refl.refl n), fun w hw => ?_⟩
  rw [Net.put_node? hn] at hw
  exact h v n huv hn w hw

/-! ## Streaks -/

variable (P) in
/-- A node knows the others, and its thresholds are as a configuration demands them. -/
structure Prepared (n : Node) : Prop where
  knows : P.Knows n.hosts
  probes : 0 < n.settings.hostUpdateThreshold
  elects : n.settings.hostUpdateThreshold < n.settings.electionThreshold

variable (P) in
/-- The table of a node has heard of the others since some time. -/
def Aware (url : String) (since : Instant) (net : Net) : Prop :=
  ∃ n, net.node? url = some n ∧ P.Sees url since n.hosts

variable (P) in
/-- A streak has not come to an election, and if it has come as far as the probe, the others have been heard
of since its first failure. -/
def Tracks (url : String) (streak : Streak) (net : Net) : Prop :=
  ∃ n, net.node? url = some n ∧ P.Prepared n ∧ streak.failures < n.settings.electionThreshold ∧
    (∀ t, streak.since = some t → t ≤ net.now) ∧
    (n.settings.hostUpdateThreshold ≤ streak.failures →
      ∃ t, streak.since = some t ∧ P.Aware url t net)

variable {streak : Streak}

theorem Prepared.kept (h : P.Prepared n) (hkept : P.Kept n n') : P.Prepared n' where
  knows := h.knows.kept hkept
  probes := hkept.settings ▸ h.probes
  elects := hkept.settings ▸ h.elects

theorem Aware.later (h : P.Aware url since u) (huv : P.discipline.rely url u v) :
    P.Aware url since v := by
  obtain ⟨n, hn, hsees⟩ := h
  obtain ⟨n', hn', hkept⟩ := huv.2.2 n hn
  exact ⟨n', hn', hsees.kept hkept⟩

theorem Aware.mono {earlier : Instant} (h : P.Aware url since u) (hle : earlier ≤ since) :
    P.Aware url earlier u := by
  obtain ⟨n, hn, hsees⟩ := h
  refine ⟨n, hn, fun other hother hne => ?_⟩
  obtain ⟨host, hhost, hseen, hfinal⟩ := hsees other hother hne
  exact ⟨host, hhost, UInt64.le_trans hle hseen, hfinal⟩

theorem Tracks.later (h : P.Tracks url streak u) (huv : P.discipline.rely url u v) :
    P.Tracks url streak v := by
  obtain ⟨n, hn, hprepared, hbelow, hpast, hprobed⟩ := h
  obtain ⟨n', hn', hkept⟩ := huv.2.2 n hn
  refine ⟨n', hn', hprepared.kept hkept, ?_, fun t ht => UInt64.le_trans (hpast t ht) huv.2.1, ?_⟩
  · rw [hkept.settings]
    exact hbelow
  · rw [hkept.settings]
    intro hle
    obtain ⟨t, ht, haware⟩ := hprobed hle
    exact ⟨t, ht, haware.later huv⟩

/-- A streak begins with nothing to know. -/
theorem tracks_empty (hn : u.node? url = some n) (h : P.Prepared n) : P.Tracks url {} u :=
  ⟨n, hn, h, UInt32.lt_trans h.probes h.elects, nofun,
    fun hle => absurd h.probes (UInt32.not_lt.mpr hle)⟩

theorem Tracks.fresh (h : P.Tracks url streak u) : P.Tracks url {} u := by
  obtain ⟨n, hn, hprepared, -⟩ := h
  exact tracks_empty hn hprepared

variable (P) in
/-- What a pass leaves to the next one. -/
def Passes (url : String) (r : Except Error (Streak ⊕ TailEnd)) (net : Net) : Prop :=
  ∀ next, r = .ok (.inl next) → P.Tracks url next net

theorem keeps_rest (interval : Settings → UInt64) (h : P.Tracks url streak u) :
    P.discipline.Keeps url (restAfter interval streak) (P.Passes url) u := by
  unfold restAfter
  refine next (Work.Steps.inspect _) (fun v duration huv => ?_) fun _ _ _ => nofun
  refine next (Work.Steps.pause _) (fun w stopped hvw => ?_) fun _ _ _ => nofun
  refine Keeps.pure fun x hwx going hgoing => ?_
  split at hgoing
  · cases hgoing
  · cases hgoing
    exact ((h.later huv).later hvw).later hwx

/-! ## Probing -/

/-- After a probe the others have been heard of. -/
theorem keeps_hostUpdate (hn : u.node? url = some n) (hprepared : P.Prepared n) :
    P.discipline.Keeps url hostUpdate (fun _ v => P.discipline.rely url u v ∧ P.Aware url u.now v) u := by
  unfold hostUpdate
  refine look fun v m huv hm w hvw => ?_
  have hasked : ∀ other, P.remaining other → other ≠ url → other ∈ m.hosts.peers := by
    intro other hother hne
    obtain ⟨m', hm', hkept⟩ := huv.2.2 n hn
    rw [hm] at hm'
    cases hm'
    refine HostTable.mem_peers_iff.mpr ⟨?_, hprepared.knows.kept hkept other hother⟩
    rw [(huv.1 url m hm).own]
    exact hne
  refine Keeps.bind (Keeps.callAll (fun _ _ _ _ => trivial) ?_)
  intro x replies hwx hreplies y hxy
  refine Keeps.onNode ?_
  intro z k hyz hk
  obtain ⟨hosts, heq, hgains, hnoted⟩ := noteProbes_spec z.now (m.hosts.peers.zip
    (replies.map fun reply => reply.bind (Message.expect Message.statusRequest.command))) k
  have huz := P.discipline.rely_trans (P.discipline.rely_trans huv hvw)
    (P.discipline.rely_trans (P.discipline.rely_trans hwx hxy) hyz)
  have hnotes : k.Retains { k with hosts := hosts } := ⟨rfl, hgains, id⟩
  rw [heq]
  refine ⟨acts_of_retains hk hnotes, fun a ha => ⟨?_, ?_⟩⟩
  · exact P.discipline.rely_trans huz (rely_put hk (kept_of_retains hnotes) ha)
  · -- all others were asked, and what they answered is noted
    obtain ⟨k', hk', hkept⟩ := ha.2.2 _ ((Net.node?_put ..).trans (if_pos rfl))
    refine ⟨k', hk', Sees.kept (fun other hother hne => ?_) hkept⟩
    obtain ⟨reply, hzip, hreply⟩ := exists_zip_of_mem hreplies (hasked other hother hne)
    obtain ⟨self, position, isMaster, master, rfl, hfinal⟩ := hreply rfl hother hne
    obtain ⟨host, hhost, hposition, hseen⟩ := hnoted other self position isMaster master (by
      rw [List.zip_map_right]
      exact List.mem_map.mpr ⟨_, hzip, rfl⟩)
    exact ⟨host, hhost, UInt64.le_trans huz.2.1 hseen, UInt64.le_trans hfinal hposition⟩

/-! ## Electing -/

/-- A node that wins an election has heard of the others since its cutoff. -/
theorem keeps_elect (haware : P.Aware url since u) :
    P.discipline.Keeps url (elect since) (fun _ v => P.discipline.rely url u v) u := by
  unfold elect
  refine next retains_touchSelf ?_ fun _ _ huv => huv
  intro v _ huv
  refine Keeps.bind (Keeps.onNode ?_)
  intro w n hvw hn
  have huw := P.discipline.rely_trans huv hvw
  obtain ⟨m, hm, hsees⟩ := haware.later huw
  rw [hn] at hm
  cases hm
  have hstep : P.Kept n (n.elect since).2 ∧ P.Promotes url n (n.elect since).2 := by
    unfold Node.elect
    cases hwinner : n.hosts.winner? since with
    | none => exact ⟨.refl n, fun hfollower hmaster => by cases hfollower.symm.trans hmaster⟩
    | some winner =>
      dsimp only
      split
      · next hpromotes =>
        refine ⟨⟨rfl, HostTable.Raises.refl _⟩, fun _ _ => ⟨since, winner, hwinner, ?_, hsees⟩⟩
        exact hpromotes.1.trans (huw.1 url n hn).own
      · exact ⟨.refl n, fun hfollower hmaster => by cases hfollower.symm.trans hmaster⟩
  refine ⟨?_, fun x hx => Keeps.pure fun y hxy => ?_⟩
  · intro m m' hm hm'
    rw [hn] at hm
    cases hm
    rw [Net.node?_put, if_pos rfl] at hm'
    cases hm'
    exact hstep
  · exact P.discipline.rely_trans huw (P.discipline.rely_trans (rely_put hn hstep.1 hx) hxy)

theorem keeps_endStreak {master : String} (h : P.Tracks url streak u)
    (haware : P.Aware url since u) :
    P.discipline.Keeps url (endStreak master since) (P.Passes url) u := by
  unfold endStreak
  refine Keeps.bind (Keeps.mono (keeps_elect haware) ?_)
  intro r v huv
  have hfresh : P.Tracks url {} v := (h.later huv).fresh
  cases r with
  | error error => exact nofun
  | ok elected =>
    cases elected with
    | none => exact keeps_rest _ hfresh
    | some winner =>
      dsimp only
      refine next (Work.Steps.inspect _) (fun w self hvw => ?_) fun _ _ _ => nofun
      split
      · exact Keeps.pure fun _ _ => nofun
      · split
        · refine next (retains_retarget winner) (fun x _ hwx => ?_) fun _ _ _ => nofun
          exact keeps_rest _ ((hfresh.later hvw).later hwx)
        · exact keeps_rest _ (hfresh.later hvw)

/-! ## Passes -/

/-- A streak that comes to an election has been probed since its first failure. -/
theorem keeps_noteFailure {master : String} (h : P.Tracks url streak u) :
    P.discipline.Keeps url (noteFailure master streak) (P.Passes url) u := by
  unfold noteFailure
  refine look fun v _ huv _ w hvw => ?_
  refine look fun x n hwx hn y hxy => ?_
  have huw := P.discipline.rely_trans huv hvw
  obtain ⟨m, hm, hprepared, hbelow, hpast, hprobed⟩ := (h.later huw).later hwx
  rw [hn] at hm
  cases hm
  set first := streak.since.getD v.now with hfirst
  have hbefore : first ≤ y.now := by
    rw [hfirst]
    cases ht : streak.since with
    | none => exact UInt64.le_trans hvw.2.1 (UInt64.le_trans hwx.2.1 hxy.2.1)
    | some t => exact UInt64.le_trans (hpast t ht) hxy.2.1
  have hsucc := toNat_succ hbelow
  obtain ⟨n', hn', hkept⟩ := hxy.2.2 n hn
  -- what follows once the others are probed, if they are
  have hrest : ∀ z, P.discipline.rely url y z →
      (n.settings.hostUpdateThreshold ≤ streak.failures + 1 → P.Aware url first z) →
      P.discipline.Keeps url (if n.settings.electionThreshold ≤ streak.failures + 1
        then endStreak master first
        else restAfter (·.idleInterval) { failures := streak.failures + 1, since := some first })
        (P.Passes url) z := by
    intro z hyz haware
    obtain ⟨k, hk, hkept'⟩ := hyz.2.2 n' hn'
    have hall := hkept.trans hkept'
    have hready := hprepared.kept hall
    split
    · next helects =>
      refine keeps_endStreak (tracks_empty hk hready) (haware ?_)
      exact UInt32.le_trans (UInt32.le_of_lt hprepared.elects) helects
    · next hgoes =>
      refine keeps_rest _ ⟨k, hk, hready, ?_, ?_, ?_⟩
      · rw [hall.settings]
        exact UInt32.not_le.mp hgoes
      · intro t ht
        cases ht
        exact UInt64.le_trans hbefore hyz.2.1
      · rw [hall.settings]
        exact fun hle => ⟨first, rfl, haware hle⟩
  dsimp only
  split
  · refine Keeps.bind (Keeps.mono (keeps_hostUpdate hn' (hprepared.kept hkept)) ?_)
    rintro r z ⟨hyz, haware⟩
    cases r with
    | error error => exact nofun
    | ok _ => exact hrest z hyz fun _ => haware.mono hbefore
  · next hnever =>
    refine hrest y (P.discipline.rely_refl hxy) fun hle => ?_
    -- a streak that was as long as that before has been probed since its first failure
    have hlong : n.settings.hostUpdateThreshold ≤ streak.failures := by
      rw [UInt32.le_iff_toNat_le, hsucc] at hle
      rw [UInt32.le_iff_toNat_le]
      have hne : (streak.failures + 1).toNat ≠ n.settings.hostUpdateThreshold.toNat :=
        fun heq => hnever (UInt32.toNat_inj.mp heq)
      omega
    obtain ⟨t, ht, haware⟩ := hprobed hlong
    rw [hfirst, ht]
    exact haware.later hxy

theorem keeps_tailPass (h : P.Tracks url streak u) :
    P.discipline.Keeps url (tailPass streak) (P.Passes url) u := by
  unfold tailPass
  refine next (Work.Steps.inspect _) (fun v standing huv => ?_) fun _ _ _ => nofun
  split
  · exact Keeps.pure fun _ _ => nofun
  · split
    · exact Keeps.pure fun _ _ => nofun
    · refine next retains_drainPushed (fun w _ hvw => ?_) fun _ _ _ => nofun
      refine next (Work.Steps.inspect _) (fun x master hwx => ?_) fun _ _ _ => nofun
      refine next (Work.Steps.outcome (retains_pullAndApply master)) (fun y r hxy => ?_)
        fun _ _ _ => nofun
      have hthere := (((h.later huv).later hvw).later hwx).later hxy
      split
      · exact keeps_rest _ hthere.fresh
      · exact Keeps.pure fun _ _ => nofun
      · split
        · exact keeps_noteFailure hthere
        · exact Keeps.fail fun _ _ => nofun

theorem keeps_passes (h : P.Tracks url streak u) :
    P.discipline.Keeps url (Work.iterate tailPass streak) (fun _ _ => True) u := by
  refine Keeps.iterate (P.Tracks url) (fun v huv => h.later huv) fun t v ht => ?_
  refine Keeps.mono (keeps_tailPass ht) fun r w hpasses => ?_
  match r with
  | .ok (.inl next) => exact hpasses next rfl
  | .ok (.inr result) => trivial
  | .error error => trivial

/-- A node that begins to tail keeps to the terms. -/
theorem sound_tail (hn : u.node? url = some n) (h : P.Prepared n) :
    P.discipline.Sound url tail.finish (fun _ _ => True) u := by
  refine Sound.bind (R := fun _ _ => True) ?_ fun _ _ _ => fun _ _ => trivial
  unfold tail
  refine next (retains_enter _) (fun v _ huv => ?_) fun _ _ _ => trivial
  exact keeps_passes ((tracks_empty hn h).later huv)

/-- So does a node that makes a first pass. -/
theorem sound_goOn (hn : u.node? url = some n) (h : P.Prepared n) :
    P.discipline.Sound url (Lifecycle.goOn {}).finish (fun _ _ => True) u := by
  refine Sound.bind (R := fun _ _ => True) ?_ fun _ _ _ => fun _ _ => trivial
  unfold Lifecycle.goOn
  refine Keeps.bind (Keeps.mono (keeps_passes (tracks_empty hn h)) fun r v _ => ?_)
  cases r with
  | error error => trivial
  | ok ending =>
    cases ending with
    | shutdown => exact Sound.mono (sound_of_steps (retains_enter _) v) fun _ _ _ => trivial
    | promoted =>
      refine next retains_masterLoop (fun w _ _ => ?_) fun _ _ _ => trivial
      exact Sound.mono (sound_of_steps (retains_enter _) w) fun _ _ _ => trivial

end Probing

end LogShipping
