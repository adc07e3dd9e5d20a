import LogShipping.Proofs.Activity.StartupSteps

/-!
# Guarded startup

A follower that starts up talks to its peers in a fixed order, and each part of the talk opens the way
to the next one: the newest entry is found on the configured peer before any page is asked for, the
master says that it is one before the node registers there, and a master that the configured peer named
has the newest entry too (`Lifecycle.startup_guards`).

The order is one of calls with what came of them, so it is visible from outside. A startup that fails
has stopped at the first part that did not come out well, and its error says which one; in particular a
log that differs is told by an error that names the entry and both timestamps.

Two things the guard does not do. It compares the newest entry alone, by its timestamp, and not what
stands before it: a peer with the same newest entry and another history passes. And it looks at the
moment of the comparison only; what the peer does afterwards is not guarded against.
-/

namespace LogShipping

open Work

namespace Lifecycle

/-! ## The whole startup -/

theorem Unregistered.append {first second : List Call} (hfirst : Unregistered first)
    (hsecond : Unregistered second) : Unregistered (first ++ second) := by
  intro k hk
  rcases List.mem_append.mp hk with hk | hk
  · exact hfirst k hk
  · exact hsecond k hk

theorem unregistered_of_command {made : List Call} (h : ∀ k ∈ made, k.message.command ≠ .register) :
    Unregistered made := fun k hk hcommand => (h k hk hcommand).elim

theorem unregistered_of_pulls {peer : String} {pulls : List Call}
    (h : ∀ k ∈ pulls, k.peer = peer ∧ k.message.command = .readLog) : Unregistered pulls :=
  unregistered_of_command fun k hk => by rw [(h k hk).2]; decide

theorem unregistered_of_asked {asked : List Call} (h : ∀ k ∈ asked, k.message = .statusRequest) :
    Unregistered asked :=
  unregistered_of_command fun k hk => by rw [h k hk]; decide

theorem Confirmed.unregistered {peer master : String} {asked : List Call}
    (h : Confirmed peer master asked) : Unregistered asked := by
  apply unregistered_of_asked
  cases h with
  | itself => simp
  | named => simp

end Lifecycle

namespace Holdings

open Lifecycle (Unregistered unregistered_of_command)

variable {l : Holdings} {peer : String} {made : List Call}

theorem unregistered_comparing (l : Holdings) (peer : String) (reply : Option (Except Error Message)) :
    Unregistered [l.comparing peer reply] :=
  unregistered_of_command fun k hk hcommand => by
    rw [List.mem_singleton.mp hk] at hcommand
    cases hcommand

theorem Agreed.unregistered (h : l.Agreed peer made) : Unregistered made := by
  cases h with
  | empty => exact fun k hk => by cases hk
  | same => exact unregistered_comparing l peer _

theorem Refused.unregistered {error : Error} (h : l.Refused peer error made) : Unregistered made := by
  cases h with
  | differs => exact unregistered_comparing l peer _

theorem Unsettled.unregistered (h : l.Unsettled peer made) : Unregistered made := by
  cases h with
  | none => exact fun k hk => by cases hk
  | one => exact unregistered_comparing l peer _

/-- Calls that begin with the comparison: nothing is known yet, or the logs agree. -/
def Begun (l : Holdings) (peer : String) (made : List Call) : Prop :=
  l.Unsettled peer made ∨ ∃ guard, l.Agreed peer guard ∧ guard <+: made

end Holdings

namespace Lifecycle

open Terms

/-- What is asked of a startup that has not led to a master. -/
def guarding (l : Holdings) (peer : String) : Terms where
  underWay h _ := l.Begun peer (calls h)
  failed error h n := n.phase ≠ .tailing ∧ (∀ deed ∈ h, deed.Modest) ∧ Unregistered (calls h) ∧
    (l.Begun peer (calls h) ∨ l.Refused peer error (calls h) ∧ n.holdings = l)

section Guarding

variable {l : Holdings} {peer : String} {guard made more : List Call} {f : Footing} {h : List Deed}
  {n : Node}

theorem begun_of_agreed (hguard : l.Agreed peer guard) (hmade : calls h = guard ++ made) :
    l.Begun peer (calls h) :=
  .inr ⟨guard, hguard, hmade ▸ List.prefix_append _ _⟩

theorem waits_guarding (hguard : l.Agreed peer guard) (f : Footing) (made : List Call) :
    (guarding l peer).Waits (Stands f (guard ++ made)) :=
  ⟨Stands.steady _ _, fun hstands => begun_of_agreed hguard hstands.calls⟩

/-- A failure behind the comparison. -/
theorem failed_guarding (hguard : l.Agreed peer guard) (hphase : f.phase ≠ .tailing)
    (hmade : Unregistered made) (hstands : Stands f (guard ++ made) h n) (error : Error) :
    (guarding l peer).failed error h n := by
  refine ⟨?_, hstands.modest, ?_, .inl (begun_of_agreed hguard hstands.calls)⟩
  · rw [show n.phase = f.phase from congrArg Footing.phase hstands.footing]
    exact hphase
  · rw [hstands.calls]
    exact hguard.unregistered.append hmade

/-- The comparison with the configured peer. -/
theorem acts_guard (f : Footing) (hphase : f.phase ≠ .tailing) :
    (guarding f.holdings f.master).Acts (compareLog f.master) (Stands f []) fun _ h n =>
      ∃ guard, f.holdings.Agreed f.master guard ∧ Stands f guard h n := by
  refine ((acts_compareLog f f.master []).relax ?_ ?_).mono (fun _ _ hstands => hstands)
    fun _ _ _ hagreed => hagreed
  · rintro h n ⟨more, hunsettled, hstands⟩
    refine .inl ?_
    rw [hstands.calls]
    exact hunsettled
  · rintro error h n ⟨more, hmore, hstands⟩
    have hsame : n.phase = f.phase := congrArg Footing.phase hstands.footing
    refine ⟨hsame ▸ hphase, hstands.modest, ?_, ?_⟩
    · rw [hstands.calls]
      exact hmore.elim (·.unregistered) (·.unregistered)
    · rw [hstands.calls]
      rcases hmore with hunsettled | hrefused
      · exact .inl (.inl hunsettled)
      · exact .inr ⟨hrefused, congrArg Footing.holdings hstands.footing⟩

/-- The comparison with another master. -/
theorem acts_check (hguard : l.Agreed peer guard) (hphase : f.phase ≠ .tailing)
    (hmade : Unregistered made) (master : String) :
    (guarding l peer).Acts (compareLog master) (Stands f (guard ++ made)) fun _ h n =>
      ∃ check, f.holdings.Agreed master check ∧ Stands f (guard ++ (made ++ check)) h n := by
  refine ((acts_compareLog f master (guard ++ made)).relax ?_ ?_).mono (fun _ _ hstands => hstands) ?_
  · rintro h n ⟨more, -, hstands⟩
    exact begun_of_agreed hguard (by rw [hstands.calls, List.append_assoc])
  · rintro error h n ⟨more, hmore, hstands⟩
    rw [List.append_assoc] at hstands
    refine failed_guarding hguard hphase (hmade.append ?_) hstands error
    exact hmore.elim (·.unregistered) (·.unregistered)
  · rintro _ h n ⟨check, hcheck, hstands⟩
    rw [List.append_assoc] at hstands
    exact ⟨check, hcheck, hstands⟩

/-- The calls of a startup that has led to a master, and how the node stands then. -/
def Led (l : Holdings) (configured : String) : Story := fun h n =>
  ∃ (guard pulls asked check : List Call) (reply : Message),
    calls h = guard ++ pulls ++ asked ++ check ++
      [⟨n.standing.master, .registerRequest n.url n.position, some (.ok reply)⟩] ∧
    l.Agreed configured guard ∧ (∀ k ∈ pulls, k.peer = configured ∧ k.message.command = .readLog) ∧
    Confirmed configured n.standing.master asked ∧
    (if n.standing.master = configured then check = [] else n.holdings.Agreed n.standing.master check) ∧
    reply.command = .register ∧ n.phase = .tailing

theorem led_of_sits {pulls asked check : List Call} {reply : Message} {configured : String}
    (hguard : l.Agreed configured guard)
    (hpulls : ∀ k ∈ pulls, k.peer = configured ∧ k.message.command = .readLog)
    (hconfirmed : Confirmed configured f.master asked)
    (hcheck : if f.master = configured then check = [] else f.holdings.Agreed f.master check)
    (hreply : reply.command = .register)
    (hsits : Sits { f with phase := .tailing } (guard ++ (pulls ++ asked ++ check) ++
      [⟨f.master, .registerRequest f.url f.holdings.position, some (.ok reply)⟩]) h n) :
    Led l configured h n := by
  have hmaster : n.standing.master = f.master := congrArg Footing.master hsits.footing
  have hurl : n.url = f.url := congrArg Footing.url hsits.footing
  have hphase : n.phase = .tailing := congrArg Footing.phase hsits.footing
  have hholdings : n.holdings = f.holdings := congrArg Footing.holdings hsits.footing
  have hposition : n.position = f.holdings.position := congrArg Holdings.position hholdings
  refine ⟨guard, pulls, asked, check, reply, ?_, hguard, hpulls, ?_, ?_, hreply, hphase⟩
  · rw [hsits.calls, hmaster, hurl, hposition]
    simp only [List.append_assoc]
  · rw [hmaster]
    exact hconfirmed
  · rw [hmaster, hholdings]
    exact hcheck

/-- Registering with a master, and tailing from then on. -/
theorem acts_settle (hguard : l.Agreed peer guard) (hphase : f.phase ≠ .tailing)
    (hmade : Unregistered made) :
    (guarding l peer).Acts (do register f.master; enter .tailing) (Stands f (guard ++ made)) fun _ h n =>
      ∃ reply : Message, reply.command = .register ∧ Sits { f with phase := .tailing } (guard ++ made ++
        [⟨f.master, .registerRequest f.url f.holdings.position, some (.ok reply)⟩]) h n := by
  refine Acts.bind ((acts_register f (guard ++ made) f.master).relax ?_ ?_) fun _ => ?_
  · intro h n hmade
    exact .inr ⟨guard, hguard, (List.prefix_append _ _).trans hmade⟩
  · rintro error h n ⟨more, hmore, hstands⟩
    rw [List.append_assoc] at hstands
    exact failed_guarding hguard hphase (hmade.append hmore) hstands error
  · refine Acts.of_exists fun reply => Acts.assuming fun hreply => ?_
    refine Acts.change ⟨Sits.steady _ _, fun hsits => ?_⟩ ?_
    · exact begun_of_agreed hguard (by rw [hsits.calls, List.append_assoc])
    · intro h n now hsits
      refine ⟨reply, hreply, hsits.work rfl ?_⟩
      rw [← hsits.footing]
      rfl

theorem acts_startFollower (f : Footing) :
    (guarding f.holdings f.master).Acts startFollower (Stands f []) fun _ =>
      Led f.holdings f.master := by
  have hstart : ∀ g : Footing, (guarding f.holdings f.master).Waits (Stands g []) := fun g =>
    ⟨Stands.steady _ _, fun hstands => .inl (hstands.calls ▸ .none)⟩
  unfold startFollower
  refine Acts.bind (R := fun _ => Stands { f with phase := .cold } []) ?_ fun _ => ?_
  · exact Acts.change (hstart f) fun h n now hstands => hstands.enter now .cold
  refine Acts.bind (R := fun configured h n => configured = f.master ∧
    Stands { f with phase := .cold } [] h n) ?_ fun configured => ?_
  · refine Acts.inspect (hstart _) fun h n now hstands => ⟨?_, hstands.look now⟩
    exact congrArg Footing.master hstands.footing
  refine Acts.assuming ?_
  rintro rfl
  refine Acts.bind (acts_guard { f with phase := .cold } (by simp)) fun _ => ?_
  refine Acts.of_exists fun guard => Acts.assuming fun hguard => ?_
  -- behind the comparison
  have hcold : (guarding f.holdings f.master).Waits (Stands { f with phase := .cold } guard) := by
    simpa using waits_guarding hguard { f with phase := .cold } []
  refine Acts.bind (R := fun _ => Stands { f with phase := .catchup } guard) ?_ fun _ => ?_
  · exact Acts.change hcold fun h n now hstands => hstands.enter now .catchup
  refine Acts.bind (R := fun _ h n => ∃ l pulls,
    (∀ k ∈ pulls, k.peer = f.master ∧ k.message.command = .readLog) ∧
      Stands { f with phase := .catchup, holdings := l } (guard ++ pulls) h n) ?_ fun _ => ?_
  · refine ((acts_catchUp { f with phase := .catchup } f.master guard).relax ?_ ?_).mono ?_ ?_
    · rintro h n ⟨l, pulls, hstands, -⟩
      exact begun_of_agreed hguard hstands.calls
    · rintro error h n ⟨l, pulls, hstands, hpulls⟩
      exact failed_guarding hguard (by simp) (unregistered_of_pulls hpulls) hstands error
    · exact fun h n hstands => ⟨f.holdings, [], by simpa using hstands, by simp⟩
    · exact fun _ h n ⟨l, pulls, hstands, hpulls⟩ => ⟨l, pulls, hpulls, hstands⟩
  refine Acts.of_exists fun l => Acts.of_exists fun pulls => Acts.assuming fun hpulls => ?_
  have hunregistered := unregistered_of_pulls hpulls
  refine Acts.bind (R := fun master h n => ∃ asked, Confirmed f.master master asked ∧
    Stands { f with phase := .catchup, holdings := l } (guard ++ (pulls ++ asked)) h n) ?_ fun master => ?_
  · refine ((acts_confirmMaster { f with phase := .catchup, holdings := l } (guard ++ pulls)
      f.master).relax ?_ ?_).mono (fun _ _ hstands => hstands) ?_
    · rintro h n ⟨asked, hstands, -⟩
      exact begun_of_agreed hguard (by rw [hstands.calls, List.append_assoc])
    · rintro error h n ⟨asked, hstands, hasked⟩
      rw [List.append_assoc] at hstands
      exact failed_guarding hguard (by simp) (hunregistered.append (unregistered_of_asked hasked))
        hstands error
    · rintro master h n ⟨asked, hconfirmed, hstands⟩
      rw [List.append_assoc] at hstands
      exact ⟨asked, hconfirmed, hstands⟩
  refine Acts.of_exists fun asked => Acts.assuming fun hconfirmed => ?_
  have hmade : Unregistered (pulls ++ asked) := hunregistered.append hconfirmed.unregistered
  split
  · next hother =>
    refine Acts.bind (R := fun _ => Stands { f with master := master, phase := .catchup, holdings := l }
      (guard ++ (pulls ++ asked))) ?_ fun _ => ?_
    · exact Acts.change (waits_guarding hguard _ _) fun h n now hstands => hstands.follow now master _
    refine Acts.bind (acts_check hguard (by simp) hmade master) fun _ => ?_
    refine Acts.of_exists fun check => Acts.assuming fun hcheck => ?_
    refine (acts_settle hguard (by simp) (hmade.append hcheck.unregistered)).mono
      (fun _ _ hstands => hstands) ?_
    rintro _ h n ⟨reply, hreply, hsits⟩
    exact led_of_sits hguard hpulls hconfirmed (by rw [if_neg hother]; exact hcheck) hreply hsits
  · next hsame =>
    rw [ne_eq, not_not] at hsame
    subst hsame
    refine (acts_settle (f := { f with phase := .catchup, holdings := l }) hguard (by simp) hmade).mono
      (fun _ _ hstands => hstands) ?_
    rintro _ h n ⟨reply, hreply, hsits⟩
    rw [← List.append_nil (pulls ++ asked)] at hsits
    exact led_of_sits (f := { f with phase := .catchup, holdings := l }) hguard hpulls hconfirmed
      (by rw [if_pos rfl]) hreply hsits

end Guarding

theorem acts_startup (f : Footing) :
    (guarding f.holdings f.master).Acts startup (Stands f []) fun _ => Led f.holdings f.master := by
  have hwaits : (guarding f.holdings f.master).Waits (Stands f []) :=
    ⟨Stands.steady _ _, fun hstands => .inl (hstands.calls ▸ .none)⟩
  unfold startup
  refine Acts.bind (R := fun _ => Stands f []) ?_ fun _ => ?_
  · exact Acts.change hwaits fun h n now hstands => hstands.work rfl hstands.footing (.inr ⟨_, _, rfl⟩)
  refine Acts.bind (R := fun isMaster h n => isMaster = false ∧ Stands f [] h n) ?_ fun isMaster => ?_
  · exact Acts.inspect hwaits fun h n now hstands => ⟨hstands.follower, hstands.look now⟩
  refine Acts.assuming ?_
  rintro rfl
  exact acts_startFollower f

end Lifecycle

namespace Holdings

variable {l : Holdings} {peer : String} {guard made later : List Call} {mine : Entry} {id : LogId}
  {theirs : Option Entry}

/-- Logs that agree were not told of another entry. -/
theorem Agreed.not_differs (h : l.Agreed peer guard) (hposition : l.position ≠ 0)
    (hmine : l.Newest mine) (hdiffers : theirs.map (·.timestamp) ≠ some mine.timestamp) :
    ¬ guard <+: l.comparing peer (some (.ok (.readOne id theirs))) :: later := by
  intro hbegins
  cases h with
  | empty hempty => exact hposition hempty
  | @same other found id' _ hother hsame =>
    obtain ⟨hfirst, -⟩ := List.cons_prefix_cons.mp hbegins
    cases hfirst
    rw [hmine.unique hother] at hdiffers
    exact hdiffers (by rw [Option.map_some, hsame])

theorem Begun.not_differs (h : l.Begun peer made) (hposition : l.position ≠ 0)
    (hmine : l.Newest mine) (hdiffers : theirs.map (·.timestamp) ≠ some mine.timestamp) :
    made ≠ l.comparing peer (some (.ok (.readOne id theirs))) :: later := by
  rintro rfl
  rcases h with hunsettled | ⟨guard, hguard, hbegins⟩
  · cases hunsettled with
    | one reply hreply => exact hreply id theirs rfl
  · exact hguard.not_differs hposition hmine hdiffers hbegins

/-- The first call of all is the comparison, unless the log is empty. -/
theorem Agreed.head? (h : l.Agreed peer guard) (hposition : l.position ≠ 0) (hbegins : guard <+: made) :
    ∀ k ∈ made.head?, k.peer = peer ∧ k.message = .readOneRequest l.position := by
  intro k hk
  cases h with
  | empty hempty => exact (hposition hempty).elim
  | same =>
    obtain ⟨rest, rfl⟩ := hbegins
    cases hk
    exact ⟨rfl, rfl⟩

theorem Begun.head? (h : l.Begun peer made) (hposition : l.position ≠ 0) :
    ∀ k ∈ made.head?, k.peer = peer ∧ k.message = .readOneRequest l.position := by
  rcases h with hunsettled | ⟨guard, hguard, hbegins⟩
  · intro k hk
    cases hunsettled with
    | none => cases hk
    | one reply hreply =>
      cases hk
      exact ⟨rfl, rfl⟩
  · exact hguard.head? hposition hbegins

end Holdings

namespace Lifecycle

/-! ## Starts that succeed -/

section Succeeding

variable {n m : Node}

theorem runs_askEntry (peer : String) (id : LogId) (entry : Option Entry) (n : Node) :
    (askEntry peer id).run.Runs n [.call peer (.readOneRequest id) (some (.ok (.readOne id entry)))]
      (some (.ok entry)) n :=
  runs_bind (runs_call peer (.readOne id entry) (by rfl) n) (runs_pure entry n)

/-- A comparison that finds the newest entry on the peer. -/
theorem runs_compareLog {id : LogId} {mine theirs : Entry} (hid : n.position = id)
    (hposition : id ≠ 0) (now : Instant)
    (hread : n.onLog (Log.onStore (Log.readOne id)) = (.ok (some mine), m))
    (hsame : theirs.timestamp = mine.timestamp) (peer : String) :
    (compareLog peer).run.Runs n
      [.work now n n, .work now n m,
        .call peer (.readOneRequest id) (some (.ok (.readOne id (some theirs))))]
      (some (.ok ())) m := by
  refine runs_bind (runs_inspect _ now n) ?_
  rw [hid, if_pos hposition]
  refine runs_bind (runs_onLog now hread) ?_
  refine runs_bind (runs_askEntry peer id (some theirs) m) ?_
  simp only [Option.map_some, hsame, ne_eq, not_true, if_false]
  exact runs_pure () m

theorem runs_pull (peer : String) (lastSeen : LogId) (chunk : Chunk) (now : Instant) (n : Node) :
    (pull peer lastSeen).run.Runs n
      [.work now n n,
        .call peer (.readLogRequest n.url lastSeen n.settings.readLogLimit)
          (some (.ok (.readLog n.url lastSeen n.settings.readLogLimit chunk))),
        .work now n { n with hosts := n.hosts.observe peer chunk.currid now }]
      (some (.ok chunk)) { n with hosts := n.hosts.observe peer chunk.currid now } := by
  refine runs_bind (runs_inspect _ now n) ?_
  refine runs_bind
    (runs_call peer (.readLog n.url lastSeen n.settings.readLogLimit chunk) (by rfl) n) ?_
  exact runs_bind (runs_change _ now n) (runs_pure chunk _)

/-- A peer that says at once that there is nothing more. -/
theorem runs_catchUp (peer : String) (n : Node) (now : Instant) :
    ∃ deeds, (catchUp peer).run.Runs n deeds (some (.ok ()))
      { n with hosts := n.hosts.observe peer n.position now } := by
  have hsame : ({ n with hosts := n.hosts.observe peer n.position now } : Node).position = n.position :=
    rfl
  apply Exists.intro
  apply runs_iterate_done
  apply runs_bind (runs_inspect _ now n)
  apply runs_bind (runs_pull peer n.position { currid := n.position, isCurrent := true } now n)
  apply runs_bind (runs_inspect _ now _)
  rw [if_pos (by simp [hsame])]
  exact runs_pure (Sum.inr ()) _

theorem runs_askStatus (peer url : String) (isMaster : Bool) (master : String) (position : LogId)
    (n : Node) (now : Instant) :
    (askStatus peer).run.Runs n
      [.call peer .statusRequest (some (.ok (.status url position isMaster master))),
        .work now n { n with hosts := n.hosts.observe peer position now }]
      (some (.ok (isMaster, master))) { n with hosts := n.hosts.observe peer position now } := by
  refine runs_bind (runs_call peer (.status url position isMaster master) (by rfl) n) ?_
  exact runs_bind (runs_change _ now n) (runs_pure (isMaster, master) _)

end Succeeding

/-- A follower starts up behind a guard, whatever its peers reply and whatever else happens at it. If it
has started, it talked in this order: it found its newest entry on the configured peer, with the same
timestamp, unless its log was empty; it asked that peer for pages; it found out who is master, that peer
or the one that it named; it found its newest entry on another master too; and it registered with that
master, which it follows. If the first reply tells of no entry or one with another timestamp than its
own newest entry, it has failed with a mismatch, has sent nothing else and its log is as it was. If it
has failed in any way, it has adopted no host table and is not tailing. -/
theorem startup_guards {n n' : Node} {deeds : List Deed} {r : Option (Except Error Unit)}
    (hfollower : n.standing.isMaster = false) (hrun : startup.run.Runs n deeds r n') :
    (r = some (.ok ()) →
      ∃ (guard pulls asked check : List Call) (reply : Message),
        calls deeds = guard ++ pulls ++ asked ++ check ++
          [⟨n'.standing.master, .registerRequest n'.url n'.position, some (.ok reply)⟩] ∧
        n.holdings.Agreed n.standing.master guard ∧
        (∀ k ∈ pulls, k.peer = n.standing.master ∧ k.message.command = .readLog) ∧
        Confirmed n.standing.master n'.standing.master asked ∧
        (if n'.standing.master = n.standing.master then check = []
          else n'.holdings.Agreed n'.standing.master check) ∧
        reply.command = .register ∧ n'.phase = .tailing) ∧
    (n.position ≠ 0 →
      (∀ k ∈ (calls deeds).head?,
        k.peer = n.standing.master ∧ k.message = .readOneRequest n.position) ∧
      ∀ mine id theirs later, n.holdings.Newest mine →
        theirs.map (·.timestamp) ≠ some mine.timestamp →
        calls deeds =
          ⟨n.standing.master, .readOneRequest n.position, some (.ok (.readOne id theirs))⟩ :: later →
        r = some (.error (.logMismatch n.position (some mine.timestamp) (theirs.map (·.timestamp)))) ∧
          later = [] ∧ n'.holdings = n.holdings) ∧
    (∀ error, r = some (.error error) →
      (∀ deed ∈ deeds, deed.Modest) ∧ Unregistered (calls deeds) ∧ n'.phase ≠ .tailing) := by
  have hends := acts_startup n.footing [] n deeds r n' ⟨⟨hfollower, rfl, rfl⟩, by simp⟩ hrun
  rw [List.nil_append] at hends
  match r with
  | none =>
    refine ⟨nofun, fun hposition => ⟨Holdings.Begun.head? hends hposition, ?_⟩, nofun⟩
    intro mine id theirs later hmine hdiffers hcalls
    exact (Holdings.Begun.not_differs hends hposition hmine hdiffers hcalls).elim
  | some (.error error) =>
    obtain ⟨hphase, hmodest, hunregistered, hguard⟩ := hends
    refine ⟨nofun, fun hposition => ?_, fun _ _ => ⟨hmodest, hunregistered, hphase⟩⟩
    rcases hguard with hbegun | ⟨hrefused, hholdings⟩
    · refine ⟨hbegun.head? hposition, ?_⟩
      intro mine id theirs later hmine hdiffers hcalls
      exact (hbegun.not_differs hposition hmine hdiffers hcalls).elim
    · generalize hmade : calls deeds = made at hrefused
      cases hrefused with
      | @differs mine id theirs hmine hdiffers =>
        refine ⟨?_, ?_⟩
        · intro k hk
          cases hk
          exact ⟨rfl, rfl⟩
        · intro mine' id' theirs' later hmine' _ hcalls
          cases hcalls
          rw [hmine.unique hmine']
          exact ⟨rfl, rfl, hholdings⟩
  | some (.ok ()) =>
    obtain ⟨guard, pulls, asked, check, reply, hcalls, hguard, hrest⟩ := hends
    have hbegins : guard <+: calls deeds := by
      rw [hcalls]
      simp only [List.append_assoc]
      exact List.prefix_append _ _
    refine ⟨fun _ => ⟨guard, pulls, asked, check, reply, hcalls, hguard, hrest⟩, fun hposition => ?_,
      nofun⟩
    refine ⟨hguard.head? hposition hbegins, ?_⟩
    intro mine id theirs later hmine hdiffers hsame
    rw [hsame] at hbegins
    exact (hguard.not_differs hposition hmine hdiffers hbegins).elim

/-! ### A run with a redirect -/

/-- A log's only entry. -/
def firstEntry : Entry :=
  { id := 1, timestamp := 5, updater := "x", items := [.put (Key.record 7) [1]] }

/-- A follower whose log has one entry. -/
def waking (master : String) (phase : Phase) (hosts : HostTable) : Node where
  log := { standing := Standing.start "http://b" false (some master), counters := { position := 1 }
           store := { engine := .tree
                      rows := (∅ : Rows).insert (Key.log 1) (Stored.encode firstEntry) } }
  hosts := hosts
  buffer := PushBuffer.new 4
  queue := PushQueue.new 4
  phase := phase
  settings := ⟨100, 2, 4, 50, 100, 1000⟩
  secret := "wolf"

section Redirect

variable (master : String) (phase : Phase) (hosts : HostTable)

theorem position_waking : (waking master phase hosts).position = 1 := rfl

theorem readOne_waking :
    (waking master phase hosts).onLog (Log.onStore (Log.readOne 1)) =
      (.ok (some firstEntry), waking master phase hosts) := by
  have hread : ((Log.readOne 1).run.run (waking master phase hosts).log.store).1 =
      .ok (some firstEntry) := by
    show ((Log.readOne 1).run.run (waking "" .cold (HostTable.new "" 0 0)).log.store).1 = _
    decide +kernel
  have hstore : ((Log.readOne 1).run.run (waking master phase hosts).log.store).2 =
      (waking master phase hosts).log.store :=
    Store.Aged.eq_of_no_outage (Log.ensures_readOne_rows 1).1 rfl
  exact Node.onLog_onStore_unchanged (Prod.ext hread hstore)

theorem runs_compareLog_waking (peer : String) :
    ∃ deeds, (compareLog peer).run.Runs (waking master phase hosts) deeds (some (.ok ()))
      (waking master phase hosts) :=
  ⟨_, runs_compareLog (position_waking master phase hosts) (by decide) 7
    (readOne_waking master phase hosts) (rfl : firstEntry.timestamp = _) peer⟩

end Redirect

/-- The configured peer names another node, which says that it is master and has the entry too. -/
theorem runs_startup_waking :
    ∃ deeds n', startup.run.Runs (waking "http://a" .cold (HostTable.new "http://b" 1 0)) deeds
      (some (.ok ())) n' ∧ n'.standing.master = "http://c" := by
  apply Exists.intro
  apply Exists.intro
  apply And.intro
  · apply runs_bind (runs_change _ 7 _)
    apply runs_bind (runs_inspect _ 7 _)
    -- the guard
    apply runs_bind (runs_change _ 7 _)
    apply runs_bind (runs_inspect _ 7 _)
    apply runs_bind (runs_compareLog_waking "http://a" .cold _ "http://a").choose_spec
    -- the history and the redirect
    apply runs_bind (runs_change _ 7 _)
    apply runs_bind (runs_catchUp "http://a" _ 7).choose_spec
    apply runs_bind
    · apply runs_bind (runs_askStatus "http://a" "http://a" false "http://c" 1 _ 7)
      apply runs_bind (runs_askStatus "http://c" "http://c" true "http://c" 1 _ 7)
      apply runs_pure
    apply runs_bind (runs_change _ 7 _)
    apply runs_bind (runs_compareLog_waking "http://c" .catchup _ "http://c").choose_spec
    -- the registration
    apply runs_bind
    · apply runs_bind (runs_inspect _ 7 _)
      apply runs_bind (runs_call "http://c" (.register "http://b" 1 []) (by rfl) _)
      apply runs_change _ 7
    apply runs_change _ 7
  · rfl

theorem startup_guards_redirected :
    ∃ (n n' : Node) (deeds : List Deed), n.standing.isMaster = false ∧ n.position ≠ 0 ∧
      startup.run.Runs n deeds (some (.ok ())) n' ∧ n'.standing.master ≠ n.standing.master ∧
      ∃ (guard pulls asked check : List Call) (reply : Message),
        calls deeds = guard ++ pulls ++ asked ++ check ++
          [⟨n'.standing.master, .registerRequest n'.url n'.position, some (.ok reply)⟩] ∧
        n.holdings.Agreed n.standing.master guard ∧
        (∀ k ∈ pulls, k.peer = n.standing.master ∧ k.message.command = .readLog) ∧
        Confirmed n.standing.master n'.standing.master asked ∧
        (if n'.standing.master = n.standing.master then check = []
          else n'.holdings.Agreed n'.standing.master check) ∧
        reply.command = .register ∧ n'.phase = .tailing := by
  obtain ⟨deeds, n', hrun, hmaster⟩ := runs_startup_waking
  refine ⟨_, n', deeds, rfl, by decide, hrun, ?_, (startup_guards rfl hrun).1 rfl⟩
  rw [hmaster]
  decide

end Lifecycle

end LogShipping
