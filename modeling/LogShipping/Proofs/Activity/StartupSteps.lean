import LogShipping.Proofs.Activity.Runs
import LogShipping.Proofs.Store.Fences

/-!
# The steps of a startup

A follower that starts up compares its newest entry with a peer, pulls pages until it gets an empty one,
asks who is master and registers there. Each step is described by the calls it makes and by the footing
on which it leaves the node; up to the registration the node has adopted no host table (`Stands`).
Replies are any, and so is what else happens at the node meanwhile.

A footing is who the node is, whom it follows, its phase and what its log holds. What others do at a
follower leaves it alone, so each step needs to say only what it does itself; the calls so far are
carried along, and are what the guard of the whole startup is stated in (`Proofs.Activity.Startup`).

The stores may fail at any point here, and so may every call. An entry that cannot be read is a failure
of the comparison and not a difference.
-/

namespace LogShipping

open Work

/-! ## Calls -/

/-- A call of a node; while it waits for the reply, there is none. -/
structure Call where
  peer : String
  message : Message
  reply : Option (Except Error Message)

/-- The calls of a deed. -/
def Deed.calls : Deed → List Call
  | .call peer m reply => [⟨peer, m, reply⟩]
  | .callAll peers m replies => peers.mapIdx fun i peer => ⟨peer, m, replies.bind (·[i]?)⟩
  | _ => []

/-- The calls of a run, in order. -/
def calls (deeds : List Deed) : List Call := deeds.flatMap Deed.calls

@[simp] theorem calls_nil : calls [] = [] := rfl

@[simp] theorem calls_append (first second : List Deed) :
    calls (first ++ second) = calls first ++ calls second := List.flatMap_append

@[simp] theorem calls_work (now : Instant) (before after : Node) :
    calls [.work now before after] = [] := rfl

@[simp] theorem calls_call (peer : String) (m : Message) (reply : Option (Except Error Message)) :
    calls [.call peer m reply] = [⟨peer, m, reply⟩] := rfl

@[simp] theorem calls_beside (before after : Node) : calls [.beside before after] = [] := rfl

@[simp] theorem calls_round : calls [.round] = [] := rfl

/-- A step of the activity itself leaves the host table alone or notes one host in it; it adopts none. -/
def Deed.Modest : Deed → Prop
  | .work now before after =>
    after.hosts = before.hosts ∨ ∃ url position, after.hosts = before.hosts.observe url position now
  | _ => True

/-! ## Comparisons -/

/-- What a log holds: its counters, and the rows of its store. -/
structure Holdings where
  counters : Counters
  rows : Rows

/-- What the log of a node holds. -/
def Node.holdings (n : Node) : Holdings := ⟨n.log.counters, n.log.store.rows⟩

namespace Holdings

/-- The id of the newest entry. -/
def position (l : Holdings) : LogId := l.counters.position

/-- The newest entry can be read, and this is it. -/
def Newest (l : Holdings) (e : Entry) : Prop :=
  ∃ record, l.rows[Key.log l.position]? = some record ∧ Stored.decode record = .ok e

theorem Newest.unique {l : Holdings} {e e' : Entry} (h : l.Newest e) (h' : l.Newest e') : e = e' := by
  obtain ⟨record, hrecord, hdecode⟩ := h
  obtain ⟨record', hrecord', hdecode'⟩ := h'
  rw [hrecord] at hrecord'
  cases hrecord'
  rw [hdecode] at hdecode'
  cases hdecode'
  rfl

/-- The request for the newest entry, with what came of it. -/
def comparing (l : Holdings) (peer : String) (reply : Option (Except Error Message)) : Call :=
  ⟨peer, .readOneRequest l.position, reply⟩

/-- Calls by which the newest entry was found on a peer with the same timestamp; an empty log needs
none. -/
inductive Agreed (l : Holdings) (peer : String) : List Call → Prop where
  | empty (hempty : l.position = 0) : l.Agreed peer []
  | same {mine theirs : Entry} (id : LogId) (hposition : l.position ≠ 0) (hmine : l.Newest mine)
      (hsame : theirs.timestamp = mine.timestamp) :
      l.Agreed peer [l.comparing peer (some (.ok (.readOne id (some theirs))))]

/-- Calls by which the newest entry was found missing on a peer, or with another timestamp, and the
error that says so. -/
inductive Refused (l : Holdings) (peer : String) : Error → List Call → Prop where
  | differs {mine : Entry} (id : LogId) (theirs : Option Entry) (hmine : l.Newest mine)
      (hdiffers : theirs.map (·.timestamp) ≠ some mine.timestamp) :
      l.Refused peer (.logMismatch l.position (some mine.timestamp) (theirs.map (·.timestamp)))
        [l.comparing peer (some (.ok (.readOne id theirs)))]

/-- Calls that tell nothing of the entry on the peer: none, one that waits, or one without a proper
reply. -/
inductive Unsettled (l : Holdings) (peer : String) : List Call → Prop where
  | none : l.Unsettled peer []
  | one (reply : Option (Except Error Message))
      (hreply : ∀ id entry, reply ≠ some (.ok (.readOne id entry))) :
      l.Unsettled peer [l.comparing peer reply]

end Holdings

/-! ## Stories of a startup -/

/-- What a startup goes by: who the node is, whom it follows, its phase and what its log holds. -/
structure Footing where
  url : String
  master : String
  phase : Phase
  holdings : Holdings

/-- The footing of a node. -/
def Node.footing (n : Node) : Footing := ⟨n.url, n.standing.master, n.phase, n.holdings⟩

/-- A follower with some footing, which has made these calls. -/
structure Sits (f : Footing) (made : List Call) (h : List Deed) (n : Node) : Prop where
  follower : n.standing.isMaster = false
  footing : n.footing = f
  calls : calls h = made

/-- A follower with some footing, which has made these calls and adopted no table. -/
structure Stands (f : Footing) (made : List Call) (h : List Deed) (n : Node) : Prop
    extends Sits f made h n where
  modest : ∀ deed ∈ h, deed.Modest

section Stories

variable {f f' : Footing} {made : List Call} {h : List Deed} {n n' : Node}

theorem Sits.steady (f : Footing) (made : List Call) : Story.Steady (Sits f made) where
  beside := by
    intro h n m hsits hbeside
    have halike := hbeside.alike
    refine ⟨halike.isMaster.trans hsits.follower, ?_, by simpa using hsits.calls⟩
    rw [← hsits.footing, Node.footing, Node.footing, Node.holdings, Node.holdings, halike.url,
      halike.master, halike.phase, halike.counters hsits.follower, halike.rows hsits.follower]
  round := fun hsits => ⟨hsits.follower, hsits.footing, by simpa using hsits.calls⟩

/-- A step of the activity that changes the footing in a known way. -/
theorem Sits.work (hsits : Sits f made h n) {now : Instant}
    (hfollower : n'.standing.isMaster = n.standing.isMaster) (hfooting : n'.footing = f') :
    Sits f' made (h ++ [.work now n n']) n' :=
  ⟨hfollower.trans hsits.follower, hfooting, by simpa using hsits.calls⟩

theorem modest_append {deed : Deed} (hmodest : ∀ deed ∈ h, deed.Modest) (hdeed : deed.Modest) :
    ∀ other ∈ h ++ [deed], other.Modest := by
  intro other hother
  rcases List.mem_append.mp hother with hother | hother
  · exact hmodest other hother
  · rw [List.mem_singleton.mp hother]
    exact hdeed

namespace Stands

theorem steady (f : Footing) (made : List Call) : Story.Steady (Stands f made) where
  beside := fun hstands hbeside =>
    ⟨(Sits.steady f made).beside hstands.toSits hbeside, modest_append hstands.modest trivial⟩
  round := fun hstands =>
    ⟨(Sits.steady f made).round hstands.toSits, modest_append hstands.modest trivial⟩

theorem work (hstands : Stands f made h n) {now : Instant}
    (hfollower : n'.standing.isMaster = n.standing.isMaster) (hfooting : n'.footing = f')
    (hmodest : Deed.Modest (.work now n n')) : Stands f' made (h ++ [.work now n n']) n' :=
  ⟨hstands.toSits.work hfollower hfooting, modest_append hstands.modest hmodest⟩

theorem look (hstands : Stands f made h n) (now : Instant) :
    Stands f made (h ++ [.work now n n]) n :=
  hstands.work rfl hstands.footing (.inl rfl)

theorem enter (hstands : Stands f made h n) (now : Instant) (phase : Phase) :
    Stands { f with phase := phase } made (h ++ [.work now n { n with phase := phase }])
      { n with phase := phase } := by
  refine hstands.work rfl ?_ (.inl rfl)
  rw [← hstands.footing]
  rfl

/-- Following a master, perhaps a new one. -/
theorem follow (hstands : Stands f made h n) (now : Instant) (master : String) (buffer : PushBuffer) :
    Stands { f with master := master } made
      (h ++ [.work now n { n.restand (·.follow master) with buffer := buffer }])
      { n.restand (·.follow master) with buffer := buffer } := by
  refine hstands.work hstands.follower.symm ?_ (.inl rfl)
  rw [← hstands.footing]
  rfl

/-- Reading in the store of the log. -/
theorem readStore {α : Type} {work : Access α} (hstands : Stands f made h n) (now : Instant)
    (hrows : (work.run.run n.log.store).2.rows = n.log.store.rows) :
    Stands f made (h ++ [.work now n (n.onLog (Log.onStore work)).2]) (n.onLog (Log.onStore work)).2 := by
  refine hstands.work rfl ?_ (.inl rfl)
  rw [← hstands.footing]
  exact congrArg (fun rows => Footing.mk n.url n.standing.master n.phase ⟨n.log.counters, rows⟩) hrows

theorem call (hstands : Stands f made h n) (peer : String) (m : Message)
    (reply : Option (Except Error Message)) :
    Stands f (made ++ [⟨peer, m, reply⟩]) (h ++ [.call peer m reply]) n :=
  ⟨⟨hstands.follower, hstands.footing, by simp [hstands.calls]⟩, modest_append hstands.modest trivial⟩

end Stands

end Stories

/-! ## Comparing -/

/-- Reading an entry from the own store. -/
theorem Log.ensures_readOne_rows (id : LogId) {s : Store} :
    Ensures (readOne id) s fun r t => s.Aged t ∧
      ∀ e, r = .ok (some e) → ∃ record, s.rows[Key.log id]? = some record ∧
        Stored.decode record = .ok e := by
  refine Ensures.bind ((Store.ensures_lookup (Key.log id)).mono ?_)
  rintro r t ⟨ht, rfl | ⟨-, fault, rfl⟩⟩
  · dsimp only
    split
    · exact Ensures.pure ⟨ht, fun e he => by cases he⟩
    · next record hrecord =>
      split
      · next e hdecode => exact Ensures.pure ⟨ht, fun e' he' => by cases he'; exact ⟨record, hrecord, hdecode⟩⟩
      · exact Ensures.fail ⟨ht, fun e he => by cases he⟩
  · exact ⟨ht, fun e he => by cases he⟩

/-- Work in the store that leaves it as it is leaves the node as it is. -/
theorem Node.onLog_onStore_unchanged {α : Type} {n : Node} {work : Access α} {result : Except Error α}
    (h : work.run.run n.log.store = (result, n.log.store)) :
    n.onLog (Log.onStore work) = (result, n) := by
  have hrun : n.onLog (Log.onStore work) = ((work.run.run n.log.store).1,
      { n with log := { n.log with store := (work.run.run n.log.store).2 } }) := rfl
  rw [hrun, h]

namespace Lifecycle

open Terms

/-- What is asked of a comparison that has not found the logs to agree. -/
def comparing (f : Footing) (peer : String) (made : List Call) : Terms where
  underWay h n := ∃ more, f.holdings.Unsettled peer more ∧ Stands f (made ++ more) h n
  failed error h n :=
    ∃ more, (f.holdings.Unsettled peer more ∨ f.holdings.Refused peer error more) ∧ Stands f (made ++ more) h n

theorem waits_comparing (f : Footing) (peer : String) (made : List Call) :
    (comparing f peer made).Waits (Stands f made) :=
  ⟨Stands.steady f made, fun hstands => ⟨[], .none, by simpa using hstands⟩⟩

theorem acts_askEntry (f : Footing) (peer : String) (made : List Call) :
    (comparing f peer made).Acts (askEntry peer f.holdings.position) (Stands f made) fun entry h n =>
      ∃ id, Stands f (made ++ [f.holdings.comparing peer (some (.ok (.readOne id entry)))]) h n := by
  unfold askEntry
  refine Acts.bind (R := fun m h n => m.command = .readOne ∧
    Stands f (made ++ [f.holdings.comparing peer (some (.ok m))]) h n) ?_ fun m => ?_
  · refine Acts.call (waits_comparing f peer made) ?_ ?_ ?_
    · intro h n hstands
      exact ⟨_, .one none (fun _ _ hnone => by cases hnone), hstands.call peer _ none⟩
    · intro h n reply error hstands hother
      refine ⟨_, .inl (.one (some reply) fun id entry hsame => ?_), hstands.call peer _ (some reply)⟩
      exact hother _ (Option.some.inj hsame) rfl
    · exact fun h n answer hstands hcommand => ⟨hcommand, hstands.call peer _ _⟩
  · refine Acts.assuming fun hcommand => ?_
    cases m with
    | readOne id entry => exact Acts.pure fun h n hstands => ⟨id, hstands⟩
    | _ => cases hcommand

theorem acts_compareLog (f : Footing) (peer : String) (made : List Call) :
    (comparing f peer made).Acts (compareLog peer) (Stands f made) fun _ h n =>
      ∃ more, f.holdings.Agreed peer more ∧ Stands f (made ++ more) h n := by
  have hwaits := waits_comparing f peer made
  unfold compareLog
  refine Acts.bind (R := fun id h n => id = f.holdings.position ∧ Stands f made h n) ?_ fun id => ?_
  · refine Acts.inspect hwaits ?_
    intro h n now hstands
    exact ⟨by rw [← hstands.footing]; rfl, hstands.look now⟩
  refine Acts.assuming ?_
  rintro rfl
  split
  · next hposition =>
    refine Acts.bind (R := fun found h n =>
      (∀ mine, found = some mine → f.holdings.Newest mine) ∧ Stands f made h n) ?_ fun found => ?_
    · refine Acts.onLog hwaits ?_
      intro h n now hstands
      obtain ⟨haged, hfound⟩ := @Log.ensures_readOne_rows f.holdings.position n.log.store
      have hread := hstands.readStore now haged.1
      have hresult : (n.onLog (Log.onStore (Log.readOne f.holdings.position))).1 =
          ((Log.readOne f.holdings.position).run.run n.log.store).1 := rfl
      rw [hresult]
      cases hr : ((Log.readOne f.holdings.position).run.run n.log.store).1 with
      | error error => exact ⟨[], .inl .none, by simpa using hread⟩
      | ok found =>
        refine ⟨?_, hread⟩
        rintro mine rfl
        obtain ⟨record, hrecord, hdecode⟩ := hfound mine hr
        have hrows : f.holdings.rows = n.log.store.rows := by rw [← hstands.footing]; rfl
        exact ⟨record, by rw [hrows]; exact hrecord, hdecode⟩
    refine Acts.assuming fun hfound => ?_
    cases found with
    | none =>
      refine Acts.fail ?_
      intro h n hstands
      exact ⟨[], .inl .none, by simpa using hstands⟩
    | some mine =>
      refine Acts.bind (acts_askEntry f peer made) fun theirs => ?_
      refine Acts.of_exists fun id => ?_
      dsimp only
      split
      · next hdiffers =>
        exact Acts.fail fun h n hstands => ⟨_, .inr (.differs id theirs (hfound mine rfl) hdiffers), hstands⟩
      · next hsame =>
        refine Acts.pure fun h n hstands => ?_
        obtain ⟨e, rfl, he⟩ := Option.map_eq_some_iff.mp (not_not.mp hsame)
        exact ⟨_, .same id hposition (hfound mine rfl) he, hstands⟩
  · next hposition =>
    refine Acts.pure ?_
    intro h n hstands
    exact ⟨[], .empty (not_not.mp hposition), by simpa using hstands⟩

/-! ## Catching up -/

/-- Since a follower stood so, it has asked a peer for pages, and what its log holds may have changed. -/
def Pulled (f : Footing) (peer : String) (made : List Call) : Story := fun h n =>
  ∃ l pulls, Stands { f with holdings := l } (made ++ pulls) h n ∧
    ∀ k ∈ pulls, k.peer = peer ∧ k.message.command = .readLog

theorem steady_pulled (f : Footing) (peer : String) (made : List Call) :
    Story.Steady (Pulled f peer made) where
  beside := fun ⟨l, pulls, hstands, hpulls⟩ hbeside =>
    ⟨l, pulls, (Stands.steady _ _).beside hstands hbeside, hpulls⟩
  round := fun ⟨l, pulls, hstands, hpulls⟩ =>
    ⟨l, pulls, (Stands.steady _ _).round hstands, hpulls⟩

section CatchUp

variable (f : Footing) (peer : String) (made : List Call)

theorem acts_pull (lastSeen : LogId) :
    (keeping (Pulled f peer made)).Acts (pull peer lastSeen) (Pulled f peer made)
      fun _ => Pulled f peer made := by
  have hwaits := waits_keeping (steady_pulled f peer made)
  unfold pull
  refine Acts.bind (R := fun _ => Pulled f peer made) ?_ fun asking => ?_
  · exact Acts.inspect hwaits fun h n now ⟨l, pulls, hstands, hpulls⟩ =>
      ⟨l, pulls, hstands.look now, hpulls⟩
  refine Acts.bind (R := fun _ => Pulled f peer made) ?_ fun m => ?_
  · have hcall : ∀ h n reply, Pulled f peer made h n →
        Pulled f peer made
          (h ++ [.call peer (.readLogRequest asking.1 lastSeen asking.2) reply]) n := by
      rintro h n reply ⟨l, pulls, hstands, hpulls⟩
      refine ⟨l, pulls ++ [⟨peer, .readLogRequest asking.1 lastSeen asking.2, reply⟩], ?_, ?_⟩
      · rw [← List.append_assoc]
        exact hstands.call peer _ reply
      · intro k hk
        rcases List.mem_append.mp hk with hk | hk
        · exact hpulls k hk
        · cases List.mem_singleton.mp hk
          exact ⟨rfl, rfl⟩
    exact Acts.call hwaits (fun h n hpulled => hcall h n none hpulled)
      (fun h n reply _ hpulled _ => hcall h n (some reply) hpulled)
      fun h n answer hpulled _ => hcall h n _ hpulled
  · cases m with
    | readLog url seen limit chunk =>
      refine Acts.bind (R := fun _ => Pulled f peer made) ?_ fun _ => Acts.pure fun _ _ hpulled => hpulled
      refine Acts.change hwaits ?_
      rintro h n now ⟨l, pulls, hstands, hpulls⟩
      exact ⟨l, pulls, hstands.work rfl hstands.footing (.inr ⟨_, _, rfl⟩), hpulls⟩
    | _ => exact Acts.fail fun _ _ hpulled => hpulled

theorem acts_apply (entries : List Entry) :
    (keeping (Pulled f peer made)).Acts (onLog (Log.applyReplicated entries)) (Pulled f peer made)
      fun _ => Pulled f peer made := by
  refine Acts.onLog (waits_keeping (steady_pulled f peer made)) ?_
  rintro h n now ⟨l, pulls, hstands, hpulls⟩
  have hstanding : (n.onLog (Log.applyReplicated entries)).2.standing = n.standing :=
    @Log.ensures_applyReplicated_standing n.log entries
  have hpulled : Pulled f peer made
      (h ++ [.work now n (n.onLog (Log.applyReplicated entries)).2])
      (n.onLog (Log.applyReplicated entries)).2 := by
    refine ⟨(n.onLog (Log.applyReplicated entries)).2.holdings, pulls, ?_, hpulls⟩
    refine hstands.work (by rw [hstanding]) ?_ (.inl rfl)
    have hurl : n.standing.self = f.url := congrArg Footing.url hstands.footing
    have hmaster : n.standing.master = f.master := congrArg Footing.master hstands.footing
    have hphase : n.phase = f.phase := congrArg Footing.phase hstands.footing
    rw [← hurl, ← hmaster, ← hphase, ← hstanding]
    rfl
  cases (n.onLog (Log.applyReplicated entries)).1 with
  | error error => exact hpulled
  | ok _ => exact hpulled

theorem acts_catchUpOnce :
    (keeping (Pulled f peer made)).Acts (catchUpOnce peer) (Pulled f peer made)
      fun _ => Pulled f peer made := by
  have hposition : (keeping (Pulled f peer made)).Acts (inspect (·.position)) (Pulled f peer made)
      fun _ => Pulled f peer made :=
    Acts.inspect (waits_keeping (steady_pulled f peer made)) fun h n now ⟨l, pulls, hstands, hpulls⟩ =>
      ⟨l, pulls, hstands.look now, hpulls⟩
  have hrest : ∀ (before : LogId) (chunk : Chunk),
      (keeping (Pulled f peer made)).Acts (do
        let after ← inspect (·.position)
        if chunk.isCurrent && chunk.currid ≤ after then return .inr ()
        if after = before then throw (.consistency (.noProgress peer before chunk.currid))
        return .inl ()) (Pulled f peer made) fun (_ : Unit ⊕ Unit) => Pulled f peer made := by
    intro before chunk
    refine Acts.bind hposition fun after => ?_
    split
    · exact Acts.pure fun _ _ hpulled => hpulled
    · split
      · exact Acts.bind (R := fun _ => Pulled f peer made) (Acts.fail fun _ _ hpulled => hpulled)
          fun _ => Acts.pure fun _ _ hpulled => hpulled
      · exact Acts.pure fun _ _ hpulled => hpulled
  unfold catchUpOnce
  refine Acts.bind hposition fun before => ?_
  refine Acts.bind (acts_pull f peer made before) fun chunk => ?_
  dsimp only
  split
  · exact Acts.bind (acts_apply f peer made chunk.entries) fun _ => hrest before chunk
  · exact hrest before chunk

theorem acts_catchUp :
    (keeping (Pulled f peer made)).Acts (catchUp peer) (Pulled f peer made)
      fun _ => Pulled f peer made := by
  refine Acts.iterate (fun _ => Pulled f peer made)
    (fun _ => waits_keeping (steady_pulled f peer made)) fun _ => ?_
  refine (acts_catchUpOnce f peer made).mono (fun _ _ hpulled => hpulled) ?_
  rintro (_ | _) h n hpulled
  · exact hpulled
  · exact hpulled

end CatchUp

/-! ## Finding the master -/

/-- Calls by which a node was found to be master: the peer, or the one that the peer named. -/
inductive Confirmed (peer : String) : String → List Call → Prop where
  | itself (url : String) (position : LogId) (named : String) :
      Confirmed peer peer [⟨peer, .statusRequest, some (.ok (.status url position true named))⟩]
  | named {master : String} (url : String) (position : LogId) (hother : master ≠ peer)
      (url' : String) (position' : LogId) (named : String) :
      Confirmed peer master
        [⟨peer, .statusRequest, some (.ok (.status url position false master))⟩,
          ⟨master, .statusRequest, some (.ok (.status url' position' true named))⟩]

/-- Since a follower stood so, it has asked peers what they are. -/
def Asked (f : Footing) (made : List Call) : Story := fun h n =>
  ∃ asked, Stands f (made ++ asked) h n ∧ ∀ k ∈ asked, k.message = .statusRequest

theorem acts_askStatus (f : Footing) (made : List Call) {asked : List Call}
    (hasked : ∀ k ∈ asked, k.message = .statusRequest) (peer : String) :
    (keeping (Asked f made)).Acts (askStatus peer) (Stands f (made ++ asked)) fun told h n =>
      ∃ url position, Stands f (made ++ (asked ++
        [⟨peer, .statusRequest, some (.ok (.status url position told.1 told.2))⟩])) h n := by
  have hmore : ∀ reply, ∀ k ∈ asked ++ [(⟨peer, .statusRequest, reply⟩ : Call)],
      k.message = .statusRequest := by
    intro reply k hk
    rcases List.mem_append.mp hk with hk | hk
    · exact hasked k hk
    · cases List.mem_singleton.mp hk
      rfl
  have hcall : ∀ h n reply, Stands f (made ++ asked) h n →
      Stands f (made ++ (asked ++ [⟨peer, .statusRequest, reply⟩]))
        (h ++ [.call peer .statusRequest reply]) n := by
    intro h n reply hstands
    rw [← List.append_assoc]
    exact hstands.call peer _ reply
  unfold askStatus
  refine Acts.bind (R := fun m h n => m.command = .status ∧
    Stands f (made ++ (asked ++ [⟨peer, .statusRequest, some (.ok m)⟩])) h n) ?_ fun m => ?_
  · exact Acts.call ⟨Stands.steady _ _, fun hstands => ⟨asked, hstands, hasked⟩⟩
      (fun h n hstands => ⟨_, hcall h n none hstands, hmore none⟩)
      (fun h n reply _ hstands _ => ⟨_, hcall h n (some reply) hstands, hmore (some reply)⟩)
      fun h n answer hstands hcommand => ⟨hcommand, hcall h n _ hstands⟩
  · refine Acts.assuming fun hcommand => ?_
    cases m with
    | status url position isMaster named =>
      have hwaits : (keeping (Asked f made)).Waits (Stands f (made ++ (asked ++
          [⟨peer, .statusRequest, some (.ok (.status url position isMaster named))⟩]))) :=
        ⟨Stands.steady _ _, fun hstands => ⟨_, hstands, hmore _⟩⟩
      refine Acts.bind (Acts.change (R := fun _ => Stands f (made ++ (asked ++
        [⟨peer, .statusRequest, some (.ok (.status url position isMaster named))⟩]))) hwaits ?_) fun _ => ?_
      · exact fun h n now hstands => hstands.work rfl hstands.footing (.inr ⟨_, _, rfl⟩)
      · exact Acts.pure fun h n hstands => ⟨url, position, hstands⟩
    | _ => cases hcommand

theorem acts_confirmMaster (f : Footing) (made : List Call) (peer : String) :
    (keeping (Asked f made)).Acts (confirmMaster peer) (Stands f made) fun master h n =>
      ∃ asked, Confirmed peer master asked ∧ Stands f (made ++ asked) h n := by
  have hnone : ∀ k ∈ ([] : List Call), k.message = .statusRequest := by simp
  unfold confirmMaster
  refine Acts.bind (R := fun told h n => ∃ url position, Stands f (made ++
    [⟨peer, .statusRequest, some (.ok (.status url position told.1 told.2))⟩]) h n) ?_ ?_
  · exact (acts_askStatus f made hnone peer).mono (fun h n hstands => by simpa using hstands)
      fun _ _ _ hstands => hstands
  rintro ⟨isMaster, named⟩
  refine Acts.of_exists fun url => Acts.of_exists fun position => ?_
  have hfirst : ∀ k ∈ [(⟨peer, .statusRequest, some (.ok (.status url position isMaster named))⟩ : Call)],
      k.message = .statusRequest := fun k hk => by rw [List.mem_singleton.mp hk]
  dsimp only
  split
  · next hmaster =>
    rw [hmaster]
    exact Acts.pure fun h n hstands => ⟨_, .itself url position named, hstands⟩
  · next hfollower =>
    rw [Bool.not_eq_true] at hfollower
    split
    · exact Acts.bind (R := fun _ _ _ => False) (Acts.fail fun h n hstands => ⟨_, hstands, hfirst⟩)
        fun _ _ _ _ _ _ himpossible => himpossible.elim
    · next hother =>
      refine Acts.bind (acts_askStatus f made hfirst named) ?_
      rintro ⟨namedIsMaster, other⟩
      refine Acts.of_exists fun url' => Acts.of_exists fun position' => ?_
      dsimp only
      split
      · next hmaster =>
        rw [hfollower, hmaster]
        refine Acts.pure fun h n hstands => ⟨_, ?_, hstands⟩
        exact .named url position (fun hsame => hother (.inr hsame)) url' position' other
      · refine Acts.fail fun h n hstands => ⟨_, hstands, ?_⟩
        intro k hk
        rcases List.mem_append.mp hk with hk | hk
        · exact hfirst k hk
        · rw [List.mem_singleton.mp hk]

/-! ## Registering -/

/-- Calls without a proper reply to a registration. -/
def Unregistered (made : List Call) : Prop :=
  ∀ k ∈ made, k.message.command = .register → ∀ m, k.reply = some (.ok m) → m.command ≠ .register

/-- What is asked of a registration that has not succeeded. -/
def registering (f : Footing) (made : List Call) : Terms where
  underWay h _ := made <+: calls h
  failed _ h n := ∃ more, Unregistered more ∧ Stands f (made ++ more) h n

theorem acts_register (f : Footing) (made : List Call) (master : String) :
    (registering f made).Acts (register master) (Stands f made) fun _ h n =>
      ∃ reply : Message, reply.command = .register ∧ Sits f
        (made ++ [⟨master, .registerRequest f.url f.holdings.position, some (.ok reply)⟩]) h n := by
  have hwaits : ∀ more, (registering f made).Waits (Stands f (made ++ more)) := fun more =>
    ⟨Stands.steady _ _, fun {h n} hstands => by
      show made <+: calls h
      rw [hstands.calls]
      exact List.prefix_append _ _⟩
  have hnone : (registering f made).Waits (Stands f made) := by simpa using hwaits []
  unfold register
  refine Acts.bind (R := fun own h n => own = (f.url, f.holdings.position) ∧ Stands f made h n) ?_ ?_
  · refine Acts.inspect hnone fun h n now hstands => ⟨?_, hstands.look now⟩
    rw [← hstands.footing]
    rfl
  intro own
  refine Acts.assuming ?_
  rintro rfl
  refine Acts.bind (R := fun m h n => m.command = .register ∧ Stands f
    (made ++ [⟨master, .registerRequest f.url f.holdings.position, some (.ok m)⟩]) h n) ?_ fun m => ?_
  · refine Acts.call hnone ?_ ?_ ?_
    · intro h n hstands
      exact (hwaits _).underWay (hstands.call master _ none)
    · intro h n reply error hstands hother
      refine ⟨_, ?_, hstands.call master _ (some reply)⟩
      intro k hk _ m hm
      rw [List.mem_singleton.mp hk] at hm
      exact hother m (Option.some.inj hm)
    · exact fun h n answer hstands hcommand => ⟨hcommand, hstands.call master _ _⟩
  · refine Acts.assuming fun hcommand => ?_
    cases m with
    | register url position hosts =>
      refine Acts.change (hwaits _) fun h n now hstands => ?_
      exact ⟨_, hcommand, hstands.toSits.work rfl hstands.footing⟩
    | _ => cases hcommand

end Lifecycle

end LogShipping
