import LogShipping.Proofs.Push.Buffer
import LogShipping.Proofs.World.Backing

/-!
# Honest messages

A message is honest in a net if all that it tells is vouched for there. A node of a good net that
answers an honest message takes an admissible step, and its answer is honest as well (`handle_honest`);
so are its announcements and its pushes. Opening a node anew over its store keeps its history. A commit
brings in an entry that nobody has vouched for before, so it is only at nodes of origin that it leaves a
good net.

Honesty is a property of what a message says and of the net, not of who sent it or when. As nets only
grow in what they vouch for, an honest message stays honest for as long as it is under way, and one that
arrives twice is as honest the second time.

A node answers from one state, at the time when the message arrives. A status that is told in the middle
of a commit which fails afterwards would not be honest; it is no event of a world, and is what
`Proofs.World.Midway` is about. Messages of senders outside the cluster are not modelled: they do not
know the secret.
-/

namespace LogShipping

open Std

namespace Net

/-- What a message tells of entries and positions is so. -/
def Honest (origin : String → Prop) (net : Net) : Message → Prop
  | .register url position hosts =>
    net.Reached url position ∧ ∀ h ∈ hosts, net.Reached h.url h.logPosition
  | .readLog url lastSeen _ chunk =>
    net.Reached url lastSeen ∧ ∀ e ∈ chunk.entries, net.Backed origin e
  | .setHosts hosts => ∀ h ∈ hosts, net.Reached h.url h.logPosition
  | .addHost h => net.Reached h.url h.logPosition
  | .pushTransaction source e _ => net.Backed origin e ∧ net.Reached source e.id
  | .readOne .. | .status .. => True

/-- What a peer tells of its own position is so. -/
def Own (net : Net) (peer : String) : Message → Prop
  | .readLog _ _ _ chunk => net.Reached peer chunk.currid ∧ ∀ e ∈ chunk.entries, e.id ≤ chunk.currid
  | .status _ position _ _ => net.Reached peer position
  | _ => True

/-- An answer that a peer may have given. -/
def HonestAnswer (origin : String → Prop) (net : Net) (peer : String) (reply : Except Error Message) :
    Prop :=
  ∀ m, reply = .ok m → net.Reached peer 0 ∧ net.Honest origin m ∧ net.Own peer m

variable {origin : String → Prop} {u v : Net} {url : String} {n n' : Node} {now : Instant}

theorem Honest.grows {m : Message} (h : u.Honest origin m) (hu : u.Good origin) (huv : u.Grows v) :
    v.Honest origin m := by
  cases m with
  | register url position hosts => exact ⟨h.1.grows hu huv, fun host hhost => (h.2 host hhost).grows hu huv⟩
  | readOne id entry => trivial
  | readLog url lastSeen limit chunk =>
    exact ⟨h.1.grows hu huv, fun e he => (h.2 e he).grows huv⟩
  | setHosts hosts => exact fun host hhost => (h host hhost).grows hu huv
  | addHost host => exact Reached.grows h hu huv
  | pushTransaction source e accepted => exact ⟨h.1.grows huv, h.2.grows hu huv⟩
  | status url position isMaster master => trivial

theorem Own.climbs {peer : String} {m : Message} (h : u.Own peer m) (huv : u.Climbs v) :
    v.Own peer m := by
  cases m with
  | readLog url lastSeen limit chunk => exact ⟨h.1.climbs huv, h.2⟩
  | status url position isMaster master => exact Reached.climbs h huv
  | register url position hosts => trivial
  | readOne id entry => trivial
  | setHosts hosts => trivial
  | addHost host => trivial
  | pushTransaction source e accepted => trivial

theorem HonestAnswer.grows {peer : String} {reply : Except Error Message}
    (h : u.HonestAnswer origin peer reply) (hu : u.Good origin) (huv : u.Grows v) :
    v.HonestAnswer origin peer reply := by
  intro m hm
  obtain ⟨hpeer, hhonest, hown⟩ := h m hm
  exact ⟨hpeer.grows hu huv, hhonest.grows hu huv, hown.climbs (huv.climbs hu)⟩

/-- The answer as the caller of a failed service sees it is as honest as the answer. -/
theorem HonestAnswer.mapError {peer : String} {reply : Except Error Message} {f : Error → Error}
    (h : u.HonestAnswer origin peer reply) : u.HonestAnswer origin peer (reply.mapError f) := by
  intro m hm
  cases reply with
  | error error => cases hm
  | ok b =>
    cases hm
    exact h _ rfl

/-- A reply checked for its command. -/
theorem HonestAnswer.expect {peer : String} {reply : Except Error Message} {command : Command}
    (h : u.HonestAnswer origin peer reply) :
    u.HonestAnswer origin peer (reply.bind (Message.expect command)) := by
  intro m hm
  cases reply with
  | error error => cases hm
  | ok a =>
    change Message.expect command a = .ok m at hm
    unfold Message.expect at hm
    split at hm
    · cases hm
      exact h _ rfl
    · cases hm

/-! ## Answering -/

/-- What a node makes of a message: an admissible step that leaves the position alone, an honest answer
and an honest announcement. -/
structure Answers (origin : String → Prop) (u : Net) (url : String) (n : Node)
    (answered : Answer × Node) : Prop where
  step : Admissible origin u n answered.2
  position : answered.2.position = n.position
  reply : u.HonestAnswer origin url answered.1.reply
  announcement : ∀ a, answered.1.announcement = some a → u.Reached a.host.url a.host.logPosition

/-- A refusal is honest. -/
theorem Answers.refusal (hnode : Vouched origin u url n) (error : Error) :
    Answers origin u url n (⟨.error error, none⟩, n) where
  step := hnode.admissible rfl rfl rfl rfl hnode.hosts hnode.buffer fun _ h => h
  position := rfl
  reply := by
    intro m hm
    cases hm
  announcement := by
    intro a ha
    cases ha

/-- A reply that tells of nothing but what is honest, after the table has changed at most. -/
theorem Answers.telling (hnode : Vouched origin u url n) (hn : u.node? url = some n)
    (hosts : HostTable) (m : Message) (announcement : Option Announcement)
    (hown : hosts.self = n.hosts.self) (hhosts : u.Vouches hosts) (hm : u.Honest origin m)
    (hpeer : u.Own url m)
    (hannouncement : ∀ a, announcement = some a → u.Reached a.host.url a.host.logPosition) :
    Answers origin u url n (⟨.ok m, announcement⟩, { n with hosts := hosts }) where
  step := hnode.admissible rfl rfl rfl hown hhosts hnode.buffer fun _ h => h
  position := rfl
  reply := by
    intro m' hm'
    cases hm'
    exact ⟨(reached_position hn).mono UInt64.zero_le, hm, hpeer⟩
  announcement := hannouncement

theorem reached_of_announcing {host : Host} (h : u.Reached host.url host.logPosition)
    {a : Announcement} (ha : n.announcing host = some a) : u.Reached a.host.url a.host.logPosition := by
  unfold Node.announcing at ha
  dsimp only at ha
  split at ha
  · cases ha
  · cases ha
    exact h

/-- A node that hands out a page tells its own position, and notes that of the reader. -/
theorem handleReadLog_honest (hu : u.Good origin) (hn : u.node? url = some n) {peer : String}
    {lastSeen : LogId} {limit : UInt32} (hpeer : u.Reached peer lastSeen) :
    Answers origin u url n (n.handleReadLog now peer lastSeen limit) := by
  have hnode := hu url n hn
  obtain ⟨entries, hholds, hbacked⟩ := hnode.log
  obtain ⟨haged, hr⟩ :=
    Log.ensures_readLog hholds.rows hholds.history n.position now lastSeen limit
  set s := ((Log.readLog n.position now lastSeen limit).run.run n.log.store).2 with hs
  have hrun : n.onLog (Log.onStore (Log.readLog n.position now lastSeen limit)) =
      (((Log.readLog n.position now lastSeen limit).run.run n.log.store).1,
        { n with log := { n.log with store := s } }) := rfl
  unfold Node.handleReadLog
  rw [hrun]
  cases hresult : ((Log.readLog n.position now lastSeen limit).run.run n.log.store).1 with
  | error error =>
    refine ⟨hnode.admissible rfl haged.1 rfl rfl hnode.hosts hnode.buffer fun _ h => h, rfl, ?_, ?_⟩
    · intro m hm
      cases hm
    · intro a ha
      cases ha
  | ok chunk =>
    rw [hresult] at hr
    -- a page that was handed out is no refusal, no breakdown and no failure of the store
    have hchunk : chunk.currid = n.position ∧ ∀ e ∈ chunk.entries, e ∈ entries := by
      rcases hr with ⟨c, hc, -, hcurrid, hmem⟩ | ⟨-, error, hc⟩ | ⟨hc, -⟩ | ⟨-, fault, hc⟩
      · cases hc
        exact ⟨hcurrid, hmem⟩
      · cases hc
      · cases hc
      · cases hc
    refine ⟨?_, ?_, ?_, ?_⟩
    · show Admissible origin u n (Node.noteReader now peer lastSeen chunk.isCurrent _)
      unfold Node.noteReader
      split
      · exact hnode.admissible rfl haged.1 rfl rfl hnode.hosts hnode.buffer fun _ h => h
      · have hhosts := @Vouches.observe u peer n.hosts lastSeen now hnode.hosts hpeer
        dsimp only
        split
        · exact hnode.admissible rfl haged.1 rfl rfl hhosts hnode.buffer fun _ h => h
        · exact hnode.admissible rfl haged.1 rfl rfl hhosts hnode.buffer fun _ h => h
    · show (Node.noteReader now peer lastSeen chunk.isCurrent _).position = n.position
      unfold Node.noteReader
      split
      · rfl
      · dsimp only
        split <;> rfl
    · intro m hm
      cases hm
      refine ⟨(reached_position hn).mono UInt64.zero_le, ⟨hpeer, fun e he => hbacked e (hchunk.2 e he)⟩,
        ?_, ?_⟩
      · rw [hchunk.1]
        exact reached_position hn
      · intro e he
        have hid := (hholds.history.id_bounds (hchunk.2 e he)).2
        have hposition : n.position.toNat = entries.length := hholds.position
        rw [hchunk.1, UInt64.le_iff_toNat_le, hposition]
        exact hid
    · intro a ha
      cases ha

/-- What is not announced tells nothing. -/
theorem reached_of_none : ∀ a, (none : Option Announcement) = some a →
    u.Reached a.host.url a.host.logPosition := by
  intro a ha
  cases ha

/-- A node that takes a follower in tells of hosts it knows, and announces the follower. -/
theorem handleRegister_honest (now : Instant) (hu : u.Good origin) (hn : u.node? url = some n)
    {peer : String} {position : LogId} (hpeer : u.Reached peer position) :
    Answers origin u url n (n.handleRegister now peer position) := by
  have hnode := hu url n hn
  unfold Node.handleRegister
  cases hmaster : n.standing.isMaster with
  | false => exact Answers.refusal hnode _
  | true =>
    have hhosts : u.Vouches (n.hosts.observe peer position now) := hnode.hosts.observe hpeer
    refine Answers.telling hnode hn (n.hosts.observe peer position now) _ _ rfl hhosts
      ⟨hpeer, fun host hhost => hhosts.mem_toList hhost⟩ trivial ?_
    intro a ha
    obtain ⟨host, hhost, ha⟩ := Option.bind_eq_some_iff.mp ha
    obtain ⟨hkey, hreached⟩ := hhosts peer host hhost
    subst hkey
    exact reached_of_announcing hreached ha

theorem handleReadOne_honest (hu : u.Good origin) (hn : u.node? url = some n) (id : LogId) :
    Answers origin u url n (n.handleReadOne id) := by
  have hnode := hu url n hn
  obtain ⟨entries, hholds, -⟩ := hnode.log
  obtain ⟨haged, -⟩ := Log.ensures_readOne hholds.rows hholds.history id
  refine ⟨?_, rfl, ?_, reached_of_none⟩
  · exact hnode.admissible rfl haged.1 rfl rfl hnode.hosts hnode.buffer fun _ h => h
  · intro m hm
    change Except.map _ ((Log.readOne id).run.run n.log.store).1 = .ok m at hm
    cases hr : ((Log.readOne id).run.run n.log.store).1 with
    | error error =>
      rw [hr] at hm
      cases hm
    | ok entry =>
      rw [hr] at hm
      cases hm
      exact ⟨(reached_position hn).mono UInt64.zero_le, trivial, trivial⟩

theorem handleAddHost_honest (hu : u.Good origin) (hn : u.node? url = some n) {host : Host}
    (hhost : u.Reached host.url host.logPosition) :
    Answers origin u url n (n.handleAddHost host) := by
  have hnode := hu url n hn
  unfold Node.handleAddHost Node.followersOnly
  cases hmaster : n.standing.isMaster with
  | true => exact Answers.refusal hnode _
  | false =>
    exact Answers.telling hnode hn (n.hosts.observe host.url host.logPosition host.lastSeen) _ none
      rfl (hnode.hosts.observe hhost) hhost trivial reached_of_none

/-- A node buffers what is backed. -/
theorem handlePush_honest (hu : u.Good origin) (hn : u.node? url = some n) {source : String} {e : Entry}
    (he : u.Honest origin (.pushRequest source e)) :
    Answers origin u url n (n.handlePush source e) := by
  have hnode := hu url n hn
  unfold Node.handlePush Node.followersOnly
  cases hmaster : n.standing.isMaster with
  | true => exact Answers.refusal hnode _
  | false =>
    by_cases hsource : source = n.standing.master
    · simp only [if_pos hsource]
      refine ⟨?_, rfl, ?_, reached_of_none⟩
      · refine hnode.admissible rfl rfl rfl rfl hnode.hosts ?_ fun _ h => h
        intro id f hf
        rcases PushBuffer.of_mem_insert hf with ⟨rfl, rfl, -⟩ | hold
        · exact ⟨rfl, he.1⟩
        · exact hnode.buffer id f hold
      · intro m hm
        cases hm
        exact ⟨(reached_position hn).mono UInt64.zero_le, he, trivial⟩
    · simp only [if_neg hsource]
      exact Answers.telling hnode hn n.hosts _ none rfl hnode.hosts he trivial reached_of_none

/-- A node of a good net answers honest messages honestly. -/
theorem handle_honest (now : Instant) (hu : u.Good origin) (hn : u.node? url = some n) {m : Message}
    (hm : u.Honest origin m) : Answers origin u url n (n.handle now m) := by
  have hnode := hu url n hn
  cases m with
  | register peer position hosts => exact handleRegister_honest now hu hn hm.1
  | readOne id entry => exact handleReadOne_honest hu hn id
  | readLog peer lastSeen limit chunk => exact handleReadLog_honest hu hn hm.1
  | setHosts hosts =>
    exact Answers.telling hnode hn (n.hosts.adopt hosts) _ none (HostTable.self_adopt _ _)
      (hnode.hosts.adopt hm) hm trivial reached_of_none
  | addHost host => exact handleAddHost_honest hu hn hm
  | pushTransaction source e accepted => exact handlePush_honest hu hn hm
  | status peer position isMaster master =>
    refine Answers.telling hnode hn n.hosts n.describe none rfl hnode.hosts trivial ?_ reached_of_none
    show u.Reached url n.position
    exact reached_position hn

/-! ## Commits -/

theorem mem_offer {e f : Entry} (h : f ∈ (n.offer e).queue.pending) : f ∈ n.queue.pending ∨ f = e := by
  unfold Node.offer at h
  split at h
  · change f ∈ (n.queue.offer e).pending at h
    unfold PushQueue.offer at h
    split at h
    · rcases List.mem_append.mp h with h | h
      · exact Or.inl h
      · exact Or.inr (List.mem_singleton.mp h)
    · exact Or.inl h
  · exact Or.inl h

theorem offer_frame (n : Node) (e : Entry) :
    (n.offer e).log = n.log ∧ (n.offer e).hosts = n.hosts ∧ (n.offer e).buffer = n.buffer := by
  unfold Node.offer
  split <;> exact ⟨rfl, rfl, rfl⟩

/-- A node after a commit: its log took the entry in and the entry may wait to be pushed, or nothing
has changed. -/
theorem commit_cases (now : Instant) (e : Entry) (hroom : n.position + 1 ≠ 0) :
    (∃ committed log, (n.commit now e).2 = Node.offer { n with log := log } committed ∧
      n.log.Took [committed] log ∧ e.reserved? = none ∧ n.standing.isMaster = true ∧
      committed = { e with id := n.position + 1, timestamp := now }) ∨ (n.commit now e).2 = n := by
  have hspec := @Log.ensures_commit n.log now e hroom
  unfold Ensures at hspec
  have hrun : n.onLog (Log.commit now e) = (((Log.commit now e).run.run n.log).1,
      { n with log := ((Log.commit now e).run.run n.log).2 }) := rfl
  unfold Node.commit
  rw [hrun]
  rcases hspec with ⟨committed, hr, htook, hcommitted, hreserved, hmaster⟩ | ⟨hr, hsame, -⟩
  · rw [hr]
    exact Or.inl ⟨committed, _, rfl, htook, hreserved, hmaster, hcommitted⟩
  · right
    rw [hsame]
    rcases hr with hr | ⟨error, hr⟩
    · rw [hr]
    · rw [hr]

/-- A commit at a node of origin leaves a good net. -/
theorem Good.commit (now : Instant) (hu : u.Good origin) (hn : u.node? url = some n) {e : Entry}
    (hfits : e.Fits) (hroom : n.position + 1 ≠ 0)
    (horigin : n.standing.isMaster = true → origin url) :
    u.Grows (u.put url (n.commit now e).2) ∧ (u.put url (n.commit now e).2).Good origin := by
  have hnode := hu url n hn
  obtain ⟨entries, hholds, hbacked⟩ := hnode.log
  rcases commit_cases now e hroom with
    ⟨committed, log, hafter, htook, hreserved, hmaster, hcommitted⟩ | hsame
  · obtain ⟨hlog, hhosts, hbuffer⟩ := offer_frame { n with log := log } committed
    rw [hafter]
    set n' := Node.offer { n with log := log } committed with hn'
    have hproper : ∀ f ∈ [committed], f.Proper := by
      intro f hf
      rw [List.mem_singleton.mp hf, hcommitted]
      exact ⟨Entry.reserved?_eq_none_iff.mp hreserved, (Entry.fits_congr rfl rfl).mpr hfits⟩
    -- the node is one of origin, so that what it took in is backed by itself
    have hgrows : u.Grows (u.put url n') := by
      refine grows_put hn ?_
      intro es hes
      refine ⟨[committed], ?_⟩
      rw [hlog]
      exact hes.took htook hproper
    have hthere : (u.put url n').node? url = some n' := by rw [node?_put, if_pos rfl]
    have hbackedCommitted : (u.put url n').Backed origin committed := by
      refine ⟨url, n', entries ++ [committed], horigin hmaster, hthere, ?_, by simp⟩
      rw [hlog]
      exact hholds.took htook hproper
    refine ⟨hgrows, hu.put hgrows ?_⟩
    exact {
      self := by
        rw [Node.standing, hlog]
        exact (congrArg Standing.self htook.standing).trans hnode.self
      own := by rw [hhosts]; exact hnode.own
      log := by
        refine ⟨entries ++ [committed], by rw [hlog]; exact hholds.took htook hproper, ?_⟩
        intro f hf
        rcases List.mem_append.mp hf with hf | hf
        · exact (hbacked f hf).grows hgrows
        · rw [List.mem_singleton.mp hf]
          exact hbackedCommitted
      hosts := by rw [hhosts]; exact hnode.hosts.grows hu hgrows
      buffer := by
        rw [hbuffer]
        exact fun id f hf => ⟨(hnode.buffer id f hf).1, (hnode.buffer id f hf).2.grows hgrows⟩
      queue := by
        have hposition : n'.position.toNat = n.position.toNat + 1 := by
          rw [Node.position, hlog]
          exact htook.position
        intro f hf
        rcases mem_offer hf with hold | rfl
        · obtain ⟨hf, hle⟩ := hnode.queue f hold
          refine ⟨hf.grows hgrows, UInt64.le_iff_toNat_le.mpr ?_⟩
          have := UInt64.le_iff_toNat_le.mp hle
          omega
        · refine ⟨hbackedCommitted, UInt64.le_iff_toNat_le.mpr ?_⟩
          have := htook.numbered 0 (by simp)
          change f.id.toNat = n.position.toNat + 0 + 1 at this
          omega }
  · rw [hsame, put_node? hn]
    exact ⟨Grows.refl u, hu⟩

/-! ## Pushes -/

/-- A push changes the queue only, and adds nothing to it. -/
theorem exists_queue_nextPush (n : Node) : ∃ queue, (Cluster.nextPush n).2 = { n with queue := queue } ∧
    ∀ e ∈ queue.pending, e ∈ n.queue.pending := by
  unfold Cluster.nextPush
  split
  · exact ⟨n.queue, rfl, fun _ h => h⟩
  · split
    · exact ⟨_, rfl, fun _ h => nomatch h⟩
    · split
      · next heq _ =>
        refine ⟨_, rfl, ?_⟩
        intro e he
        rw [heq]
        exact List.mem_cons_of_mem _ he
      · exact ⟨_, rfl, fun _ h => nomatch h⟩

/-- A push takes an entry out of the queue, if anything. -/
theorem nextPush_honest (hu : u.Good origin) (hn : u.node? url = some n) :
    Admissible origin u n (Cluster.nextPush n).2 ∧ (Cluster.nextPush n).2.log = n.log ∧
      ∀ e target, (Cluster.nextPush n).1 = some (e, target) →
        u.Honest origin (.pushRequest url e) := by
  have hnode := hu url n hn
  have hempty : Admissible origin u n { n with queue := { n.queue with pending := [] } } :=
    hnode.admissible rfl rfl rfl rfl hnode.hosts hnode.buffer fun e he => nomatch he
  unfold Cluster.nextPush
  split
  · exact ⟨hnode.admissible rfl rfl rfl rfl hnode.hosts hnode.buffer fun _ h => h, rfl,
      fun e target h => nomatch h⟩
  · split
    · exact ⟨hempty, rfl, fun e target h => nomatch h⟩
    · split
      · next e rest target hpending htarget =>
        have hmem : ∀ f ∈ e :: rest, f ∈ n.queue.pending := by
          intro f hf
          rw [hpending]
          exact hf
        refine ⟨hnode.admissible rfl rfl rfl rfl hnode.hosts hnode.buffer ?_, rfl, ?_⟩
        · exact fun f hf => hmem f (List.mem_cons_of_mem _ hf)
        · intro f peer hf
          cases hf
          obtain ⟨hbacked, hle⟩ := hnode.queue e (hmem e List.mem_cons_self)
          exact ⟨hbacked, n, hn, hle⟩
      · exact ⟨hempty, rfl, fun e target h => nomatch h⟩

/-! ## Openings -/

/-- A node that was opened over a store that holds a history. -/
structure Opened (setup : Setup) (now : Instant) (entries : List Entry) (n : Node) : Prop where
  holds : n.log.Holds entries
  standing : n.standing = Standing.start setup.url setup.isMaster setup.master
  hosts : n.hosts = HostTable.new setup.url n.position now
  buffer : n.buffer = PushBuffer.new setup.queueSize
  queue : n.queue = PushQueue.new setup.queueSize
  settings : n.settings = setup.settings
  phase : n.phase = if setup.isMaster then .master else .cold

theorem ensures_start {setup : Setup} {s : Store} {entries : List Entry}
    (hrows : s.rows = Rows.replay entries) (h : IsHistory entries) :
    Ensures (Node.start setup now) s fun r t => s.Aged t ∧
      ((∃ n, r = .ok n ∧ Opened setup now entries n ∧ n.log.store = t) ∨
        s.Refused .get r ∨ s.Refused .seekPrev r) := by
  have hstart : Node.start setup now =
      (do let _ ← Store.ensureFences
          Log.reopen (Standing.start setup.url setup.isMaster setup.master)) >>= fun log =>
        pure {
          log := log
          hosts := HostTable.new setup.url log.position now
          buffer := PushBuffer.new setup.queueSize
          queue := PushQueue.new setup.queueSize
          phase := if setup.isMaster then .master else .cold
          settings := setup.settings
          secret := setup.secret } := by
    rw [bind_assoc]
    rfl
  rw [hstart]
  refine Ensures.bind ((Log.ensures_reopen hrows h _).mono ?_)
  rintro r t ⟨haged, ⟨log, rfl, hholds, hstanding, hstore⟩ | ⟨hnot, fault, rfl⟩ | ⟨hnot, fault, rfl⟩⟩
  · exact Ensures.pure ⟨haged, Or.inl ⟨_, rfl, ⟨hholds, hstanding, rfl, rfl, rfl, rfl, rfl⟩, hstore⟩⟩
  · exact ⟨haged, Or.inr (Or.inl ⟨hnot, fault, rfl⟩)⟩
  · exact ⟨haged, Or.inr (Or.inr ⟨hnot, fault, rfl⟩)⟩

/-- A node that was opened holds nothing but its log. -/
theorem Opened.vouched {setup : Setup} {entries : List Entry} (h : Opened setup now entries n)
    (hurl : setup.url = url) (hn : u.node? url = some n)
    (hbacked : ∀ e ∈ entries, u.Backed origin e) : Vouched origin u url n where
  self := by
    rw [h.standing]
    exact hurl
  own := by
    rw [h.hosts]
    exact hurl
  log := ⟨entries, h.holds, hbacked⟩
  hosts := by
    rw [h.hosts, hurl]
    exact vouches_new (reached_position hn)
  buffer := by
    intro id e he
    rw [h.buffer] at he
    change (∅ : ExtTreeMap LogId Entry)[id]? = some e at he
    rw [ExtTreeMap.getElem?_empty] at he
    cases he
  queue := by
    intro e he
    rw [h.queue] at he
    cases he

/-- A node that was opened is not tailing. -/
theorem Opened.phase_ne {setup : Setup} {entries : List Entry} (h : Opened setup now entries n) :
    n.phase ≠ .tailing := by
  rw [h.phase]
  split <;> exact nofun

/-- A node that could be opened over a store holds what the store holds. -/
theorem opened_of_start {setup : Setup} {s : Store} {time : Instant} {entries : List Entry}
    (hrows : s.rows = Rows.replay entries) (h : IsHistory entries)
    (hr : ((Node.start setup time).run.run s).1 = .ok n) : Opened setup time entries n := by
  obtain ⟨-, ⟨m, hm, hopened, -⟩ | ⟨-, fault, hm⟩ | ⟨-, fault, hm⟩⟩ :=
    @ensures_start time setup s entries hrows h
  · rw [hr] at hm
    cases hm
    exact hopened
  · rw [hr] at hm
    cases hm
  · rw [hr] at hm
    cases hm

theorem Good.position_reopen (hu : u.Good origin) (hn : u.node? url = some n) {setup : Setup}
    {n' : Node} {time : Instant} (hr : ((Node.start setup time).run.run n.log.store).1 = .ok n') :
    n'.position = n.position := by
  obtain ⟨entries, hholds, -⟩ := (hu url n hn).log
  apply UInt64.toNat_inj.mp
  exact (opened_of_start hholds.rows hholds.history hr).holds.position.trans hholds.position.symm

/-- A node opened anew over its store leaves a good net. -/
theorem Good.reopen (hu : u.Good origin) (hn : u.node? url = some n) {setup : Setup}
    (hurl : setup.url = url) {n' : Node} {time : Instant}
    (hr : ((Node.start setup time).run.run n.log.store).1 = .ok n') :
    u.Grows (u.put url n') ∧ (u.put url n').Good origin := by
  obtain ⟨entries, hholds, hbacked⟩ := (hu url n hn).log
  have hgrows : u.Grows (u.put url n') := by
    refine grows_put hn ?_
    intro es hes
    exact ⟨[], by rw [List.append_nil]; exact (opened_of_start hes.rows hes.history hr).holds⟩
  refine ⟨hgrows, hu.put hgrows ?_⟩
  exact (opened_of_start hholds.rows hholds.history hr).vouched hurl (by rw [node?_put, if_pos rfl])
    fun e he => (hbacked e he).grows hgrows

end Net

end LogShipping
