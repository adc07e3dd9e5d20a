import LogShipping.Cluster
import LogShipping.Proofs.World.Strides

/-!
# What others do at a node

While a node carries on an activity, it serves its peers, commits, pushes in the background, and may be
told to stop; its store may fall out. All of that (`Node.Beside`) leaves alone who the node is, what
role it has, whom it follows and which phase it is in, and on a follower the log as well (`Node.Alike`).
Its host table changes by observations and by tables that it adopts, one of them at most in a step
(`Beside.turn`).

`Node.Beside` is an inductive relation with one constructor for each thing that may happen, so that
every later module looks at others through the two lemmas `Beside.alike` and `Beside.turn` alone.
Whatever is added to the service of a node has to be added there, and nowhere else.

Each of these things is one step: a commit is seen before or after, and not between the claim of its id
and the write. What a reader sees in between is the subject of `Proofs.World.Midway`. A node that is
opened anew is not beside its activities either, as they end with it.
-/

namespace LogShipping

/-- What else may happen at a node while it carries on an activity: it answers a message, commits an
entry or is told to stop, its store falls out or is repaired, and entries are pushed in the
background. -/
inductive Node.Beside (n : Node) : Node → Prop where
  | answer (now : Instant) (m : Message) : n.Beside (n.handle now m).2
  | commit (now : Instant) (e : Entry) : n.Beside (n.commit now e).2
  | outage (outage : Option Outage) :
      n.Beside { n with log := { n.log with store := { n.log.store with outage := outage } } }
  | stop : n.Beside (n.restand Standing.stop)
  | push : n.Beside (Cluster.nextPush n).2
  | lose (target : String) : n.Beside (n.restand (·.lose target))

/-- What is left alone at a node: all but its host table, its buffer, its queue, its push target and
whether it was told to stop, and on a follower the log too. -/
structure Node.Alike (n n' : Node) : Prop where
  url : n'.url = n.url
  isMaster : n'.standing.isMaster = n.standing.isMaster
  master : n'.standing.master = n.standing.master
  phase : n'.phase = n.phase
  settings : n'.settings = n.settings
  self : n'.hosts.self = n.hosts.self
  counters : n.standing.isMaster = false → n'.log.counters = n.log.counters
  rows : n.standing.isMaster = false → n'.log.store.rows = n.log.store.rows

/-- A change of a host table: an observation, a table of another node, or none. -/
inductive HostTable.Turn (table : HostTable) : HostTable → Prop where
  | same : table.Turn table
  | observe (url : String) (position : LogId) (seen : Instant) :
      table.Turn (table.observe url position seen)
  | adopt (snapshot : List Host) : table.Turn (table.adopt snapshot)

theorem HostTable.Turn.self_eq {table table' : HostTable} (h : table.Turn table') :
    table'.self = table.self := by
  cases h with
  | same => rfl
  | observe url position seen => rfl
  | adopt snapshot => exact self_adopt table snapshot

/-- What serving a peer leaves of a node: the counters, the settings, and a host table with one change
at most. -/
structure Node.Served (n n' : Node) : Prop where
  counters : n'.log.counters = n.log.counters
  settings : n'.settings = n.settings
  hosts : n.hosts.Turn n'.hosts

namespace Node

variable {n n' m : Node}

/-! ## Answers -/

theorem served_noteReader (n : Node) (now : Instant) (url : String) (lastSeen : LogId)
    (isCurrent : Bool) : n.Served (n.noteReader now url lastSeen isCurrent) := by
  unfold noteReader
  split
  · exact ⟨rfl, rfl, .same⟩
  · dsimp only
    split <;> exact ⟨rfl, rfl, .observe url lastSeen now⟩

theorem served_handleReadLog (n : Node) (now : Instant) (url : String) (lastSeen : LogId)
    (limit : UInt32) : n.Served (n.handleReadLog now url lastSeen limit).2 := by
  have hread : (n.onLog (Log.onStore (Log.readLog n.position now lastSeen limit))).2.log.counters =
      n.log.counters ∧
      (n.onLog (Log.onStore (Log.readLog n.position now lastSeen limit))).2.settings = n.settings ∧
      (n.onLog (Log.onStore (Log.readLog n.position now lastSeen limit))).2.hosts = n.hosts :=
    ⟨rfl, rfl, rfl⟩
  unfold handleReadLog
  split
  · next heq =>
    rw [heq] at hread
    exact ⟨hread.1, hread.2.1, hread.2.2 ▸ .same⟩
  · next chunk m heq =>
    rw [heq] at hread
    obtain ⟨hcounters, hsettings, hhosts⟩ := served_noteReader m now url lastSeen chunk.isCurrent
    exact ⟨hcounters.trans hread.1, hsettings.trans hread.2.1, hread.2.2 ▸ hhosts⟩

theorem served_handle (n : Node) (now : Instant) (m : Message) : n.Served (n.handle now m).2 := by
  cases m with
  | register url position hosts =>
    show n.Served (n.handleRegister now url position).2
    unfold handleRegister
    split
    · exact ⟨rfl, rfl, .same⟩
    · exact ⟨rfl, rfl, .observe url position now⟩
  | readOne id entry => exact ⟨rfl, rfl, .same⟩
  | readLog url lastSeen limit chunk => exact served_handleReadLog n now url lastSeen limit
  | setHosts hosts => exact ⟨rfl, rfl, .adopt hosts⟩
  | addHost host =>
    show n.Served (n.handleAddHost host).2
    unfold handleAddHost
    split
    · exact ⟨rfl, rfl, .same⟩
    · exact ⟨rfl, rfl, .observe _ _ _⟩
  | pushTransaction source e accepted =>
    show n.Served (n.handlePush source e).2
    unfold handlePush
    split
    · exact ⟨rfl, rfl, .same⟩
    · split <;> exact ⟨rfl, rfl, .same⟩
  | status url position isMaster master => exact ⟨rfl, rfl, .same⟩

theorem served_nextPush (n : Node) : n.Served (Cluster.nextPush n).2 := by
  obtain ⟨queue, heq, -⟩ := Net.exists_queue_nextPush n
  rw [heq]
  exact ⟨rfl, rfl, .same⟩

end Node

/-! ## Commits -/

namespace Log

variable {log : Log}

theorem ensures_onStore_standing {α : Type} (work : Access α) :
    Ensures (onStore work) log fun _ log' => log'.standing = log.standing := rfl

theorem ensures_persist_standing (e : Entry) :
    Ensures (persist e) log fun _ log' => log'.standing = log.standing := by
  rw [persist_eq]
  refine Ensures.bind ((ensures_onStore_standing _).mono ?_)
  intro r log' hlog'
  cases r with
  | ok _ => exact Ensures.update hlog'
  | error error => exact hlog'

theorem ensures_persistOrRelease_standing (e : Entry) :
    Ensures (persistOrRelease e) log fun _ log' => log'.standing = log.standing := by
  refine Ensures.handle ((ensures_persist_standing e).mono ?_)
  intro r log' hlog'
  cases r with
  | ok _ => exact hlog'
  | error error =>
    refine Ensures.bind (Ensures.update ?_)
    exact Ensures.fail hlog'

/-- A commit leaves the standing alone, and on a follower all of the log. -/
theorem ensures_commit_standing (now : Instant) (e : Entry) :
    Ensures (commit now e) log fun _ log' =>
      log'.standing = log.standing ∧ (log.standing.isMaster = false → log' = log) := by
  unfold commit
  split
  · exact Ensures.pure ⟨rfl, fun _ => rfl⟩
  · split
    · apply Ensures.fail
      exact ⟨rfl, fun _ => rfl⟩
    · apply Ensures.read_bind
      split
      dsimp only
      split
      · apply Ensures.bind
        apply Ensures.fail
        exact ⟨rfl, fun _ => rfl⟩
      · next hmaster =>
        have hnot (log' : Log) : log.standing.isMaster = false → log' = log := by
          intro hfollower
          simp [hfollower] at hmaster
        apply Ensures.write_bind
        split
        · refine Ensures.bind ((ensures_persistOrRelease_standing _).mono ?_)
          intro r log' hlog'
          cases r with
          | ok _ =>
            apply Ensures.pure
            exact ⟨hlog', hnot _⟩
          | error error => exact ⟨hlog', hnot _⟩
        · apply Ensures.fail
          exact ⟨rfl, hnot _⟩

end Log

/-! ## All that others do -/

namespace Node

variable {n n' : Node}

theorem alike_of_served {pushed : Entry → Prop} (hapart : n.Apart pushed n') (h : n.Served n') :
    n.Alike n' where
  url := hapart.self
  isMaster := hapart.isMaster
  master := hapart.master
  phase := hapart.phase
  settings := h.settings
  self := h.hosts.self_eq
  counters := fun _ => h.counters
  rows := fun _ => hapart.rows

/-- A commit changes the log and the queue only, the standing not at all, and nothing on a follower. -/
theorem commit_frame (n : Node) (now : Instant) (e : Entry) :
    (n.commit now e).2.standing = n.standing ∧ (n.commit now e).2.phase = n.phase ∧
      (n.commit now e).2.settings = n.settings ∧ (n.commit now e).2.hosts = n.hosts ∧
      (n.standing.isMaster = false → (n.commit now e).2.log = n.log) := by
  have hframe := @Log.ensures_commit_standing n.log now e
  rcases hcommit : (Log.commit now e).run.run n.log with ⟨r, log⟩
  have hrun : n.onLog (Log.commit now e) = (r, { n with log := log }) := by rw [onLog, hcommit]
  rw [Ensures, hcommit] at hframe
  obtain ⟨hstanding, hfollower⟩ := hframe
  rw [commit, hrun]
  match r with
  | .error error => exact ⟨hstanding, rfl, rfl, rfl, hfollower⟩
  | .ok none => exact ⟨hstanding, rfl, rfl, rfl, hfollower⟩
  | .ok (some committed) =>
    dsimp only
    unfold offer
    split <;> exact ⟨hstanding, rfl, rfl, rfl, hfollower⟩

theorem alike_commit (n : Node) (now : Instant) (e : Entry) : n.Alike (n.commit now e).2 := by
  obtain ⟨hstanding, hphase, hsettings, hhosts, hlog⟩ := commit_frame n now e
  refine ⟨?_, ?_, ?_, hphase, hsettings, by rw [hhosts], ?_, ?_⟩
  · exact congrArg Standing.self hstanding
  · rw [hstanding]
  · rw [hstanding]
  · exact fun hfollower => by rw [hlog hfollower]
  · exact fun hfollower => by rw [hlog hfollower]

/-- What others do leaves all but the host table, the buffer, the queue and the push target alone. -/
theorem Beside.alike (h : n.Beside n') : n.Alike n' := by
  cases h with
  | answer now m => exact alike_of_served (Apart.handle n now m) (served_handle n now m)
  | commit now e => exact alike_commit n now e
  | outage outage => exact ⟨rfl, rfl, rfl, rfl, rfl, rfl, fun _ => rfl, fun _ => rfl⟩
  | stop => exact ⟨rfl, rfl, rfl, rfl, rfl, rfl, fun _ => rfl, fun _ => rfl⟩
  | push => exact alike_of_served (Apart.nextPush n : n.Apart (fun _ => False) _) (served_nextPush n)
  | lose target => exact alike_of_served (Apart.lose n target : n.Apart (fun _ => False) _) ⟨rfl, rfl, .same⟩

/-- What others do is one change of the host table at most. -/
theorem Beside.turn (h : n.Beside n') : n.hosts.Turn n'.hosts := by
  cases h with
  | answer now m => exact (served_handle n now m).hosts
  | commit now e =>
    rw [(commit_frame n now e).2.2.2.1]
    exact .same
  | outage outage => exact .same
  | stop => exact .same
  | push => exact (served_nextPush n).hosts
  | lose target => exact .same

end Node

end LogShipping
