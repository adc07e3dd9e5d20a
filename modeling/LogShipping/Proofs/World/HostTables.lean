import LogShipping.Proofs.World.Replication
import LogShipping.Proofs.World.Strides

/-!
# What nodes know of each other

Positions get into host tables on several ways, and tables are sent on and merged by maximum, so one
position too high would stay for ever. But in every run, of whatever nodes over whatever histories, no
table, no message and no answer tells of more than the host in question really holds
(`World.run_understates`). A node wins an election by its own record among those in its table; as its
record is not beyond its log and its log not below its record, its log is as long as all that the table
tells of.

Seven things bring positions into tables: the node's own touch, the position that comes with a page, the
one that a puller tells of itself, answers to probes, registrations, announcements, and the tables of
others. None of them is followed through here, as all tell only what is vouched for in good worlds
(`World.Good`); what is left is to read the positions off (`Message.positions`). Commits and applications
of entries are single events here. In the code the position is ahead of the log while an entry is being
written, and who asks in between may be told of one that is never written: there the claim holds under a
condition only, which is that of `Proofs.World.Midway`.
-/

namespace LogShipping

open Std

/-! ## What messages tell of positions -/

namespace Message

/-- What a message tells of the positions of hosts, the one that answers it apart. -/
def positions : Message → List (String × LogId)
  | .register url position hosts => (url, position) :: hosts.map fun h => (h.url, h.logPosition)
  | .readLog url lastSeen _ _ => [(url, lastSeen)]
  | .setHosts hosts => hosts.map fun h => (h.url, h.logPosition)
  | .addHost h => [(h.url, h.logPosition)]
  | .pushTransaction source e _ => [(source, e.id)]
  | .readOne .. | .status .. => []

/-- What a reply tells of the position of the node that gives it. -/
def ownPosition? : Message → Option LogId
  | .readLog _ _ _ chunk => some chunk.currid
  | .status _ position _ _ => some position
  | _ => none

end Message

namespace Net

variable {origin : String → Prop} {u : Net} {peer : String} {m : Message}

theorem Honest.positions (h : u.Honest origin m) :
    ∀ told ∈ m.positions, u.Reached told.1 told.2 := by
  have hosts {table : List Host} (htable : ∀ h ∈ table, u.Reached h.url h.logPosition) :
      ∀ told ∈ table.map fun h => (h.url, h.logPosition), u.Reached told.1 told.2 := by
    intro told htold
    obtain ⟨host, hhost, rfl⟩ := List.mem_map.mp htold
    exact htable host hhost
  intro told htold
  cases m with
  | register url position table =>
    rcases List.mem_cons.mp htold with rfl | htold
    · exact h.1
    · exact hosts h.2 told htold
  | readLog url lastSeen limit chunk =>
    rw [List.mem_singleton.mp htold]
    exact h.1
  | setHosts table => exact hosts h told htold
  | addHost host =>
    rw [List.mem_singleton.mp htold]
    exact h
  | pushTransaction source e accepted =>
    rw [List.mem_singleton.mp htold]
    exact h.2
  | readOne id entry => cases htold
  | status url position isMaster master => cases htold

theorem Own.position (h : u.Own peer m) {position : LogId} (hm : m.ownPosition? = some position) :
    u.Reached peer position := by
  cases m with
  | readLog url lastSeen limit chunk =>
    cases hm
    exact h.1
  | status url position isMaster master =>
    cases hm
    exact h
  | _ => cases hm

end Net

/-! ## Elections -/

/-- A node has, by its own log, got as far as its table tells of any host heard of since a time, and of
those that have got as far as itself its address is the first. -/
def Node.Leads (n : Node) (cutoff : Instant) : Prop :=
  ∀ h ∈ n.hosts.toList, cutoff ≤ h.lastSeen → h.logPosition ≤ n.position ∧
    ((h.logPosition = n.position ∨ ∃ own, n.hosts.host? n.url = some own ∧
      h.logPosition = own.logPosition) → (compare n.url h.url).isLE = true)

/-- A node that takes over by an election leads. -/
theorem Net.Vouched.leads {origin : String → Prop} {u : Net} {url : String} {n : Node}
    (h : Vouched origin u url n) (hn : u.node? url = some n) {cutoff : Instant}
    (hfollower : n.standing.isMaster = false)
    (hmaster : (n.elect cutoff).2.standing.isMaster = true) : n.Leads cutoff := by
  have hspec := HostTable.winner?_spec (fun url h' hh => (h.hosts url h' hh).1) cutoff
  unfold Node.elect at hmaster
  cases hwinner : n.hosts.winner? cutoff with
  | none =>
    rw [hwinner] at hmaster
    cases hmaster.symm.trans hfollower
  | some winner =>
    rw [hwinner] at hspec hmaster
    obtain ⟨hknown, -, hbeats⟩ := hspec
    have hself : winner.url = n.url := by
      by_contra hother
      have hlost : ¬ (winner.url = n.hosts.self ∧ (!n.standing.isMaster) = true) := by
        rintro ⟨heq, -⟩
        exact hother (heq.trans (h.own.trans h.self.symm))
      simp only [if_neg hlost] at hmaster
      cases hmaster.symm.trans hfollower
    -- the record by which it won is one of its own log
    have hreached : winner.logPosition ≤ n.position := by
      obtain ⟨-, m, hm, hle⟩ := h.hosts winner.url winner hknown
      have hurl : winner.url = url := hself.trans h.self
      rw [hurl, hn] at hm
      cases hm
      exact hle
    intro host hhost hseen
    obtain ⟨key, hkey⟩ := HostTable.mem_toList_iff.mp hhost
    obtain ⟨hle, hfirst⟩ := hbeats key host hkey hseen
    refine ⟨UInt64.le_trans hle hreached, ?_⟩
    intro heq
    rw [← hself]
    apply hfirst
    rcases heq with heq | ⟨own, hown, heq⟩
    · rw [← heq] at hreached
      exact UInt64.le_antisymm hle hreached
    · rw [← hself, hknown] at hown
      cases hown
      exact heq

namespace World

variable {w : World} {events : List Event}

/-! ## Beginnings -/

/-- Every node holds some history of its own, and nothing is under way. -/
structure Starts (w : World) : Prop where
  opened : ∀ url n, w.net.node? url = some n → ∃ setup now s entries, setup.url = url ∧
    s.rows = Rows.replay entries ∧ IsHistory entries ∧
      ((Node.start setup now).run.run s).1 = .ok n
  packets : w.packets = []
  answers : w.answers = []
  tasks : w.tasks = []

theorem Begins.starts {master : String} (h : w.Begins master) : w.Starts where
  opened := by
    intro url n hn
    obtain ⟨setup, now, s, entries, hurl, hrows, hhistory, -, hr⟩ := h.opened url n hn
    exact ⟨setup, now, s, entries, hurl, hrows, hhistory, hr⟩
  packets := h.packets
  answers := h.answers
  tasks := h.tasks

theorem Starts.good (h : w.Starts) : w.Good anywhere where
  net := by
    intro url n hn
    obtain ⟨setup, now, s, entries, hurl, hrows, hhistory, hr⟩ := h.opened url n hn
    have hopened := Net.opened_of_start hrows hhistory hr
    refine hopened.vouched hurl hn ?_
    exact fun e he => ⟨url, n, entries, trivial, hn, hopened.holds, he⟩
  packets := by
    intro p hp
    rw [h.packets] at hp
    cases hp
  answers := by
    intro a ha
    rw [h.answers] at ha
    cases ha
  tasks := by
    intro task htask
    rw [h.tasks] at htask
    cases htask

theorem Starts.strides (h : w.Starts) : w.Strides := by
  intro task htask
  rw [h.tasks] at htask
  cases htask

/-! ## Reachable worlds -/

/-- Nothing in a world tells more of a host than it holds. -/
structure Understated (w : World) : Prop where
  tables : ∀ url n, w.net.node? url = some n → ∀ h ∈ n.hosts.toList,
    w.net.Reached h.url h.logPosition
  packets : ∀ p ∈ w.packets, ∀ told ∈ p.message.positions, w.net.Reached told.1 told.2
  answers : ∀ answer ∈ w.answers, ∀ m, answer.2 = .ok m → ∃ p,
    w.packets[answer.1]? = some p ∧ (∀ told ∈ m.positions, w.net.Reached told.1 told.2) ∧
      ∀ position, m.ownPosition? = some position → w.net.Reached p.peer position

theorem Good.understated {origin : String → Prop} (h : w.Good origin) : w.Understated where
  tables := fun url n hn _ hhost => (h.net url n hn).hosts.mem_toList hhost
  packets := fun p hp => (h.packets p hp).positions
  answers := by
    intro answer hanswer m hm
    obtain ⟨p, hp, hhonest⟩ := h.answers answer hanswer
    obtain ⟨-, hm, hown⟩ := hhonest m hm
    exact ⟨p, hp, hm.positions, fun position => hown.position⟩

/-- An event makes a master of a follower only by an election, a restart apart. -/
theorem Turn.elects {event : Event} {url : String} {n n' : Node} (h : w.Turn event url n n')
    (hn : w.net.node? url = some n) (hadmits : w.Admits event)
    (hopen : ∀ setup, event ≠ .restart setup) (hfollower : n.standing.isMaster = false)
    (hmaster : n'.standing.isMaster = true) : ∃ cutoff, n' = (n.elect cutoff).2 := by
  cases h with
  | apart hapart => cases hmaster.symm.trans (hapart.isMaster.trans hfollower)
  | outage outage hevent => cases hmaster.symm.trans hfollower
  | commit e hevent =>
    subst hevent
    rcases Net.commit_cases w.net.now e (hadmits.2 n hn) with ⟨committed, log, -, -, -, hisMaster, -⟩ | hsame
    · cases hisMaster.symm.trans hfollower
    · rw [hsame] at hmaster
      cases hmaster.symm.trans hfollower
  | restart setup hevent hurl hr => exact absurd hevent (hopen setup)
  | stride i task hevent htask hurl hstride =>
    cases hstride with
    | elect cutoff => exact ⟨cutoff, rfl⟩
    | apply entries =>
      obtain ⟨new, -, htook, -⟩ := @Log.ensures_applyReplicated n.log entries
      have hsame : (n.onLog (Log.applyReplicated entries)).2.standing = n.standing := htook.standing
      rw [hsame] at hmaster
      cases hmaster.symm.trans hfollower
    | retarget master => cases hmaster
    | stay => cases hmaster.symm.trans hfollower
    | note hosts => cases hmaster.symm.trans hfollower
    | enter phase => cases hmaster.symm.trans hfollower
    | read id => cases hmaster.symm.trans hfollower
    | drain => cases hmaster.symm.trans hfollower

/-- In whatever state a run leads to, no host table, no message and no answer tells of a position that
the host has not really come to, and a node that takes over by an election is not behind: its own log is
as long as its table tells of any host heard of since the cutoff, and where they are equal its address
comes first. Elections are the only way to take over, apart from a restart as master. -/
theorem run_understates (hstarts : w.Starts) (hadmits : w.Always Admits events) :
    (w.run events).Understated ∧
    (∀ url n, (w.run events).net.node? url = some n → n.standing.isMaster = false →
      ∀ cutoff, (n.elect cutoff).2.standing.isMaster = true → n.Leads cutoff) ∧
    ∀ event, (w.run events).Admits event → (∀ setup, event ≠ .restart setup) →
      ∀ url n n', (w.run events).net.node? url = some n → n.standing.isMaster = false →
        ((w.run events).after event).net.node? url = some n' → n'.standing.isMaster = true →
          ∃ cutoff, n' = (n.elect cutoff).2 ∧ n.Leads cutoff := by
  have hgood := (hstarts.good.run hadmits fun _ _ _ _ _ _ => trivial).1
  have hleads : ∀ url n, (w.run events).net.node? url = some n → n.standing.isMaster = false →
      ∀ cutoff, (n.elect cutoff).2.standing.isMaster = true → n.Leads cutoff :=
    fun url n hn hfollower _ => (hgood.net url n hn).leads hn hfollower
  refine ⟨hgood.understated, hleads, ?_⟩
  intro event hadmitted hopen url n n' hn hfollower hn' hmaster
  obtain ⟨m, hm, hturn⟩ := (hstarts.strides.run events).turn hn'
  rw [hn] at hm
  cases hm
  obtain ⟨cutoff, rfl⟩ := hturn.elects hn hadmitted hopen hfollower hmaster
  exact ⟨cutoff, rfl, hleads url n hn hfollower cutoff hmaster⟩

end World

end LogShipping
