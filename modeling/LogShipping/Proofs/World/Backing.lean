import LogShipping.Proofs.Host.Table
import LogShipping.Proofs.Log.Reading
import LogShipping.Proofs.World.Tasks

/-!
# What a net vouches for

An entry is backed in a net if it stands in the log of a node of origin, and a position is reached at an
address if the log of the node there has come that far. In a good net all that nodes hold, wait to push
or have buffered is backed, and all positions that they know of others are reached (`Net.Good`). Logs
only grow (`Net.Grows`), so whatever was backed or reached stays so, also in messages that have been
under way for long. Which nodes are origins is left open.

That is the point of the two notions: they are monotone. A message need not be looked at again when it
arrives, however much has happened since it was sent, and what a step has to show is about the one node
that takes it (`Net.Admissible`).

Steps are those of the events of a world, and a commit is one of them. That a position is reached which
a table tells of is true at that grain only: a position that is taken back may have been told meanwhile
(`Proofs.World.Midway`).
-/

namespace LogShipping

open Std

/-! ## Entries and positions -/

/-- Entries of any origin. -/
abbrev anywhere : String → Prop := fun _ => True

namespace Net

/-- The entry stands in the log of a node of origin. -/
def Backed (origin : String → Prop) (net : Net) (e : Entry) : Prop :=
  ∃ url n entries, origin url ∧ net.node? url = some n ∧ n.log.Holds entries ∧ e ∈ entries

/-- The log of the node at an address has come as far as a position. -/
def Reached (net : Net) (url : String) (position : LogId) : Prop :=
  ∃ n, net.node? url = some n ∧ position ≤ n.position

/-- All logs are continued: every node is still there and holds what it held, and perhaps more. -/
def Grows (u v : Net) : Prop :=
  ∀ url n, u.node? url = some n → ∃ n', v.node? url = some n' ∧
    ∀ entries, n.log.Holds entries → ∃ new, n'.log.Holds (entries ++ new)

/-- All positions that a table tells of are reached. -/
def Vouches (net : Net) (table : HostTable) : Prop :=
  ∀ url h, table.hosts[url]? = some h → h.url = url ∧ net.Reached url h.logPosition

/-- What a node holds is backed, and what it knows of positions is reached. -/
structure Vouched (origin : String → Prop) (net : Net) (url : String) (n : Node) : Prop where
  self : n.standing.self = url
  own : n.hosts.self = url
  log : ∃ entries, n.log.Holds entries ∧ ∀ e ∈ entries, net.Backed origin e
  hosts : net.Vouches n.hosts
  buffer : ∀ (id : LogId) e, n.buffer.entries[id]? = some e → e.id = id ∧ net.Backed origin e
  queue : ∀ e ∈ n.queue.pending, net.Backed origin e ∧ e.id ≤ n.position

/-- A net all of whose nodes are vouched for. -/
def Good (origin : String → Prop) (net : Net) : Prop :=
  ∀ url n, net.node? url = some n → Vouched origin net url n

variable {origin : String → Prop} {u v w : Net} {url : String} {n n' : Node}

theorem node?_put (net : Net) (url : String) (n : Node) (other : String) :
    (net.put url n).node? other = if url = other then some n else net.node? other := by
  simp [node?, put, ExtTreeMap.getElem?_insert]

theorem put_node? (h : u.node? url = some n) : u.put url n = u := by
  have hnodes : u.nodes.insert url n = u.nodes := by
    apply ExtTreeMap.ext_getElem?
    intro other
    rw [ExtTreeMap.getElem?_insert]
    split
    · next heq =>
      rw [LawfulEqCmp.eq_of_compare heq] at h
      exact h.symm
    · rfl
  rw [put, hnodes]

/-- What is said of all nodes can be looked up node by node. -/
theorem forall_node?_iff {P : String → Node → Prop} :
    (∀ url n, u.node? url = some n → P url n) ↔ ∀ entry ∈ u.nodes.toList, P entry.1 entry.2 := by
  constructor
  · rintro h ⟨url, n⟩ hmem
    exact h url n (ExtTreeMap.mem_toList_iff_getElem?_eq_some.mp hmem)
  · intro h url n hn
    exact h (url, n) (ExtTreeMap.mem_toList_iff_getElem?_eq_some.mpr hn)

instance {P : String → Node → Prop} [∀ url n, Decidable (P url n)] :
    Decidable (∀ url n, u.node? url = some n → P url n) :=
  decidable_of_iff _ forall_node?_iff.symm

/-! ## Growth -/

theorem Grows.refl (u : Net) : u.Grows u := by
  intro url n hn
  exact ⟨n, hn, fun entries h => ⟨[], by rw [List.append_nil]; exact h⟩⟩

theorem Grows.trans (h : u.Grows v) (h' : v.Grows w) : u.Grows w := by
  intro url n hn
  obtain ⟨n', hn', hmore⟩ := h url n hn
  obtain ⟨n'', hn'', hmore'⟩ := h' url n' hn'
  refine ⟨n'', hn'', ?_⟩
  intro entries hentries
  obtain ⟨new, hnew⟩ := hmore entries hentries
  obtain ⟨newer, hnewer⟩ := hmore' _ hnew
  exact ⟨new ++ newer, by rw [← List.append_assoc]; exact hnewer⟩

theorem Backed.grows {e : Entry} (h : u.Backed origin e) (huv : u.Grows v) : v.Backed origin e := by
  obtain ⟨url, n, entries, horigin, hn, hholds, he⟩ := h
  obtain ⟨n', hn', hmore⟩ := huv url n hn
  obtain ⟨new, hnew⟩ := hmore entries hholds
  exact ⟨url, n', _, horigin, hn', hnew, List.mem_append_left _ he⟩

theorem Backed.proper {e : Entry} (h : u.Backed origin e) : e.Proper := by
  obtain ⟨url, n, entries, -, -, hholds, he⟩ := h
  exact hholds.history.proper e he

/-! ## Positions -/

/-- No position falls. -/
def Climbs (u v : Net) : Prop :=
  ∀ url n, u.node? url = some n → ∃ n', v.node? url = some n' ∧ n.position ≤ n'.position

theorem Climbs.refl (u : Net) : u.Climbs u := fun _ n hn => ⟨n, hn, UInt64.le_refl _⟩

theorem Climbs.trans (h : u.Climbs v) (h' : v.Climbs w) : u.Climbs w := by
  intro url n hn
  obtain ⟨n', hn', hle⟩ := h url n hn
  obtain ⟨n'', hn'', hle'⟩ := h' url n' hn'
  exact ⟨n'', hn'', UInt64.le_trans hle hle'⟩

theorem climbs_put (hn : u.node? url = some n) (h : n.position ≤ n'.position) :
    u.Climbs (u.put url n') := by
  intro other m hm
  rw [node?_put]
  by_cases heq : url = other
  · subst heq
    rw [hn] at hm
    cases hm
    exact ⟨n', if_pos rfl, h⟩
  · rw [if_neg heq]
    exact ⟨m, hm, UInt64.le_refl _⟩

/-- Where logs grow, positions climb. -/
theorem Grows.climbs (huv : u.Grows v) (hu : u.Good origin) : u.Climbs v := by
  intro url n hn
  obtain ⟨entries, hholds, -⟩ := (hu url n hn).log
  obtain ⟨n', hn', hmore⟩ := huv url n hn
  obtain ⟨new, hnew⟩ := hmore entries hholds
  refine ⟨n', hn', UInt64.le_iff_toNat_le.mpr ?_⟩
  have h1 : n.position.toNat = entries.length := hholds.position
  have h2 : n'.position.toNat = (entries ++ new).length := hnew.position
  rw [h1, h2, List.length_append]
  omega

theorem Reached.climbs {position : LogId} (h : u.Reached url position) (huv : u.Climbs v) :
    v.Reached url position := by
  obtain ⟨n, hn, hle⟩ := h
  obtain ⟨n', hn', hle'⟩ := huv url n hn
  exact ⟨n', hn', UInt64.le_trans hle hle'⟩

theorem Reached.grows {position : LogId} (h : u.Reached url position) (hu : u.Good origin)
    (huv : u.Grows v) : v.Reached url position :=
  h.climbs (huv.climbs hu)

theorem Reached.mono {p q : LogId} (h : u.Reached url q) (hle : p ≤ q) : u.Reached url p := by
  obtain ⟨n, hn, hq⟩ := h
  exact ⟨n, hn, UInt64.le_trans hle hq⟩

theorem Reached.max {p q : LogId} (hp : u.Reached url p) (hq : u.Reached url q) :
    u.Reached url (max p q) := by
  rw [UInt64.max_def]
  split
  · exact hq
  · exact hp

theorem reached_position (hn : u.node? url = some n) : u.Reached url n.position :=
  ⟨n, hn, UInt64.le_refl _⟩

/-! ## Tables -/

section Tables

variable {table : HostTable} {position : LogId} {now seen : Instant}

theorem Vouches.grows (h : u.Vouches table) (hu : u.Good origin) (huv : u.Grows v) :
    v.Vouches table :=
  fun url host hhost => ⟨(h url host hhost).1, (h url host hhost).2.grows hu huv⟩

theorem vouches_new (h : u.Reached url position) : u.Vouches (HostTable.new url position now) := by
  intro key host hhost
  have hnew := HostTable.host?_new url position now key
  rw [HostTable.host?, hhost] at hnew
  split at hnew
  · next heq =>
    cases hnew
    exact ⟨heq, heq ▸ h⟩
  · cases hnew

theorem Vouches.observe (h : u.Vouches table) (hposition : u.Reached url position) :
    u.Vouches (table.observe url position seen) := by
  intro key host hhost
  have hobserve := HostTable.host?_observe table url position seen key
  rw [HostTable.host?, hhost] at hobserve
  split at hobserve
  · next heq =>
    subst heq
    cases hknown : table.host? url with
    | none =>
      rw [hknown] at hobserve
      cases hobserve
      exact ⟨rfl, hposition⟩
    | some known =>
      rw [hknown] at hobserve
      cases hobserve
      obtain ⟨hurl, hreached⟩ := h url known hknown
      exact ⟨hurl, hreached.max hposition⟩
  · exact h key host hobserve.symm

theorem Vouches.mem_toList (h : u.Vouches table) {host : Host} (hmem : host ∈ table.toList) :
    u.Reached host.url host.logPosition := by
  obtain ⟨key, hkey⟩ := HostTable.mem_toList_iff.mp hmem
  obtain ⟨rfl, hreached⟩ := h key host hkey
  exact hreached

theorem Vouches.adopt (h : u.Vouches table) {snapshot : List Host}
    (hsnapshot : ∀ host ∈ snapshot, u.Reached host.url host.logPosition) :
    u.Vouches (table.adopt snapshot) := by
  intro key host hhost
  change (table.adopt snapshot).host? key = some host at hhost
  rcases HostTable.host?_adopt_cases hhost with ⟨told, htold, rfl, rfl⟩ | hknown
  · have hreached := hsnapshot told htold
    cases hknown : table.host? told.url with
    | none => exact ⟨rfl, hreached⟩
    | some k => exact ⟨rfl, hreached.max (h told.url k hknown).2⟩
  · exact h key host hknown

end Tables

/-! ## Steps of a node -/

/-- What a node may become in a step that brings in only what is vouched for. -/
structure Admissible (origin : String → Prop) (u : Net) (n n' : Node) : Prop where
  self : n'.standing.self = n.standing.self
  own : n'.hosts.self = n.hosts.self
  log : ∃ new, (∀ e ∈ new, u.Backed origin e) ∧
    ∀ entries, n.log.Holds entries → n'.log.Holds (entries ++ new)
  hosts : u.Vouches n'.hosts
  buffer : ∀ (id : LogId) e, n'.buffer.entries[id]? = some e → e.id = id ∧ u.Backed origin e
  queue : ∀ e ∈ n'.queue.pending, u.Backed origin e ∧ e.id ≤ n'.position

theorem Vouched.grows (h : Vouched origin u url n) (hu : u.Good origin) (huv : u.Grows v) :
    Vouched origin v url n where
  self := h.self
  own := h.own
  log := by
    obtain ⟨entries, hholds, hbacked⟩ := h.log
    exact ⟨entries, hholds, fun e he => (hbacked e he).grows huv⟩
  hosts := h.hosts.grows hu huv
  buffer := fun id e he => ⟨(h.buffer id e he).1, (h.buffer id e he).2.grows huv⟩
  queue := fun e he => ⟨(h.queue e he).1.grows huv, (h.queue e he).2⟩

theorem grows_put (hn : u.node? url = some n)
    (hlog : ∀ entries, n.log.Holds entries → ∃ new, n'.log.Holds (entries ++ new)) :
    u.Grows (u.put url n') := by
  intro other m hm
  rw [node?_put]
  by_cases heq : url = other
  · subst heq
    rw [hn] at hm
    cases hm
    exact ⟨n', if_pos rfl, hlog⟩
  · rw [if_neg heq]
    exact ⟨m, hm, fun entries h => ⟨[], by rw [List.append_nil]; exact h⟩⟩

/-- Where one node was replaced by one that is vouched for, and its log continued, the net stays good. -/
theorem Good.put (hu : u.Good origin) (hgrows : u.Grows (u.put url n'))
    (hnode : Vouched origin (u.put url n') url n') : (u.put url n').Good origin := by
  intro other m hm
  rw [node?_put] at hm
  by_cases heq : url = other
  · subst heq
    rw [if_pos rfl] at hm
    cases hm
    exact hnode
  · rw [if_neg heq] at hm
    exact (hu other m hm).grows hu hgrows

/-- A net stays good when a node of it takes an admissible step. -/
theorem Good.step (hu : u.Good origin) (hn : u.node? url = some n)
    (h : Admissible origin u n n') : u.Grows (u.put url n') ∧ (u.put url n').Good origin := by
  obtain ⟨new, hnew, hlog⟩ := h.log
  have hgrows : u.Grows (u.put url n') :=
    grows_put hn fun entries hholds => ⟨new, hlog entries hholds⟩
  refine ⟨hgrows, hu.put hgrows ?_⟩
  have hnode := hu url n hn
  exact {
    self := h.self.trans hnode.self
    own := h.own.trans hnode.own
    log := by
      obtain ⟨entries, hholds, hbacked⟩ := hnode.log
      refine ⟨_, hlog entries hholds, ?_⟩
      intro e he
      rcases List.mem_append.mp he with he | he
      · exact (hbacked e he).grows hgrows
      · exact (hnew e he).grows hgrows
    hosts := h.hosts.grows hu hgrows
    buffer := fun id e he => ⟨(h.buffer id e he).1, (h.buffer id e he).2.grows hgrows⟩
    queue := fun e he => ⟨(h.queue e he).1.grows hgrows, (h.queue e he).2⟩ }

/-- A step that leaves the log alone. -/
theorem Vouched.admissible (hnode : Vouched origin u url n) (hself : n'.standing.self = n.standing.self)
    (hrows : n'.log.store.rows = n.log.store.rows) (hposition : n'.log.position = n.log.position)
    (hown : n'.hosts.self = n.hosts.self) (hhosts : u.Vouches n'.hosts)
    (hbuffer : ∀ (id : LogId) e, n'.buffer.entries[id]? = some e → e.id = id ∧ u.Backed origin e)
    (hqueue : ∀ e ∈ n'.queue.pending, e ∈ n.queue.pending) : Admissible origin u n n' where
  self := hself
  own := hown
  log := by
    refine ⟨[], by simp, ?_⟩
    intro entries h
    rw [List.append_nil]
    exact ⟨hrows.trans h.rows, by rw [hposition]; exact h.position, h.history⟩
  hosts := hhosts
  buffer := hbuffer
  queue := by
    intro e he
    have := hnode.queue e (hqueue e he)
    refine ⟨this.1, ?_⟩
    rw [Node.position, hposition]
    exact this.2

end Net

end LogShipping
