import LogShipping.Host
import Std.Data.ExtTreeMap

/-!
# Host tables

A node keeps one record per known host, itself included, under the host's address. Records grow by
observations; a table sent by another node replaces the set of known hosts but never takes back what
was observed of them, nor the node's own record. The election picks the host that holds most of the
log among those heard of recently, and of several such hosts the one with the least address.
-/

namespace LogShipping

/-- What a node knows of the cluster. -/
structure HostTable where
  /-- The address of the node itself. -/
  self : String
  /-- The records, by address. -/
  hosts : Std.ExtTreeMap String Host

namespace HostTable

/-! ## Contents -/

/-- The table of a node that knows only itself. -/
def new (self : String) (position : LogId) (now : Instant) : HostTable :=
  ⟨self, (∅ : Std.ExtTreeMap String Host).insert self ⟨self, position, now⟩⟩

/-- The record of an address. -/
def host? (table : HostTable) (url : String) : Option Host := table.hosts[url]?

/-- All records, ordered by address. -/
def toList (table : HostTable) : List Host := table.hosts.values

/-- The addresses of all other hosts, in order. -/
def peers (table : HostTable) : List String := table.hosts.keys.filter (· != table.self)

/-! ## Observations -/

/-- A host with another observation folded in, or a new host. -/
def merged (known : Option Host) (url : String) (logPosition : LogId) (lastSeen : Instant) : Host :=
  match known with
  | some h => h.observe logPosition lastSeen
  | none => ⟨url, logPosition, lastSeen⟩

/-- The table after one observation of a host. -/
def observe (table : HostTable) (url : String) (logPosition : LogId) (lastSeen : Instant) :
    HostTable :=
  { table with
    hosts := table.hosts.insert url (merged (table.host? url) url logPosition lastSeen) }

/-- The table after the node has looked at its own position. -/
def touchSelf (table : HostTable) (position : LogId) (now : Instant) : HostTable :=
  table.observe table.self position now

/-- The record of a snapshot, raised to what is known of the host. -/
def reconcile (known : Option Host) (h : Host) : Host :=
  match known with
  | some k => h.observe k.logPosition k.lastSeen
  | none => h

/-- The records of a snapshot by address, each raised to what the table knows; the last record of an
address counts. -/
def ofSnapshot (table : HostTable) (snapshot : List Host) : Std.ExtTreeMap String Host :=
  snapshot.foldl (fun hosts h => hosts.insert h.url (reconcile (table.host? h.url) h)) ∅

/-- The table after a snapshot has replaced it. -/
def adopt (table : HostTable) (snapshot : List Host) : HostTable :=
  let adopted := table.ofSnapshot snapshot
  match table.host? table.self with
  | some own =>
    -- The snapshot may tell of this node, leave it out, or be behind what the node knows of itself.
    let kept := match adopted[table.self]? with
      | some h => h.observe own.logPosition own.lastSeen
      | none => own
    { table with hosts := adopted.insert table.self kept }
  | none => { table with hosts := adopted }

/-! ## What changes -/

@[simp] theorem self_observe (table : HostTable) (url : String) (position : LogId) (seen : Instant) :
    (table.observe url position seen).self = table.self := rfl

@[simp] theorem self_adopt (table : HostTable) (snapshot : List Host) :
    (table.adopt snapshot).self = table.self := by
  unfold adopt
  split <;> rfl

/-- A new table knows the node itself and nobody else. -/
theorem host?_new (self : String) (position : LogId) (now : Instant) (url : String) :
    (new self position now).host? url = if self = url then some ⟨self, position, now⟩ else none := by
  simp [new, host?, Std.ExtTreeMap.getElem?_insert]

/-- An observation changes the record of the observed host only. -/
theorem host?_observe (table : HostTable) (url : String) (position : LogId) (seen : Instant)
    (other : String) :
    (table.observe url position seen).host? other =
      if url = other then some (merged (table.host? url) url position seen)
      else table.host? other := by
  simp [observe, host?, Std.ExtTreeMap.getElem?_insert]

/-! ## Election -/

/-- The better of the best host so far and the next one in order of address. -/
def better (best : Option Host) (h : Host) : Option Host :=
  match best with
  | some b => if h.logPosition ≤ b.logPosition then some b else some h
  | none => some h

/-- The winner among the hosts seen at or after the cutoff. -/
def winner? (table : HostTable) (cutoff : Instant) : Option Host :=
  (table.toList.filter fun h => cutoff ≤ h.lastSeen).foldl better none

end HostTable

end LogShipping
