import LogShipping.Proofs.Activity.Steps
import LogShipping.Proofs.Host.Notes
import Mathlib.Data.List.Nodup

/-!
# Laws of host tables

Four works change the hosts that a node knows: an observation of a host, a look at the node's own
position, a snapshot that replaces the table, and a probe of all peers. Whatever was done, the node
knows itself, records stand under the addresses of their hosts, and a record that stays never falls
(`Node.tendAll_lawful`). A snapshot decides which hosts are known.

Observations are a join: each record comes to the componentwise maximum of what was there and what was
observed. It is said with two notions that do not mention any order. A record may be the maximum of some
records (`Host.Tops`), and of records with the same members there is one such (`Tops.unique`); a table
says of an address what is known and observed of it comes to (`Joins`). That neither the order nor the
repetition of observations matters follows without an induction of its own (`observeAll_congr`).

A snapshot is no join, and does not commute with anything. It may drop a host, and what was known of
that host is gone; if the host comes back then its record starts anew. So a record is said not to fall
for as long as it stays, and no more.
-/

namespace LogShipping

open Std

/-! ## Componentwise maxima -/

/-- A record is the componentwise maximum of some records. -/
structure Host.Tops (h : Host) (records : List Host) : Prop where
  bounds : ∀ k ∈ records, k.logPosition ≤ h.logPosition ∧ k.lastSeen ≤ h.lastSeen
  position : ∃ k ∈ records, k.logPosition = h.logPosition
  seen : ∃ k ∈ records, k.lastSeen = h.lastSeen

namespace Host.Tops

variable {h h' : Host} {records records' : List Host}

theorem self (h : Host) : h.Tops [h] where
  bounds := by
    intro k hk
    rw [List.mem_singleton.mp hk]
    exact ⟨UInt64.le_refl _, UInt64.le_refl _⟩
  position := ⟨h, List.mem_singleton_self h, rfl⟩
  seen := ⟨h, List.mem_singleton_self h, rfl⟩

/-- An observation raises a maximum to the maximum with what was observed. -/
theorem observe (hmax : h.Tops records) (k : Host) :
    (h.observe k.logPosition k.lastSeen).Tops (records ++ [k]) where
  bounds := by
    obtain ⟨hold, hnew⟩ := HostTable.le_observe h k.logPosition k.lastSeen
    intro j hj
    rcases List.mem_append.mp hj with hj | hj
    · have hle := hmax.bounds j hj
      exact ⟨UInt64.le_trans hle.1 hold.1, UInt64.le_trans hle.2 hold.2⟩
    · rw [List.mem_singleton.mp hj]
      exact hnew
  position := by
    obtain ⟨top, htop, heq⟩ := hmax.position
    by_cases hle : h.logPosition ≤ k.logPosition
    · exact ⟨k, by simp, (if_pos hle).symm⟩
    · exact ⟨top, by simp [htop], heq.trans (if_neg hle).symm⟩
  seen := by
    obtain ⟨top, htop, heq⟩ := hmax.seen
    by_cases hle : h.lastSeen ≤ k.lastSeen
    · exact ⟨k, by simp, (if_pos hle).symm⟩
    · exact ⟨top, by simp [htop], heq.trans (if_neg hle).symm⟩

theorem ne_nil (hmax : h.Tops records) : records ≠ [] := by
  obtain ⟨top, htop, -⟩ := hmax.position
  exact List.ne_nil_of_mem htop

/-- Records with the same members have one maximum. -/
theorem unique (hmax : h.Tops records) (hmax' : h'.Tops records')
    (hsame : ∀ k, k ∈ records ↔ k ∈ records') :
    h.logPosition = h'.logPosition ∧ h.lastSeen = h'.lastSeen := by
  obtain ⟨top, htop, heq⟩ := hmax.position
  obtain ⟨top', htop', heq'⟩ := hmax'.position
  obtain ⟨last, hlast, hseen⟩ := hmax.seen
  obtain ⟨last', hlast', hseen'⟩ := hmax'.seen
  constructor
  · apply UInt64.le_antisymm
    · exact heq ▸ (hmax'.bounds top ((hsame top).mp htop)).1
    · exact heq' ▸ (hmax.bounds top' ((hsame top').mpr htop')).1
  · apply UInt64.le_antisymm
    · exact hseen ▸ (hmax'.bounds last ((hsame last).mp hlast)).2
    · exact hseen' ▸ (hmax.bounds last' ((hsame last').mpr hlast')).2

end Host.Tops

namespace HostTable

variable {table table' : HostTable}

/-! ## Observations -/

/-- The table after some observations. -/
def observeAll (table : HostTable) (seen : List Host) : HostTable :=
  seen.foldl (fun t h => t.observe h.url h.logPosition h.lastSeen) table

/-- What is known and what is observed of an address. -/
def sources (table : HostTable) (seen : List Host) (url : String) : List Host :=
  (table.host? url).toList ++ seen.filter (·.url == url)

/-- What some records come to: their componentwise maximum, or nothing where there are none. -/
def Joins (records : List Host) : Option Host → Prop
  | some h => h.Tops records
  | none => records = []

theorem observeAll_append (table : HostTable) (seen : List Host) (h : Host) :
    table.observeAll (seen ++ [h]) =
      (table.observeAll seen).observe h.url h.logPosition h.lastSeen := by
  rw [observeAll, List.foldl_append]
  rfl

theorem gains_observeAll (table : HostTable) (seen : List Host) :
    table.Gains (table.observeAll seen) := by
  induction seen using List.reverseRecOn with
  | nil => exact Gains.refl table
  | append_singleton seen h ih =>
    rw [observeAll_append]
    exact ih.trans (gains_observe _ _ _ _)

/-- Observations join what is known and what was observed of each address. -/
theorem joins_observeAll (table : HostTable) (seen : List Host) (url : String) :
    Joins (table.sources seen url) ((table.observeAll seen).host? url) := by
  induction seen using List.reverseRecOn with
  | nil =>
    have hsources : table.sources [] url = (table.host? url).toList := List.append_nil _
    rw [hsources]
    show Joins _ (table.host? url)
    cases table.host? url with
    | none => rfl
    | some h => exact Host.Tops.self h
  | append_singleton seen h ih =>
    rw [observeAll_append, host?_observe]
    by_cases heq : h.url = url
    · have hsources : table.sources (seen ++ [h]) url = table.sources seen url ++ [h] := by
        simp [sources, List.filter_append, heq]
      rw [hsources, if_pos heq, heq]
      cases hknown : (table.observeAll seen).host? url with
      | none =>
        rw [hknown] at ih
        rw [show table.sources seen url = [] from ih, ← heq]
        exact Host.Tops.self h
      | some known =>
        rw [hknown] at ih
        exact Host.Tops.observe ih h
    · have hsources : table.sources (seen ++ [h]) url = table.sources seen url := by
        simp [sources, List.filter_append, heq]
      rw [hsources, if_neg heq]
      exact ih

/-- Records with the same members come to the same, under an address. -/
theorem Joins.unique {records records' : List Host} {known known' : Option Host} {url : String}
    (h : Joins records known) (h' : Joins records' known')
    (hsame : ∀ k, k ∈ records ↔ k ∈ records') (hurl : ∀ k, known = some k → k.url = url)
    (hurl' : ∀ k, known' = some k → k.url = url) : known = known' := by
  have hnil : records = [] ↔ records' = [] := by
    simp only [List.eq_nil_iff_forall_not_mem, hsame]
  cases known with
  | none =>
    cases known' with
    | none => rfl
    | some k' => exact absurd (hnil.mp h) (Host.Tops.ne_nil h')
  | some k =>
    cases known' with
    | none => exact absurd (hnil.mpr h') (Host.Tops.ne_nil h)
    | some k' =>
      obtain ⟨hposition, hseen⟩ := Host.Tops.unique h h' hsame
      have hurls := (hurl k rfl).trans (hurl' k' rfl).symm
      obtain ⟨u, position, time⟩ := k
      obtain ⟨u', position', time'⟩ := k'
      obtain rfl : u = u' := hurls
      obtain rfl : position = position' := hposition
      obtain rfl : time = time' := hseen
      rfl

/-- Tables that say the same of every address are the same. -/
theorem ext_host? (hself : table.self = table'.self)
    (hhosts : ∀ url, table.host? url = table'.host? url) : table = table' := by
  obtain ⟨self, hosts⟩ := table
  obtain ⟨self', hosts'⟩ := table'
  obtain rfl : self = self' := hself
  have heq : hosts = hosts' := ExtTreeMap.ext_getElem? fun {url} => hhosts url
  rw [heq]

/-- It does not matter in which order or how often hosts are observed. -/
theorem observeAll_congr (hkeyed : table.Keyed) {seen again : List Host}
    (hsame : ∀ h, h ∈ again ↔ h ∈ seen) : table.observeAll again = table.observeAll seen := by
  have hgains := table.gains_observeAll seen
  have hgains' := table.gains_observeAll again
  refine ext_host? (hgains'.self.trans hgains.self.symm) fun url => ?_
  have hsources : ∀ k, k ∈ table.sources again url ↔ k ∈ table.sources seen url := by
    intro k
    simp only [sources, List.mem_append, List.mem_filter, hsame]
  exact (joins_observeAll table again url).unique (joins_observeAll table seen url) hsources
    (hgains'.keyed hkeyed url) (hgains.keyed hkeyed url)

/-! ## Snapshots -/

/-- A record that is there before and after a change has not fallen. -/
def Keeps (table table' : HostTable) : Prop :=
  ∀ url k k', table.host? url = some k → table'.host? url = some k' →
    k.logPosition ≤ k'.logPosition ∧ k.lastSeen ≤ k'.lastSeen

theorem Gains.keeps (h : table.Gains table') : table.Keeps table' := by
  intro url k k' hk hk'
  obtain ⟨k'', hk'', hle⟩ := h.raises url k trivial hk
  rw [hk'] at hk''
  cases hk''
  exact hle

theorem keeps_adopt (table : HostTable) (snapshot : List Host) :
    table.Keeps (table.adopt snapshot) := by
  intro url k k' hk hk'
  rcases host?_adopt_cases hk' with ⟨told, -, -, rfl⟩ | hsame
  · rw [hk]
    exact (le_observe told k.logPosition k.lastSeen).2
  · rw [hk] at hsame
    cases hsame
    exact ⟨UInt64.le_refl _, UInt64.le_refl _⟩

/-- After a snapshot the hosts that it tells of are known, and the node itself. -/
theorem exists_host?_adopt_iff {own : Host} (hown : table.host? table.self = some own)
    (snapshot : List Host) (url : String) :
    (∃ h, (table.adopt snapshot).host? url = some h) ↔
      url = table.self ∨ ∃ h ∈ snapshot, h.url = url := by
  constructor
  · rintro ⟨h, hh⟩
    rw [host?_adopt] at hh
    cases hfind : snapshot.reverse.find? fun told => told.url == url with
    | some told => exact Or.inr ⟨told, of_find?_reverse hfind⟩
    | none =>
      rw [hfind] at hh
      cases hknown : table.host? url with
      | none =>
        rw [hknown] at hh
        cases hh
      | some known =>
        rw [hknown] at hh
        by_cases hself : url = table.self
        · exact Or.inl hself
        · dsimp only at hh
          rw [if_neg hself] at hh
          cases hh
  · rintro (rfl | ⟨told, htold, rfl⟩)
    · obtain ⟨own', hown'⟩ := (grows_adopt table snapshot).own own hown
      exact ⟨own', hown'⟩
    · obtain ⟨last, hfind, -⟩ := exists_find?_reverse htold
      rw [host?_adopt, hfind]
      cases table.host? told.url with
      | none | some known => exact ⟨_, rfl⟩

/-- Where no address comes twice in a snapshot, each of its records is reached. -/
theorem reaches_adopt {snapshot : List Host} (hnodup : (snapshot.map Host.url).Nodup) {h : Host}
    (hh : h ∈ snapshot) : ∃ h', (table.adopt snapshot).host? h.url = some h' ∧
      h.logPosition ≤ h'.logPosition ∧ h.lastSeen ≤ h'.lastSeen := by
  obtain ⟨last, hfind, hlast, hurl⟩ := exists_find?_reverse hh
  obtain rfl : last = h := List.inj_on_of_nodup_map hnodup hlast hh hurl
  rw [host?_adopt, hfind]
  cases table.host? last.url with
  | none => exact ⟨last, rfl, UInt64.le_refl _, UInt64.le_refl _⟩
  | some known => exact ⟨_, rfl, (le_observe last known.logPosition known.lastSeen).1⟩

end HostTable

/-! ## Works on a node -/

/-- What changes the hosts that a node knows. -/
inductive HostWork where
  /-- A host was at a position at some time. -/
  | addHost (seen : Host)
  /-- The node stands at a position. -/
  | touchSelf (position : LogId) (now : Instant)
  /-- A snapshot replaces the table. -/
  | setHosts (snapshot : List Host)
  /-- Peers were asked for their status, and some have answered. -/
  | hostUpdate (now : Instant) (answers : List (String × Except Error Message))

namespace Node

variable {n : Node}

/-- The node after some work on its hosts. -/
def tend (n : Node) : HostWork → Node
  | .addHost seen => { n with hosts := n.hosts.observe seen.url seen.logPosition seen.lastSeen }
  | .touchSelf position now => { n with hosts := n.hosts.touchSelf position now }
  | .setHosts snapshot => { n with hosts := n.hosts.adopt snapshot }
  | .hostUpdate now answers => (Lifecycle.noteProbes now answers n).2

/-- The node after several works on its hosts. -/
def tendAll (n : Node) (works : List HostWork) : Node := works.foldl tend n

/-- The node `n'` is the node `n`, or what a host update makes of it. -/
def Probes (n n' : Node) : Prop := n' = n ∨ ∃ now answers, n' = n.tend (.hostUpdate now answers)

instance : Std.Refl Probes := ⟨fun _ => Or.inl rfl⟩

/-- Probing all peers is no more than a host update, whatever comes back. -/
theorem probes_hostUpdate : Lifecycle.hostUpdate.Steps Probes := by
  unfold Lifecycle.hostUpdate
  refine Work.Steps.bind (Work.Steps.inspect _) fun peers =>
    Work.Steps.bind (Work.Steps.callAll nofun) fun replies => ?_
  exact Work.Steps.onNode fun now n => Or.inr ⟨now, peers.zip replies, rfl⟩

theorem grows_tend (n : Node) (work : HostWork) :
    n.hosts.Grows (n.tend work).hosts ∧ n.hosts.Keeps (n.tend work).hosts := by
  cases work with
  | addHost seen =>
    have hgains := HostTable.gains_observe n.hosts seen.url seen.logPosition seen.lastSeen
    exact ⟨hgains.grows, hgains.keeps⟩
  | touchSelf position now =>
    have hgains := HostTable.gains_observe n.hosts n.hosts.self position now
    exact ⟨hgains.grows, hgains.keeps⟩
  | setHosts snapshot =>
    exact ⟨HostTable.grows_adopt n.hosts snapshot, HostTable.keeps_adopt n.hosts snapshot⟩
  | hostUpdate now answers =>
    obtain ⟨hosts, heq, hgains, -⟩ := Lifecycle.noteProbes_spec now answers n
    rw [show n.tend (.hostUpdate now answers) = _ from heq]
    exact ⟨hgains.grows, hgains.keeps⟩

/-- The node with the address `url` knows itself, and records stand under the addresses of their
hosts. -/
structure Knows (n : Node) (url : String) : Prop where
  self : n.hosts.self = url
  own : ∃ own, n.hosts.host? url = some own
  keyed : n.hosts.Keyed

theorem Knows.tendAll {url : String} (h : n.Knows url) (works : List HostWork) :
    (n.tendAll works).Knows url := by
  induction works generalizing n with
  | nil => exact h
  | cons work rest ih =>
    have hgrows := (n.grows_tend work).1
    obtain ⟨own, hown⟩ := h.own
    refine ih ⟨hgrows.self.trans h.self, ?_, hgrows.keyed h.keyed⟩
    rw [← h.self] at hown ⊢
    exact hgrows.own own hown

theorem knows_new (n : Node) (position : LogId) (now : Instant) :
    Knows { n with hosts := HostTable.new n.url position now } n.url where
  self := rfl
  own := ⟨_, (HostTable.host?_new n.url position now n.url).trans (if_pos rfl)⟩
  keyed := HostTable.keyed_new n.url position now

theorem tendAll_addHost (n : Node) (seen : List Host) :
    n.tendAll (seen.map .addHost) = { n with hosts := n.hosts.observeAll seen } := by
  induction seen generalizing n with
  | nil => rfl
  | cons h rest ih => exact ih (n.tend (.addHost h))

/-- The hosts that a node knows, after any works on them: the node itself is among them, each record
stands under the address of its host, and no further work lowers a record that stays. A snapshot makes
known the hosts that it tells of and the node itself, and reaches each of its records where no address
comes twice. Observations come to the componentwise maximum, in any order and repeated at will. And
probing the peers is a work of this kind. -/
theorem tendAll_lawful (n : Node) (position : LogId) (now : Instant) (works : List HostWork) :
    let m := { n with hosts := HostTable.new n.url position now }.tendAll works
    (∃ own, m.hosts.host? n.url = some own) ∧
      (∀ url h, m.hosts.host? url = some h → h.url = url) ∧
      (∀ work url h h', m.hosts.host? url = some h → (m.tend work).hosts.host? url = some h' →
        h.logPosition ≤ h'.logPosition ∧ h.lastSeen ≤ h'.lastSeen) ∧
      (∀ snapshot,
        (∀ url, (∃ h, (m.tend (.setHosts snapshot)).hosts.host? url = some h) ↔
          url = n.url ∨ ∃ h ∈ snapshot, h.url = url) ∧
        ((snapshot.map Host.url).Nodup → ∀ h ∈ snapshot, ∃ h',
          (m.tend (.setHosts snapshot)).hosts.host? h.url = some h' ∧
          h.logPosition ≤ h'.logPosition ∧ h.lastSeen ≤ h'.lastSeen)) ∧
      (∀ seen : List Host,
        (∀ url, HostTable.Joins ((m.hosts.host? url).toList ++ seen.filter (·.url == url))
          ((m.tendAll (seen.map .addHost)).hosts.host? url)) ∧
        ∀ again : List Host, (∀ h, h ∈ again ↔ h ∈ seen) →
          m.tendAll (again.map .addHost) = m.tendAll (seen.map .addHost)) ∧
      Lifecycle.hostUpdate.Steps Probes := by
  intro m
  have hm : m.Knows n.url := (knows_new n position now).tendAll works
  obtain ⟨own, hown⟩ := hm.own
  refine ⟨hm.own, hm.keyed, ?_, ?_, ?_, probes_hostUpdate⟩
  · exact fun work url h h' => (m.grows_tend work).2 url h h'
  · intro snapshot
    rw [← hm.self] at hown ⊢
    exact ⟨HostTable.exists_host?_adopt_iff hown snapshot,
      fun hnodup h hh => HostTable.reaches_adopt hnodup hh⟩
  · intro seen
    rw [tendAll_addHost]
    refine ⟨HostTable.joins_observeAll m.hosts seen, fun again hsame => ?_⟩
    rw [tendAll_addHost, HostTable.observeAll_congr hm.keyed hsame]

/-- Of several records of an address in a snapshot the last one counts, even if an earlier one says
more, and the node keeps its own record. -/
example : ((HostTable.new "http://a" 5 9).adopt [⟨"http://b", 7, 8⟩, ⟨"http://b", 2, 4⟩]).toList =
    [⟨"http://a", 5, 9⟩, ⟨"http://b", 2, 4⟩] := by
  decide +kernel

end Node

end LogShipping
