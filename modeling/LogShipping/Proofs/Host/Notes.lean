import LogShipping.Lifecycle.Tailing
import LogShipping.Proofs.Host.Table

/-!
# What a follower takes note of

The hosts that it hears of, and the failures of its master. Observations only add to a host table
(`HostTable.Gains`); a table that is adopted may drop hosts, but a host that stays is not heard of less
recently than before (`HostTable.Grows`). A probe notes every peer that answered it (`noteProbes_spec`).

`Gains` is the stronger of the two and can be chained; `Grows` cannot, as a host that was dropped may
come back with an older stamp than it had. So a run is followed through its gains, and an adopted table
is looked at where it is adopted. Which of the two a step keeps is what tells it from others: only a
master that hands out its own table can take a host away.

That a host was heard of does not say when it was up. A probe is answered at some time and noted at
another; the stamp of a record is that of the note, and the election goes by it. The streak of failures
is counted in 32 bits, and it is far from their end as long as an election comes first (`toNat_succ`).
-/

namespace LogShipping

namespace HostTable

/-! ## Tables that grow -/

/-- Each record is kept under the address of its host. -/
def Keyed (table : HostTable) : Prop := ∀ url h, table.host? url = some h → h.url = url

/-- A host was heard of at some time or later. -/
def Heard (table : HostTable) (since : Instant) (url : String) : Prop :=
  ∃ h, table.host? url = some h ∧ since ≤ h.lastSeen

/-- What observations make of a table. -/
structure Gains (table table' : HostTable) : Prop where
  self : table'.self = table.self
  keyed : table.Keyed → table'.Keyed
  raises : Raises (fun _ => True) table table'

/-- What a change makes of a table: the node itself stays, and a host that stays was not heard of
earlier than before. -/
structure Grows (table table' : HostTable) : Prop where
  self : table'.self = table.self
  keyed : table.Keyed → table'.Keyed
  own : ∀ k, table.host? table.self = some k → ∃ k', table'.host? table.self = some k'
  later : ∀ url k k', table.host? url = some k → table'.host? url = some k' → k.lastSeen ≤ k'.lastSeen

variable {table table' table'' : HostTable}

theorem Gains.refl (table : HostTable) : table.Gains table := ⟨rfl, fun h => h, Raises.refl table⟩

theorem Gains.trans (h : table.Gains table') (h' : table'.Gains table'') : table.Gains table'' :=
  ⟨h'.self.trans h.self, fun hkeyed => h'.keyed (h.keyed hkeyed), h.raises.trans h'.raises⟩

theorem Gains.grows (h : table.Gains table') : table.Grows table' where
  self := h.self
  keyed := h.keyed
  own := by
    intro k hk
    obtain ⟨k', hk', -⟩ := h.raises _ k trivial hk
    exact ⟨k', hk'⟩
  later := by
    intro url k k' hk hk'
    obtain ⟨k'', hk'', -, hseen⟩ := h.raises url k trivial hk
    rw [hk'] at hk''
    cases hk''
    exact hseen

theorem Grows.refl (table : HostTable) : table.Grows table := (Gains.refl table).grows

/-- A new table has one record, under its own address. -/
theorem keyed_new (self : String) (position : LogId) (now : Instant) : (new self position now).Keyed := by
  intro url h hh
  rw [host?_new] at hh
  split at hh
  · next heq =>
    cases hh
    exact heq
  · cases hh

theorem gains_observe (table : HostTable) (url : String) (position : LogId) (seen : Instant) :
    table.Gains (table.observe url position seen) where
  self := rfl
  keyed := by
    intro hkeyed other h hh
    rw [host?_observe] at hh
    by_cases heq : url = other
    · subst heq
      rw [if_pos rfl] at hh
      cases hh
      cases hknown : table.host? url with
      | none => rfl
      | some known => exact hkeyed url known hknown
    · rw [if_neg heq] at hh
      exact hkeyed other h hh
  raises := raises_observe table url position seen

theorem grows_adopt (table : HostTable) (snapshot : List Host) : table.Grows (table.adopt snapshot) where
  self := self_adopt table snapshot
  keyed := by
    intro hkeyed url h hh
    rcases host?_adopt_cases hh with ⟨told, -, rfl, rfl⟩ | hknown
    · cases table.host? told.url with
      | none | some known => rfl
    · exact hkeyed url h hknown
  own := by
    intro k hk
    rw [host?_adopt, hk]
    cases snapshot.reverse.find? fun told => told.url == table.self with
    | some told => exact ⟨_, rfl⟩
    | none => exact ⟨k, if_pos rfl⟩
  later := by
    intro url k k' hk hk'
    rcases host?_adopt_cases hk' with ⟨told, -, -, rfl⟩ | hknown
    · rw [hk]
      exact (le_observe told k.logPosition k.lastSeen).2.2
    · rw [hk] at hknown
      cases hknown
      exact UInt64.le_refl _

theorem Heard.mono {since since' : Instant} {url : String} (h : table.Heard since url)
    (hle : since' ≤ since) : table.Heard since' url :=
  let ⟨k, hk, hseen⟩ := h
  ⟨k, hk, UInt64.le_trans hle hseen⟩

/-- A host that was heard of, and is still there, was heard of. -/
theorem Heard.grows {since : Instant} {url : String} (h : table.Heard since url)
    (hgrows : table.Grows table') {k : Host} (hk : table'.host? url = some k) :
    table'.Heard since url := by
  obtain ⟨known, hknown, hseen⟩ := h
  exact ⟨k, hk, UInt64.le_trans hseen (hgrows.later url known k hknown hk)⟩

theorem heard_observe (table : HostTable) (url : String) (position : LogId) (seen : Instant) :
    (table.observe url position seen).Heard seen url := by
  obtain ⟨h, hh, -, hseen⟩ := host?_observe_self table url position seen
  exact ⟨h, hh, hseen⟩

end HostTable

/-! ## Probes -/

namespace Lifecycle

/-- A node that notes what it heard knows the positions that it was told. -/
theorem noteProbes_spec (now : Instant) (answers : List (String × Except Error Message)) (n : Node) :
    ∃ hosts, (noteProbes now answers n).2 = { n with hosts := hosts } ∧ n.hosts.Gains hosts ∧
      ∀ peer url position isMaster master,
        (peer, .ok (.status url position isMaster master)) ∈ answers →
        ∃ h, hosts.host? peer = some h ∧ position ≤ h.logPosition ∧ now ≤ h.lastSeen := by
  induction answers using List.reverseRecOn with
  | nil => exact ⟨n.hosts, rfl, HostTable.Gains.refl _, by simp⟩
  | append_singleton answers answer ih =>
    obtain ⟨hosts, heq, hgains, hnoted⟩ := ih
    obtain ⟨peer, reply⟩ := answer
    by_cases hstatus : ∃ url position isMaster master,
        reply = .ok (.status url position isMaster master)
    · obtain ⟨url, position, isMaster, master, rfl⟩ := hstatus
      have hlast : (noteProbes now (answers ++ [(peer, .ok (.status url position isMaster master))])
          n).2 = { (noteProbes now answers n).2 with
            hosts := (noteProbes now answers n).2.hosts.observe peer position now } := by
        rw [noteProbes, List.foldl_append]
        rfl
      rw [hlast, heq]
      have hmore := HostTable.gains_observe hosts peer position now
      refine ⟨hosts.observe peer position now, rfl, hgains.trans hmore, ?_⟩
      intro other url' position' isMaster' master' hmem
      rcases List.mem_append.mp hmem with hold | hnew
      · obtain ⟨h, hh, hposition, hseen⟩ := hnoted _ _ _ _ _ hold
        obtain ⟨h', hh', hposition', hseen'⟩ := hmore.raises other h trivial hh
        exact ⟨h', hh', UInt64.le_trans hposition hposition', UInt64.le_trans hseen hseen'⟩
      · cases List.mem_singleton.mp hnew
        exact HostTable.host?_observe_self hosts peer position now
    · have hsame : noteProbes now (answers ++ [(peer, reply)]) n = noteProbes now answers n := by
        unfold noteProbes
        rw [List.foldl_append, List.foldl_cons, List.foldl_nil]
        generalize List.foldl _ (0, n) answers = noted
        obtain ⟨count, m⟩ := noted
        dsimp only
        split
        · next heq =>
          cases heq
          exact absurd ⟨_, _, _, _, rfl⟩ hstatus
        · rfl
      rw [hsame]
      refine ⟨hosts, heq, hgains, ?_⟩
      intro other url' position' isMaster' master' hmem
      rcases List.mem_append.mp hmem with hold | hnew
      · exact hnoted _ _ _ _ _ hold
      · cases List.mem_singleton.mp hnew
        exact absurd ⟨_, _, _, _, rfl⟩ hstatus

/-! ## Failures -/

/-- One more failure makes the streak longer by one, since it has not come to an election. -/
theorem toNat_succ {failures bound : UInt32} (h : failures < bound) :
    (failures + 1).toNat = failures.toNat + 1 := by
  have hlt := UInt32.lt_iff_toNat_lt.mp h
  have hmax := bound.toNat_lt
  rw [UInt32.toNat_add, UInt32.toNat_one]
  omega

end Lifecycle

end LogShipping
