import LogShipping.HostTable
import Mathlib.Data.List.Induction
import Mathlib.Tactic.Push

/-!
# Host tables, record by record

Look-ups after a snapshot has been adopted, membership in what a table lists, and the election: among
the hosts heard of recently the winner is the one that holds most of the log, and of several such hosts
the one with the least address (`winner?_spec`), because the table lists its hosts in the order of their
addresses and the fold keeps the earlier of two equals.

A snapshot may tell of an address more than once, since nothing keeps a peer from sending such a list.
The last of the records counts (`getElem?_ofSnapshot`), as it would if they were put in one after the
other. A node's own record comes through a snapshot that does not tell of it.

The election compares addresses as text, character by character. It is a function of the table and of a
cutoff, so two nodes with different tables may well elect different hosts; what it takes for them to
agree is the subject of `Proofs.Host.Winner`.
-/

namespace LogShipping

open Std

namespace HostTable

variable {table : HostTable}

/-! ## Lists of hosts -/

theorem values_eq_map_toList (hosts : ExtTreeMap String Host) :
    hosts.values = hosts.toList.map (·.2) := by
  have h : hosts.values = hosts.foldr (fun _ v l => v :: l) [] := by
    obtain ⟨⟨q⟩⟩ := hosts
    induction q using Quotient.ind
    rfl
  rw [h, ExtTreeMap.foldr_eq_foldr_toList]
  induction hosts.toList with
  | nil => rfl
  | cons row rest ih => rw [List.foldr_cons, ih, List.map_cons]

theorem mem_toList_iff {h : Host} : h ∈ table.toList ↔ ∃ url, table.host? url = some h := by
  rw [toList, values_eq_map_toList, List.mem_map]
  constructor
  · rintro ⟨⟨url, v⟩, hmem, rfl⟩
    exact ⟨url, ExtTreeMap.mem_toList_iff_getElem?_eq_some.mp hmem⟩
  · rintro ⟨url, hurl⟩
    exact ⟨(url, h), ExtTreeMap.mem_toList_iff_getElem?_eq_some.mpr hurl, rfl⟩

theorem mem_peers_iff {url : String} :
    url ∈ table.peers ↔ url ≠ table.self ∧ ∃ h, table.host? url = some h := by
  rw [peers, List.mem_filter, ExtTreeMap.mem_keys, ExtTreeMap.mem_iff_isSome_getElem?,
    Option.isSome_iff_exists, bne_iff_ne, and_comm]
  rfl

/-! ## Snapshots -/

theorem of_find?_reverse {snapshot : List Host} {url : String} {last : Host}
    (h : (snapshot.reverse.find? fun k => k.url == url) = some last) :
    last ∈ snapshot ∧ last.url = url := by
  have hurl := List.find?_some h
  exact ⟨List.mem_reverse.mp (List.mem_of_find?_eq_some h), beq_iff_eq.mp hurl⟩

/-- An address that a snapshot tells of has a last record there. -/
theorem exists_find?_reverse {snapshot : List Host} {h : Host} (hh : h ∈ snapshot) :
    ∃ last, (snapshot.reverse.find? fun k => k.url == h.url) = some last ∧ last ∈ snapshot ∧
      last.url = h.url := by
  cases hfind : snapshot.reverse.find? fun k => k.url == h.url with
  | none =>
    have hnot := List.find?_eq_none.mp hfind h (List.mem_reverse.mpr hh)
    exact absurd (beq_self_eq_true h.url) hnot
  | some last => exact ⟨last, rfl, of_find?_reverse hfind⟩

/-- Of several records of an address in a snapshot the last one counts. -/
theorem getElem?_ofSnapshot (snapshot : List Host) (url : String) :
    (table.ofSnapshot snapshot)[url]? =
      (snapshot.reverse.find? fun h => h.url == url).map (reconcile (table.host? url)) := by
  unfold ofSnapshot
  induction snapshot using List.reverseRecOn with
  | nil => exact ExtTreeMap.getElem?_empty
  | append_singleton snapshot h ih =>
    rw [List.foldl_append, List.foldl_cons, List.foldl_nil, ExtTreeMap.getElem?_insert,
      List.reverse_append, List.reverse_singleton, List.singleton_append, List.find?_cons, ih]
    by_cases heq : h.url = url
    · subst heq
      have hself : compare h.url h.url = .eq := ReflCmp.compare_self
      simp only [hself, if_true, beq_self_eq_true, Option.map_some]
    · have hne : compare h.url url ≠ .eq := fun hc => heq (LawfulEqCmp.eq_of_compare hc)
      simp only [hne, if_false, beq_eq_false_iff_ne.mpr heq]

/-- A table that adopted a snapshot has the record that the snapshot gives, raised to what was known;
the node's own record stays in any case. -/
theorem host?_adopt (snapshot : List Host) (url : String) :
    (table.adopt snapshot).host? url =
      match table.host? url, (snapshot.reverse.find? fun h => h.url == url) with
      | known, some h => some (reconcile known h)
      | some own, none => if url = table.self then some own else none
      | none, none => none := by
  have hadopted := @getElem?_ofSnapshot table snapshot
  unfold adopt
  cases hown : table.host? table.self with
  | none =>
    show (table.ofSnapshot snapshot)[url]? = _
    rw [hadopted]
    cases hfind : snapshot.reverse.find? fun h => h.url == url with
    | some h => rfl
    | none =>
      cases hknown : table.host? url with
      | none => rfl
      | some own =>
        have hne : url ≠ table.self := by
          rintro rfl
          rw [hown] at hknown
          cases hknown
        simp only [if_neg hne, Option.map_none]
  | some own =>
    show ((table.ofSnapshot snapshot).insert table.self _)[url]? = _
    rw [ExtTreeMap.getElem?_insert]
    by_cases heq : table.self = url
    · subst heq
      have hself : compare table.self table.self = .eq := ReflCmp.compare_self
      rw [if_pos hself, hadopted, hown]
      cases hfind : snapshot.reverse.find? fun h => h.url == table.self with
      | some h =>
        -- raising a record twice to the same numbers is raising it once
        show some ((h.observe own.logPosition own.lastSeen).observe _ _) = some (h.observe _ _)
        have again : ∀ a b : UInt64, max (max a b) b = max a b := by
          intro a b
          simp only [UInt64.max_def]
          grind
        simp only [Host.observe, again]
      | none => simp
    · have hne : compare table.self url ≠ .eq := fun hc => heq (LawfulEqCmp.eq_of_compare hc)
      rw [if_neg hne, hadopted]
      cases hfind : snapshot.reverse.find? fun h => h.url == url with
      | some h => rfl
      | none =>
        cases table.host? url with
        | none => rfl
        | some known => simp only [if_neg (Ne.symm heq), Option.map_none]

/-- A record after a snapshot was adopted: that of the snapshot, raised to what was known, or the one
from before. -/
theorem host?_adopt_cases {snapshot : List Host} {url : String} {h : Host}
    (hh : (table.adopt snapshot).host? url = some h) :
    (∃ told ∈ snapshot, told.url = url ∧ h = reconcile (table.host? url) told) ∨ table.host? url = some h := by
  rw [host?_adopt] at hh
  cases hfind : snapshot.reverse.find? fun told => told.url == url with
  | some told =>
    obtain ⟨htold, hurl⟩ := of_find?_reverse hfind
    refine .inl ⟨told, htold, hurl, ?_⟩
    rw [hfind] at hh
    cases hknown : table.host? url with
    | none | some known =>
      rw [hknown] at hh
      exact (Option.some.inj hh).symm
  | none =>
    rw [hfind] at hh
    cases hknown : table.host? url with
    | none =>
      rw [hknown] at hh
      cases hh
    | some own =>
      rw [hknown] at hh
      dsimp only at hh
      split at hh
      · exact .inr hh
      · cases hh

/-! ## What is known of hosts -/

theorem le_observe (h : Host) (position : LogId) (seen : Instant) :
    (h.logPosition ≤ (h.observe position seen).logPosition ∧
      h.lastSeen ≤ (h.observe position seen).lastSeen) ∧
    position ≤ (h.observe position seen).logPosition ∧ seen ≤ (h.observe position seen).lastSeen := by
  simp only [Host.observe, UInt64.max_def]
  grind

/-- A table tells at least as much of some hosts as another one does. -/
def Raises (who : String → Prop) (table table' : HostTable) : Prop :=
  ∀ url h, who url → table.host? url = some h → ∃ h', table'.host? url = some h' ∧
    h.logPosition ≤ h'.logPosition ∧ h.lastSeen ≤ h'.lastSeen

variable {who : String → Prop}

theorem Raises.refl (table : HostTable) : Raises who table table :=
  fun _ h _ hh => ⟨h, hh, UInt64.le_refl _, UInt64.le_refl _⟩

theorem Raises.trans {table' table'' : HostTable} (h : Raises who table table')
    (h' : Raises who table' table'') : Raises who table table'' := by
  intro url host hwho hhost
  obtain ⟨host', hhost', hposition, hseen⟩ := h url host hwho hhost
  obtain ⟨host'', hhost'', hposition', hseen'⟩ := h' url host' hwho hhost'
  exact ⟨host'', hhost'', UInt64.le_trans hposition hposition', UInt64.le_trans hseen hseen'⟩

theorem Raises.mono {who' : String → Prop} {table' : HostTable} (h : Raises who table table')
    (hwho : ∀ url, who' url → who url) : Raises who' table table' :=
  fun url host hurl => h url host (hwho url hurl)

theorem raises_observe (table : HostTable) (url : String) (position : LogId) (seen : Instant) :
    Raises who table (table.observe url position seen) := by
  intro other host _ hhost
  rw [host?_observe]
  by_cases heq : url = other
  · subst heq
    rw [if_pos rfl, hhost]
    exact ⟨_, rfl, (le_observe host position seen).1⟩
  · rw [if_neg heq]
    exact ⟨host, hhost, UInt64.le_refl _, UInt64.le_refl _⟩

/-- What was observed is known afterwards. -/
theorem host?_observe_self (table : HostTable) (url : String) (position : LogId) (seen : Instant) :
    ∃ h, (table.observe url position seen).host? url = some h ∧ position ≤ h.logPosition ∧
      seen ≤ h.lastSeen := by
  rw [host?_observe, if_pos rfl]
  refine ⟨_, rfl, ?_⟩
  cases table.host? url with
  | none => exact ⟨UInt64.le_refl _, UInt64.le_refl _⟩
  | some known => exact (le_observe known position seen).2

/-- A snapshot takes nothing back of the hosts that it tells of. -/
theorem raises_adopt {snapshot : List Host}
    (hcovers : ∀ url, who url → ∃ h ∈ snapshot, h.url = url) :
    Raises who table (table.adopt snapshot) := by
  intro url known hwho hknown
  obtain ⟨told, htold, rfl⟩ := hcovers url hwho
  obtain ⟨h, hfind, -⟩ := exists_find?_reverse htold
  rw [host?_adopt, hknown, hfind]
  exact ⟨_, rfl, (le_observe h known.logPosition known.lastSeen).2⟩

/-! ## Elections -/

/-- The host is at least as good a winner as another one. -/
def Beats (b h : Host) : Prop :=
  h.logPosition ≤ b.logPosition ∧ (h.logPosition = b.logPosition → (compare b.url h.url).isLE = true)

theorem foldl_better {hosts : List Host}
    (sorted : hosts.Pairwise fun a b => compare a.url b.url = .lt) :
    match hosts.foldl better none with
    | some b => b ∈ hosts ∧ ∀ h ∈ hosts, Beats b h
    | none => hosts = [] := by
  induction hosts using List.reverseRecOn with
  | nil => rfl
  | append_singleton hosts x ih =>
    obtain ⟨hsorted, -, hlast⟩ := List.pairwise_append.mp sorted
    have hself : (compare x.url x.url).isLE = true := by
      have : compare x.url x.url = .eq := ReflCmp.compare_self
      rw [this]
      rfl
    specialize ih hsorted
    rw [List.foldl_append, List.foldl_cons, List.foldl_nil]
    cases hbest : hosts.foldl better none with
    | none =>
      rw [hbest] at ih
      subst ih
      refine ⟨List.mem_singleton_self x, ?_⟩
      intro h hh
      rw [List.mem_singleton.mp hh]
      exact ⟨UInt64.le_refl _, fun _ => hself⟩
    | some b =>
      rw [hbest] at ih
      obtain ⟨hb, hbeats⟩ := ih
      unfold better
      -- a later host wins on a higher position alone, so the first of equals stays
      by_cases hle : x.logPosition ≤ b.logPosition
      · simp only [if_pos hle]
        refine ⟨List.mem_append_left _ hb, ?_⟩
        intro h hh
        rcases List.mem_append.mp hh with hh | hh
        · exact hbeats h hh
        · rw [List.mem_singleton.mp hh]
          refine ⟨hle, fun _ => ?_⟩
          rw [hlast b hb x (List.mem_singleton_self x)]
          rfl
      · simp only [if_neg hle]
        have hlt : b.logPosition < x.logPosition := UInt64.not_le.mp hle
        refine ⟨List.mem_append_right _ (List.mem_singleton_self x), ?_⟩
        intro h hh
        rcases List.mem_append.mp hh with hh | hh
        · have hbelow := UInt64.lt_of_le_of_lt (hbeats h hh).1 hlt
          exact ⟨UInt64.le_of_lt hbelow, fun heq => absurd heq (UInt64.ne_of_lt hbelow)⟩
        · rw [List.mem_singleton.mp hh]
          exact ⟨UInt64.le_refl _, fun _ => hself⟩

/-- The winner is a host heard of recently that beats all such hosts; without one there are none. -/
theorem winner?_spec (keyed : ∀ url h, table.host? url = some h → h.url = url) (cutoff : Instant) :
    match table.winner? cutoff with
    | some b => table.host? b.url = some b ∧ cutoff ≤ b.lastSeen ∧
        ∀ url h, table.host? url = some h → cutoff ≤ h.lastSeen → Beats b h
    | none => ∀ url h, table.host? url = some h → ¬ cutoff ≤ h.lastSeen := by
  -- the fold runs in the order of the addresses, which are the keys
  have hkeys : table.hosts.toList.Pairwise fun a b => compare a.2.url b.2.url = .lt := by
    refine (List.Pairwise.and_mem.mp table.hosts.ordered_keys_toList).imp ?_
    rintro ⟨a, x⟩ ⟨b, y⟩ ⟨ha, hb, hab⟩
    have hx := keyed a x (ExtTreeMap.mem_toList_iff_getElem?_eq_some.mp ha)
    have hy := keyed b y (ExtTreeMap.mem_toList_iff_getElem?_eq_some.mp hb)
    rw [hx, hy]
    exact hab
  have sorted : (table.toList.filter fun h => cutoff ≤ h.lastSeen).Pairwise
      fun a b => compare a.url b.url = .lt := by
    apply List.Pairwise.filter
    rw [toList, values_eq_map_toList]
    exact List.pairwise_map.mpr hkeys
  have hfold := foldl_better sorted
  unfold winner?
  cases hbest : (table.toList.filter fun h => cutoff ≤ h.lastSeen).foldl better none with
  | none =>
    rw [hbest] at hfold
    intro url h hh hseen
    have hmem : h ∈ table.toList.filter fun h => cutoff ≤ h.lastSeen :=
      List.mem_filter.mpr ⟨mem_toList_iff.mpr ⟨url, hh⟩, decide_eq_true hseen⟩
    rw [hfold] at hmem
    cases hmem
  | some b =>
    rw [hbest] at hfold
    obtain ⟨hb, hbeats⟩ := hfold
    obtain ⟨hmem, hseen⟩ := List.mem_filter.mp hb
    obtain ⟨url, hurl⟩ := mem_toList_iff.mp hmem
    refine ⟨?_, of_decide_eq_true hseen, ?_⟩
    · rw [keyed url b hurl]
      exact hurl
    · intro url h hh hseen
      exact hbeats h (List.mem_filter.mpr ⟨mem_toList_iff.mpr ⟨url, hh⟩, decide_eq_true hseen⟩)

end HostTable

end LogShipping
