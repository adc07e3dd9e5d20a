import LogShipping.Proofs.Log.AppendOnly
import LogShipping.Proofs.World.Reachable
import Mathlib.Data.List.Infix

/-!
# Replication from one master

A cluster begins with one node that holds some history and all others empty, and that one node is master
throughout. Then, whatever happens in whatever order, the log of every node is a beginning of the
master's log, octet by octet, and its whole store is what the master's was right after the commit of the
last entry that the node holds (`run_replicates`). The one fact behind it is that every entry anywhere
is backed by the master's log, so that a history made of such entries can only be a beginning of that
log.

It is a statement of safety about every list of events: calls, answers, pushes and losses, in any order
and number, with nodes that are opened anew at any time. That a follower gets anywhere is not part of
it, and could not be, as all messages may be lost.

One master throughout is a condition on the run, checked before and after each event (`LedThroughout`);
it allows elections that nobody else wins. The bounds on events are those of `World.Admits`, and the
grain is that of the events: in the middle of a commit the master has a position whose entry is not
written yet, and hands out only what is.
-/

namespace LogShipping

open Std

/-! ## Beginnings -/

namespace Net

/-- Nodes opened one after the other, each over a store of its own. -/
def openAll (now : Instant) (stores : List (Setup × Store)) : Net :=
  stores.foldl (fun net (setup, s) =>
    match ((Node.start setup now).run.run s).1 with
    | .ok n => net.put setup.url n
    | .error _ => net) { now := now }

/-- Every node of such a net was opened over one of the stores. -/
theorem opened_of_openAll {now : Instant} {stores : List (Setup × Store)} {url : String} {n : Node}
    (hn : (openAll now stores).node? url = some n) :
    ∃ setup s, (setup, s) ∈ stores ∧ setup.url = url ∧
      ((Node.start setup now).run.run s).1 = .ok n := by
  induction stores using List.reverseRecOn with
  | nil =>
    change (∅ : ExtTreeMap String Node)[url]? = some n at hn
    rw [ExtTreeMap.getElem?_empty] at hn
    cases hn
  | append_singleton stores last ih =>
    obtain ⟨setup, s⟩ := last
    have hold (hn : (openAll now stores).node? url = some n) : ∃ setup' s',
        (setup', s') ∈ stores ++ [(setup, s)] ∧ setup'.url = url ∧
          ((Node.start setup' now).run.run s').1 = .ok n := by
      obtain ⟨setup', s', hmem, hopened⟩ := ih hn
      exact ⟨setup', s', List.mem_append_left _ hmem, hopened⟩
    rw [openAll, List.foldl_append, List.foldl_cons, List.foldl_nil] at hn
    dsimp only at hn
    split at hn
    · next m hm =>
      rw [node?_put] at hn
      by_cases heq : setup.url = url
      · rw [if_pos heq] at hn
        cases hn
        exact ⟨setup, s, by simp, heq, hm⟩
      · rw [if_neg heq] at hn
        exact hold hn
    · exact hold hn

end Net

namespace World

/-- One node holds some history, every other holds the fences alone, and nothing is under way. -/
structure Begins (master : String) (w : World) : Prop where
  opened : ∀ url n, w.net.node? url = some n → ∃ setup now s entries, setup.url = url ∧
    s.rows = Rows.replay entries ∧ IsHistory entries ∧ (url ≠ master → entries = []) ∧
      ((Node.start setup now).run.run s).1 = .ok n
  packets : w.packets = []
  answers : w.answers = []
  tasks : w.tasks = []

/-- One node is master, and no other. -/
def LedBy (w : World) (master : String) : Prop :=
  (∃ n, w.net.node? master = some n ∧ n.standing.isMaster = true) ∧
    ∀ url n, w.net.node? url = some n → n.standing.isMaster = true → url = master

/-- One node is master, and no other, before and after each of some events. -/
def LedThroughout (w : World) (master : String) (events : List Event) : Prop :=
  ∀ first, first <+: events → (w.run first).LedBy master

variable {origin : String → Prop} {master : String} {w : World} {events : List Event}

instance : Decidable (w.LedBy master) := inferInstanceAs (Decidable
  ((∃ n ∈ w.net.node? master, n.standing.isMaster = true) ∧
    ∀ url n, w.net.node? url = some n → n.standing.isMaster = true → url = master))

instance : Decidable (w.LedThroughout master events) :=
  decidable_of_iff (∀ first ∈ events.inits, (w.run first).LedBy master) (by
    simp only [List.mem_inits, LedThroughout])

/-- Where a node of origin holds the only history, the beginning is a good world. -/
theorem Begins.good (h : w.Begins master) (horigin : origin master) : w.Good origin where
  net := by
    intro url n hn
    obtain ⟨setup, now, s, entries, hurl, hrows, hhistory, hempty, hr⟩ := h.opened url n hn
    have hopened := Net.opened_of_start hrows hhistory hr
    refine hopened.vouched hurl hn ?_
    intro e he
    by_cases hmaster : url = master
    · subst hmaster
      exact ⟨url, n, entries, horigin, hn, hopened.holds, he⟩
    · rw [hempty hmaster] at he
      cases he
  packets := by
    intro p hp
    rw [h.packets] at hp
    cases hp
  answers := by
    intro a ha
    rw [h.answers] at ha
    cases ha
  tasks := by
    intro task htask
    rw [h.tasks] at htask
    cases htask

/-! ## Runs -/

theorem Good.run (h : w.Good origin) (hadmits : w.Always Admits events)
    (hmasters : ∀ first, first <+: events → (w.run first).MastersFrom origin) :
    (w.run events).Good origin ∧ w.net.Grows (w.run events).net := by
  induction events generalizing w with
  | nil => exact ⟨h, Net.Grows.refl _⟩
  | cons event rest ih =>
    have hfirst := hmasters [] List.nil_prefix
    obtain ⟨hgood, hgrows⟩ := ih (h.after hfirst hadmits.1) hadmits.2 fun first hprefix =>
      hmasters (event :: first) ((List.prefix_cons_inj event).mpr hprefix)
    exact ⟨hgood, (h.kept hfirst hadmits.1).grows.trans hgrows⟩

/-- A master that has come to a position came to it by the commit of one entry. -/
theorem Good.exists_commit (h : w.Good (· = master)) (hadmits : w.Always Admits events)
    (hled : w.LedThroughout master events) {m m' : Node} (hm : w.net.node? master = some m)
    (hm' : (w.run events).net.node? master = some m') {position : LogId}
    (hbefore : m.position < position) (hafter : position ≤ m'.position) :
    ∃ first e, first ++ [.commit master e] <+: events ∧
      (∃ n, (w.run first).net.node? master = some n ∧ n.position.toNat + 1 = position.toNat) ∧
      ∃ n, (w.run (first ++ [.commit master e])).net.node? master = some n ∧
        n.position = position := by
  rw [UInt64.lt_iff_toNat_lt] at hbefore
  rw [UInt64.le_iff_toNat_le] at hafter
  induction events generalizing w m with
  | nil =>
    change w.net.node? master = some m' at hm'
    rw [hm] at hm'
    cases hm'
    omega
  | cons event rest ih =>
    obtain ⟨⟨n, hn, hmaster⟩, honly⟩ := hled [] List.nil_prefix
    change w.net.node? master = some n at hn
    rw [hm] at hn
    cases hn
    have hmasters : w.MastersFrom (· = master) := honly
    have hkept := h.kept hmasters hadmits.1
    have hrest : (w.after event).LedThroughout master rest := fun first hprefix =>
      hled (event :: first) ((List.prefix_cons_inj event).mpr hprefix)
    obtain ⟨n, hn, hmoved⟩ := hkept.masters master m hm hmaster
    -- either the position is reached with this event, or the rest of the run reaches it
    by_cases hnow : n.position.toNat < position.toNat
    · obtain ⟨first, e, hprefix, hreached⟩ :=
        ih (h.after hmasters hadmits.1) hadmits.2 hrest hn hm' hnow
      exact ⟨event :: first, e, (List.prefix_cons_inj event).mpr hprefix, hreached⟩
    · rcases hmoved with hsame | ⟨hnext, e, rfl⟩
      · rw [hsame] at hnow
        omega
      · refine ⟨[], e, (List.prefix_cons_inj _).mpr List.nil_prefix, ⟨m, hm, by omega⟩, n, hn, ?_⟩
        exact UInt64.toNat_inj.mp (by omega)

/-! ## Mirrors -/

/-- A node holds some entries, the replay of which are its data, and another node holds the same
entries, octet by octet, before others. -/
structure Mirrors (n m : Node) (entries more : List Entry) : Prop where
  shows : n.log.Shows entries
  whole : m.log.Shows (entries ++ more)
  octets : ∀ e ∈ entries, n.log.store.rows[Key.log e.id]? = m.log.store.rows[Key.log e.id]?
  data : n.log.store.rows.data = Rows.replayData entries

/-- What a node holds is a beginning of what the one node of origin holds. -/
theorem holds_take {net : Net} (h : net.Good (· = master)) {url : String} {n m : Node}
    (hn : net.node? url = some n) (hm : net.node? master = some m) {entries : List Entry}
    (hentries : m.log.Holds entries) :
    n.position ≤ m.position ∧ n.log.Holds (entries.take n.position.toNat) := by
  obtain ⟨part, hholds, hbacked⟩ := (h url n hn).log
  have hlength : n.position.toNat = part.length := hholds.position
  have hsub : ∀ e ∈ part, e ∈ entries := by
    intro e he
    obtain ⟨other, m', es, rfl, hm', hes, he⟩ := hbacked e he
    rw [hm] at hm'
    cases hm'
    rw [hentries.unique hes]
    exact he
  have htake := hentries.history.eq_take_of_subset hholds.history hsub
  constructor
  · have hle : part.length ≤ entries.length := by
      rw [htake, List.length_take]
      omega
    rw [UInt64.le_iff_toNat_le, hlength, show m.position.toNat = entries.length from hentries.position]
    exact hle
  · rw [hlength, ← htake]
    exact hholds

/-- A node that has come to where the one node of origin was before holds what that one held then. -/
theorem rows_eq {earlier later : Net} (h : later.Good (· = master)) (hgrows : earlier.Grows later)
    (hearlier : earlier.Good (· = master)) {url : String} {n m m' : Node}
    (hn : later.node? url = some n) (hm : later.node? master = some m)
    (hm' : earlier.node? master = some m') (hposition : m'.position = n.position) :
    m'.log.store.rows = n.log.store.rows := by
  obtain ⟨entries, hentries, -⟩ := (hearlier master m' hm').log
  obtain ⟨m'', hm'', hmore⟩ := hgrows master m' hm'
  rw [hm] at hm''
  cases hm''
  obtain ⟨new, hnew⟩ := hmore entries hentries
  obtain ⟨-, hholds⟩ := holds_take h hn hm hnew
  have hlength : n.position.toNat = entries.length := by
    rw [← hposition]
    exact hentries.position
  rw [hlength, List.take_left'] at hholds
  · rw [hentries.rows, hholds.rows]
  · rfl

theorem mirrors_of_holds {n m : Node} {entries more : List Entry} (hn : n.log.Holds entries)
    (hm : m.log.Holds (entries ++ more)) : Mirrors n m entries more where
  shows := hn.shows
  whole := hm.shows
  octets := by
    intro e he
    rw [hn.rows, hm.rows, Rows.getElem?_replay_log hn.history he,
      Rows.getElem?_replay_log hm.history (List.mem_append_left _ he)]
  data := by
    rw [hn.rows]
    exact Rows.data_replay hn.history

/-! ## The log of every node -/

/-- In a cluster with one master throughout, every node mirrors a beginning of the master's log: it
holds the same entries under the same ids, octet by octet, and its data are their replay. Its store is
what the master's was whenever the master stood at the same position in the run, and if the master
was not there at first, it came there by the commit of the last of these entries. -/
theorem run_replicates (hbegins : w.Begins master) (hadmits : w.Always Admits events)
    (hled : w.LedThroughout master events) {url : String} {n : Node}
    (hn : (w.run events).net.node? url = some n) :
    (∃ m entries more, (w.run events).net.node? master = some m ∧ Mirrors n m entries more) ∧
    (∀ first, first <+: events → ∀ m, (w.run first).net.node? master = some m →
      m.position = n.position → m.log.store.rows = n.log.store.rows) ∧
    ∀ m, w.net.node? master = some m → m.position < n.position →
      ∃ first e, first ++ [.commit master e] <+: events ∧
        (∃ m, (w.run first).net.node? master = some m ∧
          m.position.toNat + 1 = n.position.toNat) ∧
        ∃ m, (w.run (first ++ [.commit master e])).net.node? master = some m ∧
          m.position = n.position ∧ m.log.store.rows = n.log.store.rows := by
  have hgood : w.Good (· = master) := hbegins.good rfl
  obtain ⟨hlast, -⟩ := hgood.run hadmits fun first hfirst => (hled first hfirst).2
  obtain ⟨⟨m, hm, -⟩, -⟩ := hled events (List.prefix_refl events)
  obtain ⟨whole, hwhole, -⟩ := (hlast.net master m hm).log
  obtain ⟨hle, hholds⟩ := holds_take hlast.net hn hm hwhole
  have hsame : ∀ first, first <+: events → ∀ m', (w.run first).net.node? master = some m' →
      m'.position = n.position → m'.log.store.rows = n.log.store.rows := by
    rintro first ⟨rest, rfl⟩ m' hm' hposition
    obtain ⟨hfirst, hrest⟩ := always_append.mp hadmits
    obtain ⟨hthen, -⟩ := hgood.run hfirst fun part hpart =>
      (hled part (hpart.trans (List.prefix_append _ _))).2
    have hlater : ((w.run first).run rest).Good (· = master) ∧
        (w.run first).net.Grows ((w.run first).run rest).net := by
      refine hthen.run hrest fun part hpart => ?_
      rw [← run_append]
      exact (hled (first ++ part) ((List.prefix_append_right_inj first).mpr hpart)).2
    rw [← run_append] at hlater
    exact rows_eq hlast.net hlater.2 hthen.net hn hm hm' hposition
  refine ⟨⟨m, _, whole.drop n.position.toNat, hm, mirrors_of_holds hholds ?_⟩, hsame, ?_⟩
  · rw [List.take_append_drop]
    exact hwhole
  · intro m₀ hm₀ hlt
    obtain ⟨first, e, hprefix, hbefore, m', hm', hposition⟩ :=
      hgood.exists_commit hadmits hled hm₀ hm hlt hle
    exact ⟨first, e, hprefix, hbefore, m', hm', hposition, hsame _ hprefix m' hm' hposition⟩

/-- Nodes opened over the fences alone are a beginning. -/
theorem begins_openAll {now : Instant} {stores : List (Setup × Store)}
    (h : ∀ setup s, (setup, s) ∈ stores → s.rows = Rows.fenced) :
    Begins master { net := Net.openAll now stores } where
  opened := by
    intro url n hn
    obtain ⟨setup, s, hmem, hurl, hopened⟩ := Net.opened_of_openAll hn
    exact ⟨setup, now, s, [], hurl, h setup s hmem, IsHistory.nil, fun _ => rfl, hopened⟩
  packets := rfl
  answers := rfl
  tasks := rfl

/-- Hosts are probed at the first failed pull, and a master is elected at the second. -/
def hasty : Settings where
  readLogLimit := 100
  hostUpdateThreshold := 1
  electionThreshold := 2
  busyInterval := 10
  idleInterval := 50
  refreshInterval := 1000

/-- What a node of a small cluster is opened with: it starts as master, or it follows the node a. -/
def member (url : String) (isMaster : Bool) : Setup × Store :=
  (⟨url, isMaster, some "a", "", 8, hasty⟩, { engine := .tree, rows := Rows.fenced })

/-- Three nodes, of which the first is master. -/
def trio : World := { net := Net.openAll 0 [member "a" true, member "b" false, member "c" false] }

theorem begins_trio : trio.Begins "a" := by
  apply begins_openAll
  intro setup s hmem
  simp only [List.mem_cons, List.not_mem_nil, or_false] at hmem
  rcases hmem with h | h | h
  all_goals
    cases h
    rfl

/-- What becomes of a call to a node that is down. -/
def refusal : Outcome := .failed (.transport "a" "connection refused")

/-- A task takes some steps, one after the other. -/
def steps (task count : Nat) : List Event := List.replicate count (.move task)

/-- A node commits, another one pulls from it, and a third one from the second. -/
def relayed : List Event :=
  [[.commit "a" Log.sample, .begin "b" (.pull "a")], steps 0 3, [.arrive 0, .hear 0 [.answered 0]],
    steps 0 3, [.begin "c" (.pull "b")], steps 1 3, [.arrive 1, .hear 1 [.answered 1]],
    steps 1 3].flatten

/-- The third node, which never heard of the first one, mirrors its log. -/
theorem run_replicates_relayed : ∃ n, (trio.run relayed).net.node? "c" = some n ∧ n.position = 1 ∧
    ∃ m entries more, (trio.run relayed).net.node? "a" = some m ∧ Mirrors n m entries more := by
  have hposition : ((trio.run relayed).net.node? "c").map Node.position = some 1 := by decide +kernel
  obtain ⟨n, hn, hone⟩ := Option.map_eq_some_iff.mp hposition
  exact ⟨n, hn, hone,
    (run_replicates begins_trio (by decide +kernel) (by decide +kernel) hn).1⟩

end World

end LogShipping
