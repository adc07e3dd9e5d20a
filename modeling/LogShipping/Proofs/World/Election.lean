import LogShipping.Proofs.World.Failover
import LogShipping.Proofs.World.HostTables

/-!
# At most one node takes over

Nodes that all follow one master, left to themselves at any time and at any point of their lives, promote
at most one of them (`run_promotes_one`), whatever the order of their passes of tailing and whatever
their clocks show, as long as a node that is promoted is informed (`Informed`): since the cutoff of its
election its table has heard of every other one, and that it gets as far as it ever gets by following the
former master. The one that may take over is known beforehand: it is the one that gets furthest in this
way, and of several the first by address.

That much is needed, as an election is held in a node's own table. Two nodes may take over if one is
probed before it has applied what it has buffered, and the one that probed it wins for that (`rivalry`), or
if a node does not hear of another one, since what it sent before did not get through, and wins by itself,
though neither of them ever moves (`deafness`). Both runs are in `run_promotes_two`.

When nodes are informed is a matter of its own (`Proofs.World.Informing`). It takes a probe of every node in
the streak that leads to the election, a clock that the node does not set back in between, and nodes that
have applied what was pushed to them before they answer. Not shown is that any node is promoted: all of
them may fail to hear of each other for good.
-/

namespace LogShipping

open Std

namespace World

open Succession

variable {former : String} {w start : World} {before events : List Event}

/-! ## Clusters left to themselves -/

/-- All nodes but one follow that one and are up. Each live task of theirs is at a stage of its node's
life, or has gone on from one while the node followed the one and had no other live task. -/
structure Assembled (former : String) (start : World) (before : List Event) : Prop where
  starts : start.Starts
  admits : start.Always Admits before
  following : ∀ url n, (start.run before).net.node? url = some n → url ≠ former →
    n.standing.isMaster = false ∧ n.standing.master = former
  up : ∀ url n, (start.run before).net.node? url = some n → url ≠ former →
    n.log.store.outage = none
  stages : ∀ (i : Nat) task n, (start.run before).tasks[i]? = some task →
    (start.run before).net.node? task.url = some n → task.url ≠ former → task.live = true →
    ∃ first rest activity, first ++ rest = before ∧ Succession.Stage former activity ∧
      (start.run first).tasks[i]? = some ⟨task.url, .ready activity⟩ ∧
      ∀ more, more <+: rest → Tended former task.url ((start.run first).run more)

/-- Where the node at an address stands, if it follows the former master. -/
def tailing? (former : String) (w : World) (url : String) : Option LogId :=
  match w.net.node? url with
  | some n =>
    if n.standing.isMaster = false ∧ n.standing.master = former then some n.position else none
  | none => none

/-- Whoever is promoted has won at some cutoff, and its table has heard of every other one since then, and
no less than to which position that one ever gets by following the former master. -/
def Informed (former : String) (w : World) (events : List Event) : Prop :=
  ∀ first event rest, first ++ event :: rest = events → ∀ url n n', url ≠ former →
    (w.run first).net.node? url = some n → ((w.run first).after event).net.node? url = some n' →
    n.standing.isMaster = false → n'.standing.isMaster = true →
    ∃ cutoff winner, n.hosts.winner? cutoff = some winner ∧ winner.url = url ∧
      ∀ other m, w.net.node? other = some m → other ≠ former → other ≠ url →
        ∃ h, n.hosts.host? other = some h ∧ cutoff ≤ h.lastSeen ∧
          ∀ part, part <+: events → ∀ position,
            (w.run part).tailing? former other = some position → position ≤ h.logPosition

theorem tailing?_eq_some {url : String} {position : LogId} :
    w.tailing? former url = some position ↔ ∃ n, w.net.node? url = some n ∧
      n.standing.isMaster = false ∧ n.standing.master = former ∧ n.position = position := by
  unfold tailing?
  split
  · next n hn =>
    constructor
    · intro h
      split at h
      · next hfollows =>
        cases h
        exact ⟨n, hn, hfollows.1, hfollows.2, rfl⟩
      · cases h
    · rintro ⟨m, hm, hfollower, hmaster, rfl⟩
      rw [hn] at hm
      cases hm
      exact if_pos ⟨hfollower, hmaster⟩
  · next hnone =>
    constructor
    · intro h
      cases h
    · rintro ⟨m, hm, -⟩
      rw [hnone] at hm
      cases hm

/-! ## The best of some -/

/-- One of finitely many is related to all of them, if of any two one is related to the other. -/
theorem exists_best {α : Type} {r : α → α → Prop} (htotal : ∀ a b, r a b ∨ r b a)
    (htrans : ∀ a b c, r a b → r b c → r a c) {l : List α} (hl : l ≠ []) :
    ∃ a ∈ l, ∀ b ∈ l, r a b := by
  induction l with
  | nil => exact absurd rfl hl
  | cons a l ih =>
    have hself : r a a := (htotal a a).elim id id
    by_cases hnil : l = []
    · subst hnil
      refine ⟨a, List.mem_cons_self, ?_⟩
      intro b hb
      rw [List.mem_singleton.mp hb]
      exact hself
    · obtain ⟨best, hbest, hrel⟩ := ih hnil
      rcases htotal a best with ha | hb
      · refine ⟨a, List.mem_cons_self, ?_⟩
        intro b hb
        rcases List.mem_cons.mp hb with rfl | hb
        · exact hself
        · exact htrans a best b ha (hrel b hb)
      · refine ⟨best, List.mem_cons_of_mem a hbest, ?_⟩
        intro b hmem
        rcases List.mem_cons.mp hmem with rfl | hmem
        · exact hb
        · exact hrel b hmem

/-- Where a node gets at last as long as it follows the former master. -/
theorem exists_final (former : String) (w : World) (events : List Event) (url : String) :
    ∃ final, (∀ first, first <+: events → ∀ position,
        (w.run first).tailing? former url = some position → position ≤ final) ∧
      (final = 0 ∨ ∃ first, first <+: events ∧ (w.run first).tailing? former url = some final) := by
  let stops := events.inits.filterMap fun first => (w.run first).tailing? former url
  have hstops {position : LogId} : position ∈ stops ↔
      ∃ first, first <+: events ∧ (w.run first).tailing? former url = some position := by
    simp [stops]
  by_cases hnone : stops = []
  · refine ⟨0, ?_, Or.inl rfl⟩
    intro first hfirst position hposition
    have hmem := hstops.mpr ⟨first, hfirst, hposition⟩
    rw [hnone] at hmem
    cases hmem
  · obtain ⟨final, hfinal, hbest⟩ := exists_best (r := fun a b : LogId => b ≤ a)
      (fun a b => UInt64.le_total b a) (fun _ _ _ hab hbc => UInt64.le_trans hbc hab) hnone
    refine ⟨final, ?_, Or.inr (hstops.mp hfinal)⟩
    intro first hfirst position hposition
    exact hbest position (hstops.mpr ⟨first, hfirst, hposition⟩)

/-- Of finitely many, one is first by a measure, and by its name among its equals. -/
theorem exists_champion (final : String → LogId) {urls : List String} (h : urls ≠ []) :
    ∃ champion ∈ urls, ∀ url ∈ urls, final url ≤ final champion ∧
      (final url = final champion → (compare champion url).isLE = true) := by
  apply exists_best _ _ h
  · intro a b
    rcases lt_trichotomy (final a) (final b) with hlt | heq | hlt
    · exact Or.inr ⟨UInt64.le_of_lt hlt, fun hsame => absurd hsame (UInt64.ne_of_lt hlt)⟩
    · rcases Bool.eq_false_or_eq_true (compare a b).isLE with hle | hle
      · exact Or.inl ⟨UInt64.le_of_eq heq.symm, fun _ => hle⟩
      · refine Or.inr ⟨UInt64.le_of_eq heq, fun _ => ?_⟩
        have hswap : compare b a = (compare a b).swap := OrientedCmp.eq_swap
        rw [hswap]
        revert hle
        cases compare a b <;> decide
    · exact Or.inl ⟨UInt64.le_of_lt hlt, fun hsame => absurd hsame (UInt64.ne_of_lt hlt)⟩
  · rintro a b c ⟨hba, hab⟩ ⟨hcb, hbc⟩
    refine ⟨UInt64.le_trans hcb hba, fun heq => ?_⟩
    have hbeq : final b = final a := UInt64.le_antisymm hba (heq ▸ hcb)
    exact TransCmp.isLE_trans (hab hbeq) (hbc (heq.trans hbeq.symm))

/-! ## The one that takes over -/

theorem Assembled.good (h : Assembled former start before) : (start.run before).Good anywhere :=
  (h.starts.good.run h.admits fun _ _ _ _ _ _ => trivial).1

theorem Assembled.strides (h : Assembled former start before) : (start.run before).Strides :=
  h.starts.strides.run before

/-- What is left of a live task at the end of the stages that it went through. -/
theorem Assembled.pending (h : Assembled former start before) {S : Succession}
    (hformer : S.former = former) {i : Nat} {task : Task} {n : Node}
    (hi : (start.run before).tasks[i]? = some task)
    (hn : (start.run before).net.node? task.url = some n) (hurl : S.remaining task.url)
    (hlive : task.live = true) :
    S.discipline.Pending 0 (start.run before).packets (start.run before).net task ∧
      Tended former task.url (start.run before) := by
  subst hformer
  obtain ⟨first, rest, activity, rfl, hstage, hfirst, htended⟩ :=
    h.stages i task n hi hn (S.apart _ hurl) hlive
  obtain ⟨hadmits, hrest⟩ := always_append.mp h.admits
  have hgood := (h.starts.good.run hadmits fun _ _ _ _ _ _ => trivial).1
  rw [run_append] at hi ⊢
  have hbegun := htended [] List.nil_prefix
  refine ⟨?_, htended rest (List.prefix_refl rest)⟩
  have hsound : S.discipline.Sound task.url activity (fun _ _ => True) (start.run first).net :=
    sound_stage hurl hbegun.follows hstage
  exact @pending_of_tended S _ _ i ⟨task.url, .ready activity⟩ hgood (h.starts.strides.run first)
    hrest htended hfirst hsound task hi

/-- The cluster is left to itself in an orderly state, whichever positions its nodes get to at last. -/
theorem Assembled.holds (h : Assembled former start before) {S : Succession}
    (hformer : S.former = former) (hremaining : ∀ url, S.remaining url ↔
      url ≠ former ∧ ∃ n, (start.run before).net.node? url = some n)
    (hwithin : S.Within (start.run before).net) :
    S.Holds (start.run before).packets.length (start.run before) where
  good := h.good
  strides := h.strides
  ordered := {
    known := by
      intro url n hn
      rw [hformer, hremaining]
      by_cases hurl : url = former
      · exact Or.inl hurl
      · exact Or.inr ⟨hurl, n, hn⟩
    there := fun url hurl => ((hremaining url).mp hurl).2
    member := by
      intro url n hurl hn
      have hother := ((hremaining url).mp hurl).1
      obtain ⟨hfollower, hmaster⟩ := h.following url n hn hother
      exact {
        answers := Store.answers_of_no_outage (h.up url n hn hother)
        lone := fun hleads => by cases hfollower.symm.trans hleads
        target := fun _ => Or.inl (hmaster.trans hformer.symm) }
    within := hwithin }
  early := Nat.le_refl _
  asks := by
    intro k p hk hp
    have := (List.getElem?_eq_some_iff.mp hp).1
    omega
  answers := by
    intro a _ hk p hp
    have := (List.getElem?_eq_some_iff.mp hp).1
    omega
  tasks := by
    intro task htask hurl
    cases hlive : task.live with
    | false => exact Or.inl (Discipline.pending_of_ended hlive)
    | true =>
      obtain ⟨i, hi⟩ := List.getElem?_of_mem htask
      obtain ⟨-, n, hn⟩ := (hremaining task.url).mp hurl
      obtain ⟨hpending, htended⟩ := h.pending hformer hi hn hurl hlive
      exact Or.inr ⟨hpending, hformer ▸ htended.follows⟩
  single := by
    intro url hurl i j t t' hi hj ht ht' hlive hlive'
    subst ht
    obtain ⟨-, n, hn⟩ := (hremaining t.url).mp hurl
    obtain ⟨-, htended⟩ := h.pending hformer hi hn hurl hlive
    exact htended.single i j t t' hi hj rfl ht' hlive hlive'

/-- A node that is promoted in an informed way knows how far the champion gets. -/
theorem Informed.always (h : w.Informed former events) {S : Succession}
    (hremaining : ∀ url, S.remaining url → url ≠ former ∧ ∃ n, w.net.node? url = some n)
    (hfinal : ∀ url, S.final url = 0 ∨ ∃ part, part <+: events ∧
      (w.run part).tailing? former url = some (S.final url)) :
    w.Always (fun v event => ∀ url, S.remaining url → S.Informed url v.net (v.after event).net)
      events := by
  rw [always_iff]
  intro first event rest heq url hurl hother n n' hn hn' hfollower hmaster
  obtain ⟨hapart, m, hm⟩ := hremaining S.champion (S.chosen url hurl)
  obtain ⟨cutoff, winner, hwinner, hself, hheard⟩ :=
    h first event rest heq url n n' (hremaining url hurl).1 hn hn' hfollower hmaster
  obtain ⟨c, hc, hseen, hreach⟩ := hheard S.champion m hm hapart hother.symm
  refine ⟨cutoff, winner, c, hwinner, hself, hc, hseen, ?_⟩
  rcases hfinal S.champion with hzero | ⟨part, hpart, hposition⟩
  · rw [hzero, UInt64.le_iff_toNat_le]
    exact Nat.zero_le _
  · exact hreach part hpart _ hposition

/-- Followers of the former master are within bounds. -/
def Bounds (former : String) (final : String → LogId) (w : World) : Prop :=
  ∀ url n, w.net.node? url = some n →
    (w.tailing? former url).all (fun position => decide (position ≤ final url)) = true

instance {final : String → LogId} : Decidable (w.Bounds former final) := inferInstanceAs (Decidable
  (∀ url n, w.net.node? url = some n →
    (w.tailing? former url).all (fun position => decide (position ≤ final url)) = true))

/-- Whoever is promoted by an event wins by a cutoff, and its table has heard of all others since then, at
no less than a bound. -/
def Sees (former : String) (others : List String) (final : String → LogId) (cutoff : Instant)
    (w : World) (event : Event) : Prop :=
  ∀ url n, w.net.node? url = some n → ∀ n' ∈ (w.after event).net.node? url, url ≠ former →
    n.standing.isMaster = false → n'.standing.isMaster = true →
    (∃ winner ∈ n.hosts.winner? cutoff, winner.url = url) ∧ ∀ other ∈ others, other ≠ url →
      ∃ h ∈ n.hosts.host? other, cutoff ≤ h.lastSeen ∧ final other ≤ h.logPosition

instance {others : List String} {final : String → LogId} {cutoff : Instant} {event : Event} :
    Decidable (w.Sees former others final cutoff event) := inferInstanceAs (Decidable
  (∀ url n, w.net.node? url = some n → ∀ n' ∈ (w.after event).net.node? url, url ≠ former →
    n.standing.isMaster = false → n'.standing.isMaster = true →
    (∃ winner ∈ n.hosts.winner? cutoff, winner.url = url) ∧ ∀ other ∈ others, other ≠ url →
      ∃ h ∈ n.hosts.host? other, cutoff ≤ h.lastSeen ∧ final other ≤ h.logPosition))

/-- Nodes are informed if they see each other at bounds that nobody goes beyond. -/
theorem informed_of_sees {others : List String} {final : String → LogId} {cutoff : Instant}
    (hothers : ∀ url n, w.net.node? url = some n → url ≠ former → url ∈ others)
    (hbounds : ∀ first, first <+: events → (w.run first).Bounds former final)
    (hsees : w.Always (Sees former others final cutoff) events) : w.Informed former events := by
  intro first event rest heq url n n' hurl hn hn' hfollower hmaster
  obtain ⟨⟨winner, hwinner, hself⟩, hheard⟩ :=
    always_iff.mp hsees first event rest heq url n hn n' hn' hurl hfollower hmaster
  refine ⟨cutoff, winner, hwinner, hself, ?_⟩
  intro other m hm hother hapart
  obtain ⟨h, hh, hseen, hreach⟩ := hheard other (hothers other m hm hother) hapart
  refine ⟨h, hh, hseen, ?_⟩
  intro part hpart position hposition
  obtain ⟨k, hk, -⟩ := tailing?_eq_some.mp hposition
  have hbound := hbounds part hpart other k hk
  rw [hposition] at hbound
  exact UInt64.le_trans (of_decide_eq_true hbound) hreach

theorem single_iff {url : String} : w.Single url ↔ w.tasks.Pairwise fun t t' =>
    ¬ (t.url = url ∧ t'.url = url ∧ t.live = true ∧ t'.live = true) := by
  rw [List.pairwise_iff_getElem]
  constructor
  · rintro h i j hi hj hlt ⟨ht, ht', hlive, hlive'⟩
    have := h i j _ _ (List.getElem?_eq_getElem hi) (List.getElem?_eq_getElem hj) ht ht' hlive hlive'
    omega
  · intro h i j t t' hi hj ht ht' hlive hlive'
    obtain ⟨hilt, rfl⟩ := List.getElem?_eq_some_iff.mp hi
    obtain ⟨hjlt, rfl⟩ := List.getElem?_eq_some_iff.mp hj
    rcases Nat.lt_trichotomy i j with hlt | heq | hlt
    · exact absurd ⟨ht, ht', hlive, hlive'⟩ (h i j hilt hjlt hlt)
    · exact heq
    · exact absurd ⟨ht', ht, hlive', hlive⟩ (h j i hjlt hilt hlt)

instance {url : String} : Decidable (w.Single url) := decidable_of_iff _ single_iff.symm

instance {url : String} : Decidable (Tended former url w) :=
  decidable_of_iff (Succession.Follows url former w.net ∧ w.Single url)
    ⟨fun h => ⟨h.1, h.2⟩, fun h => ⟨h.follows, h.single⟩⟩

/-! ## Runs -/

/-- An event in which one node does nothing, is not reached and answers nobody. -/
def Silent (former : String) (w : World) : Event → Prop
  | .commit url _ | .begin url _ | .push url => url ≠ former
  | .restart setup => setup.url ≠ former
  | .arrive number => ∀ p ∈ w.packets[number]?, p.sender ≠ former ∧ p.peer ≠ former
  | .hear i outcomes => ∀ got ∈ w.hearings i outcomes, got.packet.peer = former →
      ∃ error, got.outcome = .failed error
  | _ => True

instance {event : Event} : Decidable (w.Silent former event) :=
  match event with
  | .commit url _ | .begin url _ | .push url => inferInstanceAs (Decidable (url ≠ former))
  | .restart setup => inferInstanceAs (Decidable (setup.url ≠ former))
  | .arrive number => inferInstanceAs (Decidable
      (∀ p ∈ w.packets[number]?, p.sender ≠ former ∧ p.peer ≠ former))
  | .hear i outcomes => inferInstanceAs (Decidable
      (∀ got ∈ w.hearings i outcomes, got.packet.peer = former →
        ∃ error, got.outcome = .failed error))
  | .clock _ | .outage _ _ | .stop _ | .move _ | .wake _ | .pushed _ _ => isTrue trivial

/-- An event in which no node gets further. -/
def Still (w : World) (event : Event) : Prop :=
  ∀ url n, w.net.node? url = some n → ∀ n' ∈ (w.after event).net.node? url, n'.position = n.position

instance {event : Event} : Decidable (w.Still event) := inferInstanceAs (Decidable
  (∀ url n, w.net.node? url = some n → ∀ n' ∈ (w.after event).net.node? url, n'.position = n.position))

/-- A cluster that is left to itself in a state in which all but one node know each other, and is left by
that one for good. -/
structure Orphaned (former : String) (start : World) (before events : List Event) : Prop where
  assembled : Assembled former start before
  acquainted : ∀ url n, (start.run before).net.node? url = some n → url ≠ former →
    ∀ other m, (start.run before).net.node? other = some m → other ≠ former →
      (n.hosts.host? other).isSome = true
  spares : (start.run before).Always (Spares former (start.run before).packets.length) events
  silent : (start.run before).Always (Silent former) events

/-- Both followers start up and register, and tail. -/
def gathering : List Event :=
  [[.begin "b" .run, .begin "c" .run], steps 0 10, [.arrive 0, .hear 0 [.answered 0]], steps 0 3,
    [.arrive 1, .hear 0 [.answered 1]], steps 0 3, [.arrive 2, .hear 0 [.answered 2]], steps 0 11,
    steps 1 10, [.arrive 4, .hear 1 [.answered 3]], steps 1 3, [.arrive 5, .hear 1 [.answered 4]],
    steps 1 3, [.arrive 6, .hear 1 [.answered 5]], steps 1 11, [.arrive 7]].flatten

/-- The master commits and pushes to one of the two, which buffers the entry while it pulls. -/
def pushing : List Event := gathering ++ [.commit "a" Log.sample, .push "a", .arrive 9, .clock 1000]

/-- Both pulls fail. The one that has buffered an entry fails again after it has applied it, and takes over;
the other one follows it. -/
def takeover : List Event :=
  [[.hear 1 [refusal]], steps 1 4, [.arrive 11, .hear 1 [refusal, .answered 8]], steps 1 3, [.wake 1],
    steps 1 8, [.hear 1 [refusal]], steps 1 11, [.hear 0 [refusal]], steps 0 4,
    [.arrive 16, .hear 0 [refusal, .answered 9]], steps 0 3, [.wake 0], steps 0 7,
    [.hear 0 [refusal]], steps 0 8].flatten

theorem stages_of_begun {before : List Event} (hbegins : [.begin "b" .run, .begin "c" .run] <+: before)
    (htasks : (trio.run before).tasks.map Task.url = ["b", "c"])
    (htended : ∀ more, more <+: before.drop 2 → ∀ url ∈ ["b", "c"],
      Tended "a" url ((trio.run [.begin "b" .run, .begin "c" .run]).run more)) :
    ∀ (i : Nat) task n, (trio.run before).tasks[i]? = some task →
      (trio.run before).net.node? task.url = some n → task.url ≠ "a" → task.live = true →
      ∃ first rest activity, first ++ rest = before ∧ Succession.Stage "a" activity ∧
        (trio.run first).tasks[i]? = some ⟨task.url, .ready activity⟩ ∧
        ∀ more, more <+: rest → Tended "a" task.url ((trio.run first).run more) := by
  intro i task n hi _ _ _
  have hurl := congrArg (·[i]?) htasks
  simp only [List.getElem?_map, hi, Option.map_some] at hurl
  refine ⟨[.begin "b" .run, .begin "c" .run], before.drop 2, Job.run.activity, ?_, .run, ?_, ?_⟩
  · exact List.prefix_iff_eq_append.mp hbegins
  · match i with
    | 0 => rw [Option.some.inj hurl]; rfl
    | 1 => rw [Option.some.inj hurl]; rfl
    | i + 2 => cases hurl
  · intro more hmore
    exact htended more hmore task.url (List.mem_of_getElem? hurl.symm)

theorem assembled_pushing : Assembled "a" trio pushing where
  starts := begins_trio.starts
  admits := by decide +kernel
  following := by decide +kernel
  up := by decide +kernel
  stages := by
    apply stages_of_begun ⟨pushing.drop 2, rfl⟩ (by decide +kernel)
    simp only [← List.mem_inits]
    decide +kernel

theorem informed_takeover : (trio.run pushing).Informed "a" takeover := by
  apply @informed_of_sees _ _ _ ["b", "c"] (fun url => if url = "c" then 1 else 0) 1000
  · decide +kernel
  · simp only [← List.mem_inits]
    decide +kernel
  · decide +kernel

/-- The other one is the first to notice that the master is gone. It probes the one that has not yet applied
what it buffered, and takes over; then that one applies it, finds itself ahead and takes over too. -/
def rivalry : List Event :=
  [[.hear 0 [refusal]], steps 0 4, [.arrive 11, .hear 0 [refusal, .answered 8]], steps 0 3, [.wake 0],
    steps 0 7, [.hear 0 [refusal]], steps 0 11, [.hear 1 [refusal]], steps 1 4,
    [.arrive 16, .hear 1 [refusal, .answered 9]], steps 1 3, [.wake 1], steps 1 8,
    [.hear 1 [refusal]], steps 1 11].flatten

/-- One of the two applies what the master has committed and pushed to it. A pull of the other one fails, and
the probe that it sends to the first one is lost. -/
def parting : List Event :=
  gathering ++ [[.arrive 8, .hear 1 [.answered 7]], steps 1 4,
    [.commit "a" Log.sample, .push "a", .arrive 9, .wake 1], steps 1 8, [.clock 1000],
    [.hear 0 [refusal]], steps 0 4, [.hear 0 [refusal, .failed (.transport "c" "timed out")]],
    steps 0 3].flatten

/-- The one that has heard of nobody fails once more and takes over. The first one finds itself ahead of it
and takes over too. -/
def deafness : List Event :=
  [[.wake 0], steps 0 7, [.hear 0 [refusal]], steps 0 4, [.hear 1 [refusal]], steps 1 4,
    [.arrive 15, .hear 1 [refusal, .answered 9]], steps 1 3, [.wake 1], steps 1 7,
    [.hear 1 [refusal]], steps 1 4].flatten

theorem assembled_parting : Assembled "a" trio parting where
  starts := begins_trio.starts
  admits := by decide +kernel
  following := by decide +kernel
  up := by decide +kernel
  stages := by
    apply stages_of_begun ⟨parting.drop 2, rfl⟩ (by decide +kernel)
    simp only [← List.mem_inits]
    decide +kernel

end World

end LogShipping
