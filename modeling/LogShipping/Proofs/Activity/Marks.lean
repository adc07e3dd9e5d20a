import LogShipping.Proofs.Activity.Runs
import LogShipping.Proofs.Activity.Steps

/-!
# The parts of tailing

A run of tailing is made up of parts. Some of them are marked: a pull, the note of a failed pull, a
probe of all hosts, an election. What lies between them (`Aside`) looks at the node, applies what was
pushed, follows a winner or rests. A marked part is told by a run of the program that does it, so a
section of a run is marked for what it is (`Part`, `Told`).

Each part but an election and the following of its winner leaves alone who the node is and whom it
follows, and in all parts the host table grows (`Kept`): a host that stays in it is not heard of less
recently than before.

A mark is not a label that is put on a run from outside: `Mark.Of` demands that the deeds of the section
are a run of that very function from that node. So a statement about marks is one about the program, and
it would not survive a change of the order in which it does things. A table that a peer sends may take
hosts out of the table; so all that is said of one host holds as long as it stays.
-/

namespace LogShipping

open Work

/-! ## Deeds in a row -/

/-- A deed begins at a node and leaves a node. -/
def Deed.Leads : Deed → Node → Node → Prop
  | .work _ before after, n, m | .beside before after, n, m => before = n ∧ after = m
  | _, n, m => m = n

/-- Deeds lead from one node to another, each going on where the one before it has left the node. -/
def Leads : List Deed → Node → Node → Prop
  | [], n, m => m = n
  | deed :: deeds, n, m => ∃ k, deed.Leads n k ∧ Leads deeds k m

/-- The host table grows in a deed. -/
def Deed.Grows : Deed → Prop
  | .work _ before after | .beside before after => before.hosts.Grows after.hosts
  | _ => True

/-- The readings of the clock in the deeds of an activity, in order. -/
def clocks (deeds : List Deed) : List Instant :=
  deeds.filterMap fun
    | .work now _ _ => some now
    | _ => none

section Row

variable {n m k : Node} {deeds first second : List Deed}

@[simp] theorem clocks_append (first second : List Deed) :
    clocks (first ++ second) = clocks first ++ clocks second := List.filterMap_append

@[simp] theorem clocks_work (now : Instant) (before after : Node) :
    clocks [.work now before after] = [now] := rfl

theorem Activity.Runs.leads {α : Type} {a : Activity Node α} {r : Option α}
    (h : a.Runs n deeds r m) : Leads deeds n m := by
  induction h with
  | done | underWay => rfl
  | beside _ _ _ ih | atomic _ _ ih => exact ⟨_, ⟨rfl, rfl⟩, ih⟩
  | call _ _ ih | callAll _ _ _ ih | pause _ _ ih | round _ ih => exact ⟨_, rfl, ih⟩
  | calling | callingAll => exact ⟨_, rfl, rfl⟩

theorem Leads.append (h : Leads first n k) (h' : Leads second k m) : Leads (first ++ second) n m := by
  induction first generalizing n with
  | nil =>
    cases h
    exact h'
  | cons deed first ih =>
    obtain ⟨k', hdeed, hfirst⟩ := h
    exact ⟨k', hdeed, ih hfirst⟩

theorem Leads.split (h : Leads (first ++ second) n m) : ∃ k, Leads first n k ∧ Leads second k m := by
  induction first generalizing n with
  | nil => exact ⟨n, rfl, h⟩
  | cons deed first ih =>
    obtain ⟨k, hdeed, hrest⟩ := h
    obtain ⟨k', hfirst, hsecond⟩ := ih hrest
    exact ⟨k', ⟨k, hdeed, hfirst⟩, hsecond⟩

/-- A host that was heard of and stays in the table all the time was heard of in the end. -/
theorem Leads.heard (h : Leads deeds n m) (hgrows : ∀ deed ∈ deeds, deed.Grows) {url : String}
    {since : Instant} (hheard : n.hosts.Heard since url)
    (hstays : ∀ deed ∈ deeds, ∀ k, deed.left = some k → ∃ host, k.hosts.host? url = some host) :
    m.hosts.Heard since url := by
  induction deeds generalizing n with
  | nil =>
    cases h
    exact hheard
  | cons deed deeds ih =>
    obtain ⟨k, hdeed, hrest⟩ := h
    refine ih hrest (fun d hd => hgrows d (List.mem_cons_of_mem _ hd)) ?_
      fun d hd => hstays d (List.mem_cons_of_mem _ hd)
    have hgrow := hgrows deed List.mem_cons_self
    have hstay := hstays deed List.mem_cons_self
    cases deed with
    | work | beside =>
      obtain ⟨rfl, rfl⟩ := hdeed
      obtain ⟨host, hhost⟩ := hstay _ rfl
      exact hheard.grows hgrow hhost
    | call | callAll | pause | round =>
      cases hdeed
      exact hheard

/-- A host table keeps its records under their addresses, and stays one of the same node. -/
theorem Leads.grown (h : Leads deeds n m) (hgrows : ∀ deed ∈ deeds, deed.Grows) :
    (n.hosts.Keyed → m.hosts.Keyed) ∧ m.hosts.self = n.hosts.self := by
  induction deeds generalizing n with
  | nil =>
    cases h
    exact ⟨fun hkeyed => hkeyed, rfl⟩
  | cons deed deeds ih =>
    obtain ⟨k, hdeed, hrest⟩ := h
    obtain ⟨hkeyed, hself⟩ := ih hrest fun d hd => hgrows d (List.mem_cons_of_mem _ hd)
    have hgrow := hgrows deed List.mem_cons_self
    cases deed with
    | work | beside =>
      obtain ⟨rfl, rfl⟩ := hdeed
      exact ⟨fun hn => hkeyed (hgrow.keyed hn), hself.trans hgrow.self⟩
    | call | callAll | pause | round =>
      cases hdeed
      exact ⟨hkeyed, hself⟩

end Row

theorem HostTable.Turn.grows {table table' : HostTable} (h : table.Turn table') :
    table.Grows table' := by
  cases h with
  | same => exact Grows.refl table
  | observe url position seen => exact (gains_observe table url position seen).grows
  | adopt snapshot => exact grows_adopt table snapshot

/-! ## What parts leave alone -/

theorem Node.Alike.akin {n n' : Node} (h : n.Alike n') : n.Akin n' :=
  ⟨h.url, h.settings, h.self, h.isMaster, h.master⟩

/-- Since it was like this the node is akin, and its host table has grown in each deed. -/
structure Kept (n : Node) (h : List Deed) (m : Node) : Prop where
  akin : n.Akin m
  grows : ∀ deed ∈ h, deed.Grows

namespace Kept

variable {n m m' : Node} {h : List Deed} {deed : Deed}

theorem refl (n : Node) : Kept n [] n := ⟨.refl n, by simp⟩

theorem grows_snoc (hkept : Kept n h m) (hgrows : deed.Grows) :
    ∀ other ∈ h ++ [deed], other.Grows := by
  intro other hother
  rcases List.mem_append.mp hother with hother | hother
  · exact hkept.grows other hother
  · rw [List.mem_singleton.mp hother]
    exact hgrows

theorem snoc (hkept : Kept n h m) (hgrows : deed.Grows) (hakin : m.Akin m') :
    Kept n (h ++ [deed]) m' :=
  ⟨hkept.akin.trans hakin, hkept.grows_snoc hgrows⟩

theorem beside (hkept : Kept n h m) (hbeside : m.Beside m') : Kept n (h ++ [.beside m m']) m' :=
  hkept.snoc hbeside.turn.grows hbeside.alike.akin

theorem steady (n : Node) : Story.Steady (Kept n) where
  beside := beside
  round := fun hkept => hkept.snoc trivial (.refl _)

theorem allows (n : Node) : Story.Allows Node.Calm (Kept n) where
  work := fun hkept hcalm => hkept.snoc hcalm.grows hcalm.toAkin
  beside := beside
  idle := by
    intro h m deed hkept hleft
    refine hkept.snoc ?_ (.refl m)
    cases deed with
    | work | beside => cases hleft
    | call | callAll | pause | round => trivial

theorem observe (hkept : Kept n h m) (now : Instant) (url : String) (position : LogId) (seen : Instant) :
    Kept n (h ++ [.work now m { m with hosts := m.hosts.observe url position seen }])
      { m with hosts := m.hosts.observe url position seen } :=
  hkept.snoc (HostTable.gains_observe m.hosts url position seen).grows ⟨rfl, rfl, rfl, rfl, rfl⟩

end Kept

/-- An election leaves the host table alone. -/
theorem Node.hosts_elect (n : Node) (cutoff : Instant) : (n.elect cutoff).2.hosts = n.hosts := by
  unfold Node.elect
  split
  · split <;> rfl
  · rfl

theorem Node.phase_elect (n : Node) (cutoff : Instant) : (n.elect cutoff).2.phase = n.phase := by
  unfold Node.elect
  split
  · split <;> rfl
  · rfl

namespace Lifecycle

open Terms

/-- What is asked of work that keeps a story going and cannot fail. -/
def sure (P : Story) : Terms := ⟨P, fun _ _ _ => False⟩

theorem waits_sure {P : Story} (hP : P.Steady) : (sure P).Waits P := ⟨hP, fun h => h⟩

section Parts

variable (n : Node)

theorem kept_clock : (sure (Kept n)).Acts clock (Kept n) fun _ => Kept n :=
  Acts.onNode (waits_sure (Kept.steady n)) fun _ m _ hkept =>
    hkept.snoc (HostTable.Grows.refl m.hosts) (.refl m)

theorem kept_enter (phase : Phase) : (sure (Kept n)).Acts (enter phase) (Kept n) fun _ => Kept n :=
  Acts.change (waits_sure (Kept.steady n)) fun _ m _ hkept =>
    hkept.snoc (HostTable.Grows.refl m.hosts) ⟨rfl, rfl, rfl, rfl, rfl⟩

/-- Work that cannot fail, as a part of work that can. -/
theorem keeping_of_sure {α : Type} {work : Work α} {P Q : Story} {R : α → Story}
    (h : (sure Q).Acts work P R) : (keeping Q).Acts work P R :=
  h.relax (fun _ _ hQ => hQ) fun _ _ _ hfalse => hfalse.elim

/-- Calm work, whether it can fail or not. -/
theorem kept_of_calm {α : Type} {work : Work α} (h : work.Steps Node.Calm) :
    (keeping (Kept n)).Acts work (Kept n) fun _ => Kept n := Acts.of_steps h (Kept.allows n)

end Parts

/-! ## Probing and electing -/

/-- A peer has answered a probe. -/
def Answered (deeds : List Deed) (peer : String) : Prop :=
  ∃ peers replies url position isMaster master,
    .callAll peers .statusRequest (some replies) ∈ deeds ∧
      (peer, .ok (.status url position isMaster master)) ∈ peers.zip replies

theorem answered_snoc {deeds : List Deed} {deed : Deed} {peer : String}
    (hdeed : ∀ peers replies, deed ≠ .callAll peers .statusRequest (some replies)) :
    Answered (deeds ++ [deed]) peer ↔ Answered deeds peer := by
  unfold Answered
  simp only [List.mem_append, List.mem_singleton, (hdeed _ _).symm, or_false]

section Answering

variable {deeds : List Deed} {peer : String}

@[simp] theorem answered_work (now : Instant) (before after : Node) :
    Answered (deeds ++ [.work now before after]) peer ↔ Answered deeds peer := answered_snoc nofun

@[simp] theorem answered_beside (before after : Node) :
    Answered (deeds ++ [.beside before after]) peer ↔ Answered deeds peer := answered_snoc nofun

@[simp] theorem answered_round : Answered (deeds ++ [.round]) peer ↔ Answered deeds peer :=
  answered_snoc nofun

end Answering

/-- Before a probe nobody has answered. -/
def Unasked (n : Node) : Story := fun h m => Kept n h m ∧ ∀ peer, ¬ Answered h peer

theorem steady_unasked (n : Node) : Story.Steady (Unasked n) where
  beside := fun ⟨hkept, hnobody⟩ hbeside => ⟨hkept.beside hbeside, by simpa using hnobody⟩
  round := fun ⟨hkept, hnobody⟩ => ⟨(Kept.steady n).round hkept, by simpa using hnobody⟩

/-- A probe notes all peers that answer it. -/
theorem acts_hostUpdate (n : Node) :
    (sure (Kept n)).Acts hostUpdate (Unasked n) fun _ h m =>
      Kept n h m ∧ ∃ t ∈ clocks h, ∀ peer, Answered h peer → m.hosts.Heard t peer := by
  have hwaits : (sure (Kept n)).Waits (Unasked n) := ⟨steady_unasked n, fun h => h.1⟩
  unfold hostUpdate
  refine Acts.bind (R := fun _ => Unasked n) ?_ fun peers => ?_
  · exact Acts.inspect hwaits fun h m now ⟨hkept, hnobody⟩ =>
      ⟨hkept.snoc (HostTable.Grows.refl m.hosts) (.refl m), by simpa using hnobody⟩
  -- the replies that are noted are those of the call
  let asked (replies : List (Except Error Message)) : Story := fun h m => Kept n h m ∧
    ∀ peer, Answered h peer → ∃ url position isMaster master,
      (peer, .ok (.status url position isMaster master)) ∈ peers.zip replies
  have hasked : ∀ replies, (sure (Kept n)).Waits (asked replies) := by
    refine fun replies => ⟨⟨?_, ?_⟩, fun h => h.1⟩
    · exact fun ⟨hkept, hreplies⟩ hbeside => ⟨hkept.beside hbeside, by simpa using hreplies⟩
    · exact fun ⟨hkept, hreplies⟩ => ⟨(Kept.steady n).round hkept, by simpa using hreplies⟩
  refine Acts.bind (R := asked) ?_ fun replies => ?_
  · refine Acts.callAll hwaits (fun _ m h => h.1.snoc trivial (.refl m)) ?_
    intro h m replies ⟨hkept, hnobody⟩ hlength
    refine ⟨hkept.snoc trivial (.refl m), ?_⟩
    rintro peer ⟨peers', replies', url, position, isMaster, master, hmem, hzip⟩
    rcases List.mem_append.mp hmem with hmem | hmem
    · exact (hnobody peer ⟨_, _, _, _, _, _, hmem, hzip⟩).elim
    · cases List.mem_singleton.mp hmem
      refine ⟨url, position, isMaster, master, ?_⟩
      rw [List.zip_map_right]
      exact List.mem_map.mpr ⟨_, hzip, rfl⟩
  · refine Acts.onNode (hasked replies) fun h m now ⟨hkept, hreplies⟩ => ?_
    obtain ⟨hosts, heq, hgains, hnoted⟩ := noteProbes_spec now (peers.zip replies) m
    rw [heq]
    refine ⟨hkept.snoc hgains.grows ⟨rfl, rfl, hgains.self, rfl, rfl⟩, now, by simp, ?_⟩
    intro peer hpeer
    obtain ⟨url, position, isMaster, master, hzip⟩ := hreplies peer (by simpa using hpeer)
    obtain ⟨host, hhost, -, hseen⟩ := hnoted peer url position isMaster master hzip
    exact ⟨host, hhost, hseen⟩

/-- A node has looked at itself, so it was heard of. -/
def Touched (n : Node) : Story := fun h m =>
  Kept n h m ∧ ∃ t ∈ clocks h, m.hosts.Heard t m.hosts.self

theorem steady_touched (n : Node) : Story.Steady (Touched n) where
  beside := by
    rintro h m m' ⟨hkept, t, ht, hheard⟩ hbeside
    refine ⟨hkept.beside hbeside, t, by simp [ht], ?_⟩
    have hgrows := hbeside.turn.grows
    obtain ⟨own, hown⟩ := hgrows.own _ hheard.choose_spec.1
    rw [hgrows.self]
    exact hheard.grows hgrows hown
  round := fun ⟨hkept, t, ht, hheard⟩ => ⟨(Kept.steady n).round hkept, t, by simp [ht], hheard⟩

/-- An election ends with the step that decides it, and the node was heard of before. -/
theorem acts_elect (n : Node) (cutoff : Instant) :
    (sure (Kept n)).Acts (elect cutoff) (Kept n) fun winner h m =>
      ∃ waiting now b, h = waiting ++ [.work now b m] ∧ Touched n waiting b ∧
        winner = (b.elect cutoff).1.map (·.url) ∧ m = (b.elect cutoff).2 := by
  unfold elect
  refine Acts.bind (R := fun _ => Touched n) ?_ fun _ => ?_
  · refine Acts.change (waits_sure (Kept.steady n)) fun h m now hkept => ?_
    exact ⟨hkept.observe now _ _ now, now, by simp, HostTable.heard_observe _ _ _ _⟩
  refine Acts.bind (R := fun winner h m => ∃ waiting now b, h = waiting ++ [.work now b m] ∧
    Touched n waiting b ∧ winner = (b.elect cutoff).1 ∧ m = (b.elect cutoff).2) ?_ fun winner => ?_
  · refine Acts.onNode ⟨steady_touched n, fun h => h.1⟩ fun h m now htouched => ?_
    exact ⟨h, now, m, rfl, htouched, rfl, rfl⟩
  · refine Acts.pure fun h m ⟨waiting, now, b, hh, htouched, hwinner, hm⟩ => ?_
    exact ⟨waiting, now, b, hh, htouched, by rw [hwinner], hm⟩

end Lifecycle

/-! ## Marked parts -/

open Lifecycle Terms

/-- A marked part of tailing; its result is missing while it is under way. -/
inductive Mark where
  /-- A pull from a master. -/
  | pull (master : String) (outcome : Option (Except Error UInt64))
  /-- The note of a failed pull, made at this time. -/
  | failure (now : Instant)
  /-- A probe of all hosts, which so many have answered. -/
  | probe (answers : Option Nat)
  /-- An election among the hosts heard of since a time. -/
  | election (cutoff : Instant) (winner : Option (Option String))

/-- The deeds of a marked part, from one node to another. -/
def Mark.Of : Mark → Node → List Deed → Node → Prop
  | .pull master outcome, n, deeds, m =>
    (Work.outcome (pullAndApply master)).run.Runs n deeds (outcome.map .ok) m
  | .failure now, n, deeds, m => clock.run.Runs n deeds (some (.ok now)) m
  | .probe answers, n, deeds, m => hostUpdate.run.Runs n deeds (answers.map .ok) m
  | .election cutoff winner, n, deeds, m => (elect cutoff).run.Runs n deeds (winner.map .ok) m

/-- The deeds between marked parts, from one node to another. -/
inductive Aside : Node → List Deed → Node → Prop
  | enter {phase : Phase} {n m : Node} {deeds : List Deed} {r : Option (Except Error Unit)}
      (h : (enter phase).run.Runs n deeds r m) : Aside n deeds m
  | inspect {α : Type} {look : Node → α} {n m : Node} {deeds : List Deed} {r : Option (Except Error α)}
      (h : (inspect look).run.Runs n deeds r m) : Aside n deeds m
  | clock {n m : Node} {deeds : List Deed} (h : clock.run.Runs n deeds none m) : Aside n deeds m
  | drain {n m : Node} {deeds : List Deed} {r : Option (Except Error Nat)}
      (h : drainPushed.run.Runs n deeds r m) : Aside n deeds m
  | retarget {master : String} {n m : Node} {deeds : List Deed} {r : Option (Except Error Unit)}
      (h : (retarget master).run.Runs n deeds r m) : Aside n deeds m
  | pause {duration : UInt64} {n m : Node} {deeds : List Deed} {r : Option (Except Error Bool)}
      (h : (pause duration).run.Runs n deeds r m) : Aside n deeds m
  | beside {n m : Node} (h : n.Beside m) : Aside n [.beside n m] m
  | round (n : Node) : Aside n [.round] n

/-- The deeds of a part of tailing, marked or not, from one node to another. -/
def Part : Option Mark → Node → List Deed → Node → Prop
  | some mark => mark.Of
  | none => Aside

/-- Some deeds in a row, which are a part of tailing. -/
structure Section where
  mark : Option Mark
  before : Node
  deeds : List Deed
  after : Node

/-- A run from one node to another, told in sections. -/
def Told : Node → List Section → Node → Prop
  | n, [], m => m = n
  | n, s :: rest, m => s.before = n ∧ Part s.mark s.before s.deeds s.after ∧ Told s.after rest m

/-- The marks of a run that is told in sections. -/
def marks (sections : List Section) : List Mark := sections.filterMap (·.mark)

/-- The deeds of a run that is told in sections. -/
def deedsOf (sections : List Section) : List Deed := sections.flatMap (·.deeds)

@[simp] theorem marks_append (first second : List Section) :
    marks (first ++ second) = marks first ++ marks second := List.filterMap_append

@[simp] theorem marks_cons (s : Section) (rest : List Section) :
    marks (s :: rest) = s.mark.toList ++ marks rest := by
  cases h : s.mark <;> simp [marks, h]

@[simp] theorem marks_nil : marks [] = [] := rfl

@[simp] theorem deedsOf_append (first second : List Section) :
    deedsOf (first ++ second) = deedsOf first ++ deedsOf second := List.flatMap_append

@[simp] theorem deedsOf_cons (s : Section) (rest : List Section) :
    deedsOf (s :: rest) = s.deeds ++ deedsOf rest := rfl

@[simp] theorem deedsOf_nil : deedsOf [] = [] := rfl

section Telling

variable {n m k : Node} {deeds : List Deed} {mark : Option Mark} {first second : List Section}

theorem Part.leads (h : Part mark n deeds m) : Leads deeds n m := by
  rcases mark with _ | mark
  · cases h with
    | beside h => exact ⟨m, ⟨rfl, rfl⟩, rfl⟩
    | round => exact ⟨n, rfl, rfl⟩
    | enter h | inspect h | clock h | drain h | retarget h | pause h => exact h.leads
  · cases mark with
    | pull | failure | probe | election => exact Activity.Runs.leads h

/-- Runs of work that keeps a story going, whether it can fail or not. -/
theorem Terms.Acts.kept {α : Type} {work : Work α} {P Q : Story} {r : Option (Except Error α)}
    (h : (keeping Q).Acts work P fun _ => Q) (hP : P [] n) (hrun : work.run.Runs n deeds r m) :
    Q deeds m := by
  have hends := h [] n deeds r m hP hrun
  match r with
  | none => exact hends
  | some (.error _) => exact hends
  | some (.ok _) => exact hends

theorem Part.grows (h : Part mark n deeds m) : ∀ deed ∈ deeds, deed.Grows := by
  have hrefl := Kept.refl n
  rcases mark with _ | mark
  · cases h with
    | enter h => exact ((keeping_of_sure (kept_enter n _)).kept hrefl h).grows
    | inspect h => exact ((kept_of_calm n (Steps.inspect _)).kept hrefl h).grows
    | clock h => exact ((kept_of_calm n Steps.clock).kept hrefl h).grows
    | drain h => exact ((kept_of_calm n calm_drainPushed).kept hrefl h).grows
    | pause h => exact ((kept_of_calm n (Steps.pause _)).kept hrefl h).grows
    | beside h => exact (hrefl.beside h).grows
    | round => exact ((Kept.steady n).round hrefl).grows
    | @retarget master _ _ _ _ h =>
      have hgrows : (keeping fun h _ => ∀ deed ∈ h, deed.Grows).Acts (retarget master) (Kept n)
          fun _ h _ => ∀ deed ∈ h, deed.Grows :=
        Acts.change ⟨Kept.steady n, fun h => h.grows⟩ fun h m now hkept =>
          hkept.grows_snoc (HostTable.Grows.refl m.hosts)
      exact hgrows.kept hrefl h
  · cases mark with
    | pull master outcome =>
      exact ((kept_of_calm n (Steps.outcome (calm_pullAndApply master))).kept hrefl h).grows
    | failure now => exact ((kept_of_calm n Steps.clock).kept hrefl h).grows
    | probe answers => exact ((kept_of_calm n (calm_of_notes notes_hostUpdate)).kept hrefl h).grows
    | election cutoff winner =>
      have hends := acts_elect n cutoff [] n deeds _ m hrefl h
      rcases winner with _ | winner
      · exact Kept.grows hends
      · obtain ⟨waiting, now, b, rfl, ⟨hkept, -⟩, -, rfl⟩ := hends
        refine hkept.grows_snoc ?_
        show b.hosts.Grows (b.elect cutoff).2.hosts
        rw [Node.hosts_elect]
        exact HostTable.Grows.refl b.hosts

namespace Told

theorem append (h : Told n first k) (h' : Told k second m) : Told n (first ++ second) m := by
  induction first generalizing n with
  | nil =>
    cases h
    exact h'
  | cons s first ih =>
    obtain ⟨hbefore, hpart, hrest⟩ := h
    exact ⟨hbefore, hpart, ih hrest⟩

theorem split (h : Told n (first ++ second) m) : ∃ k, Told n first k ∧ Told k second m := by
  induction first generalizing n with
  | nil => exact ⟨n, rfl, h⟩
  | cons s first ih =>
    obtain ⟨hbefore, hpart, hrest⟩ := h
    obtain ⟨k, hfirst, hsecond⟩ := ih hrest
    exact ⟨k, ⟨hbefore, hpart, hfirst⟩, hsecond⟩

/-- A run with another part at its end. -/
theorem snoc (h : Told n first k) (hpart : Part mark k deeds m) :
    Told n (first ++ [⟨mark, k, deeds, m⟩]) m :=
  h.append ⟨rfl, hpart, rfl⟩

theorem leads (h : Told n first m) : Leads (deedsOf first) n m := by
  induction first generalizing n with
  | nil => exact h
  | cons s first ih =>
    obtain ⟨rfl, hpart, hrest⟩ := h
    exact hpart.leads.append (ih hrest)

theorem grows (h : Told n first m) : ∀ deed ∈ deedsOf first, deed.Grows := by
  induction first generalizing n with
  | nil => simp [deedsOf]
  | cons s first ih =>
    obtain ⟨rfl, hpart, hrest⟩ := h
    intro deed hdeed
    rcases List.mem_append.mp hdeed with hdeed | hdeed
    · exact hpart.grows deed hdeed
    · exact ih hrest deed hdeed

end Told

end Telling

end LogShipping
