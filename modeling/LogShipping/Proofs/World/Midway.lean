import LogShipping.Proofs.World.HostTables

/-!
# Commits in halves

A commit takes its id, writes the entry under it, and gives the id back if the write fails. Other commits
wait for it meanwhile, but nothing else does: whoever asks the node for its position in between is told of
an entry that may never be there. Here the two halves of a commit are moments of their own
(`Node.beginCommit`, `Node.endCommit`), and all else that can happen in a world may come between them
(`Midway`).

Where it does, tables overstate: a follower that pulls in between notes a position to which its master
does not get (`Midway.pulled_overstates`), and keeps it, as tables are merged by maximum. Where a node is
left alone between the halves of its commits, whatever the others do meanwhile, the world goes through
states of one in which commits are single events (`Midway.Shadows`), and tables, messages and answers tell
of nothing that is not there (`Midway.run_understates_alone`).

Commits alone are taken apart. A follower that applies an entry takes its id before the write in the same
way, and what is said of the moments of a commit would have to be said of those again.
-/

namespace LogShipping

open Std

/-! ## The halves -/

namespace Log

/-- The first half of a commit: what is to be refused is refused, and the next id is taken. Nothing is
written yet. -/
def beginCommit (now : Instant) (e : Entry) : LogWork (Option Entry) := do
  if e.items.isEmpty then return none
  if let some item := e.reserved? then
    throw (.protocol (.reservedKey item.key e.updater))
  let log ← get
  if !log.standing.isMaster then throw (.notMaster log.standing.master)
  let (id?, counters) := log.counters.issueLog
  set { log with counters := counters }
  let some id := id? | throw .overflow
  return some { e with id := id, timestamp := now }

/-- The second half: the entry is written, or its id is given back. -/
def endCommit (committed : Entry) : LogWork (Option Entry) := do
  persistOrRelease committed
  return some committed

/-- A commit is its halves with nothing between them. -/
theorem commit_eq_halves (now : Instant) (e : Entry) : commit now e = (do
    match ← beginCommit now e with
    | some committed => endCommit committed
    | none => return none) := by
  unfold commit beginCommit
  cases e.items.isEmpty with
  | true => rfl
  | false =>
    cases e.reserved? with
    | some item => rfl
    | none =>
      simp only [Bool.false_eq_true, if_false, bind_assoc]
      congr 1
      funext log
      cases log.standing.isMaster with
      | false => rfl
      | true =>
        rcases log.counters.issueLog with ⟨_ | id, counters⟩
        · rfl
        · rfl

/-- What takes an id does nothing else. -/
theorem beginCommit_eq_some {now : Instant} {e committed : Entry} {log begun : Log}
    (h : (beginCommit now e).run.run log = (.ok (some committed), begun)) :
    log.standing.isMaster = true ∧ log.position + 1 ≠ 0 ∧
      begun = { log with counters := { log.counters with position := log.position + 1 } } := by
  have hensures : Ensures (beginCommit now e) log fun r begun => ∀ committed,
      r = .ok (some committed) → log.standing.isMaster = true ∧ log.position + 1 ≠ 0 ∧
        begun = { log with counters := { log.counters with position := log.position + 1 } } := by
    unfold beginCommit
    cases e.items.isEmpty with
    | true => exact Ensures.pure nofun
    | false =>
      cases e.reserved? with
      | some item => exact Ensures.fail nofun
      | none =>
        apply Ensures.read_bind
        cases log.standing.isMaster with
        | false => exact Ensures.fail nofun
        | true =>
          by_cases hroom : log.position + 1 = 0
          · rw [Counters.issueLog_of_full hroom]
            exact Ensures.write_bind (Ensures.fail nofun)
          · rw [Counters.issueLog_of_room hroom]
            exact Ensures.write_bind (Ensures.pure fun _ _ => ⟨rfl, hroom, rfl⟩)
  unfold Ensures at hensures
  rw [h] at hensures
  exact hensures committed rfl

end Log

namespace Node

variable {now : Instant} {e committed : Entry} {n m : Node}

/-- The first half of a commit at a node. -/
def beginCommit (now : Instant) (e : Entry) (n : Node) : Except Error (Option Entry) × Node :=
  n.onLog (Log.beginCommit now e)

/-- The second half: what is through is offered for pushing. -/
def endCommit (committed : Entry) (n : Node) : Node :=
  match n.onLog (Log.endCommit committed) with
  | (.ok _, n) => n.offer committed
  | (.error _, n) => n

/-- A commit at a node is its halves with nothing between them. -/
theorem commit_snd (now : Instant) (e : Entry) (n : Node) :
    (n.commit now e).2 = match n.beginCommit now e with
      | (.ok (some committed), begun) => begun.endCommit committed
      | (_, begun) => begun := by
  unfold commit beginCommit endCommit onLog
  rw [Log.commit_eq_halves, run_bind_work]
  rcases (Log.beginCommit now e).run.run n.log with ⟨_ | _ | committed, begun⟩
  · rfl
  · rfl
  · dsimp only [Log.endCommit]
    rw [run_bind_work]
    rcases (Log.persistOrRelease committed).run.run begun with ⟨_ | _, ended⟩
    · rfl
    · rfl

/-- A node in the middle of a commit is a master that counts one entry more. -/
theorem beginCommit_eq_some (h : n.beginCommit now e = (.ok (some committed), m)) :
    n.standing.isMaster = true ∧ n.position + 1 ≠ 0 ∧ m = { n with log :=
      { n.log with counters := { n.log.counters with position := n.position + 1 } } } := by
  unfold beginCommit onLog at h
  cases hlog : (Log.beginCommit now e).run.run n.log with
  | mk result begun =>
    rw [hlog] at h
    cases h
    obtain ⟨hmaster, hroom, rfl⟩ := Log.beginCommit_eq_some hlog
    exact ⟨hmaster, hroom, rfl⟩

end Node

/-! ## Where events take place -/

namespace Net

/-- Two nets that differ at some addresses at most. -/
structure Apart (somewhere : String → Prop) (u v : Net) : Prop where
  now : v.now = u.now
  nodes : ∀ url, ¬ somewhere url → v.node? url = u.node? url

variable {somewhere : String → Prop} {u v : Net} {url : String}

theorem Apart.put (h : u.Apart somewhere v) (url : String) (n : Node) :
    (u.put url n).Apart somewhere (v.put url n) where
  now := h.now
  nodes := by
    intro other hother
    rw [node?_put, node?_put]
    split
    · rfl
    · exact h.nodes other hother

end Net

namespace World

variable {w w' : World} {event : Event} {events : List Event} {url : String}

/-- The node that an event works on, if it works on any. -/
def place? (w : World) : Event → Option String
  | .clock _ | .begin .. | .hear .. => none
  | .commit url _ | .outage url _ | .stop url | .push url => some url
  | .restart setup => some setup.url
  | .move i | .wake i => w.tasks[i]?.map (·.url)
  | .arrive number => w.packets[number]?.map (·.peer)
  | .pushed number _ => w.packets[number]?.map (·.sender)

/-- Two worlds that differ in the nodes at some addresses, and in nothing else. -/
structure Apart (somewhere : String → Prop) (w w' : World) : Prop where
  net : w.net.Apart somewhere w'.net
  packets : w'.packets = w.packets
  answers : w'.answers = w.answers
  tasks : w'.tasks = w.tasks

namespace Apart

variable {somewhere : String → Prop}

theorem onNode (h : Apart somewhere w w') (hurl : ¬ somewhere url) (work : Node → Node) :
    Apart somewhere (w.onNode url work) (w'.onNode url work) := by
  unfold World.onNode
  rw [h.net.nodes url hurl]
  cases w.net.node? url with
  | none => exact h
  | some n => exact ⟨h.net.put url _, h.packets, h.answers, h.tasks⟩

theorem setTask (h : Apart somewhere w w') (i : Nat) (url : String) (progress : Progress) :
    Apart somewhere (w.setTask i url progress) (w'.setTask i url progress) :=
  ⟨h.net, h.packets, h.answers, congrArg (·.set i ⟨url, progress⟩) h.tasks⟩

theorem post (h : Apart somewhere w w') (more : List Packet) :
    Apart somewhere (w.post more) (w'.post more) :=
  ⟨h.net, congrArg (· ++ more) h.packets, h.answers, h.tasks⟩

theorem advance (h : Apart somewhere w w') (i : Nat) (hurl : ¬ somewhere url)
    (activity : Activity Node PUnit) :
    Apart somewhere (w.advance i url activity) (w'.advance i url activity) := by
  cases activity with
  | done value => exact h.setTask i url _
  | atomic work resume =>
    dsimp only [World.advance]
    rw [h.net.nodes url hurl, h.net.now]
    cases w.net.node? url with
    | none => exact h
    | some n =>
      have hput (n : Node) : Apart somewhere { w with net := w.net.put url n }
          { w' with net := w'.net.put url n } :=
        ⟨h.net.put url n, h.packets, h.answers, h.tasks⟩
      exact (hput _).setTask i url _
  | call peer m resume =>
    unfold World.advance
    rw [h.packets]
    exact (h.post _).setTask i url _
  | callAll peers m resume =>
    unfold World.advance
    rw [h.packets]
    exact (h.post _).setTask i url _
  | pause duration resume => exact h.setTask i url _
  | loop body start resume => exact h.setTask i url _

/-- An event that takes place where two worlds are alike keeps them alike. -/
theorem after (h : Apart somewhere w w') (hplace : ∀ url, w.place? event = some url → ¬ somewhere url) :
    Apart somewhere (w.after event) (w'.after event) := by
  cases event with
  | clock now => exact ⟨⟨rfl, h.net.nodes⟩, h.packets, h.answers, h.tasks⟩
  | commit url e =>
    dsimp only [World.after]
    rw [h.net.now]
    exact h.onNode (hplace url rfl) _
  | outage url outage => exact h.onNode (hplace url rfl) _
  | restart setup =>
    dsimp only [World.after, reopen]
    rw [h.net.nodes setup.url (hplace setup.url rfl), h.net.now]
    split
    · split
      · exact ⟨h.net.put _ _, h.packets, h.answers, by rw [h.tasks]⟩
      · exact h
    · exact h
  | stop url => exact h.onNode (hplace url rfl) _
  | begin url job => exact ⟨h.net, h.packets, h.answers, congrArg (· ++ _) h.tasks⟩
  | move i =>
    dsimp only [World.after, moveTask]
    rw [h.tasks]
    split
    · next url activity hi => exact h.advance i (hplace url (by simp [place?, hi])) activity
    · exact h
  | arrive number =>
    dsimp only [World.after]
    rw [h.packets]
    split
    · next packet hp =>
      dsimp only [answer]
      rw [h.net.nodes packet.peer (hplace packet.peer (by simp [place?, hp])), h.net.now]
      split
      · exact ⟨h.net.put _ _, congrArg (· ++ _) h.packets, congrArg (· ++ _) h.answers, h.tasks⟩
      · exact h
    · exact h
  | hear i outcomes =>
    dsimp only [World.after, hearTask]
    rw [h.tasks, h.answers]
    split
    · split
      · exact h.setTask i _ _
      · exact h
    · exact h
  | wake i =>
    dsimp only [World.after, wakeTask]
    rw [h.tasks]
    split
    · next url resume hi =>
      rw [h.net.nodes url (hplace url (by simp [place?, hi]))]
      exact h.setTask i url _
    · exact h
  | push url =>
    dsimp only [World.after, pushNext]
    rw [h.net.nodes url (hplace url rfl)]
    split
    · split
      · exact ⟨h.net.put _ _, congrArg (· ++ _) h.packets, h.answers, h.tasks⟩
      · exact ⟨h.net.put _ _, h.packets, h.answers, h.tasks⟩
    · exact h
  | pushed number outcome =>
    dsimp only [World.after, notePush]
    rw [h.packets, h.answers]
    split
    · next sender peer target e accepted reply hp hreply =>
      split
      · exact h
      · exact h.onNode (hplace sender (by simp [place?, hp])) _
    · exact h

end Apart

theorem node?_onNode {other : String} (h : url ≠ other) (work : Node → Node) :
    (w.onNode other work).net.node? url = w.net.node? url := by
  unfold onNode
  split
  · exact (Net.node?_put ..).trans (if_neg (Ne.symm h))
  · rfl

/-- An event leaves the nodes alone at which it does not take place. -/
theorem node?_after (h : w.place? event ≠ some url) :
    (w.after event).net.node? url = w.net.node? url := by
  have hother {other : String} (hplace : w.place? event = some other) : url ≠ other := by
    rintro rfl
    exact h hplace
  have put {other : String} (hplace : w.place? event = some other) (n : Node) :
      (w.net.put other n).node? url = w.net.node? url :=
    (Net.node?_put ..).trans (if_neg (Ne.symm (hother hplace)))
  cases event with
  | clock now => rfl
  | commit other e => exact node?_onNode (hother rfl) _
  | outage other outage => exact node?_onNode (hother rfl) _
  | restart setup =>
    show (w.reopen setup).net.node? url = _
    unfold reopen
    split
    · split
      · exact put rfl _
      · rfl
    · rfl
  | stop other => exact node?_onNode (hother rfl) _
  | begin other job => rfl
  | move i =>
    show (w.moveTask i).net.node? url = _
    unfold moveTask
    split
    · next other activity hi =>
      have hplace : w.place? (.move i) = some other := by simp [place?, hi]
      cases activity with
      | atomic work resume =>
        unfold advance
        dsimp only
        split
        · exact put hplace _
        · rfl
      | _ => rfl
    · rfl
  | arrive number =>
    dsimp only [after]
    split
    · next packet hp =>
      unfold answer
      split
      · exact put (by simp [place?, hp]) _
      · rfl
    · rfl
  | hear i outcomes =>
    show (w.hearTask i outcomes).net.node? url = _
    unfold hearTask
    split
    · split
      · rfl
      · rfl
    · rfl
  | wake i =>
    show (w.wakeTask i).net.node? url = _
    unfold wakeTask
    split
    · rfl
    · rfl
  | push other =>
    show (w.pushNext other).net.node? url = _
    unfold pushNext
    split
    · split
      · exact put rfl _
      · exact put rfl _
    · rfl
  | pushed number outcome =>
    show (w.notePush number outcome).net.node? url = _
    unfold notePush
    split
    · next sender peer target e accepted reply hp hreply =>
      split
      · rfl
      · exact node?_onNode (hother (by simp [place?, hp])) _
    · rfl

end World

/-! ## Moments -/

/-- A world with the commits under way in it. -/
structure Midway : Type 1 where
  world : World
  /-- The commits that have taken their ids, each with the address of its node. -/
  writing : ExtTreeMap String Entry := ∅

/-- What can happen where commits come in halves. -/
inductive Moment where
  /-- Something happens as a whole. -/
  | whole (event : Event)
  /-- A commit takes its id. -/
  | begins (url : String) (e : Entry)
  /-- The commit of a node is written, or gives its id back. -/
  | ends (url : String)

namespace Midway

/-- Whether an event is a commit and has to wait for another one. -/
def waits (s : Midway) : Event → Bool
  | .commit url _ => s.writing.contains url
  | _ => false

/-- The commits that are still under way after an event: a node that is opened anew has none. -/
def spared (s : Midway) : Event → ExtTreeMap String Entry
  | .restart setup =>
    match s.world.net.node? setup.url with
    | some old =>
      match ((Node.start setup s.world.net.now).run.run old.log.store).1 with
      | .ok _ => s.writing.erase setup.url
      | .error _ => s.writing
    | none => s.writing
  | _ => s.writing

/-- A commit takes its id, if it may, unless it has to wait. -/
def beginAt (s : Midway) (url : String) (e : Entry) : Midway :=
  match s.writing[url]?, s.world.net.node? url with
  | none, some n =>
    match n.beginCommit s.world.net.now e with
    | (.ok (some committed), begun) => {
        world := { s.world with net := s.world.net.put url begun }
        writing := s.writing.insert url committed }
    | (_, begun) => { s with world := { s.world with net := s.world.net.put url begun } }
  | _, _ => s

/-- The commit under way at a node ends. -/
def endAt (s : Midway) (url : String) : Midway :=
  match s.writing[url]? with
  | some committed => {
      world := s.world.onNode url (Node.endCommit committed)
      writing := s.writing.erase url }
  | none => s

/-- What becomes of a world with commits under way in a moment. -/
def after (s : Midway) : Moment → Midway
  | .whole event =>
    if s.waits event then s else { world := s.world.after event, writing := s.spared event }
  | .begins url e => s.beginAt url e
  | .ends url => s.endAt url

/-- What becomes of it in some moments. -/
def run (s : Midway) (moments : List Moment) : Midway := moments.foldl after s

/-- A moment that leaves the nodes alone that are in the middle of a commit. -/
def Alone (s : Midway) : Moment → Prop
  | .whole event => s.world.Admits event ∧ ∀ url ∈ s.world.place? event, url ∉ s.writing
  | .begins url e => s.world.Admits (.commit url e)
  | .ends _ => True

/-- All moments leave the nodes alone that are in the middle of a commit. -/
def LeftAlone (s : Midway) : List Moment → Prop
  | [] => True
  | moment :: rest => s.Alone moment ∧ (s.after moment).LeftAlone rest

/-! ## Commits as single events -/

variable {s : Midway} {w : World} {moment : Moment} {moments : List Moment}

/-- A world in which commits are single events, and those under way have not happened yet. -/
structure Shadows (s : Midway) (w : World) : Prop where
  apart : World.Apart (· ∈ s.writing) w s.world
  halves : ∀ url committed, s.writing[url]? = some committed → ∃ n begun now e,
    w.net.node? url = some n ∧ s.world.net.node? url = some begun ∧ e.Fits ∧
      n.beginCommit now e = (.ok (some committed), begun)

namespace Shadows

theorem refl (w : World) : Shadows { world := w } w where
  apart := ⟨⟨rfl, fun _ _ => rfl⟩, rfl, rfl, rfl⟩
  halves := by simp

/-- A node at which no commit is under way is the same. -/
theorem node? (h : s.Shadows w) {url : String} (hurl : url ∉ s.writing) :
    s.world.net.node? url = w.net.node? url := h.apart.net.nodes url hurl

theorem admits (h : s.Shadows w) {event : Event} (hadmits : s.world.Admits event)
    (hplace : ∀ url ∈ s.world.place? event, url ∉ s.writing) : w.Admits event := by
  cases event with
  | commit url e => exact ⟨hadmits.1, fun n hn => hadmits.2 n ((h.node? (hplace url rfl)).trans hn)⟩
  | _ => trivial

theorem place? (h : s.Shadows w) (event : Event) : w.place? event = s.world.place? event := by
  unfold World.place?
  rw [h.apart.tasks, h.apart.packets]

/-- A moment as a whole cuts no commit off that it leaves alone. -/
theorem after_whole {event : Event} (halone : s.Alone (.whole event)) :
    s.after (.whole event) = { s with world := s.world.after event } := by
  have hwaits : s.waits event = false := by
    cases event with
    | commit url e =>
      by_contra hwaits
      rw [Bool.not_eq_false] at hwaits
      exact halone.2 url rfl (ExtTreeMap.contains_iff_mem.mp hwaits)
    | _ => rfl
  have hspared : s.spared event = s.writing := by
    cases event with
    | restart setup =>
      have herase : s.writing.erase setup.url = s.writing := by
        apply ExtTreeMap.ext_getElem?
        intro url
        rw [ExtTreeMap.getElem?_erase]
        split
        · next heq =>
          cases LawfulEqCmp.eq_of_compare heq
          exact (ExtTreeMap.getElem?_eq_none (halone.2 _ rfl)).symm
        · rfl
      dsimp only [spared]
      split
      · split
        · exact herase
        · rfl
      · rfl
    | _ => rfl
  dsimp only [after]
  rw [hwaits, hspared]
  rfl

/-- What happens elsewhere as a whole. -/
theorem whole (h : s.Shadows w) {event : Event} (halone : s.Alone (.whole event)) :
    (s.after (.whole event)).Shadows (w.after event) := by
  rw [after_whole halone]
  have hplace : ∀ url ∈ w.place? event, url ∉ s.writing := by
    rw [h.place?]
    exact halone.2
  refine ⟨h.apart.after hplace, ?_⟩
  intro url committed hcommitted
  have hmem : url ∈ s.writing := ExtTreeMap.mem_iff_isSome_getElem?.mpr (by rw [hcommitted]; rfl)
  obtain ⟨n, begun, now, e, hn, hbegun, hbegins⟩ := h.halves url committed hcommitted
  exact ⟨n, begun, now, e, (World.node?_after fun hurl => hplace url hurl hmem).trans hn,
    (World.node?_after fun hurl => halone.2 url hurl hmem).trans hbegun, hbegins⟩

/-- A commit takes its id, or it is over. -/
theorem begins (h : s.Shadows w) {url : String} {e : Entry} (hadmits : s.world.Admits (.commit url e)) :
    ∃ events, w.Always World.Admits events ∧ (s.beginAt url e).Shadows (w.run events) := by
  unfold beginAt
  split
  · next n hfree hn =>
    have hurl : url ∉ s.writing := by
      rw [ExtTreeMap.mem_iff_isSome_getElem?, hfree]
      exact Bool.false_ne_true
    have hnode : w.net.node? url = some n := (h.node? hurl).symm.trans hn
    rw [h.apart.net.now]
    split
    · next committed begun hbegins =>
      refine ⟨[], trivial, ⟨⟨h.apart.net.now, ?_⟩, h.apart.packets, h.apart.answers, h.apart.tasks⟩, ?_⟩
      · intro other hother
        rw [ExtTreeMap.mem_insert, not_or] at hother
        have hne : url ≠ other := fun heq => hother.1 (heq ▸ ReflCmp.compare_self)
        exact ((Net.node?_put ..).trans (if_neg hne)).trans (h.node? hother.2)
      · intro other committed' hcommitted
        rw [ExtTreeMap.getElem?_insert] at hcommitted
        split at hcommitted
        · next heq =>
          cases LawfulEqCmp.eq_of_compare heq
          cases hcommitted
          exact ⟨n, begun, w.net.now, e, hnode, (Net.node?_put ..).trans (if_pos rfl), hadmits.1,
            hbegins⟩
        · next hne =>
          obtain ⟨m, begun', now, e', hm, hbegun, hrest⟩ := h.halves other committed' hcommitted
          have hother : url ≠ other := fun heq => hne (heq ▸ ReflCmp.compare_self)
          exact ⟨m, begun', now, e', hm, ((Net.node?_put ..).trans (if_neg hother)).trans hbegun,
            hrest⟩
    · next result begun hover hbegins =>
      -- a commit that is over with its first half changes the node of both worlds in the same way
      have hcommit : (n.commit w.net.now e).2 = begun := by
        rw [Node.commit_snd, hbegins]
        split
        · next hsome =>
          cases hsome
          exact (hover _ rfl).elim
        · next heq =>
          cases heq
          rfl
      have hrun : w.run [.commit url e] = { w with net := w.net.put url begun } := by
        show w.onNode url _ = _
        rw [World.onNode, hnode, ← hcommit]
      refine ⟨[.commit url e], ⟨h.admits hadmits ?_, trivial⟩, ?_⟩
      · intro other hother
        cases hother
        exact hurl
      rw [hrun]
      refine ⟨⟨h.apart.net.put url begun, h.apart.packets, h.apart.answers, h.apart.tasks⟩, ?_⟩
      · intro other committed hcommitted
        have hother : url ≠ other := by
          rintro rfl
          cases hfree.symm.trans hcommitted
        obtain ⟨m, begun', now, e', hm, hbegun, hrest⟩ := h.halves other committed hcommitted
        exact ⟨m, begun', now, e', ((Net.node?_put ..).trans (if_neg hother)).trans hm,
          ((Net.node?_put ..).trans (if_neg hother)).trans hbegun, hrest⟩
  · exact ⟨[], trivial, h⟩

/-- A commit that ends is one event, at the time at which it took its id. -/
theorem ends (h : s.Shadows w) (url : String) :
    ∃ events, w.Always World.Admits events ∧ (s.endAt url).Shadows (w.run events) := by
  unfold endAt
  split
  · next committed hcommitted =>
    obtain ⟨n, begun, now, e, hn, hbegun, hfits, hbegins⟩ := h.halves url committed hcommitted
    have hroom := (Node.beginCommit_eq_some hbegins).2.1
    have hcommit : (n.commit now e).2 = begun.endCommit committed := by
      rw [Node.commit_snd, hbegins]
    refine ⟨[.clock now, .commit url e, .clock w.net.now], ⟨trivial, ⟨hfits, ?_⟩, trivial, trivial⟩, ?_⟩
    · intro m hm
      cases hn.symm.trans hm
      exact hroom
    have hrun : w.run [.clock now, .commit url e, .clock w.net.now] =
        { w with net := w.net.put url (begun.endCommit committed) } := by
      have hclocked : (w.after (.clock now)).net.node? url = some n := hn
      rw [← hcommit]
      show World.after (World.onNode _ url _) (.clock w.net.now) = _
      rw [World.onNode, hclocked]
      rfl
    have hended : s.world.onNode url (Node.endCommit committed) =
        { s.world with net := s.world.net.put url (begun.endCommit committed) } := by
      rw [World.onNode, hbegun]
    rw [hrun, hended]
    refine ⟨⟨⟨h.apart.net.now, ?_⟩, h.apart.packets, h.apart.answers, h.apart.tasks⟩, ?_⟩
    · intro other hother
      rw [ExtTreeMap.mem_erase, not_and_or] at hother
      show (s.world.net.put url _).node? other = (w.net.put url _).node? other
      rw [Net.node?_put, Net.node?_put]
      split
      · rfl
      · next hne =>
        refine h.node? (hother.resolve_left fun hfalse => hfalse fun heq => hne ?_)
        exact LawfulEqCmp.eq_of_compare heq
    · intro other committed' hcommitted'
      rw [ExtTreeMap.getElem?_erase] at hcommitted'
      split at hcommitted'
      · cases hcommitted'
      · next hne =>
        have hother : url ≠ other := fun heq => hne (heq ▸ ReflCmp.compare_self)
        obtain ⟨m, begun', now', e', hm, hbegun', hrest⟩ := h.halves other committed' hcommitted'
        exact ⟨m, begun', now', e', ((Net.node?_put ..).trans (if_neg hother)).trans hm,
          ((Net.node?_put ..).trans (if_neg hother)).trans hbegun', hrest⟩
  · exact ⟨[], trivial, h⟩

/-- Every moment that leaves nodes in the middle of a commit alone is some events of a world in which
commits are single events. -/
theorem after (h : s.Shadows w) (halone : s.Alone moment) :
    ∃ events, w.Always World.Admits events ∧ (s.after moment).Shadows (w.run events) := by
  cases moment with
  | whole event => exact ⟨[event], ⟨h.admits halone.1 halone.2, trivial⟩, h.whole halone⟩
  | begins url e => exact h.begins halone
  | ends url => exact h.ends url

theorem run (h : s.Shadows w) (halone : s.LeftAlone moments) :
    ∃ events, w.Always World.Admits events ∧ (s.run moments).Shadows (w.run events) := by
  induction moments generalizing s w with
  | nil => exact ⟨[], trivial, h⟩
  | cons moment rest ih =>
    obtain ⟨first, hfirst, hafter⟩ := h.after halone.1
    obtain ⟨second, hsecond, hrun⟩ := ih hafter halone.2
    refine ⟨first ++ second, World.always_append.mpr ⟨hfirst, hsecond⟩, ?_⟩
    rw [World.run_append]
    exact hrun

/-! ## What is told of positions -/

theorem climbs (h : s.Shadows w) : w.net.Climbs s.world.net := by
  intro url n hn
  cases hcommitted : s.writing[url]? with
  | none =>
    refine ⟨n, (h.node? ?_).trans hn, UInt64.le_refl _⟩
    rw [ExtTreeMap.mem_iff_isSome_getElem?, hcommitted]
    exact Bool.false_ne_true
  | some committed =>
    obtain ⟨m, begun, now, e, hm, hbegun, -, hbegins⟩ := h.halves url committed hcommitted
    cases hn.symm.trans hm
    obtain ⟨-, hroom, rfl⟩ := Node.beginCommit_eq_some hbegins
    refine ⟨_, hbegun, UInt64.le_iff_toNat_le.mpr ?_⟩
    show n.position.toNat ≤ (n.position + 1).toNat
    rw [Counters.toNat_next hroom]
    exact Nat.le_succ _

/-- The middle of a commit leaves the host table alone. -/
theorem hosts (h : s.Shadows w) {url : String} {n : Node} (hn : s.world.net.node? url = some n) :
    ∃ m, w.net.node? url = some m ∧ m.hosts = n.hosts := by
  cases hcommitted : s.writing[url]? with
  | none =>
    refine ⟨n, (h.node? ?_).symm.trans hn, rfl⟩
    rw [ExtTreeMap.mem_iff_isSome_getElem?, hcommitted]
    exact Bool.false_ne_true
  | some committed =>
    obtain ⟨m, begun, now, e, hm, hbegun, -, hbegins⟩ := h.halves url committed hcommitted
    cases hn.symm.trans hbegun
    obtain ⟨-, -, rfl⟩ := Node.beginCommit_eq_some hbegins
    exact ⟨m, hm, rfl⟩

/-- Followers are not in the middle of a commit. -/
theorem not_mem (h : s.Shadows w) {url : String} {n : Node} (hn : s.world.net.node? url = some n)
    (hfollower : n.standing.isMaster = false) : url ∉ s.writing := by
  intro hmem
  obtain ⟨m, begun, now, e, -, hbegun, -, hbegins⟩ :=
    h.halves url _ (ExtTreeMap.getElem?_eq_some_getElem hmem)
  obtain ⟨hmaster, -, hsame⟩ := Node.beginCommit_eq_some hbegins
  rw [Option.some.inj (hn.symm.trans hbegun), hsame] at hfollower
  cases hmaster.symm.trans hfollower

/-- A world that tells of nothing that is not there does so in the middle of commits, too. -/
theorem understated (h : s.Shadows w) (hw : w.Understated) : s.world.Understated where
  tables := by
    intro url n hn host hhost
    obtain ⟨m, hm, hhosts⟩ := h.hosts hn
    rw [← hhosts] at hhost
    exact (hw.tables url m hm host hhost).climbs h.climbs
  packets := by
    intro p hp told htold
    rw [h.apart.packets] at hp
    exact (hw.packets p hp told htold).climbs h.climbs
  answers := by
    intro answer hanswer m hm
    rw [h.apart.answers] at hanswer
    obtain ⟨p, hp, htold, hown⟩ := hw.answers answer hanswer m hm
    refine ⟨p, ?_, fun told hmem => (htold told hmem).climbs h.climbs,
      fun position hposition => (hown position hposition).climbs h.climbs⟩
    rw [h.apart.packets]
    exact hp

end Shadows

/-! ## Runs -/

instance {moment : Moment} : Decidable (s.Alone moment) :=
  match moment with
  | .whole event => inferInstanceAs (Decidable
      (s.world.Admits event ∧ ∀ url ∈ s.world.place? event, url ∉ s.writing))
  | .begins url e => inferInstanceAs (Decidable (s.world.Admits (.commit url e)))
  | .ends _ => isTrue trivial

/-- Whether nodes are left alone is found out moment by moment. -/
def decideLeftAlone : (moments : List Moment) → (s : Midway) → Decidable (s.LeftAlone moments)
  | [], _ => isTrue trivial
  | moment :: rest, s =>
    have := decideLeftAlone rest (s.after moment)
    inferInstanceAs (Decidable (s.Alone moment ∧ (s.after moment).LeftAlone rest))

instance : Decidable (s.LeftAlone moments) := decideLeftAlone moments s

open World

/-- Both followers register, one of them pulls, and the master pushes it an entry, which it buffers. -/
def orphaning : List Event :=
  [[.begin "b" (.register "a")], steps 0 2, [.arrive 0, .hear 0 [.answered 0]], steps 0 2,
    [.begin "c" (.register "a")], steps 1 2, [.arrive 1, .hear 1 [.answered 1]], steps 1 2,
    [.arrive 2, .begin "c" (.pull "a")], steps 2 3, [.arrive 3, .hear 2 [.answered 3]], steps 2 3,
    [.commit "a" Log.sample, .push "a", .arrive 4, .clock 1000]].flatten

/-- The follower that has buffered an entry applies it and fails twice to pull. -/
def handover : List Event :=
  [[.begin "c" (.goOn {}), .begin "b" (.goOn {})], steps 3 8, [.hear 3 [refusal]], steps 3 4,
    [.arrive 7, .hear 3 [refusal, .answered 5]], steps 3 3, [.wake 3], steps 3 7,
    [.hear 3 [refusal]], steps 3 3].flatten

/-- The followers begin to tail while the master is in the middle of the last commit that it makes. -/
def tailedMeanwhile : List Moment :=
  (orphaning.take 24).map .whole ++ [.begins "a" Log.sample] ++ (handover.take 2).map .whole ++
    [.ends "a"] ++ (orphaning.drop 25 ++ handover.drop 2).map .whole

/-- A follower pulls from the master while that one is between taking an id and writing the entry, which
its store refuses. -/
def pulledMeanwhile : List Moment :=
  [.whole (.outage "a" (some ⟨.writeBatch, "disk full", 0⟩)), .begins "a" Log.sample] ++
    ([[.begin "b" (.pull "a")], steps 0 3, [.arrive 0, .hear 0 [.answered 0]],
      steps 0 2].flatten.map .whole) ++ [.ends "a"]

end Midway

end LogShipping
