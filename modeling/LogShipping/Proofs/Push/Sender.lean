import LogShipping.Cluster
import LogShipping.Proofs.Log.Aiming

/-!
# Pushing beside commits

A master that pushes is taken apart here into the steps between which others may come in. A commit that
went through leaves its entry on the desk of the caller, who looks for a push target and then puts the
entry into the queue, if there is room. The sender, in its own time, takes an entry out of the queue,
looks for a target in its turn, sends the entry, and gives the target up when it hears that the entry
was not taken, if it is still the target then. Meanwhile the target may be set or cleared by others, and
the log goes on.

The executed steps are made of these (`commit_eq_run`, `nextPush_eq_run`). Whatever the order of the
steps, the log is the one of a node that never pushes (`Pushing.run_spares_commits`).

The proof runs a second log beside the first, one that nobody pushes from, and keeps the two together
(`Pushing.Mirrors`): they differ in the push target at most, which no work on a log looks at
(`Proofs.Log.Aiming`). The same relation carries the order of what is sent.

A commit of the log itself is one step here, as the lock of commits is held throughout it; commits of
several callers come one after the other. Nothing is said of whether a push arrives: any answer may be
heard, or none.
-/

namespace LogShipping

/-! ## A log without pushing -/

/-- A log and what its commits answered so far. -/
structure Ledger where
  /-- The log. -/
  log : Log
  /-- The answers, in order: the entry as committed, nothing, or an error. -/
  answers : List (Except Error (Option Entry)) := []

namespace Ledger

/-- The ledger after an event of its log. -/
def after (l : Ledger) (event : LogEvent) : Ledger where
  log := l.log.after event
  answers := l.answers ++
    match event with
    | .commit now e => [((Log.commit now e).run.run l.log).1]
    | _ => []

/-- The ledger after some events. -/
def run (l : Ledger) (events : List LogEvent) : Ledger := events.foldl after l

/-- The entries committed, in order. -/
def committed (l : Ledger) : List Entry :=
  l.answers.filterMap fun
    | .ok committed => committed
    | .error _ => none

end Ledger

/-! ## A log with pushing -/

/-- Where the caller of a commit stands with the entry that was committed. -/
inductive Desk where
  /-- The caller is done. -/
  | clear
  /-- The entry is in the store, and no target was looked for yet. -/
  | fresh (e : Entry)
  /-- There was a target. -/
  | aimed (e : Entry)

/-- The entry on a desk. -/
def Desk.held : Desk → List Entry
  | .clear => []
  | .fresh e => [e]
  | .aimed e => [e]

/-- Where the sender stands. -/
inductive Hand where
  /-- It waits for an entry in the queue. -/
  | idle
  /-- It has taken an entry out, and did not look for a target yet. -/
  | holding (e : Entry)
  /-- It has sent an entry and waits for the reply. -/
  | waiting (e : Entry) (target : String)
  /-- It has ended, which closes the queue. -/
  | ended

/-- The entry that a sender will send next. -/
def Hand.held : Hand → List Entry
  | .holding e => [e]
  | _ => []

/-- A node that pushes what it commits. -/
structure Pushing where
  /-- The node, with its log and its queue. -/
  node : Node
  /-- The caller of the last commit. -/
  desk : Desk := .clear
  /-- The sender. -/
  hand : Hand := .idle
  /-- What commits answered, in order. -/
  answers : List (Except Error (Option LogId)) := []
  /-- The entries sent and where to, in order. -/
  sent : List (Entry × String) := []

/-- A step of the push side. -/
inductive PushStep where
  /-- The caller of a commit looks for a push target. -/
  | look
  /-- The caller of a commit puts the entry into the queue. -/
  | offer
  /-- The sender takes an entry out of the queue. -/
  | take
  /-- The sender looks for a target, and sends the entry that it took. -/
  | send
  /-- The sender hears what became of the entry that it sent. -/
  | hear (reply : Except Error Message)
  /-- The sender ends, because the node was told to stop. -/
  | finish

/-- What can happen to a node that pushes. -/
inductive PushEvent where
  /-- Something happens to the log. -/
  | log (event : LogEvent)
  /-- Others set the push target, or clear it. -/
  | aim (target : Option String)
  /-- The node is told to stop. -/
  | stop
  /-- The push side goes one step on. -/
  | push (step : PushStep)

/-- The event of the log in an event. -/
def PushEvent.log? : PushEvent → Option LogEvent
  | .log event => some event
  | _ => none

namespace Pushing

/-- A node that begins to push, with an empty queue of some size. -/
def spawn (n : Node) (size : Nat) : Pushing where
  node := { n with queue := PushQueue.new size }

/-- The caller looks for a push target; without one it is done. -/
def look (p : Pushing) : Pushing :=
  match p.desk with
  | .fresh e => { p with desk := if p.node.standing.pushTarget.isSome then .aimed e else .clear }
  | _ => p

/-- The caller puts the entry into the queue, if there was a target and there is room. -/
def offer (p : Pushing) : Pushing :=
  match p.desk, p.hand with
  | .aimed _, .ended => { p with desk := .clear }
  | .aimed e, _ =>
    { p with desk := .clear, node := { p.node with queue := p.node.queue.offer e } }
  | _, _ => p

/-- The next commit begins when the caller of the last one is done. -/
def commit (now : Instant) (e : Entry) (p : Pushing) : Pushing :=
  let p := p.look.offer
  let (r, log) := (Log.commit now e).run.run p.node.log
  { p with
    node := { p.node with log := log }
    desk := match r with
      | .ok (some committed) => .fresh committed
      | _ => .clear
    answers := p.answers ++ [r.map (Option.map Entry.id)] }

/-- Another event of the log. A log that is opened again has a sender and a queue of its own. -/
def logAfter (event : LogEvent) (p : Pushing) : Pushing :=
  let n := { p.node with log := p.node.log.after event }
  match event with
  | .restart _ =>
    { p with node := { n with queue := { n.queue with pending := [] } }, desk := .clear, hand := .idle }
  | _ => { p with node := n }

/-- The sender takes the oldest entry out of the queue. -/
def take (p : Pushing) : Pushing :=
  match p.hand, p.node.queue.pending with
  | .idle, e :: rest =>
    { p with
      hand := .holding e
      node := { p.node with queue := { p.node.queue with pending := rest } } }
  | _, _ => p

/-- The sender sends the entry that it took, unless there is no target any more. -/
def send (p : Pushing) : Pushing :=
  match p.hand with
  | .holding e =>
    match p.node.standing.pushTarget with
    | some target => { p with hand := .waiting e target, sent := p.sent ++ [(e, target)] }
    | none => { p with hand := .idle }
  | _ => p

/-- The sender hears of an entry that it sent, and gives the target up if the entry was not taken. -/
def hear (reply : Except Error Message) (p : Pushing) : Pushing :=
  match p.hand with
  | .waiting _ target =>
    if Cluster.delivered (reply.bind (Message.expect .pushTransaction)) then { p with hand := .idle }
    else { p with hand := .idle, node := p.node.restand (·.lose target) }
  | _ => p

/-- A sender that waits for an entry ends once the node was told to stop. -/
def finish (p : Pushing) : Pushing :=
  match p.hand with
  | .idle =>
    if p.node.standing.shutDown then
      { p with hand := .ended, node := { p.node with queue := { p.node.queue with pending := [] } } }
    else p
  | _ => p

/-- One step of the push side. -/
def step (p : Pushing) : PushStep → Pushing
  | .look => p.look
  | .offer => p.offer
  | .take => p.take
  | .send => p.send
  | .hear reply => p.hear reply
  | .finish => p.finish

/-- What an event makes of a node that pushes. -/
def after (p : Pushing) : PushEvent → Pushing
  | .log (.commit now e) => p.commit now e
  | .log event => p.logAfter event
  | .aim target => { p with node := p.node.restand fun s => { s with pushTarget := target } }
  | .stop => { p with node := p.node.restand Standing.stop }
  | .push step => p.step step

/-- What some events make of a node that pushes. -/
def run (p : Pushing) (events : List PushEvent) : Pushing := events.foldl after p

/-- The entries that were sent and those that may still be, in order. -/
def course (p : Pushing) : List Entry :=
  p.sent.map (·.1) ++ p.hand.held ++ p.node.queue.pending ++ p.desk.held

end Pushing

namespace Node

variable {n : Node} {target : String}

theorem restand_lose_of_eq (h : n.standing.pushTarget = some target) :
    n.restand (·.lose target) = { n with log := n.log.aimed none n.standing.shutDown } := by
  have hlose : n.log.standing.lose target = { n.log.standing with pushTarget := none } := if_pos h
  show { n with log := { n.log with standing := n.log.standing.lose target } } = _
  rw [hlose]
  rfl

theorem restand_lose_of_ne (h : n.standing.pushTarget ≠ some target) :
    n.restand (·.lose target) = n := by
  have hlose : n.log.standing.lose target = n.log.standing := if_neg h
  show { n with log := { n.log with standing := n.log.standing.lose target } } = _
  rw [hlose]

end Node

namespace Pushing

/-! ## Steps of the push side -/

/-- What a step of the push side can do. -/
inductive Moves (p : Pushing) : PushStep → Pushing → Prop where
  /-- It has nothing to do. -/
  | none (step : PushStep) : Moves p step p
  /-- The caller found a target. -/
  | found (e : Entry) (hdesk : p.desk = .fresh e) : Moves p .look { p with desk := .aimed e }
  /-- The caller found no target, or the queue closed. -/
  | dropped (step : PushStep) : Moves p step { p with desk := .clear }
  /-- The caller offered its entry to the queue. -/
  | offered (e : Entry) (hdesk : p.desk = .aimed e) :
      Moves p .offer
        { p with desk := .clear, node := { p.node with queue := p.node.queue.offer e } }
  /-- The sender took the oldest entry out of the queue. -/
  | taken (e : Entry) (rest : List Entry) (hhand : p.hand = .idle)
      (hpending : p.node.queue.pending = e :: rest) :
      Moves p .take
        { p with
          hand := .holding e
          node := { p.node with queue := { p.node.queue with pending := rest } } }
  /-- The sender sent the entry that it had taken. -/
  | sent (e : Entry) (target : String) (hhand : p.hand = .holding e)
      (htarget : p.node.standing.pushTarget = some target) :
      Moves p .send { p with hand := .waiting e target, sent := p.sent ++ [(e, target)] }
  /-- The sender is done with an entry, and the target stays what it is. -/
  | released (step : PushStep) : Moves p step { p with hand := .idle }
  /-- The sender lost the target, which was still the one it had sent to. -/
  | lost (reply : Except Error Message) (e : Entry) (target : String)
      (hhand : p.hand = .waiting e target)
      (hreply : Cluster.delivered (reply.bind (Message.expect .pushTransaction)) = false)
      (htarget : p.node.standing.pushTarget = some target) :
      Moves p (.hear reply)
        { p with
          hand := .idle
          node := { p.node with log := p.node.log.aimed Option.none p.node.standing.shutDown } }
  /-- The sender ended. -/
  | ended (hhand : p.hand = .idle) :
      Moves p .finish
        { p with
          hand := .ended
          node := { p.node with queue := { p.node.queue with pending := [] } } }

/-- What is heard of an entry clears the target only where it still stands. -/
theorem moves_hear (p : Pushing) (reply : Except Error Message) : p.Moves (.hear reply) (p.hear reply) := by
  unfold hear
  split
  · next e target hhand =>
    split
    · exact .released _
    · next hlost =>
      by_cases htarget : p.node.standing.pushTarget = some target
      · rw [Node.restand_lose_of_eq htarget]
        exact .lost reply e target hhand (Bool.eq_false_iff.mpr hlost) htarget
      · rw [Node.restand_lose_of_ne htarget]
        exact .released _
  · exact .none _

theorem moves_step (p : Pushing) (step : PushStep) : p.Moves step (p.step step) := by
  cases step with
  | look =>
    show p.Moves _ p.look
    unfold look
    split
    · next e hdesk =>
      split
      · exact .found e hdesk
      · exact .dropped _
    · exact .none _
  | offer =>
    show p.Moves _ p.offer
    unfold offer
    split
    · exact .dropped _
    · next e hdesk _ => exact .offered e hdesk
    · exact .none _
  | take =>
    show p.Moves _ p.take
    unfold take
    split
    · next e rest hhand hpending => exact .taken e rest hhand hpending
    · exact .none _
  | send =>
    show p.Moves _ p.send
    unfold send
    split
    · next e hhand =>
      split
      · next target htarget => exact .sent e target hhand htarget
      · exact .released _
    · exact .none _
  | hear reply => exact moves_hear p reply
  | finish =>
    show p.Moves _ p.finish
    unfold finish
    split
    · next hhand =>
      split
      · exact .ended hhand
      · exact .none _
    · exact .none _

/-- A sender that waits has sent the last entry that was sent. -/
def Tidy (p : Pushing) : Prop := ∀ e target, p.hand = .waiting e target → p.sent.getLast? = some (e, target)

/-- What a step of the push side may change: the queue, and the push target. The target is only
cleared, when it is heard that the entry sent last was not taken there, and only if the target is
still the one that the entry was sent to. -/
structure Spares (p : Pushing) (step : PushStep) (p' : Pushing) : Prop where
  answers : p'.answers = p.answers
  node : p'.node = { p.node with log := p'.node.log, queue := p'.node.queue }
  log : p'.node.log = p.node.log ∨
    ∃ reply e target, step = .hear reply ∧
      Cluster.delivered (reply.bind (Message.expect .pushTransaction)) = false ∧
      p.sent.getLast? = some (e, target) ∧ p.node.standing.pushTarget = some target ∧
      p'.node.log = p.node.log.aimed none p.node.standing.shutDown

namespace Moves

variable {p p' : Pushing} {step : PushStep}

theorem spares (h : p.Moves step p') (htidy : p.Tidy) : p.Spares step p' := by
  refine ⟨?_, ?_, ?_⟩
  · cases h <;> rfl
  · cases h <;> rfl
  · cases h with
    | lost reply e target hhand hreply htarget =>
      exact Or.inr ⟨reply, e, target, rfl, hreply, htidy e target hhand, htarget, rfl⟩
    | _ => exact Or.inl rfl

theorem tidy (h : p.Moves step p') (htidy : p.Tidy) : p'.Tidy := by
  intro e target hwaits
  cases h with
  | none | found | dropped | offered => exact htidy e target hwaits
  | taken | released | lost | ended => cases hwaits
  | sent f other hhand htarget =>
    cases hwaits
    exact List.getLast?_concat

/-- The push side drops entries at most, and keeps the others in their order. -/
theorem course (h : p.Moves step p') : p'.course.Sublist p.course := by
  unfold Pushing.course
  cases h with
  | none => exact List.Sublist.refl _
  | found e hdesk =>
    rw [hdesk]
    exact List.Sublist.refl _
  | dropped => exact (List.Sublist.refl _).append (List.nil_sublist _)
  | offered e hdesk =>
    have hoffer : (p.node.queue.offer e).pending.Sublist (p.node.queue.pending ++ [e]) := by
      unfold PushQueue.offer
      split
      · exact List.Sublist.refl _
      · exact List.sublist_append_left _ _
    rw [hdesk]
    simpa [Desk.held] using hoffer
  | taken e rest hhand hpending =>
    rw [hhand, hpending]
    simp [Hand.held]
  | sent e target hhand htarget =>
    rw [hhand]
    simp [Hand.held]
  | released =>
    have hheld := (List.Sublist.refl (p.sent.map (·.1))).append (List.nil_sublist p.hand.held)
    exact (hheld.append (List.Sublist.refl _)).append (List.Sublist.refl _)
  | lost =>
    have hheld := (List.Sublist.refl (p.sent.map (·.1))).append (List.nil_sublist p.hand.held)
    exact (hheld.append (List.Sublist.refl _)).append (List.Sublist.refl _)
  | ended hhand =>
    rw [hhand]
    have hpending := (List.Sublist.refl (p.sent.map (·.1) ++ Hand.held .idle)).append
      (List.nil_sublist p.node.queue.pending)
    exact hpending.append (List.Sublist.refl _)

end Moves

/-! ## Runs -/

theorem sent_sublist_course (p : Pushing) : (p.sent.map (·.1)).Sublist p.course := by
  unfold course
  rw [List.append_assoc, List.append_assoc]
  exact List.sublist_append_left _ _

/-- A node that pushes goes with a ledger of one that does not: the answers are the same, the logs
differ in the push target at most, and what is sent was committed, in the order of the commits. -/
structure Mirrors (p : Pushing) (l : Ledger) : Prop where
  answers : p.answers = l.answers.map (Except.map (Option.map Entry.id))
  log : ∃ target shutDown, p.node.log = l.log.aimed target shutDown
  course : p.course.Sublist l.committed
  tidy : p.Tidy

namespace Mirrors

variable {p : Pushing} {l : Ledger}

theorem spawn (n : Node) (size : Nat) : (spawn n size).Mirrors ⟨n.log, []⟩ where
  answers := rfl
  log := ⟨n.standing.pushTarget, n.standing.shutDown, rfl⟩
  course := List.Sublist.refl []
  tidy := fun _ _ hwaits => nomatch hwaits

theorem push (h : p.Mirrors l) (step : PushStep) : (p.step step).Mirrors l := by
  have hmoves := p.moves_step step
  have hspares := hmoves.spares h.tidy
  obtain ⟨target, shutDown, hlog⟩ := h.log
  refine ⟨hspares.answers.trans h.answers, ?_, hmoves.course.trans h.course, hmoves.tidy h.tidy⟩
  rcases hspares.log with hsame | ⟨-, -, -, -, -, -, -, hlost⟩
  · exact ⟨target, shutDown, hsame.trans hlog⟩
  · refine ⟨none, p.node.standing.shutDown, ?_⟩
    rw [hlost, hlog]
    rfl

/-- A change of the standing that others make. -/
theorem restand (h : p.Mirrors l) {change : Standing → Standing} (target : Option String)
    (shutDown : Bool)
    (hchange : change p.node.standing =
      { p.node.standing with pushTarget := target, shutDown := shutDown }) :
    Mirrors { p with node := p.node.restand change } l where
  answers := h.answers
  log := by
    obtain ⟨target', shutDown', hlog⟩ := h.log
    refine ⟨target, shutDown, ?_⟩
    show { p.node.log with standing := change p.node.standing } = _
    rw [hchange]
    show p.node.log.aimed target shutDown = _
    rw [hlog]
    rfl
  course := h.course
  tidy := h.tidy

/-- What was sent or waits to be sent was committed, whatever lies on the desk. -/
theorem course_append (h : p.Mirrors l) (new : List Entry) :
    (p.sent.map (·.1) ++ p.hand.held ++ p.node.queue.pending ++ new).Sublist (l.committed ++ new) :=
  ((List.sublist_append_left _ _).trans h.course).append (List.Sublist.refl new)

theorem commit (h : p.Mirrors l) (now : Instant) (e : Entry) :
    (p.commit now e).Mirrors (l.after (.commit now e)) := by
  have hready : p.look.offer.Mirrors l := (h.push .look).push .offer
  obtain ⟨target, shutDown, hlog⟩ := hready.log
  have hrun := Log.blind_commit now e l.log target shutDown
  rw [← hlog] at hrun
  rcases hcommit : (Log.commit now e).run.run l.log with ⟨r, log⟩
  rw [hcommit] at hrun
  have hafter : l.after (.commit now e) = ⟨log, l.answers ++ [r]⟩ := by
    show (⟨((Log.commit now e).run.run l.log).2, _ ++ [((Log.commit now e).run.run l.log).1]⟩ : Ledger) = _
    rw [hcommit]
  rw [hafter]
  unfold Pushing.commit
  dsimp only
  rw [hrun]
  refine ⟨?_, ⟨target, shutDown, rfl⟩, ?_, hready.tidy⟩
  · show p.look.offer.answers ++ [_] = _
    rw [hready.answers, List.map_append]
    rfl
  · have hcommitted : (⟨log, l.answers ++ [r]⟩ : Ledger).committed =
        l.committed ++ (Ledger.committed ⟨log, [r]⟩) := List.filterMap_append
    rw [hcommitted]
    match r with
    | .error error => exact hready.course_append []
    | .ok none => exact hready.course_append []
    | .ok (some committed) => exact hready.course_append [committed]

theorem logAfter (h : p.Mirrors l) {event : LogEvent} (hevent : ∀ now e, event ≠ .commit now e) :
    (p.logAfter event).Mirrors (l.after event) := by
  obtain ⟨target, shutDown, hlog⟩ := h.log
  obtain ⟨target', shutDown', hafter⟩ := l.log.after_aimed target shutDown event
  have hledger : l.after event = ⟨l.log.after event, l.answers⟩ := by
    unfold Ledger.after
    split
    · next now e => exact absurd rfl (hevent now e)
    · rw [List.append_nil]
  have hnode : p.node.log.after event = (l.after event).log.aimed target' shutDown' := by
    rw [hlog, hafter, hledger]
  unfold Pushing.logAfter
  split
  · rw [hledger] at hnode ⊢
    refine ⟨h.answers, ⟨target', shutDown', hnode⟩, ?_, fun _ _ hwaits => nomatch hwaits⟩
    -- a sender that begins anew leaves behind what was not sent yet
    have hnothing (entries : List Entry) : entries ++ [] ++ [] ++ [] = entries := by simp
    show List.Sublist (_ ++ [] ++ [] ++ []) l.committed
    rw [hnothing]
    exact p.sent_sublist_course.trans h.course
  · rw [hledger] at hnode ⊢
    exact ⟨h.answers, ⟨target', shutDown', hnode⟩, h.course, h.tidy⟩

/-- An event keeps the two together; the ledger only sees what happens to the log. -/
theorem after (h : p.Mirrors l) (event : PushEvent) :
    (p.after event).Mirrors (event.log?.toList.foldl Ledger.after l) := by
  cases event with
  | log event =>
    by_cases hcommit : ∃ now e, event = .commit now e
    · obtain ⟨now, e, rfl⟩ := hcommit
      exact h.commit now e
    · have hafter : p.after (.log event) = p.logAfter event := by
        cases event with
        | commit now e => exact absurd ⟨now, e, rfl⟩ hcommit
        | _ => rfl
      rw [hafter]
      exact h.logAfter fun now e heq => hcommit ⟨now, e, heq⟩
  | aim target => exact h.restand target p.node.standing.shutDown rfl
  | stop => exact h.restand p.node.standing.pushTarget true rfl
  | push step => exact h.push step

theorem run (h : p.Mirrors l) (events : List PushEvent) :
    (p.run events).Mirrors (l.run (events.filterMap PushEvent.log?)) := by
  induction events generalizing p l with
  | nil => exact h
  | cons event rest ih =>
    have hrest := ih (h.after event)
    have hledger : l.run ((event :: rest).filterMap PushEvent.log?) =
        (event.log?.toList.foldl Ledger.after l).run (rest.filterMap PushEvent.log?) := by
      unfold Ledger.run
      rw [← List.foldl_append]
      cases event <;> rfl
    rw [hledger]
    exact hrest

end Mirrors

/-- Pushing cannot affect commits. Whatever commits are made of a node that pushes, whatever else
happens to its log, whatever becomes of the push target and in whatever order the push side takes its
steps: the commits have the same answers as without pushing, and the log has become the same but for
the push target. Entries are sent in the order of their commits, each once at most. A step of the push
side changes the queue alone; or it clears the push target, hearing that the last entry sent was not
taken by the very follower that is still the target. -/
theorem run_spares_commits (n : Node) (size : Nat) (events : List PushEvent) :
    let p := (spawn n size).run events
    let l := Ledger.run ⟨n.log, []⟩ (events.filterMap PushEvent.log?)
    p.answers = l.answers.map (Except.map (Option.map Entry.id)) ∧
      (∃ target shutDown, p.node.log = l.log.aimed target shutDown) ∧
      (p.sent.map (·.1)).Sublist l.committed ∧
      ∀ step, p.Spares step (p.step step) := by
  intro p l
  have hmirrors : p.Mirrors l := (Mirrors.spawn n size).run events
  refine ⟨hmirrors.answers, hmirrors.log, p.sent_sublist_course.trans hmirrors.course, fun step => ?_⟩
  exact (p.moves_step step).spares hmirrors.tidy

/-- The target moved while an entry was on its way; hearing that the entry was lost leaves it. -/
example (n : Node) (e : Entry) :
    (run ⟨n, .clear, .waiting e "http://b", [], []⟩
      [.aim (some "http://c"), .push (.hear (.error .cancelled))]).node.standing.pushTarget =
        some "http://c" := rfl

/-! ## The executed steps -/

/-- A caller that takes both its steps at once offers the entry to the node. -/
theorem offer_look_fresh (n : Node) (e : Entry) {hand : Hand} (hhand : hand ≠ .ended)
    (answers : List (Except Error (Option LogId))) (sent : List (Entry × String)) :
    offer (look ⟨n, .fresh e, hand, answers, sent⟩) = ⟨n.offer e, .clear, hand, answers, sent⟩ := by
  unfold look Node.offer
  dsimp only
  split
  · cases hand with
    | ended => exact absurd rfl hhand
    | idle | holding | waiting => rfl
  · rfl

/-- A commit of a node is the commit of its log, followed by the steps of the caller. -/
theorem commit_eq_run (n : Node) {hand : Hand} (hhand : hand ≠ .ended)
    (answers : List (Except Error (Option LogId))) (sent : List (Entry × String)) (now : Instant)
    (e : Entry) :
    run ⟨n, .clear, hand, answers, sent⟩ [.log (.commit now e), .push .look, .push .offer] =
      ⟨(n.commit now e).2, .clear, hand, answers ++ [(n.commit now e).1], sent⟩ := by
  show offer (look (commit now e ⟨n, .clear, hand, answers, sent⟩)) = _
  have hready : offer (look ⟨n, .clear, hand, answers, sent⟩) = ⟨n, .clear, hand, answers, sent⟩ := rfl
  unfold commit Node.commit Node.onLog
  rw [hready]
  dsimp only
  rcases (Log.commit now e).run.run n.log with ⟨r, log⟩
  match r with
  | .error error => rfl
  | .ok none => rfl
  | .ok (some committed) => exact offer_look_fresh _ committed hhand _ _

/-- Without a push target, the sender throws the entries away one by one. -/
theorem run_throws_away (n : Node) (htarget : n.standing.pushTarget = none) (desk : Desk)
    (answers : List (Except Error (Option LogId))) (sent : List (Entry × String)) :
    run ⟨n, desk, .idle, answers, sent⟩
        ((n.queue.pending.flatMap fun _ => [PushStep.take, PushStep.send]).map PushEvent.push) =
      ⟨{ n with queue := { n.queue with pending := [] } }, desk, .idle, answers, sent⟩ := by
  generalize hpending : n.queue.pending = pending
  induction pending generalizing n with
  | nil =>
    have hempty : { n.queue with pending := [] } = n.queue := by rw [← hpending]
    rw [hempty]
    rfl
  | cons e rest ih =>
    have htake : take ⟨n, desk, .idle, answers, sent⟩ =
        ⟨{ n with queue := { n.queue with pending := rest } }, desk, .holding e, answers, sent⟩ := by
      unfold take
      dsimp only
      rw [hpending]
    have hsend : send ⟨{ n with queue := { n.queue with pending := rest } }, desk, .holding e, answers, sent⟩ =
        ⟨{ n with queue := { n.queue with pending := rest } }, desk, .idle, answers, sent⟩ := by
      unfold send
      dsimp only
      rw [show ({ n with queue := { n.queue with pending := rest } } : Node).standing.pushTarget = none
        from htarget]
    show run (send (take ⟨n, desk, .idle, answers, sent⟩)) _ = _
    rw [htake, hsend]
    exact ih _ htarget rfl

/-- What a node does at once to push its next entry is done by steps of the sender. -/
theorem nextPush_eq_run (n : Node) (hanswered : n.queue.stalled = false) (desk : Desk)
    (answers : List (Except Error (Option LogId))) (sent : List (Entry × String)) :
    ∃ steps : List PushStep, run ⟨n, desk, .idle, answers, sent⟩ (steps.map PushEvent.push) =
      match Cluster.nextPush n with
      | (some (e, target), n') => ⟨n', desk, .waiting e target, answers, sent ++ [(e, target)]⟩
      | (none, n') =>
        ⟨n', desk, if n.standing.shutDown then .ended else .idle, answers, sent⟩ := by
  unfold Cluster.nextPush
  rw [hanswered]
  cases hstop : n.standing.shutDown with
  | true =>
    refine ⟨[.finish], ?_⟩
    show finish ⟨n, desk, .idle, answers, sent⟩ = _
    unfold finish
    dsimp only
    rw [hstop]
    rfl
  | false =>
    cases htarget : n.standing.pushTarget with
    | none =>
      refine ⟨n.queue.pending.flatMap fun _ => [.take, .send], ?_⟩
      rw [run_throws_away n htarget]
      cases n.queue.pending with
      | nil => rfl
      | cons e rest => rfl
    | some target =>
      cases hpending : n.queue.pending with
      | nil =>
        have hempty : { n.queue with pending := [] } = n.queue := by rw [← hpending]
        refine ⟨[], ?_⟩
        show (⟨n, desk, .idle, answers, sent⟩ : Pushing) =
          ⟨{ n with queue := { n.queue with pending := [] } }, desk, .idle, answers, sent⟩
        rw [hempty]
      | cons e rest =>
        refine ⟨[.take, .send], ?_⟩
        show send (take ⟨n, desk, .idle, answers, sent⟩) = _
        unfold take
        dsimp only
        rw [hpending]
        unfold send
        dsimp only
        rw [show ({ n with queue := { n.queue with pending := rest } } : Node).standing.pushTarget =
          some target from htarget]
        rfl

end Pushing

end LogShipping
