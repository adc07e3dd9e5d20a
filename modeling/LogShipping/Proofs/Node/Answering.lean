import LogShipping.Proofs.Store.Fences
import LogShipping.Proofs.World.Strides

/-!
# What messages may touch

A message that arrives from outside is answered from the log and never writes to it. Of the node it may
change the host table, the push target and the push buffer, each for a few commands only
(`Node.Handled`), and a message that is refused changes nothing at all. So whatever arrives at a node,
its store, its counters, its role, its master and its observers stay as they are
(`Node.handle_keeps_data`).

The outage of a store belongs to its surroundings: reads that are let through bring it closer. Where
there is none, the store stays the same in every respect.

Nothing is asked of the node, of the time or of the message. The cases are those of the commands; each
is one of three patterns, refused, noted in the host table, or untouched, but for serving a page and
taking a push, which have lemmas of their own.

A message is answered in one step. In the program a push is checked against the master before it is put
into the buffer, and the master may be another one by then; `Proofs.Activity.Racing` takes the two
apart.
-/

namespace LogShipping

/-! ## Requests and replies -/

/-- A reply is of the command of its request and repeats what was asked. -/
inductive Message.Repeats : Message → Message → Prop where
  | register (url : String) (logPosition : LogId) (hosts known : List Host) :
      Repeats (.register url logPosition hosts) (.register url logPosition known)
  | readOne (id : LogId) (entry found : Option Entry) : Repeats (.readOne id entry) (.readOne id found)
  | readLog (url : String) (lastSeen : LogId) (limit : UInt32) (chunk page : Chunk) :
      Repeats (.readLog url lastSeen limit chunk) (.readLog url lastSeen limit page)
  | setHosts (hosts : List Host) : Repeats (.setHosts hosts) (.setHosts hosts)
  | addHost (host : Host) : Repeats (.addHost host) (.addHost host)
  | pushTransaction (source : String) (e : Entry) (accepted taken : Bool) :
      Repeats (.pushTransaction source e accepted) (.pushTransaction source e taken)
  | status (url : String) (logPosition : LogId) (isMaster : Bool) (master : String) (reply : Message)
      (hreply : reply.command = .status) : Repeats (.status url logPosition isMaster master) reply

theorem Message.Repeats.command {request reply : Message} (h : request.Repeats reply) :
    reply.command = request.command := by
  cases h with
  | status url logPosition isMaster master reply hreply => exact hreply
  | _ => rfl

/-- A store after calls that left its rows alone differs in the outage at most. -/
theorem Store.Aged.eq_with_outage {s t : Store} (h : s.Aged t) : t = { s with outage := t.outage } := by
  obtain ⟨engine, rows, outage⟩ := s
  obtain ⟨engine', rows', outage'⟩ := t
  obtain ⟨rfl, rfl, -⟩ := h
  rfl

namespace Node

variable {n n' n'' : Node} {m : Message} {a : Answer}

/-! ## Frames -/

/-- The node `n'` is the node `n` but for its host table, its push target and its push buffer, and for
how close an outage of its store has come. -/
structure KeepsData (n n' : Node) : Prop where
  frame : ∃ hosts pushTarget buffer outage, n' = { n with
    log := { n.log with
      standing := { n.log.standing with pushTarget := pushTarget }
      store := { n.log.store with outage := outage } }
    hosts := hosts
    buffer := buffer }
  outage : n.log.store.outage = none → n'.log.store.outage = none

theorem KeepsData.refl (n : Node) : n.KeepsData n := ⟨⟨_, _, _, _, rfl⟩, fun h => h⟩

theorem KeepsData.trans (h : n.KeepsData n') (h' : n'.KeepsData n'') : n.KeepsData n'' where
  frame := by
    obtain ⟨_, _, _, _, rfl⟩ := h.frame
    obtain ⟨hosts, pushTarget, buffer, outage, rfl⟩ := h'.frame
    exact ⟨hosts, pushTarget, buffer, outage, rfl⟩
  outage := fun hnone => h'.outage (h.outage hnone)

/-- The node `n'` is the node `n` but for how close an outage of its store has come. -/
structure Untouched (n n' : Node) : Prop where
  frame : ∃ outage, n' = { n with
    log := { n.log with store := { n.log.store with outage := outage } } }
  outage : n.log.store.outage = none → n'.log.store.outage = none

theorem Untouched.refl (n : Node) : n.Untouched n := ⟨⟨_, rfl⟩, fun h => h⟩

/-- Without an outage there is nothing left in which the nodes could differ. -/
theorem Untouched.eq (h : n.Untouched n') (hnone : n.log.store.outage = none) : n' = n := by
  have hnone' := h.outage hnone
  obtain ⟨outage, rfl⟩ := h.frame
  obtain rfl : outage = none := hnone'
  rw [← hnone]

theorem Untouched.keepsData (h : n.Untouched n') : n.KeepsData n' where
  frame := by
    obtain ⟨outage, rfl⟩ := h.frame
    exact ⟨n.hosts, n.log.standing.pushTarget, n.buffer, outage, rfl⟩
  outage := h.outage

/-- Reading from the store leaves the node untouched. -/
theorem untouched_onStore {α : Type} {work : Access α}
    (h : Ensures work n.log.store fun _ t => n.log.store.Aged t) :
    n.Untouched (n.onLog (Log.onStore work)).2 where
  frame := by
    have hage : n.log.store.Aged (work.run.run n.log.store).2 := h
    exact ⟨_, congrArg (fun store => { n with log := { n.log with store := store } })
      hage.eq_with_outage⟩
  outage := by
    intro hnone
    have hsame : (work.run.run n.log.store).2 = n.log.store := h.eq_of_no_outage hnone
    show (work.run.run n.log.store).2.outage = none
    rw [hsame, hnone]

/-! ## Answers -/

/-- What answering a message leaves of a node: of what may change at all, the host table changes for
four commands, the push target where a master has served a page that is current, and the buffer where a
follower was pushed to in the name of its master. Where there is no reply, nothing has changed. -/
structure Handled (n : Node) (m : Message) (a : Answer) (n' : Node) : Prop where
  keeps : n.KeepsData n'
  hosts : n'.hosts = n.hosts ∨ m.command ∈ [.register, .readLog, .setHosts, .addHost]
  pushTarget : n'.standing.pushTarget = n.standing.pushTarget ∨
    n.standing.isMaster = true ∧ ∃ url lastSeen limit chunk page,
      m = .readLog url lastSeen limit chunk ∧ a.reply = .ok (.readLog url lastSeen limit page) ∧
        page.isCurrent = true ∧ n'.standing.pushTarget = some url
  buffer : n'.buffer = n.buffer ∨
    n.standing.isMaster = false ∧ ∃ e accepted,
      m = .pushTransaction n.standing.master e accepted
  refused : ∀ error, a.reply = .error error → n.Untouched n' ∧ a.announcement = none
  replied : ∀ reply, a.reply = .ok reply → m.Repeats reply ∧ reply.command = m.command

namespace Handled

/-- A message that leaves the node untouched. -/
theorem untouched (h : n.Untouched n') (hannounced : a.announcement = none)
    (hreplied : ∀ reply, a.reply = .ok reply → m.Repeats reply) : n.Handled m a n' where
  keeps := h.keepsData
  hosts := by
    obtain ⟨_, rfl⟩ := h.frame
    exact Or.inl rfl
  pushTarget := by
    obtain ⟨_, rfl⟩ := h.frame
    exact Or.inl rfl
  buffer := by
    obtain ⟨_, rfl⟩ := h.frame
    exact Or.inl rfl
  refused := fun _ _ => ⟨h, hannounced⟩
  replied := fun reply hreply => ⟨hreplied reply hreply, (hreplied reply hreply).command⟩

/-- A message that is refused by a node which stays as it is. -/
theorem refuses (error : Error) : n.Handled m ⟨.error error, none⟩ n :=
  untouched (.refl n) rfl nofun

/-- A message that is answered and changes the host table only. -/
theorem notes {reply : Message} {announcement : Option Announcement} (hosts : HostTable)
    (hcommand : m.command ∈ [.register, .readLog, .setHosts, .addHost]) (hreply : m.Repeats reply) :
    n.Handled m ⟨.ok reply, announcement⟩ { n with hosts := hosts } where
  keeps := ⟨⟨hosts, _, _, _, rfl⟩, fun h => h⟩
  hosts := Or.inr hcommand
  pushTarget := Or.inl rfl
  buffer := Or.inl rfl
  refused := nofun
  replied := by
    rintro _ ⟨⟩
    exact ⟨hreply, hreply.command⟩

end Handled

theorem handled_register (n : Node) (now : Instant) (url : String) (logPosition : LogId)
    (hosts : List Host) :
    n.Handled (.register url logPosition hosts) (n.handleRegister now url logPosition).1
      (n.handleRegister now url logPosition).2 := by
  unfold handleRegister
  split
  · exact .refuses _
  · exact .notes _ (by simp [Message.command]) (.register url logPosition hosts _)

theorem handled_readOne (n : Node) (id : LogId) (entry : Option Entry) :
    n.Handled (.readOne id entry) (n.handleReadOne id).1 (n.handleReadOne id).2 := by
  refine .untouched (untouched_onStore (Log.aged_readOne id)) rfl ?_
  intro reply hreply
  change Except.map _ (n.onLog (Log.onStore (Log.readOne id))).1 = _ at hreply
  cases hr : (n.onLog (Log.onStore (Log.readOne id))).1 with
  | error error =>
    rw [hr] at hreply
    cases hreply
  | ok found =>
    rw [hr] at hreply
    cases hreply
    exact .readOne id entry found

/-- Serving a page changes the host table at most, and on a master the push target if the page is
current. -/
theorem noteReader_frame (n : Node) (now : Instant) (url : String) (lastSeen : LogId)
    (isCurrent : Bool) :
    ∃ hosts pushTarget, n.noteReader now url lastSeen isCurrent = { n with
      log := { n.log with standing := { n.log.standing with pushTarget := pushTarget } }
      hosts := hosts } ∧
      (pushTarget = n.standing.pushTarget ∨
        n.standing.isMaster = true ∧ isCurrent = true ∧ pushTarget = some url) := by
  unfold noteReader
  split
  · exact ⟨n.hosts, n.standing.pushTarget, rfl, Or.inl rfl⟩
  · dsimp only
    split
    · next haims =>
      obtain ⟨hmaster, hcurrent⟩ := Bool.and_eq_true_iff.mp haims
      exact ⟨n.hosts.observe url lastSeen now, some url, rfl, Or.inr ⟨hmaster, hcurrent, rfl⟩⟩
    · exact ⟨n.hosts.observe url lastSeen now, n.standing.pushTarget, rfl, Or.inl rfl⟩

theorem handled_readLog (n : Node) (now : Instant) (url : String) (lastSeen : LogId) (limit : UInt32)
    (chunk : Chunk) :
    n.Handled (.readLog url lastSeen limit chunk) (n.handleReadLog now url lastSeen limit).1
      (n.handleReadLog now url lastSeen limit).2 := by
  have hread := untouched_onStore (n := n) (Log.aged_readLog n.position now lastSeen limit)
  unfold handleReadLog
  rcases hr : n.onLog (Log.onStore (Log.readLog n.position now lastSeen limit)) with
    ⟨error | page, served⟩
  · rw [hr] at hread
    exact .untouched hread rfl nofun
  · rw [hr] at hread
    -- the reader is noted only behind a read that has succeeded
    obtain ⟨outage, rfl⟩ := hread.frame
    obtain ⟨hosts, pushTarget, hnoted, haimed⟩ := noteReader_frame
      { n with log := { n.log with store := { n.log.store with outage := outage } } } now url lastSeen
      page.isCurrent
    dsimp only
    rw [hnoted]
    refine {
      keeps := ⟨⟨hosts, pushTarget, n.buffer, outage, rfl⟩, hread.outage⟩
      hosts := Or.inr (by simp [Message.command])
      pushTarget := haimed.imp_right ?_
      buffer := Or.inl rfl
      refused := nofun
      replied := ?_ }
    · rintro ⟨hmaster, hcurrent, haimed⟩
      exact ⟨hmaster, url, lastSeen, limit, chunk, page, rfl, rfl, hcurrent, haimed⟩
    · rintro _ ⟨⟩
      exact ⟨.readLog url lastSeen limit chunk page, rfl⟩

theorem follower_of_followersOnly {command : Command} (h : n.followersOnly command = .ok ()) :
    n.standing.isMaster = false := by
  unfold followersOnly at h
  split at h
  · cases h
  · next hmaster => exact Bool.eq_false_iff.mpr hmaster

theorem handled_addHost (n : Node) (host : Host) :
    n.Handled (.addHost host) (n.handleAddHost host).1 (n.handleAddHost host).2 := by
  unfold handleAddHost
  split
  · exact .refuses _
  · exact .notes _ (by simp [Message.command]) (.addHost host)

theorem handled_push (n : Node) (source : String) (e : Entry) (accepted : Bool) :
    n.Handled (.pushTransaction source e accepted) (n.handlePush source e).1
      (n.handlePush source e).2 := by
  unfold handlePush
  split
  · exact .refuses _
  · next hfollower =>
    split
    · next hsource =>
      refine {
        keeps := ⟨⟨n.hosts, _, _, _, rfl⟩, fun h => h⟩
        hosts := Or.inl rfl
        pushTarget := Or.inl rfl
        buffer := Or.inr ⟨follower_of_followersOnly hfollower, e, accepted, by rw [hsource]⟩
        refused := nofun
        replied := ?_ }
      rintro _ ⟨⟩
      exact ⟨.pushTransaction source e accepted _, rfl⟩
    · refine .untouched (.refl n) rfl ?_
      rintro _ ⟨⟩
      exact .pushTransaction source e accepted false

/-- Every message is handled within these bounds. -/
theorem handled_handle (n : Node) (now : Instant) (m : Message) :
    n.Handled m (n.handle now m).1 (n.handle now m).2 := by
  cases m with
  | register url logPosition hosts => exact n.handled_register now url logPosition hosts
  | readOne id entry => exact n.handled_readOne id entry
  | readLog url lastSeen limit chunk => exact n.handled_readLog now url lastSeen limit chunk
  | setHosts hosts => exact .notes _ (by simp [Message.command]) (.setHosts hosts)
  | addHost host => exact n.handled_addHost host
  | pushTransaction source e accepted => exact n.handled_push source e accepted
  | status url logPosition isMaster master =>
    refine .untouched (.refl n) rfl ?_
    rintro _ ⟨⟩
    exact .status url logPosition isMaster master _ rfl

/-! ## Whatever arrives -/

/-- The node after it has answered some messages, each at its time. -/
def handleAll (n : Node) (messages : List (Instant × Message)) : Node :=
  messages.foldl (fun n message => (n.handle message.1 message.2).2) n

theorem keepsData_handleAll (n : Node) (messages : List (Instant × Message)) :
    n.KeepsData (n.handleAll messages) := by
  induction messages generalizing n with
  | nil => exact .refl n
  | cons message rest ih => exact (n.handled_handle message.1 message.2).keeps.trans (ih _)

/-- Messages from outside cannot touch replicated data. Whatever a node is in and whatever arrives, the
answer leaves rows, counters, role, master and observers alone, and of the rest it changes what its
command may change (`Handled`). A message that is refused leaves the node as it was, host table, push
target and buffer included; only an outage that sets in after some more reads may have come closer. A
reply is of the command of its request and repeats what was asked. And no sequence of messages comes
to more than that. -/
theorem handle_keeps_data (n : Node) :
    (∀ now m, n.Handled m (n.handle now m).1 (n.handle now m).2) ∧
      (∀ now m error, (n.handle now m).1.reply = .error error → n.log.store.outage = none →
        (n.handle now m).2 = n) ∧
      ∀ messages, n.KeepsData (n.handleAll messages) := by
  refine ⟨n.handled_handle, ?_, n.keepsData_handleAll⟩
  intro now m error herror hnone
  exact ((n.handled_handle now m).refused error herror).1.eq hnone

end Node

end LogShipping
