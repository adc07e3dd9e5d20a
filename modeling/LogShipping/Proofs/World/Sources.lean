import LogShipping.Proofs.World.HostTables

/-!
# Whose entries they are

Where logs may differ, it matters whose log an entry is from. In a run of a cluster every entry that is
on its way can be found, under its id, in the log of the node that it is said to be from: what waits to
be pushed in the node's own log, a pushed entry in that of its source, what a reply brings in that of
the peer that was asked, and what a follower has buffered in that of the master it follows
(`World.Traced`). Logs are only continued, so an entry that was found once is found ever after.

No node of origin is needed for this, and no history that all share. It is what is left of being backed
when several nodes have committed, and it is enough to say that a follower takes over what its master
has.

The last of the four is the one that depends on the order of two things, the change of the master and
the clearing of the buffer; they are one step here. With the halves apart an entry may be left in the
buffer that only the former master has (`Proofs.Activity.Racing`).
-/

namespace LogShipping

open Std

/-! ## Entries by id -/

namespace Log

variable {log : Log} {entries : List Entry} {id : LogId} {e : Entry}

/-- The entry that a log has under an id, whether or not its store answers. -/
def entryAt? (log : Log) (id : LogId) : Option Entry :=
  match log.store.rows[Key.log id]? with
  | some record => (Stored.decode record).toOption
  | none => none

/-- The entries of a log are those of the history it holds. -/
theorem Holds.entryAt?_eq_some_iff (h : log.Holds entries) :
    log.entryAt? id = some e ↔ e ∈ entries ∧ e.id = id := by
  unfold entryAt?
  rw [h.rows]
  constructor
  · intro hentry
    split at hentry
    · next record hrecord =>
      rcases (Rows.mem_replay_encode_log h.history (Rows.mem_of_getElem? hrecord)).2 with rfl | ⟨f, hf, rfl⟩
      -- the fence is no record
      · have hfence : (Rows.replay entries)[Key.log 0]? = some [] :=
          Rows.getElem?_replay_fence h.history .log
        rw [hfence] at hrecord
        cases hrecord
        cases hentry
      · rw [Rows.getElem?_replay_log h.history hf] at hrecord
        cases hrecord
        rw [Stored.decode_encode (h.history.proper f hf).fits] at hentry
        cases hentry
        exact ⟨hf, rfl⟩
    · cases hentry
  · rintro ⟨he, rfl⟩
    rw [Rows.getElem?_replay_log h.history he]
    dsimp only
    rw [Stored.decode_encode (h.history.proper e he).fits]
    rfl

/-- Under the position there is the newest entry, unless the log is empty. -/
theorem Holds.entryAt?_position (h : log.Holds entries) : log.entryAt? log.position = entries.getLast? := by
  rcases List.eq_nil_or_concat entries with rfl | ⟨front, last, rfl⟩
  · cases hentry : log.entryAt? log.position with
    | none => rfl
    | some e => cases (h.entryAt?_eq_some_iff.mp hentry).1
  · have hid : last.id = log.position := by
      apply UInt64.toNat_inj.mp
      have hhistory := h.history
      rw [List.concat_eq_append] at hhistory
      rw [hhistory.id_last, h.position, List.length_concat]
    rw [h.entryAt?_eq_some_iff.mpr ⟨by simp, hid⟩]
    simp

/-- Logs with the same rows have the same entries. -/
theorem entryAt?_congr {log' : Log} (h : log'.store.rows = log.store.rows) (id : LogId) :
    log'.entryAt? id = log.entryAt? id := by
  unfold entryAt?
  rw [h]

end Log

namespace Net

variable {origin : String → Prop} {u v : Net} {url peer : String} {n n' : Node} {id : LogId}
  {e : Entry}

/-- The entry that the node at an address has under an id. -/
def entryAt? (u : Net) (url : String) (id : LogId) : Option Entry :=
  (u.node? url).bind fun n => n.log.entryAt? id

theorem entryAt?_of_node? (hn : u.node? url = some n) (id : LogId) :
    u.entryAt? url id = n.log.entryAt? id := by
  rw [entryAt?, hn]
  rfl

/-- A node that has an entry keeps it. -/
theorem entryAt?_grows (h : u.entryAt? url id = some e) (hu : u.Good origin) (huv : u.Grows v) :
    v.entryAt? url id = some e := by
  obtain ⟨n, hn, hentry⟩ := Option.bind_eq_some_iff.mp h
  obtain ⟨entries, hholds, -⟩ := (hu url n hn).log
  obtain ⟨n', hn', hmore⟩ := huv url n hn
  obtain ⟨new, hnew⟩ := hmore entries hholds
  obtain ⟨he, hid⟩ := hholds.entryAt?_eq_some_iff.mp hentry
  rw [entryAt?_of_node? hn']
  exact hnew.entryAt?_eq_some_iff.mpr ⟨List.mem_append_left _ he, hid⟩

/-! ## Entries on their way -/

/-- What a node wants to push is in its own log, and what it has buffered as a follower is in that of
its master. -/
structure Sourced (u : Net) (url : String) (n : Node) : Prop where
  queue : ∀ e ∈ n.queue.pending, u.entryAt? url e.id = some e
  buffer : n.standing.isMaster = false → ∀ (id : LogId) e, n.buffer.entries[id]? = some e →
    u.entryAt? n.standing.master e.id = some e

/-- The entry of a push is in the log of its source. -/
def Pushes (u : Net) : Message → Prop
  | .pushTransaction source e _ => u.entryAt? source e.id = some e
  | _ => True

/-- The entries of a reply are in the log of the peer, and the one that was asked for by its id is
there under that id. -/
def Tells (u : Net) (peer : String) : Message → Except Error Message → Prop
  | .readOne id _, .ok (.readOne _ entry) => ∀ e ∈ entry, u.entryAt? peer id = some e
  | .readLog .., .ok (.readLog _ _ _ chunk) => ∀ e ∈ chunk.entries, u.entryAt? peer e.id = some e
  | _, _ => True

theorem Sourced.grows (h : u.Sourced url n) (hu : u.Good origin) (huv : u.Grows v) :
    v.Sourced url n where
  queue := fun e he => entryAt?_grows (h.queue e he) hu huv
  buffer := fun hfollower id e he => entryAt?_grows (h.buffer hfollower id e he) hu huv

theorem Pushes.grows {m : Message} (h : u.Pushes m) (hu : u.Good origin) (huv : u.Grows v) :
    v.Pushes m := by
  cases m with
  | pushTransaction source e accepted => exact entryAt?_grows h hu huv
  | _ => trivial

theorem Tells.grows {m : Message} {reply : Except Error Message} (h : u.Tells peer m reply)
    (hu : u.Good origin) (huv : u.Grows v) : v.Tells peer m reply := by
  unfold Tells at h ⊢
  split at h
  · exact fun e he => entryAt?_grows (h e he) hu huv
  · exact fun e he => entryAt?_grows (h e he) hu huv
  · trivial

theorem Tells.failure (error : Error) {m : Message} : u.Tells peer m (.error error) := by
  unfold Tells
  split <;> trivial

/-- A node tells of entries of its own log. -/
theorem tells_handle (hu : u.Good origin) (hn : u.node? url = some n) (now : Instant) (m : Message)
    (f : Error → Error) : u.Tells url m ((n.handle now m).1.reply.mapError f) := by
  obtain ⟨entries, hholds, -⟩ := (hu url n hn).log
  have hthere {e : Entry} (he : e ∈ entries) : u.entryAt? url e.id = some e := by
    rw [entryAt?_of_node? hn]
    exact hholds.entryAt?_eq_some_iff.mpr ⟨he, rfl⟩
  cases m with
  | readOne id entry =>
    show u.Tells url _ ((Except.map (fun entry => Message.readOne id entry)
      ((Log.readOne id).run.run n.log.store).1).mapError f)
    obtain ⟨-, ⟨e, he, rfl, hr⟩ | ⟨-, hr | ⟨error, hr⟩⟩ | ⟨-, fault, hr⟩⟩ :=
      Log.ensures_readOne hholds.rows hholds.history id
    · rw [hr]
      intro e' he'
      cases he'
      exact hthere he
    · rw [hr]
      intro e he
      cases he
    · rw [hr]
      exact Tells.failure _
    · rw [hr]
      exact Tells.failure _
  | readLog reader lastSeen limit chunk =>
    show u.Tells url _ ((n.handleReadLog now reader lastSeen limit).1.reply.mapError f)
    have hpage := (Log.ensures_readLog hholds.rows hholds.history n.position now lastSeen limit).2
    unfold Node.handleReadLog
    split
    · exact Tells.failure _
    · next page n' heq =>
      have hr : ((Log.readLog n.position now lastSeen limit).run.run n.log.store).1 = .ok page :=
        congrArg Prod.fst heq
      rw [hr] at hpage
      rcases hpage with ⟨chunk, hchunk, -, -, hmem⟩ | ⟨-, error, hfailed⟩ | ⟨hfailed, -⟩ |
        ⟨-, fault, hfailed⟩
      · cases hchunk
        exact fun e he => hthere (hmem e he)
      · cases hfailed
      · cases hfailed
      · cases hfailed
  | _ =>
    unfold Tells
    split <;> trivial

end Net

/-! ## Worlds -/

namespace World

variable {w : World} {event : Event} {events : List Event} {url : String} {n n' : Node}

/-- Every entry in a world can be found in the log of the node that it is said to be from. -/
structure Traced (w : World) : Prop where
  good : w.Good anywhere
  strides : w.Strides
  nodes : ∀ url n, w.net.node? url = some n → w.net.Sourced url n
  packets : ∀ p ∈ w.packets, w.net.Pushes p.message
  answers : ∀ answer ∈ w.answers, ∃ p, w.packets[answer.1]? = some p ∧
    w.net.Tells p.peer p.message answer.2

/-- A node that was opened has nothing to push and nothing buffered. -/
theorem sourced_of_opened {u : Net} {setup : Setup} {now : Instant} {entries : List Entry}
    (h : Net.Opened setup now entries n) : u.Sourced url n where
  queue := by
    intro e he
    rw [h.queue] at he
    cases he
  buffer := by
    intro _ id e he
    rw [h.buffer] at he
    change (∅ : ExtTreeMap LogId Entry)[id]? = some e at he
    rw [ExtTreeMap.getElem?_empty] at he
    cases he

theorem Starts.traced (h : w.Starts) : w.Traced where
  good := h.good
  strides := h.strides
  nodes := by
    intro url n hn
    obtain ⟨setup, now, s, entries, -, hrows, hhistory, hr⟩ := h.opened url n hn
    exact sourced_of_opened (Net.opened_of_start hrows hhistory hr)
  packets := by
    intro p hp
    rw [h.packets] at hp
    cases hp
  answers := by
    intro a ha
    rw [h.answers] at ha
    cases ha

/-- A step of a task brings nothing new to push, and nothing new into the buffer of a follower. -/
theorem sourced_of_stride {u : Net} (h : u.Sourced url n) (hstride : n.Stride n') :
    u.Sourced url n' := by
  cases hstride with
  | stay => exact h
  | note hosts => exact ⟨h.queue, h.buffer⟩
  | enter phase => exact ⟨h.queue, h.buffer⟩
  | read id => exact ⟨h.queue, h.buffer⟩
  | drain => exact ⟨h.queue, fun hfollower id e he => h.buffer hfollower id e (PushBuffer.of_mem_drain he)⟩
  | apply entries =>
    obtain ⟨new, -, htook, -⟩ := @Log.ensures_applyReplicated n.log entries
    have hstanding : (n.onLog (Log.applyReplicated entries)).2.standing = n.standing := htook.standing
    refine ⟨h.queue, ?_⟩
    rw [hstanding]
    exact h.buffer
  | retarget master =>
    refine ⟨h.queue, ?_⟩
    intro _ id e he
    change (∅ : ExtTreeMap LogId Entry)[id]? = some e at he
    rw [ExtTreeMap.getElem?_empty] at he
    cases he
  | elect cutoff =>
    unfold Node.elect
    split
    · split
      · exact ⟨h.queue, nofun⟩
      · exact h
    · exact h

/-- A commit may be pushed, and is in the log. -/
theorem sourced_of_commit {u v : Net} (hu : u.Good anywhere) (huv : u.Grows v) (h : u.Sourced url n)
    (hn : u.node? url = some n) {now : Instant} {e : Entry} (hfits : e.Fits)
    (hroom : n.position + 1 ≠ 0) (hn' : v.node? url = some (n.commit now e).2) :
    v.Sourced url (n.commit now e).2 := by
  rcases Net.commit_cases now e hroom with
    ⟨committed, log, hafter, htook, hreserved, hmaster, hcommitted⟩ | hsame
  · obtain ⟨entries, hholds, -⟩ := (hu url n hn).log
    obtain ⟨hlog, -, -⟩ := Net.offer_frame { n with log := log } committed
    have hproper : ∀ f ∈ [committed], f.Proper := by
      intro f hf
      rw [List.mem_singleton.mp hf, hcommitted]
      exact ⟨Entry.reserved?_eq_none_iff.mp hreserved, (Entry.fits_congr rfl rfl).mpr hfits⟩
    have hthere : v.entryAt? url committed.id = some committed := by
      rw [Net.entryAt?_of_node? hn', hafter, hlog]
      exact (hholds.took htook hproper).entryAt?_eq_some_iff.mpr ⟨by simp, rfl⟩
    refine ⟨?_, ?_⟩
    · intro f hf
      rw [hafter] at hf
      rcases Net.mem_offer hf with hold | rfl
      · exact Net.entryAt?_grows (h.queue f hold) hu huv
      · exact hthere
    · intro hfollower
      have hisMaster : (n.commit now e).2.standing.isMaster = n.standing.isMaster := by
        rw [hafter, Node.standing, hlog]
        exact congrArg Standing.isMaster htook.standing
      cases hfollower.symm.trans (hisMaster.trans hmaster)
  · rw [hsame]
    exact h.grows hu huv

theorem Traced.sourced_after (h : w.Traced) (hadmits : w.Admits event)
    (hn' : (w.after event).net.node? url = some n') : (w.after event).net.Sourced url n' := by
  have hgrows := (h.good.kept (fun _ _ _ _ => trivial) hadmits).grows
  obtain ⟨n, hn, hturn⟩ := h.strides.turn hn'
  have hsourced := h.nodes url n hn
  cases hturn with
  | apart hapart =>
    refine Net.Sourced.grows ⟨?_, ?_⟩ h.good.net hgrows
    · exact fun e he => hsourced.queue e (hapart.queue e he)
    · intro hfollower id e he
      rw [hapart.master]
      rcases hapart.buffer id e he with hold | ⟨p, hp, accepted, hpush⟩
      · exact hsourced.buffer (hapart.isMaster.symm.trans hfollower) id e hold
      · have := h.packets p hp
        rw [hpush] at this
        exact this
  | outage outage hevent =>
    exact Net.Sourced.grows ⟨hsourced.queue, hsourced.buffer⟩ h.good.net hgrows
  | commit e hevent =>
    subst hevent
    exact sourced_of_commit h.good.net hgrows hsourced hn hadmits.1 (hadmits.2 n hn) hn'
  | restart setup hevent hurl hr =>
    obtain ⟨entries, hholds, -⟩ := (h.good.net url n hn).log
    exact sourced_of_opened (Net.opened_of_start hholds.rows hholds.history hr)
  | stride i task hevent htask hurl hstride =>
    exact (sourced_of_stride hsourced hstride).grows h.good.net hgrows

/-- What is sent by an event is an old message or a push of something that waits for it, if it is a push
at all. -/
theorem Traced.pushes_after (h : w.Traced) {p : Packet} (hp : p ∈ (w.after event).packets) :
    w.net.Pushes p.message := by
  cases hevent : event.task? with
  | none =>
    obtain ⟨more, hmore, hsent⟩ := (frame_after w event).packets
    rw [hmore] at hp
    rcases List.mem_append.mp hp with hp | hp
    · exact h.packets p hp
    · obtain ⟨n, hn, ⟨host, heq⟩ | ⟨e, he, heq⟩⟩ := hsent hevent p hp
      · rw [heq]
        trivial
      · rw [heq]
        exact (h.nodes p.sender n hn).queue e he
  | some i =>
    rcases h.strides.advanced hevent with hsame | ⟨task, -, hadvanced⟩
    · rw [hsame] at hp
      exact h.packets p hp
    · obtain ⟨more, hmore, hasks⟩ := hadvanced.packets
      rw [hmore] at hp
      rcases List.mem_append.mp hp with hp | hp
      · exact h.packets p hp
      · have hcommand : p.message.command ≠ .pushTransaction := (hasks p hp).2
        cases hm : p.message with
        | pushTransaction source e accepted =>
          rw [hm] at hcommand
          exact absurd rfl hcommand
        | _ => trivial

/-- Entries can be traced after every event. -/
theorem Traced.after (h : w.Traced) (hadmits : w.Admits event) : (w.after event).Traced := by
  have hkept := h.good.kept (fun _ _ _ _ => trivial) hadmits
  obtain ⟨more, hmore⟩ := packets_after w event
  exact {
    good := h.good.after (fun _ _ _ _ => trivial) hadmits
    strides := h.strides.after event
    nodes := fun url n hn => h.sourced_after hadmits hn
    packets := fun p hp => (h.pushes_after hp).grows h.good.net hkept.grows
    answers := by
      intro a ha
      have hanswer : ∃ p, w.packets[a.1]? = some p ∧ w.net.Tells p.peer p.message a.2 := by
        rcases answers_after w event a ha with hold | ⟨number, p, n, rfl, hp, hn, rfl⟩
        · exact h.answers a hold
        · exact ⟨p, hp, Net.tells_handle h.good.net hn w.net.now p.message _⟩
      obtain ⟨p, hp, htells⟩ := hanswer
      refine ⟨p, ?_, htells.grows h.good.net hkept.grows⟩
      rw [hmore, List.getElem?_append_left (List.getElem?_eq_some_iff.mp hp).1]
      exact hp }

/-- What may be heard of a message tells of the log of the peer. -/
theorem Traced.heard (h : w.Traced) {k : Nat} {p : Packet} (hp : w.packets[k]? = some p)
    {o : Outcome} {reply : Except Error Message} (hreply : heard? w.answers k o = some reply) :
    w.net.Tells p.peer p.message reply := by
  rcases heard?_eq_some hreply with ⟨error, -, rfl⟩ | hanswer
  · exact Net.Tells.failure error
  · obtain ⟨p', hp', htells⟩ := h.answers _ hanswer
    rw [hp] at hp'
    cases hp'
    exact htells

end World

end LogShipping
