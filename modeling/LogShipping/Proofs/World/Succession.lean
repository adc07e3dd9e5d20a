import LogShipping.Proofs.World.Strides

/-!
# Nodes left to themselves

When a master answers nobody any more, each of the other nodes sooner or later stops following it: it
takes over, or it follows another one of them from then on. A `Succession` names these nodes, how far
each of them gets as long as it follows the former master, and the one that may take over, which is the
best of them by this measure. In an orderly net no other one has taken over, and a node that follows
another one holds nothing that this one lacks, unless it has not gone beyond its own measure
(`Succession.Orderly`).

A node takes over by an election that it wins in its own table. The election tells something about the
others only if the table knows how far they get: it must have heard of the best of them since the cutoff,
and that it gets as far as it does (`Succession.Informed`). The terms here ask for no more than that. They
say nothing about clocks, about what else tables hold, or about when a node began to tail, and they leave a
node alone as long as it follows the former master: only one that has turned away relies on the others
being in order (`Succession.Later`). So an activity may be judged from a moment on at which nothing was
in order yet.

What is a matter of the whole world, that promotions are informed and that positions stay within the
measure, is left to `Proofs.World.Failover`.
-/

namespace LogShipping

open Std

/-- The nodes that a master leaves to themselves. -/
structure Succession where
  /-- The former master. -/
  former : String
  /-- The other nodes. -/
  remaining : String → Prop
  /-- How far each of them gets as long as it follows the former master. -/
  final : String → LogId
  /-- The one that may take over. -/
  champion : String
  apart : ∀ url, remaining url → url ≠ former
  chosen : ∀ url, remaining url → remaining champion
  leads : ∀ url, remaining url → final url ≤ final champion ∧
    (final url = final champion → (compare champion url).isLE = true)

namespace Succession

variable (S : Succession)

/-! ## Orderly nets -/

/-- A node follows another one of the remaining nodes. What it holds does not go beyond that one, or not
beyond where it has got by following the former master, and what it has buffered is from that one. -/
structure Trails (net : Net) (url : String) (n : Node) : Prop where
  remaining : S.remaining n.standing.master
  position : n.position ≤ S.final url ∨ net.Reached n.standing.master n.position
  buffer : ∀ (id : LogId) e, n.buffer.entries[id]? = some e → net.Reached n.standing.master e.id

/-- What holds of each of the remaining nodes. -/
structure Member (net : Net) (url : String) (n : Node) : Prop where
  answers : ∀ call, n.log.store.Answers call
  lone : n.standing.isMaster = true → url = S.champion
  target : n.standing.isMaster = false →
    n.standing.master = S.former ∨ S.Trails net url n

/-- A net in which nobody but the champion has taken over. -/
structure Orderly (net : Net) : Prop where
  known : ∀ url n, net.node? url = some n → url = S.former ∨ S.remaining url
  there : ∀ url, S.remaining url → ∃ n, net.node? url = some n
  member : ∀ url n, S.remaining url → net.node? url = some n → S.Member net url n

/-- As long as they follow the former master, nodes do not get beyond where they get at last. -/
def Within (net : Net) : Prop :=
  ∀ url n, S.remaining url → net.node? url = some n → n.standing.isMaster = false →
    n.standing.master = S.former → n.position ≤ S.final url

/-- An orderly net in which nodes are where they may be. -/
structure Ordered (net : Net) : Prop extends S.Orderly net where
  within : S.Within net

/-- If a node other than the champion is promoted, it has won in its table at some cutoff, and that table
has heard of the champion since then, at no less than the position to which it gets. -/
def Informed (url : String) (u v : Net) : Prop :=
  url ≠ S.champion → ∀ n n', u.node? url = some n → v.node? url = some n' →
    n.standing.isMaster = false → n'.standing.isMaster = true →
    ∃ cutoff winner h, n.hosts.winner? cutoff = some winner ∧ winner.url = url ∧
      n.hosts.host? S.champion = some h ∧ cutoff ≤ h.lastSeen ∧ S.final S.champion ≤ h.logPosition

/-! ## Steps -/

/-- A step that changes neither the role of a node nor its master, nor, if it is a still one, the position
of a follower. -/
structure Steady (still : Prop) (n n' : Node) : Prop where
  isMaster : n'.standing.isMaster = n.standing.isMaster
  master : n'.standing.master = n.standing.master
  position : still → n.standing.isMaster = false → n'.position = n.position

/-- A steady step that leaves an orderly net orderly. -/
structure Step (still : Prop) (net : Net) (url : String) (n n' : Node) : Prop
    extends Steady still n n' where
  climbs : n.position ≤ n'.position
  answers : ∀ call, n.log.store.Answers call → n'.log.store.Answers call
  trails : n.standing.isMaster = false → S.Trails net url n → S.Trails net url n'

variable {S} {u v w : Net} {url : String} {n n' n'' : Node} {still : Prop}

theorem Steady.refl (n : Node) : Steady still n n := ⟨rfl, rfl, fun _ _ => rfl⟩

theorem Steady.trans (h : Steady still n n') (h' : Steady still n' n'') : Steady still n n'' where
  isMaster := h'.isMaster.trans h.isMaster
  master := h'.master.trans h.master
  position := fun hstill hfollower =>
    (h'.position hstill (h.isMaster.trans hfollower)).trans (h.position hstill hfollower)

theorem Steady.mono {still' : Prop} (h : Steady still n n') (himp : still' → still) :
    Steady still' n n' :=
  ⟨h.isMaster, h.master, fun hstill => h.position (himp hstill)⟩

/-- What others leave alone is steady. -/
theorem steady_of_unmoved (h : n.Unmoved n') : Steady still n n' :=
  ⟨h.isMaster, h.master, fun _ => h.position⟩

/-- A step that leaves the position alone and buffers nothing that goes beyond the node followed. -/
theorem Step.of_frame (hisMaster : n'.standing.isMaster = n.standing.isMaster)
    (hmaster : n'.standing.master = n.standing.master) (hposition : n'.position = n.position)
    (hanswers : ∀ call, n.log.store.Answers call → n'.log.store.Answers call)
    (hbuffer : ∀ (id : LogId) e, n'.buffer.entries[id]? = some e →
      n.buffer.entries[id]? = some e ∨ u.Reached n.standing.master e.id) :
    S.Step still u url n n' where
  isMaster := hisMaster
  master := hmaster
  position := fun _ _ => hposition
  climbs := by rw [hposition]; exact UInt64.le_refl _
  answers := hanswers
  trails := by
    intro _ htrails
    exact {
      remaining := by rw [hmaster]; exact htrails.remaining
      position := by rw [hmaster, hposition]; exact htrails.position
      buffer := by
        intro id e he
        rw [hmaster]
        rcases hbuffer id e he with hold | hnew
        · exact htrails.buffer id e hold
        · exact hnew }

/-- A step that changes neither the log nor the standing, and buffers nothing. -/
theorem Step.of_log (hlog : n'.log = n.log)
    (hbuffer : ∀ (id : LogId) e, n'.buffer.entries[id]? = some e → n.buffer.entries[id]? = some e) :
    S.Step still u url n n' :=
  Step.of_frame (congrArg (·.standing.isMaster) hlog) (congrArg (·.standing.master) hlog)
    (congrArg Log.position hlog) (fun _ h => by rw [hlog]; exact h)
    fun id e he => Or.inl (hbuffer id e he)

theorem Step.refl (n : Node) : S.Step still u url n n := Step.of_log rfl fun _ _ h => h

/-- A step on the host table alone. -/
theorem Step.of_hosts (hosts : HostTable) : S.Step still u url n { n with hosts := hosts } :=
  Step.of_log rfl fun _ _ h => h

theorem Trails.climbs (h : S.Trails u url n) (huv : u.Climbs v) : S.Trails v url n where
  remaining := h.remaining
  position := h.position.imp_right fun hreached => hreached.climbs huv
  buffer := fun id e he => (h.buffer id e he).climbs huv

theorem Member.climbs (h : S.Member u url n) (huv : u.Climbs v) : S.Member v url n where
  answers := h.answers
  lone := h.lone
  target := fun hfollower => (h.target hfollower).imp_right fun htrails => htrails.climbs huv

theorem Member.step (h : S.Member u url n) (hstep : S.Step still u url n n') :
    S.Member u url n' where
  answers := fun call => hstep.answers call (h.answers call)
  lone := fun hmaster => h.lone (hstep.isMaster.symm.trans hmaster)
  target := by
    intro hfollower
    rw [hstep.isMaster] at hfollower
    rw [hstep.master]
    exact (h.target hfollower).imp_right (hstep.trails hfollower)

/-- An orderly net stays orderly where positions climb and one node was replaced by a member. -/
theorem Orderly.put (h : S.Orderly u) (hn : u.node? url = some n)
    (hclimbs : n.position ≤ n'.position) (hmember : S.remaining url → S.Member u url n') :
    S.Orderly (u.put url n') where
  known := by
    intro other m hm
    rw [Net.node?_put] at hm
    by_cases heq : url = other
    · subst heq
      exact h.known url n hn
    · rw [if_neg heq] at hm
      exact h.known other m hm
  there := by
    intro other hother
    rw [Net.node?_put]
    by_cases heq : url = other
    · exact ⟨n', if_pos heq⟩
    · rw [if_neg heq]
      exact h.there other hother
  member := by
    intro other m hother hm
    have hput := Net.climbs_put hn hclimbs
    rw [Net.node?_put] at hm
    by_cases heq : url = other
    · subst heq
      rw [if_pos rfl] at hm
      cases hm
      exact (hmember hother).climbs hput
    · rw [if_neg heq] at hm
      exact (h.member other m hother hm).climbs hput

theorem Orderly.step (h : S.Orderly u) (hn : u.node? url = some n)
    (hstep : S.Step still u url n n') : S.Orderly (u.put url n') :=
  h.put hn hstep.climbs fun hurl => (h.member url n hurl hn).step hstep

/-! ## Terms -/

/-- The node is no master, and follows a master. -/
def Follows (url master : String) (net : Net) : Prop :=
  ∃ n, net.node? url = some n ∧ n.standing.isMaster = false ∧ n.standing.master = master

variable (S) in
/-- A node asks another one of the remaining nodes for nothing that this one lacks, or it has not gone
beyond where it has got by following the former master. -/
def Asks (url : String) (net : Net) (peer : String) : Message → Prop
  | .readLog _ lastSeen _ _ => S.remaining peer →
      net.Reached peer lastSeen ∨ lastSeen ≤ S.final url
  | _ => True

variable (S) in
/-- What one of the remaining nodes answers to another one. -/
def Told (url : String) (m : Message) (reply : Except Error Message) : Prop :=
  match m with
  | .readLog _ lastSeen _ _ =>
    (∃ url lastSeen limit chunk, reply = .ok (.readLog url lastSeen limit chunk)) ∨
      lastSeen ≤ S.final url
  | _ => True

theorem Asks.climbs {peer : String} {m : Message} (h : S.Asks url u peer m) (huv : u.Climbs v) :
    S.Asks url v peer m := by
  cases m with
  | readLog reader lastSeen limit chunk =>
    exact fun hpeer => (h hpeer).imp_left fun hreached => hreached.climbs huv
  | _ => trivial

variable (S) in
/-- A later net, which is in order if the node no longer follows the former master. -/
structure Later (url : String) (u v : Net) : Prop where
  good : v.Good anywhere
  climbs : u.Climbs v
  ordered : ¬ Follows url S.former v → S.Ordered v

theorem Later.trans (h : S.Later url u v) (h' : S.Later url v w) : S.Later url u w where
  good := h'.good
  climbs := h.climbs.trans h'.climbs
  ordered := h'.ordered

theorem Later.here (h : S.Later url u v) : S.Later url v v where
  good := h.good
  climbs := Net.Climbs.refl v
  ordered := h.ordered

/-- Whom a follower follows is the former master, or one of the remaining nodes, which it trails. -/
theorem Later.trails (h : S.Later url u v) (hurl : S.remaining url) (hn : v.node? url = some n)
    (hfollower : n.standing.isMaster = false) (hmaster : S.remaining n.standing.master) :
    S.Trails v url n := by
  have hordered := h.ordered fun ⟨m, hm, _, hformer⟩ => by
    rw [hn] at hm
    cases hm
    exact S.apart _ hmaster hformer
  exact ((hordered.member url n hurl hn).target hfollower).resolve_left (S.apart _ hmaster)

variable (S) in
/-- On these terms the remaining nodes go on beside each other. A step that promotes a node leaves the
net in order if the node was informed. -/
def discipline : Discipline where
  rely url u v := S.Later url u v ∧ ∀ n, u.node? url = some n →
    ∃ n', v.node? url = some n' ∧ n.Unmoved n'
  acts url u v := S.Ordered u → S.Informed url u v → S.Orderly v
  asks url u peer m := S.Asks url u peer m
  hears url u peer m reply := u.HonestAnswer anywhere peer reply ∧
    (S.remaining peer → Follows url S.former u ∨ S.Told url m reply)
  rely_refl h := ⟨h.1.here, fun n hn => ⟨n, hn, .refl n⟩⟩
  rely_trans h h' := by
    refine ⟨h.1.trans h'.1, ?_⟩
    intro n hn
    obtain ⟨n', hn', hthere⟩ := h.2 n hn
    obtain ⟨n'', hn'', hthere'⟩ := h'.2 n' hn'
    exact ⟨n'', hn'', hthere.trans hthere'⟩

end Succession

end LogShipping
