import LogShipping.Proofs.World.Succession

/-!
# Work that changes no role

Most of what a node does while it tails changes neither its role nor its master. `Succession.Calm` says
so of a piece of work, together with a fact about what comes out of it; there is one rule for each step
that such work is made of. Calm work is still if it does not move the position of a follower either: so
it is with all that a node does between a pull that failed and the election to which the failure leads
(`Calm.next_still`), and the position for which the pull was made is the one with which it elects.

Calm work keeps to the terms of an orderly succession whatever comes out of it (`Calm.keeps`), and so
the functions of the lifecycle that are long, pulling, probing and catching up, are gone through here
once and do not come up again. What remains for `Proofs.World.Tailing` is the few steps that do change a
role.

Others may act between any two steps, also on the node itself: they serve its peers and note hosts. They
are trusted with no more than what one live task for each node leaves them.
-/

namespace LogShipping

open Std

namespace Succession

open Discipline

variable {S : Succession} {url : String} {u v w : Net} {α β : Type} {still : Prop}

/-! ## Later nets -/

variable (S) in
/-- A later net, in which the node has the role and the master that it had. -/
def After (still : Prop) (url : String) (u v : Net) : Prop :=
  S.Later url u v ∧ ∀ n, u.node? url = some n → ∃ n', v.node? url = some n' ∧ Steady still n n'

variable (S) in
/-- Work that changes no role, and a fact about what comes out of it. -/
def Calm (still : Prop) (url : String) (work : Work α) (Q : Except Error α → Net → Prop) (u : Net) :
    Prop :=
  S.discipline.Keeps url work (fun r v => S.After still url u v ∧ Q r v) u

/-- The work succeeds, and a fact holds of its result. -/
def Gives (P : Net → α → Prop) : Except Error α → Net → Prop
  | .ok a, v => P v a
  | .error _, _ => False

theorem After.refl (h : S.After still url u v) : S.After still url v v :=
  ⟨h.1.here, fun n hn => ⟨n, hn, Steady.refl n⟩⟩

theorem After.trans (h : S.After still url u v) (h' : S.After still url v w) :
    S.After still url u w := by
  refine ⟨h.1.trans h'.1, ?_⟩
  intro n hn
  obtain ⟨n', hn', hsteady⟩ := h.2 n hn
  obtain ⟨n'', hn'', hsteady'⟩ := h'.2 n' hn'
  exact ⟨n'', hn'', hsteady.trans hsteady'⟩

/-- Still work is calm work. -/
theorem After.relax (h : S.After True url u v) : S.After still url u v := by
  refine ⟨h.1, ?_⟩
  intro n hn
  obtain ⟨n', hn', hsteady⟩ := h.2 n hn
  exact ⟨n', hn', hsteady.mono fun _ => trivial⟩

theorem after_of_rely (h : S.discipline.rely url u v) : S.After still url u v := by
  refine ⟨h.1, ?_⟩
  intro n hn
  obtain ⟨n', hn', hunmoved⟩ := h.2 n hn
  exact ⟨n', hn', steady_of_unmoved hunmoved⟩

/-- What the node is later, after a step of its own and whatever followed. -/
theorem after_put {n n' : Node} (hn : u.node? url = some n) (hstep : S.Step still u url n n')
    (h : S.discipline.rely url (u.put url n') w) : S.After still url u w ∧
      ∃ m, w.node? url = some m ∧ n'.Unmoved m := by
  obtain ⟨m, hm, hunmoved⟩ := h.2 n' (by rw [Net.node?_put, if_pos rfl])
  refine ⟨⟨?_, ?_⟩, m, hm, hunmoved⟩
  · exact {
      good := h.1.good
      climbs := (Net.climbs_put hn hstep.climbs).trans h.1.climbs
      ordered := h.1.ordered }
  · intro n₀ hn₀
    rw [hn] at hn₀
    cases hn₀
    exact ⟨m, hm, hstep.toSteady.trans (steady_of_unmoved hunmoved)⟩

theorem Follows.after {master : String} (h : Follows url master u) (huv : S.After still url u v) :
    Follows url master v := by
  obtain ⟨n, hn, hfollower, hmaster⟩ := h
  obtain ⟨n', hn', hsteady⟩ := huv.2 n hn
  exact ⟨n', hn', hsteady.isMaster.trans hfollower, hsteady.master.trans hmaster⟩

/-! ## Rules -/

namespace Calm

variable {Q : Except Error α → Net → Prop}

theorem pure {a : α} (h : ∀ v, S.After still url u v → Q (.ok a) v) :
    S.Calm still url (Pure.pure a) Q u := by
  apply Keeps.pure
  intro v huv
  exact ⟨after_of_rely huv, h v (after_of_rely huv)⟩

theorem fail {error : Error} (h : ∀ v, S.After still url u v → Q (.error error) v) :
    S.Calm still url (throw error) Q u := by
  apply Keeps.fail
  intro v huv
  exact ⟨after_of_rely huv, h v (after_of_rely huv)⟩

theorem relax {work : Work α} (h : S.Calm True url work Q u) : S.Calm still url work Q u :=
  Keeps.mono h fun _ _ hr => ⟨hr.1.relax, hr.2⟩

/-- Calm work keeps to the terms, whatever comes out of it. -/
theorem keeps {work : Work α} (h : S.Calm True url work Q u) :
    S.discipline.Keeps url work (fun _ _ => True) u :=
  Keeps.mono h fun _ _ _ => trivial

/-- After work that changes no role, any other work. -/
theorem next {work : Work α} {rest : α → Work β} {R : Except Error β → Net → Prop}
    (h : S.Calm still url work Q u)
    (hok : ∀ v a, S.After still url u v → Q (.ok a) v → S.discipline.Keeps url (rest a) R v)
    (herror : ∀ v error, S.After still url u v → Q (.error error) v → R (.error error) v) :
    S.discipline.Keeps url (work >>= rest) R u := by
  refine Keeps.bind (Keeps.mono h ?_)
  rintro r v ⟨hafter, hr⟩
  cases r with
  | ok a => exact hok v a hafter hr
  | error error => exact herror v error hafter hr

theorem bind {work : Work α} {rest : α → Work β} {R : Except Error β → Net → Prop}
    (h : S.Calm still url work Q u)
    (hok : ∀ v a, S.After still url u v → Q (.ok a) v → S.Calm still url (rest a) R v)
    (herror : ∀ v error, S.After still url u v → Q (.error error) v → R (.error error) v) :
    S.Calm still url (work >>= rest) R u := by
  refine next h ?_ fun v error hafter hr => ⟨hafter, herror v error hafter hr⟩
  intro v a hafter hr
  refine Keeps.mono (hok v a hafter hr) ?_
  rintro r w ⟨hlater, hr⟩
  exact ⟨hafter.trans hlater, hr⟩

/-- After still work, calm work: where the still work fails, the position has not moved. -/
theorem next_still {work : Work α} {rest : α → Work β} {R : Except Error β → Net → Prop}
    (h : S.Calm True url work Q u)
    (hok : ∀ v a, S.After True url u v → Q (.ok a) v → S.Calm still url (rest a) R v)
    (herror : ∀ v error, S.After True url u v → Q (.error error) v → R (.error error) v) :
    S.Calm still url (work >>= rest) R u := by
  refine next h ?_ fun v error hafter hr => ⟨hafter.relax, herror v error hafter hr⟩
  intro v a hafter hr
  refine Keeps.mono (hok v a hafter hr) ?_
  rintro r w ⟨hlater, hr⟩
  exact ⟨hafter.relax.trans hlater, hr⟩

/-- After work that cannot fail. -/
theorem seq {work : Work α} {rest : α → Work β} {P : Net → α → Prop}
    {R : Except Error β → Net → Prop} (h : S.Calm still url work (Gives P) u)
    (hok : ∀ v a, S.After still url u v → P v a → S.Calm still url (rest a) R v) :
    S.Calm still url (work >>= rest) R u :=
  bind h hok fun _ _ _ hr => hr.elim

theorem outcome {work : Work α} (h : S.Calm still url work Q u) :
    S.Calm still url (Work.outcome work) (Gives fun v r => Q r v) u :=
  Keeps.outcome h

theorem onNode {work : Instant → Node → α × Node} {P : Net → α → Prop}
    (h : ∀ v n, S.After still url u v → v.node? url = some n →
      S.Step still v url n (work v.now n).2 ∧
        ∀ w, S.After still url v w → P w (work v.now n).1) :
    S.Calm still url (Work.onNode work) (Gives P) u := by
  apply Keeps.onNode
  intro v n huv hn
  obtain ⟨hstep, hP⟩ := h v n (after_of_rely huv) hn
  refine ⟨fun hordered _ => hordered.step hn hstep, ?_⟩
  intro w hw
  have hafter := (after_put hn hstep hw).1
  exact ⟨(after_of_rely huv).trans hafter, hP w hafter⟩

theorem inspect {look : Node → α} {P : Net → α → Prop}
    (h : ∀ v n, S.After still url u v → v.node? url = some n →
      ∀ w, S.After still url v w → P w (look n)) :
    S.Calm still url (Work.inspect look) (Gives P) u :=
  onNode fun v n huv hn => ⟨Step.refl n, h v n huv hn⟩

/-- A look at the node whose result does not matter. -/
theorem look {f : Node → α} : S.Calm still url (Work.inspect f) (Gives fun _ _ => True) u :=
  inspect fun _ _ _ _ _ _ => trivial

theorem change {f : Instant → Node → Node}
    (h : ∀ v n, S.After still url u v → v.node? url = some n → S.Step still v url n (f v.now n)) :
    S.Calm still url (Work.change f) (Gives fun _ _ => True) u :=
  onNode fun v n huv hn => ⟨h v n huv hn, fun _ _ => trivial⟩

/-- A change of the host table alone. -/
theorem note {f : Instant → Node → HostTable} :
    S.Calm still url (Work.change fun now n => { n with hosts := f now n })
      (Gives fun _ _ => True) u :=
  change fun _ _ _ _ => Step.of_hosts _

theorem enter (phase : Phase) : S.Calm still url (Work.enter phase) (Gives fun _ _ => True) u :=
  change fun _ _ _ _ => Step.of_log rfl fun _ _ h => h

theorem clock : S.Calm still url Work.clock (Gives fun _ _ => True) u :=
  onNode fun _ n _ _ => ⟨Step.refl n, fun _ _ => trivial⟩

theorem call {peer : String} {m : Message} {R : Except Error Message → Net → Prop}
    (hasks : ∀ v, S.After still url u v → S.Asks url v peer m)
    (h : ∀ v reply, S.After still url u v → v.HonestAnswer anywhere peer reply →
      (S.remaining peer → Follows url S.former v ∨ S.Told url m reply) → ∀ w, S.After still url v w →
        R (reply.bind (Message.expect m.command)) w) :
    S.Calm still url (Work.call peer m) R u := by
  apply Keeps.call
  · exact fun v huv => hasks v (after_of_rely huv)
  · rintro v reply huv ⟨hhonest, htold⟩ w hvw
    exact ⟨(after_of_rely huv).trans (after_of_rely hvw),
      h v reply (after_of_rely huv) hhonest htold w (after_of_rely hvw)⟩

theorem callAll {peers : List String} {m : Message}
    (hasks : ∀ v, S.After still url u v → ∀ peer ∈ peers, S.Asks url v peer m) :
    S.Calm still url (Work.callAll peers m) (Gives fun _ _ => True) u := by
  apply Keeps.callAll
  · exact fun v huv => hasks v (after_of_rely huv)
  · exact fun v replies huv _ w hvw =>
      ⟨(after_of_rely huv).trans (after_of_rely hvw), trivial⟩

theorem pause (duration : UInt64) :
    S.Calm still url (Work.pause duration) (Gives fun _ _ => True) u := by
  apply Keeps.pause
  intro v stopped huv
  exact ⟨after_of_rely huv, trivial⟩

end Calm

end Succession

end LogShipping
