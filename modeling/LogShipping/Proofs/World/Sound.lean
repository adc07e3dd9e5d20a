import LogShipping.World
import Mathlib.Data.List.Forall2

/-!
# Activities beside each other

How an activity is judged while others change the net between any two of its steps. A discipline says
what an activity relies on, what its own steps do, what it may send and what may come back; `Sound` is
the judgement that an activity keeps to it and ends only in a value and a net that fit. It is given by
recursion on the activity: each request to the surroundings holds for whatever the surroundings may do,
and a loop comes with an invariant of its rounds. Rules for sequences, loops and the steps of lifecycle
work build the judgement of a program from those of its parts.

This is rely and guarantee for one node at a time. What others do is a relation on nets that is
reflexive and transitive, so nobody counts how much of it happens between two steps, and what has been
shown of an activity goes on to hold while it happens (`Sound.stable`).

Disciplines differ in what they are about, backing, strides, agreement or succession, and each brings
rules of its own for pieces of work. The judgement is partial: an activity that goes on forever is sound
if each of its steps is. Steps are as large as the activity has them.
-/

namespace LogShipping

/-- The terms on which activities go on beside each other. -/
structure Discipline where
  /-- What may happen to the net between two steps of an activity of a node. -/
  rely : String → Net → Net → Prop
  /-- What one step of an activity of a node may do to the net. -/
  acts : String → Net → Net → Prop
  /-- What an activity of a node may send to a peer. -/
  asks : String → Net → String → Message → Prop
  /-- What may become of a message that a node sent to a peer. -/
  hears : String → Net → String → Message → Except Error Message → Prop
  rely_refl : ∀ {url : String} {u v : Net}, rely url u v → rely url v v
  rely_trans : ∀ {url : String} {u v w : Net}, rely url u v → rely url v w → rely url u w

namespace Discipline

/-- An activity of a node, begun in a net, keeps to the discipline, and where it ends the postcondition
holds. -/
def Sound (D : Discipline) (url : String) :
    {α : Type} → Activity Node α → (α → Net → Prop) → Net → Prop
  | _, .done value, Q, u => ∀ v, D.rely url u v → Q value v
  | _, .atomic work resume, Q, u => ∀ v n, D.rely url u v → v.node? url = some n →
      D.acts url v (v.put url (work v.now n).2) ∧
        Sound D url (resume (work v.now n).1) Q (v.put url (work v.now n).2)
  | _, .call peer m resume, Q, u => ∀ v, D.rely url u v → D.asks url v peer m ∧
      ∀ w reply, D.rely url v w → D.hears url w peer m reply → Sound D url (resume reply) Q w
  | _, .callAll peers m resume, Q, u => ∀ v, D.rely url u v → (∀ peer ∈ peers, D.asks url v peer m) ∧
      ∀ w replies, D.rely url v w → List.Forall₂ (fun peer => D.hears url w peer m) peers replies →
        Sound D url (resume replies) Q w
  | _, .pause _ resume, Q, u => ∀ v stopped, D.rely url u v → Sound D url (resume stopped) Q v
  | _, @Activity.loop _ _ τ _ body start resume, Q, u => ∃ I : τ → Net → Prop,
      (∀ v, D.rely url u v → I start v) ∧
      ∀ t v, I t v → Sound D url (body t)
        (fun result w =>
          match result with
          | .inl next => I next w
          | .inr value => Sound D url (resume value) Q w) v

variable {D : Discipline} {url : String} {α β : Type} {u v : Net}

/-! ## Rules for activities -/

/-- What holds of an activity goes on to hold while others act. -/
theorem Sound.stable {a : Activity Node α} {Q : α → Net → Prop} (h : D.Sound url a Q u)
    (huv : D.rely url u v) : D.Sound url a Q v := by
  cases a with
  | done value => exact fun w hvw => h w (D.rely_trans huv hvw)
  | atomic work resume => exact fun w n hvw hn => h w n (D.rely_trans huv hvw) hn
  | call peer m resume => exact fun w hvw => h w (D.rely_trans huv hvw)
  | callAll peers m resume => exact fun w hvw => h w (D.rely_trans huv hvw)
  | pause duration resume => exact fun w stopped hvw => h w stopped (D.rely_trans huv hvw)
  | loop body start resume =>
    obtain ⟨I, hstart, hround⟩ := h
    exact ⟨I, fun w hvw => hstart w (D.rely_trans huv hvw), hround⟩

theorem Sound.mono {a : Activity Node α} {Q R : α → Net → Prop} (h : D.Sound url a Q u)
    (hQR : ∀ value v, Q value v → R value v) : D.Sound url a R u := by
  induction a generalizing u with
  | done value => exact fun v huv => hQR value v (h v huv)
  | atomic work resume ih =>
    intro v n huv hn
    exact ⟨(h v n huv hn).1, ih _ (h v n huv hn).2 hQR⟩
  | call peer m resume ih =>
    intro v huv
    exact ⟨(h v huv).1, fun w reply hvw hreply => ih _ ((h v huv).2 w reply hvw hreply) hQR⟩
  | callAll peers m resume ih =>
    intro v huv
    exact ⟨(h v huv).1, fun w replies hvw hreplies => ih _ ((h v huv).2 w replies hvw hreplies) hQR⟩
  | pause duration resume ih =>
    intro v stopped huv
    exact ih _ (h v stopped huv) hQR
  | loop body start resume ihbody ih =>
    obtain ⟨I, hstart, hround⟩ := h
    refine ⟨I, hstart, ?_⟩
    intro t v ht
    apply ihbody t (hround t v ht)
    intro result w hresult
    cases result with
    | inl next => exact hresult
    | inr value => exact ih value hresult hQR

/-- One activity after another. -/
theorem Sound.bind {a : Activity Node α} {next : α → Activity Node β} {Q : β → Net → Prop}
    {R : α → Net → Prop} (h : D.Sound url a R u)
    (hnext : ∀ value v, (∀ w, D.rely url v w → R value w) → D.Sound url (next value) Q v) :
    D.Sound url (a.bind next) Q u := by
  induction a generalizing u with
  | done value => exact hnext value u h
  | atomic work resume ih =>
    intro v n huv hn
    exact ⟨(h v n huv hn).1, ih _ (h v n huv hn).2 hnext⟩
  | call peer m resume ih =>
    intro v huv
    exact ⟨(h v huv).1, fun w reply hvw hreply => ih _ ((h v huv).2 w reply hvw hreply) hnext⟩
  | callAll peers m resume ih =>
    intro v huv
    exact ⟨(h v huv).1, fun w replies hvw hreplies => ih _ ((h v huv).2 w replies hvw hreplies) hnext⟩
  | pause duration resume ih =>
    intro v stopped huv
    exact ih _ (h v stopped huv) hnext
  | loop body start resume _ ih =>
    obtain ⟨I, hstart, hround⟩ := h
    refine ⟨I, hstart, ?_⟩
    intro t v ht
    refine (hround t v ht).mono ?_
    intro result w hresult
    cases result with
    | inl next => exact hresult
    | inr value => exact ih value hresult hnext

/-- Before the first step it makes no difference whether others act. -/
theorem Sound.of_later {a : Activity Node α} {Q : α → Net → Prop}
    (h : ∀ v, D.rely url u v → D.Sound url a Q v) : D.Sound url a Q u := by
  cases a with
  | done value => exact fun v huv => h v huv v (D.rely_refl huv)
  | atomic work resume => exact fun v n huv hn => h v huv v n (D.rely_refl huv) hn
  | call peer m resume => exact fun v huv => h v huv v (D.rely_refl huv)
  | callAll peers m resume => exact fun v huv => h v huv v (D.rely_refl huv)
  | pause duration resume => exact fun v stopped huv => h v huv v stopped (D.rely_refl huv)
  | loop body start resume =>
    -- every later net has an invariant of its own; any of them will do
    refine ⟨fun t w => ∃ v, ∃ huv : D.rely url u v, (h v huv).choose t w, ?_, ?_⟩
    · intro v huv
      exact ⟨v, huv, (h v huv).choose_spec.1 v (D.rely_refl huv)⟩
    · rintro t w ⟨v, huv, ht⟩
      refine ((h v huv).choose_spec.2 t w ht).mono ?_
      intro result x hresult
      cases result with
      | inl next => exact ⟨v, huv, hresult⟩
      | inr value => exact hresult

/-- The first round of a loop, written out, is as sound as the loop. -/
theorem Sound.unfoldLoop {τ ρ : Type} {body : τ → Activity Node (τ ⊕ ρ)} {start : τ}
    {resume : ρ → Activity Node α} {Q : α → Net → Prop}
    (h : D.Sound url (.loop body start resume) Q u) :
    D.Sound url (Activity.unfoldLoop body start resume) Q u := by
  apply Sound.of_later
  intro v huv
  obtain ⟨I, hstart, hround⟩ := h
  refine (hround start v (hstart v huv)).bind ?_
  intro result w hresult
  cases result with
  | inl next => exact ⟨I, hresult, hround⟩
  | inr value => exact Sound.of_later hresult

/-! ## Rules for work -/

/-- Work of a node keeps to the discipline, and where it ends its outcome fits. -/
def Keeps (D : Discipline) (url : String) {α : Type} (work : Work α)
    (Q : Except Error α → Net → Prop) (u : Net) : Prop :=
  D.Sound url work.run Q u

namespace Keeps

open Work

theorem mono {work : Work α} {Q R : Except Error α → Net → Prop} (h : D.Keeps url work Q u)
    (hQR : ∀ r v, Q r v → R r v) : D.Keeps url work R u :=
  Sound.mono h hQR

theorem pure {a : α} {Q : Except Error α → Net → Prop} (h : ∀ v, D.rely url u v → Q (.ok a) v) :
    D.Keeps url (Pure.pure a) Q u := h

theorem fail {error : Error} {Q : Except Error α → Net → Prop}
    (h : ∀ v, D.rely url u v → Q (.error error) v) : D.Keeps url (throw error) Q u := h

theorem bind {work : Work α} {next : α → Work β} {Q : Except Error β → Net → Prop}
    (h : D.Keeps url work (fun r v =>
      match r with
      | .ok a => D.Keeps url (next a) Q v
      | .error error => Q (.error error) v) u) :
    D.Keeps url (work >>= next) Q u := by
  refine Sound.bind h ?_
  intro r v hr
  cases r with
  | ok a => exact Sound.of_later hr
  | error error => exact hr

theorem outcome {work : Work α} {Q : Except Error (Except Error α) → Net → Prop}
    (h : D.Keeps url work (fun r v => Q (.ok r) v) u) : D.Keeps url (Work.outcome work) Q u := by
  refine Sound.bind h ?_
  intro r v hr
  exact hr

theorem onNode {work : Instant → Node → α × Node} {Q : Except Error α → Net → Prop}
    (h : ∀ v n, D.rely url u v → v.node? url = some n →
      D.acts url v (v.put url (work v.now n).2) ∧
        ∀ w, D.rely url (v.put url (work v.now n).2) w → Q (.ok (work v.now n).1) w) :
    D.Keeps url (Work.onNode work) Q u := h

theorem onLog {work : LogWork α} {Q : Except Error α → Net → Prop}
    (h : ∀ v n, D.rely url u v → v.node? url = some n →
      D.acts url v (v.put url (n.onLog work).2) ∧
        ∀ w, D.rely url (v.put url (n.onLog work).2) w → Q (n.onLog work).1 w) :
    D.Keeps url (Work.onLog work) Q u := h

theorem call {peer : String} {m : Message} {Q : Except Error Message → Net → Prop}
    (hasks : ∀ v, D.rely url u v → D.asks url v peer m)
    (h : ∀ v reply, D.rely url u v → D.hears url v peer m reply →
      ∀ w, D.rely url v w → Q (reply.bind (Message.expect m.command)) w) :
    D.Keeps url (Work.call peer m) Q u := by
  intro v huv
  refine ⟨hasks v huv, ?_⟩
  intro w reply hvw hreply
  have hw := h w reply (D.rely_trans huv hvw) hreply
  cases reply with
  | ok answer => exact hw
  | error error => exact hw

theorem callAll {peers : List String} {m : Message}
    {Q : Except Error (List (Except Error Message)) → Net → Prop}
    (hasks : ∀ v, D.rely url u v → ∀ peer ∈ peers, D.asks url v peer m)
    (h : ∀ v replies, D.rely url u v →
      List.Forall₂ (fun peer => D.hears url v peer m) peers replies →
      ∀ w, D.rely url v w →
        Q (.ok (replies.map fun reply => reply.bind (Message.expect m.command))) w) :
    D.Keeps url (Work.callAll peers m) Q u := by
  intro v huv
  refine ⟨hasks v huv, ?_⟩
  intro w replies hvw hreplies
  exact h w replies (D.rely_trans huv hvw) hreplies

theorem pause {duration : UInt64} {Q : Except Error Bool → Net → Prop}
    (h : ∀ v stopped, D.rely url u v → Q (.ok stopped) v) :
    D.Keeps url (Work.pause duration) Q u := by
  intro v stopped huv w hvw
  exact h w stopped (D.rely_trans huv hvw)

/-- A loop keeps to the discipline if each of its rounds keeps an invariant. -/
theorem iterate {τ ρ : Type} {body : τ → Work (τ ⊕ ρ)} {start : τ} {Q : Except Error ρ → Net → Prop}
    (I : τ → Net → Prop) (hstart : ∀ v, D.rely url u v → I start v)
    (hround : ∀ t v, I t v → D.Keeps url (body t) (fun r w =>
      match r with
      | .ok (.inl next) => I next w
      | .ok (.inr result) => Q (.ok result) w
      | .error error => Q (.error error) w) v) :
    D.Keeps url (Work.iterate body start) Q u := by
  refine ⟨I, hstart, ?_⟩
  intro t v ht
  refine Sound.bind (hround t v ht) ?_
  intro r w hr
  match r with
  | .ok (.inl next) => exact hr
  | .ok (.inr result) => exact fun x hwx y hxy => hr y (D.rely_trans hwx hxy)
  | .error error => exact fun x hwx y hxy => hr y (D.rely_trans hwx hxy)

end Keeps

end Discipline

end LogShipping
