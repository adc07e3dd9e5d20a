import LogShipping.Proofs.World.Serving

/-!
# The lifecycle brings in only what is vouched for

Every piece of lifecycle work keeps a good net good, whatever else happens meanwhile: it sends honest
messages only, and from honest answers it takes over entries that are backed and positions that are
reached. `Yields` says so of a piece of work together with a fact about its result; there is one rule
for each step that lifecycle work is made of, and one theorem for each function of the lifecycle.

The rules here are those of the steps: a call and what is heard of it, a look at the node, a change of
it, an application of entries. A rule asks for what the step needs and gives what the rest of the work
may rely on, so a function is gone through from front to back, and `Proofs.World.Lifecycle` does that.

What others do between two steps is bounded by `Net.backing` alone: nets stay good and logs grow.
Nothing else is assumed of them, neither how many there are nor what else they do to the node, so its
role, its tables and its phase are looked at anew wherever they matter.
-/

namespace LogShipping

open Std

namespace Net

/-- The logs of masters are not written to. -/
def Rests (u v : Net) : Prop :=
  ∀ url n, u.node? url = some n → n.standing.isMaster = true →
    ∃ n', v.node? url = some n' ∧ n'.position = n.position

/-- Nets stay good, logs grow, and all messages are honest. -/
def backing (origin : String → Prop) : Discipline where
  rely _ u v := u.Good origin ∧ v.Good origin ∧ u.Grows v
  acts _ u v := v.Good origin ∧ u.Grows v ∧ u.Rests v
  asks _ u _ m := u.Honest origin m
  hears _ u peer _ reply := u.HonestAnswer origin peer reply
  rely_refl h := ⟨h.2.1, h.2.1, Grows.refl _⟩
  rely_trans h h' := ⟨h.1, h'.2.1, h.2.2.trans h'.2.2⟩

/-- Work keeps nets good, and a fact holds of its result. -/
def Yields (origin : String → Prop) (url : String) {α : Type} (work : Work α)
    (P : Net → α → Prop) (u : Net) : Prop :=
  (backing origin).Keeps url work
    (fun r v => v.Good origin ∧ u.Grows v ∧ ∀ a, r = .ok a → P v a) u

variable {origin : String → Prop} {url : String} {u : Net} {α β : Type}

theorem rests_put {n n' : Node} (hn : u.node? url = some n)
    (h : n.standing.isMaster = true → n'.position = n.position) : u.Rests (u.put url n') := by
  intro other m hm hmaster
  rw [node?_put]
  by_cases heq : url = other
  · subst heq
    rw [hn] at hm
    cases hm
    exact ⟨n', if_pos rfl, h hmaster⟩
  · rw [if_neg heq]
    exact ⟨m, hm, rfl⟩

namespace Yields

open Discipline

/-! ## Rules -/

theorem pure {a : α} {P : Net → α → Prop} (h : ∀ v, v.Good origin → u.Grows v → P v a) :
    Yields origin url (Pure.pure a) P u := by
  apply Keeps.pure
  rintro v ⟨-, hv, huv⟩
  refine ⟨hv, huv, ?_⟩
  intro b hb
  cases hb
  exact h v hv huv

theorem fail {error : Error} {P : Net → α → Prop} : Yields origin url (throw error) P u := by
  apply Keeps.fail
  rintro v ⟨-, hv, huv⟩
  exact ⟨hv, huv, fun a ha => nomatch ha⟩

theorem bind {work : Work α} {next : α → Work β} {P : Net → α → Prop} {R : Net → β → Prop}
    (h : Yields origin url work P u)
    (hnext : ∀ v a, v.Good origin → u.Grows v → P v a → Yields origin url (next a) R v) :
    Yields origin url (work >>= next) R u := by
  refine Keeps.bind (Keeps.mono h ?_)
  rintro r v ⟨hv, huv, hr⟩
  cases r with
  | error error => exact ⟨hv, huv, fun b hb => nomatch hb⟩
  | ok a =>
    refine Keeps.mono (hnext v a hv huv (hr a rfl)) ?_
    rintro r w ⟨hw, hvw, hr⟩
    exact ⟨hw, huv.trans hvw, hr⟩

theorem outcome {work : Work α} {P : Net → α → Prop} (h : Yields origin url work P u) :
    Yields origin url (Work.outcome work) (fun v r => ∀ a, r = .ok a → P v a) u := by
  refine Keeps.outcome (Keeps.mono h ?_)
  rintro r v ⟨hv, huv, hr⟩
  refine ⟨hv, huv, ?_⟩
  rintro r' hr'
  cases hr'
  exact hr

/-- A step on the node that is admissible, and leaves the log alone on a master. -/
theorem onNode {work : Instant → Node → α × Node} {P : Net → α → Prop}
    (h : ∀ v n, v.Good origin → u.Grows v → v.node? url = some n →
      Admissible origin v n (work v.now n).2 ∧
        (n.standing.isMaster = true → (work v.now n).2.position = n.position) ∧
        ∀ w, w.Good origin → v.Grows w → P w (work v.now n).1) :
    Yields origin url (Work.onNode work) P u := by
  apply Keeps.onNode
  rintro v n ⟨-, hv, huv⟩ hn
  obtain ⟨hstep, hrests, hP⟩ := h v n hv huv hn
  obtain ⟨hgrows, hgood⟩ := hv.step hn hstep
  refine ⟨⟨hgood, hgrows, rests_put hn hrests⟩, ?_⟩
  rintro w ⟨-, hw, hgrowsw⟩
  refine ⟨hw, huv.trans (hgrows.trans hgrowsw), ?_⟩
  intro a ha
  cases ha
  exact hP w hw (hgrows.trans hgrowsw)

theorem inspect {look : Node → α} {P : Net → α → Prop}
    (h : ∀ v n w, v.Good origin → u.Grows v → v.node? url = some n → w.Good origin → v.Grows w →
      P w (look n)) :
    Yields origin url (Work.inspect look) P u := by
  apply onNode
  intro v n hv huv hn
  have hnode := hv url n hn
  exact ⟨hnode.admissible rfl rfl rfl rfl hnode.hosts hnode.buffer fun _ h => h, fun _ => rfl,
    fun w hw hvw => h v n w hv huv hn hw hvw⟩

theorem change {f : Instant → Node → Node}
    (h : ∀ v n, v.Good origin → u.Grows v → v.node? url = some n →
      Admissible origin v n (f v.now n) ∧ (f v.now n).position = n.position) :
    Yields origin url (Work.change f) (fun _ _ => True) u := by
  apply onNode
  intro v n hv huv hn
  exact ⟨(h v n hv huv hn).1, fun _ => (h v n hv huv hn).2, fun _ _ _ => trivial⟩

theorem enter (phase : Phase) : Yields origin url (Work.enter phase) (fun _ _ => True) u := by
  apply change
  intro v n hv _ hn
  have hnode := hv url n hn
  exact ⟨hnode.admissible rfl rfl rfl rfl hnode.hosts hnode.buffer fun _ h => h, rfl⟩

theorem clock : Yields origin url Work.clock (fun _ _ => True) u := by
  apply onNode
  intro v n hv _ hn
  have hnode := hv url n hn
  exact ⟨hnode.admissible rfl rfl rfl rfl hnode.hosts hnode.buffer fun _ h => h, fun _ => rfl,
    fun _ _ _ => trivial⟩

/-- Applying entries that are backed. -/
theorem apply {entries : List Entry} (h : ∀ e ∈ entries, u.Backed origin e) :
    Yields origin url (Work.onLog (Log.applyReplicated entries)) (fun _ _ => True) u := by
  apply Keeps.onLog
  rintro v n ⟨-, hv, huv⟩ hn
  have hnode := hv url n hn
  obtain ⟨new, hsub, htook, hmaster, -⟩ := @Log.ensures_applyReplicated n.log entries
  have hbacked : ∀ e ∈ new, v.Backed origin e := fun e he => (h e (hsub.subset he)).grows huv
  have hposition : n.position.toNat ≤
      (n.onLog (Log.applyReplicated entries)).2.position.toNat := by
    have := htook.position
    change (n.onLog (Log.applyReplicated entries)).2.position.toNat = n.position.toNat + _ at this
    omega
  have hstep : Admissible origin v n (n.onLog (Log.applyReplicated entries)).2 := {
    self := congrArg Standing.self htook.standing
    own := rfl
    log := ⟨new, hbacked, fun es hes => hes.took htook fun e he => (hbacked e he).proper⟩
    hosts := hnode.hosts
    buffer := hnode.buffer
    queue := by
      intro e he
      obtain ⟨he, hle⟩ := hnode.queue e he
      refine ⟨he, UInt64.le_iff_toNat_le.mpr ?_⟩
      have := UInt64.le_iff_toNat_le.mp hle
      omega }
  obtain ⟨hgrows, hgood⟩ := hv.step hn hstep
  refine ⟨⟨hgood, hgrows, rests_put hn ?_⟩, ?_⟩
  · intro hisMaster
    apply UInt64.toNat_inj.mp
    have := htook.position
    rw [hmaster hisMaster] at this
    exact this
  · rintro w ⟨-, hw, hgrowsw⟩
    exact ⟨hw, huv.trans (hgrows.trans hgrowsw), fun _ _ => trivial⟩

/-- Reading an entry from the log. -/
theorem readOne (id : LogId) :
    Yields origin url (Work.onLog (Log.onStore (Log.readOne id))) (fun _ _ => True) u := by
  apply Keeps.onLog
  rintro v n ⟨-, hv, huv⟩ hn
  have hnode := hv url n hn
  obtain ⟨entries, hholds, -⟩ := hnode.log
  obtain ⟨haged, -⟩ := Log.ensures_readOne hholds.rows hholds.history id
  have hstep : Admissible origin v n (n.onLog (Log.onStore (Log.readOne id))).2 :=
    hnode.admissible rfl haged.1 rfl rfl hnode.hosts hnode.buffer fun _ h => h
  obtain ⟨hgrows, hgood⟩ := hv.step hn hstep
  refine ⟨⟨hgood, hgrows, rests_put hn fun _ => rfl⟩, ?_⟩
  rintro w ⟨-, hw, hgrowsw⟩
  exact ⟨hw, huv.trans (hgrows.trans hgrowsw), fun _ _ => trivial⟩

theorem pause (duration : UInt64) :
    Yields origin url (Work.pause duration) (fun _ _ => True) u := by
  apply Keeps.pause
  rintro v stopped ⟨-, hv, huv⟩
  exact ⟨hv, huv, fun _ _ => trivial⟩

theorem call {peer : String} {m : Message}
    (hm : ∀ v, v.Good origin → u.Grows v → v.Honest origin m) :
    Yields origin url (Work.call peer m)
      (fun v reply => v.Reached peer 0 ∧ v.Honest origin reply ∧ v.Own peer reply) u := by
  apply Keeps.call
  · rintro v ⟨-, hv, huv⟩
    exact hm v hv huv
  · rintro v reply ⟨-, hv, huv⟩ hreply w ⟨-, hw, hvw⟩
    exact ⟨hw, huv.trans hvw, fun a ha => (HonestAnswer.expect hreply).grows hv hvw a ha⟩

theorem callAll {peers : List String} {m : Message}
    (hm : ∀ v, v.Good origin → u.Grows v → v.Honest origin m) :
    Yields origin url (Work.callAll peers m)
      (fun v replies => List.Forall₂ (v.HonestAnswer origin) peers replies) u := by
  apply Keeps.callAll
  · rintro v ⟨-, hv, huv⟩ peer -
    exact hm v hv huv
  · rintro v replies ⟨-, hv, huv⟩ hreplies w ⟨-, hw, hvw⟩
    refine ⟨hw, huv.trans hvw, ?_⟩
    intro a ha
    cases ha
    rw [List.forall₂_map_right_iff]
    refine hreplies.imp ?_
    intro peer reply hreply
    exact (HonestAnswer.expect hreply).grows hv hvw

theorem iterate {τ ρ : Type} {body : τ → Work (τ ⊕ ρ)} {start : τ}
    (h : ∀ t v, v.Good origin → u.Grows v → Yields origin url (body t) (fun _ _ => True) v) :
    Yields origin url (Work.iterate body start) (fun _ _ => True) u := by
  refine Keeps.iterate (fun _ v => v.Good origin ∧ u.Grows v) ?_ ?_
  · rintro v ⟨-, hv, huv⟩
    exact ⟨hv, huv⟩
  · rintro t v ⟨hv, huv⟩
    refine Keeps.mono (h t v hv huv) ?_
    rintro r w ⟨hw, hvw, -⟩
    match r with
    | .ok (.inl next) => exact ⟨hw, huv.trans hvw⟩
    | .ok (.inr result) => exact ⟨hw, huv.trans hvw, fun _ _ => trivial⟩
    | .error error => exact ⟨hw, huv.trans hvw, fun _ h => nomatch h⟩

end Yields

end Net

end LogShipping
