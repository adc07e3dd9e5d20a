import LogShipping.Store

/-!
# Calls on a store

`Ensures work s Q` says that work which starts in the state `s` ends in an outcome and a state of which
`Q` holds; it is taken apart along the steps of the work. Every call of a store is described once: it
answers from the rows, or it is refused because of an outage of that very call (`Store.Refused`), and
apart from a write it leaves a store that differs in the outage at most (`Store.Aged`). A call that is
let through brings an outage of its kind one call closer (`Store.Spent`).

Work always ends, so what is ensured is both that there is an outcome and what it is. Failure is an
outcome like any other, with a state of its own: no rule drops what a failed part has done.

An outage is of one kind of call, with a reason, after some calls that are spared. It stands for
whatever makes an engine report an error; it does not go away by itself, and it does not leave half a
batch behind. A process that dies in the middle of a batch is not described here but by the engine,
which is taken to keep batches whole across restarts.
-/

namespace LogShipping

open Std

/-! ## Outcomes of work -/

section Work

variable {σ α β : Type}

/-- What holds of the outcome of some work and of the state that it leaves. -/
def Ensures (work : ExceptT Error (StateM σ) α) (s : σ) (Q : Except Error α → σ → Prop) : Prop :=
  Q (work.run.run s).1 (work.run.run s).2

/-- Work that goes on with the result of other work runs from the state that the first part leaves. -/
theorem run_bind_work (work : ExceptT Error (StateM σ) α) (next : α → ExceptT Error (StateM σ) β)
    (s : σ) :
    (work >>= next).run.run s =
      match work.run.run s with
      | (.ok a, s') => (next a).run.run s'
      | (.error error, s') => (.error error, s') := by
  show (ExceptT.bindCont next (work.run.run s).1).run (work.run.run s).2 = _
  rcases work.run.run s with ⟨_ | _, s'⟩
  · rfl
  · rfl

/-- A result that is only converted leaves the state to the work. -/
theorem run_map_work (f : α → β) (work : ExceptT Error (StateM σ) α) (s : σ) :
    (f <$> work).run.run s = ((work.run.run s).1.map f, (work.run.run s).2) := by
  rw [← bind_pure_comp, run_bind_work]
  rcases work.run.run s with ⟨_ | _, s'⟩
  · rfl
  · rfl

/-- A handler takes over with the state that the failure left. -/
theorem run_tryCatch_work (work : ExceptT Error (StateM σ) α)
    (handler : Error → ExceptT Error (StateM σ) α) (s : σ) :
    (tryCatch work handler).run.run s =
      match work.run.run s with
      | (.ok a, s') => (.ok a, s')
      | (.error error, s') => (handler error).run.run s' := by
  show (_ : StateM σ _).run (work s).2 = match work s with
    | (.ok a, s') => (.ok a, s')
    | (.error error, s') => (handler error).run.run s'
  rcases work s with ⟨_ | _, s'⟩
  · rfl
  · rfl

namespace Ensures

theorem mono {work : ExceptT Error (StateM σ) α} {s : σ} {Q R : Except Error α → σ → Prop}
    (h : Ensures work s Q) (hQR : ∀ r s', Q r s' → R r s') : Ensures work s R :=
  hQR _ _ h

/-- Nothing is ensured of work that may come to anything. -/
theorem any (work : ExceptT Error (StateM σ) α) (s : σ) : Ensures work s fun _ _ => True := trivial

/-- Work has one outcome, of which all holds that is ensured of it. -/
theorem and {work : ExceptT Error (StateM σ) α} {s : σ} {Q R : Except Error α → σ → Prop}
    (hQ : Ensures work s Q) (hR : Ensures work s R) : Ensures work s fun r s' => Q r s' ∧ R r s' :=
  ⟨hQ, hR⟩

theorem pure {a : α} {s : σ} {Q : Except Error α → σ → Prop} (h : Q (.ok a) s) :
    Ensures (Pure.pure a) s Q := h

theorem fail {error : Error} {s : σ} {Q : Except Error α → σ → Prop} (h : Q (.error error) s) :
    Ensures (throw error) s Q := h

theorem read {s : σ} {Q : Except Error σ → σ → Prop} (h : Q (.ok s) s) : Ensures get s Q := h

theorem update {s : σ} {f : σ → σ} {Q : Except Error PUnit → σ → Prop} (h : Q (.ok ⟨⟩) (f s)) :
    Ensures (modify f) s Q := h

/-- Work that goes on with the result of other work: a failure of the first part is the outcome. -/
theorem bind {work : ExceptT Error (StateM σ) α} {next : α → ExceptT Error (StateM σ) β} {s : σ}
    {Q : Except Error β → σ → Prop}
    (h : Ensures work s fun r s' =>
      match r with
      | .ok a => Ensures (next a) s' Q
      | .error error => Q (.error error) s') :
    Ensures (work >>= next) s Q := by
  unfold Ensures at h ⊢
  rw [run_bind_work]
  rcases hw : work.run.run s with ⟨_ | a, s'⟩
  · rw [hw] at h
    exact h
  · rw [hw] at h
    exact h

theorem read_bind {next : σ → ExceptT Error (StateM σ) β} {s : σ} {Q : Except Error β → σ → Prop}
    (h : Ensures (next s) s Q) : Ensures (get >>= next) s Q := h

theorem write_bind {next : PUnit → ExceptT Error (StateM σ) β} {s t : σ}
    {Q : Except Error β → σ → Prop} (h : Ensures (next ⟨⟩) t Q) : Ensures (set t >>= next) s Q := h

/-- Work with a handler, which takes over with the state that the failure left. -/
theorem handle {work : ExceptT Error (StateM σ) α} {handler : Error → ExceptT Error (StateM σ) α}
    {s : σ} {Q : Except Error α → σ → Prop}
    (h : Ensures work s fun r s' =>
      match r with
      | .ok a => Q (.ok a) s'
      | .error error => Ensures (handler error) s' Q) :
    Ensures (tryCatch work handler) s Q := by
  unfold Ensures at h ⊢
  rw [run_tryCatch_work]
  rcases hw : work.run.run s with ⟨_ | a, s'⟩
  · rw [hw] at h
    exact h
  · rw [hw] at h
    exact h

end Ensures

end Work

namespace Store

/-! ## Outages -/

/-- Whether the store suffers no outage of a call. -/
def Answers (s : Store) (call : StoreCall) : Prop := ∀ o, s.outage = some o → o.call ≠ call

/-- A store after calls that left its rows alone: an outage may have come closer. -/
def Aged (s t : Store) : Prop :=
  t.rows = s.rows ∧ t.engine = s.engine ∧ ∀ call, s.Answers call → t.Answers call

/-- The outcome of work that a call of the store did not let through. -/
def Refused {α : Type} (s : Store) (call : StoreCall) (r : Except Error α) : Prop :=
  ¬ s.Answers call ∧ ∃ fault, r = .error (.storage fault)

theorem answers_of_no_outage {s : Store} (h : s.outage = none) (call : StoreCall) :
    s.Answers call := by
  intro o ho
  rw [h] at ho
  cases ho

theorem Aged.refl (s : Store) : s.Aged s := ⟨rfl, rfl, fun _ h => h⟩

theorem Aged.trans {s t u : Store} (h : s.Aged t) (h' : t.Aged u) : s.Aged u :=
  ⟨h'.1.trans h.1, h'.2.1.trans h.2.1, fun call hcall => h'.2.2 call (h.2.2 call hcall)⟩

/-- The store refuses the next call of a kind, for a reason. -/
def Fails (s : Store) (call : StoreCall) (reason : String) : Prop :=
  s.outage = some ⟨call, reason, 0⟩

/-- The store `t` has let one more call of a kind through than the store `s`: an outage of that kind
spares one call less. -/
def Spent (call : StoreCall) (s t : Store) : Prop :=
  ∀ reason spared, t.outage = some ⟨call, reason, spared⟩ ↔ s.outage = some ⟨call, reason, spared + 1⟩

/-- What an aged store refuses, the store before refuses as well. -/
theorem Aged.refused {α : Type} {s t : Store} (h : s.Aged t) {call : StoreCall} {r : Except Error α}
    (hr : t.Refused call r) : s.Refused call r :=
  ⟨fun hs => hr.1 (h.2.2 call hs), hr.2⟩

/-! ## Calls -/

variable {α : Type} {s : Store}

/-- Behind a call comes the work proper, unless the call is refused. -/
theorem ensures_allow {call : StoreCall} {work : Access α} {Q : Except Error α → Store → Prop}
    (refused : ∀ r, s.Refused call r → Q r s) (allowed : ∀ t, s.Aged t → Ensures work t Q) :
    Ensures (do allow call; work) s Q := by
  rcases s with ⟨engine, rows, _ | ⟨failing, reason, spared⟩⟩
  · exact allowed _ (Aged.refl _)
  · apply Ensures.bind
    apply Ensures.bind
    apply Ensures.read
    by_cases hcall : failing = call
    · simp only [if_pos hcall]
      cases spared with
      | zero => exact Ensures.fail (refused _ ⟨fun h => h _ rfl hcall, _, rfl⟩)
      | succ spared =>
        refine Ensures.update (allowed _ ⟨rfl, rfl, ?_⟩)
        intro other hother o ho
        cases ho
        exact hother ⟨failing, reason, spared + 1⟩ rfl
    · simp only [if_neg hcall]
      exact Ensures.pure (allowed _ (Aged.refl _))

theorem ensures_lookup (key : Bytes) :
    Ensures (lookup key) s fun r t => s.Aged t ∧ (r = .ok s.rows[key]? ∨ s.Refused .get r) := by
  refine ensures_allow (fun r hr => ⟨Aged.refl s, Or.inr hr⟩) ?_
  intro t ht
  refine Ensures.bind (Ensures.read (Ensures.pure ⟨ht, Or.inl ?_⟩))
  rw [ht.1]

theorem ensures_seekPrev (key : Bytes) :
    Ensures (seekPrev key) s fun r t =>
      s.Aged t ∧ (r = .ok (s.engine.seekPrev s.rows key) ∨ s.Refused .seekPrev r) := by
  refine ensures_allow (fun r hr => ⟨Aged.refl s, Or.inr hr⟩) ?_
  intro t ht
  refine Ensures.bind (Ensures.read (Ensures.pure ⟨ht, Or.inl ?_⟩))
  rw [ht.1, ht.2.1]

theorem ensures_scan (start stop : Bytes) (limit : UInt64) :
    Ensures (scan start stop limit) s fun r t =>
      s.Aged t ∧ (r = .ok (s.engine.scan s.rows start stop limit) ∨ s.Refused .scan r) := by
  refine ensures_allow (fun r hr => ⟨Aged.refl s, Or.inr hr⟩) ?_
  intro t ht
  refine Ensures.bind (Ensures.read (Ensures.pure ⟨ht, Or.inl ?_⟩))
  rw [ht.1, ht.2.1]

/-- A call is let through at the cost of one that an outage spares, or it fails for the reason of an
outage that spares none. -/
theorem ensures_allow_spent (call : StoreCall) :
    Ensures (allow call) s fun r t =>
      r = .ok () ∧ s.Spent call t ∨
        ∃ reason, s.Fails call reason ∧ r = .error (.storage (.stated reason)) ∧ t = s := by
  rcases s with ⟨engine, rows, _ | ⟨failing, reason, spared⟩⟩
  · apply Ensures.bind
    exact Ensures.read (Ensures.pure (Or.inl ⟨rfl, fun reason spared => by simp⟩))
  · apply Ensures.bind
    apply Ensures.read
    by_cases hcall : failing = call
    · subst hcall
      simp only [if_pos]
      cases spared with
      | zero => exact Ensures.fail (Or.inr ⟨reason, rfl, rfl, rfl⟩)
      | succ spared => exact Ensures.update (Or.inl ⟨rfl, fun reason spared => by simp⟩)
    · simp only [if_neg hcall]
      exact Ensures.pure (Or.inl ⟨rfl, fun reason spared => by simp [hcall]⟩)

/-- What a batch costs, and why it fails. -/
theorem ensures_writeBatch_spent (ops : List BatchOp) :
    Ensures (writeBatch ops) s fun r t =>
      r = .ok () ∧ s.Spent .writeBatch t ∨
        ∃ reason, s.Fails .writeBatch reason ∧ r = .error (.storage (.stated reason)) ∧ t = s := by
  refine Ensures.bind ((ensures_allow_spent .writeBatch).mono ?_)
  rintro r t (⟨rfl, ht⟩ | ⟨reason, hfails, rfl, rfl⟩)
  · exact Ensures.update (Or.inl ⟨rfl, ht⟩)
  · exact Or.inr ⟨reason, hfails, rfl, rfl⟩

/-- A batch is written as a whole or not at all. -/
theorem ensures_writeBatch (ops : List BatchOp) :
    Ensures (writeBatch ops) s fun r t =>
      r = .ok () ∧ Aged { s with rows := s.rows.applyAll ops } t ∨ s.Refused .writeBatch r ∧ t = s := by
  refine ensures_allow (fun r hr => Or.inr ⟨hr, rfl⟩) ?_
  intro t ht
  refine Ensures.update (Or.inl ⟨rfl, ?_, ht.2.1, ht.2.2⟩)
  show t.rows.applyAll ops = s.rows.applyAll ops
  rw [ht.1]

end Store

end LogShipping
