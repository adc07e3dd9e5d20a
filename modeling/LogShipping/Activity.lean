import LogShipping.Error

/-!
# Activities

An activity is a program that a node runs while the rest of the cluster runs beside it. Between two
requests to its surroundings it works on the node's state without interruption; it may call one peer
or several at once, and it may pause. Activities are data: what they mean is decided by whoever runs
them, who may answer a call in any way, may change the node's state while a request is out, and may
have the node told to stop at any time. Loops are part of the data, so an activity that never ends is
still a finite object.
-/

namespace LogShipping

/-- A program over a state `σ` that ends with a value. -/
inductive Activity (σ : Type) : Type → Type 1 where
  /-- Ends. -/
  | done {α : Type} (value : α) : Activity σ α
  /-- Works on the state at the present time, without interruption. -/
  | atomic {α β : Type} (work : Instant → σ → β × σ) (resume : β → Activity σ α) : Activity σ α
  /-- Calls a peer, unless the node is told to stop first. -/
  | call {α : Type} (peer : String) (message : Message)
      (resume : Except Error Message → Activity σ α) : Activity σ α
  /-- Calls several peers at once and waits for all of them, whatever happens to the node. -/
  | callAll {α : Type} (peers : List String) (message : Message)
      (resume : List (Except Error Message) → Activity σ α) : Activity σ α
  /-- Pauses for some milliseconds; what follows learns whether the node was told to stop. -/
  | pause {α : Type} (duration : UInt64) (resume : Bool → Activity σ α) : Activity σ α
  /-- Repeats a body from a starting value until it gives a result. -/
  | loop {α τ ρ : Type} (body : τ → Activity σ (τ ⊕ ρ)) (start : τ) (resume : ρ → Activity σ α) :
      Activity σ α

namespace Activity

variable {σ α β : Type}

/-- One activity after another. -/
def bind : Activity σ α → (α → Activity σ β) → Activity σ β
  | .done value, next => next value
  | .atomic work resume, next => .atomic work fun b => (resume b).bind next
  | .call peer message resume, next => .call peer message fun reply => (resume reply).bind next
  | .callAll peers message resume, next =>
    .callAll peers message fun replies => (resume replies).bind next
  | .pause duration resume, next => .pause duration fun stopped => (resume stopped).bind next
  | .loop body start resume, next => .loop body start fun result => (resume result).bind next

instance : Monad (Activity σ) where
  pure := .done
  bind := .bind

/-- A loop with its first round written out. -/
def unfoldLoop {τ ρ : Type} (body : τ → Activity σ (τ ⊕ ρ)) (start : τ) (resume : ρ → Activity σ α) :
    Activity σ α :=
  (body start).bind fun
    | .inl next => .loop body next resume
    | .inr result => resume result

instance : LawfulMonad (Activity σ) := by
  refine LawfulMonad.mk' (Activity σ) ?_ (fun _ _ => rfl) ?_
  · intro α x
    show x.bind (fun a => .done a) = x
    induction x with
    | done value => rfl
    | atomic work resume ih => simp [bind, ih]
    | call peer message resume ih => simp [bind, ih]
    | callAll peers message resume ih => simp [bind, ih]
    | pause duration resume ih => simp [bind, ih]
    | loop body start resume _ ih => simp [bind, ih]
  · intro α β γ x f g
    show (x.bind f).bind g = x.bind fun a => (f a).bind g
    induction x with
    | done value => rfl
    | atomic work resume ih => simp [bind, ih]
    | call peer message resume ih => simp [bind, ih]
    | callAll peers message resume ih => simp [bind, ih]
    | pause duration resume ih => simp [bind, ih]
    | loop body start resume _ ih => simp [bind, ih]

end Activity

end LogShipping
