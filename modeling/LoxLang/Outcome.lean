/-!
# Actions that can fail or run out of fuel

An action starts from a state and is done with a value, has failed with a fault, or is exhausted.
The first two keep the state that was reached. Running out of fuel is apart from both: an exhausted
action says nothing about the result that more fuel would give.
-/
namespace LoxLang

inductive Outcome (σ ε α : Type) where
  | done (value : α) (state : σ)
  | failed (fault : ε) (state : σ)
  | exhausted
deriving DecidableEq

/-- What happens from each state. -/
def Action (σ ε α : Type) : Type := σ → Outcome σ ε α

namespace Action

variable {σ ε α β : Type}

@[always_inline, inline]
protected def pure (value : α) : Action σ ε α := fun s => .done value s

/-- One action after the other; what is not done ends the sequence. -/
@[always_inline, inline]
protected def bind (first : Action σ ε α) (next : α → Action σ ε β) : Action σ ε β := fun s =>
  match first s with
  | .done value s => next value s
  | .failed fault s => .failed fault s
  | .exhausted => .exhausted

@[always_inline]
instance : Monad (Action σ ε) where
  pure := Action.pure
  bind := Action.bind

theorem pure_apply (value : α) (s : σ) : (pure value : Action σ ε α) s = .done value s := rfl

theorem bind_apply (first : Action σ ε α) (next : α → Action σ ε β) (s : σ) :
    (first >>= next) s =
      match first s with
      | .done value s => next value s
      | .failed fault s => .failed fault s
      | .exhausted => .exhausted := rfl

/-- A sequence is done when both parts are, the second from the state that the first left. -/
theorem bind_eq_done_iff {first : Action σ ε α} {next : α → Action σ ε β} {s t : σ} {b : β} :
    (first >>= next) s = .done b t ↔ ∃ a u, first s = .done a u ∧ next a u = .done b t := by
  rw [bind_apply]
  constructor
  · intro h
    split at h
    · next a u hfirst => exact ⟨a, u, hfirst, h⟩
    · cases h
    · cases h
  · rintro ⟨a, u, hfirst, hnext⟩
    rw [hfirst]
    exact hnext

/-- A sequence fails in its first part, or in the second after the first was done. -/
theorem bind_eq_failed_iff {first : Action σ ε α} {next : α → Action σ ε β} {s t : σ} {e : ε} :
    (first >>= next) s = .failed e t ↔
      first s = .failed e t ∨ ∃ a u, first s = .done a u ∧ next a u = .failed e t := by
  rw [bind_apply]
  constructor
  · intro h
    split at h
    · next a u hfirst => exact .inr ⟨a, u, hfirst, h⟩
    · next hfirst =>
      cases h
      exact .inl hfirst
    · cases h
  · rintro (hfirst | ⟨a, u, hfirst, hnext⟩)
    · rw [hfirst]
    · rw [hfirst]
      exact hnext

instance : LawfulMonad (Action σ ε) := LawfulMonad.mk' (Action σ ε)
  (fun x => by
    funext s
    change Action.bind x Action.pure s = x s
    unfold Action.bind Action.pure
    cases x s <;> rfl)
  (fun _ _ => rfl)
  (fun x f g => by
    funext s
    change Action.bind (Action.bind x f) g s = Action.bind x (fun a => Action.bind (f a) g) s
    unfold Action.bind
    cases x s <;> rfl)

@[always_inline, inline]
def fail (fault : ε) : Action σ ε α := fun s => .failed fault s

@[always_inline, inline]
def exhausted : Action σ ε α := fun _ => .exhausted

@[always_inline, inline]
def view (f : σ → α) : Action σ ε α := fun s => .done (f s) s

@[always_inline, inline]
def change (f : σ → σ) : Action σ ε Unit := fun s => .done () (f s)

@[always_inline, inline]
def update (f : σ → α × σ) : Action σ ε α := fun s =>
  let (value, s) := f s
  .done value s

/-- Continues with the value of `x`, or fails with its fault. -/
@[always_inline, inline]
def ofExcept (x : Except ε α) : Action σ ε α := fun s =>
  match x with
  | .ok value => .done value s
  | .error fault => .failed fault s

/-- A failure becomes a value, in the state that it left. -/
@[always_inline, inline]
def attempt (x : Action σ ε α) : Action σ ε (Except ε α) := fun s =>
  match x s with
  | .done value s => .done (.ok value) s
  | .failed fault s => .done (.error fault) s
  | .exhausted => .exhausted

/-- Applies `restore` to the state at the end, whether the action is done or has failed. -/
@[always_inline, inline]
def ensuring (x : Action σ ε α) (restore : σ → σ) : Action σ ε α := fun s =>
  match x s with
  | .done value s => .done value (restore s)
  | .failed fault s => .failed fault (restore s)
  | .exhausted => .exhausted

end Action
end LoxLang
