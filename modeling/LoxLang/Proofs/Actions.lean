import LoxLang.Outcome

/-!
# Reasoning about actions

`Ensures` says what holds after an action, separately for its value and for its fault. `Related`
compares two actions, possibly over different states: they are done together, fail together or run
out of fuel together. Both pass through sequences one step at a time, so a statement about a
composed action comes down to statements about its parts.
-/
namespace LoxLang
namespace Action

variable {σ τ ε δ α β γ : Type}

/-- What the action is done with satisfies `Q`, and what it fails with satisfies `E`. -/
def Ensures (x : Action σ ε α) (s : σ) (Q : α → σ → Prop) (E : ε → σ → Prop) : Prop :=
  match x s with
  | .done a t => Q a t
  | .failed e t => E e t
  | .exhausted => True

section Ensures

variable {s t : σ} {Q Q' : α → σ → Prop} {E E' : ε → σ → Prop}

theorem Ensures.of_done {x : Action σ ε α} {a : α} (h : x.Ensures s Q E) (hx : x s = .done a t) :
    Q a t := by
  simpa [Ensures, hx] using h

theorem Ensures.of_failed {x : Action σ ε α} {e : ε} (h : x.Ensures s Q E)
    (hx : x s = .failed e t) : E e t := by
  simpa [Ensures, hx] using h

theorem Ensures.mono {x : Action σ ε α} (h : x.Ensures s Q E) (hQ : ∀ a t, Q a t → Q' a t)
    (hE : ∀ e t, E e t → E' e t) : x.Ensures s Q' E' := by
  unfold Ensures at h ⊢
  split <;> simp_all

theorem Ensures.and {x : Action σ ε α} (h : x.Ensures s Q E) (h' : x.Ensures s Q' E') :
    x.Ensures s (fun a t => Q a t ∧ Q' a t) fun e t => E e t ∧ E' e t := by
  unfold Ensures at h h' ⊢
  split <;> simp_all

@[simp] theorem ensures_pure (a : α) : (pure a : Action σ ε α).Ensures s Q E ↔ Q a s := Iff.rfl

@[simp] theorem ensures_fail (e : ε) : (fail e : Action σ ε α).Ensures s Q E ↔ E e s := Iff.rfl

@[simp] theorem ensures_exhausted : (exhausted : Action σ ε α).Ensures s Q E := trivial

@[simp] theorem ensures_view (f : σ → α) : (view f : Action σ ε α).Ensures s Q E ↔ Q (f s) s :=
  Iff.rfl

@[simp] theorem ensures_change {Q : Unit → σ → Prop} (f : σ → σ) :
    (change f : Action σ ε Unit).Ensures s Q E ↔ Q () (f s) := Iff.rfl

@[simp] theorem ensures_update (f : σ → α × σ) :
    (update f : Action σ ε α).Ensures s Q E ↔ Q (f s).1 (f s).2 := Iff.rfl

/-- A sequence ensures what its second part ensures after the first. -/
@[simp] theorem ensures_bind {Q : β → σ → Prop} (x : Action σ ε α) (f : α → Action σ ε β) :
    (x >>= f).Ensures s Q E ↔ x.Ensures s (fun a t => (f a).Ensures t Q E) E := by
  unfold Ensures
  rw [bind_apply]
  cases x s <;> rfl

@[simp] theorem ensures_map {Q : β → σ → Prop} (x : Action σ ε α) (f : α → β) :
    (f <$> x).Ensures s Q E ↔ x.Ensures s (fun a t => Q (f a) t) E := by
  rw [map_eq_pure_bind, ensures_bind]
  rfl

theorem ensures_ofExcept (x : Except ε α) :
    (ofExcept x : Action σ ε α).Ensures s Q E ↔
      (∀ a, x = .ok a → Q a s) ∧ ∀ e, x = .error e → E e s := by
  cases x <;> simp [Ensures, ofExcept]

@[simp] theorem ensures_attempt {Q : Except ε α → σ → Prop} (x : Action σ ε α) :
    x.attempt.Ensures s Q E ↔
      x.Ensures s (fun a t => Q (.ok a) t) (fun e t => Q (.error e) t) := by
  unfold Ensures attempt
  cases x s <;> rfl

@[simp] theorem ensures_ensuring (x : Action σ ε α) (restore : σ → σ) :
    (x.ensuring restore).Ensures s Q E ↔
      x.Ensures s (fun a t => Q a (restore t)) (fun e t => E e (restore t)) := by
  unfold Ensures ensuring
  cases x s <;> rfl

end Ensures

/-- The two actions end alike, and the ends are related. -/
def Related (x : Action σ ε α) (y : Action τ δ β) (s : σ) (t : τ) (Q : α → β → σ → τ → Prop)
    (E : ε → δ → σ → τ → Prop) : Prop :=
  match x s, y t with
  | .done a s, .done b t => Q a b s t
  | .failed e s, .failed d t => E e d s t
  | .exhausted, .exhausted => True
  | _, _ => False

section Related

variable {s : σ} {t : τ} {Q Q' : α → β → σ → τ → Prop} {E E' : ε → δ → σ → τ → Prop}

theorem Related.mono {x : Action σ ε α} {y : Action τ δ β} (h : Related x y s t Q E)
    (hQ : ∀ a b s t, Q a b s t → Q' a b s t) (hE : ∀ e d s t, E e d s t → E' e d s t) :
    Related x y s t Q' E' := by
  unfold Related at h ⊢
  split <;> simp_all

/-- Sequences are related when their first parts are and, after these, their second parts. -/
theorem related_bind {α' β' : Type} {Q : α' → β' → σ → τ → Prop} {x : Action σ ε α}
    {y : Action τ δ β} {f : α → Action σ ε α'} {g : β → Action τ δ β'}
    (h : Related x y s t (fun a b s t => Related (f a) (g b) s t Q E) E) :
    Related (x >>= f) (y >>= g) s t Q E := by
  unfold Related at h ⊢
  rw [bind_apply, bind_apply]
  cases hx : x s <;> cases hy : y t <;> simp_all

/-- A step that only the first action takes. -/
theorem related_update_left {α' : Type} {Q : α' → β → σ → τ → Prop} {f : σ → α × σ}
    {g : α → Action σ ε α'} {y : Action τ δ β} (h : Related (g (f s).1) y (f s).2 t Q E) :
    Related (update f >>= g) y s t Q E := h

theorem related_view_left {α' : Type} {Q : α' → β → σ → τ → Prop} {f : σ → α}
    {g : α → Action σ ε α'} {y : Action τ δ β} (h : Related (g (f s)) y s t Q E) :
    Related (view f >>= g) y s t Q E := h

theorem related_of_done_right {β' : Type} {Q : α → β' → σ → τ → Prop} {x : Action σ ε α}
    {y : Action τ δ β} {g : β → Action τ δ β'} {b : β} {t' : τ} (hy : y t = .done b t')
    (h : Related x (g b) s t' Q E) : Related x (y >>= g) s t Q E := by
  unfold Related at h ⊢
  rw [bind_apply, hy]
  exact h

theorem related_bind_pure_right {β' : Type} {Q : α → β' → σ → τ → Prop} {x : Action σ ε α}
    {y : Action τ δ β} {g : β → β'} (h : Related x y s t (fun a b s t => Q a (g b) s t) E) :
    Related x (y >>= fun b => pure (g b)) s t Q E := by
  rw [← bind_pure x]
  exact related_bind h

theorem related_ofExcept {x : Except ε α} {Q : α → α → σ → τ → Prop} {E : ε → ε → σ → τ → Prop}
    (hok : ∀ a, x = .ok a → Q a a s t) (herror : ∀ e, x = .error e → E e e s t) :
    Related (ofExcept x : Action σ ε α) (ofExcept x : Action τ ε α) s t Q E := by
  cases x with
  | ok a => exact hok a rfl
  | error e => exact herror e rfl

theorem related_ensuring_left {x : Action σ ε α} {y : Action τ δ β} {restore : σ → σ}
    (h : Related x y s t (fun a b s t => Q a b (restore s) t) fun e d s t => E e d (restore s) t) :
    Related (x.ensuring restore) y s t Q E := by
  unfold Related ensuring at *
  cases hx : x s <;> cases hy : y t <;> simp_all

theorem related_ensuring {x : Action σ ε α} {y : Action τ δ β} {restore : σ → σ}
    {restore' : τ → τ}
    (h : Related x y s t (fun a b s t => Q a b (restore s) (restore' t))
      fun e d s t => E e d (restore s) (restore' t)) :
    Related (x.ensuring restore) (y.ensuring restore') s t Q E := by
  unfold Related ensuring at *
  cases hx : x s <;> cases hy : y t <;> simp_all

end Related

end Action
end LoxLang
