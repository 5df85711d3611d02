import Mathlib.Tactic

/-!
# Computations that can fail and carry a state

A C++ function that returns `bool`, fills an error text on failure and calls a
stateful callback on the way is a `Fallible` computation: the state survives a
failure, as a cache the callback filled does. `Yields m s a s'` says that `m`
run in `s` succeeds with `a` and leaves `s'`.
-/

namespace Phpatcher.Basis

/-- A computation with state `σ` that ends in a value or in an error `ε`. -/
abbrev Fallible (ε σ α : Type) := ExceptT ε (StateM σ) α

namespace Fallible

variable {ε σ τ α β : Type}

/-- The outcome of a computation and the state it leaves. -/
def outcome (m : Fallible ε σ α) (s : σ) : Except ε α × σ := m.run.run s

/-- The computation succeeds. -/
def Yields (m : Fallible ε σ α) (s : σ) (a : α) (s' : σ) : Prop :=
  m.outcome s = (.ok a, s')

@[simp] theorem outcome_pure (a : α) (s : σ) :
    (pure a : Fallible ε σ α).outcome s = (.ok a, s) := rfl

@[simp] theorem outcome_throw (e : ε) (s : σ) :
    (throw e : Fallible ε σ α).outcome s = (.error e, s) := rfl

/-- A sequence runs its second part only where the first one succeeds. -/
theorem outcome_bind (m : Fallible ε σ α) (f : α → Fallible ε σ β) (s : σ) :
    (m >>= f).outcome s =
      match m.outcome s with
      | (.ok a, s') => (f a).outcome s'
      | (.error e, s') => (.error e, s') := by
  simp only [outcome, ExceptT.run_bind, StateT.run_bind]
  rcases m.run.run s with ⟨_ | a, s'⟩ <;> rfl

/-- The computation that maps state to outcome and new state. -/
def mk (f : σ → Except ε α × σ) : Fallible ε σ α := ExceptT.mk f

@[simp] theorem outcome_mk (f : σ → Except ε α × σ) (s : σ) :
    (mk f : Fallible ε σ α).outcome s = f s := rfl

/-! ## Success -/

@[simp] theorem yields_pure {a b : α} {s s' : σ} :
    Yields (pure a : Fallible ε σ α) s b s' ↔ a = b ∧ s = s' := by
  simp [Yields]

@[simp] theorem not_yields_throw {e : ε} {a : α} {s s' : σ} :
    ¬ Yields (throw e : Fallible ε σ α) s a s' := by
  simp [Yields]

/-- A sequence succeeds exactly when both parts do, one after the other. -/
theorem yields_bind {m : Fallible ε σ α} {f : α → Fallible ε σ β} {s s' : σ} {b : β} :
    Yields (m >>= f) s b s' ↔ ∃ a t, Yields m s a t ∧ Yields (f a) t b s' := by
  unfold Yields
  rw [outcome_bind]
  rcases h : m.outcome s with ⟨e | a, t⟩
  · simp
  · simp

/-- A computation followed by a plain function of its value. -/
theorem yields_bind_pure {m : Fallible ε σ α} {f : α → β} {s s' : σ} {b : β} :
    Yields (m >>= fun a => pure (f a)) s b s' ↔ ∃ a, Yields m s a s' ∧ b = f a := by
  simp only [yields_bind, yields_pure]
  constructor
  · intro h
    obtain ⟨a, t, hm, rfl, rfl⟩ := h
    exact ⟨a, hm, rfl⟩
  · intro h
    obtain ⟨a, hm, rfl⟩ := h
    exact ⟨a, s', hm, rfl, rfl⟩

/-- An early exit taken when `c` holds. -/
theorem yields_ite_throw {c : Prop} [Decidable c] {e : ε} {m : Fallible ε σ α} {s s' : σ}
    {a : α} : Yields (if c then throw e else m) s a s' ↔ ¬ c ∧ Yields m s a s' := by
  by_cases h : c <;> simp [h]

/-- A computation has at most one result. -/
theorem Yields.unique {m : Fallible ε σ α} {s s₁ s₂ : σ} {a b : α}
    (h₁ : Yields m s a s₁) (h₂ : Yields m s b s₂) : a = b ∧ s₁ = s₂ := by
  have h := h₁.symm.trans h₂
  simpa using h

/-! ## Lockstep -/

/-- Two computations over different states give the same outcome from related
states and leave related states. -/
def Lockstep (R : σ → τ → Prop) (m : Fallible ε σ α) (n : Fallible ε τ α) : Prop :=
  ∀ s t, R s t → (m.outcome s).1 = (n.outcome t).1 ∧ R (m.outcome s).2 (n.outcome t).2

variable {R : σ → τ → Prop}

theorem Lockstep.pure (a : α) : Lockstep R (pure a : Fallible ε σ α) (Pure.pure a) :=
  fun _ _ h => ⟨rfl, h⟩

theorem Lockstep.throw (e : ε) :
    Lockstep R (throw e : Fallible ε σ α) (MonadExcept.throw e) :=
  fun _ _ h => ⟨rfl, h⟩

theorem Lockstep.bind {m : Fallible ε σ α} {n : Fallible ε τ α} {f : α → Fallible ε σ β}
    {g : α → Fallible ε τ β} (h : Lockstep R m n) (hfg : ∀ a, Lockstep R (f a) (g a)) :
    Lockstep R (m >>= f) (n >>= g) := by
  intro s t hst
  obtain ⟨hout, hrel⟩ := h s t hst
  rw [outcome_bind, outcome_bind]
  rcases hm : m.outcome s with ⟨e | a, s'⟩ <;> rcases hn : n.outcome t with ⟨e' | a', t'⟩ <;>
    simp only [hm, hn, Except.error.injEq, Except.ok.injEq, reduceCtorEq] at hout hrel
  · exact ⟨by rw [hout], hrel⟩
  · subst hout
    exact hfg a s' t' hrel

theorem Lockstep.ite {c : Prop} [Decidable c] {m m' : Fallible ε σ α} {n n' : Fallible ε τ α}
    (h : Lockstep R m n) (h' : Lockstep R m' n') :
    Lockstep R (if c then m else m') (if c then n else n') := by
  by_cases hc : c
  · simpa [hc] using h
  · simpa [hc] using h'

end Fallible

end Phpatcher.Basis
