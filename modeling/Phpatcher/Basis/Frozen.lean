import Phpatcher.Basis.Fallible

/-!
# A changing world, and a frozen one

A computation that looks at a world that goes on changing keeps what it has seen.
`Frozen` says that another computation, over a world that stays as it is, does the
same, provided that this world fits what the first one has seen *in the end*: so the
world can be chosen afterwards. `Keeps` says that a computation keeps an invariant.

Relations between computations such as these go along with sequences (`Respects`);
what is shown for every such relation is shown for each of them.
-/

namespace Phpatcher.Basis.Fallible

variable {ε σ τ : Type}

/-- Relations between computations over two states. -/
abbrev Relation (ε σ τ : Type) := ∀ {α : Type}, Fallible ε σ α → Fallible ε τ α → Prop

/-- Plain results are related, and so are sequences of related computations. -/
structure Respects (rel : Relation ε σ τ) : Prop where
  pure : ∀ {α : Type} (a : α), rel (pure a : Fallible ε σ α) (Pure.pure a)
  throw : ∀ {α : Type} (e : ε), rel (throw e : Fallible ε σ α) (MonadExcept.throw e)
  bind : ∀ {α β : Type} {m : Fallible ε σ α} {n : Fallible ε τ α} {f : α → Fallible ε σ β}
    {g : α → Fallible ε τ β}, rel m n → (∀ a, rel (f a) (g a)) → rel (m >>= f) (n >>= g)

theorem Respects.ite {R : Relation ε σ τ} {α : Type} {c : Prop} [Decidable c]
    {m m' : Fallible ε σ α} {n n' : Fallible ε τ α} (h : R m n) (h' : R m' n') :
    R (if c then m else m') (if c then n else n') := by
  split
  · exact h
  · exact h'

/-- If what the first computation has seen in the end fits, so does what it had seen
before, and the second one does what the first does. -/
def Frozen (seen : σ → τ) (Fits : τ → Prop) {α : Type} (m : Fallible ε σ α)
    (n : Fallible ε τ α) : Prop :=
  ∀ s, Fits (seen (m.outcome s).2) →
    Fits (seen s) ∧ n.outcome (seen s) = ((m.outcome s).1, seen (m.outcome s).2)

theorem Frozen.respects (seen : σ → τ) (Fits : τ → Prop) :
    Respects (Frozen seen Fits : Relation ε σ τ) where
  pure _ _ hfits := ⟨hfits, rfl⟩
  throw _ _ hfits := ⟨hfits, rfl⟩
  bind {α β m n f g} h hfg s hfits := by
    rw [outcome_bind] at hfits
    rw [outcome_bind, outcome_bind]
    obtain hm := h s
    rcases hout : m.outcome s with ⟨e | a, s'⟩
    · rw [hout] at hfits hm
      obtain ⟨hbefore, hsame⟩ := hm hfits
      rw [hsame]
      exact ⟨hbefore, rfl⟩
    · -- what fits in the end fits behind the first part
      rw [hout] at hfits hm
      obtain ⟨hmiddle, hrest⟩ := hfg a s' hfits
      obtain ⟨hbefore, hsame⟩ := hm hmiddle
      rw [hsame]
      exact ⟨hbefore, hrest⟩

/-- The first computation keeps an invariant, whether it succeeds or fails. -/
def Keeps (P : σ → Prop) {α : Type} (m : Fallible ε σ α) (_ : Fallible ε τ α) : Prop :=
  ∀ s, P s → P (m.outcome s).2

theorem Keeps.respects (P : σ → Prop) : Respects (Keeps P : Relation ε σ τ) where
  pure _ _ hs := hs
  throw _ _ hs := hs
  bind {α β m n f g} h hfg s hs := by
    rw [outcome_bind]
    have hm := h s hs
    rcases hout : m.outcome s with ⟨e | a, s'⟩
    · rw [hout] at hm
      exact hm
    · rw [hout] at hm
      exact hfg a s' hm

end Phpatcher.Basis.Fallible
