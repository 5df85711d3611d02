import Phpatcher.Basis.Fallible

/-!
# Computations that also work in a world

A computation that keeps what it makes in a world refines one that has no world: from
every state both end alike, and what the first one returns stands, in the world it
leaves, for what the second one returns. The world may only be extended, so that what
stood for something goes on doing so.
-/

namespace Phpatcher.Basis.Fallible

variable {ε σ ω α β α' β' : Type}

/-- A computation that does not look at the world. -/
def withWorld (n : Fallible ε σ α) : Fallible ε (σ × ω) α :=
  mk fun s =>
    let (out, t) := n.outcome s.1
    (out, (t, s.2))

/-- A step in the world, which cannot fail. -/
def inWorld (f : ω → α × ω) : Fallible ε (σ × ω) α :=
  mk fun s =>
    let (a, w) := f s.2
    (.ok a, (s.1, w))

/-- Both fail with one error, or both succeed. -/
inductive EndAlike (V : α → β → Prop) : Except ε α → Except ε β → Prop
  | error (e : ε) : EndAlike V (.error e) (.error e)
  | ok {a : α} {b : β} (h : V a b) : EndAlike V (.ok a) (.ok b)

/-- From the world `w` the first computation does what the second one does. -/
def Refines (ext : ω → ω → Prop) (V : ω → α → β → Prop) (w : ω) (m : Fallible ε (σ × ω) α)
    (n : Fallible ε σ β) : Prop :=
  ∀ s, ∃ w', ext w w' ∧ (m.outcome (s, w)).2 = ((n.outcome s).2, w') ∧
    EndAlike (V w') (m.outcome (s, w)).1 (n.outcome s).1

variable {ext : ω → ω → Prop} {V : ω → α → β → Prop} {W : ω → α' → β' → Prop} {w : ω}

theorem Refines.pure (hrefl : ∀ w, ext w w) {a : α} {b : β} (h : V w a b) :
    Refines ext V w (pure a : Fallible ε (σ × ω) α) (Pure.pure b) :=
  fun _ => ⟨w, hrefl w, rfl, .ok h⟩

theorem Refines.throw (hrefl : ∀ w, ext w w) (e : ε) :
    Refines ext V w (throw e : Fallible ε (σ × ω) α) (MonadExcept.throw e) :=
  fun _ => ⟨w, hrefl w, rfl, .error e⟩

theorem Refines.withWorld (hrefl : ∀ w, ext w w) (n : Fallible ε σ α) :
    Refines ext (fun _ a b => a = b) w (Fallible.withWorld n) n := by
  intro s
  refine ⟨w, hrefl w, rfl, ?_⟩
  show EndAlike _ (n.outcome s).1 (n.outcome s).1
  cases (n.outcome s).1 with
  | error e => exact .error e
  | ok a => exact .ok rfl

/-- The rest goes on in the world that the first part leaves. -/
theorem Refines.bind (htrans : ∀ w₁ w₂ w₃, ext w₁ w₂ → ext w₂ w₃ → ext w₁ w₃)
    {m : Fallible ε (σ × ω) α} {n : Fallible ε σ β} {f : α → Fallible ε (σ × ω) α'}
    {g : β → Fallible ε σ β'} (h : Refines ext V w m n)
    (hfg : ∀ w' a b, ext w w' → V w' a b → Refines ext W w' (f a) (g b)) :
    Refines ext W w (m >>= f) (n >>= g) := by
  intro s
  obtain ⟨w', hext, hstate, halike⟩ := h s
  rw [outcome_bind, outcome_bind]
  rcases hm : m.outcome (s, w) with ⟨out, s₁⟩
  rcases hn : n.outcome s with ⟨out', t₁⟩
  rw [hm, hn] at hstate halike
  simp only at hstate halike
  subst hstate
  cases halike with
  | error e => exact ⟨w', hext, rfl, .error e⟩
  | ok hvalue =>
      obtain ⟨w'', hext', hstate', halike'⟩ := hfg w' _ _ hext hvalue t₁
      exact ⟨w'', htrans _ _ _ hext hext', hstate', halike'⟩

/-- A step in the world is one of the first computation alone. -/
theorem Refines.inWorld (htrans : ∀ w₁ w₂ w₃, ext w₁ w₂ → ext w₂ w₃ → ext w₁ w₃)
    {f : ω → α' × ω} {k : α' → Fallible ε (σ × ω) α} {n : Fallible ε σ β}
    (hext : ext w (f w).2) (h : Refines ext V (f w).2 (k (f w).1) n) :
    Refines ext V w (Fallible.inWorld f >>= k) n := by
  intro s
  obtain ⟨w', hext', hstate, halike⟩ := h s
  have hstep : (Fallible.inWorld f >>= k : Fallible ε (σ × ω) α).outcome (s, w) =
      (k (f w).1).outcome (s, (f w).2) := by
    rw [outcome_bind]
    rfl
  rw [hstep]
  exact ⟨w', htrans _ _ _ hext hext', hstate, halike⟩

theorem Refines.ite {c : Prop} [Decidable c] {m m' : Fallible ε (σ × ω) α}
    {n n' : Fallible ε σ β} (h : Refines ext V w m n) (h' : Refines ext V w m' n') :
    Refines ext V w (if c then m else m') (if c then n else n') := by
  split
  · exact h
  · exact h'

end Phpatcher.Basis.Fallible
