import Phpatcher.Basis.Fallible

/-!
# Signed 64-bit arithmetic

C++ leaves the behaviour of a signed operation undefined whose result is out
of range, and of an access outside a vector. A `Checked` value is `none` in
both cases. A computation that may run into one stops with `Stop.undefined`;
`Safe` says that it never does and otherwise is the computation it stands
beside.
-/

namespace Phpatcher.Basis

/-! ## Operations -/

/-- A value, or `none` where the behaviour is undefined. -/
abbrev Checked (α : Type) := Option α

/-- A result of type `std::int64_t`. -/
def signed64 (i : Int) : Checked Int := if -2 ^ 63 ≤ i ∧ i < 2 ^ 63 then some i else none

def add64 (a b : Int) : Checked Int := signed64 (a + b)
def sub64 (a b : Int) : Checked Int := signed64 (a - b)
def mul64 (a b : Int) : Checked Int := signed64 (a * b)

theorem signed64_natCast {n : Nat} (h : n < 2 ^ 63) : signed64 n = some (n : Int) := by
  rw [signed64, if_pos]
  omega

theorem add64_natCast {a b : Nat} (h : a + b < 2 ^ 63) :
    add64 a b = some ((a + b : Nat) : Int) := by
  rw [add64, ← Int.natCast_add, signed64_natCast h]

theorem sub64_natCast {a b : Nat} (hle : b ≤ a) (h : a < 2 ^ 63) :
    sub64 a b = some ((a - b : Nat) : Int) := by
  rw [sub64, ← Int.natCast_sub hle, signed64_natCast (by omega)]

theorem mul64_natCast {a b : Nat} (h : a * b < 2 ^ 63) :
    mul64 a b = some ((a * b : Nat) : Int) := by
  rw [mul64, ← Int.natCast_mul, signed64_natCast h]

/-- A sequence is defined when each part is. -/
theorem isSome_bind {α β : Type} {x : Checked α} {f : α → Checked β} (hx : x.isSome)
    (hf : ∀ a, (f a).isSome) : (x >>= f).isSome := by
  obtain ⟨a, rfl⟩ := Option.isSome_iff_exists.mp hx
  exact hf a

section

variable {α β γ δ : Type} {r : α → β → Prop} {s : γ → δ → Prop}

/-- Two sequences whose parts are related: neither is defined, or both, with related
values. -/
theorem rel_bind {x : Option α} {y : Option β} {f : α → Option γ} {g : β → Option δ}
    (h : Option.Rel r x y) (hfg : ∀ a b, r a b → Option.Rel s (f a) (g b)) :
    Option.Rel s (x >>= f) (y >>= g) := by
  cases h with
  | none => exact .none
  | some hab => exact hfg _ _ hab

/-- Behind one and the same part. -/
theorem rel_bind_same {x : Option α} {f : α → Option γ} {g : α → Option δ}
    (hfg : ∀ a, x = some a → Option.Rel s (f a) (g a)) : Option.Rel s (x >>= f) (x >>= g) := by
  cases x with
  | none => exact .none
  | some a => exact hfg a rfl

end

/-- A loop with a turn that is never defined. -/
theorem foldlM_eq_none {α β : Type} {f : β → α → Option β} {l : List α} {a : α} (ha : a ∈ l)
    (h : ∀ b, f b a = none) (b : β) : l.foldlM f b = none := by
  induction l generalizing b with
  | nil => simp at ha
  | cons a' l ih =>
      rw [List.foldlM_cons]
      rcases List.mem_cons.mp ha with rfl | ha
      · rw [h b]
        rfl
      · cases f b a' with
        | none => rfl
        | some b' => exact ih ha b'

/-! ## Computations -/

/-- How a computation stops: with an error of its own, or in undefined
behaviour. -/
inductive Stop (ε : Type) where
  | error (e : ε)
  | undefined
  deriving DecidableEq, Repr

/-- The outcome of a checked computation. -/
def checkedOutcome {ε α : Type} : Checked (Except ε α) → Except (Stop ε) α
  | some result => result.mapError .error
  | none => .error .undefined

theorem checkedOutcome_some {ε α : Type} (result : Except ε α) :
    checkedOutcome (some result) = result.mapError .error := rfl

namespace Fallible

variable {ε σ α β : Type}

/-- A checked value as a computation. -/
def ofChecked : Checked α → Fallible (Stop ε) σ α
  | some a => pure a
  | none => throw .undefined

/-- A computation without undefined behaviour, among those that may have some. -/
def lift (m : Fallible ε σ α) : Fallible (Stop ε) σ α :=
  mk fun s => ((m.outcome s).1.mapError .error, (m.outcome s).2)

theorem lift_bind (m : Fallible ε σ α) (f : α → Fallible ε σ β) :
    (m >>= f).lift = m.lift >>= fun a => (f a).lift := by
  apply ExceptT.ext
  funext s
  show (m >>= f).lift.outcome s = (m.lift >>= fun a => (f a).lift).outcome s
  simp only [outcome_bind, lift, outcome_mk]
  rcases m.outcome s with ⟨e | a, s'⟩ <;> rfl

/-- From every state of the invariant `m` runs as `n` does, without undefined
behaviour, and back to the invariant. -/
def Safe (I : σ → Prop) (m : Fallible (Stop ε) σ α) (n : Fallible ε σ α) : Prop :=
  ∀ s, I s → m.outcome s = ((n.outcome s).1.mapError .error, (n.outcome s).2) ∧
    I (n.outcome s).2

variable {I : σ → Prop}

theorem Safe.lift (n : Fallible ε σ α) : Safe (fun _ => True) n.lift n :=
  fun _ _ => ⟨rfl, trivial⟩

theorem Safe.pure (a : α) :
    Safe I (Pure.pure a : Fallible (Stop ε) σ α) (Pure.pure a : Fallible ε σ α) :=
  fun _ hs => ⟨rfl, hs⟩

theorem Safe.throw (e : ε) :
    Safe I (MonadExcept.throw (Stop.error e) : Fallible (Stop ε) σ α)
      (MonadExcept.throw e : Fallible ε σ α) :=
  fun _ hs => ⟨rfl, hs⟩

/-- A sequence, where the second part may use what the first one yields. -/
theorem Safe.bind {m : Fallible (Stop ε) σ α} {n : Fallible ε σ α}
    {f : α → Fallible (Stop ε) σ β} {g : α → Fallible ε σ β} (h : Safe I m n)
    (hfg : ∀ a, (∃ s s', I s ∧ n.Yields s a s') → Safe I (f a) (g a)) :
    Safe I (m >>= f) (n >>= g) := by
  intro s hs
  obtain ⟨hout, hrest⟩ := h s hs
  rw [outcome_bind, outcome_bind, hout]
  rcases hn : n.outcome s with ⟨e | a, s'⟩
  · rw [hn] at hrest
    exact ⟨rfl, hrest⟩
  · rw [hn] at hrest
    exact hfg a ⟨s, s', hs, hn⟩ s' hrest

/-- A checked operation that is defined. -/
theorem Safe.ofChecked {c : Checked α} {a : α} {f : α → Fallible (Stop ε) σ β}
    {n : Fallible ε σ β} (hc : c = some a) (h : Safe I (f a) n) :
    Safe I (Fallible.ofChecked c >>= f) n := by
  subst hc
  exact h

/-- A test that comes out the same. -/
theorem Safe.ite {c d : Prop} [Decidable c] [Decidable d] {m m' : Fallible (Stop ε) σ α}
    {n n' : Fallible ε σ α} (hcd : c ↔ d) (h : d → Safe I m n) (h' : ¬ d → Safe I m' n') :
    Safe I (if c then m else m') (if d then n else n') := by
  by_cases hd : d
  · rw [if_pos (hcd.mpr hd), if_pos hd]
    exact h hd
  · rw [if_neg (fun hc => hd (hcd.mp hc)), if_neg hd]
    exact h' hd

/-- A test in two parts, of which the second one is only evaluated behind the
first. -/
theorem Safe.ite_or {c d d' : Prop} [Decidable c] [Decidable d] [Decidable d']
    {m m' : Fallible (Stop ε) σ α} {n n' : Fallible ε σ α} (hcd : c ↔ d) (h : d → Safe I m n)
    (h' : ¬ d → Safe I m' (if d' then n else n')) :
    Safe I (if c then m else m') (if d ∨ d' then n else n') := by
  by_cases hd : d
  · rw [if_pos (hcd.mpr hd), if_pos (.inl hd)]
    exact h hd
  · rw [if_neg (fun hc => hd (hcd.mp hc))]
    simpa only [hd, false_or] using h' hd

end Fallible

end Phpatcher.Basis
