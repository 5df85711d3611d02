import Mathlib.Tactic

/-!
# Hash lanes

A lane of 64 bits that takes up words one after the other: the word is xored
in and the sum multiplied by a constant. A multiplier that can be divided out
again makes each step injective, in the state and in the word; so two inputs
that differ in one word leave different states.
-/

namespace Phpatcher.Basis

/-- A multiplier that can be divided out modulo 2^64. -/
structure Multiplier where
  factor : UInt64
  inverse : UInt64
  unit : factor * inverse = 1

namespace Multiplier

variable (m : Multiplier)

/-- Xor a word in, then multiply. -/
def absorb (h v : UInt64) : UInt64 := (h ^^^ v) * m.factor

/-- Take up words one after the other. -/
def absorbAll (h : UInt64) (vs : List UInt64) : UInt64 := vs.foldl m.absorb h

theorem mul_injective : Function.Injective fun x : UInt64 => x * m.factor := by
  intro x y h
  have hdivided : x * m.factor * m.inverse = y * m.factor * m.inverse :=
    congrArg (fun z => z * m.inverse) h
  rwa [UInt64.mul_assoc, UInt64.mul_assoc, m.unit, UInt64.mul_one, UInt64.mul_one] at hdivided

/-- Different words leave different states. -/
theorem absorb_injective_word (h : UInt64) : Function.Injective (m.absorb h) := by
  intro v w heq
  exact (UInt64.xor_right_inj h).mp (m.mul_injective heq)

/-- Different states stay different. -/
theorem absorb_injective_state (v : UInt64) : Function.Injective fun h => m.absorb h v := by
  intro h g heq
  exact (UInt64.xor_left_inj v).mp (m.mul_injective heq)

theorem absorbAll_injective (vs : List UInt64) :
    Function.Injective fun h => m.absorbAll h vs := by
  induction vs with
  | nil => exact fun _ _ h => h
  | cons v vs ih => exact fun _ _ h => m.absorb_injective_state v (ih h)

/-- **One word.** Inputs that differ in one word are told apart. -/
theorem absorbAll_ne_of_word (h : UInt64) (before after : List UInt64) {v w : UInt64}
    (hne : v ≠ w) :
    m.absorbAll h (before ++ v :: after) ≠ m.absorbAll h (before ++ w :: after) := by
  intro heq
  rw [absorbAll, absorbAll, List.foldl_append, List.foldl_append] at heq
  -- the states behind the differing words are equal, so the words are
  have hstate := m.absorbAll_injective after heq
  exact hne (m.absorb_injective_word _ hstate)

end Multiplier

end Phpatcher.Basis
