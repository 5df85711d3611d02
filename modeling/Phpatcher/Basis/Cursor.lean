import Phpatcher.Basis.Checked
import Phpatcher.Basis.Codec

/-!
# Cursors

A reader as C++ writes it: a position in a byte string that stays where it is,
a test that enough bytes follow, an access that is undefined outside the bytes,
and a step. A cursor `Follows` a reader when from every position inside the
bytes it does what the reader does with what is left there, and stays inside.
-/

namespace Phpatcher.Basis

/-- A computation on a position in a byte string. -/
abbrev Cursor (ε α : Type) := Fallible (Stop ε) Nat α

namespace Cursor

variable {ε α β σ : Type} (blob : Bytes)

/-- Fail where fewer than `n` bytes follow. -/
def need (short : ε) (n : Nat) : Cursor ε Unit :=
  Fallible.mk fun p => if blob.length - p < n then (.error (.error short), p) else (.ok (), p)

/-- Access the next `n` bytes. -/
def peek (n : Nat) : Cursor ε Bytes :=
  Fallible.mk fun p =>
    if p + n ≤ blob.length then (.ok ((blob.drop p).take n), p) else (.error .undefined, p)

/-- Step over `n` bytes; a position behind the end is undefined. -/
def advance (n : Nat) : Cursor ε Unit :=
  Fallible.mk fun p => if p + n ≤ blob.length then (.ok (), p + n) else (.error .undefined, p)

/-- Take `n` bytes. -/
def bytes (short : ε) (n : Nat) : Cursor ε Bytes := do
  need blob short n
  let bs ← peek blob n
  advance blob n
  pure bs

/-- Take a number of `w` bytes. -/
def number (short : ε) (order : ByteOrder) (w : Nat) : Cursor ε Nat := do
  let bs ← bytes blob short w
  pure (order.get bs)

/-- Repeat a step that extends a value read so far. -/
def iterate (step : σ → Cursor ε σ) : Nat → σ → Cursor ε σ
  | 0, s => pure s
  | n + 1, s => do
      let s ← step s
      iterate step n s

/-! ## Following a reader -/

/-- What is left at a position inside the bytes. -/
def Stands (p : Nat) (left : Bytes) : Prop := p ≤ blob.length ∧ left = blob.drop p

/-- The cursor does what the reader does. -/
def Follows (m : Cursor ε α) (n : Reader ε α) : Prop :=
  Fallible.Lockstep (Stands blob) m n.lift

variable {blob}

theorem Follows.pure (a : α) : Follows blob (Pure.pure a : Cursor ε α) (Pure.pure a) :=
  Fallible.Lockstep.pure a

theorem Follows.throw (e : ε) :
    Follows blob (MonadExcept.throw (Stop.error e) : Cursor ε α) (MonadExcept.throw e) :=
  Fallible.Lockstep.throw (Stop.error e)

theorem Follows.bind {m : Cursor ε α} {n : Reader ε α} {f : α → Cursor ε β} {g : α → Reader ε β}
    (h : Follows blob m n) (hfg : ∀ a, Follows blob (f a) (g a)) :
    Follows blob (m >>= f) (n >>= g) := by
  rw [Follows, Fallible.lift_bind]
  exact Fallible.Lockstep.bind h hfg

theorem Follows.ite {c : Prop} [Decidable c] {m m' : Cursor ε α} {n n' : Reader ε α}
    (h : Follows blob m n) (h' : Follows blob m' n') :
    Follows blob (if c then m else m') (if c then n else n') := by
  by_cases hc : c
  · simpa only [if_pos hc] using h
  · simpa only [if_neg hc] using h'

/-- Behind the test the access and the step are defined. -/
theorem follows_bytes (short : ε) (n : Nat) :
    Follows blob (bytes blob short n) (Reader.bytes short n) := by
  rintro p _ ⟨hp, rfl⟩
  simp only [Fallible.lift, Reader.bytes, bytes, need, peek, advance, Fallible.outcome_bind,
    Fallible.outcome_mk, Fallible.outcome_pure, List.length_drop]
  by_cases hshort : blob.length - p < n
  · simp only [if_pos hshort]
    exact ⟨rfl, hp, rfl⟩
  · have hin : p + n ≤ blob.length := by omega
    simp only [if_neg hshort, if_pos hin]
    exact ⟨rfl, hin, by rw [List.drop_drop]⟩

theorem follows_number (short : ε) (order : ByteOrder) (w : Nat) :
    Follows blob (number blob short order w) (Reader.number short order w) :=
  (follows_bytes short w).bind fun bs => Follows.pure (order.get bs)

theorem follows_iterate {step : σ → Cursor ε σ} {step' : σ → Reader ε σ}
    (h : ∀ s, Follows blob (step s) (step' s)) (n : Nat) (s : σ) :
    Follows blob (iterate step n s) (Reader.iterate step' n s) := by
  induction n generalizing s with
  | zero => exact Follows.pure s
  | succ n ih => exact (h s).bind ih

/-- From the start of the bytes a cursor has the outcome of its reader; nothing
is undefined. -/
theorem Follows.outcome {m : Cursor ε α} {n : Reader ε α} (h : Follows blob m n) :
    (m.outcome 0).1 = (n.outcome blob).1.mapError .error :=
  (h 0 blob ⟨Nat.zero_le _, rfl⟩).1

end Cursor

end Phpatcher.Basis
