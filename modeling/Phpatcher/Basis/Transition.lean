import Mathlib.Tactic

/-!
# Transition systems with events

A system that starts in one of some states and makes labelled steps. What
holds at the start and is kept by every step holds in every state reached;
a run whose steps all meet a condition is a run of the restricted system.
-/

namespace Phpatcher.Basis

/-- States `σ`, and steps that show an event of type `ε`. -/
structure Transition (σ ε : Type) where
  start : σ → Prop
  step : σ → ε → σ → Prop

namespace Transition

variable {σ ε : Type} {T : Transition σ ε}

/-- The states a run of the system passes through. -/
inductive Reachable (T : Transition σ ε) : σ → Prop
  | start {s} : T.start s → Reachable T s
  | step {s e t} : Reachable T s → T.step s e t → Reachable T t

/-- `P` holds in every state of every run. -/
def Invariant (T : Transition σ ε) (P : σ → Prop) : Prop := ∀ s, T.Reachable s → P s

/-- `P` holds at the start and every step keeps it. -/
structure Inductive (T : Transition σ ε) (P : σ → Prop) : Prop where
  start : ∀ s, T.start s → P s
  step : ∀ s e t, P s → T.step s e t → P t

theorem Inductive.invariant {P : σ → Prop} (h : T.Inductive P) : T.Invariant P := by
  intro s hs
  induction hs with
  | start hstart => exact h.start _ hstart
  | step _ hstep ih => exact h.step _ _ _ ih hstep

/-- The runs that start in a state and take only steps that meet a condition. -/
def restrict (T : Transition σ ε) (start : σ → Prop) (cond : σ → ε → σ → Prop) :
    Transition σ ε where
  start s := T.start s ∧ start s
  step s e t := T.step s e t ∧ cond s e t

/-- A restricted run is a run. -/
theorem Reachable.of_restrict {start : σ → Prop} {cond : σ → ε → σ → Prop} {s : σ}
    (h : (T.restrict start cond).Reachable s) : T.Reachable s := by
  induction h with
  | start hstart => exact .start hstart.1
  | step _ hstep ih => exact .step ih hstep.1

end Transition

end Phpatcher.Basis
