import Phpatcher.Basis.Transition

/-!
# Progress

Some events move a system on. When each of them makes a measure smaller, and one
of them can happen in every reachable state that is not settled, a run of such
events ends, and it ends in a settled state.
-/

namespace Phpatcher.Basis

namespace Transition

variable {σ ε : Type} {T : Transition σ ε}

/-- A run and the events it shows. -/
inductive Run (T : Transition σ ε) : σ → List ε → σ → Prop
  | nil (s) : Run T s [] s
  | cons {s e t es u} : T.step s e t → Run T t es u → Run T s (e :: es) u

theorem Run.append {s t u : σ} {es fs : List ε} (h : T.Run s es t) (h' : T.Run t fs u) :
    T.Run s (es ++ fs) u := by
  induction h with
  | nil => exact h'
  | cons hstep _ ih => exact .cons hstep (ih h')

/-- A run goes from reachable states to reachable states. -/
theorem Reachable.run {s t : σ} {es : List ε} (hs : T.Reachable s) (h : T.Run s es t) :
    T.Reachable t := by
  induction h with
  | nil => exact hs
  | cons hstep _ ih => exact ih (hs.step hstep)

/-- The runs of events that move the system on, counted by a measure. -/
structure Progress (T : Transition σ ε) (moves : ε → Prop) (settled : σ → Prop)
    (measure : σ → Nat) : Prop where
  enabled : ∀ s, T.Reachable s → ¬ settled s → ∃ e t, moves e ∧ T.step s e t
  decreases : ∀ s e t, T.Reachable s → moves e → T.step s e t → measure t < measure s

variable {moves : ε → Prop} {settled : σ → Prop} {measure : σ → Nat}

/-- No such run is longer than the measure. -/
theorem Progress.length_le (h : T.Progress moves settled measure) {s t : σ} {es : List ε}
    (hs : T.Reachable s) (hrun : T.Run s es t) (hmoves : ∀ e ∈ es, moves e) :
    es.length + measure t ≤ measure s := by
  induction hrun with
  | nil => simp
  | cons hstep _ ih =>
      rw [List.forall_mem_cons] at hmoves
      have hless := h.decreases _ _ _ hs hmoves.1 hstep
      have hrest := ih (hs.step hstep) hmoves.2
      rw [List.length_cons]
      omega

/-- A run that cannot go on has settled. -/
theorem Progress.settled_of_stuck (h : T.Progress moves settled measure) {s : σ}
    (hs : T.Reachable s) (hstuck : ∀ e t, moves e → ¬ T.step s e t) : settled s := by
  by_contra hopen
  obtain ⟨e, t, hmove, hstep⟩ := h.enabled s hs hopen
  exact hstuck e t hmove hstep

/-- From every reachable state such a run settles. -/
theorem Progress.settles (h : T.Progress moves settled measure) {s : σ} (hs : T.Reachable s) :
    ∃ es t, T.Run s es t ∧ (∀ e ∈ es, moves e) ∧ settled t := by
  by_cases hopen : settled s
  · exact ⟨[], s, .nil s, by simp, hopen⟩
  · obtain ⟨e, t, hmove, hstep⟩ := h.enabled s hs hopen
    have hless := h.decreases _ _ _ hs hmove hstep
    obtain ⟨es, u, hrun, hmoves, hsettled⟩ := h.settles (hs.step hstep)
    exact ⟨e :: es, u, .cons hstep hrun, List.forall_mem_cons.mpr ⟨hmove, hmoves⟩, hsettled⟩
  termination_by measure s

/-- A condition that the moves meet takes no progress away. -/
theorem Progress.restrict (h : T.Progress moves settled measure) {start : σ → Prop}
    {cond : σ → ε → σ → Prop} (hcond : ∀ s e t, moves e → T.step s e t → cond s e t) :
    (T.restrict start cond).Progress moves settled measure where
  enabled s hs hopen := by
    obtain ⟨e, t, hmove, hstep⟩ := h.enabled s hs.of_restrict hopen
    exact ⟨e, t, hmove, hstep, hcond s e t hmove hstep⟩
  decreases s e t hs hmove hstep := h.decreases s e t hs.of_restrict hmove hstep.1

end Transition

end Phpatcher.Basis
