/-!
# Computations and what they look at

A computation that asks a question whose answer may be missing stops there. Beside
it stands one that gets every answer and keeps a list of what it asked: the first
one ends well exactly if no question on the list is a missing one, and then with
the value of the second.
-/

namespace Phpatcher.Basis

/-- A value, and what was asked on the way. -/
structure Traced (γ α : Type) where
  value : α
  trace : List γ
  deriving DecidableEq, Repr

namespace Traced

variable {γ α β : Type}

instance : Monad (Traced γ) where
  pure a := ⟨a, []⟩
  bind x f := ⟨(f x.value).value, x.trace ++ (f x.value).trace⟩

/-- A question, with its answer. -/
def ask (question : γ) (answer : α) : Traced γ α := ⟨answer, [question]⟩

@[simp] theorem value_pure (a : α) : (pure a : Traced γ α).value = a := rfl

@[simp] theorem trace_pure (a : α) : (pure a : Traced γ α).trace = [] := rfl

@[simp] theorem value_bind (x : Traced γ α) (f : α → Traced γ β) :
    (x >>= f).value = (f x.value).value := rfl

@[simp] theorem trace_bind (x : Traced γ α) (f : α → Traced γ β) :
    (x >>= f).trace = x.trace ++ (f x.value).trace := rfl

/-- A loop has the value of the loop over the values. -/
theorem value_foldlM {f : β → α → Traced γ β} {g : β → α → β}
    (h : ∀ b a, (f b a).value = g b a) (l : List α) (b : β) :
    (l.foldlM f b).value = l.foldl g b := by
  induction l generalizing b with
  | nil => rfl
  | cons a l ih => rw [List.foldlM_cons, value_bind, ih, h, List.foldl_cons]

/-- What a loop asks, it asks in one of its turns. -/
theorem mem_trace_foldlM {f : β → α → Traced γ β} {l : List α} {b : β} {q : γ}
    (h : q ∈ (l.foldlM f b).trace) : ∃ a ∈ l, ∃ b, q ∈ (f b a).trace := by
  induction l generalizing b with
  | nil => exact absurd h (List.not_mem_nil)
  | cons a l ih =>
      rw [List.foldlM_cons, trace_bind, List.mem_append] at h
      rcases h with hfirst | hrest
      · exact ⟨a, List.mem_cons_self, b, hfirst⟩
      · obtain ⟨a', ha', hasked⟩ := ih hrest
        exact ⟨a', List.mem_cons_of_mem a ha', hasked⟩

/-- The computation `x` is `t`, stopped at the first question that has no answer. -/
def Stops (answered : γ → Prop) (x : Option α) (t : Traced γ α) : Prop :=
  ((∀ q ∈ t.trace, answered q) ∧ x = some t.value) ∨ ((∃ q ∈ t.trace, ¬ answered q) ∧ x = none)

variable {answered : γ → Prop}

theorem Stops.pure (a : α) : Stops answered (Pure.pure a) (Pure.pure a : Traced γ α) :=
  .inl ⟨by simp, rfl⟩

theorem Stops.bind {x : Option α} {t : Traced γ α} {f : α → Option β} {g : α → Traced γ β}
    (h : Stops answered x t) (hfg : ∀ a, Stops answered (f a) (g a)) :
    Stops answered (x >>= f) (t >>= g) := by
  rcases h with ⟨hall, rfl⟩ | ⟨⟨q, hq, hnot⟩, rfl⟩
  · rcases hfg t.value with ⟨hrest, heq⟩ | ⟨⟨q, hq, hnot⟩, heq⟩
    · exact .inl ⟨List.forall_mem_append.mpr ⟨hall, hrest⟩, heq⟩
    · exact .inr ⟨⟨q, List.mem_append_right _ hq, hnot⟩, heq⟩
  · exact .inr ⟨⟨q, List.mem_append_left _ hq, hnot⟩, rfl⟩

theorem Stops.foldlM {f : β → α → Option β} {g : β → α → Traced γ β}
    (h : ∀ b a, Stops answered (f b a) (g b a)) (l : List α) (b : β) :
    Stops answered (l.foldlM f b) (l.foldlM g b) := by
  induction l generalizing b with
  | nil => exact Stops.pure b
  | cons a l ih =>
      rw [List.foldlM_cons, List.foldlM_cons]
      exact (h b a).bind ih

theorem Stops.ite {c : Prop} [Decidable c] {x y : Option α} {t u : Traced γ α}
    (h : Stops answered x t) (h' : Stops answered y u) :
    Stops answered (if c then x else y) (if c then t else u) := by
  split
  · exact h
  · exact h'

theorem Stops.isSome_iff {x : Option α} {t : Traced γ α} (h : Stops answered x t) :
    x.isSome ↔ ∀ q ∈ t.trace, answered q := by
  rcases h with ⟨hall, rfl⟩ | ⟨⟨q, hq, hnot⟩, rfl⟩
  · exact ⟨fun _ => hall, fun _ => rfl⟩
  · exact ⟨fun hsome => absurd hsome (by simp), fun hall => absurd (hall q hq) hnot⟩

theorem Stops.eq_value {x : Option α} {t : Traced γ α} (h : Stops answered x t) {a : α}
    (ha : x = some a) : a = t.value := by
  rcases h with ⟨_, rfl⟩ | ⟨_, rfl⟩
  · exact (Option.some.inj ha).symm
  · cases ha

end Traced

end Phpatcher.Basis
