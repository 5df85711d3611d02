import Mathlib.Tactic

/-!
# Bounded channels

What is under way in a channel that holds a bounded number of items. Items are
put in at one end and taken at the other; a channel with room for at least one
item can always be used at one of its ends.
-/

namespace Phpatcher.Basis

/-- The items under way in a channel, the next one to be taken first. -/
structure Channel (α : Type) (capacity : Nat) where
  items : List α := []
  fits : items.length ≤ capacity := by exact Nat.zero_le _

namespace Channel

variable {α : Type} {capacity : Nat}

/-- Put items in, as far as there is room. -/
def Put (c : Channel α capacity) (xs : List α) (c' : Channel α capacity) : Prop :=
  xs ≠ [] ∧ c'.items = c.items ++ xs

/-- Take items out. -/
def Took (c : Channel α capacity) (xs : List α) (c' : Channel α capacity) : Prop :=
  xs ≠ [] ∧ c.items = xs ++ c'.items

/-- Where there is room an item can be put in. -/
theorem exists_put {c : Channel α capacity} (h : c.items.length < capacity) (x : α) :
    ∃ c', c.Put [x] c' :=
  ⟨⟨c.items ++ [x], by rw [List.length_append]; exact h⟩, List.cons_ne_nil _ _, rfl⟩

/-- Some of the first items that are under way can be taken. -/
theorem exists_took {c : Channel α capacity} {x : α} {xs : List α} (h : c.items = x :: xs) :
    ∃ c' : Channel α capacity, c.Took [x] c' ∧ c'.items = xs := by
  have hfits := c.fits
  rw [h, List.length_cons] at hfits
  exact ⟨⟨xs, by omega⟩, ⟨List.cons_ne_nil _ _, h⟩, rfl⟩

/-- A channel is of use at one end at least. -/
theorem room_or_item (c : Channel α capacity) (h : 0 < capacity) :
    c.items.length < capacity ∨ ∃ x xs, c.items = x :: xs := by
  cases hitems : c.items with
  | nil => exact .inl (by simpa using h)
  | cons x xs => exact .inr ⟨x, xs, rfl⟩

theorem Put.length {c c' : Channel α capacity} {xs : List α} (h : c.Put xs c') :
    c'.items.length = c.items.length + xs.length := by
  rw [h.2, List.length_append]

theorem Took.length {c c' : Channel α capacity} {xs : List α} (h : c.Took xs c') :
    c.items.length = xs.length + c'.items.length := by
  rw [h.2, List.length_append]

end Channel

end Phpatcher.Basis
