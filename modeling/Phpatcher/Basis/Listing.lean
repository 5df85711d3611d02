import Mathlib.Algebra.BigOperators.Group.List.Basic
import Mathlib.Tactic

/-!
# Trees of listings, and the iterator through them

A directory tree as it is read: a listing gives one entry after the other, some of
which lead to a listing of their own, until it ends or cannot be read on. The
iterator keeps the listings that are open. A loop over it visits the entries in the
order of the recursion over the tree, without those below an entry that is not
entered, and ends with an error exactly where that recursion meets one.
-/

namespace Phpatcher.Basis

variable {α β σ : Type}

/-- What is left of a listing: entries that have listings of their own, and others. -/
inductive Listing (α β : Type) where
  | done
  | failed
  | branch (name : α) (inner rest : Listing α β)
  | leaf (entry : β) (rest : Listing α β)

/-- What a loop over entries meets: each entry under the path of its listing, and
whether it ends with an error. -/
structure Visits (α β : Type) where
  entries : List (List α × (α ⊕ β)) := []
  error : Bool := false

namespace Visits

/-- One visit before others. -/
def cons (path : List α) (entry : α ⊕ β) (v : Visits α β) : Visits α β :=
  { v with entries := (path, entry) :: v.entries }

/-- Visits behind each other; there are none behind an error. -/
def append (v w : Visits α β) : Visits α β :=
  if v.error then v else { entries := v.entries ++ w.entries, error := w.error }

theorem cons_append (path : List α) (entry : α ⊕ β) (v w : Visits α β) :
    (v.cons path entry).append w = (v.append w).cons path entry := by
  unfold append cons
  split <;> rfl

theorem append_assoc (u v w : Visits α β) : (u.append v).append w = u.append (v.append w) := by
  cases hu : u.error with
  | true => simp [append, hu]
  | false => cases hv : v.error <;> simp [append, hu, hv]

@[simp] theorem empty_append (v : Visits α β) : ({} : Visits α β).append v = v := rfl

@[simp] theorem append_empty (v : Visits α β) : v.append {} = v := by
  obtain ⟨entries, error⟩ := v
  cases error <;> simp [append]

/-- What a loop makes of a state. -/
def run (visit : List α → α ⊕ β → σ → σ) (v : Visits α β) (s : σ) : σ × Bool :=
  (v.entries.foldl (fun s e => visit e.1 e.2 s) s, v.error)

/-- The entries without a listing of their own. -/
def leaves (v : Visits α β) : List (List α × β) :=
  v.entries.filterMap fun e => e.2.getRight?.map (e.1, ·)

end Visits

namespace Listing

/-- The number of entries. -/
def size : Listing α β → Nat
  | .done | .failed => 0
  | .branch _ inner rest => inner.size + rest.size + 1
  | .leaf _ rest => rest.size + 1

/-- The recursion over a tree. -/
def visits (enter : α → Bool) (path : List α) : Listing α β → Visits α β
  | .done => {}
  | .failed => { error := true }
  | .branch name inner rest =>
      ((if enter name then inner.visits enter (path ++ [name]) else {}).append
        (rest.visits enter path)).cons path (.inl name)
  | .leaf entry rest => (rest.visits enter path).cons path (.inr entry)

end Listing

/-- The iterator: past the end, perhaps for an error, or at an entry, with what
follows it and the rest of the listings around. -/
inductive Iterator (α β : Type) where
  | past (error : Bool)
  | branch (path : List α) (name : α) (inner rest : Listing α β)
      (outer : List (List α × Listing α β))
  | leaf (path : List α) (entry : β) (rest : Listing α β) (outer : List (List α × Listing α β))

namespace Iterator

/-- At the first entry of the listings that are open. -/
def settle : List (List α × Listing α β) → Iterator α β
  | [] => .past false
  | (_, .done) :: outer => settle outer
  | (_, .failed) :: _ => .past true
  | (path, .branch name inner rest) :: outer => .branch path name inner rest outer
  | (path, .leaf entry rest) :: outer => .leaf path entry rest outer

/-- At the first entry of a tree. -/
def start (root : Listing α β) : Iterator α β := settle [([], root)]

/-- To the next entry, which may be below the one it is at. -/
def increment (pending : Bool) : Iterator α β → Iterator α β
  | .past error => .past error
  | .branch path name inner rest outer =>
      settle ((if pending then [(path ++ [name], inner)] else []) ++ (path, rest) :: outer)
  | .leaf path _ rest outer => settle ((path, rest) :: outer)

/-- The loop: every entry is visited, and entered if it is to be. -/
def loop (enter : α → Bool) (visit : List α → α ⊕ β → σ → σ) :
    Nat → Iterator α β → σ → Option (σ × Bool)
  | _, .past error, s => some (s, error)
  | 0, _, _ => none
  | fuel + 1, it@(.branch path name _ _ _), s =>
      loop enter visit fuel (it.increment (enter name)) (visit path (.inl name) s)
  | fuel + 1, it@(.leaf path entry _ _), s =>
      loop enter visit fuel (it.increment false) (visit path (.inr entry) s)

/-- The entries that open listings are still good for. -/
def size (levels : List (List α × Listing α β)) : Nat := (levels.map fun l => l.2.size).sum

/-- The recursion over the open listings. -/
def visits (enter : α → Bool) : List (List α × Listing α β) → Visits α β
  | [] => {}
  | level :: outer => (level.2.visits enter level.1).append (visits enter outer)

theorem run_cons (visit : List α → α ⊕ β → σ → σ) (path : List α) (entry : α ⊕ β)
    (v : Visits α β) (s : σ) : (v.cons path entry).run visit s = v.run visit (visit path entry s) :=
  rfl

@[simp] theorem size_cons (path : List α) (listing : Listing α β)
    (outer : List (List α × Listing α β)) :
    size ((path, listing) :: outer) = listing.size + size outer := by
  simp [size]

/-- With fuel for every entry the loop visits what the recursion does. -/
theorem loop_settle (enter : α → Bool) (visit : List α → α ⊕ β → σ → σ) (fuel : Nat)
    (levels : List (List α × Listing α β)) (s : σ) (hsize : size levels ≤ fuel) :
    loop enter visit fuel (settle levels) s = some ((visits enter levels).run visit s) := by
  induction fuel using Nat.strong_induction_on generalizing levels s with
  | _ fuel ihfuel =>
      -- the listings that have ended are left first
      fun_induction settle levels with
      | case1 => cases fuel <;> rfl
      | case2 path outer ih => exact ih (by simpa [Listing.size] using hsize)
      | case3 path outer => cases fuel <;> rfl
      | case4 path name inner rest outer =>
          rw [size_cons, Listing.size] at hsize
          obtain ⟨fuel, rfl⟩ : ∃ n, fuel = n + 1 := ⟨fuel - 1, by omega⟩
          have hnext := ihfuel fuel (Nat.lt_succ_self fuel)
            ((if enter name then [(path ++ [name], inner)] else []) ++ (path, rest) :: outer)
            (visit path (.inl name) s) (by split <;> simp <;> omega)
          rw [loop, increment, hnext]
          simp only [visits, Listing.visits, Visits.cons_append, run_cons]
          cases enter name with
          | true => simp [visits, Visits.append_assoc]
          | false => simp [visits]
      | case5 path entry rest outer =>
          rw [size_cons, Listing.size] at hsize
          obtain ⟨fuel, rfl⟩ : ∃ n, fuel = n + 1 := ⟨fuel - 1, by omega⟩
          have hnext := ihfuel fuel (Nat.lt_succ_self fuel) ((path, rest) :: outer)
            (visit path (.inr entry) s) (by rw [size_cons]; omega)
          rw [loop, increment, hnext]
          simp only [visits, Listing.visits, Visits.cons_append, run_cons]

/-- The loop over a tree is the recursion over it. -/
theorem loop_start (enter : α → Bool) (visit : List α → α ⊕ β → σ → σ) (root : Listing α β)
    (s : σ) :
    loop enter visit root.size (start root) s = some ((root.visits enter []).run visit s) := by
  rw [start, loop_settle enter visit _ _ _ (by simp [size])]
  simp [visits]

end Iterator

end Phpatcher.Basis
