import Mathlib.Data.List.Sort
import Mathlib.Tactic

/-!
# Sorting and searching by key

`std::sort` promises a permutation in the order of the keys and leaves the
order of equal keys open. A `Sorter` is one way to keep that promise; what is
proved for every `Sorter` holds whatever the library does with ties.

`std::lower_bound` and `std::binary_search` are modelled by their contract on
a sorted range: the first element that is not below the key.

Two arrangements of one list that both keep a relation between what comes
first and what comes later differ by neighbours that may stand either way
(`exchange_of_perm`).
-/

namespace Phpatcher.Basis

variable {α β κ : Type*} [LinearOrder κ]

/-- One way to sort by a key, ties in any order. -/
structure Sorter (key : α → κ) where
  run : List α → List α
  perm : ∀ l, (run l).Perm l
  sorted : ∀ l, (run l).Pairwise fun a b => key a ≤ key b

/-- The sorter that keeps equal keys in the order they came in. -/
def Sorter.stable (key : α → κ) : Sorter key where
  run := List.insertionSort fun a b => key a ≤ key b
  perm l := List.perm_insertionSort _ l
  sorted l := by
    have : Std.Total fun a b : α => key a ≤ key b := ⟨fun a b => le_total (key a) (key b)⟩
    have : IsTrans α fun a b : α => key a ≤ key b := ⟨fun _ _ _ => le_trans⟩
    exact List.pairwise_insertionSort _ l

@[simp] theorem Sorter.mem_run {key : α → κ} (sorter : Sorter key) {l : List α} {a : α} :
    a ∈ sorter.run l ↔ a ∈ l := (sorter.perm l).mem_iff

/-- The elements from the first one on whose key is not below `k`. -/
def lowerBound (key : α → κ) (k : κ) (l : List α) : List α := l.dropWhile fun a => key a < k

/-- Search a list sorted by key for the key `k`. -/
def searchSorted (l : List (κ × β)) (k : κ) : Option β :=
  match lowerBound Prod.fst k l with
  | [] => none
  | e :: _ => if e.1 = k then some e.2 else none

/-- On a sorted list the search finds the first entry under the key. -/
theorem searchSorted_eq_find? {l : List (κ × β)} (h : l.Pairwise fun a b => a.1 ≤ b.1) (k : κ) :
    searchSorted l k = (l.find? fun e => e.1 = k).map Prod.snd := by
  induction l with
  | nil => rfl
  | cons e l ih =>
      rw [List.pairwise_cons] at h
      rcases lt_trichotomy e.1 k with hlt | heq | hgt
      · -- below the key: the search passes over the entry
        simpa [searchSorted, lowerBound, hlt, hlt.ne] using ih h.2
      · simp [searchSorted, lowerBound, heq]
      · -- above the key: it stands nowhere behind
        have habsent : l.find? (fun e => e.1 = k) = none := by
          rw [List.find?_eq_none]
          intro d hd
          have := (hgt.trans_le (h.1 d hd)).ne'
          simpa using this
        simp [searchSorted, lowerBound, hgt.not_gt, hgt.ne', habsent]

/-- The search succeeds exactly under the keys of the list. -/
theorem searchSorted_isSome {l : List (κ × β)} (h : l.Pairwise fun a b => a.1 ≤ b.1) (k : κ) :
    (searchSorted l k).isSome ↔ ∃ e ∈ l, e.1 = k := by
  rw [searchSorted_eq_find? h, Option.isSome_map, List.find?_isSome]
  simp

/-- What the search finds stands in the list. -/
theorem mem_of_searchSorted {l : List (κ × β)} (h : l.Pairwise fun a b => a.1 ≤ b.1) {k : κ}
    {v : β} (hv : searchSorted l k = some v) : (k, v) ∈ l := by
  rw [searchSorted_eq_find? h, Option.map_eq_some_iff] at hv
  obtain ⟨⟨k', v'⟩, hfind, rfl⟩ := hv
  have hkey : k' = k := by simpa using List.find?_some hfind
  rw [← hkey]
  exact List.mem_of_find?_eq_some hfind

/-- With distinct keys the search in the sorted list finds what the list holds. -/
theorem searchSorted_run_eq_some (sorter : Sorter (Prod.fst : κ × β → κ)) {l : List (κ × β)}
    (h : (l.map Prod.fst).Nodup) {k : κ} {v : β} :
    searchSorted (sorter.run l) k = some v ↔ (k, v) ∈ l := by
  constructor
  · exact fun hfind => sorter.mem_run.mp (mem_of_searchSorted (sorter.sorted l) hfind)
  · intro hmem
    have hsome := (searchSorted_isSome (sorter.sorted l) k).mpr ⟨_, sorter.mem_run.mpr hmem, rfl⟩
    obtain ⟨v', hfind⟩ := Option.isSome_iff_exists.mp hsome
    have hmem' := sorter.mem_run.mp (mem_of_searchSorted (sorter.sorted l) hfind)
    have hsame := List.inj_on_of_nodup_map h hmem' hmem rfl
    rw [hfind, (Prod.mk.inj hsame).2]

/-- Search a sorted list for a value. -/
def containsSorted (l : List κ) (k : κ) : Bool :=
  match lowerBound id k l with
  | [] => false
  | a :: _ => !decide (k < a)

theorem containsSorted_iff {l : List κ} (h : l.Pairwise (· ≤ ·)) (k : κ) :
    containsSorted l k = true ↔ k ∈ l := by
  induction l with
  | nil => simp [containsSorted, lowerBound]
  | cons a l ih =>
      rw [List.pairwise_cons] at h
      rcases lt_trichotomy a k with hlt | heq | hgt
      · have hstep : containsSorted (a :: l) k = containsSorted l k := by
          simp [containsSorted, lowerBound, hlt]
        rw [hstep, ih h.2, List.mem_cons, or_iff_right hlt.ne']
      · simp [containsSorted, lowerBound, heq]
      · have habsent : k ∉ l := fun hk => absurd (h.1 k hk) hgt.not_ge
        simp [containsSorted, lowerBound, hgt.not_gt, hgt, hgt.ne, habsent]

/-! ## Arrangements -/

/-- Swaps of neighbours that the relation admits in either order. -/
inductive Exchange (R : α → α → Prop) : List α → List α → Prop
  | refl (l : List α) : Exchange R l l
  | swap {l : List α} (pre : List α) (a b : α) (post : List α) (hab : R a b) (hba : R b a)
      (rest : Exchange R (pre ++ b :: a :: post) l) : Exchange R (pre ++ a :: b :: post) l

variable {R : α → α → Prop}

theorem Exchange.trans {l m n : List α} (h : Exchange R l m) (h' : Exchange R m n) :
    Exchange R l n := by
  induction h with
  | refl _ => exact h'
  | swap pre a b post hab hba _ ih => exact .swap pre a b post hab hba (ih h')

theorem Exchange.cons (c : α) {l m : List α} (h : Exchange R l m) :
    Exchange R (c :: l) (c :: m) := by
  induction h with
  | refl _ => exact .refl _
  | swap pre a b post hab hba _ ih => exact .swap (c :: pre) a b post hab hba ih

/-- An element moves past all it may stand behind as well as in front of. -/
theorem exchange_front {c : α} {pre : List α} (h : ∀ a ∈ pre, R c a ∧ R a c) (post : List α) :
    Exchange R (c :: (pre ++ post)) (pre ++ c :: post) := by
  induction pre with
  | nil => exact .refl _
  | cons a pre ih =>
      rw [List.forall_mem_cons] at h
      obtain ⟨⟨hca, hac⟩, hpre⟩ := h
      show Exchange R ([] ++ c :: a :: (pre ++ post)) (a :: (pre ++ c :: post))
      exact .swap [] c a _ hca hac ((ih hpre).cons a)

/-- **Arrangements.** Two arrangements of a list that both keep the relation
come from each other by swaps of neighbours it admits in either order. -/
theorem exchange_of_perm {l m : List α} (hperm : m.Perm l) (hl : l.Pairwise R)
    (hm : m.Pairwise R) : Exchange R l m := by
  induction l generalizing m with
  | nil =>
      obtain rfl := hperm.eq_nil
      exact .refl _
  | cons c l ih =>
      obtain ⟨pre, post, rfl⟩ := List.append_of_mem (hperm.mem_iff.mpr List.mem_cons_self)
      have hrest : (pre ++ post).Perm l := (List.perm_middle.symm.trans hperm).cons_inv
      rw [List.pairwise_cons] at hl
      have hsub : (pre ++ post).Sublist (pre ++ c :: post) :=
        (List.sublist_cons_self c post).append_left pre
      -- what stands in front of `c` in the second list stands behind it in the first
      have hboth : ∀ a ∈ pre, R c a ∧ R a c := by
        intro a ha
        refine ⟨hl.1 a (hrest.mem_iff.mp (List.mem_append_left post ha)), ?_⟩
        exact (List.pairwise_append.mp hm).2.2 a ha c List.mem_cons_self
      exact ((ih hrest hl.2 (hm.sublist hsub)).cons c).trans (exchange_front hboth post)

theorem mem_swap {pre post : List α} {a b c : α} :
    c ∈ pre ++ b :: a :: post ↔ c ∈ pre ++ a :: b :: post := by
  simp only [List.mem_append, List.mem_cons, or_left_comm]

/-- An element may be moved in front of all that it admits behind itself. -/
theorem pairwise_move {pre mid post : List α} {b : α} (hb : ∀ a ∈ mid, R b a)
    (h : (pre ++ (mid ++ b :: post)).Pairwise R) : (pre ++ b :: (mid ++ post)).Pairwise R := by
  rw [List.pairwise_append, List.pairwise_append, List.pairwise_cons] at h
  obtain ⟨hpre, ⟨hmid, ⟨hbehind, hpost⟩, hcross⟩, hfront⟩ := h
  rw [List.pairwise_append, List.pairwise_cons, List.pairwise_append, List.forall_mem_append]
  refine ⟨hpre, ⟨⟨hb, hbehind⟩, hmid, hpost, ?_⟩, ?_⟩
  · exact fun a ha c hc => hcross a ha c (List.mem_cons_of_mem b hc)
  · intro a ha c hc
    exact hfront a ha c (List.perm_middle.mem_iff.mpr hc)

end Phpatcher.Basis
