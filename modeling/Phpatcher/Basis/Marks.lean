import Mathlib.Tactic

/-!
# Words with marks

Words over letters and marks, where a mark is a place a word is filled in at
later. Two words in which no mark occurs twice are equal when no filling tells
them apart, although a mark can only be left empty or be filled with one of two
words of the same length.
-/

namespace Phpatcher.Basis

variable {α β : Type*}

/-- Powers of a word. -/
theorem append_flatten_replicate {z d : List α} (h : d ++ z = z ++ d) (n : Nat) :
    d ++ (List.replicate n z).flatten = (List.replicate n z).flatten ++ d := by
  induction n with
  | zero => simp
  | succ n ih =>
      rw [List.replicate_succ, List.flatten_cons, ← List.append_assoc, h, List.append_assoc, ih,
        List.append_assoc]

/-- Of one length only one word commutes with a given word. -/
theorem eq_of_append_comm {z d d' : List α} (hz : z ≠ []) (hlen : d.length = d'.length)
    (h : d ++ z = z ++ d) (h' : d' ++ z = z ++ d') : d = d' := by
  -- both are the start of a power of `z`
  let power := (List.replicate d.length z).flatten
  have hlong : d.length ≤ power.length := by
    have hpos := List.length_pos_of_ne_nil hz
    simp only [power, List.length_flatten, List.map_replicate, List.sum_replicate, smul_eq_mul]
    exact Nat.le_mul_of_pos_right _ hpos
  have hprefix : ∀ e : List α, e.length = d.length → e ++ z = z ++ e → e <+: power := by
    intro e he hcomm
    refine List.prefix_of_prefix_length_le (List.prefix_append e power) ?_ (he ▸ hlong)
    rw [append_flatten_replicate hcomm]
    exact List.prefix_append _ _
  have hd := hprefix d rfl h
  have hd' := hprefix d' hlen.symm h'
  exact (List.prefix_of_prefix_length_le hd hd' hlen.le).eq_of_length hlen

/-! ## Filling in -/

/-- The word with its marks filled in. -/
def fill (φ : β → List α) (w : List (α ⊕ β)) : List α := w.flatMap (Sum.elim (fun a => [a]) φ)

@[simp] theorem fill_nil (φ : β → List α) : fill φ [] = [] := rfl

@[simp] theorem fill_letter (φ : β → List α) (a : α) (w : List (α ⊕ β)) :
    fill φ (.inl a :: w) = a :: fill φ w := rfl

@[simp] theorem fill_mark (φ : β → List α) (m : β) (w : List (α ⊕ β)) :
    fill φ (.inr m :: w) = φ m ++ fill φ w := rfl

@[simp] theorem fill_append (φ : β → List α) (v w : List (α ⊕ β)) :
    fill φ (v ++ w) = fill φ v ++ fill φ w := List.flatMap_append

/-- The marks of a word. -/
def marks (w : List (α ⊕ β)) : List β := w.filterMap Sum.getRight?

@[simp] theorem marks_nil : marks ([] : List (α ⊕ β)) = [] := rfl

@[simp] theorem marks_letter (a : α) (w : List (α ⊕ β)) : marks (.inl a :: w) = marks w := rfl

@[simp] theorem marks_mark (m : β) (w : List (α ⊕ β)) : marks (.inr m :: w) = m :: marks w := rfl

@[simp] theorem marks_append (v w : List (α ⊕ β)) : marks (v ++ w) = marks v ++ marks w :=
  List.filterMap_append

/-- Only the marks that occur matter. -/
theorem fill_congr {φ φ' : β → List α} {w : List (α ⊕ β)} (h : ∀ m ∈ marks w, φ m = φ' m) :
    fill φ w = fill φ' w := by
  induction w with
  | nil => rfl
  | cons c w ih =>
      cases c with
      | inl a => rw [fill_letter, fill_letter, ih h]
      | inr m =>
          rw [marks_mark, List.forall_mem_cons] at h
          rw [fill_mark, fill_mark, h.1, ih h.2]

/-- A word around one of its marks. -/
theorem exists_eq_append_of_mem_marks {w : List (α ⊕ β)} {m : β} (h : m ∈ marks w) :
    ∃ u v, w = u ++ .inr m :: v := by
  obtain ⟨c, hc, hm⟩ := List.mem_filterMap.mp h
  obtain ⟨u, v, rfl⟩ := List.append_of_mem hc
  cases c with
  | inl a => simp at hm
  | inr m' =>
      obtain rfl : m' = m := by simpa using hm
      exact ⟨u, v, rfl⟩

section

variable {D : β → Bool → List α}

/-- A filling: each mark is left empty, or filled with one of its two words. -/
def filling (D : β → Bool → List α) (ψ : β → Option Bool) (m : β) : List α :=
  (ψ m).elim [] (D m)

/-- The two words of a mark are not empty. -/
theorem word_ne_nil (hlen : ∀ m, (D m true).length = (D m false).length)
    (hne : ∀ m, D m true ≠ D m false) (m : β) : D m true ≠ [] := by
  intro hnil
  have hzero := hlen m
  rw [hnil, List.length_nil] at hzero
  exact hne m (hnil.trans (List.length_eq_zero_iff.mp hzero.symm).symm)

variable [DecidableEq β]

theorem filling_update_of_not_mem (ψ : β → Option Bool) {m : β} (o : Option Bool)
    {w : List (α ⊕ β)} (h : m ∉ marks w) :
    fill (filling D (Function.update ψ m o)) w = fill (filling D ψ) w := by
  apply fill_congr
  intro k hk
  rw [filling, filling, Function.update_of_ne]
  rintro rfl
  exact h hk

/-- One mark of a word filled in anew. -/
theorem fill_update_mark (ψ : β → Option Bool) {m : β} (o : Option Bool) {u v : List (α ⊕ β)}
    (hu : m ∉ marks u) (hv : m ∉ marks v) :
    fill (filling D (Function.update ψ m o)) (u ++ .inr m :: v) =
      fill (filling D ψ) u ++ (o.elim [] (D m) ++ fill (filling D ψ) v) := by
  have hself : filling D (Function.update ψ m o) m = o.elim [] (D m) := by
    rw [filling, Function.update_self]
  rw [fill_append, fill_mark, hself, filling_update_of_not_mem ψ o hu,
    filling_update_of_not_mem ψ o hv]

/-- A word that starts with a mark and one that starts with something else are
told apart by a filling of that mark. -/
theorem exists_filling_ne (hlen : ∀ m, (D m true).length = (D m false).length)
    (hne : ∀ m, D m true ≠ D m false) (ψ : β → Option Bool) {m : β} {v w : List (α ⊕ β)}
    (hv : m ∉ marks v) (hw : (marks w).Nodup)
    (hstart : ∃ c w', w = c :: w' ∧ c ≠ .inr m ∧ fill (filling D ψ) [c] ≠ []) :
    ∃ o, fill (filling D (Function.update ψ m o)) (.inr m :: v) ≠
      fill (filling D (Function.update ψ m o)) w := by
  by_contra hnone
  push Not at hnone
  -- in front of the mark both words hold the same
  have hfill : ∀ o, o.elim [] (D m) ++ fill (filling D ψ) v =
      fill (filling D (Function.update ψ m o)) w := by
    intro o
    rw [← hnone o]
    exact (fill_update_mark ψ o (u := []) (by simp) hv).symm
  have hempty := hfill none
  by_cases hmem : m ∈ marks w
  · obtain ⟨u, v', rfl⟩ := exists_eq_append_of_mem_marks hmem
    rw [marks_append, marks_mark, List.nodup_append] at hw
    obtain ⟨_, hnodup, hdisjoint⟩ := hw
    have hu : m ∉ marks u := fun h => hdisjoint m h m List.mem_cons_self rfl
    have hv' : m ∉ marks v' := (List.nodup_cons.mp hnodup).1
    have hfront : fill (filling D ψ) u ≠ [] := by
      obtain ⟨c, w', heq, hc, hfill⟩ := hstart
      cases u with
      | nil => exact absurd (List.cons.inj heq).1.symm hc
      | cons d u =>
          obtain rfl := (List.cons.inj heq).1
          rw [← List.singleton_append, fill_append]
          exact List.append_ne_nil_of_left_ne_nil hfill _
    -- so either word of the mark commutes with what stands in front of it
    rw [fill_update_mark ψ none hu hv', Option.elim_none, List.nil_append, List.nil_append]
      at hempty
    have hcomm : ∀ b, D m b ++ fill (filling D ψ) u = fill (filling D ψ) u ++ D m b := by
      intro b
      have hb := hfill (some b)
      rw [fill_update_mark ψ (some b) hu hv', Option.elim_some, hempty, ← List.append_assoc,
        ← List.append_assoc] at hb
      exact List.append_cancel_right hb
    exact hne m (eq_of_append_comm hfront (hlen m) (hcomm true) (hcomm false))
  · -- the other word does not change with the mark
    have hconst : ∀ b, D m b = [] := by
      intro b
      have hb := hfill (some b)
      rw [filling_update_of_not_mem ψ _ hmem] at hb hempty
      rw [← hempty] at hb
      simpa using hb
    exact hne m (by rw [hconst, hconst])

/-- No mark in front stands against a letter, or against another mark. -/
theorem not_fill_eq (hlen : ∀ m, (D m true).length = (D m false).length)
    (hne : ∀ m, D m true ≠ D m false) {m : β} {v w : List (α ⊕ β)} {c : α ⊕ β}
    (hv : m ∉ marks v) (hw : (marks (c :: w)).Nodup) (hc : c ≠ .inr m) :
    ¬ ∀ ψ, fill (filling D ψ) (.inr m :: v) = fill (filling D ψ) (c :: w) := by
  intro hall
  obtain ⟨ψ, hψ⟩ : ∃ ψ, fill (filling D ψ) [c] ≠ [] := by
    cases c with
    | inl a => exact ⟨fun _ => none, by simp⟩
    | inr k => exact ⟨fun _ => some true, by simpa [filling] using word_ne_nil hlen hne k⟩
  obtain ⟨o, ho⟩ := exists_filling_ne hlen hne ψ hv hw ⟨c, w, rfl, hc, hψ⟩
  exact ho (hall _)

/-- **Words with marks.** -/
theorem eq_of_fill_eq (hlen : ∀ m, (D m true).length = (D m false).length)
    (hne : ∀ m, D m true ≠ D m false) {v w : List (α ⊕ β)} (hv : (marks v).Nodup)
    (hw : (marks w).Nodup) (h : ∀ ψ, fill (filling D ψ) v = fill (filling D ψ) w) : v = w := by
  have hfull := word_ne_nil hlen hne
  induction v generalizing w with
  | nil =>
      cases w with
      | nil => rfl
      | cons c w =>
          cases c with
          | inl a => exact absurd (h fun _ => none) (by simp)
          | inr m =>
              have hnil := h fun _ => some true
              rw [fill_nil, fill_mark] at hnil
              exact absurd (List.append_eq_nil_iff.mp hnil.symm).1 (hfull m)
  | cons d v ih =>
      cases d with
      | inl a =>
          cases w with
          | nil => exact absurd (h fun _ => none) (by simp)
          | cons c w =>
              cases c with
              | inl b =>
                  simp only [fill_letter, List.cons.injEq] at h
                  rw [(h fun _ => none).1, @ih w hv hw fun ψ => (h ψ).2]
              | inr m =>
                  exact absurd (fun ψ => (h ψ).symm)
                    (not_fill_eq hlen hne (List.nodup_cons.mp hw).1 hv (by simp))
      | inr m =>
          have hm := (List.nodup_cons.mp hv).1
          cases w with
          | nil =>
              have hnil := h fun _ => some true
              rw [fill_nil, fill_mark] at hnil
              exact absurd (List.append_eq_nil_iff.mp hnil).1 (hfull m)
          | cons c w =>
              by_cases hc : c = .inr m
              · subst hc
                rw [ih (List.nodup_cons.mp hv).2 (List.nodup_cons.mp hw).2 fun ψ =>
                  List.append_cancel_left (h ψ)]
              · exact absurd h (not_fill_eq hlen hne hm hw hc)

end

/-! ## Numbered marks -/

/-- The marks numbered from `k` on, in the order in which they occur. -/
def number : Nat → List (α ⊕ β) → List (α ⊕ (Nat × β))
  | _, [] => []
  | k, .inl a :: w => .inl a :: number k w
  | k, .inr m :: w => .inr (k, m) :: number (k + 1) w

theorem map_fst_marks_number (k : Nat) (w : List (α ⊕ β)) :
    (marks (number k w)).map Prod.fst = List.range' k (marks w).length := by
  induction w generalizing k with
  | nil => rfl
  | cons c w ih =>
      cases c with
      | inl a => exact ih k
      | inr m => simp [number, ih, List.range'_succ]

/-- Numbered marks are distinct, also over two words with numbers of their
own. -/
theorem nodup_marks_number {k l : Nat} (v w : List (α ⊕ β)) (h : k + (marks v).length ≤ l) :
    (marks (number l w ++ number k v)).Nodup := by
  apply List.Nodup.of_map Prod.fst
  rw [marks_append, List.map_append, map_fst_marks_number, map_fst_marks_number,
    List.nodup_append]
  refine ⟨List.nodup_range', List.nodup_range', ?_⟩
  intro i hi j hj
  rw [List.mem_range'_1] at hi hj
  omega

/-- Without its numbers a word is what it was. -/
theorem forget_number (k : Nat) (w : List (α ⊕ β)) :
    (number k w).map (Sum.map id Prod.snd) = w := by
  induction w generalizing k with
  | nil => rfl
  | cons c w ih =>
      cases c with
      | inl a => simp [number, ih]
      | inr m => simp [number, ih]

@[simp] theorem length_number (k : Nat) (w : List (α ⊕ β)) : (number k w).length = w.length := by
  have h := congrArg List.length (forget_number k w)
  rwa [List.length_map] at h

/-- Where the first mark stands. -/
def firstMark (w : List (α ⊕ β)) : Nat := w.findIdx Sum.isRight

theorem firstMark_append (v w : List (α ⊕ β)) :
    firstMark (v ++ w) = if marks v = [] then v.length + firstMark w else firstMark v := by
  induction v with
  | nil => simp
  | cons c v ih =>
      cases c with
      | inl a =>
          have hcons : ∀ u : List (α ⊕ β), firstMark (.inl a :: u) = firstMark u + 1 := by
            intro u
            simp [firstMark, List.findIdx_cons]
          rw [List.cons_append, hcons, hcons, ih, marks_letter, List.length_cons]
          split <;> omega
      | inr m => simp [firstMark, List.findIdx_cons]

@[simp] theorem firstMark_number (k : Nat) (w : List (α ⊕ β)) :
    firstMark (number k w) = firstMark w := by
  induction w generalizing k with
  | nil => rfl
  | cons c w ih =>
      cases c with
      | inl a =>
          have := ih k
          simp only [firstMark] at this
          simp [number, firstMark, List.findIdx_cons, this]
      | inr m => simp [number, firstMark, List.findIdx_cons]

theorem marks_number_eq_nil {k : Nat} {w : List (α ⊕ β)} :
    marks (number k w) = [] ↔ marks w = [] := by
  rw [← List.length_eq_zero_iff, ← List.length_eq_zero_iff]
  have h := congrArg List.length (map_fst_marks_number k w)
  rw [List.length_map, List.length_range'] at h
  rw [h]

/-- Where the mark with the number `k` stands. -/
def place (k : Nat) (w : List (α ⊕ (Nat × β))) : Nat :=
  w.findIdx (Sum.elim (fun _ => false) fun m => m.1 == k)

theorem place_number {k : Nat} {w : List (α ⊕ β)} (h : marks w ≠ []) :
    place k (number k w) = firstMark w := by
  induction w with
  | nil => simp at h
  | cons c w ih =>
      cases c with
      | inl a =>
          have := ih (by simpa using h)
          simp only [firstMark, place] at this
          simp [number, firstMark, place, List.findIdx_cons, this]
      | inr m => simp [number, firstMark, place, List.findIdx_cons]

/-- In front of the numbers of `w` a mark is looked for behind `w`. -/
theorem place_append {k l : Nat} (hkl : k < l) (w : List (α ⊕ β)) (v : List (α ⊕ (Nat × β))) :
    place k (number l w ++ v) = w.length + place k v := by
  induction w generalizing l with
  | nil => simp [number]
  | cons c w ih =>
      cases c with
      | inl a =>
          have := ih hkl
          simp only [place] at this
          simp only [number, place, List.cons_append, List.findIdx_cons, Sum.elim_inl, cond_false,
            this, List.length_cons]
          omega
      | inr m =>
          have := ih (show k < l + 1 by omega)
          have hne : (l == k) = false := by simpa using (Nat.ne_of_gt hkl)
          simp only [place] at this
          simp only [number, place, List.cons_append, List.findIdx_cons, Sum.elim_inr, hne,
            cond_false, this, List.length_cons]
          omega

/-- **Interchange.** Two words that can be numbered in either order, the first
one to be numbered standing behind the other, are equal, or one of them is
empty, or both are without marks. -/
theorem interchange {k : Nat} {x y : List (α ⊕ β)}
    (h : number (k + (marks x).length) y ++ number k x =
      number (k + (marks y).length) x ++ number k y) :
    x = y ∨ x = [] ∨ y = [] ∨ marks x = [] ∧ marks y = [] := by
  have hfirst := congrArg firstMark h
  rw [firstMark_append, firstMark_append] at hfirst
  simp only [marks_number_eq_nil, length_number, firstMark_number] at hfirst
  by_cases hx : marks x = []
  · by_cases hy : marks y = []
    · exact .inr (.inr (.inr ⟨hx, hy⟩))
    · -- the marks of `y` cannot move past the letters of `x`
      rw [if_neg hy, if_pos hx] at hfirst
      exact .inr (.inl (List.length_eq_zero_iff.mp (by omega)))
  · by_cases hy : marks y = []
    · rw [if_pos hy, if_neg hx] at hfirst
      exact .inr (.inr (.inl (List.length_eq_zero_iff.mp (by omega))))
    · rw [if_neg hy, if_neg hx] at hfirst
      -- the mark numbered first stands behind all of the other word
      have hposx := List.length_pos_of_ne_nil hx
      have hposy := List.length_pos_of_ne_nil hy
      have hplace := congrArg (place k) h
      rw [place_append (by omega), place_append (by omega), place_number hx, place_number hy]
        at hplace
      have hlen : (number (k + (marks x).length) y).length =
          (number (k + (marks y).length) x).length := by
        rw [length_number, length_number]
        omega
      have hequal := congrArg (List.map (Sum.map id Prod.snd)) (List.append_inj_left h hlen)
      rw [forget_number, forget_number] at hequal
      exact .inl hequal.symm

end Phpatcher.Basis
