import Mathlib.Tactic

/-!
# Line edits: one after the other, and all at once

An `Edit` replaces the lines `lo, ..., hi - 1` of a list (counted from 0) by a
text; with `lo = hi` it inserts at the gap in front of line `lo`. A list of
edits can be applied in two ways:

* `spliceAll` applies them one after the other, each to the result of the one
  before it, the way a program edits a buffer;
* `simultaneous` reads all of them against the *original* list: every gap gets
  the texts inserted there, every line is kept, dropped, or replaced.

For edits that come in descending order the two agree
(`spliceAll_eq_simultaneous`): an edit then only moves lines that no later one
looks at.
-/

namespace Phpatcher.Basis

variable {α : Type*}

/-- Replace the lines `lo, ..., hi - 1` by `text`. -/
structure Edit (α : Type*) where
  lo : Nat
  hi : Nat
  text : List α
  deriving DecidableEq

/-- The edit names a range of a list of `n` lines. -/
def Edit.Fits (e : Edit α) (n : Nat) : Prop := e.lo ≤ e.hi ∧ e.hi ≤ n

/-- Apply one edit. -/
def Edit.splice (e : Edit α) (l : List α) : List α := l.take e.lo ++ e.text ++ l.drop e.hi

/-- Apply edits one after the other. -/
def spliceAll (es : List (Edit α)) (l : List α) : List α := es.foldl (fun l e => e.splice l) l

/-- Each edit ends at or before the start of all edits in front of it. -/
def Descending (es : List (Edit α)) : Prop := es.Pairwise fun d e => e.hi ≤ d.lo

/-! ## All edits at once -/

/-- The texts inserted at gap `g`. Of two edits that name the same gap, the
text of the later one comes first. -/
def insertedAt (es : List (Edit α)) (g : Nat) : List α :=
  es.reverse.flatMap fun e => if e.lo = g ∧ e.hi = g then e.text else []

/-- What stands for line `g` of the original: the line itself when no edit
covers it, the text of the edit that starts there, nothing inside a range. -/
def lineAt (es : List (Edit α)) (l : List α) (g : Nat) : List α :=
  match es.find? fun e => e.lo ≤ g ∧ g < e.hi with
  | none => l[g]?.toList
  | some e => if e.lo = g then e.text else []

/-- Gap `g` and the line behind it. -/
def cell (es : List (Edit α)) (l : List α) (g : Nat) : List α :=
  insertedAt es g ++ lineAt es l g

/-- All edits made at the original line numbers: gap 0, line 0, gap 1, line 1,
..., and the gap behind the last line. -/
def simultaneous (es : List (Edit α)) (l : List α) : List α :=
  (List.range' 0 (l.length + 1)).flatMap (cell es l)

/-! ## The two agree on descending edits -/

theorem insertedAt_append_singleton (es : List (Edit α)) (e : Edit α) (g : Nat) :
    insertedAt (es ++ [e]) g =
      (if e.lo = g ∧ e.hi = g then e.text else []) ++ insertedAt es g := by
  simp [insertedAt]

/-- No edit of `es` looks at anything below `b`. -/
def AllFrom (b : Nat) (es : List (Edit α)) : Prop := ∀ e ∈ es, b ≤ e.lo ∧ e.lo ≤ e.hi

theorem AllFrom.insertedAt {b g : Nat} {es : List (Edit α)} (h : AllFrom b es) (hg : g < b) :
    insertedAt es g = [] := by
  simp only [Basis.insertedAt, List.flatMap_eq_nil_iff, List.mem_reverse]
  intro e he
  have := h e he
  rw [if_neg (by omega)]

theorem AllFrom.find?_eq_none {b g : Nat} {es : List (Edit α)} (h : AllFrom b es)
    (hg : g < b) : es.find? (fun e => e.lo ≤ g ∧ g < e.hi) = none := by
  rw [List.find?_eq_none]
  intro e he
  have := h e he
  simp only [decide_eq_true_eq, not_and, not_lt]
  omega

/-- Below the edits every cell is the original line. -/
theorem AllFrom.cell {b g : Nat} {es : List (Edit α)} (h : AllFrom b es) (hg : g < b)
    (l : List α) : cell es l g = l[g]?.toList := by
  rw [Basis.cell, h.insertedAt hg, lineAt, h.find?_eq_none hg]
  rfl

/-- A block of untouched cells is the block of lines. -/
theorem AllFrom.flatMap_cell {b : Nat} {es : List (Edit α)} (h : AllFrom b es) (l : List α)
    (lo n : Nat) (hn : lo + n ≤ b) :
    (List.range' lo n).flatMap (Basis.cell es l) = (l.drop lo).take n := by
  induction n generalizing lo with
  | zero => simp
  | succ n ih =>
      rw [List.range'_succ, List.flatMap_cons, h.cell (by omega), ih (lo + 1) (by omega)]
      by_cases hlo : lo < l.length
      · rw [List.getElem?_eq_getElem hlo, List.drop_eq_getElem_cons hlo, List.take_succ_cons]
        rfl
      · rw [List.getElem?_eq_none (by omega), List.drop_eq_nil_of_le (by omega : l.length ≤ lo),
          List.drop_eq_nil_of_le (by omega : l.length ≤ lo + 1)]
        simp

/-- One more edit in front of the others leaves the cells behind it alone. -/
theorem cell_append_of_lt {es : List (Edit α)} {e : Edit α} {g : Nat}
    (hg : e.hi ≤ g) (hne : e.lo = e.hi → g ≠ e.hi) (l : List α) :
    cell (es ++ [e]) l g = cell es l g := by
  have hins : ¬ (e.lo = g ∧ e.hi = g) := by
    intro h
    obtain ⟨h1, h2⟩ := h
    exact hne (h1.trans h2.symm) h2.symm
  have hcov : [e].find? (fun e => e.lo ≤ g ∧ g < e.hi) = none := by
    simp only [List.find?_singleton, decide_eq_true_eq, ite_eq_right_iff, reduceCtorEq,
      imp_false, not_and, not_lt]
    omega
  rw [cell, cell, insertedAt_append_singleton, if_neg hins, List.nil_append, lineAt, lineAt,
    List.find?_append, hcov, Option.or_none]

/-- The cells of a non-empty range that one more edit covers give its text. -/
theorem flatMap_cell_covered {es : List (Edit α)} {e : Edit α} (h : AllFrom e.hi es)
    (hlt : e.lo < e.hi) (l : List α) :
    (List.range' e.lo (e.hi - e.lo)).flatMap (cell (es ++ [e]) l) = e.text := by
  have hcell : ∀ g, e.lo ≤ g → g < e.hi →
      cell (es ++ [e]) l g = if e.lo = g then e.text else [] := by
    intro g hlo hhi
    have hcov : [e].find? (fun e => e.lo ≤ g ∧ g < e.hi) = some e := by
      simp [hlo, hhi]
    rw [cell, insertedAt_append_singleton, if_neg (by omega), h.insertedAt hhi, lineAt,
      List.find?_append, h.find?_eq_none hhi, hcov]
    rfl
  obtain ⟨n, hn⟩ : ∃ n, e.hi - e.lo = n + 1 := ⟨e.hi - e.lo - 1, by omega⟩
  rw [hn, List.range'_succ, List.flatMap_cons, hcell e.lo (Nat.le_refl _) hlt, if_pos rfl]
  have hrest : (List.range' (e.lo + 1) n).flatMap (cell (es ++ [e]) l) = [] := by
    rw [List.flatMap_eq_nil_iff]
    intro g hg
    rw [List.mem_range'_1] at hg
    rw [hcell g (by omega) (by omega), if_neg (by omega)]
  rw [hrest, List.append_nil]

/-- The cells from `e.lo` on, after one more edit `e` below the others: the
text of `e`, then the cells from `e.hi` on as they were. -/
theorem flatMap_cell_append {es : List (Edit α)} {e : Edit α} {n : Nat} (h : AllFrom e.hi es)
    (hfits : e.Fits n) (l : List α) :
    (List.range' e.lo (n + 1 - e.lo)).flatMap (cell (es ++ [e]) l) =
      e.text ++ (List.range' e.hi (n + 1 - e.hi)).flatMap (cell es l) := by
  obtain ⟨hle, hhi⟩ := hfits
  rcases Nat.lt_or_eq_of_le hle with hlt | heq
  · -- a range: its own cells give the text, the cells above are not touched
    have hsplit : List.range' e.lo (n + 1 - e.lo) =
        List.range' e.lo (e.hi - e.lo) ++ List.range' e.hi (n + 1 - e.hi) := by
      rw [show n + 1 - e.lo = (e.hi - e.lo) + (n + 1 - e.hi) by omega,
        ← List.range'_append_1, show e.lo + (e.hi - e.lo) = e.hi by omega]
    rw [hsplit, List.flatMap_append, flatMap_cell_covered h hlt]
    congr 1
    refine List.flatMap_congr fun g hg => ?_
    rw [List.mem_range'_1] at hg
    exact cell_append_of_lt (by omega) (fun he => absurd he (by omega)) l
  · -- an insertion: the gap `e.hi` gets the text in front of what is there
    obtain ⟨k, hk⟩ : ∃ k, n + 1 - e.hi = k + 1 := ⟨n - e.hi, by omega⟩
    rw [heq, hk, List.range'_succ, List.flatMap_cons, List.flatMap_cons]
    have hgap : cell (es ++ [e]) l e.hi = e.text ++ cell es l e.hi := by
      have hcov : [e].find? (fun d => d.lo ≤ e.hi ∧ e.hi < d.hi) = none := by simp
      rw [cell, insertedAt_append_singleton, if_pos ⟨heq, rfl⟩, lineAt, List.find?_append, hcov,
        Option.or_none, cell, lineAt, List.append_assoc]
    rw [hgap, List.append_assoc]
    congr 2
    refine List.flatMap_congr fun g hg => ?_
    rw [List.mem_range'_1] at hg
    exact cell_append_of_lt (by omega) (fun _ => by omega) l

theorem Descending.allFrom {es : List (Edit α)} {e : Edit α} {n : Nat}
    (h : Descending (es ++ [e])) (hfits : ∀ d ∈ es, d.Fits n) : AllFrom e.hi es := by
  intro d hd
  rw [Descending, List.pairwise_append] at h
  exact ⟨h.2.2 d hd e (List.mem_singleton_self e), (hfits d hd).1⟩

/-- The state of the buffer after a list of descending edits: the untouched
prefix of the original, and above it the finished cells. -/
theorem spliceAll_eq_take_append_cells (es : List (Edit α)) (l : List α) (b : Nat)
    (hdesc : Descending es) (hfits : ∀ e ∈ es, e.Fits l.length) (hb : ∀ e ∈ es, b ≤ e.lo)
    (hbn : b ≤ l.length) :
    spliceAll es l = l.take b ++ (List.range' b (l.length + 1 - b)).flatMap (cell es l) := by
  -- from the end of the list: the last edit is the lowest, so the ones before it
  -- have left everything below its upper end alone
  induction es using List.reverseRecOn generalizing b with
  | nil =>
      have hall : AllFrom (l.length + 1) ([] : List (Edit α)) := by simp [AllFrom]
      have hrest : (l.drop b).take (l.length + 1 - b) = l.drop b :=
        List.take_of_length_le (by rw [List.length_drop]; omega)
      rw [hall.flatMap_cell l b _ (by omega), hrest, List.take_append_drop]
      rfl
  | append_singleton es e ih =>
      have hes : ∀ d ∈ es, d.Fits l.length := fun d hd => hfits d (by simp [hd])
      have he : e.Fits l.length := hfits e (by simp)
      have hall : AllFrom e.hi es := hdesc.allFrom hes
      have hdesc' : Descending es := (List.pairwise_append.mp hdesc).1
      have hbe : b ≤ e.lo := hb e (by simp)
      have hlow : AllFrom e.lo (es ++ [e]) := by
        intro d hd
        rcases List.mem_append.mp hd with hd | hd
        · have := hall d hd
          have := he.1
          omega
        · rw [List.mem_singleton.mp hd]
          exact ⟨Nat.le_refl _, he.1⟩
      -- the buffer before `e`, and what `e` makes of it
      have hbuf := ih e.hi hdesc' hes (fun d hd => (hall d hd).1) he.2
      have hsplice : spliceAll (es ++ [e]) l = l.take e.lo ++ e.text ++
          (List.range' e.hi (l.length + 1 - e.hi)).flatMap (cell es l) := by
        have hstep : spliceAll (es ++ [e]) l = e.splice (spliceAll es l) := by
          simp [spliceAll]
        have hlen : (l.take e.hi).length = e.hi := by
          rw [List.length_take, Nat.min_eq_left he.2]
        rw [hstep, hbuf, Edit.splice, List.take_append_of_le_length (by rw [hlen]; exact he.1),
          List.take_take, Nat.min_eq_left he.1, List.drop_append_of_le_length (by omega),
          List.drop_eq_nil_of_le (by omega), List.nil_append]
      have hcells : (List.range' b (l.length + 1 - b)).flatMap (cell (es ++ [e]) l) =
          (l.drop b).take (e.lo - b) ++ (e.text ++
            (List.range' e.hi (l.length + 1 - e.hi)).flatMap (cell es l)) := by
        have hlen : l.length + 1 - b = (e.lo - b) + (l.length + 1 - e.lo) := by
          have := he.1
          have := he.2
          omega
        rw [hlen, ← List.range'_append_1, List.flatMap_append,
          hlow.flatMap_cell l b _ (by omega), show b + (e.lo - b) = e.lo by omega,
          flatMap_cell_append hall he]
      have htake : l.take b ++ (l.drop b).take (e.lo - b) = l.take e.lo := by
        rw [← List.take_add, show b + (e.lo - b) = e.lo by omega]
      rw [hsplice, hcells, ← List.append_assoc, htake, List.append_assoc]

/-- **Descending edits.** Applied one after the other they have the effect of
all edits made at once at the original line numbers. -/
theorem spliceAll_eq_simultaneous {es : List (Edit α)} {l : List α} (hdesc : Descending es)
    (hfits : ∀ e ∈ es, e.Fits l.length) : spliceAll es l = simultaneous es l := by
  simpa [simultaneous] using
    spliceAll_eq_take_append_cells es l 0 hdesc hfits (fun _ _ => Nat.zero_le _) (Nat.zero_le _)

/-! ## Edits of a start of the list -/

/-- Edits that fit a list leave alone what follows it. -/
theorem spliceAll_append {es : List (Edit α)} {l : List α} (hdesc : Descending es)
    (hfits : ∀ e ∈ es, e.Fits l.length) (rest : List α) :
    spliceAll es (l ++ rest) = spliceAll es l ++ rest := by
  induction es generalizing l with
  | nil => rfl
  | cons e es ih =>
      obtain ⟨hbelow, hdesc⟩ := List.pairwise_cons.mp hdesc
      obtain ⟨⟨hlo, hhi⟩, hfits⟩ := List.forall_mem_cons.mp hfits
      have hstep : e.splice (l ++ rest) = e.splice l ++ rest := by
        rw [Edit.splice, Edit.splice, List.take_append_of_le_length (by omega),
          List.drop_append_of_le_length hhi, List.append_assoc, List.append_assoc,
          List.append_assoc]
      have hlen : e.lo ≤ (e.splice l).length := by
        simp only [Edit.splice, List.length_append, List.length_take]
        omega
      show spliceAll es (e.splice (l ++ rest)) = spliceAll es (e.splice l) ++ rest
      rw [hstep]
      refine ih hdesc fun d hd => ⟨(hfits d hd).1, ?_⟩
      exact (hbelow d hd).trans hlen

/-- Edits from a line on keep the list at least that long. -/
theorem le_length_spliceAll {es : List (Edit α)} {l : List α} {b : Nat}
    (h : ∀ e ∈ es, b ≤ e.lo) (hb : b ≤ l.length) : b ≤ (spliceAll es l).length := by
  induction es generalizing l with
  | nil => exact hb
  | cons e es ih =>
      rw [List.forall_mem_cons] at h
      refine ih h.2 ?_
      simp only [Edit.splice, List.length_append, List.length_take]
      omega

/-- Two insertions at one gap with edits in front of it behind them: the later
text stands first. -/
theorem spliceAll_insertions {es : List (Edit α)} {l : List α} {a : Nat} (ha : a ≤ l.length)
    (hdesc : Descending es) (hfits : ∀ e ∈ es, e.Fits a) (t u : List α) :
    spliceAll (⟨a, a, t⟩ :: ⟨a, a, u⟩ :: es) l =
      spliceAll es (l.take a) ++ (u ++ t ++ l.drop a) := by
  have hlen : (l.take a).length = a := by
    rw [List.length_take]
    omega
  have htwice : (Edit.mk a a u).splice ((Edit.mk a a t).splice l) =
      l.take a ++ (u ++ t ++ l.drop a) := by
    rw [Edit.splice, Edit.splice, List.append_assoc (l.take a),
      List.take_append_of_le_length hlen.ge, List.drop_append_of_le_length hlen.ge,
      List.take_take, Nat.min_self, List.drop_eq_nil_of_le hlen.le, List.nil_append,
      List.append_assoc, List.append_assoc]
  show spliceAll es ((Edit.mk a a u).splice ((Edit.mk a a t).splice l)) = _
  rw [htwice]
  exact spliceAll_append hdesc (by rwa [hlen]) _

/-! ## Scripts written from front to back -/

/-- The edits turn any list that starts with `before` into the list that
starts with `after` and goes on as before. -/
def Rewrites (es : List (Edit α)) (before after : List α) : Prop :=
  ∀ rest, spliceAll es (before ++ rest) = after ++ rest

theorem Rewrites.nil : Rewrites ([] : List (Edit α)) [] [] := fun _ => rfl

/-- Lines that follow and are not edited are kept. -/
theorem Rewrites.keep {es : List (Edit α)} {before after : List α}
    (h : Rewrites es before after) (kept : List α) :
    Rewrites es (before ++ kept) (after ++ kept) := by
  intro rest
  rw [List.append_assoc, h, List.append_assoc]

/-- An edit of the lines that follow, made before all others. -/
theorem Rewrites.edit {es : List (Edit α)} {before after : List α}
    (h : Rewrites es before after) (old text : List α) :
    Rewrites (⟨before.length, before.length + old.length, text⟩ :: es)
      (before ++ old) (after ++ text) := by
  intro rest
  have hstep : (Edit.mk before.length (before.length + old.length) text).splice
      (before ++ old ++ rest) = before ++ (text ++ rest) := by
    have hdrop : (before ++ old ++ rest).drop (before.length + old.length) = rest := by
      rw [← List.length_append, List.drop_left]
    rw [Edit.splice, hdrop, List.append_assoc before old rest, List.take_left, List.append_assoc]
  rw [spliceAll, List.foldl_cons, hstep, List.append_assoc]
  exact h (text ++ rest)

end Phpatcher.Basis
