import Phpatcher.Basis.Lines

/-!
# Words with gaps

A text as words with gaps of certain bytes around them, and the lines of a
text by number: what appending does to both.
-/

namespace Phpatcher.Basis

/-! ## Words -/

/-- The text consists of these words, in this order, with gaps of bytes in `p`
in front of, between and behind them. -/
inductive Spaced (p : UInt8 → Bool) : List Bytes → Bytes → Prop where
  | gap {w : Bytes} (hw : ∀ c ∈ w, p c = true) : Spaced p [] w
  | word {w t s : Bytes} {ts : List Bytes} (hw : ∀ c ∈ w, p c = true) (hs : Spaced p ts s) :
      Spaced p (t :: ts) (w ++ t ++ s)

variable {p : UInt8 → Bool}

theorem Spaced.append_gap {ts : List Bytes} {s w : Bytes} (h : Spaced p ts s)
    (hw : ∀ c ∈ w, p c = true) : Spaced p ts (s ++ w) := by
  induction h with
  | gap hv => exact .gap fun c hc => (List.mem_append.mp hc).elim (hv c) (hw c)
  | word hv _ ih =>
      rw [List.append_assoc]
      exact .word hv ih

theorem Spaced.append_word {ts : List Bytes} {s : Bytes} (h : Spaced p ts s) (t : Bytes) :
    Spaced p (ts ++ [t]) (s ++ t) := by
  induction h with
  | @gap w hw =>
      have hword := Spaced.word (t := t) hw (Spaced.gap (p := p) (w := []) (by simp))
      rwa [List.append_nil] at hword
  | word hv _ ih =>
      rw [List.append_assoc]
      exact .word hv ih

/-- The bytes that are in no gap. -/
def squeeze (p : UInt8 → Bool) (s : Bytes) : Bytes := s.filter fun c => !p c

@[simp] theorem squeeze_nil : squeeze p [] = [] := rfl

@[simp] theorem squeeze_append (s t : Bytes) : squeeze p (s ++ t) = squeeze p s ++ squeeze p t :=
  List.filter_append s t

theorem squeeze_eq_nil {w : Bytes} (hw : ∀ c ∈ w, p c = true) : squeeze p w = [] := by
  rw [squeeze, List.filter_eq_nil_iff]
  intro c hc
  simp [hw c hc]

/-- Without the gaps a text is its words. -/
theorem Spaced.squeeze_eq {ts : List Bytes} {s : Bytes} (h : Spaced p ts s) :
    squeeze p s = squeeze p ts.flatten := by
  induction h with
  | gap hw => rw [squeeze_eq_nil hw, List.flatten_nil, squeeze_nil]
  | word hw _ ih => simp [squeeze_eq_nil hw, ih]

/-- So are the words joined by bytes of gaps. -/
theorem squeeze_intercalate {sep : Bytes} (hsep : ∀ c ∈ sep, p c = true) (ts : List Bytes) :
    squeeze p (sep.intercalate ts) = squeeze p ts.flatten := by
  induction ts with
  | nil => rfl
  | cons t ts ih =>
      cases ts with
      | nil => simp
      | cons u ts =>
          rw [List.intercalate_cons_cons, squeeze_append, squeeze_append, squeeze_eq_nil hsep, ih,
            List.append_nil, ← squeeze_append, ← List.flatten_cons]

/-- One more word behind joined ones. -/
theorem intercalate_concat {sep : Bytes} {ts : List Bytes} (hne : ts ≠ []) (t : Bytes) :
    sep.intercalate (ts ++ [t]) = sep.intercalate ts ++ sep ++ t := by
  induction ts with
  | nil => exact absurd rfl hne
  | cons u ts ih =>
      cases ts with
      | nil => simp
      | cons v ts =>
          rw [List.cons_append, List.intercalate_cons_of_ne_nil (by simp),
            List.intercalate_cons_of_ne_nil (by simp), ih (by simp)]
          simp

/-! ## Lines by number -/

/-- Line `l` of a text, counted from 0; every line behind the last is empty. -/
def nthLine (s : Bytes) (l : Nat) : Bytes := (s.splitOn newline).getD l []

theorem nthLine_nil (l : Nat) : nthLine [] l = [] := by
  cases l <;> rfl

theorem nthLine_newline (s : Bytes) (l : Nat) :
    nthLine (newline :: s) l = if l = 0 then [] else nthLine s (l - 1) := by
  rw [nthLine, List.splitOn_cons_eq_if_modifyHead, if_pos (by simp)]
  cases l <;> rfl

theorem nthLine_cons {c : UInt8} (hc : c ≠ newline) (s : Bytes) (l : Nat) :
    nthLine (c :: s) l = if l = 0 then c :: nthLine s 0 else nthLine s l := by
  rw [nthLine, nthLine, nthLine, List.splitOn_cons_eq_if_modifyHead, if_neg (by simpa using hc)]
  cases hsplit : s.splitOn newline with
  | nil => exact absurd hsplit (List.splitOn_ne_nil _ _)
  | cons first rest => cases l <;> rfl

/-- Appended, a text goes on in the last line of the one in front of it. -/
theorem nthLine_append (s t : Bytes) (l : Nat) :
    nthLine (s ++ t) l =
      nthLine s l ++ if s.count newline ≤ l then nthLine t (l - s.count newline) else [] := by
  induction s generalizing l with
  | nil => simp [nthLine_nil]
  | cons c s ih =>
      by_cases hc : c = newline
      · subst hc
        rw [List.cons_append, nthLine_newline, nthLine_newline, List.count_cons_self]
        cases l with
        | zero => simp
        | succ l => simp [ih, Nat.add_sub_add_right]
      · rw [List.cons_append, nthLine_cons hc, nthLine_cons hc, List.count_cons_of_ne hc]
        split
        next hl => rw [hl, ih, List.cons_append]
        next => exact ih l

/-- A text without a newline is its first line. -/
theorem nthLine_of_not_mem {s : Bytes} (h : newline ∉ s) (l : Nat) :
    nthLine s l = if l = 0 then s else [] := by
  rw [nthLine, List.splitOn_eq_singleton h]
  cases l <;> rfl

/-- A text has one line more than newlines. -/
theorem length_splitOn_newline (s : Bytes) :
    (s.splitOn newline).length = s.count newline + 1 := by
  induction s with
  | nil => rfl
  | cons c s ih =>
      rw [List.splitOn_cons_eq_if_modifyHead]
      by_cases hc : c = newline
      · simp [hc, ih]
      · simp [hc, ih]

/-- The bytes of a line are bytes of the text. -/
theorem mem_of_mem_nthLine {s : Bytes} {l : Nat} {c : UInt8} (h : c ∈ nthLine s l) : c ∈ s := by
  induction s generalizing l with
  | nil => simp [nthLine_nil] at h
  | cons d s ih =>
      by_cases hd : d = newline
      · subst hd
        rw [nthLine_newline] at h
        split at h
        · simp at h
        · exact List.mem_cons_of_mem _ (ih h)
      · rw [nthLine_cons hd] at h
        split at h
        · rcases List.mem_cons.mp h with rfl | h
          · exact List.mem_cons_self
          · exact List.mem_cons_of_mem _ (ih h)
        · exact List.mem_cons_of_mem _ (ih h)

/-! ## Splittings by number -/

variable {finish : Bytes → Bytes}

/-- A splitting has a line for each newline, and one more where the text does
not end in one. -/
theorem length_splitWith {line : Bytes} (hline : newline ∉ line) (text : Bytes) :
    (splitWith finish line text).length =
      text.count newline +
        if line ++ text = [] ∨ (line ++ text).getLast? = some newline then 0 else 1 := by
  induction text generalizing line with
  | nil =>
      have hlast : line.getLast? ≠ some newline := fun h => hline (List.mem_of_getLast? h)
      by_cases h : line = [] <;> simp [splitWith, h, hlast]
  | cons c text ih =>
      by_cases hc : c = newline
      · subst hc
        have hlast : (line ++ newline :: text).getLast? = some newline ↔
            text = [] ∨ text.getLast? = some newline := by
          cases text with
          | nil => simp
          | cons d text => simp [List.getLast?_append, List.getLast?_cons_cons]
        rw [splitWith, if_pos rfl, List.length_cons, ih (by simp), List.count_cons_self,
          List.nil_append]
        simp only [List.append_eq_nil_iff, List.cons_ne_nil, and_false, false_or, hlast]
        omega
      · have hline' := newline_not_mem_snoc hline hc
        rw [splitWith, if_neg hc, ih hline', List.count_cons_of_ne hc]
        simp

/-- Line by line: a line in front of a newline is finished, the last one
without a newline is not. -/
theorem getElem?_splitWith {line : Bytes} (text : Bytes) (i : Nat) :
    (splitWith finish line text)[i]? =
      ((splitWith id line text)[i]?).map fun l => if i < text.count newline then finish l else l := by
  induction text generalizing line i with
  | nil => simp [splitWith]
  | cons c text ih =>
      by_cases hc : c = newline
      · subst hc
        rw [splitWith, splitWith, if_pos rfl, if_pos rfl, List.count_cons_self]
        cases i with
        | zero => simp
        | succ i => simp [ih]
      · rw [splitWith, splitWith, if_neg hc, if_neg hc, ih, List.count_cons_of_ne hc]

/-- The lines of a splitting are the lines by number. -/
theorem getD_splitWith {line : Bytes} (hline : newline ∉ line) (text : Bytes) (i : Nat) :
    (splitWith id line text).getD i [] = nthLine (line ++ text) i := by
  induction text generalizing line i with
  | nil =>
      rw [List.append_nil, nthLine_of_not_mem hline, splitWith]
      by_cases h : line = []
      · simp [h]
      · cases i <;> simp [h]
  | cons c text ih =>
      by_cases hc : c = newline
      · subst hc
        rw [splitWith, if_pos rfl, nthLine_append, nthLine_newline, nthLine_of_not_mem hline,
          List.count_eq_zero_of_not_mem hline]
        cases i with
        | zero => simp
        | succ i => simpa using @ih [] (by simp) i
      · have hline' := newline_not_mem_snoc hline hc
        rw [splitWith, if_neg hc, ih hline']
        simp

end Phpatcher.Basis
