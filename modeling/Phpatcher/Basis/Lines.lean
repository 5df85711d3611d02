import Phpatcher.Basis.Bytes

/-!
# Lines of a byte string

Splitting a text at its newlines and joining lines back. The splitter takes
the function applied to each *terminated* line (keep it, strip a CR, put the
newline back, ...); an unterminated last line is always taken as it stands.
-/

namespace Phpatcher.Basis

/-- Split a text at its newlines. `line` holds the bytes of the line under
construction; `finish` is applied to every line a newline ends. -/
def splitWith (finish : Bytes → Bytes) : Bytes → Bytes → List Bytes
  | line, [] => if line = [] then [] else [line]
  | line, c :: rest =>
      if c = newline then finish line :: splitWith finish [] rest
      else splitWith finish (line ++ [c]) rest

/-- Lines joined by newlines, with one more newline at the end if asked for. -/
def joinWith (trailing : Bool) : List Bytes → Bytes
  | [] => []
  | [line] => line ++ if trailing then [newline] else []
  | line :: next :: rest => line ++ newline :: joinWith trailing (next :: rest)

/-- Every line followed by a newline. -/
def unlines (lines : List Bytes) : Bytes := lines.flatMap (· ++ [newline])

@[simp] theorem unlines_nil : unlines [] = [] := rfl

@[simp] theorem unlines_cons (line : Bytes) (lines : List Bytes) :
    unlines (line :: lines) = line ++ newline :: unlines lines := by
  simp [unlines]

@[simp] theorem unlines_append (a b : List Bytes) :
    unlines (a ++ b) = unlines a ++ unlines b := by
  simp [unlines]

theorem length_unlines (lines : List Bytes) :
    (unlines lines).length = (lines.map fun l => l.length + 1).sum := by
  simp [unlines, List.length_flatMap]

/-- Drop one byte `c` from the end of `s`, if it stands there. -/
def dropLastByte (c : UInt8) (s : Bytes) : Bytes :=
  if s.getLast? = some c then s.dropLast else s

@[simp] theorem dropLastByte_append (c : UInt8) (s : Bytes) :
    dropLastByte c (s ++ [c]) = s := by
  simp [dropLastByte]

/-- Dropping takes bytes away and adds none. -/
theorem mem_of_mem_dropLastByte {c b : UInt8} {s : Bytes} (h : b ∈ dropLastByte c s) : b ∈ s := by
  rw [dropLastByte] at h
  split at h
  · exact List.mem_of_mem_dropLast h
  · exact h

/-- Nothing is dropped exactly when the byte does not stand there. -/
theorem dropLastByte_eq_self_iff {c : UInt8} {s : Bytes} :
    dropLastByte c s = s ↔ s.getLast? ≠ some c := by
  rw [dropLastByte]
  split
  next hlast =>
    have hne : s ≠ [] := by
      rintro rfl
      simp at hlast
    have hlen := List.length_pos_of_ne_nil hne
    refine iff_of_false (fun h => ?_) (fun h => h hlast)
    have hshort := congrArg List.length h
    rw [List.length_dropLast] at hshort
    omega
  next hlast => exact iff_of_true rfl hlast

/-- Without the byte there is nothing to drop. -/
theorem dropLastByte_of_not_mem {c : UInt8} {s : Bytes} (h : c ∉ s) :
    dropLastByte c s = s := by
  rw [dropLastByte, if_neg]
  exact fun hlast => h (List.mem_of_getLast? hlast)

theorem length_dropLastByte_le (c : UInt8) (s : Bytes) : (dropLastByte c s).length ≤ s.length := by
  rw [dropLastByte]
  split
  · rw [List.length_dropLast]
    omega
  · exact le_rfl

/-! ## Splitting -/

variable {finish : Bytes → Bytes}

/-- Bytes other than a newline join the line under construction. -/
theorem splitWith_append {s : Bytes} (h : newline ∉ s) (line rest : Bytes) :
    splitWith finish line (s ++ rest) = splitWith finish (line ++ s) rest := by
  induction s generalizing line with
  | nil => simp
  | cons c s ih =>
      have hc : c ≠ newline := fun e => h (e ▸ List.mem_cons_self)
      have hs : newline ∉ s := fun m => h (List.mem_cons_of_mem _ m)
      simp [splitWith, hc, ih hs]

/-- A terminated line comes out first. -/
theorem splitWith_line {s : Bytes} (h : newline ∉ s) (rest : Bytes) :
    splitWith finish [] (s ++ newline :: rest) = finish s :: splitWith finish [] rest := by
  rw [splitWith_append h]
  simp [splitWith]

/-- Terminated lines without newlines of their own split back into themselves. -/
theorem splitWith_unlines {lines : List Bytes} (h : ∀ l ∈ lines, newline ∉ l) (rest : Bytes) :
    splitWith finish [] (unlines lines ++ rest) =
      lines.map finish ++ splitWith finish [] rest := by
  induction lines with
  | nil => simp
  | cons line lines ih =>
      rw [unlines_cons, List.append_assoc, List.cons_append,
        splitWith_line (h line List.mem_cons_self),
        ih fun l hl => h l (List.mem_cons_of_mem _ hl)]
      simp

/-- All of the lines, when nothing follows them. -/
theorem splitWith_unlines_nil {lines : List Bytes} (h : ∀ l ∈ lines, newline ∉ l) :
    splitWith finish [] (unlines lines) = lines.map finish := by
  have hsplit := @splitWith_unlines finish lines h []
  simpa [splitWith] using hsplit

/-- The line under construction gets no newline. -/
theorem newline_not_mem_snoc {line : Bytes} (hline : newline ∉ line) {c : UInt8}
    (hc : c ≠ newline) : newline ∉ line ++ [c] := by
  simp only [List.mem_append, List.mem_singleton, not_or]
  exact ⟨hline, fun e => hc e.symm⟩

/-- The lines of any splitting are the lines of the plain one, each finished
or, for an unterminated last one, untouched: applying `g` after `finish` is
splitting with `g ∘ finish` when `g` leaves unterminated lines alone. -/
theorem map_splitWith {g : Bytes → Bytes} (hg : ∀ s, newline ∉ s → g s = s)
    (line text : Bytes) (hline : newline ∉ line) :
    (splitWith finish line text).map g = splitWith (g ∘ finish) line text := by
  induction text generalizing line with
  | nil =>
      by_cases h : line = []
      · simp [splitWith, h]
      · simp [splitWith, h, hg line hline]
  | cons c text ih =>
      by_cases hc : c = newline
      · simp [splitWith, hc, ih [] (by simp)]
      · -- the byte joins the line under construction
        have hline' := newline_not_mem_snoc hline hc
        simp [splitWith, hc, ih _ hline']

/-- No line holds a newline, unless finishing puts one in. -/
theorem newline_not_mem_splitWith (hfinish : ∀ s, newline ∉ s → newline ∉ finish s)
    {line text : Bytes} (hline : newline ∉ line) :
    ∀ l ∈ splitWith finish line text, newline ∉ l := by
  induction text generalizing line with
  | nil =>
      intro l hl
      by_cases h : line = []
      · simp [splitWith, h] at hl
      · simp only [splitWith, h, if_false, List.mem_singleton] at hl
        rwa [hl]
  | cons c text ih =>
      intro l hl
      by_cases hc : c = newline
      · simp only [splitWith, hc, if_true, List.mem_cons] at hl
        rcases hl with rfl | hl
        · exact hfinish _ hline
        · exact ih (by simp) l hl
      · rw [splitWith, if_neg hc] at hl
        exact ih (newline_not_mem_snoc hline hc) l hl

/-- Splitting adds at most the newline that ends the last line. -/
theorem length_unlines_splitWith (hfinish : ∀ s, (finish s).length ≤ s.length)
    (line text : Bytes) :
    (unlines (splitWith finish line text)).length ≤ line.length + text.length + 1 := by
  induction text generalizing line with
  | nil =>
      by_cases h : line = []
      · simp [splitWith, h]
      · simp [splitWith, h]
  | cons c text ih =>
      by_cases hc : c = newline
      · have := ih []
        have := hfinish line
        simp only [splitWith, hc, if_true, unlines_cons, List.length_append, List.length_cons,
          List.length_nil] at *
        omega
      · have := ih (line ++ [c])
        simp only [splitWith, hc, if_false, List.length_append, List.length_cons,
          List.length_nil] at *
        omega

/-- A text has no more lines than bytes. -/
theorem length_splitWith_le (line text : Bytes) :
    (splitWith finish line text).length ≤ line.length + text.length := by
  induction text generalizing line with
  | nil =>
      by_cases h : line = []
      · simp [splitWith, h]
      · have hpos := List.length_pos_of_ne_nil h
        rw [splitWith, if_neg h, List.length_singleton]
        omega
  | cons c text ih =>
      rw [splitWith, List.length_cons]
      split
      · have hrest := ih []
        rw [List.length_nil] at hrest
        rw [List.length_cons]
        omega
      · have hrest := ih (line ++ [c])
        rw [List.length_append, List.length_singleton] at hrest
        omega

/-! ## Joining what was split -/

@[simp] theorem joinWith_true (lines : List Bytes) : joinWith true lines = unlines lines := by
  induction lines with
  | nil => rfl
  | cons line lines ih =>
      cases lines with
      | nil => simp [joinWith]
      | cons next rest => rw [joinWith, ih, unlines_cons line]

/-- The lines of a text, terminated, are the text, with a newline more if the
last line had none. -/
theorem unlines_splitWith {line text : Bytes} (hline : newline ∉ line) :
    unlines (splitWith id line text) =
      line ++ text ++
        if line ++ text = [] ∨ (line ++ text).getLast? = some newline then [] else [newline] := by
  induction text generalizing line with
  | nil =>
      by_cases h : line = []
      · simp [splitWith, h]
      · have hlast : line.getLast? ≠ some newline := fun e => hline (List.mem_of_getLast? e)
        simp [splitWith, h, hlast]
  | cons c text ih =>
      by_cases hc : c = newline
      · subst hc
        rw [splitWith, if_pos rfl, unlines_cons, ih (by simp)]
        -- the text ends as what follows the newline does, or with it
        cases text with
        | nil => simp
        | cons d text => simp [List.getLast?_cons_cons]
      · have hline' := newline_not_mem_snoc hline hc
        rw [splitWith, if_neg hc, ih hline']
        simp

/-- Without the last newline the lines joined are one byte short. -/
theorem joinWith_false {lines : List Bytes} (h : lines ≠ []) :
    joinWith false lines ++ [newline] = unlines lines := by
  induction lines with
  | nil => exact absurd rfl h
  | cons line lines ih =>
      cases lines with
      | nil => simp [joinWith]
      | cons next rest =>
          rw [joinWith, unlines_cons line, ← ih (by simp)]
          simp

/-- What lines join to is settled by the text of the terminated lines. -/
theorem joinWith_congr {a b : List Bytes} (h : unlines a = unlines b) (trailing : Bool) :
    joinWith trailing a = joinWith trailing b := by
  have hnil : ∀ l : List Bytes, unlines l = [] ↔ l = [] := by
    intro l
    cases l <;> simp
  cases trailing with
  | true => rw [joinWith_true, joinWith_true, h]
  | false =>
      by_cases ha : a = []
      · have hb : b = [] := (hnil b).mp (h ▸ (hnil a).mpr ha)
        rw [ha, hb]
      · have hb : b ≠ [] := fun hb => ha ((hnil a).mp (h ▸ (hnil b).mpr hb))
        rw [← joinWith_false ha, ← joinWith_false hb] at h
        exact List.append_cancel_right h

/-- Split and joined with the newline it ends in, a text is what it was. -/
theorem joinWith_splitWith {text : Bytes} {trailing : Bool}
    (h : trailing = true ↔ text = [] ∨ text.getLast? = some newline) :
    joinWith trailing (splitWith id [] text) = text := by
  have hunlines := @unlines_splitWith [] text (by simp)
  rw [List.nil_append] at hunlines
  cases trailing with
  | true =>
      rw [if_pos (h.mp rfl), List.append_nil] at hunlines
      rw [joinWith_true, hunlines]
  | false =>
      have hopen : ¬ (text = [] ∨ text.getLast? = some newline) := fun hends =>
        Bool.false_ne_true (h.mpr hends)
      rw [if_neg hopen] at hunlines
      have hne : splitWith id [] text ≠ [] := by
        intro hnil
        rw [hnil] at hunlines
        simp at hunlines
      rw [← joinWith_false hne] at hunlines
      exact List.append_cancel_right hunlines

/-- When joined lines end in a newline: it is asked for, or the last line is
empty and has one in front of it. -/
theorem joinWith_ends {lines : List Bytes} (h : ∀ l ∈ lines, newline ∉ l) (trailing : Bool) :
    (joinWith trailing lines).getLast? = some newline ↔
      lines ≠ [] ∧ (trailing = true ∨ 1 < lines.length ∧ lines.getLast? = some []) := by
  induction lines with
  | nil => simp [joinWith]
  | cons line lines ih =>
      rw [List.forall_mem_cons] at h
      cases lines with
      | nil =>
          have hlast : line.getLast? ≠ some newline := fun e => h.1 (List.mem_of_getLast? e)
          cases trailing <;> simp [joinWith, hlast]
      | cons next rest =>
          have hrest := ih h.2
          rw [joinWith, List.getLast?_append_of_ne_nil _ (by simp)]
          cases hjoin : joinWith trailing (next :: rest) with
          | nil =>
              -- nothing behind the newline: one more line, and an empty one
              have hshort : next = [] ∧ rest = [] := by
                cases rest with
                | nil => exact ⟨(List.append_eq_nil_iff.mp hjoin).1, rfl⟩
                | cons _ _ => simp [joinWith] at hjoin
              simp [hshort.1, hshort.2]
          | cons c tail =>
              rw [List.getLast?_cons_cons, ← hjoin, hrest]
              cases rest with
              | nil =>
                  cases trailing with
                  | true => simp
                  | false =>
                      have hnext : next ≠ [] := by
                        rintro rfl
                        simp [joinWith] at hjoin
                      simp [hnext]
              | cons _ _ => simp

/-- A text is cut in one way at its first newline. -/
theorem append_newline_inj {a b s t : Bytes} (ha : newline ∉ a) (hb : newline ∉ b) :
    a ++ newline :: s = b ++ newline :: t ↔ a = b ∧ s = t := by
  constructor
  · intro h
    rcases List.append_eq_append_iff.mp h with ⟨c, rfl, hc⟩ | ⟨c, rfl, hc⟩
    all_goals
      cases c with
      | nil => simpa [eq_comm] using hc
      | cons d c =>
          obtain ⟨rfl, _⟩ := List.cons.inj hc
          simp at ha hb
  · rintro ⟨rfl, rfl⟩
    rfl

/-- As many lines join to the same text only if they are the same, and end the same. -/
theorem joinWith_inj {a b : List Bytes} (ha : ∀ l ∈ a, newline ∉ l) (hb : ∀ l ∈ b, newline ∉ l)
    (hlen : a.length = b.length) {trailing trailing' : Bool} :
    joinWith trailing a = joinWith trailing' b ↔ a = b ∧ (a = [] ∨ trailing = trailing') := by
  induction a generalizing b with
  | nil =>
      obtain rfl := List.length_eq_zero_iff.mp hlen.symm
      simp [joinWith]
  | cons line lines ih =>
      obtain ⟨line', lines', rfl⟩ := List.exists_cons_of_length_eq_add_one hlen.symm
      rw [List.forall_mem_cons] at ha hb
      have hlen' : lines.length = lines'.length := Nat.succ.inj hlen
      have hrest := ih ha.2 hb.2 hlen'
      cases lines with
      | nil =>
          obtain rfl := List.length_eq_zero_iff.mp hlen'.symm
          cases trailing <;> cases trailing' <;> simp only [joinWith, if_true, Bool.false_eq_true,
            if_false, List.append_nil, List.append_cancel_right_eq, List.cons.injEq, and_true,
            reduceCtorEq, or_true, or_false, and_false, iff_false]
          · rintro rfl
            exact ha.1 (by simp)
          · rintro rfl
            exact hb.1 (by simp)
      | cons next rest =>
          obtain ⟨next', rest', rfl⟩ := List.exists_cons_of_length_eq_add_one hlen'.symm
          rw [joinWith, joinWith, append_newline_inj ha.1 hb.1, hrest]
          simp [and_assoc]
/-- Splitting joined lines gives the lines, except for an empty last one that
nothing terminates. -/
theorem getD_splitWith_joinWith {lines : List Bytes} (h : ∀ l ∈ lines, newline ∉ l)
    (trailing : Bool) (i : Nat) :
    (splitWith id [] (joinWith trailing lines)).getD i [] = lines.getD i [] := by
  induction lines generalizing i with
  | nil => simp [joinWith, splitWith]
  | cons line lines ih =>
      rw [List.forall_mem_cons] at h
      cases lines with
      | nil =>
          cases trailing with
          | true =>
              have hsplit := @splitWith_line id line h.1 []
              simp [joinWith, hsplit, splitWith]
          | false =>
              have hsplit := @splitWith_append id line h.1 [] []
              simp only [List.append_nil, List.nil_append] at hsplit
              by_cases hline : line = []
              · cases i <;> simp [joinWith, splitWith, hline]
              · simp [joinWith, hsplit, splitWith, hline]
      | cons next rest =>
          rw [joinWith, splitWith_line h.1]
          cases i with
          | zero => simp
          | succ i => simpa using ih h.2 i

/-- A text in which the byte `c` never stands in front of a newline is split
the same whether that byte is dropped there or not. -/
theorem splitWith_dropLastByte {c : UInt8} {line text : Bytes}
    (h : ¬ [c, newline] <:+: line ++ text) :
    splitWith (dropLastByte c) line text = splitWith id line text := by
  induction text generalizing line with
  | nil => rfl
  | cons d text ih =>
      by_cases hd : d = newline
      · subst hd
        have hlast : line.getLast? ≠ some c := by
          intro hlast
          obtain ⟨init, rfl⟩ := List.getLast?_eq_some_iff.mp hlast
          exact h ⟨init, text, by simp⟩
        have hrest : ¬ [c, newline] <:+: [] ++ text := fun hin =>
          h (hin.trans ((List.suffix_cons newline text).isInfix.trans
            (List.suffix_append line _).isInfix))
        rw [splitWith, splitWith, if_pos rfl, if_pos rfl, ih hrest, dropLastByte, if_neg hlast]
        rfl
      · rw [splitWith, splitWith, if_neg hd, if_neg hd]
        exact ih (by simpa using h)

end Phpatcher.Basis
