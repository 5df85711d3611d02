import Phpatcher.Theorems.Factorization

/-!
# Factorization misses no reference and stops nowhere early

An anchor is judged once, while later anchors are still to be covered. What
is covered only grows, so a run that is too short then is too short at the
end; and a run that stopped at a covered line stopped at a line of a run that
is returned.
-/

namespace Phpatcher.Theorems

open Phpatcher.Basis Phpatcher.Core Phpatcher.Tools

variable {keys : List Bytes} {minRun : Nat} {postingsOf : Bytes → Option (List Posting)}
  {equal : EqualFn}

/-- None of the runs covers the block line `k`. -/
def Uncovered (runs : List Run) (k : Nat) : Prop := ∀ r ∈ runs, ¬ r.Covers k

/-- A run through the block line `pos` and the line `c` of the file `f`: the
block lines `lo..hi - 1` are free and match the lines of the file around `c`,
line 1 or later. -/
structure Candidate (equal : EqualFn) (free : Nat → Prop) (n pos f c lo hi : Nat) : Prop where
  above : lo ≤ pos
  below : pos < hi
  inBlock : hi ≤ n
  counted : pos - lo < c
  matched : ∀ k, lo ≤ k → k < hi → free k ∧ equal k f (c + k - pos) = true

/-- Fewer free lines leave fewer candidates. -/
theorem Candidate.mono {free free' : Nat → Prop} {n pos f c lo hi : Nat}
    (h : Candidate equal free n pos f c lo hi) (hsub : ∀ k, free k → free' k) :
    Candidate equal free' n pos f c lo hi where
  above := h.above
  below := h.below
  inBlock := h.inBlock
  counted := h.counted
  matched k hlo hhi := ⟨hsub k (h.matched k hlo hhi).1, (h.matched k hlo hhi).2⟩

/-! ## The extension loops take all they can -/

/-- Extending upwards passes over every free line that matches. -/
theorem extendUp_le {covered : Nat → Bool} {matchesFile : Nat → Nat → Bool} {lo b c : Nat}
    (hlo : lo ≤ b) (hc : b - lo < c)
    (hall : ∀ k, lo ≤ k → k < b → covered k = false ∧ matchesFile k (c + k - b) = true) :
    (extendUp covered matchesFile b c).1 ≤ lo := by
  induction b generalizing c with
  | zero => simp [extendUp]
  | succ b ih =>
      rw [extendUp]
      rcases Nat.lt_or_eq_of_le hlo with hlt | rfl
      · have hline := hall b (by omega) (by omega)
        rw [show c + b - (b + 1) = c - 1 by omega] at hline
        rw [if_pos ⟨by omega, hline⟩]
        refine ih (by omega) (by omega) ?_
        intro k hk hkb
        have := hall k hk (by omega)
        rwa [show c + k - (b + 1) = c - 1 + k - b by omega] at this
      · -- the loop starts there and only goes up
        split
        · obtain ⟨_, hb, _⟩ := extendUp_spec covered matchesFile b (c - 1)
          omega
        · exact Nat.le_refl _

/-- Extending downwards passes over every free line that matches. -/
theorem le_extendDown {covered : Nat → Bool} {matchesFile : Nat → Nat → Bool}
    (hcounted : ∀ b c, matchesFile b c = true → 1 ≤ c ∧ c < 4294967296) {left b c k : Nat}
    (hk : k ≤ left)
    (hall : ∀ i, 1 ≤ i → i ≤ k → covered (b + i) = false ∧ matchesFile (b + i) (c + i) = true) :
    b + k ≤ (extendDown covered matchesFile left b c).1 := by
  induction left generalizing b c k with
  | zero =>
      rw [extendDown, Nat.le_zero.mp hk]
      exact Nat.le_refl _
  | succ left ih =>
      rw [extendDown]
      cases k with
      | zero =>
          split
          · have := @ih (b + 1) (nextLine c) 0 (Nat.zero_le _) (by omega)
            omega
          · exact Nat.le_refl _
      | succ k =>
          have hline := hall 1 (Nat.le_refl _) (by omega)
          have hnext : nextLine c = c + 1 := nextLine_eq (hcounted _ _ hline.2).2
          rw [hnext, if_pos hline, show b + (k + 1) = b + 1 + k by omega]
          refine ih (by omega) ?_
          intro i hi hik
          have := hall (i + 1) (by omega) (by omega)
          rwa [show b + (i + 1) = b + 1 + i by omega, show c + (i + 1) = c + 1 + i by omega]
            at this

/-- The run through a posting is as long as every candidate through it. -/
theorem Candidate.le_runThrough (hcounted : Counted equal) {covered : Nat → Bool} {n pos : Nat}
    {pp : Posting} {lo hi : Nat}
    (h : Candidate equal (covered · = false) n pos pp.fileId pp.lineno lo hi) :
    hi - lo ≤ (runThrough n covered equal pos pp).length := by
  have hup : (extendUp covered (fun b c => equal b pp.fileId c) pos pp.lineno).1 ≤ lo :=
    extendUp_le h.above h.counted fun k hk hkb => h.matched k hk (hkb.trans h.below)
  have hdown : pos + (hi - 1 - pos) ≤ (extendDown covered (fun b c => equal b pp.fileId c)
      (n - (pos + 1)) pos pp.lineno).1 := by
    have hbelow := h.below
    have hin := h.inBlock
    refine le_extendDown (fun b c => hcounted b pp.fileId c) (by omega) ?_
    intro i hi hik
    have := h.matched (pos + i) (by have := h.above; omega) (by omega)
    rwa [show pp.lineno + (pos + i) - pos = pp.lineno + i by omega] at this
  have hbelow := h.below
  show hi - lo ≤ (extendDown covered (fun b c => equal b pp.fileId c) (n - (pos + 1)) pos
    pp.lineno).1 + 1 - (extendUp covered (fun b c => equal b pp.fileId c) pos pp.lineno).1
  omega

/-! ## What the anchor loop keeps -/

/-- What a turn leaves: the old state, or the state with the best run through
the anchor added. -/
theorem factorStep_cases (st : Covering) (anchor : Anchor) :
    factorStep keys minRun postingsOf equal st anchor = st ∨
    ∃ post best, st.covered anchor.pos = false ∧
      postingsOf (keys.getD anchor.pos []) = some post ∧
      bestRun keys.length st.covered equal anchor.pos post = some best ∧
      minRun ≤ best.length ∧
      factorStep keys minRun postingsOf equal st anchor = st.add best := by
  unfold factorStep
  split
  · exact .inl rfl
  next hfree =>
    split
    · exact .inl rfl
    next post hpost =>
      split
      · exact .inl rfl
      next best hbest =>
        split
        next hlong =>
          exact .inr ⟨post, best, Bool.not_eq_true _ ▸ hfree, hpost, hbest, hlong, rfl⟩
        next => exact .inl rfl

/-- A turn keeps the runs. -/
theorem mem_factorStep {st : Covering} {anchor : Anchor} {r : Run} (hr : r ∈ st.runs) :
    r ∈ (factorStep keys minRun postingsOf equal st anchor).runs := by
  rcases @factorStep_cases keys minRun postingsOf equal st anchor with
    heq | ⟨_, best, _, _, _, _, heq⟩
  · rwa [heq]
  · rw [heq]
    exact List.mem_append_left _ hr

/-- So does the rest of the loop. -/
theorem mem_foldl_factorStep {st : Covering} {r : Run} (hr : r ∈ st.runs) (anchors : List Anchor) :
    r ∈ (anchors.foldl (factorStep keys minRun postingsOf equal) st).runs :=
  List.foldlRecOn (motive := fun st : Covering => r ∈ st.runs) anchors _ hr
    fun _ h _ _ => mem_factorStep h

/-- Only lines of the runs are covered. -/
def Covering.Exact (st : Covering) : Prop :=
  ∀ k, st.covered k = true → ∃ r ∈ st.runs, r.Covers k

theorem Covering.Exact.factorStep {st : Covering} (h : Covering.Exact st) (anchor : Anchor) :
    Covering.Exact (factorStep keys minRun postingsOf equal st anchor) := by
  rcases @factorStep_cases keys minRun postingsOf equal st anchor with
    heq | ⟨_, best, _, _, _, _, heq⟩
  · rwa [heq]
  · rw [heq]
    intro k hk
    simp only [Covering.add, Bool.or_eq_true, Bool.and_eq_true, decide_eq_true_eq] at hk
    rcases hk with hk | hk
    · exact ⟨best, List.mem_append_right _ (List.mem_singleton_self _), hk⟩
    · obtain ⟨r, hr, hcovers⟩ := h k hk
      exact ⟨r, List.mem_append_left _ hr, hcovers⟩

/-- The state the anchor loop starts in. -/
abbrev nothingCovered : Covering where
  covered _ := false
  runs := []

theorem exact_foldl_factorStep (anchors : List Anchor) :
    Covering.Exact (anchors.foldl (factorStep keys minRun postingsOf equal) nothingCovered) :=
  List.foldlRecOn (motive := Covering.Exact) anchors _ (by simp [Covering.Exact])
    fun _ h anchor _ => h.factorStep anchor

/-- A minimum of 0 counts as 1. -/
theorem minRun_eq (minRun : Nat) : (if minRun = 0 then 1 else minRun) = max 1 minRun := by
  split <;> omega

/-- The returned runs are those of the anchor loop. -/
theorem mem_factorize {anchorSorter : Sorter Anchor.weight} {runSorter : Sorter Run.blockBegin}
    {r : Run} :
    r ∈ factorize anchorSorter runSorter keys minRun postingsOf equal ↔
      r ∈ ((anchorSorter.run (anchorsOf keys postingsOf)).foldl
        (factorStep keys (max 1 minRun) postingsOf equal) nothingCovered).runs := by
  rw [factorize, Sorter.mem_run, minRun_eq]

theorem uncovered_factorize {anchorSorter : Sorter Anchor.weight}
    {runSorter : Sorter Run.blockBegin} {k : Nat} :
    Uncovered (factorize anchorSorter runSorter keys minRun postingsOf equal) k ↔
      Uncovered ((anchorSorter.run (anchorsOf keys postingsOf)).foldl
        (factorStep keys (max 1 minRun) postingsOf equal) nothingCovered).runs k := by
  simp only [Uncovered, mem_factorize]

/-! ## No reference is missed -/

/-- The best run through an anchor covers the anchor. -/
theorem bestRun_covers (hcounted : Counted equal) {n pos : Nat} {covered : Nat → Bool}
    {post : List Posting} {best : Run} (h : bestRun n covered equal pos post = some best) :
    best.Covers pos := by
  obtain ⟨pp, _, hmatch, rfl⟩ := bestRun_mem h
  obtain ⟨_, hup, _⟩ := extendUp_spec covered (fun b c => equal b pp.fileId c) pos pp.lineno
  obtain ⟨_, _, hdown, _⟩ := extendDown_spec (fun b c => hcounted b pp.fileId c) covered
    (n - (pos + 1)) pos pp.lineno (hcounted _ _ _ hmatch).2
  constructor
  · show (extendUp covered (fun b c => equal b pp.fileId c) pos pp.lineno).1 ≤ pos
    omega
  · show pos < (extendDown covered (fun b c => equal b pp.fileId c) (n - (pos + 1)) pos
      pp.lineno).1 + 1
    rw [hdown]
    omega

/-- An anchor that no run covers after its turn had only short candidates. -/
theorem factorStep_misses_none (hcounted : Counted equal) {st : Covering} {anchor : Anchor}
    (hexact : Covering.Exact st)
    (hfree : Uncovered (factorStep keys minRun postingsOf equal st anchor).runs anchor.pos)
    {post : List Posting} (hpost : postingsOf (keys.getD anchor.pos []) = some post) {pp : Posting}
    (hpp : pp ∈ post) (hmatch : equal anchor.pos pp.fileId pp.lineno = true) {lo hi : Nat}
    (h : Candidate equal (st.covered · = false) keys.length anchor.pos pp.fileId pp.lineno lo hi) :
    hi - lo < minRun := by
  have hopen : st.covered anchor.pos = false := by
    rw [← Bool.not_eq_true]
    intro hcov
    obtain ⟨r, hr, hcovers⟩ := hexact _ hcov
    exact hfree r (mem_factorStep hr) hcovers
  obtain ⟨best, hbest, hlong⟩ :=
    @bestRun_longest equal keys.length anchor.pos st.covered post pp hpp hmatch
  have hshort : ¬ minRun ≤ best.length := by
    -- a best run that is long enough would be added, and covers the anchor
    intro hle
    refine hfree best ?_ (bestRun_covers hcounted hbest)
    simp only [factorStep, hopen, Bool.false_eq_true, if_false, hpost, hbest, ge_iff_le, hle,
      if_true]
    exact List.mem_append_right _ (List.mem_singleton_self _)
  have := h.le_runThrough hcounted
  omega

/-- **No reference is missed.** -/
theorem factorize_misses_none (anchorSorter : Sorter Anchor.weight)
    (runSorter : Sorter Run.blockBegin) (keys : List Bytes) (minRun : Nat)
    (postingsOf : Bytes → Option (List Posting)) (equal : EqualFn) (lineCount : Nat → Nat)
    (hcount : ∀ f, lineCount f < 4294967296)
    (hequal : ∀ b f c, equal b f c = true → 1 ≤ c ∧ c ≤ lineCount f) {i : Nat}
    (hpos : i < keys.length)
    (hfree : Uncovered (factorize anchorSorter runSorter keys minRun postingsOf equal) i)
    {post : List Posting} (hpost : postingsOf (keys.getD i []) = some post) {pp : Posting}
    (hpp : pp ∈ post) (hmatch : equal i pp.fileId pp.lineno = true) {lo hi : Nat}
    (h : Candidate equal
      (Uncovered (factorize anchorSorter runSorter keys minRun postingsOf equal)) keys.length i
      pp.fileId pp.lineno lo hi) :
    hi - lo < max 1 minRun := by
  have hcounted : Counted equal := fun b f c h =>
    ⟨(hequal b f c h).1, (hequal b f c h).2.trans_lt (hcount f)⟩
  replace h := h.mono fun k => uncovered_factorize.mp
  rw [uncovered_factorize] at hfree
  have hanchor : (⟨i, post.length⟩ : Anchor) ∈ anchorSorter.run (anchorsOf keys postingsOf) := by
    rw [Sorter.mem_run, mem_anchorsOf]
    exact ⟨hpos, post, hpost, rfl⟩
  obtain ⟨before, after, hsplit⟩ := List.append_of_mem hanchor
  rw [hsplit, List.foldl_append, List.foldl_cons] at hfree h
  have hexact := @exact_foldl_factorStep keys (max 1 minRun) postingsOf equal before
  refine factorStep_misses_none hcounted hexact
    (fun r hr => hfree r (mem_foldl_factorStep hr after)) hpost hpp hmatch (h.mono ?_)
  -- what no run covers at the end is not covered yet
  intro k hk
  rw [← Bool.not_eq_true]
  intro hcov
  obtain ⟨r, hr, hcovers⟩ := hexact k hcov
  exact hk r (mem_foldl_factorStep (mem_factorStep hr) after) hcovers

/-- The callback of a block that reads a file of two lines the other way
around. -/
def sampleEqual : EqualFn := fun b f c => f == 0 && b + c == 2 && decide (1 ≤ c)

/-- Where runs of one line are too short, its first line stays a literal; its
candidate has one line. -/
theorem factorize_misses_none_two :
    factorize (.stable _) (.stable _) [ascii "b", ascii "a"] 2 samplePostings sampleEqual = [] ∧
    1 - 0 < max 1 2 := by
  have hnone : factorize (.stable _) (.stable _) [ascii "b", ascii "a"] 2 samplePostings
      sampleEqual = [] := by decide +kernel
  have huncovered : ∀ k, Uncovered (factorize (.stable _) (.stable _) [ascii "b", ascii "a"] 2
      samplePostings sampleEqual) k := by simp [Uncovered, hnone]
  refine ⟨hnone, factorize_misses_none (.stable _) (.stable _) [ascii "b", ascii "a"] 2
    samplePostings sampleEqual (fun _ => 2) (fun _ => by decide) ?_ (i := 0) (by decide)
    (huncovered 0) (show samplePostings (ascii "b") = some [⟨0, 2⟩] by decide +kernel)
    (List.mem_singleton_self _) rfl
    ⟨Nat.le_refl 0, Nat.zero_lt_one, by decide, by decide, ?_⟩⟩
  · intro b f c h
    simp only [sampleEqual, Bool.and_eq_true, beq_iff_eq, decide_eq_true_eq] at h
    omega
  · intro k _ hk
    rw [Nat.lt_one_iff.mp hk]
    exact ⟨huncovered 0, rfl⟩

/-! ## Runs are maximal -/

/-- Extending upwards stops at the edge of the block, at line 1, at a covered
line, or at one that does not match. -/
theorem extendUp_stop (covered : Nat → Bool) (matchesFile : Nat → Nat → Bool) (b c : Nat) :
    (extendUp covered matchesFile b c).1 = 0 ∨ (extendUp covered matchesFile b c).2 ≤ 1 ∨
    covered ((extendUp covered matchesFile b c).1 - 1) = true ∨
    matchesFile ((extendUp covered matchesFile b c).1 - 1)
      ((extendUp covered matchesFile b c).2 - 1) = false := by
  induction b generalizing c with
  | zero => exact .inl rfl
  | succ b ih =>
      rw [extendUp]
      split
      · exact ih (c - 1)
      next hstop =>
        simp only [Nat.add_sub_cancel]
        by_cases hc : c ≤ 1
        · exact .inr (.inl hc)
        by_cases hcov : covered b = true
        · exact .inr (.inr (.inl hcov))
        · refine .inr (.inr (.inr ?_))
          rw [← Bool.not_eq_true]
          exact fun hm => hstop ⟨by omega, Bool.not_eq_true _ ▸ hcov, hm⟩

/-- Extending downwards stops behind the last line left, at a covered line, or
at one that does not match. -/
theorem extendDown_stop (covered : Nat → Bool) (matchesFile : Nat → Nat → Bool) (left b c : Nat) :
    (extendDown covered matchesFile left b c).1 = b + left ∨
    covered ((extendDown covered matchesFile left b c).1 + 1) = true ∨
    matchesFile ((extendDown covered matchesFile left b c).1 + 1)
      (nextLine (extendDown covered matchesFile left b c).2) = false := by
  induction left generalizing b c with
  | zero => exact .inl rfl
  | succ left ih =>
      rw [extendDown]
      split
      · rcases ih (b + 1) (nextLine c) with hend | hcov | hdiffer
        · exact .inl (by omega)
        · exact .inr (.inl hcov)
        · exact .inr (.inr hdiffer)
      next hstop =>
        simp only
        by_cases hcov : covered (b + 1) = true
        · exact .inr (.inl hcov)
        · refine .inr (.inr ?_)
          rw [← Bool.not_eq_true]
          exact fun hm => hstop ⟨Bool.not_eq_true _ ▸ hcov, hm⟩

/-- The run does not extend upwards over a line that is not blocked. -/
def Run.StopsAbove (equal : EqualFn) (blocked : Nat → Prop) (r : Run) : Prop :=
  r.blockBegin = 0 ∨ blocked (r.blockBegin - 1) ∨ r.corpusBegin = 1 ∨
    equal (r.blockBegin - 1) r.fileId (r.corpusBegin - 1) = false

/-- The run does not extend downwards over a line that is not blocked. -/
def Run.StopsBelow (equal : EqualFn) (n : Nat) (blocked : Nat → Prop) (r : Run) : Prop :=
  r.blockEnd = n ∨ blocked r.blockEnd ∨ equal r.blockEnd r.fileId (r.corpusEnd + 1) = false

/-- The block line `k` is covered by a run other than `r`. -/
def CoveredByAnother (runs : List Run) (r : Run) (k : Nat) : Prop :=
  ∃ t ∈ runs, t ≠ r ∧ t.Covers k

/-- Where a run stops for a line it does not cover itself, it stops for more
such lines too. -/
theorem Run.StopsAbove.mono {blocked blocked' : Nat → Prop} {r : Run}
    (h : Run.StopsAbove equal blocked r) (hsub : ∀ k, ¬ r.Covers k → blocked k → blocked' k) :
    Run.StopsAbove equal blocked' r := by
  rcases h with hedge | hblocked | hfirst | hdiffer
  · exact .inl hedge
  · rcases Nat.eq_zero_or_pos r.blockBegin with hedge | hpos
    · exact .inl hedge
    · exact .inr (.inl (hsub _ (fun hcovers => by have := hcovers.1; omega) hblocked))
  · exact .inr (.inr (.inl hfirst))
  · exact .inr (.inr (.inr hdiffer))

theorem Run.StopsBelow.mono {n : Nat} {blocked blocked' : Nat → Prop} {r : Run}
    (h : Run.StopsBelow equal n blocked r) (hsub : ∀ k, ¬ r.Covers k → blocked k → blocked' k) :
    Run.StopsBelow equal n blocked' r := by
  rcases h with hedge | hblocked | hdiffer
  · exact .inl hedge
  · exact .inr (.inl (hsub _ (fun hcovers => Nat.lt_irrefl _ hcovers.2) hblocked))
  · exact .inr (.inr hdiffer)

/-- The run through a matching occurrence stops at lines covered at that
time. -/
theorem runThrough_stops (hcounted : Counted equal) {n pos : Nat} (hpos : pos < n)
    {covered : Nat → Bool} (hfree : covered pos = false) {pp : Posting}
    (hmatch : equal pos pp.fileId pp.lineno = true) :
    Run.StopsAbove equal (covered · = true) (runThrough n covered equal pos pp) ∧
      Run.StopsBelow equal n (covered · = true) (runThrough n covered equal pos pp) := by
  have hsound := (runThrough_spec hcounted hpos hfree hmatch).1
  have hfirst := hsound.matched 0 (Nat.sub_pos_of_lt hsound.nonempty)
  have hone : 1 ≤ (runThrough n covered equal pos pp).corpusBegin := (hcounted _ _ _ hfirst).1
  constructor
  · rcases extendUp_stop covered (fun b c => equal b pp.fileId c) pos pp.lineno with
      hedge | hline | hcov | hdiffer
    · exact .inl hedge
    · exact .inr (.inr (.inl (Nat.le_antisymm hline hone)))
    · exact .inr (.inl hcov)
    · exact .inr (.inr (.inr hdiffer))
  · obtain ⟨d, _, hdown, hbelow⟩ := extendDown_spec (fun b c => hcounted b pp.fileId c) covered
      (n - (pos + 1)) pos pp.lineno (hcounted _ _ _ hmatch).2
    have hstop := extendDown_stop covered (fun b c => equal b pp.fileId c) (n - (pos + 1)) pos
      pp.lineno
    rw [Run.StopsBelow, runThrough, hdown]
    rw [hdown] at hstop
    rcases hstop with hedge | hcov | hdiffer
    · exact .inl (by show pos + d + 1 = n; omega)
    · exact .inr (.inl hcov)
    · -- behind the largest line number the loop looks at line 0, which matches nothing either
      refine .inr (.inr ?_)
      show equal (pos + d + 1) pp.fileId (pp.lineno + d + 1) = false
      by_cases hlast : pp.lineno + d + 1 < 4294967296
      · rwa [nextLine_eq hlast] at hdiffer
      · rw [← Bool.not_eq_true]
        exact fun hm => hlast (hcounted _ _ _ hm).2

/-- Every run of the state stops only where it has to. -/
def Covering.Maximal (equal : EqualFn) (n : Nat) (st : Covering) : Prop :=
  ∀ r ∈ st.runs, Run.StopsAbove equal (CoveredByAnother st.runs r) r ∧
    Run.StopsBelow equal n (CoveredByAnother st.runs r) r

theorem Covering.Maximal.factorStep (hcounted : Counted equal) {st : Covering}
    (h : Covering.Maximal equal keys.length st) (hexact : Covering.Exact st) {anchor : Anchor}
    (hpos : anchor.pos < keys.length) :
    Covering.Maximal equal keys.length (factorStep keys minRun postingsOf equal st anchor) := by
  rcases @factorStep_cases keys minRun postingsOf equal st anchor with
    heq | ⟨post, best, hfree, _, hbest, _, heq⟩
  · rwa [heq]
  · rw [heq]
    intro r hr
    rcases List.mem_append.mp hr with hr | hr
    · -- an older run: what blocked it is still there
      have hsub : ∀ k, ¬ r.Covers k → CoveredByAnother st.runs r k →
          CoveredByAnother (st.add best).runs r k := by
        rintro k - ⟨t, ht, hne, hcovers⟩
        exact ⟨t, List.mem_append_left _ ht, hne, hcovers⟩
      exact ⟨(h r hr).1.mono hsub, (h r hr).2.mono hsub⟩
    · -- the new run: what was covered is covered by an older run
      rw [List.mem_singleton.mp hr]
      obtain ⟨pp, _, hmatch, rfl⟩ := bestRun_mem hbest
      obtain ⟨habove, hbelow⟩ := runThrough_stops hcounted hpos hfree hmatch
      have hsub : ∀ k, ¬ (runThrough keys.length st.covered equal anchor.pos pp).Covers k →
          st.covered k = true → CoveredByAnother
            (st.add (runThrough keys.length st.covered equal anchor.pos pp)).runs
            (runThrough keys.length st.covered equal anchor.pos pp) k := by
        intro k hout hcov
        obtain ⟨t, ht, hcovers⟩ := hexact k hcov
        exact ⟨t, List.mem_append_left _ ht, fun heq => hout (heq ▸ hcovers), hcovers⟩
      exact ⟨habove.mono hsub, hbelow.mono hsub⟩

/-- **Returned runs are maximal.** -/
theorem factorize_maximal (anchorSorter : Sorter Anchor.weight)
    (runSorter : Sorter Run.blockBegin) (keys : List Bytes) (minRun : Nat)
    (postingsOf : Bytes → Option (List Posting)) (equal : EqualFn) (lineCount : Nat → Nat)
    (hcount : ∀ f, lineCount f < 4294967296)
    (hequal : ∀ b f c, equal b f c = true → 1 ≤ c ∧ c ≤ lineCount f) {runs : List Run}
    (hruns : factorize anchorSorter runSorter keys minRun postingsOf equal = runs) :
    ∀ r ∈ runs,
      (r.blockBegin = 0 ∨ CoveredByAnother runs r (r.blockBegin - 1) ∨ r.corpusBegin = 1 ∨
        equal (r.blockBegin - 1) r.fileId (r.corpusBegin - 1) = false) ∧
      (r.blockEnd = keys.length ∨ CoveredByAnother runs r r.blockEnd ∨
        equal r.blockEnd r.fileId (r.corpusEnd + 1) = false) := by
  have hcounted : Counted equal := fun b f c h =>
    ⟨(hequal b f c h).1, (hequal b f c h).2.trans_lt (hcount f)⟩
  -- both invariants of the loop together
  have hend := List.foldlRecOn (motive := fun st : Covering =>
      Covering.Exact st ∧ Covering.Maximal equal keys.length st)
    (anchorSorter.run (anchorsOf keys postingsOf))
    (factorStep keys (max 1 minRun) postingsOf equal) (b := nothingCovered)
    ⟨by simp [Covering.Exact], by simp [Covering.Maximal]⟩
    (fun st h anchor hanchor => ⟨h.1.factorStep anchor,
      h.2.factorStep hcounted h.1 (anchorsOf_pos (by simpa using hanchor))⟩)
  have hanother : ∀ r k, CoveredByAnother ((anchorSorter.run (anchorsOf keys postingsOf)).foldl
      (factorStep keys (max 1 minRun) postingsOf equal) nothingCovered).runs r k →
      CoveredByAnother runs r k := by
    rintro r k ⟨t, ht, hne, hcovers⟩
    exact ⟨t, hruns ▸ mem_factorize.mpr ht, hne, hcovers⟩
  intro r hr
  rw [← hruns, mem_factorize] at hr
  obtain ⟨habove, hbelow⟩ := hend.2 r hr
  exact ⟨habove.mono fun k _ => hanother r k, hbelow.mono fun k _ => hanother r k⟩

/-- The first line of that block is a run of its own: behind it stands the
other run. -/
theorem factorize_maximal_two :
    CoveredByAnother [⟨0, 1, 0, 2, 2⟩, ⟨1, 2, 0, 1, 1⟩] ⟨0, 1, 0, 2, 2⟩ 1 ∧
    ∀ r ∈ [(⟨0, 1, 0, 2, 2⟩ : Run), ⟨1, 2, 0, 1, 1⟩],
      (r.blockBegin = 0 ∨ CoveredByAnother [⟨0, 1, 0, 2, 2⟩, ⟨1, 2, 0, 1, 1⟩] r (r.blockBegin - 1) ∨
        r.corpusBegin = 1 ∨ sampleEqual (r.blockBegin - 1) r.fileId (r.corpusBegin - 1) = false) ∧
      (r.blockEnd = 2 ∨ CoveredByAnother [⟨0, 1, 0, 2, 2⟩, ⟨1, 2, 0, 1, 1⟩] r r.blockEnd ∨
        sampleEqual r.blockEnd r.fileId (r.corpusEnd + 1) = false) := by
  constructor
  · exact ⟨⟨1, 2, 0, 1, 1⟩, by decide, by decide, by decide, by decide⟩
  · refine factorize_maximal (.stable _) (.stable _) [ascii "b", ascii "a"] 0 samplePostings
      sampleEqual (fun _ => 2) (fun _ => by decide) ?_ (by decide +kernel)
    intro b f c h
    simp only [sampleEqual, Bool.and_eq_true, beq_iff_eq, decide_eq_true_eq] at h
    omega

end Phpatcher.Theorems
