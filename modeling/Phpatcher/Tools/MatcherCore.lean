import Phpatcher.Basis.Sorted
import Phpatcher.Core.Patch

/-!
# Greedy rare-anchor factorization

`factorize` of `matcher_core.hpp`. It is told by a callback which block line
matches which corpus line; what it promises back (`factorize_sound`) is that
its runs are disjoint, in the order of the block, and match line by line,
whatever order the sorts give to ties.

Line numbers are `std::uint32_t` in the source: the step to the next corpus
line wraps around.
-/

namespace Phpatcher.Tools

open Phpatcher.Basis Phpatcher.Core

/-- `Posting`: an occurrence of a key, with a 1-based line number. -/
structure Posting where
  fileId : Nat
  lineno : Nat
  deriving DecidableEq, Repr

/-- `Run`: block lines `blockBegin..blockEnd - 1` are the corpus lines
`corpusBegin..corpusEnd` (1-based, inclusive). -/
structure Run where
  blockBegin : Nat := 0
  blockEnd : Nat := 0
  fileId : Nat := 0
  corpusBegin : Nat := 0
  corpusEnd : Nat := 0
  deriving DecidableEq, Repr

/-- `Run::length`. -/
def Run.length (r : Run) : Nat := r.blockEnd - r.blockBegin

/-- `EqualFn`: whether a block line matches a line of a corpus file. -/
abbrev EqualFn := Nat → Nat → Nat → Bool

/-- Bytes `trim` strips: blanks, form feed and vertical tab. -/
def isWs (c : UInt8) : Bool :=
  c == space || c == tab || c == carriageReturn || c == formFeed || c == verticalTab

/-- `trim`. -/
def trim (s : Bytes) : Bytes := trimBoth isWs s

theorem trim_trim (s : Bytes) : trim (trim s) = trim s := by
  have hedges := bareEdges_trimBoth isWs s
  have htrim := @trimBoth_eq isWs [] (trim s) [] (by simp) (by simp) hedges
  rwa [List.nil_append, List.append_nil] at htrim

theorem sublist_trim (s : Bytes) : (trim s).Sublist s := by
  have hsplit := trimBoth_split isWs s
  rw [List.append_assoc] at hsplit
  conv_rhs => rw [hsplit]
  exact (List.sublist_append_left _ _).trans (List.sublist_append_right _ _)

/-- Spaces behind a trimmed line are trimmed off. -/
theorem trim_append_spaces {key : Bytes} (h : trim key = key) (n : Nat) :
    trim (key ++ List.replicate n space) = key := by
  have hedges : BareEdges isWs key := h ▸ bareEdges_trimBoth isWs key
  have hspaces : ∀ c ∈ List.replicate n space, isWs c = true := by
    intro c hc
    rw [List.eq_of_mem_replicate hc]
    rfl
  exact @trimBoth_eq isWs [] key _ (by simp) hspaces hedges

/-- An anchor: a block line whose key is in the index. -/
structure Anchor where
  pos : Nat
  weight : Nat
  deriving DecidableEq, Repr

/-- The anchors of a block, in block order. -/
def anchorsOf (keys : List Bytes) (postingsOf : Bytes → Option (List Posting)) : List Anchor :=
  keys.zipIdx.filterMap fun (key, i) => (postingsOf key).map fun post => ⟨i, post.length⟩

/-- The next line number, as a 32-bit number. -/
def nextLine (c : Nat) : Nat := (c + 1) % 4294967296

/-- Extend upwards from block line `b` and corpus line `c`. -/
def extendUp (covered : Nat → Bool) (equal : Nat → Nat → Bool) : Nat → Nat → Nat × Nat
  | 0, c => (0, c)
  | b + 1, c =>
      if c > 1 ∧ covered b = false ∧ equal b (c - 1) = true then extendUp covered equal b (c - 1)
      else (b + 1, c)

/-- Extend downwards from block line `b` and corpus line `c`, with `left` block
lines behind `b`. -/
def extendDown (covered : Nat → Bool) (equal : Nat → Nat → Bool) : Nat → Nat → Nat → Nat × Nat
  | 0, b, c => (b, c)
  | left + 1, b, c =>
      if covered (b + 1) = false ∧ equal (b + 1) (nextLine c) = true then
        extendDown covered equal left (b + 1) (nextLine c)
      else (b, c)

/-- The run through an occurrence of block line `pos`, extended both ways in a
block of `n` lines. -/
def runThrough (n : Nat) (covered : Nat → Bool) (equal : EqualFn) (pos : Nat)
    (pp : Posting) : Run :=
  let matchesFile := fun b c => equal b pp.fileId c
  let (b0, c0) := extendUp covered matchesFile pos pp.lineno
  let (b1, c1) := extendDown covered matchesFile (n - (pos + 1)) pos pp.lineno
  { blockBegin := b0, blockEnd := b1 + 1, fileId := pp.fileId, corpusBegin := c0, corpusEnd := c1 }

/-- The longest run through block line `pos`; of several the first. -/
def bestRun (n : Nat) (covered : Nat → Bool) (equal : EqualFn) (pos : Nat)
    (post : List Posting) : Option Run :=
  post.foldl
    (fun best pp =>
      if !equal pos pp.fileId pp.lineno then best
      else
        let run := runThrough n covered equal pos pp
        match best with
        | none => some run
        | some b => if run.length > b.length then some run else best)
    none

/-- The block lines covered so far and the runs that cover them. -/
structure Covering where
  covered : Nat → Bool
  runs : List Run

/-- Add a run. -/
def Covering.add (st : Covering) (run : Run) : Covering where
  covered k := (run.blockBegin ≤ k && k < run.blockEnd) || st.covered k
  runs := st.runs ++ [run]

/-- One turn of the anchor loop. -/
def factorStep (keys : List Bytes) (minRun : Nat) (postingsOf : Bytes → Option (List Posting))
    (equal : EqualFn) (st : Covering) (anchor : Anchor) : Covering :=
  if st.covered anchor.pos then st
  else
    match postingsOf (keys.getD anchor.pos []) with
    | none => st
    | some post =>
        match bestRun keys.length st.covered equal anchor.pos post with
        | none => st
        | some best => if best.length ≥ minRun then st.add best else st

/-- `factorize`. -/
def factorize (anchorSorter : Sorter Anchor.weight) (runSorter : Sorter Run.blockBegin)
    (keys : List Bytes) (minRun : Nat) (postingsOf : Bytes → Option (List Posting))
    (equal : EqualFn) : List Run :=
  let minRun := if minRun = 0 then 1 else minRun
  let anchors := anchorSorter.run (anchorsOf keys postingsOf)
  let st := anchors.foldl (factorStep keys minRun postingsOf equal)
    { covered := fun _ => false, runs := [] }
  runSorter.run st.runs

/-! ## What the runs promise -/

/-- A callback that matches only lines a 32-bit number can count; line 0, which
the step behind the largest number leads to, never matches. -/
def Counted (equal : EqualFn) : Prop :=
  ∀ b f c, equal b f c = true → 1 ≤ c ∧ c < 4294967296

/-- A run of a block of `n` lines that matches line by line. -/
structure Run.Sound (equal : EqualFn) (n : Nat) (r : Run) : Prop where
  nonempty : r.blockBegin < r.blockEnd
  inBlock : r.blockEnd ≤ n
  corpusEnd_eq : r.corpusEnd + 1 = r.corpusBegin + r.length
  matched : ∀ i, i < r.length → equal (r.blockBegin + i) r.fileId (r.corpusBegin + i) = true

/-- The run covers the block line `k`. -/
def Run.Covers (r : Run) (k : Nat) : Prop := r.blockBegin ≤ k ∧ k < r.blockEnd

/-- Extending upwards goes up `k` lines, all of them matched and not covered. -/
theorem extendUp_spec (covered : Nat → Bool) (equal : Nat → Nat → Bool) (b c : Nat) :
    ∃ k, b = (extendUp covered equal b c).1 + k ∧ c = (extendUp covered equal b c).2 + k ∧
      ∀ i, i < k → equal ((extendUp covered equal b c).1 + i) ((extendUp covered equal b c).2 + i)
        = true ∧ covered ((extendUp covered equal b c).1 + i) = false := by
  induction b generalizing c with
  | zero => exact ⟨0, rfl, rfl, by omega⟩
  | succ b ih =>
      rw [extendUp]
      split
      next h =>
        obtain ⟨k, hb, hc, hall⟩ := ih (c - 1)
        refine ⟨k + 1, by omega, by omega, ?_⟩
        intro i hi
        -- the last of the `k + 1` lines is the one checked in this turn
        rcases Nat.lt_or_eq_of_le (Nat.lt_succ_iff.mp hi) with hlt | rfl
        · exact hall i hlt
        · rw [← hb, ← hc]
          exact ⟨h.2.2, h.2.1⟩
      next => exact ⟨0, rfl, rfl, by omega⟩

theorem nextLine_eq {c : Nat} (h : c + 1 < 4294967296) : nextLine c = c + 1 :=
  Nat.mod_eq_of_lt h

/-- Only the step behind the largest number leads to 0. -/
theorem nextLine_eq_of_pos {c : Nat} (hc : c < 4294967296) (hpos : 1 ≤ nextLine c) :
    nextLine c = c + 1 := by
  unfold nextLine at hpos ⊢
  omega

/-- Extending downwards goes down `k` lines, all of them matched and not
covered. -/
theorem extendDown_spec {equal : Nat → Nat → Bool}
    (hcounted : ∀ b c, equal b c = true → 1 ≤ c ∧ c < 4294967296) (covered : Nat → Bool)
    (left b c : Nat) (hc : c < 4294967296) :
    ∃ k, k ≤ left ∧ extendDown covered equal left b c = (b + k, c + k) ∧
      ∀ i, 1 ≤ i → i ≤ k → equal (b + i) (c + i) = true ∧ covered (b + i) = false := by
  induction left generalizing b c with
  | zero => exact ⟨0, Nat.le_refl 0, rfl, by omega⟩
  | succ left ih =>
      rw [extendDown]
      split
      next h =>
        have hnext : nextLine c = c + 1 := nextLine_eq_of_pos hc (hcounted _ _ h.2).1
        rw [hnext] at h ⊢
        obtain ⟨k, hk, heq, hall⟩ := ih (b + 1) (c + 1) (hcounted _ _ h.2).2
        refine ⟨k + 1, by omega, ?_, ?_⟩
        · rw [heq, show b + 1 + k = b + (k + 1) by omega, show c + 1 + k = c + (k + 1) by omega]
        · intro i hi hik
          rcases Nat.lt_or_eq_of_le hi with hlt | rfl
          · have := hall (i - 1) (by omega) (by omega)
            rwa [show b + 1 + (i - 1) = b + i by omega, show c + 1 + (i - 1) = c + i by omega]
              at this
          · exact ⟨h.2, h.1⟩
      next => exact ⟨0, Nat.zero_le _, rfl, by omega⟩

/-- The run through a matching occurrence of an uncovered line is sound, and
covers nothing that was covered. -/
theorem runThrough_spec {equal : EqualFn} (hcounted : Counted equal) {n pos : Nat}
    (hpos : pos < n) {covered : Nat → Bool} (hfree : covered pos = false) {pp : Posting}
    (hmatch : equal pos pp.fileId pp.lineno = true) :
    (runThrough n covered equal pos pp).Sound equal n ∧
      ∀ k, (runThrough n covered equal pos pp).Covers k → covered k = false := by
  obtain ⟨u, hb, hc, hup⟩ := extendUp_spec covered (fun b c => equal b pp.fileId c) pos pp.lineno
  obtain ⟨d, hd, hdown, hbelow⟩ := extendDown_spec (fun b c => hcounted b pp.fileId c) covered
    (n - (pos + 1)) pos pp.lineno (hcounted _ _ _ hmatch).2
  rw [runThrough]
  generalize extendUp covered (fun b c => equal b pp.fileId c) pos pp.lineno = up at hb hc hup ⊢
  obtain ⟨b0, c0⟩ := up
  simp only at hb hc hup
  rw [hdown]
  -- every line of the run is above, at, or below the anchor
  have hall : ∀ i, i < u + d + 1 →
      equal (b0 + i) pp.fileId (c0 + i) = true ∧ covered (b0 + i) = false := by
    intro i hi
    rcases lt_trichotomy i u with hlt | rfl | hgt
    · exact hup i hlt
    · rw [← hb, ← hc]
      exact ⟨hmatch, hfree⟩
    · have := hbelow (i - u) (by omega) (by omega)
      rwa [show pos + (i - u) = b0 + i by omega, show pp.lineno + (i - u) = c0 + i by omega] at this
  refine ⟨⟨?_, ?_, ?_, ?_⟩, ?_⟩
  · show b0 < pos + d + 1
    omega
  · show pos + d + 1 ≤ n
    omega
  · show pp.lineno + d + 1 = c0 + (pos + d + 1 - b0)
    omega
  · intro i hi
    exact (hall i (by simp only [Run.length] at hi; omega)).1
  · rintro k ⟨hlo, hhi⟩
    simp only at hlo hhi
    have := (hall (k - b0) (by omega)).2
    rwa [show b0 + (k - b0) = k by omega] at this

/-- The best run is the run through a posting that matches. -/
theorem bestRun_mem {equal : EqualFn} {n pos : Nat} {covered : Nat → Bool} {post : List Posting}
    {best : Run} (h : bestRun n covered equal pos post = some best) :
    ∃ pp ∈ post, equal pos pp.fileId pp.lineno = true ∧
      best = runThrough n covered equal pos pp := by
  revert h best
  -- what is held is such a run, or nothing is held yet
  refine List.foldlRecOn (motive := fun held : Option Run => ∀ {best}, held = some best →
    ∃ pp ∈ post, equal pos pp.fileId pp.lineno = true ∧
      best = runThrough n covered equal pos pp) post _ (by simp) ?_
  intro held hheld pp hpp best h
  by_cases hmatch : equal pos pp.fileId pp.lineno = true
  · simp only [hmatch, Bool.not_true, Bool.false_eq_true, if_false] at h
    cases held with
    | none => exact ⟨pp, hpp, hmatch, (Option.some.inj h).symm⟩
    | some b =>
        simp only at h
        split at h
        · exact ⟨pp, hpp, hmatch, (Option.some.inj h).symm⟩
        · exact hheld h
  · rw [Bool.not_eq_true] at hmatch
    simp only [hmatch, Bool.not_false, if_true] at h
    exact hheld h

/-- So is the best run. -/
theorem bestRun_spec {equal : EqualFn} (hcounted : Counted equal) {n pos : Nat} (hpos : pos < n)
    {covered : Nat → Bool} (hfree : covered pos = false) {post : List Posting} {best : Run}
    (h : bestRun n covered equal pos post = some best) :
    best.Sound equal n ∧ ∀ k, best.Covers k → covered k = false := by
  obtain ⟨pp, _, hmatch, rfl⟩ := bestRun_mem h
  exact runThrough_spec hcounted hpos hfree hmatch

/-- The invariant of the anchor loop. -/
structure Covering.Sound (equal : EqualFn) (n : Nat) (st : Covering) : Prop where
  runs : ∀ r ∈ st.runs, r.Sound equal n
  covered : ∀ r ∈ st.runs, ∀ k, r.Covers k → st.covered k = true
  disjoint : st.runs.Pairwise fun r t => r.blockEnd ≤ t.blockBegin ∨ t.blockEnd ≤ r.blockBegin

/-- A run on uncovered lines keeps the invariant. -/
theorem Covering.Sound.add {equal : EqualFn} {n : Nat} {st : Covering} (h : st.Sound equal n)
    {run : Run} (hrun : run.Sound equal n) (hfree : ∀ k, run.Covers k → st.covered k = false) :
    (st.add run).Sound equal n where
  runs := by
    intro r hr
    rcases List.mem_append.mp hr with hr | hr
    · exact h.runs r hr
    · rw [List.mem_singleton.mp hr]
      exact hrun
  covered := by
    intro r hr k hk
    rcases List.mem_append.mp hr with hr | hr
    · simp [Covering.add, h.covered r hr k hk]
    · rw [List.mem_singleton.mp hr] at hk
      simp [Covering.add, hk.1, hk.2]
  disjoint := by
    refine List.pairwise_append.mpr ⟨h.disjoint, List.pairwise_singleton _ _, ?_⟩
    intro r hr t ht
    rw [List.mem_singleton.mp ht]
    -- two runs that overlap share the larger of their first lines
    by_contra hover
    have hk : r.Covers (max r.blockBegin run.blockBegin) ∧
        run.Covers (max r.blockBegin run.blockBegin) := by
      have := (h.runs r hr).nonempty
      have := hrun.nonempty
      simp only [Run.Covers]
      omega
    have hcov := h.covered r hr _ hk.1
    rw [hfree _ hk.2] at hcov
    exact absurd hcov (by simp)

theorem factorStep_sound {keys : List Bytes} {minRun : Nat}
    {postingsOf : Bytes → Option (List Posting)} {equal : EqualFn} (hcounted : Counted equal)
    {st : Covering} (h : st.Sound equal keys.length) {anchor : Anchor}
    (hpos : anchor.pos < keys.length) :
    (factorStep keys minRun postingsOf equal st anchor).Sound equal keys.length := by
  unfold factorStep
  split
  · exact h
  next hfree =>
    rw [Bool.not_eq_true] at hfree
    split
    · exact h
    · split
      · exact h
      next best hbest =>
        obtain ⟨hsound, huncovered⟩ := bestRun_spec hcounted hpos hfree hbest
        split
        · exact h.add hsound huncovered
        · exact h

theorem anchorsOf_pos {keys : List Bytes} {postingsOf : Bytes → Option (List Posting)}
    {anchor : Anchor} (h : anchor ∈ anchorsOf keys postingsOf) : anchor.pos < keys.length := by
  simp only [anchorsOf, List.mem_filterMap, Option.map_eq_some_iff] at h
  obtain ⟨⟨key, i⟩, hmem, post, _, rfl⟩ := h
  exact (List.mem_zipIdx' hmem).1

/-- **Factorization.** The runs match line by line, do not overlap, and come in
the order of the block. -/
theorem factorize_sound (anchorSorter : Sorter Anchor.weight) (runSorter : Sorter Run.blockBegin)
    (keys : List Bytes) (minRun : Nat) (postingsOf : Bytes → Option (List Posting))
    {equal : EqualFn} (hcounted : Counted equal) :
    (∀ r ∈ factorize anchorSorter runSorter keys minRun postingsOf equal,
      r.Sound equal keys.length) ∧
    (factorize anchorSorter runSorter keys minRun postingsOf equal).Pairwise
      fun r t => r.blockEnd ≤ t.blockBegin := by
  have hfold : ∀ (minRun : Nat) (anchors : List Anchor), (∀ a ∈ anchors, a.pos < keys.length) →
      ∀ st : Covering, st.Sound equal keys.length →
        (anchors.foldl (factorStep keys minRun postingsOf equal) st).Sound equal keys.length := by
    intro minRun anchors
    induction anchors with
    | nil => exact fun _ st h => h
    | cons a anchors ih =>
        intro hpos st h
        rw [List.forall_mem_cons] at hpos
        exact ih hpos.2 _ (factorStep_sound hcounted h hpos.1)
  have hstart : Covering.Sound equal keys.length { covered := fun _ => false, runs := [] } :=
    ⟨by simp, by simp, List.Pairwise.nil⟩
  have hend := hfold (if minRun = 0 then 1 else minRun)
    (anchorSorter.run (anchorsOf keys postingsOf))
    (fun a ha => anchorsOf_pos (by simpa using ha)) _ hstart
  unfold factorize
  refine ⟨fun r hr => hend.runs r (by simpa using hr), ?_⟩
  have hdisjoint := (runSorter.perm _).symm.pairwise hend.disjoint
    (fun {r t} (h : r.blockEnd ≤ t.blockBegin ∨ t.blockEnd ≤ r.blockBegin) => h.symm)
  -- disjoint runs in the order of their first lines do not reach into each other
  apply (hdisjoint.and (runSorter.sorted _)).imp_of_mem
  rintro r t hr ht ⟨hdis, hle⟩
  have := (hend.runs r (by simpa using hr)).nonempty
  have := (hend.runs t (by simpa using ht)).nonempty
  omega

end Phpatcher.Tools
