import Phpatcher.Tools.MatcherCore

/-!
# Factorization is sound and takes a whole occurrence whole

What the greedy loop of `factorize` returns, whatever order the sorts give to
ties: runs in the order of the block that do not overlap, that are as long as
asked for, and that match line by line. And where one of the postings of every
anchor continues an occurrence of the *whole* block, that occurrence is what
the first anchor finds, so a single run covers the block.
-/

namespace Phpatcher.Theorems

open Phpatcher.Basis Phpatcher.Core Phpatcher.Tools

variable {keys : List Bytes} {minRun : Nat} {postingsOf : Bytes → Option (List Posting)}
  {equal : EqualFn}

/-! ## Soundness -/

/-- A turn of the anchor loop adds only a run that is long enough. -/
theorem length_factorStep {st : Covering} (h : ∀ r ∈ st.runs, minRun ≤ r.length)
    (anchor : Anchor) :
    ∀ r ∈ (factorStep keys minRun postingsOf equal st anchor).runs, minRun ≤ r.length := by
  unfold factorStep
  split
  · exact h
  · split
    · exact h
    · split
      · exact h
      next best _ =>
        split
        next hlong =>
          intro r hr
          rcases List.mem_append.mp hr with hr | hr
          · exact h r hr
          · rw [List.mem_singleton.mp hr]
            exact hlong
        next => exact h

/-- So does the whole loop; a minimum of 0 counts as 1. -/
theorem length_factorize (anchorSorter : Sorter Anchor.weight) (runSorter : Sorter Run.blockBegin) :
    ∀ r ∈ factorize anchorSorter runSorter keys minRun postingsOf equal,
      max 1 minRun ≤ r.length := by
  intro r hr
  rw [factorize, Sorter.mem_run] at hr
  have hmin : (if minRun = 0 then 1 else minRun) = max 1 minRun := by
    split <;> omega
  rw [hmin] at hr
  refine List.foldlRecOn (motive := fun st : Covering => ∀ r ∈ st.runs, max 1 minRun ≤ r.length)
    (anchorSorter.run (anchorsOf keys postingsOf)) _ (by simp) ?_ r hr
  intro st hst anchor _
  exact length_factorStep hst anchor

/-- **Soundness of the factorization.** -/
theorem factorize_runs (anchorSorter : Sorter Anchor.weight) (runSorter : Sorter Run.blockBegin)
    (keys : List Bytes) (minRun : Nat) (postingsOf : Bytes → Option (List Posting))
    (equal : EqualFn) (lineCount : Nat → Nat) (hcount : ∀ f, lineCount f < 4294967296)
    (hequal : ∀ b f c, equal b f c = true → 1 ≤ c ∧ c ≤ lineCount f) :
    ((factorize anchorSorter runSorter keys minRun postingsOf equal).Pairwise fun r t =>
      r.blockBegin < t.blockBegin ∧ ∀ k, r.Covers k → ¬ t.Covers k) ∧
    ∀ r ∈ factorize anchorSorter runSorter keys minRun postingsOf equal,
      r.blockBegin < r.blockEnd ∧ r.blockEnd ≤ keys.length ∧ max 1 minRun ≤ r.length ∧
      r.corpusEnd = r.corpusBegin + (r.length - 1) ∧ 1 ≤ r.corpusBegin ∧
      ∀ k, k < r.length → equal (r.blockBegin + k) r.fileId (r.corpusBegin + k) = true := by
  have hcounted : Counted equal := fun b f c h =>
    ⟨(hequal b f c h).1, (hequal b f c h).2.trans_lt (hcount f)⟩
  obtain ⟨hsound, hdisjoint⟩ :=
    factorize_sound anchorSorter runSorter keys minRun postingsOf hcounted
  constructor
  · apply hdisjoint.imp_of_mem
    intro r t hr _ hle
    have := (hsound r hr).nonempty
    refine ⟨by omega, ?_⟩
    rintro k ⟨_, hk⟩ ⟨hk', _⟩
    omega
  · intro r hr
    have hrun := hsound r hr
    have hlen := length_factorize anchorSorter runSorter r hr
    have hend := hrun.corpusEnd_eq
    refine ⟨hrun.nonempty, hrun.inBlock, hlen, by omega, ?_, hrun.matched⟩
    -- the first line matches, and line 0 never does
    have hfirst := hrun.matched 0 (by omega)
    exact (hequal _ _ _ hfirst).1

/-- The postings of two keys, each once in a file of two lines. -/
def samplePostings (key : Bytes) : Option (List Posting) :=
  if key = ascii "a" then some [⟨0, 1⟩] else if key = ascii "b" then some [⟨0, 2⟩] else none

/-- The lines of that file, read the other way around by the block: two runs of
one line. -/
theorem factorize_runs_two :
    factorize (.stable _) (.stable _) [ascii "b", ascii "a"] 0 samplePostings
        (fun b f c => f == 0 && b + c == 2 && decide (1 ≤ c)) =
      [⟨0, 1, 0, 2, 2⟩, ⟨1, 2, 0, 1, 1⟩] ∧
    ∀ r ∈ factorize (.stable _) (.stable _) [ascii "b", ascii "a"] 0 samplePostings
        (fun b f c => f == 0 && b + c == 2 && decide (1 ≤ c)), 1 ≤ r.corpusBegin := by
  constructor
  · decide +kernel
  · intro r hr
    exact ((factorize_runs (.stable _) (.stable _) [ascii "b", ascii "a"] 0 samplePostings _
      (fun _ => 2) (fun _ => by decide) (fun b f c h => by
        simp only [Bool.and_eq_true, beq_iff_eq, decide_eq_true_eq] at h
        omega)).2 r hr).2.2.2.2.1

/-! ## A whole occurrence -/

/-- The anchors are the block lines with postings. -/
theorem mem_anchorsOf {anchor : Anchor} :
    anchor ∈ anchorsOf keys postingsOf ↔
      anchor.pos < keys.length ∧
      ∃ post, postingsOf (keys.getD anchor.pos []) = some post ∧ post.length = anchor.weight := by
  simp only [anchorsOf, List.mem_filterMap, Option.map_eq_some_iff, Prod.exists,
    List.mem_zipIdx_iff_getElem?]
  constructor
  · rintro ⟨key, pos, hkey, post, hpost, rfl⟩
    obtain ⟨hlt, rfl⟩ := List.getElem?_eq_some_iff.mp hkey
    exact ⟨hlt, post, by simpa [hlt] using hpost, rfl⟩
  · rintro ⟨hlt, post, hpost, hweight⟩
    refine ⟨_, anchor.pos, List.getElem?_eq_getElem hlt, post, ?_, ?_⟩
    · simpa [hlt] using hpost
    · rw [hweight]

/-- Extending upwards through uncovered lines that all match reaches the top. -/
theorem extendUp_whole {matchesFile : Nat → Nat → Bool} {a : Nat} (ha : 1 ≤ a) {b : Nat}
    (hmatch : ∀ i, i < b → matchesFile i (a + i) = true) :
    extendUp (fun _ => false) matchesFile b (a + b) = (0, a) := by
  induction b with
  | zero => rfl
  | succ b ih =>
      have hline : a + (b + 1) - 1 = a + b := by omega
      rw [extendUp, hline, if_pos ⟨by omega, rfl, hmatch b (by omega)⟩]
      exact ih fun i hi => hmatch i (by omega)

/-- Extending downwards reaches the bottom. -/
theorem extendDown_whole {matchesFile : Nat → Nat → Bool} {left b c : Nat}
    (hc : c + left < 4294967296)
    (hmatch : ∀ i, 1 ≤ i → i ≤ left → matchesFile (b + i) (c + i) = true) :
    extendDown (fun _ => false) matchesFile left b c = (b + left, c + left) := by
  induction left generalizing b c with
  | zero => rfl
  | succ left ih =>
      have hnext : nextLine c = c + 1 := nextLine_eq (by omega)
      rw [extendDown, hnext, if_pos ⟨rfl, hmatch 1 (by omega) (by omega)⟩, ih (by omega)]
      · rw [show b + 1 + left = b + (left + 1) by omega,
          show c + 1 + left = c + (left + 1) by omega]
      · intro i hi hle
        rw [show b + 1 + i = b + (i + 1) by omega, show c + 1 + i = c + (i + 1) by omega]
        exact hmatch (i + 1) (by omega) (by omega)

/-- The whole block of `n` lines stands at line `a` of the file `f`. -/
structure Occurs (equal : EqualFn) (n f a : Nat) : Prop where
  counted : 1 ≤ a
  matched : ∀ i, i < n → equal i f (a + i) = true

/-- The run through a line of the occurrence is the occurrence. -/
theorem Occurs.runThrough (hcounted : Counted equal) {n f a : Nat} (h : Occurs equal n f a)
    {pos : Nat} (hpos : pos < n) :
    (runThrough n (fun _ => false) equal pos ⟨f, a + pos⟩).length = n := by
  have hlast := (hcounted _ _ _ (h.matched (n - 1) (by omega))).2
  have hup := @extendUp_whole (fun b c => equal b f c) a h.counted pos fun i hi =>
    h.matched i (by omega)
  have hdown := @extendDown_whole (fun b c => equal b f c) (n - (pos + 1)) pos (a + pos)
    (by omega) fun i _ hi => by
      rw [Nat.add_assoc]
      exact h.matched (pos + i) (by omega)
  rw [Tools.runThrough, hup, hdown]
  show pos + (n - (pos + 1)) + 1 - 0 = n
  omega

/-- The best run is as long as the run through any posting that matches. -/
theorem bestRun_longest {n pos : Nat} {covered : Nat → Bool} {post : List Posting} {pp : Posting}
    (hmem : pp ∈ post) (hmatch : equal pos pp.fileId pp.lineno = true) :
    ∃ best, bestRun n covered equal pos post = some best ∧
      (runThrough n covered equal pos pp).length ≤ best.length := by
  obtain ⟨before, after, rfl⟩ := List.append_of_mem hmem
  rw [bestRun, List.foldl_append, List.foldl_cons]
  generalize before.foldl _ none = start
  -- what is held does not get shorter
  refine List.foldlRecOn (motive := fun held : Option Run => ∃ best, held = some best ∧
    (runThrough n covered equal pos pp).length ≤ best.length) after _ ?_ ?_
  · -- after the turn of `pp` its run or a longer one is held
    simp only [hmatch, Bool.not_true, Bool.false_eq_true, if_false]
    cases start with
    | none => exact ⟨_, rfl, Nat.le_refl _⟩
    | some b =>
        simp only
        split
        next => exact ⟨_, rfl, Nat.le_refl _⟩
        next hshort => exact ⟨b, rfl, Nat.not_lt.mp hshort⟩
  · intro held hheld later _
    obtain ⟨best, rfl, hle⟩ := hheld
    split
    next => exact ⟨best, rfl, hle⟩
    next =>
      simp only
      split
      next hlonger => exact ⟨_, rfl, hle.trans (Nat.le_of_lt hlonger)⟩
      next => exact ⟨best, rfl, hle⟩

/-- Once every line of the block is covered, no turn changes anything. -/
theorem foldl_factorStep_covered {st : Covering} {anchors : List Anchor}
    (h : ∀ anchor ∈ anchors, st.covered anchor.pos = true) :
    anchors.foldl (factorStep keys minRun postingsOf equal) st = st := by
  induction anchors with
  | nil => rfl
  | cons anchor anchors ih =>
      rw [List.forall_mem_cons] at h
      rw [List.foldl_cons, factorStep, if_pos h.1]
      exact ih h.2

/-- The first turn takes a run over the whole block. -/
theorem factorStep_whole (hcounted : Counted equal) {f a : Nat}
    (hoccurs : Occurs equal keys.length f a)
    (hposted : ∀ pos post, pos < keys.length → postingsOf (keys.getD pos []) = some post →
      ⟨f, a + pos⟩ ∈ post)
    {first : Anchor} (hfirst : first ∈ anchorsOf keys postingsOf) {m : Nat}
    (hm : m ≤ keys.length) :
    ∃ best : Run, best.blockBegin = 0 ∧ best.blockEnd = keys.length ∧
      factorStep keys m postingsOf equal { covered := fun _ => false, runs := [] } first =
        Covering.add { covered := fun _ => false, runs := [] } best := by
  obtain ⟨hpos, post, hpost, _⟩ := mem_anchorsOf.mp hfirst
  -- the anchor is free, and finds the occurrence or a run as long
  obtain ⟨best, hbest, hlong⟩ := @bestRun_longest equal keys.length first.pos
    (fun _ => false) post _ (hposted _ _ hpos hpost) (hoccurs.matched _ hpos)
  rw [hoccurs.runThrough hcounted hpos] at hlong
  have hsound := (bestRun_spec hcounted hpos rfl hbest).1
  have hinBlock := hsound.inBlock
  have hwhole : best.blockBegin = 0 ∧ best.blockEnd = keys.length := by
    unfold Run.length at hlong
    have := hsound.nonempty
    omega
  have hlength : m ≤ best.length := by
    rw [Run.length, hwhole.1, hwhole.2]
    exact hm
  refine ⟨best, hwhole.1, hwhole.2, ?_⟩
  simp only [factorStep, hpost, hbest, Bool.false_eq_true, if_false, ge_iff_le, hlength, if_true]

/-- **A whole occurrence is found whole.** Some line of the block is an anchor,
and every anchor has the line of the occurrence among its postings. -/
theorem factorize_whole (anchorSorter : Sorter Anchor.weight) (runSorter : Sorter Run.blockBegin)
    (hcounted : Counted equal) (hmin : minRun ≤ keys.length) {f a : Nat}
    (hoccurs : Occurs equal keys.length f a)
    (hposted : ∀ pos post, pos < keys.length → postingsOf (keys.getD pos []) = some post →
      ⟨f, a + pos⟩ ∈ post)
    (hanchor : ∃ pos < keys.length, (postingsOf (keys.getD pos [])).isSome) :
    ∃ r, factorize anchorSorter runSorter keys minRun postingsOf equal = [r] ∧
      r.blockBegin = 0 ∧ r.blockEnd = keys.length := by
  obtain ⟨pos, hpos, hsome⟩ := hanchor
  obtain ⟨post, hpost⟩ := Option.isSome_iff_exists.mp hsome
  have hne : anchorSorter.run (anchorsOf keys postingsOf) ≠ [] := by
    apply List.ne_nil_of_mem (a := (⟨pos, post.length⟩ : Anchor))
    rw [Sorter.mem_run, mem_anchorsOf]
    exact ⟨hpos, post, hpost, rfl⟩
  have hlength : (if minRun = 0 then 1 else minRun) ≤ keys.length := by
    split <;> omega
  rw [factorize]
  have hmem : ∀ anchor ∈ anchorSorter.run (anchorsOf keys postingsOf),
      anchor ∈ anchorsOf keys postingsOf := by simp
  generalize anchorSorter.run (anchorsOf keys postingsOf) = anchors at hne hmem
  cases anchors with
  | nil => exact absurd rfl hne
  | cons first rest =>
      obtain ⟨best, hbegin, hend, hturn⟩ := factorStep_whole hcounted hoccurs hposted
        (hmem first List.mem_cons_self) hlength
      refine ⟨best, ?_, hbegin, hend⟩
      show runSorter.run (rest.foldl _ (factorStep keys _ postingsOf equal _ first)).runs = [best]
      rw [hturn, foldl_factorStep_covered]
      · exact List.perm_singleton.mp (runSorter.perm _)
      · -- the others are covered now
        intro anchor hanchor
        have := (mem_anchorsOf.mp (hmem anchor (List.mem_cons_of_mem _ hanchor))).1
        simp [Covering.add, hbegin, hend, this]

/-- Where no posting of an anchor matches, there is no run. -/
theorem factorize_unmatched (anchorSorter : Sorter Anchor.weight)
    (runSorter : Sorter Run.blockBegin)
    (h : ∀ pos post, pos < keys.length → postingsOf (keys.getD pos []) = some post →
      ∀ pp ∈ post, equal pos pp.fileId pp.lineno = false) :
    factorize anchorSorter runSorter keys minRun postingsOf equal = [] := by
  have hnone : ∀ n covered pos post, (∀ pp ∈ post, equal pos pp.fileId pp.lineno = false) →
      bestRun n covered equal pos post = none := by
    intro n covered pos post hpost
    refine List.foldlRecOn (motive := fun best => best = none) post _ rfl ?_
    intro best hbest pp hpp
    rw [hpost pp hpp]
    exact hbest
  have hturn : ∀ m st anchor, anchor ∈ anchorsOf keys postingsOf →
      factorStep keys m postingsOf equal st anchor = st := by
    intro m st anchor hanchor
    obtain ⟨hpos, post, hpost, _⟩ := mem_anchorsOf.mp hanchor
    rw [factorStep]
    split
    · rfl
    · simp only [hpost, hnone _ _ _ _ (h _ _ hpos hpost)]
  have hfold : ∀ m, (anchorSorter.run (anchorsOf keys postingsOf)).foldl
      (factorStep keys m postingsOf equal) { covered := fun _ => false, runs := [] } =
        { covered := fun _ => false, runs := [] } := by
    intro m
    refine List.foldlRecOn (motive := fun st : Covering => st = _) _ _ rfl ?_
    intro st hst anchor hanchor
    rw [hturn m st anchor (by simpa using hanchor), hst]
  show runSorter.run (List.foldl (factorStep keys _ postingsOf equal) _ _).runs = []
  rw [hfold]
  exact List.perm_nil.mp (runSorter.perm [])

end Phpatcher.Theorems
