import Phpatcher.Tools.CorpusCache

/-!
# What the factorization compares

The callback of `factorize` may fail to answer. The call then ends without runs
exactly if one of the comparisons it makes has no answer, and otherwise with the runs
of a callback that always answers alike (`factorizeM_eq_some_iff`).
Which comparisons it makes is bounded by the postings: every file it looks into is the
file of a posting, and beyond the line of the posting only if that line matches
(`mem_comparisons`).

The callback by bytes looks at the characters of the cached files, and has no answer
where they are gone (`Comparable`).
-/

namespace Phpatcher.Theorems

open Phpatcher.Basis Phpatcher.Core Phpatcher.Tools

/-- Whenever the first callback answers, the second one gives the same answer. -/
def AnswersAlike (equal : Nat → Nat → Nat → Option Bool) (equal' : EqualFn) : Prop :=
  ∀ b fileId c same, equal b fileId c = some same → same = equal' b fileId c

/-- The callback answers to this comparison. -/
def Answered (equal : Nat → Nat → Nat → Option Bool) (q : Comparison) : Prop :=
  (equal q.pos q.fileId q.lineno).isSome = true

/-- The callback that keeps a list of the comparisons. -/
def listing (equal : EqualFn) : Nat → Nat → Nat → Traced Comparison Bool :=
  fun b fileId c => Traced.ask ⟨b, fileId, c⟩ (equal b fileId c)

/-! ## Up to the first comparison without an answer -/

section

open Traced

variable {equal : Nat → Nat → Nat → Option Bool} {equal' : EqualFn}

theorem stops_equal (h : AnswersAlike equal equal') (b fileId c : Nat) :
    Stops (Answered equal) (equal b fileId c) (listing equal' b fileId c) := by
  cases hanswer : equal b fileId c with
  | none =>
      refine .inr ⟨⟨⟨b, fileId, c⟩, List.mem_singleton_self _, ?_⟩, rfl⟩
      simp [Answered, hanswer]
  | some same =>
      refine .inl ⟨fun q hq => ?_, congrArg some (h b fileId c same hanswer)⟩
      rw [List.mem_singleton.mp hq, Answered, hanswer]
      rfl

theorem stops_extendUp (h : AnswersAlike equal equal') (covered : Nat → Bool) (fileId b c : Nat) :
    Stops (Answered equal) (extendUpM covered (fun b c => equal b fileId c) b c)
      (extendUpM covered (fun b c => listing equal' b fileId c) b c) := by
  induction b generalizing c with
  | zero => exact Stops.pure _
  | succ b ih =>
      rw [extendUpM, extendUpM]
      refine Stops.ite ((stops_equal h b fileId (c - 1)).bind fun same => ?_) (Stops.pure _)
      exact Stops.ite (ih (c - 1)) (Stops.pure _)

theorem stops_extendDown (h : AnswersAlike equal equal') (covered : Nat → Bool)
    (fileId left b c : Nat) :
    Stops (Answered equal) (extendDownM covered (fun b c => equal b fileId c) left b c)
      (extendDownM covered (fun b c => listing equal' b fileId c) left b c) := by
  induction left generalizing b c with
  | zero => exact Stops.pure _
  | succ left ih =>
      rw [extendDownM, extendDownM]
      refine Stops.ite ((stops_equal h (b + 1) fileId (nextLine c)).bind fun same => ?_)
        (Stops.pure _)
      exact Stops.ite (ih (b + 1) (nextLine c)) (Stops.pure _)

theorem stops_runThrough (h : AnswersAlike equal equal') (n : Nat) (covered : Nat → Bool)
    (pos : Nat) (pp : Posting) :
    Stops (Answered equal) (runThroughM equal n covered pos pp)
      (runThroughM (listing equal') n covered pos pp) := by
  refine (stops_extendUp h covered pp.fileId pos pp.lineno).bind ?_
  rintro ⟨b0, c0⟩
  refine (stops_extendDown h covered pp.fileId (n - (pos + 1)) pos pp.lineno).bind ?_
  rintro ⟨b1, c1⟩
  exact Stops.pure _

theorem stops_bestRun (h : AnswersAlike equal equal') (n : Nat) (covered : Nat → Bool)
    (pos : Nat) (post : List Posting) :
    Stops (Answered equal) (bestRunM equal n covered pos post)
      (bestRunM (listing equal') n covered pos post) := by
  refine Stops.foldlM (fun best pp => ?_) post none
  refine (stops_equal h pos pp.fileId pp.lineno).bind fun same => ?_
  refine Stops.ite (Stops.pure _) ((stops_runThrough h n covered pos pp).bind fun run => ?_)
  cases best <;> exact Stops.pure _

theorem stops_factorStep (h : AnswersAlike equal equal') (keys : List Bytes) (minRun : Nat)
    (postingsOf : Bytes → Option (List Posting)) (st : Covering) (anchor : Anchor) :
    Stops (Answered equal) (factorStepM equal keys minRun postingsOf st anchor)
      (factorStepM (listing equal') keys minRun postingsOf st anchor) := by
  rw [factorStepM, factorStepM]
  refine Stops.ite (Stops.pure _) ?_
  cases postingsOf (keys.getD anchor.pos []) with
  | none => exact Stops.pure _
  | some post =>
      refine (stops_bestRun h keys.length st.covered anchor.pos post).bind fun best => ?_
      cases best <;> exact Stops.pure _

theorem stops_factorize (h : AnswersAlike equal equal') (anchorSorter : Sorter Anchor.weight)
    (runSorter : Sorter Run.blockBegin) (keys : List Bytes) (minRun : Nat)
    (postingsOf : Bytes → Option (List Posting)) :
    Stops (Answered equal) (factorizeM equal anchorSorter runSorter keys minRun postingsOf)
      (factorizeM (listing equal') anchorSorter runSorter keys minRun postingsOf) :=
  (Stops.foldlM (stops_factorStep h keys _ postingsOf) _ _).bind fun _ => Stops.pure _

end

/-! ## The runs of a callback that answers -/

section

variable (equal : EqualFn)

theorem value_extendUp (covered : Nat → Bool) (fileId b c : Nat) :
    (extendUpM covered (fun b c => listing equal b fileId c) b c).value =
      extendUp covered (fun b c => equal b fileId c) b c := by
  induction b generalizing c with
  | zero => rfl
  | succ b ih =>
      rw [extendUpM, extendUp]
      by_cases hopen : c > 1 ∧ covered b = false
      · rw [if_pos hopen, Traced.value_bind]
        show (if equal b fileId (c - 1) = true then _ else _ : Traced Comparison _).value = _
        by_cases hequal : equal b fileId (c - 1) = true
        · rw [if_pos hequal, if_pos ⟨hopen.1, hopen.2, hequal⟩, ih]
        · rw [if_neg hequal, if_neg fun hall => hequal hall.2.2]
          rfl
      · rw [if_neg hopen, if_neg fun hall => hopen ⟨hall.1, hall.2.1⟩]
        rfl

theorem value_extendDown (covered : Nat → Bool) (fileId left b c : Nat) :
    (extendDownM covered (fun b c => listing equal b fileId c) left b c).value =
      extendDown covered (fun b c => equal b fileId c) left b c := by
  induction left generalizing b c with
  | zero => rfl
  | succ left ih =>
      rw [extendDownM, extendDown]
      by_cases hopen : covered (b + 1) = false
      · rw [if_pos hopen, Traced.value_bind]
        show (if equal (b + 1) fileId (nextLine c) = true then _ else _ :
          Traced Comparison _).value = _
        by_cases hequal : equal (b + 1) fileId (nextLine c) = true
        · rw [if_pos hequal, if_pos ⟨hopen, hequal⟩, ih]
        · rw [if_neg hequal, if_neg fun hall => hequal hall.2]
          rfl
      · rw [if_neg hopen, if_neg fun hall => hopen hall.1]
        rfl

theorem value_runThrough (n : Nat) (covered : Nat → Bool) (pos : Nat) (pp : Posting) :
    (runThroughM (listing equal) n covered pos pp).value = runThrough n covered equal pos pp := by
  simp only [runThroughM, runThrough, Traced.value_bind, Traced.value_pure, value_extendUp,
    value_extendDown]

theorem value_bestRun (n : Nat) (covered : Nat → Bool) (pos : Nat) (post : List Posting) :
    (bestRunM (listing equal) n covered pos post).value = bestRun n covered equal pos post := by
  refine Traced.value_foldlM (fun best pp => ?_) post none
  rw [bestRunStepM, Traced.value_bind]
  show (if (!equal pos pp.fileId pp.lineno) = true then _ else _ : Traced Comparison _).value = _
  split
  · rfl
  · rw [Traced.value_bind, value_runThrough]
    cases best <;> rfl

theorem value_factorStep (keys : List Bytes) (minRun : Nat)
    (postingsOf : Bytes → Option (List Posting)) (st : Covering) (anchor : Anchor) :
    (factorStepM (listing equal) keys minRun postingsOf st anchor).value =
      factorStep keys minRun postingsOf equal st anchor := by
  rw [factorStepM, factorStep]
  split
  · rfl
  · cases postingsOf (keys.getD anchor.pos []) with
    | none => rfl
    | some post =>
        simp only [Traced.value_bind, value_bestRun]
        cases bestRun keys.length st.covered equal anchor.pos post <;> rfl

theorem value_factorize (anchorSorter : Sorter Anchor.weight) (runSorter : Sorter Run.blockBegin)
    (keys : List Bytes) (minRun : Nat) (postingsOf : Bytes → Option (List Posting)) :
    (factorizeM (listing equal) anchorSorter runSorter keys minRun postingsOf).value =
      factorize anchorSorter runSorter keys minRun postingsOf equal := by
  simp only [factorizeM, factorize, Traced.value_bind, Traced.value_pure]
  rw [Traced.value_foldlM (value_factorStep equal keys _ postingsOf)]

end

section

variable {equal : Nat → Nat → Nat → Option Bool} {equal' : EqualFn}
  {anchorSorter : Sorter Anchor.weight} {runSorter : Sorter Run.blockBegin} {keys : List Bytes}
  {minRun : Nat} {postingsOf : Bytes → Option (List Posting)}

/-- The factorization comes to an end where every comparison it makes has an answer. -/
theorem isSome_factorizeM (h : AnswersAlike equal equal') :
    (factorizeM equal anchorSorter runSorter keys minRun postingsOf).isSome ↔
      ∀ q ∈ comparisons anchorSorter runSorter keys minRun postingsOf equal', Answered equal q :=
  (stops_factorize h anchorSorter runSorter keys minRun postingsOf).isSome_iff

/-- And then with the runs of a callback that answers alike. -/
theorem factorizeM_eq_some (h : AnswersAlike equal equal') {runs : List Run}
    (hruns : factorizeM equal anchorSorter runSorter keys minRun postingsOf = some runs) :
    runs = factorize anchorSorter runSorter keys minRun postingsOf equal' := by
  rw [(stops_factorize h anchorSorter runSorter keys minRun postingsOf).eq_value hruns,
    value_factorize]

/-- Both together. -/
theorem factorizeM_eq_some_iff (h : AnswersAlike equal equal') {runs : List Run} :
    factorizeM equal anchorSorter runSorter keys minRun postingsOf = some runs ↔
      (∀ q ∈ comparisons anchorSorter runSorter keys minRun postingsOf equal', Answered equal q) ∧
      runs = factorize anchorSorter runSorter keys minRun postingsOf equal' := by
  rw [← isSome_factorizeM h]
  constructor
  · intro hruns
    refine ⟨?_, factorizeM_eq_some h hruns⟩
    rw [hruns]
    rfl
  · rintro ⟨hsome, rfl⟩
    obtain ⟨runs, hruns⟩ := Option.isSome_iff_exists.mp hsome
    rw [hruns, factorizeM_eq_some h hruns]

end

/-- A block of one line, under a key with a posting that gets no answer. -/
theorem factorizeM_singleton {equal : Nat → Nat → Nat → Option Bool} {key : Bytes}
    {postingsOf : Bytes → Option (List Posting)} {post : List Posting}
    (hfind : postingsOf key = some post) {pp : Posting} (hpp : pp ∈ post)
    (hnone : equal 0 pp.fileId pp.lineno = none) (anchorSorter : Sorter Anchor.weight)
    (runSorter : Sorter Run.blockBegin) (minRun : Nat) :
    factorizeM equal anchorSorter runSorter [key] minRun postingsOf = none := by
  have hbest : ∀ covered : Nat → Bool, bestRunM equal 1 covered 0 post = none := by
    intro covered
    refine foldlM_eq_none hpp (fun best => ?_) none
    rw [bestRunStepM, hnone]
    rfl
  have hanchors : anchorSorter.run (anchorsOf [key] postingsOf) = [⟨0, post.length⟩] := by
    have hone : anchorsOf [key] postingsOf = [⟨0, post.length⟩] := by simp [anchorsOf, hfind]
    rw [hone]
    exact List.perm_singleton.mp (anchorSorter.perm _)
  rw [factorizeM, hanchors]
  simp [factorStepM, hfind, hbest]

/-! ## Which comparisons are made -/

section

variable {equal : EqualFn}

theorem fileId_of_mem_extendUp {covered : Nat → Bool} {fileId b c : Nat} {q : Comparison}
    (h : q ∈ (extendUpM covered (fun b c => listing equal b fileId c) b c).trace) :
    q.fileId = fileId := by
  induction b generalizing c with
  | zero => cases h
  | succ b ih =>
      rw [extendUpM] at h
      split at h
      · simp only [Traced.trace_bind, List.mem_append] at h
        rcases h with hfirst | hrest
        · rw [List.mem_singleton.mp hfirst]
        · split at hrest
          · exact ih hrest
          · cases hrest
      · cases h

theorem fileId_of_mem_extendDown {covered : Nat → Bool} {fileId left b c : Nat} {q : Comparison}
    (h : q ∈ (extendDownM covered (fun b c => listing equal b fileId c) left b c).trace) :
    q.fileId = fileId := by
  induction left generalizing b c with
  | zero => cases h
  | succ left ih =>
      rw [extendDownM] at h
      split at h
      · simp only [Traced.trace_bind, List.mem_append] at h
        rcases h with hfirst | hrest
        · rw [List.mem_singleton.mp hfirst]
        · split at hrest
          · exact ih hrest
          · cases hrest
      · cases h

theorem fileId_of_mem_runThrough {n : Nat} {covered : Nat → Bool} {pos : Nat} {pp : Posting}
    {q : Comparison} (h : q ∈ (runThroughM (listing equal) n covered pos pp).trace) :
    q.fileId = pp.fileId := by
  simp only [runThroughM, Traced.trace_bind, Traced.trace_pure, List.append_nil,
    List.mem_append] at h
  rcases h with hup | hdown
  · exact fileId_of_mem_extendUp hup
  · exact fileId_of_mem_extendDown hdown

/-- A comparison stays at the line of a posting, or is of the file of one that matches. -/
def Followed (equal : EqualFn) (pos : Nat) (pp : Posting) (q : Comparison) : Prop :=
  q = ⟨pos, pp.fileId, pp.lineno⟩ ∨ (equal pos pp.fileId pp.lineno = true ∧ q.fileId = pp.fileId)

theorem followed_of_mem_bestRunStep {n : Nat} {covered : Nat → Bool} {pos : Nat}
    {best : Option Run} {pp : Posting} {q : Comparison}
    (h : q ∈ (bestRunStepM (listing equal) n covered pos best pp).trace) :
    Followed equal pos pp q := by
  rw [bestRunStepM, Traced.trace_bind] at h
  rcases List.mem_append.mp h with hfirst | hrest
  · exact .inl (List.mem_singleton.mp hfirst)
  · change q ∈ (if (!equal pos pp.fileId pp.lineno) = true then _ else _ :
      Traced Comparison _).trace at hrest
    split at hrest
    · cases hrest
    next hmatch =>
      rw [Traced.trace_bind] at hrest
      rcases List.mem_append.mp hrest with hrun | hend
      · exact .inr ⟨by simpa using hmatch, fileId_of_mem_runThrough hrun⟩
      · cases best <;> cases hend

/-- **Comparisons.** Each one follows a posting of the key of a block line. -/
theorem mem_comparisons {anchorSorter : Sorter Anchor.weight} {runSorter : Sorter Run.blockBegin}
    {keys : List Bytes} {minRun : Nat} {postingsOf : Bytes → Option (List Posting)}
    {q : Comparison}
    (h : q ∈ comparisons anchorSorter runSorter keys minRun postingsOf equal) :
    ∃ pos post, pos < keys.length ∧ postingsOf (keys.getD pos []) = some post ∧
      ∃ pp ∈ post, Followed equal pos pp q := by
  rw [comparisons, factorizeM, Traced.trace_bind, Traced.trace_pure, List.append_nil] at h
  obtain ⟨anchor, hanchor, st, hasked⟩ := Traced.mem_trace_foldlM h
  have hpos := anchorsOf_pos (anchorSorter.perm _ |>.mem_iff.mp hanchor)
  unfold factorStepM at hasked
  split at hasked
  · cases hasked
  · split at hasked
    · cases hasked
    next post hpost =>
      rw [Traced.trace_bind] at hasked
      rcases List.mem_append.mp hasked with hbest | hend
      · obtain ⟨pp, hpp, best, hstep⟩ := Traced.mem_trace_foldlM hbest
        exact ⟨anchor.pos, post, hpos, hpost, pp, hpp, followed_of_mem_bestRunStep hstep⟩
      · split at hend <;> cases hend

/-- It is of the file of the posting. -/
theorem Followed.fileId {pos : Nat} {pp : Posting} {q : Comparison} (h : Followed equal pos pp q) :
    q.fileId = pp.fileId := by
  rcases h with rfl | ⟨_, hfile⟩
  · rfl
  · exact hfile

end

/-! ## Comparisons by bytes -/

/-- A comparison looks at no character that is gone: it is of no line, of an empty one,
of one with another length, or of a file that is not kept inside its string object. -/
def Comparable (files : CorpusFiles) (block : List Bytes) (q : Comparison) : Prop :=
  ∀ line, files.line q.fileId q.lineno = some line → line.length = (block.getD q.pos []).length →
    line = [] ∨ keptOutside files q.fileId = true

section

variable {files : CorpusFiles} {block : List Bytes}

theorem comparable_of_keptOutside {q : Comparison} (h : keptOutside files q.fileId = true) :
    Comparable files block q := fun _ _ _ => .inr h

/-- The callback compares a line of a file with a block line. -/
theorem answersAlike_sameLine :
    AnswersAlike (fun b fileId c => files.sameLine fileId c (block.getD b []))
      fun b fileId c => files.line fileId c == some (block.getD b []) :=
  fun _ _ _ _ h => sameLine_eq_some h

theorem answered_sameLine (q : Comparison) :
    Answered (fun b fileId c => files.sameLine fileId c (block.getD b [])) q ↔
      Comparable files block q := isSome_sameLine

end

end Phpatcher.Theorems
