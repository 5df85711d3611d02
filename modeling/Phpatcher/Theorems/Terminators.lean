import Phpatcher.Theorems.DiffReproduces
import Phpatcher.Theorems.GeneratedBundle

/-!
# Line terminators

A bundle knows lines, not how they end. An added line reaches it through
`strip_eol`, which takes one CR along with the newline, and the result ends in
a newline as the old file does, whatever the new one has. So terminators
survive exactly when the diff leaves these two alone (`terminators_iff`).
-/

namespace Phpatcher.Theorems

open Phpatcher.Basis Phpatcher.Core Phpatcher.Tools

/-! ## The lines a diff adds -/

section

variable {old new : Bytes}

/-- The new lines with the marks of the added ones. -/
def markedLines (d : Diff old new) : List (Bool × Bytes) := d.marks.zip (rawLines new)

theorem markedLines_eq (d : Diff old new) :
    markedLines d = d.hunks.flatMap Hunk.newLines ++ d.tail.map (false, ·) := by
  apply (List.zip_of_prod _ _).symm
  · simp [Diff.marks]
  · rw [d.new_eq]
    simp

/-- The lines of an addition callback. -/
def additionOf : Callback → List Bytes
  | .line (.addition content) => [stripEol content]
  | _ => []

/-- All lines a collector has been given. -/
def collectedLines (p : DiffPayload) : List Bytes :=
  p.changes.flatMap Change.added ++ p.current.added

/-- Between two changes no line is waiting. -/
def Idle (p : DiffPayload) : Prop := p.inChange = false → p.current.added = []

theorem collectedLines_flush {p : DiffPayload} (h : Idle p) :
    Idle p.flush ∧ p.flush.changes.flatMap Change.added = collectedLines p ∧
      collectedLines p.flush = collectedLines p := by
  cases hin : p.inChange with
  | false => simp [Idle, DiffPayload.flush, collectedLines, hin, h hin]
  | true => simp [Idle, DiffPayload.flush, collectedLines, hin]

theorem collectedLines_startChange {p : DiffPayload} (h : Idle p) (oldStart appendAfter : Nat) :
    (p.startChange oldStart appendAfter).inChange = true ∧
      collectedLines (p.startChange oldStart appendAfter) = collectedLines p := by
  cases hin : p.inChange with
  | false => simp [DiffPayload.startChange, collectedLines, hin, h hin]
  | true => simp [DiffPayload.startChange, hin]

theorem collectedLines_step {p : DiffPayload} (h : Idle p) (cb : Callback) :
    Idle (p.step cb) ∧ collectedLines (p.step cb) = collectedLines p ++ additionOf cb := by
  obtain ⟨hidle, _, hflush⟩ := collectedLines_flush h
  have hkeep : collectedLines p.flush = collectedLines p ++ [] := by rw [hflush, List.append_nil]
  cases cb with
  | hunk oldStart => exact ⟨hidle, hkeep⟩
  | line line =>
      cases line with
      | context oldLineno content => exact ⟨hidle, hkeep⟩
      | deletion oldLineno content =>
          obtain ⟨hin, hsame⟩ := collectedLines_startChange h oldLineno (oldLineno - 1)
          refine ⟨fun hout => absurd (hin.symm.trans hout) (by simp), ?_⟩
          rw [← hsame]
          exact (List.append_nil _).symm
      | addition content =>
          obtain ⟨hin, hsame⟩ := collectedLines_startChange h 0 p.lastOld
          refine ⟨fun hout => absurd (hin.symm.trans hout) (by simp), ?_⟩
          rw [← hsame]
          exact (List.append_assoc _ _ _).symm
      | other => exact ⟨h, (List.append_nil _).symm⟩

theorem collectedLines_foldl {p : DiffPayload} (h : Idle p) (cbs : List Callback) :
    Idle (cbs.foldl DiffPayload.step p) ∧
      collectedLines (cbs.foldl DiffPayload.step p) =
        collectedLines p ++ cbs.flatMap additionOf := by
  induction cbs generalizing p with
  | nil => exact ⟨h, by simp⟩
  | cons cb cbs ih =>
      obtain ⟨hidle, hstep⟩ := collectedLines_step h cb
      obtain ⟨hidle', hfold⟩ := ih hidle
      exact ⟨hidle', by rw [List.foldl_cons, hfold, hstep, List.flatMap_cons, List.append_assoc]⟩

/-- The added lines of some new lines, as they come out. -/
def addedOf (marked : List (Bool × Bytes)) : List Bytes :=
  (marked.filter Prod.fst).map fun p => stripEol p.2

theorem lineCallbacks_additions (o : Nat) (items : List DiffItem) :
    (lineCallbacks o items).flatMap additionOf = addedOf (items.filterMap DiffItem.newLine?) := by
  induction items generalizing o with
  | nil => rfl
  | cons item items ih =>
      cases item <;>
        simp [lineCallbacks, additionOf, ih, addedOf, DiffItem.newLine?, List.filterMap_cons]

theorem hunkCallbacks_additions (o : Nat) (hunks : List Hunk) :
    (hunkCallbacks o hunks).flatMap additionOf = addedOf (hunks.flatMap Hunk.newLines) := by
  induction hunks generalizing o with
  | nil => rfl
  | cons h hunks ih =>
      have hskip : (h.skip.map (false, ·)).filter Prod.fst = [] := by simp
      simp only [hunkCallbacks, List.flatMap_append, List.flatMap_cons, lineCallbacks_additions, ih,
        additionOf, List.nil_append, addedOf, Hunk.newLines, List.filter_append, List.map_append,
        hskip]

/-- The changes of a diff add its marked lines, in their order. -/
theorem added_diffBuffers (d : Diff old new) :
    (diffBuffers d.callbacks).flatMap Change.added = addedOf (markedLines d) := by
  have hstart : Idle ({} : DiffPayload) := fun _ => rfl
  obtain ⟨hidle, hfold⟩ := collectedLines_foldl hstart d.callbacks
  rw [diffBuffers, (collectedLines_flush hidle).2.1, hfold, Diff.callbacks,
    hunkCallbacks_additions, markedLines_eq]
  have htail : (d.tail.map (false, ·)).filter Prod.fst = [] := by simp
  simp only [addedOf, List.filter_append, htail, List.append_nil]
  rfl

/-- A line is added by some change exactly when it is a marked one. -/
theorem mem_added_iff (d : Diff old new) {line : Bytes} :
    (∃ c ∈ diffBuffers d.callbacks, line ∈ c.added) ↔
      ∃ raw, (true, raw) ∈ markedLines d ∧ stripEol raw = line := by
  rw [← List.mem_flatMap, added_diffBuffers, addedOf]
  simp

/-! ## What the result looks like -/

/-- The lines of the result. -/
def resultLines (d : Diff old new) : List Bytes := List.zipWith renderLine d.marks (rawLines new)

theorem resultLines_eq (d : Diff old new) :
    resultLines d = (markedLines d).map fun p => renderLine p.1 p.2 := by
  rw [resultLines, markedLines, List.zip, List.map_zipWith]

theorem chomp_mem_splitLines (d : Diff old new) {added : Bool} {raw : Bytes}
    (h : (added, raw) ∈ markedLines d) : newline ∉ chomp raw := by
  have hraw : chomp raw ∈ splitLines new := by
    rw [splitLines_eq]
    exact List.mem_map_of_mem (List.of_mem_zip h).2
  exact newline_not_mem_splitWith (fun _ hs => hs) (by simp) _ hraw

theorem newline_not_mem_resultLines (d : Diff old new) :
    ∀ line ∈ resultLines d, newline ∉ line := by
  rw [resultLines_eq]
  intro line hline hmem
  obtain ⟨⟨added, raw⟩, hraw, rfl⟩ := List.mem_map.mp hline
  have hchomp := chomp_mem_splitLines d hraw
  cases added with
  | false => exact hchomp hmem
  | true => exact hchomp (mem_of_mem_dropLastByte hmem)

/-- A line ends in a carriage return. -/
def EndsInCr (line : Bytes) : Prop := line.getLast? = some carriageReturn

instance (line : Bytes) : Decidable (EndsInCr line) := inferInstanceAs (Decidable (_ = _))

/-- The last of several new lines comes out empty. -/
def BlankEnd (d : Diff old new) : Prop :=
  1 < (rawLines new).length ∧ ∃ added raw, (markedLines d).getLast? = some (added, raw) ∧
    (chomp raw = [] ∨ added = true ∧ chomp raw = [carriageReturn])

/-- The old file ends as the new one does; an empty old file counts as one
that ends in a newline, and where it does not, a last line that comes out
empty still leaves the newline in front of it. -/
def FinalNewlineKept (d : Diff old new) : Prop :=
  new = [] ∨ (endsWithNl new = true ↔ finalNewline old = true ∨ BlankEnd d)

/-- No added line ends in one CR. -/
def NoLoneCr (d : Diff old new) : Prop :=
  ∀ raw, (true, raw) ∈ markedLines d → EndsInCr (chomp raw) → EndsInCr (chomp raw).dropLast

/-- No added line reads as a complete `r` directive. -/
def NoDirective (d : Diff old new) : Prop :=
  ∀ raw, (true, raw) ∈ markedLines d → parseRDirective (stripEol raw) = none

/-- The terminators of the new file in a text made of the result lines. -/
def TerminatorsSurvive (d : Diff old new) (out : Bytes) : Prop :=
  endsWithNl out = endsWithNl new ∧
    ∀ i, d.marks[i]? = some true →
      (EndsInCr ((splitLines out).getD i []) ↔ EndsInCr ((splitLines new).getD i []))

theorem stripEol_eq_nil {raw : Bytes} :
    stripEol raw = [] ↔ chomp raw = [] ∨ chomp raw = [carriageReturn] := by
  rw [show stripEol raw = dropLastByte carriageReturn (chomp raw) from rfl, dropLastByte]
  split
  next h =>
    obtain ⟨init, hinit⟩ := List.getLast?_eq_some_iff.mp h
    simp [hinit]
  next h =>
    constructor
    · exact fun hnil => .inl hnil
    · rintro (hnil | hcr)
      · exact hnil
      · rw [hcr] at h
        exact absurd rfl h

theorem length_marks (d : Diff old new) : d.marks.length = (rawLines new).length := by
  rw [d.new_eq, Diff.marks]
  simp

theorem splitLines_eq_nil {text : Bytes} : splitLines text = [] ↔ text = [] := by
  constructor
  · intro h
    have hunlines := @unlines_splitWith [] text (by simp)
    rw [show splitWith id [] text = [] from h] at hunlines
    simpa using (List.append_eq_nil_iff.mp hunlines.symm).1
  · rintro rfl
    rfl

/-- The result ends as the new file does exactly when the final newline is
kept. -/
theorem endsWithNl_result (d : Diff old new) :
    endsWithNl (joinLines (resultLines d) (finalNewline old)) = endsWithNl new ↔
      FinalNewlineKept d := by
  have hends := joinWith_ends (newline_not_mem_resultLines d) (finalNewline old)
  have hlen : (resultLines d).length = (rawLines new).length := by
    rw [resultLines, List.length_zipWith, length_marks, Nat.min_self]
  have hblank : 1 < (resultLines d).length ∧ (resultLines d).getLast? = some [] ↔ BlankEnd d := by
    rw [BlankEnd, hlen, resultLines_eq, List.getLast?_map]
    refine and_congr_right fun _ => ?_
    simp only [Option.map_eq_some_iff, Prod.exists]
    refine exists_congr fun added => exists_congr fun raw => and_congr_right fun _ => ?_
    cases added with
    | false => simp [renderLine]
    | true => simpa [renderLine] using stripEol_eq_nil
  have hempty : resultLines d ≠ [] ↔ new ≠ [] := by
    rw [Ne, Ne, ← splitLines_eq_nil, splitLines_eq, ← List.length_eq_zero_iff, hlen,
      ← List.length_eq_zero_iff, List.length_map]
  rw [hblank, hempty] at hends
  have hbool : ∀ text : Bytes, endsWithNl text = true ↔ text.getLast? = some newline := by
    simp [endsWithNl]
  rw [Bool.eq_iff_iff, hbool, joinLines, hends, FinalNewlineKept]
  constructor
  · intro h
    by_cases hnew : new = []
    · exact .inl hnew
    · exact .inr (h.symm.trans ⟨fun hright => hright.2, fun hright => ⟨hnew, hright⟩⟩)
  · rintro (rfl | h)
    · simp [endsWithNl]
    · constructor
      · exact fun hright => h.mpr hright.2
      · intro hnl
        refine ⟨?_, h.mp hnl⟩
        rintro rfl
        exact absurd hnl (by simp [endsWithNl])

/-- The CR of a line survives `strip_eol` when there is another in front of it. -/
theorem endsInCr_stripEol {raw : Bytes} :
    (EndsInCr (stripEol raw) ↔ EndsInCr (chomp raw)) ↔
      (EndsInCr (chomp raw) → EndsInCr (chomp raw).dropLast) := by
  rw [show stripEol raw = dropLastByte carriageReturn (chomp raw) from rfl, dropLastByte]
  by_cases h : (chomp raw).getLast? = some carriageReturn
  · have hcr : EndsInCr (chomp raw) := h
    rw [if_pos h]
    exact ⟨fun hiff _ => hiff.mpr hcr, fun himp => ⟨fun _ => hcr, fun _ => himp hcr⟩⟩
  · rw [if_neg h]
    exact ⟨fun _ hcr => absurd hcr h, fun _ => Iff.rfl⟩

/-- Every inserted line keeps its CR exactly when none ends in one alone. -/
theorem endsInCr_result (d : Diff old new) :
    (∀ i, d.marks[i]? = some true →
      (EndsInCr ((splitLines (joinLines (resultLines d) (finalNewline old))).getD i []) ↔
        EndsInCr ((splitLines new).getD i []))) ↔ NoLoneCr d := by
  -- the inserted line at a marked place, and the new line there
  have hplace : ∀ {i : Nat} {raw : Bytes}, d.marks[i]? = some true → (rawLines new)[i]? = some raw →
      (splitLines (joinLines (resultLines d) (finalNewline old))).getD i [] = stripEol raw ∧
        (splitLines new).getD i [] = chomp raw := by
    intro i raw hmark hraw
    rw [splitLines, joinLines, getD_splitWith_joinWith (newline_not_mem_resultLines d)]
    constructor
    · simp [List.getD_eq_getElem?_getD, resultLines, List.getElem?_zipWith, hmark, hraw, renderLine]
    · simp [List.getD_eq_getElem?_getD, splitLines_eq, hraw]
  constructor
  · intro h raw hmem
    obtain ⟨i, hi⟩ := List.mem_iff_getElem?.mp hmem
    rw [markedLines, List.getElem?_zip_eq_some] at hi
    obtain ⟨hout, hnew⟩ := hplace hi.1 hi.2
    have hcr := h i hi.1
    rw [hout, hnew] at hcr
    exact endsInCr_stripEol.mp hcr
  · intro h i hmark
    have hlt : i < (rawLines new).length := by
      rw [← length_marks d]
      exact (List.getElem?_eq_some_iff.mp hmark).1
    have hraw : (rawLines new)[i]? = some (rawLines new)[i] := List.getElem?_eq_getElem hlt
    obtain ⟨hout, hnew⟩ := hplace hmark hraw
    rw [hout, hnew]
    refine endsInCr_stripEol.mpr (h _ ?_)
    exact List.mem_iff_getElem?.mpr ⟨i, List.getElem?_zip_eq_some.mpr ⟨hmark, hraw⟩⟩

/-! ## The bundle of a diff, applied -/

/-- Parse a bundle and apply what it has for a file; a file it has nothing for
stays as it is. -/
def applyBundle {σ : Type} (sorter : EntrySorter) (canon : Bytes → Bytes) (bundle key old : Bytes)
    (resolve : Option (RefResolver σ)) : Fallible Bytes σ Bytes :=
  match PatchSet.parse sorter canon bundle {} with
  | (_, .error e) => throw e
  | (set, .ok ()) =>
      match set.find key with
      | none => pure old
      | some fp => applyEdScript fp old resolve

/-- The bundle of a diff in plain mode. -/
def diffBundle (revs : Revisions) (path : HeaderPath) (d : Diff old new) : Bytes :=
  bundleText emitAddedPlain revs [.modified path.text (diffBuffers d.callbacks)]

/-- The terminators of the new file survive when the bundle is applied. -/
def Survives {σ : Type} (sorter : EntrySorter) (canon : Bytes → Bytes) (revs : Revisions)
    (path : HeaderPath) (d : Diff old new) (resolve : Option (RefResolver σ)) (s : σ) : Prop :=
  ∃ out s', (applyBundle sorter canon (diffBundle revs path d) (canon path.text) old
      resolve).Yields s out s' ∧ TerminatorsSurvive d out

section

variable {σ : Type} {sorter : EntrySorter} {canon : Bytes → Bytes} {revs : Revisions}
  {path : HeaderPath} {d : Diff old new}
  (hdot : ∀ raw, (true, raw) ∈ markedLines d → stripEol raw ≠ [dot])
include hdot

/-- What the bundle is applied as. -/
theorem applyBundle_eq (resolve : Option (RefResolver σ)) :
    applyBundle sorter canon (diffBundle revs path d) (canon path.text) old resolve =
      if diffBuffers d.callbacks = [] then pure old
      else applyEdScript { commands := (diffBuffers d.callbacks).reverse.map readCommand } old
        resolve := by
  split
  next hnone =>
    have htext : diffBundle revs path d = unlines revs.comments := by
      simp [diffBundle, bundleText, Delta.text, hnone]
    rw [applyBundle, htext, parse_comments]
    rfl
  next hsome =>
    have hread : ∀ c ∈ diffBuffers d.callbacks, Readable c := fun c hc =>
      readable_diff d c (List.mem_reverse.mpr hc)
    have hline : ∀ c ∈ diffBuffers d.callbacks, ∀ line ∈ c.added, newline ∉ line := by
      intro c hc line hline hmem
      obtain ⟨raw, hraw, rfl⟩ := (mem_added_iff d).mp ⟨c, hc, hline⟩
      exact chomp_mem_splitLines d hraw (mem_of_mem_dropLastByte hmem)
    have hlone : ∀ c ∈ diffBuffers d.callbacks, [dot] ∉ c.added := by
      intro c hc hmem
      obtain ⟨raw, hraw, heq⟩ := (mem_added_iff d).mp ⟨c, hc, hmem⟩
      exact hdot raw hraw heq
    obtain ⟨set, hparse, hfind⟩ := parse_modified sorter canon revs {} path hsome hread hline hlone
    rw [applyBundle, diffBundle, hparse]
    simp only [hfind]

/-- Without directives the bundle gives the result lines, whatever the
resolver. -/
theorem applyBundle_yields (hdirective : NoDirective d) (resolve : Option (RefResolver σ)) (s : σ) :
    (applyBundle sorter canon (diffBundle revs path d) (canon path.text) old resolve).Yields s
      (joinLines (resultLines d) (finalNewline old)) s := by
  have hcommands : (diffBuffers d.callbacks).reverse.map readCommand =
      (diffBuffers d.callbacks).reverse.map commandOf := by
    refine List.map_congr_left fun c hc => readCommand_eq fun line hline => ?_
    obtain ⟨raw, hraw, rfl⟩ := (mem_added_iff d).mp ⟨c, List.mem_reverse.mp hc, hline⟩
    exact hdirective raw hraw
  have happly := ((accepted_diff d).apply ((length_splitLines_lt d).trans (by decide)) resolve s).2
  rw [applyBundle_eq hdot, hcommands]
  split
  next hnone =>
    -- nothing changed: the lines of the result are those of the old file
    have hlines : joinLines (resultLines d) (finalNewline old) =
        joinLines (splitLines old) (finalNewline old) := by
      rw [hnone] at happly
      exact ((Fallible.yields_pure.mp happly).1).symm
    have hold : joinLines (splitLines old) (finalNewline old) = old :=
      joinWith_splitWith (by simp [finalNewline, endsWithNl])
    rw [hlines, hold]
    exact Fallible.yields_pure.mpr ⟨rfl, rfl⟩
  next => exact happly

/-- Without a resolver a directive stops the application. -/
theorem noDirective_of_yields {out : Bytes} {s s' : σ}
    (h : (applyBundle sorter canon (diffBundle revs path d) (canon path.text) old
      none).Yields s out s') : NoDirective d := by
  intro raw hraw
  obtain ⟨c, hc, hline⟩ := (mem_added_iff d).mpr ⟨raw, hraw, rfl⟩
  rw [applyBundle_eq hdot, if_neg (List.ne_nil_of_mem hc)] at h
  obtain ⟨_, _, texts, htexts, _⟩ := applyEdScript_yields_iff.mp h
  have hall := (expandAll_yields_iff _ s s').mp ⟨texts, htexts⟩
  -- no reference resolves without a resolver, so there is none
  have hrefs : ((diffBuffers d.callbacks).reverse.map readCommand).flatMap commandRefs = [] := by
    cases hlist : ((diffBuffers d.callbacks).reverse.map readCommand).flatMap commandRefs with
    | nil => rfl
    | cons ref rest =>
        rw [hlist] at hall
        obtain ⟨f, hf, _⟩ := hall
        exact absurd hf (by simp)
  rw [List.flatMap_eq_nil_iff] at hrefs
  have hnone := hrefs _ (List.mem_map_of_mem (List.mem_reverse.mpr hc))
  rw [commandRefs_readCommand, List.filterMap_eq_nil_iff] at hnone
  exact hnone _ hline

end

/-- Without directives the terminators survive, with any resolver, exactly when
the final newline is kept and no added line ends in one CR. -/
theorem survives_iff {sorter : EntrySorter} {canon : Bytes → Bytes} {revs : Revisions}
    {path : HeaderPath} {d : Diff old new}
    (hdot : ∀ raw, (true, raw) ∈ markedLines d → stripEol raw ≠ [dot]) (hdirective : NoDirective d)
    {σ : Type} (resolve : Option (RefResolver σ)) (s : σ) :
    Survives sorter canon revs path d resolve s ↔ FinalNewlineKept d ∧ NoLoneCr d := by
  have hresult : TerminatorsSurvive d (joinLines (resultLines d) (finalNewline old)) ↔
      FinalNewlineKept d ∧ NoLoneCr d :=
    and_congr (endsWithNl_result d) (endsInCr_result d)
  have hyields := @applyBundle_yields old new σ sorter canon revs path d hdot hdirective resolve s
  rw [← hresult]
  constructor
  · intro h
    obtain ⟨out, s', hout, hsurvive⟩ := h
    -- a computation has one outcome
    have hsame := hyields.symm.trans hout
    simp only [Prod.mk.injEq, Except.ok.injEq] at hsame
    rw [hsame.1]
    exact hsurvive
  · exact fun h => ⟨_, s, hyields, h⟩

/-- **Terminators.** If no added line reads as a directive, the terminators of
the new file survive, with any resolver, exactly when the final newline is kept
and no added line ends in one CR. A bundle with such a line does not even apply
by itself. -/
theorem terminators_iff (sorter : EntrySorter) (canon : Bytes → Bytes) (revs : Revisions)
    (path : HeaderPath) (d : Diff old new)
    (hdot : ∀ raw, (true, raw) ∈ markedLines d → stripEol raw ≠ [dot]) :
    (NoDirective d → ∀ {σ : Type} (resolve : Option (RefResolver σ)) (s : σ),
      Survives sorter canon revs path d resolve s ↔ FinalNewlineKept d ∧ NoLoneCr d) ∧
    (Survives sorter canon revs path d (none : Option (RefResolver Unit)) () ↔
      NoDirective d ∧ FinalNewlineKept d ∧ NoLoneCr d) := by
  refine ⟨fun hdirective σ resolve s => survives_iff hdot hdirective resolve s, ?_⟩
  constructor
  · intro h
    obtain ⟨out, s', hout, _⟩ := id h
    have hdirective : NoDirective d := noDirective_of_yields hdot hout
    exact ⟨hdirective, (survives_iff hdot hdirective none ()).mp h⟩
  · intro h
    exact (survives_iff hdot h.1 none ()).mpr h.2

end

/-- One line added behind another. -/
def appendDiff (line : Bytes) (h : rawLines (ascii "a\n" ++ line) = [ascii "a\n", line]) :
    Diff (ascii "a\n") (ascii "a\n" ++ line) where
  hunks := [⟨[], [.keep (ascii "a\n"), .add line]⟩]
  tail := []
  old_eq := rfl
  new_eq := h
  ordered := ⟨trivial, fun _ => rfl, trivial⟩
  old_lt := by decide

theorem mem_markedLines_append {line raw : Bytes}
    {h : rawLines (ascii "a\n" ++ line) = [ascii "a\n", line]} :
    (true, raw) ∈ markedLines (appendDiff line h) ↔ raw = line := by
  simp [markedLines_eq, appendDiff, Hunk.newLines, DiffItem.newLine?]

/-- A terminated line is added. -/
theorem terminators_survive_append :
    Survives (Sorter.stable Prod.fst) id sampleRevisions samplePath
      (appendDiff (ascii "b\n") (by decide)) (none : Option (RefResolver Unit)) () := by
  refine (terminators_iff _ _ _ _ _ ?_).2.mpr ⟨?_, ?_, ?_⟩
  · simp only [mem_markedLines_append, forall_eq]
    decide
  · simp only [NoDirective, mem_markedLines_append, forall_eq]
    decide
  · exact .inr ⟨fun _ => .inl (by decide), fun _ => by decide⟩
  · simp only [NoLoneCr, mem_markedLines_append, forall_eq]
    decide

/-- Of `b` without a newline the result makes a terminated line, and of `b`
with CR and newline a line without the CR. -/
theorem terminators_lost :
    ¬ Survives (Sorter.stable Prod.fst) id sampleRevisions samplePath
        (appendDiff (ascii "b") (by decide)) (none : Option (RefResolver Unit)) () ∧
      ¬ Survives (Sorter.stable Prod.fst) id sampleRevisions samplePath
        (appendDiff (ascii "b\r\n") (by decide)) (none : Option (RefResolver Unit)) () := by
  constructor
  · rw [survives_iff]
    · rintro ⟨hfinal | hfinal, _⟩
      · exact absurd hfinal (by decide)
      · exact absurd (hfinal.mpr (.inl (by decide))) (by decide)
    · simp only [mem_markedLines_append, forall_eq]
      decide
    · simp only [NoDirective, mem_markedLines_append, forall_eq]
      decide
  · rw [survives_iff]
    · rintro ⟨_, hcr⟩
      exact absurd (hcr _ (mem_markedLines_append.mpr rfl) (by decide)) (by decide)
    · simp only [mem_markedLines_append, forall_eq]
      decide
    · simp only [NoDirective, mem_markedLines_append, forall_eq]
      decide

end Phpatcher.Theorems
