import Phpatcher.Theorems.ContentHash
import Phpatcher.Theorems.CorpusLossless
import Phpatcher.Tools.Matcher

/-!
# Two generators, one text

`phpatcher-match` and `emit_added_corpus` ask the same questions of their corpus and
take the same turns (`prints_loop`), so they survive the same accesses. What they print
differs where `printf` stops at a zero byte, or fails on a line too long for it: for a
byte index they agree exactly when no comparison looks at characters that are gone and
no line that is printed as it stands is one of these (`generators_agree_iff`).
-/

namespace Phpatcher.Theorems

open Phpatcher.Basis Phpatcher.Core Phpatcher.Tools

/-- Both generators read the same tree, and ask the same normalizer. -/
structure SharedTree (corpus : Corpus) (m : MatcherCorpus) : Prop where
  readFile : ∀ file, isRelative file = true →
    m.readFile (appendPath m.root file) = corpus.readFile (corpus.root ++ [slash] ++ file)
  normalizer : m.normalizer = corpus.normalizer

theorem isRelative_file (idx : Index) (fileId : Nat) : isRelative (idx.file fileId) = true := by
  rw [isRelative, bne_iff_ne, Index.file, List.getD_eq_getElem?_getD]
  cases hfile : idx.files[fileId]? with
  | none => simp
  | some file => exact idx.relative file (List.mem_of_getElem? hfile)

/-- Both get the same answers. -/
theorem matcherAccess_eq {corpus : Corpus} {m : MatcherCorpus} (htree : SharedTree corpus m)
    (room : Nat) (idx : Index) : matcherAccess room m idx = viewAccess room corpus idx := by
  have hread : ∀ fileId, m.readFile (m.path idx fileId) =
      corpus.readFile (corpus.path idx fileId) := by
    intro fileId
    rw [MatcherCorpus.path]
    simp only [isRelative_file, if_true]
    exact htree.readFile _ (isRelative_file idx fileId)
  have hfiles : matcherFiles room m idx = changesFiles room corpus idx := by
    simp only [matcherFiles, changesFiles, htree.normalizer, hread]
  have hkey : m.key idx = corpus.key idx := by
    funext fileId lineno
    cases hcontent : corpus.readFile (corpus.path idx fileId) with
    | none => simp [MatcherCorpus.key, Corpus.key, hread, hcontent]
    | some content => simp [MatcherCorpus.key, Corpus.key, htree.normalizer, hread, hcontent]
  simp only [matcherAccess, viewAccess, hfiles, hkey, htree.normalizer]

/-- What `emit_added_corpus` writes for its items. -/
def textsOf (items : List Emitted) : List Bytes := items.map fun item => item.text ++ [newline]

theorem textsOf_append (a b : List Emitted) : textsOf (a ++ b) = textsOf a ++ textsOf b :=
  List.map_append

/-- The output of `emit_added_corpus`. -/
def addedText (items : List Emitted) : Bytes := (textsOf items).flatten

/-! ## Pieces of output -/

/-- Neither generator survives its accesses, or both do, and the piece was printed for
the items. -/
def PrintsItems (piece : Option (Option Bytes)) (items : Option (List Emitted)) : Prop :=
  Option.Rel (fun piece items => PrintsAll piece (textsOf items)) piece items

theorem PrintsItems.nil : PrintsItems (some (some [])) (some []) := .some PrintsAll.nil

theorem PrintsItems.append {first second : Option (Option Bytes)} {a b : Option (List Emitted)}
    (hfirst : PrintsItems first a) (hsecond : PrintsItems second b) :
    PrintsItems (bothParts first second) (do
      let printed ← a
      let rest ← b
      pure (printed ++ rest)) :=
  rel_bind hfirst fun _ _ hprinted => rel_bind hsecond fun _ _ hrest =>
    .some (textsOf_append _ _ ▸ hprinted.append hrest)

section

variable {access : CorpusAccess} {hash : Bool} {block : List Bytes} {behind : Nat → Bytes}

theorem prints_line (b : Nat) :
    PrintsAll (printLine block behind b) (textsOf [.literal (block.getD b [])]) :=
  PrintsAll.line _ _ (by decide)

theorem prints_lines {n b : Nat} (h : b + n ≤ block.length) :
    PrintsAll (printLines block behind n b) (textsOf (((block.drop b).take n).map .literal)) := by
  induction n generalizing b with
  | zero => exact PrintsAll.nil
  | succ n ih =>
      have hlt : b < block.length := by omega
      have hfirst := @prints_line block behind b
      rw [List.getD_eq_getElem?_getD, List.getElem?_eq_getElem hlt] at hfirst
      rw [List.drop_eq_getElem_cons hlt, List.take_succ_cons]
      exact hfirst.append (ih (by omega))

theorem cString_decimal (n : Nat) : cString (decimal n) = decimal n :=
  cString_of_not_mem fun h => absurd (decimal_digits n nul h) (by decide)

theorem matcherBytesLoop_eq (fileId : Nat) (lines : List Nat) :
    matcherBytesLoop access fileId lines = refBytesLoop access fileId lines := by
  induction lines with
  | nil => rfl
  | cons ln rest ih =>
      cases hline : access.line fileId ln with
      | none => simp [matcherBytesLoop, refBytesLoop, hline]
      | some answer =>
          cases answer with
          | none => simp [matcherBytesLoop, refBytesLoop, hline]
          | some line => simp [matcherBytesLoop, refBytesLoop, hline, ih]

theorem matcherMakeGuard_eq (fileId begin end_ : Nat) :
    matcherMakeGuard access hash fileId begin end_ = makeGuard access hash fileId begin end_ := by
  rw [matcherMakeGuard, matcherRefBytes, matcherBytesLoop_eq]
  rfl

theorem matcherExactEnd_eq (fileId left b c : Nat) :
    matcherExactEnd access block fileId left b c = exactEnd access block fileId left b c := by
  induction left generalizing b c with
  | zero => rfl
  | succ left ih => rw [matcherExactEnd, exactEnd, ih]

/-- A reference is printed as the strings of its parts. -/
theorem prints_ref (fileId begin end_ : Nat) (pads : Option (Bytes × Bytes)) :
    Option.Rel (Option.Rel fun piece item => PrintsAll piece (textsOf [item]))
      (matcherEmitRef access hash fileId begin end_ pads)
      (emitRef access hash fileId begin end_ pads) := by
  have hr : cString (ascii "r ") = ascii "r " := by decide
  have hspace : cString (ascii " ") = ascii " " := by decide
  have hsharp : cString (ascii " # ") = ascii " # " := by decide
  have hend : cString [newline] = [newline] := by decide
  have hnewline : ascii "\n" = [newline] := rfl
  rw [matcherEmitRef, emitRef, matcherMakeGuard_eq]
  refine rel_bind_same fun guard _ => ?_
  cases guard with
  | none => exact .some .none
  | some guard =>
      refine rel_bind_same fun path _ => ?_
      cases pads with
      | none =>
          have hfields := PrintsAll.fields [ascii "r ", quoteEd path, ascii " ", decimal begin,
            ascii " ", decimal end_, ascii " # ", guard, ascii "\n"]
          refine .some (.some ?_)
          simpa [hr, hspace, hsharp, hend, hnewline, cString_decimal, textsOf, Emitted.text,
            rDirective] using hfields
      | some pads =>
          obtain ⟨lpad, rpad⟩ := pads
          have hfields := PrintsAll.fields [ascii "r ", quoteEd path, ascii " ", decimal begin,
            ascii " ", decimal end_, ascii " ", quoteEd lpad, ascii " ", quoteEd rpad,
            ascii " # ", guard, ascii "\n"]
          refine .some (.some ?_)
          simpa [hr, hspace, hsharp, hend, hnewline, cString_decimal, textsOf, Emitted.text,
            rDirective] using hfields

theorem prints_refOr (fileId begin end_ : Nat) {b n : Nat} (h : b + n ≤ block.length) :
    PrintsItems (matcherRefOr access hash block behind fileId begin end_ b n)
      (emitRefOr access hash block fileId begin end_ b n) := by
  rw [matcherRefOr, emitRefOr]
  refine rel_bind (prints_ref fileId begin end_ none) fun piece item hitem => ?_
  cases hitem with
  | none => exact .some (prints_lines h)
  | some hprinted => exact .some hprinted

/-- The sub-run ends in the run. -/
theorem exactEnd_le {fileId left b c : Nat} {reached : Nat × Nat}
    (h : exactEnd access block fileId left b c = some reached) :
    b < reached.1 ∧ reached.1 ≤ b + 1 + left := by
  induction left generalizing b c with
  | zero =>
      obtain rfl := Option.some.inj h
      exact ⟨Nat.lt_succ_self b, Nat.le_refl _⟩
  | succ left ih =>
      rw [exactEnd] at h
      obtain ⟨same, _, h⟩ := Option.bind_eq_some_iff.mp h
      split at h
      · have := ih h
        omega
      · obtain rfl := Option.some.inj h
        simp only
        omega

theorem prints_padded (fileId b c : Nat) :
    PrintsItems (matcherPadded access hash block behind fileId b c)
      ((emitPadded access hash block fileId b c).map fun item => [item]) := by
  rw [matcherPadded, emitPadded]
  cases access.line fileId c with
  | none => exact .none
  | some src =>
      simp only [Option.bind_eq_bind, Option.bind_some]
      cases src.bind fun src => trimPadFor src (block.getD b []) with
      | none => exact .some (prints_line b)
      | some pads =>
          simp only
          rw [Option.map_bind]
          refine rel_bind (prints_ref fileId c c (some pads)) fun piece item hitem => ?_
          cases hitem with
          | none => exact .some (prints_line b)
          | some hprinted => exact .some hprinted

theorem prints_normalizedRun (fileId : Nat) {blockEnd : Nat} (hend : blockEnd ≤ block.length)
    (turns b c : Nat) :
    PrintsItems (matcherNormalizedRun access hash block behind fileId blockEnd turns b c)
      (emitNormalizedRun access hash block fileId blockEnd turns b c) := by
  induction turns generalizing b c with
  | zero => exact PrintsItems.nil
  | succ turns ih =>
      rw [matcherNormalizedRun, emitNormalizedRun]
      by_cases hb : b < blockEnd
      · rw [if_pos hb, if_pos hb]
        refine rel_bind_same fun same _ => ?_
        split
        · rw [matcherExactEnd_eq]
          refine rel_bind_same fun reached hreached => ?_
          have hle := exactEnd_le hreached
          exact (prints_refOr fileId c _ (by omega)).append (ih _ _)
        · have hpadded := (@prints_padded access hash block behind fileId b c).append
            (ih (b + 1) (nextLine c))
          cases hitem : emitPadded access hash block fileId b c with
          | none =>
              rw [hitem] at hpadded
              exact hpadded
          | some item =>
              rw [hitem] at hpadded
              exact hpadded
      · rw [if_neg hb, if_neg hb]
        exact PrintsItems.nil

theorem prints_run {r : Run} (hin : r.blockEnd ≤ block.length)
    (hnonempty : r.blockBegin < r.blockEnd) :
    PrintsItems (matcherRun access hash block behind r) (emitRun access hash block r) := by
  rw [matcherRun, emitRun]
  split
  · exact prints_refOr _ _ _ (by rw [Run.length]; omega)
  · exact prints_normalizedRun _ hin _ _ _

theorem PrintsItems.line {piece : Option (Option Bytes)} {items : Option (List Emitted)}
    (h : PrintsItems piece items) (b : Nat) :
    PrintsItems (bothParts (pure (printLine block behind b)) piece) (do
      let more ← items
      pure (.literal (block.getD b []) :: more)) :=
  PrintsItems.append (.some (prints_line b)) h

/-- Given the runs, the matcher prints what the loop of `changes.cpp` writes. -/
theorem prints_loop (turns pos : Nat) {runs : List Run}
    (hruns : ∀ r ∈ runs, r.blockBegin < r.blockEnd ∧ r.blockEnd ≤ block.length) :
    PrintsItems (matcherLoop access hash block behind turns pos runs)
      (emitLoop access hash block turns pos runs) := by
  induction turns generalizing pos runs with
  | zero => exact PrintsItems.nil
  | succ turns ih =>
      unfold matcherLoop emitLoop
      by_cases hpos : pos < block.length
      · rw [if_pos hpos, if_pos hpos]
        cases runs with
        | nil => exact (ih (pos + 1) hruns).line pos
        | cons r rest =>
            have hr := hruns r List.mem_cons_self
            simp only
            split
            · exact (prints_run hr.2 hr.1).append
                (ih r.blockEnd fun t ht => hruns t (List.mem_cons_of_mem _ ht))
            · exact (ih (pos + 1) hruns).line pos
      · rw [if_neg hpos, if_neg hpos]
        exact PrintsItems.nil

end

section

variable {room : Nat} {corpus : Corpus} {m : MatcherCorpus} {idx : Index} {hash : Bool}
  {block : List Bytes} {behind : Nat → Bytes}

/-! ## The references of a byte index -/

/-- A byte index as an indexer writes it: its paths are those of files. -/
structure ByteIndex (idx : Index) : Prop where
  bytes : idx.normalized = false
  noNul : ∀ path ∈ idx.files, nul ∉ path
  short : ∀ path ∈ idx.files, path.length < 65536

theorem ByteIndex.file (h : ByteIndex idx) (fileId : Nat) :
    nul ∉ idx.file fileId ∧ (idx.file fileId).length < 65536 := by
  rw [Index.file, List.getD_eq_getElem?_getD]
  cases hfile : idx.files[fileId]? with
  | none => simp
  | some path =>
      have hmem := List.mem_of_getElem? hfile
      exact ⟨h.noNul path hmem, h.short path hmem⟩

/-- A byte is written as it is, or as two bytes that are not zero. -/
theorem quoteByte_cases (c : UInt8) :
    quoteByte c = [c] ∨ (nul ∉ quoteByte c ∧ (quoteByte c).length = 2) := by
  unfold quoteByte
  split_ifs
  all_goals first
    | exact .inl rfl
    | exact .inr ⟨by decide, rfl⟩

theorem nul_not_mem_quoteEd {s : Bytes} (h : nul ∉ s) : nul ∉ quoteEd s := by
  have hquote : nul ≠ doubleQuote := by decide
  intro hmem
  rw [quoteEd, List.mem_append, List.mem_cons, List.mem_flatMap, List.mem_singleton] at hmem
  rcases hmem with (hmem | ⟨c, hc, hmem⟩) | hmem
  · exact hquote hmem
  · rcases quoteByte_cases c with hself | ⟨hclean, _⟩
    · rw [hself, List.mem_singleton] at hmem
      rw [← hmem] at hc
      exact h hc
    · exact hclean hmem
  · exact hquote hmem

theorem length_quoteEd_le (s : Bytes) : (quoteEd s).length ≤ 2 * s.length + 2 := by
  have hsum : (s.flatMap quoteByte).length ≤ 2 * s.length := by
    induction s with
    | nil => exact Nat.le_refl _
    | cons c s ih =>
        have hbyte : (quoteByte c).length ≤ 2 := by
          rcases quoteByte_cases c with hself | ⟨_, htwo⟩
          · rw [hself]
            exact Nat.le_succ 1
          · exact htwo.le
        rw [List.flatMap_cons, List.length_append, List.length_cons]
        omega
  rw [quoteEd, List.length_append, List.length_cons, List.length_singleton]
  omega

theorem guardText_printable (hash : Bool) {bytes : Bytes} (h : bytes.length ≤ int64Max) :
    nul ∉ guardText hash bytes ∧ (guardText hash bytes).length ≤ 34 := by
  cases hash with
  | true =>
      obtain ⟨hlength, hdigits⟩ := refHashHex_digits (refHash bytes)
      refine ⟨fun hmem => ?_, ?_⟩
      · rcases List.mem_append.mp hmem with hmem | hmem
        · exact absurd hmem (by decide)
        · exact absurd (hdigits nul hmem) (by decide)
      · have hlabel : (ascii "h:").length = 2 := rfl
        rw [guardText, if_pos rfl, List.length_append, hlength, hlabel]
  | false =>
      refine ⟨fun hmem => ?_, ?_⟩
      · rcases List.mem_append.mp hmem with hmem | hmem
        · exact absurd hmem (by decide)
        · exact absurd (decimal_digits _ nul hmem) (by decide)
      · have hlabel : (ascii "s:").length = 2 := rfl
        have hdigits : (decimal bytes.length).length ≤ 19 :=
          length_decimal_le (by decide) (by unfold int64Max at h; omega)
        rw [guardText, if_neg (by decide), List.length_append, hlabel]
        omega

/-- An exact reference is printed as it stands. -/
theorem rDirective_printable {path guard : Bytes} {begin end_ : Nat} (hnul : nul ∉ path)
    (hshort : path.length < 65536) (hbegin : begin < 4294967296) (hend : end_ < 4294967296)
    (hguard : nul ∉ guard ∧ guard.length ≤ 34) :
    Printable (rDirective path begin end_ none guard ++ [newline]) := by
  have hpath := nul_not_mem_quoteEd hnul
  have hdecimal : ∀ n, nul ∉ decimal n := fun n h => absurd (decimal_digits n nul h) (by decide)
  have hr : nul ∉ ascii "r " := by decide
  have hspace : nul ∉ ascii " " := by decide
  have hsharp : nul ∉ ascii " # " := by decide
  have hnewline : nul ≠ newline := by decide
  constructor
  · simp [rDirective, hpath, hdecimal, hr, hspace, hsharp, hguard.1, hnewline]
  · have hquoted := length_quoteEd_le path
    have hbegin' : (decimal begin).length ≤ 10 := length_decimal_le (by decide) (by omega)
    have hend' : (decimal end_).length ≤ 10 := length_decimal_le (by decide) (by omega)
    have hlabels : (ascii "r ").length = 2 ∧ (ascii " ").length = 1 ∧ (ascii " # ").length = 3 := by
      decide
    have := hguard.2
    simp only [rDirective, List.length_append, hlabels, List.length_singleton, intMax]
    omega

/-- Every run of a byte index is printed, as one reference. -/
theorem emitRun_printable (hidx : ByteIndex idx) {r : Run} (hpos : 1 ≤ r.length)
    (hend : r.corpusEnd = r.corpusBegin + r.length - 1)
    (h : Copies room corpus idx block r.fileId r.blockBegin r.corpusBegin r.length)
    {printed : List Emitted}
    (hprinted : emitRun (viewAccess room corpus idx) hash block r = some printed) :
    ∀ text ∈ textsOf printed, Printable text := by
  rw [emitRun_of_copies hidx.bytes hash hpos hend h] at hprinted
  obtain rfl := Option.some.inj hprinted
  -- the lines are there, so their numbers and their bytes can be counted
  have hlines := h.lines
  obtain ⟨content, hread, _, _⟩ := corpusLine_eq_some.mp (line_of_same (h 0 hpos)).1
  have hfirst := corpusLine_counted (line_of_same (h 0 hpos)).1
  have hlast := corpusLine_counted (line_of_same (h (r.length - 1) (by omega))).1
  have hsize : (unlines (blockLines block r.blockBegin r.length)).length ≤ int64Max := by
    rw [(hlines.block hread hfirst.1).1]
    exact length_block_le hread _ _
  intro text htext
  obtain rfl := List.mem_singleton.mp htext
  exact rDirective_printable (hidx.file r.fileId).1 (hidx.file r.fileId).2 (by omega) (by omega)
    (guardText_printable hash hsize)

theorem forall_textsOf_append {P : Bytes → Prop} {a b : List Emitted} :
    (∀ text ∈ textsOf (a ++ b), P text) ↔
      (∀ text ∈ textsOf a, P text) ∧ ∀ text ∈ textsOf b, P text := by
  rw [textsOf_append, List.forall_mem_append]

/-- What is printed besides the runs are the uncovered lines. -/
theorem emitLoop_printable {access : CorpusAccess} {turns pos : Nat} {runs : List Run}
    {items : List Emitted} (hahead : Ahead block.length pos runs)
    (hturns : block.length - pos ≤ turns)
    (h : emitLoop access hash block turns pos runs = some items)
    (hruns : ∀ r ∈ runs, ∀ printed, emitRun access hash block r = some printed →
      ∀ text ∈ textsOf printed, Printable text) :
    (∀ text ∈ textsOf items, Printable text) ↔
      ForUncovered (fun b => Printable (block.getD b [] ++ [newline])) block.length runs pos := by
  revert hruns
  refine emitLoop_induction (motive := fun pos runs items =>
    (∀ r ∈ runs, ∀ printed, emitRun access hash block r = some printed →
      ∀ text ∈ textsOf printed, Printable text) →
    ((∀ text ∈ textsOf items, Printable text) ↔
      ForUncovered (fun b => Printable (block.getD b [] ++ [newline])) block.length runs pos))
    (fun pos hge _ => ?_) (fun pos runs items hlt hfree ih hruns => ?_)
    (fun r rest printed items hahead hprinted ih hruns => ?_) hahead hturns h
  · exact ⟨fun _ b hle hlt _ => absurd hlt (by omega), fun _ => by simp [textsOf]⟩
  · rw [forUncovered_succ hlt hfree, ← ih hruns]
    exact List.forall_mem_cons
  · rw [List.forall_mem_cons] at hruns
    rw [forall_textsOf_append, and_iff_right (hruns.1 printed hprinted), forUncovered_run hahead]
    exact ih hruns.2

/-! ## The whole output -/

/-- Both programs print something for a content, and the matcher what `emit_added_corpus`
writes for its lines. -/
def GeneratorsAgree (room : Nat) (corpus : Corpus) (m : MatcherCorpus) (idx : Index)
    (hash : Bool) (content : Bytes) (behind : Nat → Bytes) (anchorSorter : Sorter Anchor.weight)
    (runSorter : Sorter Run.blockBegin) (minRun : Nat) : Prop :=
  ∃ items, emitAddedCorpus (viewAccess room corpus idx) hash (changesSplitLoop content)
      anchorSorter runSorter minRun = some items ∧
    matcherMain (matcherAccess room m idx) hash content behind anchorSorter runSorter minRun =
      some (some (addedText items))

/-- For a byte index both programs factorize alike, and go on alike. -/
theorem prints_main (htree : SharedTree corpus m) (hbyte : idx.normalized = false)
    (content : Bytes) (anchorSorter : Sorter Anchor.weight) (runSorter : Sorter Run.blockBegin)
    (minRun : Nat) :
    PrintsItems
      (matcherMain (matcherAccess room m idx) hash content behind anchorSorter runSorter minRun)
      (emitAddedCorpus (viewAccess room corpus idx) hash (changesSplitLoop content) anchorSorter
        runSorter minRun) := by
  have hmode : (viewAccess room corpus idx).normalized = false := hbyte
  have hkeys : matcherBlockKeys (viewAccess room corpus idx) content =
      blockKeys corpus idx (changesSplitLoop content) := by
    rw [matcherBlockKeys, hmode, blockKeys, hbyte]
    rfl
  have hequal : matcherLineEqual (viewAccess room corpus idx) content =
      accessEqual (viewAccess room corpus idx) (changesSplitLoop content) := by
    funext b fileId c
    rw [matcherLineEqual, accessEqual, hmode]
    rfl
  have hmin : (if (if minRun = 0 then 1 else minRun) = 0 then 1
      else if minRun = 0 then 1 else minRun) = if minRun = 0 then 1 else minRun := by
    split <;> simp_all
  -- `-n 0` is taken as `-n 1` once here, and twice in the matcher
  have hfactorize : ∀ equal : Nat → Nat → Nat → Option Bool, ∀ keys,
      factorizeM equal anchorSorter runSorter keys (if minRun = 0 then 1 else minRun) idx.find =
        factorizeM equal anchorSorter runSorter keys minRun idx.find := by
    intro equal keys
    simp only [factorizeM, hmin]
  simp only [matcherAccess_eq htree, matcherMain, hequal, hkeys]
  rw [show (viewAccess room corpus idx).find = idx.find from rfl, hfactorize]
  refine rel_bind_same fun runs hruns => prints_loop _ 0 fun r hr => ?_
  obtain rfl := factorizeM_eq_some (answersAlike_views room corpus idx _) hruns
  have hahead := (runs_copied hbyte hruns).1
  exact ⟨hahead.nonempty r hr, hahead.inBlock r hr⟩

/-- **Two generators.** On one tree and for a byte index, both programs print a block,
and the matcher prints what `emit_added_corpus` writes, exactly when no comparison of the
factorization looks at characters that are gone, and no line outside of the runs holds a
zero byte or is too long for `printf`. -/
theorem generators_agree_iff (room : Nat) (corpus : Corpus) (m : MatcherCorpus)
    (htree : SharedTree corpus m) (idx : Index) (hidx : ByteIndex idx) (hash : Bool)
    (content : Bytes) (behind : Nat → Bytes) (anchorSorter : Sorter Anchor.weight)
    (runSorter : Sorter Run.blockBegin) (minRun : Nat) :
    GeneratorsAgree room corpus m idx hash content behind anchorSorter runSorter minRun ↔
      ComparesKept room corpus idx (changesSplitLoop content) anchorSorter runSorter minRun ∧
      ∀ b, b < (changesSplitLoop content).length →
        Uncovered
          (blockRuns corpus idx (changesSplitLoop content) anchorSorter runSorter minRun) b →
        nul ∉ (changesSplitLoop content).getD b [] ∧
          ((changesSplitLoop content).getD b []).length < intMax := by
  have hprintable : ∀ {items}, emitAddedCorpus (viewAccess room corpus idx) hash
      (changesSplitLoop content) anchorSorter runSorter minRun = some items →
      ((∀ text ∈ textsOf items, Printable text) ↔ ∀ b, b < (changesSplitLoop content).length →
        Uncovered
          (blockRuns corpus idx (changesSplitLoop content) anchorSorter runSorter minRun) b →
        nul ∉ (changesSplitLoop content).getD b [] ∧
          ((changesSplitLoop content).getD b []).length < intMax) := by
    intro items hitems
    obtain ⟨hruns, hloop⟩ := emitAddedCorpus_eq_some.mp hitems
    obtain ⟨hahead, hcopied⟩ := runs_copied hidx.bytes hruns
    rw [emitLoop_printable hahead (Nat.sub_le _ _) hloop fun r hr printed hprinted => by
      obtain ⟨hpos, hend, hcopies⟩ := hcopied r hr
      exact emitRun_printable hidx hpos hend hcopies hprinted]
    have hnewline : nul ≠ newline := by decide
    simp [ForUncovered, Printable, hnewline]
  have hmain := @prints_main room corpus m idx hash behind htree hidx.bytes content anchorSorter
    runSorter minRun
  rw [← isSome_emitAddedCorpus_of_byte hidx.bytes hash]
  constructor
  · rintro ⟨items, hitems, htext⟩
    rw [hitems, htext] at hmain
    cases hmain with
    | some hprints => exact ⟨⟨items, hitems⟩, (hprintable hitems).mp (hprints.iff.mp rfl)⟩
  · rintro ⟨⟨items, hitems⟩, hall⟩
    rw [PrintsItems, hitems] at hmain
    cases hmatcher : matcherMain (matcherAccess room m idx) hash content behind anchorSorter
        runSorter minRun with
    | none =>
        rw [hmatcher] at hmain
        cases hmain
    | some piece =>
        rw [hmatcher] at hmain
        cases hmain with
        | some hprints =>
            have htext := hprints.iff.mpr ((hprintable hitems).mpr hall)
            exact ⟨items, hitems, hmatcher.trans (congrArg some htext)⟩

end

/-- A block with a copy of a corpus line. -/
theorem generators_agree_copy :
    let corpus : Corpus := .single (ascii "/lib.php") (ascii "a();\nb();\nreturn;\n")
      ⟨corpusSplitLines, fun _ => rfl⟩ (by decide) (by decide)
    let idx : Index := ⟨[ascii "lib.php"], [(ascii "b();", [⟨0, 2⟩])], false, by decide, by decide⟩
    GeneratorsAgree 15 corpus ⟨ascii "/", corpus.readFile, corpus.normalizer⟩ idx true
      (ascii "  b();\r\nb();\nd();") (fun _ => []) (Sorter.stable _) (Sorter.stable _) 0 := by
  intro corpus idx
  have hlines : changesSplitLoop (ascii "  b();\r\nb();\nd();") =
      [ascii "  b();", ascii "b();", ascii "d();"] := by decide
  have hall : ∀ b, b < 3 → nul ∉ [ascii "  b();", ascii "b();", ascii "d();"].getD b [] ∧
      ([ascii "  b();", ascii "b();", ascii "d();"].getD b []).length < intMax := by decide +kernel
  refine (generators_agree_iff 15 corpus ⟨ascii "/", corpus.readFile, corpus.normalizer⟩
    ⟨fun _ _ => rfl, rfl⟩ idx ⟨rfl, by decide, by decide⟩ true _ _ _ _ 0).mpr ⟨?_, ?_⟩
  · -- the corpus file has 18 bytes, and a string has room for 15
    exact (postedOutside_of_lines (by decide +kernel)).comparesKept _ _ _ _
  · rw [hlines]
    exact fun b hb _ => hall b hb

/-- A tree and an index with nothing in them. -/
def emptyTree : Corpus :=
  .single (ascii "/lib.php") [] ⟨corpusSplitLines, fun _ => rfl⟩ (by decide) (by decide)

def emptyIndex : Index := ⟨[], [], false, by simp, by simp⟩

/-- A line with a zero byte is cut in front of it. -/
theorem nul_line_differs :
    ¬ ∀ (room : Nat) (corpus : Corpus) (m : MatcherCorpus) (idx : Index) (hash : Bool)
      (content : Bytes) (behind : Nat → Bytes) (anchorSorter : Sorter Anchor.weight)
      (runSorter : Sorter Run.blockBegin) (minRun : Nat), SharedTree corpus m → ByteIndex idx →
        GeneratorsAgree room corpus m idx hash content behind anchorSorter runSorter minRun := by
  intro h
  let m : MatcherCorpus := ⟨ascii "/", emptyTree.readFile, emptyTree.normalizer⟩
  obtain ⟨items, hitems, htext⟩ := h 15 emptyTree m emptyIndex true [97, 0, 98, 10] (fun _ => [10])
    (Sorter.stable _) (Sorter.stable _) 1 ⟨fun _ _ => rfl, rfl⟩
    ⟨rfl, by simp [emptyIndex], by simp [emptyIndex]⟩
  have hmatcher : matcherMain (matcherAccess 15 m emptyIndex) true [97, 0, 98, 10] (fun _ => [10])
      (Sorter.stable _) (Sorter.stable _) 1 = some (some [97, 10]) := by decide +kernel
  have hchanges : emitAddedCorpus (viewAccess 15 emptyTree emptyIndex) true
      (changesSplitLoop [97, 0, 98, 10]) (Sorter.stable _) (Sorter.stable _) 1 =
      some [.literal [97, 0, 98]] := by decide +kernel
  rw [hmatcher] at htext
  obtain rfl := Option.some.inj (hchanges.symm.trans hitems)
  exact absurd (Option.some.inj (Option.some.inj htext)) (by decide)

end Phpatcher.Theorems
