import Phpatcher.Theorems.CorpusLossless

/-!
# Corpus references of a normalized index

A normalized index matches lines by their tokens. A line of a run that is not
a copy of its corpus line is printed as a `TrimPad` reference: it comes back
with its own leading and trailing whitespace around the *corpus* spelling of
the code, and that is not always the block line (`normalized_mode_exact_iff`).
-/

namespace Phpatcher.Theorems

open Phpatcher.Basis Phpatcher.Core Phpatcher.Glue Phpatcher.Tools

variable {room : Nat} {corpus : Corpus} {idx : Index} {block : List Bytes} {baseDir : Bytes}
  {disk : Disk}

/-- What comes back of the block line `dst` in a run where `src` is its corpus line. -/
def returnedLine (src dst : Bytes) : Bytes :=
  if src = dst ∨ trim src = [] ∨ trim dst = [] then dst
  else lead dst ++ trimBlanks src ++ trail dst

/-- A copy, a line without code on either side, or code that the reader trims off the
corpus line as it stands in the block line. -/
def ReturnsExactly (src dst : Bytes) : Prop :=
  src = dst ∨ trim src = [] ∨ trim dst = [] ∨ trimBlanks src = trim dst

instance (src dst : Bytes) : Decidable (ReturnsExactly src dst) :=
  inferInstanceAs (Decidable (_ ∨ _))

theorem lead_trim_trail (line : Bytes) : lead line ++ trim line ++ trail line = line := by
  have hsplit : line = lead line ++ trim line ++ (line.dropWhile isWs).rtakeWhile isWs :=
    trimBoth_split isWs line
  have htrail : trail line = (line.dropWhile isWs).rtakeWhile isWs := by
    have hdrop := @List.drop_left _ (lead line ++ trim line) ((line.dropWhile isWs).rtakeWhile isWs)
    rwa [← hsplit, List.length_append] at hdrop
  rw [htrail]
  exact hsplit.symm

theorem returnedLine_eq_iff {src dst : Bytes} : returnedLine src dst = dst ↔
    ReturnsExactly src dst := by
  unfold returnedLine ReturnsExactly
  split
  next hplain =>
    refine iff_of_true rfl ?_
    rcases hplain with h | h | h
    · exact .inl h
    · exact .inr (.inl h)
    · exact .inr (.inr (.inl h))
  next hcode =>
    rw [not_or, not_or] at hcode
    constructor
    · intro h
      have hwrapped : lead dst ++ trimBlanks src ++ trail dst = lead dst ++ trim dst ++ trail dst :=
        h.trans (lead_trim_trail dst).symm
      exact .inr (.inr (.inr (List.append_cancel_left (List.append_cancel_right hwrapped))))
    · rintro (h | h | h | h)
      · exact absurd h hcode.1
      · exact absurd h hcode.2.1
      · exact absurd h hcode.2.2
      · rw [h, lead_trim_trail]

/-! ## Keys -/

/-- A block has one key for each line. -/
theorem length_blockKeys (hnorm : idx.normalized = true) (hblock : ∀ l ∈ block, newline ∉ l) :
    (blockKeys corpus idx block).length = block.length := by
  have hlines : ∀ ls : List Bytes, (∀ l ∈ ls, newline ∉ l) →
      (corpusSplitLines (unlines ls)).length = ls.length := by
    intro ls hls
    rw [corpusSplitLines, splitWith_unlines_nil hls, List.length_map]
  have hwrapped : ascii "<?php\n" ++ unlines block = unlines (ascii "<?php" :: block) := by
    rw [unlines_cons]
    rfl
  rw [blockKeys, if_pos hnorm, normalizeBlockKeys]
  split
  · rw [corpus.normalizer.length_run, hlines block hblock]
  · -- behind an open tag of its own, whose key is dropped again
    rw [List.length_drop, corpus.normalizer.length_run, hwrapped, hlines]
    · simp
    · exact List.forall_mem_cons.mpr ⟨by decide, hblock⟩

/-- A line that matches by its key has a number that 32 bits count past. -/
theorem keyLine_counted (hnorm : idx.normalized = true) {b f c : Nat}
    (h : lineEqual corpus idx block b f c = true) : 1 ≤ c ∧ c + 1 < 4294967296 := by
  simp only [lineEqual, hnorm, if_true, beq_iff_eq, Corpus.key] at h
  cases hread : corpus.readFile (corpus.path idx f) with
  | none => simp [hread] at h
  | some content =>
      rw [hread] at h
      simp only at h
      split at h
      · simp at h
      · obtain ⟨hlt, _⟩ := List.getElem?_eq_some_iff.mp h
        rw [corpus.normalizer.length_run] at hlt
        have := corpus.lines_lt _ _ hread
        omega

/-- The comparison by keys. -/
theorem counted_of_normalized (hnorm : idx.normalized = true) :
    Counted (lineEqual corpus idx block) := fun _ _ _ h =>
  ⟨(keyLine_counted hnorm h).1, Nat.lt_of_succ_lt (keyLine_counted hnorm h).2⟩

/-! ## One run -/

/-- What holds beside a stretch of lines holds beside its rest. -/
theorem forall_behind {P : Nat → Prop} {b c stop : Nat} (h : ∀ i, b + i < stop → P (c + i))
    (n : Nat) : ∀ i, b + n + i < stop → P (c + n + i) := by
  intro i hi
  rw [Nat.add_assoc] at hi ⊢
  exact h (n + i) hi

/-- The key of a line is there only if the line is. -/
theorem exists_line_of_key (hnorm : idx.normalized = true) {b fileId c : Nat}
    (h : lineEqual corpus idx block b fileId c = true) :
    ∃ src, corpus.line idx fileId c = some src := by
  simp only [lineEqual, hnorm, if_true, beq_iff_eq, Corpus.key] at h
  unfold Corpus.line
  cases hread : corpus.readFile (corpus.path idx fileId) with
  | none => simp [hread] at h
  | some content =>
      rw [hread] at h
      simp only at h ⊢
      split at h
      · simp at h
      next hzero =>
        obtain ⟨hlt, _⟩ := List.getElem?_eq_some_iff.mp h
        rw [corpus.normalizer.length_run] at hlt
        rw [if_neg hzero]
        exact ⟨_, List.getElem?_eq_getElem hlt⟩

/-- Line `c` of a file can be read. -/
abbrev ReadableLine (room : Nat) (corpus : Corpus) (idx : Index) (fileId c : Nat) : Prop :=
  (changesFiles room corpus idx).Readable fileId c

theorem line_of_readable {fileId c : Nat} (h : ReadableLine room corpus idx fileId c) :
    (viewAccess room corpus idx).line fileId c = some (corpus.line idx fileId c) := by
  rw [← line_changesFiles room]
  exact h.readLine

theorem same_of_readable {fileId c : Nat} (h : ReadableLine room corpus idx fileId c)
    (text : Bytes) : (viewAccess room corpus idx).same fileId c text =
      some (corpus.line idx fileId c == some text) := by
  rw [← line_changesFiles room]
  exact h.sameLine text

/-- The exact sub-run: at least one line, every line a copy. -/
theorem exactEnd_spec {fileId b c left : Nat} {stop : Nat × Nat}
    (h : (viewAccess room corpus idx).same fileId c (block.getD b []) = some true)
    (hstop : exactEnd (viewAccess room corpus idx) block fileId left b c = some stop) :
    ∃ n, 1 ≤ n ∧ n ≤ left + 1 ∧ stop = (b + n, c + n) ∧
      Copies room corpus idx block fileId b c n := by
  have hnext : nextLine c = c + 1 := nextLine_eq (corpusLine_counted (line_of_same h).1).2
  have hone : Copies room corpus idx block fileId b c 1 := by
    intro i hi
    rwa [show i = 0 by omega, Nat.add_zero, Nat.add_zero]
  induction left generalizing b c with
  | zero =>
      obtain rfl := Option.some.inj hstop
      exact ⟨1, by omega, by omega, by rw [hnext], hone⟩
  | succ left ih =>
      rw [exactEnd, hnext] at hstop
      obtain ⟨same, hsame, hrest⟩ := Option.bind_eq_some_iff.mp hstop
      cases same with
      | true =>
          have hnext' : nextLine (c + 1) = c + 1 + 1 :=
            nextLine_eq (corpusLine_counted (line_of_same hsame).1).2
          obtain ⟨n, hn, hle, heq, hall⟩ := ih hsame hrest hnext' (fun i hi => by
            rwa [show i = 0 by omega, Nat.add_zero, Nat.add_zero])
          refine ⟨n + 1, by omega, by omega, ?_, fun i hi => ?_⟩
          · rw [heq, show b + 1 + n = b + (n + 1) by omega, show c + 1 + n = c + (n + 1) by omega]
          · cases i with
            | zero => exact h
            | succ i =>
                have hlater := hall i (by omega)
                rwa [show b + 1 + i = b + (i + 1) by omega, show c + 1 + i = c + (i + 1) by omega]
                  at hlater
      | false =>
          obtain rfl := Option.some.inj hrest
          exact ⟨1, by omega, by omega, rfl, hone⟩

/-- Where the lines can be read, the sub-run has an end. -/
theorem isSome_exactEnd_of_readable {fileId b c left : Nat}
    (h : (viewAccess room corpus idx).same fileId c (block.getD b []) = some true)
    (hread : ∀ i, i ≤ left → ReadableLine room corpus idx fileId (c + i)) :
    (exactEnd (viewAccess room corpus idx) block fileId left b c).isSome := by
  induction left generalizing b c with
  | zero => rfl
  | succ left ih =>
      have hnext : nextLine c = c + 1 := nextLine_eq (corpusLine_counted (line_of_same h).1).2
      have hsame := same_of_readable (hread 1 (by omega)) (block.getD (b + 1) [])
      rw [exactEnd, hnext, hsame]
      cases hequal : corpus.line idx fileId (c + 1) == some (block.getD (b + 1) []) with
      | true =>
          rw [hequal] at hsame
          refine ih hsame fun i hi => ?_
          have hlater := hread (i + 1) (by omega)
          rwa [show c + (i + 1) = c + 1 + i by omega] at hlater
      | false => rfl

/-- A line that is not a copy is printed with its own whitespace around the code of the
corpus line, or as it stands. -/
theorem emitPadded_reproduces (htree : SameTree corpus baseDir disk) (hash : Bool)
    {fileId b c : Nat} {src : Bytes} (hline : corpus.line idx fileId c = some src)
    (hread : ReadableLine room corpus idx fileId c) (hne : src ≠ block.getD b []) :
    ∃ item, emitPadded (viewAccess room corpus idx) hash block fileId b c = some item ∧
      Reproduces baseDir disk (fun b x => x = returnedLine src (block.getD b [])) b 1 [item] := by
  have hview := line_of_readable hread
  rw [hline] at hview
  rw [emitPadded, hview]
  simp only [Option.bind_eq_bind, Option.bind_some]
  unfold trimPadFor
  by_cases hblank : trim src = [] ∨ trim (block.getD b []) = []
  · -- printed as it stands where there is no code to wrap
    rw [if_pos hblank]
    exact ⟨_, rfl, Reproduces.literal (if_pos (.inr hblank)).symm⟩
  · rw [if_neg hblank]
    obtain ⟨hpos, hcounted⟩ := corpusLine_counted hline
    have hloop : refBytesLoop (viewAccess room corpus idx) fileId (refLines c c) =
        some (some [src]) := by
      rw [refBytesLoop_eq_some, refLines, if_neg (by omega), List.append_nil,
        show c + 1 - c = 1 by omega]
      exact .cons hview .nil
    obtain ⟨item, hitem⟩ : ∃ item, emitRef (viewAccess room corpus idx) hash fileId c c
        (some (lead (block.getD b []), trail (block.getD b []))) = some (some item) :=
      ⟨_, emitRef_eq_some.mpr ⟨[src], hloop, rfl⟩⟩
    obtain ⟨lines, hlines, hexpands⟩ := emitRef_expands htree hpos (Nat.le_refl c) hitem
    rw [show c + 1 - c = 1 by omega] at hlines
    obtain ⟨line, rest, hline', hrest, rfl⟩ := List.forall₂_cons_left_iff.mp hlines
    cases hrest
    obtain rfl : src = line := Option.some.inj (hline.symm.trans hline')
    refine ⟨item, by simp only [hitem]; rfl, _, hexpands, .cons ?_ .nil⟩
    rw [returnedLine, if_neg (not_or.mpr ⟨hne, hblank⟩)]
    rfl

/-- Block line `k` comes back with the code of the corpus line beside it, in a run where
line `c` of the file is beside block line `b`. -/
def Beside (corpus : Corpus) (idx : Index) (block : List Bytes) (fileId b c k : Nat) (x : Bytes) :
    Prop :=
  ∃ lineno src, lineno + b = c + k ∧ corpus.line idx fileId lineno = some src ∧
    x = returnedLine src (block.getD k [])

theorem Copies.beside {fileId b c n : Nat} (h : Copies room corpus idx block fileId b c n) {k : Nat}
    (hge : b ≤ k) (hlt : k < b + n) :
    Beside corpus idx block fileId b c k (block.getD k []) := by
  obtain ⟨i, rfl⟩ := Nat.exists_eq_add_of_le hge
  exact ⟨c + i, block.getD (b + i) [], by omega, (line_of_same (h i (by omega))).1,
    (if_pos (.inl rfl)).symm⟩

theorem Beside.of_shift {fileId b c b' c' k : Nat} {x : Bytes} (hshift : c' + b = c + b')
    (h : Beside corpus idx block fileId b' c' k x) : Beside corpus idx block fileId b c k x := by
  obtain ⟨lineno, src, hplace, hline, rfl⟩ := h
  exact ⟨lineno, src, by omega, hline, rfl⟩

/-- A run whose lines can be read, from block line `b` on. -/
theorem emitNormalizedRun_reproduces (htree : SameTree corpus baseDir disk) (hash : Bool)
    {fileId blockEnd : Nat} (turns b c : Nat)
    (hlines : ∀ i, b + i < blockEnd → ∃ src, corpus.line idx fileId (c + i) = some src)
    (hread : ∀ i, b + i < blockEnd → ReadableLine room corpus idx fileId (c + i))
    (hturns : blockEnd - b ≤ turns) :
    ∃ items, emitNormalizedRun (viewAccess room corpus idx) hash block fileId blockEnd turns b c =
        some items ∧
      Reproduces baseDir disk (Beside corpus idx block fileId b c) b (blockEnd - b) items := by
  induction turns generalizing b c with
  | zero =>
      rw [Nat.le_zero.mp hturns]
      exact ⟨[], rfl, Reproduces.nil b⟩
  | succ turns ih =>
      rw [emitNormalizedRun]
      split
      next hlt =>
        obtain ⟨src, hsrc⟩ := hlines 0 hlt
        have hsame := same_of_readable (hread 0 hlt) (block.getD b [])
        rw [Nat.add_zero] at hsrc hsame
        have hlines' := forall_behind (P := fun n => ∃ src, corpus.line idx fileId n = some src)
          hlines
        have hread' := forall_behind hread
        rw [hsame, hsrc]
        by_cases hcopy : src = block.getD b []
        · -- an exact sub-run, then the rest of the run
          subst hcopy
          rw [hsrc] at hsame
          simp only [beq_self_eq_true] at hsame
          obtain ⟨stop, hstop⟩ := Option.isSome_iff_exists.mp (isSome_exactEnd_of_readable hsame
            fun i (hi : i ≤ blockEnd - (b + 1)) => hread i (by omega))
          obtain ⟨n, hn, hle, rfl, hcopies⟩ := exactEnd_spec hsame hstop
          obtain ⟨rest, hrest, hreproduces⟩ :=
            ih (b + n) (c + n) (hlines' n) (hread' n) (by omega)
          have hprinted := hcopies.emitRefOr hn hash
          simp only [beq_self_eq_true, Option.bind_eq_bind, Option.bind_some, if_true, hstop,
            Nat.add_sub_cancel_left, hprinted, hrest]
          refine ⟨_, rfl, ?_⟩
          rw [show blockEnd - b = n + (blockEnd - (b + n)) by omega]
          refine ((hcopies.reproduces htree hn hash).imp fun k hge hlt x hx => ?_).append
            (hreproduces.imp fun k _ _ x hx => hx.of_shift (by omega))
          rw [hx]
          exact hcopies.beside hge hlt
        · obtain ⟨item, hitem, hprinted⟩ := emitPadded_reproduces htree hash hsrc
            (by simpa using hread 0 hlt) hcopy
          obtain ⟨rest, hrest, hreproduces⟩ :=
            ih (b + 1) (c + 1) (hlines' 1) (hread' 1) (by omega)
          have hdiffers : (some src == some (block.getD b [])) = false := by simpa using hcopy
          simp only [hdiffers, Option.bind_eq_bind, Option.bind_some, Bool.false_eq_true, if_false,
            hitem, nextLine_eq (corpusLine_counted hsrc).2, hrest]
          refine ⟨_, rfl, ?_⟩
          rw [show blockEnd - b = 1 + (blockEnd - (b + 1)) by omega]
          refine (hprinted.imp fun k hge hlt x hx => ?_).append
            (hreproduces.imp fun k _ _ x hx => hx.of_shift (by omega))
          obtain rfl : k = b := by omega
          exact ⟨c, src, rfl, hsrc, hx⟩
      next hge =>
        rw [show blockEnd - b = 0 by omega]
        exact ⟨[], rfl, Reproduces.nil b⟩

/-- A run that is printed has lines that can be read. -/
theorem readable_of_emitNormalizedRun (hash : Bool) {fileId blockEnd : Nat} {turns b c : Nat}
    (hlines : ∀ i, b + i < blockEnd → ∃ src, corpus.line idx fileId (c + i) = some src)
    (hturns : blockEnd - b ≤ turns) {items : List Emitted}
    (h : emitNormalizedRun (viewAccess room corpus idx) hash block fileId blockEnd turns b c =
      some items) : ∀ i, b + i < blockEnd → ReadableLine room corpus idx fileId (c + i) := by
  induction turns generalizing b c items with
  | zero => exact fun i hi => absurd hi (by omega)
  | succ turns ih =>
      rw [emitNormalizedRun] at h
      split at h
      next hlt =>
        obtain ⟨src, hsrc⟩ := hlines 0 hlt
        obtain ⟨same, hsame, hbehind⟩ := Option.bind_eq_some_iff.mp h
        have hlines' := forall_behind (P := fun n => ∃ src, corpus.line idx fileId n = some src)
          hlines
        cases same with
        | true =>
            obtain ⟨stop, hstop, hbehind⟩ := Option.bind_eq_some_iff.mp hbehind
            obtain ⟨n, hn, hle, rfl, hcopies⟩ := exactEnd_spec hsame hstop
            obtain ⟨_, _, hbehind⟩ := Option.bind_eq_some_iff.mp hbehind
            obtain ⟨rest, hrest, _⟩ := Option.bind_eq_some_iff.mp hbehind
            have hreadable := ih (hlines' n) (by omega) hrest
            intro i hi
            rcases Nat.lt_or_ge i n with hin | hout
            · exact (readable_of_sameLine (hcopies i hin)).2
            · have hi' := hreadable (i - n) (by omega)
              rwa [show c + n + (i - n) = c + i by omega] at hi'
        | false =>
            obtain ⟨item, hitem, hbehind⟩ := Option.bind_eq_some_iff.mp hbehind
            obtain ⟨rest, hrest, _⟩ := Option.bind_eq_some_iff.mp hbehind
            obtain ⟨found, hfound, _⟩ := Option.bind_eq_some_iff.mp hitem
            rw [Nat.add_zero] at hsrc
            rw [nextLine_eq (corpusLine_counted hsrc).2] at hrest
            have hreadable := ih (hlines' 1) (by omega) hrest
            intro i hi
            cases i with
            | zero => exact (readLine_eq_some hfound).2
            | succ i =>
                have hi' := hreadable i (by omega)
                rwa [show c + 1 + i = c + (i + 1) by omega] at hi'
      next hge => exact fun i hi => absurd hi (by omega)

/-! ## The block -/

section

variable {hash : Bool} {anchorSorter : Sorter Anchor.weight} {runSorter : Sorter Run.blockBegin}
  {minRun : Nat}

/-- Comparing keys is always defined: they are strings of their own. -/
theorem factorizeM_of_normalized (hnorm : idx.normalized = true) :
    factorizeM (accessEqual (viewAccess room corpus idx) block) anchorSorter runSorter
        (blockKeys corpus idx block) minRun idx.find =
      some (blockRuns corpus idx block anchorSorter runSorter minRun) := by
  refine (factorizeM_eq_some_iff (answersAlike_views room corpus idx block)).mpr
    ⟨fun q _ => ?_, rfl⟩
  have hmode : (viewAccess room corpus idx).normalized = true := hnorm
  rw [Answered, accessEqual, if_pos hmode]
  rfl

theorem ahead_blockRuns (hnorm : idx.normalized = true) (hblock : ∀ l ∈ block, newline ∉ l) :
    Ahead block.length 0 (blockRuns corpus idx block anchorSorter runSorter minRun) := by
  have hahead := ahead_factorize (@counted_of_normalized corpus idx block hnorm) anchorSorter
    runSorter (blockKeys corpus idx block) minRun idx.find
  rwa [length_blockKeys hnorm hblock] at hahead

/-- The lines beside a run are there. -/
theorem lines_blockRuns (hnorm : idx.normalized = true) {r : Run}
    (hr : r ∈ blockRuns corpus idx block anchorSorter runSorter minRun) :
    ∀ i, i < r.length → ∃ src, corpus.line idx r.fileId (r.corpusBegin + i) = some src :=
  fun i hi => exists_line_of_key hnorm
    (((factorize_sound anchorSorter runSorter (blockKeys corpus idx block) minRun idx.find
      (counted_of_normalized hnorm)).1 r hr).matched i hi)

theorem emitRun_of_normalized (hnorm : idx.normalized = true) (r : Run) :
    emitRun (viewAccess room corpus idx) hash block r =
      emitNormalizedRun (viewAccess room corpus idx) hash block r.fileId r.blockEnd r.length
        r.blockBegin r.corpusBegin := if_neg (by simp [viewAccess, hnorm])

/-- A run whose lines can be read is printed, and its block lines come back with the code
of the lines beside them. -/
theorem emitRun_reproduces (hnorm : idx.normalized = true) (htree : SameTree corpus baseDir disk)
    (hash : Bool) {r : Run} (hr : r ∈ blockRuns corpus idx block anchorSorter runSorter minRun)
    (hread : ∀ i, i < r.length → ReadableLine room corpus idx r.fileId (r.corpusBegin + i)) :
    ∃ items, emitRun (viewAccess room corpus idx) hash block r = some items ∧
      Reproduces baseDir disk (Beside corpus idx block r.fileId r.blockBegin r.corpusBegin)
        r.blockBegin r.length items := by
  have hlength : r.length = r.blockEnd - r.blockBegin := rfl
  rw [emitRun_of_normalized hnorm]
  exact emitNormalizedRun_reproduces htree hash r.length r.blockBegin r.corpusBegin
    (fun i hi => lines_blockRuns hnorm hr i (by omega)) (fun i hi => hread i (by omega))
    (Nat.le_refl _)

/-- Runs whose lines can be read are printed. -/
theorem emitLoop_of_readable (hnorm : idx.normalized = true)
    (htree : SameTree corpus baseDir disk) (hash : Bool)
    (hread : ∀ r ∈ blockRuns corpus idx block anchorSorter runSorter minRun, ∀ i, i < r.length →
      ReadableLine room corpus idx r.fileId (r.corpusBegin + i)) :
    ∃ items, emitLoop (viewAccess room corpus idx) hash block block.length 0
      (blockRuns corpus idx block anchorSorter runSorter minRun) = some items := by
  refine Option.isSome_iff_exists.mp (isSome_emitLoop hash block _ 0 fun r hr => ?_)
  obtain ⟨items, hitems, _⟩ := emitRun_reproduces hnorm htree hash hr (hread r hr)
  exact hitems ▸ rfl

/-- And only these. -/
theorem readable_of_emitLoop (hnorm : idx.normalized = true) (hblock : ∀ l ∈ block, newline ∉ l)
    {items : List Emitted}
    (h : emitLoop (viewAccess room corpus idx) hash block block.length 0
      (blockRuns corpus idx block anchorSorter runSorter minRun) = some items) :
    ∀ r ∈ blockRuns corpus idx block anchorSorter runSorter minRun, ∀ i, i < r.length →
      ReadableLine room corpus idx r.fileId (r.corpusBegin + i) := by
  intro r hr i hi
  have hlength : r.length = r.blockEnd - r.blockBegin := rfl
  obtain ⟨printed, hprinted⟩ := isSome_emitRun_of_emitLoop (ahead_blockRuns hnorm hblock)
    (Nat.sub_le _ _) h r hr
  rw [emitRun_of_normalized hnorm] at hprinted
  exact readable_of_emitNormalizedRun hash (fun i hi => lines_blockRuns hnorm hr i (by omega))
    (Nat.le_refl _) hprinted i (by omega)

/-- A block line comes back as it is where no run covers it, and with the code of the
corpus line beside it in a run. -/
def ReturnsAs (corpus : Corpus) (idx : Index) (block : List Bytes) (runs : List Run) (k : Nat)
    (x : Bytes) : Prop :=
  (Uncovered runs k ∧ x = block.getD k []) ∨
    ∃ r ∈ runs, r.Covers k ∧ Beside corpus idx block r.fileId r.blockBegin r.corpusBegin k x

theorem emitLoop_returns (hnorm : idx.normalized = true) (hblock : ∀ l ∈ block, newline ∉ l)
    (htree : SameTree corpus baseDir disk) {items : List Emitted}
    (h : emitLoop (viewAccess room corpus idx) hash block block.length 0
      (blockRuns corpus idx block anchorSorter runSorter minRun) = some items) :
    Reproduces baseDir disk (ReturnsAs corpus idx block
      (blockRuns corpus idx block anchorSorter runSorter minRun)) 0 block.length items := by
  have hread := readable_of_emitLoop hnorm hblock h
  refine emitLoop_reproduces (ahead_blockRuns hnorm hblock) (Nat.sub_le _ _) h
    (fun b _ _ huncovered => .inl ⟨huncovered, rfl⟩) fun r hr printed hprinted => ?_
  have hlength : r.length = r.blockEnd - r.blockBegin := rfl
  obtain ⟨items', hitems, hreproduces⟩ := emitRun_reproduces hnorm htree hash hr (hread r hr)
  obtain rfl := Option.some.inj (hitems.symm.trans hprinted)
  exact hreproduces.imp fun k hge hlt x hx => .inr ⟨r, hr, ⟨hge, by omega⟩, hx⟩

end

/-- **Normalized mode.** On the same tree, a block comes back byte for byte exactly if in
every run, of every corpus line beside a block line, the characters are there, and the
two lines are equal, or one has no code, or the reader trims off the one what is the
code of the other. -/
theorem normalized_mode_exact_iff (room : Nat) (corpus : Corpus) (idx : Index)
    (hnorm : idx.normalized = true) {baseDir : Bytes} {disk : Disk}
    (htree : SameTree corpus baseDir disk) (hash : Bool) {block : List Bytes}
    (hblock : ∀ l ∈ block, newline ∉ l) (anchorSorter : Sorter Anchor.weight)
    (runSorter : Sorter Run.blockBegin) (minRun : Nat) :
    ComesBack room corpus idx baseDir disk hash block anchorSorter runSorter minRun ↔
      ∀ r ∈ blockRuns corpus idx block anchorSorter runSorter minRun, ∀ i, i < r.length →
        ∀ src, corpus.line idx r.fileId (r.corpusBegin + i) = some src →
          (src = [] ∨ keptOutside (changesFiles room corpus idx) r.fileId = true) ∧
            ReturnsExactly src (block.getD (r.blockBegin + i) []) := by
  have hahead := @ahead_blockRuns corpus idx block anchorSorter runSorter minRun hnorm hblock
  constructor
  · rintro ⟨items, hitems, hexpands⟩ r hr i hi src hsrc
    obtain ⟨_, hloop⟩ := emitAddedCorpus_eq_some.mp hitems
    have hread := readable_of_emitLoop hnorm hblock hloop r hr i hi
    rw [ReadableLine, CorpusFiles.Readable, line_changesFiles] at hread
    refine ⟨hread src hsrc, ?_⟩
    obtain ⟨out, hout, hall⟩ := emitLoop_returns hnorm hblock htree hloop
    obtain rfl := hout.unique hexpands
    have hlength : r.length = r.blockEnd - r.blockBegin := rfl
    have hcovers : r.Covers (r.blockBegin + i) := ⟨by omega, by omega⟩
    have hin := hahead.inBlock r hr
    -- the line comes back with the code beside it in this run, as there is no other one
    rcases rel_of_forall₂ hall (b := r.blockBegin + i) (by omega) with
      ⟨huncovered, _⟩ | ⟨t, ht, htcovers, lineno, src', hplace, hsrc', hx⟩
    · exact absurd hcovers (huncovered r hr)
    · obtain rfl := hahead.covers_unique hr ht hcovers htcovers
      obtain rfl : lineno = r.corpusBegin + i := by omega
      obtain rfl : src = src' := Option.some.inj (hsrc.symm.trans hsrc')
      exact returnedLine_eq_iff.mp hx.symm
  · intro hall
    have hread : ∀ r ∈ blockRuns corpus idx block anchorSorter runSorter minRun, ∀ i,
        i < r.length → ReadableLine room corpus idx r.fileId (r.corpusBegin + i) := by
      intro r hr i hi src hsrc
      rw [line_changesFiles] at hsrc
      exact (hall r hr i hi src hsrc).1
    obtain ⟨items, hloop⟩ := emitLoop_of_readable hnorm htree hash hread
    refine ⟨items, emitAddedCorpus_eq_some.mpr ⟨factorizeM_of_normalized hnorm, hloop⟩, ?_⟩
    have hback : ∀ k, 0 ≤ k → k < 0 + block.length → ∀ x,
        ReturnsAs corpus idx block (blockRuns corpus idx block anchorSorter runSorter minRun) k x →
          x = block.getD k [] := by
      intro k _ _ x hx
      rcases hx with ⟨_, hx⟩ | ⟨r, hr, hcovers, lineno, src, hplace, hsrc, hx⟩
      · exact hx
      · have hlength : r.length = r.blockEnd - r.blockBegin := rfl
        obtain ⟨i, rfl⟩ := Nat.exists_eq_add_of_le hcovers.1
        obtain rfl : lineno = r.corpusBegin + i := by omega
        have hlt := hcovers.2
        rw [hx]
        exact returnedLine_eq_iff.mpr (hall r hr i (by omega) src hsrc).2
    obtain ⟨out, hout, hrel⟩ := (emitLoop_returns hnorm hblock htree hloop).imp hback
    rwa [eq_of_forall₂ hrel] at hout

/-! ## A line that comes back respaced -/

/-- The keys of a line: its bytes without spaces. -/
def spaceless : Normalizer where
  run content := (corpusSplitLines content).map (List.filter (· != space))
  length_run _ := List.length_map _

/-- `while ( true )` in the corpus, indexed under its tokens. -/
def spacedCorpus : Corpus :=
  .single (ascii "/lib.php") (ascii "while ( true )\n\x7d\n") spaceless (by decide) (by decide)

def spacedIndex : Index where
  files := [ascii "lib.php"]
  lines := [(ascii "while(true)", [⟨0, 1⟩])]
  normalized := true
  validIds := by decide
  relative := by decide

/-- An indented `while ( true )` is printed as a reference to the corpus line. -/
theorem normalized_mode_exact_while :
    emitAddedCorpus (viewAccess 15 spacedCorpus spacedIndex) false [ascii "  while ( true )"]
        (Sorter.stable _) (Sorter.stable _) 1 =
      some [.ref (ascii "r \"lib.php\" 1 1 \"  \" \"\" # s:15")] ∧
    ComesBack 15 spacedCorpus spacedIndex [] spacedCorpus.readFile false
      [ascii "  while ( true )"] (Sorter.stable _) (Sorter.stable _) 1 := by
  refine ⟨by decide +kernel, (normalized_mode_exact_iff 15 spacedCorpus spacedIndex rfl
    (fun _ => rfl) false (by decide) (Sorter.stable _) (Sorter.stable _) 1).mpr ?_⟩
  have hruns : blockRuns spacedCorpus spacedIndex [ascii "  while ( true )"] (Sorter.stable _)
      (Sorter.stable _) 1 = [⟨0, 1, 0, 1, 1⟩] := by decide +kernel
  have hline : spacedCorpus.line spacedIndex 0 1 = some (ascii "while ( true )") := by
    decide +kernel
  rw [hruns]
  intro r hr i hi src hsrc
  rw [List.mem_singleton] at hr
  subst hr
  obtain rfl : i = 0 := by simpa [Run.length] using hi
  obtain rfl : ascii "while ( true )" = src := Option.some.inj (hline.symm.trans hsrc)
  decide +kernel

/-- The block has `while(true)`, what comes back has `while ( true )`. -/
theorem normalized_mode_not_exact :
    ¬ ComesBack 15 spacedCorpus spacedIndex [] spacedCorpus.readFile false [ascii "while(true)"]
      (Sorter.stable _) (Sorter.stable _) 1 := by
  rintro ⟨items, hitems, hexpands⟩
  have hprinted : emitAddedCorpus (viewAccess 15 spacedCorpus spacedIndex) false
      [ascii "while(true)"] (Sorter.stable _) (Sorter.stable _) 1 =
        some [.ref (ascii "r \"lib.php\" 1 1 \"\" \"\" # s:15")] := by decide +kernel
  obtain rfl := Option.some.inj (hitems.symm.trans hprinted)
  obtain ⟨cache, _, hbuild⟩ := hexpands.builds [] (RefCache.agrees_nil _)
  have hout : ((buildInput (some (phpatcherMakeResolver [] spacedCorpus.readFile))
      ([.ref (ascii "r \"lib.php\" 1 1 \"\" \"\" # s:15")].map pieceOf)).outcome []).1 =
        .ok [ascii "while ( true )"] := by
    decide +kernel
  rw [hbuild] at hout
  exact absurd (Except.ok.inj hout) (by decide)

end Phpatcher.Theorems
