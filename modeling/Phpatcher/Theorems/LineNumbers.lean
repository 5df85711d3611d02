import Phpatcher.Tools.Splitters

/-!
# All components number lines alike

The splitters differ in what they do with a CR in front of a newline and in
nothing else; the scan of the indexer and the normalizer count the same lines,
and a block has a key for each of its lines, with its artificial open tag or
without.
-/

namespace Phpatcher.Theorems

open Phpatcher.Basis Phpatcher.Core Phpatcher.Glue Phpatcher.Tools

/-- A line of the scan is a line more, whatever is posted. -/
theorem lineno_scanLine (opt : Options) (rel : Bytes) (s : Scan) (raw : Bytes) :
    (s.line opt rel raw).lineno = toU32 (s.lineno + 1) := by
  have hensure : ∀ s : Scan, (s.ensureId rel).2.lineno = s.lineno := by
    intro s
    unfold Scan.ensureId
    split <;> rfl
  unfold Scan.line
  simp only
  split
  · rfl
  split
  · rfl
  · exact hensure _

/-- The scan of lines counts them, with 32 bits. -/
theorem lineno_foldl_scanLine (opt : Options) (rel : Bytes) (s : Scan) (lines : List Bytes) :
    toU32 (lines.foldl (Scan.line opt rel) s).lineno = toU32 (s.lineno + lines.length) := by
  induction lines generalizing s with
  | nil => rfl
  | cons line lines ih =>
      rw [List.foldl_cons, ih, lineno_scanLine, List.length_cons]
      simp only [toU32]
      omega

/-- A block has as many keys as lines. -/
theorem length_normalizeBlockKeys (normalizer : Normalizer) (content : Bytes) :
    (normalizeBlockKeys normalizer content).length = (splitLines content).length := by
  unfold normalizeBlockKeys
  split
  · rw [normalizer.length_run, length_corpusSplitLines]
  · -- the line of the tag is dropped again
    have hwrapped : splitLines (ascii "<?php\n" ++ content) =
        ascii "<?php" :: splitLines content := by
      have htag : newline ∉ ascii "<?php" := by decide
      exact splitWith_line htag content
    rw [List.length_drop, normalizer.length_run, length_corpusSplitLines, hwrapped,
      List.length_cons, Nat.add_sub_cancel]

/-- **All components number lines alike.** -/
theorem components_number_lines_alike (content : Bytes) :
    (resolverSplitLoop content = changesSplitLoop content ∧
      matcherSplitLoop content = changesSplitLoop content) ∧
    (changesSplitLoop content).length = (patchSplitLoop content).length ∧
    (∀ i, (changesSplitLoop content)[i]? = ((patchSplitLoop content)[i]?).map fun line =>
      if i < content.count newline then dropLastByte carriageReturn line else line) ∧
    (∀ opt rel s, scanLoop opt rel content content.length 0 0 s =
      (patchSplitLoop content).foldl (Scan.line opt rel) s ∧
      toU32 (scanLoop opt rel content content.length 0 0 s).lineno =
        toU32 (s.lineno + (patchSplitLoop content).length)) ∧
    (∀ tokens, (normalize tokens content).length = (patchSplitLoop content).length) ∧
    ∀ tokenGetAll, (normalizeBlockKeys (.ofTokens tokenGetAll) content).length =
      (patchSplitLoop content).length := by
  have hscan : ∀ opt rel s, scanLoop opt rel content content.length 0 0 s =
      (patchSplitLoop content).foldl (Scan.line opt rel) s := by
    intro opt rel s
    rw [scanLoop_eq opt rel content s (Nat.zero_add _) (Nat.le_refl 0), slice_self, List.drop_zero,
      scan_bytes, patchSplitLoop_eq, splitLines]
  refine ⟨⟨rfl, rfl⟩, ?_, ?_, fun opt rel s => ⟨hscan opt rel s, ?_⟩, fun tokens => ?_,
    fun tokenGetAll => ?_⟩
  · rw [changesSplitLoop_eq, patchSplitLoop_eq, length_corpusSplitLines]
  · intro i
    rw [changesSplitLoop_eq, patchSplitLoop_eq, corpusSplitLines, getElem?_splitWith, splitLines]
  · rw [hscan, lineno_foldl_scanLine]
  · rw [length_normalize, patchSplitLoop_eq]
  · rw [length_normalizeBlockKeys, patchSplitLoop_eq]

/-- A lone CR stays, one in front of a newline goes. -/
example : changesSplitLoop (ascii "a\rb\r\n\r\nc\r") = [ascii "a\rb", [], ascii "c\r"] := by
  decide +kernel

end Phpatcher.Theorems
