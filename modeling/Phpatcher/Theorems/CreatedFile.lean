import Phpatcher.Theorems.DiffReproduces
import Phpatcher.Theorems.GeneratedBundle

/-!
# Created files

The section of an added file carries the lines of its content, and the applier
builds the file from nothing, newline-terminated. So the content comes back
with every line ended by a newline, the last one too (`created_lines`).
-/

namespace Phpatcher.Theorems

open Phpatcher.Basis Phpatcher.Core Phpatcher.Tools

/-- An append to nothing gives its lines, each with a newline. -/
theorem apply_created {lines : List Bytes} (h : ∀ line ∈ lines, parseRDirective line = none)
    {σ : Type} (resolve : Option (RefResolver σ)) (s : σ) :
    (applyEdScript { commands := [{ kind := .append, input := pieces lines }], creates := true } []
      resolve).Yields s (unlines lines) s := by
  rw [pieces_eq_literal h]
  -- the command is the one of a change that adds the lines to the empty file
  have hnames : Names { added := lines } 0 [] := ⟨rfl, rfl⟩
  have hacc : Accepted [commandOf { added := lines }] (splitLines []) lines :=
    Accepted.nil.change hnames
  have happly := (hacc.apply (by decide) resolve s).2
  rw [joinLines, show finalNewline [] = true from rfl, joinWith_true] at happly
  exact happly

/-- **Created files.** A content without a CR in front of a newline, and without
lines the format cannot carry, comes back byte for byte, with a newline more if
it is not empty and has none at its end. -/
theorem created_file_content (sorter : EntrySorter) (canon : Bytes → Bytes) (revs : Revisions)
    (before : PatchSet) (path : HeaderPath) {content : Bytes}
    (hdot : ∀ line ∈ corpusSplitLines content, line ≠ [dot])
    (hdirective : ∀ line ∈ corpusSplitLines content, parseRDirective line = none)
    (hcr : ¬ [carriageReturn, newline] <:+: content) {σ : Type}
    (resolve : Option (RefResolver σ)) (s : σ) :
    ∃ set fp, PatchSet.parse sorter canon
        (bundleText emitAddedPlain revs [.added path.text content]) before = (set, .ok ()) ∧
      set.find (canon path.text) = some fp ∧ fp.creates = true ∧
      (applyEdScript fp [] resolve).Yields s
        (content ++ if content = [] ∨ content.getLast? = some newline then [] else [newline]) s := by
  obtain ⟨set, hparse, hfind⟩ := parse_added sorter canon revs before path
    (fun hmem => hdot _ hmem rfl)
  refine ⟨set, _, hparse, hfind, rfl, ?_⟩
  have happly := apply_created hdirective resolve s
  have hsplit : corpusSplitLines content = splitWith id [] content :=
    splitWith_dropLastByte hcr
  rw [hsplit, unlines_splitWith (by simp), List.nil_append, ← hsplit] at happly
  exact happly

/-- A content of two lines, the first one blank. -/
theorem created_file_content_two :
    ∃ set fp, PatchSet.parse (Sorter.stable Prod.fst) id
        (bundleText emitAddedPlain sampleRevisions
          [.added samplePath.text (ascii "\n<?php\n")]) {} = (set, .ok ()) ∧
      set.find (ascii "a.php") = some fp ∧ fp.creates = true ∧
      (applyEdScript fp [] none).Yields () (ascii "\n<?php\n") () :=
  created_file_content (Sorter.stable Prod.fst) id sampleRevisions {} samplePath (by decide)
    (by decide) (by decide) none ()

/-- A content without a newline at its end gains one. -/
theorem created_file_gains_newline :
    let content := ascii "x"
    (∀ line ∈ corpusSplitLines content, line ≠ [dot] ∧ parseRDirective line = none) ∧
      ∃ fp, (PatchSet.parse (Sorter.stable Prod.fst) id
          (bundleText emitAddedPlain sampleRevisions [.added samplePath.text content]) {}).1.find
            (ascii "a.php") = some fp ∧
        (applyEdScript fp [] none).Yields () (ascii "x\n") () ∧ ascii "x\n" ≠ content := by
  refine ⟨by decide, _, ?_, @apply_created [ascii "x"] (by decide) Unit none (), by decide⟩
  decide +kernel

end Phpatcher.Theorems
