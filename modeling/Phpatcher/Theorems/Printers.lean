import Phpatcher.Core.Format
import Phpatcher.Theorems.CorpusLossless
import Phpatcher.Theorems.References

/-!
# Ways to write added lines

What `changes.cpp` prints for the added lines of a change is chosen at its start:
the lines, or references into a corpus among them. An `Emission` is any way of
writing whose items the applier turns back into the lines; plain mode is one, and
corpus mode with an index of the bytes is one.
-/

namespace Phpatcher.Theorems

open Phpatcher.Basis Phpatcher.Core Phpatcher.Glue Phpatcher.Tools

/-- A literal item is a line of the block, a reference is one line. -/
def Prints (block : List Bytes) : Emitted → Prop
  | .literal line => line ∈ block
  | .ref line => newline ∉ line

/-- How the lines of a block are written, so that the applier makes the block of
them again while the source tree is `disk`. -/
structure Emission (baseDir : Bytes) (disk : Disk) where
  emit : List Bytes → List Emitted
  expands : ∀ block, Expands baseDir disk (emit block) block
  prints : ∀ block, ∀ item ∈ emit block, Prints block item

section

variable {baseDir : Bytes} {disk : Disk}

/-- Plain mode. -/
def Emission.plain (baseDir : Bytes) (disk : Disk) : Emission baseDir disk where
  emit block := block.map .literal
  expands := Expands.literals
  prints block item h := by
    obtain ⟨line, hline, rfl⟩ := List.mem_map.mp h
    exact hline

variable (em : Emission baseDir disk)

/-- The lines written for a block. -/
def Emission.lines (block : List Bytes) : List Bytes := (em.emit block).map Emitted.text

/-- What is printed for a block. -/
def Emission.print (block : List Bytes) : Bytes := unlines (em.lines block)

theorem print_plain (baseDir : Bytes) (disk : Disk) :
    (Emission.plain baseDir disk).print = emitAddedPlain := by
  funext block
  have hlines : (Emission.plain baseDir disk).lines block = block := by
    rw [Emission.lines, Emission.plain, List.map_map]
    exact List.map_id block
  rw [Emission.print, hlines]
  rfl

/-- A block whose lines a bundle can carry as text. -/
def Writable (block : List Bytes) : Prop :=
  ∀ line ∈ block, line ≠ [dot] ∧ parseRDirective line = none

instance (block : List Bytes) : Decidable (Writable block) :=
  inferInstanceAs (Decidable (∀ line ∈ block, line ≠ [dot] ∧ parseRDirective line = none))

variable {em}

/-- A line that is a reference is no lone dot. -/
theorem ref_ne_dot {block : List Bytes} {line : Bytes} (h : Emitted.ref line ∈ em.emit block) :
    line ≠ [dot] := by
  obtain ⟨ref, _, hparse, _⟩ := (em.expands block).accepted line h
  rintro rfl
  have hnone : parseRDirective [dot] = none := by decide
  rw [hnone] at hparse
  simp at hparse

theorem dot_not_mem_lines {block : List Bytes} (h : Writable block) : [dot] ∉ em.lines block := by
  intro hmem
  obtain ⟨item, hitem, htext⟩ := List.mem_map.mp hmem
  cases item with
  | literal line => exact (h line (em.prints block _ hitem)).1 htext
  | ref line => exact ref_ne_dot hitem htext

theorem newline_not_mem_lines {block : List Bytes} (h : ∀ line ∈ block, newline ∉ line) :
    ∀ line ∈ em.lines block, newline ∉ line := by
  intro line hline
  obtain ⟨item, hitem, rfl⟩ := List.mem_map.mp hline
  cases item with
  | literal line => exact h line (em.prints block _ hitem)
  | ref line => exact em.prints block _ hitem

/-- The written lines are read as the pieces they stand for. -/
theorem pieces_lines {block : List Bytes} (h : Writable block) :
    pieces (em.lines block) = (em.emit block).map pieceOf := by
  rw [pieces, Emission.lines, List.map_map]
  refine List.map_congr_left fun item hitem => ?_
  cases item with
  | literal line =>
      have hnone := (h line (em.prints block _ hitem)).2
      simp [Emitted.text, parseEdInputPiece, hnone, pieceOf]
  | ref line => rfl

end

/-! ## Corpus mode -/

section

variable {room : Nat} {corpus : Corpus} {idx : Index} {hash : Bool} {block : List Bytes}
  {anchorSorter : Sorter Anchor.weight} {runSorter : Sorter Run.blockBegin} {minRun : Nat}

/-- In byte mode a run is one line that holds no newline. -/
theorem prints_emitAddedCorpus (hbyte : idx.normalized = false) {items : List Emitted}
    (h : emitAddedCorpus (viewAccess room corpus idx) hash block anchorSorter runSorter minRun =
      some items) : ∀ item ∈ items, Prints block item := by
  obtain ⟨hruns, hitems⟩ := emitAddedCorpus_eq_some.mp h
  obtain ⟨hahead, hcopied⟩ := runs_copied hbyte hruns
  refine forall_mem_emitLoop hahead (Nat.sub_le _ _) hitems (fun b hb => ?_)
    fun r hr printed hprinted item hitem => ?_
  · have hline : block.getD b [] = block[b] := by simp [hb]
    rw [Prints, hline]
    exact List.getElem_mem hb
  · obtain ⟨hpos, hend, hcopies⟩ := hcopied r hr
    rw [emitRun_of_copies hbyte hash hpos hend hcopies] at hprinted
    rw [← Option.some.inj hprinted] at hitem
    rw [List.mem_singleton.mp hitem]
    refine newline_not_mem_rDirective _ _ _ _ ?_
    rw [guardText_eq]
    exact fun hmem => absurd (Guard.mem_text hmem) (by decide)

end

/-- Corpus mode with an index of bytes, on the tree of the corpus. No posting leads into
a file so short that its lines are lost. -/
def Emission.corpus {room : Nat} {corpus : Corpus} {idx : Index} (hbyte : idx.normalized = false)
    (hkept : PostedOutside room corpus idx) {baseDir : Bytes} {disk : Disk}
    (htree : SameTree corpus baseDir disk) (hash : Bool) (anchorSorter : Sorter Anchor.weight)
    (runSorter : Sorter Run.blockBegin) (minRun : Nat) : Emission baseDir disk where
  emit block :=
    (emitAddedCorpus (viewAccess room corpus idx) hash block anchorSorter runSorter minRun).get
      (hkept.isSome hbyte hash block anchorSorter runSorter minRun)
  expands _ := expands_of_byte hbyte htree (Option.some_get _).symm
  prints _ := prints_emitAddedCorpus hbyte (Option.some_get _).symm

end Phpatcher.Theorems
