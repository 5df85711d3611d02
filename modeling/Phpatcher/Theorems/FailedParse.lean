import Phpatcher.Core.Prefixes

/-!
# What a failed parse leaves

Nothing of what the set held before, and no basename filter; but the sections
that were complete when the parse failed stay in the index
(`failed_parse_leaves`).
-/

namespace Phpatcher.Theorems

open Phpatcher.Basis Phpatcher.Core

/-- The sections that are complete when a parse of the text fails: none without
the magic line; all of them when only a target is named twice; else those in
front of the last header that can be read. -/
inductive CompleteSections (canon : Bytes → Bytes) (text : Bytes) : List FileSection → Prop
  | noMagic : ¬ StartsWithMagic text → CompleteSections canon text []
  | malformed {closed : List Bytes} {sections : List FileSection} :
      StartsWithMagic text → (∀ ss, ¬ Document text ss) → LastClosed (splitLines text) closed →
      Body false closed [] sections → CompleteSections canon text sections
  | duplicate {sections : List FileSection} :
      StartsWithMagic text → Document text sections → ¬ UniqueTargets canon sections →
      CompleteSections canon text sections

/-- The index a failed parse leaves. -/
theorem index_of_failed_parse {sorter : EntrySorter} {canon : Bytes → Bytes} {text : Bytes}
    {before set : PatchSet} {error : Bytes}
    (h : PatchSet.parse sorter canon text before = (set, .error error)) :
    set.basenames = [] ∧ ∃ sections, CompleteSections canon text sections ∧
      set.index.Perm (entriesOf canon sections) := by
  rw [PatchSet.parse] at h
  split at h
  · simp at h
  split at h
  next hmagic =>
    obtain rfl := (Prod.mk.inj h).1
    refine ⟨rfl, [], .noMagic ?_, .refl _⟩
    rw [← looksLikeEdBundle_iff]
    simpa using hmagic
  next hmagic =>
    have hstart : StartsWithMagic text := looksLikeEdBundle_iff.mp (by simpa using hmagic)
    rw [parseEdBundle] at h
    rcases hscan : scanLines canon {} (splitLines text) with ⟨st, e | ⟨⟩⟩
    · -- a line was rejected
      rw [hscan] at h
      obtain rfl := (Prod.mk.inj h).1
      obtain ⟨hnone, closed, sections, hlast, hbody, hindex⟩ := index_of_scan_error hscan
      exact ⟨rfl, sections, .malformed hstart hnone hlast hbody, by rw [hindex]⟩
    · simp only [hscan] at h
      split at h
      next hin =>
        -- a block was not terminated
        obtain rfl := (Prod.mk.inj h).1
        obtain ⟨closed, sections, hlast, hbody, hindex⟩ := index_of_scan hscan
        refine ⟨rfl, sections, .malformed hstart ?_ hlast hbody, by rw [hindex]⟩
        intro ss hdoc
        rw [inInput_of_body hdoc hscan] at hin
        simp at hin
      next hin =>
        obtain ⟨sections, hdoc, hindex⟩ := document_of_scan hscan (by simpa using hin)
        rw [hindex, finalize] at h
        simp only at h
        split at h
        next key hduplicate =>
          obtain rfl := (Prod.mk.inj h).1
          refine ⟨rfl, sections, .duplicate hstart hdoc ?_, sorter.perm _⟩
          intro hunique
          have hpairs : (entriesOf canon sections).Pairwise fun a b => a.1 ≠ b.1 := by
            rw [entriesOf_eq, List.pairwise_map]
            exact hunique
          rw [← firstDuplicate_run sorter, hduplicate] at hpairs
          simp at hpairs
        next => simp at h

/-- **A failed parse.** Whatever the set held before, afterwards the filter is
empty and the index holds the sections that were complete; so it is empty, and
nothing is found in it, unless one of these has commands. -/
theorem failed_parse_leaves {sorter : EntrySorter} {canon : Bytes → Bytes} {text : Bytes}
    {before set : PatchSet} {error : Bytes}
    (h : PatchSet.parse sorter canon text before = (set, .error error)) :
    (∀ basename, set.hasBasename basename = false) ∧
      ∃ sections, CompleteSections canon text sections ∧
        set.index.Perm (entriesOf canon sections) ∧
        (set.fileCount = 0 ↔ ∀ s ∈ sections, s.commands = []) ∧
        (set.fileCount = 0 → ∀ path, set.find path = none) := by
  obtain ⟨hbasenames, sections, hcomplete, hperm⟩ := index_of_failed_parse h
  refine ⟨fun basename => ?_, sections, hcomplete, hperm, ?_, fun hcount path => ?_⟩
  · rw [PatchSet.hasBasename, hbasenames]
    rfl
  · rw [PatchSet.fileCount, hperm.length_eq, List.length_eq_zero_iff, entriesOf_eq,
      List.map_eq_nil_iff, List.filter_eq_nil_iff]
    simp
  · rw [PatchSet.fileCount, List.length_eq_zero_iff] at hcount
    rw [PatchSet.find, hcount]
    rfl

/-- A section for `a`, then one with a line that is no command. -/
def secondMalformed : Bytes := ascii "# phpatcher-ed\n# file: a\n1d\n# file: b\n1x\n"

/-- The section for `a` is left. -/
theorem failed_parse_keeps_section :
    let out := PatchSet.parse (Sorter.stable Prod.fst) id secondMalformed {}
    out.2 = .error (ascii "invalid ed command: 1x") ∧ out.1.fileCount = 1 ∧
      out.1.find (ascii "a") = some { commands := [{ kind := .delete, start := 1, end_ := 1 }] } := by
  decide +kernel

/-- The filter is empty, though. -/
theorem failed_parse_leaves_malformed :
    (PatchSet.parse (Sorter.stable Prod.fst) id secondMalformed {}).1.hasBasename (ascii "a") =
      false :=
  (@failed_parse_leaves (Sorter.stable Prod.fst) id secondMalformed {} _
    (ascii "invalid ed command: 1x") (by decide +kernel)).1 (ascii "a")

end Phpatcher.Theorems
