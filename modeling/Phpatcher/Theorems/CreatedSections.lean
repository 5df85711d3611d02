import Phpatcher.Core.Prefixes
import Phpatcher.Theorems.IndexInvariant

/-!
# Sections of created files

A `# newfile:` header is followed by the content of the file, up to a lone dot.
The section stays open behind it: a command line there is added to the section,
and the created file is no longer its content. So a created file is one append
exactly in texts without such lines (`single_append_iff`).
-/

namespace Phpatcher.Theorems

open Phpatcher.Basis Phpatcher.Core

/-- Every created file of the index is one append of the content that stands
behind its header. -/
def SingleAppends (canon : Bytes → Bytes) (text : Bytes) (set : PatchSet) : Prop :=
  ∀ e ∈ set.index, e.2.creates = true → ∃ path content behind,
    ContentAt false (splitLines text) path content behind ∧ e.1 = canon path ∧
      e.2.commands = [{ kind := .append, start := 0, end_ := 0, input := pieces content }]

/-- Behind the content of a created file there is no command up to the next
header. -/
def NothingBehindContents (text : Bytes) : Prop :=
  ∀ path content behind, ContentAt false (splitLines text) path content behind →
    ∀ line ∈ upToHeader behind, IsFiller line

/-- **One append.** The created files of an accepted text are single appends of
their contents exactly when nothing but lines that are passed over stands
between a content and the next header. -/
theorem single_append_iff {sorter : EntrySorter} {canon : Bytes → Bytes} {text : Bytes}
    {before set : PatchSet} (h : PatchSet.parse sorter canon text before = (set, .ok ())) :
    SingleAppends canon text set ↔ NothingBehindContents text := by
  obtain ⟨_, sections, hdoc, _, rfl⟩ := parse_eq_ok.mp h
  constructor
  · intro hsingle path content behind hcontent
    obtain ⟨cs', ss', hmem, hbehind⟩ := hcontent.fileSection hdoc
    rw [← hbehind.commands_eq_nil]
    -- the entry of the section is a single append, so there is no second command
    obtain ⟨_, _, _, _, _, hcommands⟩ := hsingle _
      (mem_parsedSet.mpr ⟨_, hmem, by simp, rfl⟩) rfl
    simpa [FileSection.filePatch] using congrArg List.length hcommands
  · intro hnothing e he hcreates
    obtain ⟨s, hs, _, rfl⟩ := mem_parsedSet.mp he
    obtain ⟨content, behind, cs', ss', hcontent, hcommands, hbehind⟩ :=
      Body.contentAt hdoc s hs hcreates
    obtain rfl := hbehind.commands_eq_nil.mpr (hnothing _ _ _ hcontent)
    refine ⟨s.path, content, behind, hcontent, rfl, ?_⟩
    simp only [FileSection.filePatch, hcommands]
    rfl

/-- A created file with a comment behind its content. -/
theorem single_append_iff_comment :
    let text := ascii "# phpatcher-ed\n# newfile: v.php\n<?php\n.\n# done\n"
    let set := (PatchSet.parse (Sorter.stable Prod.fst) id text {}).1
    SingleAppends id text set ↔ NothingBehindContents text :=
  @single_append_iff (Sorter.stable Prod.fst) id _ {} _ (by decide +kernel)

/-- A created file whose section goes on with a second append. -/
theorem second_append_accepted :
    let text := ascii "# phpatcher-ed\n# newfile: v.php\n<?php\n.\n0a\nx\n.\n"
    (PatchSet.parse (Sorter.stable Prod.fst) id text {}).2 = .ok () ∧
      ¬ SingleAppends id text (PatchSet.parse (Sorter.stable Prod.fst) id text {}).1 := by
  refine ⟨by decide +kernel, fun hsingle => ?_⟩
  have hentry : (ascii "v.php", { creates := true, commands :=
        [{ kind := .append, start := 0, end_ := 0, input := [.literal (ascii "<?php")] },
          { kind := .append, start := 0, end_ := 0, input := [.literal (ascii "x")] }] }) ∈
      (PatchSet.parse (Sorter.stable Prod.fst) id
        (ascii "# phpatcher-ed\n# newfile: v.php\n<?php\n.\n0a\nx\n.\n") {}).1.index := by
    decide +kernel
  obtain ⟨_, _, _, _, _, hcommands⟩ := hsingle _ hentry rfl
  simp at hcommands

end Phpatcher.Theorems
