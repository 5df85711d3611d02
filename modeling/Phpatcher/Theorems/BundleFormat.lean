import Phpatcher.Theorems.IndexInvariant

/-!
# The documented format

The format knows `Na` and `Ni` with one address only. `parse_ed_command` reads
a second one for every letter and drops it for `a` and `i`, so `3,5a` is taken
for `3a`. That is the only difference: `parse` accepts a text outside of the
documented format, and with addresses that are not those of the text, exactly
when an `a` or `i` with two addresses stands in a text that follows the format
otherwise (`format_iff`).
-/

namespace Phpatcher.Theorems

open Phpatcher.Basis Phpatcher.Core

/-- The commands the format lists: a second address only with `c` and `d`. -/
def Supported (c : WrittenCommand) : Prop :=
  c.second = none ∨ c.kind = .change ∨ c.kind = .delete

/-- A text in the documented format. -/
def Documented (canon : Bytes → Bytes) (text : Bytes) : Prop :=
  text = [] ∨
    StartsWithMagic text ∧
      ∃ sections, Document text sections ∧ UniqueTargets canon sections ∧
        ∀ s ∈ sections, ∀ c ∈ s.commands, Supported c

/-- The command has the addresses that are written; one alone is a range of
one line. -/
def CarriesAddresses (c : WrittenCommand) (cmd : EdCommand) : Prop :=
  cmd = { kind := c.kind, start := c.first, end_ := c.second.getD c.first, input := c.input }

/-- Every section of the text is found under its key with the commands that
are written in it. -/
def CarriesText (canon : Bytes → Bytes) (text : Bytes) (set : PatchSet) : Prop :=
  ∀ sections, Document text sections → ∀ s ∈ sections, s.commands ≠ [] →
    ∃ fp, set.find (canon s.path) = some fp ∧
      List.Forall₂ CarriesAddresses s.commands fp.commands

/-- Exactly the documented texts are accepted, with every address written. -/
def FollowsFormat (sorter : EntrySorter) (canon : Bytes → Bytes) (text : Bytes)
    (before : PatchSet) : Prop :=
  ((∃ set, PatchSet.parse sorter canon text before = (set, .ok ())) ↔ Documented canon text) ∧
    ∀ set, PatchSet.parse sorter canon text before = (set, .ok ()) → CarriesText canon text set

/-- A text that follows the format but for an `a` or `i` with two addresses. -/
def RangedInsertion (canon : Bytes → Bytes) (text : Bytes) : Prop :=
  StartsWithMagic text ∧
    ∃ sections, Document text sections ∧ UniqueTargets canon sections ∧
      ∃ s ∈ sections, ∃ c ∈ s.commands,
        c.second.isSome ∧ (c.kind = .append ∨ c.kind = .insert)

/-- What is not supported is an `a` or `i` with two addresses. -/
theorem not_supported_iff {c : WrittenCommand} :
    ¬ Supported c ↔ c.second.isSome ∧ (c.kind = .append ∨ c.kind = .insert) := by
  rcases c with ⟨kind, first, second, input⟩
  cases kind <;> cases second <;> simp [Supported]

theorem Supported.carries {c : WrittenCommand} (h : Supported c) :
    CarriesAddresses c c.command := by
  rcases c with ⟨kind, first, second, input⟩
  simp only [Supported] at h
  cases kind with
  | delete => rfl
  | change => rfl
  | append =>
      obtain rfl : second = none := by simpa using h
      rfl
  | insert =>
      obtain rfl : second = none := by simpa using h
      rfl

theorem not_documented_of_ranged {canon : Bytes → Bytes} {text : Bytes}
    (h : RangedInsertion canon text) : ¬ Documented canon text := by
  obtain ⟨hmagic, sections, hdoc, _, s, hs, c, hc, hranged⟩ := h
  rintro (rfl | ⟨_, sections', hdoc', _, hall⟩)
  · -- the empty text has no sections
    obtain rfl := document_nil_iff.mp hdoc
    exact absurd hs List.not_mem_nil
  · obtain rfl := hdoc.unique hdoc'
    exact not_supported_iff.mpr hranged (hall s hs c hc)

/-- Such a text is accepted all the same. -/
theorem not_followsFormat_of_ranged {canon : Bytes → Bytes} {text : Bytes}
    (h : RangedInsertion canon text) (sorter : EntrySorter) (before : PatchSet) :
    ¬ FollowsFormat sorter canon text before := by
  intro hfollows
  obtain ⟨hmagic, sections, hdoc, hunique, _⟩ := id h
  have hok : PatchSet.parse sorter canon text before = (parsedSet sorter canon sections, .ok ()) :=
    parse_eq_ok.mpr ⟨.inr hmagic, sections, hdoc, hunique, rfl⟩
  exact not_documented_of_ranged h (hfollows.1.mp ⟨_, hok⟩)

/-- **Format.** `parse` accepts exactly the documented texts, and its commands
carry every address written, if and only if no `a` or `i` with two addresses
stands in a text that follows the format otherwise. -/
theorem format_iff (sorter : EntrySorter) (canon : Bytes → Bytes) (text : Bytes)
    (before : PatchSet) :
    FollowsFormat sorter canon text before ↔ ¬ RangedInsertion canon text := by
  constructor
  · intro h hranged
    exact not_followsFormat_of_ranged hranged sorter before h
  · intro hnone
    -- in a text that is accepted every command is supported
    have hsupported : ∀ sections, StartsWithMagic text → Document text sections →
        UniqueTargets canon sections → ∀ s ∈ sections, ∀ c ∈ s.commands, Supported c := by
      intro sections hmagic hdoc hunique s hs c hc
      by_contra hc'
      exact hnone ⟨hmagic, sections, hdoc, hunique, s, hs, c, hc, not_supported_iff.mp hc'⟩
    refine ⟨⟨?_, ?_⟩, ?_⟩
    · rintro ⟨set, hparse⟩
      obtain ⟨hempty | hmagic, sections, hdoc, hunique, _⟩ := parse_eq_ok.mp hparse
      · exact .inl hempty
      · exact .inr ⟨hmagic, sections, hdoc, hunique, hsupported sections hmagic hdoc hunique⟩
    · rintro (rfl | ⟨hmagic, sections, hdoc, hunique, _⟩)
      · exact ⟨{}, rfl⟩
      · exact ⟨parsedSet sorter canon sections,
          parse_eq_ok.mpr ⟨.inr hmagic, sections, hdoc, hunique, rfl⟩⟩
    · intro set hparse sections hdoc s hs hne
      obtain ⟨hstart, sections', hdoc', hunique, rfl⟩ := parse_eq_ok.mp hparse
      obtain rfl := hdoc.unique hdoc'
      refine ⟨s.filePatch, ?_, ?_⟩
      · rw [find_eq_some_iff (parsedSet_indexed sorter canon sections) (parsedSet_strict hunique),
          mem_parsedSet]
        exact ⟨s, hs, hne, rfl⟩
      · rcases hstart with rfl | hmagic
        · obtain rfl := document_nil_iff.mp hdoc
          exact absurd hs List.not_mem_nil
        · rw [FileSection.filePatch, List.forall₂_map_right_iff, List.forall₂_same]
          exact fun c hc => (hsupported sections hmagic hdoc hunique s hs c hc).carries

/-- A text with the line `3,5a`. -/
def rangedText : Bytes := ascii "# phpatcher-ed\n# file: b.php\n3,5a\nx\n.\n"

theorem rangedText_ranged : RangedInsertion id rangedText := by
  have hline : CommandLine (ascii "3,5a") { kind := .append, first := 3, second := some 5 } :=
    @CommandLine.pair (ascii "3") (ascii "5") [] 3 5 97 .append
      ⟨by decide, by decide +kernel, rfl, by decide⟩
      ⟨by decide, by decide +kernel, rfl, by decide⟩ rfl (by simp)
  have hpath : HeaderNames kEdFileHeader (ascii "# file: b.php") (ascii "b.php") :=
    ⟨by decide, ⟨ascii " ", [], rfl, by decide +kernel, by simp⟩, by decide +kernel,
      by decide +kernel⟩
  have hsplit : splitLines rangedText =
      [ascii "# phpatcher-ed", ascii "# file: b.php", ascii "3,5a", ascii "x", [dot]] := by
    decide +kernel
  have hbody : Document rangedText [⟨ascii "b.php", false,
      [{ kind := .append, first := 3, second := some 5, input := pieces [ascii "x"] }]⟩] := by
    rw [Document, hsplit]
    refine .filler (by decide) (by decide) (.inr (.inl (by decide))) (.file hpath ?_)
    exact @Body.block _ [ascii "x"] [] _ [] [] hline rfl (by decide) .nil
  refine ⟨looksLikeEdBundle_iff.mp (by decide +kernel), _, hbody, List.pairwise_singleton _ _, ?_⟩
  exact ⟨_, List.mem_singleton_self _, _, List.mem_singleton_self _, rfl, .inl rfl⟩

/-- The second address of `3,5a` is lost. -/
theorem format_fails_on_ranged_append :
    let set := (PatchSet.parse (Sorter.stable Prod.fst) id rangedText {}).1
    set.find (ascii "b.php") =
        some { commands := [{ kind := .append, start := 3, end_ := 3
                              input := [.literal (ascii "x")] }] } ∧
      ¬ FollowsFormat (Sorter.stable Prod.fst) id rangedText {} :=
  ⟨by decide +kernel, not_followsFormat_of_ranged rangedText_ranged _ _⟩

end Phpatcher.Theorems
