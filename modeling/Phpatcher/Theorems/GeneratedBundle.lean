import Phpatcher.Core.Apply
import Phpatcher.Theorems.IndexInvariant
import Phpatcher.Theorems.PlainText
import Phpatcher.Tools.Generate

/-!
# Generated bundles are read back

In plain mode the section of a file is a derivation of the bundle grammar:
one command for each change, its added lines as the pieces the block reader
makes of them. Nothing is asked of an added line but that it does not end its
block.
-/

namespace Phpatcher.Theorems

open Phpatcher.Basis Phpatcher.Core Phpatcher.Tools

/-- The command a change is read back as. -/
def readCommand (c : Change) : EdCommand := { commandOf c with input := pieces c.added }

/-- Without references in its added lines, a change comes back as it is. -/
theorem readCommand_eq {c : Change} (h : ∀ line ∈ c.added, parseRDirective line = none) :
    readCommand c = commandOf c := by
  rw [readCommand, pieces_eq_literal h]
  by_cases hcount : c.oldCount = 0
  · simp [commandOf, hcount]
  · by_cases hadded : c.added = [] <;> simp [commandOf, hcount, hadded]

/-- The references a change comes back with. -/
theorem commandRefs_readCommand (c : Change) :
    commandRefs (readCommand c) = c.added.filterMap parseRDirective := by
  have hrefs : ∀ lines : List Bytes,
      inputRefs (pieces lines) = lines.filterMap parseRDirective := by
    intro lines
    rw [inputRefs, pieces, List.filterMap_map]
    refine List.filterMap_congr fun line _ => ?_
    cases hline : parseRDirective line <;> simp [parseEdInputPiece, hline]
  by_cases hcount : c.oldCount = 0
  · simpa [commandRefs, readCommand, commandOf, hcount] using hrefs c.added
  · by_cases hadded : c.added = []
    · simp [commandRefs, readCommand, commandOf, hcount, hadded]
    · simpa [commandRefs, readCommand, commandOf, hcount, hadded] using hrefs c.added

/-- The lines of a change are one command. -/
theorem body_change {c : Change} (hread : Readable c) (hdot : [dot] ∉ c.added)
    {lines : List Bytes} {cs : List WrittenCommand} {ss : List FileSection}
    (hrest : Body true lines cs ss) :
    ∃ w, w.command = readCommand c ∧ Body true (plainLines c ++ lines) (w :: cs) ss := by
  obtain ⟨w, hline, hcommand, hneeds⟩ := parseEdCommand_iff.mp (parseEdCommand_header hread)
  by_cases hdel : c.oldCount ≠ 0 ∧ c.added = []
  · have hkind : (commandOf c).kind.needsInput = false := by
      simp [commandOf, hdel.1, hdel.2, Kind.needsInput]
    refine ⟨w, ?_, ?_⟩
    · rw [← hcommand, readCommand, hdel.2]
      rfl
    · rw [plainLines, if_pos hdel]
      exact .command hline (hneeds.symm.trans hkind) hrest
  · have hkind : (commandOf c).kind.needsInput = true := by
      by_cases hcount : c.oldCount = 0
      · simp [commandOf, hcount, Kind.needsInput]
      · have hne : c.added ≠ [] := fun e => hdel ⟨hcount, e⟩
        simp [commandOf, hcount, hne, Kind.needsInput]
    refine ⟨{ w with input := pieces c.added }, ?_, ?_⟩
    · have hset : ({ w with input := pieces c.added } : WrittenCommand).command =
          { w.command with input := pieces c.added } := rfl
      rw [hset, ← hcommand, readCommand]
    · rw [plainLines, if_neg hdel]
      simp only [List.cons_append, List.append_assoc, List.nil_append]
      exact .block hline (hneeds.symm.trans hkind) hdot hrest

/-- So are the lines of several changes, in order. -/
theorem body_changes {changes : List Change} (hread : ∀ c ∈ changes, Readable c)
    (hdot : ∀ c ∈ changes, [dot] ∉ c.added) :
    ∃ ws, ws.map WrittenCommand.command = changes.map readCommand ∧
      Body true (changes.flatMap plainLines) ws [] := by
  induction changes with
  | nil => exact ⟨[], rfl, .nil⟩
  | cons c changes ih =>
      rw [List.forall_mem_cons] at hread hdot
      obtain ⟨ws, hws, hbody⟩ := ih hread.2 hdot.2
      obtain ⟨w, hw, hbody'⟩ := body_change hread.1 hdot.1 hbody
      exact ⟨w :: ws, by rw [List.map_cons, List.map_cons, hw, hws], hbody'⟩

/-- A path that a section header can carry: the header is one line, and blanks at its
ends are not part of the path. Any other path is written as it is, too, and the line is
read as the header of another file or as none. -/
structure PlainPath (path : Bytes) : Prop where
  ne_nil : path ≠ []
  oneLine : newline ∉ path
  first : ∀ c, path.head? = some c → isSkipped c = false
  last : ∀ c, path.getLast? = some c → isBlank c = false

theorem plainPath_iff {path : Bytes} : PlainPath path ↔
    (!path.isEmpty && !path.contains newline && path.head?.all (fun c => !isSkipped c) &&
      path.getLast?.all (fun c => !isBlank c)) = true := by
  simp only [Bool.and_eq_true, Bool.not_eq_true', List.isEmpty_eq_false_iff,
    List.contains_eq_mem, decide_eq_false_iff_not, Option.all_eq_true]
  constructor
  · exact fun h => ⟨⟨⟨h.ne_nil, h.oneLine⟩, h.first⟩, h.last⟩
  · rintro ⟨⟨⟨hne, hline⟩, hfirst⟩, hlast⟩
    exact ⟨hne, hline, hfirst, hlast⟩

instance (path : Bytes) : Decidable (PlainPath path) := decidable_of_iff _ plainPath_iff.symm

/-- Such a path. -/
structure HeaderPath where
  text : Bytes
  plain : PlainPath text

/-- The header of a section is read as naming its path where the path has no blanks at
its ends, and only there. -/
theorem headerNames_iff {header path : Bytes} (hline : newline ∉ path) :
    HeaderNames header (header ++ ascii " " ++ path) path ↔ PlainPath path := by
  constructor
  · exact fun h => ⟨h.ne_nil, hline, h.first, h.last⟩
  · exact fun h => ⟨h.ne_nil, ⟨ascii " ", [], by simp, by decide +kernel, by simp⟩, h.first, h.last⟩

/-- The two comment lines are passed over. -/
theorem body_comments (revs : Revisions) {lines : List Bytes} {ss : List FileSection}
    (h : Body false lines [] ss) : Body false (revs.comments ++ lines) [] ss :=
  .filler rfl rfl (isIgnored_iff.mp rfl) (.filler rfl rfl (isIgnored_iff.mp rfl) h)

theorem newline_not_mem_comments (revs : Revisions) : ∀ line ∈ revs.comments, newline ∉ line := by
  have hsplit : ∀ a b : Bytes, newline ∉ a → newline ∉ b → newline ∉ a ++ b := by
    intro a b ha hb hmem
    rcases List.mem_append.mp hmem with hmem | hmem
    · exact ha hmem
    · exact hb hmem
  intro line hline
  simp only [Revisions.comments, List.mem_cons, List.not_mem_nil, or_false] at hline
  rcases hline with rfl | rfl
  · decide
  · refine hsplit _ _ (hsplit _ _ (hsplit _ _ (by decide +kernel) revs.base_oneLine) ?_) (by decide)
    split
    · simp
    · exact hsplit _ _ (by decide) revs.target_oneLine

/-- A bundle is parsed into its sections. -/
theorem parse_lines (sorter : EntrySorter) (canon : Bytes → Bytes) (revs : Revisions)
    (before : PatchSet) {lines : List Bytes} (hlines : ∀ line ∈ lines, newline ∉ line)
    {ss : List FileSection} (hbody : Body false lines [] ss) (hunique : UniqueTargets canon ss) :
    PatchSet.parse sorter canon (unlines (revs.comments ++ lines)) before =
      (parsedSet sorter canon ss, .ok ()) := by
  have hsplit : splitLines (unlines (revs.comments ++ lines)) = revs.comments ++ lines := by
    apply splitLines_unlines
    rw [List.forall_mem_append]
    exact ⟨newline_not_mem_comments revs, hlines⟩
  have hdoc : Document (unlines (revs.comments ++ lines)) ss := by
    rw [Document, hsplit]
    exact body_comments revs hbody
  have hmagic : StartsWithMagic (unlines (revs.comments ++ lines)) :=
    ⟨[], _, _, hsplit, by simp, by decide, by decide⟩
  exact parse_eq_ok.mpr ⟨.inr hmagic, ss, hdoc, hunique, rfl⟩

/-- A bundle with one section is parsed, and the section is found. -/
theorem parse_section (sorter : EntrySorter) (canon : Bytes → Bytes) (revs : Revisions)
    (before : PatchSet) {lines : List Bytes} (hlines : ∀ line ∈ lines, newline ∉ line)
    {s : FileSection} (hbody : Body false lines [] [s]) (hne : s.commands ≠ []) :
    ∃ set, PatchSet.parse sorter canon (unlines (revs.comments ++ lines)) before = (set, .ok ()) ∧
      set.find (canon s.path) = some s.filePatch := by
  have hunique : UniqueTargets canon [s] := List.Pairwise.filter _ (List.pairwise_singleton _ _)
  refine ⟨parsedSet sorter canon [s], parse_lines sorter canon revs before hlines hbody hunique, ?_⟩
  rw [find_eq_some_iff (parsedSet_indexed sorter canon [s]) (parsedSet_strict hunique),
    mem_parsedSet]
  exact ⟨s, List.mem_singleton_self s, hne, rfl⟩

/-- A bundle without sections changes no file. -/
theorem parse_comments (sorter : EntrySorter) (canon : Bytes → Bytes) (revs : Revisions)
    (before : PatchSet) :
    PatchSet.parse sorter canon (unlines revs.comments) before = ({}, .ok ()) := by
  have hparse := @parse_lines sorter canon revs before [] (by simp) [] .nil .nil
  rw [List.append_nil] at hparse
  rw [hparse, parsedSet_nil]

theorem newline_not_mem_path {header path : Bytes} (hheader : newline ∉ header)
    (hpath : PlainPath path) : newline ∉ header ++ path := by
  rw [List.mem_append, not_or]
  exact ⟨hheader, hpath.oneLine⟩

/-- **A modified file.** Its section is read back as one command per change,
from the last change to the first. -/
theorem parse_modified (sorter : EntrySorter) (canon : Bytes → Bytes) (revs : Revisions)
    (before : PatchSet) (path : HeaderPath) {changes : List Change} (hchanges : changes ≠ [])
    (hread : ∀ c ∈ changes, Readable c)
    (hline : ∀ c ∈ changes, ∀ line ∈ c.added, newline ∉ line)
    (hdot : ∀ c ∈ changes, [dot] ∉ c.added) :
    ∃ set, PatchSet.parse sorter canon
        (bundleText emitAddedPlain revs [.modified path.text changes]) before = (set, .ok ()) ∧
      set.find (canon path.text) = some { commands := changes.reverse.map readCommand } := by
  have hreverse : ∀ {p : Change → Prop}, (∀ c ∈ changes, p c) → ∀ c ∈ changes.reverse, p c :=
    fun h c hc => h c (List.mem_reverse.mp hc)
  obtain ⟨ws, hws, hbody⟩ := body_changes (hreverse hread) (hreverse hdot)
  have htext : bundleText emitAddedPlain revs [.modified path.text changes] =
      unlines (revs.comments ++
        (ascii "# file: " ++ path.text) :: changes.reverse.flatMap plainLines) := by
    have hemit : changes.reverse.flatMap (emitChange emitAddedPlain) =
        unlines (changes.reverse.flatMap plainLines) := by
      rw [unlines, List.flatMap_assoc]
      exact List.flatMap_congr fun c _ => emitChange_plain c
    simp [bundleText, Delta.text, hchanges, hemit]
  have hlines : ∀ line ∈ (ascii "# file: " ++ path.text) :: changes.reverse.flatMap plainLines,
      newline ∉ line := by
    rw [List.forall_mem_cons]
    refine ⟨newline_not_mem_path (by decide) path.plain, ?_⟩
    intro line hmem
    rw [List.mem_flatMap] at hmem
    obtain ⟨c, hc, hmem⟩ := hmem
    exact newline_not_mem_plainLines (hreverse hline c hc) line hmem
  have hws' : ws ≠ [] := by
    rintro rfl
    exact hchanges (by simpa using hws.symm)
  obtain ⟨set, hparse, hfind⟩ := parse_section sorter canon revs before hlines
    (Body.file ((headerNames_iff path.plain.oneLine).mpr path.plain) hbody) hws'
  rw [FileSection.filePatch, hws] at hfind
  exact ⟨set, by rw [htext]; exact hparse, hfind⟩

/-- **A created file.** Its section is read back as one append to nothing. -/
theorem parse_added (sorter : EntrySorter) (canon : Bytes → Bytes) (revs : Revisions)
    (before : PatchSet) (path : HeaderPath) {content : Bytes}
    (hdot : [dot] ∉ corpusSplitLines content) :
    ∃ set, PatchSet.parse sorter canon
        (bundleText emitAddedPlain revs [.added path.text content]) before = (set, .ok ()) ∧
      set.find (canon path.text) =
        some { commands := [{ kind := .append, input := pieces (corpusSplitLines content) }]
               creates := true } := by
  have htext : bundleText emitAddedPlain revs [.added path.text content] =
      unlines (revs.comments ++
        (ascii "# newfile: " ++ path.text) :: (corpusSplitLines content ++ [dot] :: [])) := by
    have hdotline : ascii ".\n" = [dot, newline] := rfl
    simp [bundleText, Delta.text, emitNewfile, emitAddedPlain, hdotline]
  have hlines : ∀ line ∈ (ascii "# newfile: " ++ path.text) ::
      (corpusSplitLines content ++ [dot] :: []), newline ∉ line := by
    rw [List.forall_mem_cons, List.forall_mem_append]
    refine ⟨newline_not_mem_path (by decide) path.plain,
      newline_not_mem_corpusSplitLines content, ?_⟩
    rw [List.forall_mem_singleton]
    decide
  obtain ⟨set, hparse, hfind⟩ := parse_section sorter canon revs before hlines
    (Body.newFile ((headerNames_iff path.plain.oneLine).mpr path.plain) hdot .nil) (by simp)
  exact ⟨set, by rw [htext]; exact hparse, hfind⟩

/-- The path and the revisions of the bundles that serve as examples. -/
def samplePath : HeaderPath := ⟨ascii "a.php", by decide +kernel⟩

def sampleRevisions : Revisions where
  base := ascii "HEAD"
  base_oneLine := by decide
  target_oneLine := by decide

end Phpatcher.Theorems
