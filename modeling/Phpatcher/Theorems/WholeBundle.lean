import Phpatcher.Theorems.Printers
import Phpatcher.Theorems.Terminators

/-!
# A bundle for a whole change set

The bundle that `changes.cpp` prints for any number of files, with the added lines
written in any way that the applier can read back (an `Emission`): it is parsed into
one section for each file that changes, in order, and each section makes of the old
bytes what the diff says.
-/

namespace Phpatcher.Theorems

open Phpatcher.Basis Phpatcher.Core Phpatcher.Glue Phpatcher.Tools

variable {baseDir : Bytes} {disk : Disk} {em : Emission baseDir disk}

/-! ## Changes -/

/-- The lines `emit_change` writes. -/
def Emission.changeLines (em : Emission baseDir disk) (c : Change) : List Bytes :=
  if c.oldCount ≠ 0 ∧ c.added = [] then [c.header] else c.header :: (em.lines c.added ++ [[dot]])

theorem emitChange_print (c : Change) : emitChange em.print c = unlines (em.changeLines c) := by
  unfold emitChange Emission.changeLines
  split
  · simp
  · have hdot : ascii ".\n" = [dot, newline] := rfl
    simp [Emission.print, hdot]

/-- The command they are read back as. -/
def Emission.command (em : Emission baseDir disk) (c : Change) : EdCommand :=
  if (commandOf c).kind.needsInput then
    { commandOf c with input := (em.emit c.added).map pieceOf }
  else commandOf c

/-- A change takes input unless it only deletes. -/
theorem needsInput_commandOf (c : Change) :
    (commandOf c).kind.needsInput = true ↔ ¬ (c.oldCount ≠ 0 ∧ c.added = []) := by
  by_cases hcount : c.oldCount = 0
  · simp [commandOf, hcount, Kind.needsInput]
  · by_cases hadded : c.added = [] <;> simp [commandOf, hcount, hadded, Kind.needsInput]

/-- The lines of a change are one command. -/
theorem body_written {c : Change} (hread : Readable c) (hadded : Writable c.added)
    {lines : List Bytes} {cs : List WrittenCommand} {ss : List FileSection}
    (hrest : Body true lines cs ss) :
    ∃ w, w.command = em.command c ∧ Body true (em.changeLines c ++ lines) (w :: cs) ss := by
  obtain ⟨w, hline, hcommand, hneeds⟩ := parseEdCommand_iff.mp (parseEdCommand_header hread)
  have hsame : ({ commandOf c with input := [] } : EdCommand) = w.command := hcommand
  by_cases hdel : c.oldCount ≠ 0 ∧ c.added = []
  · have hkind : (commandOf c).kind.needsInput = false := by
      rw [Bool.eq_false_iff]
      exact fun h => (needsInput_commandOf c).mp h hdel
    refine ⟨w, ?_, ?_⟩
    · rw [Emission.command, hkind, ← hsame]
      simp [commandOf, hdel.1, hdel.2]
    · rw [Emission.changeLines, if_pos hdel]
      exact .command hline (hneeds.symm.trans hkind) hrest
  · have hkind : (commandOf c).kind.needsInput = true := (needsInput_commandOf c).mpr hdel
    refine ⟨{ w with input := pieces (em.lines c.added) }, ?_, ?_⟩
    · have hset : ({ w with input := pieces (em.lines c.added) } : WrittenCommand).command =
          { w.command with input := pieces (em.lines c.added) } := rfl
      rw [hset, ← hsame, Emission.command, if_pos hkind, pieces_lines hadded]
    · rw [Emission.changeLines, if_neg hdel]
      simp only [List.cons_append, List.append_assoc, List.nil_append]
      exact .block hline (hneeds.symm.trans hkind) (dot_not_mem_lines hadded) hrest

/-- So are the lines of several changes, in order. -/
theorem bodies_written {changes : List Change} (hread : ∀ c ∈ changes, Readable c)
    (hadded : ∀ c ∈ changes, Writable c.added) {lines : List Bytes} {cs : List WrittenCommand}
    {ss : List FileSection} (hrest : Body true lines cs ss) :
    ∃ ws, ws.map WrittenCommand.command = changes.map em.command ∧
      Body true (changes.flatMap em.changeLines ++ lines) (ws ++ cs) ss := by
  induction changes with
  | nil => exact ⟨[], rfl, hrest⟩
  | cons c changes ih =>
      rw [List.forall_mem_cons] at hread hadded
      obtain ⟨ws, hws, hbody⟩ := ih hread.2 hadded.2
      obtain ⟨w, hw, hbody'⟩ := @body_written _ _ em _ hread.1 hadded.1 _ _ _ hbody
      refine ⟨w :: ws, by rw [List.map_cons, List.map_cons, hw, hws], ?_⟩
      rw [List.flatMap_cons, List.append_assoc]
      exact hbody'

/-! ## Files -/

/-- A file of a change set: a new one with its content, or one with a content in
both revisions. -/
inductive FileChange where
  | added (path : Bytes) (content : Bytes)
  | modified (path : Bytes) {old new : Bytes} (d : Diff old new)

namespace FileChange

def path : FileChange → Bytes
  | added path _ | modified path _ => path

/-- What the generator is given. -/
def delta : FileChange → Delta
  | added path content => .added path content
  | modified path d => .modified path (diffBuffers d.callbacks)

/-- The lines that are written. -/
def addedLines : FileChange → List Bytes
  | added _ content => corpusSplitLines content
  | modified _ d => (diffBuffers d.callbacks).flatMap Change.added

/-- There is a section for the file. -/
def hasSection : FileChange → Bool
  | added _ _ => true
  | modified _ d => !(diffBuffers d.callbacks).isEmpty

/-- What the section is read back as. -/
def filePatch (em : Emission baseDir disk) : FileChange → FilePatch
  | added _ content =>
      { commands := [{ kind := .append, input := (em.emit (corpusSplitLines content)).map pieceOf }]
        creates := true }
  | modified _ d => { commands := (diffBuffers d.callbacks).reverse.map em.command }

/-- The lines of the section. -/
def lines (em : Emission baseDir disk) : FileChange → List Bytes
  | added path content =>
      (ascii "# newfile: " ++ path) :: (em.lines (corpusSplitLines content) ++ [[dot]])
  | modified path d =>
      if diffBuffers d.callbacks = [] then []
      else (ascii "# file: " ++ path) ::
        (diffBuffers d.callbacks).reverse.flatMap em.changeLines

/-- A bundle can carry the change: a header its path, and text its lines. -/
structure Portable (change : FileChange) : Prop where
  path : PlainPath change.path
  added : Writable change.addedLines

instance (change : FileChange) : Decidable change.Portable :=
  decidable_of_iff (PlainPath change.path ∧ Writable change.addedLines)
    ⟨fun h => ⟨h.1, h.2⟩, fun h => ⟨h.path, h.added⟩⟩

end FileChange

theorem text_delta (change : FileChange) :
    change.delta.text em.print = unlines (change.lines em) := by
  cases change with
  | added path content =>
      have hdot : ascii ".\n" = [dot, newline] := rfl
      simp [FileChange.delta, Delta.text, emitNewfile, FileChange.lines, Emission.print, hdot]
  | modified path d =>
      have hemit : (diffBuffers d.callbacks).reverse.flatMap (emitChange em.print) =
          unlines ((diffBuffers d.callbacks).reverse.flatMap em.changeLines) := by
        rw [unlines, List.flatMap_assoc]
        exact List.flatMap_congr fun c _ => emitChange_print c
      simp only [FileChange.delta, Delta.text, FileChange.lines]
      split
      · rfl
      · simp [hemit]

/-- An added line comes from a line of the diff, so it is one. -/
theorem newline_not_mem_addedLines (change : FileChange) :
    ∀ line ∈ change.addedLines, newline ∉ line := by
  cases change with
  | added path content => exact newline_not_mem_corpusSplitLines content
  | modified path d =>
      intro line hline hmem
      obtain ⟨c, hc, hadded⟩ := List.mem_flatMap.mp hline
      obtain ⟨raw, hraw, rfl⟩ := (mem_added_iff d).mp ⟨c, hc, hadded⟩
      exact chomp_mem_splitLines d hraw (mem_of_mem_dropLastByte hmem)

theorem newline_not_mem_fileLines {change : FileChange} (hpath : PlainPath change.path) :
    ∀ line ∈ change.lines em, newline ∉ line := by
  have hadded := newline_not_mem_addedLines change
  cases change with
  | added path content =>
      simp only [FileChange.lines, List.forall_mem_cons, List.forall_mem_append]
      exact ⟨newline_not_mem_path (by decide) hpath, newline_not_mem_lines hadded, by decide,
        by simp⟩
  | modified path d =>
      simp only [FileChange.lines]
      split
      · simp
      · rw [List.forall_mem_cons]
        refine ⟨newline_not_mem_path (by decide) hpath, fun line hline => ?_⟩
        obtain ⟨c, hc, hline⟩ := List.mem_flatMap.mp hline
        have hc' := List.mem_reverse.mp hc
        unfold Emission.changeLines at hline
        split at hline
        · rw [List.mem_singleton.mp hline]
          exact newline_not_mem_header c
        · simp only [List.mem_cons, List.mem_append, List.not_mem_nil, or_false] at hline
          rcases hline with rfl | hline | rfl
          · exact newline_not_mem_header c
          · exact newline_not_mem_lines
              (fun l hl => hadded l (List.mem_flatMap.mpr ⟨c, hc', hl⟩)) line hline
          · decide

theorem writable_of_mem {changes : List Change} (h : Writable (changes.flatMap Change.added)) :
    ∀ c ∈ changes, Writable c.added := fun c hc line hline =>
  h line (List.mem_flatMap.mpr ⟨c, hc, hline⟩)

/-- The section of a file, in front of others. -/
theorem body_file {change : FileChange} (hportable : change.Portable)
    (hsection : change.hasSection = true) {lines : List Bytes} {ss : List FileSection}
    (hrest : Body true lines [] ss) (opened : Bool) :
    ∃ s : FileSection, s.path = change.path ∧ s.filePatch = change.filePatch em ∧
      s.commands ≠ [] ∧ Body opened (change.lines em ++ lines) [] (s :: ss) := by
  have hheader : ∀ {header : Bytes},
      HeaderNames header (header ++ ascii " " ++ change.path) change.path :=
    (headerNames_iff hportable.path.oneLine).mpr hportable.path
  cases change with
  | added path content =>
      have hbody := @Body.newFile opened (ascii "# newfile: " ++ path) path
        (em.lines (corpusSplitLines content)) lines [] ss hheader
        (dot_not_mem_lines hportable.added) hrest
      refine ⟨⟨path, true, [contentCommand (em.lines (corpusSplitLines content))]⟩, rfl, ?_,
        List.cons_ne_nil _ _, ?_⟩
      · have hpieces := @pieces_lines _ _ em _ hportable.added
        rw [FileSection.filePatch, FileChange.filePatch]
        rw [FileChange.addedLines] at hpieces
        rw [← hpieces]
        rfl
      · simp only [FileChange.lines, List.cons_append, List.append_assoc, List.nil_append]
        exact hbody
  | modified path d =>
      have hchanges : diffBuffers d.callbacks ≠ [] := by
        simpa [FileChange.hasSection] using hsection
      have hwritable := writable_of_mem hportable.added
      obtain ⟨ws, hws, hbody⟩ := @bodies_written _ _ em (diffBuffers d.callbacks).reverse
        (readable_diff d) (fun c hc => hwritable c (List.mem_reverse.mp hc)) _ _ _ hrest
      rw [List.append_nil] at hbody
      refine ⟨⟨path, false, ws⟩, rfl, ?_, ?_, ?_⟩
      · rw [FileSection.filePatch, FileChange.filePatch, hws]
      · rintro rfl
        exact hchanges (by simpa using hws.symm)
      · rw [FileChange.lines, if_neg hchanges]
        exact .file hheader hbody

theorem lines_of_no_section {change : FileChange} (h : change.hasSection = false) :
    change.lines em = [] := by
  cases change with
  | added => cases h
  | modified path d =>
      have hnone : diffBuffers d.callbacks = [] := by simpa [FileChange.hasSection] using h
      rw [FileChange.lines, if_pos hnone]

/-- The sections of a bundle. -/
theorem body_files {changes : List FileChange}
    (hportable : ∀ change ∈ changes, change.Portable) (opened : Bool) :
    ∃ ss : List FileSection, Body opened (changes.flatMap (FileChange.lines em)) [] ss ∧
      (∀ s ∈ ss, s.commands ≠ []) ∧
      ss.map (fun s => (s.path, s.filePatch)) =
        (changes.filter FileChange.hasSection).map fun change =>
          (change.path, change.filePatch em) := by
  induction changes generalizing opened with
  | nil => exact ⟨[], .nil, by simp, rfl⟩
  | cons change changes ih =>
      rw [List.forall_mem_cons] at hportable
      rw [List.flatMap_cons]
      cases hsection : change.hasSection with
      | false =>
          obtain ⟨ss, hbody, hne, hss⟩ := ih hportable.2 opened
          rw [lines_of_no_section hsection, List.filter_cons_of_neg (by simp [hsection])]
          exact ⟨ss, hbody, hne, hss⟩
      | true =>
          obtain ⟨ss, hbody, hne, hss⟩ := ih hportable.2 true
          obtain ⟨s, hpath, hpatch, hcommands, hbody'⟩ :=
            @body_file _ _ em change hportable.1 hsection _ _ hbody opened
          refine ⟨s :: ss, hbody', List.forall_mem_cons.mpr ⟨hcommands, hne⟩, ?_⟩
          rw [List.filter_cons_of_pos hsection, List.map_cons, List.map_cons, hss, hpath, hpatch]

/-- What a change set is parsed into, with the targets under their canonical names. -/
def bundleEntries (em : Emission baseDir disk) (canon : Bytes → Bytes) (changes : List FileChange) :
    List Entry :=
  (changes.filter FileChange.hasSection).map fun change =>
    (canon change.path, change.filePatch em)

/-- The bundle of a change set. -/
def bundleOf (em : Emission baseDir disk) (revs : Revisions) (changes : List FileChange) : Bytes :=
  bundleText em.print revs (changes.map FileChange.delta)

/-- **A bundle of any number of files** is parsed into its sections, if no two of
them name one file. -/
theorem parse_bundle (sorter : EntrySorter) (canon : Bytes → Bytes) (revs : Revisions)
    (before : PatchSet) {changes : List FileChange}
    (hportable : ∀ change ∈ changes, change.Portable)
    (hunique : ((bundleEntries em canon changes).map Prod.fst).Nodup) :
    ∃ set, PatchSet.parse sorter canon (bundleOf em revs changes) before = (set, .ok ()) ∧
      set.index = sorter.run (bundleEntries em canon changes) := by
  obtain ⟨ss, hbody, hne, hss⟩ := @body_files _ _ em changes hportable false
  have htext : bundleOf em revs changes =
      unlines (revs.comments ++ changes.flatMap (FileChange.lines em)) := by
    rw [bundleOf, bundleText, List.flatMap_map, unlines, unlines, List.flatMap_append,
      List.flatMap_assoc]
    exact congrArg _ (List.flatMap_congr fun change _ => text_delta change)
  have hlines : ∀ line ∈ changes.flatMap (FileChange.lines em), newline ∉ line := by
    intro line hline
    obtain ⟨change, hchange, hline⟩ := List.mem_flatMap.mp hline
    exact newline_not_mem_fileLines (hportable change hchange).path line hline
  have hentries : entriesOf canon ss = bundleEntries em canon changes := by
    have hmap := congrArg (List.map fun p : Bytes × FilePatch => (canon p.1, p.2)) hss
    rw [List.map_map, List.map_map] at hmap
    rw [entriesOf_eq, List.filter_eq_self.mpr (by simpa using hne)]
    exact hmap
  have hunique' : UniqueTargets canon ss := by
    rw [← hentries, entriesOf_eq, List.map_map] at hunique
    exact List.pairwise_map.mp hunique
  refine ⟨parsedSet sorter canon ss, ?_, ?_⟩
  · rw [htext]
    exact parse_lines sorter canon revs before hlines hbody hunique'
  · rw [parsedSet, hentries]

/-! ## What is applied -/

theorem command_fields (c : Change) :
    (em.command c).kind = (commandOf c).kind ∧ (em.command c).start = (commandOf c).start ∧
      (em.command c).end_ = (commandOf c).end_ := by
  unfold Emission.command
  split <;> exact ⟨rfl, rfl, rfl⟩

/-- The addresses are those of the change, however its lines are written. -/
theorem command_addresses (c : Change) :
    (em.command c).addressedTop = (commandOf c).addressedTop ∧
      (em.command c).affectedLow = (commandOf c).affectedLow ∧
      (∀ n, (em.command c).InRange n ↔ (commandOf c).InRange n) ∧
      ∀ text, (em.command c).edit text = (commandOf c).edit text := by
  obtain ⟨hkind, hstart, hend⟩ := @command_fields _ _ em c
  refine ⟨?_, ?_, fun n => ?_, fun text => ?_⟩
  · rw [EdCommand.addressedTop, EdCommand.addressedTop, hkind, hstart, hend]
  · rw [EdCommand.affectedLow, EdCommand.affectedLow, hkind, hstart]
  · rw [EdCommand.InRange, EdCommand.InRange, hkind, hstart, hend]
  · rw [EdCommand.edit, EdCommand.edit, hkind, hstart, hend]

/-- The input of a command is expanded to the lines of the change. -/
theorem expand_command (c : Change) {cache : RefCache} (hcache : cache.Agrees disk) :
    ∃ text cache', cache'.Agrees disk ∧
      (expandCommand (some (phpatcherMakeResolver baseDir disk)) (em.command c)).Yields cache text
        cache' ∧ (em.command c).edit text = literalEdit (commandOf c) := by
  have hedit := (@command_addresses _ _ em c).2.2.2
  have hliteral : literalEdit (commandOf c) = (commandOf c).edit c.added := by
    have hinput : (commandOf c).input = c.added.map .literal := by
      unfold commandOf
      split_ifs <;> simp_all
    rw [literalEdit, hinput, literals_map_literal]
  rw [hliteral]
  cases hneeds : (commandOf c).kind.needsInput with
  | false =>
      have hdelete : (em.command c).kind = .delete := by
        rw [(@command_fields _ _ em c).1]
        cases hkind : (commandOf c).kind <;> simp_all [Kind.needsInput]
      refine ⟨[], cache, hcache, ?_, ?_⟩
      · simp [expandCommand, hdelete]
      · simp only [EdCommand.edit, ← (@command_fields _ _ em c).1,
          ← (@command_fields _ _ em c).2.1, ← (@command_fields _ _ em c).2.2, hdelete]
  | true =>
      obtain ⟨cache', hcache', hbuild⟩ := (em.expands c.added).builds cache hcache
      refine ⟨c.added, cache', hcache', ?_, hedit c.added⟩
      have hinput : (em.command c).input = (em.emit c.added).map pieceOf := by
        rw [Emission.command, if_pos hneeds]
      have hkind : (em.command c).kind ≠ .delete := by
        rw [(@command_fields _ _ em c).1]
        rintro hkind
        simp [hkind, Kind.needsInput] at hneeds
      rw [← hinput] at hbuild
      unfold expandCommand
      split
      next hdelete => exact absurd hdelete hkind
      all_goals exact hbuild

theorem expand_commands (changes : List Change) {cache : RefCache} (hcache : cache.Agrees disk) :
    ∃ texts cache', cache'.Agrees disk ∧
      (expandAll (some (phpatcherMakeResolver baseDir disk)) (changes.map em.command)).Yields cache
        texts cache' ∧
      List.zipWith EdCommand.edit (changes.map em.command) texts =
        (changes.map commandOf).map literalEdit := by
  induction changes generalizing cache with
  | nil => exact ⟨[], cache, hcache, by simp [expandAll], rfl⟩
  | cons c changes ih =>
      obtain ⟨text, cache₁, hcache₁, htext, hedit⟩ := @expand_command _ _ em c cache hcache
      obtain ⟨texts, cache₂, hcache₂, htexts, hedits⟩ := ih hcache₁
      refine ⟨text :: texts, cache₂, hcache₂, ?_, by simp [hedit, hedits]⟩
      simp only [List.map_cons, expandAll, Fallible.yields_bind, Fallible.yields_pure]
      exact ⟨text, cache₁, htext, texts, cache₂, htexts, rfl, rfl⟩

/-- A script accepted with its lines as text is accepted as it was written. -/
theorem apply_written {changes : List Change} {old : Bytes} {out : List Bytes}
    (h : Accepted (changes.map commandOf) (splitLines old) out)
    (hlen : (splitLines old).length < int64Max) (creates : Bool) {cache : RefCache}
    (hcache : cache.Agrees disk) :
    ∃ cache', cache'.Agrees disk ∧
      (applyEdScript { commands := changes.map em.command, creates } old
        (some (phpatcherMakeResolver baseDir disk))).Yields cache
        (joinLines out (finalNewline old)) cache' := by
  obtain ⟨texts, cache', hcache', htexts, hedits⟩ := @expand_commands _ _ em changes cache hcache
  have hrewrites := h.rewrites []
  rw [List.append_nil, List.append_nil] at hrewrites
  refine ⟨cache', hcache', applyEdScript_yields_iff.mpr ⟨?_, ?_, texts, htexts, ?_⟩⟩
  · refine (validateFrom_ok_iff int64Max _).mpr ⟨fun c hc => ?_, ?_⟩
    · obtain ⟨d, hd, rfl⟩ := List.mem_map.mp hc
      rw [(@command_addresses _ _ em d).1]
      exact (h.below _ (List.mem_map_of_mem hd)).trans_lt hlen
    · refine List.pairwise_map.mpr ((List.pairwise_map.mp h.descending).imp fun {c d} hcd => ?_)
      rwa [(@command_addresses _ _ em d).1, (@command_addresses _ _ em c).2.1]
  · intro c hc
    obtain ⟨d, hd, rfl⟩ := List.mem_map.mp hc
    exact ((@command_addresses _ _ em d).2.2.1 _).mpr (h.inRange _ (List.mem_map_of_mem hd))
  · rw [hedits, hrewrites]

namespace FileChange

/-- The content in the old revision. -/
def base : FileChange → Bytes
  | added _ _ => []
  | @modified _ old _ _ => old

/-- The content in the new revision. -/
def target : FileChange → Bytes
  | added _ content => content
  | @modified _ _ new _ => new

/-- The content the applier makes. -/
def result : FileChange → Bytes
  | added _ content => unlines (corpusSplitLines content)
  | @modified _ old _ d => joinLines (resultLines d) (finalNewline old)

/-- The new revision ends as the old one did, and no line that is written ends in a CR. -/
def Exact : FileChange → Prop
  | added _ content => finalNewline content = true ∧ ∀ line ∈ splitLines content, ¬ EndsInCr line
  | @modified _ old new d =>
      (new = [] ∨ finalNewline new = finalNewline old) ∧
        ∀ raw, (true, raw) ∈ markedLines d → ¬ EndsInCr (chomp raw)

end FileChange

/-- A section makes of the old content the result. -/
theorem apply_change (change : FileChange) {cache : RefCache} (hcache : cache.Agrees disk) :
    ∃ cache', cache'.Agrees disk ∧
      (applyEdScript (change.filePatch em) change.base
        (some (phpatcherMakeResolver baseDir disk))).Yields cache change.result cache' := by
  cases change with
  | added path content =>
      -- the command is the one of a change that adds the lines to the empty file
      have hnames : Names { added := corpusSplitLines content } 0 [] := ⟨rfl, rfl⟩
      have hacc : Accepted ([{ added := corpusSplitLines content }].map commandOf) (splitLines [])
          (corpusSplitLines content) := Accepted.nil.change hnames
      have happly := @apply_written _ _ em _ _ _ hacc (by decide) true _ hcache
      rwa [joinLines, show finalNewline [] = true from rfl, joinWith_true] at happly
  | modified path d =>
      exact apply_written (accepted_diff d) ((length_splitLines_lt d).trans (by decide)) false
        hcache

theorem joinLines_splitLines (text : Bytes) :
    joinLines (splitLines text) (finalNewline text) = text :=
  joinWith_splitWith (by simp [finalNewline, endsWithNl])

/-- The lines of the result are those of the new revision when no CR is lost. -/
theorem resultLines_eq_iff {old new : Bytes} (d : Diff old new) :
    resultLines d = splitLines new ↔
      ∀ raw, (true, raw) ∈ markedLines d → ¬ EndsInCr (chomp raw) := by
  have hlines : splitLines new = (markedLines d).map fun p => chomp p.2 := by
    have hsnd : (markedLines d).map Prod.snd = rawLines new := by
      rw [markedLines, List.map_snd_zip]
      rw [length_marks]
    rw [splitLines_eq, ← hsnd, List.map_map]
    rfl
  rw [resultLines_eq, hlines, List.map_inj_left]
  constructor
  · intro h raw hraw
    exact dropLastByte_eq_self_iff.mp (h _ hraw)
  · rintro h ⟨added, raw⟩ hraw
    cases added with
    | false => rfl
    | true => exact dropLastByte_eq_self_iff.mpr (h raw hraw)

theorem finalNewline_unlines (lines : List Bytes) : finalNewline (unlines lines) = true := by
  rcases List.eq_nil_or_concat lines with rfl | ⟨init, line, rfl⟩
  · rfl
  · simp [finalNewline, endsWithNl]

/-- When the applier makes the new revision. -/
theorem result_eq_target_iff (change : FileChange) :
    change.result = change.target ↔ change.Exact := by
  cases change with
  | added path content =>
      simp only [FileChange.result, FileChange.target, FileChange.Exact]
      cases hend : finalNewline content with
      | false =>
          refine iff_of_false (fun h => ?_) (fun h => absurd h.1 (by simp))
          rw [← h, finalNewline_unlines] at hend
          simp at hend
      | true =>
          have hsource : ∀ line ∈ splitLines content, newline ∉ line :=
            newline_not_mem_splitWith (fun _ h => h) (by simp)
          have hcontent : unlines (splitLines content) = content := by
            have hjoin := joinLines_splitLines content
            rwa [hend, joinLines, joinWith_true] at hjoin
          have hwritten : corpusSplitLines content =
              (splitLines content).map (dropLastByte carriageReturn) := by
            have hsplit := @splitWith_unlines_nil (dropLastByte carriageReturn) _ hsource
            rwa [hcontent] at hsplit
          have hlines : unlines (corpusSplitLines content) = unlines (splitLines content) ↔
              corpusSplitLines content = splitLines content := by
            have hinj := @joinWith_inj _ _ (newline_not_mem_corpusSplitLines content) hsource
              (by simp [hwritten]) true true
            simpa using hinj
          rw [hcontent] at hlines
          have hfixed :=
            @List.map_inj_left _ _ (splitLines content) (dropLastByte carriageReturn) id
          rw [List.map_id] at hfixed
          rw [hlines, hwritten, hfixed]
          simp [dropLastByte_eq_self_iff, EndsInCr]
  | @modified path old new d =>
      simp only [FileChange.result, FileChange.target, FileChange.Exact]
      have hsource : ∀ line ∈ splitLines new, newline ∉ line :=
        newline_not_mem_splitWith (fun _ h => h) (by simp)
      have hlen : (resultLines d).length = (splitLines new).length := by
        rw [resultLines_eq, List.length_map, markedLines, List.length_zip, length_marks,
          Nat.min_self, splitLines_eq, List.length_map]
      have hinj := @joinWith_inj _ _ (newline_not_mem_resultLines d) hsource hlen
        (finalNewline old) (finalNewline new)
      have hempty : resultLines d = [] ↔ new = [] := by
        rw [← List.length_eq_zero_iff, hlen, List.length_eq_zero_iff, splitLines_eq_nil]
      have hnew : joinWith (finalNewline new) (splitLines new) = new := joinLines_splitLines new
      rw [hnew, hempty, resultLines_eq_iff, and_comm, @eq_comm _ (finalNewline old)] at hinj
      exact hinj

theorem mem_bundleEntries {canon : Bytes → Bytes} {changes : List FileChange} {e : Entry} :
    e ∈ bundleEntries em canon changes ↔
      ∃ change ∈ changes, change.hasSection = true ∧
        (canon change.path, change.filePatch em) = e := by
  simp only [bundleEntries, List.mem_map, List.mem_filter, and_assoc]

/-- A file for which there is no section stays as it is. -/
theorem result_of_no_section {change : FileChange} (h : change.hasSection = false) :
    change.result = change.base := by
  cases change with
  | added => cases h
  | @modified path old new d =>
      have hnone : diffBuffers d.callbacks = [] := by simpa [FileChange.hasSection] using h
      have happly := ((accepted_diff d).apply ((length_splitLines_lt d).trans (by decide))
        (none : Option (RefResolver Unit)) ()).2
      rw [hnone] at happly
      have hlines : joinLines (splitLines old) (finalNewline old) =
          joinLines (resultLines d) (finalNewline old) := (Fallible.yields_pure.mp happly).1
      rw [FileChange.result, FileChange.base, ← hlines, joinLines_splitLines]

/-- What the parsed bundle is searched for. -/
theorem find_bundle (em : Emission baseDir disk) (sorter : EntrySorter) (canon : Bytes → Bytes)
    (revs : Revisions) {changes : List FileChange}
    (hportable : ∀ change ∈ changes, change.Portable)
    (hunique : (changes.map fun change => canon change.path).Nodup) :
    ∃ set, PatchSet.parse sorter canon (bundleOf em revs changes) {} = (set, .ok ()) ∧
      ∀ key fp, set.find key = some fp ↔ ∃ change ∈ changes, change.hasSection = true ∧
        (canon change.path, change.filePatch em) = (key, fp) := by
  have hkeys : ((bundleEntries em canon changes).map Prod.fst).Nodup := by
    rw [bundleEntries, List.map_map]
    exact hunique.sublist (List.filter_sublist.map _)
  obtain ⟨set, hparse, hindex⟩ := @parse_bundle _ _ em sorter canon revs {} _ hportable hkeys
  refine ⟨set, hparse, fun key fp => ?_⟩
  rw [PatchSet.find, hindex, searchSorted_run_eq_some sorter hkeys, mem_bundleEntries]

/-- **The bundle of a change set.** Parsed and applied, it makes of every file's
old content the result of its change, which is the new content exactly when the
change is exact, as long as the bundle can carry each of them; what is looked up under
another name stays as it is. -/
theorem bundle_round_trip (em : Emission baseDir disk) (sorter : EntrySorter)
    (canon : Bytes → Bytes) (revs : Revisions) {changes : List FileChange}
    (hportable : ∀ change ∈ changes, change.Portable)
    (hunique : (changes.map fun change => canon change.path).Nodup) :
    (∀ change ∈ changes, (change.result = change.target ↔ change.Exact) ∧
      ∃ cache', (applyBundle sorter canon (bundleOf em revs changes) (canon change.path)
        change.base (some (phpatcherMakeResolver baseDir disk))).Yields [] change.result cache') ∧
    ∀ key old, (∀ change ∈ changes, canon change.path ≠ key) →
      (applyBundle sorter canon (bundleOf em revs changes) key old
        (some (phpatcherMakeResolver baseDir disk))).Yields [] old [] := by
  obtain ⟨set, hparse, hfind⟩ := find_bundle em sorter canon revs hportable hunique
  have hnone : ∀ key, (∀ change ∈ changes, change.hasSection = true →
      canon change.path ≠ key) → set.find key = none := by
    intro key hother
    refine Option.eq_none_iff_forall_ne_some.mpr fun fp hfp => ?_
    obtain ⟨change, hchange, hsection, heq⟩ := (hfind key fp).mp hfp
    exact hother change hchange hsection (Prod.mk.inj heq).1
  simp only [applyBundle, hparse]
  refine ⟨fun change hchange => ⟨result_eq_target_iff change, ?_⟩, fun key old hother => ?_⟩
  · cases hsection : change.hasSection with
    | true =>
        obtain ⟨cache', _, happly⟩ := @apply_change _ _ em change _ (RefCache.agrees_nil disk)
        rw [(hfind _ _).mpr ⟨change, hchange, hsection, rfl⟩]
        exact ⟨cache', happly⟩
    | false =>
        -- a section under the name is that of another file
        have hother : set.find (canon change.path) = none := by
          refine hnone _ fun change' hchange' hsection' heq => ?_
          rw [List.inj_on_of_nodup_map hunique hchange' hchange heq, hsection] at hsection'
          exact Bool.false_ne_true hsection'
        rw [hother, result_of_no_section hsection]
        exact ⟨[], Fallible.yields_pure.mpr ⟨rfl, rfl⟩⟩
  · rw [hnone key fun change hchange _ => hother change hchange]
    exact Fallible.yields_pure.mpr ⟨rfl, rfl⟩

/-! ## Two files -/

def libraryCorpus : Corpus :=
  .single (ascii "/library.php") (ascii "a();\nreturn true;\n")
    ⟨fun content => (corpusSplitLines content).map trim, fun _ => List.length_map _⟩ (by decide)
    (by decide)

def libraryIndex : Index :=
  ⟨[ascii "library.php"], [(ascii "a();", [⟨0, 1⟩])], false, by decide, by decide⟩

/-- The one posting leads into a file of 18 bytes, and a string has room for 15. -/
theorem postedOutside_library : PostedOutside 15 libraryCorpus libraryIndex :=
  postedOutside_of_lines (by decide +kernel)

def libraryEmission : Emission [] libraryCorpus.readFile :=
  .corpus rfl postedOutside_library (fun _ => rfl) false (Sorter.stable _) (Sorter.stable _) 1

/-- A line is added to one file, and a file is created with a line of the corpus. -/
def libraryChanges : List FileChange :=
  [.modified (ascii "a.php") (appendDiff (ascii "b\n") (by decide)),
   .added (ascii "b.php") (ascii "a();\n")]

theorem bundle_round_trip_library :
    libraryEmission.lines [ascii "a();"] = [ascii "r \"library.php\" 1 1 # s:5"] ∧
    ∀ change ∈ libraryChanges, (change.result = change.target ↔ change.Exact) ∧
      ∃ cache', (applyBundle (Sorter.stable Prod.fst) id
        (bundleOf libraryEmission sampleRevisions libraryChanges) change.path change.base
        (some (phpatcherMakeResolver [] libraryCorpus.readFile))).Yields [] change.result cache' :=
  ⟨by decide +kernel, (bundle_round_trip libraryEmission (Sorter.stable Prod.fst) id
    sampleRevisions (by decide +kernel) (by decide +kernel)).1⟩

end Phpatcher.Theorems
