import Phpatcher.Core.Scan
import Phpatcher.Tools.CommandLines

/-!
# Plain text written by the generator is read back

Source text stands unescaped between the commands of a bundle. The scan keeps
the two apart by its state alone: inside an input block nothing but a lone `.`
has a meaning for it (`scan_input`), and outside of one it meets nothing but
command lines (`Between.changes`).

One kind of line does not survive: the reader takes a line of an input block
that is a complete `r` directive as a reference, and the format has no way to
write such a line as text (`directive_not_read_back`).
-/

namespace Phpatcher.Theorems

open Phpatcher.Basis Phpatcher.Core Phpatcher.Tools

/-- The lines `emitChange` writes in plain mode. -/
def plainLines (c : Change) : List Bytes :=
  if c.oldCount ≠ 0 ∧ c.added = [] then [c.header] else c.header :: c.added ++ [[dot]]

/-- A line the format can carry as text. -/
def IsText (line : Bytes) : Prop :=
  newline ∉ line ∧ line ≠ [dot] ∧ parseRDirective line = none

instance (line : Bytes) : Decidable (IsText line) := inferInstanceAs (Decidable (_ ∧ _ ∧ _))

theorem emitChange_plain (c : Change) : emitChange emitAddedPlain c = unlines (plainLines c) := by
  unfold emitChange plainLines
  split
  · simp
  · have hdot : ascii ".\n" = [dot, newline] := rfl
    simp [emitAddedPlain, hdot]

/-! ## Command lines -/

/-- A command line starts with a digit. -/
theorem header_eq_cons (c : Change) :
    ∃ d rest, c.header = d :: rest ∧ isDigit d = true := by
  have hdecimal : ∀ (n : Nat) (s : Bytes),
      ∃ d rest, decimal n ++ s = d :: rest ∧ isDigit d = true := by
    intro n s
    obtain ⟨d, rest, hd⟩ := List.exists_cons_of_ne_nil (decimal_ne_nil n)
    exact ⟨d, rest ++ s, by simp [hd], decimal_digits n d (by simp [hd])⟩
  unfold Change.header
  split
  · exact hdecimal _ _
  · split
    · exact hdecimal _ _
    · simp only [List.append_assoc]
      exact hdecimal _ _

theorem newline_not_mem_header (c : Change) : newline ∉ c.header := by
  have hdecimal : ∀ n, newline ∉ decimal n := fun n hmem =>
    absurd (decimal_digits n newline hmem) (by decide)
  have hletters : newline ∉ ascii "a" ∧ newline ∉ ascii "," ∧ newline ∉ ascii "d" ∧
      newline ∉ ascii "c" := by decide
  obtain ⟨ha, hcomma, hd, hc⟩ := hletters
  unfold Change.header
  split_ifs <;> simp only [List.mem_append, hdecimal, ha, hcomma, hd, hc, or_self, not_false_eq_true]

/-- The lines of a change are lines. -/
theorem newline_not_mem_plainLines {c : Change} (hline : ∀ line ∈ c.added, newline ∉ line) :
    ∀ line ∈ plainLines c, newline ∉ line := by
  intro line hmem
  unfold plainLines at hmem
  split at hmem
  · rw [List.mem_singleton.mp hmem]
    exact newline_not_mem_header c
  · simp only [List.mem_append, List.mem_cons, List.not_mem_nil, or_false] at hmem
    rcases hmem with (rfl | hmem) | rfl
    · exact newline_not_mem_header c
    · exact hline line hmem
    · decide

/-! ## The scan over written text -/

theorem scanLines_append {canon : Bytes → Bytes} {st st' : ParseState} {a : List Bytes}
    (h : scanLines canon st a = (st', .ok ())) (b : List Bytes) :
    scanLines canon st (a ++ b) = scanLines canon st' b := by
  induction a generalizing st with
  | nil =>
      simp only [scanLines, Prod.mk.injEq, and_true] at h
      rw [h, List.nil_append]
  | cons line a ih =>
      simp only [List.cons_append, scanLines] at h ⊢
      cases hline : st.parseLine canon line with
      | error e => simp [hline] at h
      | ok st₁ => exact ih (by simpa [hline] using h)

/-- Inside an input block lines of text are collected, up to the lone dot. -/
theorem scan_input {canon : Bytes → Bytes} {st : ParseState} (hin : st.inInput = true)
    {added : List Bytes} (hadded : ∀ line ∈ added, IsText line) :
    scanLines canon st (added ++ [[dot]]) =
      ({ st with
          current := { st.current with
            commands := st.current.commands ++
              [{ st.pending with input := st.pending.input ++ added.map .literal }] }
          pending := {}, inInput := false }, .ok ()) := by
  have hdot : [dot] ∉ added := fun hmem => (hadded _ hmem).2.1 rfl
  rw [scan_block hin hdot [], pieces_eq_literal fun line hline => (hadded line hline).2.2]
  rfl

/-- The scan between two commands of a section that has `commands` so far. -/
structure Between (st : ParseState) (index : List Entry) (key : Bytes)
    (commands : List EdCommand) : Prop where
  index : st.index = index
  key : st.currentKey = key
  current : st.current = { commands }
  haveCurrent : st.haveCurrent = true
  outside : st.inInput = false

/-- One change is scanned as one command. -/
theorem Between.change {st : ParseState} {index : List Entry} {key : Bytes}
    {commands : List EdCommand} (h : Between st index key commands) (canon : Bytes → Bytes)
    {c : Change}
    (hread : Readable c) (hadded : ∀ line ∈ c.added, IsText line) :
    ∃ st', scanLines canon st (plainLines c) = (st', .ok ()) ∧
      Between st' index key (commands ++ [commandOf c]) := by
  -- outside of an input block a line that starts with a digit is a command
  obtain ⟨d, rest, hheader, hd⟩ := header_eq_cons c
  have hline := parseLine_digit canon rest hd h.outside
  rw [← hheader, ParseState.commandLine, h.haveCurrent, parseEdCommand_header hread] at hline
  simp only [Bool.not_true, Bool.false_eq_true, if_false] at hline
  by_cases hdel : c.oldCount ≠ 0 ∧ c.added = []
  · have hkind : (commandOf c).kind.needsInput = false ∧
        { commandOf c with input := [] } = commandOf c := by
      simp [commandOf, hdel.1, hdel.2, Kind.needsInput]
    rw [hkind.1, hkind.2, if_neg Bool.false_ne_true] at hline
    refine ⟨_, by rw [plainLines, if_pos hdel, scanLines, hline]; rfl, ?_⟩
    exact ⟨h.index, h.key, by simp [h.current], rfl, h.outside⟩
  · have hkind : (commandOf c).kind.needsInput = true ∧
        (commandOf c).input = c.added.map .literal := by
      by_cases hcount : c.oldCount = 0
      · simp [commandOf, hcount, Kind.needsInput]
      · have hne : c.added ≠ [] := fun e => hdel ⟨hcount, e⟩
        simp [commandOf, hcount, hne, Kind.needsInput]
    rw [hkind.1, if_pos rfl] at hline
    refine ⟨_, by rw [plainLines, if_neg hdel, List.cons_append, scanLines, hline]
                  exact scan_input rfl hadded, ?_⟩
    refine ⟨h.index, h.key, ?_, rfl, rfl⟩
    simp [h.current, ← hkind.2]

/-- A sequence of changes is scanned as one command each, in order. -/
theorem Between.changes {st : ParseState} {index : List Entry} {key : Bytes}
    {commands : List EdCommand} (h : Between st index key commands) (canon : Bytes → Bytes)
    {changes : List Change} (hread : ∀ c ∈ changes, Readable c)
    (hadded : ∀ c ∈ changes, ∀ line ∈ c.added, IsText line) :
    ∃ st', scanLines canon st (changes.flatMap plainLines) = (st', .ok ()) ∧
      Between st' index key (commands ++ changes.map commandOf) := by
  induction changes generalizing st commands with
  | nil => exact ⟨st, rfl, by simpa using h⟩
  | cons c changes ih =>
      rw [List.forall_mem_cons] at hread hadded
      obtain ⟨st₁, hscan, hbetween⟩ := h.change canon hread.1 hadded.1
      obtain ⟨st₂, hrest, hend⟩ := ih hbetween hread.2 hadded.2
      refine ⟨st₂, ?_, by simpa using hend⟩
      rw [List.flatMap_cons, scanLines_append hscan, hrest]

/-- The index one section of a bundle leaves. -/
def sectionIndex (key : Bytes) (commands : List EdCommand) : List Entry :=
  if commands = [] then [] else [(key, { commands })]

/-- **Plain mode.** Behind a section header, the text written for a sequence
of changes is read back as exactly one command per change, in order, with the
added lines as literal input. -/
theorem plain_read_back (sorter : EntrySorter) (canon : Bytes → Bytes) {header path : Bytes}
    {changes : List Change} (hheader : kEdFileHeader.isPrefixOf header = true)
    (hline : newline ∉ header) (hpath : headerPath kEdFileHeader header = some path)
    (hread : ∀ c ∈ changes, Readable c) (hadded : ∀ c ∈ changes, ∀ line ∈ c.added, IsText line) :
    let index := sectionIndex (canon path) (changes.map commandOf)
    parseEdBundle sorter canon (header ++ newline :: changes.flatMap (emitChange emitAddedPlain)) =
      ({ index, basenames := basenameFilter index }, .ok ()) := by
  intro index
  have htext : header ++ newline :: changes.flatMap (emitChange emitAddedPlain) =
      unlines (header :: changes.flatMap plainLines) := by
    have hemit : changes.flatMap (emitChange emitAddedPlain) =
        unlines (changes.flatMap plainLines) := by
      rw [unlines, List.flatMap_assoc]
      exact List.flatMap_congr fun c _ => emitChange_plain c
    rw [hemit, unlines_cons]
  have hlines : ∀ line ∈ header :: changes.flatMap plainLines, newline ∉ line := by
    intro line hmem
    rw [List.mem_cons, List.mem_flatMap] at hmem
    rcases hmem with rfl | ⟨c, hc, hmem⟩
    · exact hline
    · exact newline_not_mem_plainLines (fun l hl => (hadded c hc l hl).1) line hmem
  have hsplit : splitLines (unlines (header :: changes.flatMap plainLines)) =
      header :: changes.flatMap plainLines := splitLines_unlines hlines
  -- the header opens the section, the changes fill it
  have hstart : ParseState.parseLine canon {} header =
      .ok { currentKey := canon path, haveCurrent := true } := by
    simp [ParseState.parseLine, hheader, hpath, ParseState.startSection,
      ParseState.flushCurrent]
  have hbetween : Between { currentKey := canon path, haveCurrent := true } [] (canon path) [] :=
    ⟨rfl, rfl, rfl, rfl, rfl⟩
  obtain ⟨st, hscan, hend⟩ := hbetween.changes canon hread hadded
  have hflush : st.flushCurrent.index = index := by
    simp [ParseState.flushCurrent, hend.haveCurrent, hend.current, hend.index, hend.key, index,
      sectionIndex]
  -- an index of at most one entry is sorted whatever the sorter does
  have hsorted : sorter.run index = index := by
    have hperm := sorter.perm index
    unfold index sectionIndex at hperm ⊢
    split_ifs at hperm ⊢
    · exact List.perm_nil.mp hperm
    · exact List.perm_singleton.mp hperm
  have hunique : firstDuplicate index = none := by
    unfold index sectionIndex
    split_ifs <;> rfl
  rw [htext, parseEdBundle, hsplit, scanLines, hstart]
  simp only [hscan, hend.outside, hflush, finalize, hsorted, hunique, Bool.false_eq_true,
    if_false]

/-- A change, a deletion and an addition, in the order in which they are written. -/
theorem plain_read_back_changes :
    let changes : List Change := [
      { oldStart := 7, oldCount := 2, added := [ascii "echo 1;", ascii "r x"] },
      { oldStart := 4, oldCount := 1 },
      { appendAfter := 2, added := [[]] }]
    (parseEdBundle (Sorter.stable Prod.fst) id
      (ascii "# file: a.php" ++ newline :: changes.flatMap (emitChange emitAddedPlain))).1.index =
        [(ascii "a.php", { commands := [
          { kind := .change, start := 7, end_ := 8
            input := [.literal (ascii "echo 1;"), .literal (ascii "r x")] },
          { kind := .delete, start := 4, end_ := 4 },
          { kind := .append, start := 2, end_ := 2, input := [.literal []] }] })] := by
  intro changes
  have hread : ∀ c ∈ changes, Readable c := by decide
  have hadded : ∀ c ∈ changes, ∀ line ∈ c.added, IsText line := by decide
  have hpath : headerPath kEdFileHeader (ascii "# file: a.php") = some (ascii "a.php") := by decide
  rw [plain_read_back (Sorter.stable Prod.fst) id (by decide) (by decide) hpath hread hadded]
  decide

/-- An added line that is a complete `r` directive comes back as a reference. -/
theorem directive_not_read_back :
    let c : Change := { appendAfter := 1, added := [ascii "r x 1 1 # s:1"] }
    (∀ line ∈ c.added, newline ∉ line ∧ line ≠ [dot]) ∧
      (parseEdBundle (Sorter.stable Prod.fst) id
        (ascii "# file: a.php" ++ newline :: emitChange emitAddedPlain c)).1.index =
          [(ascii "a.php", { commands := [{ kind := .append, start := 1, end_ := 1
                                            input := [.ref { path := ascii "x", begin := 1, end_ := 1
                                                             bytes := some 1 }] }] })] ∧
      commandOf c = { kind := .append, start := 1, end_ := 1
                      input := [.literal (ascii "r x 1 1 # s:1")] } := by
  decide

end Phpatcher.Theorems
