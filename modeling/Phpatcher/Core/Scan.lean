import Phpatcher.Core.Format

/-!
# The scan reads the grammar

`Body.scan` and `body_of_scan`: the line loop of `parse_ed_bundle` runs to its
end, outside of a block, on exactly the texts the grammar derives. What the
lines ahead add to the index is `ParseState.outlook`; every turn of the loop
keeps it.
-/

namespace Phpatcher.Core

open Phpatcher.Basis

/-! ## The scan reads the grammar -/

/-- The state with the commands `cs` added to the open section. -/
def ParseState.withCommands (st : ParseState) (cs : List WrittenCommand) : ParseState :=
  { st with
    current := { st.current with
      commands := st.current.commands ++ cs.map WrittenCommand.command } }

/-- The index the scan leaves, when the lines ahead hold the commands `cs` of
the open section and the sections `ss`. -/
def ParseState.outlook (canon : Bytes → Bytes) (st : ParseState) (cs : List WrittenCommand)
    (ss : List FileSection) : List Entry :=
  (st.withCommands cs).flushCurrent.index ++ ss.flatMap (FileSection.entries canon)

/-- The state behind a command line. -/
def ParseState.enter (st : ParseState) (c : WrittenCommand) : ParseState :=
  if c.kind.needsInput then { st with pending := c.command, inInput := true }
  else { st with current := { st.current with commands := st.current.commands ++ [c.command] } }

section

variable {canon : Bytes → Bytes} {st : ParseState} (hin : st.inInput = false)
include hin

theorem parseLine_file {line path : Bytes} (h : HeaderNames kEdFileHeader line path) :
    st.parseLine canon line = .ok (st.startSection (canon path) false) := by
  simp [ParseState.parseLine, hin, h.isPrefixOf, (headerPath_eq_some h.isPrefixOf).mpr h]

theorem parseLine_newFile {line path : Bytes} (h : HeaderNames kEdNewFileHeader line path) :
    st.parseLine canon line = .ok (st.startSection (canon path) true) := by
  simp [ParseState.parseLine, hin, file_header_of_newFile h.isPrefixOf, h.isPrefixOf,
    (headerPath_eq_some h.isPrefixOf).mpr h]

theorem parseLine_filler {line : Bytes} (hfile : kEdFileHeader.isPrefixOf line = false)
    (hnew : kEdNewFileHeader.isPrefixOf line = false) (h : IsFiller line) :
    st.parseLine canon line = .ok st := by
  simp [ParseState.parseLine, hin, hfile, hnew, isIgnored_iff.mpr h]

theorem parseLine_command {line : Bytes} {c : WrittenCommand} (h : CommandLine line c)
    (hcurrent : st.haveCurrent = true) : st.parseLine canon line = .ok (st.enter c) := by
  obtain ⟨d, rest, rfl, hd⟩ := h.eq_cons
  rw [parseLine_digit canon rest hd hin, ParseState.commandLine,
    parseEdCommand_iff.mpr ⟨c, h, rfl, rfl⟩]
  cases hneeds : c.kind.needsInput <;> simp [hcurrent, hneeds, ParseState.enter]

/-- What a line outside of input blocks can be. -/
theorem parseLine_cases {line : Bytes} {st₁ : ParseState}
    (h : st.parseLine canon line = .ok st₁) :
    (∃ path, HeaderNames kEdFileHeader line path ∧ st₁ = st.startSection (canon path) false) ∨
    (∃ path, HeaderNames kEdNewFileHeader line path ∧ st₁ = st.startSection (canon path) true) ∨
    (kEdFileHeader.isPrefixOf line = false ∧ kEdNewFileHeader.isPrefixOf line = false ∧
      IsFiller line ∧ st₁ = st) ∨
    (st.haveCurrent = true ∧ ∃ c, CommandLine line c ∧ st₁ = st.enter c) := by
  rw [ParseState.parseLine, hin, if_neg Bool.false_ne_true] at h
  split at h
  next hfile =>
    left
    cases hpath : headerPath kEdFileHeader line with
    | none => simp [hpath] at h
    | some path =>
        rw [hpath] at h
        exact ⟨path, (headerPath_eq_some hfile).mp hpath, (Except.ok.inj h).symm⟩
  next hfile =>
    right
    split at h
    next hnew =>
      left
      cases hpath : headerPath kEdNewFileHeader line with
      | none => simp [hpath] at h
      | some path =>
          rw [hpath] at h
          exact ⟨path, (headerPath_eq_some hnew).mp hpath, (Except.ok.inj h).symm⟩
    next hnew =>
      right
      split at h
      next hignored =>
        left
        exact ⟨Bool.eq_false_iff.mpr hfile, Bool.eq_false_iff.mpr hnew, isIgnored_iff.mp hignored,
          (Except.ok.inj h).symm⟩
      next =>
        right
        rw [ParseState.commandLine] at h
        cases hcurrent : st.haveCurrent with
        | false => simp [hcurrent] at h
        | true =>
            cases hparse : parseEdCommand line with
            | none => simp [hcurrent, hparse] at h
            | some p =>
                obtain ⟨cmd, needsInput⟩ := p
                obtain ⟨c, hline, rfl, rfl⟩ := parseEdCommand_iff.mp hparse
                refine ⟨rfl, c, hline, ?_⟩
                rw [hcurrent, hparse] at h
                cases hneeds : c.kind.needsInput <;>
                  simpa [hneeds, hcurrent, ParseState.enter, eq_comm] using h

end

/-- Inside an input block lines are collected, up to the lone dot. -/
theorem scan_block {canon : Bytes → Bytes} {st : ParseState} (hin : st.inInput = true)
    {block : List Bytes} (hblock : [dot] ∉ block) (rest : List Bytes) :
    scanLines canon st (block ++ [dot] :: rest) =
      scanLines canon { st with
          current := { st.current with
            commands := st.current.commands ++
              [{ st.pending with input := st.pending.input ++ pieces block }] }
          pending := {}, inInput := false } rest := by
  induction block generalizing st with
  | nil => simp [scanLines, ParseState.parseLine, hin, ParseState.inputLine, pieces]
  | cons line block ih =>
      rw [List.mem_cons, not_or] at hblock
      have hstep : st.parseLine canon line = .ok { st with
          pending := { st.pending with
            input := st.pending.input ++ [parseEdInputPiece line] } } := by
        simp [ParseState.parseLine, hin, ParseState.inputLine, Ne.symm hblock.1]
      have hafter := @ih { st with
        pending := { st.pending with input := st.pending.input ++ [parseEdInputPiece line] } }
        hin hblock.2
      rw [List.cons_append, scanLines, hstep]
      simpa [pieces] using hafter

/-- A block that is not closed is still open at the end. -/
theorem scan_unclosed {canon : Bytes → Bytes} {st : ParseState} (hin : st.inInput = true)
    {lines : List Bytes} (hlines : [dot] ∉ lines) :
    ∃ st', scanLines canon st lines = (st', .ok ()) ∧ st'.inInput = true := by
  induction lines generalizing st with
  | nil => exact ⟨st, rfl, hin⟩
  | cons line lines ih =>
      rw [List.mem_cons, not_or] at hlines
      have hstep : st.parseLine canon line = .ok { st with
          pending := { st.pending with
            input := st.pending.input ++ [parseEdInputPiece line] } } := by
        simp [ParseState.parseLine, hin, ParseState.inputLine, Ne.symm hlines.1]
      rw [scanLines, hstep]
      exact ih hin hlines.2

theorem CommandLine.input_eq_nil {line : Bytes} {c : WrittenCommand} (h : CommandLine line c) :
    c.input = [] := by
  cases h <;> rfl

/-! ### The index ahead -/

@[simp] theorem outlook_nil (canon : Bytes → Bytes) (st : ParseState) :
    st.outlook canon [] [] = st.flushCurrent.index := by
  simp [ParseState.outlook, ParseState.withCommands]

theorem outlook_withCommands (canon : Bytes → Bytes) (st : ParseState) (c : WrittenCommand)
    (cs : List WrittenCommand) (ss : List FileSection) :
    (st.withCommands [c]).outlook canon cs ss = st.outlook canon (c :: cs) ss := by
  simp [ParseState.outlook, ParseState.withCommands]

/-- A header closes the open section and opens its own. -/
theorem outlook_file (canon : Bytes → Bytes) (st : ParseState) (path : Bytes)
    (cs : List WrittenCommand) (ss : List FileSection) :
    (st.startSection (canon path) false).outlook canon cs ss =
      st.outlook canon [] (⟨path, false, cs⟩ :: ss) := by
  by_cases hcs : cs = [] <;>
    simp [ParseState.outlook, ParseState.withCommands, ParseState.startSection,
      ParseState.flushCurrent, FileSection.entries, FileSection.filePatch, hcs]

/-- So does a `# newfile:` header, with the command its block stands for. -/
theorem outlook_newFile (canon : Bytes → Bytes) (st : ParseState) (path : Bytes)
    (c : WrittenCommand) (cs : List WrittenCommand) (ss : List FileSection) :
    ((st.startSection (canon path) true).withCommands [c]).outlook canon cs ss =
      st.outlook canon [] (⟨path, true, c :: cs⟩ :: ss) := by
  simp [ParseState.outlook, ParseState.withCommands, ParseState.startSection,
    ParseState.flushCurrent, FileSection.entries, FileSection.filePatch]

/-- A command without a block is added at once. -/
theorem enter_eq (st : ParseState) {c : WrittenCommand} (hneeds : c.kind.needsInput = false) :
    st.enter c = st.withCommands [c] := by
  simp [ParseState.enter, hneeds, ParseState.withCommands]

/-- The block of a command. -/
theorem scan_enter (canon : Bytes → Bytes) (st : ParseState) {line : Bytes} {c : WrittenCommand}
    (hline : CommandLine line c) (hneeds : c.kind.needsInput = true) {block : List Bytes}
    (hblock : [dot] ∉ block) (rest : List Bytes) :
    scanLines canon (st.enter c) (block ++ [dot] :: rest) =
      scanLines canon
        { st.withCommands [{ c with input := pieces block }] with pending := {}, inInput := false }
        rest := by
  rw [ParseState.enter, hneeds, if_pos rfl, scan_block rfl hblock]
  simp [ParseState.withCommands, WrittenCommand.command, hline.input_eq_nil]

/-- The block of a `# newfile:` header. -/
theorem scan_newFile (canon : Bytes → Bytes) (st : ParseState) (key : Bytes) {block : List Bytes}
    (hblock : [dot] ∉ block) (rest : List Bytes) :
    scanLines canon (st.startSection key true) (block ++ [dot] :: rest) =
      scanLines canon
        { (st.startSection key true).withCommands [contentCommand block] with
          pending := {}, inInput := false }
        rest := by
  rw [scan_block rfl hblock]
  rfl

/-! ### Both directions -/

/-- A text that the grammar derives is scanned to its end. -/
theorem Body.scan (canon : Bytes → Bytes) {opened : Bool} {lines : List Bytes}
    {cs : List WrittenCommand} {ss : List FileSection} (h : Body opened lines cs ss)
    {st : ParseState} (hin : st.inInput = false) (hopened : st.haveCurrent = opened) :
    ∃ st', scanLines canon st lines = (st', .ok ()) ∧ st'.inInput = false ∧
      st'.flushCurrent.index = st.outlook canon cs ss := by
  induction h generalizing st with
  | nil => exact ⟨st, rfl, hin, (outlook_nil canon st).symm⟩
  | filler hfile hnew hfiller _ ih =>
      rw [scanLines, parseLine_filler hin hfile hnew hfiller]
      exact ih hin hopened
  | command hline hneeds _ ih =>
      rw [scanLines, parseLine_command hin hline hopened, enter_eq st hneeds,
        ← outlook_withCommands]
      exact ih hin hopened
  | block hline hneeds hblock _ ih =>
      rw [scanLines, parseLine_command hin hline hopened, ← outlook_withCommands]
      show ∃ st', scanLines canon _ _ = _ ∧ _
      rw [scan_enter canon st hline hneeds hblock]
      exact ih rfl hopened
  | file hpath _ ih =>
      rw [scanLines, parseLine_file hin hpath, ← outlook_file]
      exact ih hin rfl
  | newFile hpath hblock _ ih =>
      rw [scanLines, parseLine_newFile hin hpath, ← outlook_newFile]
      show ∃ st', scanLines canon _ _ = _ ∧ _
      rw [scan_newFile canon st _ hblock]
      exact ih rfl rfl

/-- A scan that runs to its end from inside a block finds the lone dot. -/
theorem block_of_scan {canon : Bytes → Bytes} {st st' : ParseState} {lines : List Bytes}
    (hin : st.inInput = true) (hscan : scanLines canon st lines = (st', .ok ()))
    (hin' : st'.inInput = false) :
    ∃ block rest, lines = block ++ [dot] :: rest ∧ [dot] ∉ block := by
  have hdot : [dot] ∈ lines := by
    by_contra hdot
    obtain ⟨st₁, hscan₁, hin₁⟩ := @scan_unclosed canon st hin lines hdot
    rw [hscan, Prod.mk.injEq] at hscan₁
    rw [← hscan₁.1, hin'] at hin₁
    exact absurd hin₁ (by simp)
  obtain ⟨block, rest, hsplit, hblock⟩ := List.eq_append_cons_of_mem hdot
  exact ⟨block, rest, hsplit, hblock⟩

/-- A text that is scanned to its end is derived by the grammar. -/
theorem body_of_scan {canon : Bytes → Bytes} {st st' : ParseState} {lines : List Bytes}
    (hin : st.inInput = false) (hscan : scanLines canon st lines = (st', .ok ()))
    (hin' : st'.inInput = false) : ∃ cs ss, Body st.haveCurrent lines cs ss := by
  -- a block is skipped in one go, so the induction is on the number of lines
  induction hn : lines.length using Nat.strong_induction_on generalizing st lines with
  | _ n ih =>
      subst hn
      cases lines with
      | nil => exact ⟨[], [], .nil⟩
      | cons line lines =>
          rw [scanLines] at hscan
          cases hline : st.parseLine canon line with
          | error e => simp [hline] at hscan
          | ok st₁ =>
              rw [hline] at hscan
              simp only at hscan
              rcases parseLine_cases hin hline with ⟨path, hpath, rfl⟩ | ⟨path, hpath, rfl⟩ |
                ⟨hfile, hnew, hfiller, rfl⟩ | ⟨hcurrent, c, hcommand, rfl⟩
              · obtain ⟨cs, ss, hbody⟩ := @ih lines.length (by simp)
                  (st.startSection (canon path) false) lines hin hscan rfl
                exact ⟨[], _, .file hpath hbody⟩
              · obtain ⟨block, rest, rfl, hblock⟩ := block_of_scan rfl hscan hin'
                rw [scan_newFile canon st _ hblock] at hscan
                obtain ⟨cs, ss, hbody⟩ := ih _ (by simp; omega) rfl hscan rfl
                exact ⟨[], _, .newFile hpath hblock hbody⟩
              · obtain ⟨cs, ss, hbody⟩ := ih _ (by simp) hin hscan rfl
                exact ⟨cs, ss, .filler hfile hnew hfiller hbody⟩
              · cases hneeds : c.kind.needsInput with
                | false =>
                    rw [enter_eq st hneeds] at hscan
                    obtain ⟨cs, ss, hbody⟩ := @ih lines.length (by simp) (st.withCommands [c])
                      lines hin hscan rfl
                    have hbody : Body st.haveCurrent lines cs ss := hbody
                    rw [hcurrent] at hbody ⊢
                    exact ⟨_, _, .command hcommand hneeds hbody⟩
                | true =>
                    have hopen : (st.enter c).inInput = true := by simp [ParseState.enter, hneeds]
                    obtain ⟨block, rest, rfl, hblock⟩ := block_of_scan hopen hscan hin'
                    rw [scan_enter canon st hcommand hneeds hblock] at hscan
                    obtain ⟨cs, ss, hbody⟩ := ih _ (by simp; omega) rfl hscan rfl
                    have hbody : Body st.haveCurrent rest cs ss := hbody
                    rw [hcurrent] at hbody ⊢
                    exact ⟨_, _, .block hcommand hneeds hblock hbody⟩

end Phpatcher.Core
