import Phpatcher.Core.Parsing

/-!
# Texts up to a header

The lines in front of a section header are a text of their own, and the lines
behind the content of a created file go on with its section.
-/

namespace Phpatcher.Core

open Phpatcher.Basis

/-! ## Where the content of a file stands -/

/-- A line that starts like the header of a section. -/
def isHeader (line : Bytes) : Bool :=
  kEdFileHeader.isPrefixOf line || kEdNewFileHeader.isPrefixOf line

/-- The lines up to the next header. -/
def upToHeader (lines : List Bytes) : List Bytes := lines.takeWhile fun line => !isHeader line

theorem upToHeader_cons {line : Bytes} (h : isHeader line = false) (lines : List Bytes) :
    upToHeader (line :: lines) = line :: upToHeader lines := by
  simp [upToHeader, h]

theorem upToHeader_header {line : Bytes} (h : isHeader line = true) (lines : List Bytes) :
    upToHeader (line :: lines) = [] := by
  simp [upToHeader, h]

/-- Outside of input blocks stands a `# newfile:` header for `path`; `content`
are the lines from there to the first lone dot, and `behind` those that follow
it. -/
def ContentAt (opened : Bool) (lines : List Bytes) (path : Bytes) (content behind : List Bytes) :
    Prop :=
  ∃ before header cs ss, lines = before ++ header :: (content ++ [dot] :: behind) ∧
    Body opened before cs ss ∧ HeaderNames kEdNewFileHeader header path ∧ [dot] ∉ content

/-- Lines that only add to what is derived may stand in front of the header. -/
theorem ContentAt.prepend {opened opened' : Bool} {lines : List Bytes} {path : Bytes}
    {content behind : List Bytes} (h : ContentAt opened' lines path content behind)
    (read : List Bytes) (hread : ∀ rest cs ss, Body opened' rest cs ss →
      ∃ cs' ss', Body opened (read ++ rest) cs' ss') :
    ContentAt opened (read ++ lines) path content behind := by
  obtain ⟨before, header, cs, ss, rfl, hbefore, hheader⟩ := h
  obtain ⟨cs', ss', hread'⟩ := hread before cs ss hbefore
  exact ⟨read ++ before, header, cs', ss', (List.append_assoc _ _ _).symm, hread', hheader⟩

/-- The same for the lines of an input block. -/
theorem ContentAt.prepend_block {opened opened' : Bool} {lines : List Bytes} {path : Bytes}
    {content behind : List Bytes} (h : ContentAt opened' lines path content behind)
    (line : Bytes) (block : List Bytes) (hread : ∀ rest cs ss, Body opened' rest cs ss →
      ∃ cs' ss', Body opened (line :: (block ++ [dot] :: rest)) cs' ss') :
    ContentAt opened (line :: (block ++ [dot] :: lines)) path content behind := by
  have happend : ∀ rest, line :: (block ++ [dot] :: rest) = (line :: block ++ [[dot]]) ++ rest := by
    simp
  rw [happend lines]
  refine h.prepend _ fun rest cs ss hrest => ?_
  rw [← happend rest]
  exact hread rest cs ss hrest

/-- The section of a created file starts with its content; the rest of it stands
behind the dot. -/
theorem Body.contentAt {opened : Bool} {lines : List Bytes} {cs : List WrittenCommand}
    {ss : List FileSection} (h : Body opened lines cs ss) :
    ∀ s ∈ ss, s.creates = true → ∃ content behind cs' ss',
      ContentAt opened lines s.path content behind ∧
        s.commands = contentCommand content :: cs' ∧ Body true behind cs' ss' := by
  induction h with
  | nil => simp
  | @filler opened line lines cs ss hfile hnew hfiller _ ih =>
      intro s hs hcreates
      obtain ⟨content, behind, cs', ss', hat, hs'⟩ := ih s hs hcreates
      exact ⟨content, behind, cs', ss', hat.prepend [line] fun _ _ _ hrest =>
        ⟨_, _, .filler hfile hnew hfiller hrest⟩, hs'⟩
  | @command line lines c cs ss hline hneeds _ ih =>
      intro s hs hcreates
      obtain ⟨content, behind, cs', ss', hat, hs'⟩ := ih s hs hcreates
      exact ⟨content, behind, cs', ss', hat.prepend [line] fun _ _ _ hrest =>
        ⟨_, _, .command hline hneeds hrest⟩, hs'⟩
  | @block line block lines c cs ss hline hneeds hblock _ ih =>
      intro s hs hcreates
      obtain ⟨content, behind, cs', ss', hat, hs'⟩ := ih s hs hcreates
      exact ⟨content, behind, cs', ss', hat.prepend_block line block fun _ _ _ hrest =>
        ⟨_, _, .block hline hneeds hblock hrest⟩, hs'⟩
  | @file opened line path lines cs ss hpath _ ih =>
      rw [List.forall_mem_cons]
      refine ⟨fun hcreates => absurd hcreates (by simp), fun s hs hcreates => ?_⟩
      obtain ⟨content, behind, cs', ss', hat, hs'⟩ := ih s hs hcreates
      exact ⟨content, behind, cs', ss', hat.prepend [line] fun _ _ _ hrest =>
        ⟨_, _, .file hpath hrest⟩, hs'⟩
  | @newFile opened line path block lines cs ss hpath hblock hbody ih =>
      rw [List.forall_mem_cons]
      refine ⟨fun _ => ?_, fun s hs hcreates => ?_⟩
      · -- the section that starts here
        exact ⟨block, lines, cs, ss, ⟨[], line, [], [], rfl, .nil, hpath, hblock⟩, rfl, hbody⟩
      · obtain ⟨content, behind, cs', ss', hat, hs'⟩ := ih s hs hcreates
        exact ⟨content, behind, cs', ss', hat.prepend_block line block fun _ _ _ hrest =>
          ⟨_, _, .newFile hpath hblock hrest⟩, hs'⟩

/-- What stands behind a derived text is derived as well. -/
theorem Body.behind {opened : Bool} {before rest : List Bytes} {cs₀ cs : List WrittenCommand}
    {ss₀ ss : List FileSection} (h : Body opened before cs₀ ss₀)
    (hbody : Body opened (before ++ rest) cs ss) :
    ∃ opened' cs' ss', Body opened' rest cs' ss' ∧ ∀ s ∈ ss', s ∈ ss := by
  induction h generalizing cs ss with
  | nil => exact ⟨_, _, _, hbody, fun _ hs => hs⟩
  | filler hfile hnew hfiller _ ih =>
      exact ih (hbody.filler_inv (lineRole_filler hfile hnew hfiller))
  | command hline hneeds _ ih =>
      obtain ⟨c', cs', hline', hcase⟩ := hbody.command_inv (lineRole_command hline)
      obtain rfl := hline.unique hline'
      rcases hcase with ⟨_, _, hrest⟩ | ⟨hneeds', _⟩
      · exact ih hrest
      · exact absurd (hneeds.symm.trans hneeds') (by simp)
  | block hline hneeds hblock _ ih =>
      obtain ⟨c', cs', hline', hcase⟩ := hbody.command_inv (lineRole_command hline)
      obtain rfl := hline.unique hline'
      rcases hcase with ⟨hneeds', _⟩ | ⟨_, block', rest', htail, hblock', _, hrest⟩
      · exact absurd (hneeds'.symm.trans hneeds) (by simp)
      · rw [List.append_eq, List.append_assoc, List.cons_append] at htail
        obtain ⟨rfl, rfl⟩ := block_unique hblock hblock' htail
        exact ih hrest
  | file hpath _ ih =>
      obtain ⟨_, cs', ss', rfl, hrest⟩ := hbody.file_inv (lineRole_file hpath)
      obtain ⟨opened', cs'', ss'', hbehind, hmem⟩ := ih hrest
      exact ⟨opened', cs'', ss'', hbehind, fun s hs => List.mem_cons_of_mem _ (hmem s hs)⟩
  | newFile hpath hblock _ ih =>
      obtain ⟨_, block', rest', cs', ss', htail, hblock', rfl, hrest⟩ :=
        hbody.newFile_inv (lineRole_newFile hpath)
      rw [List.append_eq, List.append_assoc, List.cons_append] at htail
      obtain ⟨rfl, rfl⟩ := block_unique hblock hblock' htail
      obtain ⟨opened', cs'', ss'', hbehind, hmem⟩ := ih hrest
      exact ⟨opened', cs'', ss'', hbehind, fun s hs => List.mem_cons_of_mem _ (hmem s hs)⟩

/-- Every content is that of a section. -/
theorem ContentAt.fileSection {opened : Bool} {lines : List Bytes} {path : Bytes}
    {content behind : List Bytes} (h : ContentAt opened lines path content behind)
    {cs : List WrittenCommand} {ss : List FileSection} (hbody : Body opened lines cs ss) :
    ∃ cs' ss', ⟨path, true, contentCommand content :: cs'⟩ ∈ ss ∧ Body true behind cs' ss' := by
  obtain ⟨before, header, cs₀, ss₀, rfl, hbefore, hheader, hcontent⟩ := h
  obtain ⟨opened', cs₁, ss₁, hrest, hmem⟩ := hbefore.behind hbody
  obtain ⟨_, block, rest, cs', ss', htail, hblock, rfl, hbehind⟩ :=
    hrest.newFile_inv (lineRole_newFile hheader)
  obtain ⟨rfl, rfl⟩ := block_unique hcontent hblock htail
  exact ⟨cs', ss', hmem _ List.mem_cons_self, hbehind⟩

theorem not_isFiller_of_command {line : Bytes} {c : WrittenCommand} (h : CommandLine line c) :
    isHeader line = false ∧ ¬ IsFiller line := by
  obtain ⟨d, rest, rfl, hd⟩ := h.eq_cons
  obtain ⟨hfile, hnew, hignored⟩ := digit_line rest hd
  refine ⟨by rw [isHeader, hfile, hnew]; rfl, fun hfiller => ?_⟩
  rw [isIgnored_iff.mpr hfiller] at hignored
  exact absurd hignored (by simp)

/-- The open section gets no command exactly when up to the next header there is
nothing but lines that are passed over. -/
theorem Body.commands_eq_nil {opened : Bool} {lines : List Bytes} {cs : List WrittenCommand}
    {ss : List FileSection} (h : Body opened lines cs ss) :
    cs = [] ↔ ∀ line ∈ upToHeader lines, IsFiller line := by
  have hcommand : ∀ {line : Bytes} {lines : List Bytes} {c : WrittenCommand},
      CommandLine line c →
      ¬ ∀ l ∈ upToHeader (line :: lines), IsFiller l := by
    intro line lines c hline hall
    obtain ⟨hheader, hfiller⟩ := not_isFiller_of_command hline
    rw [upToHeader_cons hheader] at hall
    exact hfiller (hall line List.mem_cons_self)
  induction h with
  | nil => simp [upToHeader]
  | @filler _ line _ _ _ hfile hnew hfiller _ ih =>
      have hheader : isHeader line = false := by
        rw [isHeader, hfile, hnew]
        rfl
      rw [upToHeader_cons hheader, List.forall_mem_cons, and_iff_right hfiller]
      exact ih
  | command hline _ _ _ => exact iff_of_false (by simp) (hcommand hline)
  | block hline _ _ _ _ => exact iff_of_false (by simp) (hcommand hline)
  | file hpath _ _ => simp [upToHeader_header, isHeader, hpath.isPrefixOf]
  | newFile hpath _ _ _ => simp [upToHeader_header, isHeader, hpath.isPrefixOf]

/-! ## What a scan has put into the index -/

theorem scanLines_append (canon : Bytes → Bytes) (st : ParseState) (read rest : List Bytes) :
    scanLines canon st (read ++ rest) =
      match scanLines canon st read with
      | (st', .ok ()) => scanLines canon st' rest
      | (st', .error e) => (st', .error e) := by
  induction read generalizing st with
  | nil => rfl
  | cons line read ih =>
      rw [List.cons_append, scanLines, scanLines]
      cases st.parseLine canon line with
      | error e => rfl
      | ok st => exact ih st

/-- Where a scan stops early: behind the lines it read stands one it rejects. -/
theorem scanLines_error {canon : Bytes → Bytes} {st st' : ParseState} {lines : List Bytes}
    {e : Bytes} (h : scanLines canon st lines = (st', .error e)) :
    ∃ read line rest, lines = read ++ line :: rest ∧ scanLines canon st read = (st', .ok ()) ∧
      st'.parseLine canon line = .error e := by
  induction lines generalizing st with
  | nil => simp [scanLines] at h
  | cons line lines ih =>
      rw [scanLines] at h
      cases hline : st.parseLine canon line with
      | error e' =>
          simp only [hline, Prod.mk.injEq, Except.error.injEq] at h
          obtain ⟨rfl, rfl⟩ := h
          exact ⟨[], line, lines, rfl, rfl, hline⟩
      | ok st₁ =>
          simp only [hline] at h
          obtain ⟨read, line', rest, rfl, hread, hrejected⟩ := ih h
          refine ⟨line :: read, line', rest, rfl, ?_, hrejected⟩
          rw [scanLines, hline]
          exact hread

/-- A header that can be read. -/
def ReadableHeader (line : Bytes) : Prop :=
  ∃ path, HeaderNames kEdFileHeader line path ∨ HeaderNames kEdNewFileHeader line path

/-- A header outside of input blocks that closes the sections of the lines in
front of it. -/
def ClosesAt (lines closed : List Bytes) : Prop :=
  ∃ header rest ss, lines = closed ++ header :: rest ∧ Body false closed [] ss ∧
    ReadableHeader header

/-- The lines in front of the last header that closes something. -/
structure LastClosed (lines closed : List Bytes) : Prop where
  closes : closed = [] ∨ ClosesAt lines closed
  last : ∀ closed', ClosesAt lines closed' → closed'.length ≤ closed.length

/-- What the grammar derives is scanned to a state outside of blocks. -/
theorem inInput_of_body {canon : Bytes → Bytes} {lines : List Bytes} {ss : List FileSection}
    (h : Body false lines [] ss) {st : ParseState}
    (hscan : scanLines canon {} lines = (st, .ok ())) : st.inInput = false := by
  obtain ⟨st', hscan', hin, _⟩ := @Body.scan canon false _ [] ss h {} rfl rfl
  rw [hscan, Prod.mk.injEq] at hscan'
  rw [hscan'.1, hin]

/-- One more line that does not close anything. -/
theorem LastClosed.snoc {read closed : List Bytes} {line : Bytes} (h : LastClosed read closed)
    (hopen : ReadableHeader line → ∀ ss, ¬ Body false read [] ss) (rest : List Bytes)
    (hrest : ∀ more ss, more.length < rest.length → ¬ Body false (read ++ line :: more) [] ss) :
    LastClosed (read ++ line :: rest) closed := by
  refine ⟨?_, ?_⟩
  · rcases h.closes with hnil | ⟨header, behind, ss, rfl, hbody, hheader⟩
    · exact .inl hnil
    · exact .inr ⟨header, behind ++ line :: rest, ss, by simp, hbody, hheader⟩
  · rintro closed' ⟨header, behind, ss, heq, hbody, hheader⟩
    -- where does the closing header stand?
    rcases List.append_eq_append_iff.mp heq with ⟨more, rfl, htail⟩ | ⟨more, hread, htail⟩
    · cases more with
      | nil =>
          rw [List.append_nil] at hbody
          obtain ⟨rfl, _⟩ := List.cons.inj htail
          exact absurd hbody (hopen hheader ss)
      | cons l more =>
          obtain ⟨rfl, rfl⟩ := List.cons.inj htail
          exact absurd hbody (hrest more ss (by simp))
    · cases more with
      | nil =>
          rw [List.append_nil] at hread
          obtain ⟨rfl, _⟩ := List.cons.inj htail
          subst hread
          exact absurd hbody (hopen hheader ss)
      | cons l more =>
          obtain ⟨rfl, _⟩ := List.cons.inj htail
          exact h.last closed' ⟨header, more, ss, hread, hbody, hheader⟩

/-- `index` holds the sections in front of the last header that closes something. -/
def HoldsClosed (canon : Bytes → Bytes) (lines : List Bytes) (index : List Entry) : Prop :=
  ∃ closed ss, LastClosed lines closed ∧ Body false closed [] ss ∧ index = entriesOf canon ss

/-- A line that closes nothing leaves the index as it is. -/
theorem HoldsClosed.keep {canon : Bytes → Bytes} {read : List Bytes} {index : List Entry}
    (h : HoldsClosed canon read index) {line : Bytes}
    (hopen : ReadableHeader line → ∀ ss, ¬ Body false read [] ss) :
    HoldsClosed canon (read ++ [line]) index := by
  obtain ⟨closed, ss, hlast, hbody, hindex⟩ := h
  exact ⟨closed, ss, hlast.snoc hopen [] fun more _ hlt => absurd hlt (by simp), hbody, hindex⟩

/-- A header outside of blocks closes all that was read. -/
theorem HoldsClosed.close {canon : Bytes → Bytes} {read : List Bytes} {st : ParseState}
    (hread : scanLines canon {} read = (st, .ok ())) (hin : st.inInput = false) {line : Bytes}
    (hheader : ReadableHeader line) :
    HoldsClosed canon (read ++ [line]) st.flushCurrent.index := by
  obtain ⟨cs, ss, hbody⟩ := body_of_scan rfl hread hin
  obtain rfl := hbody.unopened
  obtain ⟨st', hscan, _, hindex⟩ := @Body.scan canon false _ [] ss hbody {} rfl rfl
  rw [hread, Prod.mk.injEq] at hscan
  rw [← hscan.1] at hindex
  refine ⟨read, ss, ⟨.inr ⟨line, [], ss, rfl, hbody, hheader⟩, ?_⟩, hbody, hindex⟩
  rintro closed' ⟨header, rest, _, heq, _⟩
  have hlen := congrArg List.length heq
  simp only [List.length_append, List.length_cons, List.length_nil] at hlen
  omega

/-- One more line. -/
theorem HoldsClosed.step {canon : Bytes → Bytes} {read : List Bytes} {line : Bytes}
    {st st' : ParseState} (h : HoldsClosed canon read st.index)
    (hread : scanLines canon {} read = (st, .ok ()))
    (hline : st.parseLine canon line = .ok st') :
    HoldsClosed canon (read ++ [line]) st'.index := by
  cases hin : st.inInput with
  | true =>
      -- in a block no header is read
      have hsame : st'.index = st.index := by
        rw [ParseState.parseLine, if_pos hin, Except.ok.injEq] at hline
        rw [← hline, ParseState.inputLine]
        split <;> rfl
      rw [hsame]
      refine h.keep fun _ ss hbody => ?_
      rw [inInput_of_body hbody hread] at hin
      exact absurd hin (by simp)
  | false =>
      -- a header closes what was read, any other line nothing
      have hnone : lineRole line = some .filler ∨ lineRole line = some .command →
          ¬ ReadableHeader line := by
        rintro hrole ⟨path, hpath | hpath⟩
        · rw [lineRole_file hpath] at hrole
          simp at hrole
        · rw [lineRole_newFile hpath] at hrole
          simp at hrole
      rcases parseLine_cases hin hline with ⟨path, hpath, rfl⟩ | ⟨path, hpath, rfl⟩ |
        ⟨hfile, hnew, hfiller, rfl⟩ | ⟨_, c, hcommand, rfl⟩
      · exact HoldsClosed.close hread hin ⟨path, .inl hpath⟩
      · exact HoldsClosed.close hread hin ⟨path, .inr hpath⟩
      · have hrole := lineRole_filler hfile hnew hfiller
        exact h.keep fun hheader => absurd hheader (hnone (.inl hrole))
      · have hsame : (st.enter c).index = st.index := by
          unfold ParseState.enter
          split <;> rfl
        rw [hsame]
        exact h.keep fun hheader => absurd hheader (hnone (.inr (lineRole_command hcommand)))

/-- The index during a scan: the sections in front of the last header. -/
theorem index_of_scan {canon : Bytes → Bytes} {read : List Bytes} {st : ParseState}
    (h : scanLines canon {} read = (st, .ok ())) : HoldsClosed canon read st.index := by
  induction read using List.reverseRecOn generalizing st with
  | nil =>
      obtain rfl := (Prod.mk.inj h).1
      refine ⟨[], [], ⟨.inl rfl, ?_⟩, .nil, rfl⟩
      rintro closed' ⟨header, rest, ss, heq, _⟩
      simp at heq
  | append_singleton read line ih =>
      rw [scanLines_append] at h
      rcases hread : scanLines canon {} read with ⟨st₁, e | ⟨⟩⟩
      · simp [hread] at h
      · rw [hread] at h
        simp only [scanLines] at h
        cases hline : st₁.parseLine canon line with
        | error e => simp [hline] at h
        | ok st₂ =>
            simp only [hline, Prod.mk.injEq, and_true] at h
            rw [← h]
            exact (ih hread).step hread hline

/-- Where the scan stops early, the index is what it was in front of the line it
rejects, and no header behind that line counts. -/
theorem index_of_scan_error {canon : Bytes → Bytes} {lines : List Bytes} {st : ParseState}
    {e : Bytes} (h : scanLines canon {} lines = (st, .error e)) :
    (∀ ss, ¬ Body false lines [] ss) ∧ HoldsClosed canon lines st.index := by
  obtain ⟨read, line, rest, rfl, hread, hrejected⟩ := scanLines_error h
  -- a text that goes on behind the line is not derived, as its scan stops there
  have hrest : ∀ more ss, ¬ Body false (read ++ line :: more) [] ss := by
    intro more ss hbody
    obtain ⟨st', hscan, _⟩ := @Body.scan canon false _ [] ss hbody {} rfl rfl
    rw [scanLines_append, hread] at hscan
    simp [scanLines, hrejected] at hscan
  have hopen : ReadableHeader line → ∀ ss, ¬ Body false read [] ss := by
    rintro ⟨path, hpath | hpath⟩ ss hbody
    · rw [parseLine_file (inInput_of_body hbody hread) hpath] at hrejected
      simp at hrejected
    · rw [parseLine_newFile (inInput_of_body hbody hread) hpath] at hrejected
      simp at hrejected
  obtain ⟨closed, ss, hlast, hbody, hindex⟩ := index_of_scan hread
  exact ⟨hrest rest, closed, ss, hlast.snoc hopen rest (fun more ss _ => hrest more ss), hbody,
    hindex⟩

end Phpatcher.Core
