import Phpatcher.Core.Bundle

/-!
# The format of a bundle

What the README says a bundle is, as a grammar over its lines: `Body` derives
the sections of a text, each with its commands as they are written. The
readers of a single line are tied to the grammar here (`parseEdCommand_iff`,
`headerPath_eq_some`, `isIgnored_iff`), and a text has one derivation at most
(`Body.unique`).
-/

namespace Phpatcher.Core

open Phpatcher.Basis

/-! ## Numbers -/

/-- A number as `read_uint` accepts it. -/
structure IsNumber (digits : Bytes) (n : Nat) : Prop where
  ne_nil : digits ≠ []
  allDigits : ∀ c ∈ digits, isDigit c = true
  value : readDigits 0 digits = n
  le : n ≤ readUintMax

/-- `read_uint` reads the longest number at the start of a text. -/
theorem readUint_eq_some {s rest : Bytes} {n : Nat} :
    readUint s = some (n, rest) ↔
      ∃ digits, s = digits ++ rest ∧ IsNumber digits n ∧
        ∀ c, rest.head? = some c → isDigit c = false := by
  have hscan := @scanDigits_eq_some ((int64Max - 9) / 10) 0 n s rest (Nat.zero_le _)
  constructor
  · intro h
    cases s with
    | nil => exact absurd h (by simp [readUint])
    | cons c s =>
        rw [readUint] at h
        split at h
        next hc =>
          obtain ⟨digits, hs, hdigits, hvalue, hle, hstop⟩ := hscan.mp h
          refine ⟨digits, hs, ⟨?_, hdigits, hvalue, hle⟩, hstop⟩
          rintro rfl
          have := hstop c (by rw [← hs.trans (List.nil_append rest)]; rfl)
          rw [hc] at this
          exact absurd this (by simp)
        next => exact absurd h (by simp)
  · intro h
    obtain ⟨digits, rfl, hnum, hstop⟩ := h
    have h := hscan.mpr ⟨digits, rfl, hnum.allDigits, hnum.value, hnum.le, hstop⟩
    obtain ⟨c, ds, hds⟩ := List.exists_cons_of_ne_nil hnum.ne_nil
    have hc : isDigit c = true := hnum.allDigits c (hds ▸ List.mem_cons_self)
    rw [hds, List.cons_append] at h ⊢
    rw [readUint, if_pos hc, h]

/-! ## Command lines -/

/-- A command as it is written: its addresses, and its input block. -/
structure WrittenCommand where
  kind : Kind
  first : Nat
  second : Option Nat := none
  input : List EdPiece := []
  deriving DecidableEq, Repr

/-- The command `parse_ed_command` makes of it. -/
def WrittenCommand.command (c : WrittenCommand) : EdCommand :=
  { EdCommand.ofHeader c.kind c.first (c.second.getD c.first) with input := c.input }

/-- A command line: one address or two, the letter, and blanks up to the end. -/
inductive CommandLine : Bytes → WrittenCommand → Prop
  | single {digits blanks : Bytes} {n : Nat} {op : UInt8} {kind : Kind} :
      IsNumber digits n → Kind.ofLetter op = some kind → (∀ b ∈ blanks, isBlank b = true) →
      CommandLine (digits ++ op :: blanks) { kind, first := n }
  | pair {digits digits' blanks : Bytes} {m n : Nat} {op : UInt8} {kind : Kind} :
      IsNumber digits m → IsNumber digits' n → Kind.ofLetter op = some kind →
      (∀ b ∈ blanks, isBlank b = true) →
      CommandLine (digits ++ comma :: (digits' ++ op :: blanks))
        { kind, first := m, second := some n }

theorem rtrim_eq_nil {s : Bytes} : rtrim s = [] ↔ ∀ b ∈ s, isBlank b = true :=
  List.rdropWhile_eq_nil_iff

/-- A command letter is no digit and no comma. -/
theorem ofLetter_some {op : UInt8} {kind : Kind} (h : Kind.ofLetter op = some kind) :
    isDigit op = false ∧ op ≠ comma := by
  unfold Kind.ofLetter at h
  split_ifs at h with hd hc ha hi
  · subst hd; decide
  · subst hc; decide
  · subst ha; decide
  · subst hi; decide

/-- The addresses are read; what is left decides. -/
theorem parseEdCommand_eq_some {line : Bytes} {cmd : EdCommand} {needsInput : Bool} :
    parseEdCommand line = some (cmd, needsInput) ↔
      ∃ first rest second op tail kind, readUint line = some (first, rest) ∧
        readSecond first rest = some (second, op :: tail) ∧ rtrim tail = [] ∧
        Kind.ofLetter op = some kind ∧ cmd = .ofHeader kind first second ∧
        needsInput = kind.needsInput := by
  simp only [parseEdCommand, Option.bind_eq_bind, Option.bind_eq_some_iff, Prod.exists]
  constructor
  · intro h
    obtain ⟨first, rest, hfirst, second, rest', hsecond, h⟩ := h
    cases rest' with
    | nil => exact absurd h (by simp)
    | cons op tail =>
        simp only at h
        split at h
        · exact absurd h (by simp)
        next htail =>
          simp only [Option.bind_eq_some_iff, pure, Option.some.injEq, Prod.mk.injEq] at h
          obtain ⟨kind, hkind, rfl, rfl⟩ := h
          exact ⟨first, rest, second, op, tail, kind, hfirst, hsecond, by simpa using htail, hkind,
            rfl, rfl⟩
  · intro h
    obtain ⟨first, rest, second, op, tail, kind, hfirst, hsecond, htail, hkind, rfl, rfl⟩ := h
    exact ⟨first, rest, hfirst, second, op :: tail, hsecond, by simp [htail, hkind]⟩

/-- How a command line is read: the first number, and behind it the letter, or
a comma and the second number. -/
theorem CommandLine.read {line : Bytes} {c : WrittenCommand} (h : CommandLine line c) :
    ∃ op tail, Kind.ofLetter op = some c.kind ∧ (∀ b ∈ tail, isBlank b = true) ∧ c.input = [] ∧
      ((c.second = none ∧ readUint line = some (c.first, op :: tail)) ∨
        ∃ n rest, c.second = some n ∧ readUint line = some (c.first, comma :: rest) ∧
          readUint rest = some (n, op :: tail)) := by
  cases h with
  | @single digits blanks n op kind hnum hkind hblanks =>
      refine ⟨op, blanks, hkind, hblanks, rfl, .inl ⟨rfl, ?_⟩⟩
      exact readUint_eq_some.mpr ⟨digits, rfl, hnum, by simpa using (ofLetter_some hkind).1⟩
  | @pair digits digits' blanks m n op kind hnum hnum' hkind hblanks =>
      refine ⟨op, blanks, hkind, hblanks, rfl, .inr ⟨n, digits' ++ op :: blanks, rfl, ?_, ?_⟩⟩
      · refine readUint_eq_some.mpr ⟨digits, rfl, hnum, ?_⟩
        intro c hc
        rw [← Option.some.inj hc]
        decide
      · exact readUint_eq_some.mpr ⟨digits', rfl, hnum', by simpa using (ofLetter_some hkind).1⟩

/-- `parse_ed_command` reads exactly the command lines. -/
theorem parseEdCommand_iff {line : Bytes} {cmd : EdCommand} {needsInput : Bool} :
    parseEdCommand line = some (cmd, needsInput) ↔
      ∃ c, CommandLine line c ∧ cmd = c.command ∧ needsInput = c.kind.needsInput := by
  rw [parseEdCommand_eq_some]
  constructor
  · intro h
    obtain ⟨first, rest, second, op, tail, kind, hfirst, hsecond, htail, hkind, rfl, rfl⟩ := h
    obtain ⟨digits, rfl, hnum, _⟩ := readUint_eq_some.mp hfirst
    rw [rtrim_eq_nil] at htail
    cases rest with
    | nil => exact absurd hsecond (by simp [readSecond])
    | cons c rest =>
        rw [readSecond] at hsecond
        split at hsecond
        next hcomma =>
          -- a comma: the second address follows
          obtain ⟨digits', rfl, hnum', _⟩ := readUint_eq_some.mp hsecond
          subst hcomma
          refine ⟨{ kind, first, second := some second }, .pair hnum hnum' hkind htail, ?_, rfl⟩
          cases kind <;> rfl
        next =>
          simp only [Option.some.injEq, Prod.mk.injEq, List.cons.injEq] at hsecond
          obtain ⟨rfl, rfl, rfl⟩ := hsecond
          refine ⟨{ kind, first }, .single hnum hkind htail, ?_, rfl⟩
          cases kind <;> rfl
  · intro h
    obtain ⟨⟨kind, first, second, input⟩, hline, rfl, rfl⟩ := h
    obtain ⟨op, tail, hkind, hblanks, rfl, hread⟩ := hline.read
    have hcomma := (ofLetter_some hkind).2
    rcases hread with ⟨rfl, hfirst⟩ | ⟨n, rest, rfl, hfirst, hsecond⟩
    · refine ⟨first, op :: tail, first, op, tail, kind, hfirst, by simp [readSecond, hcomma],
        rtrim_eq_nil.mpr hblanks, hkind, ?_, rfl⟩
      cases kind <;> rfl
    · refine ⟨first, comma :: rest, n, op, tail, kind, hfirst, ?_, rtrim_eq_nil.mpr hblanks, hkind,
        ?_, rfl⟩
      · rw [readSecond, if_pos rfl, hsecond]
      · cases kind <;> rfl

/-- A line is one command. -/
theorem CommandLine.unique {line : Bytes} {c c' : WrittenCommand} (h : CommandLine line c)
    (h' : CommandLine line c') : c = c' := by
  obtain ⟨kind, first, second, input⟩ := c
  obtain ⟨kind', first', second', input'⟩ := c'
  obtain ⟨op, tail, hkind, _, rfl, hread⟩ := h.read
  obtain ⟨op', tail', hkind', _, rfl, hread'⟩ := h'.read
  have hcomma := (ofLetter_some hkind).2
  have hcomma' := (ofLetter_some hkind').2
  rcases hread with ⟨rfl, hfirst⟩ | ⟨n, rest, rfl, hfirst, hsecond⟩ <;>
    rcases hread' with ⟨rfl, hfirst'⟩ | ⟨n', rest', rfl, hfirst', hsecond'⟩ <;>
    rw [hfirst, Option.some.injEq, Prod.mk.injEq, List.cons.injEq] at hfirst'
  · obtain ⟨rfl, rfl, rfl⟩ := hfirst'
    rw [hkind, Option.some.injEq] at hkind'
    simpa using hkind'
  · exact absurd hfirst'.2.1 hcomma
  · exact absurd hfirst'.2.1.symm hcomma'
  · obtain ⟨rfl, _, rfl⟩ := hfirst'
    rw [hsecond, Option.some.injEq, Prod.mk.injEq, List.cons.injEq] at hsecond'
    obtain ⟨rfl, rfl, rfl⟩ := hsecond'
    rw [hkind, Option.some.injEq] at hkind'
    simpa using hkind'

/-- A command line starts with a digit. -/
theorem CommandLine.eq_cons {line : Bytes} {c : WrittenCommand} (h : CommandLine line c) :
    ∃ d rest, line = d :: rest ∧ isDigit d = true := by
  have hstart : ∀ {digits : Bytes} {n : Nat} (s : Bytes), IsNumber digits n →
      ∃ d rest, digits ++ s = d :: rest ∧ isDigit d = true := by
    intro digits n s hnum
    obtain ⟨d, rest, rfl⟩ := List.exists_cons_of_ne_nil hnum.ne_nil
    exact ⟨d, rest ++ s, rfl, hnum.allDigits d List.mem_cons_self⟩
  cases h with
  | single hnum _ _ => exact hstart _ hnum
  | pair hnum _ _ _ => exact hstart _ hnum

/-! ## Headers and lines that are passed over -/

/-- A section header: blanks, the path, and blanks up to the end. -/
structure HeaderNames (header line path : Bytes) : Prop where
  ne_nil : path ≠ []
  split : ∃ gap blanks, line = header ++ (gap ++ path ++ blanks) ∧
    (∀ b ∈ gap, isSkipped b = true) ∧ ∀ b ∈ blanks, isBlank b = true
  first : ∀ c, path.head? = some c → isSkipped c = false
  last : ∀ c, path.getLast? = some c → isBlank c = false

/-- A line outside of input blocks that means nothing: a blank one, a comment,
or one of `w` and `q`. -/
def IsFiller (line : Bytes) : Prop :=
  trimBlanks line = [] ∨ (trimBlanks line).head? = some hash ∨
    trimBlanks line = ascii "w" ∨ trimBlanks line = ascii "q"

theorem rtrim_append {s blanks : Bytes} (h : ∀ b ∈ blanks, isBlank b = true) :
    rtrim (s ++ blanks) = rtrim s := by
  induction blanks using List.reverseRecOn with
  | nil => rw [List.append_nil]
  | append_singleton blanks b ih =>
      rw [List.forall_mem_append] at h
      rw [← List.append_assoc, rtrim, List.rdropWhile_concat_pos _ _ _ (h.2 b (by simp))]
      exact ih h.1

theorem rtrim_eq_self {s : Bytes} (h : ∀ c, s.getLast? = some c → isBlank c = false) :
    rtrim s = s := by
  rw [rtrim, List.rdropWhile_eq_self_iff]
  intro hne
  have := h _ (List.getLast?_eq_getLast_of_ne_nil hne)
  simpa using this

theorem HeaderNames.isPrefixOf {header line path : Bytes} (h : HeaderNames header line path) :
    header.isPrefixOf line = true := by
  obtain ⟨gap, blanks, rfl, _⟩ := h.split
  exact List.isPrefixOf_iff_prefix.mpr ⟨_, rfl⟩

/-- The two headers differ in their third byte. -/
theorem file_header_of_newFile {line : Bytes} (h : kEdNewFileHeader.isPrefixOf line = true) :
    kEdFileHeader.isPrefixOf line = false := by
  obtain ⟨r, rfl⟩ := List.isPrefixOf_iff_prefix.mp h
  rfl

/-- What `rtrim` leaves does not end in a blank. -/
theorem rtrim_last {s : Bytes} {c : UInt8} (h : (rtrim s).getLast? = some c) :
    isBlank c = false := by
  have hne : rtrim s ≠ [] := by
    intro hnil
    rw [hnil] at h
    exact absurd h (by simp)
  rw [List.getLast?_eq_getLast_of_ne_nil hne, Option.some.injEq] at h
  have := List.rdropWhile_last_not isBlank s hne
  rw [← h]
  simpa [rtrim] using this

/-- The path behind a header, as the scan reads it. -/
theorem headerPath_eq_some {header line path : Bytes} (hheader : header.isPrefixOf line = true) :
    headerPath header line = some path ↔ HeaderNames header line path := by
  obtain ⟨r, rfl⟩ := List.isPrefixOf_iff_prefix.mp hheader
  have hread : headerPath header (header ++ r) = some path ↔
      path ≠ [] ∧ (rtrim r).dropWhile isSkipped = path := by
    simp only [headerPath, List.drop_left]
    split
    next hnil =>
      simp only [reduceCtorEq, hnil, false_iff, not_and]
      exact fun hne heq => hne heq.symm
    next hne =>
      rw [Option.some.injEq]
      exact ⟨fun h => ⟨h ▸ hne, h⟩, fun h => h.2⟩
  rw [hread]
  constructor
  · intro h
    obtain ⟨hne, rfl⟩ := h
    refine ⟨hne, ⟨(rtrim r).takeWhile isSkipped, r.rtakeWhile isBlank, ?_, ?_, ?_⟩, ?_, ?_⟩
    · rw [List.takeWhile_append_dropWhile, rtrim, List.rdropWhile_append_rtakeWhile]
    · exact fun b hb => List.mem_takeWhile_imp hb
    · exact fun b hb => List.mem_rtakeWhile_imp hb
    · intro c hc
      have := List.head?_dropWhile_not isSkipped (rtrim r)
      rw [hc] at this
      simpa using this
    · intro c hc
      apply @rtrim_last r c
      rw [← @List.takeWhile_append_dropWhile _ isSkipped (rtrim r),
        List.getLast?_append_of_ne_nil _ hne]
      exact hc
  · intro h
    obtain ⟨gap, blanks, hsplit, hgap, hblanks⟩ := h.split
    refine ⟨h.ne_nil, ?_⟩
    rw [List.append_cancel_left hsplit, rtrim_append hblanks, rtrim_eq_self,
      List.dropWhile_append_of_pos hgap]
    · rw [List.dropWhile_eq_self_iff]
      intro hlen
      have := h.first path[0] (by simp [List.head?_eq_getElem?, hlen])
      simpa using this
    · intro c hc
      rw [List.getLast?_append_of_ne_nil _ h.ne_nil] at hc
      exact h.last c hc

/-- The lines the scan passes over. -/
theorem isIgnored_iff {line : Bytes} : isIgnored line = true ↔ IsFiller line := by
  have htrim : trimBlanks line = rtrim (line.dropWhile isBlank) := rfl
  rw [IsFiller, htrim, isIgnored]
  have hfirst := List.head?_dropWhile_not isBlank line
  cases hrest : line.dropWhile isBlank with
  | nil => simp [rtrim]
  | cons c rest =>
      rw [hrest] at hfirst
      -- the first byte is not blank, so trimming the end leaves it
      have hkeep : rtrim (c :: rest) ≠ [] ∧ (rtrim (c :: rest)).head? = some c := by
        have hne : rtrim (c :: rest) ≠ [] := by
          rw [Ne, rtrim_eq_nil]
          intro hall
          have := hall c List.mem_cons_self
          simp [this] at hfirst
        obtain ⟨d, t, hd⟩ := List.exists_cons_of_ne_nil hne
        have hpre := List.rdropWhile_prefix isBlank (c :: rest)
        rw [show List.rdropWhile isBlank (c :: rest) = d :: t from hd,
          List.cons_prefix_cons] at hpre
        exact ⟨hne, by rw [hd, hpre.1]; rfl⟩
      simp [hkeep, or_assoc]

/-! ## Sections -/

/-- A section as it is written; `# newfile:` stands for one more command, which
appends the content of the file to nothing. -/
structure FileSection where
  path : Bytes
  creates : Bool
  commands : List WrittenCommand
  deriving DecidableEq, Repr

/-- The file patch of a section. -/
def FileSection.filePatch (s : FileSection) : FilePatch :=
  { commands := s.commands.map WrittenCommand.command, creates := s.creates }

/-- The entry of a section; one without commands has none. -/
def FileSection.entries (canon : Bytes → Bytes) (s : FileSection) : List Entry :=
  if s.commands = [] then [] else [(canon s.path, s.filePatch)]

/-- The lines of an input block, as pieces. -/
def pieces (block : List Bytes) : List EdPiece := block.map parseEdInputPiece

/-- The pieces of lines that are no references. -/
theorem pieces_eq_literal {lines : List Bytes} (h : ∀ line ∈ lines, parseRDirective line = none) :
    pieces lines = lines.map .literal :=
  List.map_congr_left fun line hline => by simp [parseEdInputPiece, h line hline]

/-- The command a `# newfile:` block stands for. -/
def contentCommand (block : List Bytes) : WrittenCommand :=
  { kind := .append, first := 0, input := pieces block }

/-- What stands from a line outside of input blocks on: the commands that go to
the section that is open, if one is, and the sections that follow. -/
inductive Body : Bool → List Bytes → List WrittenCommand → List FileSection → Prop
  | nil {opened : Bool} : Body opened [] [] []
  | filler {opened : Bool} {line : Bytes} {lines : List Bytes} {cs : List WrittenCommand}
      {ss : List FileSection} :
      kEdFileHeader.isPrefixOf line = false → kEdNewFileHeader.isPrefixOf line = false →
      IsFiller line → Body opened lines cs ss → Body opened (line :: lines) cs ss
  | command {line : Bytes} {lines : List Bytes} {c : WrittenCommand} {cs : List WrittenCommand}
      {ss : List FileSection} :
      CommandLine line c → c.kind.needsInput = false → Body true lines cs ss →
      Body true (line :: lines) (c :: cs) ss
  | block {line : Bytes} {block lines : List Bytes} {c : WrittenCommand}
      {cs : List WrittenCommand} {ss : List FileSection} :
      CommandLine line c → c.kind.needsInput = true → [dot] ∉ block → Body true lines cs ss →
      Body true (line :: (block ++ [dot] :: lines)) ({ c with input := pieces block } :: cs) ss
  | file {opened : Bool} {line path : Bytes} {lines : List Bytes} {cs : List WrittenCommand}
      {ss : List FileSection} :
      HeaderNames kEdFileHeader line path → Body true lines cs ss →
      Body opened (line :: lines) [] (⟨path, false, cs⟩ :: ss)
  | newFile {opened : Bool} {line path : Bytes} {block lines : List Bytes}
      {cs : List WrittenCommand} {ss : List FileSection} :
      HeaderNames kEdNewFileHeader line path → [dot] ∉ block → Body true lines cs ss →
      Body opened (line :: (block ++ [dot] :: lines)) []
        (⟨path, true, contentCommand block :: cs⟩ :: ss)

/-- The sections of a bundle text. -/
def Document (text : Bytes) (sections : List FileSection) : Prop :=
  Body false (splitLines text) [] sections

/-! ## A text has one reading -/

/-- What a line outside of input blocks is for. -/
inductive LineRole where
  | file (path : Bytes)
  | newFile (path : Bytes)
  | filler
  | command
  deriving DecidableEq

/-- The role of a line, tried in the order of the scan. -/
def lineRole (line : Bytes) : Option LineRole :=
  if kEdFileHeader.isPrefixOf line then (headerPath kEdFileHeader line).map .file
  else if kEdNewFileHeader.isPrefixOf line then (headerPath kEdNewFileHeader line).map .newFile
  else if isIgnored line then some .filler
  else some .command

theorem lineRole_file {line path : Bytes} (h : HeaderNames kEdFileHeader line path) :
    lineRole line = some (.file path) := by
  simp [lineRole, h.isPrefixOf, (headerPath_eq_some h.isPrefixOf).mpr h]

theorem lineRole_newFile {line path : Bytes} (h : HeaderNames kEdNewFileHeader line path) :
    lineRole line = some (.newFile path) := by
  simp [lineRole, file_header_of_newFile h.isPrefixOf, h.isPrefixOf,
    (headerPath_eq_some h.isPrefixOf).mpr h]

theorem lineRole_filler {line : Bytes} (hfile : kEdFileHeader.isPrefixOf line = false)
    (hnew : kEdNewFileHeader.isPrefixOf line = false) (h : IsFiller line) :
    lineRole line = some .filler := by
  simp [lineRole, hfile, hnew, isIgnored_iff.mpr h]

theorem lineRole_command {line : Bytes} {c : WrittenCommand} (h : CommandLine line c) :
    lineRole line = some .command := by
  obtain ⟨d, rest, rfl, hd⟩ := h.eq_cons
  obtain ⟨hfile, hnew, hignored⟩ := digit_line rest hd
  simp [lineRole, hfile, hnew, hignored]

/-- The first lone dot ends a block. -/
theorem block_unique {block block' rest rest' : List Bytes} (h : [dot] ∉ block)
    (h' : [dot] ∉ block') (heq : block ++ [dot] :: rest = block' ++ [dot] :: rest') :
    block = block' ∧ rest = rest' := by
  induction block generalizing block' with
  | nil =>
      cases block' with
      | nil => exact ⟨rfl, (List.cons.inj heq).2⟩
      | cons line block' =>
          rw [← (List.cons.inj heq).1] at h'
          exact absurd List.mem_cons_self h'
  | cons line block ih =>
      cases block' with
      | nil =>
          rw [(List.cons.inj heq).1] at h
          exact absurd List.mem_cons_self h
      | cons line' block' =>
          obtain ⟨rfl, htail⟩ := List.cons.inj heq
          rw [List.mem_cons, not_or] at h h'
          obtain ⟨rfl, hrest⟩ := ih h.2 h'.2 htail
          exact ⟨rfl, hrest⟩

/-! What a body that starts with a line goes on with, by the role of the line. -/

theorem Body.filler_inv {opened : Bool} {line : Bytes} {lines : List Bytes}
    {cs : List WrittenCommand} {ss : List FileSection} (hrole : lineRole line = some .filler)
    (h : Body opened (line :: lines) cs ss) : Body opened lines cs ss := by
  cases h with
  | filler _ _ _ hrest => exact hrest
  | command hline _ _ => exact absurd (hrole.symm.trans (lineRole_command hline)) (by simp)
  | block hline _ _ _ => exact absurd (hrole.symm.trans (lineRole_command hline)) (by simp)
  | file hpath _ => exact absurd (hrole.symm.trans (lineRole_file hpath)) (by simp)
  | newFile hpath _ _ => exact absurd (hrole.symm.trans (lineRole_newFile hpath)) (by simp)

theorem Body.command_inv {opened : Bool} {line : Bytes} {lines : List Bytes}
    {cs : List WrittenCommand} {ss : List FileSection} (hrole : lineRole line = some .command)
    (h : Body opened (line :: lines) cs ss) :
    ∃ c cs', CommandLine line c ∧
      ((c.kind.needsInput = false ∧ cs = c :: cs' ∧ Body true lines cs' ss) ∨
        c.kind.needsInput = true ∧ ∃ block rest, lines = block ++ [dot] :: rest ∧ [dot] ∉ block ∧
          cs = { c with input := pieces block } :: cs' ∧ Body true rest cs' ss) := by
  cases h with
  | filler hfile hnew hfiller _ =>
      exact absurd (hrole.symm.trans (lineRole_filler hfile hnew hfiller)) (by simp)
  | command hline hneeds hrest => exact ⟨_, _, hline, .inl ⟨hneeds, rfl, hrest⟩⟩
  | block hline hneeds hblock hrest =>
      exact ⟨_, _, hline, .inr ⟨hneeds, _, _, rfl, hblock, rfl, hrest⟩⟩
  | file hpath _ => exact absurd (hrole.symm.trans (lineRole_file hpath)) (by simp)
  | newFile hpath _ _ => exact absurd (hrole.symm.trans (lineRole_newFile hpath)) (by simp)

theorem Body.file_inv {opened : Bool} {line path : Bytes} {lines : List Bytes}
    {cs : List WrittenCommand} {ss : List FileSection}
    (hrole : lineRole line = some (.file path)) (h : Body opened (line :: lines) cs ss) :
    cs = [] ∧ ∃ cs' ss', ss = ⟨path, false, cs'⟩ :: ss' ∧ Body true lines cs' ss' := by
  cases h with
  | filler hfile hnew hfiller _ =>
      exact absurd (hrole.symm.trans (lineRole_filler hfile hnew hfiller)) (by simp)
  | command hline _ _ => exact absurd (hrole.symm.trans (lineRole_command hline)) (by simp)
  | block hline _ _ _ => exact absurd (hrole.symm.trans (lineRole_command hline)) (by simp)
  | file hpath hrest =>
      have heq := hrole.symm.trans (lineRole_file hpath)
      simp only [Option.some.injEq, LineRole.file.injEq] at heq
      exact ⟨rfl, _, _, by rw [heq], hrest⟩
  | newFile hpath _ _ => exact absurd (hrole.symm.trans (lineRole_newFile hpath)) (by simp)

theorem Body.newFile_inv {opened : Bool} {line path : Bytes} {lines : List Bytes}
    {cs : List WrittenCommand} {ss : List FileSection}
    (hrole : lineRole line = some (.newFile path)) (h : Body opened (line :: lines) cs ss) :
    cs = [] ∧ ∃ block rest cs' ss', lines = block ++ [dot] :: rest ∧ [dot] ∉ block ∧
      ss = ⟨path, true, contentCommand block :: cs'⟩ :: ss' ∧ Body true rest cs' ss' := by
  cases h with
  | filler hfile hnew hfiller _ =>
      exact absurd (hrole.symm.trans (lineRole_filler hfile hnew hfiller)) (by simp)
  | command hline _ _ => exact absurd (hrole.symm.trans (lineRole_command hline)) (by simp)
  | block hline _ _ _ => exact absurd (hrole.symm.trans (lineRole_command hline)) (by simp)
  | file hpath _ => exact absurd (hrole.symm.trans (lineRole_file hpath)) (by simp)
  | newFile hpath hblock hrest =>
      have heq := hrole.symm.trans (lineRole_newFile hpath)
      simp only [Option.some.injEq, LineRole.newFile.injEq] at heq
      exact ⟨rfl, _, _, _, _, rfl, hblock, by rw [heq], hrest⟩

/-- A derivation is determined by its lines. -/
theorem Body.unique {opened : Bool} {lines : List Bytes} {cs cs' : List WrittenCommand}
    {ss ss' : List FileSection} (h : Body opened lines cs ss) (h' : Body opened lines cs' ss') :
    cs = cs' ∧ ss = ss' := by
  induction h generalizing cs' ss' with
  | nil =>
      cases h'
      exact ⟨rfl, rfl⟩
  | filler hfile hnew hfiller _ ih =>
      exact ih (h'.filler_inv (lineRole_filler hfile hnew hfiller))
  | command hline hneeds _ ih =>
      obtain ⟨c', cs'', hline', hcase⟩ := h'.command_inv (lineRole_command hline)
      obtain rfl := hline.unique hline'
      rcases hcase with ⟨_, rfl, hrest⟩ | ⟨hneeds', _⟩
      · obtain ⟨rfl, rfl⟩ := ih hrest
        exact ⟨rfl, rfl⟩
      · exact absurd (hneeds.symm.trans hneeds') (by simp)
  | block hline hneeds hblock _ ih =>
      obtain ⟨c', cs'', hline', hcase⟩ := h'.command_inv (lineRole_command hline)
      obtain rfl := hline.unique hline'
      rcases hcase with ⟨hneeds', _⟩ | ⟨_, block', rest, htail, hblock', rfl, hrest⟩
      · exact absurd (hneeds'.symm.trans hneeds) (by simp)
      · -- the block ends at the first lone dot in both readings
        obtain ⟨rfl, rfl⟩ := block_unique hblock hblock' htail
        obtain ⟨rfl, rfl⟩ := ih hrest
        exact ⟨rfl, rfl⟩
  | file hpath _ ih =>
      obtain ⟨rfl, cs'', ss'', rfl, hrest⟩ := h'.file_inv (lineRole_file hpath)
      obtain ⟨rfl, rfl⟩ := ih hrest
      exact ⟨rfl, rfl⟩
  | newFile hpath hblock _ ih =>
      obtain ⟨rfl, block', rest, cs'', ss'', htail, hblock', rfl, hrest⟩ :=
        h'.newFile_inv (lineRole_newFile hpath)
      obtain ⟨rfl, rfl⟩ := block_unique hblock hblock' htail
      obtain ⟨rfl, rfl⟩ := ih hrest
      exact ⟨rfl, rfl⟩

end Phpatcher.Core
