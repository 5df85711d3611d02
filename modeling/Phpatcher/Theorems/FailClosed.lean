import Phpatcher.Glue.System
import Phpatcher.Theorems.BasenameFilter

/-!
# Failing closed from startup on

With `on_error=fail` every file the patch names is compiled from a buffer the
hook fills, once the hook is there; and it is there exactly when the whole
bundle parses. One malformed, duplicated or unterminated section takes the
protection from all the others (`malformed_section_opens`).
-/

namespace Phpatcher.Theorems

open Phpatcher.Basis Phpatcher.Core Phpatcher.Glue

/-! ## The files a patch text names -/

/-- A line that `parse_ed_bundle` rejects, passed over: after an empty header
there is no section. -/
def passOver (st : ParseState) (line : Bytes) : ParseState :=
  if kEdFileHeader.isPrefixOf line || kEdNewFileHeader.isPrefixOf line then st.flushCurrent else st

/-- The line loop, passing over the lines it rejects. -/
def scanTolerant (canon : Bytes → Bytes) : ParseState → List Bytes → ParseState
  | st, [] => st
  | st, line :: rest =>
      match st.parseLine canon line with
      | .error _ => scanTolerant canon (passOver st line) rest
      | .ok st => scanTolerant canon st rest

/-- The sections of a text with at least one well-formed command, whatever else
the text holds. -/
def namedSections (canon : Bytes → Bytes) (text : Bytes) : List Entry :=
  (scanTolerant canon {} (splitLines text)).flushCurrent.index

/-- The text names the file whose canonical path is `key` in a `# file:` header
followed by a well-formed command. -/
def NamesFile (cfg : Config) (w : World) (text key : Bytes) : Prop :=
  ∃ e ∈ namedSections (fun path => canonicalize w.os path (phpatcherBaseDir cfg w)) text,
    e.2.creates = false ∧ engineKey w e.1 = key ∧ basenameOf key ≠ []

instance (cfg : Config) (w : World) (text key : Bytes) : Decidable (NamesFile cfg w text key) :=
  inferInstanceAs (Decidable (∃ e ∈ namedSections
      (fun path => canonicalize w.os path (phpatcherBaseDir cfg w)) text,
    e.2.creates = false ∧ engineKey w e.1 = key ∧ basenameOf key ≠ []))

/-- Where the scan accepts every line there is nothing to pass over. -/
theorem scanTolerant_of_scanLines {canon : Bytes → Bytes} {lines : List Bytes}
    {st st' : ParseState} (h : scanLines canon st lines = (st', .ok ())) :
    scanTolerant canon st lines = st' := by
  induction lines generalizing st with
  | nil => exact (Prod.mk.inj h).1
  | cons line rest ih =>
      rw [scanLines] at h
      rw [scanTolerant]
      cases hline : st.parseLine canon line with
      | error e =>
          rw [hline] at h
          simp at h
      | ok next =>
          rw [hline] at h
          exact ih h

/-- A text that parses names the sections of its index. -/
theorem mem_index_of_parse {sorter : EntrySorter} {canon : Bytes → Bytes} {text : Bytes}
    {set : PatchSet} (h : PatchSet.parse sorter canon text {} = (set, .ok ())) {e : Entry}
    (he : e ∈ namedSections canon text) : e ∈ set.index := by
  unfold PatchSet.parse at h
  split at h
  next hempty =>
    subst hempty
    simp [namedSections, splitLines, splitWith, scanTolerant, ParseState.flushCurrent] at he
  next =>
    split at h
    · simp at h
    · unfold parseEdBundle at h
      split at h
      · simp at h
      next st hscan =>
        rw [namedSections, scanTolerant_of_scanLines hscan] at he
        split at h
        · simp at h
        · unfold finalize at h
          simp only at h
          split at h
          · simp at h
          · rw [← (Prod.mk.inj h).1]
            exact sorter.mem_run.mpr he

/-! ## Compilations of a named file -/

/-- A handle that is not buffered yet and opened under its canonical path. -/
def OpenedUnder (w : World) (g : Globals) (fh : FileHandle) (key : Bytes) : Prop :=
  fh.buf = none ∧
    (fh.openedPath = some key ∨
      fh.openedPath = none ∧ fh.filename = some key ∧ phpatcherCanonicalPath w g fh = some key)

/-- No compilation of a file the text names leaves reading it to the compiler. -/
def RefusesOriginal (cfg : Config) (w : World) (text : Bytes) (s : State) : Prop :=
  ∀ key fh, NamesFile cfg w text key → OpenedUnder s.world s.globals fh key →
    (engineCompile cfg s.world s.globals fh).1.buf ≠ none

/-- The lookup finds a key under which a handle is opened. -/
theorem resolve_openedUnder {w : World} {g : Globals} {set : PatchSet} (hset : set.Indexed)
    {fh : FileHandle} {key : Bytes} (hkey : IsKey set key) (hbase : basenameOf key ≠ [])
    (hopened : OpenedUnder w g fh key) : (phpatcherResolve w g set fh).isSome := by
  have hspelled : SpelledLikeKey set fh := by
    have hbasename : phpatcherBasename fh = basenameOf key := by
      obtain ⟨_, hpath | ⟨hpath, hname, _⟩⟩ := hopened
      · simp [phpatcherBasename, hpath]
      · simp [phpatcherBasename, hpath, hname]
    obtain ⟨e, he, rfl⟩ := hkey
    exact ⟨hbasename ▸ hbase, e, he, hbasename.symm⟩
  obtain ⟨_, hpath | ⟨_, _, hcanon⟩⟩ := hopened
  · -- the opened path is tried before any canonical path
    have hfilter : ¬ (phpatcherBasename fh = [] ∨
        set.hasBasename (phpatcherBasename fh) = false) := by
      rw [not_or, Bool.not_eq_false, hset.hasBasename_iff]
      exact hspelled
    obtain ⟨fp, hfind⟩ := Option.isSome_iff_exists.mp ((hset.find_isSome_iff key).mpr hkey)
    simp [phpatcherResolve, if_neg hfilter, hpath, findKey, hfind]
  · exact resolve_isSome hset hspelled hcanon hkey

/-- Failing closed every outcome fills the buffer. -/
theorem compileOutcome_buf_ne_none {cfg : Config} (hclosed : cfg.failClosed = true)
    (fh : FileHandle) (path : Bytes) (outcome : Patched) :
    (compileOutcome cfg fh path outcome).buf ≠ none := by
  cases outcome <;> simp [compileOutcome, hclosed, phpatcherInjectSource]

/-- After a parse that succeeds. -/
theorem refusesOriginal_of_parse {sorter : EntrySorter} {cfg : Config} {w : World}
    {text : Bytes} {set : PatchSet} (henabled : cfg.enabled = true) (hfile : cfg.patchFile ≠ [])
    (hread : w.disk cfg.patchFile = some text) (hclosed : cfg.failClosed = true)
    (hparse : PatchSet.parse sorter
      (fun path => canonicalize w.os path (phpatcherBaseDir cfg w)) text {} = (set, .ok ())) :
    (systemFrom sorter cfg w).Invariant (RefusesOriginal cfg w text) := by
  rintro s hreach key fh ⟨e, he, _, rfl, hbase⟩ hopened
  have hmem : e ∈ set.index := mem_index_of_parse hparse he
  have hinstall := minit_of_parse henabled hfile hread hparse (List.ne_nil_of_mem hmem)
  have hset : s.globals.patchset = some (set.recanonicalize sorter (engineKey w)) := by
    rw [(sameSetup_invariant sorter cfg w s hreach).patchset, hinstall]
    rfl
  have hinstalled := installed_invariant sorter cfg s hreach.of_restrict _ hset
  have hkey : IsKey (set.recanonicalize sorter (engineKey w)) (engineKey w e.1) :=
    ⟨(engineKey w e.1, e.2), PatchSet.mem_recanonicalize.mpr ⟨e, hmem, rfl⟩, rfl⟩
  obtain ⟨⟨path, fp⟩, hresolve⟩ := Option.isSome_iff_exists.mp
    (resolve_openedUnder hinstalled.indexed hkey hbase hopened)
  rw [engineCompile, if_pos hinstalled.compileHook,
    compileFile_of_resolve hset hopened.1 hresolve]
  exact compileOutcome_buf_ne_none hclosed fh path _

/-- After a parse that fails nothing is installed, and every compilation is left
to the compiler. -/
theorem compile_of_parse_error {sorter : EntrySorter} {cfg : Config} {w : World} {text : Bytes}
    (hread : w.disk cfg.patchFile = some text)
    (hparse : (PatchSet.parse sorter
      (fun path => canonicalize w.os path (phpatcherBaseDir cfg w)) text {}).2 ≠ .ok ())
    (fh : FileHandle) :
    (engineCompile cfg w (startup sorter cfg w).globals fh).1 = fh := by
  rcases minit_cases sorter cfg w with ⟨_, _, _, hhook⟩ | ⟨diffText, set, hread', hok, _⟩
  · simp [engineCompile, startup, hhook]
  · obtain rfl : text = diffText := Option.some.inj (hread.symm.trans hread')
    rw [hok] at hparse
    exact absurd rfl hparse

/-- **Failing closed from startup on.** For every patch text and base directory
with the extension enabled, a readable patch file and `on_error=fail`: the
original of a named file is never left to the compiler, in any state of any
run, exactly when the whole text parses or no file is named. -/
theorem fail_closed_iff (sorter : EntrySorter) (cfg : Config) (w : World) (text : Bytes)
    (henabled : cfg.enabled = true) (hfile : cfg.patchFile ≠ [])
    (hread : w.disk cfg.patchFile = some text) (hclosed : cfg.failClosed = true) :
    (systemFrom sorter cfg w).Invariant (RefusesOriginal cfg w text) ↔
      (PatchSet.parse sorter
        (fun path => canonicalize w.os path (phpatcherBaseDir cfg w)) text {}).2 = .ok () ∨
        ∀ key, ¬ NamesFile cfg w text key := by
  constructor
  · intro h
    -- with nothing installed, a handle of the named file goes through as it is
    by_contra hneither
    push Not at hneither
    obtain ⟨hparse, key, hnames⟩ := hneither
    refine h (startup sorter cfg w) (.start ⟨⟨w, rfl⟩, rfl⟩) key { openedPath := some key } hnames
      ⟨rfl, .inl rfl⟩ ?_
    exact congrArg FileHandle.buf (compile_of_parse_error hread hparse _)
  · rintro (hparse | hnone)
    · rcases hresult : PatchSet.parse sorter
        (fun path => canonicalize w.os path (phpatcherBaseDir cfg w)) text {} with ⟨set, outcome⟩
      rw [hresult] at hparse
      obtain rfl : outcome = .ok () := hparse
      exact refusesOriginal_of_parse henabled hfile hread hclosed hresult
    · intro s _ key fh hnames
      exact absurd hnames (hnone key)

/-- Files `/app/a.php` and `/app/b.php`, and a patch file with this text. -/
def patchedWorld (text : Bytes) : World where
  disk p :=
    if p = ascii "/patch" then some text
    else if p = ascii "/app/a.php" ∨ p = ascii "/app/b.php" then some (ascii "<?php\nevil();\n")
    else none
  os := ⟨some, some (ascii "/app")⟩
  vcwdRealpath := some
  vcwdGetcwd := some (ascii "/app")
  engineResolve := some

def closedConfig : Config where
  patchFile := ascii "/patch"
  onError := some (ascii "fail")

theorem fail_closed_iff_good :
    let text := ascii "# phpatcher-ed\n# file: a.php\n2d\n"
    (systemFrom (Sorter.stable Prod.fst) closedConfig (patchedWorld text)).Invariant
        (RefusesOriginal closedConfig (patchedWorld text) text) ∧
      NamesFile closedConfig (patchedWorld text) text (ascii "/app/a.php") := by
  intro text
  refine ⟨(fail_closed_iff (Sorter.stable Prod.fst) closedConfig (patchedWorld text) text rfl
    (by decide) (by decide +kernel) (by decide)).mpr (.inl (by decide +kernel)), ?_⟩
  decide +kernel

/-- The section of `a.php` is well formed, that of `b.php` is not: `a.php` is
compiled unpatched. -/
theorem malformed_section_opens :
    let text := ascii "# phpatcher-ed\n# file: a.php\n2d\n# file: b.php\nevil\n"
    let w := patchedWorld text
    let s := startup (Sorter.stable Prod.fst) closedConfig w
    let fh : FileHandle := { openedPath := some (ascii "/app/a.php") }
    NamesFile closedConfig w text (ascii "/app/a.php") ∧
      (engineCompile closedConfig s.world s.globals fh).1 = fh ∧
      ¬ (systemFrom (Sorter.stable Prod.fst) closedConfig w).Invariant
        (RefusesOriginal closedConfig w text) := by
  intro text w s fh
  have hnames : NamesFile closedConfig w text (ascii "/app/a.php") := by decide +kernel
  have hcompile : (engineCompile closedConfig s.world s.globals fh).1 = fh := by decide +kernel
  refine ⟨hnames, hcompile, fun h => ?_⟩
  apply h s (.start ⟨⟨w, rfl⟩, rfl⟩) _ fh hnames ⟨rfl, .inl rfl⟩
  rw [hcompile]

end Phpatcher.Theorems
