import Phpatcher.Glue.Freshness
import Phpatcher.Theorems.IndexInvariant

/-!
# Virtual files under other spellings

There is no file behind a `# newfile:` section, so its key is lexical: the path
of the section in normal form, under the real path of the base directory. A
missing include is looked up by its normal form in turn. So the hooks find the
section under every spelling with that normal form (`virtual_found_iff`), but
not through a link or an alias of its directory (`virtual_missed`).
-/

namespace Phpatcher.Theorems

open Phpatcher.Basis Phpatcher.Core Phpatcher.Glue

/-- The path of a section, under the base directory. -/
def sectionTarget (cfg : Config) (w : World) (s : FileSection) : Bytes :=
  target s.path (phpatcherBaseDir cfg w)

/-- The key of a section after startup. -/
def sectionKey (cfg : Config) (w : World) (s : FileSection) : Bytes :=
  engineKey w (canonicalize w.os s.path (phpatcherBaseDir cfg w))

/-- A `# newfile:` section of the installed patch; its file does not exist. -/
structure VirtualSection (sorter : EntrySorter) (cfg : Config) (w : World) (set : PatchSet)
    (s : FileSection) : Prop where
  installed : (minit sorter cfg w {}).patchset = some set
  written : ∃ text sections, w.disk cfg.patchFile = some text ∧ Document text sections ∧
    s ∈ sections
  creates : s.creates = true
  missing : w.os.realpath (sectionTarget cfg w s) = none

/-- The directory of a path, up to the slash. -/
def directoryOf (path : Bytes) : Bytes :=
  if slash ∈ path then path.rdropWhile (· != slash) else [dot]

/-- An absolute path of the same name in the same directory, where the engine
finds no file. -/
structure SpellsEntry (w : World) (path spelled : Bytes) : Prop where
  absolute : isRelative spelled = false
  directory : ∃ dir, w.os.realpath (directoryOf path) = some dir ∧
    w.os.realpath (directoryOf spelled) = some dir
  name : basenameOf spelled = basenameOf path
  isName : IsName (basenameOf path)
  missing : w.os.realpath spelled = none
  unresolved : w.engineResolve spelled = none

/-- The path is resolved to the key, and opened as the section under it. -/
structure FoundAs (cfg : Config) (st : State) (spelled key : Bytes) (fp : FilePatch) : Prop where
  resolved : phpatcherResolvePath st.world st.globals spelled = some key
  opened : ∀ fh : FileHandle, fh.filename = some spelled → fh.openedPath = none →
    createdFile st.world st.globals fh = some (key, fp) ∧
      phpatcherStreamOpen cfg st.world st.globals fh =
        (openOutcome cfg fh key (phpatcherGetPatched cfg st.world st.globals key fp).1,
          (phpatcherGetPatched cfg st.world st.globals key fp).2)

variable {sorter : EntrySorter} {cfg : Config} {w : World} {set : PatchSet} {s : FileSection}
  {st : State} {spelled key : Bytes} {fp : FilePatch}

/-! ## The lookups of a missing path -/

/-- A spelled path is opened under its normal form, if that is a key. -/
theorem createdFile_of_spelled (hindexed : set.Indexed) (hset : st.globals.patchset = some set)
    {path : Bytes} (hspells : SpellsEntry st.world path spelled)
    (hkey : lexicallyNormal spelled = key) (hfind : set.find key = some fp)
    (hcreates : fp.creates = true) {fh : FileHandle} (hfilename : fh.filename = some spelled)
    (hopened : fh.openedPath = none) :
    createdFile st.world st.globals fh = some (key, fp) := by
  have hbase : phpatcherBasename fh = basenameOf spelled := by
    rw [phpatcherBasename, hopened, hfilename]
  have hisName : IsName (basenameOf spelled) := by
    rw [hspells.name]
    exact hspells.isName
  -- the normal form has the spelled name, so the filter knows it
  have hknown : set.hasBasename (basenameOf spelled) = true := by
    rw [hindexed.hasBasename_iff]
    refine ⟨(key, fp), hindexed.mem_of_find hfind, ?_⟩
    rw [← hkey, basenameOf_lexicallyNormal hisName]
  rw [createdFile_eq_some hset hfilename, hbase]
  refine ⟨⟨hisName.1, hknown⟩, ?_, hfind, hcreates⟩
  rw [canonicalize_absolute _ hspells.absolute hspells.missing, hkey]

/-- A missing path is found as a section exactly when its normal form is the key
and the section is the one under it. -/
theorem foundAs_iff (hindexed : set.Indexed) (hset : st.globals.patchset = some set)
    {path : Bytes} (hspells : SpellsEntry st.world path spelled) (hcreates : fp.creates = true) :
    FoundAs cfg st spelled key fp ↔ lexicallyNormal spelled = key ∧ set.find key = some fp := by
  have hcanon := canonicalize_absolute st.globals.baseDir hspells.absolute hspells.missing
  constructor
  · intro h
    have hresolved := h.resolved
    rw [resolvePath_eq_some hset hspells.unresolved, hcanon] at hresolved
    obtain ⟨hcreated, _⟩ := h.opened { filename := some spelled } rfl rfl
    rw [createdFile_eq_some hset rfl] at hcreated
    exact ⟨hresolved.1, hcreated.2.2.1⟩
  · intro h
    obtain ⟨hkey, hfind⟩ := h
    constructor
    · rw [resolvePath_eq_some hset hspells.unresolved, hcanon]
      exact ⟨hkey, fp, hfind, hcreates⟩
    · intro fh hfilename hopened
      have hcreated := createdFile_of_spelled hindexed hset hspells hkey hfind hcreates
        hfilename hopened
      refine ⟨hcreated, ?_⟩
      rw [phpatcherStreamOpen, hcreated]

/-! ## The key of a missing file -/

theorem sectionKey_of_missing (h : w.os.realpath (sectionTarget cfg w s) = none) :
    sectionKey cfg w s =
      engineKey w (lexicalForm w.os.currentPath (sectionTarget cfg w s)) := by
  rw [sectionKey, canonicalize_of_missing h, sectionTarget]

/-- A path that is re-keyed to a missing one is that path. -/
theorem eq_of_engineKey_missing {p : Bytes}
    (hreal : ∀ p r, w.vcwdRealpath p = some r → w.vcwdRealpath r = some r)
    (hkey : engineKey w p = key) (hmissing : w.vcwdRealpath key = none) : p = key := by
  cases hresolved : w.vcwdRealpath p with
  | none => simpa [engineKey, hresolved] using hkey
  | some r =>
      rw [engineKey, hresolved, Option.getD_some] at hkey
      rw [← hkey, hreal p r hresolved] at hmissing
      simp at hmissing

/-- The index of a virtual section is a parsed one, re-keyed, and has the
section under its canonical path. -/
theorem VirtualSection.parsed (h : VirtualSection sorter cfg w set s) :
    ∃ parsed : PatchSet, parsed.Indexed ∧ (parsed.index.Pairwise fun a b => a.1 < b.1) ∧
      (canonicalize w.os s.path (phpatcherBaseDir cfg w), s.filePatch) ∈ parsed.index ∧
      parsed.recanonicalize sorter (engineKey w) = set := by
  obtain ⟨text, sections, htext, hdoc, hs⟩ := h.written
  obtain ⟨text', parsed, htext', hparse, hrekeyed, _⟩ := minit_of_patchset h.installed
  obtain rfl : text = text' := Option.some.inj (htext.symm.trans htext')
  obtain ⟨_, sections', hdoc', hunique, rfl⟩ := parse_eq_ok.mp hparse
  obtain rfl := hdoc.unique hdoc'
  refine ⟨_, parsedSet_indexed sorter _ sections, @parsedSet_strict sorter _ _ hunique, ?_,
    hrekeyed⟩
  rw [mem_parsedSet]
  exact ⟨s, hs, hdoc.commands_ne_nil s hs h.creates, rfl⟩

/-- A run keeps the index. -/
theorem VirtualSection.installed_at (h : VirtualSection sorter cfg w set s)
    (hreach : (systemFrom sorter cfg w).Reachable st) :
    st.globals.patchset = some set ∧ set.Indexed := by
  have hset : st.globals.patchset = some set := by
    rw [(sameSetup_invariant sorter cfg w st hreach).patchset, h.installed]
  exact ⟨hset, (installed_invariant sorter cfg st hreach.of_restrict set hset).indexed⟩

/-- Where real paths resolve to themselves, a key that is missing is that of one
section only. -/
theorem first_of_missing_key (hsection : VirtualSection sorter cfg w set s)
    (hreal : ∀ p r, w.vcwdRealpath p = some r → w.vcwdRealpath r = some r)
    (hmissing : w.vcwdRealpath (sectionKey cfg w s) = none) :
    (sectionsAt set (sectionKey cfg w s)).head? = some s.filePatch := by
  obtain ⟨parsed, hindexed, hstrict, hmem, rfl⟩ := hsection.parsed
  have hrenamed := PatchSet.indexed_recanonicalize sorter (engineKey w) parsed
  -- what is found under the key is an entry that had the key before
  obtain ⟨found, hfound⟩ := Option.isSome_iff_exists.mp
    ((hrenamed.find_isSome_iff (sectionKey cfg w s)).mpr
      ⟨_, PatchSet.mem_recanonicalize.mpr ⟨_, hmem, rfl⟩, rfl⟩)
  obtain ⟨d, hd, hrenames⟩ := PatchSet.mem_recanonicalize.mp (hrenamed.mem_of_find hfound)
  obtain ⟨hdkey, rfl⟩ := Prod.mk.inj hrenames
  have hdmem := (find_eq_some_iff hindexed hstrict).mpr hd
  rw [eq_of_engineKey_missing hreal hdkey hmissing] at hdmem
  -- and so is the section
  have hsmem := (find_eq_some_iff hindexed hstrict).mpr hmem
  rw [eq_of_engineKey_missing hreal rfl hmissing] at hsmem
  rw [← find_eq_head? hrenamed, hfound, ← hdmem]
  exact hsmem

/-- With a key that is missing the two normal forms decide alone. -/
theorem found_iff_sameForm (hsection : VirtualSection sorter cfg w set s)
    (hreach : (systemFrom sorter cfg w).Reachable st)
    (hspells : SpellsEntry st.world (sectionTarget cfg w s) spelled)
    (hreal : ∀ p r, w.vcwdRealpath p = some r → w.vcwdRealpath r = some r)
    (hmissing : w.vcwdRealpath (lexicalForm w.os.currentPath (sectionTarget cfg w s)) = none) :
    FoundAs cfg st spelled (sectionKey cfg w s) s.filePatch ↔
      lexicallyNormal spelled = lexicalForm w.os.currentPath (sectionTarget cfg w s) := by
  obtain ⟨hset, hindexed⟩ := hsection.installed_at hreach
  have hkey : sectionKey cfg w s = lexicalForm w.os.currentPath (sectionTarget cfg w s) := by
    rw [sectionKey_of_missing hsection.missing, engineKey, hmissing, Option.getD_none]
  have hfirst := first_of_missing_key hsection hreal (by rw [hkey, hmissing])
  rw [foundAs_iff hindexed hset hspells hsection.creates, find_eq_head? hindexed, hfirst, hkey]
  simp

/-- **Virtual files under other spellings.** In every state of a run from `w`, a
path of the section's entry is resolved to the section's key and opened as the
section exactly when its normal form is that of the section's path, re-keyed,
and no earlier section has the key. -/
theorem virtual_found_iff (sorter : EntrySorter) (cfg : Config) (w : World) {set : PatchSet}
    {s : FileSection} (hsection : VirtualSection sorter cfg w set s) {st : State}
    (hreach : (systemFrom sorter cfg w).Reachable st) {spelled : Bytes}
    (hspells : SpellsEntry st.world (sectionTarget cfg w s) spelled) :
    FoundAs cfg st spelled (sectionKey cfg w s) s.filePatch ↔
      lexicallyNormal spelled =
          engineKey w (lexicalForm w.os.currentPath (sectionTarget cfg w s)) ∧
        (sectionsAt set (sectionKey cfg w s)).head? = some s.filePatch := by
  obtain ⟨hset, hindexed⟩ := hsection.installed_at hreach
  rw [foundAs_iff hindexed hset hspells hsection.creates, find_eq_head? hindexed,
    sectionKey_of_missing hsection.missing]

/-- A file system with `/app/releases`, a link `/app/current` to it, and a link
`/link` to `/app`. -/
def releasesRealpath (path : Bytes) : Option Bytes :=
  if path = ascii "/app/releases/" ∨ path = ascii "/app/current/" ∨
      path = ascii "/app/releases/../current/" ∨ path = ascii "/link/current/" then
    some (ascii "/app/releases")
  else if path = ascii "/app" ∨ path = ascii "/app/releases" ∨ path = ascii "/patch" then
    some path
  else none

def releasesWorld : World where
  disk p :=
    if p = ascii "/patch" then some (ascii "# phpatcher-ed\n# newfile: current/v.php\n<?php\n.\n")
    else none
  os := ⟨releasesRealpath, some (ascii "/")⟩
  vcwdRealpath := releasesRealpath
  vcwdGetcwd := some (ascii "/")
  engineResolve := releasesRealpath

def releasesConfig : Config := { patchFile := ascii "/patch", baseDir := ascii "/app" }

def releasesSection : FileSection where
  path := ascii "current/v.php"
  creates := true
  commands := [contentCommand [ascii "<?php"]]

theorem releases_virtual : ∃ set,
    VirtualSection (Sorter.stable Prod.fst) releasesConfig releasesWorld set releasesSection := by
  obtain ⟨set, hset⟩ := Option.isSome_iff_exists.mp
    (show (minit (Sorter.stable Prod.fst) releasesConfig releasesWorld {}).patchset.isSome = true
      by decide +kernel)
  refine ⟨set, hset, ⟨_, [releasesSection], rfl, ?_, List.mem_singleton.mpr rfl⟩, rfl,
    by decide +kernel⟩
  have hlines : splitLines (ascii "# phpatcher-ed\n# newfile: current/v.php\n<?php\n.\n") =
      ascii "# phpatcher-ed" :: ascii "# newfile: current/v.php" ::
        ([ascii "<?php"] ++ [dot] :: []) := by decide +kernel
  have hheader : HeaderNames kEdNewFileHeader (ascii "# newfile: current/v.php")
      (ascii "current/v.php") := (headerPath_eq_some (by decide +kernel)).mp (by decide +kernel)
  have hmagic : IsFiller (ascii "# phpatcher-ed") := isIgnored_iff.mp (by decide +kernel)
  rw [Document, hlines]
  exact .filler (by decide +kernel) (by decide +kernel) hmagic
    (.newFile hheader (by decide +kernel) .nil)

theorem spells_releases {spelled : Bytes} (habsolute : isRelative spelled = false)
    (hdirectory : releasesRealpath (directoryOf spelled) = some (ascii "/app/releases"))
    (hname : basenameOf spelled = ascii "v.php") (hmissing : releasesRealpath spelled = none) :
    SpellsEntry releasesWorld (sectionTarget releasesConfig releasesWorld releasesSection)
      spelled where
  absolute := habsolute
  directory := ⟨_, by decide +kernel, hdirectory⟩
  name := by
    rw [hname]
    decide +kernel
  isName := by decide +kernel
  missing := hmissing
  unresolved := hmissing

/-- Found through `..`, which normalization removes. -/
theorem virtual_found_through_parent :
    FoundAs releasesConfig (startup (Sorter.stable Prod.fst) releasesConfig releasesWorld)
      (ascii "/app/releases/../current/v.php") (ascii "/app/current/v.php")
      releasesSection.filePatch := by
  obtain ⟨set, hsection⟩ := releases_virtual
  have hfirst : ((minit (Sorter.stable Prod.fst) releasesConfig releasesWorld {}).patchset.bind
      fun set => (sectionsAt set (ascii "/app/current/v.php")).head?) =
        some releasesSection.filePatch := by decide +kernel
  rw [hsection.installed] at hfirst
  exact (virtual_found_iff (Sorter.stable Prod.fst) releasesConfig releasesWorld hsection
    (.start ⟨⟨_, rfl⟩, rfl⟩) (spells_releases (by decide +kernel) (by decide +kernel)
      (by decide +kernel) (by decide +kernel))).mpr ⟨by decide +kernel, hfirst⟩

/-- Under the real path of its directory, as `__DIR__` gives it, and through
another link the virtual file is not found. -/
theorem virtual_missed :
    ∃ set, VirtualSection (Sorter.stable Prod.fst) releasesConfig releasesWorld set
        releasesSection ∧
      ∀ spelled ∈ [ascii "/app/releases/v.php", ascii "/link/current/v.php"],
        SpellsEntry releasesWorld (sectionTarget releasesConfig releasesWorld releasesSection)
            spelled ∧
          let st := startup (Sorter.stable Prod.fst) releasesConfig releasesWorld
          zendResolvePath releasesWorld st.globals spelled = none ∧
            (engineOpen releasesConfig releasesWorld st.globals { filename := some spelled }).1 =
              .delegated ∧
            ¬ FoundAs releasesConfig st spelled
              (sectionKey releasesConfig releasesWorld releasesSection)
              releasesSection.filePatch := by
  obtain ⟨set, hsection⟩ := releases_virtual
  refine ⟨set, hsection, ?_⟩
  have hmissed : ∀ spelled ∈ [ascii "/app/releases/v.php", ascii "/link/current/v.php"],
      phpatcherResolvePath releasesWorld
        (startup (Sorter.stable Prod.fst) releasesConfig releasesWorld).globals spelled = none := by
    decide +kernel
  intro spelled hspelled
  refine ⟨?_, ?_, ?_, ?_⟩
  · revert spelled
    rw [List.forall_mem_cons, List.forall_mem_singleton]
    exact ⟨spells_releases (by decide +kernel) (by decide +kernel) (by decide +kernel)
        (by decide +kernel),
      spells_releases (by decide +kernel) (by decide +kernel) (by decide +kernel)
        (by decide +kernel)⟩
  · revert spelled
    decide +kernel
  · revert spelled
    decide +kernel
  · intro hfound
    have hresolved := hfound.resolved
    rw [show (startup (Sorter.stable Prod.fst) releasesConfig releasesWorld).world =
      releasesWorld from rfl, hmissed spelled hspelled] at hresolved
    simp at hresolved

end Phpatcher.Theorems
