import Phpatcher.Glue.Freshness
import Phpatcher.Theorems.WholeBundle

/-!
# A deployed change set

The bundle of a change set is the patch file of a process whose source tree is the
old revision. Startup, the content maps, the hooks and any later edits that leave
alone what the sections are made from: every state of every run serves the result of
each change under its key, and no other file is touched.
-/

namespace Phpatcher.Theorems

open Phpatcher.Basis Phpatcher.Core Phpatcher.Glue Phpatcher.Tools

/-! ## Keys -/

/-- The one entry under a key, where the keys are distinct. -/
theorem filter_key_of_mem {index : List Entry} (h : (index.map Prod.fst).Nodup) {e : Entry}
    (he : e ∈ index) : (index.filter fun kv => kv.1 = e.1) = [e] := by
  induction index with
  | nil => simp at he
  | cons d index ih =>
      rw [List.map_cons, List.nodup_cons] at h
      rcases List.mem_cons.mp he with rfl | he'
      · have hrest : (index.filter fun kv => kv.1 = e.1) = [] :=
          List.filter_eq_nil_iff.mpr fun kv hkv heq =>
            h.1 (List.mem_map.mpr ⟨kv, hkv, of_decide_eq_true heq⟩)
        rw [List.filter_cons_of_pos (by simp), hrest]
      · have hother : d.1 ≠ e.1 := fun heq => h.1 (heq ▸ List.mem_map_of_mem he')
        rw [List.filter_cons_of_neg (by simpa using hother), ih h.2 he']

/-- The key a file of the change set is found under. -/
def targetKey (cfg : Config) (w : World) (change : FileChange) : Bytes :=
  engineKey w (canonicalize w.os change.path (phpatcherBaseDir cfg w))

section

variable {cfg : Config} {w : World} {revs : Revisions} {changes : List FileChange}

/-- The process is configured with the bundle of the change set, which can carry each
change, and no two files of which have one key. -/
structure Deployed (cfg : Config) (w : World) (em : Emission (phpatcherBaseDir cfg w) w.disk)
    (revs : Revisions) (changes : List FileChange) : Prop where
  enabled : cfg.enabled = true
  named : cfg.patchFile ≠ []
  readable : w.disk cfg.patchFile = some (bundleOf em revs changes)
  portable : ∀ change ∈ changes, change.Portable
  distinct : (changes.map (targetKey cfg w)).Nodup

/-- Edits leave alone the files that the sections are made from. -/
def KeepsInputs (cfg : Config) (w : World) (em : Emission (phpatcherBaseDir cfg w) w.disk)
    (changes : List FileChange) : State → Event → State → Prop
  | _, .edit w', _ => ∀ change ∈ changes,
      SameInputs (phpatcherBaseDir cfg w) w.disk w'.disk (targetKey cfg w change)
        (change.filePatch em)
  | _, .compile _, _ | _, .openStream _, _ => True

/-- The runs of the process. -/
def deployment (sorter : EntrySorter) (cfg : Config) (w : World)
    (em : Emission (phpatcherBaseDir cfg w) w.disk) (changes : List FileChange) :
    Transition State Event :=
  (system sorter cfg).restrict (· = startup sorter cfg w) (KeepsInputs cfg w em changes)

/-- The source tree holds the old revision of the file, and it can be patched. -/
def FileChange.Based (w : World) (key : Bytes) : FileChange → Prop
  | .added _ _ => True
  | @FileChange.modified _ old _ _ => w.disk key = some old ∧ phpatcherHasHaltCompiler old = false

/-! ## Startup -/

variable {em : Emission (phpatcherBaseDir cfg w) w.disk}

/-- The re-keyed index has the sections of the change set, each under its key. -/
structure IndexOf (cfg : Config) (w : World) (em : Emission (phpatcherBaseDir cfg w) w.disk)
    (changes : List FileChange) (set : PatchSet) : Prop where
  mem_iff : ∀ e, e ∈ set.index ↔ ∃ change ∈ changes, change.hasSection = true ∧
    (targetKey cfg w change, change.filePatch em) = e
  distinct : (set.index.map Prod.fst).Nodup

/-- The bundle is parsed into them. -/
theorem parse_deployed (sorter : EntrySorter) (h : Deployed cfg w em revs changes) :
    ∃ parsed, PatchSet.parse sorter
        (fun path => canonicalize w.os path (phpatcherBaseDir cfg w)) (bundleOf em revs changes)
        {} = (parsed, .ok ()) ∧
      IndexOf cfg w em changes (parsed.recanonicalize sorter (engineKey w)) := by
  have hfiltered : ((changes.filter FileChange.hasSection).map (targetKey cfg w)).Nodup :=
    h.distinct.sublist (List.filter_sublist.map _)
  have hrekeyed : (bundleEntries em (fun path => canonicalize w.os path (phpatcherBaseDir cfg w))
      changes).map (fun e => engineKey w e.1) =
        (changes.filter FileChange.hasSection).map (targetKey cfg w) := by
    rw [bundleEntries, List.map_map]
    rfl
  have hunique : ((bundleEntries em (fun path => canonicalize w.os path (phpatcherBaseDir cfg w))
      changes).map Prod.fst).Nodup := by
    rw [← hrekeyed, ← Function.comp_def (engineKey w), ← List.map_map] at hfiltered
    exact hfiltered.of_map
  obtain ⟨parsed, hparse, hindex⟩ := parse_bundle sorter _ revs {} h.portable hunique
  refine ⟨parsed, hparse, fun e => ?_, ?_⟩
  · rw [PatchSet.mem_recanonicalize, hindex]
    simp only [sorter.mem_run, mem_bundleEntries]
    constructor
    · rintro ⟨_, ⟨change, hchange, hsection, rfl⟩, rfl⟩
      exact ⟨change, hchange, hsection, rfl⟩
    · rintro ⟨change, hchange, hsection, rfl⟩
      exact ⟨_, ⟨change, hchange, hsection, rfl⟩, rfl⟩
  · have hperm : ((parsed.recanonicalize sorter (engineKey w)).index.map Prod.fst).Perm
        ((changes.filter FileChange.hasSection).map (targetKey cfg w)) := by
      refine ((sorter.perm _).map _).trans ?_
      rw [List.map_map, hindex, ← hrekeyed]
      exact (sorter.perm _).map _
    exact hperm.nodup_iff.mpr hfiltered

/-- With a section something is installed. -/
theorem minit_deployed (sorter : EntrySorter) (h : Deployed cfg w em revs changes)
    (hsections : ∃ change ∈ changes, change.hasSection = true) :
    ∃ parsed, minit sorter cfg w {} =
        install sorter cfg w (bundleOf em revs changes) { baseDir := phpatcherBaseDir cfg w }
          parsed ∧
      IndexOf cfg w em changes (parsed.recanonicalize sorter (engineKey w)) := by
  obtain ⟨parsed, hparse, hindex⟩ := parse_deployed sorter h
  obtain ⟨change, hchange, hsection⟩ := hsections
  have hne : parsed.index ≠ [] := by
    obtain ⟨e, he, _⟩ := PatchSet.mem_recanonicalize.mp
      ((hindex.mem_iff _).mpr ⟨change, hchange, hsection, rfl⟩)
    exact List.ne_nil_of_mem he
  exact ⟨parsed, minit_of_parse h.enabled h.named h.readable hparse hne, hindex⟩

theorem indexed_of_patchset {sorter : EntrySorter} {set : PatchSet}
    (hset : (minit sorter cfg w {}).patchset = some set) : set.Indexed := by
  obtain ⟨_, parsed, _, _, rfl, _⟩ := minit_of_patchset hset
  exact PatchSet.indexed_recanonicalize sorter (engineKey w) parsed

/-- Whatever is installed has them. -/
theorem indexOf_patchset {sorter : EntrySorter} (h : Deployed cfg w em revs changes)
    {set : PatchSet} (hset : (minit sorter cfg w {}).patchset = some set) :
    IndexOf cfg w em changes set := by
  obtain ⟨diffText, parsed, hread, hparse, rfl, _⟩ := minit_of_patchset hset
  obtain rfl := Option.some.inj (h.readable.symm.trans hread)
  obtain ⟨parsed', hparse', hindex⟩ := parse_deployed sorter h
  obtain rfl := (Prod.mk.inj (hparse.symm.trans hparse')).1
  exact hindex

/-- What a section gives on the source tree it was made for. -/
theorem produce_change {change : FileChange} {key : Bytes} (h : change.Based w key) :
    produce (phpatcherBaseDir cfg w) w.disk key (change.filePatch em) = .ok change.result := by
  have horiginal : readOriginal w.disk key (change.filePatch em) = .text change.base := by
    cases change with
    | added => rfl
    | modified path d => simp [readOriginal, FileChange.filePatch, h.1, h.2, FileChange.base]
  obtain ⟨cache', _, happly⟩ := @apply_change _ _ em change _ (RefCache.agrees_nil w.disk)
  rw [produce, horiginal]
  simp only [applyWith, Fallible.Yields] at happly ⊢
  rw [happly]

/-! ## Runs -/

/-- What every state keeps of startup. -/
structure Kept (sorter : EntrySorter) (cfg : Config) (w : World)
    (em : Emission (phpatcherBaseDir cfg w) w.disk) (changes : List FileChange) (s : State) :
    Prop where
  setup : SameSetup (minit sorter cfg w {}) s.globals
  inputs : ∀ change ∈ changes, SameInputs (phpatcherBaseDir cfg w) w.disk s.world.disk
    (targetKey cfg w change) (change.filePatch em)
  fresh : ∀ set, s.globals.patchset = some set → ∀ change ∈ changes, change.hasSection = true →
    FreshAt cfg s.world.disk s.globals set (targetKey cfg w change)

theorem baseDir_deployed (sorter : EntrySorter) (h : Deployed cfg w em revs changes)
    (hsections : ∃ change ∈ changes, change.hasSection = true) :
    (minit sorter cfg w {}).baseDir = phpatcherBaseDir cfg w := by
  obtain ⟨parsed, hinstall, _⟩ := minit_deployed sorter h hsections
  rw [hinstall]
  rfl

/-- The index of every state finds the section of a file under its key. -/
theorem find_deployed {sorter : EntrySorter} (h : Deployed cfg w em revs changes) {s : State}
    (hs : SameSetup (minit sorter cfg w {}) s.globals) {change : FileChange}
    (hchange : change ∈ changes) (hsection : change.hasSection = true) :
    ∃ set, s.globals.patchset = some set ∧ set.Indexed ∧
      sectionsAt set (targetKey cfg w change) = [change.filePatch em] ∧
      set.find (targetKey cfg w change) = some (change.filePatch em) := by
  obtain ⟨parsed, hinstall, hindex⟩ := minit_deployed sorter h ⟨change, hchange, hsection⟩
  have hindexed := PatchSet.indexed_recanonicalize sorter (engineKey w) parsed
  have hsections : sectionsAt (parsed.recanonicalize sorter (engineKey w))
      (targetKey cfg w change) = [change.filePatch em] := by
    have hentry := (hindex.mem_iff _).mpr ⟨change, hchange, hsection, rfl⟩
    rw [sectionsAt, filter_key_of_mem hindex.distinct hentry]
    rfl
  refine ⟨_, ?_, hindexed, hsections, ?_⟩
  · rw [hs.patchset, hinstall]
    rfl
  · rw [find_eq_head? hindexed, hsections]
    rfl

theorem kept_startup (sorter : EntrySorter) (h : Deployed cfg w em revs changes) :
    Kept sorter cfg w em changes (startup sorter cfg w) where
  setup := SameSetup.refl _
  inputs _ _ := ⟨fun _ => rfl, fun _ _ => rfl⟩
  fresh set hset change hchange hsection := by
    obtain ⟨parsed, hinstall, _⟩ := minit_deployed sorter h ⟨change, hchange, hsection⟩
    obtain ⟨set', hset', _, hsections, _⟩ :=
      find_deployed (s := startup sorter cfg w) h (SameSetup.refl _) hchange hsection
    obtain rfl : set' = set := Option.some.inj (hset'.symm.trans hset)
    simp only [startup] at hset ⊢
    rw [hinstall] at hset ⊢
    obtain rfl := Option.some.inj hset
    refine (freshAt_install_iff sorter cfg w _ _ parsed _).mpr fun _ => ?_
    intro first later content hcons hlast
    rw [hsections] at hcons
    rw [← (List.cons.inj hcons).2] at hlast
    simp at hlast

theorem kept_invariant (sorter : EntrySorter) (h : Deployed cfg w em revs changes) :
    (deployment sorter cfg w em changes).Invariant (Kept sorter cfg w em changes) := by
  apply Transition.Inductive.invariant
  constructor
  · rintro _ ⟨_, rfl⟩
    exact kept_startup sorter h
  · rintro s e _ hs ⟨rfl, hkeeps⟩
    rcases next_cases cfg s e with ⟨w', rfl, hnext⟩ | ⟨g', hstep, hnext⟩
    · -- the section gives on the new tree what it gives on the one of startup
      rw [hnext]
      refine ⟨hs.setup, hkeeps, fun set hset change hchange hsection => ?_⟩
      intro fp content hfind hheld
      have hfresh := hs.fresh set hset change hchange hsection fp content hfind hheld
      obtain ⟨set', hset', _, _, hfind'⟩ := find_deployed h hs.setup hchange hsection
      obtain rfl : set' = set := Option.some.inj (hset'.symm.trans hset)
      obtain rfl : change.filePatch em = fp := Option.some.inj (hfind'.symm.trans hfind)
      have hbase : s.globals.baseDir = phpatcherBaseDir cfg w :=
        hs.setup.baseDir.trans (baseDir_deployed sorter h ⟨change, hchange, hsection⟩)
      simp only [hbase] at hfresh ⊢
      rw [produce_congr (hkeeps change hchange), ← produce_congr (hs.inputs change hchange)]
      exact hfresh
    · rw [hnext]
      refine ⟨hs.setup.trans hstep.setup, hs.inputs, fun set hset change hchange hsection => ?_⟩
      simp only at hset
      rw [hstep.setup.patchset] at hset
      exact (hs.fresh set hset change hchange hsection).hookStep hset hstep

/-- The lookup takes the handle to the key. -/
def LooksUp (s : State) (fh : FileHandle) (key : Bytes) : Prop :=
  ∃ set fp, s.globals.patchset = some set ∧
    phpatcherResolve s.world s.globals set fh = some (key, fp)

/-- What the hooks do with a file in a state: it is compiled with the content, and
found when it is opened under its key; if it is created, it is also resolved and
opened under every name with the canonical path. -/
structure Serves (cfg : Config) (s : State) (key content : Bytes) (created : Bool) : Prop where
  found : basenameOf key ≠ [] → ∀ fh : FileHandle, fh.openedPath = some key → LooksUp s fh key
  compiled : ∀ fh : FileHandle, fh.buf = none → LooksUp s fh key →
    (engineCompile cfg s.world s.globals fh).1 = phpatcherInjectSource fh content key
  resolved : created = true → ∀ filename, s.world.engineResolve filename = none →
    canonicalize s.world.os filename s.globals.baseDir = key →
    zendResolvePath s.world s.globals filename = some key
  opened : created = true → ∀ (fh : FileHandle) filename, fh.filename = some filename →
    basenameOf key ≠ [] → phpatcherBasename fh = basenameOf key →
    canonicalize s.world.os filename s.globals.baseDir = key →
    (engineOpen cfg s.world s.globals fh).1 = .success (phpatcherInjectSource fh content key)

/-- The file is not in the old revision. -/
def FileChange.created : FileChange → Bool
  | .added _ _ => true
  | .modified _ _ => false

theorem creates_filePatch (change : FileChange) :
    (change.filePatch em).creates = change.created := by
  cases change <;> rfl

/-- A created file has brought all three hooks. -/
theorem hooks_deployed {sorter : EntrySorter} (h : Deployed cfg w em revs changes) {s : State}
    (hs : SameSetup (minit sorter cfg w {}) s.globals) {change : FileChange}
    (hchange : change ∈ changes) (hsection : change.hasSection = true) :
    s.globals.compileHook = true ∧
      (change.created = true → s.globals.resolveHook = true ∧ s.globals.streamHook = true) := by
  obtain ⟨parsed, hinstall, hindex⟩ := minit_deployed sorter h ⟨change, hchange, hsection⟩
  rw [hs.compileHook, hs.resolveHook, hs.streamHook, hinstall]
  refine ⟨rfl, fun hcreated => ?_⟩
  have hvirtual : ((parsed.recanonicalize sorter (engineKey w)).index.any fun kv => kv.2.creates) =
      true := by
    refine List.any_eq_true.mpr
      ⟨_, (hindex.mem_iff _).mpr ⟨change, hchange, hsection, rfl⟩, ?_⟩
    rw [creates_filePatch, hcreated]
  exact ⟨hvirtual, hvirtual⟩

theorem serves_of_kept {sorter : EntrySorter} (h : Deployed cfg w em revs changes) {s : State}
    (hs : Kept sorter cfg w em changes s) {change : FileChange} (hchange : change ∈ changes)
    (hsection : change.hasSection = true) (hbased : change.Based w (targetKey cfg w change)) :
    Serves cfg s (targetKey cfg w change) change.result change.created := by
  obtain ⟨set, hset, hindexed, _, hfind⟩ := find_deployed h hs.setup hchange hsection
  obtain ⟨hcompile, hcreated⟩ := hooks_deployed h hs.setup hchange hsection
  have hbase : s.globals.baseDir = phpatcherBaseDir cfg w :=
    hs.setup.baseDir.trans (baseDir_deployed sorter h ⟨change, hchange, hsection⟩)
  have hbasename : set.hasBasename (basenameOf (targetKey cfg w change)) = true :=
    (hindexed.hasBasename_iff _).mpr ⟨_, hindexed.mem_of_find hfind, rfl⟩
  -- what the maps hold is what the section gives, and this is the result
  have houtcome : (phpatcherGetPatched cfg s.world s.globals (targetKey cfg w change)
      (change.filePatch em)).1 = .ok change.result := by
    rw [(hs.fresh set hset change hchange hsection).outcome hfind, hbase,
      produce_congr (hs.inputs change hchange), produce_change hbased]
  refine ⟨fun hne fh hopened => ?_, fun fh hbuf hlooks => ?_, fun hc filename hnone hcanon => ?_,
    fun hc fh filename hfilename hne hsame hcanon => ?_⟩
  · refine ⟨set, change.filePatch em, hset, ?_⟩
    have hname : phpatcherBasename fh = basenameOf (targetKey cfg w change) := by
      rw [phpatcherBasename, hopened]
    simp [phpatcherResolve, hname, hne, hbasename, hopened, findKey, hfind]
  · obtain ⟨set', fp, hset', hresolve⟩ := hlooks
    obtain rfl : fp = change.filePatch em := by
      obtain rfl : set' = set := Option.some.inj (hset'.symm.trans hset)
      exact Option.some.inj ((find_of_resolve hresolve).symm.trans hfind)
    rw [engineCompile, if_pos hcompile, compileFile_of_resolve hset' hbuf hresolve, houtcome]
    rfl
  · rw [zendResolvePath, if_pos (hcreated hc).1]
    exact (resolvePath_eq_some hset hnone).mpr
      ⟨hcanon, _, hfind, (creates_filePatch change).trans hc⟩
  · have hfile : createdFile s.world s.globals fh =
        some (targetKey cfg w change, change.filePatch em) :=
      (createdFile_eq_some hset hfilename).mpr
        ⟨by rw [hsame]; exact ⟨hne, hbasename⟩, hcanon, hfind,
          (creates_filePatch change).trans hc⟩
    rw [engineOpen, if_pos (hcreated hc).2, phpatcherStreamOpen, hfile]
    simp only [houtcome]
    rfl

/-- A compilation that is looked up under no key of the change set is left alone. -/
theorem compile_other {sorter : EntrySorter} (h : Deployed cfg w em revs changes) {s : State}
    (hs : Kept sorter cfg w em changes s) {fh : FileHandle}
    (hother : ∀ change ∈ changes, ¬ LooksUp s fh (targetKey cfg w change)) :
    (engineCompile cfg s.world s.globals fh).1 = fh := by
  unfold engineCompile
  split
  next =>
    rcases compileFile_cases cfg s.world s.globals fh with hskip | hfound
    · rw [hskip]
    · obtain ⟨set, path, fp, hset, _, hresolve, _⟩ := hfound
      have hfind := find_of_resolve hresolve
      have hinstalled := hs.setup.patchset.symm.trans hset
      have hentry := (indexed_of_patchset hinstalled).mem_of_find hfind
      obtain ⟨change, hchange, _, hkey⟩ :=
        ((indexOf_patchset h hinstalled).mem_iff _).mp hentry
      obtain ⟨rfl, rfl⟩ := Prod.mk.inj hkey
      exact absurd ⟨set, _, hset, hresolve⟩ (hother change hchange)
  next => rfl

/-- **A deployed change set.** In every state of every run whose edits leave alone
what the sections are made from, the hooks serve the result of every change with a
section under its key, and leave every other compilation alone; the result is the
new content exactly when the change is exact. -/
theorem deployed_serves (sorter : EntrySorter) (h : Deployed cfg w em revs changes) :
    (deployment sorter cfg w em changes).Invariant fun s =>
      (∀ change ∈ changes, change.hasSection = true → change.Based w (targetKey cfg w change) →
        Serves cfg s (targetKey cfg w change) change.result change.created ∧
          (change.result = change.target ↔ change.Exact)) ∧
      ∀ fh, (∀ change ∈ changes, ¬ LooksUp s fh (targetKey cfg w change)) →
        (engineCompile cfg s.world s.globals fh).1 = fh := by
  intro s hreach
  have hs := kept_invariant sorter h s hreach
  exact ⟨fun change hchange hsection hbased =>
    ⟨serves_of_kept h hs hchange hsection hbased, result_eq_target_iff change⟩,
    fun fh hother => compile_other h hs hother⟩

end

/-! ## A process with two patched files -/

def deployedConfig : Config := { patchFile := ascii "/patch" }

/-- `/a.php` is as it was, and the patch adds a line to it and creates `/b.php`. -/
def deployedWorld : World where
  disk p :=
    if p = ascii "/a.php" then some (ascii "a\n")
    else if p = ascii "/patch" then
      some (bundleOf (Emission.plain [] fun _ => none) sampleRevisions libraryChanges)
    else none
  os := ⟨some, some (ascii "/")⟩
  vcwdRealpath := some
  vcwdGetcwd := some (ascii "/")
  engineResolve := some

theorem deployed_serves_two :
    libraryChanges.map (targetKey deployedConfig deployedWorld) =
        [ascii "/a.php", ascii "/b.php"] ∧
    (deployment (Sorter.stable Prod.fst) deployedConfig deployedWorld (Emission.plain _ _)
      libraryChanges).Invariant fun s =>
        ∀ change ∈ libraryChanges, change.hasSection = true →
          change.Based deployedWorld (targetKey deployedConfig deployedWorld change) →
          Serves deployedConfig s (targetKey deployedConfig deployedWorld change) change.result
            change.created := by
  refine ⟨by decide +kernel, fun s hs change hchange hsection hbased => ?_⟩
  have hdeployed : Deployed deployedConfig deployedWorld (Emission.plain _ _) sampleRevisions
      libraryChanges :=
    ⟨rfl, by decide, by decide +kernel, by decide +kernel, by decide +kernel⟩
  exact ((deployed_serves (Sorter.stable Prod.fst) hdeployed s hs).1 change hchange hsection
    hbased).1

end Phpatcher.Theorems
