import Phpatcher.Theorems.NeverAHybrid

/-!
# Files that use `__halt_compiler`

The guard looks for the keyword in lower case, and PHP takes it in any case. A
file whose only spelling is another one is patched like every other
(`upper_case_patched`); where the guard sees the keyword, or no section applies,
neither a map nor a hook ever gives the file patched content
(`halt_files_left_alone`).
-/

namespace Phpatcher.Theorems

open Phpatcher.Basis Phpatcher.Core Phpatcher.Glue

/-- A letter in lower case, any other byte as it is. -/
def lowerByte (c : UInt8) : UInt8 := if 65 ≤ c ∧ c ≤ 90 then c + 32 else c

/-- The source holds the keyword, in whatever letter case. -/
def usesHaltCompiler (src : Bytes) : Bool := phpatcherHasHaltCompiler (src.map lowerByte)

/-- In every world of the run so far the file uses the keyword. -/
def UsesHalt (s : State) (path : Bytes) : Prop :=
  ∀ w ∈ s.seen, ∃ original, w.disk path = some original ∧ usesHaltCompiler original = true

/-- The sections under a path edit a file on the disk. -/
def OnlyEdited (s : State) (path : Bytes) : Prop :=
  ∀ set fp, s.globals.patchset = some set → (path, fp) ∈ set.index → fp.creates = false

/-- Neither map holds content for the path, and what the hooks inject for it is
at most the stub. -/
structure LeftAlone (cfg : Config) (s : State) (path : Bytes) : Prop where
  precomputed : heldIn s.globals.precomputed path = none
  cache : heldIn s.globals.cache path = none
  compiled : ∀ set fh fp content, s.globals.patchset = some set → fh.buf = none →
    phpatcherResolve s.world s.globals set fh = some (path, fp) →
    (engineCompile cfg s.world s.globals fh).1.buf = some content →
    content = phpatcherFailStub path patchFailed ∨ content = phpatcherFailStub path haltReason
  opened : ∀ fh fp, createdFile s.world s.globals fh ≠ some (path, fp)

/-- In every world of the run so far the guard sees the keyword in the file, or
no section applies to it. -/
def GuardSees (s : State) (path : Bytes) : Prop :=
  ∀ w ∈ s.seen, ∀ original, w.disk path = some original →
    phpatcherHasHaltCompiler original = true ∨
      ∀ set fp, s.globals.patchset = some set → (path, fp) ∈ set.index →
        ∃ error, (applyWith s.globals.baseDir w.disk fp original []).1 = .error error

/-- Where the guard sees the keyword nothing genuine can be held. -/
theorem not_genuine_of_guardSees {s : State} {path : Bytes} (hedited : OnlyEdited s path)
    (hguard : GuardSees s path) (content : Bytes) : ¬ Genuine s path content := by
  rintro ⟨set, fp, w, original, cache, hset, hmem, hw, hbase, hyields⟩
  rw [IsBase, hedited set fp hset hmem] at hbase
  obtain ⟨hread, hhalt⟩ := hbase
  rcases hguard w hw original hread with hseen | hfails
  · rw [hseen] at hhalt
    exact absurd hhalt (by simp)
  · -- an application that yields does not fail
    obtain ⟨error, herror⟩ := hfails set fp hset hmem
    rw [applyWith, hyields] at herror
    simp at herror

/-- A file the guard misses is patched, once its section applies. -/
theorem patched_of_missed {cfg : Config} {w : World} {g : Globals} {set : PatchSet}
    {fh : FileHandle} {path original content : Bytes} {fp : FilePatch}
    (hhook : g.compileHook = true) (hset : g.patchset = some set) (hbuf : fh.buf = none)
    (hresolve : phpatcherResolve w g set fh = some (path, fp)) (hedits : fp.creates = false)
    (hread : w.disk path = some original) (hmissed : phpatcherHasHaltCompiler original = false)
    (happlies : (applyWith g.baseDir w.disk fp original []).1 = .ok content) :
    ∃ patched, (phpatcherGetPatched cfg w g path fp).1 = .ok patched ∧
      (engineCompile cfg w g fh).1.buf = some patched := by
  have hproduce : produce g.baseDir w.disk path fp = .ok content := by
    simp [produce, readOriginal, hedits, hread, hmissed, happlies]
  have hok : ∃ patched, (phpatcherGetPatched cfg w g path fp).1 = .ok patched := by
    rw [getPatched_fst]
    cases held cfg g path with
    | some entry => exact ⟨entry, rfl⟩
    | none => exact ⟨content, hproduce⟩
  obtain ⟨patched, hpatched⟩ := hok
  refine ⟨patched, hpatched, ?_⟩
  rw [engineCompile, if_pos hhook, compileFile_of_resolve hset hbuf hresolve, hpatched]
  rfl

/-- **Halted files.** In every state of every run in which the guard has seen
the keyword in each version of a file, or no section applied, the file is left
alone. Where the guard misses the keyword and the section applies, the compiled
source is a patched one. -/
theorem halt_files_left_alone (sorter : EntrySorter) (cfg : Config) (path : Bytes) :
    ((system sorter cfg).Invariant fun s =>
      OnlyEdited s path → GuardSees s path → LeftAlone cfg s path) ∧
    (system sorter cfg).Invariant fun s => ∀ set fh fp original content,
      s.globals.patchset = some set → fh.buf = none →
      phpatcherResolve s.world s.globals set fh = some (path, fp) → fp.creates = false →
      s.world.disk path = some original → phpatcherHasHaltCompiler original = false →
      (applyWith s.globals.baseDir s.world.disk fp original []).1 = .ok content →
      ∃ patched, (phpatcherGetPatched cfg s.world s.globals path fp).1 = .ok patched ∧
        (engineCompile cfg s.world s.globals fh).1.buf = some patched := by
  refine ⟨fun s hreach hedited hguard => ?_, fun s hreach set fh fp original content hset hbuf
    hresolve hedits hread hmissed happlies => ?_⟩
  · have hs := mapsGenuine_invariant sorter cfg s hreach
    have hnone := not_genuine_of_guardSees hedited hguard
    refine ⟨?_, ?_, ?_, ?_⟩
    · cases hheld : heldIn s.globals.precomputed path with
      | none => rfl
      | some content => exact absurd (hs.entries path content (.inl hheld)) (hnone content)
    · cases hheld : heldIn s.globals.cache path with
      | none => rfl
      | some content => exact absurd (hs.entries path content (.inr hheld)) (hnone content)
    · intro set fh fp content hset hbuf hresolve hcompiled
      rcases hs.compiled hcompiled with hold | ⟨set', path', fp', hset', hresolve', hinjected⟩
      · rw [hbuf] at hold
        simp at hold
      · -- the lookup is the same, so the content is for this path
        obtain rfl : set = set' := Option.some.inj (hset.symm.trans hset')
        obtain ⟨rfl, rfl⟩ := Prod.mk.inj (Option.some.inj (hresolve.symm.trans hresolve'))
        rcases hinjected with hgenuine | ⟨_, hstub⟩
        · exact absurd hgenuine (hnone content)
        · exact hstub
    · intro fh fp hcreated
      obtain ⟨set, hset, hfind, hcreates⟩ := find_of_createdFile hcreated
      have hmem := (hs.installed set hset).indexed.mem_of_find hfind
      rw [hedited set fp hset hmem] at hcreates
      simp at hcreates
  · have hinstalled := installed_invariant sorter cfg s hreach set hset
    exact patched_of_missed hinstalled.compileHook hset hbuf hresolve hedits hread hmissed happlies

/-! ## A spelling that is missed -/

/-- `/a.php` ends in data behind `__HALT_COMPILER`; the patch deletes its first
line. -/
def haltWorld : World where
  disk p :=
    if p = ascii "/a.php" then some (ascii "f();\n__HALT_COMPILER();data")
    else if p = ascii "/patch" then some (ascii "# phpatcher-ed\n# file: /a.php\n1d\n")
    else none
  os := ⟨some, some (ascii "/")⟩
  vcwdRealpath := some
  vcwdGetcwd := some (ascii "/")
  engineResolve := some

/-- The file is precomputed, and its data moves. -/
theorem upper_case_patched :
    let cfg : Config := { patchFile := ascii "/patch" }
    let s := startup (Sorter.stable Prod.fst) cfg haltWorld
    heldIn s.globals.precomputed (ascii "/a.php") = some (ascii "__HALT_COMPILER();data") ∧
      ¬ (system (Sorter.stable Prod.fst) cfg).Invariant fun s =>
        OnlyEdited s (ascii "/a.php") → UsesHalt s (ascii "/a.php") →
          LeftAlone cfg s (ascii "/a.php") := by
  intro cfg s
  have hheld : heldIn s.globals.precomputed (ascii "/a.php") =
      some (ascii "__HALT_COMPILER();data") := by decide +kernel
  have hindex : s.globals.patchset.map PatchSet.index =
      some [(ascii "/a.php", { commands := [{ kind := .delete, start := 1, end_ := 1 }] })] := by
    decide +kernel
  refine ⟨hheld, fun hinvariant => ?_⟩
  have hedited : OnlyEdited s (ascii "/a.php") := by
    intro set fp hset hmem
    rw [hset, Option.map_some, Option.some.injEq] at hindex
    rw [hindex, List.mem_singleton, Prod.mk.injEq] at hmem
    rw [hmem.2]
  have huses : UsesHalt s (ascii "/a.php") := by
    intro w hw
    obtain rfl : w = haltWorld := List.mem_singleton.mp hw
    exact ⟨_, rfl, by decide +kernel⟩
  have hleft := hinvariant s (.start ⟨_, rfl⟩) hedited huses
  rw [hleft.precomputed] at hheld
  simp at hheld

end Phpatcher.Theorems
