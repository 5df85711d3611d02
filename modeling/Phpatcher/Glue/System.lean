import Phpatcher.Basis.Transition
import Phpatcher.Glue.Startup

/-!
# The running extension

The extension as a transition system. A run begins with `minit` in some world;
then the engine compiles files and opens streams, and the world changes, in
any order. The state remembers the worlds the run has been in (`seen`), which
no step looks at.
-/

namespace Phpatcher.Glue

open Phpatcher.Basis Phpatcher.Core

/-- What can happen after startup. -/
inductive Event where
  | compile (fh : FileHandle)
  | openStream (fh : FileHandle)
  /-- files, links or the working directory change -/
  | edit (w : World)

/-- The world, the extension's globals, and the worlds so far. -/
structure State where
  world : World
  globals : Globals
  seen : List World

/-- `zend_compile_file`: the hook where it is installed. -/
def engineCompile (cfg : Config) (w : World) (g : Globals) (fh : FileHandle) :
    FileHandle × Globals :=
  if g.compileHook then phpatcherCompileFile cfg w g fh else (fh, g)

/-- `zend_stream_open_function`: the hook where it is installed. -/
def engineOpen (cfg : Config) (w : World) (g : Globals) (fh : FileHandle) : Opened × Globals :=
  if g.streamHook then phpatcherStreamOpen cfg w g fh else (.delegated, g)

/-- The state after startup. -/
def startup (sorter : EntrySorter) (cfg : Config) (w : World) : State where
  world := w
  globals := minit sorter cfg w {}
  seen := [w]

/-- The state after an event. -/
def State.next (cfg : Config) (s : State) : Event → State
  | .compile fh => { s with globals := (engineCompile cfg s.world s.globals fh).2 }
  | .openStream fh => { s with globals := (engineOpen cfg s.world s.globals fh).2 }
  | .edit w => { s with world := w, seen := w :: s.seen }

/-- The extension under a configuration. -/
def system (sorter : EntrySorter) (cfg : Config) : Transition State Event where
  start s := ∃ w, s = startup sorter cfg w
  step s e t := t = s.next cfg e

/-- The runs that start in a world. -/
def systemFrom (sorter : EntrySorter) (cfg : Config) (w : World) : Transition State Event :=
  (system sorter cfg).restrict (· = startup sorter cfg w) fun _ _ _ => True

/-! ## What startup leaves -/

/-- Startup either installs nothing, or the index of a patch that parsed. -/
theorem minit_cases (sorter : EntrySorter) (cfg : Config) (w : World) :
    ((minit sorter cfg w {}).patchset = none ∧ (minit sorter cfg w {}).precomputed = none ∧
        (minit sorter cfg w {}).cache = none ∧ (minit sorter cfg w {}).compileHook = false) ∨
      ∃ diffText set, w.disk cfg.patchFile = some diffText ∧
        PatchSet.parse sorter (fun path => canonicalize w.os path (phpatcherBaseDir cfg w))
          diffText {} = (set, .ok ()) ∧
        minit sorter cfg w {} =
          install sorter cfg w diffText { baseDir := phpatcherBaseDir cfg w } set := by
  unfold minit
  split
  · exact .inl ⟨rfl, rfl, rfl, rfl⟩
  split
  · exact .inl ⟨rfl, rfl, rfl, rfl⟩
  cases hread : w.disk cfg.patchFile with
  | none => exact .inl ⟨rfl, rfl, rfl, rfl⟩
  | some diffText =>
      simp only
      rcases hparse : PatchSet.parse sorter
        (fun path => canonicalize w.os path (phpatcherBaseDir cfg w)) diffText {} with
        ⟨set, e | ⟨⟩⟩
      · exact .inl ⟨rfl, rfl, rfl, rfl⟩
      · simp only
        split
        · exact .inl ⟨rfl, rfl, rfl, rfl⟩
        · exact .inr ⟨diffText, set, rfl, hparse, rfl⟩

/-- A patch set comes from a patch that parsed. -/
theorem minit_of_patchset {sorter : EntrySorter} {cfg : Config} {w : World} {set : PatchSet}
    (h : (minit sorter cfg w {}).patchset = some set) :
    ∃ diffText parsed, w.disk cfg.patchFile = some diffText ∧
      PatchSet.parse sorter (fun path => canonicalize w.os path (phpatcherBaseDir cfg w))
        diffText {} = (parsed, .ok ()) ∧
      parsed.recanonicalize sorter (engineKey w) = set ∧
      minit sorter cfg w {} =
        install sorter cfg w diffText { baseDir := phpatcherBaseDir cfg w } parsed := by
  rcases minit_cases sorter cfg w with ⟨hnone, _⟩ | ⟨diffText, parsed, hread, hparse, hinstall⟩
  · rw [hnone] at h
    simp at h
  · rw [hinstall] at h
    exact ⟨diffText, parsed, hread, hparse, Option.some.inj h, hinstall⟩

/-- Startup with a readable patch that parses and has sections. -/
theorem minit_of_parse {sorter : EntrySorter} {cfg : Config} {w : World} {diffText : Bytes}
    {set : PatchSet} (henabled : cfg.enabled = true) (hfile : cfg.patchFile ≠ [])
    (hread : w.disk cfg.patchFile = some diffText)
    (hparse : PatchSet.parse sorter
      (fun path => canonicalize w.os path (phpatcherBaseDir cfg w)) diffText {} = (set, .ok ()))
    (hsections : set.index ≠ []) :
    minit sorter cfg w {} =
      install sorter cfg w diffText { baseDir := phpatcherBaseDir cfg w } set := by
  have hcount : set.fileCount ≠ 0 := by simpa [PatchSet.fileCount] using hsections
  simp [minit, henabled, hfile, hread, hparse, hcount]

/-! ## What a step changes -/

/-- The globals after a hook: the setup is as it was, and a new entry of the
cache is what a section gives on the disk of now. -/
structure HookStep (w : World) (g g' : Globals) : Prop where
  setup : SameSetup g g'
  cache : ∀ path content, heldIn g'.cache path = some content →
    heldIn g.cache path = some content ∨
      ∃ set fp, g.patchset = some set ∧ set.find path = some fp ∧
        produce g.baseDir w.disk path fp = .ok content

theorem HookStep.refl (w : World) (g : Globals) : HookStep w g g :=
  ⟨SameSetup.refl g, fun _ _ h => .inl h⟩

/-- A lookup that found its section under `path` and went to produce it. -/
theorem hookStep_getPatched {cfg : Config} {w : World} {g : Globals} {set : PatchSet}
    {path : Bytes} {fp : FilePatch} (hset : g.patchset = some set)
    (hfind : set.find path = some fp) :
    HookStep w g (phpatcherGetPatched cfg w g path fp).2 := by
  obtain ⟨hsetup, hcache⟩ := getPatched_snd cfg w g path fp
  refine ⟨hsetup, fun p content h => ?_⟩
  rcases hcache p content h with hold | ⟨rfl, hproduce⟩
  · exact .inl hold
  · exact .inr ⟨set, fp, hset, hfind, hproduce⟩

theorem hookStep_compile (cfg : Config) (w : World) (g : Globals) (fh : FileHandle) :
    HookStep w g (engineCompile cfg w g fh).2 := by
  unfold engineCompile
  split
  · rcases compileFile_cases cfg w g fh with hskip | ⟨set, path, fp, hset, _, hresolve, heq⟩
    · rw [hskip]
      exact HookStep.refl w g
    · rw [heq]
      exact hookStep_getPatched hset (find_of_resolve hresolve)
  · exact HookStep.refl w g

theorem hookStep_open (cfg : Config) (w : World) (g : Globals) (fh : FileHandle) :
    HookStep w g (engineOpen cfg w g fh).2 := by
  unfold engineOpen
  split
  · rcases streamOpen_cases cfg w g fh with ⟨hskip, _⟩ | ⟨canon, fp, hcreated, heq⟩
    · rw [hskip]
      exact HookStep.refl w g
    · obtain ⟨set, hset, hfind, _⟩ := find_of_createdFile hcreated
      rw [heq]
      exact hookStep_getPatched hset hfind
  · exact HookStep.refl w g

/-- Every event either is an edit, or a hook ran in the world of the state. -/
theorem next_cases (cfg : Config) (s : State) (e : Event) :
    (∃ w, e = .edit w ∧ s.next cfg e = { s with world := w, seen := w :: s.seen }) ∨
      ∃ g', HookStep s.world s.globals g' ∧ s.next cfg e = { s with globals := g' } := by
  cases e with
  | compile fh => exact .inr ⟨_, hookStep_compile cfg s.world s.globals fh, rfl⟩
  | openStream fh => exact .inr ⟨_, hookStep_open cfg s.world s.globals fh, rfl⟩
  | edit w => exact .inl ⟨w, rfl, rfl⟩

/-- A run leaves the setup of its startup as it is. -/
theorem sameSetup_invariant (sorter : EntrySorter) (cfg : Config) (w : World) :
    (systemFrom sorter cfg w).Invariant fun s => SameSetup (minit sorter cfg w {}) s.globals := by
  apply Transition.Inductive.invariant
  constructor
  · rintro _ ⟨_, rfl⟩
    exact SameSetup.refl _
  · rintro s e _ hs ⟨rfl, _⟩
    rcases next_cases cfg s e with ⟨w', _, hnext⟩ | ⟨g', hstep, hnext⟩
    · rw [hnext]
      exact hs
    · rw [hnext]
      exact hs.trans hstep.setup

/-- With a patch set come an index that can be searched and the hooks: the
compile hook always, the stream opener where the patch creates files. -/
structure Installed (g : Globals) (set : PatchSet) : Prop where
  indexed : set.Indexed
  compileHook : g.compileHook = true
  streamHook : ∀ e ∈ set.index, e.2.creates = true → g.streamHook = true

theorem Installed.congr {g g' : Globals} {set : PatchSet} (h : Installed g set)
    (hsame : SameSetup g g') : Installed g' set where
  indexed := h.indexed
  compileHook := hsame.compileHook.trans h.compileHook
  streamHook := fun e he hcreates => hsame.streamHook.trans (h.streamHook e he hcreates)

theorem installed_install (sorter : EntrySorter) (cfg : Config) (w : World) (diffText : Bytes)
    (g : Globals) (parsed : PatchSet) :
    Installed (install sorter cfg w diffText g parsed)
      (parsed.recanonicalize sorter (engineKey w)) where
  indexed := PatchSet.indexed_recanonicalize sorter (engineKey w) parsed
  compileHook := rfl
  streamHook := fun e he hcreates => List.any_eq_true.mpr ⟨e, he, hcreates⟩

theorem installed_invariant (sorter : EntrySorter) (cfg : Config) :
    (system sorter cfg).Invariant fun s =>
      ∀ set, s.globals.patchset = some set → Installed s.globals set := by
  apply Transition.Inductive.invariant
  constructor
  · rintro _ ⟨w, rfl⟩ set hset
    simp only [startup] at hset ⊢
    obtain ⟨diffText, parsed, _, _, rfl, hinstall⟩ := minit_of_patchset hset
    rw [hinstall]
    exact installed_install sorter cfg w diffText _ parsed
  · rintro s e _ hs rfl
    rcases next_cases cfg s e with ⟨w, _, hnext⟩ | ⟨g', hstep, hnext⟩
    · rw [hnext]
      exact hs
    · rw [hnext]
      intro set hset
      rw [hstep.setup.patchset] at hset
      exact (hs set hset).congr hstep.setup

end Phpatcher.Glue
