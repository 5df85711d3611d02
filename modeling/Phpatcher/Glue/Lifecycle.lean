import Phpatcher.Basis.HookChain
import Phpatcher.Glue.System

/-!
# The module's life in a process

`MINIT` and `MSHUTDOWN` with the engine's three function pointers, among other
extensions that hook into the same pointers at any time and leave as this one does,
only from the top. The engine may be started anew in the same process, with other
settings; the module's static variables are then as the last `MSHUTDOWN` left them.
-/

namespace Phpatcher.Glue

open Phpatcher.Basis Phpatcher.Core

/-- Who hooks into the pointers. -/
inductive Extension where
  | phpatcher
  | other (i : Nat)
  deriving DecidableEq

/-- `zend_compile_file`, `zend_resolve_path` and `zend_stream_open_function`. -/
inductive Hook where
  | compile
  | resolve
  | stream
  deriving DecidableEq

/-- Whether `MINIT` has hooked into the pointer. -/
def Globals.hooked (g : Globals) : Hook → Bool
  | .compile => g.compileHook
  | .resolve => g.resolveHook
  | .stream => g.streamHook

/-- `PHP_MSHUTDOWN_FUNCTION(phpatcher)`, but for the pointers. The counters and the
last error stay. -/
def mshutdown (g : Globals) : Globals :=
  { g with
    patchset := none, precomputed := none, cache := none, baseDir := []
    compileHook := false, resolveHook := false, streamHook := false }

inductive Stage where
  /-- the engine has been started, the module not yet -/
  | fresh
  | running
  | down
  deriving DecidableEq

/-- A process. `since` is the world in which the module was last started. -/
structure Process where
  world : World
  config : Config
  globals : Globals
  chain : Hook → HookChain Extension
  stage : Stage
  since : World

/-- The module is called through the pointer. -/
def Process.Hooked (p : Process) (h : Hook) : Prop :=
  ∃ stack, (p.chain h).Represents stack ∧ .phpatcher ∈ stack

/-- `MINIT` with these settings: the pointers it hooks into are those that the
globals say. -/
def Process.minit (sorter : EntrySorter) (cfg : Config) (p : Process) : Process :=
  let g := Glue.minit sorter cfg p.world p.globals
  { p with
    config := cfg
    globals := g
    chain := fun h => if g.hooked h then (p.chain h).install .phpatcher else p.chain h
    stage := .running
    since := p.world }

/-- `MSHUTDOWN`. -/
def Process.mshutdown (p : Process) : Process :=
  { p with
    globals := Glue.mshutdown p.globals
    chain := fun h => (p.chain h).remove .phpatcher
    stage := .down }

/-- What can happen in a process. -/
inductive LifeEvent where
  | startEngine
  | minit (cfg : Config)
  | mshutdown
  /-- another extension hooks into a pointer, where it is not already -/
  | hookIn (h : Hook) (i : Nat)
  /-- it leaves, if it is on top -/
  | hookOut (h : Hook) (i : Nat)
  /-- the compiler is called for a handle; the module may be passed by -/
  | compile (fh : FileHandle)
  | openStream (fh : FileHandle)
  | edit (w : World)

/-- One step. -/
def Process.Step (sorter : EntrySorter) (p : Process) : LifeEvent → Process → Prop
  | .startEngine, q => p.stage = .down ∧
      q = { p with chain := fun h => (p.chain h).reset, stage := .fresh }
  | .minit cfg, q => p.stage = .fresh ∧ q = p.minit sorter cfg
  | .mshutdown, q => p.stage = .running ∧ q = p.mshutdown
  | .hookIn h i, q => (∀ stack, (p.chain h).Represents stack → .other i ∉ stack) ∧
      q = { p with chain := Function.update p.chain h ((p.chain h).install (.other i)) }
  | .hookOut h i, q =>
      q = { p with chain := Function.update p.chain h ((p.chain h).remove (.other i)) }
  | .compile fh, q => q = p ∨ p.Hooked .compile ∧
      q = { p with globals := (phpatcherCompileFile p.config p.world p.globals fh).2 }
  | .openStream fh, q => q = p ∨ p.Hooked .stream ∧
      q = { p with globals := (phpatcherStreamOpen p.config p.world p.globals fh).2 }
  | .edit w, q => q = { p with world := w }

/-- The process at its start. -/
def startProcess (w : World) (cfg : Config) : Process where
  world := w
  config := cfg
  globals := {}
  chain _ := {}
  stage := .fresh
  since := w

/-- Processes. -/
def lifecycle (sorter : EntrySorter) : Transition Process LifeEvent where
  start p := ∃ w cfg, p = startProcess w cfg
  step := Process.Step sorter

/-! ## What serving depends on -/

/-- The globals without the counters and what was sent to the outside. -/
def Globals.serving (g : Globals) : Globals :=
  { g with
    applyFailures := 0, readFailures := 0, skippedHalt := 0, lastError := [], warnings := []
    entropy := [] }

theorem serving_mshutdown (g : Globals) : (mshutdown g).serving = Globals.serving {} := rfl

theorem serving_warn (g : Globals) (strict : Bool) (message : Bytes) :
    (g.warn strict message).serving = g.serving := by
  cases strict <;> rfl

/-- Startup installs the same whatever the counters are. -/
theorem serving_minit (sorter : EntrySorter) (cfg : Config) (w : World) {g g' : Globals}
    (h : g.serving = g'.serving) :
    (minit sorter cfg w g).serving = (minit sorter cfg w g').serving := by
  have hself : ∀ g : Globals, (minit sorter cfg w g).serving =
      (minit sorter cfg w g.serving).serving := by
    intro g
    unfold minit
    split
    · rfl
    split
    · rfl
    cases w.disk cfg.patchFile with
    | none => rfl
    | some diffText =>
        simp only
        rcases PatchSet.parse sorter (fun path => canonicalize w.os path (phpatcherBaseDir cfg w))
          diffText {} with ⟨set, e | ⟨⟩⟩
        · rfl
        · simp only
          split <;> rfl
  rw [hself g, hself g', h]

/-- So does the lookup of a content, and it keeps the same. -/
theorem serving_getPatched (cfg : Config) (w : World) (g : Globals) (path : Bytes)
    (fp : FilePatch) :
    (phpatcherGetPatched cfg w g.serving path fp).1 = (phpatcherGetPatched cfg w g path fp).1 ∧
      (phpatcherGetPatched cfg w g.serving path fp).2.serving =
        (phpatcherGetPatched cfg w g path fp).2.serving := by
  have hpre : g.serving.precomputed = g.precomputed := rfl
  have hcache : g.serving.cache = g.cache := rfl
  have hbase : g.serving.baseDir = g.baseDir := rfl
  unfold phpatcherGetPatched
  rw [hpre, hcache, hbase]
  cases heldIn g.precomputed path with
  | some content => exact ⟨rfl, rfl⟩
  | none =>
      simp only
      cases (if cfg.cache then heldIn g.cache path else none) with
      | some content => exact ⟨rfl, rfl⟩
      | none =>
          simp only
          cases readOriginal w.disk path fp with
          | unreadable =>
              refine ⟨rfl, ?_⟩
              simp only [Globals.readFailed, serving_warn]
              rfl
          | halt =>
              refine ⟨rfl, ?_⟩
              simp only [Globals.haltSkipped, serving_warn]
              rfl
          | text original =>
              simp only
              cases (applyWith g.baseDir w.disk fp original []).1 with
              | error e =>
                  refine ⟨rfl, ?_⟩
                  simp only [Globals.applyFailed, serving_warn]
                  rfl
              | ok owned => cases cfg.cache <;> exact ⟨rfl, rfl⟩

theorem serving_compileFile (cfg : Config) (w : World) (g : Globals) (fh : FileHandle) :
    (phpatcherCompileFile cfg w g.serving fh).1 = (phpatcherCompileFile cfg w g fh).1 ∧
      (phpatcherCompileFile cfg w g.serving fh).2.serving =
        (phpatcherCompileFile cfg w g fh).2.serving := by
  have hset : g.serving.patchset = g.patchset := rfl
  unfold phpatcherCompileFile
  rw [hset]
  cases g.patchset with
  | none => exact ⟨rfl, rfl⟩
  | some set =>
      have hresolve : phpatcherResolve w g.serving set fh = phpatcherResolve w g set fh := rfl
      simp only
      split
      · exact ⟨rfl, rfl⟩
      rw [hresolve]
      cases phpatcherResolve w g set fh with
      | none => exact ⟨rfl, rfl⟩
      | some found =>
          obtain ⟨houtcome, hafter⟩ := serving_getPatched cfg w g found.1 found.2
          exact ⟨congrArg (compileOutcome cfg fh found.1) houtcome, hafter⟩

theorem serving_streamOpen (cfg : Config) (w : World) (g : Globals) (fh : FileHandle) :
    (phpatcherStreamOpen cfg w g.serving fh).1 = (phpatcherStreamOpen cfg w g fh).1 ∧
      (phpatcherStreamOpen cfg w g.serving fh).2.serving =
        (phpatcherStreamOpen cfg w g fh).2.serving := by
  have hcreated : createdFile w g.serving fh = createdFile w g fh := rfl
  unfold phpatcherStreamOpen
  rw [hcreated]
  cases createdFile w g fh with
  | none => exact ⟨rfl, rfl⟩
  | some found =>
      obtain ⟨houtcome, hafter⟩ := serving_getPatched cfg w g found.1 found.2
      exact ⟨congrArg (openOutcome cfg fh found.1) houtcome, hafter⟩

end Phpatcher.Glue
