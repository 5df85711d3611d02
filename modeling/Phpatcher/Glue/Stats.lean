import Phpatcher.Glue.System

/-!
# What the extension tells about itself

The functions `phpatcher_get_files`, `phpatcher_enabled` and `phpatcher_stats`, and
the account of a run that the counters are compared with: the outcome of every
lookup that found a section, in order.
-/

namespace Phpatcher.Glue

open Phpatcher.Basis Phpatcher.Core

/-- `phpatcher_get_files`. -/
def phpatcherGetFiles (g : Globals) : List Bytes :=
  match g.patchset with
  | none => []
  | some set => set.index.map Prod.fst

/-- `phpatcher_enabled`. -/
def phpatcherEnabled (g : Globals) : Bool := g.patchset.isSome

/-- `phpatcher_map_bytes`. -/
def phpatcherMapBytes (m : ContentMap) : Nat := (m.entries.map fun kv => kv.2.length).sum

/-- The bytes of a `std::string` up to its first NUL, as its `c_str()` is read. -/
def cString (s : Bytes) : Bytes := s.takeWhile (· != 0)

/-- `static_cast<zend_long>` of a counter. -/
def zendLong (n : UInt64) : Int := n.toBitVec.toInt

/-- What `phpatcher_stats` returns, but for the engine's system id. -/
structure Stats where
  active : Bool
  strict : Bool
  precompute : Bool
  cache : Bool
  onError : Bytes
  opcacheBind : Bool
  indexedFiles : Nat
  precomputedFiles : Nat
  precomputedBytes : Nat
  cachedFiles : Nat
  cachedBytes : Nat
  applyFailures : Int
  readFailures : Int
  skippedHaltCompiler : Int
  lastError : Bytes
  deriving DecidableEq, Repr

/-- The number of files a content map has. -/
def filesIn (map : Option ContentMap) : Nat := map.elim 0 fun m => m.keys.length

/-- `phpatcher_stats`. -/
def phpatcherStats (cfg : Config) (g : Globals) : Stats where
  active := g.patchset.isSome
  strict := cfg.strict
  precompute := cfg.precompute
  cache := cfg.cache
  onError := cfg.onError.getD (ascii "original")
  opcacheBind := cfg.opcacheBind
  indexedFiles := g.patchset.elim 0 PatchSet.fileCount
  precomputedFiles := filesIn g.precomputed
  precomputedBytes := g.precomputed.elim 0 phpatcherMapBytes
  cachedFiles := filesIn g.cache
  cachedBytes := g.cache.elim 0 phpatcherMapBytes
  applyFailures := zendLong g.applyFailures
  readFailures := zendLong g.readFailures
  skippedHaltCompiler := zendLong g.skippedHalt
  lastError := cString g.lastError

/-! ## The account of a run -/

/-- The section a hook looks up for an event, with its key. -/
def lookedUp (s : State) : Event → Option (Bytes × FilePatch)
  | .compile fh =>
      if s.globals.compileHook = true ∧ fh.buf = none then
        s.globals.patchset.bind fun set => phpatcherResolve s.world s.globals set fh
      else none
  | .openStream fh => if s.globals.streamHook then createdFile s.world s.globals fh else none
  | .edit _ => none

/-- The state after several events. -/
def State.run (cfg : Config) (s : State) (events : List Event) : State :=
  events.foldl (State.next cfg) s

/-- The outcomes of the lookups of a run. -/
def outcomes (cfg : Config) : State → List Event → List Patched
  | _, [] => []
  | s, e :: events =>
      let rest := outcomes cfg (s.next cfg e) events
      match lookedUp s e with
      | some found =>
          (phpatcherGetPatched cfg s.world s.globals found.1 found.2).1 :: rest
      | none => rest

/-- An event changes the globals as its lookup does, and not without one. -/
theorem next_globals (cfg : Config) (s : State) (e : Event) :
    (s.next cfg e).globals =
      match lookedUp s e with
      | some found => (phpatcherGetPatched cfg s.world s.globals found.1 found.2).2
      | none => s.globals := by
  cases e with
  | edit w => rfl
  | compile fh =>
      simp only [State.next, engineCompile, lookedUp]
      cases hhook : s.globals.compileHook with
      | false => simp
      | true =>
          by_cases hbuf : fh.buf = none
          · simp only [hbuf, and_self, if_true]
            unfold phpatcherCompileFile
            cases hset : s.globals.patchset with
            | none => rfl
            | some set =>
                simp only [hbuf, ne_eq, not_true_eq_false, false_or, Option.bind_some]
                split
                next hunnamed =>
                  simp [phpatcherResolve, phpatcherBasename, hunnamed.1, hunnamed.2]
                next =>
                  cases phpatcherResolve s.world s.globals set fh <;> rfl
          · simp only [hbuf, and_false, if_false, if_true]
            unfold phpatcherCompileFile
            cases s.globals.patchset with
            | none => rfl
            | some set => simp [hbuf]
  | openStream fh =>
      simp only [State.next, engineOpen, lookedUp]
      split
      · unfold phpatcherStreamOpen
        cases createdFile s.world s.globals fh <;> rfl
      · rfl

/-- How a lookup moves the counters, the last error and the warnings. -/
structure Tallied (strict : Bool) (outcome : Patched) (g g' : Globals) : Prop where
  failures : g'.applyFailures + g'.readFailures =
    g.applyFailures + g.readFailures + UInt64.ofNat (if outcome = .fail then 1 else 0)
  skips : g'.skippedHalt = g.skippedHalt + UInt64.ofNat (if outcome = .skip then 1 else 0)
  lastError : g'.lastError = [] ↔ g.lastError = [] ∧ outcome ≠ .fail
  warnings : g'.warnings.length = g.warnings.length +
    if strict = true ∧ (outcome = .fail ∨ outcome = .skip) then 1 else 0

theorem tallied_ok (strict : Bool) (content : Bytes) {g g' : Globals}
    (happly : g'.applyFailures = g.applyFailures) (hread : g'.readFailures = g.readFailures)
    (hskip : g'.skippedHalt = g.skippedHalt) (herror : g'.lastError = g.lastError)
    (hwarnings : g'.warnings = g.warnings) : Tallied strict (.ok content) g g' where
  failures := by simp [happly, hread]
  skips := by simp [hskip]
  lastError := by simp [herror]
  warnings := by simp [hwarnings]

/-- A failure, with its message and the warning where they are asked for. -/
theorem tallied_warn (strict : Bool) (message : Bytes) {outcome : Patched} {g g' : Globals}
    (hfailed : outcome = .fail ∨ outcome = .skip)
    (hfailures : g'.applyFailures + g'.readFailures =
      g.applyFailures + g.readFailures + UInt64.ofNat (if outcome = .fail then 1 else 0))
    (hskips : g'.skippedHalt =
      g.skippedHalt + UInt64.ofNat (if outcome = .skip then 1 else 0))
    (herror : g'.lastError = [] ↔ g.lastError = [] ∧ outcome ≠ .fail)
    (hwarnings : g'.warnings = g.warnings) : Tallied strict outcome g (g'.warn strict message) := by
  cases strict with
  | false => exact ⟨hfailures, hskips, herror, by simp [Globals.warn, hwarnings]⟩
  | true => exact ⟨hfailures, hskips, herror, by simp [Globals.warn, hwarnings, hfailed]⟩

theorem getPatched_tallied (cfg : Config) (w : World) (g : Globals) (path : Bytes)
    (fp : FilePatch) :
    Tallied cfg.strict (phpatcherGetPatched cfg w g path fp).1 g
      (phpatcherGetPatched cfg w g path fp).2 := by
  unfold phpatcherGetPatched
  cases heldIn g.precomputed path with
  | some content => exact tallied_ok _ _ rfl rfl rfl rfl rfl
  | none =>
      simp only
      cases (if cfg.cache then heldIn g.cache path else none) with
      | some content => exact tallied_ok _ _ rfl rfl rfl rfl rfl
      | none =>
          simp only
          cases readOriginal w.disk path fp with
          | unreadable =>
              refine tallied_warn _ _ (.inl rfl) ?_ (by simp) (by simp [ascii]) rfl
              simp [UInt64.add_assoc]
          | halt => exact tallied_warn _ _ (.inr rfl) (by simp) (by simp) (by simp) rfl
          | text original =>
              simp only
              cases (applyWith g.baseDir w.disk fp original []).1 with
              | error e =>
                  refine tallied_warn _ _ (.inl rfl) ?_ (by simp) (by simp [ascii]) rfl
                  have hswap : ∀ a r : UInt64, a + 1 + r = a + r + 1 := by
                    intro a r
                    rw [UInt64.add_assoc, UInt64.add_comm 1 r, UInt64.add_assoc]
                  simp [hswap]
              | ok owned => cases cfg.cache <;> exact tallied_ok _ _ rfl rfl rfl rfl rfl

end Phpatcher.Glue
