import Phpatcher.Glue.Patched

/-!
# The hooks

The path lookup, the compile hook, the path resolver and the stream opener of
`phpatcher.cpp`. A hook gets a file handle and gives the one it passes on to
the engine.
-/

namespace Phpatcher.Glue

open Phpatcher.Basis Phpatcher.Core

/-- `phpatcher_basename`: the basename of the path the engine spelled. -/
def phpatcherBasename (fh : FileHandle) : Bytes :=
  match fh.openedPath with
  | some path => basenameOf path
  | none =>
      match fh.filename with
      | some path => basenameOf path
      | none => []

/-- `phpatcher_resolve_path`. -/
def phpatcherResolvePath (w : World) (g : Globals) (filename : Bytes) : Option Bytes :=
  match w.engineResolve filename with
  | some resolved => some resolved
  | none =>
      match g.patchset with
      | none => none
      | some set =>
          let canon := canonicalize w.os filename g.baseDir
          match set.find canon with
          | some fp => if fp.creates then some canon else none
          | none => none

/-- `zend_resolve_path`: the hook where it is installed. -/
def zendResolvePath (w : World) (g : Globals) (filename : Bytes) : Option Bytes :=
  if g.resolveHook then phpatcherResolvePath w g filename else w.engineResolve filename

/-- `phpatcher_canonical_path`. -/
def phpatcherCanonicalPath (w : World) (g : Globals) (fh : FileHandle) : Option Bytes :=
  let resolved :=
    match fh.openedPath with
    | some path => some path
    | none => fh.filename.bind (zendResolvePath w g)
  match resolved with
  | some path => some ((w.vcwdRealpath path).getD path)
  | none => fh.filename.map fun filename => canonicalize w.os filename g.baseDir

/-- `find`, with the key. -/
def findKey (set : PatchSet) (path : Bytes) : Option (Bytes × FilePatch) :=
  (set.find path).map fun fp => (path, fp)

/-- `phpatcher_resolve`: the basename filter, the opened path, the canonical
path. -/
def phpatcherResolve (w : World) (g : Globals) (set : PatchSet) (fh : FileHandle) :
    Option (Bytes × FilePatch) :=
  let base := phpatcherBasename fh
  if base = [] ∨ set.hasBasename base = false then none
  else
    match fh.openedPath.bind (findKey set) with
    | some found => some found
    | none => (phpatcherCanonicalPath w g fh).bind (findKey set)

/-- `phpatcher_inject_source`. -/
def phpatcherInjectSource (fh : FileHandle) (content path : Bytes) : FileHandle :=
  { fh with
    buf := some content
    openedPath := if fh.openedPath = none ∧ fh.filename ≠ none then some path else fh.openedPath }

def patchFailed : Bytes := ascii "patch failed"
def haltReason : Bytes := ascii "file cannot be patched (__halt_compiler)"

/-- What the compile hook makes of an outcome. -/
def compileOutcome (cfg : Config) (fh : FileHandle) (path : Bytes) : Patched → FileHandle
  | .ok content => phpatcherInjectSource fh content path
  | .fail =>
      if cfg.failClosed then phpatcherInjectSource fh (phpatcherFailStub path patchFailed) path
      else fh
  | .skip =>
      if cfg.failClosed then phpatcherInjectSource fh (phpatcherFailStub path haltReason) path
      else fh

/-- `phpatcher_compile_file`: the handle the next compiler in the chain gets. -/
def phpatcherCompileFile (cfg : Config) (w : World) (g : Globals) (fh : FileHandle) :
    FileHandle × Globals :=
  match g.patchset with
  | none => (fh, g)
  | some set =>
      if fh.buf ≠ none ∨ (fh.filename = none ∧ fh.openedPath = none) then (fh, g)
      else
        match phpatcherResolve w g set fh with
        | none => (fh, g)
        | some (path, fp) =>
            let (outcome, g) := phpatcherGetPatched cfg w g path fp
            (compileOutcome cfg fh path outcome, g)

/-- What opening a stream comes to. -/
inductive Opened where
  | success (fh : FileHandle)
  | failure
  /-- left to the previous opener -/
  | delegated
  deriving DecidableEq, Repr

/-- What the stream opener makes of an outcome. -/
def openOutcome (cfg : Config) (fh : FileHandle) (canon : Bytes) : Patched → Opened
  | .ok content => .success (phpatcherInjectSource fh content canon)
  | .fail | .skip =>
      if !cfg.failClosed then .failure
      else .success (phpatcherInjectSource fh (phpatcherFailStub canon patchFailed) canon)

/-- The created file a handle names, if it names one. -/
def createdFile (w : World) (g : Globals) (fh : FileHandle) : Option (Bytes × FilePatch) :=
  match g.patchset, fh.filename with
  | some set, some filename =>
      let base := phpatcherBasename fh
      if base ≠ [] ∧ set.hasBasename base = true then
        (findKey set (canonicalize w.os filename g.baseDir)).filter fun found => found.2.creates
      else none
  | _, _ => none

/-- `phpatcher_stream_open`. -/
def phpatcherStreamOpen (cfg : Config) (w : World) (g : Globals) (fh : FileHandle) :
    Opened × Globals :=
  match createdFile w g fh with
  | none => (.delegated, g)
  | some (canon, fp) =>
      let (outcome, g) := phpatcherGetPatched cfg w g canon fp
      (openOutcome cfg fh canon outcome, g)

/-! ## Lookups -/

theorem findKey_eq_some {set : PatchSet} {path key : Bytes} {fp : FilePatch} :
    findKey set path = some (key, fp) ↔ key = path ∧ set.find path = some fp := by
  simp only [findKey, Option.map_eq_some_iff, Prod.mk.injEq]
  constructor
  · intro h
    obtain ⟨fp', hfind, rfl, rfl⟩ := h
    exact ⟨rfl, hfind⟩
  · intro h
    obtain ⟨rfl, hfind⟩ := h
    exact ⟨fp, hfind, rfl, rfl⟩

/-- A section the lookup gives is the one `find` gives under its key. -/
theorem find_of_resolve {w : World} {g : Globals} {set : PatchSet} {fh : FileHandle}
    {path : Bytes} {fp : FilePatch} (h : phpatcherResolve w g set fh = some (path, fp)) :
    set.find path = some fp := by
  simp only [phpatcherResolve] at h
  split at h
  · simp at h
  · split at h
    next found hopened =>
      obtain rfl := Option.some.inj h
      obtain ⟨opened, _, hkey⟩ := Option.bind_eq_some_iff.mp hopened
      obtain ⟨rfl, hfind⟩ := findKey_eq_some.mp hkey
      exact hfind
    next =>
      obtain ⟨canon, _, hkey⟩ := Option.bind_eq_some_iff.mp h
      obtain ⟨rfl, hfind⟩ := findKey_eq_some.mp hkey
      exact hfind

/-- A path the engine does not resolve is resolved to a key of a created file. -/
theorem resolvePath_eq_some {w : World} {g : Globals} {set : PatchSet} {filename key : Bytes}
    (hset : g.patchset = some set) (hunresolved : w.engineResolve filename = none) :
    phpatcherResolvePath w g filename = some key ↔
      canonicalize w.os filename g.baseDir = key ∧
        ∃ fp, set.find key = some fp ∧ fp.creates = true := by
  simp only [phpatcherResolvePath, hunresolved, hset]
  constructor
  · intro h
    split at h
    next fp hfind =>
      split at h
      next hcreates =>
        obtain rfl := Option.some.inj h
        exact ⟨rfl, fp, hfind, hcreates⟩
      next => simp at h
    next => simp at h
  · rintro ⟨rfl, fp, hfind, hcreates⟩
    simp [hfind, hcreates]

/-- When an opening is one of a created file. -/
theorem createdFile_eq_some {w : World} {g : Globals} {set : PatchSet} {fh : FileHandle}
    {filename key : Bytes} {fp : FilePatch} (hset : g.patchset = some set)
    (hfilename : fh.filename = some filename) :
    createdFile w g fh = some (key, fp) ↔
      (phpatcherBasename fh ≠ [] ∧ set.hasBasename (phpatcherBasename fh) = true) ∧
        canonicalize w.os filename g.baseDir = key ∧ set.find key = some fp ∧
          fp.creates = true := by
  simp only [createdFile, hset, hfilename]
  split
  next hfilter =>
    rw [Option.filter_eq_some_iff, findKey_eq_some]
    constructor
    · rintro ⟨⟨rfl, hfind⟩, hcreates⟩
      exact ⟨hfilter, rfl, hfind, hcreates⟩
    · rintro ⟨_, rfl, hfind, hcreates⟩
      exact ⟨⟨rfl, hfind⟩, hcreates⟩
  next hfilter => simp [hfilter]

/-- What a created file is looked up as. -/
theorem find_of_createdFile {w : World} {g : Globals} {fh : FileHandle} {canon : Bytes}
    {fp : FilePatch} (h : createdFile w g fh = some (canon, fp)) :
    ∃ set, g.patchset = some set ∧ set.find canon = some fp ∧ fp.creates = true := by
  unfold createdFile at h
  split at h
  next set filename hset _ =>
    simp only at h
    split at h
    · obtain ⟨hkey, hcreates⟩ := Option.filter_eq_some_iff.mp h
      obtain ⟨rfl, hfind⟩ := findKey_eq_some.mp hkey
      exact ⟨set, hset, hfind, hcreates⟩
    · simp at h
  · simp at h

/-- A compilation either passes the handle on as it is, or looks a section up
and goes by its outcome. -/
theorem compileFile_cases (cfg : Config) (w : World) (g : Globals) (fh : FileHandle) :
    phpatcherCompileFile cfg w g fh = (fh, g) ∨
      ∃ set path fp, g.patchset = some set ∧ fh.buf = none ∧
        phpatcherResolve w g set fh = some (path, fp) ∧
        phpatcherCompileFile cfg w g fh =
          (compileOutcome cfg fh path (phpatcherGetPatched cfg w g path fp).1,
            (phpatcherGetPatched cfg w g path fp).2) := by
  unfold phpatcherCompileFile
  cases hset : g.patchset with
  | none => exact .inl rfl
  | some set =>
      simp only
      split
      · exact .inl rfl
      next heligible =>
        cases hresolve : phpatcherResolve w g set fh with
        | none => exact .inl rfl
        | some found =>
            obtain ⟨path, fp⟩ := found
            refine .inr ⟨set, path, fp, rfl, ?_, hresolve, rfl⟩
            by_contra hbuf
            exact heligible (.inl hbuf)

/-- The compile hook, for a file its lookup finds. -/
theorem compileFile_of_resolve {cfg : Config} {w : World} {g : Globals} {set : PatchSet}
    {fh : FileHandle} {path : Bytes} {fp : FilePatch} (hset : g.patchset = some set)
    (hbuf : fh.buf = none) (hresolve : phpatcherResolve w g set fh = some (path, fp)) :
    (phpatcherCompileFile cfg w g fh).1 =
      compileOutcome cfg fh path (phpatcherGetPatched cfg w g path fp).1 := by
  have hnamed : ¬ (fh.filename = none ∧ fh.openedPath = none) := by
    intro h
    obtain ⟨hfilename, hopened⟩ := h
    simp [phpatcherResolve, phpatcherBasename, hfilename, hopened] at hresolve
  simp [phpatcherCompileFile, hset, hbuf, hnamed, hresolve]

/-- An opening is either left to the previous opener, or goes by the outcome of
a created file. -/
theorem streamOpen_cases (cfg : Config) (w : World) (g : Globals) (fh : FileHandle) :
    phpatcherStreamOpen cfg w g fh = (.delegated, g) ∧ createdFile w g fh = none ∨
      ∃ canon fp, createdFile w g fh = some (canon, fp) ∧
        phpatcherStreamOpen cfg w g fh =
          (openOutcome cfg fh canon (phpatcherGetPatched cfg w g canon fp).1,
            (phpatcherGetPatched cfg w g canon fp).2) := by
  unfold phpatcherStreamOpen
  cases hcreated : createdFile w g fh with
  | none => exact .inl ⟨rfl, rfl⟩
  | some found => exact .inr ⟨found.1, found.2, rfl, rfl⟩

end Phpatcher.Glue
