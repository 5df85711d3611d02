import Phpatcher.Glue.World

/-!
# Producing the patched content of a file

`phpatcher_get_patched` with its two content maps. What it produces afresh
depends on the disk alone (`produce`); what it gives is what one of the maps
holds for the path, or else this (`getPatched_fst`).
-/

namespace Phpatcher.Glue

open Phpatcher.Basis Phpatcher.Core

/-- `phpatcher_has_halt_compiler`. -/
def phpatcherHasHaltCompiler (src : Bytes) : Bool :=
  src.tails.any fun rest => (ascii "__halt_compiler").isPrefixOf rest

/-- `PatchStatus`, with the content of `Ok`. -/
inductive Patched where
  | ok (content : Bytes)
  | skip
  | fail
  deriving DecidableEq, Repr

/-- The base `apply` starts from: the file on the disk, or the empty text for a
created file. -/
inductive Original where
  | unreadable
  | halt
  | text (content : Bytes)
  deriving DecidableEq, Repr

/-- Read the original of a section. -/
def readOriginal (disk : Disk) (path : Bytes) (fp : FilePatch) : Original :=
  if fp.creates then .text []
  else
    match disk path with
    | none => .unreadable
    | some content => if phpatcherHasHaltCompiler content then .halt else .text content

/-- `PatchSet::apply` with the resolver of `baseDir`, started with this cache. -/
def applyWith (baseDir : Bytes) (disk : Disk) (fp : FilePatch) (original : Bytes)
    (cache : RefCache) : Except Bytes Bytes × RefCache :=
  (applyEdScript fp original (some (phpatcherMakeResolver baseDir disk))).outcome cache

/-- What a map holds under a path. -/
def heldIn (map : Option ContentMap) (path : Bytes) : Option Bytes :=
  map.bind fun m => m.lookup path

theorem heldIn_insert (m : ContentMap) (path owned p : Bytes) :
    heldIn (some (m.insert path owned)) p =
      if p = path then some owned else heldIn (some m) p := by
  by_cases hp : p = path
  · subst hp
    rw [if_pos rfl]
    exact AList.lookup_insert m
  · rw [if_neg hp]
    exact AList.lookup_insert_ne hp

/-- The file could not be read. -/
def Globals.readFailed (g : Globals) (strict : Bool) (path : Bytes) : Globals :=
  { g with
    readFailures := g.readFailures + 1
    lastError := ascii "cannot read original file '" ++ path ++ ascii "'" }.warn strict
      (ascii "phpatcher: cannot read original file '" ++ path ++ ascii "'")

/-- The file holds `__halt_compiler`. -/
def Globals.haltSkipped (g : Globals) (strict : Bool) (path : Bytes) : Globals :=
  { g with skippedHalt := g.skippedHalt + 1 }.warn strict
    (ascii "phpatcher: skipping '" ++ path ++
      ascii "' (__halt_compiler present; patching would shift its data offset)")

/-- The patch did not apply. -/
def Globals.applyFailed (g : Globals) (strict : Bool) (path error : Bytes) : Globals :=
  { g with
    applyFailures := g.applyFailures + 1
    lastError := ascii "patch did not apply to '" ++ path ++ ascii "': " ++ error }.warn strict
      (ascii "phpatcher: patch did not apply to '" ++ path ++ ascii "': " ++ error)

/-- `phpatcher_get_patched`. -/
def phpatcherGetPatched (cfg : Config) (w : World) (g : Globals) (path : Bytes)
    (fp : FilePatch) : Patched × Globals :=
  match heldIn g.precomputed path with
  | some content => (.ok content, g)
  | none =>
      match if cfg.cache then heldIn g.cache path else none with
      | some content => (.ok content, g)
      | none =>
          match readOriginal w.disk path fp with
          | .unreadable => (.fail, g.readFailed cfg.strict path)
          | .halt => (.skip, g.haltSkipped cfg.strict path)
          | .text original =>
              match (applyWith g.baseDir w.disk fp original []).1 with
              | .error error => (.fail, g.applyFailed cfg.strict path error)
              | .ok owned =>
                  if cfg.cache then
                    (.ok owned, { g with cache := g.cache.map fun m => m.insert path owned })
                  else (.ok owned, g)

/-- `'` and `\` escaped, as a single-quoted PHP string needs it. -/
def stubEscape (s : Bytes) : Bytes :=
  s.flatMap fun c => if c = backslash ∨ c = singleQuote then [backslash, c] else [c]

/-- `phpatcher_fail_stub`. -/
def phpatcherFailStub (path reason : Bytes) : Bytes :=
  ascii "<?php throw new \\RuntimeException('phpatcher: refusing to run unpatched code for " ++
    stubEscape path ++ ascii " (" ++ stubEscape reason ++ ascii ")');\n"

/-! ## Production without the maps -/

/-- What is produced for a section under a path from this disk. -/
def produce (baseDir : Bytes) (disk : Disk) (path : Bytes) (fp : FilePatch) : Patched :=
  match readOriginal disk path fp with
  | .unreadable => .fail
  | .halt => .skip
  | .text original =>
      match (applyWith baseDir disk fp original []).1 with
      | .error _ => .fail
      | .ok content => .ok content

/-- What the maps that are consulted hold under a path. -/
def held (cfg : Config) (g : Globals) (path : Bytes) : Option Bytes :=
  match heldIn g.precomputed path with
  | some content => some content
  | none => if cfg.cache then heldIn g.cache path else none

/-- The outcome: what is held, or else what is produced now. -/
theorem getPatched_fst (cfg : Config) (w : World) (g : Globals) (path : Bytes)
    (fp : FilePatch) :
    (phpatcherGetPatched cfg w g path fp).1 =
      match held cfg g path with
      | some content => .ok content
      | none => produce g.baseDir w.disk path fp := by
  unfold phpatcherGetPatched held produce
  cases heldIn g.precomputed path with
  | some content => rfl
  | none =>
      simp only
      cases (if cfg.cache then heldIn g.cache path else none) with
      | some content => rfl
      | none =>
          simp only
          cases readOriginal w.disk path fp with
          | unreadable => rfl
          | halt => rfl
          | text original =>
              simp only
              cases (applyWith g.baseDir w.disk fp original []).1 with
              | error e => rfl
              | ok content => cases cfg.cache <;> rfl

/-- What `phpatcher_get_patched` leaves as it was. -/
structure SameSetup (g g' : Globals) : Prop where
  baseDir : g'.baseDir = g.baseDir
  patchset : g'.patchset = g.patchset
  precomputed : g'.precomputed = g.precomputed
  compileHook : g'.compileHook = g.compileHook
  resolveHook : g'.resolveHook = g.resolveHook
  streamHook : g'.streamHook = g.streamHook

theorem SameSetup.refl (g : Globals) : SameSetup g g := ⟨rfl, rfl, rfl, rfl, rfl, rfl⟩

theorem SameSetup.trans {g g' g'' : Globals} (h : SameSetup g g') (h' : SameSetup g' g'') :
    SameSetup g g'' where
  baseDir := h'.baseDir.trans h.baseDir
  patchset := h'.patchset.trans h.patchset
  precomputed := h'.precomputed.trans h.precomputed
  compileHook := h'.compileHook.trans h.compileHook
  resolveHook := h'.resolveHook.trans h.resolveHook
  streamHook := h'.streamHook.trans h.streamHook

/-- Recording a failure leaves the setup and the cache alone. -/
theorem sameSetup_warn {g g' : Globals} (h : SameSetup g g' ∧ g'.cache = g.cache) (strict : Bool)
    (message : Bytes) :
    SameSetup g (g'.warn strict message) ∧ (g'.warn strict message).cache = g.cache := by
  unfold Globals.warn
  split
  · exact ⟨⟨h.1.1, h.1.2, h.1.3, h.1.4, h.1.5, h.1.6⟩, h.2⟩
  · exact h

theorem sameSetup_readFailed (g : Globals) (strict : Bool) (path : Bytes) :
    SameSetup g (g.readFailed strict path) ∧ (g.readFailed strict path).cache = g.cache := by
  unfold Globals.readFailed
  refine sameSetup_warn ?_ _ _
  exact ⟨⟨rfl, rfl, rfl, rfl, rfl, rfl⟩, rfl⟩

theorem sameSetup_haltSkipped (g : Globals) (strict : Bool) (path : Bytes) :
    SameSetup g (g.haltSkipped strict path) ∧ (g.haltSkipped strict path).cache = g.cache := by
  unfold Globals.haltSkipped
  refine sameSetup_warn ?_ _ _
  exact ⟨⟨rfl, rfl, rfl, rfl, rfl, rfl⟩, rfl⟩

theorem sameSetup_applyFailed (g : Globals) (strict : Bool) (path error : Bytes) :
    SameSetup g (g.applyFailed strict path error) ∧
      (g.applyFailed strict path error).cache = g.cache := by
  unfold Globals.applyFailed
  refine sameSetup_warn ?_ _ _
  exact ⟨⟨rfl, rfl, rfl, rfl, rfl, rfl⟩, rfl⟩

/-- The state afterwards: at most one entry is new, in the cache, and it is what
was produced now. -/
theorem getPatched_snd (cfg : Config) (w : World) (g : Globals) (path : Bytes)
    (fp : FilePatch) :
    SameSetup g (phpatcherGetPatched cfg w g path fp).2 ∧
      ∀ p content, heldIn (phpatcherGetPatched cfg w g path fp).2.cache p = some content →
        heldIn g.cache p = some content ∨
          p = path ∧ produce g.baseDir w.disk path fp = .ok content := by
  -- every outcome but a new entry keeps the cache
  have hkeep : ∀ g' : Globals, SameSetup g g' ∧ g'.cache = g.cache →
      SameSetup g g' ∧ ∀ p content, heldIn g'.cache p = some content →
        heldIn g.cache p = some content ∨
          p = path ∧ produce g.baseDir w.disk path fp = .ok content := by
    rintro g' ⟨hsame, hcache⟩
    refine ⟨hsame, fun p content h => ?_⟩
    rw [hcache] at h
    exact .inl h
  have hsame : SameSetup g g ∧ g.cache = g.cache := ⟨SameSetup.refl g, rfl⟩
  unfold phpatcherGetPatched
  cases heldIn g.precomputed path with
  | some content => exact hkeep _ hsame
  | none =>
      simp only
      cases (if cfg.cache then heldIn g.cache path else none) with
      | some content => exact hkeep _ hsame
      | none =>
          simp only
          cases horiginal : readOriginal w.disk path fp with
          | unreadable => exact hkeep _ (sameSetup_readFailed g cfg.strict path)
          | halt => exact hkeep _ (sameSetup_haltSkipped g cfg.strict path)
          | text original =>
              simp only
              cases happly : (applyWith g.baseDir w.disk fp original []).1 with
              | error e => exact hkeep _ (sameSetup_applyFailed g cfg.strict path e)
              | ok owned =>
                  simp only
                  split
                  · refine ⟨⟨rfl, rfl, rfl, rfl, rfl, rfl⟩, fun p content h => ?_⟩
                    cases hmap : g.cache with
                    | none => simp [heldIn, hmap] at h
                    | some m =>
                        -- the one entry written is that of `path`
                        simp only [hmap, Option.map_some, heldIn_insert] at h
                        split at h
                        next hp =>
                          refine .inr ⟨hp, ?_⟩
                          rw [produce, horiginal, ← Option.some.inj h]
                          simp only [happly]
                        next => exact .inl h
                  · exact hkeep _ hsame

/-! ## What production depends on -/

/-- The two disks agree on every file that producing a section reads. -/
structure SameInputs (baseDir : Bytes) (disk disk' : Disk) (path : Bytes) (fp : FilePatch) :
    Prop where
  own : fp.creates = false → disk' path = disk path
  refs : ∀ ref ∈ fp.refs, disk' (refFile baseDir ref) = disk (refFile baseDir ref)

/-- An application depends on the referenced files alone, not on what the
reference cache holds of them. -/
theorem applyWith_congr {baseDir : Bytes} {disk disk' : Disk} {fp : FilePatch}
    {cache cache' : RefCache} (original : Bytes)
    (hrefs : ∀ ref ∈ fp.refs, disk' (refFile baseDir ref) = disk (refFile baseDir ref))
    (h : cache.Agrees disk) (h' : cache'.Agrees disk') :
    (applyWith baseDir disk' fp original cache').1 = (applyWith baseDir disk fp original cache).1 ∧
      (applyWith baseDir disk' fp original cache').2.Agrees disk' := by
  have hstep : ∀ ref ∈ fp.refs,
      Fallible.Lockstep (fun c c' : RefCache => c.Agrees disk ∧ c'.Agrees disk')
        (phpatcherMakeResolver baseDir disk ref) (phpatcherMakeResolver baseDir disk' ref) := by
    rintro ref href c c' ⟨hc, hc'⟩
    obtain ⟨hout, hagrees⟩ := makeResolver_outcome baseDir hc ref
    obtain ⟨hout', hagrees'⟩ := makeResolver_outcome baseDir hc' ref
    refine ⟨?_, hagrees, hagrees'⟩
    rw [hout, hout', resolveRef, resolveRef, hrefs ref href]
  obtain ⟨hsame, _, hagrees⟩ := applyEdScript_lockstep hstep original cache cache' ⟨h, h'⟩
  exact ⟨hsame.symm, hagrees⟩

theorem produce_congr {baseDir : Bytes} {disk disk' : Disk} {path : Bytes} {fp : FilePatch}
    (h : SameInputs baseDir disk disk' path fp) :
    produce baseDir disk' path fp = produce baseDir disk path fp := by
  have horiginal : readOriginal disk' path fp = readOriginal disk path fp := by
    unfold readOriginal
    split
    · rfl
    · rw [h.own (by simpa using ‹¬ fp.creates = true›)]
  have happly := fun original => (applyWith_congr original h.refs (RefCache.agrees_nil disk)
    (RefCache.agrees_nil disk')).1
  unfold produce
  rw [horiginal]
  cases readOriginal disk path fp with
  | unreadable => rfl
  | halt => rfl
  | text original =>
      simp only
      rw [happly original]

end Phpatcher.Glue
