import Phpatcher.Glue.Hooks

/-!
# Startup

`PHP_MINIT_FUNCTION(phpatcher)` and what it calls: the base directory, the
re-keyed index, and the contents precomputed with one reference cache.
-/

namespace Phpatcher.Glue

open Phpatcher.Basis Phpatcher.Core

/-- `phpatcher_base_dir`. -/
def phpatcherBaseDir (cfg : Config) (w : World) : Bytes :=
  let dir := if cfg.baseDir ≠ [] then cfg.baseDir else w.vcwdGetcwd.getD []
  if dir = [] then [] else (w.vcwdRealpath dir).getD dir

/-- One entry of the index, precomputed. -/
def precomputeStep (baseDir : Bytes) (disk : Disk) (acc : ContentMap × RefCache) (kv : Entry) :
    ContentMap × RefCache :=
  match readOriginal disk kv.1 kv.2 with
  | .unreadable | .halt => acc
  | .text original =>
      match applyWith baseDir disk kv.2 original acc.2 with
      | (.ok patched, cache) => (acc.1.insert kv.1 patched, cache)
      | (.error _, cache) => (acc.1, cache)

/-- `phpatcher_precompute`. -/
def phpatcherPrecompute (baseDir : Bytes) (disk : Disk) (set : PatchSet) : ContentMap :=
  (set.index.foldl (precomputeStep baseDir disk) (∅, [])).1

/-- The engine's own path resolver, as the index is re-keyed with it. -/
def engineKey (w : World) (path : Bytes) : Bytes := (w.vcwdRealpath path).getD path

/-- The globals once a patch with sections was parsed. -/
def install (sorter : EntrySorter) (cfg : Config) (w : World) (diffText : Bytes) (g : Globals)
    (set : PatchSet) : Globals :=
  let entropy :=
    if cfg.opcacheBind then
      g.entropy ++ [(ascii "patch", diffText), (ascii "base_dir", g.baseDir)]
    else g.entropy
  let set := set.recanonicalize sorter (engineKey w)
  let hasVirtual := set.index.any fun kv => kv.2.creates
  { g with
    entropy
    patchset := some set
    cache := some ∅
    precomputed := if cfg.precompute then some (phpatcherPrecompute g.baseDir w.disk set) else none
    compileHook := true
    resolveHook := hasVirtual
    streamHook := hasVirtual }

/-- `PHP_MINIT_FUNCTION(phpatcher)`. -/
def minit (sorter : EntrySorter) (cfg : Config) (w : World) (g : Globals) : Globals :=
  if !cfg.enabled then g
  else if cfg.patchFile = [] then g
  else
    match w.disk cfg.patchFile with
    | none =>
        g.warn true (ascii "phpatcher: cannot read patch file '" ++ cfg.patchFile ++ ascii "'")
    | some diffText =>
        let g := { g with baseDir := phpatcherBaseDir cfg w }
        match PatchSet.parse sorter (fun path => canonicalize w.os path g.baseDir) diffText {} with
        | (_, .error error) =>
            g.warn true (ascii "phpatcher: failed to parse patch '" ++ cfg.patchFile ++
              ascii "': " ++ error)
        | (set, .ok ()) => if set.fileCount = 0 then g else install sorter cfg w diffText g set

/-! ## What is precomputed -/

/-- What a section gives, when it gives something. -/
def applied (baseDir : Bytes) (disk : Disk) (path : Bytes) (fp : FilePatch) : Option Bytes :=
  match produce baseDir disk path fp with
  | .ok content => some content
  | .skip | .fail => none

theorem applied_eq_some {baseDir : Bytes} {disk : Disk} {path content : Bytes} {fp : FilePatch} :
    applied baseDir disk path fp = some content ↔
      produce baseDir disk path fp = .ok content := by
  unfold applied
  cases produce baseDir disk path fp <;> simp

/-- One entry adds what its section gives; the shared reference cache does not
show in it. -/
theorem precomputeStep_spec (baseDir : Bytes) {disk : Disk} {acc : ContentMap × RefCache}
    (h : acc.2.Agrees disk) (kv : Entry) :
    (precomputeStep baseDir disk acc kv).2.Agrees disk ∧
      ∀ path, (precomputeStep baseDir disk acc kv).1.lookup path =
        match if kv.1 = path then applied baseDir disk path kv.2 else none with
        | some content => some content
        | none => acc.1.lookup path := by
  unfold precomputeStep applied produce
  by_cases hother : ∀ original, readOriginal disk kv.1 kv.2 ≠ .text original
  · -- nothing to apply to
    cases horiginal : readOriginal disk kv.1 kv.2 with
    | text original => exact absurd horiginal (hother original)
    | unreadable | halt =>
        refine ⟨h, fun path => ?_⟩
        by_cases hkey : kv.1 = path
        · rw [if_pos hkey, ← hkey, horiginal]
        · rw [if_neg hkey]
  · push Not at hother
    obtain ⟨original, horiginal⟩ := hother
    -- the shared reference cache agrees with the disk, as the empty one does
    have hrefs : ∀ ref ∈ kv.2.refs, disk (refFile baseDir ref) = disk (refFile baseDir ref) :=
      fun _ _ => rfl
    obtain ⟨hsame, hagrees⟩ := applyWith_congr original hrefs (RefCache.agrees_nil disk) h
    rw [horiginal]
    simp only
    rcases happly : applyWith baseDir disk kv.2 original acc.2 with ⟨outcome, cache⟩
    rw [happly] at hsame hagrees
    simp only at hsame hagrees
    cases outcome with
    | error e =>
        refine ⟨hagrees, fun path => ?_⟩
        by_cases hkey : kv.1 = path
        · rw [if_pos hkey, ← hkey, horiginal]
          simp only [← hsame]
        · rw [if_neg hkey]
    | ok patched =>
        refine ⟨hagrees, fun path => ?_⟩
        by_cases hkey : kv.1 = path
        · rw [if_pos hkey, ← hkey, horiginal]
          simp only [← hsame, AList.lookup_insert]
        · rw [if_neg hkey]
          exact AList.lookup_insert_ne (Ne.symm hkey)

/-- The sections under a key, in the order of the index. -/
def sectionsAt (set : PatchSet) (path : Bytes) : List FilePatch :=
  (set.index.filter fun kv => kv.1 = path).map Prod.snd

/-- Of the sections under a key the *last* one that applies is precomputed. -/
theorem lookup_precompute (baseDir : Bytes) (disk : Disk) (set : PatchSet) (path : Bytes) :
    (phpatcherPrecompute baseDir disk set).lookup path =
      ((sectionsAt set path).filterMap (applied baseDir disk path)).getLast? := by
  have hfold : ∀ (index : List Entry) (acc : ContentMap × RefCache), acc.2.Agrees disk →
      (index.foldl (precomputeStep baseDir disk) acc).1.lookup path =
        match (((index.filter fun kv => kv.1 = path).map Prod.snd).filterMap
          (applied baseDir disk path)).getLast? with
        | some content => some content
        | none => acc.1.lookup path := by
    intro index
    induction index with
    | nil => intro acc _; rfl
    | cons kv index ih =>
        intro acc hacc
        -- an entry under the key overwrites, an entry that does not apply leaves
        obtain ⟨hagrees, hlookup⟩ := precomputeStep_spec baseDir hacc kv
        rw [List.foldl_cons, ih _ hagrees, hlookup path]
        by_cases hkey : kv.1 = path
        · cases happlied : applied baseDir disk path kv.2 with
          | none => simp [hkey, happlied]
          | some content =>
              simp only [hkey, if_true, List.filter_cons, decide_true, List.map_cons,
                List.filterMap_cons_some happlied]
              rw [List.getLast?_cons]
              cases (((index.filter fun kv => kv.1 = path).map Prod.snd).filterMap
                (applied baseDir disk path)).getLast? <;> rfl
        · simp [hkey]
  have := hfold set.index (∅, []) (RefCache.agrees_nil disk)
  rw [phpatcherPrecompute, this, sectionsAt]
  cases ((set.index.filter fun kv => kv.1 = path).map Prod.snd |>.filterMap
    (applied baseDir disk path)).getLast? <;> rfl

end Phpatcher.Glue
