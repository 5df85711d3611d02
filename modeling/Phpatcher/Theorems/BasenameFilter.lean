import Phpatcher.Glue.System

/-!
# The basename filter looks at the spelled name

The lookup stops at the filter when no key has the basename of the path as the
engine *spelled* it, and only then looks at the canonical path. The two agree
exactly where the spelled basename is that of some key: a symlink of another
name hides its target from the lookup (`resolve_misses_symlink`).
-/

namespace Phpatcher.Theorems

open Phpatcher.Basis Phpatcher.Core Phpatcher.Glue

/-- The path is a key of the index. -/
def IsKey (set : PatchSet) (path : Bytes) : Prop := ∃ e ∈ set.index, e.1 = path

/-- The filter lets the spelled name of a handle pass. -/
def SpelledLikeKey (set : PatchSet) (fh : FileHandle) : Prop :=
  phpatcherBasename fh ≠ [] ∧ ∃ e ∈ set.index, basenameOf e.1 = phpatcherBasename fh

/-- Behind the filter a canonical path that is a key is found. -/
theorem resolve_isSome {w : World} {g : Globals} {set : PatchSet} (hset : set.Indexed)
    {fh : FileHandle} (hspelled : SpelledLikeKey set fh) {canon : Bytes}
    (hcanon : phpatcherCanonicalPath w g fh = some canon) (hkey : IsKey set canon) :
    (phpatcherResolve w g set fh).isSome := by
  have hfilter : ¬ (phpatcherBasename fh = [] ∨
      set.hasBasename (phpatcherBasename fh) = false) := by
    rw [not_or, Bool.not_eq_false, hset.hasBasename_iff]
    exact hspelled
  have hfind : (set.find canon).isSome := (hset.find_isSome_iff canon).mpr hkey
  simp only [phpatcherResolve, if_neg hfilter]
  cases fh.openedPath.bind (findKey set) with
  | some found => rfl
  | none => simpa [hcanon, findKey] using hfind

/-- A lookup that finds something has passed the filter. -/
theorem spelledLikeKey_of_resolve {w : World} {g : Globals} {set : PatchSet}
    (hset : set.Indexed) {fh : FileHandle} (h : (phpatcherResolve w g set fh).isSome) :
    SpelledLikeKey set fh := by
  simp only [phpatcherResolve] at h
  split at h
  · simp at h
  next hfilter =>
    rw [not_or, Bool.not_eq_false, hset.hasBasename_iff] at hfilter
    exact hfilter

/-- **The basename filter.** For every index as the extension keys it, every
file system and every handle: a canonical path that is a key is found exactly
when the spelled basename is the basename of some key. -/
theorem resolve_finds_iff (sorter : EntrySorter) (fn : Bytes → Bytes) (parsed : PatchSet)
    (w : World) (g : Globals) (fh : FileHandle) :
    let set := parsed.recanonicalize sorter fn
    (∀ canon, phpatcherCanonicalPath w g fh = some canon → IsKey set canon →
        (phpatcherResolve w g set fh).isSome) ↔
      ∀ canon, phpatcherCanonicalPath w g fh = some canon → IsKey set canon →
        SpelledLikeKey set fh := by
  intro set
  have hset : set.Indexed := PatchSet.indexed_recanonicalize sorter fn parsed
  constructor
  · intro h canon hcanon hkey
    exact spelledLikeKey_of_resolve hset (h canon hcanon hkey)
  · intro h canon hcanon hkey
    exact resolve_isSome hset (h canon hcanon hkey) hcanon hkey

/-- `/app/link.php` is a symlink to `/app/target.php`, which the patch changes. -/
def linkedWorld : World where
  disk p :=
    if p = ascii "/app/link.php" ∨ p = ascii "/app/target.php" then some (ascii "<?php\nevil();\n")
    else if p = ascii "/patch" then some (ascii "# phpatcher-ed\n# file: target.php\n2d\n")
    else none
  os := ⟨some, some (ascii "/app")⟩
  vcwdRealpath p := some (if p = ascii "/app/link.php" then ascii "/app/target.php" else p)
  vcwdGetcwd := some (ascii "/app")
  engineResolve := some

/-- Compiled through the symlink, the patched file is missed: the compiler gets
the handle without a patch although `on_error` is `fail`. -/
theorem resolve_misses_symlink :
    let cfg : Config := { patchFile := ascii "/patch", onError := some (ascii "fail") }
    let g := (startup (Sorter.stable Prod.fst) cfg linkedWorld).globals
    let fh : FileHandle := { filename := some (ascii "/app/link.php") }
    phpatcherCanonicalPath linkedWorld g fh = some (ascii "/app/target.php") ∧
      (∃ set, g.patchset = some set ∧ IsKey set (ascii "/app/target.php") ∧
        phpatcherResolve linkedWorld g set fh = none) ∧
      (engineCompile cfg linkedWorld g fh).1 = fh := by
  intro cfg g fh
  have hset : g.patchset.map (fun set =>
      ((set.index.any fun e => e.1 = ascii "/app/target.php"),
        phpatcherResolve linkedWorld g set fh)) = some (true, none) := by decide +kernel
  obtain ⟨set, hset, hvalues⟩ := Option.map_eq_some_iff.mp hset
  obtain ⟨hkey, hresolve⟩ := Prod.mk.inj hvalues
  refine ⟨by decide +kernel, ⟨set, hset, ?_, hresolve⟩, by decide +kernel⟩
  simpa [IsKey] using hkey

end Phpatcher.Theorems
