import Phpatcher.Glue.System

/-!
# When held content is what would be produced now

The maps are asked before the disk. What they hold for a path is *fresh* when
producing its section on the disk of now would give the same (`FreshAt`); a
lookup keeps it so, and then its outcome is that of producing. After startup
the precomputed map holds the last of the sections under a key, the lookup
takes the first: fresh are the paths where the two agree (`LaterSectionsAgree`).
-/

namespace Phpatcher.Glue

open Phpatcher.Basis Phpatcher.Core

/-- The content held for a path is what its section gives on this disk. -/
def FreshAt (cfg : Config) (disk : Disk) (g : Globals) (set : PatchSet) (path : Bytes) : Prop :=
  ∀ fp content, set.find path = some fp → held cfg g path = some content →
    produce g.baseDir disk path fp = .ok content

/-- If the later sections under a key apply at all, the last one that does gives
what the first gives. There are no later sections when the keys are distinct. -/
def LaterSectionsAgree (baseDir : Bytes) (disk : Disk) (set : PatchSet) (path : Bytes) : Prop :=
  ∀ first later content, sectionsAt set path = first :: later →
    (later.filterMap (applied baseDir disk path)).getLast? = some content →
    produce baseDir disk path first = .ok content

variable {cfg : Config} {w : World} {g : Globals} {set : PatchSet} {path : Bytes}

/-- With fresh content the outcome of a lookup is that of producing. -/
theorem FreshAt.outcome (h : FreshAt cfg w.disk g set path) {fp : FilePatch}
    (hfind : set.find path = some fp) :
    (phpatcherGetPatched cfg w g path fp).1 = produce g.baseDir w.disk path fp := by
  rw [getPatched_fst]
  cases hheld : held cfg g path with
  | none => rfl
  | some content => exact (h fp content hfind hheld).symm

/-- A hook keeps content fresh. -/
theorem FreshAt.hookStep (h : FreshAt cfg w.disk g set path) {g' : Globals}
    (hset : g.patchset = some set) (hstep : HookStep w g g') : FreshAt cfg w.disk g' set path := by
  intro fp content hfind hheld
  rw [hstep.setup.baseDir]
  unfold held at hheld
  split at hheld
  -- a hook does not write the precomputed map
  next entry hpre =>
    rw [hstep.setup.precomputed] at hpre
    apply h fp content hfind
    rw [held, hpre]
    exact hheld
  next hpre =>
    rw [hstep.setup.precomputed] at hpre
    split at hheld
    next hcache =>
      rcases hstep.cache path content hheld with hold | ⟨set', fp', hset', hfind', hproduce⟩
      · apply h fp content hfind
        simp only [held, hpre, hcache, if_true]
        exact hold
      · obtain rfl : set = set' := Option.some.inj (hset.symm.trans hset')
        obtain rfl : fp = fp' := Option.some.inj (hfind.symm.trans hfind')
        exact hproduce
    next => simp at hheld

/-- The lookup takes the first section under a key. -/
theorem find_eq_head? (h : set.Indexed) (path : Bytes) :
    set.find path = (sectionsAt set path).head? := by
  rw [h.find_eq_find?, sectionsAt, List.head?_map, List.head?_filter]

/-- What is held after startup. -/
theorem held_install (sorter : EntrySorter) (cfg : Config) (w : World) (diffText : Bytes)
    (g : Globals) (parsed : PatchSet) (path : Bytes) :
    held cfg (install sorter cfg w diffText g parsed) path =
      if cfg.precompute then
        ((sectionsAt (parsed.recanonicalize sorter (engineKey w)) path).filterMap
          (applied g.baseDir w.disk path)).getLast?
      else none := by
  have hcache : heldIn (install sorter cfg w diffText g parsed).cache path = none := by
    simp [install, heldIn]
  have hpre : heldIn (install sorter cfg w diffText g parsed).precomputed path =
      if cfg.precompute then
        ((sectionsAt (parsed.recanonicalize sorter (engineKey w)) path).filterMap
          (applied g.baseDir w.disk path)).getLast?
      else none := by
    simp only [install, heldIn]
    split
    · rw [Option.bind_some, lookup_precompute]
    · rfl
  rw [held, hcache, hpre]
  simp only [ite_self]
  split
  next content hcontent => exact hcontent.symm
  next hnone => exact hnone.symm

/-- After startup the content of a path is fresh exactly when nothing is
precomputed or the later sections agree. -/
theorem freshAt_install_iff (sorter : EntrySorter) (cfg : Config) (w : World) (diffText : Bytes)
    (g : Globals) (parsed : PatchSet) (path : Bytes) :
    FreshAt cfg w.disk (install sorter cfg w diffText g parsed)
        (parsed.recanonicalize sorter (engineKey w)) path ↔
      (cfg.precompute = true →
        LaterSectionsAgree g.baseDir w.disk (parsed.recanonicalize sorter (engineKey w)) path) := by
  have hindexed := PatchSet.indexed_recanonicalize sorter (engineKey w) parsed
  have hbaseDir : (install sorter cfg w diffText g parsed).baseDir = g.baseDir := rfl
  unfold FreshAt LaterSectionsAgree
  rw [held_install, hbaseDir, find_eq_head? hindexed]
  constructor
  · intro h hpre first later content hsections hlast
    apply h first content (by rw [hsections]; rfl)
    rw [if_pos hpre, hsections]
    cases happlied : applied g.baseDir w.disk path first with
    | none => rw [List.filterMap_cons_none happlied, hlast]
    | some own => rw [List.filterMap_cons_some happlied, List.getLast?_cons, hlast]; rfl
  · intro h fp content hfind hheld
    split at hheld
    next hpre =>
      cases hsections : sectionsAt (parsed.recanonicalize sorter (engineKey w)) path with
      | nil => simp [hsections] at hfind
      | cons first later =>
          obtain rfl : first = fp := by simpa [hsections] using hfind
          rw [hsections] at hheld
          -- with later sections that apply the last of them is held, else the first
          cases hlast : (later.filterMap (applied g.baseDir w.disk path)).getLast? with
          | some out =>
              have hout := h hpre first later out hsections hlast
              have happlied := applied_eq_some.mpr hout
              rw [List.filterMap_cons_some happlied, List.getLast?_cons, hlast] at hheld
              rw [hout, ← Option.some.inj hheld]
              rfl
          | none =>
              rw [List.getLast?_eq_none_iff] at hlast
              cases happlied : applied g.baseDir w.disk path first with
              | none => simp [List.filterMap_cons_none happlied, hlast] at hheld
              | some own =>
                  rw [List.filterMap_cons_some happlied, hlast] at hheld
                  rw [← Option.some.inj hheld]
                  exact applied_eq_some.mp happlied
    next => simp at hheld

end Phpatcher.Glue
