import Phpatcher.Glue.Freshness

/-!
# Precomputed and lazy paths

The precomputation walks the whole index and writes a map by key; a lookup
takes one entry by binary search. Under a key that two sections share after
re-canonicalization the first takes the last section and the second the first,
and the modes agree on a path exactly when this makes no difference there.
-/

namespace Phpatcher.Theorems

open Phpatcher.Basis Phpatcher.Core Phpatcher.Glue

/-- The globals after looking up some paths one after the other. -/
def lookups (cfg : Config) (w : World) (set : PatchSet) : Globals → List Bytes → Globals
  | g, [] => g
  | g, path :: rest =>
      match set.find path with
      | some fp => lookups cfg w set (phpatcherGetPatched cfg w g path fp).2 rest
      | none => lookups cfg w set g rest

/-- The outcome for a path under a configuration, when some paths have been
looked up since startup. -/
def outcomeAfter (sorter : EntrySorter) (cfg : Config) (w : World) (diffText baseDir : Bytes)
    (parsed : PatchSet) (earlier : List Bytes) (path : Bytes) : Option Patched :=
  let set := parsed.recanonicalize sorter (engineKey w)
  let g := lookups cfg w set (install sorter cfg w diffText { baseDir } parsed) earlier
  (set.find path).map fun fp => (phpatcherGetPatched cfg w g path fp).1

/-- The outcome for a path is the same under any two configurations, whatever
was looked up before. -/
def ModesAgree (sorter : EntrySorter) (w : World) (diffText baseDir : Bytes)
    (parsed : PatchSet) (path : Bytes) : Prop :=
  ∀ (cfg cfg' : Config) (earlier earlier' : List Bytes),
    outcomeAfter sorter cfg w diffText baseDir parsed earlier path =
      outcomeAfter sorter cfg' w diffText baseDir parsed earlier' path

/-- Lookups leave the setup as it is and fresh content fresh. -/
theorem freshAt_lookups {cfg : Config} {w : World} {set : PatchSet} {path : Bytes}
    (earlier : List Bytes) {g : Globals} (hset : g.patchset = some set)
    (h : FreshAt cfg w.disk g set path) :
    FreshAt cfg w.disk (lookups cfg w set g earlier) set path ∧
      (lookups cfg w set g earlier).baseDir = g.baseDir := by
  induction earlier generalizing g with
  | nil => exact ⟨h, rfl⟩
  | cons p rest ih =>
      rw [lookups]
      cases hfind : set.find p with
      | none => exact ih hset h
      | some fp =>
          have hstep : HookStep w g (phpatcherGetPatched cfg w g p fp).2 :=
            hookStep_getPatched hset hfind
          obtain ⟨hfresh, hbaseDir⟩ := ih (hstep.setup.patchset.trans hset) (h.hookStep hset hstep)
          exact ⟨hfresh, hbaseDir.trans hstep.setup.baseDir⟩

/-- Where the content after startup is fresh, the outcome is that of producing. -/
theorem outcomeAfter_of_fresh {sorter : EntrySorter} {cfg : Config} {w : World}
    {diffText baseDir : Bytes} {parsed : PatchSet} {path : Bytes}
    (h : FreshAt cfg w.disk (install sorter cfg w diffText { baseDir } parsed)
      (parsed.recanonicalize sorter (engineKey w)) path) (earlier : List Bytes) :
    outcomeAfter sorter cfg w diffText baseDir parsed earlier path =
      ((parsed.recanonicalize sorter (engineKey w)).find path).map
        (produce baseDir w.disk path) := by
  obtain ⟨hfresh, hbaseDir⟩ := freshAt_lookups earlier rfl h
  simp only [outcomeAfter]
  cases hfind : (parsed.recanonicalize sorter (engineKey w)).find path with
  | none => rfl
  | some fp =>
      rw [Option.map_some, Option.map_some, hfresh.outcome hfind, hbaseDir]
      rfl

/-- **Precomputed and lazy paths.** For every patch set, every function its
keys are re-canonicalized with and every disk: the outcome for a path is the
same in all modes exactly when the later sections under it agree with the
first. -/
theorem modes_agree_iff (sorter : EntrySorter) (w : World) (diffText baseDir : Bytes)
    (parsed : PatchSet) (path : Bytes) :
    ModesAgree sorter w diffText baseDir parsed path ↔
      LaterSectionsAgree baseDir w.disk (parsed.recanonicalize sorter (engineKey w)) path := by
  constructor
  · intro h
    -- the default configuration against the one that holds nothing
    let on : Config := { patchFile := [] }
    let off : Config := { patchFile := [], precompute := false, cache := false }
    refine (freshAt_install_iff sorter on w diffText { baseDir } parsed path).mp ?_ rfl
    intro fp content hfind hheld
    have hsame := h on off [] []
    have hoff : FreshAt off w.disk (install sorter off w diffText { baseDir } parsed)
        (parsed.recanonicalize sorter (engineKey w)) path :=
      (freshAt_install_iff sorter off w diffText { baseDir } parsed path).mpr (by simp [off])
    rw [outcomeAfter_of_fresh hoff, outcomeAfter, hfind] at hsame
    simp only [Option.map_some, Option.some.injEq, lookups] at hsame
    rw [getPatched_fst, hheld] at hsame
    exact hsame.symm
  · intro h cfg cfg' earlier earlier'
    have hfresh := fun cfg : Config =>
      (freshAt_install_iff sorter cfg w diffText { baseDir } parsed path).mpr fun _ => h
    rw [outcomeAfter_of_fresh (hfresh cfg), outcomeAfter_of_fresh (hfresh cfg')]

/-- Two sections end under the key `/a.php`; the first deletes line 1, the
second line 2. The precomputed content is that of the second, a lookup without
it gives that of the first. -/
theorem modes_differ :
    let text := ascii "# phpatcher-ed\n# file: /a.php\n1d\n# file: /b.php\n2d\n"
    let w : World := {
      disk := fun p => if p = ascii "/a.php" then some (ascii "x\ny\n") else none
      os := ⟨some, some (ascii "/")⟩
      vcwdRealpath := fun _ => some (ascii "/a.php")
      vcwdGetcwd := some (ascii "/")
      engineResolve := some }
    let sorter : EntrySorter := Sorter.stable Prod.fst
    let parsed := (PatchSet.parse sorter (fun p => canonicalize w.os p (ascii "/")) text {}).1
    let lazy : Config := { patchFile := ascii "/p", precompute := false }
    (PatchSet.parse sorter (fun p => canonicalize w.os p (ascii "/")) text {}).2 = .ok () ∧
      outcomeAfter sorter { patchFile := ascii "/p" } w text (ascii "/") parsed []
        (ascii "/a.php") = some (.ok (ascii "x\n")) ∧
      outcomeAfter sorter lazy w text (ascii "/") parsed [] (ascii "/a.php") =
        some (.ok (ascii "y\n")) ∧
      ¬ ModesAgree sorter w text (ascii "/") parsed (ascii "/a.php") := by
  intro text w sorter parsed lazy
  have hparse : (PatchSet.parse sorter (fun p => canonicalize w.os p (ascii "/")) text {}).2 =
      .ok () := by decide +kernel
  have hon : outcomeAfter sorter { patchFile := ascii "/p" } w text (ascii "/") parsed []
      (ascii "/a.php") = some (.ok (ascii "x\n")) := by decide +kernel
  have hlazy : outcomeAfter sorter lazy w text (ascii "/") parsed [] (ascii "/a.php") =
      some (.ok (ascii "y\n")) := by decide +kernel
  refine ⟨hparse, hon, hlazy, fun hagree => ?_⟩
  have hsame := hagree { patchFile := ascii "/p" } lazy [] []
  rw [hon, hlazy] at hsame
  exact absurd hsame (by decide)

end Phpatcher.Theorems
