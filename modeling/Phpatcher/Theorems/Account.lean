import Phpatcher.Glue.Stats

/-!
# The account of a run

What `phpatcher_stats` says after any run from startup: the counters are the numbers
of lookups that failed and that were skipped, the last error and the warnings tell
whether there were any, and no file is counted both as precomputed and as cached.
-/

namespace Phpatcher.Theorems

open Phpatcher.Basis Phpatcher.Core Phpatcher.Glue

/-! ## Counters -/

/-- What a run adds to the counters. -/
structure Accounted (strict : Bool) (outs : List Patched) (g g' : Globals) : Prop where
  failures : g'.applyFailures + g'.readFailures =
    g.applyFailures + g.readFailures + UInt64.ofNat (outs.count .fail)
  skips : g'.skippedHalt = g.skippedHalt + UInt64.ofNat (outs.count .skip)
  lastError : g'.lastError = [] ↔ g.lastError = [] ∧ .fail ∉ outs
  warnings : g'.warnings.length = g.warnings.length +
    if strict then outs.count .fail + outs.count .skip else 0

theorem Accounted.nil (strict : Bool) (g : Globals) : Accounted strict [] g g where
  failures := by simp
  skips := by simp
  lastError := by simp
  warnings := by simp

theorem Accounted.cons {strict : Bool} {outcome : Patched} {outs : List Patched}
    {g g' g'' : Globals} (h : Tallied strict outcome g g') (h' : Accounted strict outs g' g'') :
    Accounted strict (outcome :: outs) g g'' where
  failures := by
    rw [h'.failures, h.failures, List.count_cons, Nat.add_comm (outs.count .fail),
      UInt64.ofNat_add, UInt64.add_assoc]
    simp
  skips := by
    rw [h'.skips, h.skips, List.count_cons, Nat.add_comm (outs.count .skip), UInt64.ofNat_add,
      UInt64.add_assoc]
    simp
  lastError := by
    rw [h'.lastError, h.lastError, List.mem_cons, not_or, and_assoc, @eq_comm _ Patched.fail]
  warnings := by
    rw [h'.warnings, h.warnings, List.count_cons, List.count_cons]
    cases strict <;> cases outcome <;> simp <;> omega

theorem accounted_run (cfg : Config) (s : State) (events : List Event) :
    Accounted cfg.strict (outcomes cfg s events) s.globals (s.run cfg events).globals := by
  induction events generalizing s with
  | nil => exact .nil _ _
  | cons e events ih =>
      have hrest := ih (s.next cfg e)
      rw [State.run, List.foldl_cons, ← State.run, outcomes]
      have hglobals := next_globals cfg s e
      cases hlooked : lookedUp s e with
      | none =>
          rw [hlooked] at hglobals
          rwa [hglobals] at hrest
      | some found =>
          rw [hlooked] at hglobals
          refine .cons ?_ hrest
          rw [hglobals]
          exact getPatched_tallied cfg s.world s.globals found.1 found.2

/-! ## Maps -/

/-- For a precomputed path, and with the cache off, the cache stays as it is. -/
theorem getPatched_cache {cfg : Config} {g : Globals} {path : Bytes}
    (h : heldIn g.precomputed path ≠ none ∨ cfg.cache = false) (w : World) (fp : FilePatch) :
    (phpatcherGetPatched cfg w g path fp).2.cache = g.cache := by
  unfold phpatcherGetPatched
  cases hpre : heldIn g.precomputed path with
  | some content => rfl
  | none =>
      have hoff : cfg.cache = false := h.resolve_left (fun hne => hne hpre)
      simp only [hoff, Bool.false_eq_true, if_false]
      cases readOriginal w.disk path fp with
      | unreadable => exact (sameSetup_readFailed g cfg.strict path).2
      | halt => exact (sameSetup_haltSkipped g cfg.strict path).2
      | text original =>
          simp only
          cases (applyWith g.baseDir w.disk fp original []).1 with
          | error e => exact (sameSetup_applyFailed g cfg.strict path e).2
          | ok owned => rfl

/-- What the maps hold are files of the index, each in one map at most, and in the
cache only with the cache on. -/
structure MapsApart (cfg : Config) (g : Globals) : Prop where
  precomputed : ∀ path content, heldIn g.precomputed path = some content →
    path ∈ phpatcherGetFiles g
  cached : ∀ path content, heldIn g.cache path = some content →
    path ∈ phpatcherGetFiles g ∧ heldIn g.precomputed path = none ∧ cfg.cache = true

theorem mem_getFiles {g : Globals} {set : PatchSet} (hset : g.patchset = some set)
    {path : Bytes} {fp : FilePatch} (hfind : set.find path = some fp) (h : set.Indexed) :
    path ∈ phpatcherGetFiles g := by
  rw [phpatcherGetFiles, hset]
  exact List.mem_map.mpr ⟨_, h.mem_of_find hfind, rfl⟩

theorem mapsApart_startup (sorter : EntrySorter) (cfg : Config) (w : World) :
    MapsApart cfg (minit sorter cfg w {}) := by
  rcases minit_cases sorter cfg w with ⟨_, hpre, hcache, _⟩ | ⟨diffText, parsed, _, _, hinstall⟩
  · exact ⟨by simp [heldIn, hpre], by simp [heldIn, hcache]⟩
  · rw [hinstall]
    constructor
    · intro path content hheld
      simp only [install, heldIn] at hheld
      split at hheld
      · rw [Option.bind_some, lookup_precompute] at hheld
        -- a section under the path applied, so there is one
        have hmem := List.mem_of_getLast? hheld
        obtain ⟨fp, hfp, _⟩ := List.mem_filterMap.mp hmem
        obtain ⟨e, he, rfl⟩ := List.mem_map.mp hfp
        obtain ⟨he, hkey⟩ := List.mem_filter.mp he
        exact List.mem_map.mpr ⟨e, he, of_decide_eq_true hkey⟩
      · simp at hheld
    · simp [install, heldIn]

/-- A lookup keeps the maps apart. -/
theorem MapsApart.getPatched {cfg : Config} {g : Globals} (h : MapsApart cfg g) {path : Bytes}
    (hpath : path ∈ phpatcherGetFiles g) (w : World) (fp : FilePatch) :
    MapsApart cfg (phpatcherGetPatched cfg w g path fp).2 := by
  obtain ⟨hsame, hsnd⟩ := getPatched_snd cfg w g path fp
  have hfiles : phpatcherGetFiles (phpatcherGetPatched cfg w g path fp).2 =
      phpatcherGetFiles g := by
    rw [phpatcherGetFiles, phpatcherGetFiles, hsame.patchset]
  constructor
  · rw [hsame.precomputed, hfiles]
    exact h.precomputed
  · intro p content hheld
    rw [hsame.precomputed, hfiles]
    by_cases hkept : heldIn g.precomputed path ≠ none ∨ cfg.cache = false
    · rw [getPatched_cache hkept] at hheld
      exact h.cached p content hheld
    · rw [not_or, not_not] at hkept
      rcases hsnd p content hheld with hold | ⟨rfl, _⟩
      · exact h.cached p content hold
      · exact ⟨hpath, hkept.1, by simpa using hkept.2⟩

theorem find_of_lookedUp {s : State} {e : Event} {path : Bytes} {fp : FilePatch}
    (h : lookedUp s e = some (path, fp)) :
    ∃ set, s.globals.patchset = some set ∧ set.find path = some fp := by
  cases e with
  | edit w => cases h
  | compile fh =>
      simp only [lookedUp] at h
      split at h
      · obtain ⟨set, hset, hresolve⟩ := Option.bind_eq_some_iff.mp h
        exact ⟨set, hset, find_of_resolve hresolve⟩
      · simp at h
  | openStream fh =>
      simp only [lookedUp] at h
      split at h
      · obtain ⟨set, hset, hfind, _⟩ := find_of_createdFile h
        exact ⟨set, hset, hfind⟩
      · simp at h

theorem mapsApart_invariant (sorter : EntrySorter) (cfg : Config) :
    (system sorter cfg).Invariant fun s => MapsApart cfg s.globals := by
  intro s hreach
  induction hreach with
  | start hstart =>
      obtain ⟨w, rfl⟩ := hstart
      exact mapsApart_startup sorter cfg w
  | @step s e t hreach hstep ih =>
      obtain rfl := hstep
      rw [next_globals]
      cases hlooked : lookedUp s e with
      | none => exact ih
      | some found =>
          obtain ⟨set, hset, hfind⟩ := find_of_lookedUp hlooked
          have hindexed := (installed_invariant sorter cfg s hreach set hset).indexed
          exact ih.getPatched (mem_getFiles hset hfind hindexed) s.world found.2

/-- The files of a map, each once. -/
theorem exists_files (map : Option ContentMap) : ∃ keys : List Bytes, keys.Nodup ∧
    keys.length = filesIn map ∧ ∀ path ∈ keys, ∃ content, heldIn map path = some content := by
  cases map with
  | none => exact ⟨[], List.nodup_nil, rfl, by simp⟩
  | some m =>
      refine ⟨m.keys, m.keys_nodup, rfl, fun path hpath => ?_⟩
      exact Option.isSome_iff_exists.mp (AList.lookup_isSome.mpr hpath)

/-- The keys of two maps that are apart are files of the index, each once. -/
theorem MapsApart.files_le {cfg : Config} {g : Globals} (h : MapsApart cfg g) :
    filesIn g.precomputed + filesIn g.cache ≤ (phpatcherGetFiles g).length := by
  obtain ⟨pre, hpreNodup, hpreLength, hpre⟩ := exists_files g.precomputed
  obtain ⟨cached, hcachedNodup, hcachedLength, hcached⟩ := exists_files g.cache
  have hnodup : (pre ++ cached).Nodup := by
    refine hpreNodup.append hcachedNodup fun path hp hc => ?_
    obtain ⟨content, hcontent⟩ := hpre path hp
    obtain ⟨content', hcontent'⟩ := hcached path hc
    rw [(h.cached path content' hcontent').2.1] at hcontent
    simp at hcontent
  have hsubset : pre ++ cached ⊆ phpatcherGetFiles g := by
    intro path hpath
    rcases List.mem_append.mp hpath with hp | hc
    · obtain ⟨content, hcontent⟩ := hpre path hp
      exact h.precomputed path content hcontent
    · obtain ⟨content, hcontent⟩ := hcached path hc
      exact (h.cached path content hcontent).1
  have hlength := (hnodup.subperm hsubset).length_le
  rwa [List.length_append, hpreLength, hcachedLength] at hlength

theorem run_reachable {sorter : EntrySorter} {cfg : Config} {s : State}
    (hs : (system sorter cfg).Reachable s) (events : List Event) :
    (system sorter cfg).Reachable (s.run cfg events) := by
  induction events generalizing s with
  | nil => exact hs
  | cons e events ih => exact ih (hs.step rfl)

/-- Startup counts nothing. -/
theorem counters_minit (sorter : EntrySorter) (cfg : Config) (w : World) (g : Globals) :
    (minit sorter cfg w g).applyFailures = g.applyFailures ∧
      (minit sorter cfg w g).readFailures = g.readFailures ∧
      (minit sorter cfg w g).skippedHalt = g.skippedHalt ∧
      (minit sorter cfg w g).lastError = g.lastError := by
  unfold minit
  split
  · exact ⟨rfl, rfl, rfl, rfl⟩
  split
  · exact ⟨rfl, rfl, rfl, rfl⟩
  cases w.disk cfg.patchFile with
  | none => exact ⟨rfl, rfl, rfl, rfl⟩
  | some diffText =>
      simp only
      rcases PatchSet.parse sorter (fun path => canonicalize w.os path (phpatcherBaseDir cfg w))
        diffText {} with ⟨set, e | ⟨⟩⟩
      · exact ⟨rfl, rfl, rfl, rfl⟩
      · simp only
        split <;> exact ⟨rfl, rfl, rfl, rfl⟩

/-- **The account of a run.** After any run from startup the failure counters add up
to the lookups that failed, and the skips to those that were skipped, modulo 2^64;
there is a last error exactly if one failed, and with `strict` one more warning than
at startup for each of both. What is precomputed or cached are files of the index, none
of them both, so that the counts of the two come to no more than that of the index; and
without the cache none is cached. -/
theorem account_of_run (sorter : EntrySorter) (cfg : Config) (w : World) (events : List Event) :
    let start := startup sorter cfg w
    let g := (start.run cfg events).globals
    let outs := outcomes cfg start events
    let stats := phpatcherStats cfg g
    g.applyFailures + g.readFailures = UInt64.ofNat (outs.count .fail) ∧
      g.skippedHalt = UInt64.ofNat (outs.count .skip) ∧
      (g.lastError = [] ↔ .fail ∉ outs) ∧
      g.warnings.length = start.globals.warnings.length +
        (if cfg.strict then outs.count .fail + outs.count .skip else 0) ∧
      MapsApart cfg g ∧
      stats.precomputedFiles + stats.cachedFiles ≤ stats.indexedFiles ∧
      stats.indexedFiles = (phpatcherGetFiles g).length ∧
      (cfg.cache = false → stats.cachedFiles = 0) := by
  intro start g outs stats
  have haccount := accounted_run cfg start events
  obtain ⟨happly, hread, hskip, herror⟩ : start.globals.applyFailures = 0 ∧
      start.globals.readFailures = 0 ∧ start.globals.skippedHalt = 0 ∧
      start.globals.lastError = [] := counters_minit sorter cfg w {}
  have hreach : (system sorter cfg).Reachable (start.run cfg events) :=
    run_reachable (.start ⟨w, rfl⟩) events
  have hmaps := mapsApart_invariant sorter cfg _ hreach
  have hindexed : stats.indexedFiles = (phpatcherGetFiles g).length := by
    show g.patchset.elim 0 PatchSet.fileCount = _
    unfold phpatcherGetFiles
    cases g.patchset with
    | none => rfl
    | some set => exact (List.length_map _).symm
  refine ⟨?_, ?_, ?_, haccount.warnings, hmaps, ?_, hindexed, fun hoff => ?_⟩
  · have hfailures := haccount.failures
    rw [happly, hread, UInt64.zero_add, UInt64.zero_add] at hfailures
    exact hfailures
  · have hskips := haccount.skips
    rw [hskip, UInt64.zero_add] at hskips
    exact hskips
  · have hlast := haccount.lastError
    rw [herror, eq_self, true_and] at hlast
    exact hlast
  · rw [hindexed]
    exact hmaps.files_le
  · obtain ⟨keys, _, hlength, hheld⟩ := exists_files g.cache
    show filesIn g.cache = 0
    rw [← hlength, List.length_eq_zero_iff, List.eq_nil_iff_forall_not_mem]
    intro path hpath
    obtain ⟨content, hcontent⟩ := hheld path hpath
    rw [(hmaps.cached path content hcontent).2.2] at hoff
    exact Bool.false_ne_true hoff.symm

end Phpatcher.Theorems
