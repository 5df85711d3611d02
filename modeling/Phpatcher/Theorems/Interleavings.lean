import Phpatcher.Theorems.ParallelIndex
import Phpatcher.Tools.WorkerPool

/-!
# The parallel scan in every interleaving

The turns of the threads fall in any order. Each run ends, with what the workers
have for some schedule of the files, and for each schedule there is a run
(`pool_schedules`). Whether an index comes of it is for the order of destruction to
decide; the index is the same in all of them, for any number of workers (`pool_index`).
-/

namespace Phpatcher.Theorems

open Phpatcher.Basis Phpatcher.Core Phpatcher.Tools

/-- **The interleavings of the workers are the schedules**: every run comes to an
end, and the results it can end with are those of the ways to hand out the files. -/
theorem pool_schedules (hardwareConcurrency : Nat) (files : List NormFile) (opt : Options) :
    let jobs := jobCount hardwareConcurrency opt files.length
    let pool := workerPool hardwareConcurrency files opt
    pool.Progress (fun _ => True) (Crew.Done jobs)
        (Crew.turns (indexLoad opt.minLen files) jobs) ∧
      ∀ results : Nat → WorkerResult,
        (∃ s, pool.Reachable s ∧ s.Done jobs ∧ ∀ j < jobs, (s.worker j).result = results j) ↔
          ∃ schedule : Schedule jobs files.length,
            ∀ j < jobs, results j = normalizeWorker opt.minLen files (schedule.claims j) := by
  intro jobs pool
  refine ⟨crew_progress _ _, fun results => ⟨?_, ?_⟩⟩
  · rintro ⟨s, hs, hdone, hresults⟩
    obtain ⟨hdealt, hresult⟩ := dealt_of_done jobCount_eq_zero hs hdone
    refine ⟨⟨_, hdealt.once, hdealt.increasing⟩, fun j hj => ?_⟩
    rw [← hresults j hj, hresult j hj, resultOf_indexLoad]
  · rintro ⟨schedule, hresults⟩
    have hdealt : Dealt jobs (indexLoad opt.minLen files).count schedule.claims :=
      ⟨schedule.once, schedule.increasing⟩
    obtain ⟨s, hs, hdone, hresult⟩ := exists_dealt hdealt
    refine ⟨s, hs, hdone, fun j hj => ?_⟩
    rw [hresult j hj, hresults j hj, resultOf_indexLoad]

/-- What the workers have together, once they are done. -/
theorem sum_joined {hardwareConcurrency : Nat} {files : List NormFile} {opt : Options}
    {s : Crew (Nat × Bytes × Nat) WorkerResult}
    (hs : (workerPool hardwareConcurrency files opt).Reachable s)
    (hdone : s.Done (jobCount hardwareConcurrency opt files.length)) :
    (∀ r ∈ joined (jobCount hardwareConcurrency opt files.length) s, r.lines.Filled) ∧
      ((joined (jobCount hardwareConcurrency opt files.length) s).map workerTally).sum =
        ((List.range files.length).map (fileTally opt.minLen files)).sum := by
  obtain ⟨hdealt, hresult⟩ := dealt_of_done jobCount_eq_zero hs hdone
  let schedule : Schedule (jobCount hardwareConcurrency opt files.length) files.length :=
    ⟨_, hdealt.once, hdealt.increasing⟩
  have hjoined : joined (jobCount hardwareConcurrency opt files.length) s =
      workerResults opt.minLen files schedule := by
    refine List.map_congr_left fun j hj => ?_
    rw [hresult j (List.mem_range.mp hj), resultOf_indexLoad]
  rw [hjoined]
  refine ⟨fun r hr => ?_, sum_workerResults opt.minLen files schedule⟩
  obtain ⟨j, _, rfl⟩ := List.mem_map.mp hr
  exact filled_normalizeWorker opt.minLen files _

/-- **The index does not depend on the interleaving**, nor on the number of
workers. A scan in which every worker is done is merged exactly if there is no more
than one of them or their coprocesses are destroyed from the last to the first; and two
scans of the same files that are merged have the same files under the same ids, the
same postings under every key and the same counts. -/
theorem pool_index (hardwareConcurrency hardwareConcurrency' : Nat) (files : List NormFile)
    (opt opt' : Options) (hminLen : opt.minLen = opt'.minLen) (destruction : Destruction)
    (t t' : Traversal Bytes Nat) (sorter sorter' : Sorter (id : Nat → Nat)) (counters : Counters)
    {s s' : Crew (Nat × Bytes × Nat) WorkerResult}
    (hs : (workerPool hardwareConcurrency files opt).Reachable s)
    (hdone : s.Done (jobCount hardwareConcurrency opt files.length))
    (hs' : (workerPool hardwareConcurrency' files opt').Reachable s')
    (hdone' : s'.Done (jobCount hardwareConcurrency' opt' files.length)) :
    let merge := mergeParallel files destruction t sorter counters
      (joined (jobCount hardwareConcurrency opt files.length) s)
    let merge' := mergeParallel files destruction t' sorter' counters
      (joined (jobCount hardwareConcurrency' opt' files.length) s')
    (merge.isSome ↔ destruction.Reaps (jobCount hardwareConcurrency opt files.length)) ∧
      ∀ index index', merge = some index → merge' = some index' →
        index.1.files = index'.1.files ∧
          (∀ key, index.1.lines.find key = index'.1.lines.find key) ∧ index.2 = index'.2 := by
  obtain ⟨hfilled, hsum⟩ := sum_joined hs hdone
  obtain ⟨hfilled', hsum'⟩ := sum_joined hs' hdone'
  rw [← hminLen] at hsum'
  have hlength : (joined (jobCount hardwareConcurrency opt files.length) s).length =
      jobCount hardwareConcurrency opt files.length := by
    rw [joined, List.length_map, List.length_range]
  intro merge merge'
  have hmerge : merge = _ := mergeParallel_eq files destruction t sorter counters _
  have hmerge' : merge' = _ := mergeParallel_eq files destruction t' sorter' counters _
  constructor
  · rw [hmerge, hlength]
    split <;> simp [*]
  · intro index index' hindex hindex'
    rw [hindex] at hmerge
    rw [hindex'] at hmerge'
    split at hmerge
    next =>
      split at hmerge'
      next =>
        obtain rfl := Option.some.inj hmerge
        obtain rfl := Option.some.inj hmerge'
        exact foldResults_congr files t t' sorter sorter' counters hfilled hfilled'
          (hsum.trans hsum'.symm)
      next => cases hmerge'
    next => cases hmerge

/-- A scan with one worker and a scan with two, destroyed from the last to the first. -/
theorem pool_index_two :
    let merge := fun jobs s =>
      mergeParallel twoFiles .backward .plain (.stable id) 0 (joined jobs s)
    ∃ s s' index index', Crew.Done 1 s ∧ Crew.Done 2 s' ∧ merge 1 s = some index ∧
      merge 2 s' = some index' ∧ index.1.files = index'.1.files ∧ index.2 = index'.2 := by
  intro merge
  have hdealt : ∀ jobs, 0 < jobs →
      Dealt jobs (indexLoad 6 twoFiles).count fun j => if j = 0 then List.range 2 else [] :=
    fun jobs h => ⟨(Schedule.first 2 h).once, (Schedule.first 2 h).increasing⟩
  obtain ⟨s, hs, hdone, _⟩ := exists_dealt (hdealt 1 (by decide))
  obtain ⟨s', hs', hdone', _⟩ := exists_dealt (hdealt 2 (by decide))
  obtain ⟨hends, hsame⟩ := @pool_index 4 4 twoFiles { jobs := 1 } { jobs := 2 } rfl .backward
    .plain .plain (.stable id) (.stable id) 0 s s' hs hdone hs' hdone'
  obtain ⟨hends', _⟩ := @pool_index 4 4 twoFiles { jobs := 2 } { jobs := 1 } rfl .backward
    .plain .plain (.stable id) (.stable id) 0 s' s hs' hdone' hs hdone
  obtain ⟨index, hindex⟩ := Option.isSome_iff_exists.mp (hends.mpr (by decide))
  obtain ⟨index', hindex'⟩ := Option.isSome_iff_exists.mp (hends'.mpr (by decide))
  obtain ⟨hfiles, _, hcounters⟩ := hsame index index' hindex hindex'
  exact ⟨s, s', index, index', hdone, hdone', hindex, hindex', hfiles, hcounters⟩

end Phpatcher.Theorems
