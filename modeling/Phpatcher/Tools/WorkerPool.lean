import Phpatcher.Basis.Tickets
import Phpatcher.Tools.Indexer

/-!
# The workers of the normalized scan

`normalize_worker` on several threads: each draws file numbers from the shared
cursor (`fetch_add`) and makes a call of `on_line` for each line of its file, in
turns that fall in any order. What the workers have when they are joined goes into
`mergeParallel`, as in `process_normalized_parallel`.
-/

namespace Phpatcher.Tools

open Phpatcher.Basis Phpatcher.Core

/-- The files as work: a piece is a line with the id of its file. A file that
cannot be read has none. -/
def indexLoad (minLen : Nat) (files : List NormFile) :
    Workload (Nat × Bytes × Nat) WorkerResult where
  count := files.length
  pieces i :=
    match (files.getD i ⟨[], none⟩).keys with
    | none => []
    | some keys => keys.zipIdx.map fun line => (toU32 i, line)
  apply out piece := out.onLine minLen piece.1 piece.2
  empty := {}

/-- The threads of the scan. -/
def workerPool (hardwareConcurrency : Nat) (files : List NormFile) (opt : Options) :
    Transition (Crew (Nat × Bytes × Nat) WorkerResult) Nat :=
  crew (indexLoad opt.minLen files) (jobCount hardwareConcurrency opt files.length)

/-- The results of `jobs` workers. -/
def joined (jobs : Nat) (s : Crew (Nat × Bytes × Nat) WorkerResult) : List WorkerResult :=
  (List.range jobs).map fun j => (s.worker j).result

/-- The work of some files is what `normalize_worker` does with them. -/
theorem resultOf_indexLoad (minLen : Nat) (files : List NormFile) (claims : List Nat) :
    (indexLoad minLen files).resultOf claims = normalizeWorker minLen files claims := by
  have hfile : ∀ (out : WorkerResult) (i : Nat),
      ((indexLoad minLen files).pieces i).foldl (indexLoad minLen files).apply out =
        out.onFile minLen files i := by
    intro out i
    simp only [indexLoad, WorkerResult.onFile]
    cases (files.getD i ⟨[], none⟩).keys with
    | none => rfl
    | some keys => exact List.foldl_map
  rw [Workload.resultOf, normalizeWorker, List.foldl_flatMap]
  exact congrArg (fun f => claims.foldl f {}) (funext fun out => funext (hfile out))

/-- There are workers where there are files. -/
theorem jobCount_eq_zero {hardwareConcurrency : Nat} {opt : Options} {n : Nat}
    (h : jobCount hardwareConcurrency opt n = 0) : n = 0 := by
  simp only [jobCount] at h
  generalize (if opt.jobs ≠ 0 then opt.jobs else autoJobs hardwareConcurrency) = jobs at h
  split at h <;> split at h <;> omega

end Phpatcher.Tools
