import Phpatcher.Theorems.Reaping
import Phpatcher.Tools.Indexer

/-!
# The parallel normalized index is the serial one

A worker adds, for every file it claims, a bag of postings under each key and
three counts; merging adds what the workers have. So the merged map holds the
same bags for every schedule, and compacting, repacking and sorting see no
more than the bags.

That is the index of a build that gets as far as the merge. It does with one worker,
and with several if their coprocesses are destroyed from the last to the first
(`parallel_matches_serial_iff`).
-/

namespace Phpatcher.Theorems

open Phpatcher.Basis Phpatcher.Core Phpatcher.Tools

/-- Bags of postings under every key, and the counts of lines. -/
abbrev Tally := (Bytes → Multiset Nat) × Counters

/-- What a worker has. -/
def workerTally (out : WorkerResult) : Tally := (out.lines.bag, out.counters)

/-! ## What a line, a file and a worker add -/

/-- What a line of a file adds: a posting under its key, unless the key is empty
or short, and its counts. -/
def lineTally (minLen fid : Nat) (line : Bytes × Nat) : Tally :=
  if line.1 = [] then (0, ⟨1, 0, 0⟩)
  else if (trim line.1).length < minLen then (0, ⟨1, 1, 0⟩)
  else (Buckets.bagOf [(line.1, pack fid (toU32 (line.2 + 1)))], ⟨1, 1, 1⟩)

/-- What the file number `i` adds. -/
def fileTally (minLen : Nat) (files : List NormFile) (i : Nat) : Tally :=
  match (files.getD i ⟨[], none⟩).keys with
  | none => 0
  | some keys => (keys.zipIdx.map (lineTally minLen (toU32 i))).sum

theorem workerTally_onLine (minLen fid : Nat) (out : WorkerResult) (line : Bytes × Nat) :
    workerTally (out.onLine minLen fid line) = workerTally out + lineTally minLen fid line := by
  obtain ⟨key, li⟩ := line
  rw [WorkerResult.onLine, lineTally]
  simp only
  split
  · exact Prod.ext (add_zero _).symm rfl
  · split
    · exact Prod.ext (add_zero _).symm rfl
    · exact Prod.ext (Buckets.bag_push _ _ _) rfl

theorem workerTally_onFile (minLen : Nat) (files : List NormFile) (out : WorkerResult) (i : Nat) :
    workerTally (out.onFile minLen files i) = workerTally out + fileTally minLen files i := by
  rw [WorkerResult.onFile, fileTally]
  cases (files.getD i ⟨[], none⟩).keys with
  | none => exact (add_zero _).symm
  | some keys => exact measure_foldl workerTally _ (workerTally_onLine minLen (toU32 i)) out _

/-- A worker has what the files it claims add. -/
theorem workerTally_normalizeWorker (minLen : Nat) (files : List NormFile) (claims : List Nat) :
    workerTally (normalizeWorker minLen files claims) =
      (claims.map (fileTally minLen files)).sum := by
  rw [normalizeWorker, measure_foldl workerTally _ (workerTally_onFile minLen files)]
  exact zero_add _

/-- No worker has a key without postings. -/
theorem filled_normalizeWorker (minLen : Nat) (files : List NormFile) (claims : List Nat) :
    (normalizeWorker minLen files claims).lines.Filled := by
  refine List.foldlRecOn (motive := fun out : WorkerResult => out.lines.Filled) claims _
    Buckets.Filled.empty ?_
  intro out hout i _
  rw [WorkerResult.onFile]
  cases (files.getD i ⟨[], none⟩).keys with
  | none => exact hout
  | some keys =>
      refine List.foldlRecOn (motive := fun out : WorkerResult => out.lines.Filled) _ _ hout ?_
      rintro out hout ⟨key, li⟩ _
      rw [WorkerResult.onLine]
      simp only
      split
      · exact hout
      · split
        · exact hout
        · exact hout.append key (by simp)

/-! ## Merging -/

theorem bag_mergeLines (t : Traversal Bytes Nat) (merged lines : Buckets Bytes Nat) :
    (mergeLines t merged lines).bag = merged.bag + lines.bag := by
  rw [mergeLines]
  split
  next hempty =>
    -- an empty map is replaced, and had nothing
    have hzero : merged.bag = 0 := by
      funext k
      rw [Buckets.bag, Buckets.find, List.isEmpty_iff.mp hempty]
      rfl
    rw [hzero, zero_add]
  next => exact Buckets.bag_absorb t merged lines

theorem filled_mergeLines (t : Traversal Bytes Nat) {merged lines : Buckets Bytes Nat}
    (hmerged : merged.Filled) (hlines : lines.Filled) : (mergeLines t merged lines).Filled := by
  rw [mergeLines]
  split
  · exact hlines
  · exact hmerged.absorb hlines t

/-- The workers and their results. -/
def workerResults (minLen : Nat) (files : List NormFile) {jobs : Nat}
    (schedule : Schedule jobs files.length) : List WorkerResult :=
  (List.range jobs).map fun j => normalizeWorker minLen files (schedule.claims j)

/-- The workers together have what all files add, however these fall to them. -/
theorem sum_workerResults (minLen : Nat) (files : List NormFile) {jobs : Nat}
    (schedule : Schedule jobs files.length) :
    ((workerResults minLen files schedule).map workerTally).sum =
      ((List.range files.length).map (fileTally minLen files)).sum := by
  rw [workerResults, List.map_map]
  calc ((List.range jobs).map
        (workerTally ∘ fun j => normalizeWorker minLen files (schedule.claims j))).sum
      = ((List.range jobs).map
          fun j => ((schedule.claims j).map (fileTally minLen files)).sum).sum := by
        congr 1
        apply List.map_congr_left
        intro j _
        exact workerTally_normalizeWorker minLen files (schedule.claims j)
    _ = (((List.range jobs).flatMap schedule.claims).map (fileTally minLen files)).sum := by
        induction List.range jobs with
        | nil => rfl
        | cons j js ih => rw [List.map_cons, List.sum_cons, ih, List.flatMap_cons,
            List.map_append, List.sum_append]
    _ = ((List.range files.length).map (fileTally minLen files)).sum :=
        (schedule.once.map _).sum_eq

/-- The bags and the counts add up side by side. -/
theorem sum_workerTally (results : List WorkerResult) :
    (results.map workerTally).sum =
      ((results.map fun r => r.lines.bag).sum, (results.map fun r => r.counters).sum) := by
  induction results with
  | nil => rfl
  | cons r results ih =>
      rw [List.map_cons, List.sum_cons, ih, List.map_cons, List.sum_cons, List.map_cons,
        List.sum_cons]
      rfl

/-- The merged map. -/
def mergeResults (t : Traversal Bytes Nat) (results : List WorkerResult) : Buckets Bytes Nat :=
  results.foldl (fun merged r => mergeLines t merged r.lines) .empty

theorem bag_mergeResults (t : Traversal Bytes Nat) (results : List WorkerResult) :
    (mergeResults t results).bag = ((results.map workerTally).sum).1 := by
  rw [mergeResults, measure_foldl Buckets.bag (fun r : WorkerResult => r.lines.bag)
    (fun merged r => bag_mergeLines t merged r.lines), Buckets.bag_empty, zero_add,
    sum_workerTally]

theorem filled_mergeResults (t : Traversal Bytes Nat) {results : List WorkerResult}
    (h : ∀ r ∈ results, r.lines.Filled) : (mergeResults t results).Filled :=
  List.foldlRecOn results _ Buckets.Filled.empty fun _ hm r hr => filled_mergeLines t hm (h r hr)

theorem counters_results (counters : Counters) (results : List WorkerResult) :
    results.foldl (fun c r => c + r.counters) counters =
      counters + ((results.map workerTally).sum).2 := by
  rw [sum_workerTally]
  exact measure_foldl (fun c : Counters => c) (fun r : WorkerResult => r.counters)
    (fun _ _ => rfl) counters results

/-! ## Compacting -/

/-- The ids in use are told by the bags. -/
theorem usedIds_iff {merged : Buckets Bytes Nat} {id : Nat} :
    usedIds merged id = true ↔ ∃ k, ∃ p ∈ merged.bag k, postingFile p = id := by
  simp only [usedIds, List.any_eq_true, beq_iff_eq, Prod.exists]
  constructor
  · rintro ⟨k, postings, hmem, p, hp, rfl⟩
    rw [Buckets.mem_entries] at hmem
    exact ⟨k, p, by rwa [← Buckets.coe_of_find hmem], rfl⟩
  · rintro ⟨k, p, hp, rfl⟩
    obtain ⟨postings, hfind, hmem⟩ := Buckets.find_of_mem_bag hp
    exact ⟨k, postings, Buckets.mem_entries.mpr hfind, p, hmem, rfl⟩

/-- A repacked list is told by the bag it was made from. -/
theorem repack_congr (sorter sorter' : Sorter (id : Nat → Nat)) (remap : Nat → Nat)
    {a b : List Nat} (h : (a : Multiset Nat) = b) :
    repack sorter remap a = repack sorter' remap b := by
  have hperm := (Multiset.coe_eq_coe.mp h).map fun p => pack (remap (postingFile p)) (postingLine p)
  exact List.Perm.eq_of_pairwise (fun x y _ _ hxy hyx => Nat.le_antisymm hxy hyx)
    (sorter.sorted _) (sorter'.sorted _)
    (((sorter.perm _).trans hperm).trans (sorter'.perm _).symm)

/-- Maps with the same bags are compacted to the same files, and the same is
found in them. -/
theorem compacted_congr (files : List NormFile) (sorter sorter' : Sorter (id : Nat → Nat))
    {a b : Buckets Bytes Nat} (ha : a.Filled) (hb : b.Filled) (h : a.bag = b.bag) :
    compactIds files (usedIds a) = compactIds files (usedIds b) ∧
    ∀ key, (a.mapLists (repack sorter (compactIds files (usedIds a)).remap)).find key =
      (b.mapLists (repack sorter' (compactIds files (usedIds b)).remap)).find key := by
  have hused : usedIds a = usedIds b := by
    funext id
    rw [Bool.eq_iff_iff, usedIds_iff, usedIds_iff, h]
  refine ⟨by rw [hused], ?_⟩
  intro key
  rw [hused, Buckets.find_mapLists, Buckets.find_mapLists]
  cases hfind : a.find key with
  | none =>
      have habsent : b.find key = none := by
        rw [Buckets.find_eq_none_iff hb, ← h, ← Buckets.find_eq_none_iff ha]
        exact hfind
      rw [habsent]
      rfl
  | some postings =>
      cases hfind' : b.find key with
      | none =>
          rw [Buckets.find_eq_none_iff hb, ← h, ← Buckets.find_eq_none_iff ha, hfind] at hfind'
          simp at hfind'
      | some postings' =>
          have hbags : (postings : Multiset Nat) = postings' := by
            rw [Buckets.coe_of_find hfind, Buckets.coe_of_find hfind', h]
          simp only [Option.map_some, repack_congr sorter sorter' _ hbags]

/-! ## The build -/

/-- Any number of workers has at least one way to hand out the files. -/
theorem exists_schedule (hardwareConcurrency : Nat) (opt : Options) (n : Nat) :
    Nonempty (Schedule (jobCount hardwareConcurrency opt n) n) := by
  cases n with
  | zero => exact ⟨⟨fun _ => [], by simp, by simp⟩⟩
  | succ n =>
      refine ⟨Schedule.first _ ?_⟩
      simp only [jobCount]
      -- at least one worker, and no more than files
      generalize (if opt.jobs ≠ 0 then opt.jobs else autoJobs hardwareConcurrency) = jobs
      split <;> split <;> omega

/-- There are no more workers than files. -/
theorem jobCount_le (hardwareConcurrency : Nat) (opt : Options) (n : Nat) :
    jobCount hardwareConcurrency opt n ≤ n := by
  simp only [jobCount]
  generalize (if opt.jobs ≠ 0 then opt.jobs else autoJobs hardwareConcurrency) = jobs
  generalize (if jobs < 1 then 1 else jobs) = jobs
  split <;> omega

/-- There is no more than one worker when one is asked for. -/
theorem jobCount_one_le (hardwareConcurrency : Nat) (opt : Options) (n : Nat) :
    jobCount hardwareConcurrency { opt with jobs := 1 } n ≤ 1 := by
  simp only [jobCount, ne_eq, one_ne_zero, not_false_eq_true, if_true, Nat.lt_irrefl, if_false]
  split <;> omega

/-- Workers that claimed the files have a posting for every key they have. -/
theorem filled_workerResults (minLen : Nat) (files : List NormFile) {jobs : Nat}
    (schedule : Schedule jobs files.length) :
    ∀ r ∈ workerResults minLen files schedule, r.lines.Filled := by
  intro r hr
  obtain ⟨j, _, rfl⟩ := List.mem_map.mp hr
  exact filled_normalizeWorker minLen files (schedule.claims j)

/-- The merge comes about exactly where the coprocesses can be shut down. -/
theorem mergeParallel_eq (files : List NormFile) (destruction : Destruction)
    (t : Traversal Bytes Nat) (sorter : Sorter (id : Nat → Nat)) (counters : Counters)
    (results : List WorkerResult) :
    mergeParallel files destruction t sorter counters results =
      if destruction.Reaps results.length then
        some (foldResults files t sorter counters results)
      else none := by
  have hclear := isSome_clear destruction results.length
  rw [mergeParallel]
  split
  next hreaps =>
    obtain ⟨_, hq⟩ := Option.isSome_iff_exists.mp (hclear.mpr hreaps)
    rw [hq, Option.map_some]
  next hnot =>
    rw [Option.not_isSome_iff_eq_none.mp (hnot ∘ hclear.mp), Option.map_none]

/-- Results with the same bags and counts are merged to the same files, with the same
postings under every key and the same counts. -/
theorem foldResults_congr (files : List NormFile) (t t' : Traversal Bytes Nat)
    (sorter sorter' : Sorter (id : Nat → Nat)) (counters : Counters)
    {results results' : List WorkerResult} (hfilled : ∀ r ∈ results, r.lines.Filled)
    (hfilled' : ∀ r ∈ results', r.lines.Filled)
    (hsum : (results.map workerTally).sum = (results'.map workerTally).sum) :
    let a := foldResults files t sorter counters results
    let b := foldResults files t' sorter' counters results'
    a.1.files = b.1.files ∧ (∀ key, a.1.lines.find key = b.1.lines.find key) ∧ a.2 = b.2 := by
  intro a b
  have hbags : (mergeResults t results).bag = (mergeResults t' results').bag := by
    rw [bag_mergeResults, bag_mergeResults, hsum]
  obtain ⟨hfiles, hfind⟩ := compacted_congr files sorter sorter' (filled_mergeResults t hfilled)
    (filled_mergeResults t' hfilled') hbags
  refine ⟨congrArg Compaction.files hfiles, hfind, ?_⟩
  show results.foldl (fun c r => c + r.counters) counters =
    results'.foldl (fun c r => c + r.counters) counters
  rw [counters_results, counters_results, hsum]

/-- A build with some files is the merge of what the workers have. -/
theorem processNormalizedParallel_eq (hardwareConcurrency : Nat) {files : List NormFile}
    (hfiles : files.length ≠ 0) (opt : Options)
    (schedule : Schedule (jobCount hardwareConcurrency opt files.length) files.length)
    (destruction : Destruction) (t : Traversal Bytes Nat) (sorter : Sorter (id : Nat → Nat))
    (idx : LineIndex) (counters : Counters) :
    processNormalizedParallel hardwareConcurrency files opt schedule destruction t sorter idx
        counters =
      if destruction.Reaps (jobCount hardwareConcurrency opt files.length) then
        some (jobCount hardwareConcurrency opt files.length,
          foldResults files t sorter counters (workerResults opt.minLen files schedule))
      else none := by
  have hlength : (workerResults opt.minLen files schedule).length =
      jobCount hardwareConcurrency opt files.length := by
    rw [workerResults, List.length_map, List.length_range]
  have hmerge := mergeParallel_eq files destruction t sorter counters
    (workerResults opt.minLen files schedule)
  rw [hlength] at hmerge
  rw [processNormalizedParallel, if_neg hfiles]
  refine (congrArg (Option.map _) hmerge).trans ?_
  split <;> rfl

/-- What a build has come to: without files what there was, and else the merge. -/
theorem processNormalizedParallel_cases {hardwareConcurrency : Nat} {files : List NormFile}
    {opt : Options}
    {schedule : Schedule (jobCount hardwareConcurrency opt files.length) files.length}
    {destruction : Destruction} {t : Traversal Bytes Nat} {sorter : Sorter (id : Nat → Nat)}
    {idx : LineIndex} {counters : Counters} {built : Nat × LineIndex × Counters}
    (h : processNormalizedParallel hardwareConcurrency files opt schedule destruction t sorter idx
      counters = some built) :
    (files = [] ∧ built = (0, idx, counters)) ∨
      built.2 = foldResults files t sorter counters (workerResults opt.minLen files schedule) := by
  by_cases hnone : files.length = 0
  · rw [processNormalizedParallel, if_pos hnone] at h
    exact .inl ⟨List.length_eq_zero_iff.mp hnone, (Option.some.inj h).symm⟩
  · rw [processNormalizedParallel_eq hardwareConcurrency hnone] at h
    split at h
    next =>
      obtain rfl := Option.some.inj h
      exact .inr rfl
    next => cases h

/-- A build comes to an end exactly if its workers can be shut down. -/
theorem isSome_processNormalizedParallel (hardwareConcurrency : Nat) (files : List NormFile)
    (opt : Options)
    (schedule : Schedule (jobCount hardwareConcurrency opt files.length) files.length)
    (destruction : Destruction) (t : Traversal Bytes Nat) (sorter : Sorter (id : Nat → Nat))
    (idx : LineIndex) (counters : Counters) :
    (processNormalizedParallel hardwareConcurrency files opt schedule destruction t sorter idx
      counters).isSome ↔ destruction.Reaps (jobCount hardwareConcurrency opt files.length) := by
  by_cases hnone : files.length = 0
  · -- no file: nothing is built, and nobody has been started
    rw [processNormalizedParallel, if_pos hnone]
    have hfew := jobCount_le hardwareConcurrency opt files.length
    exact ⟨fun _ => .inl (by omega), fun _ => rfl⟩
  · rw [processNormalizedParallel_eq hardwareConcurrency hnone]
    split <;> simp [*]

/-- Both builds come to an end, with the same files in the same order, the same keys,
the same postings under every key and the same counts. -/
def MatchesSerial (par ser : Option (Nat × LineIndex × Counters)) : Prop :=
  ∃ p s, par = some p ∧ ser = some s ∧ p.2.1.files = s.2.1.files ∧
    (p.2.1.lines.entries.map Prod.fst).Perm (s.2.1.lines.entries.map Prod.fst) ∧
    (∀ key, p.2.1.lines.find key = s.2.1.lines.find key) ∧ p.2.2 = s.2.2

/-- **The parallel build matches the serial one** exactly if there is no more than one
worker or the coprocesses are destroyed from the last to the first. In any other case
the serial build ends, and the parallel one waits forever. -/
theorem parallel_matches_serial_iff (hardwareConcurrency hardwareConcurrency' : Nat)
    (files : List NormFile) (opt : Options)
    (schedule : Schedule (jobCount hardwareConcurrency opt files.length) files.length)
    (serial : Schedule (jobCount hardwareConcurrency' { opt with jobs := 1 } files.length)
      files.length)
    (destruction : Destruction) (t t' : Traversal Bytes Nat)
    (sorter sorter' : Sorter (id : Nat → Nat)) (idx : LineIndex) (counters : Counters) :
    MatchesSerial
      (processNormalizedParallel hardwareConcurrency files opt schedule destruction t sorter idx
        counters)
      (processNormalizedParallel hardwareConcurrency' files { opt with jobs := 1 } serial
        destruction t' sorter' idx counters) ↔
    jobCount hardwareConcurrency opt files.length ≤ 1 ∨
      (destruction.order (jobCount hardwareConcurrency opt files.length)).Pairwise (· > ·) := by
  change _ ↔ destruction.Reaps _
  have hends := isSome_processNormalizedParallel hardwareConcurrency files opt schedule destruction
    t sorter idx counters
  constructor
  · rintro ⟨p, s, hpar, _⟩
    exact hends.mp (hpar ▸ rfl)
  · intro hreaps
    by_cases hnone : files.length = 0
    · exact ⟨(0, idx, counters), (0, idx, counters), if_pos hnone, if_pos hnone, rfl, .refl _,
        fun _ => rfl, rfl⟩
    · have hserial : destruction.Reaps
          (jobCount hardwareConcurrency' { opt with jobs := 1 } files.length) :=
        .inl (jobCount_one_le hardwareConcurrency' opt files.length)
      have hsum := (sum_workerResults opt.minLen files schedule).trans
        (sum_workerResults opt.minLen files serial).symm
      obtain ⟨hfiles, hfind, hcounters⟩ := foldResults_congr files t t' sorter sorter' counters
        (filled_workerResults opt.minLen files schedule)
        (filled_workerResults opt.minLen files serial) hsum
      rw [processNormalizedParallel_eq hardwareConcurrency hnone,
        processNormalizedParallel_eq hardwareConcurrency' hnone]
      exact ⟨_, _, if_pos hreaps, if_pos hserial, hfiles, (Buckets.perm_of_find_eq hfind).map _,
        hfind, hcounters⟩

/-- A file with a line, and one that cannot be read. -/
def twoFiles : List NormFile :=
  [⟨ascii "a.php", some [ascii "return f ( ) ;"]⟩, ⟨ascii "b.php", none⟩]

/-- With two workers, destroyed from the first to the last, no index is built of them;
with one, one is. -/
theorem parallel_build_waits :
    let build := fun (opt : Options) schedule =>
      processNormalizedParallel 4 twoFiles opt schedule .forward .plain (.stable id) ⟨[], .empty⟩ 0
    build { jobs := 2 } (Schedule.first 2 (by decide)) = none ∧
      (build { jobs := 1 } (Schedule.first 2 (by decide))).isSome ∧
      ¬ MatchesSerial (build { jobs := 2 } (Schedule.first 2 (by decide)))
        (build { jobs := 1 } (Schedule.first 2 (by decide))) := by
  intro build
  have hnone : build { jobs := 2 } (Schedule.first 2 (by decide)) = none := by
    decide +kernel
  refine ⟨hnone, by decide +kernel, ?_⟩
  rintro ⟨p, s, hpar, _⟩
  rw [hnone] at hpar
  cases hpar

end Phpatcher.Theorems
