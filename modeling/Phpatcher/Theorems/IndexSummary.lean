import Phpatcher.Theorems.IndexContents

/-!
# The summary of the indexer adds up

Whatever tree is walked through, with either kind of index, if a summary comes of it:
the counts of files and directories are those of the walk, each line is counted as it
is, every line that is counted as indexed has its posting, and each posting and each key
is either written or counted as left out for its frequency.
-/

namespace Phpatcher.Theorems

open Phpatcher.Basis Phpatcher.Core Phpatcher.Tools

variable {opt : ScanOptions} {keysOf : Bytes → List Bytes}

/-! ## The walk -/

/-- The entry is a regular file. -/
def isRegular (e : List Bytes × (Bytes ⊕ DirEntry)) : Bool :=
  match e.2 with
  | .inr (.file _ _ _) => true
  | .inl _ | .inr (.linkedDirectory _) | .inr (.other _) => false

/-- The entry is a directory that is left out for its name. -/
def isExcluded (opt : ScanOptions) (e : List Bytes × (Bytes ⊕ DirEntry)) : Bool :=
  match e.2 with
  | .inl name | .inr (.linkedDirectory name) => opt.excludes.contains name
  | .inr (.file _ _ _) | .inr (.other _) => false

/-- Entries are counted one by one. -/
theorem counts_entry (s : Indexing) (e : List Bytes × (Bytes ⊕ DirEntry)) :
    let s' := s.entry opt keysOf e.1 e.2
    s'.scannedFiles = s.scannedFiles + (if isRegular e then 1 else 0) ∧
      s'.excludedDirs = s.excludedDirs + (if isExcluded opt e then 1 else 0) ∧
      s'.matchedFiles = s.matchedFiles + (entrySource opt e).toList.length := by
  obtain ⟨dir, name | (name | ⟨name, link, content⟩ | name)⟩ := e
  · by_cases h : name ∈ opt.excludes <;>
      simp [Indexing.entry, Indexing.directory, isRegular, isExcluded, entrySource, h]
  · by_cases h : name ∈ opt.excludes <;>
      simp [Indexing.entry, Indexing.directory, isRegular, isExcluded, entrySource,
        ScanOptions.matched, h]
  · by_cases h : extOf name ∈ opt.exts <;> cases hmode : opt.normalize <;>
      simp [Indexing.entry, Indexing.file, isRegular, isExcluded, entrySource,
        ScanOptions.matched, h, hmode]
  · simp [Indexing.entry, isRegular, isExcluded, entrySource, ScanOptions.matched]

theorem counts_foldl (es : List (List Bytes × (Bytes ⊕ DirEntry))) (s : Indexing) :
    let s' := es.foldl (fun s e => s.entry opt keysOf e.1 e.2) s
    s'.scannedFiles = s.scannedFiles + es.countP isRegular ∧
      s'.excludedDirs = s.excludedDirs + es.countP (isExcluded opt) ∧
      s'.matchedFiles = s.matchedFiles + (es.filterMap (entrySource opt)).length := by
  induction es generalizing s with
  | nil => simp
  | cons e es ih =>
      intro s'
      obtain ⟨hscanned, hexcluded, hmatched⟩ := ih (s.entry opt keysOf e.1 e.2)
      obtain ⟨hscanned', hexcluded', hmatched'⟩ := @counts_entry opt keysOf s e
      refine ⟨?_, ?_, ?_⟩
      · rw [List.countP_cons]
        exact hscanned.trans (by rw [hscanned']; omega)
      · rw [List.countP_cons]
        exact hexcluded.trans (by rw [hexcluded']; omega)
      · refine hmatched.trans ?_
        rw [hmatched', List.filterMap_cons]
        cases entrySource opt e with
        | none => simp
        | some f =>
            simp only [Option.toList_some, List.length_cons, List.length_nil]
            omega

/-! ## Lines and postings -/

/-- What a line counts for. -/
def lineCounters (opt : Options) (key : Bytes) : Counters where
  total := 1
  nonempty := if key = [] then 0 else 1
  indexed := if LongEnough opt key then 1 else 0

/-- What it counts for, and the postings it makes. -/
def lineTotals (opt : Options) (key : Bytes) : Counters × Nat :=
  (lineCounters opt key, (lineCounters opt key).indexed)

theorem sum_lineTotals (opt : Options) (keys : List Bytes) :
    (keys.map (lineTotals opt)).sum =
      ((keys.map (lineCounters opt)).sum, ((keys.map (lineCounters opt)).sum).indexed) := by
  induction keys with
  | nil => rfl
  | cons key keys ih =>
      rw [List.map_cons, List.sum_cons, ih, List.map_cons, List.sum_cons]
      rfl

/-- What has been counted, and the postings there are. -/
def totals (st : LineIndex × Counters) : Counters × Nat := (st.2, st.1.lines.size)

theorem totals_line (opt : Options) (rel : Bytes) (s : Scan) (raw : Bytes) :
    totals ((s.line opt rel raw).idx, (s.line opt rel raw).counters) =
      totals (s.idx, s.counters) + lineTotals opt (trim raw) := by
  rw [Scan.line]
  simp only [lineTotals, lineCounters, LongEnough, trim_trim]
  split
  next hempty =>
    simp only [hempty, ne_eq, not_true_eq_false, false_and, if_false]
    rfl
  next hne =>
    split
    next hshort =>
      rw [if_neg fun h => by have := h.2; omega]
      rfl
    next hlong =>
      rw [if_pos ⟨hne, by omega⟩, Scan.ensureId]
      cases s.fileId <;> exact Prod.ext rfl (Buckets.size_append _ _ _)

theorem totals_scanFile (hmode : opt.normalize = false) (st : LineIndex × Counters)
    (f : Scanned) : totals (scanFile opt.toOptions st f) =
      totals st + ((sourceKeys opt keysOf f).map (lineTotals opt.toOptions)).sum := by
  rw [scanFile, sourceKeys, hmode]
  cases f.content with
  | none => exact (add_zero _).symm
  | some content =>
      have hlines := measure_foldl (fun s : Scan => totals (s.idx, s.counters)) _
        (totals_line opt.toOptions f.rel) ⟨st.1, st.2, none, 0⟩ (splitWith id [] content)
      simp only [scan_bytes]
      refine hlines.trans ?_
      have hkeys : (splitWith id [] content).map trim = fileKeys content :=
        map_trim_splitWith [] content
      simp only [Option.map_some, Option.getD_some, Bool.false_eq_true, if_false, ← hkeys,
        List.map_map, Function.comp_def]

/-- What the lines of all files add is what each file adds. -/
theorem sum_allKeys {M : Type} [AddMonoid M] (g : Bytes → M) (files : List Scanned) :
    (files.map fun f => ((sourceKeys opt keysOf f).map g).sum).sum =
      ((allKeys opt keysOf files).map g).sum := by
  induction files with
  | nil => rfl
  | cons f files ih =>
      rw [List.map_cons, List.sum_cons, ih, allKeys, allKeys, List.flatMap_cons, List.map_append,
        List.sum_append]

theorem totals_scanTree (hmode : opt.normalize = false) (files : List Scanned) :
    totals (scanTree opt.toOptions files) =
      ((allKeys opt keysOf files).map (lineTotals opt.toOptions)).sum := by
  have hfiles := measure_foldl totals _ (@totals_scanFile opt keysOf hmode) (⟨[], .empty⟩, 0) files
  have hstart : totals ((⟨[], .empty⟩, 0) : LineIndex × Counters) = 0 := rfl
  rw [hstart, zero_add, sum_allKeys] at hfiles
  exact hfiles

/-! ## The workers -/

/-- A worker has a posting for each line it counts as indexed. -/
theorem size_normalizeWorker (minLen : Nat) (files : List NormFile) (claims : List Nat) :
    (normalizeWorker minLen files claims).lines.size =
      (normalizeWorker minLen files claims).counters.indexed := by
  refine List.foldlRecOn (motive := fun out : WorkerResult =>
    out.lines.size = out.counters.indexed) claims _ rfl ?_
  intro out hout i _
  rw [WorkerResult.onFile]
  cases (files.getD i ⟨[], none⟩).keys with
  | none => exact hout
  | some keys =>
      refine List.foldlRecOn (motive := fun out : WorkerResult =>
        out.lines.size = out.counters.indexed) _ _ hout ?_
      rintro out hout ⟨key, li⟩ _
      rw [WorkerResult.onLine]
      simp only
      split
      · exact hout
      · split
        · exact hout
        · rw [Buckets.push, Buckets.size_append, hout]
          rfl

theorem size_mergeLines (t : Traversal Bytes Nat) (merged lines : Buckets Bytes Nat) :
    (mergeLines t merged lines).size = merged.size + lines.size := by
  rw [mergeLines]
  split
  next hempty =>
    have hzero : merged.size = 0 := by
      rw [Buckets.size, List.isEmpty_iff.mp hempty]
      rfl
    rw [hzero, zero_add]
  next => exact Buckets.size_absorb t merged lines

/-- What the files count for is what their lines do. -/
theorem sum_fileTally (hmode : opt.normalize = true) (files : List Scanned) :
    (((List.range (files.map (normFile keysOf)).length).map
      (fileTally opt.minLen (files.map (normFile keysOf)))).sum).2 =
      ((allKeys opt keysOf files).map (lineCounters opt.toOptions)).sum := by
  have hline : ∀ fid li key, (lineTally opt.minLen fid (key, li)).2 =
      lineCounters opt.toOptions key := by
    intro fid li key
    rw [lineTally, lineCounters]
    simp only [LongEnough]
    by_cases hempty : key = []
    · simp [hempty]
    · by_cases hshort : (trim key).length < opt.minLen
      · have hnot : ¬ opt.minLen ≤ (trim key).length := by omega
        simp [hempty, hshort, hnot]
      · have hlong : opt.minLen ≤ (trim key).length := by omega
        simp [hempty, hshort, hlong]
  have hsnd : ∀ tallies : List Tally, tallies.sum.2 = (tallies.map Prod.snd).sum := by
    intro tallies
    induction tallies with
    | nil => rfl
    | cons t tallies ih => rw [List.sum_cons, Prod.snd_add, ih, List.map_cons, List.sum_cons]
  rw [hsnd, List.map_map, ← sum_allKeys, List.length_map, ← List.map_coe_finRange_eq_range,
    List.map_map]
  conv_rhs => rw [← List.map_getElem_finRange files, List.map_map]
  refine congrArg List.sum (List.map_congr_left fun i _ => ?_)
  simp only [Function.comp_apply, fileTally, getD_normFile i.isLt, normFile, sourceKeys, hmode]
  cases files[i.1].content with
  | none => rfl
  | some content =>
      simp only [Option.map_some, Option.getD_some, if_true, hsnd, List.map_map]
      have hkeys : ∀ n, ((keysOf content).zipIdx n).map
          (Prod.snd ∘ lineTally opt.minLen (toU32 i)) =
            (keysOf content).map (lineCounters opt.toOptions) := by
        intro n
        rw [← List.zipIdx_map_fst n (keysOf content), List.map_map, List.zipIdx_map_fst]
        exact List.map_congr_left fun e _ => hline _ _ _
      rw [hkeys]

/-- So has the merged map, together with the sum of the counts. -/
theorem size_mergeResults (t : Traversal Bytes Nat) {results : List WorkerResult}
    (h : ∀ r ∈ results, r.lines.size = r.counters.indexed) :
    (mergeResults t results).size =
      (results.foldl (fun c r => c + r.counters) (0 : Counters)).indexed := by
  have hfold : ∀ (m : Buckets Bytes Nat) (c : Counters), m.size = c.indexed →
      (results.foldl (fun merged r => mergeLines t merged r.lines) m).size =
        (results.foldl (fun c r => c + r.counters) c).indexed := by
    induction results with
    | nil => exact fun _ _ hm => hm
    | cons r results ih =>
        intro m c hm
        rw [List.forall_mem_cons] at h
        refine ih h.2 _ _ ?_
        rw [size_mergeLines, hm, h.1]
        rfl
  exact hfold .empty 0 rfl

/-- Together the workers count every line, and the merged map has a posting for each
line that is indexed. -/
theorem totals_parallel (hmode : opt.normalize = true) {files : List Scanned}
    {hardwareConcurrency : Nat}
    {schedule : Schedule
      (jobCount hardwareConcurrency opt.toOptions (files.map (normFile keysOf)).length)
      (files.map (normFile keysOf)).length}
    {destruction : Destruction} {t : Traversal Bytes Nat} {sorter : Sorter (id : Nat → Nat)}
    {built : Nat × LineIndex × Counters}
    (hbuilt : processNormalizedParallel hardwareConcurrency (files.map (normFile keysOf))
      opt.toOptions schedule destruction t sorter ⟨[], .empty⟩ 0 = some built) :
    totals built.2 = ((allKeys opt keysOf files).map (lineTotals opt.toOptions)).sum := by
  rcases processNormalizedParallel_cases hbuilt with ⟨hnil, rfl⟩ | hmerged
  · obtain rfl : files = [] := List.map_eq_nil_iff.mp hnil
    rfl
  · rw [hmerged, sum_lineTotals, ← sum_fileTally hmode,
      ← sum_workerResults opt.minLen (files.map (normFile keysOf)) schedule]
    have hcounters := counters_results 0
      (workerResults opt.minLen (files.map (normFile keysOf)) schedule)
    rw [zero_add] at hcounters
    have hsize := @size_mergeResults t
      (workerResults opt.minLen (files.map (normFile keysOf)) schedule) (by
        intro r hr
        obtain ⟨j, _, rfl⟩ := List.mem_map.mp hr
        exact size_normalizeWorker _ _ _)
    rw [← hcounters]
    refine Prod.ext rfl ((Buckets.size_mapLists _ fun ps => ?_).trans hsize)
    rw [repack, (sorter.perm _).length_eq, List.length_map]

/-! ## What is written and what is left out -/

/-- Each entry is written or counted as left out. -/
theorem foldl_key_countCapped (order : ByteOrder) (opt : Options)
    (entries : List (Bytes × List Nat)) (w : Written) (c : Nat × Nat) :
    let w' := entries.foldl (Written.key order opt) w
    let c' := entries.foldl (countCapped opt) c
    w'.keysWritten + c'.1 = w.keysWritten + c.1 + entries.length ∧
      w'.postingsWritten + c'.2 =
        w.postingsWritten + c.2 + (entries.map fun kv => kv.2.length).sum := by
  induction entries generalizing w c with
  | nil => exact ⟨rfl, rfl⟩
  | cons kv entries ih =>
      intro w' c'
      obtain ⟨hkeys, hpostings⟩ := ih (w.key order opt kv) (countCapped opt c kv)
      have hentry : (w.key order opt kv).keysWritten + (countCapped opt c kv).1 =
            w.keysWritten + c.1 + 1 ∧
          (w.key order opt kv).postingsWritten + (countCapped opt c kv).2 =
            w.postingsWritten + c.2 + kv.2.length := by
        rw [Written.key, countCapped]
        cases kept opt kv.2 with
        | true =>
            simp only [Bool.not_true, Bool.false_eq_true, if_false, if_true]
            omega
        | false =>
            simp only [Bool.not_false, Bool.false_eq_true, if_false, if_true]
            omega
      refine ⟨hkeys.trans ?_, hpostings.trans ?_⟩
      · rw [hentry.1, List.length_cons]
        omega
      · rw [hentry.2, List.map_cons, List.sum_cons]
        omega

/-- The index that is built counts what the lines count for. -/
theorem totals_buildIndex (env : Machinery opt.toOptions) {files : List Scanned} {s : Indexing}
    (hs : workOf s = files.foldl (addSource opt keysOf) ((⟨[], .empty⟩, 0), []))
    {built : Nat × LineIndex × Counters} (hbuilt : buildIndex env s = some built) :
    totals built.2 = ((allKeys opt keysOf files).map (lineTotals opt.toOptions)).sum := by
  obtain ⟨idx, normFiles, _, _, _, counters⟩ := s
  cases hmode : opt.normalize with
  | false =>
      rw [foldl_addSource_scan hmode] at hs
      rw [buildIndex, hmode] at hbuilt
      obtain rfl := Option.some.inj hbuilt
      rw [← totals_scanTree hmode]
      exact congrArg (totals ·.1) hs
  | true =>
      rw [foldl_addSource_aside hmode] at hs
      obtain rfl : idx = ⟨[], .empty⟩ := congrArg (·.1.1) hs
      obtain rfl : counters = 0 := congrArg (·.1.2) hs
      obtain rfl : normFiles = files.map (normFile keysOf) := congrArg (·.2) hs
      rw [buildIndex, if_pos hmode] at hbuilt
      exact totals_parallel hmode hbuilt

/-- The counts of the files and directories of the tree, and of its lines, and that what
is written and what is left out are all of it. -/
structure AddsUp (opt : ScanOptions) (keysOf : Bytes → List Bytes) (root : Directory)
    (s : Summary) : Prop where
  scanned : s.scannedFiles = (root.visits opt.descends []).entries.countP isRegular
  excluded : s.excludedDirs = (root.visits opt.descends []).entries.countP (isExcluded opt)
  matched : s.matchedFiles = (opt.sources root).length
  counters : s.counters =
    ((allKeys opt keysOf (opt.sources root)).map (lineCounters opt.toOptions)).sum
  postings : s.written.postingsWritten + s.cappedPostings = s.counters.indexed
  keys : s.written.keysWritten + s.cappedKeys = s.distinctKeys

/-- The summary of an index that is built adds up. -/
theorem addsUp_summarize (env : Machinery opt.toOptions) (root : Directory)
    {built : Nat × LineIndex × Counters}
    (hbuilt : buildIndex env ((root.visits opt.descends []).run (Indexing.entry opt keysOf) {}).1 =
      some built) :
    AddsUp opt keysOf root
      (summarize env ((root.visits opt.descends []).run (Indexing.entry opt keysOf) {}).1
        built) := by
  obtain ⟨hscanned, hexcluded, hmatched⟩ :=
    @counts_foldl opt keysOf (root.visits opt.descends []).entries {}
  have htotals := totals_buildIndex env (@workOf_scanDirectory opt keysOf root) hbuilt
  rw [sum_lineTotals] at htotals
  have hwritten := fun buf => foldl_key_countCapped env.order opt.toOptions
    (env.traversal.run built.2.1.lines) { buf := buf } (0, 0)
  have hperm := env.traversal.perm built.2.1.lines
  constructor
  · exact hscanned.trans (zero_add _)
  · exact hexcluded.trans (zero_add _)
  · rw [sources_eq]
    exact hmatched.trans (zero_add _)
  · exact congrArg Prod.fst htotals
  · refine (hwritten _).2.trans ?_
    rw [(hperm.map _).sum_eq, Nat.zero_add, Nat.zero_add]
    exact (congrArg Prod.snd htotals).trans
      (congrArg Counters.indexed (congrArg Prod.fst htotals)).symm
  · refine (hwritten _).1.trans ?_
    rw [hperm.length_eq, Nat.zero_add, Nat.zero_add]
    rfl

/-- **The summary adds up.** Of every tree: there is a summary exactly if the walk ends
without an error and, for a normalized index, the workers can be shut down; and each
summary adds up. An error in the walk is all that is said of it. -/
theorem summary_adds_up (keysOf : Bytes → List Bytes) (env : Machinery opt.toOptions)
    (root : Directory) :
    let walk := root.visits opt.descends []
    ((∃ s, indexerMain keysOf env root = some (.ok s)) ↔
        walk.error = false ∧ env.EndsFor (opt.sources root)) ∧
      (walk.error = true → indexerMain keysOf env root =
        some (.error (ascii "directory scan failed: " ++ env.errorMessage))) ∧
      ∀ s, indexerMain keysOf env root = some (.ok s) → AddsUp opt keysOf root s := by
  intro walk
  have hbuilds := isSome_buildIndex env (@workOf_scanDirectory opt keysOf root)
  rw [indexerMain_eq]
  split
  next herror =>
    have hwalk : walk.error = true := herror
    refine ⟨⟨fun ⟨s, hs⟩ => ?_, fun h => ?_⟩, fun _ => rfl, fun s hs => ?_⟩
    · cases Option.some.inj hs
    · rw [hwalk] at h
      cases h.1
    · cases Option.some.inj hs
  next hclean =>
    have hwalk : walk.error = false := Bool.not_eq_true _ ▸ hclean
    refine ⟨⟨fun ⟨s, hs⟩ => ⟨hwalk, ?_⟩, fun h => ?_⟩, fun h => absurd h hclean,
      fun s hs => ?_⟩
    · obtain ⟨built, hbuilt, _⟩ := Option.map_eq_some_iff.mp hs
      exact hbuilds.mp (hbuilt ▸ rfl)
    · obtain ⟨built, hbuilt⟩ := Option.isSome_iff_exists.mp (hbuilds.mpr h.2)
      exact ⟨_, by rw [hbuilt, Option.map_some]⟩
    · obtain ⟨built, hbuilt, heq⟩ := Option.map_eq_some_iff.mp hs
      obtain rfl := Except.ok.inj heq
      exact addsUp_summarize env root hbuilt

end Phpatcher.Theorems
