import Phpatcher.Basis.Buckets
import Phpatcher.Basis.Sorted
import Phpatcher.Tools.Corpus
import Phpatcher.Tools.PoolShutdown

/-!
# The corpus indexer

`indexer.cpp`: the scan of a source tree line by line, and the normalized scan
spread over workers. Both fill a map from line keys to postings, which pack a
file id and a line number into 64 bits.

The directory walk is outside: it yields the files with an indexed extension,
in some order, each with its content where it can be read. The workers of the
normalized scan draw file numbers from a shared cursor; a `Schedule` is one way
the numbers can fall to them. Before their results are merged their coprocesses are
shut down, which may not come to an end.
-/

namespace Phpatcher.Tools

open Phpatcher.Basis Phpatcher.Core

/-- The options that decide what an index holds. -/
structure Options where
  minLen : Nat := 6
  maxPostings : Nat := 64
  normalize : Bool := false
  jobs : Nat := 0
  deriving DecidableEq, Repr

/-- A number cast to 32 bits. -/
def toU32 (n : Nat) : Nat := n % 4294967296

/-- `pack`: the file id in the high 32 bits, the line number in the low ones. -/
def pack (fileId lineno : Nat) : Nat := toU32 fileId <<< 32 ||| toU32 lineno

/-- `posting_file`. -/
def postingFile (p : Nat) : Nat := toU32 (p >>> 32)

/-- `posting_line`. -/
def postingLine (p : Nat) : Nat := toU32 (p &&& 0xffffffff)

/-- A posting as a reader of the index sees it. -/
def unpack (p : Nat) : Posting := ⟨postingFile p, postingLine p⟩

theorem pack_eq (fileId lineno : Nat) :
    pack fileId lineno = toU32 fileId * 4294967296 + toU32 lineno := by
  have hlt : toU32 lineno < 2 ^ 32 := Nat.mod_lt _ (by decide)
  rw [pack, ← Nat.shiftLeft_add_eq_or_of_lt hlt, Nat.shiftLeft_eq]

@[simp] theorem postingFile_pack (fileId lineno : Nat) :
    postingFile (pack fileId lineno) = toU32 fileId := by
  rw [postingFile, pack_eq, Nat.shiftRight_eq_div_pow]
  simp only [toU32]
  omega

@[simp] theorem postingLine_pack (fileId lineno : Nat) :
    postingLine (pack fileId lineno) = toU32 lineno := by
  have hmask : (0xffffffff : Nat) = 2 ^ 32 - 1 := rfl
  rw [postingLine, pack_eq, hmask, Nat.and_two_pow_sub_one_eq_mod]
  simp only [toU32]
  omega

/-- Packed numbers that fit are unpacked again. -/
theorem unpack_pack {fileId lineno : Nat} (hfile : fileId < 4294967296)
    (hline : lineno < 4294967296) : unpack (pack fileId lineno) = ⟨fileId, lineno⟩ := by
  rw [unpack, postingFile_pack, postingLine_pack, toU32, toU32, Nat.mod_eq_of_lt hfile,
    Nat.mod_eq_of_lt hline]

/-- `Index` of the indexer. -/
@[ext] structure LineIndex where
  files : List Bytes
  lines : Buckets Bytes Nat

/-- The counters of physical lines. -/
@[ext] structure Counters where
  total : Nat := 0
  nonempty : Nat := 0
  indexed : Nat := 0
  deriving DecidableEq, Repr

instance : Add Counters where
  add a b := ⟨a.total + b.total, a.nonempty + b.nonempty, a.indexed + b.indexed⟩

instance : Zero Counters where
  zero := ⟨0, 0, 0⟩

instance : AddCommMonoid Counters where
  add_assoc a b c := Counters.ext (Nat.add_assoc _ _ _) (Nat.add_assoc _ _ _) (Nat.add_assoc _ _ _)
  zero_add a := Counters.ext (Nat.zero_add _) (Nat.zero_add _) (Nat.zero_add _)
  add_zero a := Counters.ext (Nat.add_zero _) (Nat.add_zero _) (Nat.add_zero _)
  add_comm a b := Counters.ext (Nat.add_comm _ _) (Nat.add_comm _ _) (Nat.add_comm _ _)
  nsmul := nsmulRec

/-! ## The scan line by line -/

/-- A file of the walk: its path relative to the root, and its content if it
can be read. -/
structure Scanned where
  rel : Bytes
  content : Option Bytes
  deriving DecidableEq, Repr

/-- The state of the scan inside a file; a file id is assigned with the first
posting. -/
structure Scan where
  idx : LineIndex
  counters : Counters
  fileId : Option Nat
  lineno : Nat

/-- `ensure_id`. -/
def Scan.ensureId (rel : Bytes) (s : Scan) : Nat × Scan :=
  match s.fileId with
  | some id => (id, s)
  | none =>
      let id := toU32 s.idx.files.length
      (id, { s with idx.files := s.idx.files ++ [rel], fileId := some id })

/-- The turn of the loop in which a line ends. -/
def Scan.line (opt : Options) (rel : Bytes) (s : Scan) (raw : Bytes) : Scan :=
  let s := { s with lineno := toU32 (s.lineno + 1), counters.total := s.counters.total + 1 }
  let norm := trim raw
  if norm = [] then s
  else
    let s := { s with counters.nonempty := s.counters.nonempty + 1 }
    if norm.length < opt.minLen then s
    else
      let (id, s) := s.ensureId rel
      { s with
        idx.lines := s.idx.lines.push norm (pack id s.lineno)
        counters.indexed := s.counters.indexed + 1 }

/-- The loop over the bytes of a file; `raw` is the line read so far. -/
def Scan.bytes (opt : Options) (rel : Bytes) : Scan → Bytes → Bytes → Scan
  | s, raw, [] => if raw = [] then s else s.line opt rel raw
  | s, raw, c :: rest =>
      if c = newline then Scan.bytes opt rel (s.line opt rel raw) [] rest
      else Scan.bytes opt rel s (raw ++ [c]) rest

/-- The loop over the bytes is a loop over the lines. -/
theorem scan_bytes (opt : Options) (rel : Bytes) (s : Scan) (raw content : Bytes) :
    s.bytes opt rel raw content = (splitWith id raw content).foldl (Scan.line opt rel) s := by
  induction content generalizing s raw with
  | nil =>
      rw [Scan.bytes, splitWith]
      split <;> rfl
  | cons c content ih =>
      rw [Scan.bytes, splitWith]
      split
      · rw [ih, List.foldl_cons, id]
      · exact ih _ _

/-- The scan of a file, if it can be read. -/
def scanFile (opt : Options) (st : LineIndex × Counters) (file : Scanned) : LineIndex × Counters :=
  match file.content with
  | none => st
  | some content =>
      let s := Scan.bytes opt file.rel ⟨st.1, st.2, none, 0⟩ [] content
      (s.idx, s.counters)

/-- The scan of a tree. -/
def scanTree (opt : Options) (tree : List Scanned) : LineIndex × Counters :=
  tree.foldl (scanFile opt) (⟨[], .empty⟩, 0)

/-- The filter of `write_index`: a key with too many postings is left out. -/
def kept (opt : Options) (postings : List Nat) : Bool :=
  !(opt.maxPostings ≠ 0 && postings.length > opt.maxPostings)

/-- What a reader of the index finds under a key. -/
def LineIndex.published (idx : LineIndex) (opt : Options) (key : Bytes) : Option (List Posting) :=
  ((idx.lines.find key).filter (kept opt)).map (List.map unpack)

/-! ## The normalized scan -/

/-- `NormFile`: a file with its path relative to the root and the keys the
normalizer gives its lines, if it can be read. -/
structure NormFile where
  rel : Bytes
  keys : Option (List Bytes)
  deriving DecidableEq, Repr

/-- `WorkerResult`. -/
structure WorkerResult where
  lines : Buckets Bytes Nat := .empty
  counters : Counters := 0

/-- The callback for line `li` of the file `fid`. -/
def WorkerResult.onLine (minLen fid : Nat) (out : WorkerResult) (line : Bytes × Nat) :
    WorkerResult :=
  let (key, li) := line
  let out := { out with counters.total := out.counters.total + 1 }
  if key = [] then out
  else
    let out := { out with counters.nonempty := out.counters.nonempty + 1 }
    if (trim key).length < minLen then out
    else
      { lines := out.lines.push key (pack fid (toU32 (li + 1)))
        counters.total := out.counters.total
        counters.nonempty := out.counters.nonempty
        counters.indexed := out.counters.indexed + 1 }

/-- The turn of a worker for the file number `i`. -/
def WorkerResult.onFile (minLen : Nat) (files : List NormFile) (out : WorkerResult) (i : Nat) :
    WorkerResult :=
  match (files.getD i ⟨[], none⟩).keys with
  | none => out
  | some keys => keys.zipIdx.foldl (WorkerResult.onLine minLen (toU32 i)) out

/-- `normalize_worker`: the files whose numbers it claims, in turn. -/
def normalizeWorker (minLen : Nat) (files : List NormFile) (claims : List Nat) : WorkerResult :=
  claims.foldl (WorkerResult.onFile minLen files) {}

/-- One way the shared cursor hands out `n` file numbers: each falls to one
worker, and what a worker claims goes up. -/
structure Schedule (jobs n : Nat) where
  claims : Nat → List Nat
  once : ((List.range jobs).flatMap claims).Perm (List.range n)
  increasing : ∀ j, j < jobs → (claims j).Pairwise (· < ·)

/-- The way in which the first worker is so fast that it claims every file. -/
def Schedule.first {jobs : Nat} (n : Nat) (h : 0 < jobs) : Schedule jobs n where
  claims j := if j = 0 then List.range n else []
  once := by
    obtain ⟨jobs, rfl⟩ := Nat.exists_eq_succ_of_ne_zero h.ne'
    have hrest : (List.range jobs).flatMap (fun _ => ([] : List Nat)) = [] := by
      rw [List.flatMap_eq_nil_iff]
      intro _ _
      rfl
    simp [List.range_succ_eq_map, List.flatMap_map, hrest]
  increasing j _ := by
    split
    · exact List.pairwise_lt_range
    · exact List.Pairwise.nil

/-- `auto_jobs`; the number of cores is 0 when it cannot be told. -/
def autoJobs (hardwareConcurrency : Nat) : Nat :=
  if hardwareConcurrency ≠ 0 then hardwareConcurrency else 1

/-- The number of workers. -/
def jobCount (hardwareConcurrency : Nat) (opt : Options) (nfiles : Nat) : Nat :=
  let jobs := if opt.jobs ≠ 0 then opt.jobs else autoJobs hardwareConcurrency
  let jobs := if jobs < 1 then 1 else jobs
  if jobs > nfiles then nfiles else jobs

/-- Fold the map of a worker into the merged one: an empty one is replaced. -/
def mergeLines (t : Traversal Bytes Nat) (merged lines : Buckets Bytes Nat) : Buckets Bytes Nat :=
  if merged.entries.isEmpty then lines else merged.absorb t lines

/-- The file ids that some posting names. -/
def usedIds (merged : Buckets Bytes Nat) (id : Nat) : Bool :=
  merged.entries.any fun e => e.2.any fun p => postingFile p == id

/-- The new ids of the files that are used, and their paths in scan order. -/
structure Compaction where
  remap : Nat → Nat := fun _ => 0
  files : List Bytes := []

/-- The loop over the file numbers that compacts them. -/
def compactIds (files : List NormFile) (used : Nat → Bool) : Compaction :=
  (List.range files.length).foldl
    (fun c id =>
      if used id then
        { remap := Function.update c.remap id (toU32 c.files.length)
          files := c.files ++ [(files.getD id ⟨[], none⟩).rel] }
      else c)
    {}

/-- Rename the files of a posting list and sort it. -/
def repack (sorter : Sorter (id : Nat → Nat)) (remap : Nat → Nat) (postings : List Nat) :
    List Nat :=
  sorter.run (postings.map fun p => pack (remap (postingFile p)) (postingLine p))

/-- The merge: the sums of the counters, one map, file ids without gaps, and sorted
lists. -/
def foldResults (files : List NormFile) (t : Traversal Bytes Nat)
    (sorter : Sorter (id : Nat → Nat)) (counters : Counters) (results : List WorkerResult) :
    LineIndex × Counters :=
  let counters := results.foldl (fun c r => c + r.counters) counters
  let merged := results.foldl (fun merged r => mergeLines t merged r.lines) .empty
  let compaction := compactIds files (usedIds merged)
  (⟨compaction.files, merged.mapLists (repack sorter compaction.remap)⟩, counters)

/-- What is done with the results behind the `join`s: `nz.clear()`, and then the merge. -/
def mergeParallel (files : List NormFile) (destruction : Destruction) (t : Traversal Bytes Nat)
    (sorter : Sorter (id : Nat → Nat)) (counters : Counters) (results : List WorkerResult) :
    Option (LineIndex × Counters) :=
  ((startAll results.length).clear (destruction.order results.length)).map fun _ =>
    foldResults files t sorter counters results

/-- `process_normalized_parallel`: the number of workers, the index and the counters;
nothing when it waits for a coprocess forever. -/
def processNormalizedParallel (hardwareConcurrency : Nat) (files : List NormFile) (opt : Options)
    (schedule : Schedule (jobCount hardwareConcurrency opt files.length) files.length)
    (destruction : Destruction) (t : Traversal Bytes Nat) (sorter : Sorter (id : Nat → Nat))
    (idx : LineIndex) (counters : Counters) : Option (Nat × LineIndex × Counters) :=
  if files.length = 0 then some (0, idx, counters)
  else
    let jobs := jobCount hardwareConcurrency opt files.length
    let results := (List.range jobs).map fun j =>
      normalizeWorker opt.minLen files (schedule.claims j)
    (mergeParallel files destruction t sorter counters results).map fun built => (jobs, built)

end Phpatcher.Tools
