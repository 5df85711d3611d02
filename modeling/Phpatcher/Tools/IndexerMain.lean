import Phpatcher.Basis.Listing
import Phpatcher.Tools.IndexFile

/-!
# From a directory to an index file

`main` of `indexer.cpp`, behind its options: the walk through the source tree, which
leaves out excluded directories and files with another extension, and scans the
files or, for a normalized index, collects them; the index that comes of it, the
numbers of the summary, and the index file.

Names are as the file system has them. A link to a directory is not followed; a link
to a file is read, and named by the place it leads to.
-/

namespace Phpatcher.Tools

open Phpatcher.Basis Phpatcher.Core

/-! ## Extensions -/

/-- `to_lower`. -/
def toLower (s : Bytes) : Bytes := s.map fun c => if 65 ≤ c ∧ c ≤ 90 then c - 65 + 97 else c

/-- `fs::path::extension` of a file name: from its last dot on, unless it starts with
that. -/
def extension (filename : Bytes) : Bytes :=
  let behind := filename.rtakeWhile (· != dot)
  if filename = [dot] ∨ filename = [dot, dot] then []
  else if filename.length ≤ behind.length + 1 then []
  else dot :: behind

/-- `ext_of`. -/
def extOf (filename : Bytes) : Bytes :=
  let e := extension filename
  toLower (if e.head? = some dot then e.tail else e)

/-! ## The walk -/

/-- The options of the walk. -/
structure ScanOptions extends Options where
  exts : List Bytes := [ascii "php", ascii "inc"]
  excludes : List Bytes := []

/-- An entry of a directory that is not descended into: a link to a directory, a
regular file or a link to one, which leads to a path relative to the root, with its
content if it can be read, or something else. -/
inductive DirEntry where
  | linkedDirectory (name : Bytes)
  | file (name : Bytes) (link : Option Bytes) (content : Option Bytes)
  | other (name : Bytes)

/-- A directory: names of directories lead to their own entries. -/
abbrev Directory := Listing Bytes DirEntry

/-- The state of `main` during the walk. -/
structure Indexing where
  idx : LineIndex := ⟨[], .empty⟩
  normFiles : List NormFile := []
  scannedFiles : Nat := 0
  matchedFiles : Nat := 0
  excludedDirs : Nat := 0
  counters : Counters := 0

/-- `fs::relative` of an entry: its names from the root on, or where it leads. -/
def relative (dir : List Bytes) (name : Bytes) (link : Option Bytes) : Bytes :=
  link.getD ([slash].intercalate (dir ++ [name]))

variable (opt : ScanOptions) (keysOf : Bytes → List Bytes)

/-- A directory is descended into unless its name is excluded. -/
def ScanOptions.descends (name : Bytes) : Bool := !opt.excludes.contains name

/-- A directory, followed or not. -/
def Indexing.directory (name : Bytes) (s : Indexing) : Indexing :=
  if opt.excludes.contains name then { s with excludedDirs := s.excludedDirs + 1 } else s

/-- A regular file. For a normalized index it is set aside for the workers, to whom
the normalizer answers the keys of its lines. -/
def Indexing.file (dir : List Bytes) (name : Bytes) (link content : Option Bytes)
    (s : Indexing) : Indexing :=
  let s := { s with scannedFiles := s.scannedFiles + 1 }
  if !opt.exts.contains (extOf name) then s
  else
    let s := { s with matchedFiles := s.matchedFiles + 1 }
    let rel := relative dir name link
    if opt.normalize then
      { s with normFiles := s.normFiles ++ [⟨rel, content.map keysOf⟩] }
    else
      let (idx, counters) := scanFile opt.toOptions (s.idx, s.counters) ⟨rel, content⟩
      { s with idx := idx, counters := counters }

/-- The body of the loop over the tree. -/
def Indexing.entry (dir : List Bytes) (e : Bytes ⊕ DirEntry) (s : Indexing) : Indexing :=
  match e with
  | .inl name | .inr (.linkedDirectory name) => s.directory opt name
  | .inr (.file name link content) => s.file opt keysOf dir name link content
  | .inr (.other _) => s

/-- The walk from the root, and whether it ended with an error. -/
def scanDirectory (root : Directory) : Option (Indexing × Bool) :=
  Iterator.loop opt.descends (Indexing.entry opt keysOf) root.size (Iterator.start root) {}

/-! ## The index and its summary -/

/-- The numbers of the summary, and the file. -/
structure Summary where
  scannedFiles : Nat
  matchedFiles : Nat
  excludedDirs : Nat
  counters : Counters
  distinctKeys : Nat
  cappedKeys : Nat
  cappedPostings : Nat
  normJobs : Nat
  written : Written

/-- What the machine decides: its byte order, its processors, which worker gets which
file, in which order a vector is destroyed and maps are walked through, and the text of
an error. -/
structure Machinery (opt : Options) where
  order : ByteOrder
  hardwareConcurrency : Nat
  schedule : ∀ n, Schedule (jobCount hardwareConcurrency opt n) n
  destruction : Destruction
  traversal : Traversal Bytes Nat
  sorter : Sorter (id : Nat → Nat)
  errorMessage : Bytes

variable {opt} in
/-- The index behind the walk, which the workers build if it is a normalized one. -/
def buildIndex (env : Machinery opt.toOptions) (s : Indexing) :
    Option (Nat × LineIndex × Counters) :=
  if opt.normalize then
    processNormalizedParallel env.hardwareConcurrency s.normFiles opt.toOptions
      (env.schedule s.normFiles.length) env.destruction env.traversal env.sorter s.idx s.counters
  else some (0, s.idx, s.counters)

/-- The turn of the loop that counts what the cap leaves out. -/
def countCapped (opt : Options) (counts : Nat × Nat) (kv : Bytes × List Nat) : Nat × Nat :=
  if kept opt kv.2 then counts else (counts.1 + 1, counts.2 + kv.2.length)

variable {opt} in
/-- What `main` does with the index. -/
def summarize (env : Machinery opt.toOptions) (s : Indexing)
    (built : Nat × LineIndex × Counters) : Summary :=
  let (normJobs, idx, counters) := built
  let capped := (env.traversal.run idx.lines).foldl (countCapped opt.toOptions) (0, 0)
  { scannedFiles := s.scannedFiles
    matchedFiles := s.matchedFiles
    excludedDirs := s.excludedDirs
    counters := counters
    distinctKeys := idx.lines.entries.length
    cappedKeys := capped.1
    cappedPostings := capped.2
    normJobs := normJobs
    written := writeIndex env.order env.traversal idx opt.toOptions }

variable {opt} in
/-- `main`, with an output file: a walk that ends with an error writes nothing, and
there is no result at all when the workers cannot be shut down. -/
def indexerMain (env : Machinery opt.toOptions) (root : Directory) :
    Option (Except Bytes Summary) := do
  let (s, ec) ← scanDirectory opt keysOf root
  if ec then some (.error (ascii "directory scan failed: " ++ env.errorMessage))
  else
    let built ← buildIndex env s
    some (.ok (summarize env s built))

/-! ## What the walk does -/

/-- The files with an extension that is asked for, as the walk meets them. -/
def ScanOptions.matched (leaf : List Bytes × DirEntry) : Option Scanned :=
  match leaf.2 with
  | .file name link content =>
      if opt.exts.contains (extOf name) then some ⟨relative leaf.1 name link, content⟩ else none
  | .linkedDirectory _ | .other _ => none

/-- The files of a tree that are indexed. -/
def ScanOptions.sources (root : Directory) : List Scanned :=
  (root.visits opt.descends []).leaves.filterMap opt.matched

variable {opt} in
/-- The workers of a normalized index can be shut down. -/
def Machinery.EndsFor (env : Machinery opt.toOptions) (files : List Scanned) : Prop :=
  opt.normalize = true →
    env.destruction.Reaps (jobCount env.hardwareConcurrency opt.toOptions files.length)

/-- The walk always ends. -/
theorem scanDirectory_eq (root : Directory) :
    scanDirectory opt keysOf root =
      some ((root.visits opt.descends []).run (Indexing.entry opt keysOf) {}) := by
  rw [scanDirectory, Iterator.loop_start]

/-- What `main` does behind the walk. -/
theorem indexerMain_eq (env : Machinery opt.toOptions) (root : Directory) :
    indexerMain keysOf env root =
      if (root.visits opt.descends []).error then
        some (.error (ascii "directory scan failed: " ++ env.errorMessage))
      else
        (buildIndex env ((root.visits opt.descends []).run (Indexing.entry opt keysOf) {}).1).map
          fun built => .ok (summarize env
            ((root.visits opt.descends []).run (Indexing.entry opt keysOf) {}).1 built) := by
  rw [indexerMain, scanDirectory_eq, Visits.run]
  simp only [Option.bind_eq_bind, Option.bind_some]
  split
  · rfl
  · cases buildIndex env _ <;> rfl

end Phpatcher.Tools
