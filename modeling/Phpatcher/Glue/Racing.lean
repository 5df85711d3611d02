import Phpatcher.Basis.Frozen
import Phpatcher.Glue.Startup

/-!
# Reading while files change

A request, and the warm-up at startup, read one file after the other, and others may
write to these files in between. Here every turn that can read a file sees a disk of
its own; `disks n` is the one of the turn number `n`. What has been read is kept, the
references in the cache and the originals in a list that only records them.
-/

namespace Phpatcher.Glue

open Phpatcher.Basis Phpatcher.Core

/-- What has been read, and the number of the next turn. -/
structure Reading where
  cache : RefCache := []
  originals : List (Bytes × Option Bytes) := []
  clock : Nat := 0

variable (baseDir : Bytes) (disks : Nat → Disk)

/-- The resolver, which may read the file of the reference. -/
def racingResolver : RefResolver Reading := fun ref =>
  Fallible.mk fun s =>
    let (out, cache) := (phpatcherMakeResolver baseDir (disks s.clock) ref).outcome s.cache
    (out, { s with cache := cache, clock := s.clock + 1 })

/-- The original of a section; a created one is not read. -/
def racingOriginal (path : Bytes) (fp : FilePatch) (s : Reading) : Original × Reading :=
  if fp.creates then (.text [], s)
  else
    (readOriginal (disks s.clock) path fp,
      { s with originals := (path, disks s.clock path) :: s.originals, clock := s.clock + 1 })

/-- The original is read, and the section applied to it. -/
def racingProduce (path : Bytes) (fp : FilePatch) (s : Reading) : Patched × Reading :=
  match racingOriginal disks path fp s with
  | (.unreadable, s) => (.fail, s)
  | (.halt, s) => (.skip, s)
  | (.text original, s) =>
      match (applyEdScript fp original (some (racingResolver baseDir disks))).outcome s with
      | (.error _, s) => (.fail, s)
      | (.ok content, s) => (.ok content, s)

/-- An entry of the index, in the warm-up. -/
def racingPrecomputeStep (acc : ContentMap × Reading) (kv : Entry) : ContentMap × Reading :=
  match racingProduce baseDir disks kv.1 kv.2 acc.2 with
  | (.ok patched, s) => (acc.1.insert kv.1 patched, s)
  | (.fail, s) | (.skip, s) => (acc.1, s)

/-- The warm-up, with one cache for all sections. -/
def racingPrecompute (set : PatchSet) : ContentMap × Reading :=
  set.index.foldl (racingPrecomputeStep baseDir disks) (∅, {})

end Phpatcher.Glue
