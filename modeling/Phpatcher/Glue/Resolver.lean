import Phpatcher.Core.Apply

/-!
# The resolver of corpus references

`phpatcher_make_resolver` of `phpatcher.cpp`, with its cache of the files read
so far. The cache remembers failures too. What a reference resolves to depends
on the disk alone (`resolveRef`): the resolver computes it from every cache
that agrees with the disk, and leaves such a cache (`makeResolver_outcome`).
-/

namespace Phpatcher.Glue

open Phpatcher.Basis Phpatcher.Core

/-- What `read_file` finds under a path. -/
abbrev Disk := Bytes → Option Bytes

/-- `phpatcher_split_lines`: a single CR in front of a newline is removed, too. -/
def phpatcherSplitLines (content : Bytes) : List Bytes :=
  splitWith (dropLastByte carriageReturn) [] content

/-- `RefCache`: the lines of the files read so far; `none` for a file that
could not be read. -/
abbrev RefCache := List (Bytes × Option (List Bytes))

/-- The file a reference names. -/
def refFile (baseDir : Bytes) (ref : EdRef) : Bytes :=
  if ref.path ≠ [] ∧ ref.path.head? = some slash then ref.path
  else baseDir ++ [slash] ++ ref.path

/-- The range check and the guards of a reference to a file with these lines. -/
def checkRef (ref : EdRef) (lines : List Bytes) : Except Bytes (List Bytes) :=
  if ref.begin < 1 ∨ ref.end_ < ref.begin ∨ ref.end_ > lines.length then
    .error (ascii "referenced range " ++ decimal ref.begin ++ ascii "," ++ decimal ref.end_ ++
      ascii " out of range in '" ++ ref.path ++ ascii "'")
  else
    let out := (lines.drop (ref.begin - 1)).take (ref.end_ - ref.begin + 1)
    let total := (out.map fun l => l.length + 1).sum
    if ref.bytes.any (total != ·) then
      .error (ascii "referenced content in '" ++ ref.path ++
        ascii "' has changed (length mismatch)")
    else if ref.hash.any (refHash (unlines out) != ·) then
      .error (ascii "referenced content in '" ++ ref.path ++ ascii "' has changed (hash mismatch)")
    else .ok out

/-- The cache entry of a file, read from the disk on the first use. -/
def RefCache.load (disk : Disk) (cache : RefCache) (full : Bytes) :
    Option (List Bytes) × RefCache :=
  match cache.lookup full with
  | some entry => (entry, cache)
  | none =>
      let entry := (disk full).map phpatcherSplitLines
      (entry, (full, entry) :: cache)

/-- The message for a file that cannot be read. -/
def unreadableRef (full : Bytes) : Bytes :=
  ascii "cannot read referenced file '" ++ full ++ ascii "'"

/-- `phpatcher_make_resolver`. -/
def phpatcherMakeResolver (baseDir : Bytes) (disk : Disk) : RefResolver RefCache := fun ref =>
  Fallible.mk fun cache =>
    let full := refFile baseDir ref
    match cache.load disk full with
    | (none, cache) => (.error (unreadableRef full), cache)
    | (some lines, cache) => (checkRef ref lines, cache)

/-! ## What a reference resolves to -/

/-- The resolver without its cache. -/
def resolveRef (baseDir : Bytes) (disk : Disk) (ref : EdRef) : Except Bytes (List Bytes) :=
  match disk (refFile baseDir ref) with
  | none => .error (unreadableRef (refFile baseDir ref))
  | some content => checkRef ref (phpatcherSplitLines content)

/-- Every entry of the cache is what the disk has. -/
def RefCache.Agrees (disk : Disk) (cache : RefCache) : Prop :=
  ∀ full entry, cache.lookup full = some entry → entry = (disk full).map phpatcherSplitLines

theorem RefCache.agrees_nil (disk : Disk) : RefCache.Agrees disk [] := by
  intro full entry h
  simp at h

/-- The cache gives what the disk has, and goes on agreeing with it. -/
theorem RefCache.Agrees.load {disk : Disk} {cache : RefCache} (h : cache.Agrees disk)
    (full : Bytes) :
    (cache.load disk full).1 = (disk full).map phpatcherSplitLines ∧
      (cache.load disk full).2.Agrees disk := by
  unfold RefCache.load
  cases hlookup : cache.lookup full with
  | some entry => exact ⟨h full entry hlookup, h⟩
  | none =>
      -- the new entry is what was read now; the others are as they were
      refine ⟨rfl, ?_⟩
      intro path entry hentry
      rw [List.lookup_cons] at hentry
      split at hentry
      · have hpath : path = full := by simpa using ‹(path == full) = true›
        rw [hpath, ← Option.some.inj hentry]
      · exact h path entry hentry

/-- With a cache that agrees with the disk the resolver gives what the disk
says. -/
theorem makeResolver_outcome (baseDir : Bytes) {disk : Disk} {cache : RefCache}
    (h : cache.Agrees disk) (ref : EdRef) :
    ((phpatcherMakeResolver baseDir disk ref).outcome cache).1 = resolveRef baseDir disk ref ∧
      ((phpatcherMakeResolver baseDir disk ref).outcome cache).2.Agrees disk := by
  obtain ⟨hentry, hcache⟩ := h.load (refFile baseDir ref)
  rw [phpatcherMakeResolver, Fallible.outcome_mk, resolveRef]
  simp only
  rcases hload : cache.load disk (refFile baseDir ref) with ⟨entry, cache'⟩
  rw [hload] at hentry hcache
  simp only at hentry hcache
  cases hdisk : disk (refFile baseDir ref) with
  | none =>
      rw [hentry, hdisk]
      exact ⟨rfl, hcache⟩
  | some content =>
      rw [hentry, hdisk]
      exact ⟨rfl, hcache⟩

end Phpatcher.Glue
