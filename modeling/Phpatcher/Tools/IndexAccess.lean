import Phpatcher.Basis.Cursor
import Phpatcher.Tools.CorpusAccess
import Phpatcher.Tools.IndexFile

/-!
# Accesses to a loaded index

`Index::load` with the position it moves through the bytes, and the lookups
made while a block is factorized and emitted, with the exception `files_.at`
throws: `none` stands for `std::out_of_range`, which nothing catches.

The loader stands in `changes.cpp` and in `matcher.cpp`, with one text.
-/

namespace Phpatcher.Tools

open Phpatcher.Basis Phpatcher.Core

/-! ## Loading -/

section

variable (order : ByteOrder) (blob : Bytes)

def cursorU16 : Cursor Bytes Nat := Cursor.number blob truncated order 2

def cursorU32 : Cursor Bytes Nat := Cursor.number blob truncated order 4

def cursorFile (files : List Bytes) : Cursor Bytes (List Bytes) := do
  let len ← cursorU16 order blob
  let path ← Cursor.bytes blob truncated len
  pure (files ++ [path])

def cursorPosting (postings : List Posting) : Cursor Bytes (List Posting) := do
  let fileId ← cursorU32 order blob
  let lineno ← cursorU32 order blob
  pure (postings ++ [⟨fileId, lineno⟩])

def cursorKey (lines : Buckets Bytes Posting) : Cursor Bytes (Buckets Bytes Posting) := do
  let klen ← cursorU32 order blob
  let key ← Cursor.bytes blob truncated klen
  let n ← cursorU32 order blob
  let postings ← Cursor.iterate (cursorPosting order blob) n []
  pure (lines.emplace key postings)

def cursorBody (flagNormalized version : Nat) : Cursor Bytes LoadedIndex := do
  let flags ← if version ≥ 2 then cursorU32 order blob else pure 0
  let _ ← cursorU32 order blob
  let _ ← cursorU32 order blob
  let fileCount ← cursorU32 order blob
  let files ← Cursor.iterate (cursorFile order blob) fileCount []
  let keyCount ← cursorU32 order blob
  let lines ← Cursor.iterate (cursorKey order blob) keyCount .empty
  pure ⟨files, lines, decide (flags &&& flagNormalized ≠ 0)⟩

def cursorBlob (magic : Bytes) (flagNormalized : Nat) : Cursor Bytes LoadedIndex := do
  let head ← Cursor.bytes blob truncated 4
  if head ≠ magic then throw (.error (ascii "not a phpatcher index (bad magic)"))
  else
    let version ← cursorU32 order blob
    if version ≠ 1 ∧ version ≠ 2 then
      throw (.error (ascii "unsupported index version: " ++ decimal version))
    else cursorBody order blob flagNormalized version

/-- The bytes of a file through `Index::load` of `changes.cpp`. -/
def changesLoadBytes : Except (Stop Bytes) LoadedIndex :=
  ((cursorBlob order blob kIndexMagic kFlagNormalized).outcome 0).1

/-- The same through that of `matcher.cpp`. -/
def matcherLoadBytes : Except (Stop Bytes) LoadedIndex :=
  ((cursorBlob order blob kMagic kFlagNormalized).outcome 0).1

end

section

variable {order : ByteOrder} {blob : Bytes}

open Cursor

theorem follows_u32 : Follows blob (cursorU32 order blob) (readU32 order) :=
  follows_number truncated order 4

theorem follows_file (files : List Bytes) :
    Follows blob (cursorFile order blob files) (loadFile order files) :=
  (follows_number truncated order 2).bind fun len =>
    (follows_bytes truncated len).bind fun path => Follows.pure (files ++ [path])

theorem follows_posting (postings : List Posting) :
    Follows blob (cursorPosting order blob postings) (loadPosting order postings) :=
  follows_u32.bind fun fileId => follows_u32.bind fun lineno =>
    Follows.pure (postings ++ [⟨fileId, lineno⟩])

theorem follows_key (lines : Buckets Bytes Posting) :
    Follows blob (cursorKey order blob lines) (loadKey order lines) :=
  follows_u32.bind fun klen => (follows_bytes truncated klen).bind fun key =>
    follows_u32.bind fun n => (follows_iterate follows_posting n []).bind fun postings =>
      Follows.pure (lines.emplace key postings)

theorem follows_body (flagNormalized version : Nat) :
    Follows blob (cursorBody order blob flagNormalized version)
      (loadBody order flagNormalized version) := by
  unfold cursorBody loadBody
  refine Follows.ite (follows_u32.bind fun flags => ?_) ((Follows.pure 0).bind fun flags => ?_)
  all_goals
    refine follows_u32.bind fun _ => follows_u32.bind fun _ => follows_u32.bind fun fileCount => ?_
    refine (follows_iterate follows_file fileCount []).bind fun files => ?_
    refine follows_u32.bind fun keyCount => ?_
    exact (follows_iterate follows_key keyCount .empty).bind fun lines => Follows.pure _

/-- The loader does what the reader of the file format does. -/
theorem follows_blob (magic : Bytes) (flagNormalized : Nat) :
    Follows blob (cursorBlob order blob magic flagNormalized)
      (loadBlob order magic flagNormalized) := by
  refine (follows_bytes truncated 4).bind fun head => ?_
  refine Follows.ite (Follows.throw _) (follows_u32.bind fun version => ?_)
  exact Follows.ite (Follows.throw _) (follows_body flagNormalized version)

/-- Every read stays inside the bytes. -/
theorem changesLoadBytes_eq (order : ByteOrder) (blob : Bytes) : changesLoadBytes order blob =
    ((loadBlob order kIndexMagic kFlagNormalized).outcome blob).1.mapError .error :=
  (follows_blob kIndexMagic kFlagNormalized).outcome

end

/-! ## Lookups -/

/-- `Index::file`. -/
def LoadedIndex.file (idx : LoadedIndex) (id : Nat) : Option Bytes := idx.files[id]?

section

variable (corpus : Corpus) (idx : LoadedIndex)

/-- `Corpus::get`: the content of a file, if it can be read. -/
def fetch (fileId : Nat) : Option (Option Bytes) :=
  (idx.file fileId).map fun file => corpus.readFile (corpus.root ++ [slash] ++ file)

/-- `Corpus::line`. -/
def fetchLine (fileId lineno : Nat) : Option (Option Bytes) :=
  (fetch corpus idx fileId).map fun loaded => loaded.bind fun content =>
    if lineno = 0 then none else (corpusSplitLines content)[lineno - 1]?

/-- `Corpus::key`. -/
def fetchKey (fileId lineno : Nat) : Option (Option Bytes) :=
  (fetch corpus idx fileId).map fun loaded => loaded.bind fun content =>
    if lineno = 0 then none else (corpus.normalizer.run content)[lineno - 1]?

/-- What the program asks an index that was loaded. The lines are those of the file: of
what they read, nothing that is thrown depends (`isSome_emitAddedCorpus`). -/
def loadedAccess : CorpusAccess where
  normalized := idx.normalized
  normalizer := corpus.normalizer
  find := idx.find
  file := idx.file
  line := fetchLine corpus idx
  same fileId lineno text := (fetchLine corpus idx fileId lineno).map fun line => line == some text
  key := fetchKey corpus idx

end

/-- `emit_added_corpus`, with an index that was loaded. -/
def emitAddedCorpusChecked (corpus : Corpus) (idx : LoadedIndex) (hash : Bool)
    (block : List Bytes) (anchorSorter : Sorter Anchor.weight)
    (runSorter : Sorter Run.blockBegin) (minRun : Nat) : Option (List Emitted) :=
  emitAddedCorpus (loadedAccess corpus idx) hash block anchorSorter runSorter minRun

end Phpatcher.Tools
