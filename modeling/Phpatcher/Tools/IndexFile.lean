import Phpatcher.Basis.Codec
import Phpatcher.Basis.Decimal
import Phpatcher.Tools.Indexer

/-!
# The index file

`write_index` of `indexer.cpp`, and the two readers of its file, `Index::load`
of `changes.cpp` and of `matcher.cpp`. The readers are written twice in the
source, with the same text; here each is the same definition at its own
constants.

Numbers stand in the byte order of the machine.
-/

namespace Phpatcher.Tools

open Phpatcher.Basis Phpatcher.Core

/-- The first bytes of an index file, in `indexer.cpp` and `matcher.cpp`. -/
def kMagic : Bytes := ascii "PHIX"

/-- The same in `changes.cpp`. -/
def kIndexMagic : Bytes := ascii "PHIX"

def kVersion : Nat := 2

/-- The flag of an index whose keys are normalized. -/
def kFlagNormalized : Nat := 1 <<< 0

/-! ## Writing -/

/-- What is written, and the number of keys and of postings in it. -/
structure Written where
  buf : Bytes
  keysWritten : Nat := 0
  postingsWritten : Nat := 0

/-- The record of a path. -/
def pathRecord (order : ByteOrder) (path : Bytes) : Bytes := order.put 2 path.length ++ path

/-- The record of a posting. -/
def postingRecord (order : ByteOrder) (p : Nat) : Bytes :=
  order.put 4 (postingFile p) ++ order.put 4 (postingLine p)

/-- The record of a key. -/
def keyRecord (order : ByteOrder) (kv : Bytes × List Nat) : Bytes :=
  order.put 4 kv.1.length ++ kv.1 ++ order.put 4 kv.2.length ++ kv.2.flatMap (postingRecord order)

/-- The turn of the loop for a key. -/
def Written.key (order : ByteOrder) (opt : Options) (w : Written) (kv : Bytes × List Nat) :
    Written :=
  if !kept opt kv.2 then w
  else
    { buf := w.buf ++ keyRecord order kv
      keysWritten := w.keysWritten + 1
      postingsWritten := w.postingsWritten + kv.2.length }

/-- `write_index`: the slot of the number of keys is filled at the end. -/
def writeIndex (order : ByteOrder) (t : Traversal Bytes Nat) (idx : LineIndex) (opt : Options) :
    Written :=
  let buf := kMagic
  let buf := buf ++ order.put 4 kVersion
  let buf := buf ++ order.put 4 (if opt.normalize then kFlagNormalized else 0)
  let buf := buf ++ order.put 4 opt.minLen
  let buf := buf ++ order.put 4 opt.maxPostings
  let buf := buf ++ order.put 4 idx.files.length
  let buf := idx.files.foldl (fun buf p => buf ++ pathRecord order p) buf
  let countPos := buf.length
  let buf := buf ++ order.put 4 0
  let w := (t.run idx.lines).foldl (Written.key order opt) { buf := buf }
  { w with buf := overwrite countPos (order.put 4 w.keysWritten) w.buf }

/-! ## Loading -/

/-- An index as it is loaded. -/
structure LoadedIndex where
  files : List Bytes
  lines : Buckets Bytes Posting
  normalized : Bool

/-- `Index::find`. -/
def LoadedIndex.find (idx : LoadedIndex) (key : Bytes) : Option (List Posting) := idx.lines.find key

/-- The error of a file that ends too early. -/
def truncated : Bytes := ascii "index file is truncated or corrupt"

section

variable (order : ByteOrder)

/-- `u16`. -/
def readU16 : Reader Bytes Nat := Reader.number truncated order 2

/-- `u32`. -/
def readU32 : Reader Bytes Nat := Reader.number truncated order 4

/-- The turn of the loop over the files. -/
def loadFile (files : List Bytes) : Reader Bytes (List Bytes) := do
  let len ← readU16 order
  let path ← Reader.bytes truncated len
  pure (files ++ [path])

/-- The turn of the loop over the postings of a key. -/
def loadPosting (postings : List Posting) : Reader Bytes (List Posting) := do
  let fileId ← readU32 order
  let lineno ← readU32 order
  pure (postings ++ [⟨fileId, lineno⟩])

/-- The turn of the loop over the keys. -/
def loadKey (lines : Buckets Bytes Posting) : Reader Bytes (Buckets Bytes Posting) := do
  let klen ← readU32 order
  let key ← Reader.bytes truncated klen
  let n ← readU32 order
  let postings ← Reader.iterate (loadPosting order) n []
  pure (lines.emplace key postings)

/-- What follows the version. -/
def loadBody (flagNormalized version : Nat) : Reader Bytes LoadedIndex := do
  let flags ← if version ≥ 2 then readU32 order else pure 0
  let _ ← readU32 order
  let _ ← readU32 order
  let fileCount ← readU32 order
  let files ← Reader.iterate (loadFile order) fileCount []
  let keyCount ← readU32 order
  let lines ← Reader.iterate (loadKey order) keyCount .empty
  pure ⟨files, lines, decide (flags &&& flagNormalized ≠ 0)⟩

/-- The content of an index file. -/
def loadBlob (magic : Bytes) (flagNormalized : Nat) : Reader Bytes LoadedIndex := do
  let head ← Reader.bytes truncated 4
  if head ≠ magic then throw (ascii "not a phpatcher index (bad magic)")
  else
    let version ← readU32 order
    if version ≠ 1 ∧ version ≠ 2 then throw (ascii "unsupported index version: " ++ decimal version)
    else loadBody order flagNormalized version

/-- Read a file and load its content. -/
def loadFrom (blob : Reader Bytes LoadedIndex) (readFile : Bytes → Option Bytes) (path : Bytes) :
    Except Bytes LoadedIndex :=
  match readFile path with
  | none => .error (ascii "cannot read index: " ++ path)
  | some content => (blob.outcome content).1

/-- `Index::load` of `changes.cpp`. -/
def changesLoad : (Bytes → Option Bytes) → Bytes → Except Bytes LoadedIndex :=
  loadFrom (loadBlob order kIndexMagic kFlagNormalized)

/-- `Index::load` of `matcher.cpp`. -/
def matcherLoad : (Bytes → Option Bytes) → Bytes → Except Bytes LoadedIndex :=
  loadFrom (loadBlob order kMagic kFlagNormalized)

end

end Phpatcher.Tools
