import Phpatcher.Tools.Directive
import Phpatcher.Tools.MatcherCore

/-!
# The index and the corpus

What `emit_added_corpus` of `changes.cpp` is about: the postings of an index, and
the lines and keys of the files of a tree. As the tree does not change while a
bundle is written, reading a file is a function here. These are the lines that the
files have; the program looks at them through views, which may have lost them.

What is printed is a list of `Emitted` lines, so that a reference can be told
from a literal line that looks like one.
-/

namespace Phpatcher.Tools

open Phpatcher.Basis Phpatcher.Core

/-- `Index`, loaded from a file that an indexer wrote: file ids are in range
and file paths relative. Its postings may be out of date. -/
structure Index where
  files : List Bytes
  lines : List (Bytes × List Posting)
  normalized : Bool
  validIds : ∀ e ∈ lines, ∀ p ∈ e.2, p.fileId < files.length
  relative : ∀ f ∈ files, f.head? ≠ some slash

/-- `Index::find`. -/
def Index.find (idx : Index) (key : Bytes) : Option (List Posting) := idx.lines.lookup key

/-- `Index::file`. -/
def Index.file (idx : Index) (id : Nat) : Bytes := idx.files.getD id []

/-- `split_lines` of `changes.cpp`: a CR in front of a newline is removed, too. -/
def corpusSplitLines (content : Bytes) : List Bytes :=
  splitWith (dropLastByte carriageReturn) [] content

theorem newline_not_mem_corpusSplitLines (content : Bytes) :
    ∀ line ∈ corpusSplitLines content, newline ∉ line :=
  newline_not_mem_splitWith (fun _ hs hmem => hs (mem_of_mem_dropLastByte hmem)) (by simp)

/-- A normalizer gives one key for each line of a text. -/
structure Normalizer where
  run : Bytes → List Bytes
  length_run : ∀ content, (run content).length = (corpusSplitLines content).length

/-- `Corpus`: the tree under a root, and the normalizer. A file is read into a
`std::string` and its lines are counted with 32 bits. -/
structure Corpus where
  root : Bytes
  readFile : Bytes → Option Bytes
  normalizer : Normalizer
  size_lt : ∀ path content, readFile path = some content → content.length < int64Max
  lines_lt : ∀ path content, readFile path = some content →
    (corpusSplitLines content).length < 4294967295

/-- The corpus that holds one file, under an empty root. -/
def Corpus.single (path content : Bytes) (normalizer : Normalizer)
    (hsize : content.length < int64Max)
    (hlines : (corpusSplitLines content).length < 4294967295) : Corpus where
  root := []
  readFile p := if p = path then some content else none
  normalizer := normalizer
  size_lt p c h := by
    split at h
    · rwa [← Option.some.inj h]
    · simp at h
  lines_lt p c h := by
    split at h
    · rwa [← Option.some.inj h]
    · simp at h

/-- The path of a corpus file. -/
def Corpus.path (corpus : Corpus) (idx : Index) (fileId : Nat) : Bytes :=
  corpus.root ++ [slash] ++ idx.file fileId

/-- The line that `Corpus::line` hands out a view of; `none` is `nullptr`. -/
def Corpus.line (corpus : Corpus) (idx : Index) (fileId lineno : Nat) : Option Bytes :=
  match corpus.readFile (corpus.path idx fileId) with
  | none => none
  | some content => if lineno = 0 then none else (corpusSplitLines content)[lineno - 1]?

/-- The key that `Corpus::key` hands out a view of. -/
def Corpus.key (corpus : Corpus) (idx : Index) (fileId lineno : Nat) : Option Bytes :=
  match corpus.readFile (corpus.path idx fileId) with
  | none => none
  | some content => if lineno = 0 then none else (corpus.normalizer.run content)[lineno - 1]?

/-- `normalize_block_keys`: code without an open tag is normalized behind one. -/
def normalizeBlockKeys (normalizer : Normalizer) (content : Bytes) : List Bytes :=
  if content.take 2 = ascii "<?" then normalizer.run content
  else (normalizer.run (ascii "<?php\n" ++ content)).drop 1

/-- The whitespace in front of and behind the text of a line. -/
def lead (line : Bytes) : Bytes := line.takeWhile isWs

def trail (line : Bytes) : Bytes := line.drop ((lead line).length + (trim line).length)

/-- `trim_pad_for`. -/
def trimPadFor (src dst : Bytes) : Option (Bytes × Bytes) :=
  if trim src = [] ∨ trim dst = [] then none else some (lead dst, trail dst)

/-- A line that is printed. -/
inductive Emitted where
  | literal (line : Bytes)
  | ref (line : Bytes)
  deriving DecidableEq, Repr

/-- The text of a printed line. -/
def Emitted.text : Emitted → Bytes
  | .literal line | .ref line => line

section

variable (corpus : Corpus) (idx : Index) (block : List Bytes)

/-- The corpus line is the block line byte for byte. -/
def sameLine (fileId b c : Nat) : Bool := corpus.line idx fileId c == some (block.getD b [])

/-- The keys of a block. -/
def blockKeys : List Bytes :=
  if idx.normalized then normalizeBlockKeys corpus.normalizer (unlines block) else block.map trim

/-- The notion of equality of an index. -/
def lineEqual : EqualFn := fun b fileId c =>
  if idx.normalized then corpus.key idx fileId c == some ((blockKeys corpus idx block).getD b [])
  else sameLine corpus idx block fileId b c

end

end Phpatcher.Tools
