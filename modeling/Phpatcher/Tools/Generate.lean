import Phpatcher.Tools.Corpus
import Phpatcher.Tools.Diff

/-!
# The generator's output

What `main` of `changes.cpp` prints: two comment lines, then one section for
each added or modified text file. Deleted, renamed and binary files are not
encodable and are left out before.
-/

namespace Phpatcher.Tools

open Phpatcher.Basis Phpatcher.Core

/-- The revisions named in the second comment line. -/
structure Revisions where
  base : Bytes
  target : Bytes := []
  base_oneLine : newline ∉ base
  target_oneLine : newline ∉ target

/-- The comment lines in front of the sections. -/
def Revisions.comments (revs : Revisions) : List Bytes :=
  [ascii "# phpatcher-ed v1",
    ascii "# Generated by tools/phpatcher-changes from changes vs " ++ revs.base ++
      (if revs.target = [] then [] else ascii " to " ++ revs.target) ++ ascii "."]

/-- `emit_newfile`; `emitAdded` is how the lines are written. The path is written as it is. -/
def emitNewfile (emitAdded : List Bytes → Bytes) (path : Bytes) (lines : List Bytes) : Bytes :=
  ascii "# newfile: " ++ path ++ newline :: emitAdded lines ++ ascii ".\n"

/-- A file of the diff that can be encoded. -/
inductive Delta where
  /-- a new file, with its content -/
  | added (path : Bytes) (content : Bytes)
  /-- a file that exists in both revisions, with what `diff_buffers` collected -/
  | modified (path : Bytes) (changes : List Change)

/-- The section of a file; a file without changes has none. -/
def Delta.text (emitAdded : List Bytes → Bytes) : Delta → Bytes
  | .added path content => emitNewfile emitAdded path (corpusSplitLines content)
  | .modified path changes =>
      if changes = [] then []
      else ascii "# file: " ++ path ++
        newline :: changes.reverse.flatMap (emitChange emitAdded)

/-- The whole bundle. -/
def bundleText (emitAdded : List Bytes → Bytes) (revs : Revisions) (deltas : List Delta) : Bytes :=
  unlines revs.comments ++ deltas.flatMap (Delta.text emitAdded)

end Phpatcher.Tools
