import Phpatcher.Tools.Diff
import Phpatcher.Tools.Generate

/-!
# The loop over the deltas

`main` of `changes.cpp`, behind its options and the comparison of the revisions: each
delta is passed over, or its section is written; nothing written is an error.

What libgit2 gives is taken as it comes: the fields of a delta, the bytes of its
blobs or the error of looking them up, its guess whether bytes are binary, and the
diff of two texts.
-/

namespace Phpatcher.Tools

open Phpatcher.Basis Phpatcher.Core

/-- `git_delta_t`. -/
inductive DeltaStatus where
  | unmodified | added | deleted | modified | renamed | copied | ignored | untracked | typechange
  | unreadable | conflicted
  deriving DecidableEq, Repr

/-- `git_diff_delta`, with what `load_blob` gives for the ids of its sides. -/
structure GitDelta where
  status : DeltaStatus
  /-- `GIT_DIFF_FLAG_BINARY` -/
  binary : Bool
  oldPath : Option Bytes
  newPath : Option Bytes
  oldBlob : Except Bytes Bytes
  newBlob : Except Bytes Bytes

/-- What else is asked of the repository: the working directory, if there is one, with
the files in it that can be read. -/
structure GitRepo where
  blobIsBinary : Bytes → Bool
  workdir : Option (Bytes → Option Bytes)
  diff : ∀ old new : Bytes, Except Bytes (Diff old new)

/-- `contains_nul`. -/
def containsNul (s : Bytes) : Bool := s.contains 0

/-- The new path of a delta, or its old one. -/
def GitDelta.path (d : GitDelta) : Option Bytes := d.newPath.or d.oldPath

/-- The new side: a blob of the target revision, or a file of the working directory.
Binary bytes and files that cannot be read are passed over. -/
def newBuf (repo : GitRepo) (revs : Revisions) (d : GitDelta) (path : Bytes) :
    Except Bytes (Option Bytes) :=
  if revs.target ≠ [] then
    match d.newBlob with
    | .error e => .error e
    | .ok content => .ok (if repo.blobIsBinary content then none else some content)
  else
    match repo.workdir with
    | none => .error (ascii "repository has no working directory")
    | some readFile => .ok ((readFile path).filter fun content => !containsNul content)

/-- The old side of a modified file. -/
def oldBuf (repo : GitRepo) (d : GitDelta) : Except Bytes (Option Bytes) :=
  match d.oldBlob with
  | .error e => .error e
  | .ok content => .ok (if repo.blobIsBinary content then none else some content)

/-- What a turn of the loop writes, if anything. -/
def turn (repo : GitRepo) (revs : Revisions) (d : GitDelta) : Except Bytes (Option Delta) :=
  if d.status ≠ .added ∧ d.status ≠ .modified then .ok none
  else if d.binary then .ok none
  else
    match d.path with
    | none => .ok none
    | some path =>
        match newBuf repo revs d path with
        | .error e => .error e
        | .ok none => .ok none
        | .ok (some new) =>
            if d.status = .added then .ok (some (.added path new))
            else
              match oldBuf repo d with
              | .error e => .error e
              | .ok none => .ok none
              | .ok (some old) =>
                  match repo.diff old new with
                  | .error e => .error e
                  | .ok diff =>
                      if diffBuffers diff.callbacks = [] then .ok none
                      else .ok (some (.modified path (diffBuffers diff.callbacks)))

end Phpatcher.Tools
