import Phpatcher.Core.Patch

/-!
# From a diff to changes

The callbacks of `changes.cpp` that libgit2 drives (`hunk_cb`, `line_cb`), the
changes they collect and the text `emit_change` writes for one of them.

libgit2 itself is outside the repository. What is assumed of it is a type:
`Diff old new` is a description of a diff between two texts, with the
guarantees the callbacks rely on as fields, and `Diff.callbacks` is the stream
libgit2 sends for it.
-/

namespace Phpatcher.Tools

open Phpatcher.Basis Phpatcher.Core

/-- `Change`. Line numbers are those of the old file, counted from 1. -/
structure Change where
  /-- first removed old line; 0 for a pure append -/
  oldStart : Nat := 0
  oldCount : Nat := 0
  /-- old line after which a pure addition goes -/
  appendAfter : Nat := 0
  added : List Bytes := []
  deriving DecidableEq, Repr

/-- `strip_eol`. -/
def stripEol (content : Bytes) : Bytes := dropLastByte carriageReturn (dropLastByte newline content)

/-- What `line_cb` looks at in a line, by origin. -/
inductive GitDiffLine where
  | context (oldLineno : Nat) (content : Bytes)
  | deletion (oldLineno : Nat) (content : Bytes)
  | addition (content : Bytes)
  /-- a pseudo-line, as for a missing newline at the end of a file -/
  | other
  deriving DecidableEq, Repr

/-- One call libgit2 makes: `hunk_cb` with the `old_start` of the hunk, or
`line_cb`. -/
inductive Callback where
  | hunk (oldStart : Nat)
  | line (line : GitDiffLine)
  deriving DecidableEq, Repr

/-- `DiffPayload`. -/
structure DiffPayload where
  changes : List Change := []
  inChange : Bool := false
  current : Change := {}
  lastOld : Nat := 0
  deriving DecidableEq, Repr

/-- `DiffPayload::flush`. -/
def DiffPayload.flush (p : DiffPayload) : DiffPayload :=
  if !p.inChange then p
  else { p with changes := p.changes ++ [p.current], current := {}, inChange := false }

/-- `DiffPayload::start_change`. -/
def DiffPayload.startChange (p : DiffPayload) (oldStart appendAfter : Nat) : DiffPayload :=
  if p.inChange then p else { p with inChange := true, current := { oldStart, appendAfter } }

/-- `hunk_cb`. -/
def hunkCb (p : DiffPayload) (oldStart : Nat) : DiffPayload :=
  { p.flush with lastOld := if oldStart > 0 then oldStart - 1 else 0 }

/-- `line_cb`. -/
def lineCb (p : DiffPayload) : GitDiffLine → DiffPayload
  | .context oldLineno _ => { p.flush with lastOld := oldLineno }
  | .deletion oldLineno _ =>
      let p := p.startChange oldLineno (oldLineno - 1)
      { p with
        current := { p.current with oldCount := p.current.oldCount + 1 }, lastOld := oldLineno }
  | .addition content =>
      let p := p.startChange 0 p.lastOld
      { p with current := { p.current with added := p.current.added ++ [stripEol content] } }
  | .other => p

/-- One call. -/
def DiffPayload.step (p : DiffPayload) : Callback → DiffPayload
  | .hunk oldStart => hunkCb p oldStart
  | .line line => lineCb p line

/-- `diff_buffers`: the changes collected from the calls libgit2 makes. -/
def diffBuffers (callbacks : List Callback) : List Change :=
  (callbacks.foldl DiffPayload.step {}).flush.changes

/-! ## Writing a change -/

/-- The command line `emit_change` starts with. -/
def Change.header (c : Change) : Bytes :=
  if c.oldCount = 0 then decimal c.appendAfter ++ ascii "a"
  else
    (if c.oldCount = 1 then decimal c.oldStart
      else decimal c.oldStart ++ ascii "," ++ decimal (c.oldStart + c.oldCount - 1)) ++
    (if c.added = [] then ascii "d" else ascii "c")

/-- `emit_added_plain`. -/
def emitAddedPlain (added : List Bytes) : Bytes := unlines added

/-- `emit_change`; `emitAdded` is how the added lines are written. -/
def emitChange (emitAdded : List Bytes → Bytes) (c : Change) : Bytes :=
  if c.oldCount ≠ 0 ∧ c.added = [] then c.header ++ [newline]
  else c.header ++ newline :: emitAdded c.added ++ ascii ".\n"

/-! ## What libgit2 promises -/

/-- The lines of a text with their newlines: what libgit2 compares. -/
def rawLines (text : Bytes) : List Bytes := splitWith (· ++ [newline]) [] text

/-- One line of a hunk. -/
inductive DiffItem where
  | keep (line : Bytes)
  | del (line : Bytes)
  | add (line : Bytes)
  | note
  deriving DecidableEq, Repr

/-- The old line an item stands for. -/
def DiffItem.oldLine? : DiffItem → Option Bytes
  | .keep line | .del line => some line
  | .add _ | .note => none

/-- The new line an item stands for, and whether it is an added one. -/
def DiffItem.newLine? : DiffItem → Option (Bool × Bytes)
  | .keep line => some (false, line)
  | .add line => some (true, line)
  | .del _ | .note => none

/-- The number of context lines in front of the first change. -/
def leadingContext : List DiffItem → Nat
  | .keep _ :: rest => leadingContext rest + 1
  | .note :: rest => leadingContext rest
  | .del _ :: _ | .add _ :: _ | [] => 0

/-- In every change group the deletions come before the additions, and a line
of context separates two groups. `added` tells that the group open at the
start already has an addition. -/
def GroupsOrdered : Bool → List DiffItem → Prop
  | _, [] => True
  | _, .keep _ :: rest => GroupsOrdered false rest
  | added, .del _ :: rest => added = false ∧ GroupsOrdered false rest
  | _, .add _ :: rest => GroupsOrdered true rest
  | added, .note :: rest => GroupsOrdered added rest

/-- A hunk: the unchanged lines `skip` between the hunk before and this one,
and the lines it shows. -/
structure Hunk where
  skip : List Bytes
  items : List DiffItem
  deriving DecidableEq, Repr

/-- The old lines of a hunk. -/
def Hunk.oldLines (h : Hunk) : List Bytes := h.skip ++ h.items.filterMap DiffItem.oldLine?

/-- The new lines of a hunk, with the marks of the added ones. -/
def Hunk.newLines (h : Hunk) : List (Bool × Bytes) :=
  h.skip.map (false, ·) ++ h.items.filterMap DiffItem.newLine?

/-- Hunks from old line `o` on: the groups are ordered, and a hunk shows three
lines of context in front of its first change or starts with the file. -/
def HunksOrdered : Nat → List Hunk → Prop
  | _, [] => True
  | o, h :: rest =>
      GroupsOrdered false h.items ∧ (leadingContext h.items < 3 → o + h.skip.length = 0) ∧
        HunksOrdered (o + h.oldLines.length) rest

/-- A diff between two texts, as libgit2 computes it with three lines of
context. Line numbers are of type `int` there. -/
structure Diff (old new : Bytes) where
  hunks : List Hunk
  /-- the unchanged lines behind the last hunk -/
  tail : List Bytes
  old_eq : rawLines old = hunks.flatMap Hunk.oldLines ++ tail
  new_eq : rawLines new = (hunks.flatMap Hunk.newLines).map Prod.snd ++ tail
  ordered : HunksOrdered 0 hunks
  old_lt : (rawLines old).length < 2 ^ 31

/-- The line callbacks of a hunk whose items follow `o` old lines. -/
def lineCallbacks : Nat → List DiffItem → List Callback
  | _, [] => []
  | o, .keep line :: rest => .line (.context (o + 1) line) :: lineCallbacks (o + 1) rest
  | o, .del line :: rest => .line (.deletion (o + 1) line) :: lineCallbacks (o + 1) rest
  | o, .add line :: rest => .line (.addition line) :: lineCallbacks o rest
  | o, .note :: rest => .line .other :: lineCallbacks o rest

/-- The callbacks of the hunks that follow `o` old lines. `old_start` is the
first old line of a hunk, or the line before it when the hunk has none. -/
def hunkCallbacks : Nat → List Hunk → List Callback
  | _, [] => []
  | o, h :: rest =>
      let first := o + h.skip.length
      .hunk (if h.items.filterMap DiffItem.oldLine? = [] then first else first + 1) ::
        lineCallbacks first h.items ++ hunkCallbacks (o + h.oldLines.length) rest

/-- The stream of calls for a diff. -/
def Diff.callbacks {old new : Bytes} (d : Diff old new) : List Callback := hunkCallbacks 0 d.hunks

/-- Which of the new lines are added ones. -/
def Diff.marks {old new : Bytes} (d : Diff old new) : List Bool :=
  (d.hunks.flatMap Hunk.newLines).map Prod.fst ++ d.tail.map fun _ => false

end Phpatcher.Tools
