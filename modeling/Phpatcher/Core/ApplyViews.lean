import Phpatcher.Basis.Refines
import Phpatcher.Basis.Views
import Phpatcher.Core.Apply

/-!
# Applying a file patch, with its views

`build_input` and `apply_ed_script` as they are written: the buffer is a vector of
views, of the original, of the literal lines of the patch, and of the resolved lines,
which a deque keeps. The elements of a deque stay where they are as more are appended.
A string keeps up to `room` bytes inside the object.
-/

namespace Phpatcher.Core

open Phpatcher.Basis

variable {σ : Type}

/-- `EdPiece`, with its line in memory. -/
inductive StoredPiece where
  | literal (line : Str)
  | ref (ref : EdRef)

/-- `EdCommand`, with its input in memory. -/
structure StoredCommand where
  kind : Kind
  start : Nat
  end_ : Nat
  input : List StoredPiece

/-- What the validator looks at. -/
def StoredCommand.address (c : StoredCommand) : EdCommand := ⟨c.kind, c.start, c.end_, []⟩

/-- `split_lines`, as views of the original. -/
def splitViews (original : Str) (content : Bytes) : List View :=
  (cutSpans newline (fun _ i => i) content content.length 0 0).map (View.ofSpan original.addr)

/-- A resolved line, or its padded text, is moved into the deque. What is left of
`resolved` goes away. -/
def keepLine (room : Nat) (ref : EdRef) (m : Memory UInt8) (line : Str) : Str × Memory UInt8 :=
  match ref.transform with
  | .exact => line.move room m
  | .trimPad =>
      let (t, m) := Str.store m (ref.lpad ++ trimBlanks (line.text m) ++ ref.rpad)
      let (kept, m) := t.move room m
      (kept, m.drop line.addr)

/-- The lines of a reference are stored in `resolved` and passed on to the deque, and
each element of the deque is viewed. -/
def storeResolved (room : Nat) (ref : EdRef) (resolved : List Bytes) (m : Memory UInt8) :
    List View × Memory UInt8 :=
  let (lines, m) := Str.storeAll m resolved
  let (kept, m) := Str.passAll (keepLine room ref) m lines
  (kept.map Str.view, m)

/-- `build_input`. -/
def buildInputViews (room : Nat) (resolve : Option (RefResolver σ)) :
    List StoredPiece → Fallible Bytes (σ × Memory UInt8) (List View)
  | [] => pure []
  | .literal line :: rest => do
      let out ← buildInputViews room resolve rest
      return line.view :: out
  | .ref ref :: rest =>
      match resolve with
      | none => throw (ascii "patch references corpus lines but no resolver is available")
      | some f => do
          let resolved ← Fallible.withWorld (f ref)
          let views ← Fallible.inWorld (storeResolved room ref resolved)
          let out ← buildInputViews room resolve rest
          return views ++ out

/-- `lines.erase(lines.begin() + i, lines.begin() + j)`. -/
def eraseViews (lines : List View) (i j : Nat) : List View := lines.take i ++ lines.drop j

/-- `lines.insert(lines.begin() + i, ins.begin(), ins.end())`. -/
def insertViews (lines : List View) (i : Nat) (ins : List View) : List View :=
  lines.take i ++ ins ++ lines.drop i

/-- One command of `apply_ed_script`. -/
def applyCommandViews (room : Nat) (resolve : Option (RefResolver σ)) (c : StoredCommand)
    (lines : List View) : Fallible Bytes (σ × Memory UInt8) (List View) :=
  match c.kind with
  | .delete =>
      if c.start < 1 ∨ c.end_ < c.start ∨ c.end_ > lines.length then
        throw (ascii "ed delete out of range")
      else pure (eraseViews lines (c.start - 1) c.end_)
  | .change =>
      if c.start < 1 ∨ c.end_ < c.start ∨ c.end_ > lines.length then
        throw (ascii "ed change out of range")
      else do
        let ins ← buildInputViews room resolve c.input
        return insertViews (eraseViews lines (c.start - 1) c.end_) (c.start - 1) ins
  | .append =>
      if c.start > lines.length then throw (ascii "ed append out of range")
      else do
        let ins ← buildInputViews room resolve c.input
        return insertViews lines c.start ins
  | .insert =>
      if c.start < 1 ∨ c.start > lines.length + 1 then throw (ascii "ed insert out of range")
      else do
        let ins ← buildInputViews room resolve c.input
        return insertViews lines (c.start - 1) ins

/-- The command loop of `apply_ed_script`. -/
def applyCommandsViews (room : Nat) (resolve : Option (RefResolver σ)) :
    List StoredCommand → List View → Fallible Bytes (σ × Memory UInt8) (List View)
  | [], lines => pure lines
  | c :: rest, lines => do
      let lines ← applyCommandViews room resolve c lines
      applyCommandsViews room resolve rest lines

/-- `join_lines`: all views are read; `none` if one of them reads nothing. -/
def joinViews (lines : List View) (trailingNewline : Bool) (m : Memory UInt8) :
    Option Bytes × Memory UInt8 :=
  ((lines.mapM (View.read m)).map fun lines => joinLines lines trailingNewline, m)

/-- `apply_ed_script`. -/
def applyEdScriptViews (room : Nat) (resolve : Option (RefResolver σ))
    (commands : List StoredCommand) (original : Str) :
    Fallible Bytes (σ × Memory UInt8) (Option Bytes) :=
  match validateFrom int64Max (commands.map StoredCommand.address) with
  | .error e => throw e
  | .ok () => do
      let content ← Fallible.inWorld fun m => (original.text m, m)
      let lines ← applyCommandsViews room resolve commands (splitViews original content)
      let out ← Fallible.inWorld (joinViews lines (finalNewline content))
      return out

end Phpatcher.Core
