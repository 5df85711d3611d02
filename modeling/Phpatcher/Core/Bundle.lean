import Phpatcher.Basis.Sorted
import Phpatcher.Core.Paths
import Phpatcher.Core.Reader

/-!
# The patch index

`PatchSet` of `patch.cpp`: the line-by-line scan of a bundle, the sorted index
it leaves and the searches in it. The scan is a state machine over the lines;
its step (`parseLine`) is total and either moves on or stops with an error,
and the sections pushed before an error stay in the index.
-/

namespace Phpatcher.Core

open Phpatcher.Basis

/-- A canonical path and the edits of that file. -/
abbrev Entry := Bytes × FilePatch

/-- `PatchSet`: the index and the basename filter. -/
structure PatchSet where
  index : List Entry := []
  basenames : List Bytes := []
  deriving DecidableEq

/-- The order the index is sorted in. -/
abbrev EntrySorter := Sorter (Prod.fst : Entry → Bytes)

/-- `std::unique`: of neighbours that are equal, keep one. -/
def unique : List Bytes → List Bytes
  | a :: b :: rest => if a = b then unique (b :: rest) else a :: unique (b :: rest)
  | l => l

/-- The basename filter of an index: the basenames of its keys, sorted, once. -/
def basenameFilter (index : List Entry) : List Bytes :=
  unique ((Sorter.stable (id : Bytes → Bytes)).run (index.map fun e => basenameOf e.1))

/-- The first key that equals its left neighbour. -/
def firstDuplicate : List Entry → Option Bytes
  | a :: b :: rest => if b.1 = a.1 then some b.1 else firstDuplicate (b :: rest)
  | _ => none

/-- `PatchSet::finalize`. -/
def finalize (sorter : EntrySorter) (set : PatchSet) : PatchSet × Except Bytes Unit :=
  let index := sorter.run set.index
  match firstDuplicate index with
  | some key => ({ set with index }, .error (ascii "duplicate patch section for " ++ key))
  | none => ({ index, basenames := basenameFilter index }, .ok ())

/-- `PatchSet::recanonicalize`. -/
def PatchSet.recanonicalize (sorter : EntrySorter) (fn : Bytes → Bytes) (set : PatchSet) :
    PatchSet :=
  let index := sorter.run (set.index.map fun e => (fn e.1, e.2))
  { index, basenames := basenameFilter index }

/-- `PatchSet::find`. -/
def PatchSet.find (set : PatchSet) (path : Bytes) : Option FilePatch := searchSorted set.index path

/-- `PatchSet::has_basename`. -/
def PatchSet.hasBasename (set : PatchSet) (basename : Bytes) : Bool :=
  containsSorted set.basenames basename

/-- `PatchSet::file_count`. -/
def PatchSet.fileCount (set : PatchSet) : Nat := set.index.length

/-! ## The scan -/

/-- The variables of `parse_ed_bundle`. -/
structure ParseState where
  index : List Entry := []
  current : FilePatch := {}
  currentKey : Bytes := []
  haveCurrent : Bool := false
  pending : EdCommand := {}
  inInput : Bool := false
  deriving DecidableEq

/-- `flush_current`: a section without commands is dropped. -/
def ParseState.flushCurrent (st : ParseState) : ParseState :=
  { st with
    index :=
      if st.haveCurrent ∧ st.current.commands ≠ [] then st.index ++ [(st.currentKey, st.current)]
      else st.index
    current := {}
    currentKey := []
    haveCurrent := false }

/-- The path behind a section header, if there is one. -/
def headerPath (header line : Bytes) : Option Bytes :=
  let path := (rtrim (line.drop header.length)).dropWhile isSkipped
  if path = [] then none else some path

/-- Start a section: `# file:`, or `# newfile:` whose content block opens at
once as the input of a `0a`. -/
def ParseState.startSection (st : ParseState) (key : Bytes) (creates : Bool) : ParseState :=
  let st := st.flushCurrent
  if creates then
    { st with
      currentKey := key, haveCurrent := true, current := { st.current with creates := true }
      pending := { kind := .append, start := 0, end_ := 0 }, inInput := true }
  else { st with currentKey := key, haveCurrent := true }

/-- A line inside an input block. -/
def ParseState.inputLine (st : ParseState) (line : Bytes) : ParseState :=
  if line = [dot] then
    { st with
      current := { st.current with commands := st.current.commands ++ [st.pending] }
      pending := {}, inInput := false }
  else
    { st with
      pending := { st.pending with input := st.pending.input ++ [parseEdInputPiece line] } }

/-- A command line. -/
def ParseState.commandLine (st : ParseState) (line : Bytes) : Except Bytes ParseState :=
  if !st.haveCurrent then .error (ascii "ed command before any '# file:' header")
  else
    match parseEdCommand line with
    | none => .error (ascii "invalid ed command: " ++ line)
    | some (cmd, needsInput) =>
        if needsInput then .ok { st with pending := cmd, inInput := true }
        else .ok { st with current := { st.current with commands := st.current.commands ++ [cmd] } }

/-- A line that is a blank, a comment, or one of `w` and `q`. -/
def isIgnored (line : Bytes) : Bool :=
  let rest := line.dropWhile isBlank
  rest.isEmpty || rest.head? == some hash || rtrim rest == ascii "w" || rtrim rest == ascii "q"

/-- One turn of the line loop; `canon` is `canonicalize` at the base directory. -/
def ParseState.parseLine (canon : Bytes → Bytes) (st : ParseState) (line : Bytes) :
    Except Bytes ParseState :=
  if st.inInput then .ok (st.inputLine line)
  else if kEdFileHeader.isPrefixOf line then
    match headerPath kEdFileHeader line with
    | none => .error (ascii "empty '# file:' header in ed bundle")
    | some path => .ok (st.startSection (canon path) false)
  else if kEdNewFileHeader.isPrefixOf line then
    match headerPath kEdNewFileHeader line with
    | none => .error (ascii "empty '# newfile:' header in ed bundle")
    | some path => .ok (st.startSection (canon path) true)
  else if isIgnored line then .ok st
  else st.commandLine line

/-- The line loop: the state it ends in, and the error that ended it early. -/
def scanLines (canon : Bytes → Bytes) : ParseState → List Bytes → ParseState × Except Bytes Unit
  | st, [] => (st, .ok ())
  | st, line :: rest =>
      match st.parseLine canon line with
      | .error e => (st, .error e)
      | .ok st => scanLines canon st rest

/-- A line that starts with a digit is no header, no comment and no `w` or `q`. -/
theorem digit_line {d : UInt8} (rest : Bytes) (hd : isDigit d = true) :
    kEdFileHeader.isPrefixOf (d :: rest) = false ∧
      kEdNewFileHeader.isPrefixOf (d :: rest) = false ∧ isIgnored (d :: rest) = false := by
  have hne : ∀ c : UInt8, isDigit c = false → d ≠ c := by
    rintro c hc rfl
    rw [hd] at hc
    exact absurd hc (by simp)
  have hhash : d ≠ hash := hne _ rfl
  have hblank : isBlank d = false := by
    simp [isBlank, hne space rfl, hne tab rfl, hne carriageReturn rfl]
  -- a trimmed line is a prefix of the line, so it starts with the digit too
  have htrim : ∀ c : UInt8, isDigit c = false → rtrim (d :: rest) ≠ [c] := by
    intro c hc heq
    have hstart := List.rdropWhile_prefix isBlank (d :: rest)
    rw [show List.rdropWhile isBlank (d :: rest) = [c] from heq, List.cons_prefix_cons] at hstart
    exact hne c hc hstart.1.symm
  refine ⟨?_, ?_, ?_⟩
  · simp [kEdFileHeader, ascii, List.isPrefixOf, hhash.symm]
  · simp [kEdNewFileHeader, ascii, List.isPrefixOf, hhash.symm]
  · have hw := htrim 119 rfl
    have hq := htrim 113 rfl
    simp [isIgnored, hblank, hhash, show ascii "w" = [119] from rfl,
      show ascii "q" = [113] from rfl, hw, hq]

/-- The scan reads such a line as a command. -/
theorem parseLine_digit (canon : Bytes → Bytes) {st : ParseState} {d : UInt8} (rest : Bytes)
    (hd : isDigit d = true) (hin : st.inInput = false) :
    st.parseLine canon (d :: rest) = st.commandLine (d :: rest) := by
  obtain ⟨hfile, hnewfile, hignored⟩ := digit_line rest hd
  simp [ParseState.parseLine, hin, hfile, hnewfile, hignored]

/-- `PatchSet::parse_ed_bundle`, called with an empty index. -/
def parseEdBundle (sorter : EntrySorter) (canon : Bytes → Bytes) (text : Bytes) :
    PatchSet × Except Bytes Unit :=
  match scanLines canon {} (splitLines text) with
  | (st, .error e) => ({ index := st.index }, .error e)
  | (st, .ok ()) =>
      if st.inInput then
        ({ index := st.index }, .error (ascii "unterminated ed input block (missing '.')"))
      else finalize sorter { index := st.flushCurrent.index }

/-- `PatchSet::parse`: whatever the set held before is cleared. -/
def PatchSet.parse (sorter : EntrySorter) (canon : Bytes → Bytes) (text : Bytes)
    (_before : PatchSet) : PatchSet × Except Bytes Unit :=
  if text = [] then ({}, .ok ())
  else if !looksLikeEdBundle text then
    ({}, .error (ascii "unsupported patch format: expected '# phpatcher-ed'"))
  else parseEdBundle sorter canon text

/-! ## Sorted indexes -/

/-- What the searches rely on: both arrays are sorted, and the filter holds
the basenames of the keys. -/
structure PatchSet.Indexed (set : PatchSet) : Prop where
  sorted : set.index.Pairwise fun a b => a.1 ≤ b.1
  basenamesSorted : set.basenames.Pairwise (· ≤ ·)
  mem_basenames : ∀ b, b ∈ set.basenames ↔ ∃ e ∈ set.index, basenameOf e.1 = b

theorem unique_sublist (l : List Bytes) : (unique l).Sublist l := by
  fun_induction unique l with
  | case1 a rest ih => exact ih.cons _
  | case2 a b rest hne ih => exact ih.cons_cons a
  | case3 l hl => exact List.Sublist.refl _

@[simp] theorem mem_unique {l : List Bytes} {b : Bytes} : b ∈ unique l ↔ b ∈ l := by
  fun_induction unique l with
  | case1 a rest ih => simp [ih]
  | case2 a c rest hne ih => simp [ih]
  | case3 l hl => rfl

/-- A sorted index with its filter rebuilt can be searched. -/
theorem indexed_of_sorted {index : List Entry} (h : index.Pairwise fun a b => a.1 ≤ b.1) :
    PatchSet.Indexed { index, basenames := basenameFilter index } where
  sorted := h
  basenamesSorted :=
    ((Sorter.stable (id : Bytes → Bytes)).sorted _).sublist (unique_sublist _)
  mem_basenames b := by simp [basenameFilter]

theorem PatchSet.indexed_recanonicalize (sorter : EntrySorter) (fn : Bytes → Bytes)
    (set : PatchSet) : (set.recanonicalize sorter fn).Indexed :=
  indexed_of_sorted (sorter.sorted _)

/-- The entries after re-canonicalization are the old ones under their new keys. -/
theorem PatchSet.mem_recanonicalize {sorter : EntrySorter} {fn : Bytes → Bytes}
    {set : PatchSet} {e : Entry} :
    e ∈ (set.recanonicalize sorter fn).index ↔ ∃ d ∈ set.index, (fn d.1, d.2) = e := by
  simp [PatchSet.recanonicalize]

/-- Only the keys of the index are asked for. -/
theorem PatchSet.recanonicalize_congr {sorter : EntrySorter} {fn fn' : Bytes → Bytes}
    {set : PatchSet} (h : ∀ e ∈ set.index, fn' e.1 = fn e.1) :
    set.recanonicalize sorter fn' = set.recanonicalize sorter fn := by
  have hmap : (set.index.map fun e => (fn' e.1, e.2)) = set.index.map fun e => (fn e.1, e.2) :=
    List.map_congr_left fun e he => by rw [h e he]
  rw [recanonicalize, recanonicalize, hmap]

namespace PatchSet.Indexed

variable {set : PatchSet} (h : set.Indexed)
include h

/-- `find` succeeds exactly under the keys of the index. -/
theorem find_isSome_iff (path : Bytes) :
    (set.find path).isSome ↔ ∃ e ∈ set.index, e.1 = path := searchSorted_isSome h.sorted path

/-- Of the sections under one key `find` gives the first. -/
theorem find_eq_find? (path : Bytes) :
    set.find path = (set.index.find? fun e => e.1 = path).map Prod.snd := by
  rw [PatchSet.find, searchSorted_eq_find? h.sorted]
  congr!

theorem mem_of_find {path : Bytes} {fp : FilePatch} (hfind : set.find path = some fp) :
    (path, fp) ∈ set.index := mem_of_searchSorted h.sorted hfind

/-- The filter answers yes exactly for the basenames of the keys. -/
theorem hasBasename_iff (b : Bytes) :
    set.hasBasename b = true ↔ ∃ e ∈ set.index, basenameOf e.1 = b := by
  rw [PatchSet.hasBasename, containsSorted_iff h.basenamesSorted, h.mem_basenames]

end PatchSet.Indexed

end Phpatcher.Core
