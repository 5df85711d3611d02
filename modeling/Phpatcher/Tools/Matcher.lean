import Phpatcher.Basis.Printf
import Phpatcher.Core.Paths
import Phpatcher.Tools.CorpusCache
import Phpatcher.Tools.Splitters

/-!
# The second generator

`phpatcher-match` factorizes a block like `emit_added_corpus` of `changes.cpp`
does, but it is written on its own and prints with `printf`. Where a call of
`printf` fails, the output is `some none`; the outer option is that of an access.

The block lines are views into the content, which goes on behind them: `behind`
gives the memory behind each line.
-/

namespace Phpatcher.Tools

open Phpatcher.Basis Phpatcher.Core

/-- `Corpus` of `matcher.cpp`: the root is an `fs::path`. -/
structure MatcherCorpus where
  root : Bytes
  readFile : Bytes → Option Bytes
  normalizer : Normalizer

/-- The path of a corpus file. -/
def MatcherCorpus.path (corpus : MatcherCorpus) (idx : Index) (fileId : Nat) : Bytes :=
  let file := idx.file fileId
  if isRelative file then appendPath corpus.root file else file

/-- The line that `Corpus::line` hands out a view of. -/
def MatcherCorpus.line (corpus : MatcherCorpus) (idx : Index) (fileId lineno : Nat) :
    Option Bytes :=
  match corpus.readFile (corpus.path idx fileId) with
  | none => none
  | some content => if lineno = 0 then none else (matcherSplitLoop content)[lineno - 1]?

/-- The key that `Corpus::key` hands out a view of. -/
def MatcherCorpus.key (corpus : MatcherCorpus) (idx : Index) (fileId lineno : Nat) :
    Option Bytes :=
  match corpus.readFile (corpus.path idx fileId) with
  | none => none
  | some content => if lineno = 0 then none else (corpus.normalizer.run content)[lineno - 1]?

/-- What its cache reads. -/
def matcherFiles (room : Nat) (corpus : MatcherCorpus) (idx : Index) : CorpusFiles where
  room := room
  content fileId := corpus.readFile (corpus.path idx fileId)
  keys := if idx.normalized then some corpus.normalizer.run else none

/-- What the matcher asks its index and its corpus cache. -/
def matcherAccess (room : Nat) (corpus : MatcherCorpus) (idx : Index) : CorpusAccess where
  normalized := idx.normalized
  normalizer := corpus.normalizer
  find := idx.find
  file fileId := some (idx.file fileId)
  line := (matcherFiles room corpus idx).readLine
  same := (matcherFiles room corpus idx).sameLine
  key fileId lineno := some (corpus.key idx fileId lineno)

/-- Output in two parts, either of which may not survive its accesses. -/
def bothParts (first second : Option (Option Bytes)) : Option (Option Bytes) := do
  let head ← first
  let tail ← second
  pure (andThen head tail)

section

variable (access : CorpusAccess)

/-- The loop of `ref_bytes`. -/
def matcherBytesLoop (fileId : Nat) : List Nat → Option (Option (List Bytes))
  | [] => pure (some [])
  | ln :: rest => do
      match ← access.line fileId ln with
      | none => pure none
      | some line =>
          let lines ← matcherBytesLoop fileId rest
          pure (lines.map (line :: ·))

/-- `ref_bytes`. -/
def matcherRefBytes (fileId begin end_ : Nat) : Option (Option Bytes) :=
  (matcherBytesLoop access fileId (refLines begin end_)).map fun lines => lines.map unlines

/-- `make_guard`. -/
def matcherMakeGuard (hash : Bool) (fileId begin end_ : Nat) : Option (Option Bytes) :=
  (matcherRefBytes access fileId begin end_).map fun bytes => bytes.map (guardText hash)

/-- The output of `emit_ref`; `some none` when it returns false. -/
def matcherEmitRef (hash : Bool) (fileId begin end_ : Nat) (pads : Option (Bytes × Bytes)) :
    Option (Option (Option Bytes)) := do
  match ← matcherMakeGuard access hash fileId begin end_ with
  | none => pure none
  | some guard =>
      let path ← access.file fileId
      let path := quoteEd path
      match pads with
      | some (lpad, rpad) =>
          pure (some (printed (ascii "r " ++ cString path ++ ascii " " ++ decimal begin ++
            ascii " " ++ decimal end_ ++ ascii " " ++ cString (quoteEd lpad) ++ ascii " " ++
            cString (quoteEd rpad) ++ ascii " # " ++ cString guard ++ ascii "\n")))
      | none =>
          pure (some (printed (ascii "r " ++ cString path ++ ascii " " ++ decimal begin ++
            ascii " " ++ decimal end_ ++ ascii " # " ++ cString guard ++ ascii "\n")))

variable (hash : Bool) (block : List Bytes) (behind : Nat → Bytes)

/-- A block line as it is printed. -/
def printLine (b : Nat) : Option Bytes :=
  let line := block.getD b []
  printed (withPrecision (toInt line.length) (line ++ behind b) ++ [newline])

/-- `n` block lines from `b` on. -/
def printLines : Nat → Nat → Option Bytes
  | 0, _ => some []
  | n + 1, b => andThen (printLine block behind b) (printLines n (b + 1))

/-- Print a reference, or the `n` block lines from `b` on. -/
def matcherRefOr (fileId begin end_ b n : Nat) : Option (Option Bytes) := do
  match ← matcherEmitRef access hash fileId begin end_ none with
  | some piece => pure piece
  | none => pure (printLines block behind n b)

/-- The end of the exact sub-run. -/
def matcherExactEnd (fileId : Nat) : Nat → Nat → Nat → Option (Nat × Nat)
  | 0, b, c => pure (b + 1, nextLine c)
  | left + 1, b, c => do
      if ← access.same fileId (nextLine c) (block.getD (b + 1) []) then
        matcherExactEnd fileId left (b + 1) (nextLine c)
      else pure (b + 1, nextLine c)

/-- One line of a run that is not an exact copy. -/
def matcherPadded (fileId b c : Nat) : Option (Option Bytes) := do
  let src ← access.line fileId c
  match src.bind fun src => trimPadFor src (block.getD b []) with
  | none => pure (printLine block behind b)
  | some pads =>
      match ← matcherEmitRef access hash fileId c c (some pads) with
      | some piece => pure piece
      | none => pure (printLine block behind b)

/-- The loop over a run of a normalized index. -/
def matcherNormalizedRun (fileId blockEnd : Nat) : Nat → Nat → Nat → Option (Option Bytes)
  | 0, _, _ => pure (some [])
  | turns + 1, b, c =>
      if b < blockEnd then do
        if ← access.same fileId c (block.getD b []) then
          let (b', c') ← matcherExactEnd access block fileId (blockEnd - (b + 1)) b c
          bothParts (matcherRefOr access hash block behind fileId c (c' - 1) b (b' - b))
            (matcherNormalizedRun fileId blockEnd turns b' c')
        else
          bothParts (matcherPadded access hash block behind fileId b c)
            (matcherNormalizedRun fileId blockEnd turns (b + 1) (nextLine c))
      else pure (some [])

/-- One run. -/
def matcherRun (r : Run) : Option (Option Bytes) :=
  if !access.normalized then
    matcherRefOr access hash block behind r.fileId r.corpusBegin r.corpusEnd r.blockBegin r.length
  else
    matcherNormalizedRun access hash block behind r.fileId r.blockEnd r.length r.blockBegin
      r.corpusBegin

/-- The loop over the block. -/
def matcherLoop : Nat → Nat → List Run → Option (Option Bytes)
  | 0, _, _ => pure (some [])
  | turns + 1, pos, runs =>
      if pos < block.length then
        match runs with
        | r :: rest =>
            if r.blockBegin = pos then
              bothParts (matcherRun access hash block behind r) (matcherLoop turns r.blockEnd rest)
            else
              bothParts (pure (printLine block behind pos))
                (matcherLoop turns (pos + 1) (r :: rest))
        | [] => bothParts (pure (printLine block behind pos)) (matcherLoop turns (pos + 1) [])
      else pure (some [])

/-- The keys of a block content. -/
def matcherBlockKeys (content : Bytes) : List Bytes :=
  if access.normalized then normalizeBlockKeys access.normalizer content
  else (matcherSplitLoop content).map trim

/-- The callback for `factorize`. -/
def matcherLineEqual (content : Bytes) (b fileId c : Nat) : Option Bool :=
  if access.normalized then
    (access.key fileId c).map fun key => key == some ((matcherBlockKeys access content).getD b [])
  else access.same fileId c ((matcherSplitLoop content).getD b [])

end

/-- What `main` prints for the content of a block; `-n 0` is taken as `-n 1`. -/
def matcherMain (access : CorpusAccess) (hash : Bool) (content : Bytes) (behind : Nat → Bytes)
    (anchorSorter : Sorter Anchor.weight) (runSorter : Sorter Run.blockBegin) (minRun : Nat) :
    Option (Option Bytes) := do
  let minRun := if minRun = 0 then 1 else minRun
  let block := matcherSplitLoop content
  let runs ← factorizeM (matcherLineEqual access content) anchorSorter runSorter
    (matcherBlockKeys access content) minRun access.find
  matcherLoop access hash block behind block.length 0 runs

end Phpatcher.Tools
