import Phpatcher.Basis.Checked
import Phpatcher.Basis.Traced
import Phpatcher.Tools.Corpus

/-!
# Added lines as corpus references

`emit_added_corpus` of `changes.cpp`, and `factorize` with the callback it gives. The
program asks an index and a corpus for postings, paths, lines and keys. It may not
survive the question: `none` stands for an exception that nothing catches, and for
behaviour that the language leaves undefined.
-/

namespace Phpatcher.Tools

open Phpatcher.Basis Phpatcher.Core

/-! ## Factorizing with a callback that does more than answer -/

section

variable {m : Type → Type} [Monad m]

def extendUpM (covered : Nat → Bool) (equal : Nat → Nat → m Bool) : Nat → Nat → m (Nat × Nat)
  | 0, c => pure (0, c)
  | b + 1, c =>
      if c > 1 ∧ covered b = false then do
        if ← equal b (c - 1) then extendUpM covered equal b (c - 1) else pure (b + 1, c)
      else pure (b + 1, c)

def extendDownM (covered : Nat → Bool) (equal : Nat → Nat → m Bool) :
    Nat → Nat → Nat → m (Nat × Nat)
  | 0, b, c => pure (b, c)
  | left + 1, b, c =>
      if covered (b + 1) = false then do
        if ← equal (b + 1) (nextLine c) then extendDownM covered equal left (b + 1) (nextLine c)
        else pure (b, c)
      else pure (b, c)

variable (equal : Nat → Nat → Nat → m Bool)

def runThroughM (n : Nat) (covered : Nat → Bool) (pos : Nat) (pp : Posting) : m Run := do
  let matchesFile := fun b c => equal b pp.fileId c
  let (b0, c0) ← extendUpM covered matchesFile pos pp.lineno
  let (b1, c1) ← extendDownM covered matchesFile (n - (pos + 1)) pos pp.lineno
  pure ⟨b0, b1 + 1, pp.fileId, c0, c1⟩

/-- The turn of the loop over the postings. -/
def bestRunStepM (n : Nat) (covered : Nat → Bool) (pos : Nat) (best : Option Run)
    (pp : Posting) : m (Option Run) := do
  if !(← equal pos pp.fileId pp.lineno) then pure best
  else
    let run ← runThroughM equal n covered pos pp
    match best with
    | none => pure (some run)
    | some b => pure (if run.length > b.length then some run else best)

def bestRunM (n : Nat) (covered : Nat → Bool) (pos : Nat) (post : List Posting) :
    m (Option Run) :=
  post.foldlM (bestRunStepM equal n covered pos) none

def factorStepM (keys : List Bytes) (minRun : Nat) (postingsOf : Bytes → Option (List Posting))
    (st : Covering) (anchor : Anchor) : m Covering :=
  if st.covered anchor.pos then pure st
  else
    match postingsOf (keys.getD anchor.pos []) with
    | none => pure st
    | some post => do
        match ← bestRunM equal keys.length st.covered anchor.pos post with
        | none => pure st
        | some best => pure (if best.length ≥ minRun then st.add best else st)

/-- `factorize`, with a callback of the monad. -/
def factorizeM (anchorSorter : Sorter Anchor.weight) (runSorter : Sorter Run.blockBegin)
    (keys : List Bytes) (minRun : Nat) (postingsOf : Bytes → Option (List Posting)) :
    m (List Run) := do
  let minRun := if minRun = 0 then 1 else minRun
  let anchors := anchorSorter.run (anchorsOf keys postingsOf)
  let st ← anchors.foldlM (factorStepM equal keys minRun postingsOf)
    { covered := fun _ => false, runs := [] }
  pure (runSorter.run st.runs)

end

/-- A comparison: a block line, a file, and a line of that file. -/
structure Comparison where
  pos : Nat
  fileId : Nat
  lineno : Nat
  deriving DecidableEq, Repr

/-- The comparisons that `factorize` makes. -/
def comparisons (anchorSorter : Sorter Anchor.weight) (runSorter : Sorter Run.blockBegin)
    (keys : List Bytes) (minRun : Nat) (postingsOf : Bytes → Option (List Posting))
    (equal : EqualFn) : List Comparison :=
  (factorizeM (fun b fileId c => Traced.ask ⟨b, fileId, c⟩ (equal b fileId c)) anchorSorter
    runSorter keys minRun postingsOf).trace

/-! ## Accesses -/

/-- What the program asks an index and a corpus, with the answers it gets. -/
structure CorpusAccess where
  normalized : Bool
  normalizer : Normalizer
  /-- `Index::find` -/
  find : Bytes → Option (List Posting)
  /-- `Index::file` -/
  file : Nat → Option Bytes
  /-- `Corpus::line`, and the characters of the line; `some none` is `nullptr` -/
  line : Nat → Nat → Option (Option Bytes)
  /-- `Corpus::line`, and whether it returns a line that equals this one -/
  same : Nat → Nat → Bytes → Option Bool
  /-- `Corpus::key` -/
  key : Nat → Nat → Option (Option Bytes)

section

variable (access : CorpusAccess)

/-- The loop of `ref_bytes`. -/
def refBytesLoop (fileId : Nat) : List Nat → Option (Option (List Bytes))
  | [] => pure (some [])
  | ln :: rest => do
      match ← access.line fileId ln with
      | none => pure none
      | some line =>
          let lines ← refBytesLoop fileId rest
          pure (lines.map (line :: ·))

/-- The line numbers it goes through: behind the largest one comes line 0. -/
def refLines (begin end_ : Nat) : List Nat :=
  List.range' begin (end_ + 1 - begin) ++ if end_ = 4294967295 then [0] else []

/-- `ref_bytes`. -/
def refBytes (fileId begin end_ : Nat) : Option (Option Bytes) :=
  (refBytesLoop access fileId (refLines begin end_)).map fun lines => lines.map unlines

/-- `make_guard`. -/
def makeGuard (hash : Bool) (fileId begin end_ : Nat) : Option (Option Bytes) :=
  (refBytes access fileId begin end_).map fun bytes => bytes.map (guardText hash)

/-- `emit_ref`; `some none` when nothing was printed. -/
def emitRef (hash : Bool) (fileId begin end_ : Nat) (pads : Option (Bytes × Bytes)) :
    Option (Option Emitted) := do
  match ← makeGuard access hash fileId begin end_ with
  | none => pure none
  | some guard =>
      let path ← access.file fileId
      pure (some (.ref (rDirective path begin end_ pads guard)))

variable (hash : Bool) (block : List Bytes)

/-- Print a reference, or the `n` block lines from `b` on when it cannot be
printed. -/
def emitRefOr (fileId begin end_ b n : Nat) : Option (List Emitted) := do
  match ← emitRef access hash fileId begin end_ none with
  | some item => pure [item]
  | none => pure (((block.drop b).take n).map .literal)

/-- The exact sub-run from block line `b` and corpus line `c` on, where these
two agree: the position behind it. `left` block lines of the run follow `b`. -/
def exactEnd (fileId : Nat) : Nat → Nat → Nat → Option (Nat × Nat)
  | 0, b, c => pure (b + 1, nextLine c)
  | left + 1, b, c => do
      if ← access.same fileId (nextLine c) (block.getD (b + 1) []) then
        exactEnd fileId left (b + 1) (nextLine c)
      else pure (b + 1, nextLine c)

/-- One line of a run that is not an exact copy. -/
def emitPadded (fileId b c : Nat) : Option Emitted := do
  let src ← access.line fileId c
  match src.bind fun src => trimPadFor src (block.getD b []) with
  | none => pure (.literal (block.getD b []))
  | some pads =>
      let printed ← emitRef access hash fileId c c (some pads)
      pure (printed.getD (.literal (block.getD b [])))

/-- The loop over a run of a normalized index. Every turn takes at least one
line, so the number of lines bounds the turns. -/
def emitNormalizedRun (fileId blockEnd : Nat) : Nat → Nat → Nat → Option (List Emitted)
  | 0, _, _ => pure []
  | turns + 1, b, c =>
      if b < blockEnd then do
        if ← access.same fileId c (block.getD b []) then
          let (b', c') ← exactEnd access block fileId (blockEnd - (b + 1)) b c
          let printed ← emitRefOr access hash block fileId c (c' - 1) b (b' - b)
          let rest ← emitNormalizedRun fileId blockEnd turns b' c'
          pure (printed ++ rest)
        else
          let printed ← emitPadded access hash block fileId b c
          let rest ← emitNormalizedRun fileId blockEnd turns (b + 1) (nextLine c)
          pure (printed :: rest)
      else pure []

/-- One run. -/
def emitRun (r : Run) : Option (List Emitted) :=
  if !access.normalized then
    emitRefOr access hash block r.fileId r.corpusBegin r.corpusEnd r.blockBegin r.length
  else
    emitNormalizedRun access hash block r.fileId r.blockEnd r.length r.blockBegin r.corpusBegin

/-- The loop over the block. Every turn moves on, so the number of lines bounds
the turns. -/
def emitLoop : Nat → Nat → List Run → Option (List Emitted)
  | 0, _, _ => pure []
  | turns + 1, pos, runs =>
      if pos < block.length then
        match runs with
        | r :: rest =>
            if r.blockBegin = pos then do
              let printed ← emitRun access hash block r
              let more ← emitLoop turns r.blockEnd rest
              pure (printed ++ more)
            else do
              let more ← emitLoop turns (pos + 1) (r :: rest)
              pure (.literal (block.getD pos []) :: more)
        | [] => do
            let more ← emitLoop turns (pos + 1) []
            pure (.literal (block.getD pos []) :: more)
      else pure []

/-- The keys of a block, as the program computes them. -/
def accessKeys : List Bytes :=
  if access.normalized then normalizeBlockKeys access.normalizer (unlines block)
  else block.map trim

/-- The callback for `factorize`. -/
def accessEqual (b fileId c : Nat) : Option Bool :=
  if access.normalized then
    (access.key fileId c).map fun key => key == some ((accessKeys access block).getD b [])
  else access.same fileId c (block.getD b [])

/-- `emit_added_corpus`. -/
def emitAddedCorpus (anchorSorter : Sorter Anchor.weight) (runSorter : Sorter Run.blockBegin)
    (minRun : Nat) : Option (List Emitted) := do
  let runs ← factorizeM (accessEqual access block) anchorSorter runSorter
    (accessKeys access block) minRun access.find
  emitLoop access hash block block.length 0 runs

end

end Phpatcher.Tools
