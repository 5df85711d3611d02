import Phpatcher.Basis.Transition
import Phpatcher.Basis.Views
import Phpatcher.Tools.CorpusAccess
import Phpatcher.Tools.Splitters

/-!
# The corpus cache, with its views

`Corpus` of `changes.cpp`, which stands in `matcher.cpp` with the same text. What it
hands out are views: the lines are views of the content and the keys views of strings
of their own. They are made in a local `Loaded`, which is then moved into the map; the
nodes of the map stay where they are, and so do the elements of a vector that is moved.

`readLine` and `sameLine` are what the program makes of such views while it writes a
block (`corpus_answers`). To look at a character that is gone is behaviour the language
leaves undefined.
-/

namespace Phpatcher.Tools

open Phpatcher.Basis Phpatcher.Core

/-- What the cache reads: the content of the file with an id, if it can be read, and the
keys of a content, if there is a normalizer. A string keeps up to `room` bytes inside
the object. -/
structure CorpusFiles where
  room : Nat
  content : Nat → Option Bytes
  keys : Option (Bytes → List Bytes)

/-- `Corpus::Loaded`. -/
structure Loaded where
  ok : Bool
  content : Str
  lines : List View := []
  keys : List Str := []
  keyViews : List View := []

/-- `split_lines`, as views of the string at `addr`. -/
def viewLines (addr : Nat) (content : Bytes) : List View :=
  (cutSpans newline (lineEnd true content) content content.length 0 0).map (View.ofSpan addr)

/-- The strings of the keys: those of `run`, each moved into the vector. -/
def CorpusFiles.storeKeys (files : CorpusFiles) (m : Memory UInt8) (bytes : Bytes) :
    List Str × Memory UInt8 :=
  match files.keys with
  | none => ([], m)
  | some run =>
      let (norm, m) := Str.storeAll m (run bytes)
      Str.passAll (fun m s => s.move files.room m) m norm

/-- The `Loaded` that `get` builds and moves into the map. -/
def CorpusFiles.load (files : CorpusFiles) (fileId : Nat) (m : Memory UInt8) :
    Loaded × Memory UInt8 :=
  match files.content fileId with
  | none =>
      let (content, m) := Str.store m []
      let (content, m) := content.move files.room m
      ({ ok := false, content }, m)
  | some bytes =>
      let (content, m) := Str.store m bytes
      let lines := viewLines content.addr bytes
      let (keys, m) := files.storeKeys m bytes
      let keyViews := keys.map Str.view
      -- into the node of the map
      let (content, m) := content.move files.room m
      ({ ok := true, content, lines, keys, keyViews }, m)

/-- Which of the two lookups. -/
inductive Part where
  | line
  | key
  deriving DecidableEq, Repr

/-- A lookup, and the view it returned; `none` is `nullptr`. -/
structure Lookup where
  part : Part
  fileId : Nat
  lineno : Nat
  view : Option View

/-- The cache, memory, and all lookups so far. -/
structure CorpusCache where
  cache : List (Nat × Loaded) := []
  memory : Memory UInt8 := Memory.empty
  handed : List Lookup := []

/-- `Corpus::get`. -/
def CorpusCache.get (files : CorpusFiles) (s : CorpusCache) (fileId : Nat) :
    Loaded × CorpusCache :=
  match s.cache.lookup fileId with
  | some lf => (lf, s)
  | none =>
      let (lf, memory) := files.load fileId s.memory
      (lf, { s with cache := (fileId, lf) :: s.cache, memory })

/-- The views of one of the two lookups. -/
def Loaded.views (lf : Loaded) : Part → List View
  | .line => lf.lines
  | .key => lf.keyViews

/-- What `Corpus::line` and `Corpus::key` return of a file. -/
def Loaded.find (lf : Loaded) (part : Part) (lineno : Nat) : Option View :=
  if lf.ok = false ∨ lineno = 0 ∨ lineno > (lf.views part).length then none
  else (lf.views part)[lineno - 1]?

/-- `Corpus::line` and `Corpus::key`. -/
def CorpusCache.find (files : CorpusFiles) (s : CorpusCache) (part : Part)
    (fileId lineno : Nat) : CorpusCache :=
  let (lf, s) := s.get files fileId
  { s with handed := ⟨part, fileId, lineno, lf.find part lineno⟩ :: s.handed }

/-- The runs of lookups, in any order. -/
def corpusLookups (files : CorpusFiles) : Transition CorpusCache (Part × Nat × Nat) where
  start s := s = {}
  step s e s' := s' = s.find files e.1 e.2.1 e.2.2

/-! ## What the program gets to see -/

/-- The characters of what a lookup returned. -/
def readView (m : Memory UInt8) : Option View → Option (Option Bytes)
  | none => some none
  | some v => (v.read m).map some

/-- Whether it returned a view of these characters. -/
def sameView (m : Memory UInt8) (text : Bytes) : Option View → Option Bool
  | none => some false
  | some v => v.sameAs m text

section

variable (files : CorpusFiles)

/-- Line `lineno` of a file. -/
def CorpusFiles.line (fileId lineno : Nat) : Option Bytes :=
  (files.content fileId).bind fun content =>
    if lineno = 0 then none else (corpusSplitLines content)[lineno - 1]?

/-- The content of the file, if it can be read, is not kept inside its string object. -/
def keptOutside (fileId : Nat) : Bool :=
  (files.content fileId).all fun content => files.room < content.length

/-- `Corpus::line`, and the characters of the line: they are still there if there are
none, or if they were not kept inside a string object that was moved. -/
def CorpusFiles.readLine (fileId lineno : Nat) : Option (Option Bytes) :=
  match files.line fileId lineno with
  | none => some none
  | some line => if line = [] ∨ keptOutside files fileId = true then some (some line) else none

/-- Whether `Corpus::line` returns a line that equals `text`: two views of different
lengths differ, and only then are characters looked at. -/
def CorpusFiles.sameLine (fileId lineno : Nat) (text : Bytes) : Option Bool :=
  match files.line fileId lineno with
  | none => some false
  | some line =>
      if line.length ≠ text.length then some false
      else if line = [] ∨ keptOutside files fileId = true then some (line == text)
      else none

/-- The characters of this line, if there are any, are still there. -/
def CorpusFiles.Readable (fileId lineno : Nat) : Prop :=
  ∀ line, files.line fileId lineno = some line → line = [] ∨ keptOutside files fileId = true

variable {files} {fileId lineno : Nat} {text : Bytes}

theorem readLine_eq_some {found : Option Bytes} (h : files.readLine fileId lineno = some found) :
    files.line fileId lineno = found ∧ files.Readable fileId lineno := by
  unfold CorpusFiles.readLine at h
  cases hline : files.line fileId lineno with
  | none =>
      rw [hline] at h
      exact ⟨Option.some.inj h, fun _ hnone => by rw [hline] at hnone; cases hnone⟩
  | some line =>
      simp only [hline] at h
      split at h
      next hthere =>
        refine ⟨Option.some.inj h, fun line' hline' => ?_⟩
        rw [hline] at hline'
        rwa [← Option.some.inj hline']
      next => cases h

/-- A line that is readable is read. -/
theorem CorpusFiles.Readable.readLine (h : files.Readable fileId lineno) :
    files.readLine fileId lineno = some (files.line fileId lineno) := by
  unfold CorpusFiles.readLine
  cases hline : files.line fileId lineno with
  | none => rfl
  | some line => exact if_pos (h line hline)

theorem sameLine_eq_some {same : Bool} (h : files.sameLine fileId lineno text = some same) :
    same = (files.line fileId lineno == some text) := by
  unfold CorpusFiles.sameLine at h
  cases hline : files.line fileId lineno with
  | none =>
      rw [hline] at h
      exact (Option.some.inj h).symm
  | some line =>
      simp only [hline] at h
      split at h
      next hlength =>
        have hne : line ≠ text := fun heq => hlength (congrArg List.length heq)
        rw [← Option.some.inj h]
        simp [hne]
      next =>
        split at h
        · rw [← Option.some.inj h]
          rfl
        · cases h

/-- The comparison is defined where no character is looked at that is gone. -/
theorem isSome_sameLine : (files.sameLine fileId lineno text).isSome ↔
    ∀ line, files.line fileId lineno = some line → line.length = text.length →
      line = [] ∨ keptOutside files fileId = true := by
  unfold CorpusFiles.sameLine
  cases files.line fileId lineno with
  | none => simp
  | some line =>
      by_cases hlength : line.length = text.length
      · by_cases hthere : line = [] ∨ keptOutside files fileId = true
        · simp [hlength, hthere]
        · simp [hlength, hthere]
      · simp [hlength]

theorem CorpusFiles.Readable.sameLine (h : files.Readable fileId lineno) (text : Bytes) :
    files.sameLine fileId lineno text = some (files.line fileId lineno == some text) := by
  obtain ⟨same, hsame⟩ := Option.isSome_iff_exists.mp
    ((@isSome_sameLine files fileId lineno text).mpr fun line hline _ => h line hline)
  rw [hsame, sameLine_eq_some hsame]

/-- A line that is found equal was looked at. -/
theorem readable_of_sameLine (h : files.sameLine fileId lineno text = some true) :
    files.line fileId lineno = some text ∧ files.Readable fileId lineno := by
  have hline : files.line fileId lineno = some text := eq_of_beq (sameLine_eq_some h).symm
  refine ⟨hline, fun line hline' => ?_⟩
  obtain rfl : line = text := Option.some.inj (hline'.symm.trans hline)
  exact isSome_sameLine.mp (by rw [h]; rfl) line hline rfl

end

/-- What the generator reads, with an index and a corpus. -/
def changesFiles (room : Nat) (corpus : Corpus) (idx : Index) : CorpusFiles where
  room := room
  content fileId := corpus.readFile (corpus.path idx fileId)
  keys := if idx.normalized then some corpus.normalizer.run else none

theorem line_changesFiles (room : Nat) (corpus : Corpus) (idx : Index) :
    (changesFiles room corpus idx).line = corpus.line idx := by
  funext fileId lineno
  simp only [CorpusFiles.line, changesFiles, Corpus.line]
  cases corpus.readFile (corpus.path idx fileId) <;> rfl

/-- What the generator asks its index and its corpus cache. -/
def viewAccess (room : Nat) (corpus : Corpus) (idx : Index) : CorpusAccess where
  normalized := idx.normalized
  normalizer := corpus.normalizer
  find := idx.find
  file fileId := some (idx.file fileId)
  line := (changesFiles room corpus idx).readLine
  same := (changesFiles room corpus idx).sameLine
  key fileId lineno := some (corpus.key idx fileId lineno)

end Phpatcher.Tools
