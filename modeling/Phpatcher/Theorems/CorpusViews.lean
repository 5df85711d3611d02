import Phpatcher.Tools.Matcher
import Phpatcher.Tools.SplitViews

/-!
# What the views of the corpus cache read

A view that was handed out goes on reading what it read, whatever is looked up later. A
key view reads its key. But a content that is kept inside its string object is left
behind when the `Loaded` is moved into the map, and with it every view of its lines: a
line view reads its line exactly if the line is empty or the file too long for that.
-/

namespace Phpatcher.Theorems

open Phpatcher.Basis Phpatcher.Core Phpatcher.Tools

/-! ## One file -/

/-- The keys of a content. -/
def keysOf (files : CorpusFiles) (content : Bytes) : List Bytes :=
  match files.keys with
  | none => []
  | some run => run content

/-- What the views of a content read: nothing, where the characters are gone. -/
def reads (files : CorpusFiles) : Part → Bytes → List (Option Bytes)
  | .line, content =>
      (corpusSplitLines content).map fun text =>
        if text = [] ∨ files.room < content.length then some text else none
  | .key, content => (keysOf files content).map some

theorem viewLines_addr {addr : Nat} {content : Bytes} :
    ∀ v ∈ viewLines addr content, v.addr = addr := by
  intro v hv
  obtain ⟨span, _, rfl⟩ := List.mem_map.mp hv
  rfl

/-- The views read the lines that the splitter cuts. -/
theorem viewLines_reads {m : Memory UInt8} {addr : Nat} {content : Bytes}
    (hcells : m.cells addr = some content) :
    (viewLines addr content).map (View.read m) = (corpusSplitLines content).map some := by
  rw [viewLines, read_spans hcells fun start i hstart => start_le_lineEnd true content hstart]
  exact congrArg (List.map some) ((splitLoop_spans true content).symm.trans
    (changesSplitLoop_eq content))

/-- They are as long as the lines, whatever becomes of the characters. -/
theorem viewLines_len {addr : Nat} {content : Bytes} :
    (viewLines addr content).map View.len = (corpusSplitLines content).map List.length := by
  -- the lengths are the same wherever the content is
  have hreads := viewLines_reads (Memory.put_cells_next Memory.empty content)
  have hall := readAll_of_map hreads fun v hv => by
    rw [viewLines_addr v hv]
    exact Nat.lt_succ_self _
  have hsame : (viewLines addr content).map View.len =
      (viewLines (Memory.empty : Memory UInt8).next content).map View.len := by
    rw [viewLines, viewLines, List.map_map, List.map_map]
    rfl
  rw [hsame, hall.map_len]

/-- The `Loaded` of a file: its views are of places in use, and read what they should. -/
structure Sound (files : CorpusFiles) (fileId : Nat) (m : Memory UInt8) (lf : Loaded) : Prop where
  ok : lf.ok = (files.content fileId).isSome
  below : ∀ part, ∀ v ∈ lf.views part, v.addr < m.next
  reads : ∀ content, files.content fileId = some content → ∀ part,
    (lf.views part).map (View.read m) = reads files part content
  lengths : ∀ content, files.content fileId = some content →
    lf.lines.map View.len = (corpusSplitLines content).map List.length

variable {files : CorpusFiles} {fileId : Nat} {m m' : Memory UInt8} {lf : Loaded}

theorem Sound.of_leaves (h : Sound files fileId m lf) (hleaves : m.Leaves m' ∅) :
    Sound files fileId m' lf where
  ok := h.ok
  below part v hv := Nat.lt_of_lt_of_le (h.below part v hv) hleaves.grows
  reads content hcontent part := by
    rw [← h.reads content hcontent part]
    exact List.map_congr_left fun v hv =>
      View.read_of_leaves hleaves (h.below part v hv) (Set.notMem_empty _)
  lengths := h.lengths

/-- The keys are stored and moved, and nothing else is touched. -/
theorem storeKeys_holds (files : CorpusFiles) (m : Memory UInt8) (bytes : Bytes) :
    m.Leaves (files.storeKeys m bytes).2 ∅ ∧
      List.Forall₂ (Str.Holds (files.storeKeys m bytes).2) (files.storeKeys m bytes).1
        (keysOf files bytes) ∧
      ∀ s ∈ (files.storeKeys m bytes).1, m.next ≤ s.addr := by
  unfold CorpusFiles.storeKeys keysOf
  cases files.keys with
  | none => exact ⟨Memory.Leaves.refl _ _, .nil, by simp⟩
  | some run =>
      have hmoved := Str.storeAll_pass (Str.move_passes files.room) m (run bytes)
      rwa [List.map_id] at hmoved

/-- The views of a content whose string is moved: those of a short one are left behind. -/
theorem moved_lines {s : Str} {content : Bytes} (h : Str.Holds m s content) :
    (viewLines s.addr content).map (View.read (s.move files.room m).2) =
      reads files .line content := by
  have hbefore := viewLines_reads h.cells
  have hafter : ∀ v ∈ viewLines s.addr content, v.read (s.move files.room m).2 =
      (v.read m).bind fun text =>
        if text = [] ∨ files.room < content.length then some text else none := by
    intro v hv
    obtain ⟨text, htext⟩ : ∃ text, v.read m = some text := by
      have hmem : v.read m ∈ (corpusSplitLines content).map some := by
        rw [← hbefore]
        exact List.mem_map_of_mem hv
      obtain ⟨text, _, heq⟩ := List.mem_map.mp hmem
      exact ⟨text, heq.symm⟩
    have hlen : text = [] ↔ v.len = 0 := by
      rw [← View.length_of_read htext, List.length_eq_zero_iff]
    rw [h.read_move (viewLines_addr v hv), htext, Option.bind_some]
    simp only [hlen]
  rw [List.map_congr_left hafter, reads]
  calc (viewLines s.addr content).map (fun v => (v.read m).bind fun text =>
        if text = [] ∨ files.room < content.length then some text else none)
      = ((viewLines s.addr content).map (View.read m)).map fun read => read.bind fun text =>
          if text = [] ∨ files.room < content.length then some text else none := by
        rw [List.map_map]
        rfl
    _ = (corpusSplitLines content).map fun text =>
          if text = [] ∨ files.room < content.length then some text else none := by
        rw [hbefore, List.map_map]
        rfl

/-- What `get` moves into the map. -/
theorem load_sound (files : CorpusFiles) (fileId : Nat) (m : Memory UInt8) :
    m.Leaves (files.load fileId m).2 ∅ ∧
      Sound files fileId (files.load fileId m).2 (files.load fileId m).1 := by
  cases hcontent : files.content fileId with
  | none =>
      have hleaves := (Str.store_pass (Str.move_passes files.room) m []).1
      rw [CorpusFiles.load, hcontent]
      refine ⟨hleaves, by rw [hcontent]; rfl, fun part v hv => ?_, fun content h => ?_,
        fun content h => ?_⟩
      · cases part <;> simp [Loaded.views] at hv
      · rw [hcontent] at h
        cases h
      · rw [hcontent] at h
        cases h
  | some bytes =>
      have htext := Str.holds_store m bytes
      obtain ⟨hleaves, hkeys, habove⟩ := storeKeys_holds files (Str.store m bytes).2 bytes
      simp only [CorpusFiles.load, hcontent, Str.store] at htext hleaves hkeys habove ⊢
      rcases hstored : files.storeKeys (m.put bytes) bytes with ⟨keys, m₁⟩
      rw [hstored] at hleaves hkeys habove
      -- the content is still where it was put, and is moved now
      have hkept := htext.of_leaves hleaves (Set.notMem_empty _)
      have hmove := Str.leaves_move files.room m₁ ⟨m.next, bytes.length⟩
      have hviews := (readAll_views hkeys).map_read
      have hlt := Str.lt_next_of_holds hkeys
      refine ⟨?_, by rw [hcontent]; rfl, fun part v hv => ?_, fun content h part => ?_,
        fun content h => ?_⟩
      · refine ((m.leaves_put bytes).trans hleaves (by simp)).trans hmove ?_
        rintro a rfl
        exact .inr (Nat.le_refl _)
      · refine Nat.lt_of_lt_of_le ?_ hmove.grows
        cases part with
        | line =>
            rw [viewLines_addr v hv]
            exact hkept.lt_next
        | key =>
            obtain ⟨s, hs, rfl⟩ := List.mem_map.mp hv
            exact hlt s hs
      · rw [hcontent] at h
        obtain rfl := Option.some.inj h
        cases part with
        | line => exact moved_lines hkept
        | key =>
            rw [reads, ← hviews]
            refine List.map_congr_left fun v hv => ?_
            obtain ⟨s, hs, rfl⟩ := List.mem_map.mp hv
            refine View.read_of_leaves hmove (hlt s hs) fun hmem => ?_
            have hne := habove s hs
            have heq : s.addr = m.next := hmem
            simp only [Memory.put_next] at hne
            omega
      · rw [hcontent] at h
        obtain rfl := Option.some.inj h
        exact viewLines_len

/-! ## Runs of lookups -/

/-- What the view of a lookup reads; `none` for a lookup that finds nothing. -/
def expected (files : CorpusFiles) (part : Part) (fileId lineno : Nat) : Option (Option Bytes) :=
  (files.content fileId).bind fun content =>
    if lineno = 0 then none else (reads files part content)[lineno - 1]?

/-- Every `Loaded` is sound, and every view that was handed out reads what it should. -/
structure SoundCache (files : CorpusFiles) (s : CorpusCache) : Prop where
  cache : ∀ fileId lf, s.cache.lookup fileId = some lf → Sound files fileId s.memory lf
  handed : ∀ l ∈ s.handed, l.view.map (View.read s.memory) =
    expected files l.part l.fileId l.lineno
  below : ∀ l ∈ s.handed, ∀ v, l.view = some v → v.addr < s.memory.next
  lengths : ∀ l ∈ s.handed, l.part = .line →
    l.view.map View.len = (files.line l.fileId l.lineno).map List.length

/-- Memory in use stays as it is. -/
theorem SoundCache.of_leaves {s : CorpusCache} (h : SoundCache files s)
    (hleaves : s.memory.Leaves m' ∅) : SoundCache files { s with memory := m' } where
  cache fileId lf hlookup := (h.cache fileId lf hlookup).of_leaves hleaves
  handed l hl := by
    rw [← h.handed l hl]
    cases hview : l.view with
    | none => rfl
    | some v =>
        exact congrArg some
          (View.read_of_leaves hleaves (h.below l hl v hview) (Set.notMem_empty _))
  below l hl v hview := Nat.lt_of_lt_of_le (h.below l hl v hview) hleaves.grows
  lengths := h.lengths

/-- `get` gives the `Loaded` of the file, and leaves what was handed out. -/
theorem SoundCache.get {s : CorpusCache} (h : SoundCache files s) (fileId : Nat) :
    SoundCache files (s.get files fileId).2 ∧
      Sound files fileId (s.get files fileId).2.memory (s.get files fileId).1 := by
  unfold CorpusCache.get
  cases hlookup : s.cache.lookup fileId with
  | some lf => exact ⟨h, h.cache fileId lf hlookup⟩
  | none =>
      obtain ⟨hleaves, hsound⟩ := load_sound files fileId s.memory
      obtain ⟨hcache, hhanded, hbelow, hlengths⟩ := h.of_leaves hleaves
      refine ⟨⟨fun id lf hid => ?_, hhanded, hbelow, hlengths⟩, hsound⟩
      simp only [List.lookup_cons] at hid
      split at hid
      next hkey =>
        obtain rfl := eq_of_beq hkey
        rw [← Option.some.inj hid]
        exact hsound
      next => exact hcache id lf hid

theorem mem_of_find {part : Part} {lineno : Nat} {v : View}
    (h : lf.find part lineno = some v) : v ∈ lf.views part := by
  unfold Loaded.find at h
  split at h
  · cases h
  · exact List.mem_of_getElem? h

theorem Sound.find_eq (h : Sound files fileId m lf) (part : Part) (lineno : Nat) :
    lf.find part lineno = (files.content fileId).bind fun _ =>
      if lineno = 0 then none else (lf.views part)[lineno - 1]? := by
  unfold Loaded.find
  have hok := h.ok
  cases hcontent : files.content fileId with
  | none =>
      rw [hcontent] at hok
      rw [if_pos (.inl hok), Option.bind_none]
  | some content =>
      rw [hcontent] at hok
      rw [Option.bind_some]
      by_cases hzero : lineno = 0
      · rw [if_pos (.inr (.inl hzero)), if_pos hzero]
      · by_cases hlength : lineno > (lf.views part).length
        · rw [if_pos (.inr (.inr hlength)), if_neg hzero, List.getElem?_eq_none (by omega)]
        · rw [if_neg (by simp [hok, hzero, hlength]), if_neg hzero]

/-- The view of a lookup reads what is expected. -/
theorem Sound.lookup (h : Sound files fileId m lf) (part : Part) (lineno : Nat) :
    (lf.find part lineno).map (View.read m) = expected files part fileId lineno := by
  rw [h.find_eq, expected]
  cases hcontent : files.content fileId with
  | none => rfl
  | some content =>
      simp only [Option.bind_some, ← h.reads content hcontent part, List.getElem?_map]
      split <;> rfl

/-- And a line has its length. -/
theorem Sound.lookup_len (h : Sound files fileId m lf) (lineno : Nat) :
    (lf.find .line lineno).map View.len = (files.line fileId lineno).map List.length := by
  rw [h.find_eq, CorpusFiles.line]
  cases hcontent : files.content fileId with
  | none => rfl
  | some content =>
      simp only [Option.bind_some, Loaded.views]
      split
      · rfl
      · rw [← List.getElem?_map, h.lengths content hcontent, List.getElem?_map]

theorem SoundCache.find {s : CorpusCache} (h : SoundCache files s) (part : Part)
    (fileId lineno : Nat) : SoundCache files (s.find files part fileId lineno) := by
  obtain ⟨⟨hcache, hhanded, hbelow, hlengths⟩, hsound⟩ := h.get fileId
  refine ⟨hcache, List.forall_mem_cons.mpr ⟨hsound.lookup part lineno, hhanded⟩,
    List.forall_mem_cons.mpr ⟨fun v hv => ?_, hbelow⟩,
    List.forall_mem_cons.mpr ⟨fun hline => ?_, hlengths⟩⟩
  · exact hsound.below part v (mem_of_find hv)
  · simp only at hline
    rw [hline]
    exact hsound.lookup_len lineno

theorem soundCache_invariant (files : CorpusFiles) :
    (corpusLookups files).Invariant (SoundCache files) := by
  apply Transition.Inductive.invariant
  constructor
  · rintro _ rfl
    exact ⟨fun _ _ h => by simp at h, fun _ h => by simp at h, fun _ h => by simp at h,
      fun _ h => by simp at h⟩
  · rintro s ⟨part, fileId, lineno⟩ _ hs rfl
    exact hs.find part fileId lineno

/-! ## The generator and the matcher -/

theorem expected_line (files : CorpusFiles) (fileId lineno : Nat) :
    expected files .line fileId lineno = (files.line fileId lineno).map fun text =>
      if text = [] ∨ keptOutside files fileId = true then some text else none := by
  unfold expected keptOutside CorpusFiles.line
  cases files.content fileId with
  | none => rfl
  | some content =>
      simp only [Option.bind_some, Option.all_some, decide_eq_true_eq, reads, List.getElem?_map]
      split <;> rfl

theorem expected_key {files : CorpusFiles} {run : Bytes → List Bytes} (h : files.keys = some run)
    (fileId lineno : Nat) :
    expected files .key fileId lineno =
      ((files.content fileId).bind fun content =>
        if lineno = 0 then none else (run content)[lineno - 1]?).map some := by
  unfold expected
  cases files.content fileId with
  | none => rfl
  | some content =>
      simp only [Option.bind_some, reads, keysOf, h, List.getElem?_map]
      by_cases hzero : lineno = 0
      · rw [if_pos hzero, if_pos hzero]
        rfl
      · rw [if_neg hzero, if_neg hzero]

/-- **What the generator reads through its corpus cache.** Whatever was looked up before
and after, a view of a key reads the key, and a view of a line reads the line exactly if
it is empty or the file too long to be kept inside a string object. -/
theorem corpus_views (room : Nat) (corpus : Corpus) (idx : Index) :
    (corpusLookups (changesFiles room corpus idx)).Invariant fun s => ∀ l ∈ s.handed,
      match l.part with
      | .line => l.view.map (View.read s.memory) =
          (corpus.line idx l.fileId l.lineno).map fun text =>
            if text = [] ∨ keptOutside (changesFiles room corpus idx) l.fileId = true then some text
            else none
      | .key => idx.normalized = true →
          l.view.map (View.read s.memory) = (corpus.key idx l.fileId l.lineno).map some := by
  intro s hs l hl
  have hreads := (soundCache_invariant _ s hs).handed l hl
  cases hpart : l.part with
  | line =>
      simp only
      rw [hreads, hpart, expected_line, line_changesFiles]
  | key =>
      simp only
      intro hnormalized
      have hkeys : (changesFiles room corpus idx).keys = some corpus.normalizer.run :=
        if_pos hnormalized
      rw [hreads, hpart, expected_key hkeys, Corpus.key]
      cases hfile : corpus.readFile (corpus.path idx l.fileId) <;> simp [changesFiles, hfile]

section

variable {s : CorpusCache} {l : Lookup}

/-- What the program reads through the view of a line. -/
theorem SoundCache.readView (h : SoundCache files s) (hl : l ∈ s.handed) (hpart : l.part = .line) :
    Tools.readView s.memory l.view = files.readLine l.fileId l.lineno := by
  have hreads := h.handed l hl
  rw [hpart, expected_line] at hreads
  unfold CorpusFiles.readLine
  cases hline : files.line l.fileId l.lineno with
  | none =>
      rw [hline, Option.map_none, Option.map_eq_none_iff] at hreads
      rw [hreads]
      rfl
  | some text =>
      rw [hline, Option.map_some, Option.map_eq_some_iff] at hreads
      obtain ⟨v, hview, hread⟩ := hreads
      rw [hview, Tools.readView, hread]
      simp only
      split <;> rfl

/-- And what a comparison with it gives: it looks at the characters only where the
lengths are the same. -/
theorem SoundCache.sameView (h : SoundCache files s) (hl : l ∈ s.handed) (hpart : l.part = .line)
    (text : Bytes) :
    Tools.sameView s.memory text l.view = files.sameLine l.fileId l.lineno text := by
  have hreads := h.handed l hl
  have hlengths := h.lengths l hl hpart
  rw [hpart, expected_line] at hreads
  unfold CorpusFiles.sameLine
  cases hline : files.line l.fileId l.lineno with
  | none =>
      rw [hline, Option.map_none, Option.map_eq_none_iff] at hreads
      rw [hreads]
      rfl
  | some line =>
      rw [hline, Option.map_some, Option.map_eq_some_iff] at hreads
      obtain ⟨v, hview, hread⟩ := hreads
      rw [hline, hview, Option.map_some, Option.map_some, Option.some.injEq] at hlengths
      rw [hview, Tools.sameView, View.sameAs, hlengths, hread]
      simp only
      split
      · rfl
      · split <;> rfl

/-- A view of a key is always there. -/
theorem SoundCache.readKey (h : SoundCache files s) (hl : l ∈ s.handed) (hpart : l.part = .key)
    {run : Bytes → List Bytes} (hkeys : files.keys = some run) :
    Tools.readView s.memory l.view = some ((files.content l.fileId).bind fun content =>
      if l.lineno = 0 then none else (run content)[l.lineno - 1]?) := by
  have hreads := h.handed l hl
  rw [hpart, expected_key hkeys] at hreads
  generalize (files.content l.fileId).bind _ = key at hreads ⊢
  cases key with
  | none =>
      rw [Option.map_none, Option.map_eq_none_iff] at hreads
      rw [hreads]
      rfl
  | some key =>
      rw [Option.map_some, Option.map_eq_some_iff] at hreads
      obtain ⟨v, hview, hread⟩ := hreads
      rw [hview, Tools.readView, hread]
      rfl

end

/-- What a program gets to see through the views of the lookups of a run are the answers
of this access. -/
def Answers (access : CorpusAccess) (s : CorpusCache) : Prop :=
  ∀ l ∈ s.handed,
    match l.part with
    | .line => readView s.memory l.view = access.line l.fileId l.lineno ∧
        ∀ text, sameView s.memory text l.view = access.same l.fileId l.lineno text
    | .key => access.normalized = true →
        readView s.memory l.view = access.key l.fileId l.lineno

/-- The generator's loops run with the answers its views give. -/
theorem corpus_answers (room : Nat) (corpus : Corpus) (idx : Index) :
    (corpusLookups (changesFiles room corpus idx)).Invariant
      (Answers (viewAccess room corpus idx)) := by
  intro s hs l hl
  have hsound := soundCache_invariant _ s hs
  cases hpart : l.part with
  | line => exact ⟨hsound.readView hl hpart, hsound.sameView hl hpart⟩
  | key =>
      simp only
      intro hnormalized
      rw [hsound.readKey hl hpart (if_pos hnormalized)]
      simp only [viewAccess, Corpus.key, changesFiles]
      cases corpus.readFile (corpus.path idx l.fileId) <;> rfl

/-- So do those of the matcher, which has the same cache. -/
theorem matcher_answers (room : Nat) (corpus : MatcherCorpus) (idx : Index) :
    (corpusLookups (matcherFiles room corpus idx)).Invariant
      (Answers (matcherAccess room corpus idx)) := by
  intro s hs l hl
  have hsound := soundCache_invariant _ s hs
  cases hpart : l.part with
  | line => exact ⟨hsound.readView hl hpart, hsound.sameView hl hpart⟩
  | key =>
      simp only
      intro hnormalized
      rw [hsound.readKey hl hpart (if_pos hnormalized)]
      simp only [matcherAccess, MatcherCorpus.key, matcherFiles]
      cases corpus.readFile (corpus.path idx l.fileId) <;> rfl

/-- With room for 15 bytes, the line of a file of three bytes is gone. -/
example :
    let s := ({} : CorpusCache).find ⟨15, fun _ => some (ascii "ab\n"), none⟩ .line 0 1
    s.handed.map (fun l => l.view.map (View.read s.memory)) = [some none] := by decide

end Phpatcher.Theorems
