import Phpatcher.Theorems.Comparisons
import Phpatcher.Theorems.Factorization
import Phpatcher.Tools.Indexer

/-!
# A moved block is found whole

The scan of a tree posts every line that is long enough, under its trimmed text
and with the number `split_lines` gives it. So wherever a line of a block is
found in the index, the place the block was moved from is among the postings,
and the greedy factorization takes the block whole, as long as it compares no lines of
files that are kept inside their string objects.

File ids have 32 bits: the scan of a tree in which more files have postings
gives two files one id.
-/

namespace Phpatcher.Theorems

open Phpatcher.Basis Phpatcher.Core Phpatcher.Tools

/-! ## Trimmed lines -/

/-- Trimmed, the lines are those of `split_lines`. -/
theorem map_trim_splitWith (raw content : Bytes) :
    (splitWith id raw content).map trim =
      (splitWith (dropLastByte carriageReturn) raw content).map trim := by
  have hdrop : ∀ line, trim (dropLastByte carriageReturn line) = trim line := by
    intro line
    rw [dropLastByte]
    split
    next hlast =>
      obtain ⟨init, rfl⟩ := List.getLast?_eq_some_iff.mp hlast
      rw [List.dropLast_concat]
      exact (trimBoth_concat rfl init).symm
    next => rfl
  induction content generalizing raw with
  | nil => rfl
  | cons c content ih =>
      rw [splitWith, splitWith]
      split
      · rw [List.map_cons, List.map_cons, ih, hdrop, id]
      · exact ih _

/-! ## What the scan posts -/

/-- A key passes the length filter. -/
def Passes (opt : Options) (key : Bytes) : Prop := key ≠ [] ∧ opt.minLen ≤ key.length

instance (opt : Options) (key : Bytes) : Decidable (Passes opt key) :=
  inferInstanceAs (Decidable (_ ∧ _))

/-- The keys of a file that are posted, each with its line number; the first
line has the number `m`. -/
def postedKeys (opt : Options) (m : Nat) (keys : List Bytes) : List (Bytes × Nat) :=
  (keys.zipIdx m).filter fun e => Passes opt e.1

/-- The postings of those keys in a file. -/
def postings (opt : Options) (fileId m : Nat) (keys : List Bytes) : List (Bytes × Nat) :=
  (postedKeys opt m keys).map fun e => (e.1, pack fileId e.2)

theorem postedKeys_cons (opt : Options) (m : Nat) (key : Bytes) (keys : List Bytes) :
    postedKeys opt m (key :: keys) =
      if Passes opt key then (key, m) :: postedKeys opt (m + 1) keys
      else postedKeys opt (m + 1) keys := by
  rw [postedKeys, List.zipIdx_cons, List.filter_cons]
  by_cases h : Passes opt key <;> simp [h, postedKeys]

theorem mem_postedKeys {opt : Options} {m n : Nat} {keys : List Bytes} {key : Bytes} :
    (key, n) ∈ postedKeys opt m keys ↔ Passes opt key ∧ m ≤ n ∧ keys[n - m]? = some key := by
  simp only [postedKeys, List.mem_filter, List.mem_zipIdx_iff_le_and_getElem?_sub,
    decide_eq_true_eq]
  tauto

@[simp] theorem toU32_toU32 (n : Nat) : toU32 (toU32 n) = toU32 n := Nat.mod_mod _ _

@[simp] theorem pack_toU32 (fileId lineno : Nat) :
    pack (toU32 fileId) lineno = pack fileId lineno := by
  rw [pack, pack, toU32_toU32]

theorem pack_toU32_succ (fileId lineno : Nat) :
    pack fileId (toU32 (toU32 lineno + 1)) = pack fileId (lineno + 1) := by
  have hmod : toU32 (toU32 lineno + 1) = toU32 (lineno + 1) := Nat.mod_add_mod _ _ _
  rw [pack, pack, toU32_toU32, hmod]

/-- A line that is not posted only counts. -/
theorem line_skipped {opt : Options} {raw : Bytes} (h : ¬ Passes opt (trim raw)) (rel : Bytes)
    (s : Scan) :
    (s.line opt rel raw).idx = s.idx ∧ (s.line opt rel raw).fileId = s.fileId ∧
      (s.line opt rel raw).lineno = toU32 (s.lineno + 1) := by
  rw [Scan.line]
  simp only
  split
  · exact ⟨rfl, rfl, rfl⟩
  next hne =>
    have hshort : (trim raw).length < opt.minLen := by
      by_contra hlong
      exact h ⟨hne, by omega⟩
    rw [if_pos hshort]
    exact ⟨rfl, rfl, rfl⟩

/-- A line that is posted; the first one of a file enters the file. -/
theorem line_posted {opt : Options} {raw : Bytes} (h : Passes opt (trim raw)) (rel : Bytes)
    (s : Scan) :
    (s.line opt rel raw).idx.files = s.idx.files ++ (if s.fileId = none then [rel] else []) ∧
      (s.line opt rel raw).idx.lines = s.idx.lines.push (trim raw)
        (pack (s.fileId.getD s.idx.files.length) (toU32 (s.lineno + 1))) ∧
      (s.line opt rel raw).fileId = some (s.fileId.getD (toU32 s.idx.files.length)) ∧
      (s.line opt rel raw).lineno = toU32 (s.lineno + 1) := by
  rw [Scan.line]
  simp only [if_neg h.1, if_neg (Nat.not_lt.mpr h.2)]
  cases s.fileId with
  | none => simp [Scan.ensureId]
  | some fileId => simp [Scan.ensureId]

/-- The lines of a file: what is posted, and that the file is entered if
anything is. -/
theorem foldl_line (opt : Options) (rel : Bytes) (raws : List Bytes) (s : Scan) (m : Nat)
    (hm : s.lineno = toU32 m) :
    (raws.foldl (Scan.line opt rel) s).idx.files = s.idx.files ++
        (if s.fileId = none ∧ postedKeys opt (m + 1) (raws.map trim) ≠ [] then [rel] else []) ∧
      (raws.foldl (Scan.line opt rel) s).idx.lines = s.idx.lines.pushAll
        (postings opt (s.fileId.getD s.idx.files.length) (m + 1) (raws.map trim)) := by
  induction raws generalizing s m with
  | nil => simp [postedKeys, postings, Buckets.pushAll]
  | cons raw raws ih =>
      rw [List.foldl_cons, List.map_cons]
      by_cases h : Passes opt (trim raw)
      · obtain ⟨hfiles, hlines, hid, hlineno⟩ := line_posted h rel s
        obtain ⟨hfiles', hlines'⟩ := ih (s.line opt rel raw) (m + 1) (by
          rw [hlineno, hm]
          exact Nat.mod_add_mod _ _ _)
        rw [hfiles', hlines', hfiles, hlines, hid]
        constructor
        · simp [postedKeys_cons, h]
        · rw [postings, postings, postedKeys_cons, if_pos h, List.map_cons, Buckets.pushAll,
            Buckets.pushAll, List.foldl_cons, hm, pack_toU32_succ]
          cases s.fileId <;> simp
      · obtain ⟨hidx, hid, hlineno⟩ := line_skipped h rel s
        obtain ⟨hfiles', hlines'⟩ := ih (s.line opt rel raw) (m + 1) (by
          rw [hlineno, hm]
          exact Nat.mod_add_mod _ _ _)
        rw [hfiles', hlines', hidx, hid, postings, postings, postedKeys_cons, if_neg h]
        exact ⟨rfl, rfl⟩

/-- The keys of the lines of a file. -/
def fileKeys (content : Bytes) : List Bytes := (corpusSplitLines content).map trim

/-- The postings of a file that gets the id `fileId`. -/
def filePostings (opt : Options) (fileId : Nat) (file : Scanned) : List (Bytes × Nat) :=
  match file.content with
  | none => []
  | some content => postings opt fileId 1 (fileKeys content)

/-- The files entered by the scan of a file: itself, if it has postings. -/
def entered (opt : Options) (file : Scanned) : List Bytes :=
  if filePostings opt 0 file = [] then [] else [file.rel]

theorem scanFile_eq (opt : Options) (st : LineIndex × Counters) (file : Scanned) :
    (scanFile opt st file).1 =
      ⟨st.1.files ++ entered opt file,
        st.1.lines.pushAll (filePostings opt st.1.files.length file)⟩ := by
  rw [scanFile, entered, filePostings, filePostings]
  cases file.content with
  | none => simp [Buckets.pushAll]
  | some content =>
      obtain ⟨hfiles, hlines⟩ := foldl_line opt file.rel (splitWith id [] content)
        ⟨st.1, st.2, none, 0⟩ 0 rfl
      simp only [scan_bytes]
      rw [map_trim_splitWith] at hfiles hlines
      refine LineIndex.ext (hfiles.trans ?_) hlines
      simp [fileKeys, corpusSplitLines, postings]

/-! ## What the scan of a tree posts -/

/-- How many lines of a tree have a key. -/
def occurrences (tree : List Scanned) (key : Bytes) : Nat :=
  (tree.map fun file =>
    match file.content with
    | none => 0
    | some content => (corpusSplitLines content).countP fun line => trim line = key).sum

/-- A line survives the filters: its text is long enough and not too frequent
in the tree. -/
def SurvivesFilters (opt : Options) (tree : List Scanned) (line : Bytes) : Prop :=
  Passes opt (trim line) ∧ (opt.maxPostings = 0 ∨ occurrences tree (trim line) ≤ opt.maxPostings)

theorem files_foldl (opt : Options) (tree : List Scanned) (st : LineIndex × Counters) :
    (tree.foldl (scanFile opt) st).1.files = st.1.files ++ tree.flatMap (entered opt) := by
  induction tree generalizing st with
  | nil => simp
  | cons file tree ih => rw [List.foldl_cons, ih, scanFile_eq, List.flatMap_cons, List.append_assoc]

theorem filled_foldl (opt : Options) (tree : List Scanned) {st : LineIndex × Counters}
    (h : st.1.lines.Filled) : (tree.foldl (scanFile opt) st).1.lines.Filled := by
  refine List.foldlRecOn (motive := fun st : LineIndex × Counters => st.1.lines.Filled) tree _ h ?_
  intro st hst file _
  rw [scanFile_eq]
  exact hst.pushAll _

/-- A posting stays. -/
theorem mem_bag_foldl (opt : Options) (tree : List Scanned) {st : LineIndex × Counters}
    {key : Bytes} {p : Nat} (h : p ∈ st.1.lines.bag key) :
    p ∈ (tree.foldl (scanFile opt) st).1.lines.bag key := by
  refine List.foldlRecOn (motive := fun st : LineIndex × Counters => p ∈ st.1.lines.bag key)
    tree _ h ?_
  intro st hst file _
  rw [scanFile_eq, Buckets.bag_pushAll, Pi.add_apply, Multiset.mem_add]
  exact .inl hst

theorem card_bagOf_postings (opt : Options) (fileId m : Nat) (keys : List Bytes) (key : Bytes) :
    (Buckets.bagOf (postings opt fileId m keys) key).card =
      if Passes opt key then keys.countP fun k => k = key else 0 := by
  induction keys generalizing m with
  | nil => simp [postings, postedKeys]
  | cons k keys ih =>
      rw [postings, postedKeys_cons, List.countP_cons]
      by_cases hk : Passes opt k
      · rw [if_pos hk, List.map_cons, Buckets.bagOf_cons, Pi.add_apply, Multiset.card_add]
        have := ih (m + 1)
        rw [postings] at this
        rw [this]
        by_cases heq : k = key
        · subst heq
          simp [Buckets.bagOf, hk, Nat.add_comm]
        · simp [Buckets.bagOf, heq]
      · rw [if_neg hk]
        have := ih (m + 1)
        rw [postings] at this
        rw [this]
        by_cases heq : k = key
        · subst heq
          simp [hk]
        · simp [heq]

/-- Under a key that passes, there are as many postings as lines with that key,
and under any other none. -/
theorem card_bag_scanTree (opt : Options) (tree : List Scanned) (key : Bytes) :
    ((scanTree opt tree).1.lines.bag key).card =
      if Passes opt key then occurrences tree key else 0 := by
  rw [scanTree, measure_foldl (fun st : LineIndex × Counters => (st.1.lines.bag key).card)
    (fun file => if Passes opt key then
      match file.content with
      | none => 0
      | some content => (corpusSplitLines content).countP fun line => trim line = key
    else 0)]
  · by_cases h : Passes opt key
    · simp [h, occurrences]
    · simp [h]
  · intro st file
    rw [scanFile_eq, Buckets.bag_pushAll, Pi.add_apply, Multiset.card_add, filePostings]
    cases file.content with
    | none => simp
    | some content =>
        simp only [card_bagOf_postings]
        rw [fileKeys, List.countP_map]
        rfl

/-- A file with postings has an id under which all of them stand. -/
theorem posted_scanTree {opt : Options} {tree : List Scanned} {file : Scanned} (h : file ∈ tree)
    (hposts : filePostings opt 0 file ≠ []) :
    ∃ fileId, (scanTree opt tree).1.files[fileId]? = some file.rel ∧
      ∀ key p, (key, p) ∈ filePostings opt fileId file → p ∈ (scanTree opt tree).1.lines.bag key
    := by
  obtain ⟨before, after, rfl⟩ := List.append_of_mem h
  rw [scanTree, List.foldl_append, List.foldl_cons]
  generalize before.foldl (scanFile opt) _ = st
  refine ⟨st.1.files.length, ?_, ?_⟩
  · rw [files_foldl, scanFile_eq, entered, if_neg hposts]
    simp
  · intro key p hp
    apply mem_bag_foldl
    rw [scanFile_eq, Buckets.bag_pushAll, Pi.add_apply, Multiset.mem_add]
    exact .inr (Buckets.mem_bagOf.mpr hp)

/-! ## The tree at the time of matching -/

/-- The tree that blocks are matched against; its files have under `2 ^ 32`
lines. -/
structure SourceTree where
  root : Bytes
  readFile : Bytes → Option Bytes
  lines_lt : ∀ path content, readFile path = some content →
    (corpusSplitLines content).length < 4294967296

/-- The path of a file of the tree. -/
def SourceTree.path (tree : SourceTree) (rel : Bytes) : Bytes := tree.root ++ [slash] ++ rel

/-- `Corpus::line`, with the file list of an index. -/
def SourceTree.line (tree : SourceTree) (files : List Bytes) (fileId lineno : Nat) :
    Option Bytes :=
  match tree.readFile (tree.path (files.getD fileId [])) with
  | none => none
  | some content => if lineno = 0 then none else (corpusSplitLines content)[lineno - 1]?

/-- The equality of a byte-mode index: the corpus line is the block line. -/
def SourceTree.equal (tree : SourceTree) (files block : List Bytes) : EqualFn :=
  fun b fileId c => tree.line files fileId c == some (block.getD b [])

/-- What the corpus cache reads of the tree. -/
def SourceTree.files (tree : SourceTree) (room : Nat) (files : List Bytes) : CorpusFiles where
  room := room
  content fileId := tree.readFile (tree.path (files.getD fileId []))
  keys := none

theorem line_sourceFiles (tree : SourceTree) (room : Nat) (files : List Bytes) :
    (tree.files room files).line = tree.line files := by
  funext fileId lineno
  simp only [CorpusFiles.line, SourceTree.files, SourceTree.line]
  cases tree.readFile (tree.path (files.getD fileId [])) <;> rfl

/-- `factorize` with the keys of the byte mode and the equality through the cache. -/
def SourceTree.factorize (tree : SourceTree) (room : Nat) (opt : Options) (idx : LineIndex)
    (block : List Bytes) (anchorSorter : Sorter Anchor.weight)
    (runSorter : Sorter Run.blockBegin) (minRun : Nat) : Option (List Run) :=
  factorizeM (fun b fileId c => (tree.files room idx.files).sameLine fileId c (block.getD b []))
    anchorSorter runSorter (block.map trim) minRun (idx.published opt)

theorem counted_equal (tree : SourceTree) (files block : List Bytes) :
    Counted (tree.equal files block) := by
  intro b f c h
  simp only [SourceTree.equal, SourceTree.line, beq_iff_eq] at h
  cases hread : tree.readFile (tree.path (files.getD f [])) with
  | none =>
      simp only [hread] at h
      exact absurd h (by simp)
  | some content =>
      simp only [hread] at h
      split at h
      · simp at h
      next hc =>
        obtain ⟨hlt, _⟩ := List.getElem?_eq_some_iff.mp h
        have := tree.lines_lt _ _ hread
        omega

/-- Lines `a..b` of a text, counted from 1. -/
def linesFromTo (content : Bytes) (a b : Nat) : List Bytes :=
  ((corpusSplitLines content).drop (a - 1)).take (b + 1 - a)

theorem length_linesFromTo {content : Bytes} {a b : Nat} (ha : 1 ≤ a)
    (hb : b ≤ (corpusSplitLines content).length) :
    (linesFromTo content a b).length = b + 1 - a := by
  simp only [linesFromTo, List.length_take, List.length_drop]
  omega

/-- Line `i` of the block is line `a + i` of the text. -/
theorem getElem?_linesFromTo {content : Bytes} {a b i : Nat}
    (hi : i < (linesFromTo content a b).length) :
    (corpusSplitLines content)[a - 1 + i]? = some ((linesFromTo content a b).getD i []) := by
  have hlt : i < b + 1 - a := hi.trans_le (by simp [linesFromTo])
  rw [List.getD_eq_getElem?_getD, List.getElem?_eq_getElem hi, Option.getD_some,
    ← List.getElem?_eq_getElem hi]
  rw [linesFromTo, List.getElem?_take_of_lt hlt, List.getElem?_drop]

theorem getD_map_trim (block : List Bytes) (i : Nat) :
    (block.map trim).getD i [] = trim (block.getD i []) := by
  rw [List.getD_eq_getElem?_getD, List.getD_eq_getElem?_getD, List.getElem?_map]
  cases block[i]? <;> rfl

/-- The block occurs in the file it was taken from, under every number of that
file. -/
theorem occurs_linesFromTo {tree : SourceTree} {files : List Bytes} {rel content : Bytes}
    {fileId a b : Nat} (ha : 1 ≤ a) (hfile : files[fileId]? = some rel)
    (hunchanged : tree.readFile (tree.path rel) = some content) :
    Occurs (tree.equal files (linesFromTo content a b)) (linesFromTo content a b).length
      fileId a where
  counted := ha
  matched := by
    intro i hi
    have hget : files.getD fileId [] = rel := by
      rw [List.getD_eq_getElem?_getD, hfile]
      rfl
    rw [SourceTree.equal, SourceTree.line, hget, hunchanged, beq_iff_eq]
    simp only
    rw [if_neg (by omega), ← getElem?_linesFromTo hi, show a + i - 1 = a - 1 + i by omega]

/-! ## Found whole -/

section

variable {opt : Options} {scan : List Scanned}

/-- What is published under a key are all its postings, and only keys that pass
have any. -/
theorem mem_published {key : Bytes} {post : List Posting}
    (h : (scanTree opt scan).1.published opt key = some post) :
    Passes opt key ∧ ∀ p ∈ (scanTree opt scan).1.lines.bag key, unpack p ∈ post := by
  simp only [LineIndex.published, Option.map_eq_some_iff, Option.filter_eq_some_iff] at h
  obtain ⟨vs, ⟨hfind, _⟩, rfl⟩ := h
  constructor
  · by_contra hnot
    -- a key that does not pass has no postings, and is not in the map at all
    have hcard := card_bag_scanTree opt scan key
    rw [if_neg hnot] at hcard
    have hzero : (scanTree opt scan).1.lines.bag key = 0 := Multiset.card_eq_zero.mp hcard
    have hfilled : (scanTree opt scan).1.lines.Filled :=
      filled_foldl opt scan Buckets.Filled.empty
    rw [← Buckets.find_eq_none_iff hfilled, hfind] at hzero
    simp at hzero
  · intro p hp
    rw [← Buckets.coe_of_find hfind] at hp
    exact List.mem_map_of_mem hp

/-- The key of a line that survives is published. -/
theorem isSome_published {line : Bytes} (h : SurvivesFilters opt scan line) {p : Nat}
    (hp : p ∈ (scanTree opt scan).1.lines.bag (trim line)) :
    ((scanTree opt scan).1.published opt (trim line)).isSome := by
  obtain ⟨vs, hfind, _⟩ := Buckets.find_of_mem_bag hp
  have hlength : vs.length = occurrences scan (trim line) := by
    rw [← Multiset.coe_card, Buckets.coe_of_find hfind, card_bag_scanTree, if_pos h.1]
  have hkept : kept opt vs = true := by
    rcases h.2 with hcap | hcap
    · simp [kept, hcap]
    · simp [kept, hlength, hcap]
  simp [LineIndex.published, hfind, hkept]

/-- The postings of a scanned file hold every line whose key passes. -/
theorem mem_filePostings {rel content line : Bytes} {i fileId : Nat}
    (hline : (corpusSplitLines content)[i]? = some line) (hpasses : Passes opt (trim line)) :
    (trim line, pack fileId (i + 1)) ∈ filePostings opt fileId ⟨rel, some content⟩ := by
  refine List.mem_map.mpr ⟨(trim line, i + 1), ?_, rfl⟩
  rw [mem_postedKeys]
  refine ⟨hpasses, by omega, ?_⟩
  rw [fileKeys, List.getElem?_map, Nat.add_sub_cancel, hline]
  rfl

/-- One number of the file stands with every line of the block that is posted. -/
theorem posted_linesFromTo {rel content : Bytes} (hscanned : ⟨rel, some content⟩ ∈ scan)
    {a b : Nat} (ha : 1 ≤ a) {pos : Nat} (hpos : pos < (linesFromTo content a b).length)
    (hpasses : Passes opt (trim ((linesFromTo content a b).getD pos []))) :
    ∃ fileId, (scanTree opt scan).1.files[fileId]? = some rel ∧
      ∀ i, i < (linesFromTo content a b).length →
        Passes opt (trim ((linesFromTo content a b).getD i [])) →
        pack fileId (a + i) ∈
          (scanTree opt scan).1.lines.bag (trim ((linesFromTo content a b).getD i [])) := by
  have hposts : filePostings opt 0 ⟨rel, some content⟩ ≠ [] :=
    List.ne_nil_of_mem (mem_filePostings (getElem?_linesFromTo hpos) hpasses)
  obtain ⟨fileId, hfile, hposted⟩ := posted_scanTree hscanned hposts
  refine ⟨fileId, hfile, ?_⟩
  intro i hi hline
  apply hposted
  have := @mem_filePostings opt rel content _ _ fileId (getElem?_linesFromTo hi) hline
  rwa [show a - 1 + i + 1 = a + i by omega] at this

/-- With the lines as they are, there is one run. -/
theorem run_of_moved_block (tree : SourceTree)
    (hfiles : (scanTree opt scan).1.files.length < 4294967296) {rel content : Bytes}
    (hscanned : ⟨rel, some content⟩ ∈ scan)
    (hunchanged : tree.readFile (tree.path rel) = some content) {a b : Nat} (ha : 1 ≤ a)
    (hb : b ≤ (corpusSplitLines content).length) {minRun : Nat} (hmin : minRun ≤ b + 1 - a)
    (hsurvives : ∃ line ∈ linesFromTo content a b, SurvivesFilters opt scan line)
    (anchorSorter : Sorter Anchor.weight) (runSorter : Sorter Run.blockBegin) :
    let idx := (scanTree opt scan).1
    let block := linesFromTo content a b
    ∃ r, factorize anchorSorter runSorter (block.map trim) minRun (idx.published opt)
        (tree.equal idx.files block) = [r] ∧
      r.blockBegin = 0 ∧ r.blockEnd = block.length ∧
      ∀ k, k < block.length →
        tree.line idx.files r.fileId (r.corpusBegin + k) = some (block.getD k []) := by
  intro idx block
  have hlength : block.length = b + 1 - a := length_linesFromTo ha hb
  obtain ⟨line, hmem, hline_survives⟩ := hsurvives
  obtain ⟨pos, hpos, rfl⟩ := List.getElem_of_mem hmem
  have hgetD : block.getD pos [] = (linesFromTo content a b)[pos] := by
    rw [List.getD_eq_getElem?_getD, List.getElem?_eq_getElem hpos]
    rfl
  rw [← hgetD] at hline_survives
  obtain ⟨fileId, hfile, hbag⟩ := posted_linesFromTo hscanned ha hpos hline_survives.1
  obtain ⟨hfileId, _⟩ := List.getElem?_eq_some_iff.mp hfile
  have hlines := tree.lines_lt _ _ hunchanged
  -- an anchor has the line of the file among its postings
  have hposted : ∀ i post, i < (block.map trim).length →
      idx.published opt ((block.map trim).getD i []) = some post → ⟨fileId, a + i⟩ ∈ post := by
    intro i post hi hpost
    rw [List.length_map] at hi
    rw [getD_map_trim] at hpost
    obtain ⟨hpasses, hall⟩ := mem_published hpost
    have hp := hall _ (hbag i hi hpasses)
    rwa [unpack_pack (hfileId.trans hfiles) (by omega)] at hp
  -- and the line that survives is one
  have hanchor : ∃ i < (block.map trim).length,
      (idx.published opt ((block.map trim).getD i [])).isSome := by
    refine ⟨pos, by simpa using hpos, ?_⟩
    rw [getD_map_trim]
    exact isSome_published hline_survives (hbag pos hpos hline_survives.1)
  have hoccurs : Occurs (tree.equal idx.files block) (block.map trim).length fileId a := by
    rw [List.length_map]
    exact occurs_linesFromTo ha hfile hunchanged
  have hlong : minRun ≤ (block.map trim).length := by
    rw [List.length_map, hlength]
    exact hmin
  obtain ⟨r, hrun, hbegin, hend⟩ := factorize_whole anchorSorter runSorter
    (counted_equal tree idx.files block) hlong hoccurs hposted hanchor
  refine ⟨r, hrun, hbegin, by simpa using hend, ?_⟩
  intro k hk
  have hsound := (factorize_sound anchorSorter runSorter (block.map trim) minRun
    (idx.published opt) (counted_equal tree idx.files block)).1 r (by rw [hrun]; simp)
  have hmatched := hsound.matched k (by
    rw [Run.length, hbegin, hend, List.length_map]
    omega)
  rw [hbegin, Nat.zero_add, SourceTree.equal, beq_iff_eq] at hmatched
  exact hmatched

/-- The factorization through the cache comes to an end where it compares what is there,
and then with the runs of the lines as they are. -/
theorem factorize_sourceTree {tree : SourceTree} {room : Nat} {opt : Options} {idx : LineIndex}
    {block : List Bytes} {anchorSorter : Sorter Anchor.weight}
    {runSorter : Sorter Run.blockBegin} {minRun : Nat} {runs : List Run} :
    tree.factorize room opt idx block anchorSorter runSorter minRun = some runs ↔
      (∀ q ∈ comparisons anchorSorter runSorter (block.map trim) minRun (idx.published opt)
        (tree.equal idx.files block), Comparable (tree.files room idx.files) block q) ∧
      runs = factorize anchorSorter runSorter (block.map trim) minRun (idx.published opt)
        (tree.equal idx.files block) := by
  have hequal : tree.equal idx.files block =
      fun b fileId c => (tree.files room idx.files).line fileId c == some (block.getD b []) := by
    rw [line_sourceFiles]
    rfl
  rw [hequal, SourceTree.factorize, factorizeM_eq_some_iff answersAlike_sameLine]
  simp only [answered_sameLine]

/-- The factorization found the block whole: it gives one run, which covers the block
with equal corpus lines. -/
def FoundWhole (tree : SourceTree) (files : List Bytes) (block : List Bytes)
    (found : Option (List Run)) : Prop :=
  ∃ r, found = some [r] ∧ r.blockBegin = 0 ∧ r.blockEnd = block.length ∧
    ∀ k, k < block.length →
      tree.line files r.fileId (r.corpusBegin + k) = some (block.getD k [])

/-- **A moved block is found whole** exactly if no line of it is compared with a nonempty
line of its length in a file kept inside its string object; so it is if none of its keys
is posted in such a file. -/
theorem moved_block_found (tree : SourceTree) (room : Nat)
    (hfiles : (scanTree opt scan).1.files.length < 4294967296) {rel content : Bytes}
    (hscanned : ⟨rel, some content⟩ ∈ scan)
    (hunchanged : tree.readFile (tree.path rel) = some content) {a b : Nat} (ha : 1 ≤ a)
    (hb : b ≤ (corpusSplitLines content).length) {minRun : Nat} (hmin : minRun ≤ b + 1 - a)
    (hsurvives : ∃ line ∈ linesFromTo content a b, SurvivesFilters opt scan line)
    (anchorSorter : Sorter Anchor.weight) (runSorter : Sorter Run.blockBegin) :
    let idx := (scanTree opt scan).1
    let block := linesFromTo content a b
    let found := tree.factorize room opt idx block anchorSorter runSorter minRun
    (FoundWhole tree idx.files block found ↔
      ∀ q ∈ comparisons anchorSorter runSorter (block.map trim) minRun (idx.published opt)
        (tree.equal idx.files block), Comparable (tree.files room idx.files) block q) ∧
    ((∀ line ∈ block, ∀ post, idx.published opt (trim line) = some post → ∀ pp ∈ post,
        keptOutside (tree.files room idx.files) pp.fileId = true) →
      FoundWhole tree idx.files block found) := by
  intro idx block found
  obtain ⟨r, hrun, hwhole⟩ := run_of_moved_block tree hfiles hscanned hunchanged ha hb hmin
    hsurvives anchorSorter runSorter
  have hfound : FoundWhole tree idx.files block found ↔
      ∀ q ∈ comparisons anchorSorter runSorter (block.map trim) minRun (idx.published opt)
        (tree.equal idx.files block), Comparable (tree.files room idx.files) block q := by
    constructor
    · rintro ⟨r', hsome, _⟩
      exact (factorize_sourceTree.mp hsome).1
    · intro hall
      exact ⟨r, factorize_sourceTree.mpr ⟨hall, hrun.symm⟩, hwhole⟩
  refine ⟨hfound, fun hkept => hfound.mpr fun q hq => ?_⟩
  obtain ⟨pos, post, hpos, hpost, pp, hpp, hfollowed⟩ := mem_comparisons hq
  rw [List.length_map] at hpos
  rw [getD_map_trim] at hpost
  refine comparable_of_keptOutside (hfollowed.fileId ▸ hkept _ ?_ post hpost pp hpp)
  simp [List.getD_eq_getElem?_getD, hpos]

end

/-- Two texts of one line. -/
def commonText : Bytes := ascii "return $this->id;\n"

def rareText : Bytes := ascii "return $other->id;\n"

/-- A tree in which `y` holds the rare text and every other file the common one. -/
def sampleTree : SourceTree where
  root := ascii "src"
  readFile path := some (if path = ascii "src/y" then rareText else commonText)
  lines_lt path content h := by
    rw [← Option.some.inj h]
    split <;> decide +kernel

/-- The scan of `n` files with the common text and of `y` behind them. -/
def crowdedScan (n : Nat) : List Scanned :=
  ((List.range n).map fun i => ⟨decimal i, some commonText⟩) ++ [⟨ascii "y", some rareText⟩]

/-- Every file of the tree is longer than 15 bytes. -/
theorem keptOutside_sampleTree (files : List Bytes) (fileId : Nat) :
    keptOutside (sampleTree.files 15 files) fileId = true := by
  simp only [keptOutside, SourceTree.files, sampleTree, Option.all_some]
  split <;> decide

/-- The line of the rare text, in a tree of two files. Its file has 19 bytes, and a string
has room for 15. -/
theorem moved_block_found_rare :
    FoundWhole sampleTree (scanTree {} (crowdedScan 1)).1.files (linesFromTo rareText 1 1)
      (sampleTree.factorize 15 {} (scanTree {} (crowdedScan 1)).1 (linesFromTo rareText 1 1)
        (.stable _) (.stable _) 1) := by
  have hblock : linesFromTo rareText 1 1 = [ascii "return $other->id;"] := by decide +kernel
  have hsurvives : ∃ line ∈ linesFromTo rareText 1 1, SurvivesFilters {} (crowdedScan 1) line := by
    refine ⟨ascii "return $other->id;", by simp [hblock], by decide +kernel, .inr ?_⟩
    decide +kernel
  refine (@moved_block_found {} (crowdedScan 1) sampleTree 15 (by decide +kernel) (ascii "y")
    rareText (by simp [crowdedScan]) (by decide +kernel) 1 1 (by decide) (by decide +kernel) 1
    (by decide) hsurvives (.stable _) (.stable _)).2 ?_
  exact fun _ _ _ _ pp _ => keptOutside_sampleTree _ pp.fileId

/-! ## Too many files -/

theorem filePostings_commonText (fileId : Nat) (rel : Bytes) :
    filePostings {} fileId ⟨rel, some commonText⟩ =
      [(ascii "return $this->id;", pack fileId 1)] := by
  have hkeys : fileKeys commonText = [ascii "return $this->id;"] := by decide +kernel
  show postings {} fileId 1 (fileKeys commonText) = _
  rw [hkeys]
  rfl

theorem filePostings_rareText (fileId : Nat) (rel : Bytes) :
    filePostings {} fileId ⟨rel, some rareText⟩ =
      [(ascii "return $other->id;", pack fileId 1)] := by
  have hkeys : fileKeys rareText = [ascii "return $other->id;"] := by decide +kernel
  show postings {} fileId 1 (fileKeys rareText) = _
  rw [hkeys]
  rfl

theorem readFile_crowdedScan (n : Nat) :
    ∀ file ∈ crowdedScan n, sampleTree.readFile (sampleTree.path file.rel) = file.content := by
  intro file hfile
  rcases List.mem_append.mp hfile with hfile | hfile
  · obtain ⟨i, _, rfl⟩ := List.mem_map.mp hfile
    -- a numeral is not `y`
    have hne : sampleTree.path (decimal i) ≠ ascii "src/y" := by
      intro heq
      have hy : decimal i = ascii "y" := @List.append_cancel_left _ (ascii "src/") _ _ heq
      have hdigit := decimalLoop_digits (i + 1) i 121 (by
        show 121 ∈ decimal i
        rw [hy]
        decide)
      exact absurd hdigit (by decide)
    exact congrArg some (if_neg hne)
  · rw [List.mem_singleton.mp hfile]
    decide +kernel

/-- The files with the common text. -/
def commonFiles (n : Nat) : List Scanned :=
  (List.range n).map fun i => ⟨decimal i, some commonText⟩

theorem occurrences_commonFiles (n : Nat) :
    occurrences (commonFiles n) (ascii "return $other->id;") = 0 := by
  have hcommon : (corpusSplitLines commonText).countP
      (fun line => trim line = ascii "return $other->id;") = 0 := by decide +kernel
  rw [occurrences, commonFiles, List.map_map]
  simp [Function.comp_def, hcommon]

theorem occurrences_crowdedScan (n : Nat) :
    occurrences (crowdedScan n) (ascii "return $other->id;") = 1 := by
  have hrare : (corpusSplitLines rareText).countP
      (fun line => trim line = ascii "return $other->id;") = 1 := by decide +kernel
  have hcommon := occurrences_commonFiles n
  rw [occurrences] at hcommon
  rw [occurrences, crowdedScan, List.map_append, List.sum_append, ← commonFiles, hcommon]
  simp [hrare]

theorem files_commonFiles (n : Nat) :
    (scanTree {} (commonFiles n)).1.files = (List.range n).map decimal := by
  have hentered : ∀ i, entered {} ⟨decimal i, some commonText⟩ = [decimal i] := by
    intro i
    rw [entered, filePostings_commonText]
    rfl
  rw [scanTree, files_foldl, commonFiles, List.flatMap_map]
  simp only [hentered, List.nil_append]
  induction List.range n with
  | nil => rfl
  | cons i is ih => rw [List.flatMap_cons, ih]; rfl

/-- Where the number of the common files is 0 in 32 bits, the posting of the rare
text names the first of them. -/
theorem published_crowdedScan {n : Nat} (hn : 0 < n) (hwrap : toU32 n = 0) :
    (scanTree {} (crowdedScan n)).1.files.getD 0 [] = decimal 0 ∧
    (scanTree {} (crowdedScan n)).1.published {} (ascii "return $other->id;") = some [⟨0, 1⟩] := by
  have hscan : (scanTree {} (crowdedScan n)).1 = _ :=
    (congrArg Prod.fst (List.foldl_append (f := scanFile {}))).trans
      (scanFile_eq {} (scanTree {} (commonFiles n)) ⟨ascii "y", some rareText⟩)
  have hcard := card_bag_scanTree {} (commonFiles n) (ascii "return $other->id;")
  rw [occurrences_commonFiles, ite_self] at hcard
  rw [hscan, filePostings_rareText, files_commonFiles]
  constructor
  · obtain ⟨n, rfl⟩ := Nat.exists_eq_succ_of_ne_zero hn.ne'
    rw [List.range_succ_eq_map]
    rfl
  · -- the number of the rare file wraps around to that of the first
    have hbag : (Buckets.pushAll (scanTree {} (commonFiles n)).1.lines
        [(ascii "return $other->id;", pack ((List.range n).map decimal).length 1)]).bag
          (ascii "return $other->id;") = {1} := by
      rw [Buckets.bag_pushAll, Pi.add_apply, Multiset.card_eq_zero.mp hcard, zero_add,
        List.length_map, List.length_range, ← pack_toU32, hwrap]
      rfl
    obtain ⟨vs, hfind, hmem⟩ := Buckets.find_of_mem_bag
      (hbag ▸ Multiset.mem_singleton_self 1)
    rw [← Buckets.coe_of_find hfind, Multiset.coe_eq_singleton] at hbag
    rw [LineIndex.published, hfind, hbag]
    rfl

/-- One short file, and its scan. -/
def shortText : Bytes := ascii "return 1;\n"

def shortTree : SourceTree where
  root := ascii "src"
  readFile _ := some shortText
  lines_lt path content h := by
    rw [← Option.some.inj h]
    decide +kernel

def shortScan : List Scanned := [⟨ascii "x", some shortText⟩]

/-- **A block is lost** in a tree of more than `2 ^ 32` files: the index names
another file. And a block of a short file is lost: the comparison with its line looks at
characters that are gone. -/
theorem moved_block_lost :
    (let scan := crowdedScan 4294967296
    let idx := (scanTree {} scan).1
    let block := linesFromTo rareText 1 1
    (∀ file ∈ scan, sampleTree.readFile (sampleTree.path file.rel) = file.content) ∧
    ⟨ascii "y", some rareText⟩ ∈ scan ∧ (∃ line ∈ block, SurvivesFilters {} scan line) ∧
    sampleTree.factorize 15 {} idx block (.stable _) (.stable _) 1 = some []) ∧
    (let idx := (scanTree {} shortScan).1
    let block := linesFromTo shortText 1 1
    (∀ file ∈ shortScan, shortTree.readFile (shortTree.path file.rel) = file.content) ∧
    ⟨ascii "x", some shortText⟩ ∈ shortScan ∧ (∃ line ∈ block, SurvivesFilters {} shortScan line) ∧
    shortTree.factorize 15 {} idx block (.stable _) (.stable _) 1 = none) := by
  constructor
  · intro scan idx block
    have hblock : block = [ascii "return $other->id;"] := by decide +kernel
    obtain ⟨hfirst, hpublished⟩ :=
      published_crowdedScan (n := 4294967296) (by decide) (by decide)
    refine ⟨readFile_crowdedScan _, by simp [scan, crowdedScan], ?_, ?_⟩
    · refine ⟨ascii "return $other->id;", by simp [hblock], by decide +kernel, .inr ?_⟩
      show occurrences (crowdedScan 4294967296) _ ≤ 64
      have hkey : trim (ascii "return $other->id;") = ascii "return $other->id;" := by
        decide +kernel
      rw [hkey, occurrences_crowdedScan]
      decide
    · refine factorize_sourceTree.mpr ⟨fun q _ => comparable_of_keptOutside
        (keptOutside_sampleTree idx.files q.fileId), (factorize_unmatched _ _ ?_).symm⟩
      rw [hblock]
      intro pos post hpos hpost pp hpp
      obtain rfl : pos = 0 := by simpa using hpos
      have hkey : ([ascii "return $other->id;"].map trim).getD 0 [] =
          ascii "return $other->id;" := by decide +kernel
      rw [hkey, hpublished] at hpost
      rw [← Option.some.inj hpost] at hpp
      rw [List.mem_singleton.mp hpp, SourceTree.equal, SourceTree.line, hfirst]
      decide +kernel
  · refine ⟨by simp [shortScan, shortTree], by simp [shortScan], ?_, by decide +kernel⟩
    exact ⟨ascii "return 1;", by decide +kernel, by decide +kernel, by decide +kernel⟩

end Phpatcher.Theorems
