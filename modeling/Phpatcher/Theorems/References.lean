import Phpatcher.Glue.Resolver
import Phpatcher.Tools.CorpusCache

/-!
# What a printed reference comes back as

The generator computes a range and a guard from its own reading of a corpus
file; the resolver reads the file again, splits it with its own code and
checks both. On the same tree the two agree (`emitRef_expands`).
-/

namespace Phpatcher.Theorems

open Phpatcher.Basis Phpatcher.Core Phpatcher.Glue Phpatcher.Tools

/-- What the reader makes of a printed line: a reference line goes through
`parse_ed_input_piece`, a literal one stands for itself. -/
def pieceOf : Emitted → EdPiece
  | .literal line => .literal line
  | .ref line => parseEdInputPiece line

/-- The printed lines expand to `out`: every reference among them is read as
one and resolves, and the lines built from all of them are `out`, whatever the
resolver has cached. -/
structure Expands (baseDir : Bytes) (disk : Disk) (items : List Emitted) (out : List Bytes) :
    Prop where
  accepted : ∀ line, Emitted.ref line ∈ items → ∃ ref lines,
    parseRDirective line = some ref ∧ resolveRef baseDir disk ref = .ok lines
  builds : ∀ cache : RefCache, cache.Agrees disk → ∃ cache' : RefCache, cache'.Agrees disk ∧
    (buildInput (some (phpatcherMakeResolver baseDir disk)) (items.map pieceOf)).Yields
      cache out cache'

/-- The disk has the tree of the corpus under the base directory. -/
def SameTree (corpus : Corpus) (baseDir : Bytes) (disk : Disk) : Prop :=
  ∀ path, disk (baseDir ++ [slash] ++ path) = corpus.readFile (corpus.root ++ [slash] ++ path)

section

variable {baseDir : Bytes} {disk : Disk}

theorem Expands.nil : Expands baseDir disk [] [] where
  accepted := by simp
  builds cache hcache := ⟨cache, hcache, by simp [buildInput]⟩

theorem Expands.literal (line : Bytes) : Expands baseDir disk [.literal line] [line] where
  accepted := by simp
  builds cache hcache := ⟨cache, hcache, by simp [buildInput, pieceOf]⟩

/-- Printed one after the other, lines expand one after the other. -/
theorem Expands.append {a b : List Emitted} {x y : List Bytes} (ha : Expands baseDir disk a x)
    (hb : Expands baseDir disk b y) : Expands baseDir disk (a ++ b) (x ++ y) := by
  refine ⟨fun line hline => (List.mem_append.mp hline).elim (ha.accepted line) (hb.accepted line),
    fun cache hcache => ?_⟩
  obtain ⟨cache₁, hcache₁, hx⟩ := ha.builds cache hcache
  obtain ⟨cache₂, hcache₂, hy⟩ := hb.builds cache₁ hcache₁
  refine ⟨cache₂, hcache₂, ?_⟩
  rw [List.map_append]
  exact buildInput_append hx hy

theorem Expands.literals (lines : List Bytes) :
    Expands baseDir disk (lines.map .literal) lines := by
  induction lines with
  | nil => exact Expands.nil
  | cons line lines ih => exact (Expands.literal line).append ih

/-- A line that is read as a reference expands to what the reference resolves
to. -/
theorem Expands.ref {line : Bytes} {ref : EdRef} {lines : List Bytes}
    (hparse : parseRDirective line = some ref)
    (hresolve : resolveRef baseDir disk ref = .ok lines) :
    Expands baseDir disk [.ref line] (lines.map ref.expandLine) := by
  refine ⟨fun line' hline => ?_, fun cache hcache => ?_⟩
  · obtain rfl : line' = line := by simpa using hline
    exact ⟨ref, lines, hparse, hresolve⟩
  obtain ⟨hout, hagrees⟩ := makeResolver_outcome baseDir hcache ref
  refine ⟨_, hagrees, ?_⟩
  have hyields : (phpatcherMakeResolver baseDir disk ref).Yields cache lines
      ((phpatcherMakeResolver baseDir disk ref).outcome cache).2 := by
    rw [Fallible.Yields, ← hresolve, ← hout]
  simp only [List.map_cons, List.map_nil, pieceOf, parseEdInputPiece, hparse, buildInput,
    Fallible.yields_bind, Fallible.yields_pure]
  exact ⟨lines, _, hyields, [], _, ⟨rfl, rfl⟩, by simp, rfl⟩

end

/-! ## The lines of a corpus file -/

variable {corpus : Corpus} {idx : Index}

/-- A line of the corpus is a line of the file, as the splitter gives it. -/
theorem corpusLine_eq_some {fileId lineno : Nat} {line : Bytes} :
    corpus.line idx fileId lineno = some line ↔
      ∃ content, corpus.readFile (corpus.path idx fileId) = some content ∧ 1 ≤ lineno ∧
        (corpusSplitLines content)[lineno - 1]? = some line := by
  unfold Corpus.line
  cases h : corpus.readFile (corpus.path idx fileId) with
  | none => simp
  | some content =>
      by_cases hzero : lineno = 0
      · simp [hzero]
      · have : 1 ≤ lineno := by omega
        simp [hzero, this]

/-- A line of a corpus file has a number that 32 bits count past. -/
theorem corpusLine_counted {fileId c : Nat} {line : Bytes}
    (h : corpus.line idx fileId c = some line) : 1 ≤ c ∧ c + 1 < 4294967296 := by
  obtain ⟨content, hread, hc, hget⟩ := corpusLine_eq_some.mp h
  obtain ⟨hlt, _⟩ := List.getElem?_eq_some_iff.mp hget
  have := corpus.lines_lt _ _ hread
  omega

/-- These are the lines of a corpus file with these numbers. -/
def LinesAt (corpus : Corpus) (idx : Index) (fileId : Nat) : List Nat → List Bytes → Prop :=
  List.Forall₂ fun lineno line => corpus.line idx fileId lineno = some line

/-- Lines that are all there are a block of the file. -/
theorem LinesAt.block {fileId : Nat} {content : Bytes}
    (hread : corpus.readFile (corpus.path idx fileId) = some content) {begin n : Nat}
    (hbegin : 1 ≤ begin) {lines : List Bytes}
    (h : LinesAt corpus idx fileId (List.range' begin n) lines) :
    lines = ((corpusSplitLines content).drop (begin - 1)).take n ∧
      (n = 0 ∨ begin - 1 + n ≤ (corpusSplitLines content).length) := by
  induction n generalizing begin lines with
  | zero =>
      cases h
      simp
  | succ n ih =>
      rw [List.range'_succ] at h
      cases h with
      | cons hline hrest =>
          obtain ⟨content', hread', _, hget⟩ := corpusLine_eq_some.mp hline
          obtain rfl : content = content' := Option.some.inj (hread.symm.trans hread')
          obtain ⟨hlines, hlen⟩ := ih (by omega) hrest
          obtain ⟨hlt, hget⟩ := List.getElem?_eq_some_iff.mp hget
          refine ⟨?_, by omega⟩
          rw [List.drop_eq_getElem_cons hlt, List.take_succ_cons, hget, hlines,
            show begin + 1 - 1 = begin - 1 + 1 by omega]

/-- The bytes of a block of a corpus file have a 63-bit length. -/
theorem length_block_le {path content : Bytes} (hread : corpus.readFile path = some content)
    (i n : Nat) :
    (unlines (((corpusSplitLines content).drop i).take n)).length ≤ int64Max := by
  have hfinish : ∀ s : Bytes, (dropLastByte carriageReturn s).length ≤ s.length := by
    intro s
    unfold dropLastByte
    split <;> simp
  have hall := length_unlines_splitWith hfinish [] content
  have hsub : (((corpusSplitLines content).drop i).take n).Sublist (corpusSplitLines content) :=
    (List.take_sublist _ _).trans (List.drop_sublist _ _)
  have hle := (hsub.map fun l => l.length + 1).sum_le_sum (by simp)
  rw [← length_unlines, ← length_unlines] at hle
  have hsize := corpus.size_lt _ _ hread
  simp only [corpusSplitLines, List.length_nil] at *
  omega

/-- The lines of the range of a reference. -/
def EdRef.run (ref : EdRef) (lines : List Bytes) : List Bytes :=
  (lines.drop (ref.begin - 1)).take (ref.end_ - ref.begin + 1)

/-- The test of the size finds nothing exactly when the guard holds. -/
theorem bytes_any_eq_false {ref : EdRef} {out : List Bytes} :
    ref.bytes.any ((out.map fun l => l.length + 1).sum != ·) = false ↔
      ∀ n, ref.bytes = some n → Guard.Holds out (.bytes n) := by
  cases ref.bytes <;> simp [Guard.Holds]

/-- And so does the test of the hash. -/
theorem hash_any_eq_false {ref : EdRef} {out : List Bytes} :
    ref.hash.any (refHash (unlines out) != ·) = false ↔
      ∀ h, ref.hash = some h → Guard.Holds out (.hash h) := by
  cases ref.hash with
  | none => simp
  | some g =>
      rw [Option.any_some, bne_eq_false_iff_eq]
      exact ⟨fun h k hk => Option.some.inj hk ▸ h, fun h => h g rfl⟩

/-- A reference is accepted when it is in range and its guards are right, and
stands for the lines of its range then. -/
theorem checkRef_ok_iff {ref : EdRef} {lines out : List Bytes} :
    checkRef ref lines = .ok out ↔
      (1 ≤ ref.begin ∧ ref.begin ≤ ref.end_ ∧ ref.end_ ≤ lines.length) ∧
      out = EdRef.run ref lines ∧ (∀ n, ref.bytes = some n → Guard.Holds out (.bytes n)) ∧
      ∀ h, ref.hash = some h → Guard.Holds out (.hash h) := by
  unfold checkRef
  split
  next hout =>
    constructor
    · simp
    · rintro ⟨hrange, _⟩
      omega
  next hin =>
    simp only
    split
    next hbytes =>
      constructor
      · simp
      · rintro ⟨_, rfl, hb, _⟩
        rw [← bytes_any_eq_false] at hb
        exact absurd (hb.symm.trans hbytes) Bool.false_ne_true
    next hbytes =>
      split
      next hhash =>
        constructor
        · simp
        · rintro ⟨_, rfl, _, hh⟩
          rw [← hash_any_eq_false] at hh
          exact absurd (hh.symm.trans hhash) Bool.false_ne_true
      next hhash =>
        rw [Bool.not_eq_true] at hbytes hhash
        constructor
        · intro h
          obtain rfl := Except.ok.inj h
          exact ⟨by omega, rfl, bytes_any_eq_false.mp hbytes, hash_any_eq_false.mp hhash⟩
        · rintro ⟨_, rfl, _⟩
          rfl

/-- A reference in range whose guards are right is accepted. -/
theorem checkRef_eq_ok {ref : EdRef} {lines out : List Bytes}
    (hout : out = (lines.drop (ref.begin - 1)).take (ref.end_ - ref.begin + 1))
    (hrange : 1 ≤ ref.begin ∧ ref.begin ≤ ref.end_ ∧ ref.end_ ≤ lines.length)
    (hbytes : ∀ n, ref.bytes = some n → n = (unlines out).length)
    (hhash : ∀ h, ref.hash = some h → h = refHash (unlines out)) : checkRef ref lines = .ok out :=
  checkRef_ok_iff.mpr ⟨hrange, hout, fun n hn => (length_unlines out).symm.trans (hbytes n hn).symm,
    fun h hh => (hhash h hh).symm⟩

/-- The resolver accepts the guard of the lines a range names. -/
theorem checkRef_guarded (path : Bytes) {begin end_ : Nat} (pads : Option (Bytes × Bytes))
    (hash : Bool) {lines out : List Bytes} (hbegin : 1 ≤ begin) (hend : begin ≤ end_)
    (hlen : end_ ≤ lines.length) (hout : out = (lines.drop (begin - 1)).take (end_ - begin + 1)) :
    checkRef (guarded hash (unlines out) (padded pads { path, begin, end_ })) lines = .ok out := by
  have hfields : (padded pads { path, begin, end_ }).begin = begin ∧
      (padded pads { path, begin, end_ }).end_ = end_ ∧
      (padded pads { path, begin, end_ }).bytes = none ∧
      (padded pads { path, begin, end_ }).hash = none := by
    cases pads <;> exact ⟨rfl, rfl, rfl, rfl⟩
  obtain ⟨hb, he, hbytes, hhash⟩ := hfields
  generalize padded pads { path, begin, end_ } = ref at hb he hbytes hhash ⊢
  subst hb he
  have hrange := And.intro hbegin (And.intro hend hlen)
  cases hash with
  | false =>
      refine checkRef_eq_ok hout hrange ?_ ?_
      · intro n hn
        exact (Option.some.inj hn).symm
      · intro h hh
        exact absurd (hhash.symm.trans hh) (by simp)
  | true =>
      refine checkRef_eq_ok hout hrange ?_ ?_
      · intro n hn
        exact absurd (hbytes.symm.trans hn) (by simp)
      · intro h hh
        exact (Option.some.inj hh).symm

/-- Lines that were read come from a file that was read. -/
theorem LinesAt.content {fileId begin n : Nat} {lines : List Bytes} (hn : 1 ≤ n)
    (h : LinesAt corpus idx fileId (List.range' begin n) lines) :
    ∃ content, corpus.readFile (corpus.path idx fileId) = some content := by
  obtain ⟨n, rfl⟩ := Nat.exists_eq_succ_of_ne_zero (Nat.ne_of_gt hn)
  rw [List.range'_succ] at h
  cases h with
  | cons hline _ =>
      obtain ⟨content, hread, _⟩ := corpusLine_eq_some.mp hline
      exact ⟨content, hread⟩

/-- Every line that goes into a guard was read. -/
theorem refBytesLoop_eq_some {access : CorpusAccess} {fileId : Nat} {lns : List Nat}
    {lines : List Bytes} : refBytesLoop access fileId lns = some (some lines) ↔
      List.Forall₂ (fun ln line => access.line fileId ln = some (some line)) lns lines := by
  induction lns generalizing lines with
  | nil => simp [refBytesLoop]
  | cons ln lns ih =>
      rw [refBytesLoop, List.forall₂_cons_left_iff]
      simp only [← ih]
      rcases access.line fileId ln with _ | _ | line
      · simp
      · simp
      · rcases refBytesLoop access fileId lns with _ | _ | rest <;> simp [eq_comm]

/-- A path of the index is relative, so it is looked up under the base
directory. -/
theorem refFile_guarded (baseDir : Bytes) (hash : Bool) (bytes : Bytes) (fileId : Nat)
    (pads : Option (Bytes × Bytes)) (begin end_ : Nat) :
    refFile baseDir (guarded hash bytes (padded pads { path := idx.file fileId, begin, end_ })) =
      baseDir ++ [slash] ++ idx.file fileId := by
  have hrelative : (idx.file fileId).head? ≠ some slash := by
    rw [Index.file, List.getD_eq_getElem?_getD]
    cases hget : idx.files[fileId]? with
    | none => simp
    | some path => exact idx.relative path (List.mem_of_getElem? hget)
  have hpath : (guarded hash bytes
      (padded pads { path := idx.file fileId, begin, end_ })).path = idx.file fileId := by
    cases hash <;> cases pads <;> rfl
  rw [refFile, hpath, if_neg fun h => hrelative h.2]

/-- A line that was read is a line of the file. -/
theorem line_of_viewAccess {room fileId lineno : Nat} {found : Option Bytes}
    (h : (viewAccess room corpus idx).line fileId lineno = some found) :
    corpus.line idx fileId lineno = found := by
  rw [← line_changesFiles room]
  exact (readLine_eq_some h).1

/-- What is printed for a reference holds the guard of lines that were read. -/
theorem emitRef_eq_some {room : Nat} {hash : Bool} {fileId begin end_ : Nat}
    {pads : Option (Bytes × Bytes)} {item : Emitted} :
    emitRef (viewAccess room corpus idx) hash fileId begin end_ pads = some (some item) ↔
      ∃ lines, refBytesLoop (viewAccess room corpus idx) fileId (refLines begin end_) =
          some (some lines) ∧
        item = .ref (rDirective (idx.file fileId) begin end_ pads
          (guardText hash (unlines lines))) := by
  rw [emitRef, makeGuard, refBytes]
  rcases refBytesLoop (viewAccess room corpus idx) fileId (refLines begin end_) with
    _ | _ | lines
  · simp
  · simp
  · simp [viewAccess, eq_comm]

/-- **References.** A reference that was printed is read back, accepted by the
resolver on the same tree, and stands for the corpus lines it was printed for. -/
theorem emitRef_expands {baseDir : Bytes} {disk : Disk} (htree : SameTree corpus baseDir disk)
    {room : Nat} {hash : Bool} {fileId begin end_ : Nat} {pads : Option (Bytes × Bytes)}
    {item : Emitted} (hbegin : 1 ≤ begin) (hend : begin ≤ end_)
    (h : emitRef (viewAccess room corpus idx) hash fileId begin end_ pads = some (some item)) :
    ∃ lines, LinesAt corpus idx fileId (List.range' begin (end_ + 1 - begin)) lines ∧
      Expands baseDir disk [item]
        (lines.map (padded pads { path := idx.file fileId, begin, end_ }).expandLine) := by
  obtain ⟨lines, hloop, rfl⟩ := emitRef_eq_some.mp h
  have hall : LinesAt corpus idx fileId (refLines begin end_) lines :=
    (refBytesLoop_eq_some.mp hloop).imp fun _ _ hline => line_of_viewAccess hline
  -- behind the largest number comes line 0, which is missing
  have hlines : LinesAt corpus idx fileId (List.range' begin (end_ + 1 - begin)) lines := by
    unfold refLines at hall
    split at hall
    next =>
      have hzero := (List.forall₂_drop_append _ _ _ hall.flip).flip
      obtain ⟨line, _, hline, _⟩ := List.forall₂_cons_left_iff.mp hzero
      obtain ⟨_, _, hpos, _⟩ := corpusLine_eq_some.mp hline
      omega
    next => rwa [List.append_nil] at hall
  refine ⟨lines, hlines, ?_⟩
  -- the file behind the lines
  obtain ⟨content, hread⟩ := hlines.content (by omega)
  obtain ⟨hblock, hlen⟩ := hlines.block hread hbegin
  -- the numbers fit what the reader of a directive accepts
  have hmax := corpus.lines_lt _ _ hread
  have hsize : (unlines lines).length ≤ int64Max := hblock ▸ length_block_le hread _ _
  have hend' : end_ ≤ (corpusSplitLines content).length := by omega
  have hmax' : end_ ≤ readUintMax := by
    have : 4294967295 ≤ readUintMax := by decide
    omega
  have hparse := parseRDirective_rDirective (idx.file fileId) pads hash hbegin hend hmax' hsize
  have hresolve : resolveRef baseDir disk (guarded hash (unlines lines)
      (padded pads { path := idx.file fileId, begin, end_ })) = .ok lines := by
    rw [resolveRef, refFile_guarded, htree, ← Corpus.path, hread]
    rw [show end_ + 1 - begin = end_ - begin + 1 by omega] at hblock
    exact checkRef_guarded (idx.file fileId) pads hash hbegin hend hend' hblock
  have hexpand : (guarded hash (unlines lines)
      (padded pads { path := idx.file fileId, begin, end_ })).expandLine =
        (padded pads { path := idx.file fileId, begin, end_ }).expandLine := by
    cases hash <;> rfl
  rw [← hexpand]
  exact Expands.ref hparse hresolve

end Phpatcher.Theorems
