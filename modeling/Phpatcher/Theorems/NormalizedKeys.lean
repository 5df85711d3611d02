import Phpatcher.Theorems.NormalizedCorpus
import Phpatcher.Tools.Normalize

/-!
# Normalized keys

A key holds the code of its line and of no other line, so two lines with one
key differ in whitespace only. The flag of an indivisible line is dropped on
the way to the comparison: its raw bytes are compared with the joined tokens
of ordinary lines, too, and match a line that is spaced differently.
-/

namespace Phpatcher.Theorems

open Phpatcher.Basis Phpatcher.Core Phpatcher.Tools

/-! ## Keys lose nothing -/

/-- A CR is whitespace. -/
theorem squeeze_rtrimCr (line : Bytes) :
    squeeze isPhpSpace (rtrimCr line) = squeeze isPhpSpace line := by
  have hsplit := @List.rdropWhile_append_rtakeWhile _ (· == carriageReturn) line
  have htail : ∀ c ∈ line.rtakeWhile (· == carriageReturn), isPhpSpace c = true := by
    intro c hc
    have hcr := List.mem_rtakeWhile_imp hc
    rw [beq_iff_eq] at hcr
    rw [hcr]
    rfl
  have happend := squeeze_append (p := isPhpSpace) (rtrimCr line)
    (line.rtakeWhile (· == carriageReturn))
  rw [rtrimCr, hsplit, squeeze_eq_nil htail, List.append_nil] at happend
  exact happend.symm

/-- Without whitespace a key is its line. -/
theorem NormLine.KeyOf.squeeze_eq {norm : NormLine} {line : Bytes} (h : norm.KeyOf line) :
    squeeze isPhpSpace norm.key = squeeze isPhpSpace line := by
  rcases h with ⟨_, hraw⟩ | ⟨_, ts, hkey, hs⟩
  · rw [hraw, squeeze_rtrimCr]
  · have hspace : ∀ c ∈ [space], isPhpSpace c = true := List.forall_mem_singleton.mpr (by decide)
    rw [hkey, squeeze_intercalate hspace, hs.squeeze_eq]

theorem nthLine_eq_of_getElem? {src line : Bytes} {i : Nat}
    (h : (splitLines src)[i]? = some line) : nthLine src i = line := by
  have hget := @getD_splitWith [] (by simp) src i
  rw [List.nil_append] at hget
  rw [← hget, List.getD_eq_getElem?_getD]
  show ((splitLines src)[i]?).getD [] = line
  rw [h, Option.getD_some]

/-- **Keys lose and misplace nothing.** A source has a key for each of its
lines, and without whitespace the keys are the lines; so two lines with equal
keys differ in whitespace only. -/
theorem normalize_keys {src : Bytes} (t : Tokenization src) :
    ((normalize t.tokens src).map fun norm => squeeze isPhpSpace norm.key) =
      (splitLines src).map (squeeze isPhpSpace) ∧
    ∀ {src' : Bytes} (t' : Tokenization src') (i j : Nat) (norm norm' : NormLine)
      (line line' : Bytes), (normalize t.tokens src)[i]? = some norm →
      (normalize t'.tokens src')[j]? = some norm' → (splitLines src)[i]? = some line →
      (splitLines src')[j]? = some line' → norm.key = norm'.key →
      squeeze isPhpSpace line = squeeze isPhpSpace line' := by
  have hkey : ∀ {src : Bytes} (t : Tokenization src) {i : Nat} {norm : NormLine} {line : Bytes},
      (normalize t.tokens src)[i]? = some norm → (splitLines src)[i]? = some line →
      squeeze isPhpSpace norm.key = squeeze isPhpSpace line := by
    intro src t i norm line hnorm hline
    rw [← nthLine_eq_of_getElem? hline]
    exact NormLine.KeyOf.squeeze_eq (normalize_keyOf t hnorm)
  constructor
  · apply List.ext_getElem?
    intro i
    rw [List.getElem?_map, List.getElem?_map]
    by_cases hi : i < (splitLines src).length
    · have hi' : i < (normalize t.tokens src).length := by rwa [length_normalize]
      have hnorm := List.getElem?_eq_getElem hi'
      have hline := List.getElem?_eq_getElem hi
      rw [hnorm, hline, Option.map_some, Option.map_some, hkey t hnorm hline]
    · rw [List.getElem?_eq_none (by rw [length_normalize]; omega),
        List.getElem?_eq_none (by omega)]
      rfl
  · intro src' t' i j norm norm' line line' hnorm hnorm' hline hline' heq
    rw [← hkey t hnorm hline, heq, hkey t' hnorm' hline']

/-- The tokens of an opening tag and a call. -/
def callTokens : Tokenization (ascii "<?php\nf( );\n") where
  tokens := [{ text := ascii "<?php\n" }, { text := ascii "f" }, { text := ascii "(" },
    { whitespace := true, text := ascii " " }, { text := ascii ")" }, { text := ascii ";" },
    { whitespace := true, text := ascii "\n" }]
  concat := by decide +kernel
  blank := by decide +kernel

/-- Its keys. -/
theorem normalize_keys_call :
    (normalize callTokens.tokens (ascii "<?php\nf( );\n")).map NormLine.key =
      [ascii "<?php", ascii "f ( ) ;"] ∧
    ((normalize callTokens.tokens (ascii "<?php\nf( );\n")).map fun norm =>
      squeeze isPhpSpace norm.key) =
        (splitLines (ascii "<?php\nf( );\n")).map (squeeze isPhpSpace) :=
  ⟨by decide +kernel, (normalize_keys callTokens).1⟩

/-! ## Indivisible lines -/

/-- The result for a block, with its flags: the keys of `normalizeBlockKeys`
are its keys. -/
def blockNorm (fn : FlaggedNormalizer) (content : Bytes) : List NormLine :=
  if content.take 2 = ascii "<?" then fn.run content
  else (fn.run (ascii "<?php\n" ++ content)).drop 1

/-- The result for a line of a corpus file. -/
def corpusNorm (fn : FlaggedNormalizer) (corpus : Corpus) (idx : Index) (fileId lineno : Nat) :
    Option NormLine :=
  match corpus.readFile (corpus.path idx fileId) with
  | none => none
  | some content => if lineno = 0 then none else (fn.run content)[lineno - 1]?

theorem normalizeBlockKeys_eq (fn : FlaggedNormalizer) (content : Bytes) :
    normalizeBlockKeys fn.keys content = (blockNorm fn content).map NormLine.key := by
  unfold normalizeBlockKeys blockNorm
  split
  · rfl
  · exact List.map_drop.symm

theorem corpusKey_eq {fn : FlaggedNormalizer} {corpus : Corpus} (hfn : corpus.normalizer = fn.keys)
    (idx : Index) (fileId lineno : Nat) :
    corpus.key idx fileId lineno = (corpusNorm fn corpus idx fileId lineno).map NormLine.key := by
  unfold Corpus.key corpusNorm
  cases corpus.readFile (corpus.path idx fileId) with
  | none => rfl
  | some content =>
      simp only [hfn]
      split
      · rfl
      · exact List.getElem?_map

/-- The lines of a block by number. -/
theorem nthLine_unlines {block : List Bytes} (hblock : ∀ l ∈ block, newline ∉ l) (b : Nat) :
    nthLine (unlines block) b = block.getD b [] := by
  have hget := @getD_splitWith [] (by simp) (unlines block) b
  rw [splitWith_unlines_nil hblock, List.map_id, List.nil_append] at hget
  exact hget.symm

/-- The result for a block line is about that line, with the artificial open
tag or without. -/
theorem blockNorm_keyOf {fn : FlaggedNormalizer} {block : List Bytes}
    (hblock : ∀ l ∈ block, newline ∉ l) {b : Nat} {norm : NormLine}
    (h : (blockNorm fn (unlines block))[b]? = some norm) : norm.KeyOf (block.getD b []) := by
  unfold blockNorm at h
  split at h
  · rw [← nthLine_unlines hblock]
    exact fn.keyOf _ _ _ h
  · rw [List.getElem?_drop, Nat.add_comm] at h
    have hwrapped : ascii "<?php\n" ++ unlines block = unlines (ascii "<?php" :: block) := by
      rw [unlines_cons]
      rfl
    have hlines : ∀ l ∈ ascii "<?php" :: block, newline ∉ l :=
      List.forall_mem_cons.mpr ⟨by decide, hblock⟩
    have hkey := fn.keyOf _ _ _ h
    rwa [hwrapped, nthLine_unlines hlines, List.getD_cons_succ] at hkey

theorem rtrimCr_dropLastByte (line : Bytes) :
    rtrimCr (dropLastByte carriageReturn line) = rtrimCr line := by
  unfold dropLastByte
  split
  next hlast =>
    obtain ⟨init, rfl⟩ := List.getLast?_eq_some_iff.mp hlast
    rw [List.dropLast_concat, rtrimCr, rtrimCr, List.rdropWhile_concat_pos _ _ _ (by rfl)]
  next => rfl

/-- So is the result for a corpus line, up to the CR the splitter strips. -/
theorem corpusNorm_keyOf {fn : FlaggedNormalizer} {corpus : Corpus} {idx : Index}
    {fileId lineno : Nat} {norm : NormLine} {line : Bytes}
    (h : corpusNorm fn corpus idx fileId lineno = some norm)
    (hline : corpus.line idx fileId lineno = some line) :
    ∃ raw, norm.KeyOf raw ∧ rtrimCr raw = rtrimCr line := by
  obtain ⟨content, hread, hpos, hget⟩ := corpusLine_eq_some.mp hline
  rw [corpusNorm, hread] at h
  simp only [show lineno ≠ 0 by omega, if_false] at h
  refine ⟨_, fn.keyOf _ _ _ h, ?_⟩
  rw [corpusSplitLines, getElem?_splitWith, Option.map_eq_some_iff] at hget
  obtain ⟨raw, hraw, rfl⟩ := hget
  rw [nthLine_eq_of_getElem? hraw]
  split
  · rw [rtrimCr_dropLastByte]
  · rfl

/-- An ordinary line whose tokens, joined by single spaces, are the raw bytes
of an indivisible line, while the line itself is spaced differently. -/
def Confusable (ordinary : NormLine) (line : Bytes) (indivisible : NormLine) (raw : Bytes) :
    Prop :=
  ordinary.flag = 0 ∧ indivisible.flag = 1 ∧ ordinary.key = rtrimCr raw ∧
    ordinary.key ≠ rtrimCr line

/-- The comparison accepts the pair only if the bytes are equal, up to CRs at
the end, where one of the lines is indivisible. -/
def BytewiseMatch (corpus : Corpus) (idx : Index) (block : List Bytes) (b fileId lineno : Nat)
    (nb nc : NormLine) (line : Bytes) : Prop :=
  lineEqual corpus idx block b fileId lineno = true → nb.flag = 1 ∨ nc.flag = 1 →
    rtrimCr (block.getD b []) = rtrimCr line

/-- The equality of the normalized mode is one of keys. -/
theorem lineEqual_iff_key {fn : FlaggedNormalizer} {corpus : Corpus} {idx : Index}
    {block : List Bytes} (hfn : corpus.normalizer = fn.keys) (hnorm : idx.normalized = true)
    {b fileId lineno : Nat} {nb nc : NormLine}
    (hb : (blockNorm fn (unlines block))[b]? = some nb)
    (hc : corpusNorm fn corpus idx fileId lineno = some nc) :
    lineEqual corpus idx block b fileId lineno = true ↔ nc.key = nb.key := by
  have hkey : (blockKeys corpus idx block).getD b [] = nb.key := by
    rw [blockKeys, if_pos hnorm, hfn, normalizeBlockKeys_eq, List.getD_eq_getElem?_getD,
      List.getElem?_map, hb]
    rfl
  rw [lineEqual, if_pos hnorm, hkey, corpusKey_eq hfn, hc, beq_iff_eq, Option.map_some,
    Option.some.injEq]

/-- **When indivisible lines match byte for byte only.** -/
theorem bytewise_match_iff {fn : FlaggedNormalizer} {corpus : Corpus} {idx : Index}
    {block : List Bytes} (hfn : corpus.normalizer = fn.keys) (hnorm : idx.normalized = true)
    (hblock : ∀ l ∈ block, newline ∉ l) {b fileId lineno : Nat} {nb nc : NormLine} {line : Bytes}
    (hb : (blockNorm fn (unlines block))[b]? = some nb)
    (hc : corpusNorm fn corpus idx fileId lineno = some nc)
    (hline : corpus.line idx fileId lineno = some line) :
    BytewiseMatch corpus idx block b fileId lineno nb nc line ↔
      ¬ Confusable nb (block.getD b []) nc line ∧ ¬ Confusable nc line nb (block.getD b []) := by
  have hequal := lineEqual_iff_key hfn hnorm hb hc
  have hblockKey := blockNorm_keyOf hblock hb
  obtain ⟨raw, hcorpusKey, hraw⟩ := corpusNorm_keyOf hc hline
  rw [BytewiseMatch, hequal]
  constructor
  · intro h
    constructor
    · -- the block line is ordinary, the corpus line indivisible
      rintro ⟨_, hflag, hkey, hne⟩
      rcases hcorpusKey with ⟨_, hown⟩ | ⟨hzero, _⟩
      · have heq : nc.key = nb.key := by rw [hown, hraw, hkey]
        exact hne (hkey.trans (h heq (.inr hflag)).symm)
      · exact absurd (hzero.symm.trans hflag) (by decide)
    · rintro ⟨_, hflag, hkey, hne⟩
      rcases hblockKey with ⟨_, hown⟩ | ⟨hzero, _⟩
      · have heq : nc.key = nb.key := by rw [hown, hkey]
        exact hne (hkey.trans (h heq (.inl hflag)))
      · exact absurd (hzero.symm.trans hflag) (by decide)
  · rintro ⟨hconfB, hconfC⟩ heq hflag
    rcases hblockKey with ⟨hfb, hb'⟩ | ⟨hfb, _⟩ <;> rcases hcorpusKey with ⟨hfc, hc'⟩ | ⟨hfc, _⟩
    · -- both are compared by their raw bytes
      rw [← hb', ← heq, hc', hraw]
    · by_contra hne
      exact hconfC ⟨hfc, hfb, heq.trans hb', fun h => hne (by rw [← h, heq, hb'])⟩
    · by_contra hne
      exact hconfB ⟨hfb, hfc, by rw [← heq, hc', hraw], fun h => hne (by
        rw [← h, ← heq, hc', hraw])⟩
    · -- neither is indivisible
      rcases hflag with hflag | hflag
      · exact absurd (hfb.symm.trans hflag) (by decide)
      · exact absurd (hfc.symm.trans hflag) (by decide)

/-- A block that assigns a heredoc of two lines. -/
def heredocBlock : List Bytes := [ascii "$x = <<<A", ascii "f ( ) ;", ascii "g", ascii "A;"]

/-- The content of a file with a call. -/
def callSource : Bytes := ascii "<?php\nf();\n"

/-- A tokenizer that knows these two; any other source is one token. -/
def sampleTokenizer (src : Bytes) : Tokenization src where
  tokens :=
    if src = ascii "<?php\n" ++ unlines heredocBlock then
      [{ text := ascii "<?php\n" }, { text := ascii "$x" },
        { whitespace := true, text := ascii " " }, { text := ascii "=" },
        { whitespace := true, text := ascii " " }, { text := ascii "<<<A\n" },
        { text := ascii "f ( ) ;\ng\n" }, { text := ascii "A" }, { text := ascii ";" },
        { whitespace := true, text := ascii "\n" }]
    else if src = callSource then
      [{ text := ascii "<?php\n" }, { text := ascii "f" }, { text := ascii "(" },
        { text := ascii ")" }, { text := ascii ";" }, { whitespace := true, text := ascii "\n" }]
    else [{ text := src }]
  concat := by
    split
    next h =>
      rw [h]
      decide +kernel
    split
    next h =>
      rw [h]
      decide +kernel
    · simp
  blank := by
    split
    · decide +kernel
    split
    · decide +kernel
    · simp

/-- A normalized index of the file with the call. -/
def callIndex : Index where
  files := [ascii "c.php"]
  lines := []
  normalized := true
  validIds := by simp
  relative := by decide +kernel

/-- Its tree. -/
def callCorpus : Corpus :=
  Corpus.single (ascii "/c.php") callSource (FlaggedNormalizer.ofTokenizer sampleTokenizer).keys
    (by decide +kernel) (by decide +kernel)

/-- A line of the heredoc matches the call, which is spaced differently: the
flag of the line is not looked at. -/
theorem bytewise_match_fails :
    lineEqual callCorpus callIndex heredocBlock 1 0 2 = true ∧
    (blockNorm (.ofTokenizer sampleTokenizer) (unlines heredocBlock))[1]? =
      some ⟨1, ascii "f ( ) ;"⟩ ∧
    corpusNorm (.ofTokenizer sampleTokenizer) callCorpus callIndex 0 2 =
      some ⟨0, ascii "f ( ) ;"⟩ ∧
    callCorpus.line callIndex 0 2 = some (ascii "f();") ∧
    ¬ BytewiseMatch callCorpus callIndex heredocBlock 1 0 2 ⟨1, ascii "f ( ) ;"⟩
      ⟨0, ascii "f ( ) ;"⟩ (ascii "f();") := by
  have hequal : lineEqual callCorpus callIndex heredocBlock 1 0 2 = true := by decide +kernel
  refine ⟨hequal, by decide +kernel, by decide +kernel, by decide +kernel, fun h => ?_⟩
  exact absurd (h hequal (.inl rfl)) (by decide +kernel)

/-- The other line of the heredoc matches nothing but itself. -/
theorem bytewise_match_other :
    BytewiseMatch callCorpus callIndex heredocBlock 2 0 2 ⟨1, ascii "g"⟩
      ⟨0, ascii "f ( ) ;"⟩ (ascii "f();") :=
  (@bytewise_match_iff (.ofTokenizer sampleTokenizer) callCorpus callIndex heredocBlock rfl rfl
    (by decide +kernel) 2 0 2 _ _ _ (by decide +kernel) (by decide +kernel)
    (by decide +kernel)).mpr
    ⟨fun h => absurd h.1 (by decide), fun h => absurd h.2.2.1 (by decide +kernel)⟩

end Phpatcher.Theorems
