import Phpatcher.Basis.Words
import Phpatcher.Tools.Corpus

/-!
# Match keys of PHP lines

`normalize` of `normalize.php`: a key for each physical line of a source, made
of the tokens of the line, or of its raw bytes where a token spans several
lines. The tokenizer is PHP's own (`token_get_all`); what is assumed of it is
a `Tokenization`: its tokens are the source again, and its whitespace tokens
hold nothing but whitespace.

What is proved of a result is `NormLine.KeyOf`: no byte of the code of a line
is lost, and none ends up in the key of another line.
-/

namespace Phpatcher.Tools

open Phpatcher.Basis Phpatcher.Core

/-- A token of `token_get_all`: whether it is a `T_WHITESPACE`, and its text.
A token that comes as a plain string has no id. -/
structure Token where
  whitespace : Bool := false
  text : Bytes
  deriving DecidableEq, Repr

/-- `NormLine`: a key, and the flag 1 on an indivisible line. -/
structure NormLine where
  flag : UInt8 := 0
  key : Bytes
  deriving DecidableEq, Repr

/-- `$nlines`. -/
def physicalLines (src : Bytes) : Nat :=
  src.count newline + if src.getLast? = some newline then 0 else 1

/-- The keys, the indivisible lines and the current line. -/
structure NormState where
  keys : List Bytes
  indiv : List Nat := []
  cur : Nat := 0

/-- Append a text to the key of line `l`, behind a space if there is a key. -/
def appendKey (keys : List Bytes) (l : Nat) (text : Bytes) : List Bytes :=
  keys.modify l fun key => if key ≠ [] then key ++ [space] ++ text else text

/-- The lines of the parts of a token that are not empty. -/
def partLines (cur nlines : Nat) (segs : List Bytes) : List Nat :=
  segs.zipIdx.filterMap fun (s, j) => if s ≠ [] ∧ cur + j < nlines then some (cur + j) else none

/-- One turn of the token loop. -/
def NormState.token (st : NormState) (tok : Token) : NormState :=
  if tok.whitespace then { st with cur := st.cur + tok.text.count newline }
  else if tok.text.count newline = 0 then
    { st with keys := appendKey st.keys st.cur tok.text }
  else
    let segs := tok.text.splitOn newline
    let nonempty := (segs.filter (· ≠ [])).length
    let next := st.cur + (segs.length - 1)
    if nonempty ≥ 2 then
      { st with indiv := st.indiv ++ partLines st.cur st.keys.length segs, cur := next }
    else
      match segs.findIdx? (· ≠ []) with
      | some first =>
          { st with
            keys := appendKey st.keys (st.cur + first) (segs.getD first [])
            cur := next }
      | none => { st with cur := next }

/-- `rtrim($line, "\r")`. -/
def rtrimCr (line : Bytes) : Bytes := line.rdropWhile (· == carriageReturn)

/-- `normalize` of a source with these tokens. -/
def normalize (tokens : List Token) (src : Bytes) : List NormLine :=
  if src = [] then []
  else
    let nlines := physicalLines src
    let st := tokens.foldl NormState.token { keys := List.replicate nlines [] }
    if st.indiv = [] then st.keys.map fun k => { key := k }
    else
      let raw := src.splitOn newline
      (List.range nlines).map fun i =>
        if st.indiv.contains i then { flag := 1, key := rtrimCr (raw.getD i []) }
        else { key := st.keys.getD i [] }

/-! ## What a result promises -/

/-- The bytes of PHP's whitespace tokens. -/
def isPhpSpace (c : UInt8) : Bool :=
  c == space || c == tab || c == carriageReturn || c == newline

/-- A tokenization of a source. -/
structure Tokenization (src : Bytes) where
  tokens : List Token
  concat : (tokens.map Token.text).flatten = src
  blank : ∀ t ∈ tokens, t.whitespace = true → ∀ c ∈ t.text, isPhpSpace c = true

/-- The key of an ordinary line: its tokens joined by single spaces. -/
def TokenKey (key line : Bytes) : Prop :=
  ∃ ts, key = List.intercalate [space] ts ∧ Spaced isPhpSpace ts line

/-- The key of a line: its raw bytes where it is indivisible, its tokens
otherwise. -/
def NormLine.KeyOf (norm : NormLine) (line : Bytes) : Prop :=
  norm.flag = 1 ∧ norm.key = rtrimCr line ∨ norm.flag = 0 ∧ TokenKey norm.key line

/-- What the token loop keeps: behind the tokens of `text` the current line is
the last of `text`, and every line that is not indivisible has its tokens as its
key. -/
structure NormState.Keys (n : Nat) (text : Bytes) (st : NormState) : Prop where
  length : st.keys.length = n
  cur : st.cur = text.count newline
  keys : ∀ l < n, l ∉ st.indiv → TokenKey (st.keys.getD l []) (nthLine text l)

theorem TokenKey.append_gap {key line w : Bytes} (h : TokenKey key line)
    (hw : ∀ c ∈ w, isPhpSpace c = true) : TokenKey key (line ++ w) := by
  obtain ⟨ts, hkey, hs⟩ := h
  exact ⟨ts, hkey, hs.append_gap hw⟩

/-- A token appended to a key and to its line. -/
theorem TokenKey.append_word {key line : Bytes} (h : TokenKey key line) (t : Bytes) :
    TokenKey (if key ≠ [] then key ++ [space] ++ t else t) (line ++ t) := by
  obtain ⟨ts, hkey, hs⟩ := h
  split
  next hne =>
    refine ⟨ts ++ [t], ?_, hs.append_word t⟩
    rw [intercalate_concat _ t, hkey]
    rintro rfl
    exact hne hkey
  next hnil =>
    -- so far the line holds gaps only
    rw [ne_eq, not_not] at hnil
    have hgap : ∀ c ∈ line, isPhpSpace c = true := by
      have hempty : squeeze isPhpSpace line = [] := by
        have hjoin := @squeeze_intercalate isPhpSpace [space]
          (List.forall_mem_singleton.mpr (by decide)) ts
        rw [hs.squeeze_eq, ← hjoin, ← hkey, hnil, squeeze_nil]
      simpa [squeeze] using hempty
    refine ⟨[t], (List.intercalate_singleton).symm, ?_⟩
    have hword := Spaced.word (t := t) hgap (Spaced.gap (w := []) (by simp))
    rwa [List.append_nil] at hword

theorem getD_appendKey {keys : List Bytes} {l i : Nat} (hi : i < keys.length) (text : Bytes) :
    (appendKey keys l text).getD i [] =
      if i = l then (if keys.getD i [] ≠ [] then keys.getD i [] ++ [space] ++ text else text)
      else keys.getD i [] := by
  rw [appendKey, List.getD_eq_getElem?_getD, List.getElem?_modify, List.getD_eq_getElem?_getD,
    List.getElem?_eq_getElem hi]
  by_cases h : l = i
  · simp [h]
  · simp [h, Ne.symm h]

/-- What a token that starts in line `cur` adds to line `i`. -/
def linePart (cur : Nat) (text : Bytes) (i : Nat) : Bytes :=
  if cur ≤ i then nthLine text (i - cur) else []

/-- A turn keeps the invariant when every line that is not indivisible behind it
was none before, and got a gap, or got its part of the token as a word. -/
theorem NormState.Keys.next {n : Nat} {text : Bytes} {st st' : NormState}
    (h : NormState.Keys n text st) {t : Bytes} (hcur : st'.cur = st.cur + t.count newline)
    (hlen : st'.keys.length = st.keys.length)
    (hline : ∀ i < n, i ∉ st'.indiv → i ∉ st.indiv ∧
      (st'.keys.getD i [] = st.keys.getD i [] ∧ (∀ c ∈ linePart st.cur t i, isPhpSpace c = true) ∨
        st'.keys.getD i [] = if st.keys.getD i [] ≠ [] then
          st.keys.getD i [] ++ [space] ++ linePart st.cur t i else linePart st.cur t i)) :
    NormState.Keys n (text ++ t) st' where
  length := hlen.trans h.length
  cur := by rw [hcur, h.cur, List.count_append]
  keys := by
    intro i hi hmark
    obtain ⟨hbefore, hkey⟩ := hline i hi hmark
    have hold := h.keys i hi hbefore
    have happend : nthLine (text ++ t) i = nthLine text i ++ linePart st.cur t i := by
      rw [nthLine_append, linePart, h.cur]
    rw [happend]
    rcases hkey with ⟨hsame, hgap⟩ | hword
    · rw [hsame]
      exact hold.append_gap hgap
    · rw [hword]
      exact hold.append_word _

/-- So does a turn that appends the only part of the token to its line. -/
theorem NormState.Keys.append {n : Nat} {text : Bytes} {st : NormState}
    (h : NormState.Keys n text st) {t : Bytes} {l : Nat}
    (honly : ∀ i, i ≠ l → linePart st.cur t i = []) :
    NormState.Keys n (text ++ t)
      { st with
        keys := appendKey st.keys l (linePart st.cur t l)
        cur := st.cur + t.count newline } := by
  refine h.next rfl (List.length_modify _ _ _) ?_
  intro i hi hmark
  refine ⟨hmark, ?_⟩
  show (appendKey st.keys l _).getD i [] = _ ∧ _ ∨ (appendKey st.keys l _).getD i [] = _
  rw [getD_appendKey (h.length ▸ hi)]
  by_cases hil : i = l
  · rw [if_pos hil, hil]
    exact .inr rfl
  · rw [if_neg hil, honly i hil]
    exact .inl ⟨rfl, by simp⟩

/-- The part of line `cur + j` is the part `j` of the token. -/
theorem linePart_add (cur : Nat) (text : Bytes) (j : Nat) :
    linePart cur text (cur + j) = (text.splitOn newline).getD j [] := by
  rw [linePart, if_pos (Nat.le_add_right _ _), Nat.add_sub_cancel_left, nthLine]

theorem mem_of_mem_linePart {cur : Nat} {text : Bytes} {i : Nat} {c : UInt8}
    (h : c ∈ linePart cur text i) : c ∈ text := by
  unfold linePart at h
  split at h
  · exact mem_of_mem_nthLine h
  · simp at h

/-- A token inside one line has no part in another. -/
theorem linePart_of_not_mem {cur : Nat} {text : Bytes} (hmem : newline ∉ text) {i : Nat}
    (hi : i ≠ cur) : linePart cur text i = [] := by
  unfold linePart
  split
  · rw [nthLine_of_not_mem hmem, if_neg (by omega)]
  · rfl

/-- A token of newlines only has no part in any line. -/
theorem linePart_of_none {cur : Nat} {text : Bytes}
    (hnone : (text.splitOn newline).findIdx? (· ≠ []) = none) (i : Nat) :
    linePart cur text i = [] := by
  unfold linePart
  split
  · rw [nthLine, List.getD_eq_getElem?_getD]
    cases hseg : (text.splitOn newline)[i - cur]? with
    | none => rfl
    | some seg => simpa using List.findIdx?_eq_none_iff.mp hnone seg (List.mem_of_getElem? hseg)
  · rfl

/-- A line with a part is a line of a part that is not empty. -/
theorem mem_partLines {cur n : Nat} {text : Bytes} {i : Nat} (hi : i < n)
    (hpart : linePart cur text i ≠ []) : i ∈ partLines cur n (text.splitOn newline) := by
  have hle : cur ≤ i := by
    by_contra hlt
    exact hpart (if_neg hlt)
  obtain ⟨j, rfl⟩ := Nat.exists_eq_add_of_le hle
  rw [linePart_add] at hpart
  rw [List.getD_eq_getElem?_getD] at hpart
  cases hj : (text.splitOn newline)[j]? with
  | none => exact absurd (by rw [hj]; rfl) hpart
  | some seg =>
      rw [hj, Option.getD_some] at hpart
      exact List.mem_filterMap.mpr
        ⟨(seg, j), List.mem_zipIdx_iff_getElem?.mpr hj, by simp [hpart, hi]⟩

/-- Two places of a list that are kept by a filter. -/
theorem two_le_length_filter {l : List Bytes} {i j : Nat} (hij : i < j) (hi : l.getD i [] ≠ [])
    (hj : l.getD j [] ≠ []) : 2 ≤ (l.filter (· ≠ [])).length := by
  induction l generalizing i j with
  | nil => simp at hi
  | cons a l ih =>
      obtain ⟨j, rfl⟩ : ∃ k, j = k + 1 := ⟨j - 1, by omega⟩
      rw [List.getD_cons_succ] at hj
      cases i with
      | zero =>
          have hmem : l.getD j [] ∈ l.filter (· ≠ []) := by
            rw [List.mem_filter]
            refine ⟨?_, by simpa using hj⟩
            rw [List.getD_eq_getElem?_getD] at hj ⊢
            cases h : l[j]? with
            | none => simp [h] at hj
            | some b => exact List.mem_of_getElem? h
          rw [List.filter_cons_of_pos (by simpa using hi), List.length_cons]
          have := List.length_pos_of_mem hmem
          omega
      | succ i =>
          have hrest := @ih i j (by omega) (by simpa using hi) hj
          exact hrest.trans ((List.sublist_cons_self a l).filter _).length_le

/-- Of a token with one part that is not empty, all the others are. -/
theorem linePart_of_first {cur : Nat} {text : Bytes} {first : Nat}
    (hfirst : (text.splitOn newline).findIdx? (· ≠ []) = some first)
    (hone : ((text.splitOn newline).filter (· ≠ [])).length < 2) :
    ∀ i, i ≠ cur + first → linePart cur text i = [] := by
  obtain ⟨hlt, hne, _⟩ := List.findIdx?_eq_some_iff_getElem.mp hfirst
  have hfirst' : (text.splitOn newline).getD first [] ≠ [] := by
    rw [List.getD_eq_getElem?_getD, List.getElem?_eq_getElem hlt]
    simpa using hne
  intro i hi
  by_contra hpart
  have hle : cur ≤ i := by
    by_contra hlt
    exact hpart (if_neg hlt)
  obtain ⟨j, rfl⟩ := Nat.exists_eq_add_of_le hle
  rw [linePart_add] at hpart
  -- a second part that is not empty, on one side of the first
  rcases Nat.lt_or_gt_of_ne (show j ≠ first by omega) with hlt | hgt
  · exact absurd (two_le_length_filter hlt hpart hfirst') (Nat.not_le.mpr hone)
  · exact absurd (two_le_length_filter hgt hfirst' hpart) (Nat.not_le.mpr hone)

/-- One turn of the token loop keeps the invariant. -/
theorem NormState.Keys.token {n : Nat} {text : Bytes} {st : NormState}
    (h : NormState.Keys n text st) {tok : Token}
    (hblank : tok.whitespace = true → ∀ c ∈ tok.text, isPhpSpace c = true) :
    NormState.Keys n (text ++ tok.text) (st.token tok) := by
  have hsegs : (tok.text.splitOn newline).length - 1 = tok.text.count newline := by
    rw [length_splitOn_newline, Nat.add_sub_cancel]
  rw [NormState.token]
  split
  next hws =>
    -- whitespace: a gap in every line
    refine h.next rfl rfl ?_
    intro i _ hmark
    exact ⟨hmark, .inl ⟨rfl, fun c hc => hblank hws c (mem_of_mem_linePart hc)⟩⟩
  split
  next hflat =>
    -- a token inside one line
    have hmem : newline ∉ tok.text := List.count_eq_zero.mp hflat
    have hcur := linePart_add st.cur tok.text 0
    rw [Nat.add_zero, List.splitOn_eq_singleton hmem] at hcur
    have happend := h.append fun i hi => linePart_of_not_mem hmem hi
    rw [hcur, hflat] at happend
    exact happend
  next =>
    simp only [hsegs]
    split
    · -- a token over several lines: they become indivisible
      refine h.next rfl rfl ?_
      intro i hi hmark
      obtain ⟨hbefore, hout⟩ := not_or.mp (List.mem_append.not.mp hmark)
      have hpart : linePart st.cur tok.text i = [] := by
        by_contra hne
        exact hout (mem_partLines (h.length.symm ▸ hi) hne)
      exact ⟨hbefore, .inl ⟨rfl, by simp [hpart]⟩⟩
    split
    next first hfirst =>
      -- content in one line only
      have happend := h.append (linePart_of_first hfirst (Nat.not_le.mp ‹_›))
      rw [linePart_add] at happend
      exact happend
    next hnone =>
      -- newlines only
      refine h.next rfl rfl ?_
      intro i _ hmark
      exact ⟨hmark, .inl ⟨rfl, by simp [linePart_of_none hnone]⟩⟩

/-- The whole loop: behind all tokens of a source. -/
theorem NormState.keys_foldl {src : Bytes} (t : Tokenization src) (n : Nat) :
    NormState.Keys n src (t.tokens.foldl NormState.token { keys := List.replicate n [] }) := by
  have hloop : ∀ (tokens : List Token) (text : Bytes) (st : NormState),
      (∀ tok ∈ tokens, tok.whitespace = true → ∀ c ∈ tok.text, isPhpSpace c = true) →
      NormState.Keys n text st →
      NormState.Keys n (text ++ (tokens.map Token.text).flatten)
        (tokens.foldl NormState.token st) := by
    intro tokens
    induction tokens with
    | nil =>
        intro text st _ h
        simpa using h
    | cons tok tokens ih =>
        intro text st hblank h
        rw [List.forall_mem_cons] at hblank
        rw [List.map_cons, List.flatten_cons, ← List.append_assoc, List.foldl_cons]
        exact ih _ _ hblank.2 (h.token hblank.1)
  have hstart : NormState.Keys n [] { keys := List.replicate n [] } := by
    refine ⟨List.length_replicate, rfl, ?_⟩
    intro l hl _
    have hempty : (List.replicate n ([] : Bytes)).getD l [] = [] := by
      simp [List.getD_eq_getElem?_getD, hl]
    rw [nthLine_nil, hempty]
    exact ⟨[], rfl, .gap (by simp)⟩
  have hend := hloop t.tokens [] _ t.blank hstart
  rwa [List.nil_append, t.concat] at hend

theorem physicalLines_eq {src : Bytes} (hne : src ≠ []) :
    physicalLines src = (splitLines src).length := by
  have hlen := @length_splitWith id [] (by simp) src
  simp only [List.nil_append, hne, false_or] at hlen
  exact hlen.symm

/-- A turn neither adds a key nor takes one away. -/
theorem NormState.length_token (st : NormState) (tok : Token) :
    (st.token tok).keys.length = st.keys.length := by
  have happend : ∀ l text, (appendKey st.keys l text).length = st.keys.length := fun _ _ =>
    List.length_modify _ _ _
  unfold NormState.token
  split
  · rfl
  split
  · exact happend _ _
  simp only
  split
  · rfl
  split
  · exact happend _ _
  · rfl

/-- One key for each line, whatever the tokens are. -/
theorem length_normalize (tokens : List Token) (src : Bytes) :
    (normalize tokens src).length = (splitLines src).length := by
  have hkeys : ∀ n : Nat, (tokens.foldl NormState.token
      { keys := List.replicate n [] }).keys.length = n := by
    intro n
    refine List.foldlRecOn (motive := fun st : NormState => st.keys.length = n) tokens _
      List.length_replicate ?_
    intro st hst tok _
    rw [st.length_token, hst]
  unfold normalize
  split
  next hnil =>
    rw [hnil]
    rfl
  next hne =>
    simp only
    split
    · rw [List.length_map, hkeys, physicalLines_eq hne]
    · rw [List.length_map, List.length_range, physicalLines_eq hne]

/-- The key of each line is a key of the line. -/
theorem normalize_keyOf {src : Bytes} (t : Tokenization src) {i : Nat} {norm : NormLine}
    (h : (normalize t.tokens src)[i]? = some norm) : norm.KeyOf (nthLine src i) := by
  have hkeys := NormState.keys_foldl t (physicalLines src)
  unfold normalize at h
  split at h
  · simp at h
  next hne =>
    simp only at h
    split at h
    next hnone =>
      -- no line is indivisible
      rw [List.getElem?_map, Option.map_eq_some_iff] at h
      obtain ⟨key, hkey, rfl⟩ := h
      obtain ⟨hi, hget⟩ := List.getElem?_eq_some_iff.mp hkey
      have hline := hkeys.keys i (hkeys.length ▸ hi) (by simp [hnone])
      rw [List.getD_eq_getElem?_getD, hkey, Option.getD_some] at hline
      exact .inr ⟨rfl, hline⟩
    next =>
      rw [List.getElem?_map, Option.map_eq_some_iff] at h
      obtain ⟨k, hk, rfl⟩ := h
      obtain ⟨hi, rfl⟩ := List.getElem?_eq_some_iff.mp hk
      rw [List.length_range] at hi
      simp only [List.getElem_range]
      split
      next => exact .inl ⟨rfl, rfl⟩
      next hmark =>
        exact .inr ⟨rfl, hkeys.keys _ hi (by simpa using hmark)⟩

/-! ## Normalizers with flags -/

/-- What `Normalizer::run` gives for a content. -/
structure FlaggedNormalizer where
  run : Bytes → List NormLine
  length_run : ∀ content, (run content).length = (splitLines content).length
  keyOf : ∀ content i (norm : NormLine), (run content)[i]? = some norm →
    norm.KeyOf (nthLine content i)

/-- The normalizer behind a tokenizer. -/
def FlaggedNormalizer.ofTokenizer (tokenGetAll : ∀ src, Tokenization src) : FlaggedNormalizer where
  run src := normalize (tokenGetAll src).tokens src
  length_run src := length_normalize (tokenGetAll src).tokens src
  keyOf src _ _ h := normalize_keyOf (tokenGetAll src) h

/-- Stripping a CR changes no line number. -/
theorem length_corpusSplitLines (content : Bytes) :
    (corpusSplitLines content).length = (splitLines content).length := by
  rw [corpusSplitLines, splitLines, length_splitWith (by simp), length_splitWith (by simp)]

/-- The keys of sources with any tokens. -/
def Normalizer.ofTokens (tokenGetAll : Bytes → List Token) : Normalizer where
  run src := (normalize (tokenGetAll src) src).map NormLine.key
  length_run src := by
    rw [List.length_map, length_normalize, length_corpusSplitLines]

/-- The keys, as `normalize_block_keys` and the corpus keep them: without the
flags. -/
def FlaggedNormalizer.keys (fn : FlaggedNormalizer) : Normalizer where
  run content := (fn.run content).map NormLine.key
  length_run content := by
    rw [List.length_map, fn.length_run, length_corpusSplitLines]

end Phpatcher.Tools
