import Phpatcher.Theorems.HalfDuplex

/-!
# Sources that the protocol can carry

The numbers of the protocol have 32 bits. A source of less than two gigabytes
and its response are within them: there are no more lines than bytes, and a key,
with a space in front of each further token, is at most twice as long as the
source.
-/

namespace Phpatcher.Theorems

open Phpatcher.Basis Phpatcher.Core Phpatcher.Tools

theorem length_nthLine_le (s : Bytes) (l : Nat) : (nthLine s l).length ≤ s.length := by
  induction s generalizing l with
  | nil => rw [nthLine_nil]
  | cons c s ih =>
      by_cases hc : c = newline
      · rw [hc, nthLine_newline]
        split
        · exact Nat.zero_le _
        · exact (ih _).trans (Nat.le_succ _)
      · rw [nthLine_cons hc]
        split
        · exact Nat.succ_le_succ (ih _)
        · exact (ih _).trans (Nat.le_succ _)

/-- No key is longer than twice the text behind it. -/
def KeysWithin (k : Nat) (keys : List Bytes) : Prop := ∀ i, (keys.getD i []).length ≤ 2 * k

theorem KeysWithin.mono {k k' : Nat} {keys : List Bytes} (h : KeysWithin k keys) (hle : k ≤ k') :
    KeysWithin k' keys := fun i => (h i).trans (by omega)

theorem KeysWithin.append {k : Nat} {keys : List Bytes} (h : KeysWithin k keys) (l : Nat)
    {text : Bytes} {j : Nat} (hpos : 0 < j) (hj : text.length ≤ j) :
    KeysWithin (k + j) (appendKey keys l text) := by
  intro i
  have hold := h i
  by_cases hi : i < keys.length
  · rw [getD_appendKey hi]
    split
    · split
      · -- the space in front of the text is covered by its first byte
        rw [List.length_append, List.length_append, List.length_singleton]
        omega
      · omega
    · omega
  · have hnone : (appendKey keys l text)[i]? = none :=
      List.getElem?_eq_none (by rw [appendKey, List.length_modify]; omega)
    rw [List.getD_eq_getElem?_getD, hnone]
    exact Nat.zero_le _

/-- One turn of the token loop. -/
theorem KeysWithin.token {k : Nat} {st : NormState} (h : KeysWithin k st.keys) {tok : Token}
    (hne : tok.text ≠ []) : KeysWithin (k + tok.text.length) (st.token tok).keys := by
  have hpos := List.length_pos_iff.mpr hne
  have hsame := h.mono (Nat.le_add_right k tok.text.length)
  unfold NormState.token
  split
  · exact hsame
  split
  · exact h.append _ hpos (Nat.le_refl _)
  simp only
  split
  · exact hsame
  split
  next first hfirst =>
    exact h.append _ hpos (length_nthLine_le tok.text first)
  · exact hsame

theorem keysWithin_foldl (tokens : List Token) (hne : ∀ tok ∈ tokens, tok.text ≠ []) {k : Nat}
    {st : NormState} (h : KeysWithin k st.keys) :
    KeysWithin (k + (tokens.map Token.text).flatten.length)
      (tokens.foldl NormState.token st).keys := by
  induction tokens generalizing k st with
  | nil => simpa using h
  | cons tok tokens ih =>
      rw [List.forall_mem_cons] at hne
      rw [List.map_cons, List.flatten_cons, List.length_append, ← Nat.add_assoc, List.foldl_cons]
      exact ih hne.2 (h.token hne.1)

/-- A key of a source is at most twice as long as the source. -/
theorem length_key_le {src : Bytes} (t : Tokenization src) (hne : ∀ tok ∈ t.tokens, tok.text ≠ [])
    {norm : NormLine} (h : norm ∈ Tools.normalize t.tokens src) :
    norm.key.length ≤ 2 * src.length := by
  have hstart : KeysWithin 0 (List.replicate (physicalLines src) []) := by
    intro i
    rw [List.getD_eq_getElem?_getD, List.getElem?_replicate]
    split <;> exact Nat.zero_le _
  have hkeys := @keysWithin_foldl t.tokens hne 0 { keys := List.replicate _ [] } hstart
  rw [t.concat, Nat.zero_add] at hkeys
  unfold Tools.normalize at h
  split at h
  · simp at h
  simp only at h
  split at h
  · obtain ⟨key, hkey, rfl⟩ := List.mem_map.mp h
    obtain ⟨i, hi⟩ := List.mem_iff_getElem?.mp hkey
    have := hkeys i
    rwa [List.getD_eq_getElem?_getD, hi] at this
  · obtain ⟨i, _, rfl⟩ := List.mem_map.mp h
    split
    · have hline := length_nthLine_le src i
      have hstrip := (List.rdropWhile_prefix (· == carriageReturn) (nthLine src i)).length_le
      exact (hstrip.trans hline).trans (by omega)
    · exact hkeys i

section

variable (tokenGetAll : ∀ src, Tokenization src)
  (hne : ∀ src, ∀ tok ∈ (tokenGetAll src).tokens, tok.text ≠ []) {src : Bytes}
  (hlen : src.length < 2147483648)

include hne hlen in
theorem carried_normalize : Carried (Tools.normalize (tokenGetAll src).tokens src) where
  count := by
    rw [length_normalize]
    exact (length_splitLines_le src).trans_lt (by omega)
  keys norm hnorm := (length_key_le (tokenGetAll src) (hne src) hnorm).trans_lt (by omega)

include hne hlen in
/-- What `run` returns for such a source, however it arrives, is what the tools take the
normalizer to say. -/
theorem runLines_ofTokenizer {pipe : Pipe}
    (hpipe : pipe.pending = encodeResponse (Tools.normalize (tokenGetAll src).tokens src)) :
    runLines pipe = .ok ((FlaggedNormalizer.ofTokenizer tokenGetAll).run src) :=
  runLines_encoded (carried_normalize tokenGetAll hne hlen) hpipe

end

/-- **A source below two gigabytes fits.** -/
theorem fits_normalize (tokenGetAll : ∀ src, Tokenization src)
    (hne : ∀ src, ∀ tok ∈ (tokenGetAll src).tokens, tok.text ≠ []) {src : Bytes}
    (hlen : src.length < 2147483648) :
    Fits (fun src => Tools.normalize (tokenGetAll src).tokens src) src where
  length := by omega
  carried := carried_normalize tokenGetAll hne hlen

/-- Text without an opening tag is one token. -/
def htmlTokens (src : Bytes) : Tokenization src where
  tokens := if src = [] then [] else [{ text := src }]
  concat := by
    split
    next h => exact h.symm
    next => simp
  blank := by
    intro tok htok hblank
    split at htok
    · simp at htok
    · obtain rfl := List.mem_singleton.mp htok
      cases hblank

theorem fits_normalize_html :
    Fits (fun src => Tools.normalize (htmlTokens src).tokens src) (ascii "plain\ntext\n") := by
  refine fits_normalize htmlTokens ?_ (by decide)
  intro src tok htok
  unfold htmlTokens at htok
  split at htok
  · simp at htok
  next h =>
    obtain rfl := List.mem_singleton.mp htok
    exact h

end Phpatcher.Theorems
