import Phpatcher.Glue.Resolver
import Phpatcher.Tools.Indexer
import Phpatcher.Tools.Normalize

/-!
# The splitters as they are written

Every component walks over a content by index and cuts it at its newlines: the
apply core (`split_lines` of `patch.cpp`), the resolver
(`phpatcher_split_lines`), the generator and the matcher (`split_lines` of
`changes.cpp` and of `matcher.cpp`) and the line scan of the indexer. Here the
loops stand as in the source; each is the splitting the rest of the model uses.
-/

namespace Phpatcher.Tools

open Phpatcher.Basis Phpatcher.Core Phpatcher.Glue

/-- `content.substr(start, end - start)`. -/
def slice (content : Bytes) (start end_ : Nat) : Bytes := (content.drop start).take (end_ - start)

/-- Where a line that starts at `start` ends in front of a newline at `i`; a CR
there is left out if CRs are stripped. -/
def lineEnd (strip : Bool) (content : Bytes) (start i : Nat) : Nat :=
  if strip ∧ i > start ∧ content[i - 1]? = some carriageReturn then i - 1 else i

/-- The loop of a splitter at index `i`, with `left` bytes left. -/
def splitLoop (strip : Bool) (content : Bytes) : Nat → Nat → Nat → List Bytes
  | 0, _, start => if start < content.length then [content.drop start] else []
  | left + 1, i, start =>
      if content[i]? = some newline then
        slice content start (lineEnd strip content start i) ::
          splitLoop strip content left (i + 1) (i + 1)
      else splitLoop strip content left (i + 1) start

/-- `split_lines` of `patch.cpp`. -/
def patchSplitLoop (content : Bytes) : List Bytes := splitLoop false content content.length 0 0

/-- `phpatcher_split_lines` of `phpatcher.cpp`. -/
def resolverSplitLoop (content : Bytes) : List Bytes := splitLoop true content content.length 0 0

/-- `split_lines` of `changes.cpp`. -/
def changesSplitLoop (content : Bytes) : List Bytes := splitLoop true content content.length 0 0

/-- `split_lines` of `matcher.cpp`. -/
def matcherSplitLoop (content : Bytes) : List Bytes := splitLoop true content content.length 0 0

/-- The byte-mode line loop of the indexer at index `i`, with `left` bytes
left; the turn behind the last byte ends a line, too, if one has begun. -/
def scanLoop (opt : Options) (rel content : Bytes) : Nat → Nat → Nat → Scan → Scan
  | 0, i, start, s => if start = i then s else s.line opt rel (slice content start i)
  | left + 1, i, start, s =>
      if content[i]? = some newline then
        scanLoop opt rel content left (i + 1) (i + 1) (s.line opt rel (slice content start i))
      else scanLoop opt rel content left (i + 1) start s

/-! ## Loops and splittings -/

/-- A slice gets longer by the byte at its end. -/
theorem slice_succ {content : Bytes} {start i : Nat} (hstart : start ≤ i) {c : UInt8}
    (hc : content[i]? = some c) : slice content start (i + 1) = slice content start i ++ [c] := by
  rw [slice, slice, show i + 1 - start = i - start + 1 by omega, List.take_add_one,
    List.getElem?_drop, Nat.add_sub_cancel' hstart, hc]
  rfl

theorem slice_self (content : Bytes) (i : Nat) : slice content i i = [] := by
  rw [slice, Nat.sub_self, List.take_zero]

/-- The cut line is the line under construction, finished. -/
theorem slice_lineEnd (strip : Bool) {content : Bytes} {start i : Nat} (hstart : start ≤ i)
    (hi : i ≤ content.length) :
    slice content start (lineEnd strip content start i) =
      (if strip then dropLastByte carriageReturn else id) (slice content start i) := by
  cases strip with
  | false => rfl
  | true =>
      rcases Nat.lt_or_eq_of_le hstart with hlt | rfl
      · -- the last byte of the line is the one in front of the newline
        obtain ⟨k, rfl⟩ : ∃ k, i = k + 1 := ⟨i - 1, by omega⟩
        have hk : content[k]? = some content[k] := List.getElem?_eq_getElem (by omega)
        simp only [lineEnd, if_true, true_and, Nat.add_sub_cancel, hk, Option.some.injEq]
        rw [slice_succ (by omega) hk]
        by_cases hcr : content[k] = carriageReturn
        · rw [if_pos ⟨hlt, hcr⟩, hcr, dropLastByte_append]
        · rw [if_neg fun h => hcr h.2, slice_succ (by omega) hk, dropLastByte, if_neg]
          simpa using hcr
      · simp [lineEnd, slice_self, dropLastByte]

/-- The loop of a splitter is a splitting. -/
theorem splitLoop_eq (strip : Bool) (content : Bytes) {left i start : Nat}
    (hleft : i + left = content.length) (hstart : start ≤ i) :
    splitLoop strip content left i start =
      splitWith (if strip then dropLastByte carriageReturn else id) (slice content start i)
        (content.drop i) := by
  induction left generalizing i start with
  | zero =>
      have hslice : slice content start i = content.drop start := by
        rw [slice, List.take_of_length_le]
        rw [List.length_drop]
        omega
      rw [List.drop_eq_nil_of_le (by omega), splitWith, splitLoop, hslice]
      by_cases h : start < content.length
      · have hne : content.drop start ≠ [] := by simpa using h
        rw [if_pos h, if_neg hne]
      · rw [if_neg h, if_pos (by simpa using h)]
  | succ left ih =>
      have hi : i < content.length := by omega
      rw [splitLoop, List.drop_eq_getElem_cons hi, splitWith, List.getElem?_eq_getElem hi]
      by_cases hc : content[i] = newline
      · rw [if_pos (congrArg some hc), if_pos hc, slice_lineEnd strip hstart hi.le,
          ih (by omega) (Nat.le_refl _), slice_self]
      · rw [if_neg fun h => hc (Option.some.inj h), if_neg hc, ih (by omega) (by omega),
          slice_succ hstart (List.getElem?_eq_getElem hi)]

/-- So is the loop of the scan. -/
theorem scanLoop_eq (opt : Options) (rel content : Bytes) {left i start : Nat} (s : Scan)
    (hleft : i + left = content.length) (hstart : start ≤ i) :
    scanLoop opt rel content left i start s =
      Scan.bytes opt rel s (slice content start i) (content.drop i) := by
  induction left generalizing i start s with
  | zero =>
      rw [List.drop_eq_nil_of_le (by omega), Scan.bytes, scanLoop]
      by_cases h : start = i
      · rw [if_pos h, h, slice_self, if_pos rfl]
      · have hne : slice content start i ≠ [] := by
          intro hnil
          have hlen := congrArg List.length hnil
          rw [slice, List.length_take, List.length_drop, List.length_nil] at hlen
          omega
        rw [if_neg h, if_neg hne]
  | succ left ih =>
      have hi : i < content.length := by omega
      rw [scanLoop, List.drop_eq_getElem_cons hi, Scan.bytes, List.getElem?_eq_getElem hi]
      by_cases hc : content[i] = newline
      · rw [if_pos (congrArg some hc), if_pos hc, ih _ (by omega) (Nat.le_refl _), slice_self]
      · rw [if_neg fun h => hc (Option.some.inj h), if_neg hc, ih _ (by omega) (by omega),
          slice_succ hstart (List.getElem?_eq_getElem hi)]

/-- The whole loops. -/
theorem splitLoop_start (strip : Bool) (content : Bytes) :
    splitLoop strip content content.length 0 0 =
      splitWith (if strip then dropLastByte carriageReturn else id) [] content :=
  splitLoop_eq strip content (Nat.zero_add _) (Nat.le_refl 0)

theorem patchSplitLoop_eq (content : Bytes) : patchSplitLoop content = splitLines content :=
  splitLoop_start false content

theorem resolverSplitLoop_eq (content : Bytes) :
    resolverSplitLoop content = phpatcherSplitLines content :=
  splitLoop_start true content

theorem changesSplitLoop_eq (content : Bytes) :
    changesSplitLoop content = corpusSplitLines content :=
  splitLoop_start true content

end Phpatcher.Tools
