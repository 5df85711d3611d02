import Phpatcher.Basis.Views
import Phpatcher.Tools.Splitters

/-!
# What the splitters cut, as parts

The loops of `Splitters` give lines; the same lines are parts of the content, so that
views of these parts read them.
-/

namespace Phpatcher.Tools

open Phpatcher.Basis Phpatcher.Core

theorem start_le_lineEnd (strip : Bool) (content : Bytes) {start i : Nat} (hstart : start ≤ i) :
    start ≤ lineEnd strip content start i ∧ lineEnd strip content start i ≤ i := by
  unfold lineEnd
  split
  next h => omega
  next => exact ⟨hstart, Nat.le_refl i⟩

/-- A splitter cuts its parts out. -/
theorem splitLoop_eq_spans (strip : Bool) (content : Bytes) (left i start : Nat) :
    splitLoop strip content left i start =
      (cutSpans newline (lineEnd strip content) content left i start).map fun span =>
        slice content span.1 span.2 := by
  induction left generalizing i start with
  | zero =>
      rw [splitLoop, cutSpans]
      split
      next =>
        rw [List.map_singleton, slice, List.take_of_length_le (by rw [List.length_drop])]
      next => rfl
  | succ left ih =>
      rw [splitLoop, cutSpans]
      split
      next => rw [List.map_cons, ih]
      next => rw [ih]

theorem splitLoop_spans (strip : Bool) (content : Bytes) :
    splitLoop strip content content.length 0 0 =
      (cutSpans newline (lineEnd strip content) content content.length 0 0).map fun span =>
        slice content span.1 span.2 :=
  splitLoop_eq_spans strip content content.length 0 0

/-- Views of the parts read the slices. -/
theorem read_spans {m : Memory UInt8} {addr : Nat} {content : Bytes}
    (hcells : m.cells addr = some content) {cut : Nat → Nat → Nat}
    (hcut : ∀ start i, start ≤ i → start ≤ cut start i ∧ cut start i ≤ i) :
    ((cutSpans newline cut content content.length 0 0).map (View.ofSpan addr)).map (View.read m) =
      ((cutSpans newline cut content content.length 0 0).map fun span =>
        slice content span.1 span.2).map some := by
  rw [List.map_map, List.map_map]
  refine List.map_congr_left fun span hspan => ?_
  have hin := mem_cutSpans hcut (Nat.zero_add content.length) (Nat.le_refl 0) span hspan
  exact View.read_ofSpan hcells hin

end Phpatcher.Tools
