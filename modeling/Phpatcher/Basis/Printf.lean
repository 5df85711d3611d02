import Phpatcher.Basis.Bytes

/-!
# Formatted output

What `printf` makes of byte strings. A `%s` ends at the first zero byte and a
precision cuts it, unless it is negative; a call whose output has more bytes
than an `int` can count fails. So a piece that is printed for a text is the text
itself or it is shorter, and several pieces are their texts only if every one is
(`PrintsAll.iff`).
-/

namespace Phpatcher.Basis

def nul : UInt8 := 0

/-- `INT_MAX`. -/
def intMax : Nat := 2147483647

/-- `static_cast<int>` of a size. -/
def toInt (n : Nat) : Int := (n : Int).bmod 4294967296

/-- The string at an address, up to its terminating zero. -/
def cString (memory : Bytes) : Bytes := memory.takeWhile (· != nul)

/-- `%.*s`. -/
def withPrecision (precision : Int) (memory : Bytes) : Bytes :=
  cString (if precision < 0 then memory else memory.take precision.toNat)

/-- A call with this output; `none` where it fails. -/
def printed (out : Bytes) : Option Bytes := if out.length ≤ intMax then some out else none

/-- Two calls, one after the other. -/
def andThen (first second : Option Bytes) : Option Bytes := do
  let a ← first
  let b ← second
  pure (a ++ b)

/-! ## Strings -/

theorem cString_of_not_mem {s : Bytes} (h : nul ∉ s) : cString s = s := by
  refine List.takeWhile_eq_self_iff.mpr fun c hc => ?_
  rw [bne_iff_ne]
  rintro rfl
  exact h hc

/-- A part of the memory from its start has a part of the string. -/
theorem length_cString_take_le (k : Nat) (memory : Bytes) :
    (cString (memory.take k)).length ≤ (cString memory).length := by
  induction memory generalizing k with
  | nil => rw [List.take_nil]
  | cons c memory ih =>
      cases k with
      | zero => exact Nat.zero_le _
      | succ k =>
          rw [List.take_succ_cons, cString, cString, List.takeWhile_cons, List.takeWhile_cons]
          split
          · exact Nat.succ_le_succ (ih k)
          · exact Nat.le_refl _

theorem length_cString_le (s : Bytes) : (cString s).length ≤ s.length :=
  (List.takeWhile_prefix _).length_le

/-- A string with a zero byte ends in front of it, whatever stands behind. -/
theorem length_cString_append_lt {s : Bytes} (h : nul ∈ s) (behind : Bytes) :
    (cString (s ++ behind)).length < s.length := by
  induction s with
  | nil => simp at h
  | cons c s ih =>
      rw [List.cons_append, cString]
      by_cases hc : c = nul
      · simp [hc]
      · have hrest : nul ∈ s := by simpa [Ne.symm hc] using h
        have hlt := ih hrest
        rw [cString] at hlt
        simpa [hc] using hlt

theorem length_cString_lt {s : Bytes} (h : nul ∈ s) : (cString s).length < s.length := by
  have hlt := length_cString_append_lt h []
  rwa [List.append_nil] at hlt

/-- A size below `2^31` is its own `int`. -/
theorem toInt_of_le {n : Nat} (h : n ≤ intMax) : toInt n = n := by
  unfold intMax at h
  exact Int.bmod_eq_of_le (by omega) (by omega)

theorem toInt_le (n : Nat) : toInt n ≤ intMax := by
  have hlt := @Int.bmod_lt n 4294967296 (by omega)
  unfold toInt intMax
  omega

/-- A precision prints no more than no precision does. -/
theorem length_withPrecision_le (precision : Int) (memory : Bytes) :
    (withPrecision precision memory).length ≤ (cString memory).length := by
  rw [withPrecision]
  split
  · exact Nat.le_refl _
  · exact length_cString_take_le _ _

theorem length_withPrecision_le_toNat {precision : Int} (h : 0 ≤ precision) (memory : Bytes) :
    (withPrecision precision memory).length ≤ precision.toNat := by
  rw [withPrecision, if_neg (by omega)]
  exact (length_cString_le _).trans (by rw [List.length_take]; omega)

/-! ## Pieces and texts -/

/-- Text that comes out as it stands. -/
def Printable (text : Bytes) : Prop := nul ∉ text ∧ text.length ≤ intMax

/-- What was printed for some texts: they are all printable and it is them, or
it is shorter. -/
structure PrintsAll (piece : Option Bytes) (texts : List Bytes) : Prop where
  whole : (∀ text ∈ texts, Printable text) → piece = some texts.flatten
  short : ¬ (∀ text ∈ texts, Printable text) → ∀ out, piece = some out →
    out.length < texts.flatten.length

namespace PrintsAll

theorem length_le {piece : Option Bytes} {texts : List Bytes} (h : PrintsAll piece texts)
    {out : Bytes} (hout : piece = some out) : out.length ≤ texts.flatten.length := by
  by_cases hall : ∀ text ∈ texts, Printable text
  · rw [h.whole hall] at hout
    rw [Option.some.inj hout]
  · exact (h.short hall out hout).le

theorem nil : PrintsAll (some []) [] where
  whole _ := rfl
  short h := absurd (by simp) h

theorem append {first second : Option Bytes} {texts texts' : List Bytes}
    (h : PrintsAll first texts) (h' : PrintsAll second texts') :
    PrintsAll (andThen first second) (texts ++ texts') where
  whole hall := by
    rw [List.forall_mem_append] at hall
    rw [andThen, h.whole hall.1, h'.whole hall.2, List.flatten_append]
    rfl
  short hall out hout := by
    obtain ⟨a, ha, hout⟩ := Option.bind_eq_some_iff.mp hout
    obtain ⟨b, hb, hout⟩ := Option.bind_eq_some_iff.mp hout
    obtain rfl : a ++ b = out := Option.some.inj hout
    have hle := h.length_le ha
    have hle' := h'.length_le hb
    rw [List.flatten_append, List.length_append, List.length_append]
    -- one of the two is shorter
    by_cases hfirst : ∀ text ∈ texts, Printable text
    · have hsecond : ¬ ∀ text ∈ texts', Printable text := fun hsecond =>
        hall (List.forall_mem_append.mpr ⟨hfirst, hsecond⟩)
      have := h'.short hsecond b hb
      omega
    · have := h.short hfirst a ha
      omega

/-- **Printing texts.** -/
theorem iff {piece : Option Bytes} {texts : List Bytes} (h : PrintsAll piece texts) :
    piece = some texts.flatten ↔ ∀ text ∈ texts, Printable text := by
  refine ⟨fun hpiece => ?_, h.whole⟩
  by_contra hall
  exact absurd (h.short hall _ hpiece) (Nat.lt_irrefl _)

/-- A call that prints `out` for a text. -/
theorem ofPrinted {out text : Bytes} (hwhole : Printable text → out = text)
    (hshort : ¬ Printable text → out.length ≤ intMax → out.length < text.length) :
    PrintsAll (printed out) [text] where
  whole hall := by
    have htext := hall text List.mem_cons_self
    rw [hwhole htext, printed, if_pos htext.2, List.flatten_singleton]
  short hall out' hout' := by
    rw [List.forall_mem_singleton] at hall
    rw [printed] at hout'
    split at hout'
    next hlength =>
      obtain rfl := Option.some.inj hout'
      rw [List.flatten_singleton]
      exact hshort hall hlength
    next => simp at hout'

theorem map_cString {parts : List Bytes} (h : nul ∉ parts.flatten) :
    parts.map cString = parts := by
  refine (List.map_congr_left fun part hpart => ?_).trans (List.map_id parts)
  exact cString_of_not_mem fun hmem => h (List.mem_flatten.mpr ⟨part, hpart, hmem⟩)

theorem length_map_cString_lt {parts : List Bytes} (h : nul ∈ parts.flatten) :
    (parts.map cString).flatten.length < parts.flatten.length := by
  induction parts with
  | nil => simp at h
  | cons part parts ih =>
      rw [List.map_cons, List.flatten_cons, List.flatten_cons, List.length_append,
        List.length_append]
      have hpart := length_cString_le part
      rw [List.flatten_cons] at h
      rcases List.mem_append.mp h with hmem | hmem
      · have := length_cString_lt hmem
        have hle : (parts.map cString).flatten.length ≤ parts.flatten.length := by
          rw [List.length_flatten, List.length_flatten, List.map_map]
          exact List.sum_le_sum fun part _ => length_cString_le part
        omega
      · have := ih hmem
        omega

/-- A format whose parts are printed one after the other as strings. -/
theorem fields (parts : List Bytes) :
    PrintsAll (printed (parts.map cString).flatten) [parts.flatten] := by
  refine ofPrinted (fun htext => by rw [map_cString htext.1]) fun htext hlength => ?_
  by_cases hmem : nul ∈ parts.flatten
  · exact length_map_cString_lt hmem
  · rw [map_cString hmem] at hlength
    exact absurd ⟨hmem, hlength⟩ htext

/-- A line printed with its size as the precision, and one more byte. Nothing is
known of the memory behind the line. -/
theorem line (s behind : Bytes) {last : UInt8} (hlast : last ≠ nul) :
    PrintsAll (printed (withPrecision (toInt s.length) (s ++ behind) ++ [last])) [s ++ [last]] := by
  refine ofPrinted (fun htext => ?_) fun htext hlength => ?_
  · obtain ⟨hclean, hsize⟩ := htext
    rw [List.length_append, List.length_singleton] at hsize
    rw [toInt_of_le (by omega), withPrecision, if_neg (by omega), Int.toNat_natCast,
      List.take_left, cString_of_not_mem fun hmem => hclean (List.mem_append_left _ hmem)]
  · rw [List.length_append, List.length_singleton] at hlength ⊢
    rw [List.length_append, List.length_singleton]
    by_cases hmem : nul ∈ s
    · have hle := length_withPrecision_le (toInt s.length) (s ++ behind)
      have hlt := length_cString_append_lt hmem behind
      omega
    · have hlong : intMax ≤ s.length := by
        by_contra hshort
        refine htext ⟨fun h => ?_, ?_⟩
        · rcases List.mem_append.mp h with h | h
          · exact hmem h
          · exact hlast (List.mem_singleton.mp h).symm
        · rw [List.length_append, List.length_singleton]
          omega
      by_cases hneg : toInt s.length < 0
      · -- without a precision the whole line is printed, at least
        rw [withPrecision, if_pos hneg, cString, List.takeWhile_append_of_pos, List.length_append]
          at hlength
        · omega
        · intro c hc
          rw [bne_iff_ne]
          rintro rfl
          exact hmem hc
      · -- and with one no more than an `int` can count
        have hle := length_withPrecision_le_toNat (by omega : 0 ≤ toInt s.length) (s ++ behind)
        have hmax := toInt_le s.length
        by_cases hexact : s.length = intMax
        · rw [toInt_of_le hexact.le, withPrecision, if_neg (by omega), Int.toNat_natCast,
            List.take_left, cString_of_not_mem hmem] at hlength
          omega
        · omega

end PrintsAll

end Phpatcher.Basis
