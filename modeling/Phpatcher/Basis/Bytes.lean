import Mathlib.Data.List.DropRight
import Mathlib.Data.List.Lex
import Mathlib.Tactic

/-!
# Byte strings

A `std::string` is a sequence of bytes with no further structure. Everything
that reads or writes text here works on `Bytes`; ASCII constants are written
as `ascii "..."` and reduce in the kernel.

The lexicographic order on byte strings compares bytes as unsigned numbers,
the order `std::string::operator<` uses.
-/

namespace Phpatcher.Basis

/-- A string of raw bytes. -/
abbrev Bytes := List UInt8

instance byteLinearOrder : LinearOrder UInt8 where
  le_refl := UInt8.le_refl
  le_trans _ _ _ := UInt8.le_trans
  le_antisymm _ _ := UInt8.le_antisymm
  le_total := UInt8.le_total
  lt_iff_le_not_ge a b := by
    simp only [UInt8.lt_iff_toNat_lt, UInt8.le_iff_toNat_le]
    omega
  toDecidableLE := inferInstance
  toDecidableLT := inferInstance
  toDecidableEq := inferInstance

/-- The bytes of an ASCII literal. -/
def ascii (s : String) : Bytes := s.toList.map fun c => c.toNat.toUInt8

/-! ## Named bytes -/

abbrev tab : UInt8 := 9
abbrev newline : UInt8 := 10
abbrev verticalTab : UInt8 := 11
abbrev formFeed : UInt8 := 12
abbrev carriageReturn : UInt8 := 13
abbrev space : UInt8 := 32
abbrev doubleQuote : UInt8 := 34
abbrev hash : UInt8 := 35
abbrev singleQuote : UInt8 := 39
abbrev comma : UInt8 := 44
abbrev dot : UInt8 := 46
abbrev slash : UInt8 := 47
abbrev backslash : UInt8 := 92

/-! ## Trimming -/

/-- Drop the longest prefix and the longest suffix made of bytes in `p`. -/
def trimBoth (p : UInt8 → Bool) (s : Bytes) : Bytes := (s.dropWhile p).rdropWhile p

/-- Trimming removes a prefix and a suffix of bytes in `p`, nothing else. -/
theorem trimBoth_split (p : UInt8 → Bool) (s : Bytes) :
    s = s.takeWhile p ++ trimBoth p s ++ (s.dropWhile p).rtakeWhile p := by
  rw [trimBoth, List.append_assoc, List.rdropWhile_append_rtakeWhile,
    List.takeWhile_append_dropWhile]

/-- Trimming takes a byte in `p` off the end. -/
theorem trimBoth_concat {p : UInt8 → Bool} {c : UInt8} (h : p c = true) (s : Bytes) :
    trimBoth p (s ++ [c]) = trimBoth p s := by
  rw [trimBoth, trimBoth, List.dropWhile_append]
  split
  next hnone =>
    rw [List.isEmpty_iff.mp hnone]
    simp [h]
  next => exact List.rdropWhile_concat_pos p _ c h

/-- Neither end of the byte string is in `p`. -/
def BareEdges (p : UInt8 → Bool) (s : Bytes) : Prop :=
  (∀ c, s.head? = some c → p c = false) ∧ ∀ c, s.getLast? = some c → p c = false

/-- What trimming leaves has bare edges. -/
theorem bareEdges_trimBoth (p : UInt8 → Bool) (s : Bytes) : BareEdges p (trimBoth p s) := by
  rw [trimBoth]
  constructor
  · -- the first byte left is the first one left by the first step
    intro c hc
    obtain ⟨t, ht⟩ := List.rdropWhile_prefix p (s.dropWhile p)
    have hhead : (s.dropWhile p).head? = some c := by
      rw [← ht, List.head?_append, hc, Option.some_or]
    have := List.head?_dropWhile_not p s
    rw [hhead] at this
    simpa using this
  · intro c hc
    obtain ⟨hne, hlast⟩ := List.mem_getLast?_eq_getLast hc
    have := List.rdropWhile_last_not p (s.dropWhile p) hne
    rwa [← hlast, Bool.not_eq_true] at this

/-- Bytes with bare edges between bytes in `p` are what trimming leaves. -/
theorem trimBoth_eq {p : UInt8 → Bool} {a t b : Bytes} (ha : ∀ c ∈ a, p c = true)
    (hb : ∀ c ∈ b, p c = true) (ht : BareEdges p t) : trimBoth p (a ++ t ++ b) = t := by
  have hfront : (t ++ b).dropWhile p = if t = [] then [] else t ++ b := by
    cases t with
    | nil => simpa using hb
    | cons c t => simp [ht.1 c rfl]
  have hback : ∀ u : Bytes, u = t → u.rdropWhile p = u := by
    rintro _ rfl
    rw [List.rdropWhile_eq_self_iff]
    intro hne
    rw [Bool.not_eq_true]
    exact ht.2 _ (List.getLast?_eq_some_getLast hne)
  rw [trimBoth, List.append_assoc, List.dropWhile_append_of_pos ha, hfront]
  split
  next hnil =>
    rw [hnil]
    rfl
  next =>
    rw [List.rdropWhile, List.reverse_append, List.dropWhile_append_of_pos (by simpa using hb)]
    exact hback t rfl

/-- Trimming more than before takes nothing more off just when the edges are
bare of it. -/
theorem trimBoth_eq_trimBoth_iff {p q : UInt8 → Bool} (h : ∀ c, p c = true → q c = true)
    (s : Bytes) : trimBoth p s = trimBoth q s ↔ BareEdges q (trimBoth p s) := by
  constructor
  · intro heq
    rw [heq]
    exact bareEdges_trimBoth q s
  · intro hbare
    have hsplit := trimBoth_split p s
    have htrim := @trimBoth_eq q (s.takeWhile p) (trimBoth p s) ((s.dropWhile p).rtakeWhile p)
      (fun c hc => h c (List.mem_takeWhile_imp hc))
      (fun c hc => h c (List.mem_rtakeWhile_imp hc)) hbare
    rw [← hsplit] at htrim
    exact htrim.symm

end Phpatcher.Basis
