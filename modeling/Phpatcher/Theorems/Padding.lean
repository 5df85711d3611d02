import Phpatcher.Theorems.NormalizedCorpus

/-!
# Paddings come back around another core

The generator takes form feeds and vertical tabs for whitespace when it
computes the paddings of a line, the applier does not when it trims the
corpus line. A corpus line that has such a byte at an edge of its text is
inserted with it, and the byte stands in the padding as well.
-/

namespace Phpatcher.Theorems

open Phpatcher.Basis Phpatcher.Core Phpatcher.Tools

/-- Stripped of blanks the line neither starts nor ends with a form feed or a
vertical tab. -/
def EdgesPlain (line : Bytes) : Prop :=
  ∀ c, (trimBlanks line).head? = some c ∨ (trimBlanks line).getLast? = some c →
    c ≠ formFeed ∧ c ≠ verticalTab

/-- The bytes the generator strips and the applier does not. -/
theorem isWs_eq_false_iff {c : UInt8} (h : isBlank c = false) :
    isWs c = false ↔ c ≠ formFeed ∧ c ≠ verticalTab := by
  have hsplit : isWs c = (isBlank c || c == formFeed || c == verticalTab) := rfl
  rw [hsplit, h, Bool.false_or, Bool.or_eq_false_iff, beq_eq_false_iff_ne, beq_eq_false_iff_ne]

/-- The two ways to trim agree on such lines and on no others. -/
theorem trimBlanks_eq_trim_iff (line : Bytes) : trimBlanks line = trim line ↔ EdgesPlain line := by
  have hws : ∀ c, isBlank c = true → isWs c = true := by
    intro c hc
    have hsplit : isWs c = (isBlank c || c == formFeed || c == verticalTab) := rfl
    rw [hsplit, hc]
    rfl
  have hbare := bareEdges_trimBoth isBlank line
  rw [trimBlanks, trim, trimBoth_eq_trimBoth_iff hws]
  constructor
  · rintro h c (hc | hc)
    · exact (isWs_eq_false_iff (hbare.1 c hc)).mp (h.1 c hc)
    · exact (isWs_eq_false_iff (hbare.2 c hc)).mp (h.2 c hc)
  · intro h
    exact ⟨fun c hc => (isWs_eq_false_iff (hbare.1 c hc)).mpr (h c (.inl hc)),
      fun c hc => (isWs_eq_false_iff (hbare.2 c hc)).mpr (h c (.inr hc))⟩

/-- The reference to `src` with the paddings of `dst` expands to the paddings
around the core of `src` as the generator sees it, and so to `dst` where the
cores are equal. -/
def PaddingFaithful (src dst lpad rpad : Bytes) (ref : EdRef) : Prop :=
  ref.expandLine src = lpad ++ trim src ++ rpad ∧
    (trim src = trim dst → ref.expandLine src = dst)

/-- **When paddings are faithful.** -/
theorem padding_faithful_iff {src dst lpad rpad : Bytes}
    (hpads : trimPadFor src dst = some (lpad, rpad)) (ref : EdRef) :
    PaddingFaithful src dst lpad rpad { ref with transform := .trimPad, lpad, rpad } ↔
      EdgesPlain src := by
  have hdst : lpad = lead dst ∧ rpad = trail dst := by
    unfold trimPadFor at hpads
    split at hpads
    · simp at hpads
    · obtain ⟨rfl, rfl⟩ := Prod.mk.inj (Option.some.inj hpads)
      exact ⟨rfl, rfl⟩
  have hexpand : EdRef.expandLine { ref with transform := .trimPad, lpad, rpad } src =
      lpad ++ trimBlanks src ++ rpad := rfl
  rw [PaddingFaithful, hexpand, ← trimBlanks_eq_trim_iff]
  constructor
  · rintro ⟨hcore, _⟩
    exact List.append_cancel_left (List.append_cancel_right hcore)
  · intro hcore
    refine ⟨by rw [hcore], fun heq => ?_⟩
    rw [hcore, heq, hdst.1, hdst.2]
    exact lead_trim_trail dst

/-- A line of code in another indentation. -/
theorem padding_faithful_indented :
    PaddingFaithful (ascii "f();") (ascii "\tf();") [tab] []
      { path := ascii "c", begin := 1, end_ := 1, transform := .trimPad, lpad := [tab] } :=
  (padding_faithful_iff (show trimPadFor (ascii "f();") (ascii "\tf();") = some ([tab], []) by
    decide +kernel) { path := ascii "c", begin := 1, end_ := 1 }).mpr (by
      rw [← trimBlanks_eq_trim_iff]
      decide +kernel)

/-- A form feed in front of the code is doubled: the cores are equal for the
generator, the expansion is another line. -/
theorem padding_faithful_fails :
    trimPadFor (formFeed :: ascii "f();") (tab :: formFeed :: ascii "f();") =
      some ([tab, formFeed], []) ∧
    trim (formFeed :: ascii "f();") = trim (tab :: formFeed :: ascii "f();") ∧
    EdRef.expandLine { transform := .trimPad, lpad := [tab, formFeed] }
      (formFeed :: ascii "f();") = tab :: formFeed :: formFeed :: ascii "f();" ∧
    ¬ PaddingFaithful (formFeed :: ascii "f();") (tab :: formFeed :: ascii "f();")
      [tab, formFeed] [] { transform := .trimPad, lpad := [tab, formFeed] } := by
  refine ⟨by decide +kernel, by decide +kernel, by decide +kernel, ?_⟩
  rintro ⟨hcore, _⟩
  exact absurd hcore (by decide +kernel)

end Phpatcher.Theorems
