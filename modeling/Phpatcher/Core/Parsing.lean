import Phpatcher.Core.Scan

/-!
# What parsing accepts

`parse` checks the magic line, scans, sorts and looks for duplicates.
`parse_eq_ok` says of which texts it makes a patch set, and which one.
-/

namespace Phpatcher.Core

open Phpatcher.Basis

/-! ## Parsing -/

/-- Without an open section a text starts with a header. -/
theorem Body.unopened {lines : List Bytes} {cs : List WrittenCommand} {ss : List FileSection}
    (h : Body false lines cs ss) : cs = [] := by
  generalize hopened : false = opened at h
  induction h with
  | nil => rfl
  | filler _ _ _ _ ih => exact ih hopened
  | command _ _ _ _ => exact absurd hopened (by simp)
  | block _ _ _ _ _ => exact absurd hopened (by simp)
  | file _ _ _ => rfl
  | newFile _ _ _ _ => rfl

/-- A created file has the command that appends its content. -/
theorem Body.commands_ne_nil {opened : Bool} {lines : List Bytes} {cs : List WrittenCommand}
    {ss : List FileSection} (h : Body opened lines cs ss) :
    ∀ s ∈ ss, s.creates = true → s.commands ≠ [] := by
  induction h with
  | nil => simp
  | filler _ _ _ _ ih => exact ih
  | command _ _ _ ih => exact ih
  | block _ _ _ _ ih => exact ih
  | file _ _ ih =>
      rw [List.forall_mem_cons]
      exact ⟨by simp, ih⟩
  | newFile _ _ _ ih =>
      rw [List.forall_mem_cons]
      exact ⟨by simp, ih⟩

/-- The first line that is not blank starts, after blanks, with the magic
token. -/
def StartsWithMagic (text : Bytes) : Prop :=
  ∃ blanks line rest, splitLines text = blanks ++ line :: rest ∧
    (∀ b ∈ blanks, trimBlanks b = []) ∧ trimBlanks line ≠ [] ∧
    kEdMagic.isPrefixOf (line.dropWhile isBlank)

theorem trimBlanks_eq_nil {line : Bytes} : trimBlanks line = [] ↔ line.dropWhile isBlank = [] := by
  constructor
  · intro h
    rw [show trimBlanks line = rtrim (line.dropWhile isBlank) from rfl, rtrim_eq_nil] at h
    have hfirst := List.head?_dropWhile_not isBlank line
    cases hrest : line.dropWhile isBlank with
    | nil => rfl
    | cons c rest =>
        rw [hrest] at h hfirst
        simp [h c List.mem_cons_self] at hfirst
  · intro h
    rw [show trimBlanks line = rtrim (line.dropWhile isBlank) from rfl, h]
    rfl

theorem looksLikeEdBundle_iff {text : Bytes} :
    looksLikeEdBundle text = true ↔ StartsWithMagic text := by
  rw [looksLikeEdBundle, StartsWithMagic]
  induction splitLines text with
  | nil => simp
  | cons line lines ih =>
      by_cases hblank : line.dropWhile isBlank = []
      · -- a blank line is passed over
        have hnil := trimBlanks_eq_nil.mpr hblank
        simp only [List.map_cons, hblank, List.find?_cons, ne_eq, not_true, decide_false]
        rw [ih]
        constructor
        · intro h
          obtain ⟨blanks, l, rest, rfl, hblanks, hl⟩ := h
          exact ⟨line :: blanks, l, rest, rfl, List.forall_mem_cons.mpr ⟨hnil, hblanks⟩, hl⟩
        · intro h
          obtain ⟨blanks, l, rest, heq, hblanks, hne, hl⟩ := h
          cases blanks with
          | nil =>
              rw [(List.cons.inj heq).1] at hnil
              exact absurd hnil hne
          | cons b blanks =>
              obtain ⟨rfl, rfl⟩ := List.cons.inj heq
              exact ⟨blanks, l, rest, rfl, (List.forall_mem_cons.mp hblanks).2, hne, hl⟩
      · simp only [List.map_cons, List.find?_cons, ne_eq, hblank, not_false_eq_true, decide_true]
        constructor
        · intro h
          exact ⟨[], line, lines, rfl, by simp, fun hnil => hblank (trimBlanks_eq_nil.mp hnil), h⟩
        · intro h
          obtain ⟨blanks, l, rest, heq, hblanks, hne, hl⟩ := h
          cases blanks with
          | nil =>
              rw [(List.cons.inj heq).1]
              exact hl
          | cons b blanks =>
              rw [← (List.cons.inj heq).1] at hblanks
              exact absurd (trimBlanks_eq_nil.mp (hblanks line List.mem_cons_self)) hblank

/-- No two sections with commands are about the same file. -/
def UniqueTargets (canon : Bytes → Bytes) (sections : List FileSection) : Prop :=
  (sections.filter fun s => s.commands ≠ []).Pairwise fun s t => canon s.path ≠ canon t.path

/-- The entries of the sections of a text. -/
def entriesOf (canon : Bytes → Bytes) (sections : List FileSection) : List Entry :=
  sections.flatMap (FileSection.entries canon)

theorem entriesOf_eq (canon : Bytes → Bytes) (sections : List FileSection) :
    entriesOf canon sections =
      (sections.filter fun s => s.commands ≠ []).map fun s => (canon s.path, s.filePatch) := by
  induction sections with
  | nil => rfl
  | cons s sections ih =>
      rw [entriesOf] at ih
      by_cases hs : s.commands = [] <;> simp [entriesOf, FileSection.entries, hs, ih]

theorem mem_entriesOf {canon : Bytes → Bytes} {sections : List FileSection} {e : Entry} :
    e ∈ entriesOf canon sections ↔
      ∃ s ∈ sections, s.commands ≠ [] ∧ (canon s.path, s.filePatch) = e := by
  simp [entriesOf_eq, and_assoc]

/-- In sorted order a duplicate stands next to its double. -/
theorem firstDuplicate_eq_none {index : List Entry} (h : index.Pairwise fun a b => a.1 ≤ b.1) :
    firstDuplicate index = none ↔ index.Pairwise fun a b => a.1 < b.1 := by
  fun_induction firstDuplicate index with
  | case1 a b rest heq =>
      simp only [reduceCtorEq, List.pairwise_cons, List.mem_cons, forall_eq_or_imp, false_iff]
      intro hlt
      rw [heq] at hlt
      exact absurd hlt.1.1 (lt_irrefl _)
  | case2 a b rest hne ih =>
      rw [List.pairwise_cons] at h
      have hab : a.1 < b.1 := lt_of_le_of_ne (h.1 b List.mem_cons_self) (Ne.symm hne)
      constructor
      · intro hnone
        have hrest := (ih h.2).mp hnone
        refine List.pairwise_cons.mpr ⟨List.forall_mem_cons.mpr ⟨hab, ?_⟩, hrest⟩
        exact fun c hc => hab.trans ((List.pairwise_cons.mp hrest).1 c hc)
      · exact fun hall => (ih h.2).mpr (List.pairwise_cons.mp hall).2
  | case3 index hshort =>
      cases index with
      | nil => simp
      | cons a rest =>
          cases rest with
          | nil => simp
          | cons b rest => exact absurd rfl (hshort a b rest)

/-- A sorter leaves no duplicates exactly when there are none. -/
theorem firstDuplicate_run (sorter : EntrySorter) (index : List Entry) :
    firstDuplicate (sorter.run index) = none ↔ index.Pairwise fun a b => a.1 ≠ b.1 := by
  rw [firstDuplicate_eq_none (sorter.sorted index),
    ← (sorter.perm index).pairwise_iff (fun {a b} (hab : a.1 ≠ b.1) => hab.symm)]
  constructor
  · exact fun h => h.imp fun hlt => hlt.ne
  · exact fun h => (h.and (sorter.sorted index)).imp fun hboth => lt_of_le_of_ne hboth.2 hboth.1

/-- The scan of a text with sections, and what it leaves. -/
theorem Document.scan {text : Bytes} {sections : List FileSection} (h : Document text sections)
    (canon : Bytes → Bytes) :
    ∃ st, scanLines canon {} (splitLines text) = (st, .ok ()) ∧ st.inInput = false ∧
      st.flushCurrent.index = entriesOf canon sections := by
  obtain ⟨st, hscan, hin, hindex⟩ := @Body.scan canon false _ [] sections h {} rfl rfl
  exact ⟨st, hscan, hin, hindex⟩

theorem document_of_scan {canon : Bytes → Bytes} {text : Bytes} {st : ParseState}
    (hscan : scanLines canon {} (splitLines text) = (st, .ok ())) (hin : st.inInput = false) :
    ∃ sections, Document text sections ∧ st.flushCurrent.index = entriesOf canon sections := by
  obtain ⟨cs, sections, hbody⟩ := body_of_scan rfl hscan hin
  obtain rfl := hbody.unopened
  obtain ⟨st', hscan', _, hindex⟩ := Document.scan hbody canon
  rw [hscan, Prod.mk.injEq] at hscan'
  exact ⟨sections, hbody, by rw [hscan'.1, hindex]⟩

theorem Document.unique {text : Bytes} {sections sections' : List FileSection}
    (h : Document text sections) (h' : Document text sections') : sections = sections' :=
  (Body.unique h h').2

theorem document_nil_iff {sections : List FileSection} : Document [] sections ↔ sections = [] := by
  constructor
  · intro h
    cases h
    rfl
  · rintro rfl
    exact .nil

/-- The set `parse` leaves for sections of different files. -/
def parsedSet (sorter : EntrySorter) (canon : Bytes → Bytes) (sections : List FileSection) :
    PatchSet :=
  { index := sorter.run (entriesOf canon sections)
    basenames := basenameFilter (sorter.run (entriesOf canon sections)) }

@[simp] theorem parsedSet_nil (sorter : EntrySorter) (canon : Bytes → Bytes) :
    parsedSet sorter canon [] = {} := by
  have hrun : sorter.run [] = [] := List.perm_nil.mp (sorter.perm [])
  simp [parsedSet, entriesOf, hrun, basenameFilter, unique, Sorter.stable]

/-- Only the paths of the sections with commands count. -/
theorem parsedSet_congr {sorter : EntrySorter} {canon canon' : Bytes → Bytes}
    {sections : List FileSection}
    (h : ∀ s ∈ sections, s.commands ≠ [] → canon' s.path = canon s.path) :
    parsedSet sorter canon' sections = parsedSet sorter canon sections := by
  have hentries : entriesOf canon' sections = entriesOf canon sections := by
    rw [entriesOf, entriesOf, List.flatMap_def, List.flatMap_def]
    congr 1
    apply List.map_congr_left
    intro s hs
    rw [FileSection.entries, FileSection.entries]
    split
    · rfl
    next hcommands => rw [h s hs hcommands]
  rw [parsedSet, parsedSet, hentries]

/-- **Parsing.** What `parse` accepts, and the set it leaves. -/
theorem parse_eq_ok {sorter : EntrySorter} {canon : Bytes → Bytes} {text : Bytes}
    {before set : PatchSet} :
    PatchSet.parse sorter canon text before = (set, .ok ()) ↔
      (text = [] ∨ StartsWithMagic text) ∧
        ∃ sections, Document text sections ∧ UniqueTargets canon sections ∧
          set = parsedSet sorter canon sections := by
  have hunique : ∀ sections, UniqueTargets canon sections ↔
      firstDuplicate (sorter.run (entriesOf canon sections)) = none := by
    intro sections
    rw [firstDuplicate_run, entriesOf_eq, List.pairwise_map, UniqueTargets]
  rw [PatchSet.parse]
  split
  next hempty =>
    -- the empty text has no sections, so its index is empty
    subst hempty
    simp [document_nil_iff, UniqueTargets, eq_comm]
  next hne =>
    rw [← looksLikeEdBundle_iff, or_iff_right hne]
    cases hmagic : looksLikeEdBundle text with
    | false => simp
    | true =>
        simp only [Bool.not_true, Bool.false_eq_true, if_false, true_and, parseEdBundle]
        constructor
        · intro h
          rcases hscan : scanLines canon {} (splitLines text) with ⟨st, result⟩
          rw [hscan] at h
          cases result with
          | error e => simp at h
          | ok u =>
              cases hin : st.inInput with
              | true => simp [hin] at h
              | false =>
                  obtain ⟨sections, hdoc, hindex⟩ := document_of_scan hscan hin
                  refine ⟨sections, hdoc, ?_⟩
                  simp only [hin, Bool.false_eq_true, if_false, finalize, hindex] at h
                  rw [hunique]
                  cases hdup : firstDuplicate (sorter.run (entriesOf canon sections)) with
                  | some key => simp [hdup] at h
                  | none =>
                      simp only [hdup, Prod.mk.injEq, and_true] at h
                      exact ⟨rfl, h.symm⟩
        · intro h
          obtain ⟨sections, hdoc, hdistinct, rfl⟩ := h
          obtain ⟨st, hscan, hin, hindex⟩ := hdoc.scan canon
          simp [hscan, hin, hindex, finalize, (hunique sections).mp hdistinct, parsedSet]

end Phpatcher.Core
