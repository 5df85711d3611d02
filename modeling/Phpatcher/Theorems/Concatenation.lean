import Phpatcher.Core.Apply
import Phpatcher.Core.Parsing

/-!
# Bundles one behind the other

Two bundles that are accepted, the first ending in a newline, concatenated: the
result is accepted exactly when no file is patched in both, and then it patches the
files of both.
-/

namespace Phpatcher.Theorems

open Phpatcher.Basis Phpatcher.Core

/-! ## Texts -/

theorem splitLines_append {first : Bytes} (h : finalNewline first = true) (second : Bytes) :
    splitLines (first ++ second) = splitLines first ++ splitLines second := by
  have hlines : ∀ line ∈ splitLines first, newline ∉ line :=
    newline_not_mem_splitWith (fun _ h => h) (by simp)
  have hjoin : unlines (splitLines first) = first := by
    have hsplit := @joinWith_splitWith first true (by simpa [finalNewline, endsWithNl] using h)
    rwa [joinWith_true] at hsplit
  have happend := @splitWith_unlines id _ hlines second
  rwa [hjoin, List.map_id] at happend

/-- What can stand where no section is open can stand where one is. -/
theorem body_opened {opened : Bool} {lines : List Bytes} {cs : List WrittenCommand}
    {ss : List FileSection} (h : Body opened lines cs ss) : Body true lines cs ss := by
  induction h with
  | nil => exact .nil
  | filler hfile hnew hfiller _ ih => exact .filler hfile hnew hfiller ih
  | command hline hkind hrest _ => exact .command hline hkind hrest
  | block hline hkind hdot hrest _ => exact .block hline hkind hdot hrest
  | file hpath hrest _ => exact .file hpath hrest
  | newFile hpath hdot hrest _ => exact .newFile hpath hdot hrest

/-- The sections of more lines follow. -/
theorem body_append {opened : Bool} {lines more : List Bytes} {cs : List WrittenCommand}
    {ss ts : List FileSection} (h : Body opened lines cs ss) (hmore : Body false more [] ts) :
    Body opened (lines ++ more) cs (ss ++ ts) := by
  induction h with
  | @nil opened =>
      cases opened with
      | false => exact hmore
      | true => exact body_opened hmore
  | filler hfile hnew hfiller _ ih => exact .filler hfile hnew hfiller ih
  | command hline hkind _ ih => exact .command hline hkind ih
  | @block line block lines c cs ss hline hkind hdot _ ih =>
      have hbody := Body.block hline hkind hdot ih
      simpa using hbody
  | file hpath _ ih => exact .file hpath ih
  | @newFile opened line path block lines cs ss hpath hdot _ ih =>
      have hbody := @Body.newFile opened line path block _ _ _ hpath hdot ih
      simpa using hbody

theorem document_append {first second : Bytes} (hend : finalNewline first = true)
    {ss ts : List FileSection} (hfirst : Document first ss) (hsecond : Document second ts) :
    Document (first ++ second) (ss ++ ts) := by
  rw [Document, splitLines_append hend]
  exact body_append hfirst hsecond

theorem startsWithMagic_append {first second : Bytes} (hend : finalNewline first = true)
    (h : StartsWithMagic first) : StartsWithMagic (first ++ second) := by
  obtain ⟨blanks, line, rest, hlines, hblanks, hne, hmagic⟩ := h
  refine ⟨blanks, line, rest ++ splitLines second, ?_, hblanks, hne, hmagic⟩
  rw [splitLines_append hend, hlines, List.append_assoc, List.cons_append]

/-! ## Targets -/

variable {sorter : EntrySorter} {canon : Bytes → Bytes}

theorem uniqueTargets_iff {sections : List FileSection} :
    UniqueTargets canon sections ↔ ((entriesOf canon sections).map Prod.fst).Nodup := by
  rw [entriesOf_eq, List.map_map, List.Nodup, List.pairwise_map]
  rfl

/-- What an accepted bundle is searched for. -/
theorem find_parsedSet {sections : List FileSection} (h : UniqueTargets canon sections)
    {key : Bytes} {fp : FilePatch} :
    (parsedSet sorter canon sections).find key = some fp ↔
      (key, fp) ∈ entriesOf canon sections :=
  searchSorted_run_eq_some sorter (uniqueTargets_iff.mp h)

theorem find_isSome_parsedSet {sections : List FileSection} (h : UniqueTargets canon sections)
    {key : Bytes} :
    ((parsedSet sorter canon sections).find key).isSome ↔
      key ∈ (entriesOf canon sections).map Prod.fst := by
  simp [Option.isSome_iff_exists, find_parsedSet h]

theorem entriesOf_append (canon : Bytes → Bytes) (ss ts : List FileSection) :
    entriesOf canon (ss ++ ts) = entriesOf canon ss ++ entriesOf canon ts :=
  List.flatMap_append

/-- A duplicate that is found stands in the list twice. -/
theorem count_of_firstDuplicate {index : List Entry} {key : Bytes}
    (h : firstDuplicate index = some key) : 2 ≤ (index.map Prod.fst).count key := by
  fun_induction firstDuplicate index with
  | case1 a b rest heq =>
      obtain rfl := Option.some.inj h
      simp [heq]
  | case2 a b rest hne ih =>
      rw [List.map_cons]
      exact (ih h).trans List.count_le_count_cons
  | case3 => simp at h

/-- A text whose sections are known, two of them for one file, is not accepted. -/
theorem parse_duplicate {text : Bytes} {sections : List FileSection}
    (hmagic : StartsWithMagic text) (hdoc : Document text sections)
    (hclash : ¬ UniqueTargets canon sections) (before : PatchSet) :
    ∃ set key, PatchSet.parse sorter canon text before =
        (set, .error (ascii "duplicate patch section for " ++ key)) ∧
      2 ≤ ((entriesOf canon sections).map Prod.fst).count key := by
  obtain ⟨st, hscan, hin, hindex⟩ := hdoc.scan canon
  have hne : text ≠ [] := by
    rintro rfl
    obtain ⟨blanks, line, rest, hlines, _⟩ := hmagic
    cases blanks <;> cases hlines
  have hdup : firstDuplicate (sorter.run (entriesOf canon sections)) ≠ none := by
    rw [Ne, firstDuplicate_run]
    rw [uniqueTargets_iff, List.Nodup, List.pairwise_map] at hclash
    exact hclash
  obtain ⟨key, hkey⟩ := Option.ne_none_iff_exists'.mp hdup
  refine ⟨{ index := sorter.run (entriesOf canon sections) }, key, ?_, ?_⟩
  · simp only [PatchSet.parse, if_neg hne, looksLikeEdBundle_iff.mpr hmagic, parseEdBundle, hscan,
      hin, finalize, hindex, hkey]
    rfl
  · rw [← ((sorter.perm _).map _).count_eq]
    exact count_of_firstDuplicate hkey

/-- **Concatenation.** Two accepted bundles, the first of which ends in a newline or
is empty: one behind the other they are accepted if they have no file in common, and
then the files of both are found; otherwise such a file is named in the error. -/
theorem bundles_concatenate (sorter : EntrySorter) (canon : Bytes → Bytes)
    {first second : Bytes} {before set₁ set₂ : PatchSet}
    (hfirst : PatchSet.parse sorter canon first before = (set₁, .ok ()))
    (hsecond : PatchSet.parse sorter canon second before = (set₂, .ok ()))
    (hend : finalNewline first = true) :
    ((∀ key, set₁.find key = none ∨ set₂.find key = none) →
      ∃ set, PatchSet.parse sorter canon (first ++ second) before = (set, .ok ()) ∧
        ∀ key, set.find key = (set₁.find key).or (set₂.find key)) ∧
    (∀ key, (set₁.find key).isSome → (set₂.find key).isSome → ∃ set key',
      PatchSet.parse sorter canon (first ++ second) before =
          (set, .error (ascii "duplicate patch section for " ++ key')) ∧
        (set₁.find key').isSome ∧ (set₂.find key').isSome) := by
  obtain ⟨hmagic₁, ss, hdoc₁, hunique₁, rfl⟩ := parse_eq_ok.mp hfirst
  obtain ⟨hmagic₂, ts, hdoc₂, hunique₂, rfl⟩ := parse_eq_ok.mp hsecond
  have hdoc := document_append hend hdoc₁ hdoc₂
  have hmagic : first ++ second = [] ∨ StartsWithMagic (first ++ second) := by
    rcases hmagic₁ with rfl | hmagic₁
    · exact hmagic₂
    · exact .inr (startsWithMagic_append hend hmagic₁)
  have hnodup₁ := uniqueTargets_iff.mp hunique₁
  have hnodup₂ := uniqueTargets_iff.mp hunique₂
  have hkeys : (entriesOf canon (ss ++ ts)).map Prod.fst =
      (entriesOf canon ss).map Prod.fst ++ (entriesOf canon ts).map Prod.fst := by
    rw [entriesOf_append, List.map_append]
  constructor
  · intro hapart
    have hunique : UniqueTargets canon (ss ++ ts) := by
      rw [uniqueTargets_iff, hkeys]
      refine hnodup₁.append hnodup₂ fun key h₁ h₂ => ?_
      have hsome₁ := (@find_isSome_parsedSet sorter canon _ hunique₁ key).mpr h₁
      have hsome₂ := (@find_isSome_parsedSet sorter canon _ hunique₂ key).mpr h₂
      rcases hapart key with hnone | hnone
      · simp [hnone] at hsome₁
      · simp [hnone] at hsome₂
    refine ⟨_, parse_eq_ok.mpr ⟨hmagic, _, hdoc, hunique, rfl⟩, fun key => ?_⟩
    refine Option.ext fun fp => ?_
    rw [find_parsedSet hunique, entriesOf_append, List.mem_append,
      ← @find_parsedSet sorter canon _ hunique₁, ← @find_parsedSet sorter canon _ hunique₂]
    rcases hapart key with hnone | hnone <;> simp [hnone]
  · intro key hsome₁ hsome₂
    have hmem₁ := (find_isSome_parsedSet hunique₁).mp hsome₁
    have hmem₂ := (find_isSome_parsedSet hunique₂).mp hsome₂
    have hclash : ¬ UniqueTargets canon (ss ++ ts) := by
      rw [uniqueTargets_iff, hkeys]
      exact fun h => (List.nodup_append.mp h).2.2 key hmem₁ key hmem₂ rfl
    have hmagic' : StartsWithMagic (first ++ second) := by
      refine hmagic.resolve_left fun hnil => ?_
      obtain ⟨rfl, rfl⟩ := List.append_eq_nil_iff.mp hnil
      rw [document_nil_iff.mp hdoc₁] at hmem₁
      simp [entriesOf] at hmem₁
    obtain ⟨set, key', hparse, hcount⟩ := parse_duplicate hmagic' hdoc hclash before
    refine ⟨set, key', hparse, ?_, ?_⟩
    -- each bundle has the key once at most, so both have it
    all_goals
      rw [hkeys, List.count_append] at hcount
      have honce₁ := List.nodup_iff_count_le_one.mp hnodup₁ key'
      have honce₂ := List.nodup_iff_count_le_one.mp hnodup₂ key'
    · exact (find_isSome_parsedSet hunique₁).mpr (List.count_pos_iff.mp (by omega))
    · exact (find_isSome_parsedSet hunique₂).mpr (List.count_pos_iff.mp (by omega))

/-- A bundle for one file behind a bundle for another, and behind itself. -/
theorem bundles_concatenate_two :
    let first := ascii "# phpatcher-ed\n# file: a.php\n1d\n"
    let second := ascii "# phpatcher-ed\n# newfile: b.php\nx\n.\n"
    (∃ set, PatchSet.parse (Sorter.stable Prod.fst) id (first ++ second) {} = (set, .ok ()) ∧
      (set.find (ascii "a.php")).isSome ∧ (set.find (ascii "b.php")).isSome) ∧
    ∃ set key, PatchSet.parse (Sorter.stable Prod.fst) id (first ++ first) {} =
      (set, .error (ascii "duplicate patch section for " ++ key)) := by
  intro first second
  let set₁ : PatchSet :=
    { index := [(ascii "a.php", { commands := [{ kind := .delete, start := 1, end_ := 1 }] })]
      basenames := [ascii "a.php"] }
  let set₂ : PatchSet :=
    { index := [(ascii "b.php", { commands := [{ kind := .append, start := 0, end_ := 0
                                                 input := [.literal (ascii "x")] }]
                                  creates := true })]
      basenames := [ascii "b.php"] }
  have hfirst : PatchSet.parse (Sorter.stable Prod.fst) id first {} = (set₁, .ok ()) := by
    decide +kernel
  have hsecond : PatchSet.parse (Sorter.stable Prod.fst) id second {} = (set₂, .ok ()) := by
    decide +kernel
  have hend : finalNewline first = true := by decide
  have hapart : ∀ key, set₁.find key = none ∨ set₂.find key = none := by
    intro key
    by_cases h : key = ascii "a.php"
    · subst h
      exact .inr (by decide)
    · refine .inl (Option.not_isSome_iff_eq_none.mp fun hsome => h ?_)
      rw [PatchSet.find, searchSorted_isSome (List.pairwise_singleton _ _)] at hsome
      obtain ⟨e, he, rfl⟩ := hsome
      exact congrArg Prod.fst (List.mem_singleton.mp he)
  obtain ⟨set, hparse, hfind⟩ := (bundles_concatenate _ _ hfirst hsecond hend).1 hapart
  obtain ⟨set', key, hclash, _⟩ :=
    (bundles_concatenate _ _ hfirst hfirst hend).2 (ascii "a.php") (by decide) (by decide)
  refine ⟨⟨set, hparse, ?_, ?_⟩, set', key, hclash⟩
  · rw [hfind]
    decide
  · rw [hfind]
    decide

end Phpatcher.Theorems
