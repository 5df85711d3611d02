import Phpatcher.Core.Parsing

/-!
# The index invariant

Parsing leaves an index in strict order of the keys, with one entry for each
section that has commands; re-canonicalization leaves one that is still sorted
and has exactly the renamed keys. In both states the basename filter answers
for the keys of the index and nothing else (`PatchSet.Indexed`).
-/

namespace Phpatcher.Theorems

open Phpatcher.Basis Phpatcher.Core

/-- The index of a parsed set is in strict order. -/
theorem parsedSet_strict {sorter : EntrySorter} {canon : Bytes → Bytes}
    {sections : List FileSection} (h : UniqueTargets canon sections) :
    (parsedSet sorter canon sections).index.Pairwise fun a b => a.1 < b.1 := by
  have hkeys : (entriesOf canon sections).Pairwise fun a b => a.1 ≠ b.1 := by
    rw [entriesOf_eq, List.pairwise_map]
    exact h
  have hnone := (firstDuplicate_run sorter (entriesOf canon sections)).mpr hkeys
  exact (firstDuplicate_eq_none (sorter.sorted _)).mp hnone

theorem parsedSet_indexed (sorter : EntrySorter) (canon : Bytes → Bytes)
    (sections : List FileSection) : (parsedSet sorter canon sections).Indexed :=
  indexed_of_sorted (sorter.sorted _)

theorem mem_parsedSet {sorter : EntrySorter} {canon : Bytes → Bytes}
    {sections : List FileSection} {e : Entry} :
    e ∈ (parsedSet sorter canon sections).index ↔
      ∃ s ∈ sections, s.commands ≠ [] ∧ (canon s.path, s.filePatch) = e := by
  rw [parsedSet, Sorter.mem_run, mem_entriesOf]

/-- In a strictly sorted index `find` gives the one entry under a key. -/
theorem find_eq_some_iff {set : PatchSet} (hindexed : set.Indexed)
    (hstrict : set.index.Pairwise fun a b => a.1 < b.1) {k : Bytes} {fp : FilePatch} :
    set.find k = some fp ↔ (k, fp) ∈ set.index := by
  constructor
  · exact hindexed.mem_of_find
  · intro hmem
    obtain ⟨found, hfound⟩ := Option.isSome_iff_exists.mp
      ((hindexed.find_isSome_iff k).mpr ⟨(k, fp), hmem, rfl⟩)
    have hmem' := hindexed.mem_of_find hfound
    -- two entries under one key are the same entry
    by_contra hne
    have hdiff : ((k, fp) : Entry) ≠ (k, found) := by
      intro heq
      rw [(Prod.mk.inj heq).2] at hne
      exact hne hfound
    have hkeys : set.index.Pairwise fun a b => a.1 ≠ b.1 := hstrict.imp fun h => h.ne
    have : Std.Symm fun a b : Entry => a.1 ≠ b.1 := ⟨fun _ _ h => h.symm⟩
    exact hkeys.forall hmem hmem' hdiff rfl

/-- **Index invariant.** For a text that is parsed: its sections with commands
are about different files; the index is strictly sorted; `find` gives exactly
the patch of the section under a key. After `recanonicalize` the index is
sorted and has the renamed keys. In both states the basename filter holds
exactly the basenames of the keys. -/
theorem index_invariant (sorter resorter : EntrySorter) (canon fn : Bytes → Bytes)
    (text : Bytes) {before set : PatchSet}
    (hparse : PatchSet.parse sorter canon text before = (set, .ok ())) :
    (∃! sections, Document text sections) ∧
    (∀ sections, Document text sections →
      UniqueTargets canon sections ∧
      ∀ k fp, set.find k = some fp ↔
        ∃ s ∈ sections, s.commands ≠ [] ∧ canon s.path = k ∧ s.filePatch = fp) ∧
    set.index.Pairwise (fun a b => a.1 < b.1) ∧
    (∀ b, set.hasBasename b = true ↔ ∃ e ∈ set.index, basenameOf e.1 = b) ∧
    let renamed := set.recanonicalize resorter fn
    renamed.index.Pairwise (fun a b => a.1 ≤ b.1) ∧
    (∀ e ∈ set.index, (renamed.find (fn e.1)).isSome) ∧
    (∀ k, (∀ k', fn k' ≠ k) → renamed.find k = none) ∧
    (∀ b, renamed.hasBasename b = true ↔ ∃ e ∈ renamed.index, basenameOf e.1 = b) := by
  obtain ⟨_, sections, hdoc, hunique, rfl⟩ := parse_eq_ok.mp hparse
  have hindexed := parsedSet_indexed sorter canon sections
  have hstrict := @parsedSet_strict sorter _ _ hunique
  have hrenamed := PatchSet.indexed_recanonicalize resorter fn (parsedSet sorter canon sections)
  refine ⟨⟨sections, hdoc, fun _ h => h.unique hdoc⟩, ?_, hstrict, hindexed.hasBasename_iff,
    hrenamed.sorted, ?_, ?_, hrenamed.hasBasename_iff⟩
  · intro sections' hdoc'
    obtain rfl := hdoc.unique hdoc'
    refine ⟨hunique, ?_⟩
    intro k fp
    rw [find_eq_some_iff hindexed hstrict, mem_parsedSet]
    simp only [Prod.mk.injEq]
  · intro e he
    rw [hrenamed.find_isSome_iff]
    exact ⟨(fn e.1, e.2), PatchSet.mem_recanonicalize.mpr ⟨e, he, rfl⟩, rfl⟩
  · intro k hk
    rw [← Option.not_isSome_iff_eq_none, hrenamed.find_isSome_iff]
    rintro ⟨e, he, rfl⟩
    obtain ⟨d, _, rfl⟩ := PatchSet.mem_recanonicalize.mp he
    exact hk d.1 rfl

/-- Two sections, out of order, the second one a created file. -/
theorem index_invariant_two :
    let set : PatchSet :=
      { index := [(ascii "a/x.php", { commands := [{ kind := .append, start := 0, end_ := 0
                                                     input := [.literal (ascii "y")] }]
                                      creates := true }),
                  (ascii "b.php", { commands := [{ kind := .delete, start := 1, end_ := 1 }] })]
        basenames := [ascii "b.php", ascii "x.php"] }
    set.index.Pairwise (fun a b => a.1 < b.1) ∧
      ((set.recanonicalize (Sorter.stable Prod.fst) basenameOf).find (ascii "x.php")).isSome := by
  intro set
  obtain ⟨_, _, hsorted, _, _, hfound, _⟩ :=
    index_invariant (Sorter.stable Prod.fst) (Sorter.stable Prod.fst) id basenameOf
      (ascii "# phpatcher-ed\n# file: b.php\n1d\n# newfile: a/x.php\ny\n.\n")
      (show PatchSet.parse (Sorter.stable Prod.fst) id _ {} = (set, .ok ()) by decide +kernel)
  exact ⟨hsorted, hfound _ List.mem_cons_self⟩

end Phpatcher.Theorems
