import Phpatcher.Core.Patch

/-!
# Paths and index keys

`basename_of` and `canonicalize` of `patch.cpp`. What the operating system
contributes (`realpath` and the current directory) is a parameter; the
`std::filesystem` operations are those of a POSIX system, where a path is
absolute when it starts with a slash and has no root name.
-/

namespace Phpatcher.Core

open Phpatcher.Basis

/-- `basename_of`: the text behind the last slash. -/
def basenameOf (path : Bytes) : Bytes := path.rtakeWhile (· != slash)

/-- The file names of a path, empty ones left out. -/
def components (path : Bytes) : List Bytes := (path.splitOn slash).filter (· ≠ [])

/-- One file name of a path under normalization. `stack` holds the file names
kept so far, last one first, and the flag says whether what was read last
leaves a trailing separator. -/
def normalStep (absolute : Bool) (acc : List Bytes × Bool) (name : Bytes) : List Bytes × Bool :=
  if name = [dot] then (acc.1, true)
  else if name = [dot, dot] then
    match acc.1 with
    | [] => if absolute then ([], true) else ([name], false)
    | top :: rest => if top = [dot, dot] then (name :: top :: rest, false) else (rest, true)
  else (name :: acc.1, false)

/-- `fs::path::lexically_normal`. -/
def lexicallyNormal (path : Bytes) : Bytes :=
  if path = [] then []
  else
    let absolute := path.head? == some slash
    let (stack, trailing) := (components path).foldl (normalStep absolute) ([], false)
    match stack with
    | [] => if absolute then [slash] else [dot]
    | top :: _ =>
        (if absolute then [slash] else []) ++ List.intercalate [slash] stack.reverse ++
          (if (trailing || path.getLast? == some slash) && top != [dot, dot] then [slash] else [])

/-- What the operating system answers about paths. -/
structure Os where
  /-- `::realpath`; `none` when the path cannot be resolved -/
  realpath : Bytes → Option Bytes
  /-- the current directory, unless it cannot be read -/
  currentPath : Option Bytes

/-- `fs::path::operator/` with a relative right side. -/
def appendPath (dir path : Bytes) : Bytes :=
  dir ++ (if dir = [] ∨ dir.getLast? = some slash then [] else [slash]) ++ path

/-- `fs::path::is_relative`. -/
def isRelative (path : Bytes) : Bool := path.head? != some slash

/-- `PatchSet::canonicalize`: the real path where there is one, a lexical
normalization otherwise. -/
def canonicalize (os : Os) (path baseDir : Bytes) : Bytes :=
  let p := if isRelative path && baseDir ≠ [] then appendPath baseDir path else path
  match os.realpath p with
  | some resolved => resolved
  | none =>
      let normalized := lexicallyNormal p
      if isRelative normalized && normalized ≠ [] then
        match os.currentPath with
        | some cwd => lexicallyNormal (appendPath cwd normalized)
        | none => normalized
      else normalized

/-! ## The directory and the name -/

/-- A path up to its name: nothing, or text that ends with a slash. -/
def UpToName (front : Bytes) : Prop := front = [] ∨ front.getLast? = some slash

theorem upToName_iff {front : Bytes} :
    UpToName front ↔ front = [] ∨ ∃ dir, front = dir ++ [slash] := by
  rw [UpToName, List.getLast?_eq_some_iff]

theorem UpToName.behind {front : Bytes} (h : UpToName front) (dir : Bytes) :
    UpToName (dir ++ [slash] ++ front) := by
  rcases upToName_iff.mp h with rfl | ⟨inner, rfl⟩
  · exact .inr (by simp)
  · exact .inr (by rw [← List.append_assoc, List.getLast?_append]; rfl)

theorem slash_not_mem_basenameOf (path : Bytes) : slash ∉ basenameOf path := by
  intro h
  simpa using List.mem_rtakeWhile_imp h

/-- A path is its directory and its basename. -/
theorem exists_upToName (path : Bytes) :
    ∃ front, UpToName front ∧ path = front ++ basenameOf path := by
  refine ⟨path.rdropWhile (· != slash), ?_, List.rdropWhile_append_rtakeWhile.symm⟩
  by_cases hfront : path.rdropWhile (· != slash) = []
  · exact .inl hfront
  · have hlast := List.rdropWhile_last_not (· != slash) path hfront
    exact .inr (by simpa [List.getLast?_eq_some_getLast hfront] using hlast)

theorem basenameOf_append {front name : Bytes} (hfront : UpToName front) (hname : slash ∉ name) :
    basenameOf (front ++ name) = name := by
  have hkept : ∀ b ∈ name.reverse, (b != slash) = true := by
    intro b hb
    rw [bne_iff_ne]
    rintro rfl
    exact hname (List.mem_reverse.mp hb)
  rw [basenameOf, List.rtakeWhile, List.reverse_append, List.takeWhile_append_of_pos hkept]
  rcases upToName_iff.mp hfront with rfl | ⟨dir, rfl⟩ <;> simp

/-! ## What normalization keeps -/

theorem components_append {front name : Bytes} (hfront : UpToName front) (hname : slash ∉ name)
    (hne : name ≠ []) : components (front ++ name) = components front ++ [name] := by
  have hsingle : name.splitOn slash = [name] := List.splitOn_eq_singleton hname
  rcases upToName_iff.mp hfront with rfl | ⟨dir, rfl⟩
  · simp [components, hsingle, hne]
  · rw [List.append_assoc, List.singleton_append, components, components,
      List.splitOn_append_cons_self, List.splitOn_append_cons_self, hsingle]
    simp [hne]

theorem upToName_intercalate {names : List Bytes} {name : Bytes} :
    ∃ front, UpToName front ∧ List.intercalate [slash] (names ++ [name]) = front ++ name := by
  induction names with
  | nil => exact ⟨[], .inl rfl, by simp⟩
  | cons n names ih =>
      obtain ⟨front, hfront, heq⟩ := ih
      refine ⟨n ++ [slash] ++ front, hfront.behind n, ?_⟩
      rw [List.cons_append, List.intercalate_cons_of_ne_nil (by simp), heq]
      simp

/-- A name that normalization does not look into. -/
def IsName (name : Bytes) : Prop := name ≠ [] ∧ name ≠ [dot] ∧ name ≠ [dot, dot]

instance (name : Bytes) : Decidable (IsName name) := inferInstanceAs (Decidable (_ ∧ _ ∧ _))

/-- What normalization makes of the file names that are left. -/
theorem lexicallyNormal_of_left {path top : Bytes} (hne : path ≠ []) {rest : List Bytes}
    {trailing : Bool} (h : (components path).foldl (normalStep (path.head? == some slash))
      ([], false) = (top :: rest, trailing)) :
    lexicallyNormal path =
      (if path.head? == some slash then [slash] else []) ++
        List.intercalate [slash] (top :: rest).reverse ++
        (if (trailing || path.getLast? == some slash) && top != [dot, dot] then [slash]
          else []) := by
  rw [lexicallyNormal, if_neg hne]
  simp only [h]

/-- Normalization keeps the name at the end. -/
theorem basenameOf_lexicallyNormal {path : Bytes} (h : IsName (basenameOf path)) :
    basenameOf (lexicallyNormal path) = basenameOf path := by
  obtain ⟨hne, hdot, hdotdot⟩ := h
  obtain ⟨front, hfront, hpath⟩ := exists_upToName path
  have hslash := slash_not_mem_basenameOf path
  generalize basenameOf path = name at hne hdot hdotdot hpath hslash ⊢
  have hnonempty : path ≠ [] := by
    rintro rfl
    exact hne (List.append_eq_nil_iff.mp hpath.symm).2
  have hlast : path.getLast? ≠ some slash := by
    rw [hpath, List.getLast?_append_of_ne_nil _ hne]
    exact fun hlast => hslash (List.mem_of_getLast? hlast)
  -- the name is pushed, and no separator comes behind it
  rcases hfold : (components front).foldl (normalStep (path.head? == some slash)) ([], false) with
    ⟨stack, trailing⟩
  have hpushed : (components path).foldl (normalStep (path.head? == some slash)) ([], false) =
      (name :: stack, false) := by
    conv_lhs => rw [hpath, components_append hfront hslash hne, ← hpath]
    rw [List.foldl_append, hfold]
    simp [normalStep, hdot, hdotdot]
  obtain ⟨rest, hrest, hjoin⟩ := @upToName_intercalate stack.reverse name
  rw [lexicallyNormal_of_left hnonempty hpushed, List.reverse_cons, hjoin,
    beq_eq_false_iff_ne.mpr hlast]
  simp only [Bool.or_false, Bool.false_and, Bool.false_eq_true, if_false, List.append_nil]
  rw [← List.append_assoc]
  apply basenameOf_append _ hslash
  split
  · exact hrest.behind []
  · exact hrest

/-- An absolute path stays absolute. -/
theorem lexicallyNormal_absolute {path : Bytes} (h : isRelative path = false) :
    isRelative (lexicallyNormal path) = false := by
  have habsolute : path.head? = some slash := by simpa [isRelative] using h
  have hnonempty : path ≠ [] := by
    rintro rfl
    simp at habsolute
  rcases hfold : (components path).foldl (normalStep (path.head? == some slash)) ([], false) with
    ⟨_ | ⟨top, rest⟩, trailing⟩
  · rw [lexicallyNormal, if_neg hnonempty]
    simp only [hfold]
    rw [habsolute]
    rfl
  · rw [lexicallyNormal_of_left hnonempty hfold, habsolute]
    simp [isRelative]

/-! ## Keys of missing files -/

/-- The path a header names: a relative one is about the base directory. -/
def target (path baseDir : Bytes) : Bytes :=
  if isRelative path && baseDir ≠ [] then appendPath baseDir path else path

/-- The lexical form of a path, in the current directory if it is relative. -/
def lexicalForm (currentPath : Option Bytes) (path : Bytes) : Bytes :=
  let normalized := lexicallyNormal path
  if isRelative normalized && normalized ≠ [] then
    match currentPath with
    | some cwd => lexicallyNormal (appendPath cwd normalized)
    | none => normalized
  else normalized

/-- A file that is missing is keyed by its lexical form. -/
theorem canonicalize_of_missing {os : Os} {path baseDir : Bytes}
    (h : os.realpath (target path baseDir) = none) :
    canonicalize os path baseDir = lexicalForm os.currentPath (target path baseDir) := by
  unfold canonicalize lexicalForm
  rw [target] at h ⊢
  simp only [h]

/-- An absolute path that is missing is looked up by its normal form. -/
theorem canonicalize_absolute {os : Os} {path : Bytes} (baseDir : Bytes)
    (habsolute : isRelative path = false) (h : os.realpath path = none) :
    canonicalize os path baseDir = lexicallyNormal path := by
  have htarget : target path baseDir = path := by simp [target, habsolute]
  rw [canonicalize_of_missing (by rw [htarget, h]), htarget]
  simp [lexicalForm, lexicallyNormal_absolute habsolute]

end Phpatcher.Core
