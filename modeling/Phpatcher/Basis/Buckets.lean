import Mathlib.Data.Multiset.AddSub
import Mathlib.Data.Multiset.Filter
import Mathlib.Tactic

/-!
# Maps from keys to lists of values

A hash map whose values are vectors that only grow. Nothing is promised about
the order in which such a map is walked through: a `Traversal` is one way to
do it.

What a map holds is a bag of values under every key. Pushing a value and
merging a map into another one *add* bags, so that bags do not tell in which
order, and over which partial maps, the values came in.
-/

namespace Phpatcher.Basis

/-- A map from keys to lists of values, its entries in the order they came in. -/
structure Buckets (κ ν : Type) where
  entries : List (κ × List ν)
  nodup : (entries.map Prod.fst).Nodup

/-- One way to walk through maps: every entry once, in some order. -/
structure Traversal (κ ν : Type) where
  run : Buckets κ ν → List (κ × List ν)
  perm : ∀ m, (run m).Perm m.entries

/-- A fold whose every step adds to a measure adds up. -/
theorem measure_foldl {σ α M : Type*} [AddMonoid M] (μ : σ → M) (g : α → M) {f : σ → α → σ}
    (h : ∀ s a, μ (f s a) = μ s + g a) (s : σ) (l : List α) :
    μ (l.foldl f s) = μ s + (l.map g).sum := by
  induction l generalizing s with
  | nil => simp
  | cons a l ih => rw [List.foldl_cons, ih, h, List.map_cons, List.sum_cons, add_assoc]

variable {κ ν : Type} [DecidableEq κ]

/-- The traversal in the order the entries came in. -/
def Traversal.plain : Traversal κ ν where
  run m := m.entries
  perm _ := List.Perm.refl _

/-- Append values to those of a key, which is new if it is not there yet. -/
def appendEntry (k : κ) (vs : List ν) : List (κ × List ν) → List (κ × List ν)
  | [] => [(k, vs)]
  | (k', ws) :: rest =>
      if k' = k then (k', ws ++ vs) :: rest else (k', ws) :: appendEntry k vs rest

theorem keys_appendEntry (k : κ) (vs : List ν) (entries : List (κ × List ν)) :
    (appendEntry k vs entries).map Prod.fst =
      if k ∈ entries.map Prod.fst then entries.map Prod.fst else entries.map Prod.fst ++ [k] := by
  induction entries with
  | nil => simp [appendEntry]
  | cons e entries ih =>
      obtain ⟨k', ws⟩ := e
      rw [appendEntry]
      split
      next heq => simp [heq]
      next hne =>
        rw [List.map_cons, ih, List.map_cons]
        have hmem : k ∈ k' :: entries.map Prod.fst ↔ k ∈ entries.map Prod.fst := by
          simp [Ne.symm hne]
        by_cases hin : k ∈ entries.map Prod.fst
        · rw [if_pos hin, if_pos (hmem.mpr hin)]
        · rw [if_neg hin, if_neg (fun h => hin (hmem.mp h)), List.cons_append]

theorem lookup_cons_eq (e : κ × List ν) (entries : List (κ × List ν)) (key : κ) :
    (e :: entries).lookup key = if key = e.1 then some e.2 else entries.lookup key := by
  obtain ⟨k, vs⟩ := e
  by_cases h : key = k
  · simp [h]
  · have h' : (key == k) = false := by simpa using h
    rw [List.lookup_cons, h', if_neg h]

theorem lookup_appendEntry (k : κ) (vs : List ν) (entries : List (κ × List ν)) (key : κ) :
    (appendEntry k vs entries).lookup key =
      if key = k then some ((entries.lookup k).getD [] ++ vs) else entries.lookup key := by
  induction entries with
  | nil => simp [appendEntry, lookup_cons_eq]
  | cons e entries ih =>
      obtain ⟨k', ws⟩ := e
      rw [appendEntry]
      by_cases hk' : k' = k
      · subst hk'
        by_cases h : key = k' <;> simp [lookup_cons_eq, h]
      · rw [if_neg hk', lookup_cons_eq, lookup_cons_eq, lookup_cons_eq, ih,
          if_neg (Ne.symm hk')]
        by_cases hkey : key = k'
        · subst hkey
          simp [hk']
        · simp [hkey]

namespace Buckets

/-- The empty map. -/
def empty : Buckets κ ν where
  entries := []
  nodup := List.nodup_nil

/-- `find`. -/
def find (m : Buckets κ ν) (k : κ) : Option (List ν) := m.entries.lookup k

/-- Append values to those of a key. -/
def append (m : Buckets κ ν) (k : κ) (vs : List ν) : Buckets κ ν where
  entries := appendEntry k vs m.entries
  nodup := by
    rw [keys_appendEntry]
    split
    · exact m.nodup
    next hnew => exact List.nodup_append.mpr ⟨m.nodup, List.nodup_singleton k, by
        intro a ha b hb
        rw [List.mem_singleton.mp hb]
        exact fun e => hnew (e ▸ ha)⟩

/-- `m[k].push_back(v)`. -/
def push (m : Buckets κ ν) (k : κ) (v : ν) : Buckets κ ν := m.append k [v]

/-- Push values under their keys, in turn. -/
def pushAll (m : Buckets κ ν) (pairs : List (κ × ν)) : Buckets κ ν :=
  pairs.foldl (fun m p => m.push p.1 p.2) m

/-- Walk through a map and append its values to those of another one. -/
def absorb (t : Traversal κ ν) (m other : Buckets κ ν) : Buckets κ ν :=
  (t.run other).foldl (fun m e => m.append e.1 e.2) m

/-- `m.emplace(k, vs)`: a key that is there keeps its list. -/
def emplace (m : Buckets κ ν) (k : κ) (vs : List ν) : Buckets κ ν :=
  if (m.find k).isSome then m else m.append k vs

/-- Rewrite the list of every key. -/
def mapLists {μ : Type} (f : List ν → List μ) (m : Buckets κ ν) : Buckets κ μ where
  entries := m.entries.map fun e => (e.1, f e.2)
  nodup := by simpa [List.map_map, Function.comp_def] using m.nodup

@[simp] theorem find_empty (k : κ) : (empty : Buckets κ ν).find k = none := rfl

theorem find_append (m : Buckets κ ν) (k : κ) (vs : List ν) (key : κ) :
    (m.append k vs).find key =
      if key = k then some ((m.find k).getD [] ++ vs) else m.find key :=
  lookup_appendEntry k vs m.entries key

/-- Emplacing entries in turn: the first one of a key counts. -/
theorem find_foldl_emplace (entries : List (κ × List ν)) (m : Buckets κ ν) (k : κ) :
    (entries.foldl (fun m e => m.emplace e.1 e.2) m).find k = (m.find k).or (entries.lookup k) := by
  induction entries generalizing m with
  | nil => simp
  | cons e entries ih =>
      rw [List.foldl_cons, ih, lookup_cons_eq, emplace]
      cases hfind : m.find e.1 with
      | some vs =>
          by_cases h : k = e.1
          · simp [h, hfind]
          · simp [h]
      | none =>
          rw [if_neg (by simp), find_append]
          by_cases h : k = e.1
          · simp [h, hfind]
          · simp [h]

/-- Of several lists emplaced under a key the first one is kept. -/
theorem find_emplaced {entries : List (κ × List ν)} {k : κ} {vs : List ν} :
    (entries.foldl (fun m e => m.emplace e.1 e.2) empty).find k = some vs ↔
      ∃ before after, entries = before ++ (k, vs) :: after ∧ ∀ e ∈ before, e.1 ≠ k := by
  rw [find_foldl_emplace, find_empty, Option.none_or, List.lookup_eq_some_iff]
  simp only [bne_iff_ne, ne_comm]

@[simp] theorem find_mapLists {μ : Type} (f : List ν → List μ) (m : Buckets κ ν) (k : κ) :
    (m.mapLists f).find k = (m.find k).map f := by
  show (m.entries.map fun e => (e.1, f e.2)).lookup k = (m.entries.lookup k).map f
  induction m.entries with
  | nil => rfl
  | cons e entries ih =>
      rw [List.map_cons, lookup_cons_eq, lookup_cons_eq, ih]
      by_cases h : k = e.1 <;> simp [h]

/-- The entries are what is found. -/
theorem mem_entries {m : Buckets κ ν} {k : κ} {vs : List ν} :
    (k, vs) ∈ m.entries ↔ m.find k = some vs := by
  obtain ⟨entries, hnodup⟩ := m
  show (k, vs) ∈ entries ↔ entries.lookup k = some vs
  induction entries with
  | nil => simp
  | cons e entries ih =>
      rw [List.map_cons, List.nodup_cons] at hnodup
      rw [List.mem_cons, lookup_cons_eq, ih hnodup.2]
      by_cases h : k = e.1
      · subst h
        -- the key is not among the entries behind
        have habsent : entries.lookup e.1 ≠ some vs := fun hfind =>
          hnodup.1 (List.mem_map.mpr ⟨(e.1, vs), (ih hnodup.2).mpr hfind, rfl⟩)
        simp only [habsent, or_false, if_true, Option.some.injEq]
        exact ⟨fun heq => (congrArg Prod.snd heq).symm, fun heq => by rw [← heq]⟩
      · have hne : (k, vs) ≠ e := fun heq => h (congrArg Prod.fst heq)
        simp [hne, h]

/-! ## Bags -/

/-- The bag of values under a key. -/
def bag (m : Buckets κ ν) (k : κ) : Multiset ν := ↑((m.find k).getD [])

/-- The bag of values that pairs have under a key. -/
def bagOf (pairs : List (κ × ν)) (k : κ) : Multiset ν :=
  ↑((pairs.filter fun p => p.1 = k).map Prod.snd)

@[simp] theorem bag_empty : (empty : Buckets κ ν).bag = 0 := rfl

@[simp] theorem bagOf_nil : (bagOf [] : κ → Multiset ν) = 0 := rfl

@[simp] theorem bagOf_append (a b : List (κ × ν)) : bagOf (a ++ b) = bagOf a + bagOf b := by
  funext k
  simp [bagOf]

theorem bagOf_cons (p : κ × ν) (pairs : List (κ × ν)) :
    bagOf (p :: pairs) = bagOf [p] + bagOf pairs := bagOf_append [p] pairs

theorem mem_bagOf {pairs : List (κ × ν)} {k : κ} {v : ν} :
    v ∈ bagOf pairs k ↔ (k, v) ∈ pairs := by
  simp [bagOf]

theorem bag_append (m : Buckets κ ν) (k : κ) (vs : List ν) :
    (m.append k vs).bag = m.bag + Pi.single k (vs : Multiset ν) := by
  funext key
  rw [bag, find_append, Pi.add_apply, Pi.single_apply, bag]
  by_cases h : key = k
  · subst h
    simp
  · simp [h]

@[simp] theorem bag_push (m : Buckets κ ν) (k : κ) (v : ν) :
    (m.push k v).bag = m.bag + bagOf [(k, v)] := by
  rw [push, bag_append]
  congr 1
  funext key
  rw [Pi.single_apply]
  by_cases h : key = k
  · simp [bagOf, h]
  · simp [bagOf, h, Ne.symm h]

/-- Pushing adds the bag of what is pushed. -/
theorem bag_pushAll (m : Buckets κ ν) (pairs : List (κ × ν)) :
    (m.pushAll pairs).bag = m.bag + bagOf pairs := by
  rw [pushAll]
  induction pairs generalizing m with
  | nil => simp
  | cons p pairs ih => rw [List.foldl_cons, ih, bag_push, bagOf_cons p pairs, add_assoc]

/-- Merging adds the bag of what is merged, in whatever order it is walked
through. -/
theorem bag_absorb (t : Traversal κ ν) (m other : Buckets κ ν) :
    (m.absorb t other).bag = m.bag + other.bag := by
  rw [absorb, measure_foldl bag (fun e => Pi.single e.1 (e.2 : Multiset ν))
    (fun m e => m.bag_append e.1 e.2), ((t.perm other).map _).sum_eq]
  congr 1
  -- entry by entry, the sum under a key is the list of that key
  funext key
  obtain ⟨entries, hnodup⟩ := other
  show _ = (↑((entries.lookup key).getD []) : Multiset ν)
  simp only
  induction entries with
  | nil => rfl
  | cons e entries ih =>
      rw [List.map_cons, List.nodup_cons] at hnodup
      rw [List.map_cons, List.sum_cons, Pi.add_apply, ih hnodup.2, lookup_cons_eq, Pi.single_apply]
      by_cases h : key = e.1
      · subst h
        have habsent : entries.lookup e.1 = none := by
          rw [List.lookup_eq_none_iff]
          intro p hp
          have hne : e.1 ≠ p.1 := fun heq => hnodup.1 (heq ▸ List.mem_map_of_mem hp)
          simpa using hne
        simp [habsent]
      · simp [h]

/-- A value in the bag of a key is found under it. -/
theorem find_of_mem_bag {m : Buckets κ ν} {k : κ} {v : ν} (h : v ∈ m.bag k) :
    ∃ vs, m.find k = some vs ∧ v ∈ vs := by
  rw [bag] at h
  cases hfind : m.find k with
  | none => simp [hfind] at h
  | some vs => exact ⟨vs, rfl, by simpa [hfind] using h⟩

/-- No key has an empty list. -/
def Filled (m : Buckets κ ν) : Prop := ∀ k vs, m.find k = some vs → vs ≠ []

theorem Filled.empty : (Buckets.empty : Buckets κ ν).Filled := by
  intro k vs h
  simp at h

theorem Filled.append {m : Buckets κ ν} (h : m.Filled) (k : κ) {vs : List ν} (hvs : vs ≠ []) :
    (m.append k vs).Filled := by
  intro key ws hfind
  rw [find_append] at hfind
  split at hfind
  · rw [← Option.some.inj hfind]
    simp [hvs]
  · exact h key ws hfind

theorem Filled.pushAll {m : Buckets κ ν} (h : m.Filled) (pairs : List (κ × ν)) :
    (m.pushAll pairs).Filled :=
  List.foldlRecOn pairs _ h fun _ hm p _ => hm.append p.1 (by simp)

theorem Filled.absorb {m other : Buckets κ ν} (h : m.Filled) (hother : other.Filled)
    (t : Traversal κ ν) : (m.absorb t other).Filled := by
  refine List.foldlRecOn (t.run other) _ h ?_
  intro m' hm' e he
  exact hm'.append e.1 (hother e.1 e.2 (mem_entries.mp ((t.perm other).mem_iff.mp he)))

theorem Filled.mapLists {μ : Type} {m : Buckets κ ν} (h : m.Filled) {f : List ν → List μ}
    (hf : ∀ vs, f vs = [] → vs = []) : (m.mapLists f).Filled := by
  intro k ws hfind
  rw [find_mapLists, Option.map_eq_some_iff] at hfind
  obtain ⟨vs, hvs, rfl⟩ := hfind
  exact fun hnil => h k vs hvs (hf vs hnil)

/-- Where no list is empty, a key is there exactly when its bag has a value. -/
theorem find_eq_none_iff {m : Buckets κ ν} (h : m.Filled) {k : κ} :
    m.find k = none ↔ m.bag k = 0 := by
  rw [bag, Multiset.coe_eq_zero]
  cases hfind : m.find k with
  | none => simp
  | some vs => simp [h k vs hfind]

/-- Maps in which the same is found have the same entries. -/
theorem perm_of_find_eq {m m' : Buckets κ ν} (h : ∀ k, m.find k = m'.find k) :
    m.entries.Perm m'.entries := by
  rw [List.perm_ext_iff_of_nodup m.nodup.of_map m'.nodup.of_map]
  rintro ⟨k, vs⟩
  rw [mem_entries, mem_entries, h]

/-- What is found under a key is its bag, in some order. -/
theorem coe_of_find {m : Buckets κ ν} {k : κ} {vs : List ν} (h : m.find k = some vs) :
    (↑vs : Multiset ν) = m.bag k := by
  rw [bag, h]
  rfl

/-! ## Counting -/

/-- The number of values. -/
def size (m : Buckets κ ν) : Nat := (m.entries.map fun e => e.2.length).sum

@[simp] theorem size_append (m : Buckets κ ν) (k : κ) (vs : List ν) :
    (m.append k vs).size = m.size + vs.length := by
  show ((appendEntry k vs m.entries).map fun e => e.2.length).sum =
    (m.entries.map fun e => e.2.length).sum + vs.length
  induction m.entries with
  | nil => simp [appendEntry]
  | cons e entries ih =>
      rw [appendEntry]
      split
      · simp only [List.map_cons, List.sum_cons, List.length_append]
        omega
      · simp only [List.map_cons, List.sum_cons, ih]
        omega

/-- Merging adds the values of what is merged. -/
theorem size_absorb (t : Traversal κ ν) (m other : Buckets κ ν) :
    (m.absorb t other).size = m.size + other.size := by
  rw [absorb, measure_foldl size (fun e => e.2.length) (fun m e => m.size_append e.1 e.2),
    ((t.perm other).map _).sum_eq]
  rfl

omit [DecidableEq κ] in
/-- Rewriting lists to lists of their length keeps the number of values. -/
theorem size_mapLists {μ : Type} (m : Buckets κ ν) {f : List ν → List μ}
    (hf : ∀ vs, (f vs).length = vs.length) : (m.mapLists f).size = m.size := by
  simp [size, mapLists, List.map_map, Function.comp_def, hf]

end Buckets

end Phpatcher.Basis
