import Phpatcher.Theorems.IndexRoundTrip
import Phpatcher.Theorems.MovedBlock
import Phpatcher.Theorems.ParallelIndex
import Phpatcher.Tools.IndexerMain

/-!
# What an index file holds

From the directory to what a generator loads: under a key there are the places of the
tree where the key is that of a line, each with the path of its file, and no others,
if the key is long enough and not too frequent; and under any other key there is
nothing. This holds of either kind of index, whatever worker got which file and in
whatever order maps were walked through, where the workers can be shut down.
-/

namespace Phpatcher.Theorems

open Phpatcher.Basis Phpatcher.Core Phpatcher.Tools

variable {opt : ScanOptions} {keysOf : Bytes → List Bytes}

/-! ## The walk -/

/-- A file as it is set aside for the workers. -/
def normFile (keysOf : Bytes → List Bytes) (f : Scanned) : NormFile :=
  ⟨f.rel, f.content.map keysOf⟩

/-- What a file adds to the index that is built, and to the files set aside. -/
def addSource (opt : ScanOptions) (keysOf : Bytes → List Bytes)
    (work : (LineIndex × Counters) × List NormFile) (f : Scanned) :
    (LineIndex × Counters) × List NormFile :=
  if opt.normalize then (work.1, work.2 ++ [normFile keysOf f])
  else (scanFile opt.toOptions work.1 f, work.2)

/-- The work of a state of the walk. -/
def workOf (s : Indexing) : (LineIndex × Counters) × List NormFile :=
  ((s.idx, s.counters), s.normFiles)

/-- The file that an entry is, if its extension is asked for. -/
def entrySource (opt : ScanOptions) (e : List Bytes × (Bytes ⊕ DirEntry)) : Option Scanned :=
  (e.2.getRight?.map (e.1, ·)).bind opt.matched

theorem sources_eq (root : Directory) :
    opt.sources root = (root.visits opt.descends []).entries.filterMap (entrySource opt) := by
  rw [ScanOptions.sources, Visits.leaves, List.filterMap_filterMap]
  rfl

/-- Only such a file adds anything. -/
theorem workOf_entry (s : Indexing) (e : List Bytes × (Bytes ⊕ DirEntry)) :
    workOf (s.entry opt keysOf e.1 e.2) =
      match entrySource opt e with
      | none => workOf s
      | some f => addSource opt keysOf (workOf s) f := by
  obtain ⟨dir, name | (name | ⟨name, link, content⟩ | name)⟩ := e
  · simp only [Indexing.entry, Indexing.directory]
    split <;> rfl
  · simp only [Indexing.entry, Indexing.directory]
    split <;> rfl
  · simp only [Indexing.entry, Indexing.file, entrySource, Sum.getRight?_inr, Option.map_some,
      Option.bind_some, ScanOptions.matched, Bool.not_eq_true']
    cases opt.exts.contains (extOf name) with
    | false => rfl
    | true => cases hmode : opt.normalize <;> simp [workOf, addSource, normFile, hmode]
  · rfl

/-- So the walk works through the matched files, in its order. -/
theorem workOf_scanDirectory (root : Directory) :
    workOf ((root.visits opt.descends []).run (Indexing.entry opt keysOf) {}).1 =
      (opt.sources root).foldl (addSource opt keysOf) ((⟨[], .empty⟩, 0), []) := by
  have hfold : ∀ (es : List (List Bytes × (Bytes ⊕ DirEntry))) (s : Indexing),
      workOf (es.foldl (fun s e => s.entry opt keysOf e.1 e.2) s) =
        (es.filterMap (entrySource opt)).foldl (addSource opt keysOf) (workOf s) := by
    intro es
    induction es with
    | nil => exact fun s => rfl
    | cons e es ih =>
        intro s
        rw [List.foldl_cons, ih, workOf_entry, List.filterMap_cons]
        cases entrySource opt e <;> rfl
  rw [sources_eq]
  exact hfold _ {}

/-! ## Places -/

/-- The numbers of the lines that have a key. -/
def linesWith (key : Bytes) (keys : List Bytes) : List Nat :=
  ((keys.zipIdx 1).filter fun e => e.1 = key).map Prod.snd

/-- The keys of the lines of a file, if it can be read. -/
def sourceKeys (opt : ScanOptions) (keysOf : Bytes → List Bytes) (f : Scanned) : List Bytes :=
  (f.content.map (if opt.normalize then keysOf else fileKeys)).getD []

/-- Where a file has a key. -/
def placesIn (opt : ScanOptions) (keysOf : Bytes → List Bytes) (key : Bytes) (f : Scanned) :
    Multiset (Bytes × Nat) :=
  ↑((linesWith key (sourceKeys opt keysOf f)).map (f.rel, ·))

/-- Where files have a key. -/
def places (opt : ScanOptions) (keysOf : Bytes → List Bytes) (files : List Scanned)
    (key : Bytes) : Multiset (Bytes × Nat) :=
  (files.map (placesIn opt keysOf key)).sum

/-- A key is long enough for the index. -/
def LongEnough (opt : Options) (key : Bytes) : Prop := key ≠ [] ∧ opt.minLen ≤ (trim key).length

instance (opt : Options) (key : Bytes) : Decidable (LongEnough opt key) :=
  inferInstanceAs (Decidable (_ ∧ _))

/-- The places that postings stand for. -/
def located (files : List Bytes) (posted : Multiset Nat) : Multiset (Bytes × Nat) :=
  posted.map fun p => (files.getD (postingFile p) [], postingLine p)

theorem mem_linesWith {key : Bytes} {keys : List Bytes} {n : Nat} :
    n ∈ linesWith key keys ↔ 1 ≤ n ∧ keys[n - 1]? = some key := by
  simp [linesWith, List.mem_zipIdx_iff_le_and_getElem?_sub]

theorem le_of_mem_linesWith {key : Bytes} {keys : List Bytes} {n : Nat}
    (h : n ∈ linesWith key keys) : n ≤ keys.length := by
  obtain ⟨hpos, hget⟩ := mem_linesWith.mp h
  obtain ⟨hlt, _⟩ := List.getElem?_eq_some_iff.mp hget
  omega

/-- Line numbers packed with a file id stand for those lines of the file. -/
theorem located_pack {files keys : List Bytes} {fileId : Nat} {rel key : Bytes}
    (hfile : files[toU32 fileId]? = some rel) (hlines : keys.length < 4294967296) :
    located files ↑((linesWith key keys).map (pack fileId)) =
      ↑((linesWith key keys).map (rel, ·)) := by
  rw [located, Multiset.map_coe, List.map_map]
  refine congrArg _ (List.map_congr_left fun n hn => ?_)
  have hn := le_of_mem_linesWith hn
  have hline : toU32 n = n := Nat.mod_eq_of_lt (by omega)
  simp only [Function.comp_apply, postingFile_pack, postingLine_pack, hline, List.getD, hfile,
    Option.getD_some]

/-! ## The scan line by line -/

theorem mem_fileKeys {content key : Bytes} (h : key ∈ fileKeys content) : trim key = key := by
  obtain ⟨line, _, rfl⟩ := List.mem_map.mp h
  exact trim_trim line

/-- What is posted under a key that passes are the lines that have it. -/
theorem bagOf_postings (opt : Options) (fileId : Nat) (keys : List Bytes) (key : Bytes) :
    Buckets.bagOf (postings opt fileId 1 keys) key =
      if Passes opt key then ↑((linesWith key keys).map (pack fileId)) else 0 := by
  rw [Buckets.bagOf, postings, postedKeys, List.filter_map, List.filter_filter, List.map_map]
  split
  next h =>
    rw [linesWith, List.map_map]
    congr 2
    refine List.filter_congr fun e _ => ?_
    by_cases heq : e.1 = key
    · simp [heq, h]
    · simp [heq]
  next h =>
    rw [Multiset.coe_eq_zero, List.map_eq_nil_iff, List.filter_eq_nil_iff]
    rintro e _ heq
    simp only [Function.comp_apply, Bool.and_eq_true, decide_eq_true_eq] at heq
    exact h (heq.1 ▸ heq.2)

/-- The file ids of an index are those of its files. -/
def IdsIn (idx : LineIndex) : Prop :=
  ∀ key, ∀ p ∈ idx.lines.bag key, postingFile p < idx.files.length

section

variable {f : Scanned} {key : Bytes}

theorem filePostings_eq (hmode : opt.normalize = false) (fileId : Nat) :
    filePostings opt.toOptions fileId f =
      postings opt.toOptions fileId 1 (sourceKeys opt keysOf f) := by
  rw [filePostings, sourceKeys, hmode]
  cases f.content <;> rfl

/-- A key that a line has is trimmed, so it passes if it is long enough. -/
theorem passes_iff_longEnough (hmode : opt.normalize = false)
    (h : linesWith key (sourceKeys opt keysOf f) ≠ []) :
    Passes opt.toOptions key ↔ LongEnough opt.toOptions key := by
  obtain ⟨n, hn⟩ := List.exists_mem_of_ne_nil _ h
  have hmem := List.mem_of_getElem? (mem_linesWith.mp hn).2
  rw [sourceKeys, hmode] at hmem
  have htrimmed : trim key = key := by
    cases hcontent : f.content with
    | none => simp [hcontent] at hmem
    | some content => exact mem_fileKeys (by simpa [hcontent] using hmem)
  rw [Passes, LongEnough, htrimmed]

/-- A file with a line whose key passes has an id. -/
theorem entered_eq (hmode : opt.normalize = false) (hpasses : Passes opt.toOptions key)
    (h : linesWith key (sourceKeys opt keysOf f) ≠ []) : entered opt.toOptions f = [f.rel] := by
  obtain ⟨n, hn⟩ := List.exists_mem_of_ne_nil _ h
  obtain ⟨hpos, hget⟩ := mem_linesWith.mp hn
  refine if_neg fun hnil => ?_
  have hposted : (key, n) ∈ postedKeys opt.toOptions 1 (sourceKeys opt keysOf f) :=
    mem_postedKeys.mpr ⟨hpasses, hpos, hget⟩
  rw [@filePostings_eq opt keysOf f hmode, postings, List.map_eq_nil_iff] at hnil
  simp [hnil] at hposted

/-- The scan of a file adds its own id, if any. -/
theorem idsIn_scanFile (hmode : opt.normalize = false) {st : LineIndex × Counters}
    (hids : IdsIn st.1) (hfiles : st.1.files.length < 4294967296) :
    IdsIn (scanFile opt.toOptions st f).1 := by
  rw [scanFile_eq]
  intro key p hp
  rw [Buckets.bag_pushAll, Pi.add_apply, Multiset.mem_add] at hp
  rcases hp with hp | hp
  · exact (hids key p hp).trans_le (by simp)
  · rw [@filePostings_eq opt fileKeys f hmode, bagOf_postings] at hp
    split at hp
    next hpasses =>
      obtain ⟨n, hn, rfl⟩ := List.mem_map.mp (Multiset.mem_coe.mp hp)
      rw [entered_eq hmode hpasses (List.ne_nil_of_mem hn), postingFile_pack, toU32,
        Nat.mod_eq_of_lt hfiles]
      simp
    next => simp at hp

/-- The scan of a file adds its own places. -/
theorem located_scanFile (hmode : opt.normalize = false) {st : LineIndex × Counters}
    (hids : IdsIn st.1) (hfiles : st.1.files.length < 4294967296)
    (hlines : (sourceKeys opt keysOf f).length < 4294967296) (key : Bytes) :
    located (scanFile opt.toOptions st f).1.files
        ((scanFile opt.toOptions st f).1.lines.bag key) =
      located st.1.files (st.1.lines.bag key) +
        if LongEnough opt.toOptions key then placesIn opt keysOf key f else 0 := by
  have hold : ∀ p ∈ st.1.lines.bag key,
      (st.1.files ++ entered opt.toOptions f).getD (postingFile p) [] =
        st.1.files.getD (postingFile p) [] := by
    intro p hp
    rw [List.getD, List.getD, List.getElem?_append_left (hids key p hp)]
  rw [scanFile_eq, Buckets.bag_pushAll, Pi.add_apply, @filePostings_eq opt keysOf f hmode,
    bagOf_postings, located, Multiset.map_add]
  congr 1
  · exact Multiset.map_congr rfl fun p hp => by rw [hold p hp]
  · by_cases hne : linesWith key (sourceKeys opt keysOf f) = []
    · simp [placesIn, hne]
    · have hlong := passes_iff_longEnough hmode hne
      simp only [hlong]
      split
      next hl =>
        refine located_pack ?_ hlines
        rw [entered_eq hmode (hlong.mpr hl) hne, toU32, Nat.mod_eq_of_lt hfiles]
        simp
      next => rfl

end

theorem places_cons (f : Scanned) (files : List Scanned) (key : Bytes) :
    places opt keysOf (f :: files) key = placesIn opt keysOf key f + places opt keysOf files key :=
  rfl

/-- So it is for the scan of several files. -/
theorem located_foldl (hmode : opt.normalize = false) (files : List Scanned)
    (st : LineIndex × Counters) (hids : IdsIn st.1)
    (hfiles : st.1.files.length + files.length < 4294967296)
    (hlines : ∀ f ∈ files, (sourceKeys opt keysOf f).length < 4294967296) :
    let idx := (files.foldl (scanFile opt.toOptions) st).1
    ∀ key, located idx.files (idx.lines.bag key) = located st.1.files (st.1.lines.bag key) +
      if LongEnough opt.toOptions key then places opt keysOf files key else 0 := by
  induction files generalizing st with
  | nil =>
      intro idx key
      simp [idx, places]
  | cons f files ih =>
      intro idx key
      rw [List.forall_mem_cons] at hlines
      rw [List.length_cons] at hfiles
      have hids' : IdsIn (scanFile opt.toOptions st f).1 :=
        idsIn_scanFile hmode hids (by omega)
      have hadded := located_scanFile hmode hids (by omega) hlines.1
      have hentered : (scanFile opt.toOptions st f).1.files.length ≤ st.1.files.length + 1 := by
        rw [scanFile_eq, List.length_append, entered]
        split <;> simp
      have hrest := ih (scanFile opt.toOptions st f) hids' (by omega) hlines.2 key
      rw [hadded key] at hrest
      refine hrest.trans ?_
      rw [places_cons, add_assoc]
      split <;> rfl

/-- What an index has of files: the places of the keys that are long enough, and paths
of these files. -/
structure Holds (opt : ScanOptions) (keysOf : Bytes → List Bytes) (files : List Scanned)
    (idx : LineIndex) : Prop where
  placed : ∀ key, located idx.files (idx.lines.bag key) =
    if LongEnough opt.toOptions key then places opt keysOf files key else 0
  filled : idx.lines.Filled
  files_le : idx.files.length ≤ files.length
  paths : ∀ path ∈ idx.files, ∃ f ∈ files, f.rel = path

/-- The numbers of a tree fit the fields of an index file, and its paths do. -/
structure Recordable (opt : ScanOptions) (keysOf : Bytes → List Bytes) (files : List Scanned) :
    Prop where
  files_lt : files.length < 4294967296
  lines_lt : (files.map fun f => (sourceKeys opt keysOf f).length).sum < 4294967296
  keys_lt : ∀ f ∈ files, ∀ key ∈ sourceKeys opt keysOf f, key.length < 4294967296
  paths_lt : ∀ f ∈ files, f.rel.length < 65536

theorem Recordable.fileLines_lt {files : List Scanned} (h : Recordable opt keysOf files)
    {f : Scanned} (hf : f ∈ files) : (sourceKeys opt keysOf f).length < 4294967296 :=
  (List.single_le_sum (fun _ _ => Nat.zero_le _) _ (List.mem_map_of_mem hf)).trans_lt h.lines_lt

theorem holds_scanTree (hmode : opt.normalize = false) {files : List Scanned}
    (h : Recordable opt keysOf files) :
    Holds opt keysOf files (scanTree opt.toOptions files).1 where
  placed key := by
    have hempty : IdsIn (⟨[], .empty⟩ : LineIndex) := by simp [IdsIn]
    have hlocated := located_foldl hmode files (⟨[], .empty⟩, 0) hempty
      (by simpa using h.files_lt) (fun f hf => h.fileLines_lt hf) key
    have hnone : located [] ((Buckets.empty : Buckets Bytes Nat).bag key) = 0 := rfl
    exact hlocated.trans (by rw [hnone, zero_add])
  filled := filled_foldl _ files Buckets.Filled.empty
  files_le := by
    rw [scanTree, files_foldl, List.nil_append, List.length_flatMap]
    have hone : ∀ f ∈ files, (entered opt.toOptions f).length ≤ 1 := by
      intro f _
      rw [entered]
      split <;> simp
    simpa using List.sum_le_card_nsmul (files.map fun f => (entered opt.toOptions f).length) 1
      (by simpa using hone)
  paths path hpath := by
    rw [scanTree, files_foldl, List.nil_append, List.mem_flatMap] at hpath
    obtain ⟨f, hf, hpath⟩ := hpath
    rw [entered] at hpath
    split at hpath
    · simp at hpath
    · exact ⟨f, hf, (List.mem_singleton.mp hpath).symm⟩

/-! ## The workers -/

theorem getD_normFile {files : List Scanned} {i : Nat} (hi : i < files.length) :
    (files.map (normFile keysOf)).getD i ⟨[], none⟩ = normFile keysOf files[i] := by
  simp [List.getD, hi]

theorem sum_fst_apply (tallies : List Tally) (key : Bytes) :
    tallies.sum.1 key = (tallies.map fun t => t.1 key).sum := by
  induction tallies with
  | nil => rfl
  | cons t tallies ih => rw [List.sum_cons, Prod.fst_add, Pi.add_apply, ih, List.map_cons,
      List.sum_cons]

/-- A bag of some elements of a list is the sum of what each of them adds. -/
theorem sum_map_ite_singleton {α β : Type} (p : α → Prop) [DecidablePred p] (f : α → β)
    (l : List α) : (l.map fun a => if p a then ({f a} : Multiset β) else 0).sum =
      ↑((l.filter p).map f) := by
  induction l with
  | nil => rfl
  | cons a l ih =>
      rw [List.map_cons, List.sum_cons, ih]
      by_cases h : p a <;> simp [h]

/-- What a file adds to the merged map: the lines of its long keys, under its number. -/
theorem bag_fileTally (hmode : opt.normalize = true) (files : List Scanned) {i : Nat}
    (hi : i < files.length) (key : Bytes) :
    (fileTally opt.minLen (files.map (normFile keysOf)) i).1 key =
      if LongEnough opt.toOptions key then
        ↑((linesWith key (sourceKeys opt keysOf files[i])).map (pack i)) else 0 := by
  have hline : ∀ e : Bytes × Nat, (lineTally opt.minLen (toU32 i) e).1 key =
      if LongEnough opt.toOptions key ∧ e.1 = key then {pack i (e.2 + 1)} else 0 := by
    rintro ⟨k, li⟩
    rw [lineTally]
    by_cases hk : k = key
    · subst hk
      by_cases hempty : k = []
      · simp [hempty, LongEnough]
      · by_cases hshort : (trim k).length < opt.minLen
        · have hnot : ¬ LongEnough opt.toOptions k := fun h => by
            have := h.2
            omega
          simp [hempty, hshort, hnot]
        · have hlong : LongEnough opt.toOptions k := ⟨hempty, by omega⟩
          have hpack : pack (toU32 i) (toU32 (li + 1)) = pack i (li + 1) := by
            rw [pack, pack, toU32_toU32, toU32_toU32]
          simp [hempty, hshort, hlong, Buckets.bagOf, hpack]
    · split
      · simp [hk]
      · split <;> simp [hk, Buckets.bagOf]
  have hkeys : sourceKeys opt keysOf files[i] = (files[i].content.map keysOf).getD [] := by
    rw [sourceKeys, hmode]
    rfl
  rw [fileTally, getD_normFile hi, hkeys, normFile]
  cases files[i].content with
  | none => simp [linesWith]
  | some content =>
      simp only [Option.map_some, Option.getD_some]
      rw [sum_fst_apply, List.map_map]
      simp only [Function.comp_def, hline]
      have hlines : linesWith key (keysOf content) =
          ((keysOf content).zipIdx.filter fun e => e.1 = key).map fun e => e.2 + 1 := by
        rw [linesWith, List.zipIdx_eq_map_add, List.filter_map, List.map_map]
        simp [Function.comp_def, Nat.add_comm]
      by_cases hlong : LongEnough opt.toOptions key
      · simp only [hlong, true_and, if_true]
        rw [sum_map_ite_singleton, hlines, List.map_map]
        rfl
      · simp [hlong]

/-- What compaction makes of the ids below `n`: one that is in use leads to its file. -/
structure Compacted (files : List NormFile) (used : Nat → Bool) (n : Nat) (c : Compaction) :
    Prop where
  remapped : ∀ id < n, used id = true →
    c.files[c.remap id]? = some (files.getD id ⟨[], none⟩).rel
  length_le : c.files.length ≤ n
  paths : ∀ path ∈ c.files, ∃ id < n, (files.getD id ⟨[], none⟩).rel = path

/-- An id in use is given the next place. -/
theorem Compacted.enter {files : List NormFile} {used : Nat → Bool} {n : Nat} {c : Compaction}
    (hc : Compacted files used n c) (hn : n < 4294967296) :
    Compacted files used (n + 1)
      { remap := Function.update c.remap n (toU32 c.files.length)
        files := c.files ++ [(files.getD n ⟨[], none⟩).rel] } where
  remapped id hid hused := by
    have hlength := hc.length_le
    have hplace : toU32 c.files.length = c.files.length := Nat.mod_eq_of_lt (by omega)
    simp only
    rcases Nat.lt_succ_iff_lt_or_eq.mp hid with hlt | rfl
    · have hold := hc.remapped id hlt hused
      obtain ⟨hbound, _⟩ := List.getElem?_eq_some_iff.mp hold
      rw [Function.update_of_ne (by omega), List.getElem?_append_left hbound]
      exact hold
    · rw [Function.update_self, hplace, List.getElem?_concat_length]
  length_le := by
    rw [List.length_append, List.length_singleton]
    exact Nat.succ_le_succ hc.length_le
  paths path hpath := by
    rcases List.mem_append.mp hpath with hpath | hpath
    · obtain ⟨id, hid, hrel⟩ := hc.paths path hpath
      exact ⟨id, by omega, hrel⟩
    · exact ⟨n, by omega, (List.mem_singleton.mp hpath).symm⟩

/-- An id that is not in use is passed over. -/
theorem Compacted.skip {files : List NormFile} {used : Nat → Bool} {n : Nat} {c : Compaction}
    (hc : Compacted files used n c) (hunused : ¬ used n = true) :
    Compacted files used (n + 1) c where
  remapped id hid hused := by
    rcases Nat.lt_succ_iff_lt_or_eq.mp hid with hlt | rfl
    · exact hc.remapped id hlt hused
    · exact absurd hused hunused
  length_le := hc.length_le.trans (Nat.le_succ n)
  paths path hpath := by
    obtain ⟨id, hid, hrel⟩ := hc.paths path hpath
    exact ⟨id, by omega, hrel⟩

/-- A loop over the first numbers, by what holds before each of its turns. -/
theorem foldl_range_induction {τ : Type} {motive : Nat → τ → Prop} {step : τ → Nat → τ} {s : τ}
    (n : Nat) (hzero : motive 0 s)
    (hstep : ∀ i < n, ∀ s, motive i s → motive (i + 1) (step s i)) :
    motive n ((List.range n).foldl step s) := by
  induction n with
  | zero => exact hzero
  | succ n ih =>
      rw [List.range_succ, List.foldl_append, List.foldl_cons, List.foldl_nil]
      exact hstep n (Nat.lt_succ_self n) _ (ih fun i hi => hstep i (by omega))

theorem compacted_compactIds (files : List NormFile) (used : Nat → Bool)
    (hfiles : files.length < 4294967296) :
    Compacted files used files.length (compactIds files used) := by
  refine @foldl_range_induction _ (Compacted files used) _ _ files.length
    ⟨by simp, by simp, by simp⟩ fun id hid c hc => ?_
  split
  · exact hc.enter (by omega)
  next hunused => exact hc.skip hunused

/-- Repacked lists stand for the same places under the new ids. -/
theorem located_repack {m : Buckets Bytes Nat} (sorter : Sorter (id : Nat → Nat))
    {remap : Nat → Nat} {relOf : Nat → Bytes} {files : List Bytes} (key : Bytes)
    (hremap : ∀ p ∈ m.bag key,
      files[toU32 (remap (postingFile p))]? = some (relOf (postingFile p))) :
    located files ((m.mapLists (repack sorter remap)).bag key) =
      (m.bag key).map fun p => (relOf (postingFile p), postingLine p) := by
  have hbag : (m.mapLists (repack sorter remap)).bag key =
      (m.bag key).map fun p => pack (remap (postingFile p)) (postingLine p) := by
    rw [Buckets.bag, Buckets.bag, Buckets.find_mapLists]
    cases m.find key with
    | none => rfl
    | some ps =>
        rw [Option.map_some, Option.getD_some, Option.getD_some, repack, Multiset.map_coe]
        exact Multiset.coe_eq_coe.mpr (sorter.perm _)
  rw [hbag, located, Multiset.map_map]
  refine Multiset.map_congr rfl fun p hp => ?_
  have hline : toU32 (postingLine p) = postingLine p := toU32_toU32 _
  simp only [Function.comp_apply, postingFile_pack, postingLine_pack, List.getD, hremap p hp,
    Option.getD_some, hline]

/-- The lines with a key of all files, packed with the numbers of these. -/
def packedLines (opt : ScanOptions) (keysOf : Bytes → List Bytes) (files : List Scanned)
    (key : Bytes) : Multiset Nat :=
  ((List.finRange files.length).map fun i : Fin files.length =>
    (↑((linesWith key (sourceKeys opt keysOf files[i])).map (pack i)) : Multiset Nat)).sum

theorem exists_of_mem_packedLines {files : List Scanned} {key : Bytes} {p : Nat}
    (h : p ∈ packedLines opt keysOf files key) :
    ∃ i, i < files.length ∧ postingFile p = toU32 i := by
  rw [packedLines, ← Multiset.sum_coe] at h
  obtain ⟨_, hbag, hp⟩ := Multiset.mem_join.mp h
  obtain ⟨i, _, rfl⟩ := List.mem_map.mp (Multiset.mem_coe.mp hbag)
  obtain ⟨n, _, rfl⟩ := List.mem_map.mp (Multiset.mem_coe.mp hp)
  exact ⟨i, i.isLt, postingFile_pack _ _⟩

/-- The merged map has these under a key that is long enough. -/
theorem bag_merged (hmode : opt.normalize = true) (files : List Scanned) {jobs : Nat}
    (schedule : Schedule jobs (files.map (normFile keysOf)).length) (t : Traversal Bytes Nat)
    (key : Bytes) :
    (mergeResults t (workerResults opt.minLen (files.map (normFile keysOf)) schedule)).bag key =
      if LongEnough opt.toOptions key then packedLines opt keysOf files key else 0 := by
  rw [bag_mergeResults, sum_workerResults, sum_fst_apply, List.map_map, List.length_map,
    ← List.map_coe_finRange_eq_range, List.map_map]
  have hfile : ∀ i : Fin files.length,
      (fileTally opt.minLen (files.map (normFile keysOf)) i).1 key = _ :=
    fun i => bag_fileTally hmode files i.isLt key
  simp only [Function.comp_def, hfile]
  split
  · rfl
  · simp

/-- Those lines are the places of the key. -/
theorem map_packedLines {files : List Scanned} (h : Recordable opt keysOf files) (key : Bytes) :
    ((packedLines opt keysOf files key).map fun p =>
      (((files.map (normFile keysOf)).getD (postingFile p) ⟨[], none⟩).rel, postingLine p)) =
      places opt keysOf files key := by
  have hfiles := h.files_lt
  rw [packedLines, ← Multiset.coe_mapAddMonoidHom, map_list_sum, List.map_map, places]
  conv_rhs => rw [← List.map_getElem_finRange files, List.map_map]
  refine congrArg List.sum (List.map_congr_left fun i _ => ?_)
  simp only [Function.comp_apply, Multiset.coe_mapAddMonoidHom, Multiset.map_coe, List.map_map,
    placesIn]
  refine congrArg _ (List.map_congr_left fun n hn => ?_)
  have hi := i.isLt
  have hline := le_of_mem_linesWith hn
  have hlines : (sourceKeys opt keysOf files[i]).length < 4294967296 :=
    h.fileLines_lt (List.getElem_mem hi)
  have hfile : postingFile (pack i n) = i := by
    rw [postingFile_pack, toU32, Nat.mod_eq_of_lt (by omega)]
  have hn' : postingLine (pack i n) = n := by
    rw [postingLine_pack, toU32, Nat.mod_eq_of_lt (by omega)]
  simp only [Function.comp_apply, hfile, hn', getD_normFile hi, normFile]

/-- Compacted, with its lists repacked and sorted, the merged map holds the files. -/
theorem holds_compacted {files : List Scanned} (h : Recordable opt keysOf files)
    (sorter : Sorter (id : Nat → Nat)) {merged : Buckets Bytes Nat} (hfilled : merged.Filled)
    (hbag : ∀ key, merged.bag key =
      if LongEnough opt.toOptions key then packedLines opt keysOf files key else 0) :
    let compaction := compactIds (files.map (normFile keysOf)) (usedIds merged)
    Holds opt keysOf files
      ⟨compaction.files, merged.mapLists (repack sorter compaction.remap)⟩ := by
  intro compaction
  have hlt := h.files_lt
  have hcompacted : Compacted _ _ _ compaction :=
    compacted_compactIds (files.map (normFile keysOf)) (usedIds merged) (by simpa using hlt)
  have hlength := hcompacted.length_le
  rw [List.length_map] at hlength
  constructor
  · intro key
    refine (@located_repack merged sorter compaction.remap
      (fun i => ((files.map (normFile keysOf)).getD i ⟨[], none⟩).rel) _ key ?_).trans ?_
    · -- the id of a posting is in use, and leads to its file
      intro p hp
      have hused := usedIds_iff.mpr ⟨key, p, hp, rfl⟩
      rw [hbag] at hp
      split at hp
      next =>
        obtain ⟨i, hi, hfile⟩ := exists_of_mem_packedLines hp
        rw [toU32, Nat.mod_eq_of_lt (by omega)] at hfile
        have hremap := hcompacted.remapped (postingFile p) (by simpa [hfile] using hi) hused
        obtain ⟨hbound, _⟩ := List.getElem?_eq_some_iff.mp hremap
        rw [toU32, Nat.mod_eq_of_lt (by omega)]
        exact hremap
      next => simp at hp
    · rw [hbag]
      split
      · exact map_packedLines h key
      · rfl
  · refine hfilled.mapLists fun ps hnil => ?_
    have hlength := (sorter.perm (ps.map fun p =>
      pack (compaction.remap (postingFile p)) (postingLine p))).length_eq
    rw [repack] at hnil
    rw [hnil, List.length_map] at hlength
    exact List.eq_nil_of_length_eq_zero hlength.symm
  · exact hlength
  · intro path hpath
    obtain ⟨id, hid, rfl⟩ := hcompacted.paths path hpath
    rw [List.length_map] at hid
    exact ⟨files[id], List.getElem_mem hid, by rw [getD_normFile hid, normFile]⟩

theorem holds_parallel (hmode : opt.normalize = true) {files : List Scanned}
    (h : Recordable opt keysOf files) {hardwareConcurrency : Nat}
    {schedule : Schedule
      (jobCount hardwareConcurrency opt.toOptions (files.map (normFile keysOf)).length)
      (files.map (normFile keysOf)).length}
    {destruction : Destruction} {t : Traversal Bytes Nat} {sorter : Sorter (id : Nat → Nat)}
    {built : Nat × LineIndex × Counters}
    (hbuilt : processNormalizedParallel hardwareConcurrency (files.map (normFile keysOf))
      opt.toOptions schedule destruction t sorter ⟨[], .empty⟩ 0 = some built) :
    Holds opt keysOf files built.2.1 := by
  rcases processNormalizedParallel_cases hbuilt with ⟨hnil, rfl⟩ | hmerged
  · obtain rfl : files = [] := List.map_eq_nil_iff.mp hnil
    exact ⟨fun key => by simp [located, places], Buckets.Filled.empty, by simp, by simp⟩
  · rw [hmerged]
    exact holds_compacted h sorter
      (filled_mergeResults t (filled_workerResults opt.minLen _ schedule))
      (bag_merged hmode files schedule t)

/-! ## The file -/

/-- The keys of all lines. -/
def allKeys (opt : ScanOptions) (keysOf : Bytes → List Bytes) (files : List Scanned) :
    List Bytes :=
  files.flatMap (sourceKeys opt keysOf)

theorem length_linesWith_le (key : Bytes) (keys : List Bytes) :
    (linesWith key keys).length ≤ keys.length := by
  rw [linesWith, List.length_map]
  exact (List.length_filter_le _ _).trans_eq List.length_zipIdx

theorem card_places_le (files : List Scanned) (key : Bytes) :
    (places opt keysOf files key).card ≤ (allKeys opt keysOf files).length := by
  induction files with
  | nil => simp [places]
  | cons f files ih =>
      have hfile := length_linesWith_le key (sourceKeys opt keysOf f)
      rw [places_cons, Multiset.card_add, allKeys, List.flatMap_cons, List.length_append, placesIn,
        Multiset.coe_card, List.length_map]
      exact Nat.add_le_add hfile ih

/-- A key that has a place is that of a line. -/
theorem mem_allKeys {files : List Scanned} {key : Bytes}
    (h : places opt keysOf files key ≠ 0) : key ∈ allKeys opt keysOf files := by
  induction files with
  | nil => exact absurd rfl h
  | cons f files ih =>
      rw [allKeys, List.flatMap_cons, List.mem_append]
      by_cases hlines : linesWith key (sourceKeys opt keysOf f) = []
      · rw [places_cons, placesIn, hlines, List.map_nil, Multiset.coe_nil, zero_add] at h
        exact .inr (ih h)
      · obtain ⟨n, hn⟩ := List.exists_mem_of_ne_nil _ hlines
        exact .inl (List.mem_of_getElem? (mem_linesWith.mp hn).2)

section

variable {files : List Scanned} {idx : LineIndex}

/-- An entry has the places of its key, and its key is long enough. -/
theorem Holds.entry (h : Holds opt keysOf files idx) {key : Bytes} {vs : List Nat}
    (hfind : idx.lines.find key = some vs) :
    LongEnough opt.toOptions key ∧ located idx.files vs = places opt keysOf files key ∧
      places opt keysOf files key ≠ 0 := by
  have hplaced := h.placed key
  rw [← Buckets.coe_of_find hfind] at hplaced
  have hne : located idx.files vs ≠ 0 := by
    rw [located, Ne, Multiset.map_eq_zero, Multiset.coe_eq_zero]
    exact h.filled key vs hfind
  split at hplaced
  next hlong => exact ⟨hlong, hplaced, hplaced ▸ hne⟩
  next => exact absurd hplaced hne

theorem Holds.length_entry (h : Holds opt keysOf files idx) {key : Bytes} {vs : List Nat}
    (hfind : idx.lines.find key = some vs) :
    vs.length = (places opt keysOf files key).card := by
  rw [← (h.entry hfind).2.1, located, Multiset.card_map, Multiset.coe_card]

/-- Where there is no entry, there is no place or the key is too short. -/
theorem Holds.absent (h : Holds opt keysOf files idx) {key : Bytes}
    (hfind : idx.lines.find key = none) (hlong : LongEnough opt.toOptions key) :
    places opt keysOf files key = 0 := by
  have hplaced := h.placed key
  rw [(Buckets.find_eq_none_iff h.filled).mp hfind, if_pos hlong] at hplaced
  exact hplaced.symm

theorem Holds.storable (h : Holds opt keysOf files idx) (hrec : Recordable opt keysOf files) :
    Storable idx := by
  have hlines : (allKeys opt keysOf files).length < 4294967296 := by
    rw [allKeys, List.length_flatMap]
    exact hrec.lines_lt
  have hkey : ∀ kv ∈ idx.lines.entries, kv.1 ∈ allKeys opt keysOf files := fun kv hkv =>
    mem_allKeys (h.entry (Buckets.mem_entries.mp hkv)).2.2
  refine ⟨?_, h.files_le.trans_lt hrec.files_lt, ?_, ?_⟩
  · intro path hpath
    obtain ⟨f, hf, rfl⟩ := h.paths path hpath
    exact hrec.paths_lt f hf
  · -- every entry has a key of its own
    have hsub : idx.lines.entries.map Prod.fst ⊆ allKeys opt keysOf files := by
      intro key hmem
      obtain ⟨kv, hkv, rfl⟩ := List.mem_map.mp hmem
      exact hkey kv hkv
    have hle := (idx.lines.nodup.subperm hsub).length_le
    rw [List.length_map] at hle
    omega
  · intro kv hkv
    obtain ⟨f, hf, hmem⟩ := List.mem_flatMap.mp (hkey kv hkv)
    have hcard := @card_places_le opt keysOf files kv.1
    rw [← h.length_entry (Buckets.mem_entries.mp hkv)] at hcard
    exact ⟨hrec.keys_lt f hf _ hmem, by omega⟩

end

/-- The places under a key that an index file is to give: those of a long key, unless
there are too many. -/
def indexed (opt : ScanOptions) (keysOf : Bytes → List Bytes) (files : List Scanned)
    (key : Bytes) : Multiset (Bytes × Nat) :=
  if LongEnough opt.toOptions key ∧
      (opt.maxPostings = 0 ∨ (places opt keysOf files key).card ≤ opt.maxPostings) then
    places opt keysOf files key
  else 0

/-- The places under a key of an index that is loaded. -/
def placesFound (loaded : LoadedIndex) (key : Bytes) : Multiset (Bytes × Nat) :=
  ↑(((loaded.find key).getD []).map fun p => (loaded.files.getD p.fileId [], p.lineno))

/-- What a reader of a file written from an index that holds the files finds. -/
theorem Holds.found {files : List Scanned} {idx : LineIndex} (h : Holds opt keysOf files idx)
    {loaded : LoadedIndex} (hfiles : loaded.files = idx.files)
    (hfind : ∀ key, loaded.find key = idx.published opt.toOptions key) (key : Bytes) :
    placesFound loaded key = indexed opt keysOf files key ∧
      (loaded.find key = none ↔ indexed opt keysOf files key = 0) := by
  rw [placesFound, hfind, hfiles, LineIndex.published]
  cases hentry : idx.lines.find key with
  | none =>
      have hnone : indexed opt keysOf files key = 0 := by
        rw [indexed]
        split
        next hlong => exact h.absent hentry hlong.1
        next => rfl
      simp [hnone]
  | some vs =>
      obtain ⟨hlong, hplaced, hne⟩ := h.entry hentry
      have hcap : kept opt.toOptions vs = true ↔
          opt.maxPostings = 0 ∨ (places opt keysOf files key).card ≤ opt.maxPostings := by
        rw [← h.length_entry hentry]
        simp only [kept, gt_iff_lt, Bool.not_eq_true', Bool.and_eq_false_iff,
          decide_eq_false_iff_not, not_not, Nat.not_lt]
      by_cases hkept : kept opt.toOptions vs = true
      · have hindexed : indexed opt keysOf files key = places opt keysOf files key :=
          if_pos ⟨hlong, hcap.mp hkept⟩
        rw [hindexed, Option.filter_some_pos hkept, Option.map_some, Option.getD_some, List.map_map]
        exact ⟨hplaced, by simp [hne]⟩
      · have hindexed : indexed opt keysOf files key = 0 :=
          if_neg fun hall => hkept (hcap.mpr hall.2)
        rw [hindexed, Option.filter_some_neg (Bool.not_eq_true _ ▸ hkept)]
        simp

/-- So it is for the file that is written from it. -/
theorem Holds.loaded {files : List Scanned} {idx : LineIndex} (h : Holds opt keysOf files idx)
    (hrec : Recordable opt keysOf files) {order : ByteOrder} {t : Traversal Bytes Nat}
    {readFile : Bytes → Option Bytes} {path : Bytes}
    (hfile : readFile path = some (writeIndex order t idx opt.toOptions).buf) :
    ∀ load ∈ [changesLoad order, matcherLoad order], ∃ loaded,
      load readFile path = .ok loaded ∧ loaded.normalized = opt.normalize ∧
      ∀ key, placesFound loaded key = indexed opt keysOf files key ∧
        (loaded.find key = none ↔ indexed opt keysOf files key = 0) := by
  intro load hload
  have hloaded := load_writeIndex (h.storable hrec) opt.toOptions hfile
  have hfound := @Holds.found opt keysOf files idx h
    ⟨idx.files, loadedLines t idx opt.toOptions, opt.normalize⟩ rfl
    (find_loadedLines t idx opt.toOptions)
  rcases List.mem_pair.mp hload with rfl | rfl
  · exact ⟨_, hloaded, rfl, hfound⟩
  · exact ⟨_, hloaded, rfl, hfound⟩

/-- For an index of exact lines the files are scanned in turn; -/
theorem foldl_addSource_scan (hmode : opt.normalize = false) (files : List Scanned)
    (work : (LineIndex × Counters) × List NormFile) :
    files.foldl (addSource opt keysOf) work =
      (files.foldl (scanFile opt.toOptions) work.1, work.2) := by
  induction files generalizing work with
  | nil => rfl
  | cons f files ih =>
      rw [List.foldl_cons, ih, addSource, hmode]
      rfl

/-- for a normalized one they are set aside. -/
theorem foldl_addSource_aside (hmode : opt.normalize = true) (files : List Scanned)
    (work : (LineIndex × Counters) × List NormFile) :
    files.foldl (addSource opt keysOf) work = (work.1, work.2 ++ files.map (normFile keysOf)) := by
  induction files generalizing work with
  | nil => simp
  | cons f files ih =>
      rw [List.foldl_cons, ih, addSource, hmode]
      simp

/-- The index behind the walk holds the files. -/
theorem holds_buildIndex (env : Machinery opt.toOptions) {files : List Scanned}
    (hrec : Recordable opt keysOf files) {s : Indexing}
    (hs : workOf s = files.foldl (addSource opt keysOf) ((⟨[], .empty⟩, 0), []))
    {built : Nat × LineIndex × Counters} (hbuilt : buildIndex env s = some built) :
    Holds opt keysOf files built.2.1 := by
  obtain ⟨idx, normFiles, _, _, _, counters⟩ := s
  cases hmode : opt.normalize with
  | false =>
      rw [foldl_addSource_scan hmode] at hs
      rw [buildIndex, hmode] at hbuilt
      obtain rfl := Option.some.inj hbuilt
      have hidx : idx = (scanTree opt.toOptions files).1 := congrArg (·.1.1) hs
      exact hidx ▸ holds_scanTree hmode hrec
  | true =>
      rw [foldl_addSource_aside hmode] at hs
      obtain rfl : idx = ⟨[], .empty⟩ := congrArg (·.1.1) hs
      obtain rfl : counters = 0 := congrArg (·.1.2) hs
      obtain rfl : normFiles = files.map (normFile keysOf) := congrArg (·.2) hs
      rw [buildIndex, if_pos hmode] at hbuilt
      exact holds_parallel hmode hrec hbuilt

/-- The index is built exactly where they can. -/
theorem isSome_buildIndex (env : Machinery opt.toOptions) {files : List Scanned} {s : Indexing}
    (hs : workOf s = files.foldl (addSource opt keysOf) ((⟨[], .empty⟩, 0), [])) :
    (buildIndex env s).isSome ↔ env.EndsFor files := by
  rw [buildIndex, Machinery.EndsFor]
  split
  next hmode =>
    rw [foldl_addSource_aside hmode] at hs
    have hlength : s.normFiles.length = files.length := by
      simpa [workOf] using congrArg (·.2.length) hs
    rw [isSome_processNormalizedParallel, hlength]
    exact ⟨fun h _ => h, fun h => h hmode⟩
  next hmode => exact ⟨fun _ h => absurd h hmode, fun _ => rfl⟩

/-- **The index is exact.** A tree that is walked through without an error, of sizes
that fit the fields of an index file, and for a normalized index workers that can be
shut down: either generator loads from the file an index that finds under each key just
the places where the tree has it, if it is long enough and not too frequent, and nothing
otherwise. -/
theorem index_exact (keysOf : Bytes → List Bytes) (env : Machinery opt.toOptions)
    {root : Directory} (hwalk : (root.visits opt.descends []).error = false)
    (hrec : Recordable opt keysOf (opt.sources root)) (hends : env.EndsFor (opt.sources root)) :
    ∃ summary, indexerMain keysOf env root = some (.ok summary) ∧
      ∀ (readFile : Bytes → Option Bytes) (path : Bytes),
        readFile path = some summary.written.buf →
        ∀ load ∈ [changesLoad env.order, matcherLoad env.order], ∃ loaded,
          load readFile path = .ok loaded ∧ loaded.normalized = opt.normalize ∧
          ∀ key, placesFound loaded key = indexed opt keysOf (opt.sources root) key ∧
            (loaded.find key = none ↔ indexed opt keysOf (opt.sources root) key = 0) := by
  have hwork := @workOf_scanDirectory opt keysOf root
  obtain ⟨built, hbuilt⟩ :=
    Option.isSome_iff_exists.mp ((isSome_buildIndex env hwork).mpr hends)
  refine ⟨_, by rw [indexerMain_eq, hwalk, hbuilt]; rfl, ?_⟩
  intro readFile path hfile
  exact (holds_buildIndex env hrec hwork hbuilt).loaded hrec hfile

/-- A tree with a file in each of two directories. -/
def vendorTree : Directory :=
  .branch (ascii "vendor") (.leaf (.file (ascii "b.php") none (some commonText)) .done)
    (.branch (ascii "src") (.leaf (.file (ascii "a.PHP") none (some commonText)) .done) .done)

/-- Two workers build a normalized index of them, in which a line has both its places. -/
theorem index_exact_vendor :
    let opt : ScanOptions := { normalize := true, jobs := 2 }
    ∃ (env : Machinery opt.toOptions) (summary : Summary) (loaded : LoadedIndex),
      indexerMain fileKeys env vendorTree = some (.ok summary) ∧
      changesLoad env.order (fun _ => some summary.written.buf) (ascii "corpus.idx") =
        .ok loaded ∧
      placesFound loaded (ascii "return $this->id;") =
        {(ascii "vendor/b.php", 1), (ascii "src/a.PHP", 1)} := by
  intro opt
  let env : Machinery opt.toOptions :=
    { order := .little, hardwareConcurrency := 4
      schedule := fun n => (exists_schedule 4 _ n).some
      destruction := .backward, traversal := .plain, sorter := .stable _, errorMessage := [] }
  have hends : env.EndsFor (opt.sources vendorTree) := fun _ =>
    show Destruction.backward.Reaps (jobCount 4 opt.toOptions (opt.sources vendorTree).length) by
      decide +kernel
  obtain ⟨summary, hmain, hloads⟩ := @index_exact opt fileKeys env vendorTree (by decide +kernel)
    ⟨by decide +kernel, by decide +kernel, by decide +kernel, by decide +kernel⟩ hends
  obtain ⟨loaded, hload, _, hfound⟩ := hloads (fun _ => some summary.written.buf)
    (ascii "corpus.idx") rfl _ List.mem_cons_self
  refine ⟨env, summary, loaded, hmain, hload, ?_⟩
  rw [(hfound _).1]
  decide +kernel

end Phpatcher.Theorems
