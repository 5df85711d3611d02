import Phpatcher.Tools.IndexFile

/-!
# The index file round-trips

Every record of the file is read back as what it was written for, so the
readers rebuild the file list and, under every key that was not left out, its
postings.
-/

namespace Phpatcher.Theorems

open Phpatcher.Basis Phpatcher.Core Phpatcher.Tools

variable {order : ByteOrder}

/-! ## What is written -/

/-- The entries that are written. -/
def keptEntries (t : Traversal Bytes Nat) (idx : LineIndex) (opt : Options) :
    List (Bytes × List Nat) :=
  (t.run idx.lines).filter fun kv => kept opt kv.2

theorem foldl_key (opt : Options) (entries : List (Bytes × List Nat)) (w : Written) :
    (entries.foldl (Written.key order opt) w).buf =
        w.buf ++ (entries.filter fun kv => kept opt kv.2).flatMap (keyRecord order) ∧
      (entries.foldl (Written.key order opt) w).keysWritten =
        w.keysWritten + (entries.filter fun kv => kept opt kv.2).length := by
  induction entries generalizing w with
  | nil => simp
  | cons kv entries ih =>
      rw [List.foldl_cons, (ih _).1, (ih _).2, Written.key]
      cases hkept : kept opt kv.2 with
      | false => simp [hkept]
      | true =>
          have hcons : ((kv :: entries).filter fun kv => kept opt kv.2) =
              kv :: entries.filter fun kv => kept opt kv.2 := List.filter_cons_of_pos hkept
          rw [hcons, List.flatMap_cons, List.length_cons, if_neg (by simp)]
          exact ⟨List.append_assoc _ _ _, by simp only; omega⟩

/-- The file: a header, the paths, the number of the keys that are kept, and
their records. -/
theorem writeIndex_buf (t : Traversal Bytes Nat) (idx : LineIndex) (opt : Options) :
    (writeIndex order t idx opt).buf =
      kMagic ++ (order.put 4 kVersion ++
        (order.put 4 (if opt.normalize then kFlagNormalized else 0) ++
        (order.put 4 opt.minLen ++ (order.put 4 opt.maxPostings ++
        (order.put 4 idx.files.length ++ (idx.files.flatMap (pathRecord order) ++
        (order.put 4 (keptEntries t idx opt).length ++
        (keptEntries t idx opt).flatMap (keyRecord order)))))))) := by
  have hpaths : ∀ buf : Bytes, idx.files.foldl (fun buf p => buf ++ pathRecord order p) buf =
      buf ++ idx.files.flatMap (pathRecord order) := by
    intro buf
    rw [List.foldl_append_eq_append, List.flatMap_def]
  obtain ⟨hbuf, hkeys⟩ := @foldl_key order opt (t.run idx.lines)
    { buf := idx.files.foldl (fun buf p => buf ++ pathRecord order p)
        (kMagic ++ order.put 4 kVersion ++
          order.put 4 (if opt.normalize then kFlagNormalized else 0) ++ order.put 4 opt.minLen ++
          order.put 4 opt.maxPostings ++ order.put 4 idx.files.length) ++ order.put 4 0 }
  rw [writeIndex]
  simp only
  rw [hbuf, hkeys, overwrite_slot (by simp), hpaths]
  simp only [List.append_assoc, Nat.zero_add, keptEntries]

/-! ## Reading it back -/

open Reader

theorem reads_u32 (n : Nat) : Reads (readU32 order) (order.put 4 n) (toU32 n) :=
  reads_number truncated order 4 n

theorem reads_u32_of_lt {n : Nat} (h : n < 4294967296) :
    Reads (readU32 order) (order.put 4 n) n := by
  have hread := @reads_u32 order n
  rwa [toU32, Nat.mod_eq_of_lt h] at hread

theorem reads_file {path : Bytes} (h : path.length < 65536) (files : List Bytes) :
    Reads (loadFile order files) (pathRecord order path) (files ++ [path]) := by
  have hread := reads_number truncated order 2 path.length
  rw [show (256 : Nat) ^ 2 = 65536 from rfl, Nat.mod_eq_of_lt h] at hread
  exact hread.bind ((reads_bytes truncated rfl).bind_pure fun path => files ++ [path])

theorem reads_posting (p : Nat) (postings : List Posting) :
    Reads (loadPosting order postings) (postingRecord order p) (postings ++ [unpack p]) :=
  (reads_u32_of_lt (Nat.mod_lt _ (by decide))).bind
    ((reads_u32_of_lt (Nat.mod_lt _ (by decide))).bind_pure fun lineno =>
      postings ++ [⟨postingFile p, lineno⟩])

theorem reads_key {kv : Bytes × List Nat} (hkey : kv.1.length < 4294967296)
    (hvalues : kv.2.length < 4294967296) (lines : Buckets Bytes Posting) :
    Reads (loadKey order lines) (keyRecord order kv)
      (lines.emplace kv.1 (kv.2.map unpack)) := by
  rw [keyRecord, List.append_assoc, List.append_assoc]
  refine (reads_u32_of_lt hkey).bind ?_
  refine (reads_bytes truncated rfl).bind ?_
  refine (reads_u32_of_lt hvalues).bind ?_
  exact (reads_list unpack fun p _ postings => reads_posting p postings).bind_pure
    fun postings => lines.emplace kv.1 postings

/-- What the loaded map holds: the postings of the keys that were kept. -/
def loadedLines (t : Traversal Bytes Nat) (idx : LineIndex) (opt : Options) :
    Buckets Bytes Posting :=
  (keptEntries t idx opt).foldl (fun lines kv => lines.emplace kv.1 (kv.2.map unpack)) .empty

/-- The sizes fit into the fields of the file. -/
structure Storable (idx : LineIndex) : Prop where
  paths : ∀ path ∈ idx.files, path.length < 65536
  files : idx.files.length < 4294967296
  keys : idx.lines.entries.length < 4294967296
  entries : ∀ kv ∈ idx.lines.entries, kv.1.length < 4294967296 ∧ kv.2.length < 4294967296

theorem reads_blob {t : Traversal Bytes Nat} {idx : LineIndex} (h : Storable idx)
    (opt : Options) :
    Reads (loadBlob order kMagic kFlagNormalized) (writeIndex order t idx opt).buf
      ⟨idx.files, loadedLines t idx opt, opt.normalize⟩ := by
  have hentries : ∀ kv ∈ keptEntries t idx opt, kv ∈ idx.lines.entries := fun kv hkv =>
    (t.perm idx.lines).mem_iff.mp (List.mem_filter.mp hkv).1
  have hcount : (keptEntries t idx opt).length < 4294967296 :=
    ((List.length_filter_le _ _).trans (t.perm idx.lines).length_eq.le).trans_lt h.keys
  have hfiles := reads_list (fun path => path)
    fun path hpath files => @reads_file order path (h.paths path hpath) files
  have hkeys := @reads_iterate Bytes _ _ (loadKey order) (keyRecord order)
    (fun lines kv => lines.emplace kv.1 (kv.2.map unpack)) (keptEntries t idx opt)
    (fun kv hkv lines => reads_key (h.entries kv (hentries kv hkv)).1
      (h.entries kv (hentries kv hkv)).2 lines) .empty
  rw [List.map_id'] at hfiles
  have hflag : (decide ((if opt.normalize then kFlagNormalized else 0) &&& kFlagNormalized ≠ 0)) =
      opt.normalize := by
    cases opt.normalize <;> rfl
  rw [writeIndex_buf]
  refine (reads_bytes truncated rfl).bind ?_
  rw [if_neg (by simp)]
  refine (reads_u32_of_lt (by decide)).bind ?_
  rw [if_neg (by decide), loadBody, if_pos (by decide)]
  refine (reads_u32_of_lt (by split <;> decide)).bind ?_
  -- the filters of the indexer are passed over
  refine (reads_u32 opt.minLen).bind ?_
  refine (reads_u32 opt.maxPostings).bind ?_
  refine (reads_u32_of_lt h.files).bind ?_
  refine hfiles.bind ?_
  refine (reads_u32_of_lt hcount).bind ?_
  rw [hflag]
  exact hkeys.bind_pure fun lines => LoadedIndex.mk idx.files lines opt.normalize

/-- Under a key stands what was kept of it. -/
theorem find_loadedLines (t : Traversal Bytes Nat) (idx : LineIndex) (opt : Options)
    (key : Bytes) : (loadedLines t idx opt).find key = idx.published opt key := by
  have hfold : loadedLines t idx opt =
      ((keptEntries t idx opt).map fun kv => (kv.1, kv.2.map unpack)).foldl
        (fun lines e => lines.emplace e.1 e.2) .empty := by
    rw [loadedLines, List.foldl_map]
  -- the kept entries are a map of their own
  have hnodup : (((keptEntries t idx opt).map fun kv => (kv.1, kv.2.map unpack)).map
      Prod.fst).Nodup := by
    rw [List.map_map]
    exact (((t.perm idx.lines).map Prod.fst).nodup_iff.mpr idx.lines.nodup).sublist
      (List.filter_sublist.map Prod.fst)
  rw [hfold, Buckets.find_foldl_emplace, Buckets.find_empty, Option.none_or]
  refine Option.ext fun postings => ?_
  have hmem := @Buckets.mem_entries Bytes Posting _ ⟨_, hnodup⟩ key postings
  rw [Buckets.find] at hmem
  simp only at hmem
  rw [← hmem, LineIndex.published]
  simp only [keptEntries, List.mem_map, List.mem_filter, (t.perm idx.lines).mem_iff, Prod.exists,
    Prod.mk.injEq, Buckets.mem_entries, Option.map_eq_some_iff, Option.filter_eq_some_iff]
  constructor
  · rintro ⟨k, vs, ⟨hfind, hkept⟩, rfl, rfl⟩
    exact ⟨vs, ⟨hfind, hkept⟩, rfl⟩
  · rintro ⟨vs, ⟨hfind, hkept⟩, rfl⟩
    exact ⟨key, vs, ⟨hfind, hkept⟩, rfl, rfl⟩

/-- A reader loads the file it finds where the index was written. -/
theorem load_writeIndex {t : Traversal Bytes Nat} {idx : LineIndex} (h : Storable idx)
    (opt : Options) {readFile : Bytes → Option Bytes} {path : Bytes}
    (hfile : readFile path = some (writeIndex order t idx opt).buf) :
    loadFrom (loadBlob order kMagic kFlagNormalized) readFile path =
      .ok ⟨idx.files, loadedLines t idx opt, opt.normalize⟩ := by
  have hread := @reads_blob order t idx h opt []
  rw [List.append_nil] at hread
  rw [loadFrom, hfile]
  exact congrArg Prod.fst hread

/-- **The index file round-trips.** -/
theorem index_round_trip (order : ByteOrder) (t : Traversal Bytes Nat) (idx : LineIndex)
    (opt : Options) (h : Storable idx) (readFile : Bytes → Option Bytes) (path : Bytes)
    (hfile : readFile path = some (writeIndex order t idx opt).buf) :
    ∀ load ∈ [changesLoad order, matcherLoad order], ∃ loaded, load readFile path = .ok loaded ∧
      loaded.files = idx.files ∧ loaded.normalized = opt.normalize ∧
      (∀ key post, (∀ p ∈ post, p.fileId < 4294967296 ∧ p.lineno < 4294967296) →
        idx.lines.find key = some (post.map fun p => pack p.fileId p.lineno) →
        (opt.maxPostings = 0 ∨ post.length ≤ opt.maxPostings) → loaded.find key = some post) ∧
      ∀ key, (∀ vs, idx.lines.find key = some vs →
        opt.maxPostings ≠ 0 ∧ opt.maxPostings < vs.length) → loaded.find key = none := by
  intro load hload
  refine ⟨⟨idx.files, loadedLines t idx opt, opt.normalize⟩, ?_, rfl, rfl, ?_, ?_⟩
  · have hblob := load_writeIndex h opt hfile
    rcases List.mem_pair.mp hload with rfl | rfl
    · exact hblob
    · exact hblob
  · intro key post hbound hfind hcap
    show (loadedLines t idx opt).find key = some post
    have hkept : kept opt (post.map fun p => pack p.fileId p.lineno) = true := by
      rcases hcap with hcap | hcap
      · simp [kept, hcap]
      · simp [kept, hcap]
    have hunpack : (post.map fun p => pack p.fileId p.lineno).map unpack = post := by
      rw [List.map_map]
      refine (List.map_congr_left fun p hp => ?_).trans (List.map_id post)
      rw [Function.comp_apply, unpack_pack (hbound p hp).1 (hbound p hp).2]
      rfl
    rw [find_loadedLines, LineIndex.published, hfind, Option.filter_some, if_pos hkept,
      Option.map_some, hunpack]
  · intro key hnone
    show (loadedLines t idx opt).find key = none
    rw [find_loadedLines, LineIndex.published]
    cases hfind : idx.lines.find key with
    | none => rfl
    | some vs =>
        obtain ⟨hcap, hmany⟩ := hnone vs hfind
        have hdropped : kept opt vs = false := by
          simp [kept, hcap, hmany]
        rw [Option.filter_some, hdropped]
        rfl

/-- An index of one file and one key. -/
def sampleIndex : LineIndex where
  files := [ascii "a.php"]
  lines := Buckets.empty.push (ascii "return 1;") (pack 0 3)

theorem index_round_trip_sample :
    ∃ loaded, changesLoad .big (fun _ => some (writeIndex .big .plain sampleIndex {}).buf)
        (ascii "corpus.idx") = .ok loaded ∧
      loaded.files = [ascii "a.php"] ∧ loaded.find (ascii "return 1;") = some [⟨0, 3⟩] := by
  have hstorable : Storable sampleIndex :=
    ⟨by decide +kernel, by decide, by decide, by decide +kernel⟩
  obtain ⟨loaded, hload, hfiles, _, hfind, _⟩ := index_round_trip .big .plain sampleIndex {}
    hstorable (fun _ => some (writeIndex .big .plain sampleIndex {}).buf) (ascii "corpus.idx") rfl
    (changesLoad .big) List.mem_cons_self
  exact ⟨loaded, hload, hfiles, hfind _ [⟨0, 3⟩] (by decide) (by decide +kernel) (by decide)⟩

end Phpatcher.Theorems
