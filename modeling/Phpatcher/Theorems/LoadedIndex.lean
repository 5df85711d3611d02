import Phpatcher.Theorems.Emission
import Phpatcher.Theorems.IndexRoundTrip
import Phpatcher.Tools.IndexAccess

/-!
# Indexes from untrusted bytes

Every read of the loaders stays inside the bytes. Of the file ids they check
nothing: an index whose postings name no file is loaded
(`stray_posting_loaded`), and a block with the key of such a posting ends in an
exception (`stray_posting_throws`). Where the records of the file keep their ids
below the number of paths, no lookup fails (`load_in_range_iff`).
-/

namespace Phpatcher.Theorems

open Phpatcher.Basis Phpatcher.Core Phpatcher.Tools

/-- Every posting names a file of the index. -/
def LoadedInRange (idx : LoadedIndex) : Prop :=
  ∀ key post, idx.find key = some post → ∀ p ∈ post, p.fileId < idx.files.length

/-! ## Accesses that are answered -/

/-- Every question about this file is answered. -/
structure AnswersFile (access : CorpusAccess) (fileId : Nat) : Prop where
  file : (access.file fileId).isSome
  line : ∀ lineno, (access.line fileId lineno).isSome
  same : ∀ lineno text, (access.same fileId lineno text).isSome
  key : ∀ lineno, (access.key fileId lineno).isSome

section

variable {access : CorpusAccess} {fileId : Nat}

theorem isSome_refBytesLoop (h : AnswersFile access fileId) (lns : List Nat) :
    (refBytesLoop access fileId lns).isSome := by
  induction lns with
  | nil => rfl
  | cons ln lns ih =>
      rw [refBytesLoop]
      refine isSome_bind (h.line ln) fun line => ?_
      cases line with
      | none => rfl
      | some line => exact isSome_bind ih fun _ => rfl

theorem isSome_emitRef (h : AnswersFile access fileId) (hash : Bool) (begin end_ : Nat)
    (pads : Option (Bytes × Bytes)) : (emitRef access hash fileId begin end_ pads).isSome := by
  have hguard : (makeGuard access hash fileId begin end_).isSome := by
    rw [makeGuard, refBytes, Option.isSome_map, Option.isSome_map]
    exact isSome_refBytesLoop h (refLines begin end_)
  rw [emitRef]
  refine isSome_bind hguard fun guard => ?_
  cases guard with
  | none => rfl
  | some guard => exact isSome_bind h.file fun _ => rfl

theorem isSome_emitRefOr (h : AnswersFile access fileId) (hash : Bool) (block : List Bytes)
    (begin end_ b n : Nat) : (emitRefOr access hash block fileId begin end_ b n).isSome := by
  rw [emitRefOr]
  refine isSome_bind (isSome_emitRef h hash begin end_ none) fun printed => ?_
  cases printed <;> rfl

theorem isSome_exactEnd (h : AnswersFile access fileId) (block : List Bytes) (left b c : Nat) :
    (exactEnd access block fileId left b c).isSome := by
  induction left generalizing b c with
  | zero => rfl
  | succ left ih =>
      rw [exactEnd]
      refine isSome_bind (h.same (nextLine c) _) fun same => ?_
      cases same with
      | true => exact ih (b + 1) (nextLine c)
      | false => rfl

theorem isSome_emitPadded (h : AnswersFile access fileId) (hash : Bool) (block : List Bytes)
    (b c : Nat) : (emitPadded access hash block fileId b c).isSome := by
  rw [emitPadded]
  refine isSome_bind (h.line c) fun src => ?_
  cases src.bind fun src => trimPadFor src (block.getD b []) with
  | none => rfl
  | some pads => exact isSome_bind (isSome_emitRef h hash c c (some pads)) fun _ => rfl

theorem isSome_emitNormalizedRun (h : AnswersFile access fileId) (hash : Bool)
    (block : List Bytes) (blockEnd turns b c : Nat) :
    (emitNormalizedRun access hash block fileId blockEnd turns b c).isSome := by
  induction turns generalizing b c with
  | zero => rfl
  | succ turns ih =>
      rw [emitNormalizedRun]
      split
      · refine isSome_bind (h.same c _) fun same => ?_
        cases same with
        | true =>
            refine isSome_bind (isSome_exactEnd h block (blockEnd - (b + 1)) b c) ?_
            rintro ⟨b', c'⟩
            refine isSome_bind (isSome_emitRefOr h hash block c (c' - 1) b (b' - b)) ?_
            intro printed
            exact isSome_bind (ih b' c') fun _ => rfl
        | false =>
            refine isSome_bind (isSome_emitPadded h hash block b c) fun printed => ?_
            exact isSome_bind (ih (b + 1) (nextLine c)) fun _ => rfl
      · rfl

/-- A run in such a file is emitted. -/
theorem isSome_emitRun (hash : Bool) (block : List Bytes) {r : Run}
    (h : AnswersFile access r.fileId) : (emitRun access hash block r).isSome := by
  rw [emitRun]
  split
  · exact isSome_emitRefOr h hash block _ _ _ _
  · exact isSome_emitNormalizedRun h hash block _ _ _ _

theorem isSome_accessEqual (h : AnswersFile access fileId) (block : List Bytes) (b c : Nat) :
    (accessEqual access block b fileId c).isSome := by
  rw [accessEqual]
  split
  · rw [Option.isSome_map]
    exact h.key c
  · exact h.same c _

end

/-- A run is in the file of a posting. -/
theorem factorize_fileId {Ok : Nat → Prop} {postingsOf : Bytes → Option (List Posting)}
    (h : ∀ key post, postingsOf key = some post → ∀ pp ∈ post, Ok pp.fileId)
    (anchorSorter : Sorter Anchor.weight) (runSorter : Sorter Run.blockBegin) (keys : List Bytes)
    (minRun : Nat) (equal : EqualFn) :
    ∀ r ∈ factorize anchorSorter runSorter keys minRun postingsOf equal, Ok r.fileId := by
  intro r hr
  rw [factorize, (runSorter.perm _).mem_iff] at hr
  generalize (if minRun = 0 then 1 else minRun) = least at hr
  revert r
  refine List.foldlRecOn (motive := fun st : Covering => ∀ r ∈ st.runs, Ok r.fileId) _ _
    (by simp) ?_
  intro st hst anchor _ r hr
  rw [factorStep] at hr
  split at hr
  · exact hst r hr
  · split at hr
    · exact hst r hr
    next post hpost =>
      split at hr
      · exact hst r hr
      next best hbest =>
        split at hr
        · rcases List.mem_append.mp hr with hr | hr
          · exact hst r hr
          · obtain ⟨pp, hpp, _, rfl⟩ := bestRun_mem hbest
            rw [List.mem_singleton.mp hr]
            exact h _ post hpost pp hpp
        · exact hst r hr

/-- Where every question about a file with postings is answered, a block is printed. -/
theorem isSome_emitAddedCorpus {access : CorpusAccess}
    (h : ∀ key post, access.find key = some post → ∀ pp ∈ post, AnswersFile access pp.fileId)
    (hash : Bool) (block : List Bytes) (anchorSorter : Sorter Anchor.weight)
    (runSorter : Sorter Run.blockBegin) (minRun : Nat) :
    (emitAddedCorpus access hash block anchorSorter runSorter minRun).isSome := by
  have halike : AnswersAlike (accessEqual access block)
      fun b fileId c => (accessEqual access block b fileId c).getD false := by
    intro b fileId c same hsame
    simp [hsame]
  have hsome : (factorizeM (accessEqual access block) anchorSorter runSorter
      (accessKeys access block) minRun access.find).isSome := by
    refine (isSome_factorizeM halike).mpr fun q hq => ?_
    obtain ⟨pos, post, _, hpost, pp, hpp, hfollowed⟩ := mem_comparisons hq
    rw [Answered, hfollowed.fileId]
    exact isSome_accessEqual (h _ post hpost pp hpp) block _ _
  obtain ⟨runs, hruns⟩ := Option.isSome_iff_exists.mp hsome
  rw [emitAddedCorpus, hruns]
  refine isSome_emitLoop hash block _ 0 fun r hr => ?_
  rw [factorizeM_eq_some halike hruns] at hr
  exact isSome_emitRun hash block (factorize_fileId h anchorSorter runSorter _ minRun _ r hr)

/-- With every id in range no lookup throws. -/
theorem emitAddedCorpusChecked_isSome {idx : LoadedIndex} (h : LoadedInRange idx)
    (corpus : Corpus) (hash : Bool) (block : List Bytes) (anchorSorter : Sorter Anchor.weight)
    (runSorter : Sorter Run.blockBegin) (minRun : Nat) :
    (emitAddedCorpusChecked corpus idx hash block anchorSorter runSorter minRun).isSome := by
  refine isSome_emitAddedCorpus (fun key post hpost pp hpp => ?_) hash block anchorSorter runSorter
    minRun
  have hid := h key post hpost pp hpp
  constructor <;> simp [loadedAccess, fetchKey, fetchLine, fetch, LoadedIndex.file, hid]

/-! ## The records of a file -/

/-- What stands in an index file, one field for each part. -/
structure IndexRecords where
  version : Nat
  flags : Nat := 0
  minLen : Nat := 0
  maxPostings : Nat := 0
  files : List Bytes
  keys : List (Bytes × List Posting)

section

variable (order : ByteOrder)

def postingBytes (p : Posting) : Bytes := order.put 4 p.fileId ++ order.put 4 p.lineno

def keyBytes (kv : Bytes × List Posting) : Bytes :=
  order.put 4 kv.1.length ++ (kv.1 ++ (order.put 4 kv.2.length ++
    kv.2.flatMap (postingBytes order)))

def IndexRecords.behindFlags (f : IndexRecords) : Bytes :=
  order.put 4 f.minLen ++ (order.put 4 f.maxPostings ++ (order.put 4 f.files.length ++
    (f.files.flatMap (pathRecord order) ++ (order.put 4 f.keys.length ++
      f.keys.flatMap (keyBytes order)))))

/-- The bytes of a file with these records; version 1 has no flags. -/
def IndexRecords.bytes (magic : Bytes) (f : IndexRecords) : Bytes :=
  magic ++ (order.put 4 f.version ++ ((if f.version ≥ 2 then order.put 4 f.flags else []) ++
    f.behindFlags order))

end

/-- The numbers fit into their fields. -/
structure IndexRecords.Fits (f : IndexRecords) : Prop where
  version : f.version = 1 ∨ f.version = 2
  flags : f.flags < 4294967296
  minLen : f.minLen < 4294967296
  maxPostings : f.maxPostings < 4294967296
  files : f.files.length < 4294967296
  paths : ∀ path ∈ f.files, path.length < 65536
  keys : f.keys.length < 4294967296
  entries : ∀ kv ∈ f.keys, kv.1.length < 4294967296 ∧ kv.2.length < 4294967296 ∧
    ∀ p ∈ kv.2, p.fileId < 4294967296 ∧ p.lineno < 4294967296

/-- The index of these records; a key that comes again is passed over. -/
def IndexRecords.loaded (f : IndexRecords) : LoadedIndex where
  files := f.files
  lines := f.keys.foldl (fun lines kv => lines.emplace kv.1 kv.2) .empty
  normalized := decide ((if f.version ≥ 2 then f.flags else 0) &&& kFlagNormalized ≠ 0)

/-- The first record of every key keeps its ids below the number of paths. -/
def IndexRecords.InRange (f : IndexRecords) : Prop :=
  ∀ before key post after, f.keys = before ++ (key, post) :: after →
    (∀ kv ∈ before, kv.1 ≠ key) → ∀ p ∈ post, p.fileId < f.files.length

theorem inRange_loaded (f : IndexRecords) : LoadedInRange f.loaded ↔ f.InRange := by
  constructor
  · intro h before key post after hkeys hfirst
    exact h key post (Buckets.find_emplaced.mpr ⟨before, after, hkeys, hfirst⟩)
  · intro h key post hpost
    obtain ⟨before, after, hkeys, hfirst⟩ := Buckets.find_emplaced.mp hpost
    exact h before key post after hkeys hfirst

section

variable {order : ByteOrder}

open Reader

theorem takes_u32 :
    Takes (readU32 order) fun taken n => taken = order.put 4 n ∧ n < 4294967296 :=
  takes_number truncated order 4

theorem takes_file (files : List Bytes) : Takes (loadFile order files) fun taken files' =>
    ∃ path : Bytes, path.length < 65536 ∧ taken = pathRecord order path ∧
      files' = files ++ [path] := by
  refine ((takes_number truncated order 2).bind fun len => (takes_bytes truncated len).bind
    fun path => takes_pure (files ++ [path])).mono ?_
  rintro _ _ ⟨_, _, len, rfl, ⟨rfl, hlen⟩, path, _, _, rfl, ⟨rfl, rfl⟩, rfl, rfl⟩
  exact ⟨path, hlen, by rw [List.append_nil, pathRecord], rfl⟩

theorem takes_posting (postings : List Posting) :
    Takes (loadPosting order postings) fun taken postings' => ∃ p : Posting,
      (p.fileId < 4294967296 ∧ p.lineno < 4294967296) ∧ taken = postingBytes order p ∧
        postings' = postings ++ [p] := by
  refine (takes_u32.bind fun fileId => takes_u32.bind fun lineno =>
    takes_pure (postings ++ [⟨fileId, lineno⟩])).mono ?_
  rintro _ _ ⟨_, _, fileId, rfl, ⟨rfl, hid⟩, _, _, lineno, rfl, ⟨rfl, hlineno⟩, rfl, rfl⟩
  exact ⟨⟨fileId, lineno⟩, ⟨hid, hlineno⟩, by rw [List.append_nil, postingBytes], rfl⟩

theorem takes_key (lines : Buckets Bytes Posting) :
    Takes (loadKey order lines) fun taken lines' => ∃ kv : Bytes × List Posting,
      (kv.1.length < 4294967296 ∧ kv.2.length < 4294967296 ∧
        ∀ p ∈ kv.2, p.fileId < 4294967296 ∧ p.lineno < 4294967296) ∧
      taken = keyBytes order kv ∧ lines' = lines.emplace kv.1 kv.2 := by
  refine (takes_u32.bind fun klen => (takes_bytes truncated klen).bind fun key =>
    takes_u32.bind fun n => (takes_list takes_posting n).bind fun postings =>
      takes_pure (lines.emplace key postings)).mono ?_
  rintro _ _ ⟨_, _, klen, rfl, ⟨rfl, hklen⟩, key, _, _, rfl, ⟨rfl, rfl⟩, _, _, n, rfl, ⟨rfl, hn⟩,
    _, _, ps, rfl, ⟨rfl, hps, rfl⟩, rfl, rfl⟩
  exact ⟨(key, ps), ⟨hklen, hn, hps⟩, by rw [List.append_nil, keyBytes], rfl⟩

theorem reads_posting_bytes {p : Posting} (h : p.fileId < 4294967296 ∧ p.lineno < 4294967296)
    (postings : List Posting) :
    Reads (loadPosting order postings) (postingBytes order p) (postings ++ [p]) :=
  (reads_u32_of_lt h.1).bind ((reads_u32_of_lt h.2).bind_pure fun lineno =>
    postings ++ [⟨p.fileId, lineno⟩])

theorem reads_key_bytes {kv : Bytes × List Posting} (hkey : kv.1.length < 4294967296)
    (hpost : kv.2.length < 4294967296)
    (hps : ∀ p ∈ kv.2, p.fileId < 4294967296 ∧ p.lineno < 4294967296)
    (lines : Buckets Bytes Posting) :
    Reads (loadKey order lines) (keyBytes order kv) (lines.emplace kv.1 kv.2) := by
  have hpostings := reads_list (fun p => p)
    fun p hp postings => @reads_posting_bytes order p (hps p hp) postings
  rw [List.map_id'] at hpostings
  refine (reads_u32_of_lt hkey).bind ?_
  refine (reads_bytes truncated rfl).bind ?_
  refine (reads_u32_of_lt hpost).bind ?_
  exact hpostings.bind_pure fun postings => lines.emplace kv.1 postings

/-- What follows the flags. -/
def loadBehindFlags (order : ByteOrder) (flags : Nat) : Reader Bytes LoadedIndex := do
  let _ ← readU32 order
  let _ ← readU32 order
  let fileCount ← readU32 order
  let files ← Reader.iterate (loadFile order) fileCount []
  let keyCount ← readU32 order
  let lines ← Reader.iterate (loadKey order) keyCount .empty
  pure ⟨files, lines, decide (flags &&& kFlagNormalized ≠ 0)⟩

theorem loadBody_eq (version : Nat) : loadBody order kFlagNormalized version =
    if version ≥ 2 then readU32 order >>= loadBehindFlags order else loadBehindFlags order 0 := rfl

theorem reads_behindFlags {f : IndexRecords} (h : f.Fits) (flags : Nat) :
    Reads (loadBehindFlags order flags) (f.behindFlags order)
      ⟨f.files, f.loaded.lines, decide (flags &&& kFlagNormalized ≠ 0)⟩ := by
  have hfiles := reads_list (fun path => path)
    fun path hpath files => @reads_file order path (h.paths path hpath) files
  have hkeys := @reads_iterate Bytes _ _ (loadKey order) (keyBytes order)
    (fun lines kv => lines.emplace kv.1 kv.2) f.keys
    (fun kv hkv lines => reads_key_bytes (h.entries kv hkv).1 (h.entries kv hkv).2.1
      (h.entries kv hkv).2.2 lines) .empty
  rw [List.map_id'] at hfiles
  refine (reads_u32_of_lt h.minLen).bind ((reads_u32_of_lt h.maxPostings).bind ?_)
  refine (reads_u32_of_lt h.files).bind (hfiles.bind ((reads_u32_of_lt h.keys).bind ?_))
  exact hkeys.bind_pure fun lines => LoadedIndex.mk f.files lines _

/-- The bytes of fitting records are loaded, whatever follows them. -/
theorem reads_records {magic : Bytes} (hmagic : magic.length = 4) {f : IndexRecords}
    (h : f.Fits) :
    Reads (loadBlob order magic kFlagNormalized) (f.bytes order magic) f.loaded := by
  refine (reads_bytes truncated hmagic).bind ?_
  rw [if_neg (by simp)]
  refine (reads_u32_of_lt (by rcases h.version with h | h <;> rw [h] <;> decide)).bind ?_
  rw [if_neg (by have := h.version; omega), loadBody_eq]
  by_cases hflags : f.version ≥ 2
  · simp only [IndexRecords.loaded, if_pos hflags]
    exact (reads_u32_of_lt h.flags).bind (reads_behindFlags h f.flags)
  · simp only [IndexRecords.loaded, if_neg hflags]
    exact reads_behindFlags h 0

theorem takes_behindFlags {flags : Nat} (hflags : flags < 4294967296) {version : Nat}
    (hversion : version = 1 ∨ version = 2) :
    Takes (loadBehindFlags order flags) fun taken idx =>
      ∃ f : IndexRecords, f.Fits ∧ f.version = version ∧ f.flags = flags ∧
        taken = f.behindFlags order ∧
        idx = ⟨f.files, f.loaded.lines, decide (flags &&& kFlagNormalized ≠ 0)⟩ := by
  refine (takes_u32.bind fun minLen => takes_u32.bind fun maxPostings => takes_u32.bind fun count =>
    (takes_list takes_file count).bind fun files => takes_u32.bind fun keyCount =>
      (takes_iterate takes_key keyCount .empty).bind fun lines =>
        takes_pure (LoadedIndex.mk files lines (decide (flags &&& kFlagNormalized ≠ 0)))).mono ?_
  rintro _ _ ⟨_, _, minLen, rfl, ⟨rfl, hminLen⟩, _, _, maxPostings, rfl, ⟨rfl, hmaxPostings⟩,
    _, _, _, rfl, ⟨rfl, hcount⟩, _, _, files, rfl, ⟨rfl, hpaths, rfl⟩,
    _, _, _, rfl, ⟨rfl, hkeyCount⟩, _, _, _, rfl, ⟨keys, rfl, hentries, rfl, rfl⟩, rfl, rfl⟩
  refine ⟨⟨version, flags, minLen, maxPostings, files, keys⟩, ⟨hversion, hflags, hminLen,
    hmaxPostings, hcount, hpaths, hkeyCount, hentries⟩, rfl, rfl, ?_, ?_⟩
  · rw [List.append_nil, IndexRecords.behindFlags]
  · rfl

/-- What is loaded are the bytes of fitting records. -/
theorem takes_records (magic : Bytes) :
    Takes (loadBlob order magic kFlagNormalized) fun taken idx =>
      ∃ f : IndexRecords, f.Fits ∧ taken = f.bytes order magic ∧ idx = f.loaded := by
  intro blob idx rest h
  obtain ⟨head, left, hhead, hbehind⟩ := Fallible.yields_bind.mp h
  obtain ⟨_, rfl, rfl, _⟩ := takes_bytes truncated 4 _ _ _ hhead
  obtain ⟨hmagic, hversioned⟩ := Fallible.yields_ite_throw.mp hbehind
  rw [not_not] at hmagic
  subst hmagic
  obtain ⟨version, left', hread, hknown⟩ := Fallible.yields_bind.mp hversioned
  obtain ⟨_, rfl, rfl, _⟩ := takes_u32 _ _ _ hread
  obtain ⟨hunknown, hbody⟩ := Fallible.yields_ite_throw.mp hknown
  have hversion : version = 1 ∨ version = 2 := by omega
  rw [loadBody_eq] at hbody
  by_cases hflags : version ≥ 2
  · rw [if_pos hflags] at hbody
    obtain ⟨flags, left'', hread', hrest⟩ := Fallible.yields_bind.mp hbody
    obtain ⟨_, rfl, rfl, hfits⟩ := takes_u32 _ _ _ hread'
    obtain ⟨taken, rfl, f, hf, rfl, rfl, rfl, rfl⟩ :=
      takes_behindFlags hfits hversion _ _ _ hrest
    refine ⟨_, ?_, f, hf, rfl, ?_⟩
    · simp only [IndexRecords.bytes, if_pos hflags, List.append_assoc]
    · simp only [IndexRecords.loaded, if_pos hflags]
  · rw [if_neg hflags] at hbody
    obtain ⟨taken, rfl, f, hf, rfl, hzero, rfl, rfl⟩ :=
      takes_behindFlags (by decide) hversion _ _ _ hbody
    refine ⟨_, ?_, f, hf, rfl, ?_⟩
    · simp only [IndexRecords.bytes, if_neg hflags, List.append_assoc, List.nil_append]
    · simp only [IndexRecords.loaded, if_neg hflags]

end

/-! ## What is loaded -/

/-- The bytes are loaded without an access outside of them, or an error is
reported; where an index is loaded, its ids are in range and no lookup made
while a block is factorized and emitted throws. -/
def LoadsWellFormed (load : Bytes → Except (Stop Bytes) LoadedIndex) (blob : Bytes) : Prop :=
  load blob ≠ .error .undefined ∧
    ∀ idx, load blob = .ok idx → LoadedInRange idx ∧
      ∀ (corpus : Corpus) (hash : Bool) (block : List Bytes) (anchorSorter : Sorter Anchor.weight)
        (runSorter : Sorter Run.blockBegin) (minRun : Nat),
        (emitAddedCorpusChecked corpus idx hash block anchorSorter runSorter minRun).isSome

/-- Where the bytes begin with the records of an index, the first record of
every key keeps its ids below the number of paths. -/
def RecordsInRange (order : ByteOrder) (blob : Bytes) : Prop :=
  ∀ (f : IndexRecords) (rest : Bytes), f.Fits → blob = f.bytes order kMagic ++ rest → f.InRange

theorem changesLoadBytes_wellFormed_iff (order : ByteOrder) (blob : Bytes) :
    LoadsWellFormed (changesLoadBytes order) blob ↔ RecordsInRange order blob := by
  have hread := changesLoadBytes_eq order blob
  constructor
  · rintro ⟨_, h⟩ f rest hf rfl
    have hyields := @reads_records order kMagic rfl f hf rest
    have hloaded : changesLoadBytes order (f.bytes order kMagic ++ rest) = .ok f.loaded := by
      rw [hread]
      exact congrArg (fun out => out.1.mapError Stop.error) hyields
    exact (inRange_loaded f).mp (h f.loaded hloaded).1
  · intro h
    refine ⟨?_, fun idx hidx => ?_⟩
    · rw [hread]
      cases ((loadBlob order kIndexMagic kFlagNormalized).outcome blob).1 <;> simp [Except.mapError]
    · rw [hread] at hidx
      obtain ⟨f, hf, hblob, rfl⟩ : ∃ f : IndexRecords, f.Fits ∧
          (∃ rest, blob = f.bytes order kMagic ++ rest) ∧ idx = f.loaded := by
        rcases hout : (loadBlob order kIndexMagic kFlagNormalized).outcome blob with ⟨e | a, rest⟩
        · simp [hout, Except.mapError] at hidx
        · obtain rfl : a = idx := by simpa [hout, Except.mapError] using hidx
          obtain ⟨_, rfl, f, hf, rfl, rfl⟩ := takes_records kMagic blob a rest hout
          exact ⟨f, hf, ⟨rest, rfl⟩, rfl⟩
      obtain ⟨rest, hblob⟩ := hblob
      have hrange := (inRange_loaded f).mpr (h f rest hf hblob)
      exact ⟨hrange, emitAddedCorpusChecked_isSome hrange⟩

/-- **The ids of a loaded index.** For both readers and every byte string. -/
theorem load_in_range_iff (order : ByteOrder) (blob : Bytes) :
    (LoadsWellFormed (changesLoadBytes order) blob ↔ RecordsInRange order blob) ∧
      (LoadsWellFormed (matcherLoadBytes order) blob ↔ RecordsInRange order blob) := by
  -- the two readers have the same constants
  have hsame : matcherLoadBytes order = changesLoadBytes order := rfl
  rw [hsame]
  exact ⟨changesLoadBytes_wellFormed_iff order blob, changesLoadBytes_wellFormed_iff order blob⟩

/-! ## An id that names no file -/

/-- A block of one line, and an index that has its key with a posting in no
file of its own: the lookup of that posting throws. -/
theorem stray_posting_throws {idx : LoadedIndex} (hbytes : idx.normalized = false) {key : Bytes}
    (htrim : trim key = key) {post : List Posting} (hfind : idx.find key = some post)
    {p : Posting} (hp : p ∈ post) (hstray : idx.files.length ≤ p.fileId) (corpus : Corpus)
    (hash : Bool) (anchorSorter : Sorter Anchor.weight) (runSorter : Sorter Run.blockBegin)
    (minRun : Nat) :
    emitAddedCorpusChecked corpus idx hash [key] anchorSorter runSorter minRun = none := by
  have hkeys : accessKeys (loadedAccess corpus idx) [key] = [key] := by
    rw [accessKeys]
    exact (if_neg (by simp [loadedAccess, hbytes])).trans (congrArg (fun k => [k]) htrim)
  have hequal : ∀ b, accessEqual (loadedAccess corpus idx) [key] b p.fileId p.lineno = none := by
    intro b
    simp [accessEqual, loadedAccess, hbytes, fetchLine, fetch, LoadedIndex.file, hstray]
  rw [emitAddedCorpusChecked, emitAddedCorpus, hkeys]
  have hruns := factorizeM_singleton hfind hp (hequal 0) anchorSorter runSorter minRun
  exact congrArg (fun runs => runs >>= fun runs =>
    emitLoop (loadedAccess corpus idx) hash [key] 1 0 runs) hruns

/-- One path, and a posting in a second file. -/
def strayRecords : IndexRecords where
  version := 2
  files := [ascii "a.php"]
  keys := [(ascii "return 1;", [⟨1, 3⟩])]

theorem stray_posting_loaded : ¬ ∀ order blob, LoadsWellFormed (changesLoadBytes order) blob := by
  intro h
  have hfits : strayRecords.Fits :=
    ⟨by decide, by decide, by decide, by decide, by decide, by decide +kernel, by decide,
      by decide +kernel⟩
  have hloaded := @reads_records .little kMagic rfl strayRecords hfits []
  rw [List.append_nil] at hloaded
  have hrange := ((h .little (strayRecords.bytes .little kMagic)).2 strayRecords.loaded (by
    rw [changesLoadBytes_eq]
    exact congrArg (fun out => out.1.mapError Stop.error) hloaded)).1
  exact absurd ((inRange_loaded strayRecords).mp hrange [] (ascii "return 1;") [⟨1, 3⟩] [] rfl
    (by simp) ⟨1, 3⟩ (by simp)) (by decide)

end Phpatcher.Theorems
