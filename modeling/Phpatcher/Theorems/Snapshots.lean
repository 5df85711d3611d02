import Phpatcher.Glue.Racing

/-!
# A request sees one disk

While a request reads, files may be written. What it produces is what it would have
produced from a disk that stays as it is and has each file as it was at some moment of
the request, unless the section refers to the very file it patches, which is read
twice. The warm-up at startup, which reads for all sections, sees one disk too.
-/

namespace Phpatcher.Theorems

open Phpatcher.Basis Phpatcher.Core Phpatcher.Glue

/-! ## What goes along with an application -/

section

variable {σ τ : Type} {rel : Fallible.Relation Bytes σ τ} {f : RefResolver σ} {g : RefResolver τ}

theorem buildInput_respects (hrel : Fallible.Respects rel) {input : List EdPiece}
    (h : ∀ ref ∈ inputRefs input, rel (f ref) (g ref)) :
    rel (buildInput (some f) input) (buildInput (some g) input) := by
  induction input with
  | nil => exact hrel.pure []
  | cons piece rest ih =>
      cases piece with
      | literal line =>
          exact hrel.bind (ih (by simpa [inputRefs] using h)) fun _ => hrel.pure _
      | ref ref =>
          have href : ∀ r ∈ ref :: inputRefs rest, rel (f r) (g r) := by
            simpa [inputRefs] using h
          rw [List.forall_mem_cons] at href
          exact hrel.bind href.1 fun _ => hrel.bind (ih href.2) fun _ => hrel.pure _

theorem applyCommand_respects (hrel : Fallible.Respects rel) {c : EdCommand}
    (h : ∀ ref ∈ commandRefs c, rel (f ref) (g ref)) (lines : List Bytes) :
    rel (applyCommand (some f) c lines) (applyCommand (some g) c lines) := by
  rcases c with ⟨kind, start, end_, input⟩
  cases kind
  -- a deletion asks for nothing
  case delete => exact Fallible.Respects.ite (R := rel) (hrel.throw _) (hrel.pure _)
  all_goals
    exact Fallible.Respects.ite (R := rel) (hrel.throw _)
      (hrel.bind (buildInput_respects hrel h) fun _ => hrel.pure _)

theorem applyCommands_respects (hrel : Fallible.Respects rel) {cs : List EdCommand}
    (h : ∀ ref ∈ cs.flatMap commandRefs, rel (f ref) (g ref)) (lines : List Bytes) :
    rel (applyCommands (some f) cs lines) (applyCommands (some g) cs lines) := by
  induction cs generalizing lines with
  | nil => exact hrel.pure lines
  | cons c cs ih =>
      rw [List.flatMap_cons, List.forall_mem_append] at h
      exact hrel.bind (applyCommand_respects hrel h.1 lines) fun lines => ih h.2 lines

/-- A relation between two resolvers that goes along with sequences is one between the
applications that use them. -/
theorem applyEdScript_respects (hrel : Fallible.Respects rel) {fp : FilePatch}
    (h : ∀ ref ∈ fp.refs, rel (f ref) (g ref)) (original : Bytes) :
    rel (applyEdScript fp original (some f)) (applyEdScript fp original (some g)) := by
  unfold applyEdScript
  cases validateCommandOrder fp with
  | error e => exact hrel.throw e
  | ok u => exact hrel.bind (applyCommands_respects hrel h _) fun _ => hrel.pure _

end

/-! ## A disk that fits -/

variable {baseDir : Bytes} {disks : Nat → Disk} {frozen : Disk}

/-- The disk has what has been read. -/
structure FitsDisk (frozen : Disk) (s : Reading) : Prop where
  cache : s.cache.Agrees frozen
  originals : ∀ e ∈ s.originals, frozen e.1 = e.2

/-- The resolver answers as that of the disk that fits in the end. -/
theorem resolver_frozen (ref : EdRef) :
    Fallible.Frozen Reading.cache (RefCache.Agrees frozen) (racingResolver baseDir disks ref)
      (phpatcherMakeResolver baseDir frozen ref) := by
  intro s hfits
  have hload : ∀ entry cache', RefCache.load (disks s.clock) s.cache (refFile baseDir ref) =
      (entry, cache') → cache'.Agrees frozen → s.cache.Agrees frozen ∧
        RefCache.load frozen s.cache (refFile baseDir ref) = (entry, cache') := by
    intro entry cache' hload hagrees
    unfold RefCache.load at hload ⊢
    cases hlookup : s.cache.lookup (refFile baseDir ref) with
    | some known =>
        rw [hlookup] at hload
        obtain ⟨rfl, rfl⟩ := Prod.mk.inj hload
        exact ⟨hagrees, rfl⟩
    | none =>
        rw [hlookup] at hload
        obtain ⟨rfl, rfl⟩ := Prod.mk.inj hload
        have hnew := hagrees (refFile baseDir ref) _ List.lookup_cons_self
        refine ⟨fun full known hknown => hagrees full known ?_, ?_⟩
        · -- what was in the cache is another file
          have hne : full ≠ refFile baseDir ref := by
            rintro rfl
            rw [hlookup] at hknown
            cases hknown
          rw [List.lookup_cons, beq_eq_false_iff_ne.mpr hne]
          exact hknown
        · simp only [← hnew]
  simp only [racingResolver, phpatcherMakeResolver, Fallible.outcome_mk] at hfits ⊢
  rcases hcase : RefCache.load (disks s.clock) s.cache (refFile baseDir ref)
    with ⟨_ | lines, cache'⟩
  · rw [hcase] at hfits
    obtain ⟨hbefore, hsame⟩ := hload _ _ hcase hfits
    rw [hsame]
    exact ⟨hbefore, rfl⟩
  · rw [hcase] at hfits
    obtain ⟨hbefore, hsame⟩ := hload _ _ hcase hfits
    rw [hsame]
    exact ⟨hbefore, rfl⟩

/-- `PatchSet::apply` after the original was read, with this cache. -/
def produceWith (baseDir : Bytes) (disk : Disk) (path : Bytes) (fp : FilePatch)
    (cache : RefCache) : Patched × RefCache :=
  match readOriginal disk path fp with
  | .unreadable => (.fail, cache)
  | .halt => (.skip, cache)
  | .text original =>
      match applyWith baseDir disk fp original cache with
      | (.error _, cache) => (.fail, cache)
      | (.ok content, cache) => (.ok content, cache)

theorem produceWith_nil (baseDir : Bytes) (disk : Disk) (path : Bytes) (fp : FilePatch) :
    (produceWith baseDir disk path fp []).1 = produce baseDir disk path fp := by
  unfold produceWith produce
  cases readOriginal disk path fp with
  | unreadable | halt => rfl
  | text original =>
      simp only
      rcases applyWith baseDir disk fp original [] with ⟨_ | content, cache⟩ <;> rfl

theorem precomputeStep_eq (baseDir : Bytes) (disk : Disk) (acc : ContentMap × RefCache)
    (kv : Entry) :
    precomputeStep baseDir disk acc kv =
      match produceWith baseDir disk kv.1 kv.2 acc.2 with
      | (.ok patched, cache) => (acc.1.insert kv.1 patched, cache)
      | (.fail, cache) | (.skip, cache) => (acc.1, cache) := by
  unfold precomputeStep produceWith
  cases readOriginal disk kv.1 kv.2 with
  | unreadable | halt => rfl
  | text original =>
      simp only
      rcases applyWith baseDir disk kv.2 original acc.2 with ⟨_ | content, cache⟩ <;> rfl

/-- An application records no original. -/
theorem apply_originals (fp : FilePatch) (original : Bytes) (s : Reading) :
    ((applyEdScript fp original (some (racingResolver baseDir disks))).outcome s).2.originals =
      s.originals := by
  have hkeeps : Fallible.Keeps (fun s' : Reading => s'.originals = s.originals)
      (applyEdScript fp original (some (racingResolver baseDir disks)))
      (applyEdScript fp original (some (phpatcherMakeResolver baseDir (disks 0)))) :=
    applyEdScript_respects (Fallible.Keeps.respects _) (fun ref _ s' hs' => hs') original
  exact hkeeps s rfl

/-- One section, read while files change: what is seen in the end was seen before, too,
and the disk that fits gives the same. -/
theorem racingProduce_frozen {path : Bytes} {fp : FilePatch} {s : Reading}
    (hfits : FitsDisk frozen (racingProduce baseDir disks path fp s).2) :
    FitsDisk frozen s ∧ produceWith baseDir frozen path fp s.cache =
      ((racingProduce baseDir disks path fp s).1,
        (racingProduce baseDir disks path fp s).2.cache) := by
  have horiginal : ∀ o s₁, racingOriginal disks path fp s = (o, s₁) → FitsDisk frozen s₁ →
      FitsDisk frozen s ∧ readOriginal frozen path fp = o ∧ s₁.cache = s.cache := by
    intro o s₁ hread hfits
    unfold racingOriginal at hread
    split at hread
    next hcreates =>
      obtain ⟨rfl, rfl⟩ := Prod.mk.inj hread
      exact ⟨hfits, by rw [readOriginal, if_pos hcreates], rfl⟩
    next hcreates =>
      obtain ⟨rfl, rfl⟩ := Prod.mk.inj hread
      refine ⟨⟨hfits.cache, fun e he => hfits.originals e (List.mem_cons_of_mem _ he)⟩, ?_, rfl⟩
      have hsame : frozen path = disks s.clock path := hfits.originals _ List.mem_cons_self
      rw [readOriginal, readOriginal, hsame]
  unfold racingProduce at hfits ⊢
  unfold produceWith
  rcases hread : racingOriginal disks path fp s with ⟨o, s₁⟩
  rw [hread] at hfits
  cases o with
  | unreadable | halt =>
      obtain ⟨hbefore, hsame, hcache⟩ := horiginal _ _ hread hfits
      rw [hsame]
      exact ⟨hbefore, by simp only [hcache]⟩
  | text original =>
      simp only at hfits ⊢
      have happly : Fallible.Frozen Reading.cache (RefCache.Agrees frozen)
          (applyEdScript fp original (some (racingResolver baseDir disks)))
          (applyEdScript fp original (some (phpatcherMakeResolver baseDir frozen))) :=
        applyEdScript_respects (Fallible.Frozen.respects _ _) (fun ref _ => resolver_frozen ref)
          original
      specialize happly s₁
      have hkept := @apply_originals baseDir disks fp original s₁
      rcases hout : (applyEdScript fp original (some (racingResolver baseDir disks))).outcome s₁
        with ⟨_ | content, s₂⟩
      all_goals
        rw [hout] at hfits happly hkept
        obtain ⟨hmiddle, hsame⟩ := happly hfits.cache
        obtain ⟨hbefore, hfirst, hcache⟩ :=
          horiginal _ _ hread ⟨hmiddle, by rw [← hkept]; exact hfits.originals⟩
        rw [hfirst]
        simp only [applyWith, ← hcache, hsame]
        exact ⟨hbefore, trivial⟩

/-! ## Where what was read comes from -/

/-- What a file was at some moment of the turns from `n` on. -/
def ReadBetween (disks : Nat → Disk) (n clock : Nat) (full : Bytes) (content : Option Bytes) :
    Prop :=
  ∃ m, n ≤ m ∧ m ≤ clock ∧ content = disks m full

theorem ReadBetween.mono {n clock clock' : Nat} {full : Bytes} {content : Option Bytes}
    (h : ReadBetween disks n clock full content) (hclock : clock ≤ clock') :
    ReadBetween disks n clock' full content := by
  obtain ⟨m, hn, hm, hcontent⟩ := h
  exact ⟨m, hn, Nat.le_trans hm hclock, hcontent⟩

/-- Everything read was there at some moment; references are read from the files in
`refs` alone, and the originals are those of `own`, in this order. -/
structure Seen (disks : Nat → Disk) (n : Nat) (refs : Set Bytes) (own : List Bytes)
    (s : Reading) : Prop where
  started : n ≤ s.clock
  cache : ∀ full entry, s.cache.lookup full = some entry → full ∈ refs ∧
    ∃ content, ReadBetween disks n s.clock full content ∧
      entry = content.map phpatcherSplitLines
  originals : ∀ e ∈ s.originals, ReadBetween disks n s.clock e.1 e.2
  own : s.originals.map Prod.fst = own

variable {n : Nat} {refs : Set Bytes} {own : List Bytes}

theorem seen_start (disks : Nat → Disk) (n : Nat) (refs : Set Bytes) :
    Seen disks n refs [] { clock := n } where
  started := Nat.le_refl n
  cache full entry h := by simp at h
  originals e he := by simp at he
  own := rfl

theorem Seen.resolver {s : Reading} (h : Seen disks n refs own s) {ref : EdRef}
    (href : refFile baseDir ref ∈ refs) :
    Seen disks n refs own ((racingResolver baseDir disks ref).outcome s).2 := by
  have hclock : s.clock ≤ s.clock + 1 := Nat.le_succ _
  have hcache : ((racingResolver baseDir disks ref).outcome s).2.cache =
      (RefCache.load (disks s.clock) s.cache (refFile baseDir ref)).2 := by
    simp only [racingResolver, phpatcherMakeResolver, Fallible.outcome_mk]
    rcases RefCache.load (disks s.clock) s.cache (refFile baseDir ref) with ⟨_ | lines, cache⟩ <;>
      rfl
  refine ⟨Nat.le_trans h.started hclock, fun full entry hentry => ?_,
    fun e he => (h.originals e he).mono hclock, h.own⟩
  rw [hcache, RefCache.load] at hentry
  have hold : ∀ full entry, s.cache.lookup full = some entry → full ∈ refs ∧
      ∃ content, ReadBetween disks n (s.clock + 1) full content ∧
        entry = content.map phpatcherSplitLines := by
    intro full entry hlookup
    obtain ⟨hmem, content, hbetween, hsplit⟩ := h.cache full entry hlookup
    exact ⟨hmem, content, hbetween.mono hclock, hsplit⟩
  cases hlookup : s.cache.lookup (refFile baseDir ref) with
  | some known =>
      rw [hlookup] at hentry
      exact hold full entry hentry
  | none =>
      rw [hlookup] at hentry
      simp only [List.lookup_cons] at hentry
      split at hentry
      next hkey =>
        -- read now
        obtain rfl := eq_of_beq hkey
        exact ⟨href, _, ⟨s.clock, h.started, hclock, rfl⟩, (Option.some.inj hentry).symm⟩
      next => exact hold full entry hentry

/-- One section more: its own file is read, unless it is created. -/
theorem Seen.produce {s : Reading} (h : Seen disks n refs own s) {path : Bytes} {fp : FilePatch}
    (hrefs : ∀ ref ∈ fp.refs, refFile baseDir ref ∈ refs) :
    Seen disks n refs ((if fp.creates then [] else [path]) ++ own)
      (racingProduce baseDir disks path fp s).2 := by
  have hread : Seen disks n refs ((if fp.creates then [] else [path]) ++ own)
      (racingOriginal disks path fp s).2 := by
    unfold racingOriginal
    split
    · exact h
    · refine ⟨Nat.le_succ_of_le h.started, fun full entry hentry => ?_, fun e he => ?_, ?_⟩
      · obtain ⟨hmem, content, hbetween, hsplit⟩ := h.cache full entry hentry
        exact ⟨hmem, content, hbetween.mono (Nat.le_succ _), hsplit⟩
      · rcases List.mem_cons.mp he with rfl | he
        · exact ⟨s.clock, h.started, Nat.le_succ _, rfl⟩
        · exact (h.originals e he).mono (Nat.le_succ _)
      · simp only [List.map_cons, h.own, List.singleton_append]
  unfold racingProduce
  rcases hcase : racingOriginal disks path fp s with ⟨o, s₁⟩
  rw [hcase] at hread
  cases o with
  | unreadable | halt => exact hread
  | text original =>
      have hkeeps : Fallible.Keeps (Seen disks n refs ((if fp.creates then [] else [path]) ++ own))
          (applyEdScript fp original (some (racingResolver baseDir disks)))
          (applyEdScript fp original (some (phpatcherMakeResolver baseDir (disks 0)))) :=
        applyEdScript_respects (Fallible.Keeps.respects _)
          (fun ref href s' hs' => hs'.resolver (hrefs ref href)) original
      specialize hkeeps s₁ hread
      simp only
      rcases hout : (applyEdScript fp original (some (racingResolver baseDir disks))).outcome s₁
        with ⟨_ | content, s₂⟩
      all_goals
        rw [hout] at hkeeps
        exact hkeeps

/-- A disk that does not change fits. -/
theorem Seen.fits {disk : Disk} {s : Reading} (h : Seen (fun _ => disk) n refs own s) :
    FitsDisk disk s where
  cache full entry hentry := by
    obtain ⟨_, content, ⟨_, _, _, rfl⟩, hsplit⟩ := h.cache full entry hentry
    exact hsplit
  originals e he := by
    obtain ⟨_, _, _, hcontent⟩ := h.originals e he
    exact hcontent.symm

/-- While nothing is written, the turns come to what `phpatcher_get_patched` produces. -/
theorem racingProduce_quiet (baseDir : Bytes) (disk : Disk) (path : Bytes) (fp : FilePatch) :
    (racingProduce baseDir (fun _ => disk) path fp {}).1 = produce baseDir disk path fp := by
  have hseen : Seen (fun _ => disk) 0 Set.univ _
      (racingProduce baseDir (fun _ => disk) path fp {}).2 :=
    (seen_start (fun _ => disk) 0 Set.univ).produce fun _ _ => Set.mem_univ _
  obtain ⟨_, hsame⟩ := racingProduce_frozen hseen.fits
  rw [← produceWith_nil]
  exact (congrArg Prod.fst hsame).symm

/-! ## The request and the warm-up -/

/-- The files whose originals are read, in the order of the index. -/
def ownFiles (index : List Entry) : List Bytes :=
  (index.filter fun kv => !kv.2.creates).map Prod.fst

theorem racingPrecomputeStep_snd (acc : ContentMap × Reading) (kv : Entry) :
    (racingPrecomputeStep baseDir disks acc kv).2 =
      (racingProduce baseDir disks kv.1 kv.2 acc.2).2 := by
  unfold racingPrecomputeStep
  rcases racingProduce baseDir disks kv.1 kv.2 acc.2 with ⟨_ | _ | _, s⟩ <;> rfl

/-- The warm-up goes on reading what was there at some moment. -/
theorem Seen.precompute {index : List Entry}
    (hrefs : ∀ kv ∈ index, ∀ ref ∈ kv.2.refs, refFile baseDir ref ∈ refs)
    (acc : ContentMap × Reading) (h : Seen disks n refs own acc.2) :
    Seen disks n refs ((ownFiles index).reverse ++ own)
      (index.foldl (racingPrecomputeStep baseDir disks) acc).2 := by
  induction index generalizing acc own with
  | nil => exact h
  | cons kv index ih =>
      rw [List.forall_mem_cons] at hrefs
      have hstep : Seen disks n refs ((if kv.2.creates then [] else [kv.1]) ++ own)
          (racingPrecomputeStep baseDir disks acc kv).2 := by
        rw [racingPrecomputeStep_snd]
        exact h.produce hrefs.1
      have hrest := ih hrefs.2 _ hstep
      have hown : (ownFiles (kv :: index)).reverse ++ own =
          (ownFiles index).reverse ++ ((if kv.2.creates then [] else [kv.1]) ++ own) := by
        cases hcreates : kv.2.creates <;> simp [ownFiles, hcreates]
      rw [List.foldl_cons, hown]
      exact hrest

theorem racingPrecomputeStep_frozen {acc : ContentMap × Reading} {kv : Entry}
    (hfits : FitsDisk frozen (racingPrecomputeStep baseDir disks acc kv).2) :
    FitsDisk frozen acc.2 ∧ precomputeStep baseDir frozen (acc.1, acc.2.cache) kv =
      ((racingPrecomputeStep baseDir disks acc kv).1,
        (racingPrecomputeStep baseDir disks acc kv).2.cache) := by
  rw [racingPrecomputeStep_snd] at hfits
  obtain ⟨hbefore, hsame⟩ := racingProduce_frozen hfits
  refine ⟨hbefore, ?_⟩
  rw [precomputeStep_eq, hsame]
  unfold racingPrecomputeStep
  rcases racingProduce baseDir disks kv.1 kv.2 acc.2 with ⟨_ | _ | _, s⟩ <;> rfl

/-- What fits in the end of the warm-up fitted all along. -/
theorem racingPrecompute_frozen (index : List Entry) (acc : ContentMap × Reading)
    (hfits : FitsDisk frozen (index.foldl (racingPrecomputeStep baseDir disks) acc).2) :
    FitsDisk frozen acc.2 ∧
      index.foldl (precomputeStep baseDir frozen) (acc.1, acc.2.cache) =
        ((index.foldl (racingPrecomputeStep baseDir disks) acc).1,
          (index.foldl (racingPrecomputeStep baseDir disks) acc).2.cache) := by
  induction index generalizing acc with
  | nil => exact ⟨hfits, rfl⟩
  | cons kv index ih =>
      rw [List.foldl_cons] at hfits
      obtain ⟨hmiddle, hrest⟩ := ih _ hfits
      obtain ⟨hbefore, hstep⟩ := racingPrecomputeStep_frozen hmiddle
      rw [List.foldl_cons, List.foldl_cons, hstep, hrest]
      exact ⟨hbefore, rfl⟩

/-- While nothing is written, the turns come to `phpatcher_precompute`. -/
theorem racingPrecompute_quiet (baseDir : Bytes) (disk : Disk) (set : PatchSet) :
    (racingPrecompute baseDir (fun _ => disk) set).1 = phpatcherPrecompute baseDir disk set := by
  have hseen : Seen (fun _ => disk) 0 Set.univ _ (racingPrecompute baseDir (fun _ => disk) set).2 :=
    (seen_start (fun _ => disk) 0 Set.univ).precompute (fun _ _ _ _ => Set.mem_univ _) (∅, {})
  obtain ⟨_, hsame⟩ := racingPrecompute_frozen set.index (∅, {}) hseen.fits
  rw [phpatcherPrecompute]
  exact (congrArg Prod.fst hsame).symm

end Phpatcher.Theorems
