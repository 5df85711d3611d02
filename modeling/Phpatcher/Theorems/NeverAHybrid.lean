import Phpatcher.Glue.System

/-!
# Never a broken hybrid

Whatever happens after startup, what the content maps hold and what the hooks
hand to the engine is either the complete output of one successful application
of a section indexed under that path, or the throwing stub of the fail-closed
policy. Four producers fill maps and buffers: the precomputation, the lazy
cache, the uncached path and the stream opener; all of them go through
`produce`, and one invariant (`EntriesGenuine`) covers the maps.
-/

namespace Phpatcher.Theorems

open Phpatcher.Basis Phpatcher.Core Phpatcher.Glue

/-- The text a section is applied to: nothing for a created file, otherwise the
bytes of the file, which must not hold `__halt_compiler`. -/
def IsBase (disk : Disk) (path : Bytes) (fp : FilePatch) (original : Bytes) : Prop :=
  if fp.creates then original = []
  else disk path = some original ∧ phpatcherHasHaltCompiler original = false

/-- The complete output of one successful application of a section indexed
under the path, on what the disk had in a world the run has been in. -/
def Genuine (s : State) (path content : Bytes) : Prop :=
  ∃ set fp w original cache, s.globals.patchset = some set ∧ (path, fp) ∈ set.index ∧
    w ∈ s.seen ∧ IsBase w.disk path fp original ∧
    Fallible.Yields
      (applyEdScript fp original (some (phpatcherMakeResolver s.globals.baseDir w.disk)))
      [] content cache

/-- What the hooks may inject for a path. -/
def Injected (cfg : Config) (s : State) (path content : Bytes) : Prop :=
  Genuine s path content ∨
    cfg.failClosed = true ∧
      (content = phpatcherFailStub path patchFailed ∨
        content = phpatcherFailStub path haltReason)

/-- Every entry of the two maps is genuine. -/
def EntriesGenuine (s : State) : Prop :=
  ∀ path content,
    heldIn s.globals.precomputed path = some content ∨
      heldIn s.globals.cache path = some content → Genuine s path content

/-- The property of a state: what the maps hold, what the hooks inject, and
what a patch that does not take effect leaves behind unless the policy is to
fail closed. -/
structure NoHybrid (cfg : Config) (s : State) : Prop where
  entries : EntriesGenuine s
  compiled : ∀ fh content, (engineCompile cfg s.world s.globals fh).1.buf = some content →
    fh.buf = some content ∨
      ∃ set path fp, s.globals.patchset = some set ∧
        phpatcherResolve s.world s.globals set fh = some (path, fp) ∧ Injected cfg s path content
  opened : ∀ fh fh', (engineOpen cfg s.world s.globals fh).1 = .success fh' →
    ∃ path fp content, createdFile s.world s.globals fh = some (path, fp) ∧
      fh'.buf = some content ∧ Injected cfg s path content
  untouched : cfg.failClosed = false → ∀ set fh path fp, s.globals.patchset = some set →
    phpatcherResolve s.world s.globals set fh = some (path, fp) → fh.buf = none →
    (∀ content, (phpatcherGetPatched cfg s.world s.globals path fp).1 ≠ .ok content) →
    (engineCompile cfg s.world s.globals fh).1.buf = none
  absent : cfg.failClosed = false → ∀ fh path fp,
    createdFile s.world s.globals fh = some (path, fp) →
    (∀ content, (phpatcherGetPatched cfg s.world s.globals path fp).1 ≠ .ok content) →
    (engineOpen cfg s.world s.globals fh).1 = .failure

/-! ## Genuine content -/

/-- A section is applied to the original it is based on. -/
theorem readOriginal_eq_text {disk : Disk} {path : Bytes} {fp : FilePatch} {original : Bytes} :
    readOriginal disk path fp = .text original ↔ IsBase disk path fp original := by
  unfold readOriginal IsBase
  by_cases hcreates : fp.creates = true
  · simp [hcreates, eq_comm]
  · cases hdisk : disk path with
    | none => simp [hcreates]
    | some bytes =>
        by_cases hhalt : phpatcherHasHaltCompiler bytes = true
        · simp only [hcreates, Bool.false_eq_true, if_false, hhalt, if_true, reduceCtorEq,
            Option.some.injEq, false_iff, not_and, Bool.not_eq_false]
          rintro rfl
          exact hhalt
        · simp only [hcreates, Bool.false_eq_true, if_false, hhalt, Original.text.injEq,
            Option.some.injEq]
          constructor
          · rintro rfl
            exact ⟨rfl, by simpa using hhalt⟩
          · exact And.left

theorem applyWith_eq_ok {baseDir : Bytes} {disk : Disk} {fp : FilePatch}
    {original content : Bytes} :
    (applyWith baseDir disk fp original []).1 = .ok content ↔
      ∃ cache, Fallible.Yields
        (applyEdScript fp original (some (phpatcherMakeResolver baseDir disk))) [] content
          cache := by
  unfold applyWith Fallible.Yields
  rcases (applyEdScript fp original (some (phpatcherMakeResolver baseDir disk))).outcome [] with
    ⟨outcome, cache⟩
  simp

/-- What `produce` gives is the output of an application. -/
theorem produce_eq_ok {baseDir : Bytes} {disk : Disk} {path content : Bytes} {fp : FilePatch} :
    produce baseDir disk path fp = .ok content ↔
      ∃ original cache, IsBase disk path fp original ∧
        Fallible.Yields (applyEdScript fp original (some (phpatcherMakeResolver baseDir disk)))
          [] content cache := by
  constructor
  · intro h
    unfold produce at h
    cases horiginal : readOriginal disk path fp with
    | unreadable | halt => simp [horiginal] at h
    | text original =>
        rw [horiginal] at h
        simp only at h
        split at h
        · simp at h
        next out hout =>
          obtain rfl := Patched.ok.inj h
          obtain ⟨cache, hyields⟩ := applyWith_eq_ok.mp hout
          exact ⟨original, cache, readOriginal_eq_text.mp horiginal, hyields⟩
  · intro hyp
    obtain ⟨original, cache, horiginal, hyields⟩ := hyp
    unfold produce
    rw [readOriginal_eq_text.mpr horiginal]
    simp only [applyWith_eq_ok.mpr ⟨cache, hyields⟩]

/-- A section of the index that gives a content on the disk of now. -/
theorem genuine_of_produce {s : State} {set : PatchSet} {path content : Bytes} {fp : FilePatch}
    (hset : s.globals.patchset = some set) (hmem : (path, fp) ∈ set.index)
    (hseen : s.world ∈ s.seen)
    (h : produce s.globals.baseDir s.world.disk path fp = .ok content) :
    Genuine s path content := by
  obtain ⟨original, cache, hbase, hyields⟩ := produce_eq_ok.mp h
  exact ⟨set, fp, s.world, original, cache, hset, hmem, hseen, hbase, hyields⟩

/-- Content stays genuine while the setup stays and worlds are added. -/
theorem Genuine.mono {s t : State} {path content : Bytes} (h : Genuine s path content)
    (hpatchset : t.globals.patchset = s.globals.patchset)
    (hbaseDir : t.globals.baseDir = s.globals.baseDir) (hseen : s.seen ⊆ t.seen) :
    Genuine t path content := by
  obtain ⟨set, fp, w, original, cache, hset, hmem, hw, hbase, hyields⟩ := h
  refine ⟨set, fp, w, original, cache, ?_, hmem, hseen hw, hbase, ?_⟩
  · rw [hpatchset, hset]
  · rw [hbaseDir]
    exact hyields

/-! ## The maps -/

/-- What startup precomputes is genuine. -/
theorem entriesGenuine_startup (sorter : EntrySorter) (cfg : Config) (w : World) :
    EntriesGenuine (startup sorter cfg w) := by
  intro path content h
  simp only [startup] at h
  obtain ⟨_, hprecomputed, hcache, _⟩ | ⟨diffText, parsed, _, _, hinstall⟩ :=
    minit_cases sorter cfg w
  · rw [hprecomputed, hcache] at h
    simp [heldIn] at h
  · rcases h with h | h
    · -- a precomputed entry is what one of the sections under its key gives
      rw [hinstall] at h
      simp only [install, heldIn] at h
      split at h
      · rw [Option.bind_some, lookup_precompute] at h
        obtain ⟨fp, hfp, happlied⟩ := List.mem_filterMap.mp (List.mem_of_getLast? h)
        obtain ⟨kv, hkv, rfl⟩ := List.mem_map.mp hfp
        obtain ⟨hmem, hkey⟩ := List.mem_filter.mp hkv
        obtain rfl : kv.1 = path := by simpa using hkey
        obtain ⟨original, cache, hbase, hyields⟩ := produce_eq_ok.mp (applied_eq_some.mp happlied)
        refine ⟨_, kv.2, w, original, cache, ?_, hmem, List.mem_singleton.mpr rfl, hbase, ?_⟩
        · rw [startup, hinstall, install]
        · rw [startup, hinstall, install]
          exact hyields
      · simp at h
    · rw [hinstall] at h
      simp [install, heldIn] at h

/-- The maps hold genuine content only, the patch set is indexed, and the world
is one of those seen. -/
structure MapsGenuine (s : State) : Prop where
  entries : EntriesGenuine s
  installed : ∀ set, s.globals.patchset = some set → Installed s.globals set
  seen : s.world ∈ s.seen

/-- A hook keeps the maps genuine: it adds at most what it produced now. -/
theorem MapsGenuine.hookStep {s : State} {g' : Globals} (h : MapsGenuine s)
    (hstep : HookStep s.world s.globals g') : MapsGenuine { s with globals := g' } where
  entries := by
    intro path content hheld
    have hgenuine : Genuine s path content := by
      rcases hheld with hpre | hcache
      · rw [hstep.setup.precomputed] at hpre
        exact h.entries path content (.inl hpre)
      · rcases hstep.cache path content hcache with hold | ⟨set, fp, hset, hfind, hproduce⟩
        · exact h.entries path content (.inr hold)
        · exact genuine_of_produce hset ((h.installed set hset).indexed.mem_of_find hfind) h.seen
            hproduce
    exact hgenuine.mono hstep.setup.patchset hstep.setup.baseDir (List.Subset.refl _)
  installed := by
    intro set hset
    rw [hstep.setup.patchset] at hset
    exact (h.installed set hset).congr hstep.setup
  seen := h.seen

theorem mapsGenuine_invariant (sorter : EntrySorter) (cfg : Config) :
    (system sorter cfg).Invariant MapsGenuine := by
  apply Transition.Inductive.invariant
  constructor
  · rintro _ ⟨w, rfl⟩
    exact {
      entries := entriesGenuine_startup sorter cfg w
      installed := installed_invariant sorter cfg _ (.start ⟨w, rfl⟩)
      seen := List.mem_singleton.mpr rfl }
  · rintro s e _ hs rfl
    rcases next_cases cfg s e with ⟨w, _, hnext⟩ | ⟨g', hstep, hnext⟩
    · -- an edit fills no map, and the worlds of the entries stay among those seen
      rw [hnext]
      exact {
        entries := fun path content h =>
          (hs.entries path content h).mono rfl rfl (List.subset_cons_self w s.seen)
        installed := hs.installed
        seen := List.mem_cons_self }
    · rw [hnext]
      exact hs.hookStep hstep

/-! ## The hooks -/

/-- What `phpatcher_get_patched` gives for a section it finds is genuine. -/
theorem genuine_of_getPatched {cfg : Config} {s : State} (hs : MapsGenuine s) {set : PatchSet}
    {path content : Bytes} {fp : FilePatch} (hset : s.globals.patchset = some set)
    (hfind : set.find path = some fp)
    (h : (phpatcherGetPatched cfg s.world s.globals path fp).1 = .ok content) :
    Genuine s path content := by
  rw [getPatched_fst] at h
  cases hheld : held cfg s.globals path with
  | some entry =>
      rw [hheld] at h
      obtain rfl := Patched.ok.inj h
      apply hs.entries
      unfold held at hheld
      split at hheld
      next hpre => exact .inl (hpre.trans hheld)
      next =>
        split at hheld
        · exact .inr hheld
        · simp at hheld
  | none =>
      rw [hheld] at h
      exact genuine_of_produce hset ((hs.installed set hset).indexed.mem_of_find hfind) hs.seen h

/-- The buffer of the compile hook. -/
theorem compileOutcome_buf {cfg : Config} {fh : FileHandle} {path content : Bytes}
    {outcome : Patched} (h : (compileOutcome cfg fh path outcome).buf = some content) :
    fh.buf = some content ∨ outcome = .ok content ∨
      cfg.failClosed = true ∧
        (content = phpatcherFailStub path patchFailed ∨
          content = phpatcherFailStub path haltReason) := by
  cases outcome with
  | ok out =>
      obtain rfl : out = content := Option.some.inj h
      exact .inr (.inl rfl)
  | fail =>
      simp only [compileOutcome] at h
      split at h
      next hclosed => exact .inr (.inr ⟨hclosed, .inl (Option.some.inj h).symm⟩)
      next => exact .inl h
  | skip =>
      simp only [compileOutcome] at h
      split at h
      next hclosed => exact .inr (.inr ⟨hclosed, .inr (Option.some.inj h).symm⟩)
      next => exact .inl h

/-- The buffer of the stream opener. -/
theorem openOutcome_success {cfg : Config} {fh fh' : FileHandle} {path : Bytes}
    {outcome : Patched} (h : openOutcome cfg fh path outcome = .success fh') :
    ∃ content, fh'.buf = some content ∧
      (outcome = .ok content ∨
        cfg.failClosed = true ∧ content = phpatcherFailStub path patchFailed) := by
  cases outcome with
  | ok out =>
      rw [← Opened.success.inj h]
      exact ⟨out, rfl, .inl rfl⟩
  | fail | skip =>
      simp only [openOutcome] at h
      split at h
      · simp at h
      next hclosed =>
        rw [← Opened.success.inj h]
        exact ⟨_, rfl, .inr ⟨by simpa using hclosed, rfl⟩⟩

theorem MapsGenuine.compiled {cfg : Config} {s : State} (hs : MapsGenuine s) {fh : FileHandle}
    {content : Bytes} (h : (engineCompile cfg s.world s.globals fh).1.buf = some content) :
    fh.buf = some content ∨
      ∃ set path fp, s.globals.patchset = some set ∧
        phpatcherResolve s.world s.globals set fh = some (path, fp) ∧
        Injected cfg s path content := by
  unfold engineCompile at h
  split at h
  · obtain hskip | ⟨set, path, fp, hset, hbuf, hresolve, heq⟩ :=
      compileFile_cases cfg s.world s.globals fh
    · rw [hskip] at h
      exact .inl h
    · rw [heq] at h
      rcases compileOutcome_buf h with hold | hok | hstub
      · exact .inl hold
      · exact .inr ⟨set, path, fp, hset, hresolve,
          .inl (genuine_of_getPatched hs hset (find_of_resolve hresolve) hok)⟩
      · exact .inr ⟨set, path, fp, hset, hresolve, .inr hstub⟩
  · exact .inl h

theorem MapsGenuine.opened {cfg : Config} {s : State} (hs : MapsGenuine s) {fh fh' : FileHandle}
    (h : (engineOpen cfg s.world s.globals fh).1 = .success fh') :
    ∃ path fp content, createdFile s.world s.globals fh = some (path, fp) ∧
      fh'.buf = some content ∧ Injected cfg s path content := by
  unfold engineOpen at h
  split at h
  · rcases streamOpen_cases cfg s.world s.globals fh with ⟨hskip, _⟩ | ⟨canon, fp, hcreated, heq⟩
    · rw [hskip] at h
      simp at h
    · rw [heq] at h
      obtain ⟨set, hset, hfind, _⟩ := find_of_createdFile hcreated
      obtain ⟨content, hbuf, hok | ⟨hclosed, hstub⟩⟩ := openOutcome_success h
      · exact ⟨canon, fp, content, hcreated, hbuf,
          .inl (genuine_of_getPatched hs hset hfind hok)⟩
      · exact ⟨canon, fp, content, hcreated, hbuf, .inr ⟨hclosed, .inl hstub⟩⟩
  · simp at h

/-- Without the fail-closed policy an outcome without content leaves the handle
alone. -/
theorem compile_untouched {cfg : Config} (hopen : cfg.failClosed = false) {w : World}
    {g : Globals} {set : PatchSet} {fh : FileHandle} {path : Bytes} {fp : FilePatch}
    (hset : g.patchset = some set) (hresolve : phpatcherResolve w g set fh = some (path, fp))
    (hbuf : fh.buf = none)
    (hnone : ∀ content, (phpatcherGetPatched cfg w g path fp).1 ≠ .ok content) :
    (engineCompile cfg w g fh).1.buf = none := by
  unfold engineCompile
  split
  · rcases compileFile_cases cfg w g fh with hskip | ⟨set', path', fp', hset', _, hresolve', heq⟩
    · rw [hskip]
      exact hbuf
    · obtain rfl : set = set' := Option.some.inj (hset.symm.trans hset')
      obtain ⟨rfl, rfl⟩ := Prod.mk.inj (Option.some.inj (hresolve.symm.trans hresolve'))
      rw [heq]
      cases houtcome : (phpatcherGetPatched cfg w g path fp).1 with
      | ok content => exact absurd houtcome (hnone content)
      | fail | skip => simp [compileOutcome, hopen, hbuf]
  · exact hbuf

/-- Without the fail-closed policy a created file without content cannot be
opened. -/
theorem open_absent {cfg : Config} (hopen : cfg.failClosed = false) {w : World} {g : Globals}
    (hinstalled : ∀ set, g.patchset = some set → Installed g set) {fh : FileHandle}
    {path : Bytes} {fp : FilePatch} (hcreated : createdFile w g fh = some (path, fp))
    (hnone : ∀ content, (phpatcherGetPatched cfg w g path fp).1 ≠ .ok content) :
    (engineOpen cfg w g fh).1 = .failure := by
  obtain ⟨set, hset, hfind, hcreates⟩ := find_of_createdFile hcreated
  have hmem := (hinstalled set hset).indexed.mem_of_find hfind
  rw [engineOpen, if_pos ((hinstalled set hset).streamHook _ hmem hcreates)]
  rcases streamOpen_cases cfg w g fh with ⟨_, hno⟩ | ⟨canon, fp', hcreated', heq⟩
  · rw [hno] at hcreated
    simp at hcreated
  · obtain ⟨rfl, rfl⟩ := Prod.mk.inj (Option.some.inj (hcreated.symm.trans hcreated'))
    rw [heq]
    cases houtcome : (phpatcherGetPatched cfg w g path fp).1 with
    | ok content => exact absurd houtcome (hnone content)
    | fail | skip => simp [openOutcome, hopen]

/-- **Never a broken hybrid.** For every configuration, in every state of every
run: the maps hold complete outputs only, the hooks inject these or, failing
closed, the stub, and otherwise a failed or skipped patch changes nothing. -/
theorem never_a_hybrid (sorter : EntrySorter) (cfg : Config) :
    (system sorter cfg).Invariant (NoHybrid cfg) := by
  intro s hreach
  have hs := mapsGenuine_invariant sorter cfg s hreach
  exact {
    entries := hs.entries
    compiled := fun _ _ h => hs.compiled h
    opened := fun _ _ h => hs.opened h
    untouched := fun hopen _ _ _ _ hset hresolve hbuf hnone =>
      compile_untouched hopen hset hresolve hbuf hnone
    absent := fun hopen _ _ _ hcreated hnone => open_absent hopen hs.installed hcreated hnone }

end Phpatcher.Theorems
