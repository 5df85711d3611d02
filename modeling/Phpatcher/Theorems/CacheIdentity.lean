import Phpatcher.Core.Parsing
import Phpatcher.Glue.Freshness

/-!
# What the OPcache identity stands for

With `opcache_bind` the patch text and the base directory are mixed into the
system id. They stand for the index, as long as the paths of its sections get the
same keys, but not for what else decides a compilation: the `on_error` policy
and the corpus files a section refers to (`identity_misses`).
-/

namespace Phpatcher.Theorems

open Phpatcher.Basis Phpatcher.Core Phpatcher.Glue

/-- The runs that start in a world and leave it as it is. -/
def quietFrom (sorter : EntrySorter) (cfg : Config) (w : World) : Transition State Event :=
  (system sorter cfg).restrict (· = startup sorter cfg w) fun _ e _ => ∀ w', e ≠ .edit w'

/-- A handle is compiled as the indexed file `path`. -/
def CompiledAs (s : State) (fh : FileHandle) (path : Bytes) : Prop :=
  fh.buf = none ∧ ∃ set fp, s.globals.patchset = some set ∧
    phpatcherResolve s.world s.globals set fh = some (path, fp)

/-- The source the compile hook hands on: the buffer, or the file itself where
the buffer is left unset. -/
def sourceHandedOn (cfg : Config) (s : State) (fh : FileHandle) (path : Bytes) : Option Bytes :=
  match (engineCompile cfg s.world s.globals fh).1.buf with
  | some content => some content
  | none => s.world.disk path

/-- Two startups bind themselves to OPcache and feed it the same data. -/
structure SameIdentity (sorter : EntrySorter) (cfg cfg' : Config) (w w' : World) : Prop where
  bind : cfg.opcacheBind = true
  bind' : cfg'.opcacheBind = true
  entropy : (minit sorter cfg' w' {}).entropy = (minit sorter cfg w {}).entropy

/-- Whenever a handle is compiled as `path` in a run of each of the two, the same
source is handed on. -/
def SameSource (sorter : EntrySorter) (cfg cfg' : Config) (w w' : World) (path : Bytes) : Prop :=
  ∀ s s' fh fh', (quietFrom sorter cfg w).Reachable s → (quietFrom sorter cfg' w').Reachable s' →
    CompiledAs s fh path → CompiledAs s' fh' path →
    sourceHandedOn cfg' s' fh' path = sourceHandedOn cfg s fh path

/-- The paths of the sections get the same keys, at parsing and at re-keying. -/
def SameKeys (cfg : Config) (w w' : World) : Prop :=
  ∀ text sections, w.disk cfg.patchFile = some text → Document text sections →
    ∀ s ∈ sections, s.commands ≠ [] →
      canonicalize w'.os s.path (phpatcherBaseDir cfg w) =
        canonicalize w.os s.path (phpatcherBaseDir cfg w) ∧
      engineKey w' (canonicalize w.os s.path (phpatcherBaseDir cfg w)) =
        engineKey w (canonicalize w.os s.path (phpatcherBaseDir cfg w))

/-- What else decides a compilation is the same: the keys, the file itself, the
files that the sections under its key refer to, and, where its section gives
nothing, the policy. -/
structure SameSurroundings (sorter : EntrySorter) (cfg cfg' : Config) (w w' : World)
    (path : Bytes) : Prop where
  keys : SameKeys cfg w w'
  own : w'.disk path = w.disk path
  refs : ∀ set, (minit sorter cfg w {}).patchset = some set → ∀ fp ∈ sectionsAt set path,
    ∀ ref ∈ fp.refs, w'.disk (refFile (minit sorter cfg w {}).baseDir ref) =
      w.disk (refFile (minit sorter cfg w {}).baseDir ref)
  policy : ∀ set fp, (minit sorter cfg w {}).patchset = some set → set.find path = some fp →
    applied (minit sorter cfg w {}).baseDir w.disk path fp = none →
    cfg'.failClosed = cfg.failClosed

/-- The key has one section, or the later ones give what the first gives. -/
def SectionsAgree (sorter : EntrySorter) (cfg : Config) (w : World) (path : Bytes) : Prop :=
  ∀ set, (minit sorter cfg w {}).patchset = some set →
    LaterSectionsAgree (minit sorter cfg w {}).baseDir w.disk set path

variable {sorter : EntrySorter} {cfg cfg' : Config} {w w' : World} {path : Bytes}

/-! ## One startup -/

/-- In a quiet run the world and the setup stay, and content stays fresh. -/
theorem quiet_invariant (h : SectionsAgree sorter cfg w path) :
    (quietFrom sorter cfg w).Invariant fun s =>
      s.world = w ∧ SameSetup (minit sorter cfg w {}) s.globals ∧
      ∀ set, (minit sorter cfg w {}).patchset = some set →
        FreshAt cfg w.disk s.globals set path := by
  apply Transition.Inductive.invariant
  constructor
  · rintro _ ⟨_, rfl⟩
    refine ⟨rfl, SameSetup.refl _, fun set hset => ?_⟩
    have hagree := h set hset
    obtain ⟨text, parsed, _, _, rfl, hinstall⟩ := minit_of_patchset hset
    show FreshAt cfg w.disk (minit sorter cfg w {}) _ path
    rw [hinstall] at hagree ⊢
    exact (freshAt_install_iff sorter cfg w text _ parsed path).mpr fun _ => hagree
  · rintro s e _ ⟨rfl, hsetup, hfresh⟩ ⟨rfl, hquiet⟩
    rcases next_cases cfg s e with ⟨w', hedit, _⟩ | ⟨g', hstep, hnext⟩
    · exact absurd hedit (hquiet w')
    · rw [hnext]
      refine ⟨rfl, hsetup.trans hstep.setup, fun set hset => ?_⟩
      exact (hfresh set hset).hookStep (hsetup.patchset.trans hset) hstep

/-- What the outcome of a section comes to. -/
def sourceOf (closed : Bool) (own : Option Bytes) (path : Bytes) : Patched → Option Bytes
  | .ok content => some content
  | .fail => if closed then some (phpatcherFailStub path patchFailed) else own
  | .skip => if closed then some (phpatcherFailStub path haltReason) else own

/-- The source handed on is decided by what the section produces. -/
theorem sourceHandedOn_eq (h : SectionsAgree sorter cfg w path) {s : State}
    (hreach : (quietFrom sorter cfg w).Reachable s) {fh : FileHandle}
    (hcompiled : CompiledAs s fh path) :
    ∃ set fp, (minit sorter cfg w {}).patchset = some set ∧ set.find path = some fp ∧
      sourceHandedOn cfg s fh path = sourceOf cfg.failClosed (w.disk path) path
        (produce (minit sorter cfg w {}).baseDir w.disk path fp) := by
  obtain ⟨hworld, hsetup, hfresh⟩ := quiet_invariant h s hreach
  obtain ⟨hbuf, set, fp, hset, hresolve⟩ := hcompiled
  have hfind := find_of_resolve hresolve
  have hstart : (minit sorter cfg w {}).patchset = some set := by rw [← hsetup.patchset, hset]
  have hhook := (installed_invariant sorter cfg s hreach.of_restrict set hset).compileHook
  have houtcome : (phpatcherGetPatched cfg s.world s.globals path fp).1 =
      produce (minit sorter cfg w {}).baseDir w.disk path fp := by
    have := hfresh set hstart
    rw [← hworld] at this
    rw [this.outcome hfind, hworld, hsetup.baseDir]
  refine ⟨set, fp, hstart, hfind, ?_⟩
  rw [sourceHandedOn, engineCompile, if_pos hhook, compileFile_of_resolve hset hbuf hresolve,
    houtcome, hworld]
  cases produce (minit sorter cfg w {}).baseDir w.disk path fp with
  | ok content => rfl
  | fail => cases hclosed : cfg.failClosed <;> simp [compileOutcome, sourceOf, hclosed, hbuf,
      phpatcherInjectSource]
  | skip => cases hclosed : cfg.failClosed <;> simp [compileOutcome, sourceOf, hclosed, hbuf,
      phpatcherInjectSource]

/-! ## Two startups -/

/-- The data that is mixed in tells the patch text and the base directory, and
with the same keys these tell the index. -/
theorem sameIndex_of_sameIdentity (hid : SameIdentity sorter cfg cfg' w w')
    (hkeys : SameKeys cfg w w') {set set' : PatchSet}
    (hset : (minit sorter cfg w {}).patchset = some set)
    (hset' : (minit sorter cfg' w' {}).patchset = some set') :
    set' = set ∧ (minit sorter cfg' w' {}).baseDir = (minit sorter cfg w {}).baseDir := by
  have hentropy := hid.entropy
  obtain ⟨text, parsed, htext, hparse, rfl, hinstall⟩ := minit_of_patchset hset
  obtain ⟨text', parsed', _, hparse', rfl, hinstall'⟩ := minit_of_patchset hset'
  rw [hinstall, hinstall'] at hentropy ⊢
  -- both texts and both directories stand in the data
  simp only [install, hid.bind, hid.bind', if_true, List.nil_append, List.cons.injEq,
    Prod.mk.injEq, true_and, and_true] at hentropy
  obtain ⟨rfl, hbaseDir⟩ := hentropy
  refine ⟨?_, hbaseDir⟩
  -- the text has one reading, and its paths get the same keys
  obtain ⟨_, sections, hdoc, _, hparsed⟩ := parse_eq_ok.mp hparse
  obtain ⟨_, sections', hdoc', _, hparsed'⟩ := parse_eq_ok.mp hparse'
  obtain rfl := hdoc.unique hdoc'
  rw [hbaseDir] at hparsed'
  have hsame := hkeys text' sections htext hdoc
  have hset_eq : parsed' = parsed := by
    rw [hparsed, hparsed']
    exact parsedSet_congr fun s hs hcommands => (hsame s hs hcommands).1
  have hengine : ∀ e ∈ parsed.index, engineKey w' e.1 = engineKey w e.1 := by
    intro e he
    rw [hparsed, parsedSet, Sorter.mem_run, mem_entriesOf] at he
    obtain ⟨s, hs, hcommands, rfl⟩ := he
    exact (hsame s hs hcommands).2
  rw [hset_eq, PatchSet.recanonicalize_congr hengine]

/-- Sections that agree on one disk agree on one with the same files. -/
theorem sectionsAgree_congr (hid : SameIdentity sorter cfg cfg' w w')
    (hsame : SameSurroundings sorter cfg cfg' w w' path) (h : SectionsAgree sorter cfg w path)
    {set : PatchSet} (hset : (minit sorter cfg w {}).patchset = some set) :
    SectionsAgree sorter cfg' w' path := by
  intro set' hset'
  obtain ⟨rfl, hbaseDir⟩ := sameIndex_of_sameIdentity hid hsame.keys hset hset'
  have hproduce : ∀ fp ∈ sectionsAt set' path,
      produce (minit sorter cfg w {}).baseDir w'.disk path fp =
        produce (minit sorter cfg w {}).baseDir w.disk path fp := fun fp hfp =>
    produce_congr ⟨fun _ => hsame.own, hsame.refs set' hset fp hfp⟩
  rw [hbaseDir]
  intro first later content hsections hlast
  rw [hsections] at hproduce
  rw [hproduce first List.mem_cons_self]
  apply h set' hset first later content hsections
  rw [← hlast]
  congr 1
  apply List.filterMap_congr
  intro fp hfp
  rw [applied, applied, hproduce fp (List.mem_cons_of_mem _ hfp)]

/-- **The OPcache identity.** Startups that feed the same data hand on the same
source for a path when also the keys and the files that its sections read are the
same, and the policy where it counts. -/
theorem same_source_of_same_identity (sorter : EntrySorter) (cfg cfg' : Config) (w w' : World)
    (path : Bytes) (hid : SameIdentity sorter cfg cfg' w w')
    (hsame : SameSurroundings sorter cfg cfg' w w' path)
    (hagree : SectionsAgree sorter cfg w path) : SameSource sorter cfg cfg' w w' path := by
  intro s s' fh fh' hreach hreach' hcompiled hcompiled'
  obtain ⟨set, fp, hset, hfind, hsource⟩ := sourceHandedOn_eq hagree hreach hcompiled
  obtain ⟨set', fp', hset', hfind', hsource'⟩ := sourceHandedOn_eq
    (sectionsAgree_congr hid hsame hagree hset) hreach' hcompiled'
  obtain ⟨rfl, hbaseDir⟩ := sameIndex_of_sameIdentity hid hsame.keys hset hset'
  obtain rfl : fp = fp' := Option.some.inj (hfind.symm.trans hfind')
  have hindexed : set'.Indexed :=
    (installed_invariant sorter cfg _ (.start ⟨w, rfl⟩) set' hset).indexed
  have hsection : fp ∈ sectionsAt set' path := by
    rw [find_eq_head? hindexed] at hfind
    exact List.mem_of_mem_head? hfind
  have hproduce : produce (minit sorter cfg w {}).baseDir w'.disk path fp =
      produce (minit sorter cfg w {}).baseDir w.disk path fp :=
    produce_congr ⟨fun _ => hsame.own, hsame.refs set' hset fp hsection⟩
  rw [hsource, hsource', hsame.own, hbaseDir, hproduce]
  -- the policy only tells what comes instead of a content
  have hpolicy := hsame.policy set' fp hset hfind
  rw [applied] at hpolicy
  cases houtcome : produce (minit sorter cfg w {}).baseDir w.disk path fp with
  | ok content => rfl
  | skip | fail =>
      rw [houtcome] at hpolicy
      rw [hpolicy rfl]

/-- `/app/x.php` and a corpus file, a patch, and links to `/app/x.php`. -/
def boundWorld (patch corpus : Bytes) (links : List Bytes) : World where
  disk p :=
    if p = ascii "/patch" then some patch
    else if p = ascii "/app/x.php" then some (ascii "a\nb\n")
    else if p = ascii "/app/lib.php" then some corpus
    else none
  os := ⟨fun _ => none, some (ascii "/app")⟩
  vcwdRealpath p := some (if p ∈ links then ascii "/app/x.php" else p)
  vcwdGetcwd := some (ascii "/app")
  engineResolve := some

/-- With every other setting changed, and another file. -/
theorem same_source_rebound :
    let sorter : EntrySorter := Sorter.stable Prod.fst
    let patch := ascii "# phpatcher-ed\n# file: x.php\n1d\n"
    let cfg : Config := { patchFile := ascii "/patch" }
    let other : Config :=
      { cfg with onError := some (ascii "fail"), strict := false, precompute := false,
                 cache := false }
    SameSource sorter cfg other (boundWorld patch (ascii "1\n") [])
      (boundWorld patch (ascii "2\n") []) (ascii "/app/x.php") := by
  intro sorter patch cfg other
  let w := boundWorld patch (ascii "1\n") []
  let fp : FilePatch := { commands := [{ start := 1, end_ := 1 }] }
  have honly : ∀ set, (minit sorter cfg w {}).patchset = some set →
      sectionsAt set (ascii "/app/x.php") = [fp] := by
    have hmap : ((minit sorter cfg w {}).patchset.map
        fun set => sectionsAt set (ascii "/app/x.php")) = some [fp] := by decide +kernel
    intro set hset
    rw [hset] at hmap
    exact Option.some.inj hmap
  have happlied : ∀ set fp, (minit sorter cfg w {}).patchset = some set →
      set.find (ascii "/app/x.php") = some fp →
      applied (minit sorter cfg w {}).baseDir w.disk (ascii "/app/x.php") fp ≠ none := by
    have hmap : ((minit sorter cfg w {}).patchset.bind fun set =>
        (set.find (ascii "/app/x.php")).bind fun fp =>
          applied (minit sorter cfg w {}).baseDir w.disk (ascii "/app/x.php") fp) =
        some (ascii "b\n") := by decide +kernel
    intro set fp hset hfind
    rw [hset, Option.bind_some, hfind, Option.bind_some] at hmap
    rw [hmap]
    exact Option.some_ne_none _
  refine same_source_of_same_identity sorter cfg other w _ _ ⟨rfl, rfl, by decide +kernel⟩
    ⟨fun _ _ _ _ _ _ _ => ⟨rfl, rfl⟩, rfl, ?_, ?_⟩ ?_
  · -- the section has no references
    intro set hset fp' hfp
    rw [honly set hset, List.mem_singleton] at hfp
    rw [hfp, show fp.refs = [] from rfl]
    exact fun ref href => absurd href List.not_mem_nil
  · exact fun set fp hset hfind hnone => absurd hnone (happlied set fp hset hfind)
  · -- there is no later section
    intro set hset first later content hsections hlast
    rw [honly set hset] at hsections
    rw [← (List.cons.inj hsections).2] at hlast
    simp at hlast

/-! ## What the identity misses -/

/-- A handle that is opened as `/app/x.php`. -/
def openedX : FileHandle := { openedPath := some (ascii "/app/x.php") }

/-- The handle is compiled as `/app/x.php` after startup. -/
def CompilesX (cfg : Config) (w : World) : Prop :=
  ((startup (Sorter.stable Prod.fst) cfg w).globals.patchset.bind fun set =>
    (phpatcherResolve w (startup (Sorter.stable Prod.fst) cfg w).globals set openedX).map
      Prod.fst) = some (ascii "/app/x.php")

instance (cfg : Config) (w : World) : Decidable (CompilesX cfg w) :=
  inferInstanceAs (Decidable (_ = _))

theorem not_sameSource {cfg cfg' : Config} {w w' : World} (h : CompilesX cfg w)
    (h' : CompilesX cfg' w')
    (hdiffer : sourceHandedOn cfg' (startup (Sorter.stable Prod.fst) cfg' w') openedX
        (ascii "/app/x.php") ≠
      sourceHandedOn cfg (startup (Sorter.stable Prod.fst) cfg w) openedX (ascii "/app/x.php")) :
    ¬ SameSource (Sorter.stable Prod.fst) cfg cfg' w w' (ascii "/app/x.php") := by
  have hcompiled : ∀ {cfg : Config} {w : World}, CompilesX cfg w →
      CompiledAs (startup (Sorter.stable Prod.fst) cfg w) openedX (ascii "/app/x.php") := by
    intro cfg w h
    obtain ⟨set, hset, hresolve⟩ := Option.bind_eq_some_iff.mp h
    obtain ⟨⟨path, fp⟩, hfound, rfl⟩ := Option.map_eq_some_iff.mp hresolve
    exact ⟨rfl, set, fp, hset, hfound⟩
  intro hsame
  exact hdiffer (hsame _ _ openedX openedX (.start ⟨⟨w, rfl⟩, rfl⟩) (.start ⟨⟨w', rfl⟩, rfl⟩)
    (hcompiled h) (hcompiled h'))

/-- The identity is the same and the file is the same, but the source handed on
is not: with another `on_error` policy, with another content of a corpus file,
and with another link to the file. -/
theorem identity_misses :
    let sorter : EntrySorter := Sorter.stable Prod.fst
    let cfg : Config := { patchFile := ascii "/patch" }
    let closed : Config := { cfg with onError := some (ascii "fail") }
    let drifted := boundWorld (ascii "# phpatcher-ed\n# file: x.php\n9d\n") [] []
    let copies := ascii "# phpatcher-ed\n# file: x.php\n2a\nr \"lib.php\" 1 1 # s:2\n.\n"
    let before := boundWorld copies (ascii "1\n") []
    let after := boundWorld copies (ascii "2\n") []
    let sections := ascii "# phpatcher-ed\n# file: l.php\n1d\n# file: m.php\n2d\n"
    let linked := boundWorld sections [] [ascii "/app/l.php"]
    let relinked := boundWorld sections [] [ascii "/app/m.php"]
    (∀ w ∈ [drifted, before, after, linked, relinked],
      w.disk (ascii "/app/x.php") = some (ascii "a\nb\n")) ∧
    (SameIdentity sorter cfg closed drifted drifted ∧
      ¬ SameSource sorter cfg closed drifted drifted (ascii "/app/x.php")) ∧
    (SameIdentity sorter cfg cfg before after ∧
      ¬ SameSource sorter cfg cfg before after (ascii "/app/x.php")) ∧
    (SameIdentity sorter cfg cfg linked relinked ∧
      ¬ SameSource sorter cfg cfg linked relinked (ascii "/app/x.php")) := by
  intro sorter cfg closed drifted copies before after sections linked relinked
  refine ⟨by decide +kernel, ⟨⟨rfl, rfl, by decide +kernel⟩, ?_⟩,
    ⟨⟨rfl, rfl, by decide +kernel⟩, ?_⟩, ⟨⟨rfl, rfl, by decide +kernel⟩, ?_⟩⟩
  · -- the patch does not apply: the original against the stub
    exact not_sameSource (by decide +kernel) (by decide +kernel) (by decide +kernel)
  · -- the guard is the length, which is the same
    exact not_sameSource (by decide +kernel) (by decide +kernel) (by decide +kernel)
  · -- another section of the patch ends under the key
    exact not_sameSource (by decide +kernel) (by decide +kernel) (by decide +kernel)

end Phpatcher.Theorems
