import Phpatcher.Glue.Freshness

/-!
# What is compiled after an edit

Both maps are filled once and never looked over again, so an edit of a source
file whose content is held has no effect on later compilations
(`compiles_stale_content`). As long as every edit leaves alone the files that
held content was made from, every compilation is decided by the bytes of now.
-/

namespace Phpatcher.Theorems

open Phpatcher.Basis Phpatcher.Core Phpatcher.Glue

/-- Every compilation of an indexed file that is not a created one is decided
by the bytes of now: the section applied to them, or the policy where this
fails. -/
def CompilesCurrent (cfg : Config) (s : State) : Prop :=
  ∀ set fh path fp, s.globals.patchset = some set → fh.buf = none →
    phpatcherResolve s.world s.globals set fh = some (path, fp) → fp.creates = false →
    (engineCompile cfg s.world s.globals fh).1 =
      compileOutcome cfg fh path (produce s.globals.baseDir s.world.disk path fp)

/-- Nothing is precomputed, or under the key of every such file the later
sections agree with the first; with distinct keys there are no later sections. -/
def StartsAgreeing (cfg : Config) (s : State) : Prop :=
  ∀ set path fp, s.globals.patchset = some set → set.find path = some fp → fp.creates = false →
    cfg.precompute = true → LaterSectionsAgree s.globals.baseDir s.world.disk set path

/-- An edit leaves alone every such file that content is held for, and the
files its section refers to. -/
def EditKeepsHeld (cfg : Config) (s : State) : Event → State → Prop
  | .edit w, _ => ∀ set path fp content, s.globals.patchset = some set →
      set.find path = some fp → fp.creates = false → held cfg s.globals path = some content →
      SameInputs s.globals.baseDir s.world.disk w.disk path fp
  | .compile _, _ | .openStream _, _ => True

/-- The content held for these files is fresh. -/
def AllFresh (cfg : Config) (s : State) : Prop :=
  ∀ set path fp, s.globals.patchset = some set → set.find path = some fp → fp.creates = false →
    FreshAt cfg s.world.disk s.globals set path

theorem allFresh_startup (sorter : EntrySorter) (cfg : Config) (w : World)
    (h : StartsAgreeing cfg (startup sorter cfg w)) : AllFresh cfg (startup sorter cfg w) := by
  intro set path fp hset hfind hcreates
  simp only [StartsAgreeing, startup] at h hset ⊢
  obtain ⟨diffText, parsed, _, _, rfl, hinstall⟩ := minit_of_patchset hset
  rw [hinstall] at h ⊢
  exact (freshAt_install_iff sorter cfg w diffText _ parsed path).mpr
    fun hpre => h _ path fp rfl hfind hcreates hpre

/-- An edit that keeps the inputs keeps content fresh. -/
theorem AllFresh.edit {cfg : Config} {s : State} (h : AllFresh cfg s) {w : World} {t : State}
    (hedit : EditKeepsHeld cfg s (.edit w) t) :
    AllFresh cfg { s with world := w, seen := w :: s.seen } := by
  intro set path fp hset hfind hcreates fp' content hfind' hheld
  obtain rfl : fp = fp' := Option.some.inj (hfind.symm.trans hfind')
  rw [produce_congr (hedit set path fp content hset hfind hcreates hheld)]
  exact h set path fp hset hfind hcreates fp content hfind hheld

theorem allFresh_invariant (sorter : EntrySorter) (cfg : Config) :
    ((system sorter cfg).restrict (StartsAgreeing cfg) (EditKeepsHeld cfg)).Invariant
      (AllFresh cfg) := by
  apply Transition.Inductive.invariant
  constructor
  · rintro _ ⟨⟨w, rfl⟩, hagree⟩
    exact allFresh_startup sorter cfg w hagree
  · rintro s e _ hs ⟨rfl, hkeep⟩
    rcases next_cases cfg s e with ⟨w, rfl, hnext⟩ | ⟨g', hstep, hnext⟩
    · -- the maps are as they were, the files they were made from are, too
      rw [hnext]
      exact hs.edit hkeep
    · rw [hnext]
      intro set path fp hset hfind hcreates
      rw [hstep.setup.patchset] at hset
      exact (hs set path fp hset hfind hcreates).hookStep hset hstep

/-- **Current bytes.** In every run that starts with agreeing sections and
whose edits leave alone what held content was made from, every compilation in
every state is decided by the bytes of now. -/
theorem compiles_current (sorter : EntrySorter) (cfg : Config) :
    ((system sorter cfg).restrict (StartsAgreeing cfg) (EditKeepsHeld cfg)).Invariant
      (CompilesCurrent cfg) := by
  intro s hreach set fh path fp hset hbuf hresolve hcreates
  have hfind := find_of_resolve hresolve
  have hfresh := allFresh_invariant sorter cfg s hreach set path fp hset hfind hcreates
  have hinstalled := installed_invariant sorter cfg s (hreach.of_restrict) set hset
  rw [engineCompile, if_pos hinstalled.compileHook, compileFile_of_resolve hset hbuf hresolve,
    hfresh.outcome hfind]

/-! ## A stale compilation -/

/-- `/a.php` with these bytes; the patch deletes its first line. -/
def editedWorld (bytes : Bytes) : World where
  disk p :=
    if p = ascii "/a.php" then some bytes
    else if p = ascii "/patch" then some (ascii "# phpatcher-ed\n# file: /a.php\n1d\n")
    else none
  os := ⟨some, some (ascii "/")⟩
  vcwdRealpath := some
  vcwdGetcwd := some (ascii "/")
  engineResolve := some

/-- The file changes after startup, and the content compiled is the one of
before. -/
theorem compiles_stale_content :
    let cfg : Config := { patchFile := ascii "/patch" }
    let s := (startup (Sorter.stable Prod.fst) cfg (editedWorld (ascii "x\nold\n"))).next cfg
      (.edit (editedWorld (ascii "x\nnew\n")))
    let fh : FileHandle := { filename := some (ascii "/a.php") }
    (engineCompile cfg s.world s.globals fh).1.buf = some (ascii "old\n") ∧
      ¬ (system (Sorter.stable Prod.fst) cfg).Invariant (CompilesCurrent cfg) := by
  intro cfg s fh
  have hbuf : (engineCompile cfg s.world s.globals fh).1.buf = some (ascii "old\n") := by
    decide +kernel
  have hresolve : ((s.globals.patchset.bind fun set =>
      phpatcherResolve s.world s.globals set fh).map fun found =>
        (found.1, found.2.creates,
          produce s.globals.baseDir s.world.disk found.1 found.2)) =
      some (ascii "/a.php", false, .ok (ascii "new\n")) := by decide +kernel
  refine ⟨hbuf, fun h => ?_⟩
  have hreach : (system (Sorter.stable Prod.fst) cfg).Reachable s :=
    .step (.start ⟨_, rfl⟩) rfl
  obtain ⟨⟨path, fp⟩, hfound, hvalues⟩ := Option.map_eq_some_iff.mp hresolve
  obtain ⟨set, hset, hfound⟩ := Option.bind_eq_some_iff.mp hfound
  obtain ⟨rfl, hvalues⟩ := Prod.mk.inj hvalues
  obtain ⟨hcreates, hproduce⟩ := Prod.mk.inj hvalues
  have hcurrent := h s hreach set fh _ fp hset rfl hfound hcreates
  rw [hproduce] at hcurrent
  rw [hcurrent] at hbuf
  exact absurd hbuf (by decide)

end Phpatcher.Theorems
