import Phpatcher.Glue.Lifecycle

/-!
# The module among other extensions

In every run of a process, whatever extensions hook in and out meanwhile, a call
through each of the three pointers comes to the engine and passes every extension
once, the module exactly where `MINIT` hooked in. `MSHUTDOWN` drops nobody else, and
a module that is still below others then only passes calls on
(`hook_chains`). What a module that was started again serves is what one in a new
process would (`restart_serves`).
-/

namespace Phpatcher.Theorems

open Phpatcher.Basis Phpatcher.Core Phpatcher.Glue

/-! ## Blank globals and stacks -/

/-- What holds in every state of a process. -/
structure InOrder (p : Process) : Prop where
  linked : ∀ h, ∃ stack, (p.chain h).Represents stack ∧
    (p.stage = .fresh → .phpatcher ∉ stack) ∧
    (p.stage = .running → (.phpatcher ∈ stack ↔ p.globals.hooked h = true))
  blank : p.stage ≠ .running → p.globals.serving = Globals.serving {}

theorem hooked_serving (g : Globals) (h : Hook) : g.serving.hooked h = g.hooked h := by
  cases h <;> rfl

theorem hooked_congr {g g' : Globals} (h : g.serving = g'.serving) (hook : Hook) :
    g.hooked hook = g'.hooked hook := by
  rw [← hooked_serving, h, hooked_serving]

theorem hooked_of_same {g g' : Globals} (h : SameSetup g g') (hook : Hook) :
    g'.hooked hook = g.hooked hook := by
  cases hook with
  | compile => exact h.compileHook
  | resolve => exact h.resolveHook
  | stream => exact h.streamHook

/-- A hook keeps the setup, and without a patch everything. -/
theorem compileFile_keeps (cfg : Config) (w : World) (g : Globals) (fh : FileHandle) :
    SameSetup g (phpatcherCompileFile cfg w g fh).2 ∧
      (g.patchset = none → phpatcherCompileFile cfg w g fh = (fh, g)) := by
  refine ⟨?_, fun hnone => by simp [phpatcherCompileFile, hnone]⟩
  rcases compileFile_cases cfg w g fh with hskip | ⟨set, path, fp, _, _, _, heq⟩
  · rw [hskip]
    exact SameSetup.refl g
  · rw [heq]
    exact (getPatched_snd cfg w g path fp).1

theorem streamOpen_keeps (cfg : Config) (w : World) (g : Globals) (fh : FileHandle) :
    SameSetup g (phpatcherStreamOpen cfg w g fh).2 ∧
      (g.patchset = none → phpatcherStreamOpen cfg w g fh = (.delegated, g)) := by
  refine ⟨?_, fun hnone => ?_⟩
  · rcases streamOpen_cases cfg w g fh with ⟨hskip, _⟩ | ⟨canon, fp, _, heq⟩
    · rw [hskip]
      exact SameSetup.refl g
    · rw [heq]
      exact (getPatched_snd cfg w g canon fp).1
  · have hcreated : createdFile w g fh = none := by simp [createdFile, hnone]
    rw [phpatcherStreamOpen, hcreated]

theorem patchset_blank {g : Globals} (h : g.serving = Globals.serving {}) : g.patchset = none :=
  congrArg Globals.patchset h

/-- A pointer that another extension hooks into or out of. -/
theorem InOrder.update {p : Process} (hp : InOrder p) {h : Hook} {c : HookChain Extension}
    (hstack : ∀ stack, (p.chain h).Represents stack → ∃ stack', c.Represents stack' ∧
      (.phpatcher ∈ stack' ↔ .phpatcher ∈ stack)) :
    InOrder { p with chain := Function.update p.chain h c } where
  linked h' := by
    obtain ⟨stack, hrepresents, hfresh, hrunning⟩ := hp.linked h'
    by_cases hh : h' = h
    · subst hh
      obtain ⟨stack', hrepresents', hsame⟩ := hstack stack hrepresents
      refine ⟨stack', ?_, fun hs => ?_, fun hs => ?_⟩
      · simpa using hrepresents'
      · rw [hsame]
        exact hfresh hs
      · rw [hsame]
        exact hrunning hs
    · refine ⟨stack, ?_, hfresh, hrunning⟩
      simpa only [Function.update_of_ne hh] using hrepresents
  blank := hp.blank

/-- Globals with the same setup, which are the same where the module does not run. -/
theorem InOrder.globals {p : Process} (hp : InOrder p) {g : Globals}
    (hsame : SameSetup p.globals g) (hblank : p.globals.patchset = none → g = p.globals) :
    InOrder { p with globals := g } where
  linked h := by
    obtain ⟨stack, hrepresents, hfresh, hrunning⟩ := hp.linked h
    refine ⟨stack, hrepresents, hfresh, fun hs => ?_⟩
    simp only [hooked_of_same hsame]
    exact hrunning hs
  blank hs := by
    have hnone := patchset_blank (hp.blank hs)
    simp only [hblank hnone]
    exact hp.blank hs

theorem inOrder_start (w : World) (cfg : Config) : InOrder (startProcess w cfg) where
  linked _ := ⟨[], ⟨.engine, List.nodup_nil⟩, by simp, fun h => by cases h⟩
  blank _ := rfl

theorem InOrder.minit {p : Process} (hp : InOrder p) (hfresh : p.stage = .fresh)
    (sorter : EntrySorter) (cfg : Config) : InOrder (p.minit sorter cfg) where
  linked h := by
    obtain ⟨stack, hrepresents, hout, _⟩ := hp.linked h
    have hnotin := hout hfresh
    simp only [Process.minit]
    cases hhooked : (Glue.minit sorter cfg p.world p.globals).hooked h with
    | true =>
        refine ⟨.phpatcher :: stack, ?_, fun hs => (by cases hs), fun _ => by simp⟩
        rw [if_pos rfl]
        exact hrepresents.install hnotin
    | false =>
        refine ⟨stack, ?_, fun hs => (by cases hs), fun _ => by simp [hnotin]⟩
        rw [if_neg (by simp)]
        exact hrepresents
  blank hs := absurd rfl hs

theorem InOrder.mshutdown {p : Process} (hp : InOrder p) : InOrder p.mshutdown where
  linked h := by
    obtain ⟨stack, hrepresents, _⟩ := hp.linked h
    exact ⟨_, hrepresents.remove .phpatcher, fun hs => (by cases hs), fun hs => (by cases hs)⟩
  blank _ := serving_mshutdown p.globals

theorem inOrder_invariant (sorter : EntrySorter) : (lifecycle sorter).Invariant InOrder := by
  apply Transition.Inductive.invariant
  constructor
  · rintro _ ⟨w, cfg, rfl⟩
    exact inOrder_start w cfg
  · intro p e q hp hstep
    cases e with
    | startEngine =>
        obtain ⟨hdown, rfl⟩ := hstep
        refine ⟨fun h => ⟨[], HookChain.Represents.reset _, by simp, fun hs => by cases hs⟩, ?_⟩
        exact fun _ => hp.blank (by simp [hdown])
    | minit cfg =>
        obtain ⟨hfresh, rfl⟩ := hstep
        exact hp.minit hfresh sorter cfg
    | mshutdown =>
        obtain ⟨_, rfl⟩ := hstep
        exact hp.mshutdown
    | hookIn h i =>
        obtain ⟨hout, rfl⟩ := hstep
        refine hp.update fun stack hrepresents => ?_
        exact ⟨_, hrepresents.install (hout stack hrepresents), by simp⟩
    | hookOut h i =>
        obtain rfl := hstep
        refine hp.update fun stack hrepresents => ⟨_, hrepresents.remove _, ?_⟩
        exact ⟨HookChain.mem_popIf, fun hmem => HookChain.mem_popIf_of_ne hmem (by simp)⟩
    | compile fh =>
        rcases hstep with rfl | ⟨_, rfl⟩
        · exact hp
        · obtain ⟨hsame, hblank⟩ := compileFile_keeps p.config p.world p.globals fh
          exact hp.globals hsame fun hnone => by rw [hblank hnone]
    | openStream fh =>
        rcases hstep with rfl | ⟨_, rfl⟩
        · exact hp
        · obtain ⟨hsame, hblank⟩ := streamOpen_keeps p.config p.world p.globals fh
          exact hp.globals hsame fun hnone => by rw [hblank hnone]
    | edit w =>
        obtain rfl := hstep
        exact ⟨hp.linked, hp.blank⟩

/-! ## Calls -/

/-- `phpatcher_compile_file` in front of another compiler. -/
def compileAround {β : Type} (p : Process) (next : FileHandle → β) (fh : FileHandle) : β :=
  next (phpatcherCompileFile p.config p.world p.globals fh).1

/-- `phpatcher_resolve_path` in front of another resolver. -/
def resolveAround (p : Process) (next : Bytes → Option Bytes) (filename : Bytes) : Option Bytes :=
  phpatcherResolvePath { p.world with engineResolve := next } p.globals filename

/-- `phpatcher_stream_open` in front of another opener. -/
def openAround (p : Process) (next : FileHandle → Opened) (fh : FileHandle) : Opened :=
  match (phpatcherStreamOpen p.config p.world p.globals fh).1 with
  | .delegated => next fh
  | opened => opened

/-- What each extension does around the next function. -/
def runOf {α β : Type} (mine : (α → β) → α → β) (others : Nat → (α → β) → α → β) :
    Extension → (α → β) → α → β
  | .phpatcher => mine
  | .other i => others i

/-- Whatever the other extensions do: following the pointers comes to the engine, and
a call runs the extensions of the stack, each around the ones below it; where the
module does not run, it might as well not be there. -/
def Dispatches {α β : Type} (p : Process) (h : Hook) (mine : (α → β) → α → β) : Prop :=
  ∀ (others : Nat → (α → β) → α → β) (engine : α → β), ∃ stack n,
    (p.chain h).Represents stack ∧
    HookChain.fn (p.chain h).saved (runOf mine others) engine n (p.chain h).head =
      some (HookChain.around (runOf mine others) engine stack) ∧
    (p.stage ≠ .running → HookChain.around (runOf mine others) engine stack =
      HookChain.around (runOf mine others) engine (stack.filter (· ≠ .phpatcher)))

theorem InOrder.dispatches {p : Process} (hp : InOrder p) (h : Hook) {α β : Type}
    {mine : (α → β) → α → β}
    (hpasses : p.globals.patchset = none → ∀ next, mine next = next) : Dispatches p h mine := by
  intro others engine
  obtain ⟨stack, hrepresents, _⟩ := hp.linked h
  refine ⟨stack, stack.length, hrepresents, HookChain.fn_linked hrepresents.linked _ _ le_rfl, ?_⟩
  exact fun hdown => HookChain.around_filter (hpasses (patchset_blank (hp.blank hdown))) _ _

/-- **The module among other extensions.** In every state of every run of a process
a call through each pointer runs the extensions that are hooked in, each once, and
ends in the engine; where the module does not run it changes nothing. While it runs
it is called through the pointers `MINIT` hooked into and through no other, and its
`MSHUTDOWN` takes no other extension out. -/
theorem hook_chains (sorter : EntrySorter) : (lifecycle sorter).Invariant fun p =>
    (∀ β : Type, Dispatches p .compile (@compileAround β p)) ∧
    Dispatches p .resolve (resolveAround p) ∧ Dispatches p .stream (openAround p) ∧
    (p.stage = .running → ∀ h, p.Hooked h ↔ p.globals.hooked h = true) ∧
    ∀ h stack, (p.chain h).Represents stack → ∃ stack', (p.mshutdown.chain h).Represents stack' ∧
      stack'.filter (· ≠ .phpatcher) = stack.filter (· ≠ .phpatcher) := by
  intro p hreach
  have hp := inOrder_invariant sorter p hreach
  refine ⟨fun β => hp.dispatches .compile fun hnone next => ?_,
    hp.dispatches .resolve fun hnone next => ?_, hp.dispatches .stream fun hnone next => ?_,
    fun hrunning h => ?_, fun h stack hrepresents => ?_⟩
  · funext fh
    rw [compileAround, (compileFile_keeps p.config p.world p.globals fh).2 hnone]
  · funext filename
    simp only [resolveAround, phpatcherResolvePath, hnone]
    cases next filename <;> rfl
  · funext fh
    rw [openAround, (streamOpen_keeps p.config p.world p.globals fh).2 hnone]
  · obtain ⟨stack, hrepresents, _, hiff⟩ := hp.linked h
    rw [← hiff hrunning]
    constructor
    · rintro ⟨stack', hrepresents', hmem⟩
      rwa [hrepresents.unique hrepresents']
    · exact fun hmem => ⟨stack, hrepresents, hmem⟩
  · exact ⟨_, hrepresents.remove .phpatcher, HookChain.filter_popIf _ _⟩

/-! ## Starting again -/

/-- A process in which the module runs is, but for its counters, in a state of the
module started anew where and as it was started last. -/
def LikeNew (sorter : EntrySorter) (p : Process) : Prop :=
  p.stage = .running → ∃ s, (systemFrom sorter p.config p.since).Reachable s ∧
    s.world = p.world ∧ s.globals.serving = p.globals.serving

theorem serving_compile {cfg : Config} {w : World} {g g' : Globals} (h : g.serving = g'.serving)
    (fh : FileHandle) :
    (phpatcherCompileFile cfg w g fh).1 = (phpatcherCompileFile cfg w g' fh).1 ∧
      (phpatcherCompileFile cfg w g fh).2.serving =
        (phpatcherCompileFile cfg w g' fh).2.serving := by
  obtain ⟨houtcome, hafter⟩ := serving_compileFile cfg w g fh
  obtain ⟨houtcome', hafter'⟩ := serving_compileFile cfg w g' fh
  rw [h] at houtcome hafter
  exact ⟨houtcome.symm.trans houtcome', hafter.symm.trans hafter'⟩

theorem serving_open {cfg : Config} {w : World} {g g' : Globals} (h : g.serving = g'.serving)
    (fh : FileHandle) :
    (phpatcherStreamOpen cfg w g fh).1 = (phpatcherStreamOpen cfg w g' fh).1 ∧
      (phpatcherStreamOpen cfg w g fh).2.serving =
        (phpatcherStreamOpen cfg w g' fh).2.serving := by
  obtain ⟨houtcome, hafter⟩ := serving_streamOpen cfg w g fh
  obtain ⟨houtcome', hafter'⟩ := serving_streamOpen cfg w g' fh
  rw [h] at houtcome hafter
  exact ⟨houtcome.symm.trans houtcome', hafter.symm.trans hafter'⟩

theorem InOrder.hooked {p : Process} (hp : InOrder p) (hrunning : p.stage = .running) {h : Hook}
    (hhooked : p.Hooked h) : p.globals.hooked h = true := by
  obtain ⟨stack, hrepresents, hmem⟩ := hhooked
  obtain ⟨stack', hrepresents', _, hiff⟩ := hp.linked h
  rw [hrepresents.unique hrepresents'] at hmem
  exact (hiff hrunning).mp hmem

theorem likeNew_invariant (sorter : EntrySorter) :
    (lifecycle sorter).Invariant fun p => InOrder p ∧ LikeNew sorter p := by
  intro p hreach
  refine ⟨inOrder_invariant sorter p hreach, ?_⟩
  induction hreach with
  | start hstart =>
      obtain ⟨w, cfg, rfl⟩ := hstart
      intro hrunning
      cases hrunning
  | @step p e q hreach hstep ih =>
      have hp := inOrder_invariant sorter p hreach
      intro hrunning
      cases e with
      | startEngine =>
          obtain ⟨_, rfl⟩ := hstep
          cases hrunning
      | minit cfg =>
          -- what the last life left of the globals does not show
          obtain ⟨hfresh, rfl⟩ := hstep
          refine ⟨startup sorter cfg p.world, .start ⟨⟨_, rfl⟩, rfl⟩, rfl, ?_⟩
          exact serving_minit sorter cfg p.world (hp.blank (by simp [hfresh])).symm
      | mshutdown =>
          obtain ⟨_, rfl⟩ := hstep
          cases hrunning
      | hookIn h i =>
          obtain ⟨_, rfl⟩ := hstep
          exact ih hrunning
      | hookOut h i =>
          obtain rfl := hstep
          exact ih hrunning
      | compile fh =>
          rcases hstep with rfl | ⟨hhooked, rfl⟩
          · exact ih hrunning
          · obtain ⟨s, hs, hworld, hserving⟩ := ih hrunning
            refine ⟨s.next p.config (.compile fh), .step hs ⟨rfl, trivial⟩, hworld, ?_⟩
            have hon : s.globals.compileHook = true :=
              (hooked_congr hserving .compile).trans (hp.hooked hrunning hhooked)
            simp only [State.next, engineCompile, if_pos hon, hworld]
            exact (serving_compile hserving fh).2
      | openStream fh =>
          rcases hstep with rfl | ⟨hhooked, rfl⟩
          · exact ih hrunning
          · obtain ⟨s, hs, hworld, hserving⟩ := ih hrunning
            refine ⟨s.next p.config (.openStream fh), .step hs ⟨rfl, trivial⟩, hworld, ?_⟩
            have hon : s.globals.streamHook = true :=
              (hooked_congr hserving .stream).trans (hp.hooked hrunning hhooked)
            simp only [State.next, engineOpen, if_pos hon, hworld]
            exact (serving_open hserving fh).2
      | edit w =>
          obtain rfl := hstep
          obtain ⟨s, hs, _, hserving⟩ := ih hrunning
          exact ⟨s.next p.config (.edit w), .step hs ⟨rfl, trivial⟩, rfl, hserving⟩

/-- **Starting again.** Whatever happened in a process before the module was last
started, it compiles and opens as a module in a new process does in some state of a
run from the same start: nothing of earlier patches is ever served. -/
theorem restart_serves (sorter : EntrySorter) : (lifecycle sorter).Invariant fun p =>
    p.stage = .running → ∃ s, (systemFrom sorter p.config p.since).Reachable s ∧
      s.world = p.world ∧ ∀ fh,
        (phpatcherCompileFile p.config p.world p.globals fh).1 =
          (phpatcherCompileFile p.config s.world s.globals fh).1 ∧
        (phpatcherStreamOpen p.config p.world p.globals fh).1 =
          (phpatcherStreamOpen p.config s.world s.globals fh).1 ∧
        ∀ filename, phpatcherResolvePath p.world p.globals filename =
          phpatcherResolvePath s.world s.globals filename := by
  intro p hreach hrunning
  obtain ⟨s, hs, hworld, hserving⟩ := (likeNew_invariant sorter p hreach).2 hrunning
  refine ⟨s, hs, hworld, fun fh => ⟨?_, ?_, fun filename => ?_⟩⟩
  · rw [hworld]
    exact (serving_compile hserving.symm fh).1
  · rw [hworld]
    exact (serving_open hserving.symm fh).1
  · have hself : ∀ g : Globals, phpatcherResolvePath p.world g.serving filename =
        phpatcherResolvePath p.world g filename := fun _ => rfl
    rw [hworld, ← hself, ← hself s.globals, hserving]

end Phpatcher.Theorems
