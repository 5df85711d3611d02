import Phpatcher.Basis.Progress
import Phpatcher.Theorems.WriteOnce

/-!
# Requests on several threads, one by one

Requests race for the cache. In every interleaving of their steps in which no two of
them are between a miss of the same path and its store, with edits that leave alone what
the sections are made from, each request gets the answer it would have got alone after
startup. What a published pointer leads to is not replaced, so its copy is that of one
string, and a request that is pending can always be brought to its end.
-/

namespace Phpatcher.Theorems

open Phpatcher.Basis Phpatcher.Core Phpatcher.Glue

/-! ## Histories -/

/-- The process, and what each request was last for. -/
structure History where
  threads : Threads
  asked : Nat → Option (Bytes × FilePatch)

/-- What is asked for after an event. -/
def askedAfter (asked : Nat → Option (Bytes × FilePatch)) :
    ThreadEvent → Nat → Option (Bytes × FilePatch)
  | .begin r path fp => Function.update asked r (some (path, fp))
  | .lookup _ | .apply _ | .store _ | .copy _ | .edit _ => asked

section

variable (sorter : EntrySorter) (cfg : Config) (w : World)

/-- The section is the one the index finds under the path. -/
def Found (path : Bytes) (fp : FilePatch) : Prop :=
  ∃ set, (minit sorter cfg w {}).patchset = some set ∧ set.find path = some fp

/-- A request is for a section that was found; an edit leaves alone what the
sections are made from. -/
def Admissible : ThreadEvent → Prop
  | .begin _ path fp => Found sorter cfg w path fp
  | .edit w' => ∀ path fp, Found sorter cfg w path fp →
      SameInputs (minit sorter cfg w {}).baseDir w.disk w'.disk path fp
  | .lookup _ | .apply _ | .store _ | .copy _ => True

/-- The runs from startup in a world. With the cache on, a lookup misses a path only
where no other request is to store that. -/
def histories : Transition History ThreadEvent where
  start h := h = ⟨startThreads sorter cfg w, fun _ => none⟩
  step h e h' := h.threads.next cfg e = some h'.threads ∧ h'.asked = askedAfter h.asked e ∧
    Admissible sorter cfg w e ∧ (cfg.cache = true → MissesAlone cfg h.threads e h'.threads)

/-- What one request alone is answered after startup. -/
def answerAlone (path : Bytes) (fp : FilePatch) : Patched :=
  (phpatcherGetPatched cfg w (minit sorter cfg w {}) path fp).1

end

variable {sorter : EntrySorter} {cfg : Config} {w : World}

theorem Found.unique {path : Bytes} {fp fp' : FilePatch} (h : Found sorter cfg w path fp)
    (h' : Found sorter cfg w path fp') : fp = fp' := by
  obtain ⟨set, hset, hfind⟩ := h
  obtain ⟨set', hset', hfind'⟩ := h'
  obtain rfl : set = set' := Option.some.inj (hset.symm.trans hset')
  exact Option.some.inj (hfind.symm.trans hfind')

/-- Startup leaves the cache empty. -/
theorem cache_minit (sorter : EntrySorter) (cfg : Config) (w : World) (path : Bytes) :
    heldIn (minit sorter cfg w {}).cache path = none := by
  rcases minit_cases sorter cfg w with ⟨_, _, hcache, _⟩ | ⟨_, _, _, _, hinstall⟩
  · rw [hcache]
    rfl
  · simp [hinstall, install, heldIn]

theorem answer_of_precomputed {path content : Bytes} (fp : FilePatch)
    (h : heldIn (minit sorter cfg w {}).precomputed path = some content) :
    answerAlone sorter cfg w path fp = .ok content := by
  rw [answerAlone, getPatched_fst, held, h]

theorem answer_of_not_precomputed {path : Bytes} (fp : FilePatch)
    (h : heldIn (minit sorter cfg w {}).precomputed path = none) :
    answerAlone sorter cfg w path fp = produce (minit sorter cfg w {}).baseDir w.disk path fp := by
  rw [answerAlone, getPatched_fst, held, h, cache_minit]
  simp only [ite_self]

/-! ## Where a request can be -/

/-- The phase is one on the way to the answer. -/
def OnWay (sorter : EntrySorter) (cfg : Config) (w : World) (g : Globals) (path : Bytes)
    (fp : FilePatch) : Phase → Prop
  | .idle => True
  | .started p q => p = path ∧ q = fp
  | .missed p q => p = path ∧ q = fp ∧ heldIn (minit sorter cfg w {}).precomputed path = none
  | .produced p content => p = path ∧ answerAlone sorter cfg w path fp = .ok content
  | .holding pointer => ∃ content, pointer.read g = some content ∧
      answerAlone sorter cfg w path fp = .ok content
  | .finished outcome => outcome = answerAlone sorter cfg w path fp

/-- What is held stays held. -/
structure Keeps (g g' : Globals) : Prop where
  setup : SameSetup g g'
  cache : ∀ path content, heldIn g.cache path = some content →
    heldIn g'.cache path = some content

theorem Keeps.refl (g : Globals) : Keeps g g := ⟨SameSetup.refl g, fun _ _ h => h⟩

theorem Keeps.of_same {g g' : Globals} (h : SameSetup g g' ∧ g'.cache = g.cache) : Keeps g g' :=
  ⟨h.1, fun _ _ hheld => by rwa [h.2]⟩

theorem Keeps.read {g g' : Globals} (h : Keeps g g') {pointer : Pointer} {content : Bytes}
    (hread : pointer.read g = some content) : pointer.read g' = some content := by
  cases pointer with
  | precomputed path => simpa [Pointer.read, h.setup.precomputed] using hread
  | cached path => exact h.cache path content hread
  | owned content' => exact hread

theorem OnWay.keeps {g g' : Globals} {path : Bytes} {fp : FilePatch} {phase : Phase}
    (h : OnWay sorter cfg w g path fp phase) (hkeeps : Keeps g g') :
    OnWay sorter cfg w g' path fp phase := by
  cases phase with
  | holding pointer =>
      obtain ⟨content, hread, hanswer⟩ := h
      exact ⟨content, hkeeps.read hread, hanswer⟩
  | idle | started | missed | produced | finished => exact h

/-- Every state: requests are on their way, and what is cached is an answer. -/
structure Linear (sorter : EntrySorter) (cfg : Config) (w : World) (h : History) : Prop where
  setup : SameSetup (minit sorter cfg w {}) h.threads.globals
  inputs : ∀ path fp, Found sorter cfg w path fp →
    SameInputs (minit sorter cfg w {}).baseDir w.disk h.threads.world.disk path fp
  cache : ∀ path content, heldIn h.threads.globals.cache path = some content →
    ∃ fp, Found sorter cfg w path fp ∧ answerAlone sorter cfg w path fp = .ok content
  phases : ∀ r, h.threads.phase r = .idle ∨ ∃ path fp, h.asked r = some (path, fp) ∧
    Found sorter cfg w path fp ∧
    OnWay sorter cfg w h.threads.globals path fp (h.threads.phase r)

/-- The states of the others stay as they are when one request moves on. -/
theorem Linear.move {h : History} (hlinear : Linear sorter cfg w h) {r : Nat} {path : Bytes}
    {fp : FilePatch} (hasked : h.asked r = some (path, fp)) (hfound : Found sorter cfg w path fp)
    {next : Phase} {g : Globals} (hkeeps : Keeps h.threads.globals g)
    (hcache : ∀ p content, heldIn g.cache p = some content →
      heldIn h.threads.globals.cache p = some content ∨
        p = path ∧ answerAlone sorter cfg w path fp = .ok content)
    (hnext : OnWay sorter cfg w g path fp next) :
    Linear sorter cfg w ⟨h.threads.move r next g, h.asked⟩ where
  setup := hlinear.setup.trans hkeeps.setup
  inputs := hlinear.inputs
  cache p content hheld := by
    rcases hcache p content hheld with hold | ⟨rfl, hanswer⟩
    · exact hlinear.cache p content hold
    · exact ⟨fp, hfound, hanswer⟩
  phases r' := by
    by_cases hr : r' = r
    · subst hr
      refine .inr ⟨path, fp, hasked, hfound, ?_⟩
      rw [Threads.move_phase]
      exact hnext
    · simp only [Threads.move_phase_ne _ hr]
      rcases hlinear.phases r' with hidle | ⟨path', fp', hasked', hfound', hway⟩
      · exact .inl hidle
      · exact .inr ⟨path', fp', hasked', hfound', hway.keeps hkeeps⟩

/-- A request in flight is for a section that was found. -/
theorem Linear.pending {h : History} (hlinear : Linear sorter cfg w h) {r : Nat} {phase : Phase}
    (hphase : h.threads.phase r = phase) (hpending : phase ≠ .idle) :
    ∃ path fp, h.asked r = some (path, fp) ∧ Found sorter cfg w path fp ∧
      OnWay sorter cfg w h.threads.globals path fp phase := by
  subst hphase
  exact (hlinear.phases r).resolve_left hpending

/-- A request that begins is on its way, whatever it was for before. -/
theorem Linear.begin {h : History} (hlinear : Linear sorter cfg w h) (r : Nat) {path : Bytes}
    {fp : FilePatch} (hfound : Found sorter cfg w path fp) :
    Linear sorter cfg w ⟨h.threads.move r (.started path fp) h.threads.globals,
      askedAfter h.asked (.begin r path fp)⟩ := by
  refine ⟨hlinear.setup, hlinear.inputs, hlinear.cache, fun r' => ?_⟩
  by_cases hr : r' = r
  · subst hr
    refine .inr ⟨path, fp, by simp [askedAfter], hfound, ?_⟩
    rw [Threads.move_phase]
    exact ⟨rfl, rfl⟩
  · simp only [askedAfter, Function.update_of_ne hr, Threads.move_phase_ne _ hr]
    exact hlinear.phases r'

/-- The lookup: what is held is the answer. -/
theorem Linear.lookup {h : History} (hlinear : Linear sorter cfg w h) {path : Bytes}
    {fp : FilePatch} (hfound : Found sorter cfg w path fp) :
    OnWay sorter cfg w h.threads.globals path fp (lookupStep cfg h.threads.globals path fp) := by
  have hsame := hlinear.setup.precomputed
  unfold lookupStep
  cases hpre : heldIn h.threads.globals.precomputed path with
  | some content => exact ⟨content, hpre, answer_of_precomputed fp (by rwa [← hsame])⟩
  | none =>
      simp only
      cases hheld : if cfg.cache then heldIn h.threads.globals.cache path else none with
      | none => exact ⟨rfl, rfl, by rwa [← hsame]⟩
      | some content =>
          have hcached : heldIn h.threads.globals.cache path = some content := by
            split at hheld
            · exact hheld
            · simp at hheld
          obtain ⟨fp', hfound', hanswer⟩ := hlinear.cache path content hcached
          obtain rfl := hfound.unique hfound'
          exact ⟨content, hcached, hanswer⟩

/-- The read and the application come to what is produced. -/
theorem applyStep_eq (cfg : Config) (w : World) (g : Globals) (path : Bytes) (fp : FilePatch) :
    (applyStep cfg w g path fp).1 =
        (match produce g.baseDir w.disk path fp with
        | .ok content => .produced path content
        | .skip => .finished .skip
        | .fail => .finished .fail) ∧
      SameSetup g (applyStep cfg w g path fp).2 ∧
      (applyStep cfg w g path fp).2.cache = g.cache := by
  unfold applyStep produce
  cases readOriginal w.disk path fp with
  | unreadable => exact ⟨rfl, sameSetup_readFailed g cfg.strict path⟩
  | halt => exact ⟨rfl, sameSetup_haltSkipped g cfg.strict path⟩
  | text original =>
      simp only
      cases (applyWith g.baseDir w.disk fp original []).1 with
      | error e => exact ⟨rfl, sameSetup_applyFailed g cfg.strict path e⟩
      | ok owned => exact ⟨rfl, SameSetup.refl g, rfl⟩

theorem Linear.apply {h : History} (hlinear : Linear sorter cfg w h) {path : Bytes}
    {fp : FilePatch} (hfound : Found sorter cfg w path fp)
    (hpre : heldIn (minit sorter cfg w {}).precomputed path = none) (g : Globals) :
    OnWay sorter cfg w g path fp
      (applyStep cfg h.threads.world h.threads.globals path fp).1 := by
  have hanswer : produce h.threads.globals.baseDir h.threads.world.disk path fp =
      answerAlone sorter cfg w path fp := by
    rw [answer_of_not_precomputed fp hpre, hlinear.setup.baseDir,
      produce_congr (hlinear.inputs path fp hfound)]
  rw [(applyStep_eq cfg _ _ path fp).1, hanswer]
  cases houtcome : answerAlone sorter cfg w path fp with
  | ok content => exact ⟨rfl, houtcome⟩
  | skip | fail => exact houtcome.symm

/-- A store adds an answer, and points to it. -/
theorem Linear.store {h : History} (hlinear : Linear sorter cfg w h) {path content : Bytes}
    {fp : FilePatch} (hfound : Found sorter cfg w path fp)
    (hanswer : answerAlone sorter cfg w path fp = .ok content) :
    Keeps h.threads.globals (storeStep cfg h.threads.globals path content).2 ∧
      (∀ p c, heldIn (storeStep cfg h.threads.globals path content).2.cache p = some c →
        heldIn h.threads.globals.cache p = some c ∨
          p = path ∧ answerAlone sorter cfg w path fp = .ok c) ∧
      OnWay sorter cfg w (storeStep cfg h.threads.globals path content).2 path fp
        (storeStep cfg h.threads.globals path content).1 := by
  obtain ⟨pointer, hpointer, hread⟩ := storeStep_read cfg h.threads.globals path content
  refine ⟨?_, ?_, ?_⟩
  · rw [storeStep_globals]
    split
    next =>
      refine ⟨⟨rfl, rfl, rfl, rfl, rfl, rfl⟩, fun p c hheld => ?_⟩
      cases hmap : h.threads.globals.cache with
      | none => simp [hmap, heldIn] at hheld
      | some m =>
          simp only [Option.map_some, heldIn_insert]
          split
          next hp =>
            -- what was there is the answer, too
            obtain ⟨fp', hfound', hanswer'⟩ := hlinear.cache p c hheld
            subst hp
            obtain rfl := hfound.unique hfound'
            rw [hanswer] at hanswer'
            exact congrArg some (Patched.ok.inj hanswer')
          next => rwa [hmap] at hheld
    next => exact Keeps.refl _
  · intro p c hheld
    rw [storeStep_globals] at hheld
    split at hheld
    next =>
      cases hmap : h.threads.globals.cache with
      | none => simp [hmap, heldIn] at hheld
      | some m =>
          simp only [hmap, Option.map_some, heldIn_insert] at hheld
          split at hheld
          next hp => exact .inr ⟨hp, hanswer.trans (congrArg Patched.ok (Option.some.inj hheld))⟩
          next => exact .inl hheld
    next => exact .inl hheld
  · rw [hpointer]
    exact ⟨content, hread, hanswer⟩

theorem linear_start : Linear sorter cfg w ⟨startThreads sorter cfg w, fun _ => none⟩ where
  setup := SameSetup.refl _
  inputs _ _ _ := ⟨fun _ => rfl, fun _ _ => rfl⟩
  cache path content hheld := by
    rw [startThreads, cache_minit] at hheld
    simp at hheld
  phases _ := .inl rfl

/-- Every step keeps it. -/
theorem Linear.step {h h' : History} (hlinear : Linear sorter cfg w h) {e : ThreadEvent}
    (hstep : (histories sorter cfg w).step h e h') : Linear sorter cfg w h' := by
  obtain ⟨threads', asked'⟩ := h'
  obtain ⟨hnext, rfl, hadmissible, _⟩ := hstep
  simp only at hnext
  cases e with
  | begin r path fp =>
      have hmove : threads' = h.threads.move r (.started path fp) h.threads.globals := by
        simp only [Threads.next] at hnext
        split at hnext
        all_goals simp_all
      subst hmove
      exact hlinear.begin r hadmissible
  | lookup r =>
      simp only [Threads.next] at hnext
      split at hnext
      next p q hphase =>
        obtain rfl := Option.some.inj hnext
        obtain ⟨path, fp, hasked, hfound, hway⟩ := hlinear.pending hphase (by simp)
        obtain ⟨rfl, rfl⟩ := hway
        exact hlinear.move hasked hfound (Keeps.refl _) (fun _ _ h => .inl h)
          (hlinear.lookup hfound)
      next => simp at hnext
  | apply r =>
      simp only [Threads.next] at hnext
      split at hnext
      next p q hphase =>
        obtain rfl := Option.some.inj hnext
        obtain ⟨path, fp, hasked, hfound, hway⟩ := hlinear.pending hphase (by simp)
        obtain ⟨rfl, rfl, hpre⟩ := hway
        have hsame := (applyStep_eq cfg h.threads.world h.threads.globals p q).2
        exact hlinear.move hasked hfound (Keeps.of_same hsame)
          (fun _ _ hheld => .inl (by rwa [hsame.2] at hheld)) (hlinear.apply hfound hpre _)
      next => simp at hnext
  | store r =>
      simp only [Threads.next] at hnext
      split at hnext
      next p content hphase =>
        obtain rfl := Option.some.inj hnext
        obtain ⟨path, fp, hasked, hfound, hway⟩ := hlinear.pending hphase (by simp)
        obtain ⟨rfl, hanswer⟩ := hway
        obtain ⟨hkeeps, hcache, hnext⟩ := hlinear.store hfound hanswer
        exact hlinear.move hasked hfound hkeeps hcache hnext
      next => simp at hnext
  | copy r =>
      simp only [Threads.next] at hnext
      split at hnext
      next pointer hphase =>
        obtain ⟨content, hread, rfl⟩ := Option.map_eq_some_iff.mp hnext
        obtain ⟨path, fp, hasked, hfound, hway⟩ := hlinear.pending hphase (by simp)
        obtain ⟨content', hread', hanswer⟩ := hway
        obtain rfl := Option.some.inj (hread.symm.trans hread')
        exact hlinear.move hasked hfound (Keeps.refl _) (fun _ _ h => .inl h) hanswer.symm
      next => simp at hnext
  | edit w' =>
      obtain rfl := Option.some.inj hnext
      exact ⟨hlinear.setup, hadmissible, hlinear.cache, hlinear.phases⟩

theorem linear_invariant (sorter : EntrySorter) (cfg : Config) (w : World) :
    (histories sorter cfg w).Invariant (Linear sorter cfg w) := by
  apply Transition.Inductive.invariant
  constructor
  · rintro _ rfl
    exact linear_start
  · exact fun _ _ _ hs hstep => hs.step hstep

/-- The step of its own that a request takes next. -/
def ownStep (r : Nat) : Phase → Option ThreadEvent
  | .idle | .finished _ => none
  | .started _ _ => some (.lookup r)
  | .missed _ _ => some (.apply r)
  | .produced _ _ => some (.store r)
  | .holding _ => some (.copy r)

/-- How many steps of its own a request has at most in front of it. -/
def stepsLeft : Phase → Nat
  | .idle | .finished _ => 0
  | .started _ _ => 4
  | .missed _ _ => 3
  | .produced _ _ => 2
  | .holding _ => 1

/-- The next step is there to be taken, and brings the request nearer to its end. -/
theorem Linear.ownStep {h : History} (hlinear : Linear sorter cfg w h) {r : Nat}
    {e : ThreadEvent} (he : ownStep r (h.threads.phase r) = some e) :
    ∃ threads', h.threads.next cfg e = some threads' ∧ threads'.phase r ≠ .idle ∧
      stepsLeft (threads'.phase r) < stepsLeft (h.threads.phase r) ∧
      ∀ r', r' ≠ r → threads'.phase r' = h.threads.phase r' := by
  have hothers : ∀ next g r', r' ≠ r →
      (h.threads.move r next g).phase r' = h.threads.phase r' :=
    fun next g _ hne => Threads.move_phase_ne h.threads hne next g
  cases hphase : h.threads.phase r with
  | idle | finished _ => simp [hphase, Theorems.ownStep] at he
  | started path fp =>
      rw [hphase] at he
      obtain rfl := Option.some.inj he
      refine ⟨_, by rw [Threads.next, hphase], ?_, ?_, hothers _ _⟩
      all_goals
        rw [Threads.move_phase]
        unfold lookupStep
        split
        · simp [stepsLeft]
        · split <;> simp [stepsLeft]
  | missed path fp =>
      rw [hphase] at he
      obtain rfl := Option.some.inj he
      refine ⟨_, by rw [Threads.next, hphase], ?_, ?_, hothers _ _⟩
      all_goals
        rw [Threads.move_phase, (applyStep_eq cfg h.threads.world h.threads.globals path fp).1]
        split <;> simp [stepsLeft]
  | produced path content =>
      rw [hphase] at he
      obtain rfl := Option.some.inj he
      refine ⟨_, by rw [Threads.next, hphase], ?_, ?_, hothers _ _⟩
      all_goals
        rw [Threads.move_phase]
        unfold storeStep
        split <;> simp [stepsLeft]
  | holding pointer =>
      rw [hphase] at he
      obtain rfl := Option.some.inj he
      -- the string is still there to be copied
      obtain ⟨path, fp, _, _, hway⟩ := hlinear.pending hphase (by simp)
      obtain ⟨content, hread, _⟩ := hway
      refine ⟨_, by simp only [Threads.next, hphase, hread]; rfl, ?_, ?_, hothers _ _⟩
      all_goals
        rw [Threads.move_phase]
        simp [stepsLeft]

/-! ## Bringing a request to its end -/

theorem spansAlone_histories (sorter : EntrySorter) (cfg : Config) (w : World) :
    (histories sorter cfg w).Invariant fun h => SpansAlone cfg h.threads := by
  apply Transition.Inductive.invariant
  constructor
  · rintro _ rfl _ r path hspan
    rw [inSpan_iff] at hspan
    simp [startThreads, Phase.spans] at hspan
  · rintro h e h' hspans ⟨hnext, _, _, halone⟩ hcfg
    exact hspans.step hnext (halone hcfg) hcfg

/-- A request has come to its end, and the others are where they were. -/
structure Finishes (h : History) (r : Nat) (h' : History) : Prop where
  asked : h'.asked = h.asked
  finished : ∃ outcome, h'.threads.phase r = .finished outcome
  others : ∀ r', r' ≠ r → h'.threads.phase r' = h.threads.phase r'

/-- Its own step, where the condition lets it be taken. -/
theorem step_ownStep {h : History} (hreach : (histories sorter cfg w).Reachable h) {r : Nat}
    {e : ThreadEvent} (he : ownStep r (h.threads.phase r) = some e)
    (halone : ∀ t, cfg.cache = true → MissesAlone cfg h.threads e t) :
    ∃ h', (histories sorter cfg w).step h e h' ∧ h'.asked = h.asked ∧
      h'.threads.phase r ≠ .idle ∧
      stepsLeft (h'.threads.phase r) < stepsLeft (h.threads.phase r) ∧
      ∀ r', r' ≠ r → h'.threads.phase r' = h.threads.phase r' := by
  have hlinear := linear_invariant sorter cfg w h hreach
  obtain ⟨threads', hnext, hmoved⟩ := hlinear.ownStep he
  have hown : askedAfter h.asked e = h.asked ∧ Admissible sorter cfg w e := by
    revert he
    cases h.threads.phase r with
    | idle | finished _ => exact nofun
    | started _ _ | missed _ _ | produced _ _ | holding _ =>
        rintro ⟨⟩
        exact ⟨rfl, trivial⟩
  exact ⟨⟨threads', h.asked⟩, ⟨hnext, hown.1.symm, hown.2, halone _⟩, rfl, hmoved⟩

/-- Behind its lookup a request needs nobody else. -/
theorem finishes_behind_lookup {h : History} (hreach : (histories sorter cfg w).Reachable h)
    {r : Nat} (hphase : h.threads.phase r ≠ .idle) (hbehind : stepsLeft (h.threads.phase r) ≤ 3) :
    ∃ es h', (histories sorter cfg w).Run h es h' ∧ Finishes h r h' := by
  cases hown : ownStep r (h.threads.phase r) with
  | none =>
      refine ⟨[], h, .nil h, rfl, ?_, fun _ _ => rfl⟩
      revert hown hphase
      cases h.threads.phase r with
      | finished outcome => exact fun _ _ => ⟨outcome, rfl⟩
      | idle => exact fun hidle _ => absurd rfl hidle
      | started _ _ | missed _ _ | produced _ _ | holding _ => exact nofun
  | some e =>
      have halone : ∀ t, cfg.cache = true → MissesAlone cfg h.threads e t := by
        intro t _
        revert hown hbehind
        cases h.threads.phase r with
        | idle | finished _ => exact nofun
        | started _ _ => exact fun hfour => absurd hfour (by simp [stepsLeft])
        | missed _ _ | produced _ _ | holding _ =>
            rintro _ ⟨⟩
            exact trivial
      obtain ⟨h₁, hstep, hasked, hphase₁, hless, hothers⟩ := step_ownStep hreach hown halone
      obtain ⟨es, h', hrun, hfinishes⟩ :=
        finishes_behind_lookup (hreach.step hstep) hphase₁ (by omega)
      exact ⟨e :: es, h', .cons hstep hrun, hfinishes.asked.trans hasked, hfinishes.finished,
        fun r' hne => (hfinishes.others r' hne).trans (hothers r' hne)⟩
  termination_by stepsLeft (h.threads.phase r)

/-- The lookup and what is behind it. -/
theorem finishes_from_lookup {h : History} (hreach : (histories sorter cfg w).Reachable h)
    {r : Nat} {path : Bytes} {fp : FilePatch} (hphase : h.threads.phase r = .started path fp)
    (halone : cfg.cache = true → ∀ r', ¬ InSpan h.threads r' path) :
    ∃ es h', (histories sorter cfg w).Run h es h' ∧ Finishes h r h' := by
  have hown : ownStep r (h.threads.phase r) = some (.lookup r) := by rw [hphase]; rfl
  obtain ⟨h₁, hstep, hasked, hphase₁, hless, hothers⟩ := step_ownStep hreach hown (by
    intro t hcfg path' fp' hstarted _
    rw [hphase] at hstarted
    obtain ⟨rfl, rfl⟩ := Phase.started.inj hstarted
    exact halone hcfg)
  rw [hphase, stepsLeft] at hless
  obtain ⟨es, h', hrun, hfinishes⟩ :=
    finishes_behind_lookup (hreach.step hstep) hphase₁ (by omega)
  exact ⟨_, h', .cons hstep hrun, hfinishes.asked.trans hasked, hfinishes.finished,
    fun r' hne => (hfinishes.others r' hne).trans (hothers r' hne)⟩

/-- A pending request can be brought to its end: at most one other has to store first. -/
theorem exists_finished {h : History} (hreach : (histories sorter cfg w).Reachable h) {r : Nat}
    (hpending : h.threads.phase r ≠ .idle) :
    ∃ es h', (histories sorter cfg w).Run h es h' ∧ h'.asked = h.asked ∧
      ∃ outcome, h'.threads.phase r = .finished outcome := by
  cases hphase : h.threads.phase r with
  | idle => exact absurd hphase hpending
  | missed _ _ | produced _ _ | holding _ | finished _ =>
      obtain ⟨es, h', hrun, hfinishes⟩ :=
        finishes_behind_lookup hreach hpending (by simp [hphase, stepsLeft])
      exact ⟨es, h', hrun, hfinishes.asked, hfinishes.finished⟩
  | started path fp =>
      by_cases halone : cfg.cache = true → ∀ r', ¬ InSpan h.threads r' path
      · obtain ⟨es, h', hrun, hfinishes⟩ := finishes_from_lookup hreach hphase halone
        exact ⟨es, h', hrun, hfinishes.asked, hfinishes.finished⟩
      · -- the one that is to store the path goes first
        push Not at halone
        obtain ⟨hcfg, r', hspan⟩ := halone
        have hne : r ≠ r' := by
          rintro rfl
          rw [inSpan_iff, hphase] at hspan
          cases hspan
        have hbehind : h.threads.phase r' ≠ .idle ∧ stepsLeft (h.threads.phase r') ≤ 3 := by
          rcases hspan with ⟨_, hmissed⟩ | ⟨_, hproduced⟩
          · simp [hmissed, stepsLeft]
          · simp [hproduced, stepsLeft]
        obtain ⟨es, h₁, hrun, hfinishes⟩ := finishes_behind_lookup hreach hbehind.1 hbehind.2
        have hphase₁ : h₁.threads.phase r = .started path fp :=
          (hfinishes.others r hne).trans hphase
        have halone₁ : cfg.cache = true → ∀ r'', ¬ InSpan h₁.threads r'' path := by
          intro _ r'' hspan''
          rw [inSpan_iff] at hspan''
          by_cases hr : r'' = r'
          · obtain ⟨outcome, hfinished⟩ := hfinishes.finished
            rw [hr, hfinished] at hspan''
            cases hspan''
          · rw [hfinishes.others r'' hr, ← inSpan_iff] at hspan''
            exact hr ((spansAlone_histories sorter cfg w h hreach hcfg r' path hspan).2 r''
              hspan'')
        obtain ⟨fs, h', hrun', hfinishes'⟩ :=
          finishes_from_lookup (hreach.run hrun) hphase₁ halone₁
        exact ⟨es ++ fs, h', hrun.append hrun', hfinishes'.asked.trans hfinishes.asked,
          hfinishes'.finished⟩

/-- What holds of the requests of a history. -/
structure Served (sorter : EntrySorter) (cfg : Config) (w : World) (h : History) : Prop where
  /-- no step replaces a stored string, so what a pointer leads to stays -/
  written_once : ∀ r path, ¬ Overwrites cfg h.threads r path
  answered : ∀ r outcome, h.threads.phase r = .finished outcome → ∃ path fp,
    h.asked r = some (path, fp) ∧ outcome = answerAlone sorter cfg w path fp
  unblocked : ∀ r e, ownStep r (h.threads.phase r) = some e → ∃ threads',
    h.threads.next cfg e = some threads' ∧
      stepsLeft (threads'.phase r) < stepsLeft (h.threads.phase r)
  ends : ∀ r, h.threads.phase r ≠ .idle → ∃ es h', (histories sorter cfg w).Run h es h' ∧
    h'.asked = h.asked ∧ ∃ outcome, h'.threads.phase r = .finished outcome

/-- **Requests on several threads.** In every state of every history nothing that is
stored can be replaced; a finished request has the answer it would have had alone after
startup; and a pending one can take its next step, which brings it nearer to its end,
and can be brought to that in a history. -/
theorem requests_linearize (sorter : EntrySorter) (cfg : Config) (w : World) :
    (histories sorter cfg w).Invariant (Served sorter cfg w) := by
  intro h hreach
  have hlinear := linear_invariant sorter cfg w h hreach
  refine ⟨(spansAlone_histories sorter cfg w h hreach).not_overwrites, fun r outcome hphase => ?_,
    fun r e he => ?_, fun r hpending => exists_finished hreach hpending⟩
  · obtain ⟨path, fp, hasked, _, hway⟩ := hlinear.pending hphase (by simp)
    exact ⟨path, fp, hasked, hway⟩
  · obtain ⟨threads', hnext, _, hless, _⟩ := hlinear.ownStep he
    exact ⟨threads', hnext, hless⟩

end Phpatcher.Theorems
