import Phpatcher.Glue.Threads

/-!
# Cached content on several threads

The lock covers the lookup and the store, not the span between them: two
requests that both miss a path both store it, and the second store replaces the
string the first one published (`two_misses_overwrite`). As long as no request
misses a path while another is in that span, nothing is ever replaced
(`written_once`).
-/

namespace Phpatcher.Theorems

open Phpatcher.Basis Phpatcher.Core Phpatcher.Glue

/-- The request missed the path and has not stored it yet. -/
def InSpan (s : Threads) (r : Nat) (path : Bytes) : Prop :=
  (∃ fp, s.phase r = .missed path fp) ∨ ∃ owned, s.phase r = .produced path owned

/-- The next step of the request replaces the string stored for the path. -/
def Overwrites (cfg : Config) (s : Threads) (r : Nat) (path : Bytes) : Prop :=
  cfg.cache = true ∧ (∃ owned, s.phase r = .produced path owned) ∧
    (heldIn s.globals.cache path).isSome

/-- No step that can be taken now replaces a string that another request holds a
pointer to and has not copied. -/
def WriteOnce (cfg : Config) (s : Threads) : Prop :=
  ∀ r r' path, r' ≠ r → Overwrites cfg s r path → s.phase r' ≠ .holding (.cached path)

/-- A lookup misses a path only where no request is in the span for it. -/
def MissesAlone (cfg : Config) (s : Threads) : ThreadEvent → Threads → Prop
  | .lookup r, _ => ∀ path fp, s.phase r = .started path fp →
      lookupStep cfg s.globals path fp = .missed path fp → ∀ r', ¬ InSpan s r' path
  | _, _ => True

/-! ## One request in the span -/

/-- With the cache on, a path in somebody's span is not stored, and there is
nobody else in its span. -/
def SpansAlone (cfg : Config) (s : Threads) : Prop :=
  cfg.cache = true → ∀ r path, InSpan s r path →
    heldIn s.globals.cache path = none ∧ ∀ r', InSpan s r' path → r' = r

/-- The phase of a request in a span. -/
def Phase.spans : Phase → Option Bytes
  | .missed path _ | .produced path _ => some path
  | _ => none

theorem inSpan_iff {s : Threads} {r : Nat} {path : Bytes} :
    InSpan s r path ↔ Phase.spans (s.phase r) = some path := by
  unfold InSpan Phase.spans
  cases s.phase r <;> simp

theorem inSpan_move_ne {s : Threads} {r r' : Nat} (h : r' ≠ r) (next : Phase) (g : Globals)
    (path : Bytes) : InSpan (s.move r next g) r' path ↔ InSpan s r' path := by
  rw [inSpan_iff, inSpan_iff, Threads.move_phase_ne s h]

/-- A request that moves within its span, or out of it, or stays outside, while
the cache is as it was. -/
theorem SpansAlone.move {cfg : Config} {s : Threads} (h : SpansAlone cfg s) {r : Nat}
    {next : Phase} {g : Globals} (hcache : g.cache = s.globals.cache)
    (hnext : ∀ path, Phase.spans next = some path → InSpan s r path) :
    SpansAlone cfg (s.move r next g) := by
  have hback : ∀ r' path, InSpan (s.move r next g) r' path → InSpan s r' path := by
    intro r' path hspan
    by_cases hr : r' = r
    · subst hr
      rw [inSpan_iff, Threads.move_phase] at hspan
      exact hnext path hspan
    · exact (inSpan_move_ne hr next g path).mp hspan
  intro hcfg r' path hspan
  obtain ⟨hnone, honly⟩ := h hcfg r' path (hback r' path hspan)
  rw [Threads.move_globals, hcache]
  exact ⟨hnone, fun r'' hspan' => honly r'' (hback r'' path hspan')⟩

/-- A miss, where nobody is in the span. -/
theorem SpansAlone.miss {cfg : Config} {s : Threads} (h : SpansAlone cfg s) {r : Nat}
    {path : Bytes} {fp : FilePatch}
    (hmissed : cfg.cache = true → heldIn s.globals.cache path = none)
    (halone : ∀ r', ¬ InSpan s r' path) :
    SpansAlone cfg (s.move r (.missed path fp) s.globals) := by
  intro hcfg r' path' hspan
  by_cases hpath : path' = path
  · subst hpath
    refine ⟨hmissed hcfg, fun r'' hspan' => ?_⟩
    -- everybody in the span is the request that missed now
    have hme : ∀ r'', InSpan (s.move r (.missed path' fp) s.globals) r'' path' → r'' = r := by
      intro r'' hspan''
      by_contra hne
      exact halone r'' ((inSpan_move_ne hne _ _ path').mp hspan'')
    rw [hme r'' hspan', hme r' hspan]
  · have hback : ∀ r'', InSpan (s.move r (.missed path fp) s.globals) r'' path' →
        InSpan s r'' path' := by
      intro r'' hspan''
      by_cases hr : r'' = r
      · subst hr
        rw [inSpan_iff, Threads.move_phase] at hspan''
        exact absurd (Option.some.inj hspan'').symm hpath
      · exact (inSpan_move_ne hr _ _ path').mp hspan''
    obtain ⟨hnone, honly⟩ := h hcfg r' path' (hback r' hspan)
    exact ⟨hnone, fun r'' hspan' => honly r'' (hback r'' hspan')⟩

/-- A store takes its request out of the span; the other paths are as before. -/
theorem SpansAlone.store {cfg : Config} {s : Threads} (h : SpansAlone cfg s) {r : Nat}
    {path owned : Bytes} (hproduced : s.phase r = .produced path owned) :
    SpansAlone cfg (s.move r (storeStep cfg s.globals path owned).1
      (storeStep cfg s.globals path owned).2) := by
  intro hcfg r' path' hspan
  have hin : InSpan s r path := .inr ⟨owned, hproduced⟩
  have hout : Phase.spans (storeStep cfg s.globals path owned).1 = none := by
    unfold storeStep
    split <;> rfl
  have hback : ∀ r'', InSpan (s.move r (storeStep cfg s.globals path owned).1
      (storeStep cfg s.globals path owned).2) r'' path' → r'' ≠ r ∧ InSpan s r'' path' := by
    intro r'' hspan''
    by_cases hr : r'' = r
    · subst hr
      rw [inSpan_iff, Threads.move_phase, hout] at hspan''
      simp at hspan''
    · exact ⟨hr, (inSpan_move_ne hr _ _ path').mp hspan''⟩
  obtain ⟨hne, hspan₀⟩ := hback r' hspan
  obtain ⟨hnone, honly⟩ := h hcfg r' path' hspan₀
  refine ⟨?_, fun r'' hspan' => honly r'' (hback r'' hspan').2⟩
  -- the path stored is another one, as its span is that of `r`
  have hpath : path' ≠ path := by
    rintro rfl
    exact hne ((h hcfg r path' hin).2 r' hspan₀)
  rw [Threads.move_globals, storeStep, hcfg, if_pos rfl]
  cases hmap : s.globals.cache with
  | none =>
      simp only [hmap]
      rfl
  | some m =>
      rw [hmap] at hnone
      simp only [heldIn_insert, if_neg hpath, hnone]

/-- Reading and applying does not touch the cache. -/
theorem applyStep_cache (cfg : Config) (w : World) (g : Globals) (path : Bytes) (fp : FilePatch) :
    (applyStep cfg w g path fp).2.cache = g.cache ∧
      ∀ p, Phase.spans (applyStep cfg w g path fp).1 = some p → p = path := by
  unfold applyStep
  cases readOriginal w.disk path fp with
  | unreadable => exact ⟨(sameSetup_readFailed g cfg.strict path).2, by simp [Phase.spans]⟩
  | halt => exact ⟨(sameSetup_haltSkipped g cfg.strict path).2, by simp [Phase.spans]⟩
  | text original =>
      simp only
      cases (applyWith g.baseDir w.disk fp original []).1 with
      | error e => exact ⟨(sameSetup_applyFailed g cfg.strict path e).2, by simp [Phase.spans]⟩
      | ok owned => exact ⟨rfl, by simp [Phase.spans, eq_comm]⟩

/-- A lookup that misses found nothing in the cache. -/
theorem lookupStep_spans {cfg : Config} {g : Globals} {path p : Bytes} {fp : FilePatch}
    (h : Phase.spans (lookupStep cfg g path fp) = some p) :
    lookupStep cfg g path fp = .missed path fp ∧
      (cfg.cache = true → heldIn g.cache path = none) := by
  unfold lookupStep at h ⊢
  split at h
  · simp [Phase.spans] at h
  · split at h
    · simp [Phase.spans] at h
    next hnone =>
      exact ⟨rfl, fun hcfg => by simpa [hcfg] using hnone⟩

/-- One step keeps the spans apart. -/
theorem SpansAlone.step {cfg : Config} {s t : Threads} (h : SpansAlone cfg s) {e : ThreadEvent}
    (hstep : s.next cfg e = some t) (halone : MissesAlone cfg s e t) : SpansAlone cfg t := by
  cases e with
  | begin r path fp =>
      simp only [Threads.next] at hstep
      split at hstep
      -- it was idle, it had finished, or it is busy
      · rw [← Option.some.inj hstep]
        exact h.move rfl (by simp [Phase.spans])
      · rw [← Option.some.inj hstep]
        exact h.move rfl (by simp [Phase.spans])
      · simp at hstep
  | lookup r =>
      simp only [Threads.next] at hstep
      split at hstep
      next path fp hstarted =>
        rw [← Option.some.inj hstep]
        cases hspans : Phase.spans (lookupStep cfg s.globals path fp) with
        | none => exact h.move rfl (by simp [hspans])
        | some p =>
            obtain ⟨hmissed, hnone⟩ := lookupStep_spans hspans
            rw [hmissed]
            exact h.miss hnone (halone path fp hstarted hmissed)
      next => simp at hstep
  | apply r =>
      simp only [Threads.next] at hstep
      split at hstep
      next path fp hmissed =>
        obtain ⟨hcache, hspans⟩ := applyStep_cache cfg s.world s.globals path fp
        rw [← Option.some.inj hstep]
        refine h.move hcache fun p hp => ?_
        rw [hspans p hp]
        exact .inl ⟨fp, hmissed⟩
      next => simp at hstep
  | store r =>
      simp only [Threads.next] at hstep
      split at hstep
      next path owned hproduced =>
        rw [← Option.some.inj hstep]
        exact h.store hproduced
      next => simp at hstep
  | copy r =>
      simp only [Threads.next] at hstep
      split at hstep
      next pointer _ =>
        obtain ⟨content, _, rfl⟩ := Option.map_eq_some_iff.mp hstep
        exact h.move rfl (by simp [Phase.spans])
      next => simp at hstep
  | edit w =>
      rw [← Option.some.inj hstep]
      exact h

theorem spansAlone_invariant (sorter : EntrySorter) (cfg : Config) :
    ((threads sorter cfg).restrict (fun _ => True) (MissesAlone cfg)).Invariant
      (SpansAlone cfg) := by
  apply Transition.Inductive.invariant
  constructor
  · rintro _ ⟨⟨w, rfl⟩, _⟩ _ r path hspan
    rw [inSpan_iff] at hspan
    simp [startThreads, Phase.spans] at hspan
  · rintro s e t hs ⟨hstep, halone⟩
    exact hs.step hstep halone

/-- Then no step replaces anything. -/
theorem SpansAlone.not_overwrites {cfg : Config} {s : Threads} (h : SpansAlone cfg s) (r : Nat)
    (path : Bytes) : ¬ Overwrites cfg s r path := by
  rintro ⟨hcfg, hproduced, hstored⟩
  rw [(h hcfg r path (.inr hproduced)).1] at hstored
  simp at hstored

/-! ## Two requests in the span -/

/-- A request in the span that has its content, or would get it now. -/
def CanStore (s : Threads) (r : Nat) (path : Bytes) : Prop :=
  (∃ owned, s.phase r = .produced path owned) ∨
    ∃ fp content, s.phase r = .missed path fp ∧
      produce s.globals.baseDir s.world.disk path fp = .ok content

/-- It gets as far as its store without changing anything else. -/
theorem CanStore.reach {cfg : Config} {s : Threads} {r : Nat} {path : Bytes}
    (h : CanStore s r path) :
    ∃ events owned, s.run cfg events = some (s.move r (.produced path owned) s.globals) := by
  rcases h with ⟨owned, hproduced⟩ | ⟨fp, content, hmissed, hproduce⟩
  · refine ⟨[], owned, ?_⟩
    have hsame : s.move r (.produced path owned) s.globals = s := by
      rw [Threads.move, ← hproduced, Function.update_eq_self]
    rw [hsame]
    rfl
  · refine ⟨[.apply r], content, ?_⟩
    unfold produce at hproduce
    cases horiginal : readOriginal s.world.disk path fp with
    | unreadable | halt => simp [horiginal] at hproduce
    | text original =>
        simp only [horiginal] at hproduce
        cases happly : (applyWith s.globals.baseDir s.world.disk fp original []).1 with
        | error e => simp [happly] at hproduce
        | ok owned =>
            obtain rfl : owned = content := by simpa [happly] using hproduce
            simp [Threads.run, Threads.next, hmissed, applyStep, horiginal, happly]

/-- From a state with two such requests for one path, the first store publishes
a string and the second one replaces it. -/
theorem overwrite_of_two {cfg : Config} {s : Threads} {r r' : Nat} {path : Bytes}
    (hcfg : cfg.cache = true) (hmap : s.globals.cache ≠ none) (hne : r' ≠ r)
    (hr : CanStore s r path) (hr' : CanStore s r' path) :
    ∃ events t, s.run cfg events = some t ∧ ¬ WriteOnce cfg t := by
  obtain ⟨m, hm⟩ := Option.ne_none_iff_exists'.mp hmap
  obtain ⟨events, owned, hrun⟩ := @hr.reach cfg
  have hr'' : CanStore (s.move r (.produced path owned) s.globals) r' path := by
    unfold CanStore
    rw [Threads.move_phase_ne s hne]
    exact hr'
  obtain ⟨events', owned', hrun'⟩ := @hr''.reach cfg
  rw [Threads.move_globals] at hrun'
  generalize hs₂ : (s.move r (.produced path owned) s.globals).move r' (.produced path owned')
    s.globals = s₂ at hrun'
  have hphase : s₂.phase r = .produced path owned := by
    rw [← hs₂, Threads.move_phase_ne _ hne.symm, Threads.move_phase]
  have hphase' : s₂.phase r' = .produced path owned' := by
    rw [← hs₂, Threads.move_phase]
  have hmap₂ : s₂.globals.cache = some m := by
    rw [← hs₂]
    exact hm
  refine ⟨events ++ (events' ++ [.store r']),
    s₂.move r' (.holding (.cached path)) { s₂.globals with cache := some (m.insert path owned') },
    ?_, fun honce => ?_⟩
  · rw [Threads.run_append, hrun, Option.bind_some, Threads.run_append]
    rw [hrun', Option.bind_some]
    simp [Threads.run, Threads.next, hphase', storeStep, hcfg, hmap₂]
  · refine honce r r' path hne ⟨hcfg, ⟨owned, ?_⟩, ?_⟩ (Threads.move_phase _ _ _ _)
    · rw [Threads.move_phase_ne _ hne.symm, hphase]
    · simp [heldIn_insert]

/-- **Written once.** In every run in which a lookup misses a path only while no
other request is between its own miss of that path and its store, nothing stored
is ever replaced. And where two requests are in that span, their contents
produced or about to be, the run can go on to a state in which a step replaces a
string the other request holds a pointer to. -/
theorem written_once (sorter : EntrySorter) (cfg : Config) :
    (((threads sorter cfg).restrict (fun _ => True) (MissesAlone cfg)).Invariant fun s =>
      WriteOnce cfg s ∧ ∀ r path, ¬ Overwrites cfg s r path) ∧
    ∀ s r r' path, cfg.cache = true → s.globals.cache ≠ none → r' ≠ r → CanStore s r path →
      CanStore s r' path → ∃ events t, s.run cfg events = some t ∧ ¬ WriteOnce cfg t := by
  refine ⟨fun s hreach => ?_, fun s r r' path hcfg hmap hne hr hr' =>
    overwrite_of_two hcfg hmap hne hr hr'⟩
  have hnever := (spansAlone_invariant sorter cfg s hreach).not_overwrites
  exact ⟨fun r r' path _ hover => absurd hover (hnever r path), hnever⟩

/-! ## A schedule that overwrites -/

/-- `/a.php`, and a patch that deletes its first line. -/
def oneFileWorld : World where
  disk p :=
    if p = ascii "/a.php" then some (ascii "x\ny\n")
    else if p = ascii "/patch" then some (ascii "# phpatcher-ed\n# file: /a.php\n1d\n")
    else none
  os := ⟨some, some (ascii "/")⟩
  vcwdRealpath := some
  vcwdGetcwd := some (ascii "/")
  engineResolve := some

/-- Two requests for `/a.php` that look it up one after the other, and the first
one's store. -/
def racingSchedule : List ThreadEvent :=
  let fp : FilePatch := { commands := [{ kind := .delete, start := 1, end_ := 1 }] }
  [.begin 0 (ascii "/a.php") fp, .begin 1 (ascii "/a.php") fp, .lookup 0, .lookup 1, .apply 0,
    .apply 1, .store 0]

/-- The store of the second request replaces what the first one has not copied. -/
theorem two_misses_overwrite :
    let cfg : Config := { patchFile := ascii "/patch", precompute := false }
    ¬ (threads (Sorter.stable Prod.fst) cfg).Invariant (WriteOnce cfg) := by
  intro cfg hinvariant
  have hrun : ((startThreads (Sorter.stable Prod.fst) cfg oneFileWorld).run cfg racingSchedule).map
      (fun t => (t.phase 0, t.phase 1, heldIn t.globals.cache (ascii "/a.php"))) =
      some (.holding (.cached (ascii "/a.php")), .produced (ascii "/a.php") (ascii "y\n"),
        some (ascii "y\n")) := by decide +kernel
  obtain ⟨t, ht, hvalues⟩ := Option.map_eq_some_iff.mp hrun
  obtain ⟨hholding, hvalues⟩ := Prod.mk.inj hvalues
  obtain ⟨hproduced, hstored⟩ := Prod.mk.inj hvalues
  have honce := hinvariant t (reachable_run (.start ⟨_, rfl⟩) ht)
  exact honce 1 0 (ascii "/a.php") (by decide) ⟨rfl, ⟨_, hproduced⟩, by rw [hstored]; rfl⟩ hholding

end Phpatcher.Theorems
