import Phpatcher.Glue.System

/-!
# Compile requests on several threads

`phpatcher_get_patched` and the copy of its result, cut where its locks are:
the locked lookup, the unlocked read and application, the locked store with the
publication of the pointer, the unlocked copy of the string behind it. Any
number of requests take these steps in any order; one request on its own does
what `phpatcherGetPatched` does (`alone_getPatched`).

`g_precomputed` is written at startup only, so asking it is part of the lookup.
-/

namespace Phpatcher.Glue

open Phpatcher.Basis Phpatcher.Core

/-- What a request holds a pointer to: an element of one of the maps, or its own
`owned`. -/
inductive Pointer where
  | precomputed (path : Bytes)
  | cached (path : Bytes)
  | owned (content : Bytes)
  deriving DecidableEq

/-- Where a request is. -/
inductive Phase where
  | idle
  /-- in front of the lookup -/
  | started (path : Bytes) (fp : FilePatch)
  /-- nothing was held, the file is to be read -/
  | missed (path : Bytes) (fp : FilePatch)
  /-- the content is produced, and not yet stored -/
  | produced (path content : Bytes)
  /-- the pointer is published, and the string behind it not yet copied -/
  | holding (pointer : Pointer)
  | finished (outcome : Patched)
  deriving DecidableEq

/-- The lookup. -/
def lookupStep (cfg : Config) (g : Globals) (path : Bytes) (fp : FilePatch) : Phase :=
  match heldIn g.precomputed path with
  | some _ => .holding (.precomputed path)
  | none =>
      match if cfg.cache then heldIn g.cache path else none with
      | some _ => .holding (.cached path)
      | none => .missed path fp

/-- The read and the application. -/
def applyStep (cfg : Config) (w : World) (g : Globals) (path : Bytes) (fp : FilePatch) :
    Phase × Globals :=
  match readOriginal w.disk path fp with
  | .unreadable => (.finished .fail, g.readFailed cfg.strict path)
  | .halt => (.finished .skip, g.haltSkipped cfg.strict path)
  | .text original =>
      match (applyWith g.baseDir w.disk fp original []).1 with
      | .error error => (.finished .fail, g.applyFailed cfg.strict path error)
      | .ok owned => (.produced path owned, g)

/-- The store, and the pointer. -/
def storeStep (cfg : Config) (g : Globals) (path owned : Bytes) : Phase × Globals :=
  match if cfg.cache then g.cache else none with
  | some m => (.holding (.cached path), { g with cache := some (m.insert path owned) })
  | none => (.holding (.owned owned), g)

/-- The string behind a pointer. A copy is a single step, which stands for all of the
copying only as long as nobody replaces the string meanwhile. -/
def Pointer.read (g : Globals) : Pointer → Option Bytes
  | precomputed path => heldIn g.precomputed path
  | cached path => heldIn g.cache path
  | owned content => some content

/-- The process: the world, the globals, and where each request is. -/
structure Threads where
  world : World
  globals : Globals
  phase : Nat → Phase

/-- What can happen next. -/
inductive ThreadEvent where
  /-- request `r` is for the section `fp` found under `path` -/
  | begin (r : Nat) (path : Bytes) (fp : FilePatch)
  | lookup (r : Nat)
  | apply (r : Nat)
  | store (r : Nat)
  | copy (r : Nat)
  | edit (w : World)

/-- Request `r` moves on. -/
def Threads.move (s : Threads) (r : Nat) (next : Phase) (g : Globals) : Threads :=
  { s with globals := g, phase := Function.update s.phase r next }

@[simp] theorem Threads.move_phase (s : Threads) (r : Nat) (next : Phase) (g : Globals) :
    (s.move r next g).phase r = next := by
  simp [move]

theorem Threads.move_phase_ne (s : Threads) {r r' : Nat} (h : r' ≠ r) (next : Phase)
    (g : Globals) : (s.move r next g).phase r' = s.phase r' := by
  simp [move, h]

@[simp] theorem Threads.move_globals (s : Threads) (r : Nat) (next : Phase) (g : Globals) :
    (s.move r next g).globals = g := rfl

@[simp] theorem Threads.move_world (s : Threads) (r : Nat) (next : Phase) (g : Globals) :
    (s.move r next g).world = s.world := rfl

@[simp] theorem Threads.move_move (s : Threads) (r : Nat) (a b : Phase) (g g' : Globals) :
    (s.move r a g).move r b g' = s.move r b g' := by
  simp [move]

/-- A step, where it can be taken. -/
def Threads.next (cfg : Config) (s : Threads) : ThreadEvent → Option Threads
  | .begin r path fp =>
      match s.phase r with
      | .idle | .finished _ => some (s.move r (.started path fp) s.globals)
      | _ => none
  | .lookup r =>
      match s.phase r with
      | .started path fp => some (s.move r (lookupStep cfg s.globals path fp) s.globals)
      | _ => none
  | .apply r =>
      match s.phase r with
      | .missed path fp =>
          let after := applyStep cfg s.world s.globals path fp
          some (s.move r after.1 after.2)
      | _ => none
  | .store r =>
      match s.phase r with
      | .produced path owned =>
          let after := storeStep cfg s.globals path owned
          some (s.move r after.1 after.2)
      | _ => none
  | .copy r =>
      match s.phase r with
      | .holding pointer =>
          (pointer.read s.globals).map fun content =>
            s.move r (.finished (.ok content)) s.globals
      | _ => none
  | .edit w => some { s with world := w }

/-- The process after startup. -/
def startThreads (sorter : EntrySorter) (cfg : Config) (w : World) : Threads where
  world := w
  globals := minit sorter cfg w {}
  phase _ := .idle

/-- The extension in a process with threads. -/
def threads (sorter : EntrySorter) (cfg : Config) : Transition Threads ThreadEvent where
  start s := ∃ w, s = startThreads sorter cfg w
  step s e t := s.next cfg e = some t

/-- Several steps. -/
def Threads.run (cfg : Config) (s : Threads) : List ThreadEvent → Option Threads
  | [] => some s
  | e :: events => (s.next cfg e).bind fun t => t.run cfg events

theorem Threads.run_append (cfg : Config) (s : Threads) (a b : List ThreadEvent) :
    s.run cfg (a ++ b) = (s.run cfg a).bind fun t => t.run cfg b := by
  induction a generalizing s with
  | nil => rfl
  | cons e a ih =>
      rw [List.cons_append, run, run]
      cases s.next cfg e with
      | none => rfl
      | some t => exact ih t

theorem reachable_run {sorter : EntrySorter} {cfg : Config} {s t : Threads}
    {events : List ThreadEvent} (hs : (threads sorter cfg).Reachable s)
    (h : s.run cfg events = some t) : (threads sorter cfg).Reachable t := by
  induction events generalizing s with
  | nil =>
      obtain rfl := Option.some.inj h
      exact hs
  | cons e events ih =>
      obtain ⟨s', hstep, hrest⟩ := Option.bind_eq_some_iff.mp h
      exact ih (.step hs hstep) hrest

/-! ## A request on its own -/

section

variable (cfg : Config) (s : Threads) {r : Nat}

theorem Threads.run_begin (hidle : s.phase r = .idle) (path : Bytes) (fp : FilePatch)
    (events : List ThreadEvent) :
    s.run cfg (.begin r path fp :: .lookup r :: events) =
      (s.move r (lookupStep cfg s.globals path fp) s.globals).run cfg events := by
  simp [Threads.run, Threads.next, hidle]

theorem Threads.run_apply (path : Bytes) (fp : FilePatch) (g : Globals)
    (events : List ThreadEvent) :
    (s.move r (.missed path fp) g).run cfg (.apply r :: events) =
      (s.move r (applyStep cfg s.world g path fp).1 (applyStep cfg s.world g path fp).2).run cfg
        events := by
  simp [Threads.run, Threads.next]

theorem Threads.run_copy {pointer : Pointer} {g : Globals} {content : Bytes}
    (h : pointer.read g = some content) :
    (s.move r (.holding pointer) g).run cfg [.copy r] =
      some (s.move r (.finished (.ok content)) g) := by
  simp [Threads.run, Threads.next, h]

/-- What was stored is what is copied. -/
theorem storeStep_read (g : Globals) (path owned : Bytes) :
    ∃ pointer, (storeStep cfg g path owned).1 = .holding pointer ∧
      pointer.read (storeStep cfg g path owned).2 = some owned := by
  unfold storeStep
  split
  · exact ⟨_, rfl, by simp [Pointer.read, heldIn_insert]⟩
  · exact ⟨_, rfl, rfl⟩

/-- What it leaves in the cache. -/
theorem storeStep_globals (g : Globals) (path owned : Bytes) :
    (storeStep cfg g path owned).2 =
      if cfg.cache then { g with cache := g.cache.map fun m => m.insert path owned } else g := by
  unfold storeStep
  cases hcache : cfg.cache with
  | false => rfl
  | true =>
      cases hmap : g.cache with
      | none =>
          show g = { g with cache := none }
          rw [← hmap]
      | some m => rfl

theorem Threads.run_store (path owned : Bytes) (g : Globals) :
    (s.move r (.produced path owned) g).run cfg [.store r, .copy r] =
      some (s.move r (.finished (.ok owned)) (storeStep cfg g path owned).2) := by
  obtain ⟨pointer, hpointer, hread⟩ := storeStep_read cfg g path owned
  have hcopy := s.run_copy cfg (r := r) hread
  rw [← hpointer] at hcopy
  rw [Threads.run, ← hcopy]
  simp [Threads.next]

end

/-- The steps a request takes without the others: as many as its outcome needs. -/
theorem alone_getPatched (cfg : Config) {s : Threads} {r : Nat} (hidle : s.phase r = .idle)
    (path : Bytes) (fp : FilePatch) :
    ∃ events, s.run cfg events =
      some (s.move r (.finished (phpatcherGetPatched cfg s.world s.globals path fp).1)
        (phpatcherGetPatched cfg s.world s.globals path fp).2) := by
  unfold phpatcherGetPatched
  cases hpre : heldIn s.globals.precomputed path with
  | some content =>
      have hlookup : lookupStep cfg s.globals path fp = .holding (.precomputed path) := by
        simp [lookupStep, hpre]
      refine ⟨[.begin r path fp, .lookup r, .copy r], ?_⟩
      rw [s.run_begin cfg hidle, hlookup]
      exact s.run_copy cfg hpre
  | none =>
      simp only
      cases hheld : if cfg.cache then heldIn s.globals.cache path else none with
      | some content =>
          have hlookup : lookupStep cfg s.globals path fp = .holding (.cached path) := by
            simp [lookupStep, hpre, hheld]
          have hcached : cfg.cache = true ∧ heldIn s.globals.cache path = some content := by
            simpa using hheld
          refine ⟨[.begin r path fp, .lookup r, .copy r], ?_⟩
          rw [s.run_begin cfg hidle, hlookup]
          exact s.run_copy cfg hcached.2
      | none =>
          have hlookup : lookupStep cfg s.globals path fp = .missed path fp := by
            simp [lookupStep, hpre, hheld]
          have hmissed : ∀ events,
              s.run cfg (.begin r path fp :: .lookup r :: .apply r :: events) =
                (s.move r (applyStep cfg s.world s.globals path fp).1
                  (applyStep cfg s.world s.globals path fp).2).run cfg events := by
            intro events
            rw [s.run_begin cfg hidle, hlookup, s.run_apply]
          cases horiginal : readOriginal s.world.disk path fp with
          | unreadable | halt =>
              refine ⟨[.begin r path fp, .lookup r, .apply r], ?_⟩
              rw [hmissed, applyStep, horiginal]
              rfl
          | text original =>
              simp only
              cases happly : (applyWith s.globals.baseDir s.world.disk fp original []).1 with
              | error e =>
                  refine ⟨[.begin r path fp, .lookup r, .apply r], ?_⟩
                  rw [hmissed]
                  simp only [applyStep, horiginal, happly]
                  rfl
              | ok owned =>
                  have hproduced : applyStep cfg s.world s.globals path fp =
                      (.produced path owned, s.globals) := by
                    simp [applyStep, horiginal, happly]
                  refine ⟨[.begin r path fp, .lookup r, .apply r, .store r, .copy r], ?_⟩
                  rw [hmissed, hproduced, s.run_store, storeStep_globals]
                  cases cfg.cache <;> rfl

end Phpatcher.Glue
