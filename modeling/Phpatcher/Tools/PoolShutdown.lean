import Phpatcher.Basis.Progress

/-!
# The coprocesses of the pool, and their end

`Normalizer::start` and `~Normalizer`, as `process_normalized_parallel` uses them. The
pipes are not marked close-on-exec: a coprocess closes its own copies of the pipe it was
started with, and keeps copies of the write ends that the indexer had open when it
forked. A coprocess that waits for a request ends at the end of its input, and that is
reached when no process has the write end any more.

The elements of a vector are destroyed in an order that is the library's.
-/

namespace Phpatcher.Tools

open Phpatcher.Basis

/-- A coprocess, with the write ends it has by inheritance. -/
structure Child where
  running : Bool := true
  inherited : List Nat
  deriving DecidableEq, Repr

/-- The open `wr_` of the indexer, and the coprocesses, by number. -/
structure NormalizerPool where
  opened : List Nat := []
  children : List Child := []
  deriving DecidableEq, Repr

/-- `Normalizer::start`. -/
def NormalizerPool.start (p : NormalizerPool) : NormalizerPool where
  opened := p.opened ++ [p.children.length]
  children := p.children ++ [{ inherited := p.opened }]

/-- The coprocesses are started one after the other. -/
def startAll : Nat → NormalizerPool
  | 0 => {}
  | n + 1 => (startAll n).start

/-- Some process has the write end of the pipe to `j`. -/
def NormalizerPool.Held (p : NormalizerPool) (j : Nat) : Prop :=
  j ∈ p.opened ∨ ∃ c ∈ p.children, c.running = true ∧ j ∈ c.inherited

instance (p : NormalizerPool) (j : Nat) : Decidable (p.Held j) :=
  inferInstanceAs (Decidable (_ ∨ _))

/-- The elements that are left, the first of which is being destroyed, and whether the
indexer is in its `waitpid`. -/
structure Shutdown where
  pool : NormalizerPool
  left : List Nat
  waiting : Bool := false

inductive ShutdownEvent where
  | close
  | exit (j : Nat)
  | reap

/-- The steps of `~Normalizer`, and the end of a coprocess. -/
inductive Shutdown.Step : Shutdown → ShutdownEvent → Shutdown → Prop
  | close {s : Shutdown} {j : Nat} {rest : List Nat} (hleft : s.left = j :: rest)
      (hwaiting : s.waiting = false) :
      Step s .close
        { s with pool := { s.pool with opened := s.pool.opened.erase j }, waiting := true }
  | exit {s : Shutdown} {j : Nat} {c : Child} (hchild : s.pool.children[j]? = some c)
      (hrunning : c.running = true) (heof : ¬ s.pool.Held j) :
      Step s (.exit j)
        { s with pool :=
            { s.pool with children := s.pool.children.set j { c with running := false } } }
  | reap {s : Shutdown} {j : Nat} {rest : List Nat} {c : Child} (hleft : s.left = j :: rest)
      (hwaiting : s.waiting = true) (hchild : s.pool.children[j]? = some c)
      (hgone : c.running = false) :
      Step s .reap { s with left := rest, waiting := false }

/-- `nz.clear()`, for `n` coprocesses that are all waiting for a request. -/
def shutdown (n : Nat) (order : List Nat) : Transition Shutdown ShutdownEvent where
  start s := s = { pool := startAll n, left := order }
  step := Shutdown.Step

/-! ## The end, as far as it comes -/

/-- The coprocess `j` ends if it can. -/
def NormalizerPool.endAt (p : NormalizerPool) (j : Nat) : NormalizerPool :=
  match p.children[j]? with
  | none => p
  | some c =>
      if c.running = true ∧ ¬ p.Held j then
        { p with children := p.children.set j { c with running := false } }
      else p

/-- Those below a number end if they can. What one of them keeps open belongs to an
earlier one, so they are asked from the last to the first. -/
def NormalizerPool.settle : Nat → NormalizerPool → NormalizerPool
  | 0, p => p
  | j + 1, p => settle j (p.endAt j)

/-- `nz.clear()`, with the elements in the order in which they are destroyed; nothing
when the `waitpid` for one of them never returns. -/
def NormalizerPool.clear : List Nat → NormalizerPool → Option NormalizerPool
  | [], p => some p
  | j :: rest, p =>
      let p := settle p.children.length { p with opened := p.opened.erase j }
      match p.children[j]? with
      | some { running := false, .. } => clear rest p
      | _ => none

/-- In which order the library destroys the elements of a vector. -/
structure Destruction where
  order : Nat → List Nat
  perm : ∀ n, (order n).Perm (List.range n)

/-- From the first to the last, as libstdc++ does. -/
def Destruction.forward : Destruction := ⟨List.range, fun _ => .refl _⟩

/-- From the last to the first. -/
def Destruction.backward : Destruction :=
  ⟨fun n => (List.range n).reverse, fun _ => List.reverse_perm _⟩

/-- With this order `n` coprocesses are all reaped. -/
def Destruction.Reaps (d : Destruction) (n : Nat) : Prop := n ≤ 1 ∨ (d.order n).Pairwise (· > ·)

instance (d : Destruction) (n : Nat) : Decidable (d.Reaps n) :=
  inferInstanceAs (Decidable (_ ∨ _))

/-! ## What was started -/

theorem length_startAll (n : Nat) : (startAll n).children.length = n := by
  induction n with
  | zero => rfl
  | succ n ih => rw [startAll, NormalizerPool.start, List.length_append, ih, List.length_singleton]

theorem opened_startAll (n : Nat) : (startAll n).opened = List.range n := by
  induction n with
  | zero => rfl
  | succ n ih =>
      rw [startAll, NormalizerPool.start, ih, length_startAll, List.range_succ]

/-- A coprocess has the write ends of those started before it. -/
theorem child_startAll {n j : Nat} {c : Child} (h : (startAll n).children[j]? = some c) :
    c.running = true ∧ c.inherited = List.range j := by
  induction n with
  | zero => simp [startAll] at h
  | succ n ih =>
      rw [startAll, NormalizerPool.start] at h
      simp only at h
      rcases Nat.lt_or_ge j n with hlt | hge
      · rw [List.getElem?_append_left (by rw [length_startAll]; exact hlt)] at h
        exact ih h
      · rw [List.getElem?_append_right (by rw [length_startAll]; exact hge), length_startAll] at h
        have hj : j = n := by
          by_contra hne
          rw [List.getElem?_eq_none (by rw [List.length_singleton]; omega)] at h
          cases h
        subst hj
        rw [Nat.sub_self] at h
        obtain rfl := Option.some.inj h
        exact ⟨rfl, opened_startAll j⟩

end Phpatcher.Tools
