import Mathlib.Logic.Function.Basic
import Mathlib.Tactic

/-!
# Chains of hooks

A function pointer that extensions put themselves in front of: each saves the
pointer it found and sets its own, and takes itself out only where it is still the
first. What the pointers stand for is a stack of extensions above the engine, as
long as nobody hooks in twice.
-/

namespace Phpatcher.Basis

variable {ι : Type}

/-- The pointer and what each extension saved; `none` for a pointer is the engine's
own function, `none` for what was saved the null pointer. -/
structure HookChain (ι : Type) where
  head : Option ι := none
  saved : ι → Option (Option ι) := fun _ => none

namespace HookChain

/-- The engine sets its own function. -/
def reset (c : HookChain ι) : HookChain ι := { c with head := none }

/-- From a pointer on, the saved pointers lead through these extensions to the
engine. -/
inductive Linked (saved : ι → Option (Option ι)) : Option ι → List ι → Prop
  | engine : Linked saved none []
  | link {i next rest} : saved i = some next → Linked saved next rest →
      Linked saved (some i) (i :: rest)

/-- The chain stands for a stack in which no extension occurs twice. -/
structure Represents (c : HookChain ι) (stack : List ι) : Prop where
  linked : Linked c.saved c.head stack
  nodup : stack.Nodup

theorem Linked.unique {saved : ι → Option (Option ι)} {h : Option ι} {a b : List ι}
    (ha : Linked saved h a) (hb : Linked saved h b) : a = b := by
  induction ha generalizing b with
  | engine =>
      cases hb with
      | engine => rfl
  | link hsaved _ ih =>
      cases hb with
      | link hsaved' hrest' =>
          obtain rfl := Option.some.inj (hsaved.symm.trans hsaved')
          rw [ih hrest']

theorem Linked.head?_eq {saved : ι → Option (Option ι)} {h : Option ι} {stack : List ι}
    (hlinked : Linked saved h stack) : stack.head? = h := by
  cases hlinked <;> rfl

theorem Represents.unique {c : HookChain ι} {a b : List ι} (ha : c.Represents a)
    (hb : c.Represents b) : a = b := ha.linked.unique hb.linked

theorem Represents.reset (c : HookChain ι) : c.reset.Represents [] where
  linked := .engine
  nodup := List.nodup_nil

/-! ## Hooking in and out -/

section

variable [DecidableEq ι]

/-- An extension saves the pointer and sets its own. -/
def install (c : HookChain ι) (i : ι) : HookChain ι where
  head := some i
  saved := Function.update c.saved i (some c.head)

/-- An extension that saved a pointer, and whose own is still set, puts it back. -/
def remove (c : HookChain ι) (i : ι) : HookChain ι :=
  match c.saved i with
  | some next =>
      if c.head = some i then { head := next, saved := Function.update c.saved i none } else c
  | none => c

/-- An extension takes itself off the stack where it is on top. -/
def popIf (i : ι) (stack : List ι) : List ι :=
  if stack.head? = some i then stack.tail else stack

/-- What an extension outside the chain saved does not matter. -/
theorem Linked.update {saved : ι → Option (Option ι)} {h : Option ι} {stack : List ι}
    (hlinked : Linked saved h stack) {i : ι} (hi : i ∉ stack) (v : Option (Option ι)) :
    Linked (Function.update saved i v) h stack := by
  induction hlinked with
  | engine => exact .engine
  | link hsaved _ ih =>
      rw [List.mem_cons, not_or] at hi
      refine .link ?_ (ih hi.2)
      rw [Function.update_of_ne (Ne.symm hi.1)]
      exact hsaved

theorem Represents.install {c : HookChain ι} {stack : List ι} (h : c.Represents stack) {i : ι}
    (hi : i ∉ stack) : (c.install i).Represents (i :: stack) where
  linked := .link (Function.update_self ..) (h.linked.update hi _)
  nodup := List.nodup_cons.mpr ⟨hi, h.nodup⟩

theorem Represents.remove {c : HookChain ι} {stack : List ι} (h : c.Represents stack) (i : ι) :
    (c.remove i).Represents (popIf i stack) := by
  have hhead := h.linked.head?_eq
  unfold popIf HookChain.remove
  by_cases htop : c.head = some i
  · rw [hhead, if_pos htop]
    have hlinked := h.linked
    have hnodup := h.nodup
    rw [htop] at hlinked
    cases hlinked with
    | link hsaved hrest =>
        rw [List.nodup_cons] at hnodup
        rw [hsaved]
        simp only [if_pos htop, List.tail_cons]
        exact ⟨hrest.update hnodup.1 _, hnodup.2⟩
  · rw [hhead, if_neg htop]
    split
    · rwa [if_neg htop]
    · exact h

theorem mem_popIf {i j : ι} {stack : List ι} (h : j ∈ popIf i stack) : j ∈ stack := by
  unfold popIf at h
  split at h
  · exact List.mem_of_mem_tail h
  · exact h

/-- Nobody else is taken off. -/
theorem filter_popIf (i : ι) (stack : List ι) :
    (popIf i stack).filter (· ≠ i) = stack.filter (· ≠ i) := by
  unfold popIf
  cases stack with
  | nil => rfl
  | cons j stack =>
      split
      next htop =>
        obtain rfl := Option.some.inj htop
        simp
      next => rfl

/-- An extension with others above it stays. -/
theorem mem_popIf_of_ne {i j : ι} {stack : List ι} (h : j ∈ stack) (hij : j ≠ i) :
    j ∈ popIf i stack := by
  have hmem : j ∈ (popIf i stack).filter (· ≠ i) := by
    rw [filter_popIf]
    exact List.mem_filter.mpr ⟨h, by simpa using hij⟩
  exact (List.mem_filter.mp hmem).1

end

/-! ## Calls -/

variable {α β : Type}

/-- The function a pointer stands for, following at most `n` saved pointers: an
extension runs around the function of the pointer it saved. A null pointer, or a
chain that does not end, is no function. -/
def fn (saved : ι → Option (Option ι)) (run : ι → (α → β) → α → β) (engine : α → β) :
    Nat → Option ι → Option (α → β)
  | _, none => some engine
  | 0, some _ => none
  | n + 1, some i => (saved i).bind fun next => (fn saved run engine n next).map (run i)

/-- The extensions of a stack, each around the ones below. -/
def around (run : ι → (α → β) → α → β) (engine : α → β) (stack : List ι) : α → β :=
  stack.foldr run engine

theorem fn_linked {saved : ι → Option (Option ι)} {h : Option ι} {stack : List ι}
    (hlinked : Linked saved h stack) (run : ι → (α → β) → α → β) (engine : α → β) {n : Nat}
    (hn : stack.length ≤ n) : fn saved run engine n h = some (around run engine stack) := by
  induction hlinked generalizing n with
  | engine => cases n <;> rfl
  | link hsaved _ ih =>
      cases n with
      | zero => simp at hn
      | succ n =>
          rw [fn, hsaved, Option.bind_some, ih (by simpa using hn)]
          rfl

/-- An extension that only passes calls on can be left out. -/
theorem around_filter [DecidableEq ι] {run : ι → (α → β) → α → β} {i : ι}
    (h : ∀ next, run i next = next) (engine : α → β) (stack : List ι) :
    around run engine stack = around run engine (stack.filter (· ≠ i)) := by
  induction stack with
  | nil => rfl
  | cons j stack ih =>
      by_cases hj : j = i
      · subst hj
        rw [List.filter_cons_of_neg (by simp), ← ih]
        exact h _
      · rw [List.filter_cons_of_pos (by simpa using hj)]
        exact congrArg (run j) ih

end HookChain

end Phpatcher.Basis
