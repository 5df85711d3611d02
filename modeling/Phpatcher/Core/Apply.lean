import Phpatcher.Basis.Fallible
import Phpatcher.Basis.Splice
import Phpatcher.Core.Patch

/-!
# Applying a file patch

`build_input`, `validate_command_order` and `apply_ed_script` of `patch.cpp`.
The resolver of corpus references is the caller's; it may carry a state `σ`
(the cache of files it has read), so the whole application is a `Fallible`
computation over `σ`.

Below the translation stands its specification, one lemma per function:
what a command does to the buffer is an `Edit` (`applyCommand_yields`), and
the validator accepts exactly the scripts whose commands come strictly from
the end of the file to its start (`validateFrom_ok_iff`).
-/

namespace Phpatcher.Core

open Phpatcher.Basis

variable {σ : Type}

/-- `PatchSet::RefResolver`: the lines a reference stands for, or an error. -/
abbrev RefResolver (σ : Type) := EdRef → Fallible Bytes σ (List Bytes)

/-- What is inserted for one resolved line. -/
def EdRef.expandLine (ref : EdRef) (line : Bytes) : Bytes :=
  match ref.transform with
  | .trimPad => ref.lpad ++ trimBlanks line ++ ref.rpad
  | .exact => line

/-- `build_input`; an empty `std::function` is `none`. -/
def buildInput (resolve : Option (RefResolver σ)) : List EdPiece → Fallible Bytes σ (List Bytes)
  | [] => pure []
  | .literal line :: rest => do
      let out ← buildInput resolve rest
      return line :: out
  | .ref ref :: rest =>
      match resolve with
      | none => throw (ascii "patch references corpus lines but no resolver is available")
      | some f => do
          let resolved ← f ref
          let out ← buildInput resolve rest
          return resolved.map ref.expandLine ++ out

/-- The highest original line a command needs in place. -/
def EdCommand.addressedTop (c : EdCommand) : Nat :=
  match c.kind with
  | .delete | .change => c.end_
  | .append | .insert => c.start

/-- The lowest original line a command consumes or shifts. -/
def EdCommand.affectedLow (c : EdCommand) : Nat :=
  match c.kind with
  | .delete | .change | .insert => c.start
  | .append => c.start + 1

/-- The loop of `validate_command_order`; `barrier` is the lowest original
line touched so far. -/
def validateFrom : Nat → List EdCommand → Except Bytes Unit
  | _, [] => .ok ()
  | barrier, c :: rest =>
      if c.addressedTop ≥ barrier then
        .error (ascii "ed commands must be in descending, non-overlapping line order")
      else validateFrom (if c.affectedLow < barrier then c.affectedLow else barrier) rest

/-- `validate_command_order`. -/
def validateCommandOrder (fp : FilePatch) : Except Bytes Unit :=
  validateFrom int64Max fp.commands

/-- `lines.erase(lines.begin() + i, lines.begin() + j)`. -/
def eraseRange (lines : List Bytes) (i j : Nat) : List Bytes := lines.take i ++ lines.drop j

/-- `lines.insert(lines.begin() + i, ins.begin(), ins.end())`. -/
def insertAt (lines : List Bytes) (i : Nat) (ins : List Bytes) : List Bytes :=
  lines.take i ++ ins ++ lines.drop i

/-- One command of `apply_ed_script`, checked against the current buffer. -/
def applyCommand (resolve : Option (RefResolver σ)) (c : EdCommand) (lines : List Bytes) :
    Fallible Bytes σ (List Bytes) :=
  match c.kind with
  | .delete =>
      if c.start < 1 ∨ c.end_ < c.start ∨ c.end_ > lines.length then
        throw (ascii "ed delete out of range")
      else pure (eraseRange lines (c.start - 1) c.end_)
  | .change =>
      if c.start < 1 ∨ c.end_ < c.start ∨ c.end_ > lines.length then
        throw (ascii "ed change out of range")
      else do
        let ins ← buildInput resolve c.input
        return insertAt (eraseRange lines (c.start - 1) c.end_) (c.start - 1) ins
  | .append =>
      if c.start > lines.length then throw (ascii "ed append out of range")
      else do
        let ins ← buildInput resolve c.input
        return insertAt lines c.start ins
  | .insert =>
      if c.start < 1 ∨ c.start > lines.length + 1 then throw (ascii "ed insert out of range")
      else do
        let ins ← buildInput resolve c.input
        return insertAt lines (c.start - 1) ins

/-- The command loop of `apply_ed_script`. -/
def applyCommands (resolve : Option (RefResolver σ)) :
    List EdCommand → List Bytes → Fallible Bytes σ (List Bytes)
  | [], lines => pure lines
  | c :: rest, lines => do
      let lines ← applyCommand resolve c lines
      applyCommands resolve rest lines

/-- Whether the result ends in a newline: as the original does, and yes for a
file built from nothing. -/
def finalNewline (original : Bytes) : Bool := original.isEmpty || endsWithNl original

/-- `apply_ed_script`, which is all of `PatchSet::apply`. -/
def applyEdScript (fp : FilePatch) (original : Bytes) (resolve : Option (RefResolver σ)) :
    Fallible Bytes σ Bytes :=
  match validateCommandOrder fp with
  | .error e => throw e
  | .ok () => do
      let lines ← applyCommands resolve fp.commands (splitLines original)
      return joinLines lines (finalNewline original)

/-! ## What the validator accepts -/

/-- The barrier is the minimum over the commands seen, so the check against it
is a check against each of them. -/
theorem validateFrom_ok_iff (barrier : Nat) (cs : List EdCommand) :
    validateFrom barrier cs = .ok () ↔
      (∀ c ∈ cs, c.addressedTop < barrier) ∧
        cs.Pairwise fun c d => d.addressedTop < c.affectedLow := by
  induction cs generalizing barrier with
  | nil => simp [validateFrom]
  | cons c cs ih =>
      by_cases htop : c.addressedTop ≥ barrier
      · simp [validateFrom, htop]
      · -- the new barrier is the smaller of the old one and this command's low end
        have hmin : ∀ d : EdCommand,
            d.addressedTop < (if c.affectedLow < barrier then c.affectedLow else barrier) ↔
              d.addressedTop < barrier ∧ d.addressedTop < c.affectedLow := by
          intro d
          split <;> omega
        rw [validateFrom, if_neg htop, ih, List.pairwise_cons]
        simp only [hmin, List.forall_mem_cons]
        constructor
        · intro h
          obtain ⟨hall, hpair⟩ := h
          exact ⟨⟨by omega, fun d hd => (hall d hd).1⟩, fun d hd => (hall d hd).2, hpair⟩
        · intro h
          obtain ⟨⟨_, hbar⟩, hlow, hpair⟩ := h
          exact ⟨fun d hd => ⟨hbar d hd, hlow d hd⟩, hpair⟩

/-! ## What a command does -/

/-- The range rule of a command for a file of `n` lines. -/
def EdCommand.InRange (c : EdCommand) (n : Nat) : Prop :=
  match c.kind with
  | .delete | .change => 1 ≤ c.start ∧ c.start ≤ c.end_ ∧ c.end_ ≤ n
  | .append => c.start ≤ n
  | .insert => 1 ≤ c.start ∧ c.start ≤ n + 1

/-- The edit a command stands for, once its input is expanded. -/
def EdCommand.edit (c : EdCommand) (text : List Bytes) : Edit Bytes :=
  match c.kind with
  | .delete => ⟨c.start - 1, c.end_, []⟩
  | .change => ⟨c.start - 1, c.end_, text⟩
  | .append => ⟨c.start, c.start, text⟩
  | .insert => ⟨c.start - 1, c.start - 1, text⟩

/-- The expanded input of a command; a deletion looks at none. -/
def expandCommand (resolve : Option (RefResolver σ)) (c : EdCommand) :
    Fallible Bytes σ (List Bytes) :=
  match c.kind with
  | .delete => pure []
  | .change | .append | .insert => buildInput resolve c.input

/-- The expanded inputs of all commands, in the order of the commands. -/
def expandAll (resolve : Option (RefResolver σ)) :
    List EdCommand → Fallible Bytes σ (List (List Bytes))
  | [] => pure []
  | c :: rest => do
      let text ← expandCommand resolve c
      let texts ← expandAll resolve rest
      return text :: texts

theorem expandAll_append (resolve : Option (RefResolver σ)) (cs ds : List EdCommand) (s : σ)
    (texts : List (List Bytes)) (s' : σ) :
    (expandAll resolve (cs ++ ds)).Yields s texts s' ↔
      ∃ a b t, (expandAll resolve cs).Yields s a t ∧ (expandAll resolve ds).Yields t b s' ∧
        texts = a ++ b := by
  induction cs generalizing s texts s' with
  | nil =>
      simp only [List.nil_append, expandAll, Fallible.yields_pure]
      constructor
      · intro h
        exact ⟨[], texts, s, ⟨rfl, rfl⟩, h, rfl⟩
      · intro h
        obtain ⟨_, b, _, ⟨rfl, rfl⟩, hb, rfl⟩ := h
        exact hb
  | cons c cs ih =>
      simp only [List.cons_append, expandAll, Fallible.yields_bind, Fallible.yields_pure, ih]
      constructor
      · intro h
        obtain ⟨text, t, htext, _, _, ⟨a, b, u, ha, hb, rfl⟩, rfl, rfl⟩ := h
        exact ⟨text :: a, b, u, ⟨text, t, htext, a, u, ha, rfl, rfl⟩, hb, rfl⟩
      · intro h
        obtain ⟨_, b, u, ⟨text, t, htext, a, _, ha, rfl, rfl⟩, hb, rfl⟩ := h
        exact ⟨text, t, htext, a ++ b, s', ⟨a, b, _, ha, hb, rfl⟩, rfl, rfl⟩

theorem length_of_expandAll {resolve : Option (RefResolver σ)} {cs : List EdCommand} {s s' : σ}
    {texts : List (List Bytes)} (h : (expandAll resolve cs).Yields s texts s') :
    texts.length = cs.length := by
  induction cs generalizing s texts with
  | nil =>
      obtain ⟨rfl, _⟩ := Fallible.yields_pure.mp h
      rfl
  | cons c cs ih =>
      simp only [expandAll, Fallible.yields_bind, Fallible.yields_pure] at h
      obtain ⟨_, _, _, texts, _, htexts, rfl, rfl⟩ := h
      rw [List.length_cons, List.length_cons, ih htexts]

/-- Two blocks in a row expand one after the other. -/
theorem buildInput_append {resolve : Option (RefResolver σ)} {p q : List EdPiece}
    {x y : List Bytes} {s t u : σ} (hp : (buildInput resolve p).Yields s x t)
    (hq : (buildInput resolve q).Yields t y u) :
    (buildInput resolve (p ++ q)).Yields s (x ++ y) u := by
  induction p generalizing x s with
  | nil =>
      obtain ⟨rfl, rfl⟩ := Fallible.yields_pure.mp hp
      exact hq
  | cons piece p ih =>
      cases piece with
      | literal line =>
          simp only [List.cons_append, buildInput, Fallible.yields_bind_pure] at hp ⊢
          obtain ⟨out, hout, rfl⟩ := hp
          exact ⟨out ++ y, ih hout, rfl⟩
      | ref ref =>
          cases resolve with
          | none => simp [buildInput] at hp
          | some f =>
              simp only [List.cons_append, buildInput, Fallible.yields_bind,
                Fallible.yields_pure] at hp ⊢
              obtain ⟨lines, v, hlines, out, w, hout, rfl, rfl⟩ := hp
              exact ⟨lines, v, hlines, out ++ y, u, ih hout, by simp, rfl⟩

/-- Erasing a range and inserting in its place is one splice. -/
theorem insertAt_eraseRange (lines ins : List Bytes) {i j : Nat} (hij : i ≤ j)
    (hj : j ≤ lines.length) :
    insertAt (eraseRange lines i j) i ins = (Edit.mk i j ins).splice lines := by
  have hlen : (lines.take i).length = i := by rw [List.length_take]; omega
  rw [insertAt, eraseRange, List.take_append_of_le_length (by omega), List.take_take,
    Nat.min_self, List.drop_append_of_le_length (by omega),
    List.drop_eq_nil_of_le (by omega), List.nil_append]
  rfl

/-- A command succeeds exactly when it is in range and its input expands, and
then it splices its edit. -/
theorem applyCommand_yields {resolve : Option (RefResolver σ)} {c : EdCommand}
    {lines out : List Bytes} {s s' : σ} :
    (applyCommand resolve c lines).Yields s out s' ↔
      c.InRange lines.length ∧ ∃ text, (expandCommand resolve c).Yields s text s' ∧
        out = (c.edit text).splice lines := by
  rcases c with ⟨kind, start, end_, input⟩
  cases kind with
  | delete =>
      simp only [applyCommand, Fallible.yields_ite_throw, Fallible.yields_pure, not_or, not_lt,
        EdCommand.InRange, expandCommand, EdCommand.edit, Edit.splice, eraseRange,
        List.append_nil]
      constructor
      · intro h
        obtain ⟨hrange, rfl, rfl⟩ := h
        exact ⟨hrange, [], ⟨rfl, rfl⟩, rfl⟩
      · intro h
        obtain ⟨hrange, _, ⟨_, rfl⟩, rfl⟩ := h
        exact ⟨hrange, rfl, rfl⟩
  | change =>
      simp only [applyCommand, Fallible.yields_ite_throw, Fallible.yields_bind_pure, not_or,
        not_lt, EdCommand.InRange, expandCommand, EdCommand.edit]
      -- the code erases the range first and inserts at its start afterwards
      refine and_congr_right fun hrange => ?_
      simp only [insertAt_eraseRange lines _ (show start - 1 ≤ end_ by omega) hrange.2.2]
  | append =>
      simp only [applyCommand, Fallible.yields_ite_throw, Fallible.yields_bind_pure, not_lt,
        EdCommand.InRange, expandCommand, EdCommand.edit, Edit.splice, insertAt]
  | insert =>
      simp only [applyCommand, Fallible.yields_ite_throw, Fallible.yields_bind_pure, not_or,
        not_lt, EdCommand.InRange, expandCommand, EdCommand.edit, Edit.splice, insertAt]

/-- An in-range command stands for an edit inside the file. -/
theorem EdCommand.InRange.fits {c : EdCommand} {n : Nat} (h : c.InRange n)
    (text : List Bytes) : (c.edit text).Fits n := by
  rcases c with ⟨kind, start, end_, input⟩
  cases kind <;> simp only [EdCommand.InRange, EdCommand.edit, Edit.Fits] at h ⊢ <;> omega

/-! ## The references of a patch

An application asks the resolver for these references and nothing else: two
resolvers that answer them in step give the same outcome. -/

/-- The references of an input block. -/
def inputRefs (input : List EdPiece) : List EdRef :=
  input.filterMap fun
    | .literal _ => none
    | .ref ref => some ref

/-- The references of a command's input that `apply` has to resolve. -/
def commandRefs (c : EdCommand) : List EdRef :=
  match c.kind with
  | .delete => []
  | .change | .append | .insert => inputRefs c.input

/-- The references of a file patch. -/
def FilePatch.refs (fp : FilePatch) : List EdRef := fp.commands.flatMap commandRefs

section

variable {τ : Type} {R : σ → τ → Prop} {f : RefResolver σ} {g : RefResolver τ}

theorem buildInput_lockstep {input : List EdPiece}
    (h : ∀ ref ∈ inputRefs input, Fallible.Lockstep R (f ref) (g ref)) :
    Fallible.Lockstep R (buildInput (some f) input) (buildInput (some g) input) := by
  induction input with
  | nil => exact Fallible.Lockstep.pure []
  | cons piece rest ih =>
      cases piece with
      | literal line =>
          exact (ih (by simpa [inputRefs] using h)).bind fun _ => Fallible.Lockstep.pure _
      | ref ref =>
          have href : ∀ r ∈ ref :: inputRefs rest, Fallible.Lockstep R (f r) (g r) := by
            simpa [inputRefs] using h
          rw [List.forall_mem_cons] at href
          exact href.1.bind fun _ => (ih href.2).bind fun _ => Fallible.Lockstep.pure _

theorem applyCommand_lockstep {c : EdCommand}
    (h : ∀ ref ∈ commandRefs c, Fallible.Lockstep R (f ref) (g ref)) (lines : List Bytes) :
    Fallible.Lockstep R (applyCommand (some f) c lines) (applyCommand (some g) c lines) := by
  rcases c with ⟨kind, start, end_, input⟩
  cases kind
  -- a deletion asks for nothing
  case delete => exact (Fallible.Lockstep.throw _).ite (Fallible.Lockstep.pure _)
  all_goals
    exact (Fallible.Lockstep.throw _).ite
      ((buildInput_lockstep h).bind fun _ => Fallible.Lockstep.pure _)

/-- Two resolvers that answer the references of a patch in step lead to the
same outcome. -/
theorem applyEdScript_lockstep {fp : FilePatch}
    (h : ∀ ref ∈ fp.refs, Fallible.Lockstep R (f ref) (g ref)) (original : Bytes) :
    Fallible.Lockstep R (applyEdScript fp original (some f))
      (applyEdScript fp original (some g)) := by
  have hcommands : ∀ (cs : List EdCommand) (lines : List Bytes),
      (∀ ref ∈ cs.flatMap commandRefs, Fallible.Lockstep R (f ref) (g ref)) →
      Fallible.Lockstep R (applyCommands (some f) cs lines) (applyCommands (some g) cs lines) := by
    intro cs
    induction cs with
    | nil => exact fun lines _ => Fallible.Lockstep.pure lines
    | cons c cs ih =>
        intro lines h
        rw [List.flatMap_cons, List.forall_mem_append] at h
        exact (applyCommand_lockstep h.1 lines).bind fun lines => ih lines h.2
  unfold applyEdScript
  cases validateCommandOrder fp with
  | error e => exact Fallible.Lockstep.throw e
  | ok u => exact (hcommands fp.commands _ h).bind fun _ => Fallible.Lockstep.pure _

end

end Phpatcher.Core
