import Phpatcher.Core.Apply

/-!
# The applier edits original line numbers

The code edits a buffer that changes under it and checks every range against
the current size of that buffer; the format promises that every address means
a line of the *original* file. The validator makes the two the same thing:
below the barrier the buffer still is the original, so a command that passed
the order check is in range for the buffer exactly when it is in range for the
original (`inRange_congr`), and the loop is a chain of descending edits.
-/

namespace Phpatcher.Theorems

open Phpatcher.Basis Phpatcher.Core

variable {σ : Type} {resolve : Option (RefResolver σ)}

/-- Every reference of the list resolves, one after the other. -/
def ResolveAll (resolve : Option (RefResolver σ)) : List EdRef → σ → σ → Prop
  | [], s, s' => s = s'
  | ref :: rest, s, s' => ∃ f, resolve = some f ∧ ∃ lines t, (f ref).Yields s lines t ∧
      ResolveAll resolve rest t s'

theorem resolveAll_append (a b : List EdRef) (s s' : σ) :
    ResolveAll resolve (a ++ b) s s' ↔
      ∃ t, ResolveAll resolve a s t ∧ ResolveAll resolve b t s' := by
  induction a generalizing s with
  | nil => simp [ResolveAll]
  | cons ref a ih =>
      simp only [List.cons_append, ResolveAll, ih]
      constructor
      · intro h
        obtain ⟨f, hf, lines, t, hyields, u, ha, hb⟩ := h
        exact ⟨u, ⟨f, hf, lines, t, hyields, ha⟩, hb⟩
      · intro h
        obtain ⟨u, ⟨f, hf, lines, t, hyields, ha⟩, hb⟩ := h
        exact ⟨f, hf, lines, t, hyields, u, ha, hb⟩

/-- An input block expands exactly when its references resolve. -/
theorem buildInput_yields_iff (input : List EdPiece) (s s' : σ) :
    (∃ out, (buildInput resolve input).Yields s out s') ↔
      ResolveAll resolve (inputRefs input) s s' := by
  induction input generalizing s with
  | nil => simp [buildInput, inputRefs, ResolveAll]
  | cons piece rest ih =>
      cases piece with
      | literal line =>
          simp only [buildInput, Fallible.yields_bind_pure, inputRefs, List.filterMap_cons] at ih ⊢
          rw [← ih]
          constructor
          · intro h
            obtain ⟨_, out, hout, _⟩ := h
            exact ⟨out, hout⟩
          · intro h
            obtain ⟨out, hout⟩ := h
            exact ⟨line :: out, out, hout, rfl⟩
      | ref ref =>
          simp only [inputRefs, List.filterMap_cons, ResolveAll] at ih ⊢
          simp only [← ih]
          cases resolve with
          | none => simp [buildInput]
          | some f =>
              simp only [buildInput, Fallible.yields_bind, Fallible.yields_pure,
                Option.some.injEq, exists_eq_left']
              constructor
              · intro h
                obtain ⟨_, lines, t, hlines, out, u, hout, _, rfl⟩ := h
                exact ⟨lines, t, hlines, out, hout⟩
              · intro h
                obtain ⟨lines, t, hlines, out, hout⟩ := h
                exact ⟨_, lines, t, hlines, out, s', hout, rfl, rfl⟩

theorem expandCommand_yields_iff (c : EdCommand) (s s' : σ) :
    (∃ text, (expandCommand resolve c).Yields s text s') ↔
      ResolveAll resolve (commandRefs c) s s' := by
  rcases c with ⟨kind, start, end_, input⟩
  cases kind
  case delete => simp [expandCommand, commandRefs, ResolveAll]
  all_goals exact buildInput_yields_iff input s s'

/-- The inputs of a script expand exactly when all its references resolve. -/
theorem expandAll_yields_iff (cs : List EdCommand) (s s' : σ) :
    (∃ texts, (expandAll resolve cs).Yields s texts s') ↔
      ResolveAll resolve (cs.flatMap commandRefs) s s' := by
  induction cs generalizing s with
  | nil => simp [expandAll, ResolveAll]
  | cons c cs ih =>
      simp only [expandAll, Fallible.yields_bind, Fallible.yields_pure, List.flatMap_cons,
        resolveAll_append, ← expandCommand_yields_iff, ← ih]
      constructor
      · intro h
        obtain ⟨_, text, t, htext, texts, u, htexts, _, rfl⟩ := h
        exact ⟨t, ⟨text, htext⟩, texts, htexts⟩
      · intro h
        obtain ⟨t, ⟨text, htext⟩, texts, htexts⟩ := h
        exact ⟨_, text, t, htext, texts, s', htexts, rfl, rfl⟩

/-! ## The barrier and the untouched prefix -/

/-- Below the barrier the buffer has exactly the lines the original has. -/
def SamePrefix (barrier size n : Nat) : Prop := ∀ a, a < barrier → (a ≤ size ↔ a ≤ n)

/-- Under the barrier the current size and the original line count give the
same range check. -/
theorem inRange_congr {c : EdCommand} {barrier size n : Nat}
    (hagree : SamePrefix barrier size n) (htop : c.addressedTop < barrier) :
    c.InRange size ↔ c.InRange n := by
  rcases c with ⟨kind, start, end_, input⟩
  cases kind <;> simp only [EdCommand.InRange, EdCommand.addressedTop] at htop ⊢
  -- every bound a range check looks at lies below the barrier
  case delete | change =>
    have := hagree end_ htop
    omega
  case append => exact hagree start htop
  case insert =>
    have := hagree (start - 1) (by omega)
    omega

/-- A command leaves the lines below its lowest line where they are. -/
theorem SamePrefix.step {c : EdCommand} {barrier n : Nat} {lines : List Bytes}
    (hagree : SamePrefix barrier lines.length n) (hrange : c.InRange lines.length)
    (text : List Bytes) :
    SamePrefix (if c.affectedLow < barrier then c.affectedLow else barrier)
      ((c.edit text).splice lines).length n := by
  intro a ha
  have hbar : a < barrier ∧ a < c.affectedLow := by
    split at ha <;> omega
  have hold := hagree a hbar.1
  rcases c with ⟨kind, start, end_, input⟩
  cases kind <;>
    simp only [EdCommand.InRange, EdCommand.affectedLow, EdCommand.edit, Edit.splice,
      List.length_append, List.length_take, List.length_drop, List.length_nil] at * <;>
    omega

/-- The command loop on a script the validator accepts: it succeeds exactly
when every command is in range for the original and every input expands, and
it splices the edits one after the other. -/
theorem applyCommands_yields_iff {cs : List EdCommand} {barrier n : Nat} {lines out : List Bytes}
    {s s' : σ} (hvalid : validateFrom barrier cs = .ok ())
    (hagree : SamePrefix barrier lines.length n) :
    (applyCommands resolve cs lines).Yields s out s' ↔
      (∀ c ∈ cs, c.InRange n) ∧ ∃ texts, (expandAll resolve cs).Yields s texts s' ∧
        out = spliceAll (List.zipWith EdCommand.edit cs texts) lines := by
  induction cs generalizing barrier lines s with
  | nil =>
      simp only [applyCommands, expandAll, Fallible.yields_pure, List.not_mem_nil,
        false_imp_iff, implies_true, true_and]
      constructor
      · intro hyp
        obtain ⟨rfl, rfl⟩ := hyp
        exact ⟨[], ⟨rfl, rfl⟩, rfl⟩
      · intro hyp
        obtain ⟨_, ⟨rfl, rfl⟩, rfl⟩ := hyp
        exact ⟨rfl, rfl⟩
  | cons c cs ih =>
      have htop : ¬ c.addressedTop ≥ barrier := by
        intro h
        rw [validateFrom, if_pos h] at hvalid
        exact absurd hvalid (by simp)
      rw [validateFrom, if_neg htop] at hvalid
      -- the check against the buffer is the check against the original
      have hcongr := inRange_congr hagree (by omega : c.addressedTop < barrier)
      simp only [applyCommands, expandAll, Fallible.yields_bind, Fallible.yields_pure,
        applyCommand_yields, List.forall_mem_cons]
      constructor
      · intro hyp
        obtain ⟨mid, t, ⟨hrange, text, htext, rfl⟩, hrest⟩ := hyp
        obtain ⟨hall, texts, htexts, rfl⟩ := (ih hvalid (hagree.step hrange text)).mp hrest
        exact ⟨⟨hcongr.mp hrange, hall⟩, text :: texts,
          ⟨text, t, htext, texts, s', htexts, rfl, rfl⟩, rfl⟩
      · intro hyp
        obtain ⟨⟨hrange, hall⟩, _, ⟨text, t, htext, texts, u, htexts, rfl, rfl⟩, rfl⟩ := hyp
        have hrange' := hcongr.mpr hrange
        exact ⟨_, t, ⟨hrange', text, htext, rfl⟩,
          (ih hvalid (hagree.step hrange' text)).mpr ⟨hall, texts, htexts, rfl⟩⟩

/-! ## Accepted scripts are descending edits -/

/-- A command that lies below the lowest line of another one is an edit below
its edit. -/
theorem edit_hi_le_lo {c d : EdCommand} {n : Nat} (hc : c.InRange n) (hd : d.InRange n)
    (h : d.addressedTop < c.affectedLow) (t u : List Bytes) :
    (d.edit u).hi ≤ (c.edit t).lo := by
  rcases c with ⟨ck, cs, ce, ci⟩
  rcases d with ⟨dk, ds, de, di⟩
  cases ck <;> cases dk <;>
    simp only [EdCommand.InRange, EdCommand.addressedTop, EdCommand.affectedLow,
      EdCommand.edit] at * <;>
    omega

theorem mem_zipWith_edit {cs : List EdCommand} {texts : List (List Bytes)} {e : Edit Bytes}
    (h : e ∈ List.zipWith EdCommand.edit cs texts) : ∃ c ∈ cs, ∃ text, e = c.edit text := by
  rw [← List.map_uncurry_zip_eq_zipWith, List.mem_map] at h
  obtain ⟨⟨c, text⟩, hmem, rfl⟩ := h
  exact ⟨c, (List.of_mem_zip hmem).1, text, rfl⟩

theorem descending_edits {cs : List EdCommand} {n : Nat}
    (hpair : cs.Pairwise fun c d => d.addressedTop < c.affectedLow)
    (hrange : ∀ c ∈ cs, c.InRange n) (texts : List (List Bytes)) :
    Descending (List.zipWith EdCommand.edit cs texts) := by
  induction cs generalizing texts with
  | nil => exact List.Pairwise.nil
  | cons c cs ih =>
      cases texts with
      | nil => exact List.Pairwise.nil
      | cons text texts =>
          rw [List.pairwise_cons] at hpair
          have hrest : ∀ d ∈ cs, d.InRange n := fun d hd => hrange d (List.mem_cons_of_mem _ hd)
          refine List.pairwise_cons.mpr ⟨?_, ih hpair.2 hrest texts⟩
          intro e he
          -- an edit behind this one is the edit of a later command
          obtain ⟨d, hd, u, rfl⟩ := mem_zipWith_edit he
          exact edit_hi_le_lo (hrange c List.mem_cons_self) (hrest d hd) (hpair.1 d hd) text u

theorem edits_fit {cs : List EdCommand} {n : Nat} (hrange : ∀ c ∈ cs, c.InRange n)
    (texts : List (List Bytes)) :
    ∀ e ∈ List.zipWith EdCommand.edit cs texts, e.Fits n := by
  intro e he
  obtain ⟨c, hc, text, rfl⟩ := mem_zipWith_edit he
  exact (hrange c hc).fits text

/-- What a successful application of an accepted script gives. -/
theorem applyEdScript_yields_iff {fp : FilePatch} {original out : Bytes} {s s' : σ} :
    (applyEdScript fp original resolve).Yields s out s' ↔
      validateCommandOrder fp = .ok () ∧
        (∀ c ∈ fp.commands, c.InRange (splitLines original).length) ∧
        ∃ texts, (expandAll resolve fp.commands).Yields s texts s' ∧
          out = joinLines (spliceAll (List.zipWith EdCommand.edit fp.commands texts)
            (splitLines original)) (finalNewline original) := by
  unfold applyEdScript
  cases hvalid : validateCommandOrder fp with
  | error e => simp
  | ok u =>
      have hagree : SamePrefix int64Max (splitLines original).length
          (splitLines original).length := fun _ _ => Iff.rfl
      simp only [Fallible.yields_bind_pure, applyCommands_yields_iff hvalid hagree, true_and]
      constructor
      · intro h
        obtain ⟨lines, ⟨hrange, texts, htexts, rfl⟩, rfl⟩ := h
        exact ⟨hrange, texts, htexts, rfl⟩
      · intro h
        obtain ⟨hrange, texts, htexts, rfl⟩ := h
        exact ⟨_, ⟨hrange, texts, htexts, rfl⟩, rfl⟩

/-- **Original line numbers.** An application succeeds if and only if the
validator accepts the order of the commands, every command is in range for the
line count of the original, and every reference resolves. The result then is
that of all edits made at once at the original line numbers, with the final
newline of the original. -/
theorem apply_iff_simultaneous (resolve : Option (RefResolver σ)) (fp : FilePatch)
    (original : Bytes) (s : σ) :
    ((∃ out s', (applyEdScript fp original resolve).Yields s out s') ↔
      validateCommandOrder fp = .ok () ∧
        (∀ c ∈ fp.commands, c.InRange (splitLines original).length) ∧
        ∃ s', ResolveAll resolve fp.refs s s') ∧
    ∀ out s', (applyEdScript fp original resolve).Yields s out s' →
      ∃ texts, (expandAll resolve fp.commands).Yields s texts s' ∧
        out = joinLines (simultaneous (List.zipWith EdCommand.edit fp.commands texts)
          (splitLines original)) (finalNewline original) := by
  constructor
  · simp only [applyEdScript_yields_iff, FilePatch.refs, ← expandAll_yields_iff]
    constructor
    · intro hyp
      obtain ⟨_, s', hvalid, hrange, texts, htexts, _⟩ := hyp
      exact ⟨hvalid, hrange, s', texts, htexts⟩
    · intro hyp
      obtain ⟨hvalid, hrange, s', texts, htexts⟩ := hyp
      exact ⟨_, s', hvalid, hrange, texts, htexts, rfl⟩
  · intro out s' h
    obtain ⟨hvalid, hrange, texts, htexts, rfl⟩ := applyEdScript_yields_iff.mp h
    have hpair := ((validateFrom_ok_iff _ _).mp hvalid).2
    exact ⟨texts, htexts, by
      rw [spliceAll_eq_simultaneous (descending_edits hpair hrange texts)
        (edits_fit hrange texts)]⟩

end Phpatcher.Theorems
