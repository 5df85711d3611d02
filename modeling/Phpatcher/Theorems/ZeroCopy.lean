import Phpatcher.Core.ApplyViews
import Phpatcher.Tools.SplitViews

/-!
# Applying with views is applying

The buffer of `apply_ed_script` holds views only. None of them is left behind: whatever
the resolver answers, in whatever order strings are stored and moved, they all read in
the end, and the result is that of the lines themselves.
-/

namespace Phpatcher.Theorems

open Phpatcher.Basis Phpatcher.Core Phpatcher.Tools

variable {σ : Type} {m m' : Memory UInt8}

/-! ## A patch in memory -/

/-- A piece in memory stands for a piece. -/
inductive PieceIn (m : Memory UInt8) : StoredPiece → EdPiece → Prop
  | literal {line : Str} {text : Bytes} (h : line.Holds m text) :
      PieceIn m (.literal line) (.literal text)
  | ref (ref : EdRef) : PieceIn m (.ref ref) (.ref ref)

/-- A command in memory stands for a command. -/
structure CommandIn (m : Memory UInt8) (c : StoredCommand) (d : EdCommand) : Prop where
  kind : c.kind = d.kind
  start : c.start = d.start
  end_ : c.end_ = d.end_
  input : List.Forall₂ (PieceIn m) c.input d.input

theorem PieceIn.of_leaves {piece : StoredPiece} {p : EdPiece} (h : PieceIn m piece p)
    (hleaves : m.Leaves m' ∅) : PieceIn m' piece p := by
  cases h with
  | literal h => exact .literal (h.of_leaves hleaves (Set.notMem_empty _))
  | ref ref => exact .ref ref

theorem CommandIn.of_leaves {c : StoredCommand} {d : EdCommand} (h : CommandIn m c d)
    (hleaves : m.Leaves m' ∅) : CommandIn m' c d :=
  ⟨h.kind, h.start, h.end_, h.input.imp fun _ _ hpiece => hpiece.of_leaves hleaves⟩

/-! ## What refines what -/

/-- Memory in use stays as it is. -/
def Extends (m m' : Memory UInt8) : Prop := m.Leaves m' ∅

theorem extends_refl (m : Memory UInt8) : Extends m m := Memory.Leaves.refl m ∅

theorem extends_trans (m₁ m₂ m₃ : Memory UInt8) (h : Extends m₁ m₂) (h' : Extends m₂ m₃) :
    Extends m₁ m₃ :=
  h.trans h' (by simp)

/-- A kept line has the text that is inserted for it. -/
theorem keepLine_passes (room : Nat) (ref : EdRef) :
    Str.Passes (keepLine room ref) ref.expandLine := by
  unfold keepLine EdRef.expandLine
  cases ref.transform with
  | exact => exact Str.move_passes room
  | trimPad =>
      have hpadded := Str.store_pass (Str.move_passes (α := UInt8) room)
      refine ⟨fun {m s chars} h => ?_, fun m s => ?_, fun m s => ?_⟩
      · -- the padded text is moved, and the line goes away
        obtain ⟨_, hholds, hnew⟩ := hpadded m (ref.lpad ++ trimBlanks chars ++ ref.rpad)
        rw [h.text_eq]
        refine hholds.of_leaves (Memory.leaves_drop _ _) fun hmem => ?_
        have hlt := h.lt_next
        have hsame : _ = s.addr := hmem
        omega
      · obtain ⟨hleaves, _, _⟩ := hpadded m (ref.lpad ++ trimBlanks (s.text m) ++ ref.rpad)
        exact (hleaves.mono (Set.empty_subset _)).trans (Memory.leaves_drop _ _) fun a ha => .inl ha
      · exact .inr (hpadded m (ref.lpad ++ trimBlanks (s.text m) ++ ref.rpad)).2.2

/-- The lines of a reference are viewed as they are inserted. -/
theorem storeResolved_reads (room : Nat) (ref : EdRef) (resolved : List Bytes)
    (m : Memory UInt8) :
    Extends m (storeResolved room ref resolved m).2 ∧
      ReadAll (storeResolved room ref resolved m).2 (storeResolved room ref resolved m).1
        (resolved.map ref.expandLine) := by
  obtain ⟨hleaves, hholds, _⟩ := Str.storeAll_pass (keepLine_passes room ref) m resolved
  exact ⟨hleaves, readAll_views hholds⟩

theorem buildInputViews_refines (room : Nat) (resolve : Option (RefResolver σ))
    {pieces : List StoredPiece} {input : List EdPiece}
    (h : List.Forall₂ (PieceIn m) pieces input) :
    Fallible.Refines Extends ReadAll m (buildInputViews room resolve pieces)
      (buildInput resolve input) := by
  induction input generalizing m pieces with
  | nil =>
      cases h
      exact Fallible.Refines.pure extends_refl .nil
  | cons p rest ih =>
      cases h with
      | cons hpiece hrest =>
          cases hpiece with
          | literal hline =>
              refine Fallible.Refines.bind extends_trans (ih hrest) fun m' out lines hext hout => ?_
              have hkept := hline.of_leaves hext (Set.notMem_empty _)
              exact Fallible.Refines.pure extends_refl (.cons ⟨hkept.lt_next, hkept.read_view⟩ hout)
          | ref ref =>
              cases resolve with
              | none => exact Fallible.Refines.throw extends_refl _
              | some f =>
                  refine Fallible.Refines.bind extends_trans
                    (Fallible.Refines.withWorld extends_refl (f ref)) ?_
                  rintro m₁ resolved _ hext₁ rfl
                  obtain ⟨hext₂, hviews⟩ := storeResolved_reads room ref resolved m₁
                  refine Fallible.Refines.inWorld extends_trans hext₂ ?_
                  have hleft := hrest.imp fun _ _ hpiece =>
                    (hpiece.of_leaves hext₁).of_leaves hext₂
                  refine Fallible.Refines.bind extends_trans (ih hleft) ?_
                  intro m₃ out lines hext₃ hout
                  exact Fallible.Refines.pure extends_refl
                    (List.rel_append (hviews.of_leaves hext₃) hout)

/-! ## Commands -/

variable {views ins : List View} {lines texts : List Bytes}

theorem readAll_erase (h : ReadAll m views lines) (i j : Nat) :
    ReadAll m (eraseViews views i j) (eraseRange lines i j) :=
  List.rel_append (List.forall₂_take i h) (List.forall₂_drop j h)

theorem readAll_insert (h : ReadAll m views lines) (hins : ReadAll m ins texts) (i : Nat) :
    ReadAll m (insertViews views i ins) (insertAt lines i texts) :=
  List.rel_append (List.rel_append (List.forall₂_take i h) hins) (List.forall₂_drop i h)

/-- An insertion into a buffer, which is read in memory that has been extended. -/
theorem insertViews_refines {room : Nat} {resolve : Option (RefResolver σ)}
    {c : StoredCommand} {d : EdCommand} (hcommand : CommandIn m c d) (i : Nat)
    (h : ReadAll m views lines) :
    Fallible.Refines Extends ReadAll m
      (do
        let ins ← buildInputViews room resolve c.input
        return insertViews views i ins)
      (do
        let ins ← buildInput resolve d.input
        return insertAt lines i ins) := by
  refine Fallible.Refines.bind extends_trans
    (buildInputViews_refines room resolve hcommand.input) fun m' ins texts hext hins => ?_
  exact Fallible.Refines.pure extends_refl (readAll_insert (h.of_leaves hext) hins i)

theorem applyCommandViews_refines (room : Nat) (resolve : Option (RefResolver σ))
    {c : StoredCommand} {d : EdCommand} (hcommand : CommandIn m c d)
    (h : ReadAll m views lines) :
    Fallible.Refines Extends ReadAll m (applyCommandViews room resolve c views)
      (applyCommand resolve d lines) := by
  have hlength := h.length_eq
  unfold applyCommandViews applyCommand
  rw [hcommand.kind, hcommand.start, hcommand.end_, hlength]
  cases d.kind with
  | delete =>
      exact Fallible.Refines.ite (Fallible.Refines.throw extends_refl _)
        (Fallible.Refines.pure extends_refl (readAll_erase h _ _))
  | change =>
      exact Fallible.Refines.ite (Fallible.Refines.throw extends_refl _)
        (insertViews_refines hcommand _ (readAll_erase h _ _))
  | append | insert =>
      exact Fallible.Refines.ite (Fallible.Refines.throw extends_refl _)
        (insertViews_refines hcommand _ h)

/-- Memory is extended from command to command; the buffer goes on reading. -/
theorem applyCommandsViews_refines (room : Nat) (resolve : Option (RefResolver σ))
    {commands : List StoredCommand} {ds : List EdCommand}
    (hcommands : List.Forall₂ (CommandIn m) commands ds) (h : ReadAll m views lines) :
    Fallible.Refines Extends ReadAll m (applyCommandsViews room resolve commands views)
      (applyCommands resolve ds lines) := by
  induction ds generalizing m commands views lines with
  | nil =>
      cases hcommands
      exact Fallible.Refines.pure extends_refl h
  | cons d ds ih =>
      cases hcommands with
      | cons hcommand hrest =>
          refine Fallible.Refines.bind extends_trans
            (applyCommandViews_refines room resolve hcommand h) fun m' views lines hext hout => ?_
          exact ih (hrest.imp fun _ _ hc => hc.of_leaves hext) hout

/-! ## The whole application -/

/-- The validator looks at the addresses alone. -/
theorem validateFrom_congr {cs ds : List EdCommand}
    (h : List.Forall₂ (fun c d : EdCommand => c.kind = d.kind ∧ c.start = d.start ∧
      c.end_ = d.end_) cs ds) (barrier : Nat) :
    validateFrom barrier cs = validateFrom barrier ds := by
  induction h generalizing barrier with
  | nil => rfl
  | @cons c d _ _ hcommand _ ih =>
      obtain ⟨hkind, hstart, hend⟩ := hcommand
      have htop : c.addressedTop = d.addressedTop := by
        rw [EdCommand.addressedTop, EdCommand.addressedTop, hkind, hstart, hend]
      have hlow : c.affectedLow = d.affectedLow := by
        rw [EdCommand.affectedLow, EdCommand.affectedLow, hkind, hstart]
      rw [validateFrom, validateFrom, htop, hlow, ih]

theorem validate_stored {commands : List StoredCommand} {fp : FilePatch}
    (h : List.Forall₂ (CommandIn m) commands fp.commands) :
    validateFrom int64Max (commands.map StoredCommand.address) = validateCommandOrder fp :=
  validateFrom_congr (List.forall₂_map_left_iff.mpr
    (h.imp fun _ _ hc => ⟨hc.kind, hc.start, hc.end_⟩)) int64Max

/-- The views of the original read its lines. -/
theorem splitViews_reads {original : Str} {content : Bytes} (h : original.Holds m content) :
    ReadAll m (splitViews original content) (splitLines content) := by
  have hcut : (fun _ i => i : Nat → Nat → Nat) = lineEnd false content := by
    funext start i
    simp [lineEnd]
  have hspans := read_spans h.cells fun start i hstart => start_le_lineEnd false content hstart
  rw [← splitLoop_spans] at hspans
  have hread : (splitViews original content).map (View.read m) =
      (splitLines content).map some := by
    rw [splitViews, hcut, hspans]
    exact congrArg (List.map some) (patchSplitLoop_eq content)
  refine readAll_of_map hread fun v hv => ?_
  obtain ⟨span, _, rfl⟩ := List.mem_map.mp hv
  exact h.lt_next

theorem applyEdScriptViews_refines (room : Nat) (resolve : Option (RefResolver σ))
    {fp : FilePatch} {commands : List StoredCommand} {original : Str} {content : Bytes}
    (hcommands : List.Forall₂ (CommandIn m) commands fp.commands)
    (horiginal : original.Holds m content) :
    Fallible.Refines Extends (fun _ out text => out = some text) m
      (applyEdScriptViews room resolve commands original) (applyEdScript fp content resolve) := by
  unfold applyEdScriptViews applyEdScript
  rw [validate_stored hcommands]
  cases validateCommandOrder fp with
  | error e => exact Fallible.Refines.throw extends_refl e
  | ok u =>
      refine Fallible.Refines.inWorld extends_trans (extends_refl m) ?_
      rw [horiginal.text_eq]
      refine Fallible.Refines.bind extends_trans
        (applyCommandsViews_refines room resolve hcommands (splitViews_reads horiginal))
        fun m' views lines hext hread => ?_
      refine Fallible.Refines.inWorld extends_trans (f := joinViews views (finalNewline content))
        (extends_refl m') (Fallible.Refines.pure extends_refl ?_)
      rw [joinViews, hread.mapM_read]
      rfl

/-- **Applying with views is applying.** With the literal lines of a patch and the
original in memory, the views come to the result of the lines, with the same answers
asked of the resolver, however short the strings are that are kept inside their object;
and what was in memory is still there. -/
theorem apply_views (room : Nat) (resolve : Option (RefResolver σ)) (fp : FilePatch)
    {commands : List StoredCommand} {original : Str} {content : Bytes}
    (hcommands : List.Forall₂ (CommandIn m) commands fp.commands)
    (horiginal : original.Holds m content) (s : σ) :
    ∃ m', m.Leaves m' ∅ ∧
      (applyEdScriptViews room resolve commands original).outcome (s, m) =
        (((applyEdScript fp content resolve).outcome s).1.map some,
          (((applyEdScript fp content resolve).outcome s).2, m')) := by
  obtain ⟨m', hext, hstate, halike⟩ :=
    applyEdScriptViews_refines room resolve hcommands horiginal s
  refine ⟨m', hext, Prod.ext ?_ hstate⟩
  revert halike
  rcases (applyEdScriptViews room resolve commands original).outcome (s, m) with ⟨out, _⟩
  rcases (applyEdScript fp content resolve).outcome s with ⟨out', _⟩
  intro halike
  cases halike with
  | error e => rfl
  | ok h => exact congrArg Except.ok h

/-- A line and a reference, put in front of a file. -/
def prepending : FilePatch :=
  ⟨[⟨.append, 0, 0, [.literal (ascii "y"), .ref {}]⟩], false⟩

/-- The file at the first place in memory, the line at the second one. -/
def shortStrings : Memory UInt8 := (Memory.empty.put (ascii "x\n")).put (ascii "y")

/-- Every reference is answered with a short line. -/
def answering : RefResolver Unit := fun _ => pure [ascii "ab"]

/-- The patch, with its line in memory. -/
def storedPrepending : List StoredCommand :=
  [⟨.append, 0, 0, [.literal ⟨1, 1⟩, .ref {}]⟩]

theorem apply_views_short : ∃ m', shortStrings.Leaves m' ∅ ∧
    (applyEdScriptViews 15 (some answering) storedPrepending ⟨0, 2⟩).outcome ((), shortStrings) =
      (.ok (some (ascii "y\nab\nx\n")), ((), m')) := by
  have happlied : (applyEdScript prepending (ascii "x\n") (some answering)).outcome () =
      (.ok (ascii "y\nab\nx\n"), ()) := by rfl
  have hcommands : List.Forall₂ (CommandIn shortStrings) storedPrepending prepending.commands :=
    .cons ⟨rfl, rfl, rfl, .cons (PieceIn.literal ⟨rfl, rfl⟩) (.cons (PieceIn.ref {}) .nil)⟩ .nil
  obtain ⟨m', hleaves, houtcome⟩ := apply_views 15 (some answering) prepending hcommands
    (⟨rfl, rfl⟩ : Str.Holds shortStrings ⟨0, 2⟩ (ascii "x\n")) ()
  refine ⟨m', hleaves, ?_⟩
  rw [houtcome, happlied]
  rfl

end Phpatcher.Theorems
