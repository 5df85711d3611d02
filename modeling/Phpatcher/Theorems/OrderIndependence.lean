import Phpatcher.Basis.Marks
import Phpatcher.Basis.Sorted
import Phpatcher.Theorems.OriginalLines

/-!
# Scripts that can be read in more than one order

The validator lets two commands stand in either order exactly when both append
at one line, and then the later one of them puts its text in front. What such
a script does is settled by its commands alone only where their input blocks
can be interchanged: `order_independent_iff` says which blocks those are.

A script is carried from one accepted order to another by swaps of neighbours
(`exchange_of_perm`), and one swap is a question about two blocks. That blocks
which cannot be interchanged are told apart by some resolver takes one that
answers each call with a text of its own; a block then is a word in which no
mark occurs twice (`eq_of_fill_eq`, `interchange`).
-/

namespace Phpatcher.Theorems

open Phpatcher.Basis Phpatcher.Core

variable {σ : Type} {resolve : Option (RefResolver σ)}

/-! ## Input blocks as words -/

/-- An input block as a word: its bytes, every literal line terminated, and
its references. -/
def inputWord (input : List EdPiece) : List (UInt8 ⊕ EdRef) :=
  input.flatMap fun
    | .literal line => (line ++ [newline]).map .inl
    | .ref ref => [.inr ref]

/-- The word of the input a command looks at. -/
def commandWord (c : EdCommand) : List (UInt8 ⊕ EdRef) :=
  match c.kind with
  | .delete => []
  | .change | .append | .insert => inputWord c.input

/-- What a word comes to, its references resolved one after the other. -/
def Spells (resolve : Option (RefResolver σ)) : List (UInt8 ⊕ EdRef) → σ → Bytes → σ → Prop
  | [], s, out, s' => out = [] ∧ s = s'
  | .inl c :: w, s, out, s' => ∃ rest, Spells resolve w s rest s' ∧ out = c :: rest
  | .inr ref :: w, s, out, s' => ∃ f, resolve = some f ∧ ∃ lines t rest,
      (f ref).Yields s lines t ∧ Spells resolve w t rest s' ∧
        out = unlines (lines.map ref.expandLine) ++ rest

theorem spells_letters (text : Bytes) (w : List (UInt8 ⊕ EdRef)) (s : σ) (out : Bytes) (s' : σ) :
    Spells resolve (text.map .inl ++ w) s out s' ↔
      ∃ rest, Spells resolve w s rest s' ∧ out = text ++ rest := by
  induction text generalizing out with
  | nil => simp
  | cons c text ih =>
      simp only [List.map_cons, List.cons_append, Spells, ih]
      constructor
      · intro h
        obtain ⟨_, ⟨rest, hrest, rfl⟩, rfl⟩ := h
        exact ⟨rest, hrest, rfl⟩
      · intro h
        obtain ⟨rest, hrest, rfl⟩ := h
        exact ⟨text ++ rest, ⟨rest, hrest, rfl⟩, rfl⟩

/-- A word without references is its bytes. -/
theorem spells_of_marks_eq_nil {w : List (UInt8 ⊕ EdRef)} (h : marks w = []) (s : σ) (out : Bytes)
    (s' : σ) : Spells resolve w s out s' ↔ out.map .inl = w ∧ s = s' := by
  induction w generalizing out with
  | nil => simp [Spells]
  | cons c w ih =>
      cases c with
      | inl c =>
          simp only [Spells, ih h]
          constructor
          · intro hw
            obtain ⟨rest, ⟨rfl, rfl⟩, rfl⟩ := hw
            exact ⟨rfl, rfl⟩
          · intro hw
            obtain ⟨hw, rfl⟩ := hw
            cases out with
            | nil => simp at hw
            | cons b rest =>
                rw [List.map_cons, List.cons.injEq, Sum.inl.injEq] at hw
                exact ⟨rest, ⟨hw.2, rfl⟩, by rw [hw.1]⟩
      | inr ref => simp at h

/-- The lines an input block expands to, as one text. -/
theorem buildInput_spells (input : List EdPiece) (s : σ) (out : Bytes) (s' : σ) :
    (∃ text, (buildInput resolve input).Yields s text s' ∧ unlines text = out) ↔
      Spells resolve (inputWord input) s out s' := by
  induction input generalizing s out with
  | nil =>
      simp only [buildInput, Fallible.yields_pure, inputWord, List.flatMap_nil, Spells]
      constructor
      · intro h
        obtain ⟨_, ⟨rfl, rfl⟩, rfl⟩ := h
        exact ⟨rfl, rfl⟩
      · intro h
        obtain ⟨rfl, rfl⟩ := h
        exact ⟨[], ⟨rfl, rfl⟩, rfl⟩
  | cons piece rest ih =>
      cases piece with
      | literal line =>
          have hword : inputWord (.literal line :: rest) =
              (line ++ [newline]).map .inl ++ inputWord rest := rfl
          rw [hword, spells_letters]
          simp only [← ih, buildInput, Fallible.yields_bind_pure]
          constructor
          · intro h
            obtain ⟨_, ⟨text, htext, rfl⟩, rfl⟩ := h
            exact ⟨unlines text, ⟨text, htext, rfl⟩, by simp⟩
          · intro h
            obtain ⟨_, ⟨text, htext, rfl⟩, rfl⟩ := h
            exact ⟨line :: text, ⟨text, htext, rfl⟩, by simp⟩
      | ref ref =>
          show _ ↔ Spells resolve (.inr ref :: inputWord rest) s out s'
          simp only [Spells, ← ih]
          cases resolve with
          | none => simp [buildInput]
          | some f =>
              simp only [buildInput, Fallible.yields_bind, Fallible.yields_pure,
                Option.some.injEq, exists_eq_left']
              constructor
              · intro h
                obtain ⟨_, ⟨lines, t, hlines, text, _, htext, rfl, rfl⟩, rfl⟩ := h
                exact ⟨lines, t, unlines text, hlines, ⟨text, htext, rfl⟩, by simp⟩
              · intro h
                obtain ⟨lines, t, _, hlines, ⟨text, htext, rfl⟩, rfl⟩ := h
                exact ⟨_, ⟨lines, t, hlines, text, s', htext, rfl, rfl⟩, by simp⟩

theorem expandCommand_spells (c : EdCommand) (s : σ) (out : Bytes) (s' : σ) :
    (∃ text, (expandCommand resolve c).Yields s text s' ∧ unlines text = out) ↔
      Spells resolve (commandWord c) s out s' := by
  rcases c with ⟨kind, start, end_, input⟩
  cases kind
  case delete =>
    show (∃ text, (buildInput resolve []).Yields s text s' ∧ unlines text = out) ↔ _
    exact buildInput_spells [] s out s'
  all_goals exact buildInput_spells input s out s'

/-! ## Blocks that can be interchanged -/

/-- Two words come to the same in either order: they are one word, or one of
them is empty, or they hold no references and their bytes commute. -/
def Interchangeable (u v : List (UInt8 ⊕ EdRef)) : Prop :=
  u = v ∨ u = [] ∨ v = [] ∨ (marks u = [] ∧ marks v = [] ∧ u ++ v = v ++ u)

instance (u v : List (UInt8 ⊕ EdRef)) : Decidable (Interchangeable u v) :=
  inferInstanceAs (Decidable (_ ∨ _ ∨ _ ∨ _))

theorem Interchangeable.refl (u : List (UInt8 ⊕ EdRef)) : Interchangeable u u := .inl rfl

theorem Interchangeable.symm {u v : List (UInt8 ⊕ EdRef)} (h : Interchangeable u v) :
    Interchangeable v u := by
  rcases h with rfl | hu | hv | ⟨hu, hv, hcomm⟩
  · exact .inl rfl
  · exact .inr (.inr (.inl hu))
  · exact .inr (.inl hv)
  · exact .inr (.inr (.inr ⟨hv, hu, hcomm.symm⟩))

/-- The first word resolved, then the second one, whose text stands in front. -/
def SpellsBoth (resolve : Option (RefResolver σ)) (u v : List (UInt8 ⊕ EdRef)) (s : σ)
    (out : Bytes) (s' : σ) : Prop :=
  ∃ a b t, Spells resolve u s a t ∧ Spells resolve v t b s' ∧ out = b ++ a

theorem Interchangeable.spellsBoth {u v : List (UInt8 ⊕ EdRef)} (h : Interchangeable u v)
    {s s' : σ} {out : Bytes} (hboth : SpellsBoth resolve u v s out s') :
    SpellsBoth resolve v u s out s' := by
  obtain ⟨a, b, t, ha, hb, rfl⟩ := hboth
  rcases h with rfl | rfl | rfl | ⟨hu, hv, hcomm⟩
  · exact ⟨a, b, t, ha, hb, rfl⟩
  · obtain ⟨rfl, rfl⟩ := ha
    exact ⟨b, [], s', hb, ⟨rfl, rfl⟩, by simp⟩
  · obtain ⟨rfl, rfl⟩ := hb
    exact ⟨[], a, s, ⟨rfl, rfl⟩, ha, by simp⟩
  · obtain ⟨rfl, rfl⟩ := (spells_of_marks_eq_nil hu s a t).mp ha
    obtain ⟨rfl, rfl⟩ := (spells_of_marks_eq_nil hv s b s').mp hb
    have hbytes : b ++ a = a ++ b := by
      rw [← List.map_append, ← List.map_append] at hcomm
      exact List.map_injective_iff.mpr Sum.inl_injective hcomm.symm
    exact ⟨b, a, s, (spells_of_marks_eq_nil hv s b s).mpr ⟨rfl, rfl⟩,
      (spells_of_marks_eq_nil hu s a s).mpr ⟨rfl, rfl⟩, hbytes⟩

/-! ## Two commands at one gap -/

/-- The first command lies above the second one, as the validator asks. -/
def Above (c d : EdCommand) : Prop := d.addressedTop < c.affectedLow

theorem validateCommandOrder_iff (fp : FilePatch) :
    validateCommandOrder fp = .ok () ↔
      (∀ c ∈ fp.commands, c.addressedTop < int64Max) ∧ fp.commands.Pairwise Above :=
  validateFrom_ok_iff _ _

/-- Another arrangement needs only the right order. -/
theorem validateCommandOrder_of_perm {fp fp' : FilePatch} (h : validateCommandOrder fp = .ok ())
    (hperm : fp'.commands.Perm fp.commands) (hpair : fp'.commands.Pairwise Above) :
    validateCommandOrder fp' = .ok () := by
  have htop := ((validateCommandOrder_iff fp).mp h).1
  exact (validateCommandOrder_iff fp').mpr ⟨fun c hc => htop c (hperm.mem_iff.mp hc), hpair⟩

/-- Both commands append behind the same line. -/
def SameGap (x y : EdCommand) : Prop :=
  x.kind = .append ∧ y.kind = .append ∧ x.start = y.start

/-- The command is out of range for every file. -/
def Malformed (c : EdCommand) : Prop :=
  match c.kind with
  | .delete | .change => c.start < 1 ∨ c.end_ < c.start
  | .append => False
  | .insert => c.start < 1

theorem Malformed.not_inRange {c : EdCommand} (h : Malformed c) (n : Nat) : ¬ c.InRange n := by
  rcases c with ⟨kind, start, end_, input⟩
  cases kind <;> simp only [Malformed, EdCommand.InRange] at h ⊢ <;> omega

theorem inRange_of_not_malformed {c : EdCommand} (h : ¬ Malformed c) {n : Nat}
    (hn : c.addressedTop ≤ n) : c.InRange n := by
  rcases c with ⟨kind, start, end_, input⟩
  cases kind <;> simp only [Malformed, EdCommand.InRange, EdCommand.addressedTop] at * <;> omega

/-- Only appends at one gap may stand in either order. -/
theorem sameGap_of_above {x y : EdCommand} (hx : ¬ Malformed x) (hy : ¬ Malformed y)
    (hxy : Above x y) (hyx : Above y x) : SameGap x y := by
  rcases x with ⟨xk, xs, xe, xi⟩
  rcases y with ⟨yk, ys, ye, yi⟩
  cases xk <;> cases yk <;>
    simp only [Malformed, Above, SameGap, EdCommand.addressedTop, EdCommand.affectedLow,
      reduceCtorEq, false_and, and_false, true_and, not_or, not_lt] at * <;>
    omega

theorem SameGap.symm {x y : EdCommand} (h : SameGap x y) : SameGap y x :=
  ⟨h.2.1, h.1, h.2.2.symm⟩

theorem SameGap.above {x y : EdCommand} (h : SameGap x y) : Above x y := by
  obtain ⟨hx, hy, hstart⟩ := h
  simp only [Above, EdCommand.addressedTop, EdCommand.affectedLow, hx, hy]
  omega

/-- Commands at one gap lie above the same commands, and below the same. -/
theorem SameGap.above_congr {x y : EdCommand} (h : SameGap x y) (c : EdCommand) :
    (Above x c ↔ Above y c) ∧ (Above c x ↔ Above c y) := by
  obtain ⟨hx, hy, hstart⟩ := h
  simp only [Above, EdCommand.addressedTop, EdCommand.affectedLow, hx, hy]
  omega

theorem SameGap.commandWord_eq {x y : EdCommand} (h : SameGap x y) :
    commandWord x = inputWord x.input ∧ commandWord y = inputWord y.input := by
  obtain ⟨hx, hy, _⟩ := h
  simp only [commandWord, hx, hy, true_and]

/-- The buffer around the texts of two commands at the gap `gap`, with the
texts `a` of the commands before them and `b` of those behind them. -/
def around (pre post : List EdCommand) (gap : Nat) (lines : List Bytes)
    (a b : List (List Bytes)) (mid : List Bytes) : List Bytes :=
  let buffer := spliceAll (List.zipWith EdCommand.edit pre a) lines
  spliceAll (List.zipWith EdCommand.edit post b) (buffer.take gap) ++ (mid ++ buffer.drop gap)

theorem unlines_around_inj {pre post : List EdCommand} {gap : Nat} {lines : List Bytes}
    {a b : List (List Bytes)} {mid mid' : List Bytes} :
    unlines (around pre post gap lines a b mid) = unlines (around pre post gap lines a b mid') ↔
      unlines mid = unlines mid' := by
  simp only [around, unlines_append, List.append_cancel_left_eq, List.append_cancel_right_eq]

/-- The edits of a script with two neighbours at one gap. -/
theorem spliceAll_sameGap {pre post : List EdCommand} {x y : EdCommand} {lines : List Bytes}
    (hgap : SameGap x y) (hpair : (pre ++ x :: y :: post).Pairwise Above)
    (hrange : ∀ c ∈ pre ++ x :: y :: post, c.InRange lines.length) {a b : List (List Bytes)}
    (ha : a.length = pre.length) (tx ty : List Bytes) :
    spliceAll (List.zipWith EdCommand.edit (pre ++ x :: y :: post) (a ++ tx :: ty :: b)) lines =
      around pre post x.start lines a b (ty ++ tx) := by
  rw [List.pairwise_append, List.pairwise_cons, List.pairwise_cons] at hpair
  obtain ⟨_, ⟨_, hbehind, hpost⟩, hfront⟩ := hpair
  rw [List.forall_mem_append, List.forall_mem_cons, List.forall_mem_cons] at hrange
  obtain ⟨hpreRange, hx, hy, hpostRange⟩ := hrange
  obtain ⟨hxk, hyk, hstart⟩ := hgap
  have hedit : ∀ t, x.edit t = ⟨x.start, x.start, t⟩ ∧ y.edit t = ⟨x.start, x.start, t⟩ := by
    intro t
    simp only [EdCommand.edit, hxk, hyk, hstart, and_self]
  have hgapRange : x.start ≤ lines.length := by
    simpa only [EdCommand.InRange, hxk] using hx
  -- the commands in front of the two leave the lines up to the gap in place
  have hbuffer : x.start ≤ (spliceAll (List.zipWith EdCommand.edit pre a) lines).length := by
    refine le_length_spliceAll ?_ hgapRange
    intro e he
    obtain ⟨c, hc, text, rfl⟩ := mem_zipWith_edit he
    have h := edit_hi_le_lo (hpreRange c hc) hx (hfront c hc x List.mem_cons_self) text []
    rwa [(hedit []).1] at h
  -- those behind them stay below it
  have hfits : ∀ e ∈ List.zipWith EdCommand.edit post b, e.Fits x.start := by
    intro e he
    obtain ⟨c, hc, text, rfl⟩ := mem_zipWith_edit he
    have h := edit_hi_le_lo hy (hpostRange c hc) (hbehind c hc) [] text
    rw [(hedit []).2] at h
    exact ⟨((hpostRange c hc).fits text).1, h⟩
  rw [List.zipWith_append ha.symm, List.zipWith_cons_cons, List.zipWith_cons_cons,
    (hedit tx).1, (hedit ty).2]
  show List.foldl _ _ _ = _
  rw [List.foldl_append]
  exact spliceAll_insertions hbuffer (descending_edits hpost hpostRange b) hfits tx ty

/-- A script with two neighbours at one gap: what comes before them, the two,
and what comes behind them. -/
theorem applyEdScript_sameGap {pre post : List EdCommand} {x y : EdCommand} {fp : FilePatch}
    (hfp : fp.commands = pre ++ x :: y :: post) (hvalid : validateCommandOrder fp = .ok ())
    (hgap : SameGap x y) (original : Bytes)
    (hrange : ∀ c ∈ fp.commands, c.InRange (splitLines original).length) (s s' : σ)
    (out : Bytes) :
    (applyEdScript fp original resolve).Yields s out s' ↔
      ∃ a b mid t u, (expandAll resolve pre).Yields s a t ∧
        SpellsBoth resolve (commandWord x) (commandWord y) t (unlines mid) u ∧
        (expandAll resolve post).Yields u b s' ∧
        out = joinLines (around pre post x.start (splitLines original) a b mid)
          (finalNewline original) := by
  have hpair := ((validateCommandOrder_iff fp).mp hvalid).2
  rw [applyEdScript_yields_iff, and_iff_right hvalid, and_iff_right hrange]
  rw [hfp] at hpair hrange ⊢
  simp only [expandAll_append]
  constructor
  · intro h
    obtain ⟨_, ⟨a, _, t, ha, htwo, rfl⟩, rfl⟩ := h
    simp only [expandAll, Fallible.yields_bind, Fallible.yields_pure] at htwo
    obtain ⟨tx, v, htx, _, _, ⟨ty, u, hty, b, _, hb, rfl, rfl⟩, rfl, rfl⟩ := htwo
    refine ⟨a, b, ty ++ tx, t, u, ha, ⟨unlines tx, unlines ty, v, ?_, ?_, ?_⟩, hb, ?_⟩
    · exact (expandCommand_spells x t _ v).mp ⟨tx, htx, rfl⟩
    · exact (expandCommand_spells y v _ u).mp ⟨ty, hty, rfl⟩
    · exact unlines_append ty tx
    · rw [spliceAll_sameGap hgap hpair hrange (length_of_expandAll ha)]
  · intro h
    obtain ⟨a, b, mid, t, u, ha, ⟨_, _, v, hx, hy, hmid⟩, hb, rfl⟩ := h
    obtain ⟨tx, htx, rfl⟩ := (expandCommand_spells x t _ v).mpr hx
    obtain ⟨ty, hty, rfl⟩ := (expandCommand_spells y v _ u).mpr hy
    have htwo : (expandAll resolve (x :: y :: post)).Yields t (tx :: ty :: b) s' := by
      simp only [expandAll, Fallible.yields_bind, Fallible.yields_pure]
      exact ⟨tx, v, htx, ty :: b, s', ⟨ty, u, hty, b, s', hb, rfl, rfl⟩, rfl, rfl⟩
    refine ⟨a ++ tx :: ty :: b, ⟨a, _, t, ha, htwo, rfl⟩, ?_⟩
    rw [spliceAll_sameGap hgap hpair hrange (length_of_expandAll ha)]
    -- the lines between may be cut otherwise, the text is the same
    apply joinWith_congr
    rw [unlines_around_inj, hmid, unlines_append]

/-! ## Interchangeable blocks are enough -/

/-- The two patches give the same result for every original and every
resolver: both fail, or both succeed with the same output. -/
def SameResult (fp fp' : FilePatch) : Prop :=
  ∀ (σ : Type) (resolve : Option (RefResolver σ)) (original : Bytes) (s : σ) (out : Bytes),
    (∃ s', (applyEdScript fp original resolve).Yields s out s') ↔
      ∃ s', (applyEdScript fp' original resolve).Yields s out s'

/-- Every accepted order of the commands gives the same result. -/
def OrderIndependent (fp : FilePatch) : Prop :=
  ∀ fp' : FilePatch, fp'.commands.Perm fp.commands → validateCommandOrder fp' = .ok () →
    SameResult fp fp'

theorem yields_of_swap {pre post : List EdCommand} {x y : EdCommand} {fp fp' : FilePatch}
    (hfp : fp.commands = pre ++ x :: y :: post) (hfp' : fp'.commands = pre ++ y :: x :: post)
    (hvalid' : validateCommandOrder fp' = .ok ()) (hgap : SameGap x y)
    (hwords : Interchangeable (inputWord x.input) (inputWord y.input)) {original out : Bytes}
    {s s' : σ} (h : (applyEdScript fp original resolve).Yields s out s') :
    (applyEdScript fp' original resolve).Yields s out s' := by
  obtain ⟨hvalid, hrange, _⟩ := applyEdScript_yields_iff.mp h
  have hrange' : ∀ c ∈ fp'.commands, c.InRange (splitLines original).length := by
    intro c hc
    apply hrange
    rw [hfp'] at hc
    rw [hfp]
    exact mem_swap.mp hc
  rw [applyEdScript_sameGap hfp hvalid hgap original hrange] at h
  rw [applyEdScript_sameGap hfp' hvalid' hgap.symm original hrange', ← hgap.2.2]
  obtain ⟨a, b, mid, t, u, ha, hboth, hb, rfl⟩ := h
  rw [hgap.commandWord_eq.1, hgap.commandWord_eq.2] at *
  exact ⟨a, b, mid, t, u, ha, hwords.spellsBoth hboth, hb, rfl⟩

/-- Swaps of interchangeable neighbours keep the result. -/
theorem sameResult_of_exchange {cs ds : List EdCommand} (h : Exchange Above cs ds)
    (htop : ∀ c ∈ cs, c.addressedTop < int64Max) (hpair : cs.Pairwise Above)
    (hwell : ∀ c ∈ cs, ¬ Malformed c)
    (hwords : ∀ x ∈ cs, ∀ y ∈ cs, SameGap x y →
      Interchangeable (inputWord x.input) (inputWord y.input)) (creates creates' : Bool) :
    SameResult ⟨cs, creates⟩ ⟨ds, creates'⟩ := by
  induction h with
  | refl cs => exact fun _ _ _ _ _ => Iff.rfl
  | swap pre x y post hxy hyx rest ih =>
      have hpair' : (pre ++ y :: x :: post).Pairwise Above :=
        @pairwise_move _ _ pre [x] post y (List.forall_mem_singleton.mpr hyx) hpair
      have hx : x ∈ pre ++ x :: y :: post := by simp
      have hy : y ∈ pre ++ x :: y :: post := by simp
      have hgap := sameGap_of_above (hwell x hx) (hwell y hy) hxy hyx
      have hvalid : validateCommandOrder ⟨pre ++ x :: y :: post, creates⟩ = .ok () :=
        (validateCommandOrder_iff _).mpr ⟨htop, hpair⟩
      have hvalid' : validateCommandOrder ⟨pre ++ y :: x :: post, creates⟩ = .ok () :=
        (validateCommandOrder_iff _).mpr ⟨fun c hc => htop c (mem_swap.mp hc), hpair'⟩
      have hswap : SameResult ⟨pre ++ x :: y :: post, creates⟩
          ⟨pre ++ y :: x :: post, creates⟩ := by
        intro σ resolve original s out
        constructor
        · intro h
          obtain ⟨s', h⟩ := h
          exact ⟨s', yields_of_swap rfl rfl hvalid' hgap (hwords x hx y hy hgap) h⟩
        · intro h
          obtain ⟨s', h⟩ := h
          exact ⟨s', yields_of_swap rfl rfl hvalid hgap.symm (hwords x hx y hy hgap).symm h⟩
      have hrest := ih (fun c hc => htop c (mem_swap.mp hc)) hpair'
        (fun c hc => hwell c (mem_swap.mp hc))
        fun c hc d hd => hwords c (mem_swap.mp hc) d (mem_swap.mp hd)
      intro σ resolve original s out
      exact (hswap σ resolve original s out).trans (hrest σ resolve original s out)

/-! ## A resolver that tells blocks apart -/

/-- The two one-line answers. -/
def answerLine (b : Bool) : Bytes := [if b then 65 else 66]

/-- A resolver that counts its calls and answers each one as `ψ` says: with no
line, or with one of two lines. -/
def telling (ψ : Nat × EdRef → Option Bool) : RefResolver Nat := fun ref =>
  Fallible.mk fun k => (.ok ((ψ (k, ref)).elim [] fun b => [answerLine b]), k + 1)

/-- What the two answers to a reference come to. -/
def answerText (m : Nat × EdRef) (b : Bool) : Bytes := unlines [m.2.expandLine (answerLine b)]

theorem expandLine_answerLine (ref : EdRef) :
    ∃ front back : Bytes, ∀ b, ref.expandLine (answerLine b) = front ++ answerLine b ++ back := by
  rcases htransform : ref.transform with _ | _
  · exact ⟨[], [], fun b => by simp [EdRef.expandLine, htransform]⟩
  · refine ⟨ref.lpad, ref.rpad, fun b => ?_⟩
    have htrim : trimBlanks (answerLine b) = answerLine b := by cases b <;> decide
    simp only [EdRef.expandLine, htransform, htrim]

theorem length_answerText (m : Nat × EdRef) :
    (answerText m true).length = (answerText m false).length := by
  obtain ⟨front, back, h⟩ := expandLine_answerLine m.2
  rw [answerText, answerText, h, h]
  simp [answerLine]

theorem answerText_ne (m : Nat × EdRef) : answerText m true ≠ answerText m false := by
  obtain ⟨front, back, h⟩ := expandLine_answerLine m.2
  rw [answerText, answerText, h, h]
  simp [answerLine]

theorem telling_yields {ψ : Nat × EdRef → Option Bool} {ref : EdRef} {k t : Nat}
    {lines : List Bytes} :
    (telling ψ ref).Yields k lines t ↔
      lines = (ψ (k, ref)).elim [] (fun b => [answerLine b]) ∧ t = k + 1 := by
  simp [telling, Fallible.Yields, eq_comm]

/-- With this resolver a word is filled in call by call. -/
theorem spells_telling (ψ : Nat × EdRef → Option Bool) (w : List (UInt8 ⊕ EdRef)) (k : Nat)
    (out : Bytes) (t : Nat) :
    Spells (some (telling ψ)) w k out t ↔
      out = fill (filling answerText ψ) (number k w) ∧ t = k + (marks w).length := by
  induction w generalizing k out with
  | nil =>
      show out = [] ∧ k = t ↔ out = [] ∧ t = k + 0
      rw [Nat.add_zero, eq_comm (a := k)]
  | cons c w ih =>
      cases c with
      | inl c =>
          simp only [Spells, ih, number, fill_letter, marks_letter]
          constructor
          · intro h
            obtain ⟨_, ⟨rfl, rfl⟩, rfl⟩ := h
            exact ⟨rfl, rfl⟩
          · intro h
            obtain ⟨rfl, rfl⟩ := h
            exact ⟨_, ⟨rfl, rfl⟩, rfl⟩
      | inr ref =>
          have hanswer : unlines (((ψ (k, ref)).elim [] fun b => [answerLine b]).map
              ref.expandLine) = filling answerText ψ (k, ref) := by
            cases hψ : ψ (k, ref) <;> simp [filling, hψ, answerText]
          have hcount : k + 1 + (marks w).length = k + (marks (.inr ref :: w)).length := by
            rw [marks_mark, List.length_cons]
            omega
          simp only [Spells, telling_yields, ih, number, fill_mark, Option.some.injEq,
            exists_eq_left', ← hcount]
          constructor
          · intro h
            obtain ⟨_, _, _, ⟨rfl, rfl⟩, ⟨rfl, rfl⟩, rfl⟩ := h
            exact ⟨by rw [hanswer], rfl⟩
          · intro h
            obtain ⟨rfl, rfl⟩ := h
            exact ⟨_, _, _, ⟨rfl, rfl⟩, ⟨rfl, rfl⟩, by rw [hanswer]⟩

/-- It answers every reference. -/
theorem telling_resolves (ψ : Nat × EdRef → Option Bool) (refs : List EdRef) (k : Nat) :
    ResolveAll (some (telling ψ)) refs k (k + refs.length) := by
  induction refs generalizing k with
  | nil => rfl
  | cons ref refs ih =>
      have hrest := ih (k + 1)
      rw [show k + 1 + refs.length = k + (ref :: refs).length by rw [List.length_cons]; omega]
        at hrest
      exact ⟨telling ψ, rfl, _, k + 1, telling_yields.mpr ⟨rfl, rfl⟩, hrest⟩

theorem telling_expands (ψ : Nat × EdRef → Option Bool) (cs : List EdCommand) (k : Nat) :
    ∃ texts t, (expandAll (some (telling ψ)) cs).Yields k texts t ∧
      t = k + (cs.flatMap commandRefs).length := by
  obtain ⟨texts, h⟩ := (expandAll_yields_iff cs k _).mpr (telling_resolves ψ _ k)
  exact ⟨texts, _, h, rfl⟩

/-- A file of empty lines. -/
def blankFile (n : Nat) : Bytes := unlines (List.replicate n [])

theorem splitLines_blankFile (n : Nat) : splitLines (blankFile n) = List.replicate n [] :=
  splitLines_unlines (by simp)

theorem finalNewline_blankFile (n : Nat) : finalNewline (blankFile n) = true := by
  cases n with
  | zero => rfl
  | succ n =>
      rw [finalNewline, endsWithNl, blankFile, List.replicate_succ', unlines_append]
      simp

/-- What an accepted script with two neighbours at one gap makes of empty
lines, around the words of the two. -/
theorem telling_frame (ψ : Nat × EdRef → Option Bool) (pre post : List EdCommand)
    (gap count lines : Nat) :
    ∃ front back : Bytes, ∀ (x y : EdCommand) (fp : FilePatch),
      fp.commands = pre ++ x :: y :: post → validateCommandOrder fp = .ok () → SameGap x y →
      x.start = gap → (∀ c ∈ fp.commands, c.InRange lines) →
      (marks (inputWord x.input)).length + (marks (inputWord y.input)).length = count →
      ∃ s', (applyEdScript fp (blankFile lines) (some (telling ψ))).Yields 0
        (front ++ (fill (filling answerText ψ)
          (number ((pre.flatMap commandRefs).length + (marks (inputWord x.input)).length)
              (inputWord y.input) ++
            number (pre.flatMap commandRefs).length (inputWord x.input)) ++ back)) s' := by
  obtain ⟨a, k, ha, hk⟩ := telling_expands ψ pre 0
  rw [Nat.zero_add] at hk
  obtain ⟨b, s', hb, _⟩ := telling_expands ψ post (k + count)
  let buffer := spliceAll (List.zipWith EdCommand.edit pre a) (List.replicate lines [])
  refine ⟨unlines (spliceAll (List.zipWith EdCommand.edit post b) (buffer.take gap)),
    unlines (buffer.drop gap), ?_⟩
  intro x y fp hfp hvalid hgap hstart hrange hcount
  refine ⟨s', ?_⟩
  have hlen : (splitLines (blankFile lines)).length = lines := by
    rw [splitLines_blankFile, List.length_replicate]
  rw [applyEdScript_sameGap hfp hvalid hgap _ (by rwa [hlen]), hgap.commandWord_eq.1,
    hgap.commandWord_eq.2]
  obtain ⟨tx, htx, hxtext⟩ := (buildInput_spells x.input k _ _).mpr
    ((spells_telling ψ _ _ _ _).mpr ⟨rfl, rfl⟩)
  obtain ⟨ty, hty, hytext⟩ := (buildInput_spells y.input _ _ _).mpr
    ((spells_telling ψ _ (k + (marks (inputWord x.input)).length) _ _).mpr ⟨rfl, rfl⟩)
  have hboth : SpellsBoth (some (telling ψ)) (inputWord x.input) (inputWord y.input) k
      (unlines (ty ++ tx)) (k + count) := by
    refine ⟨unlines tx, unlines ty, _, (buildInput_spells _ _ _ _).mp ⟨tx, htx, rfl⟩, ?_,
      unlines_append ty tx⟩
    rw [← hcount, ← Nat.add_assoc]
    exact (buildInput_spells _ _ _ _).mp ⟨ty, hty, rfl⟩
  refine ⟨a, b, ty ++ tx, k, k + count, ha, hboth, hb, ?_⟩
  rw [finalNewline_blankFile, joinLines, joinWith_true, splitLines_blankFile, hstart, around,
    unlines_append, unlines_append, unlines_append, hxtext, hytext, fill_append, ← hk]

/-- Neighbours that give the same result in either order hold interchangeable
blocks. -/
theorem interchangeable_of_sameResult {pre post : List EdCommand} {x y : EdCommand}
    {fp fp' : FilePatch} (hfp : fp.commands = pre ++ x :: y :: post)
    (hfp' : fp'.commands = pre ++ y :: x :: post) (hvalid : validateCommandOrder fp = .ok ())
    (hvalid' : validateCommandOrder fp' = .ok ()) (hgap : SameGap x y)
    (hwell : ∀ c ∈ fp.commands, ¬ Malformed c) (h : SameResult fp fp') :
    Interchangeable (inputWord x.input) (inputWord y.input) := by
  -- a file long enough for every address
  have htop := ((validateCommandOrder_iff fp).mp hvalid).1
  have hrange : ∀ c ∈ fp.commands, c.InRange int64Max := fun c hc =>
    inRange_of_not_malformed (hwell c hc) (htop c hc).le
  have hrange' : ∀ c ∈ fp'.commands, c.InRange int64Max := by
    intro c hc
    apply hrange
    rw [hfp'] at hc
    rw [hfp]
    exact mem_swap.mp hc
  let k := (pre.flatMap commandRefs).length
  let u := inputWord x.input
  let v := inputWord y.input
  have hfill : ∀ ψ, fill (filling answerText ψ) (number (k + (marks u).length) v ++ number k u) =
      fill (filling answerText ψ) (number (k + (marks v).length) u ++ number k v) := by
    intro ψ
    obtain ⟨front, back, hframe⟩ := telling_frame ψ pre post x.start
      ((marks u).length + (marks v).length) int64Max
    have hxy := hframe x y fp hfp hvalid hgap rfl hrange rfl
    obtain ⟨_, hyx⟩ := hframe y x fp' hfp' hvalid' hgap.symm hgap.2.2.symm hrange'
      (Nat.add_comm _ _)
    obtain ⟨_, hxy'⟩ := (h Nat _ _ 0 _).mp hxy
    exact List.append_cancel_right (List.append_cancel_left (hxy'.unique hyx).1)
  have hnumbered := eq_of_fill_eq length_answerText answerText_ne (nodup_marks_number u v le_rfl)
    (nodup_marks_number v u le_rfl) hfill
  rcases interchange hnumbered with heq | hu | hv | ⟨hu, hv⟩
  · exact .inl heq
  · exact .inr (.inl hu)
  · exact .inr (.inr (.inl hv))
  · have hwords := congrArg (List.map (Sum.map id Prod.snd)) hnumbered
    rw [List.map_append, List.map_append, forget_number, forget_number, forget_number,
      forget_number] at hwords
    exact .inr (.inr (.inr ⟨hu, hv, hwords.symm⟩))

theorem exists_between_of_sublist {α : Type*} {x y : α} {l : List α} (h : [x, y].Sublist l) :
    ∃ pre mid post, l = pre ++ x :: (mid ++ y :: post) := by
  obtain ⟨r, t, rfl, hx, hy⟩ := List.cons_sublist_iff.mp h
  obtain ⟨pre, m, rfl⟩ := List.append_of_mem hx
  obtain ⟨m', post, rfl⟩ := List.append_of_mem (List.singleton_sublist.mp hy)
  exact ⟨pre, m ++ m', post, by simp⟩

/-- Two commands at one gap can be made neighbours, in either order. -/
theorem interchangeable_of_orderIndependent {pre mid post : List EdCommand} {x y : EdCommand}
    {fp : FilePatch} (hfp : fp.commands = pre ++ x :: (mid ++ y :: post))
    (hvalid : validateCommandOrder fp = .ok ()) (hwell : ∀ c ∈ fp.commands, ¬ Malformed c)
    (hgap : SameGap x y) (h : OrderIndependent fp) :
    Interchangeable (inputWord x.input) (inputWord y.input) := by
  have hpair := ((validateCommandOrder_iff fp).mp hvalid).2
  let near : FilePatch := ⟨pre ++ x :: y :: (mid ++ post), fp.creates⟩
  let swapped : FilePatch := ⟨pre ++ y :: x :: (mid ++ post), fp.creates⟩
  have hnear : near.commands.Perm fp.commands := by
    rw [hfp]
    exact (List.Perm.cons x List.perm_middle.symm).append_left pre
  have hswapped : swapped.commands.Perm fp.commands :=
    ((List.Perm.swap x y (mid ++ post)).append_left pre).trans hnear
  -- what lies below the first of the two lies below the second
  have hbelow : ∀ m ∈ mid, Above y m := by
    intro m hm
    rw [hfp, List.pairwise_append, List.pairwise_cons] at hpair
    exact (hgap.above_congr m).1.mp (hpair.2.1.1 m (List.mem_append_left _ hm))
  have hnearPair : near.commands.Pairwise Above := by
    rw [hfp, List.append_cons] at hpair
    have hmove := pairwise_move hbelow hpair
    rwa [← List.append_cons] at hmove
  have hswappedPair : swapped.commands.Pairwise Above :=
    @pairwise_move _ _ pre [x] (mid ++ post) y (List.forall_mem_singleton.mpr hgap.symm.above)
      hnearPair
  have hnearValid := validateCommandOrder_of_perm hvalid hnear hnearPair
  have hswappedValid := validateCommandOrder_of_perm hvalid hswapped hswappedPair
  have hsame : SameResult near swapped := by
    intro σ resolve original s out
    exact (h near hnear hnearValid σ resolve original s out).symm.trans
      (h swapped hswapped hswappedValid σ resolve original s out)
  exact interchangeable_of_sameResult rfl rfl hnearValid hswappedValid hgap
    (fun c hc => hwell c (hnear.mem_iff.mp hc)) hsame

/-- **Order independence.** An accepted script gives one result in all its
accepted orders if and only if one of its commands is out of range for every
file, or any two of its commands that append behind one line have
interchangeable input blocks. -/
theorem order_independent_iff {fp : FilePatch} (hvalid : validateCommandOrder fp = .ok ()) :
    OrderIndependent fp ↔
      (∃ c ∈ fp.commands, Malformed c) ∨
        ∀ x ∈ fp.commands, ∀ y ∈ fp.commands, SameGap x y →
          Interchangeable (inputWord x.input) (inputWord y.input) := by
  obtain ⟨htop, hpair⟩ := (validateCommandOrder_iff fp).mp hvalid
  by_cases hbad : ∃ c ∈ fp.commands, Malformed c
  · -- no order applies to any file
    refine iff_of_true ?_ (.inl hbad)
    obtain ⟨c, hc, hmalformed⟩ := hbad
    intro fp' hperm _ σ resolve original s out
    refine iff_of_false ?_ ?_
    · intro h
      obtain ⟨s', h⟩ := h
      exact hmalformed.not_inRange _ ((applyEdScript_yields_iff.mp h).2.1 c hc)
    · intro h
      obtain ⟨s', h⟩ := h
      exact hmalformed.not_inRange _
        ((applyEdScript_yields_iff.mp h).2.1 c (hperm.mem_iff.mpr hc))
  · have hwell : ∀ c ∈ fp.commands, ¬ Malformed c := fun c hc h => hbad ⟨c, hc, h⟩
    rw [or_iff_right hbad]
    constructor
    · intro h
      -- it is enough to look at a command and a later one
      have hlater : fp.commands.Pairwise fun x y => SameGap x y →
          Interchangeable (inputWord x.input) (inputWord y.input) := by
        rw [List.pairwise_iff_forall_sublist]
        intro x y hsub hgap
        obtain ⟨pre, mid, post, hcommands⟩ := exists_between_of_sublist hsub
        exact interchangeable_of_orderIndependent hcommands hvalid hwell hgap h
      have hsymm : Std.Symm fun x y : EdCommand => SameGap x y →
          Interchangeable (inputWord x.input) (inputWord y.input) :=
        ⟨fun x y hxy hgap => (hxy hgap.symm).symm⟩
      intro x hx y hy
      exact List.Pairwise.forall_of_forall (fun x _ _ => Interchangeable.refl _) hlater hx hy
    · intro hwords fp' hperm hvalid'
      have hpair' := ((validateCommandOrder_iff fp').mp hvalid').2
      exact sameResult_of_exchange (exchange_of_perm hperm hpair hpair') htop hpair hwell hwords
        fp.creates fp'.creates

/-- `1a` with one text, and `1a` again with another one. -/
def twoAppends (first second : Bytes) : FilePatch where
  commands := [⟨.append, 1, 1, [.literal first]⟩, ⟨.append, 1, 1, [.literal second]⟩]

theorem order_independent_same : OrderIndependent (twoAppends (ascii "X") (ascii "X")) := by
  refine (order_independent_iff rfl).mpr (.inr fun x hx y hy _ => ?_)
  have hone : ∀ c ∈ (twoAppends (ascii "X") (ascii "X")).commands,
      c.input = [.literal (ascii "X")] := by
    decide
  rw [hone x hx, hone y hy]
  exact Interchangeable.refl _

/-- The validator accepts both orders of two appends behind line 1, and they
put the two lines the other way round. -/
theorem two_appends_order_dependent :
    validateCommandOrder (twoAppends (ascii "X") (ascii "Y")) = .ok () ∧
      (twoAppends (ascii "Y") (ascii "X")).commands.Perm
        (twoAppends (ascii "X") (ascii "Y")).commands ∧
      validateCommandOrder (twoAppends (ascii "Y") (ascii "X")) = .ok () ∧
      ((applyEdScript (twoAppends (ascii "X") (ascii "Y")) (ascii "a\nb\n")
        (none : Option (RefResolver Unit))).outcome ()).1 = .ok (ascii "a\nY\nX\nb\n") ∧
      ((applyEdScript (twoAppends (ascii "Y") (ascii "X")) (ascii "a\nb\n")
        (none : Option (RefResolver Unit))).outcome ()).1 = .ok (ascii "a\nX\nY\nb\n") ∧
      ¬ OrderIndependent (twoAppends (ascii "X") (ascii "Y")) := by
  have hperm : (twoAppends (ascii "Y") (ascii "X")).commands.Perm
      (twoAppends (ascii "X") (ascii "Y")).commands := List.Perm.swap _ _ _
  refine ⟨rfl, hperm, rfl, rfl, rfl, ?_⟩
  intro h
  obtain ⟨⟨⟩, hyields⟩ := (h _ hperm rfl Unit none (ascii "a\nb\n") () (ascii "a\nY\nX\nb\n")).mp
    ⟨(), rfl⟩
  exact absurd hyields (by unfold Fallible.Yields; decide)

end Phpatcher.Theorems
