import Phpatcher.Theorems.OriginalLines
import Phpatcher.Tools.CommandLines

/-!
# The changes of a diff are its edit script

Three counters (`last_old`, `old_start`, `append_after`) decide which old
lines a change names. The invariant that ties them to the file is
`Collected`: the changes flushed so far, in reverse, are an accepted script
that rewrites the old lines seen so far into the new ones (`Accepted`), and
the change under construction continues it.
-/

namespace Phpatcher.Theorems

open Phpatcher.Basis Phpatcher.Core Phpatcher.Tools

/-! ## Scripts of literal commands -/

/-- The lines of an input block that are literal. -/
def literals (input : List EdPiece) : List Bytes :=
  input.filterMap fun
    | .literal line => some line
    | .ref _ => none

/-- The edit of a command whose input is literal. -/
def literalEdit (c : EdCommand) : Edit Bytes := c.edit (literals c.input)

/-- A script that the applier accepts on every file that starts with the lines
`old`, and that rewrites these into `out`. -/
structure Accepted (cs : List EdCommand) (old out : List Bytes) : Prop where
  descending : cs.Pairwise fun c d => d.addressedTop < c.affectedLow
  below : ∀ c ∈ cs, c.addressedTop ≤ old.length
  inRange : ∀ c ∈ cs, c.InRange old.length
  literal : ∀ c ∈ cs, c.input = (literals c.input).map .literal
  rewrites : Rewrites (cs.map literalEdit) old out

theorem Accepted.nil : Accepted [] [] [] where
  descending := List.Pairwise.nil
  below := by simp
  inRange := by simp
  literal := by simp
  rewrites := Rewrites.nil

theorem inRange_mono {c : EdCommand} {m n : Nat} (hmn : m ≤ n) (h : c.InRange m) :
    c.InRange n := by
  rcases c with ⟨kind, start, end_, input⟩
  cases kind <;> simp only [EdCommand.InRange] at h ⊢ <;> omega

/-- Old lines that follow and are not edited are kept. -/
theorem Accepted.keep {cs : List EdCommand} {old out : List Bytes} (h : Accepted cs old out)
    (kept : List Bytes) : Accepted cs (old ++ kept) (out ++ kept) where
  descending := h.descending
  below c hc := by
    have := h.below c hc
    rw [List.length_append]
    omega
  inRange c hc := inRange_mono (by rw [List.length_append]; omega) (h.inRange c hc)
  literal := h.literal
  rewrites := h.rewrites.keep kept

@[simp] theorem literals_map_literal (lines : List Bytes) :
    literals (lines.map .literal) = lines := by
  induction lines with
  | nil => rfl
  | cons line lines ih => simp [literals]

/-- The change names the old lines `dels` that follow `before` others, or the
gap behind these when there is nothing to delete. -/
def Names (c : Change) (before : Nat) (dels : List Bytes) : Prop :=
  if dels = [] then c.oldCount = 0 ∧ c.appendAfter = before
  else c.oldStart = before + 1 ∧ c.oldCount = dels.length

/-- The command of a change stays behind the lines in front of it, is in range
for the lines it names, and stands for their replacement. -/
theorem Names.command {c : Change} {before : Nat} {dels : List Bytes} (h : Names c before dels) :
    before < (commandOf c).affectedLow ∧
      (commandOf c).addressedTop ≤ before + dels.length ∧
      (commandOf c).InRange (before + dels.length) ∧
      literalEdit (commandOf c) = ⟨before, before + dels.length, c.added⟩ := by
  unfold Names at h
  split at h
  next hnil =>
    -- nothing to delete: an append behind the line `before`
    obtain ⟨hcount, hafter⟩ := h
    subst hnil
    simp [commandOf, hcount, hafter, EdCommand.affectedLow, EdCommand.addressedTop,
      EdCommand.InRange, literalEdit, EdCommand.edit]
  next hne =>
    obtain ⟨hstart, hcount⟩ := h
    have hpos : 0 < dels.length := List.length_pos_iff.mpr hne
    have hzero : c.oldCount ≠ 0 := by omega
    -- a deletion or a change of the lines `before + 1, ..., before + dels.length`
    by_cases hadded : c.added = [] <;>
      simp [commandOf, hzero, hadded, hstart, EdCommand.affectedLow, EdCommand.addressedTop,
        EdCommand.InRange, literalEdit, EdCommand.edit] <;>
      omega

/-- One more change, of the old lines that follow. -/
theorem Accepted.change {cs : List EdCommand} {old out : List Bytes} (h : Accepted cs old out)
    {c : Change} {dels : List Bytes} (hnames : Names c old.length dels) :
    Accepted (commandOf c :: cs) (old ++ dels) (out ++ c.added) := by
  obtain ⟨hlow, htop, hrange, hedit⟩ := hnames.command
  rw [← List.length_append] at htop hrange
  have hlit : (commandOf c).input = (literals (commandOf c).input).map .literal := by
    by_cases hcount : c.oldCount = 0
    · simp [commandOf, hcount]
    · by_cases hadded : c.added = [] <;> simp [commandOf, hcount, hadded, literals]
  have hkeep := h.keep dels
  exact {
    descending := List.pairwise_cons.mpr
      ⟨fun d hd => (h.below d hd).trans_lt hlow, h.descending⟩
    below := List.forall_mem_cons.mpr ⟨htop, hkeep.below⟩
    inRange := List.forall_mem_cons.mpr ⟨hrange, hkeep.inRange⟩
    literal := List.forall_mem_cons.mpr ⟨hlit, h.literal⟩
    rewrites := by
      rw [List.map_cons, hedit]
      exact h.rewrites.edit dels c.added }

/-! ## The collector -/

/-- A line without its newline. -/
def chomp (line : Bytes) : Bytes := dropLastByte newline line

/-- How a new line comes out: an added one as `strip_eol` renders it, any other
one without its newline. -/
def renderLine (added : Bool) (line : Bytes) : Bytes := if added then stripEol line else chomp line

/-- The old lines of some items, without their newlines. -/
def oldSide (items : List DiffItem) : List Bytes := (items.filterMap DiffItem.oldLine?).map chomp

/-- The new lines of some items, as they come out. -/
def newSide (items : List DiffItem) : List Bytes :=
  (items.filterMap DiffItem.newLine?).map fun p => renderLine p.1 p.2

/-- The collector behind the old lines `old`, of which the patched file makes
`out`. A change under construction has the old lines `dels` behind it; while
`added` is off it has no additions yet. -/
structure Collected (p : DiffPayload) (old out : List Bytes) (added : Bool) : Prop where
  lastOld : p.lastOld = old.length
  split : ∃ before dels done, old = before ++ dels ∧ out = done ++ p.current.added ∧
    Accepted (p.changes.reverse.map commandOf) before done ∧
    if p.inChange then
      Names p.current before.length dels ∧ (added = false → p.current.added = [] ∧ dels ≠ [])
    else dels = [] ∧ p.current = {}

/-- With the change under construction flushed, the changes account for
everything seen so far. -/
theorem Collected.flush {p : DiffPayload} {old out : List Bytes} {added : Bool}
    (h : Collected p old out added) :
    Accepted (p.flush.changes.reverse.map commandOf) old out ∧ p.flush.inChange = false ∧
      p.flush.current = {} := by
  obtain ⟨before, dels, done, rfl, rfl, hdone, hcur⟩ := h.split
  cases hin : p.inChange
  · -- no change is open
    rw [hin, if_neg Bool.false_ne_true] at hcur
    obtain ⟨rfl, hempty⟩ := hcur
    simpa [DiffPayload.flush, hin, hempty] using hdone
  · rw [hin, if_pos rfl] at hcur
    have hchange := hdone.change hcur.1
    simpa [DiffPayload.flush, hin] using hchange

/-- A state whose changes account for everything. -/
theorem Accepted.collected {p : DiffPayload} {old out : List Bytes}
    (h : Accepted (p.changes.reverse.map commandOf) old out)
    (hin : p.inChange = false) (hcur : p.current = {}) {n : Nat} (hn : n = old.length)
    (added : Bool) : Collected { p with lastOld := n } old out added where
  lastOld := hn
  split := ⟨old, [], out, by simp, by simp [hcur], h, by simp [hin, hcur]⟩

theorem Collected.keep {p : DiffPayload} {old out : List Bytes} {added : Bool}
    (h : Collected p old out added) (line : Bytes) :
    Collected (lineCb p (.context (old.length + 1) line)) (old ++ [chomp line])
      (out ++ [chomp line]) false := by
  obtain ⟨hacc, hin, hcur⟩ := h.flush
  exact (hacc.keep [chomp line]).collected hin hcur (by simp) false

theorem Collected.del {p : DiffPayload} {old out : List Bytes}
    (h : Collected p old out false) (line : Bytes) :
    Collected (lineCb p (.deletion (old.length + 1) line)) (old ++ [chomp line]) out false := by
  refine ⟨by simp [lineCb], ?_⟩
  obtain ⟨before, dels, done, rfl, rfl, hdone, hcur⟩ := h.split
  refine ⟨before, dels ++ [chomp line], done, by simp, ?_⟩
  cases hin : p.inChange
  · rw [hin, if_neg Bool.false_ne_true] at hcur
    obtain ⟨rfl, hempty⟩ := hcur
    refine ⟨by simp [lineCb, DiffPayload.startChange, hin, hempty], ?_, ?_⟩
    · simpa [lineCb, DiffPayload.startChange, hin] using hdone
    · -- the deletion opens a change at its own line
      simp [lineCb, DiffPayload.startChange, hin, Names]
  · rw [hin, if_pos rfl] at hcur
    obtain ⟨hnames, hnone⟩ := hcur
    obtain ⟨hadded, hdels⟩ := hnone rfl
    rw [Names, if_neg hdels] at hnames
    refine ⟨by simp [lineCb, DiffPayload.startChange, hin], ?_, ?_⟩
    · simpa [lineCb, DiffPayload.startChange, hin] using hdone
    · simp [lineCb, DiffPayload.startChange, hin, Names, hnames, hadded]

theorem Collected.add {p : DiffPayload} {old out : List Bytes} {added : Bool}
    (h : Collected p old out added) (line : Bytes) :
    Collected (lineCb p (.addition line)) old (out ++ [stripEol line]) true := by
  have hlast := h.lastOld
  obtain ⟨before, dels, done, rfl, rfl, hdone, hcur⟩ := h.split
  cases hin : p.inChange
  · rw [hin, if_neg Bool.false_ne_true] at hcur
    obtain ⟨rfl, hempty⟩ := hcur
    refine ⟨by simpa [lineCb, DiffPayload.startChange, hin] using hlast, before, [], done, rfl,
      by simp [lineCb, DiffPayload.startChange, hin, hempty], ?_, ?_⟩
    · simpa [lineCb, DiffPayload.startChange, hin] using hdone
    · -- the addition opens a change behind the last old line seen
      simp [lineCb, DiffPayload.startChange, hin, Names, hlast]
  · rw [hin, if_pos rfl] at hcur
    refine ⟨by simpa [lineCb, DiffPayload.startChange, hin] using hlast, before, dels, done, rfl,
      by simp [lineCb, DiffPayload.startChange, hin], ?_, ?_⟩
    · simpa [lineCb, DiffPayload.startChange, hin] using hdone
    · simpa [lineCb, DiffPayload.startChange, hin, Names] using hcur.1

@[simp] theorem oldSide_cons (item : DiffItem) (items : List DiffItem) :
    oldSide (item :: items) = (item.oldLine?.map chomp).toList ++ oldSide items := by
  cases item <;> simp [oldSide, DiffItem.oldLine?, List.filterMap_cons]

@[simp] theorem newSide_cons (item : DiffItem) (items : List DiffItem) :
    newSide (item :: items) =
      (item.newLine?.map fun p => renderLine p.1 p.2).toList ++ newSide items := by
  cases item <;> simp [newSide, DiffItem.newLine?, List.filterMap_cons]

/-- The lines of a hunk, one callback after the other. -/
theorem Collected.items {p : DiffPayload} {old out : List Bytes} {added : Bool}
    {items : List DiffItem} (h : Collected p old out added) (hord : GroupsOrdered added items) :
    ∃ added', Collected ((lineCallbacks old.length items).foldl DiffPayload.step p)
      (old ++ oldSide items) (out ++ newSide items) added' := by
  induction items generalizing p old out added with
  | nil => exact ⟨added, by simpa [lineCallbacks, oldSide, newSide] using h⟩
  | cons item items ih =>
      rw [oldSide_cons, newSide_cons]
      cases item with
      | keep line =>
          obtain ⟨added', hrest⟩ := ih (h.keep line) hord
          exact ⟨added', by
            simpa [lineCallbacks, DiffPayload.step, DiffItem.oldLine?, DiffItem.newLine?,
              renderLine] using hrest⟩
      | del line =>
          obtain ⟨rfl, hord⟩ := hord
          obtain ⟨added', hrest⟩ := ih (h.del line) hord
          exact ⟨added', by
            simpa [lineCallbacks, DiffPayload.step, DiffItem.oldLine?, DiffItem.newLine?,
              lineCb] using hrest⟩
      | add line =>
          obtain ⟨added', hrest⟩ := ih (h.add line) hord
          exact ⟨added', by
            simpa [lineCallbacks, DiffPayload.step, DiffItem.oldLine?, DiffItem.newLine?,
              renderLine] using hrest⟩
      | note =>
          obtain ⟨added', hrest⟩ := ih h hord
          exact ⟨added', by
            simpa [lineCallbacks, DiffPayload.step, DiffItem.oldLine?, DiffItem.newLine?,
              lineCb] using hrest⟩

/-- A hunk without old lines has no context either. -/
theorem leadingContext_eq_zero {items : List DiffItem}
    (h : items.filterMap DiffItem.oldLine? = []) : leadingContext items = 0 := by
  induction items with
  | nil => rfl
  | cons item items ih =>
      cases item with
      | keep line => simp [DiffItem.oldLine?] at h
      | del line => rfl
      | add line => rfl
      | note => exact ih (by simpa [DiffItem.oldLine?] using h)

/-- The state at the start of a hunk, behind its `hunk_cb`. -/
theorem Collected.hunk {p : DiffPayload} {old out : List Bytes} {added : Bool}
    (h : Collected p old out added) (skip : List Bytes) {items : List DiffItem}
    (hcontext : leadingContext items < 3 → old.length + skip.length = 0) :
    Collected (hunkCb p (if items.filterMap DiffItem.oldLine? = [] then old.length + skip.length
        else old.length + skip.length + 1))
      (old ++ skip.map chomp) (out ++ skip.map chomp) false := by
  obtain ⟨hacc, hin, hcur⟩ := h.flush
  rw [hunkCb]
  refine (hacc.keep (skip.map chomp)).collected hin hcur ?_ false
  split
  · -- no old lines: the file is empty up to here
    have hfirst := hcontext (by rw [leadingContext_eq_zero ‹_›]; omega)
    simp [hfirst]
  · simp

/-- All hunks. -/
theorem Collected.hunks {p : DiffPayload} {old out : List Bytes} {added : Bool}
    {hunks : List Hunk} (h : Collected p old out added) (hord : HunksOrdered old.length hunks) :
    ∃ added', Collected ((hunkCallbacks old.length hunks).foldl DiffPayload.step p)
      (old ++ (hunks.flatMap Hunk.oldLines).map chomp)
      (out ++ (hunks.flatMap Hunk.newLines).map fun p => renderLine p.1 p.2)
      added' := by
  induction hunks generalizing p old out added with
  | nil => exact ⟨added, by simpa [hunkCallbacks] using h⟩
  | cons hunk hunks ih =>
      obtain ⟨hitems, hcontext, hord⟩ := hord
      obtain ⟨added₁, hhunk⟩ := (h.hunk hunk.skip hcontext).items hitems
      have hold : old ++ hunk.skip.map chomp ++ oldSide hunk.items =
          old ++ hunk.oldLines.map chomp := by
        simp [Hunk.oldLines, oldSide]
      have hout : out ++ hunk.skip.map chomp ++ newSide hunk.items =
          out ++ hunk.newLines.map fun p => renderLine p.1 p.2 := by
        simp [Hunk.newLines, newSide, renderLine]
      rw [hold, hout] at hhunk
      obtain ⟨added₂, hrest⟩ := ih hhunk (by simpa using hord)
      refine ⟨added₂, ?_⟩
      simpa [hunkCallbacks, DiffPayload.step] using hrest

/-! ## The applier on the collected script -/

theorem buildInput_literal {σ : Type} (resolve : Option (RefResolver σ)) (lines : List Bytes)
    (s : σ) : (buildInput resolve (lines.map .literal)).Yields s lines s := by
  induction lines with
  | nil => simp [buildInput]
  | cons line lines ih =>
      simp only [List.map_cons, buildInput, Fallible.yields_bind_pure]
      exact ⟨lines, ih, rfl⟩

/-- Literal commands expand to themselves and leave the resolver alone. -/
theorem Accepted.expandAll {cs : List EdCommand} {old out : List Bytes}
    (h : Accepted cs old out) {σ : Type} (resolve : Option (RefResolver σ)) (s : σ) :
    ∃ texts, (expandAll resolve cs).Yields s texts s ∧
      List.zipWith EdCommand.edit cs texts = cs.map literalEdit := by
  have hcommand : ∀ c ∈ cs, ∃ text, (expandCommand resolve c).Yields s text s ∧
      c.edit text = literalEdit c := by
    intro c hc
    have hlit := h.literal c hc
    rcases c with ⟨kind, start, end_, input⟩
    have hinput := buildInput_literal resolve (literals input) s
    rw [← hlit] at hinput
    cases kind
    case delete => exact ⟨[], by simp [expandCommand], rfl⟩
    all_goals exact ⟨literals input, hinput, rfl⟩
  clear h
  induction cs with
  | nil => exact ⟨[], by simp [Core.expandAll], rfl⟩
  | cons c cs ih =>
      obtain ⟨text, htext, hedit⟩ := hcommand c List.mem_cons_self
      obtain ⟨texts, htexts, hedits⟩ := ih fun d hd => hcommand d (List.mem_cons_of_mem _ hd)
      refine ⟨text :: texts, ?_, by simp [hedit, hedits]⟩
      simp only [Core.expandAll, Fallible.yields_bind, Fallible.yields_pure]
      exact ⟨text, s, htext, texts, s, htexts, rfl, rfl⟩

/-- An accepted script applies to its file and gives the rewritten lines. -/
theorem Accepted.apply {cs : List EdCommand} {old : Bytes} {out : List Bytes}
    (h : Accepted cs (splitLines old) out) (hlen : (splitLines old).length < int64Max)
    {σ : Type} (resolve : Option (RefResolver σ)) (s : σ) :
    validateCommandOrder { commands := cs } = .ok () ∧
      (applyEdScript { commands := cs } old resolve).Yields s
        (joinLines out (finalNewline old)) s := by
  have hvalid : validateCommandOrder { commands := cs } = .ok () :=
    (validateFrom_ok_iff int64Max cs).mpr
      ⟨fun c hc => (h.below c hc).trans_lt hlen, h.descending⟩
  obtain ⟨texts, htexts, hedits⟩ := h.expandAll resolve s
  have hrewrites := h.rewrites []
  rw [List.append_nil, List.append_nil] at hrewrites
  refine ⟨hvalid, applyEdScript_yields_iff.mpr ⟨hvalid, h.inRange, texts, htexts, ?_⟩⟩
  rw [hedits, hrewrites]

/-- A command in range of a file that fits `int` line numbers is read back. -/
theorem readable_of_inRange {c : Change} {n : Nat} (hn : n < 2 ^ 31)
    (h : (commandOf c).InRange n) : Readable c := by
  have hmax : 2 ^ 31 ≤ readUintMax := by decide
  unfold Readable
  by_cases hcount : c.oldCount = 0
  · simp only [commandOf, hcount, EdCommand.InRange, if_true] at h ⊢
    omega
  · by_cases hadded : c.added = [] <;>
      simp only [commandOf, hcount, hadded, EdCommand.InRange, if_true, if_false] at h ⊢ <;>
      omega

theorem mapM_readBack {cs : List Change} (h : ∀ c ∈ cs, Readable c) :
    cs.mapM readBack = some (cs.map commandOf) := by
  induction cs with
  | nil => rfl
  | cons c cs ih =>
      rw [List.forall_mem_cons] at h
      simp [List.mapM_cons, readBack_eq h.1, ih h.2]

/-- `split_lines` of the applier gives the lines libgit2 compares, without
their newlines. -/
theorem splitLines_eq (text : Bytes) : splitLines text = (rawLines text).map chomp := by
  have hchomp : ∀ s, newline ∉ s → chomp s = s := fun s hs => dropLastByte_of_not_mem hs
  rw [rawLines, map_splitWith hchomp [] text (by simp), splitLines]
  congr 1
  funext line
  simp [chomp]

/-- The changes of a diff, in reverse, are an accepted script that turns the
old lines into the new ones. -/
theorem accepted_diff {old new : Bytes} (d : Diff old new) :
    Accepted ((diffBuffers d.callbacks).reverse.map commandOf) (splitLines old)
      (List.zipWith renderLine d.marks (rawLines new)) := by
  have hempty : Accepted (({} : DiffPayload).changes.reverse.map commandOf) [] [] := Accepted.nil
  have hstart : Collected {} [] [] false := hempty.collected rfl rfl rfl false
  obtain ⟨added, hcollected⟩ := hstart.hunks d.ordered
  have hacc := (hcollected.flush.1).keep (d.tail.map chomp)
  rw [List.nil_append, ← List.map_append, ← d.old_eq, ← splitLines_eq] at hacc
  have hnew : List.zipWith renderLine d.marks (rawLines new) =
      [] ++ ((d.hunks.flatMap Hunk.newLines).map fun p => renderLine p.1 p.2) ++
        d.tail.map chomp := by
    rw [d.new_eq, Diff.marks, List.zipWith_append (by simp), List.zipWith_map,
      List.zipWith_self, List.zipWith_map_left, List.zipWith_self]
    simp [renderLine]
  rw [hnew]
  exact hacc

theorem length_splitLines_lt {old new : Bytes} (d : Diff old new) :
    (splitLines old).length < 2 ^ 31 := by
  rw [splitLines_eq, List.length_map]
  exact d.old_lt

/-- The commands of a diff have line numbers `read_uint` reads. -/
theorem readable_diff {old new : Bytes} (d : Diff old new) :
    ∀ c ∈ (diffBuffers d.callbacks).reverse, Readable c := fun _ hc =>
  readable_of_inRange (length_splitLines_lt d)
    ((accepted_diff d).inRange _ (List.mem_map_of_mem hc))

/-- **Generated scripts.** For every diff, the changes collected from the
callbacks of libgit2, in reverse and read back as commands, pass the validator
and the range checks and turn the old lines into the new ones. -/
theorem diff_reproduces {old new : Bytes} (d : Diff old new) {σ : Type}
    (resolve : Option (RefResolver σ)) (s : σ) :
    ∃ cs, (diffBuffers d.callbacks).reverse.mapM readBack = some cs ∧
      validateCommandOrder { commands := cs } = .ok () ∧
      (∀ c ∈ cs, c.InRange (splitLines old).length) ∧
      (applyEdScript { commands := cs } old resolve).Yields s
        (joinLines (List.zipWith renderLine d.marks (rawLines new)) (finalNewline old)) s := by
  have hacc := accepted_diff d
  obtain ⟨hvalid, happly⟩ := hacc.apply ((length_splitLines_lt d).trans (by decide)) resolve s
  exact ⟨_, mapM_readBack (readable_diff d), hvalid, hacc.inRange, happly⟩

/-- A diff in two hunks, which replaces a line of twelve and deletes another one. -/
def twoHunks : Diff (ascii "a\nb\nc\nd\ne\nf\ng\nh\ni\nj\nk\nl\n")
    (ascii "a\nB\r\nc\nd\ne\nf\ng\nh\ni\nj\nl\n") where
  hunks := [
    ⟨[], [.keep (ascii "a\n"), .del (ascii "b\n"), .add (ascii "B\r\n"), .keep (ascii "c\n"),
      .keep (ascii "d\n"), .keep (ascii "e\n")]⟩,
    ⟨[ascii "f\n", ascii "g\n"], [.keep (ascii "h\n"), .keep (ascii "i\n"), .keep (ascii "j\n"),
      .del (ascii "k\n"), .keep (ascii "l\n")]⟩]
  tail := []
  old_eq := by decide
  new_eq := by decide
  ordered := ⟨⟨rfl, trivial⟩, fun _ => rfl, ⟨rfl, trivial⟩, fun h => absurd h (by decide), trivial⟩
  old_lt := by decide

/-- Its changes, the last one first, make the new lines, an added one without its CR. -/
theorem diff_reproduces_two_hunks :
    ∃ cs, (diffBuffers twoHunks.callbacks).reverse.mapM readBack = some cs ∧
      cs.map (fun c => (c.kind, c.start)) = [(.delete, 11), (.change, 2)] ∧
      (applyEdScript { commands := cs } (ascii "a\nb\nc\nd\ne\nf\ng\nh\ni\nj\nk\nl\n")
        (none : Option (RefResolver Unit))).Yields ()
        (ascii "a\nB\nc\nd\ne\nf\ng\nh\ni\nj\nl\n") () := by
  obtain ⟨cs, hread, _, _, happly⟩ := diff_reproduces twoHunks (none : Option (RefResolver Unit)) ()
  have hcommands : ((diffBuffers twoHunks.callbacks).reverse.mapM readBack).map
      (List.map fun c => (c.kind, c.start)) = some [(.delete, 11), (.change, 2)] := by decide
  rw [hread, Option.map_some] at hcommands
  have hnew : joinLines (List.zipWith renderLine twoHunks.marks
      (rawLines (ascii "a\nB\r\nc\nd\ne\nf\ng\nh\ni\nj\nl\n")))
      (finalNewline (ascii "a\nb\nc\nd\ne\nf\ng\nh\ni\nj\nk\nl\n")) =
      ascii "a\nB\nc\nd\ne\nf\ng\nh\ni\nj\nl\n" := by decide
  rw [hnew] at happly
  exact ⟨cs, hread, Option.some.inj hcommands, happly⟩

end Phpatcher.Theorems
