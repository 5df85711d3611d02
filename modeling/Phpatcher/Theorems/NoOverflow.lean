import Phpatcher.Core.Parsing
import Phpatcher.Glue.Machine

/-!
# No overflow, no edit out of bounds

The bounds under which the arithmetic of the core and of the corpus resolver
is defined come from the text: a command that was read has addresses
`read_uint` accepts, and every line of an input block is a line of the text.
So a text, an original and a resolver that together stay below `2 ^ 63` never
lead out of the range of `std::int64_t` or out of the line vector.
-/

namespace Phpatcher.Theorems

open Phpatcher.Basis Phpatcher.Core Phpatcher.Glue

/-! ## What the text bounds -/

theorem readable_of_commandLine {line : Bytes} {c : WrittenCommand} (h : CommandLine line c)
    (input : List EdPiece) : ({ c with input } : WrittenCommand).command.Readable64 := by
  have hstart : ∀ (kind : Kind) (first second : Nat) (n : Nat), first ≤ n →
      (EdCommand.ofHeader kind first second).start ≤ n := by
    intro kind first second n hle
    cases kind <;> exact hle
  cases h with
  | single hnum _ _ => exact hstart _ _ _ _ hnum.le
  | pair hnum _ _ _ => exact hstart _ _ _ _ hnum.le

/-- The commands of a text have addresses `read_uint` accepts. -/
theorem readable_of_body {opened : Bool} {lines : List Bytes} {cs : List WrittenCommand}
    {ss : List FileSection} (h : Body opened lines cs ss) :
    (∀ c ∈ cs, c.command.Readable64) ∧ ∀ s ∈ ss, ∀ c ∈ s.commands, c.command.Readable64 := by
  induction h with
  | nil => simp
  | filler _ _ _ _ ih => exact ih
  | @command line lines c cs ss hline _ _ ih =>
      exact ⟨List.forall_mem_cons.mpr ⟨readable_of_commandLine hline c.input, ih.1⟩, ih.2⟩
  | block hline _ _ _ ih =>
      exact ⟨List.forall_mem_cons.mpr ⟨readable_of_commandLine hline _, ih.1⟩, ih.2⟩
  | file _ _ ih => exact ⟨by simp, List.forall_mem_cons.mpr ih⟩
  | newFile _ _ _ ih =>
      have hcontent : ∀ block, (contentCommand block).command.Readable64 := fun _ =>
        Nat.zero_le _
      refine ⟨by simp, List.forall_mem_cons.mpr ⟨?_, ih.2⟩⟩
      exact List.forall_mem_cons.mpr ⟨hcontent _, ih.1⟩

/-- The lines a command takes up at least: its own, and those of its block. -/
def writtenLines (cs : List WrittenCommand) : Nat := (cs.map fun c => c.input.length + 1).sum

/-- The commands of a text take up lines of it. -/
theorem room_of_body {opened : Bool} {lines : List Bytes} {cs : List WrittenCommand}
    {ss : List FileSection} (h : Body opened lines cs ss) :
    writtenLines cs + (ss.map fun s => writtenLines s.commands).sum ≤ lines.length := by
  induction h with
  | nil => simp [writtenLines]
  | filler _ _ _ _ ih =>
      rw [List.length_cons]
      omega
  | command hline _ _ ih =>
      rw [writtenLines, List.map_cons, List.sum_cons, hline.input_eq_nil, List.length_nil,
        List.length_cons]
      rw [writtenLines] at ih
      omega
  | block _ _ _ _ ih =>
      simp only [writtenLines, List.map_cons, List.sum_cons, List.length_cons, List.length_append,
        pieces, List.length_map] at ih ⊢
      omega
  | file _ _ ih =>
      simp only [writtenLines, List.map_cons, List.map_nil, List.sum_cons, List.sum_nil,
        List.length_cons] at ih ⊢
      omega
  | newFile _ _ _ ih =>
      simp only [writtenLines, contentCommand, List.map_cons, List.map_nil, List.sum_cons,
        List.sum_nil, List.length_cons, List.length_append, pieces, List.length_map] at ih ⊢
      omega

/-- The lines the commands of a section can add are bounded by the lines they
take up, but for those of their references. -/
theorem sum_commandSize (size : EdRef → Nat) (cs : List WrittenCommand) :
    ((cs.map WrittenCommand.command).map (commandSize size)).sum + cs.length =
      writtenLines cs +
        (((cs.map WrittenCommand.command).flatMap commandRefs).map size).sum := by
  induction cs with
  | nil => rfl
  | cons c cs ih =>
      have hinput : c.command.input.length = c.input.length := rfl
      simp only [List.map_cons, List.sum_cons, List.flatMap_cons, List.map_append,
        List.sum_append, writtenLines, commandSize, hinput, List.length_cons] at ih ⊢
      omega

/-- What the patches of an accepted text promise to the arithmetic. -/
theorem readable_and_room {sorter : EntrySorter} {canon : Bytes → Bytes} {text : Bytes}
    {before set : PatchSet} (hparse : PatchSet.parse sorter canon text before = (set, .ok ()))
    {e : Entry} (he : e ∈ set.index) :
    (∀ c ∈ e.2.commands, c.Readable64) ∧
      ∀ size : EdRef → Nat,
        (e.2.commands.map (commandSize size)).sum + 1 ≤ text.length + (e.2.refs.map size).sum := by
  obtain ⟨_, sections, hdoc, _, rfl⟩ := parse_eq_ok.mp hparse
  obtain ⟨s, hs, hcommands, rfl⟩ := mem_entriesOf.mp ((Sorter.mem_run sorter).mp he)
  have hread := (readable_of_body hdoc).2 s hs
  refine ⟨?_, ?_⟩
  · intro c hc
    obtain ⟨w, hw, rfl⟩ := List.mem_map.mp hc
    exact hread w hw
  · intro size
    have hlines := length_splitLines_le text
    have hsection : writtenLines s.commands ≤ (splitLines text).length := by
      have hroom := room_of_body hdoc
      have hle := List.single_le_sum (fun _ _ => Nat.zero_le _) _
        (List.mem_map_of_mem (f := fun s => writtenLines s.commands) hs)
      omega
    have hsum := sum_commandSize size s.commands
    have hpos := List.length_pos_of_ne_nil hcommands
    show ((s.commands.map WrittenCommand.command).map (commandSize size)).sum + 1 ≤
      text.length + (((s.commands.map WrittenCommand.command).flatMap commandRefs).map size).sum
    omega

/-! ## The whole -/

/-- A resolver without undefined behaviour of its own. -/
def liftResolver {σ : Type} (resolve : Option (RefResolver σ)) : Option (RefResolver64 σ) :=
  resolve.map fun f ref => (f ref).lift

theorem answers_liftResolver {σ : Type} (resolve : Option (RefResolver σ)) (refs : List EdRef) :
    Answers (fun _ => True) refs (liftResolver resolve) resolve := by
  cases resolve with
  | none => exact .none
  | some f => exact .some fun ref _ => Fallible.Safe.lift (f ref)

/-- **No overflow, no edit out of bounds.** Both number readers calculate
within `std::int64_t` on every input. For every patch of an accepted text,
every original, and every resolver, as long as the text, the original and the
answers of the resolver stay below `2 ^ 63` together, the application checked
operation by operation and position by position runs as the one on natural
numbers does, from every state and without undefined behaviour; and so it does
with the corpus resolver, checked the same way, when no file it reads brings
the text to `2 ^ 63`. -/
theorem no_overflow {sorter : EntrySorter} {canon : Bytes → Bytes} {text : Bytes}
    {before set : PatchSet} (hparse : PatchSet.parse sorter canon text before = (set, .ok ())) :
    (∀ s, readUint64 s = some ((readUint s).map (Prod.map Nat.cast id))) ∧
      (∀ s, parseDecimalFull64 s = some ((parseDecimalFull s).map Nat.cast)) ∧
      ∀ e ∈ set.index, ∀ original : Bytes,
        (∀ (σ : Type) (resolve : Option (RefResolver σ)) (size : EdRef → Nat),
          Sized (fun _ => True) resolve e.2.refs size →
          text.length + original.length + (e.2.refs.map size).sum < 2 ^ 63 →
          (applyEdScript64 e.2 original (liftResolver resolve)).Safe (fun _ => True)
            (applyEdScript e.2 original resolve)) ∧
        ∀ (baseDir : Bytes) (disk : Disk) (size : EdRef → Nat),
          Sized (RefCache.Agrees disk) (some (phpatcherMakeResolver baseDir disk)) e.2.refs size →
          text.length + original.length + (e.2.refs.map size).sum < 2 ^ 63 →
          (∀ ref ∈ e.2.refs, ∀ content, disk (refFile baseDir ref) = some content →
            text.length + content.length < 2 ^ 63) →
          (applyEdScript64 e.2 original (some (phpatcherMakeResolver64 baseDir disk))).Safe
            (RefCache.Agrees disk)
            (applyEdScript e.2 original (some (phpatcherMakeResolver baseDir disk))) := by
  refine ⟨readUint64_eq, parseDecimalFull64_eq, ?_⟩
  intro e he original
  obtain ⟨hread, hroom⟩ := readable_and_room hparse he
  have hlines := length_splitLines_le original
  constructor
  · intro σ resolve size hsized htotal
    have hbound := hroom size
    exact applyEdScript64_safe hread (by omega) (answers_liftResolver resolve _) hsized
  · intro baseDir disk size hsized htotal hfiles
    have hbound := hroom size
    refine applyEdScript64_safe hread (by omega) (.some ?_) hsized
    intro ref href
    apply phpatcherMakeResolver64_safe
    intro content hdisk
    have hfile := hfiles ref href content hdisk
    -- a text with a command is not empty
    have hpos := hroom fun _ => 0
    have hzero : (e.2.refs.map fun _ => 0).sum = 0 := by simp
    omega

/-- One append with one reference, resolved in a corpus of one file. -/
theorem no_overflow_reference :
    let ref : EdRef := { path := ascii "b.php", begin := 2, end_ := 2, bytes := some 2 }
    let fp : FilePatch := { commands := [⟨.append, 1, 1, [.ref ref]⟩] }
    let disk : Disk := fun path =>
      if path = ascii "/s/b.php" then some (ascii "x\ny\n") else none
    ((applyEdScript64 fp (ascii "a\nb\n")
      (some (phpatcherMakeResolver64 (ascii "/s") disk))).outcome []).1 =
        .ok (ascii "a\ny\nb\n") := by
  intro ref fp disk
  obtain ⟨_, _, happly⟩ := no_overflow
    (show PatchSet.parse (Sorter.stable Prod.fst) id
      (ascii "# phpatcher-ed\n# file: a.php\n1a\nr b.php 2 2 # s:2\n.\n") {} =
        ({ index := [(ascii "a.php", fp)], basenames := [ascii "a.php"] }, .ok ()) by
      decide +kernel)
  have hfiles : ∀ (path content : Bytes), disk path = some content → content.length = 4 := by
    intro path content hcontent
    by_cases hpath : path = ascii "/s/b.php"
    · rw [show disk path = some (ascii "x\ny\n") from if_pos hpath] at hcontent
      rw [← Option.some.inj hcontent]
      rfl
    · rw [show disk path = none from if_neg hpath] at hcontent
      exact absurd hcontent (by simp)
  have hsafe := (happly _ List.mem_cons_self (ascii "a\nb\n")).2 (ascii "/s") disk
    (fun ref => ref.end_ - ref.begin + 1) (sized_phpatcherMakeResolver _ _ _) (by decide +kernel)
    (fun r _ content hcontent => by
      rw [hfiles _ content hcontent]
      decide +kernel)
  rw [(hsafe [] (RefCache.agrees_nil disk)).1]
  decide +kernel

end Phpatcher.Theorems
