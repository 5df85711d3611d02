import Phpatcher.Theorems.References

/-!
# What a directive says

A directive survives the way through the text whatever bytes its path and its
paddings hold. Of the guards a directive carries only the last of each kind is
left in the reference, so every guard is enforced just where the guards of a
kind agree, or where the ones left already rule out every run.
-/

namespace Phpatcher.Theorems

open Phpatcher.Basis Phpatcher.Core Phpatcher.Glue Phpatcher.Tools

/-! ## Round trip -/

/-- **Round trip.** What is printed for a reference holds one newline, at its
end, and the line in front of it is read as the reference it was printed
for. -/
theorem parseEdInputPiece_rDirective (path : Bytes) {begin end_ : Nat}
    (pads : Option (Bytes × Bytes)) {g : Guard} (hbegin : 1 ≤ begin) (hend : begin ≤ end_)
    (hmax : end_ < 4294967296) (hg : Guard.Printable g) :
    (rDirective path begin end_ pads (Guard.text g) ++ [newline]).count newline = 1 ∧
    parseEdInputPiece (rDirective path begin end_ pads (Guard.text g)) = .ref
      { path, begin, end_, bytes := g.bytes?, hash := g.hash?,
        transform := if pads.isSome then .trimPad else .exact,
        lpad := (pads.map Prod.fst).getD [], rpad := (pads.map Prod.snd).getD [] } := by
  have hnewline : newline ∉ guardAlphabet := by decide
  have hrange : end_ ≤ readUintMax := by
    have : 4294967295 ≤ readUintMax := by decide
    omega
  constructor
  · have hline := newline_not_mem_rDirective path begin end_ pads
      fun h => hnewline (@Guard.mem_text g _ h)
    rw [List.count_append, List.count_eq_zero_of_not_mem hline]
    rfl
  · rw [parseEdInputPiece, parseRDirective_guard path pads hbegin hend hrange hg]
    cases g <;> cases pads <;> rfl

/-- A path of quotes, a blank and a newline, paddings of a tab and of a
backslash and a CR, and a hash. -/
theorem parseEdInputPiece_rDirective_sample :
    parseEdInputPiece (rDirective (ascii "a \"#\n") 1 2 (some ([tab], [backslash, carriageReturn]))
      (Guard.text (.hash ⟨1, 0xab⟩))) = .ref
        { path := ascii "a \"#\n", begin := 1, end_ := 2, hash := some ⟨1, 0xab⟩,
          transform := .trimPad, lpad := [tab], rpad := [backslash, carriageReturn] } :=
  (parseEdInputPiece_rDirective (ascii "a \"#\n") (some ([tab], [backslash, carriageReturn]))
    (g := .hash ⟨1, 0xab⟩) (Nat.le_refl 1) (by decide) (by decide) trivial).2

/-! ## Guards -/

/-- A run meets the guards that are left in a reference when all of the list
are written into it. -/
def LastGuardsHold (gs : List Guard) (run : List Bytes) : Prop :=
  (∀ n, lastBytes gs = some n → Guard.Holds run (.bytes n)) ∧
    ∀ h, lastHash gs = some h → Guard.Holds run (.hash h)

/-- The guards of a kind all ask for the same. -/
def GuardsAgree (gs : List Guard) : Prop :=
  (∀ n m, .bytes n ∈ gs → .bytes m ∈ gs → n = m) ∧
    ∀ h k, .hash h ∈ gs → .hash k ∈ gs → h = k

theorem mem_of_lastBytes {gs : List Guard} {n : Nat} (h : lastBytes gs = some n) :
    .bytes n ∈ gs := by
  obtain ⟨g, hg, hn⟩ := List.mem_filterMap.mp (List.mem_of_getLast? h)
  cases g with
  | bytes m => rwa [← Option.some.inj hn]
  | hash h => simp [Guard.bytes?] at hn

theorem mem_of_lastHash {gs : List Guard} {h : RefHash} (hlast : lastHash gs = some h) :
    .hash h ∈ gs := by
  obtain ⟨g, hg, hh⟩ := List.mem_filterMap.mp (List.mem_of_getLast? hlast)
  cases g with
  | bytes n => simp [Guard.hash?] at hh
  | hash k => rwa [← Option.some.inj hh]

/-- Guards that agree hold together with the ones that are left. -/
theorem GuardsAgree.holds {gs : List Guard} (h : GuardsAgree gs) {run : List Bytes}
    (hlast : LastGuardsHold gs run) : ∀ g ∈ gs, Guard.Holds run g := by
  intro g hg
  cases g with
  | bytes n =>
      have hmem : n ∈ gs.filterMap Guard.bytes? := List.mem_filterMap.mpr ⟨_, hg, rfl⟩
      obtain ⟨m, hm⟩ := Option.ne_none_iff_exists'.mp fun hnone =>
        List.ne_nil_of_mem hmem (List.getLast?_eq_none_iff.mp hnone)
      rw [h.1 n m hg (mem_of_lastBytes hm)]
      exact hlast.1 m hm
  | hash v =>
      have hmem : v ∈ gs.filterMap Guard.hash? := List.mem_filterMap.mpr ⟨_, hg, rfl⟩
      obtain ⟨k, hk⟩ := Option.ne_none_iff_exists'.mp fun hnone =>
        List.ne_nil_of_mem hmem (List.getLast?_eq_none_iff.mp hnone)
      rw [h.2 v k hg (mem_of_lastHash hk)]
      exact hlast.2 k hk

/-- Guards that hold of one run agree. -/
theorem guardsAgree_of_holds {gs : List Guard} {run : List Bytes}
    (h : ∀ g ∈ gs, Guard.Holds run g) : GuardsAgree gs := by
  constructor
  · intro n m hn hm
    exact (h _ hn).symm.trans (h _ hm)
  · intro v k hv hk
    exact (h _ hv).symm.trans (h _ hk)

theorem lastGuardsHold_of_holds {gs : List Guard} {run : List Bytes}
    (h : ∀ g ∈ gs, Guard.Holds run g) : LastGuardsHold gs run :=
  ⟨fun _ hn => h _ (mem_of_lastBytes hn), fun _ hh => h _ (mem_of_lastHash hh)⟩

/-- The reference in front of the guards carries none, and its range is not
empty. -/
theorem directiveParts_bare {line : Bytes} {ref : EdRef} {text : Bytes}
    (h : directiveParts line = some (ref, text)) :
    ref.bytes = none ∧ ref.hash = none ∧ 1 ≤ ref.begin ∧ ref.begin ≤ ref.end_ := by
  -- the paddings are written into a reference of the path and the range
  have hpads : ∀ {s : Bytes} {bare : EdRef} {parts : EdRef × Bytes},
      readPads s bare = some parts → parts.1.bytes = bare.bytes ∧ parts.1.hash = bare.hash ∧
        parts.1.begin = bare.begin ∧ parts.1.end_ = bare.end_ := by
    intro s bare parts hread
    unfold readPads at hread
    split at hread
    · simp only [Option.bind_eq_bind, Option.bind_eq_some_iff, Option.pure_def] at hread
      obtain ⟨_, _, _, _, hparts⟩ := hread
      rw [← Option.some.inj hparts]
      exact ⟨rfl, rfl, rfl, rfl⟩
    · rw [← Option.some.inj hread]
      exact ⟨rfl, rfl, rfl, rfl⟩
  unfold directiveParts at h
  split at h
  · simp at h
  simp only [Option.bind_eq_bind, Option.bind_eq_some_iff, Option.pure_def] at h
  obtain ⟨path, _, begin, _, end_, _, h⟩ := h
  split at h
  · simp at h
  next hrange =>
    obtain ⟨parts, hparts, h⟩ := Option.bind_eq_some_iff.mp h
    split at h
    · simp at h
    · obtain rfl := (Prod.mk.inj (Option.some.inj h)).1
      obtain ⟨hbytes, hhash, hbegin, hend⟩ := hpads hparts
      rw [hbytes, hhash, hbegin, hend]
      refine ⟨rfl, rfl, ?_⟩
      show 1 ≤ begin.1 ∧ begin.1 ≤ end_.1
      omega

/-- What the reader makes of a directive with these guards. -/
theorem parseRDirective_guards {line : Bytes} {ref : EdRef} {gs : List Guard}
    (hline : parseRDirective line = some ref) (hgs : writtenGuards line = some gs) :
    ref.bytes = lastBytes gs ∧ ref.hash = lastHash gs ∧ 1 ≤ ref.begin ∧ ref.begin ≤ ref.end_ := by
  rw [parseRDirective_eq] at hline
  obtain ⟨⟨bare, text⟩, hparts, hguards⟩ := Option.bind_eq_some_iff.mp hline
  rw [writtenGuards, hparts, Option.bind_some] at hgs
  obtain ⟨gs', hgs', _, rfl⟩ := parseGuardTokens_eq_some.mp hguards
  obtain rfl : gs = gs' := Option.some.inj (hgs.symm.trans hgs')
  obtain ⟨hbytes, hhash, hrange⟩ := directiveParts_bare hparts
  rw [foldl_withGuard, hbytes, hhash, Option.or_none, Option.or_none]
  exact ⟨rfl, rfl, hrange⟩

/-- The resolver asks for the guards that are left. -/
theorem resolveRef_ok_iff {ref : EdRef} {gs : List Guard} (hbytes : ref.bytes = lastBytes gs)
    (hhash : ref.hash = lastHash gs) (hrange : 1 ≤ ref.begin ∧ ref.begin ≤ ref.end_)
    {baseDir : Bytes} {disk : Disk} {out : List Bytes} :
    resolveRef baseDir disk ref = .ok out ↔
      ∃ content, disk (refFile baseDir ref) = some content ∧
        ref.end_ ≤ (phpatcherSplitLines content).length ∧
        out = EdRef.run ref (phpatcherSplitLines content) ∧ LastGuardsHold gs out := by
  unfold resolveRef
  cases hdisk : disk (refFile baseDir ref) with
  | none => simp
  | some content =>
      simp only [checkRef_ok_iff, hbytes, hhash, LastGuardsHold, Option.some.injEq,
        exists_eq_left']
      constructor
      · rintro ⟨⟨_, _, hlen⟩, hout, hlast⟩
        exact ⟨hlen, hout, hlast⟩
      · rintro ⟨hlen, hout, hlast⟩
        exact ⟨⟨hrange.1, hrange.2, hlen⟩, hout, hlast⟩

/-- A text with any lines that hold no newline: a CR in front of each newline
takes the place of the one the splitter drops. -/
theorem phpatcherSplitLines_crlf {lines : List Bytes} (h : ∀ l ∈ lines, newline ∉ l) :
    phpatcherSplitLines (unlines (lines.map (· ++ [carriageReturn]))) = lines := by
  have hcr : ∀ l ∈ lines.map (· ++ [carriageReturn]), newline ∉ l := by
    intro l hl hmem
    obtain ⟨line, hline, rfl⟩ := List.mem_map.mp hl
    rcases List.mem_append.mp hmem with hmem | hmem
    · exact h line hline hmem
    · exact absurd (List.mem_singleton.mp hmem) (by decide)
  rw [phpatcherSplitLines, splitWith_unlines_nil hcr, List.map_map]
  simp [Function.comp_def]

/-- Whatever the disk and a cache of it, the resolver accepts a reference just
when its file is readable, its range is in the file and every one of the
guards holds of the lines of the range; it gives these lines then. -/
def EveryGuardEnforced (ref : EdRef) (gs : List Guard) : Prop :=
  ∀ (baseDir : Bytes) (disk : Disk) (cache : RefCache), cache.Agrees disk → ∀ out,
    ((phpatcherMakeResolver baseDir disk ref).outcome cache).1 = .ok out ↔
      ∃ content, disk (refFile baseDir ref) = some content ∧
        ref.end_ ≤ (phpatcherSplitLines content).length ∧
        out = EdRef.run ref (phpatcherSplitLines content) ∧ ∀ g ∈ gs, Guard.Holds out g

/-- Any lines can stand in the range of a reference. -/
theorem exists_content_of_run {ref : EdRef} (hrange : 1 ≤ ref.begin ∧ ref.begin ≤ ref.end_)
    {run : List Bytes} (hlen : run.length = ref.end_ - ref.begin + 1)
    (hlines : ∀ l ∈ run, newline ∉ l) :
    ∃ content, ref.end_ ≤ (phpatcherSplitLines content).length ∧
      run = EdRef.run ref (phpatcherSplitLines content) := by
  let lines : List Bytes := List.replicate (ref.begin - 1) [] ++ run
  have hplain : ∀ l ∈ lines, newline ∉ l := by
    intro l hl
    rcases List.mem_append.mp hl with hl | hl
    · rw [List.eq_of_mem_replicate hl]
      exact List.not_mem_nil
    · exact hlines l hl
  refine ⟨unlines (lines.map (· ++ [carriageReturn])), ?_, ?_⟩
  · rw [phpatcherSplitLines_crlf hplain]
    simp only [lines, List.length_append, List.length_replicate]
    omega
  · have hdrop : lines.drop (ref.begin - 1) = run := by
      simp [lines]
    rw [phpatcherSplitLines_crlf hplain, EdRef.run, hdrop, ← hlen, List.take_length]

/-- **Which directives have every guard enforced.** -/
theorem every_guard_enforced_iff {line : Bytes} {ref : EdRef} {gs : List Guard}
    (hline : parseRDirective line = some ref) (hgs : writtenGuards line = some gs) :
    EveryGuardEnforced ref gs ↔
      GuardsAgree gs ∨ ∀ run : List Bytes, run.length = ref.end_ - ref.begin + 1 →
        (∀ l ∈ run, newline ∉ l) → ¬ LastGuardsHold gs run := by
  obtain ⟨hbytes, hhash, hrange⟩ := parseRDirective_guards hline hgs
  constructor
  · intro h
    rw [or_iff_not_imp_right]
    intro hsome
    push Not at hsome
    obtain ⟨run, hlen, hlines, hlast⟩ := hsome
    -- a file with this run in the range of the reference
    obtain ⟨content, hend, hrun⟩ := exists_content_of_run hrange hlen hlines
    let disk : Disk := fun _ => some content
    have hok : resolveRef [] disk ref = .ok run :=
      (resolveRef_ok_iff hbytes hhash hrange).mpr ⟨content, rfl, hend, hrun, hlast⟩
    rw [← (makeResolver_outcome [] (RefCache.agrees_nil disk) ref).1] at hok
    obtain ⟨_, _, _, _, hall⟩ := (h [] disk [] (RefCache.agrees_nil disk) run).mp hok
    exact guardsAgree_of_holds hall
  · intro h baseDir disk cache hcache out
    rw [(makeResolver_outcome baseDir hcache ref).1, resolveRef_ok_iff hbytes hhash hrange]
    constructor
    · rintro ⟨content, hdisk, hlen, hout, hlast⟩
      refine ⟨content, hdisk, hlen, hout, ?_⟩
      rcases h with hagree | hnone
      · exact hagree.holds hlast
      · -- there is no such run
        refine absurd hlast (hnone out ?_ ?_)
        · rw [hout, EdRef.run, List.length_take, List.length_drop]
          omega
        · intro l hl
          rw [hout] at hl
          exact newline_not_mem_splitWith (fun _ hs hmem => hs (mem_of_mem_dropLastByte hmem))
            (by simp) l (List.mem_of_mem_drop (List.mem_of_mem_take hl))
    · rintro ⟨content, hdisk, hlen, hout, hall⟩
      exact ⟨content, hdisk, hlen, hout, lastGuardsHold_of_holds hall⟩

/-- A directive with one guard has it enforced. -/
theorem every_guard_enforced_single :
    EveryGuardEnforced { path := ascii "c", begin := 1, end_ := 1, bytes := some 3 } [.bytes 3] :=
  (@every_guard_enforced_iff (ascii "r c 1 1 # s:3") _ _ (by decide +kernel)
    (by decide +kernel)).mpr (.inl ⟨by simp, by simp⟩)

/-- Of two lengths only the last is enforced: a line of two bytes and its
newline are accepted for a directive that asks for five bytes first. -/
theorem every_guard_enforced_fails :
    parseRDirective (ascii "r c 1 1 # s:5 s:3") =
      some { path := ascii "c", begin := 1, end_ := 1, bytes := some 3 } ∧
    writtenGuards (ascii "r c 1 1 # s:5 s:3") = some [.bytes 5, .bytes 3] ∧
    ((phpatcherMakeResolver (ascii "d") (fun _ => some (ascii "hi\n"))
      { path := ascii "c", begin := 1, end_ := 1, bytes := some 3 }).outcome []).1 =
        .ok [ascii "hi"] ∧
    ¬ Guard.Holds [ascii "hi"] (.bytes 5) ∧
    ¬ EveryGuardEnforced { path := ascii "c", begin := 1, end_ := 1, bytes := some 3 }
      [.bytes 5, .bytes 3] := by
  have hok : ((phpatcherMakeResolver (ascii "d") (fun _ => some (ascii "hi\n"))
      { path := ascii "c", begin := 1, end_ := 1, bytes := some 3 }).outcome []).1 =
        .ok [ascii "hi"] := by
    rw [(makeResolver_outcome _ (RefCache.agrees_nil _) _).1]
    decide +kernel
  have hfails : ¬ Guard.Holds [ascii "hi"] (.bytes 5) := by decide
  refine ⟨by decide +kernel, by decide +kernel, hok, hfails, fun h => ?_⟩
  obtain ⟨_, _, _, _, hall⟩ := (h _ _ _ (RefCache.agrees_nil _) _).mp hok
  exact hfails (hall _ List.mem_cons_self)

end Phpatcher.Theorems
