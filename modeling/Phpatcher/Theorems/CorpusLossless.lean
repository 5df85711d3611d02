import Phpatcher.Theorems.Emission

/-!
# Corpus references of a byte index

The index may be stale or wrong and the runs may come out in many ways; the callback
`equal` compares bytes of the tree, so whatever runs the factorizer settles on are
copies, and a reference to a copy stands for the block lines.

That is so as long as the bytes are there. The views of a file that is kept inside its
string object have lost their characters, and a comparison that looks at them has no
defined outcome (`byte_mode_lossless_iff`).
-/

namespace Phpatcher.Theorems

open Phpatcher.Basis Phpatcher.Core Phpatcher.Glue Phpatcher.Tools

/-- The block is printed, and what the reader makes of the printed lines is the block,
line for line; every printed reference is accepted. -/
def ComesBack (room : Nat) (corpus : Corpus) (idx : Index) (baseDir : Bytes) (disk : Disk)
    (hash : Bool) (block : List Bytes) (anchorSorter : Sorter Anchor.weight)
    (runSorter : Sorter Run.blockBegin) (minRun : Nat) : Prop :=
  ∃ items, emitAddedCorpus (viewAccess room corpus idx) hash block anchorSorter runSorter minRun =
    some items ∧ Expands baseDir disk items block

/-- All comparisons of the factorization are such. -/
def ComparesKept (room : Nat) (corpus : Corpus) (idx : Index) (block : List Bytes)
    (anchorSorter : Sorter Anchor.weight) (runSorter : Sorter Run.blockBegin) (minRun : Nat) :
    Prop :=
  ∀ q ∈ comparisons anchorSorter runSorter (blockKeys corpus idx block) minRun idx.find
    (lineEqual corpus idx block), Comparable (changesFiles room corpus idx) block q

/-- Where a posting leads to a line with room for the key, the file is not kept inside
its string object. Keys that no line has do not matter. -/
def PostedKept (room : Nat) (corpus : Corpus) (idx : Index) : Prop :=
  ∀ key post, idx.find key = some post → trim key = key → newline ∉ key → ∀ pp ∈ post,
    ∀ line, corpus.line idx pp.fileId pp.lineno = some line → line ≠ [] →
      key.length ≤ line.length → keptOutside (changesFiles room corpus idx) pp.fileId = true

/-- No posting leads into a file kept inside its string object. -/
def PostedOutside (room : Nat) (corpus : Corpus) (idx : Index) : Prop :=
  ∀ key post, idx.find key = some post → ∀ pp ∈ post,
    keptOutside (changesFiles room corpus idx) pp.fileId = true

section

variable {room : Nat} {corpus : Corpus} {idx : Index} {block : List Bytes} {hash : Bool}
  {anchorSorter : Sorter Anchor.weight} {runSorter : Sorter Run.blockBegin} {minRun : Nat}

theorem accessEqual_of_byte (hbyte : idx.normalized = false) (b fileId c : Nat) :
    accessEqual (viewAccess room corpus idx) block b fileId c =
      (changesFiles room corpus idx).sameLine fileId c (block.getD b []) :=
  if_neg (by simp [viewAccess, hbyte])

theorem lineEqual_of_byte (hbyte : idx.normalized = false) (b fileId c : Nat) :
    lineEqual corpus idx block b fileId c = (corpus.line idx fileId c == some (block.getD b [])) :=
  if_neg (by simp [hbyte])

theorem blockKeys_of_byte (hbyte : idx.normalized = false) :
    blockKeys corpus idx block = block.map trim := if_neg (by simp [hbyte])

/-- The comparison by bytes. -/
theorem counted_of_byte (hbyte : idx.normalized = false) :
    Counted (lineEqual corpus idx block) := by
  intro b f c h
  rw [lineEqual_of_byte hbyte, beq_iff_eq] at h
  exact ⟨(corpusLine_counted h).1, Nat.lt_of_succ_lt (corpusLine_counted h).2⟩

theorem answered_iff_comparable (hbyte : idx.normalized = false) (q : Comparison) :
    Answered (accessEqual (viewAccess room corpus idx) block) q ↔
      Comparable (changesFiles room corpus idx) block q := by
  rw [Answered, accessEqual_of_byte hbyte]
  exact isSome_sameLine

/-- The factorization comes to an end if it compares only what is there. -/
theorem factorizeM_of_byte (hbyte : idx.normalized = false) :
    factorizeM (accessEqual (viewAccess room corpus idx) block) anchorSorter runSorter
        (blockKeys corpus idx block) minRun idx.find =
      some (blockRuns corpus idx block anchorSorter runSorter minRun) ↔
    ComparesKept room corpus idx block anchorSorter runSorter minRun := by
  rw [factorizeM_eq_some_iff (answersAlike_views room corpus idx block), blockRuns,
    and_iff_left rfl, ComparesKept]
  simp only [answered_iff_comparable hbyte]

/-- What the callback matched are bytes of the tree, whatever the index says, and they
were there to be compared. -/
theorem runs_copied (hbyte : idx.normalized = false)
    (h : factorizeM (accessEqual (viewAccess room corpus idx) block) anchorSorter runSorter
        (blockKeys corpus idx block) minRun idx.find =
      some (blockRuns corpus idx block anchorSorter runSorter minRun)) :
    Ahead block.length 0 (blockRuns corpus idx block anchorSorter runSorter minRun) ∧
      ∀ r ∈ blockRuns corpus idx block anchorSorter runSorter minRun, 1 ≤ r.length ∧
        r.corpusEnd = r.corpusBegin + r.length - 1 ∧
        Copies room corpus idx block r.fileId r.blockBegin r.corpusBegin r.length := by
  have hlen : (blockKeys corpus idx block).length = block.length := by
    rw [blockKeys_of_byte hbyte, List.length_map]
  have hahead := ahead_factorize (@counted_of_byte corpus idx block hbyte) anchorSorter runSorter
    (blockKeys corpus idx block) minRun idx.find
  rw [hlen] at hahead
  refine ⟨hahead, ?_⟩
  -- the same runs come from the callback that matches only what was found equal
  let found : EqualFn := fun b fileId c =>
    accessEqual (viewAccess room corpus idx) block b fileId c == some true
  have halike : AnswersAlike (accessEqual (viewAccess room corpus idx) block) found := by
    intro b fileId c same hsame
    simp [found, hsame]
  have hcounted : Counted found := by
    intro b fileId c hfound
    refine @counted_of_byte corpus idx block hbyte b fileId c ?_
    exact (answersAlike_views room corpus idx block b fileId c true (eq_of_beq hfound)).symm
  have hsound := (factorize_sound anchorSorter runSorter (blockKeys corpus idx block) minRun
    idx.find hcounted).1
  rw [← factorizeM_eq_some halike h] at hsound
  intro r hr
  obtain ⟨hnonempty, _, hend, hmatched⟩ := hsound r hr
  have hlength : r.length = r.blockEnd - r.blockBegin := rfl
  refine ⟨by omega, by omega, fun i hi => ?_⟩
  have hequal := eq_of_beq (hmatched i hi)
  rwa [accessEqual_of_byte hbyte] at hequal

/-- A run of copies is one reference. -/
theorem emitRun_of_copies (hbyte : idx.normalized = false) (hash : Bool) {r : Run}
    (hpos : 1 ≤ r.length) (hend : r.corpusEnd = r.corpusBegin + r.length - 1)
    (h : Copies room corpus idx block r.fileId r.blockBegin r.corpusBegin r.length) :
    emitRun (viewAccess room corpus idx) hash block r =
      some [.ref (rDirective (idx.file r.fileId) r.corpusBegin (r.corpusBegin + r.length - 1) none
        (guardText hash (unlines (blockLines block r.blockBegin r.length))))] := by
  have hmode : (!(viewAccess room corpus idx).normalized) = true := by
    simp [viewAccess, hbyte]
  rw [emitRun, if_pos hmode, hend]
  exact h.emitRefOr hpos hash

theorem isSome_emitAddedCorpus_of_byte (hbyte : idx.normalized = false) (hash : Bool) :
    (∃ items, emitAddedCorpus (viewAccess room corpus idx) hash block anchorSorter runSorter
      minRun = some items) ↔ ComparesKept room corpus idx block anchorSorter runSorter minRun := by
  rw [← factorizeM_of_byte hbyte]
  constructor
  · rintro ⟨items, hitems⟩
    exact (emitAddedCorpus_eq_some.mp hitems).1
  · intro h
    obtain ⟨_, hcopied⟩ := runs_copied hbyte h
    have hsome : (emitLoop (viewAccess room corpus idx) hash block block.length 0
        (blockRuns corpus idx block anchorSorter runSorter minRun)).isSome := by
      refine isSome_emitLoop hash block _ 0 fun r hr => ?_
      obtain ⟨hpos, hend, hcopies⟩ := hcopied r hr
      rw [emitRun_of_copies hbyte hash hpos hend hcopies]
      rfl
    obtain ⟨items, hitems⟩ := Option.isSome_iff_exists.mp hsome
    exact ⟨items, emitAddedCorpus_eq_some.mpr ⟨h, hitems⟩⟩

/-- What is printed comes back. -/
theorem expands_of_byte (hbyte : idx.normalized = false) {baseDir : Bytes} {disk : Disk}
    (htree : SameTree corpus baseDir disk) {items : List Emitted}
    (h : emitAddedCorpus (viewAccess room corpus idx) hash block anchorSorter runSorter minRun =
      some items) : Expands baseDir disk items block := by
  obtain ⟨hruns, hitems⟩ := emitAddedCorpus_eq_some.mp h
  obtain ⟨hahead, hcopied⟩ := runs_copied hbyte hruns
  obtain ⟨out, hexpands, hrel⟩ := @emitLoop_reproduces baseDir disk
    (fun b x => x = block.getD b []) _ _ _ _ _ _ _ hahead (Nat.sub_le _ _) hitems
    (fun _ _ _ _ => rfl) fun r hr printed hprinted => by
      obtain ⟨hpos, hend, hcopies⟩ := hcopied r hr
      rw [emitRun_of_copies hbyte hash hpos hend hcopies] at hprinted
      rw [← Option.some.inj hprinted]
      exact hcopies.reproduces htree hpos hash
  rw [Nat.sub_zero] at hrel
  rwa [eq_of_forall₂ hrel] at hexpands

/-- Postings that lead into files that are not kept inside make comparisons of such. -/
theorem PostedKept.comparesKept (h : PostedKept room corpus idx) (hbyte : idx.normalized = false)
    (hkeys : idx.find [] = none) (hblock : ∀ line ∈ block, newline ∉ line)
    (anchorSorter : Sorter Anchor.weight) (runSorter : Sorter Run.blockBegin) (minRun : Nat) :
    ComparesKept room corpus idx block anchorSorter runSorter minRun := by
  intro q hq line hline hlength
  obtain ⟨pos, post, hpos, hpost, pp, hpp, hfollowed⟩ := mem_comparisons hq
  rw [blockKeys_of_byte hbyte] at hpos hpost
  rw [List.length_map] at hpos
  have hkey : (block.map trim).getD pos [] = trim (block.getD pos []) := by
    simp [List.getD_eq_getElem?_getD, hpos]
  rw [hkey] at hpost
  have hsub := sublist_trim (block.getD pos [])
  have hmem : block.getD pos [] ∈ block := by simp [List.getD_eq_getElem?_getD, hpos]
  -- the posting's own line is in such a file, unless it is too short
  have hkept : ∀ posted, corpus.line idx pp.fileId pp.lineno = some posted → posted ≠ [] →
      posted.length = (block.getD pos []).length →
      keptOutside (changesFiles room corpus idx) pp.fileId = true := fun posted hposted hne hlen =>
    h _ post hpost (trim_trim _) (fun hnl => hblock _ hmem (hsub.subset hnl)) pp hpp posted hposted
      hne (hlen ▸ hsub.length_le)
  rw [line_changesFiles] at hline
  rcases hfollowed with rfl | ⟨hmatch, hfile⟩
  · by_cases hnil : line = []
    · exact .inl hnil
    · exact .inr (hkept line hline hnil hlength)
  · rw [lineEqual_of_byte hbyte, beq_iff_eq] at hmatch
    refine .inr (hfile ▸ hkept _ hmatch (fun hnil => ?_) rfl)
    rw [hnil, show trim [] = [] from rfl, hkeys] at hpost
    cases hpost

/-- It is so where every list of postings is such. -/
theorem postedOutside_of_lines (h : ∀ e ∈ idx.lines, ∀ pp ∈ e.2,
    keptOutside (changesFiles room corpus idx) pp.fileId = true) :
    PostedOutside room corpus idx := by
  intro key post hfind
  obtain ⟨before, behind, hlines, _⟩ := List.lookup_eq_some_iff.mp hfind
  exact h (key, post) (by simp [hlines])

/-- Then no comparison looks at characters that are gone. -/
theorem PostedOutside.comparesKept (h : PostedOutside room corpus idx) (block : List Bytes)
    (anchorSorter : Sorter Anchor.weight) (runSorter : Sorter Run.blockBegin) (minRun : Nat) :
    ComparesKept room corpus idx block anchorSorter runSorter minRun := by
  intro q hq line _ _
  obtain ⟨pos, post, _, hpost, pp, hpp, hfollowed⟩ := mem_comparisons hq
  exact .inr (hfollowed.fileId ▸ h _ post hpost pp hpp)

/-- And every block is printed. -/
theorem PostedOutside.isSome (h : PostedOutside room corpus idx) (hbyte : idx.normalized = false)
    (hash : Bool) (block : List Bytes) (anchorSorter : Sorter Anchor.weight)
    (runSorter : Sorter Run.blockBegin) (minRun : Nat) :
    (emitAddedCorpus (viewAccess room corpus idx) hash block anchorSorter runSorter minRun).isSome
    := by
  rw [Option.isSome_iff_exists, isSome_emitAddedCorpus_of_byte hbyte hash]
  exact h.comparesKept block anchorSorter runSorter minRun

/-- A posting that leads into a file kept inside its string object makes a block that
cannot be printed. -/
theorem not_comesBack_of_posting (hbyte : idx.normalized = false) {key : Bytes}
    {post : List Posting} (hfind : idx.find key = some post) (htrim : trim key = key)
    {pp : Posting} (hpp : pp ∈ post) {line : Bytes}
    (hline : corpus.line idx pp.fileId pp.lineno = some line) (hne : line ≠ [])
    (hlength : key.length ≤ line.length)
    (hinside : keptOutside (changesFiles room corpus idx) pp.fileId ≠ true) {baseDir : Bytes}
    {disk : Disk} (hash : Bool) (anchorSorter : Sorter Anchor.weight)
    (runSorter : Sorter Run.blockBegin) (minRun : Nat) :
    ¬ ComesBack room corpus idx baseDir disk hash
      [key ++ List.replicate (line.length - key.length) space] anchorSorter runSorter minRun := by
  rintro ⟨items, hitems, _⟩
  obtain ⟨hruns, _⟩ := emitAddedCorpus_eq_some.mp hitems
  have hkeys : blockKeys corpus idx [key ++ List.replicate (line.length - key.length) space] =
      [key] := by
    rw [blockKeys_of_byte hbyte, List.map_singleton, trim_append_spaces htrim]
  have hnone : accessEqual (viewAccess room corpus idx)
      [key ++ List.replicate (line.length - key.length) space] 0 pp.fileId pp.lineno = none := by
    rw [accessEqual_of_byte hbyte, ← Option.not_isSome_iff_eq_none, isSome_sameLine]
    intro hall
    have hlen : line.length =
        (key ++ List.replicate (line.length - key.length) space).length := by
      rw [List.length_append, List.length_replicate]
      omega
    rcases hall line (by rw [line_changesFiles]; exact hline) hlen with hnil | hkept
    · exact hne hnil
    · exact hinside hkept
  rw [hkeys, factorizeM_singleton hfind hpp hnone] at hruns
  cases hruns

end

/-- **Byte mode.** On the same tree, a block is printed and comes back line for line
exactly if no comparison of its factorization is of a nonempty line of its length in a
file kept inside its string object. Every block comes back exactly if no posting leads
into such a file; here the index has no empty key, as those that are built have none. -/
theorem byte_mode_lossless_iff (room : Nat) (corpus : Corpus) (idx : Index)
    (hbyte : idx.normalized = false) {baseDir : Bytes} {disk : Disk}
    (htree : SameTree corpus baseDir disk) :
    (∀ (hash : Bool) (block : List Bytes) (anchorSorter : Sorter Anchor.weight)
      (runSorter : Sorter Run.blockBegin) (minRun : Nat),
      ComesBack room corpus idx baseDir disk hash block anchorSorter runSorter minRun ↔
        ComparesKept room corpus idx block anchorSorter runSorter minRun) ∧
    (idx.find [] = none →
      ((∀ (hash : Bool) (block : List Bytes), (∀ line ∈ block, newline ∉ line) →
        ∀ (anchorSorter : Sorter Anchor.weight) (runSorter : Sorter Run.blockBegin) (minRun : Nat),
        ComesBack room corpus idx baseDir disk hash block anchorSorter runSorter minRun) ↔
      PostedKept room corpus idx)) := by
  have hblock : ∀ (hash : Bool) (block : List Bytes) (anchorSorter : Sorter Anchor.weight)
      (runSorter : Sorter Run.blockBegin) (minRun : Nat),
      ComesBack room corpus idx baseDir disk hash block anchorSorter runSorter minRun ↔
        ComparesKept room corpus idx block anchorSorter runSorter minRun := by
    intro hash block anchorSorter runSorter minRun
    rw [← isSome_emitAddedCorpus_of_byte hbyte hash]
    constructor
    · rintro ⟨items, hitems, _⟩
      exact ⟨items, hitems⟩
    · rintro ⟨items, hitems⟩
      exact ⟨items, hitems, expands_of_byte hbyte htree hitems⟩
  refine ⟨hblock, fun hkeys => ⟨fun hall => ?_, fun hkept hash block hlines as rs minRun =>
    (hblock hash block as rs minRun).mpr (hkept.comparesKept hbyte hkeys hlines as rs minRun)⟩⟩
  intro key post hfind htrim hnewline pp hpp line hline hne hlength
  by_contra hinside
  refine not_comesBack_of_posting hbyte hfind htrim hpp hline hne hlength hinside true
    (Sorter.stable _) (Sorter.stable _) 1 (hall true _ ?_ _ _ 1)
  rw [List.forall_mem_singleton, List.mem_append, not_or]
  refine ⟨hnewline, fun hmem => ?_⟩
  exact absurd (List.eq_of_mem_replicate hmem) (by decide)

/-- Two lines of a block of three are copies of corpus lines, of which one is
not indexed; the posting of the other is out of date in a second file. The file has
16 bytes, one more than a string has room for. -/
theorem byte_mode_lossless_copy :
    let corpus : Corpus := .single (ascii "/lib.php") (ascii "a();\r\nb();\nc();\n")
      ⟨corpusSplitLines, fun _ => rfl⟩ (by decide) (by decide)
    let idx : Index := ⟨[ascii "lib.php", ascii "old.php"], [(ascii "b();", [⟨1, 7⟩, ⟨0, 2⟩])],
      false, by decide, by decide⟩
    let block := [ascii "a();", ascii "b();", ascii "d();"]
    emitAddedCorpus (viewAccess 15 corpus idx) true block (Sorter.stable _) (Sorter.stable _) 2 =
        some [.ref (ascii "r \"lib.php\" 1 2 # h:" ++ refHashHex (refHash (ascii "a();\nb();\n"))),
          .literal (ascii "d();")] ∧
      ComesBack 15 corpus idx [] corpus.readFile true block (Sorter.stable _) (Sorter.stable _)
        2 := by
  intro corpus idx block
  have houtside : PostedOutside 15 corpus idx := postedOutside_of_lines (by decide +kernel)
  have hkept : PostedKept 15 corpus idx := fun key post hfind _ _ pp hpp _ _ _ _ =>
    houtside key post hfind pp hpp
  exact ⟨by decide +kernel, ((byte_mode_lossless_iff 15 corpus idx rfl (fun _ => rfl)).2
    (by decide)).mpr hkept true block (by decide) (Sorter.stable _) (Sorter.stable _) 2⟩

/-- With room for 15 bytes in a string, the line of a file of five bytes is gone when it
is compared with the block. -/
theorem short_file_lost :
    let corpus : Corpus := .single (ascii "/lib.php") (ascii "b();\n")
      ⟨corpusSplitLines, fun _ => rfl⟩ (by decide) (by decide)
    let idx : Index := ⟨[ascii "lib.php"], [(ascii "b();", [⟨0, 1⟩])], false, by decide, by decide⟩
    emitAddedCorpus (viewAccess 15 corpus idx) true [ascii "b();"] (Sorter.stable _)
        (Sorter.stable _) 1 = none ∧
      ¬ ComesBack 15 corpus idx [] corpus.readFile true [ascii "b();"] (Sorter.stable _)
        (Sorter.stable _) 1 := by
  intro corpus idx
  have hnone : emitAddedCorpus (viewAccess 15 corpus idx) true [ascii "b();"] (Sorter.stable _)
      (Sorter.stable _) 1 = none := by decide +kernel
  refine ⟨hnone, ?_⟩
  rintro ⟨items, hitems, _⟩
  rw [hnone] at hitems
  cases hitems

end Phpatcher.Theorems
