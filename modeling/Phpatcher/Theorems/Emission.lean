import Phpatcher.Theorems.Comparisons
import Phpatcher.Theorems.Maximality
import Phpatcher.Theorems.References

/-!
# The emission loops

`emit_added_corpus` walks the block and the runs side by side, and meets every run at
its first line, once (`emitLoop_induction`). So whatever relation `Rel` the lines of one
printed run have to the block lines they stand for, the whole output has, one line for
each line of the block (`emitLoop_reproduces`).
-/

namespace Phpatcher.Theorems

open Phpatcher.Basis Phpatcher.Core Phpatcher.Glue Phpatcher.Tools

/-! ## The walk -/

/-- Runs of a block of `n` lines that begin at `pos` or later, one behind the other. -/
structure Ahead (n pos : Nat) (runs : List Run) : Prop where
  nonempty : ∀ r ∈ runs, r.blockBegin < r.blockEnd
  inBlock : ∀ r ∈ runs, r.blockEnd ≤ n
  ordered : runs.Pairwise fun r t => r.blockEnd ≤ t.blockBegin
  ahead : ∀ r ∈ runs, pos ≤ r.blockBegin

theorem Ahead.behind {n pos : Nat} {r : Run} {rest : List Run} (h : Ahead n pos (r :: rest)) :
    Ahead n r.blockEnd rest where
  nonempty t ht := h.nonempty t (List.mem_cons_of_mem _ ht)
  inBlock t ht := h.inBlock t (List.mem_cons_of_mem _ ht)
  ordered := (List.pairwise_cons.mp h.ordered).2
  ahead := (List.pairwise_cons.mp h.ordered).1

/-- No run begins at `pos`. -/
theorem Ahead.succ {n pos : Nat} {runs : List Run} (h : Ahead n pos runs)
    (hne : ∀ r ∈ runs.head?, r.blockBegin ≠ pos) : Ahead n (pos + 1) runs where
  nonempty := h.nonempty
  inBlock := h.inBlock
  ordered := h.ordered
  ahead := by
    cases runs with
    | nil => simp
    | cons r rest =>
        have hfirst : pos + 1 ≤ r.blockBegin :=
          Nat.lt_of_le_of_ne (h.ahead r List.mem_cons_self) (hne r (by simp)).symm
        refine List.forall_mem_cons.mpr ⟨hfirst, fun t ht => ?_⟩
        have hlater := h.behind.ahead t ht
        have hnonempty := h.nonempty r List.mem_cons_self
        omega

/-- Behind the block there are no runs. -/
theorem Ahead.eq_nil {n pos : Nat} {runs : List Run} (h : Ahead n pos runs) (hend : n ≤ pos) :
    runs = [] := by
  cases runs with
  | nil => rfl
  | cons r rest =>
      have := h.nonempty r List.mem_cons_self
      have := h.inBlock r List.mem_cons_self
      have := h.ahead r List.mem_cons_self
      omega

/-- A line is covered by one of the runs at most. -/
theorem Ahead.covers_unique {n pos : Nat} {runs : List Run} (h : Ahead n pos runs) {r t : Run}
    (hr : r ∈ runs) (ht : t ∈ runs) {k : Nat} (hrk : r.Covers k) (htk : t.Covers k) : r = t := by
  have hapart : ∀ x ∈ runs, ∀ y ∈ runs, x = y ∨ x.blockEnd ≤ y.blockBegin ∨
      y.blockEnd ≤ x.blockBegin :=
    List.Pairwise.forall_of_forall_of_flip (fun x _ => .inl rfl)
      (h.ordered.imp fun hxy => .inr (.inl hxy)) (h.ordered.imp fun hxy => .inr (.inr hxy))
  rcases hapart r hr t ht with heq | hbefore | hbehind
  · exact heq
  · have := hrk.2
    have := htk.1
    omega
  · have := hrk.1
    have := htk.2
    omega

/-- The runs of a factorization lie ahead. -/
theorem ahead_factorize {equal : EqualFn} (hcounted : Counted equal)
    (anchorSorter : Sorter Anchor.weight) (runSorter : Sorter Run.blockBegin) (keys : List Bytes)
    (minRun : Nat) (postingsOf : Bytes → Option (List Posting)) :
    Ahead keys.length 0 (factorize anchorSorter runSorter keys minRun postingsOf equal) := by
  obtain ⟨hsound, hordered⟩ := factorize_sound anchorSorter runSorter keys minRun postingsOf
    hcounted
  exact ⟨fun r hr => (hsound r hr).nonempty, fun r hr => (hsound r hr).inBlock, hordered,
    fun _ _ => Nat.zero_le _⟩

/-- The lines from `pos` on that no run covers have the property. -/
def ForUncovered (P : Nat → Prop) (n : Nat) (runs : List Run) (pos : Nat) : Prop :=
  ∀ b, pos ≤ b → b < n → Uncovered runs b → P b

/-- In front of all runs it is one more line. -/
theorem forUncovered_succ {P : Nat → Prop} {n pos : Nat} (hlt : pos < n) {runs : List Run}
    (hfree : Ahead n (pos + 1) runs) :
    ForUncovered P n runs pos ↔ P pos ∧ ForUncovered P n runs (pos + 1) := by
  constructor
  · intro hall
    have huncovered : Uncovered runs pos := by
      intro r hr hcovers
      have := hfree.ahead r hr
      have := hcovers.1
      omega
    exact ⟨hall pos (Nat.le_refl _) hlt huncovered, fun b hle => hall b (by omega)⟩
  · rintro ⟨hfirst, hlater⟩ b hle hb huncovered
    rcases Nat.lt_or_eq_of_le hle with hgt | rfl
    · exact hlater b hgt hb huncovered
    · exact hfirst

/-- At the start of a run it is the lines behind the run. -/
theorem forUncovered_run {P : Nat → Prop} {n : Nat} {r : Run} {rest : List Run}
    (hahead : Ahead n r.blockBegin (r :: rest)) :
    ForUncovered P n (r :: rest) r.blockBegin ↔ ForUncovered P n rest r.blockEnd := by
  have hnonempty := hahead.nonempty r List.mem_cons_self
  constructor
  · intro hall b hge hb huncovered
    refine hall b (by omega) hb fun t ht hcovers => ?_
    rcases List.mem_cons.mp ht with rfl | ht
    · have := hcovers.2
      omega
    · exact huncovered t ht hcovers
  · intro hlater b hge hb huncovered
    have hout : r.blockEnd ≤ b := by
      by_contra hin
      exact huncovered r List.mem_cons_self ⟨hge, by omega⟩
    exact hlater b hout hb fun t ht => huncovered t (List.mem_cons_of_mem _ ht)

section

variable {access : CorpusAccess} {hash : Bool} {block : List Bytes}

/-- What holds of the output at the end of the block, and goes on holding when a line or
a run is put in front, holds of the whole output. -/
theorem emitLoop_induction {motive : Nat → List Run → List Emitted → Prop}
    (done : ∀ pos, block.length ≤ pos → motive pos [] [])
    (line : ∀ pos runs items, pos < block.length → Ahead block.length (pos + 1) runs →
      motive (pos + 1) runs items → motive pos runs (.literal (block.getD pos []) :: items))
    (run : ∀ r rest printed items, Ahead block.length r.blockBegin (r :: rest) →
      emitRun access hash block r = some printed → motive r.blockEnd rest items →
        motive r.blockBegin (r :: rest) (printed ++ items))
    {turns pos : Nat} {runs : List Run} {items : List Emitted}
    (hahead : Ahead block.length pos runs) (hturns : block.length - pos ≤ turns)
    (h : emitLoop access hash block turns pos runs = some items) : motive pos runs items := by
  induction turns generalizing pos runs items with
  | zero =>
      obtain rfl : [] = items := Option.some.inj h
      rw [hahead.eq_nil (by omega)]
      exact done pos (by omega)
  | succ turns ih =>
      unfold emitLoop at h
      split at h
      next hlt =>
        cases runs with
        | nil =>
            obtain ⟨more, hmore, hitems⟩ := Option.bind_eq_some_iff.mp h
            obtain rfl := Option.some.inj hitems
            have hfree := hahead.succ (by simp)
            exact line pos [] more hlt hfree (ih hfree (by omega) hmore)
        | cons r rest =>
            simp only at h
            split at h
            next heq =>
              -- the run starts here: it is printed and passed over
              obtain ⟨printed, hprinted, hbehind⟩ := Option.bind_eq_some_iff.mp h
              obtain ⟨more, hmore, hitems⟩ := Option.bind_eq_some_iff.mp hbehind
              obtain rfl := Option.some.inj hitems
              subst heq
              have hnonempty := hahead.nonempty r List.mem_cons_self
              exact run r rest printed more hahead hprinted
                (ih hahead.behind (by omega) hmore)
            next hne =>
              -- in front of the run: one literal line
              obtain ⟨more, hmore, hitems⟩ := Option.bind_eq_some_iff.mp h
              obtain rfl := Option.some.inj hitems
              have hfree := hahead.succ (by simpa using hne)
              exact line pos (r :: rest) more hlt hfree (ih hfree (by omega) hmore)
      next hge =>
        obtain rfl : [] = items := Option.some.inj h
        rw [hahead.eq_nil (by omega)]
        exact done pos (by omega)

/-- Where the block is printed, every run is. -/
theorem isSome_emitRun_of_emitLoop {turns pos : Nat} {runs : List Run} {items : List Emitted}
    (hahead : Ahead block.length pos runs) (hturns : block.length - pos ≤ turns)
    (h : emitLoop access hash block turns pos runs = some items) :
    ∀ r ∈ runs, ∃ printed, emitRun access hash block r = some printed := by
  refine emitLoop_induction (motive := fun _ runs _ =>
    ∀ r ∈ runs, ∃ printed, emitRun access hash block r = some printed)
    (fun _ _ => by simp) (fun _ _ _ _ _ ih => ih) (fun r rest printed _ _ hprinted ih => ?_)
    hahead hturns h
  exact List.forall_mem_cons.mpr ⟨⟨printed, hprinted⟩, ih⟩

/-- The items are block lines and those of runs. -/
theorem forall_mem_emitLoop {P : Emitted → Prop} {turns pos : Nat} {runs : List Run}
    {items : List Emitted} (hahead : Ahead block.length pos runs)
    (hturns : block.length - pos ≤ turns)
    (h : emitLoop access hash block turns pos runs = some items)
    (hline : ∀ b, b < block.length → P (.literal (block.getD b [])))
    (hrun : ∀ r ∈ runs, ∀ printed, emitRun access hash block r = some printed →
      ∀ item ∈ printed, P item) : ∀ item ∈ items, P item := by
  revert hrun
  refine emitLoop_induction (motive := fun _ runs items =>
    (∀ r ∈ runs, ∀ printed, emitRun access hash block r = some printed →
      ∀ item ∈ printed, P item) → ∀ item ∈ items, P item)
    (fun _ _ _ => by simp)
    (fun pos _ _ hlt _ ih hrun => List.forall_mem_cons.mpr ⟨hline pos hlt, ih hrun⟩)
    (fun r rest printed items _ hprinted ih hrun => ?_) hahead hturns h
  rw [List.forall_mem_cons] at hrun
  exact List.forall_mem_append.mpr ⟨hrun.1 printed hprinted, ih hrun.2⟩

/-- Where every run is printed, the block is. -/
theorem isSome_emitLoop (hash : Bool) (block : List Bytes) (turns pos : Nat) {runs : List Run}
    (h : ∀ r ∈ runs, (emitRun access hash block r).isSome) :
    (emitLoop access hash block turns pos runs).isSome := by
  induction turns generalizing pos runs with
  | zero => rfl
  | succ turns ih =>
      unfold emitLoop
      split
      · cases runs with
        | nil => exact isSome_bind (ih (pos + 1) h) fun _ => rfl
        | cons r rest =>
            simp only
            split
            · rw [List.forall_mem_cons] at h
              refine isSome_bind h.1 fun printed => ?_
              exact isSome_bind (ih r.blockEnd h.2) fun _ => rfl
            · exact isSome_bind (ih (pos + 1) h) fun _ => rfl
      · rfl

end

/-! ## What comes back -/

/-- The printed lines expand to `n` lines that have the relation `Rel` to the
block lines from `b` on. -/
def Reproduces (baseDir : Bytes) (disk : Disk) (Rel : Nat → Bytes → Prop) (b n : Nat)
    (items : List Emitted) : Prop :=
  ∃ out, Expands baseDir disk items out ∧ List.Forall₂ Rel (List.range' b n) out

section

variable {baseDir : Bytes} {disk : Disk} {Rel : Nat → Bytes → Prop}

theorem Reproduces.nil (b : Nat) : Reproduces baseDir disk Rel b 0 [] :=
  ⟨[], Expands.nil, List.Forall₂.nil⟩

theorem Reproduces.append {b n m : Nat} {xs ys : List Emitted}
    (hx : Reproduces baseDir disk Rel b n xs) (hy : Reproduces baseDir disk Rel (b + n) m ys) :
    Reproduces baseDir disk Rel b (n + m) (xs ++ ys) := by
  obtain ⟨x, hxs, hxrel⟩ := hx
  obtain ⟨y, hys, hyrel⟩ := hy
  refine ⟨x ++ y, hxs.append hys, ?_⟩
  rw [← List.range'_append_1]
  exact List.rel_append hxrel hyrel

theorem Reproduces.literal {b : Nat} {line : Bytes} (h : Rel b line) :
    Reproduces baseDir disk Rel b 1 [.literal line] :=
  ⟨[line], Expands.literal line, List.Forall₂.cons h List.Forall₂.nil⟩

/-- A relation that holds of more lines. -/
theorem Reproduces.imp {Rel' : Nat → Bytes → Prop} {b n : Nat} {items : List Emitted}
    (h : Reproduces baseDir disk Rel b n items)
    (himp : ∀ k, b ≤ k → k < b + n → ∀ x, Rel k x → Rel' k x) :
    Reproduces baseDir disk Rel' b n items := by
  obtain ⟨out, hexpands, hall⟩ := h
  refine ⟨out, hexpands, ?_⟩
  clear hexpands
  induction n generalizing b out with
  | zero =>
      cases hall
      exact .nil
  | succ n ih =>
      rw [List.range'_succ] at hall ⊢
      cases hall with
      | cons hfirst hrest =>
          exact .cons (himp b (Nat.le_refl b) (by omega) _ hfirst)
            (ih (fun k hge hlt => himp k (by omega) (by omega)) _ hrest)

variable {access : CorpusAccess} {hash : Bool} {block : List Bytes}

/-- **The emission loop.** When every run reproduces its own lines, the loop
reproduces the block. -/
theorem emitLoop_reproduces {turns pos : Nat} {runs : List Run} {items : List Emitted}
    (hahead : Ahead block.length pos runs) (hturns : block.length - pos ≤ turns)
    (h : emitLoop access hash block turns pos runs = some items)
    (hself : ForUncovered (fun b => Rel b (block.getD b [])) block.length runs pos)
    (hrun : ∀ r ∈ runs, ∀ printed, emitRun access hash block r = some printed →
      Reproduces baseDir disk Rel r.blockBegin r.length printed) :
    Reproduces baseDir disk Rel pos (block.length - pos) items := by
  revert hself hrun
  refine emitLoop_induction (motive := fun pos runs items =>
    ForUncovered (fun b => Rel b (block.getD b [])) block.length runs pos →
    (∀ r ∈ runs, ∀ printed, emitRun access hash block r = some printed →
      Reproduces baseDir disk Rel r.blockBegin r.length printed) →
    Reproduces baseDir disk Rel pos (block.length - pos) items)
    (fun pos hge _ _ => ?_) (fun pos runs items hlt hfree ih hself hrun => ?_)
    (fun r rest printed items hahead hprinted ih hself hrun => ?_) hahead hturns h
  · rw [show block.length - pos = 0 by omega]
    exact Reproduces.nil pos
  · rw [forUncovered_succ hlt hfree] at hself
    rw [show block.length - pos = 1 + (block.length - (pos + 1)) by omega]
    exact (Reproduces.literal hself.1).append (ih hself.2 hrun)
  · rw [forUncovered_run hahead] at hself
    rw [List.forall_mem_cons] at hrun
    have hnonempty := hahead.nonempty r List.mem_cons_self
    have hin := hahead.inBlock r List.mem_cons_self
    have hrest := ih hself hrun.2
    have hlen : r.length = r.blockEnd - r.blockBegin := rfl
    rw [show block.length - r.blockBegin = r.length + (block.length - r.blockEnd) by omega]
    rw [show r.blockEnd = r.blockBegin + r.length by omega] at hrest ⊢
    exact (hrun.1 printed hprinted).append hrest

/-- A block that comes back line by line. -/
theorem eq_of_forall₂ {out : List Bytes}
    (h : List.Forall₂ (fun b x => x = block.getD b []) (List.range' 0 block.length) out) :
    out = block := by
  have hmap : ∀ (l : List Nat) (out : List Bytes),
      List.Forall₂ (fun b x => x = block.getD b []) l out →
        out = l.map fun b => block.getD b [] := by
    intro l out h
    induction h with
    | nil => rfl
    | cons hx _ ih => rw [hx, ih, List.map_cons]
  rw [hmap _ _ h]
  refine List.ext_getElem (by simp) fun i hi _ => ?_
  have : i < block.length := by simpa using hi
  simp [this]

theorem rel_of_forall₂ {Rel : Nat → Bytes → Prop}
    (h : List.Forall₂ Rel (List.range' 0 block.length) block) {b : Nat} (hb : b < block.length) :
    Rel b (block.getD b []) := by
  have hget := h.get (i := b) (by simpa using hb) hb
  simpa [List.getD_eq_getElem?_getD, hb] using hget

/-- What printed lines expand to is determined. -/
theorem Expands.unique {items : List Emitted} {x y : List Bytes}
    (hx : Expands baseDir disk items x) (hy : Expands baseDir disk items y) : x = y := by
  obtain ⟨_, _, hbuild⟩ := hx.builds [] (RefCache.agrees_nil _)
  obtain ⟨_, _, hbuild'⟩ := hy.builds [] (RefCache.agrees_nil _)
  rw [Fallible.Yields, hbuild] at hbuild'
  exact Except.ok.inj (Prod.mk.inj hbuild').1

end

/-! ## The callback -/

section

variable {room : Nat} {corpus : Corpus} {idx : Index} {block : List Bytes}

/-- The runs of a block, as the lines and keys of the files are. -/
def blockRuns (corpus : Corpus) (idx : Index) (block : List Bytes)
    (anchorSorter : Sorter Anchor.weight) (runSorter : Sorter Run.blockBegin) (minRun : Nat) :
    List Run :=
  factorize anchorSorter runSorter (blockKeys corpus idx block) minRun idx.find
    (lineEqual corpus idx block)

/-- What the program finds equal is equal. -/
theorem answersAlike_views (room : Nat) (corpus : Corpus) (idx : Index) (block : List Bytes) :
    AnswersAlike (accessEqual (viewAccess room corpus idx) block) (lineEqual corpus idx block) := by
  intro b fileId c same hsame
  unfold accessEqual at hsame
  unfold lineEqual
  split at hsame
  next hnormalized =>
    rw [if_pos (show idx.normalized = true from hnormalized)]
    exact (Option.some.inj hsame).symm
  next hbyte =>
    rw [if_neg (show ¬ idx.normalized = true from hbyte), sameLine, ← line_changesFiles room]
    exact sameLine_eq_some hsame

/-- The program prints a block if it gets through the factorization and the loop. -/
theorem emitAddedCorpus_eq_some {hash : Bool} {anchorSorter : Sorter Anchor.weight}
    {runSorter : Sorter Run.blockBegin} {minRun : Nat} {items : List Emitted} :
    emitAddedCorpus (viewAccess room corpus idx) hash block anchorSorter runSorter minRun =
        some items ↔
      factorizeM (accessEqual (viewAccess room corpus idx) block) anchorSorter runSorter
          (blockKeys corpus idx block) minRun idx.find =
        some (blockRuns corpus idx block anchorSorter runSorter minRun) ∧
      emitLoop (viewAccess room corpus idx) hash block block.length 0
        (blockRuns corpus idx block anchorSorter runSorter minRun) = some items := by
  constructor
  · intro h
    obtain ⟨runs, hruns, hitems⟩ := Option.bind_eq_some_iff.mp h
    obtain rfl := factorizeM_eq_some (answersAlike_views room corpus idx block) hruns
    exact ⟨hruns, hitems⟩
  · rintro ⟨hruns, hitems⟩
    exact Option.bind_eq_some_iff.mpr ⟨_, hruns, hitems⟩

end

/-! ## Exact references -/

section

variable {baseDir : Bytes} {disk : Disk} {room : Nat} {corpus : Corpus} {idx : Index}
  {hash : Bool} {block : List Bytes}

/-- The lines of a block from `b` on. -/
def blockLines (block : List Bytes) (b n : Nat) : List Bytes :=
  (List.range' b n).map fun k => block.getD k []

/-- Two ranges of one length, compared element by element. -/
theorem forall₂_range' {R : Nat → Nat → Prop} {b c n : Nat} (h : ∀ i, i < n → R (c + i) (b + i)) :
    List.Forall₂ R (List.range' c n) (List.range' b n) := by
  induction n generalizing b c with
  | zero => exact .nil
  | succ n ih =>
      rw [List.range'_succ, List.range'_succ]
      refine .cons (h 0 (by omega)) (ih fun i hi => ?_)
      have hlater := h (i + 1) (by omega)
      rwa [show c + 1 + i = c + (i + 1) by omega, show b + 1 + i = b + (i + 1) by omega]

/-- The corpus lines from `c` on are found equal to the block lines from `b` on. -/
def Copies (room : Nat) (corpus : Corpus) (idx : Index) (block : List Bytes)
    (fileId b c n : Nat) : Prop :=
  ∀ i, i < n →
    (viewAccess room corpus idx).same fileId (c + i) (block.getD (b + i) []) = some true

/-- A line that is found equal is a line of the file, and can be read. -/
theorem line_of_same {fileId c : Nat} {text : Bytes}
    (h : (viewAccess room corpus idx).same fileId c text = some true) :
    corpus.line idx fileId c = some text ∧
      (viewAccess room corpus idx).line fileId c = some (some text) := by
  obtain ⟨hline, hreadable⟩ := readable_of_sameLine h
  have hread := hreadable.readLine
  rw [hline] at hread
  rw [line_changesFiles] at hline
  exact ⟨hline, hread⟩

theorem Copies.lines {fileId b c n : Nat} (h : Copies room corpus idx block fileId b c n) :
    LinesAt corpus idx fileId (List.range' c n) (blockLines block b n) := by
  rw [LinesAt, blockLines, List.forall₂_map_right_iff]
  exact forall₂_range' fun i hi => (line_of_same (h i hi)).1

/-- The guard of lines that were found equal is that of the block lines. -/
theorem Copies.guard {fileId b c n : Nat} (h : Copies room corpus idx block fileId b c n)
    (hn : 1 ≤ n) :
    refBytesLoop (viewAccess room corpus idx) fileId (refLines c (c + n - 1)) =
      some (some (blockLines block b n)) := by
  obtain ⟨hlast, _⟩ := line_of_same (h (n - 1) (by omega))
  have hcounted := (corpusLine_counted hlast).2
  rw [refBytesLoop_eq_some, refLines, if_neg (by omega), List.append_nil,
    show c + n - 1 + 1 - c = n by omega, blockLines, List.forall₂_map_right_iff]
  exact forall₂_range' fun i hi => (line_of_same (h i hi)).2

/-- Such lines are printed as one reference. -/
theorem Copies.emitRef {fileId b c n : Nat} (h : Copies room corpus idx block fileId b c n)
    (hn : 1 ≤ n) (hash : Bool) (pads : Option (Bytes × Bytes)) :
    emitRef (viewAccess room corpus idx) hash fileId c (c + n - 1) pads =
      some (some (.ref (rDirective (idx.file fileId) c (c + n - 1) pads
        (guardText hash (unlines (blockLines block b n)))))) :=
  emitRef_eq_some.mpr ⟨blockLines block b n, h.guard hn, rfl⟩

theorem Copies.emitRefOr {fileId b c n : Nat} (h : Copies room corpus idx block fileId b c n)
    (hn : 1 ≤ n) (hash : Bool) :
    emitRefOr (viewAccess room corpus idx) hash block fileId c (c + n - 1) b n =
      some [.ref (rDirective (idx.file fileId) c (c + n - 1) none
        (guardText hash (unlines (blockLines block b n))))] := by
  rw [Tools.emitRefOr, h.emitRef hn]
  rfl

/-- An exact reference stands for the block lines. -/
theorem Copies.reproduces (htree : SameTree corpus baseDir disk) {fileId b c n : Nat}
    (h : Copies room corpus idx block fileId b c n) (hn : 1 ≤ n) (hash : Bool) :
    Reproduces baseDir disk (fun b x => x = block.getD b []) b n
      [.ref (rDirective (idx.file fileId) c (c + n - 1) none
        (guardText hash (unlines (blockLines block b n))))] := by
  have hfirst : 1 ≤ c := (corpusLine_counted (line_of_same (h 0 hn)).1).1
  obtain ⟨lines, hlines, hexpands⟩ := emitRef_expands htree hfirst (by omega)
    (h.emitRef hn hash none)
  have hexact : lines.map (padded none
      { path := idx.file fileId, begin := c, end_ := c + n - 1 }).expandLine = lines := by
    rw [show (padded none { path := idx.file fileId, begin := c, end_ := c + n - 1 }).expandLine =
      id from rfl, List.map_id]
  rw [hexact] at hexpands
  refine ⟨lines, hexpands, ?_⟩
  rw [show c + n - 1 + 1 - c = n by omega] at hlines
  -- line by line: the corpus line is the block line
  obtain rfl : lines = blockLines block b n := List.right_unique_forall₂'
    (fun _ _ _ hline hline' => Option.some.inj (hline.symm.trans hline')) hlines h.lines
  rw [blockLines, List.forall₂_map_right_iff, List.forall₂_same]
  exact fun _ _ => rfl

end

end Phpatcher.Theorems
