import Phpatcher.Tools.PoolShutdown

/-!
# When the pool of normalizers can be shut down

A coprocess has the write ends of those started before it, so it keeps their input
open. The indexer, which waits for one coprocess after the other, comes to the end of
this exactly if it begins with the one started last, and so on down to the first. From
the first to the last, with two or more of them, it waits forever.
-/

namespace Phpatcher.Theorems

open Phpatcher.Basis Phpatcher.Tools

variable {n : Nat} {order : List Nat}

/-! ## Every run ends -/

/-- How many coprocesses are running. -/
def runningCount (p : NormalizerPool) : Nat := p.children.countP (·.running)

/-- How many steps there are still to take, at most. -/
def shutdownWork (s : Shutdown) : Nat :=
  2 * s.left.length + (if s.waiting then 0 else 1) + runningCount s.pool

theorem countP_set_running {children : List Child} {j : Nat} {c : Child}
    (h : children[j]? = some c) (hrunning : c.running = true) :
    (children.set j { c with running := false }).countP (·.running) + 1 =
      children.countP (·.running) := by
  induction children generalizing j with
  | nil => simp at h
  | cons d children ih =>
      cases j with
      | zero =>
          obtain rfl := Option.some.inj h
          rw [List.set_cons_zero, List.countP_cons, List.countP_cons, hrunning]
          simp
      | succ j =>
          rw [List.set_cons_succ, List.countP_cons, List.countP_cons, ← ih (by simpa using h)]
          omega

/-- Every step is one of these. -/
theorem shutdownWork_step {s t : Shutdown} {e : ShutdownEvent} (h : Shutdown.Step s e t) :
    shutdownWork t < shutdownWork s := by
  cases h with
  | close hleft hwaiting =>
      simp only [shutdownWork, runningCount, hleft, hwaiting, if_true, Bool.false_eq_true,
        if_false]
      omega
  | exit hchild hrunning heof =>
      have hcount := countP_set_running hchild hrunning
      simp only [shutdownWork, runningCount]
      omega
  | reap hleft hwaiting hchild hgone =>
      simp only [shutdownWork, runningCount, hleft, hwaiting, if_true, Bool.false_eq_true,
        if_false, List.length_cons]
      omega

/-! ## From the last to the first -/

/-- Of the coprocesses the first `m` are left, and the others have ended. -/
structure Descended (n m : Nat) (s : Shutdown) : Prop where
  left : s.left = (List.range m).reverse
  opened : s.pool.opened = List.range (if s.waiting then m - 1 else m)
  length : s.pool.children.length = n
  inherited : ∀ j c, s.pool.children[j]? = some c → c.inherited = List.range j
  ended : ∀ j c, s.pool.children[j]? = some c → m ≤ j → c.running = false
  bounded : m ≤ n

theorem eq_reverse_range (horder : order.Perm (List.range n)) (h : order.Pairwise (· > ·)) :
    order = (List.range n).reverse := by
  have hdown : (List.range n).reverse.Pairwise (· > ·) :=
    List.pairwise_reverse.mpr List.pairwise_lt_range
  exact List.Perm.eq_of_pairwise (fun a b _ _ hab hba => absurd hab (Nat.lt_asymm hba)) h hdown
    (horder.trans (List.reverse_perm _).symm)

theorem descended_start (n : Nat) :
    Descended n n { pool := startAll n, left := (List.range n).reverse } where
  left := rfl
  opened := opened_startAll n
  length := length_startAll n
  inherited _ _ h := (child_startAll h).2
  ended j c h hle := by
    have hlt := (List.getElem?_eq_some_iff.mp h).1
    rw [length_startAll] at hlt
    omega
  bounded := Nat.le_refl n

/-- The first that is left is the one started last. -/
theorem Descended.head {m : Nat} {s : Shutdown} (h : Descended n m s) {j : Nat}
    {rest : List Nat} (hleft : s.left = j :: rest) :
    m = j + 1 ∧ rest = (List.range j).reverse := by
  rw [h.left] at hleft
  cases m with
  | zero => simp at hleft
  | succ m =>
      rw [List.range_succ, List.reverse_append, List.reverse_singleton, List.singleton_append,
        List.cons.injEq] at hleft
      obtain ⟨rfl, rfl⟩ := hleft
      exact ⟨rfl, rfl⟩

theorem Descended.step {m : Nat} {s t : Shutdown} (h : Descended n m s) {e : ShutdownEvent}
    (hstep : Shutdown.Step s e t) : ∃ m', Descended n m' t := by
  cases hstep with
  | @close j rest hleft hwaiting =>
      obtain ⟨rfl, _⟩ := h.head hleft
      refine ⟨j + 1, h.left, ?_, h.length, h.inherited, h.ended, h.bounded⟩
      have hopened := h.opened
      rw [hwaiting] at hopened
      show s.pool.opened.erase j = List.range j
      have hnot : j ∉ List.range j := by simp
      rw [hopened, if_neg Bool.false_ne_true, List.range_succ, List.erase_append_right _ hnot,
        List.erase_cons_head, List.append_nil]
  | @exit j c hchild hrunning heof =>
      refine ⟨m, h.left, h.opened, ?_, fun i d hd => ?_, fun i d hd hle => ?_, h.bounded⟩
      · rw [List.length_set, h.length]
      · rw [List.getElem?_set] at hd
        split at hd
        next hij =>
          subst hij
          split at hd
          next =>
            rw [← Option.some.inj hd]
            exact h.inherited j c hchild
          next => cases hd
        next => exact h.inherited i d hd
      · rw [List.getElem?_set] at hd
        split at hd
        next =>
          split at hd
          next => rw [← Option.some.inj hd]
          next => cases hd
        next => exact h.ended i d hd hle
  | @reap j rest c hleft hwaiting hchild hgone =>
      obtain ⟨rfl, rfl⟩ := h.head hleft
      refine ⟨j, rfl, ?_, h.length, h.inherited, fun i d hd hle => ?_, by have := h.bounded; omega⟩
      · have hopened := h.opened
        rw [hwaiting] at hopened
        exact hopened
      · rcases Nat.eq_or_lt_of_le hle with rfl | hlt
        · rw [hchild] at hd
          rw [← Option.some.inj hd]
          exact hgone
        · exact h.ended i d hd hlt

/-- As long as one is left, something can happen. -/
theorem Descended.moves {m : Nat} {s : Shutdown} (h : Descended n m s) (hleft : s.left ≠ []) :
    ∃ e t, Shutdown.Step s e t := by
  obtain ⟨j, rest, hcons⟩ := List.exists_cons_of_ne_nil hleft
  obtain ⟨rfl, _⟩ := h.head hcons
  cases hwaiting : s.waiting with
  | false => exact ⟨_, _, .close hcons hwaiting⟩
  | true =>
      have hlt : j < s.pool.children.length := by
        have hle := h.bounded
        rw [h.length]
        omega
      have hchild := List.getElem?_eq_getElem hlt
      cases hrunning : s.pool.children[j].running with
      | false => exact ⟨_, _, .reap hcons hwaiting hchild hrunning⟩
      | true =>
          -- the indexer has closed its end, and those that had a copy have ended
          refine ⟨_, _, .exit hchild hrunning ?_⟩
          rintro (hopened | ⟨c, hc, hlive, hinherited⟩)
          · rw [h.opened, hwaiting] at hopened
            simp at hopened
          · obtain ⟨k, hk, rfl⟩ := List.getElem_of_mem hc
            have hget := List.getElem?_eq_getElem hk
            rw [h.inherited k _ hget, List.mem_range] at hinherited
            rw [h.ended k _ hget hinherited] at hlive
            cases hlive

/-! ## In any other order -/

/-- One started earlier is left, and is waited for before another one that has a copy of
its write end and is itself kept running by the indexer. -/
structure Stranded (i k : Nat) (s : Shutdown) : Prop where
  left : ∃ before behind, s.left = before ++ i :: behind ∧ k ∈ behind
  nodup : s.left.Nodup
  opened : k ∈ s.pool.opened
  copies : ∃ c, s.pool.children[k]? = some c ∧ c.running = true ∧ i ∈ c.inherited
  running : ∀ c, s.pool.children[i]? = some c → c.running = true

/-- Neither of the two can end. -/
theorem Stranded.held {i k : Nat} {s : Shutdown} (h : Stranded i k s) :
    s.pool.Held i ∧ s.pool.Held k := by
  obtain ⟨c, hchild, hrunning, hmem⟩ := h.copies
  exact ⟨.inr ⟨c, List.mem_of_getElem? hchild, hrunning, hmem⟩, .inl h.opened⟩

theorem Stranded.step {i k : Nat} {s t : Shutdown} (h : Stranded i k s) {e : ShutdownEvent}
    (hstep : Shutdown.Step s e t) : Stranded i k t := by
  obtain ⟨before, behind, hleft, hk⟩ := h.left
  cases hstep with
  | @close j rest hcons hwaiting =>
      -- the one being destroyed is not the later one
      have hne : k ≠ j := by
        rintro rfl
        have hnodup := h.nodup
        rw [hleft] at hcons hnodup
        cases before with
        | nil =>
            rw [List.nil_append, List.cons.injEq] at hcons
            rw [List.nil_append, List.nodup_cons] at hnodup
            exact hnodup.1 (hcons.1 ▸ hk)
        | cons b before =>
            rw [List.cons_append, List.cons.injEq] at hcons
            rw [List.cons_append, List.nodup_cons] at hnodup
            exact hnodup.1 (hcons.1 ▸ List.mem_append_right _ (List.mem_cons_of_mem _ hk))
      exact ⟨h.left, h.nodup, (List.mem_erase_of_ne hne).mpr h.opened, h.copies, h.running⟩
  | @exit j c hchild hrunning heof =>
      have hi : j ≠ i := fun hij => heof (hij ▸ h.held.1)
      have hj : j ≠ k := fun hjk => heof (hjk ▸ h.held.2)
      refine ⟨h.left, h.nodup, h.opened, ?_, ?_⟩
      · simp only [List.getElem?_set_ne hj]
        exact h.copies
      · simp only [List.getElem?_set_ne hi]
        exact h.running
  | @reap j rest c hcons hwaiting hchild hgone =>
      have hnodup := h.nodup
      rw [hcons] at hleft hnodup
      cases before with
      | nil =>
          -- the earlier one has not ended
          rw [List.nil_append, List.cons.injEq] at hleft
          rw [hleft.1] at hchild
          rw [h.running c hchild] at hgone
          cases hgone
      | cons b before =>
          rw [List.cons_append, List.cons.injEq] at hleft
          exact ⟨⟨before, behind, hleft.2, hk⟩, (List.nodup_cons.mp hnodup).2, h.opened, h.copies,
            h.running⟩

/-- One that is still waited for is left. -/
theorem Stranded.left_ne_nil {i k : Nat} {s : Shutdown} (h : Stranded i k s) : s.left ≠ [] := by
  obtain ⟨before, behind, hleft, _⟩ := h.left
  rw [hleft]
  exact List.append_ne_nil_of_right_ne_nil _ (List.cons_ne_nil _ _)

/-- In an order that is not descending one is before a later one. -/
theorem exists_ascent (h : ¬ order.Pairwise (· > ·)) (hnodup : order.Nodup) :
    ∃ i k before behind, order = before ++ i :: behind ∧ k ∈ behind ∧ i < k := by
  induction order with
  | nil => exact absurd .nil h
  | cons i rest ih =>
      rw [List.nodup_cons] at hnodup
      by_cases hfirst : ∀ k ∈ rest, i > k
      · have hrest : ¬ rest.Pairwise (· > ·) := fun hpair => h (.cons hfirst hpair)
        obtain ⟨a, b, before, behind, hsplit, hmem, hlt⟩ := ih hrest hnodup.2
        exact ⟨a, b, i :: before, behind, by rw [hsplit, List.cons_append], hmem, hlt⟩
      · push Not at hfirst
        obtain ⟨k, hk, hle⟩ := hfirst
        have hne : i ≠ k := by
          rintro rfl
          exact hnodup.1 hk
        exact ⟨i, k, [], rest, rfl, hk, by omega⟩

theorem stranded_start (horder : order.Perm (List.range n)) (h : ¬ order.Pairwise (· > ·)) :
    ∃ i k, Stranded i k { pool := startAll n, left := order } := by
  have hnodup := horder.nodup_iff.mpr List.nodup_range
  obtain ⟨i, k, before, behind, hsplit, hk, hlt⟩ := exists_ascent h hnodup
  have hmem : k ∈ List.range n := by
    rw [← horder.mem_iff, hsplit]
    exact List.mem_append_right _ (List.mem_cons_of_mem _ hk)
  have hbound : k < (startAll n).children.length := by
    rw [length_startAll]
    exact List.mem_range.mp hmem
  have hchild := List.getElem?_eq_getElem hbound
  obtain ⟨hrunning, hinherited⟩ := child_startAll hchild
  refine ⟨i, k, ⟨before, behind, hsplit, hk⟩, hnodup, ?_, ⟨_, hchild, hrunning, ?_⟩,
    fun c hc => (child_startAll hc).1⟩
  · rw [opened_startAll]
    exact hmem
  · rw [hinherited]
    exact List.mem_range.mpr hlt

/-! ## The end of a run -/

/-- Every coprocess has ended and was waited for. -/
structure Reaped (s : Shutdown) : Prop where
  left : s.left = []
  ended : ∀ c ∈ s.pool.children, c.running = false

theorem Descended.reaped {m : Nat} {s : Shutdown} (h : Descended n m s) (hleft : s.left = []) :
    Reaped s where
  left := hleft
  ended c hc := by
    have hm : m = 0 := by
      have hlength := congrArg List.length (h.left.symm.trans hleft)
      rwa [List.length_reverse, List.length_range] at hlength
    obtain ⟨j, hj, rfl⟩ := List.getElem_of_mem hc
    exact h.ended j _ (List.getElem?_eq_getElem hj) (hm ▸ Nat.zero_le j)

/-- What every step of a shutdown keeps holds at its end. -/
theorem run_keeps {P : Shutdown → Prop} (hP : ∀ s e t, P s → Shutdown.Step s e t → P t)
    {s t : Shutdown} {es : List ShutdownEvent} (hrun : (shutdown n order).Run s es t)
    (hs : P s) : P t := by
  induction hrun with
  | nil => exact hs
  | cons hstep _ ih => exact ih (hP _ _ _ hs hstep)

/-- The indexer waits for an element that is left. -/
theorem waits_for_one {s t : Shutdown} {e : ShutdownEvent} (h : s.waiting = true → s.left ≠ [])
    (hstep : Shutdown.Step s e t) : t.waiting = true → t.left ≠ [] := by
  cases hstep with
  | close hleft _ => exact fun _ => hleft ▸ List.cons_ne_nil _ _
  | exit => exact h
  | reap => exact fun hwaiting => absurd hwaiting Bool.false_ne_true

theorem shutdownWork_run {s t : Shutdown} {es : List ShutdownEvent}
    (hrun : (shutdown n order).Run s es t) : es.length + shutdownWork t ≤ shutdownWork s := by
  induction hrun with
  | nil => rw [List.length_nil, Nat.zero_add]
  | cons hstep _ ih =>
      have hless := shutdownWork_step hstep
      rw [List.length_cons]
      omega

theorem shutdownWork_start (horder : order.Perm (List.range n)) :
    shutdownWork { pool := startAll n, left := order } = 3 * n + 1 := by
  have hall : runningCount (startAll n) = n := by
    rw [runningCount, List.countP_eq_length.mpr, length_startAll]
    intro c hc
    obtain ⟨j, hj, rfl⟩ := List.getElem_of_mem hc
    exact (child_startAll (List.getElem?_eq_getElem hj)).1
  have hlength := horder.length_eq
  rw [List.length_range] at hlength
  simp only [shutdownWork, hlength, hall, Bool.false_eq_true, if_false]
  omega

theorem shutdownWork_pos {s : Shutdown} (h : s.waiting = true → s.left ≠ []) :
    0 < shutdownWork s := by
  rw [shutdownWork]
  cases hwaiting : s.waiting with
  | false => simp
  | true =>
      have hpos := List.length_pos_of_ne_nil (h hwaiting)
      omega

/-- One element is left after any run in an order that is not descending. -/
theorem left_ne_nil_of_ascent (horder : order.Perm (List.range n))
    (h : ¬ order.Pairwise (· > ·)) {t : Shutdown} {es : List ShutdownEvent}
    (hrun : (shutdown n order).Run { pool := startAll n, left := order } es t) :
    t.left ≠ [] := by
  obtain ⟨i, k, hstart⟩ := stranded_start horder h
  have hstranded : Stranded i k t := run_keeps (fun _ _ _ h => h.step) hrun hstart
  exact hstranded.left_ne_nil

/-- A run that cannot go on has reaped all exactly if the order descends. -/
theorem reaped_iff (horder : order.Perm (List.range n)) {t : Shutdown} {es : List ShutdownEvent}
    (hrun : (shutdown n order).Run { pool := startAll n, left := order } es t)
    (hstuck : ∀ e u, ¬ (shutdown n order).step t e u) :
    Reaped t ↔ order.Pairwise (· > ·) := by
  constructor
  · intro hreaped
    by_contra hnot
    exact left_ne_nil_of_ascent horder hnot hrun hreaped.left
  · intro hdown
    obtain rfl := eq_reverse_range horder hdown
    have hkeeps : ∀ s e t, (∃ m, Descended n m s) → Shutdown.Step s e t →
        ∃ m, Descended n m t := fun _ _ _ ⟨_, h⟩ hstep => h.step hstep
    obtain ⟨m, hdescended⟩ := run_keeps hkeeps hrun ⟨n, descended_start n⟩
    refine hdescended.reaped ?_
    by_contra hleft
    obtain ⟨e, u, hstep⟩ := hdescended.moves hleft
    exact hstuck e u hstep

/-! ## The run that `clear` takes -/

section

variable (p : NormalizerPool) (left : List Nat) (waiting : Bool)

theorem getElem?_endAt {i j : Nat} {c : Child} (h : (p.endAt j).children[i]? = some c) :
    ∃ d, p.children[i]? = some d ∧ c.inherited = d.inherited ∧
      (c.running = true → d.running = true ∧ (i = j → p.Held j)) := by
  rw [NormalizerPool.endAt] at h
  split at h
  next hnone => exact ⟨c, h, rfl, fun hrunning => ⟨hrunning, fun hij => by simp_all⟩⟩
  next d hchild =>
    split at h
    next hends =>
      rw [List.getElem?_set] at h
      split at h
      next hij =>
        split at h
        next =>
          rw [← Option.some.inj h]
          exact ⟨d, hij ▸ hchild, rfl, fun hrunning => absurd hrunning Bool.false_ne_true⟩
        next => cases h
      next hij => exact ⟨c, h, rfl, fun hrunning => ⟨hrunning, fun heq => absurd heq.symm hij⟩⟩
    next hstays =>
      refine ⟨c, h, rfl, fun hrunning => ⟨hrunning, ?_⟩⟩
      rintro rfl
      obtain rfl := Option.some.inj (hchild.symm.trans h)
      by_contra hheld
      exact hstays ⟨hrunning, hheld⟩

theorem opened_endAt (j : Nat) : (p.endAt j).opened = p.opened := by
  rw [NormalizerPool.endAt]
  split
  · rfl
  · split <;> rfl

/-- The others are as they were. -/
theorem getElem?_endAt_ne {i j : Nat} (h : j ≠ i) :
    (p.endAt j).children[i]? = p.children[i]? := by
  rw [NormalizerPool.endAt]
  split
  · rfl
  · split
    · exact List.getElem?_set_ne h
    · rfl

/-- The end of a coprocess is a step, and so is that of several. -/
theorem run_endAt (j : Nat) :
    ∃ es, (shutdown n order).Run ⟨p, left, waiting⟩ es ⟨p.endAt j, left, waiting⟩ := by
  rw [NormalizerPool.endAt]
  split
  next => exact ⟨[], .nil _⟩
  next c hchild =>
    split
    next hends => exact ⟨[.exit j], .cons (.exit hchild hends.1 hends.2) (.nil _)⟩
    next => exact ⟨[], .nil _⟩

theorem run_settle (m : Nat) :
    ∃ es, (shutdown n order).Run ⟨p, left, waiting⟩ es ⟨p.settle m, left, waiting⟩ := by
  induction m generalizing p with
  | zero => exact ⟨[], .nil _⟩
  | succ m ih =>
      obtain ⟨es, hfirst⟩ := @run_endAt n order p left waiting m
      obtain ⟨fs, hrest⟩ := ih (p.endAt m)
      exact ⟨es ++ fs, hfirst.append hrest⟩

end

/-- What a coprocess has by inheritance leads to earlier ones. -/
def Earlier (p : NormalizerPool) : Prop :=
  ∀ j (c : Child), p.children[j]? = some c → ∀ i ∈ c.inherited, i < j

/-- From a number on, those that run are kept open. -/
def HeldFrom (m : Nat) (p : NormalizerPool) : Prop :=
  ∀ j (c : Child), m ≤ j → p.children[j]? = some c → c.running = true → p.Held j

theorem Earlier.endAt {p : NormalizerPool} (h : Earlier p) (j : Nat) : Earlier (p.endAt j) := by
  intro i c hc
  obtain ⟨d, hd, hinherited, _⟩ := getElem?_endAt p hc
  rw [hinherited]
  exact h i d hd

theorem HeldFrom.endAt {m : Nat} {p : NormalizerPool} (h : HeldFrom (m + 1) p)
    (hearlier : Earlier p) : HeldFrom m (p.endAt m) := by
  intro j c hle hc hrunning
  obtain ⟨d, hd, _, hruns⟩ := getElem?_endAt p hc
  obtain ⟨hlive, hheld⟩ := hruns hrunning
  have hold : p.Held j := by
    rcases Nat.eq_or_lt_of_le hle with heq | hlt
    · exact heq ▸ hheld heq.symm
    · exact h j d hlt hd hlive
  rcases hold with hopened | ⟨e, he, helive, hmem⟩
  · exact .inl (opened_endAt p m ▸ hopened)
  · -- the one that keeps it open was started later
    obtain ⟨k, hk, rfl⟩ := List.getElem_of_mem he
    have hget := List.getElem?_eq_getElem hk
    have hlater := hearlier k _ hget j hmem
    have hne : m ≠ k := by omega
    rw [← getElem?_endAt_ne p hne] at hget
    exact .inr ⟨_, List.mem_of_getElem? hget, helive, hmem⟩

theorem settle_heldFrom {m : Nat} {p : NormalizerPool} (h : HeldFrom m p)
    (hearlier : Earlier p) : HeldFrom 0 (p.settle m) ∧ Earlier (p.settle m) := by
  induction m generalizing p with
  | zero => exact ⟨h, hearlier⟩
  | succ m ih => exact ih (h.endAt hearlier) (hearlier.endAt m)

/-- Nothing more can end. -/
theorem settled_settle {p : NormalizerPool} (h : Earlier p) :
    HeldFrom 0 (p.settle p.children.length) ∧ Earlier (p.settle p.children.length) := by
  refine settle_heldFrom (fun j c hle hc => ?_) h
  rw [List.getElem?_eq_none hle] at hc
  cases hc

/-- If `clear` ends, so does a run; -/
theorem run_of_clear {p q : NormalizerPool} {left : List Nat} (h : p.clear left = some q) :
    ∃ es, (shutdown n order).Run ⟨p, left, false⟩ es ⟨q, [], false⟩ := by
  induction left generalizing p with
  | nil => exact ⟨[], Option.some.inj h ▸ .nil _⟩
  | cons j rest ih =>
      simp only [NormalizerPool.clear] at h
      split at h
      next inherited hchild =>
        obtain ⟨es, hsettle⟩ := @run_settle n order { p with opened := p.opened.erase j }
          (j :: rest) true p.children.length
        obtain ⟨fs, hrest⟩ := ih h
        exact ⟨_, .cons (.close rfl rfl) (hsettle.append (.cons (.reap rfl rfl hchild rfl) hrest))⟩
      next => cases h

/-- and if it does not, a run comes to a state in which the indexer waits forever. -/
theorem stuck_of_clear {p : NormalizerPool} {left : List Nat} (hearlier : Earlier p)
    (h : p.clear left = none) :
    ∃ es t, (shutdown n order).Run ⟨p, left, false⟩ es t ∧
      (∀ e u, ¬ (shutdown n order).step t e u) ∧ t.left ≠ [] := by
  induction left generalizing p with
  | nil => cases h
  | cons j rest ih =>
      have hsettled := @settled_settle { p with opened := p.opened.erase j } hearlier
      obtain ⟨es, hsettle⟩ := @run_settle n order { p with opened := p.opened.erase j }
        (j :: rest) true p.children.length
      have hclosed : (shutdown n order).Run ⟨p, j :: rest, false⟩ (.close :: es) _ :=
        .cons (.close rfl rfl) hsettle
      simp only [NormalizerPool.clear] at h
      split at h
      next inherited hchild =>
        obtain ⟨fs, t, hrest, hstuck⟩ := ih hsettled.2 h
        exact ⟨_, t, hclosed.append (.cons (.reap rfl rfl hchild rfl) hrest), hstuck⟩
      next hlive =>
        refine ⟨_, _, hclosed, fun e u hstep => ?_, List.cons_ne_nil _ _⟩
        cases hstep with
        | close _ hwaiting => cases hwaiting
        | @exit i c hchild hrunning heof =>
            exact heof (hsettled.1 i c (Nat.zero_le i) hchild hrunning)
        | @reap i _ c hleft _ hchild hgone =>
            obtain ⟨rfl, rfl⟩ := List.cons.inj hleft
            obtain ⟨running, inherited⟩ := c
            exact hlive inherited (hgone ▸ hchild)

theorem earlier_startAll (n : Nat) : Earlier (startAll n) := by
  intro j c hc i hi
  rw [(child_startAll hc).2] at hi
  exact List.mem_range.mp hi

/-- `nz.clear()` comes to an end exactly if the order descends. -/
theorem isSome_clear_startAll (horder : order.Perm (List.range n)) :
    ((startAll n).clear order).isSome ↔ order.Pairwise (· > ·) := by
  cases hclear : (startAll n).clear order with
  | some q =>
      obtain ⟨es, hrun⟩ := @run_of_clear n order _ _ _ hclear
      refine ⟨fun _ => ?_, fun _ => rfl⟩
      by_contra hnot
      exact left_ne_nil_of_ascent horder hnot hrun rfl
  | none =>
      obtain ⟨es, t, hrun, hstuck, hleft⟩ :=
        @stuck_of_clear n order _ _ (earlier_startAll n) hclear
      refine ⟨nofun, fun hdown => ?_⟩
      exact absurd ((reaped_iff horder hrun hstuck).mpr hdown).left hleft

/-- A vector of at most one element is destroyed in descending order. -/
theorem Destruction.reaps_iff (d : Destruction) (n : Nat) :
    d.Reaps n ↔ (d.order n).Pairwise (· > ·) := by
  refine ⟨?_, .inr⟩
  rintro (hfew | hdown)
  · have hlength := (d.perm n).length_eq
    rw [List.length_range] at hlength
    match d.order n, hlength with
    | [], _ => exact .nil
    | [j], _ => exact List.pairwise_singleton _ j
    | _ :: _ :: _, hlength =>
        simp only [List.length_cons] at hlength
        omega
  · exact hdown

/-- So the indexer gets past `nz.clear()` exactly in these orders. -/
theorem isSome_clear (d : Destruction) (n : Nat) :
    ((startAll n).clear (d.order n)).isSome ↔ d.Reaps n := by
  rw [isSome_clear_startAll (d.perm n), Destruction.reaps_iff]

/-- A run of `nz.clear()` takes at most three steps for each coprocess. When it cannot
go on, every coprocess has ended and was waited for exactly if the elements are
destroyed from the last to the first. -/
theorem pool_shutdown (horder : order.Perm (List.range n)) {t : Shutdown}
    {es : List ShutdownEvent}
    (hrun : (shutdown n order).Run { pool := startAll n, left := order } es t) :
    es.length ≤ 3 * n ∧
      ((∀ e u, ¬ (shutdown n order).step t e u) → (Reaped t ↔ order.Pairwise (· > ·))) := by
  constructor
  · have hwork := shutdownWork_run hrun
    have hwaits := run_keeps (fun _ _ _ => waits_for_one) hrun
      (fun hwaiting => absurd hwaiting Bool.false_ne_true)
    have hpos := shutdownWork_pos hwaits
    rw [shutdownWork_start horder] at hwork
    omega
  · exact reaped_iff horder hrun

/-- Two coprocesses, from the first to the last: the indexer waits for the first one,
whose input the second one keeps open. -/
theorem pool_shutdown_two :
    ∃ t, (shutdown 2 [0, 1]).Run { pool := startAll 2, left := [0, 1] } [.close] t ∧
      (∀ e u, ¬ (shutdown 2 [0, 1]).step t e u) ∧ ¬ Reaped t := by
  have hrun : (shutdown 2 [0, 1]).Run { pool := startAll 2, left := [0, 1] } [.close]
      { pool := { startAll 2 with opened := [1] }, left := [0, 1], waiting := true } :=
    .cons (.close rfl rfl) (.nil _)
  have hstuck : ∀ e u, ¬ (shutdown 2 [0, 1]).step
      { pool := { startAll 2 with opened := [1] }, left := [0, 1], waiting := true } e u := by
    intro e u hstep
    cases hstep with
    | close hleft hwaiting => cases hwaiting
    | @exit j c hchild hrunning heof =>
        match j with
        | 0 => exact heof (.inr ⟨{ inherited := [0] }, by decide, rfl, by decide⟩)
        | 1 => exact heof (.inl (by decide))
        | j + 2 => cases hchild
    | @reap j rest c hleft hwaiting hchild hgone =>
        cases hleft
        cases hchild
        cases hgone
  refine ⟨_, hrun, hstuck, fun hreaped => ?_⟩
  have hdown := ((pool_shutdown (.refl _) hrun).2 hstuck).mp hreaped
  revert hdown
  decide

end Phpatcher.Theorems
