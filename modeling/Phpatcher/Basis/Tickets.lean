import Phpatcher.Basis.Progress

/-!
# Work drawn from a shared counter

Any number of workers draw numbers from one counter. A worker does the work of a
number it has drawn, piece by piece, and draws again; behind the last number it is
done. Whose turn it is next is open.

However the turns fall, every number is drawn once, each worker draws its numbers
in their order and has the result of their work (`Crew.Drawn`); and every way to
deal out the numbers comes about (`exists_dealt`).
-/

namespace Phpatcher.Basis

variable {ω ρ : Type}

/-- The numbers below `count`, the pieces of work of each, and what a piece makes of
a result. -/
structure Workload (ω ρ : Type) where
  count : Nat
  pieces : Nat → List ω
  apply : ρ → ω → ρ
  empty : ρ

/-- What comes of the work of some numbers. -/
def Workload.resultOf (load : Workload ω ρ) (drawn : List Nat) : ρ :=
  (drawn.flatMap load.pieces).foldl load.apply load.empty

structure Worker (ω ρ : Type) where
  result : ρ
  todo : List ω := []
  done : Bool := false
  drawn : List Nat := []

/-- The counter and the workers. -/
structure Crew (ω ρ : Type) where
  counter : Nat := 0
  worker : Nat → Worker ω ρ

/-- What a worker does with a number it has drawn. -/
def Worker.take (load : Workload ω ρ) (w : Worker ω ρ) (i : Nat) : Worker ω ρ :=
  if i < load.count then { w with todo := load.pieces i, drawn := w.drawn ++ [i] }
  else { w with done := true }

/-- Another state of one worker. -/
def Crew.set (s : Crew ω ρ) (j : Nat) (w : Worker ω ρ) : Crew ω ρ :=
  { s with worker := Function.update s.worker j w }

@[simp] theorem Crew.set_worker (s : Crew ω ρ) (j : Nat) (w : Worker ω ρ) :
    (s.set j w).worker j = w := by
  simp [Crew.set]

theorem Crew.set_worker_ne (s : Crew ω ρ) {j j' : Nat} (h : j' ≠ j) (w : Worker ω ρ) :
    (s.set j w).worker j' = s.worker j' := by
  simp [Crew.set, h]

@[simp] theorem Crew.set_counter (s : Crew ω ρ) (j : Nat) (w : Worker ω ρ) :
    (s.set j w).counter = s.counter := rfl

/-- A turn of worker `j`. -/
inductive Crew.Step (load : Workload ω ρ) (jobs : Nat) : Crew ω ρ → Nat → Crew ω ρ → Prop
  | draw {s j} (hj : j < jobs) (htodo : (s.worker j).todo = [])
      (hopen : (s.worker j).done = false) :
      Step load jobs s j
        { s.set j ((s.worker j).take load s.counter) with counter := s.counter + 1 }
  | piece {s j p rest} (hj : j < jobs) (htodo : (s.worker j).todo = p :: rest) :
      Step load jobs s j
        (s.set j { s.worker j with result := load.apply (s.worker j).result p, todo := rest })

/-- The runs of `jobs` workers. -/
def crew (load : Workload ω ρ) (jobs : Nat) : Transition (Crew ω ρ) Nat where
  start s := s = { worker := fun _ => { result := load.empty } }
  step := Crew.Step load jobs

/-- Every worker is done. -/
def Crew.Done (jobs : Nat) (s : Crew ω ρ) : Prop := ∀ j < jobs, (s.worker j).done = true

/-! ## What is drawn -/

/-- One more item in one of several lists. -/
theorem flatMap_update_perm {α : Type} {l : List Nat} (hl : l.Nodup) {j : Nat} (hj : j ∈ l)
    {f g : Nat → List α} {x : α} (hg : g j = f j ++ [x]) (hrest : ∀ k, k ≠ j → g k = f k) :
    (l.flatMap g).Perm (l.flatMap f ++ [x]) := by
  induction l with
  | nil => simp at hj
  | cons k l ih =>
      obtain ⟨hk, hnodup⟩ := List.nodup_cons.mp hl
      rw [List.flatMap_cons, List.flatMap_cons]
      rcases List.mem_cons.mp hj with rfl | hj
      · have hsame : l.flatMap g = l.flatMap f :=
          List.flatMap_congr fun k' hk' => hrest k' fun heq => hk (heq ▸ hk')
        rw [hg, hsame, List.append_assoc, List.append_assoc]
        exact List.perm_append_comm.append_left _
      · have hne : k ≠ j := fun heq => hk (heq ▸ hj)
        rw [hrest k hne, List.append_assoc]
        exact (ih hnodup hj).append_left _

/-- What holds of a worker while the counter is at `counter`. -/
structure Worker.Sound (load : Workload ω ρ) (counter : Nat) (w : Worker ω ρ) : Prop where
  increasing : w.drawn.Pairwise (· < ·)
  below : ∀ i ∈ w.drawn, i < counter
  result : w.todo.foldl load.apply w.result = load.resultOf w.drawn
  done : w.done = true → w.todo = [] ∧ load.count ≤ counter

variable {load : Workload ω ρ} {jobs : Nat} {s t : Crew ω ρ} {w : Worker ω ρ} {counter : Nat}

theorem Worker.Sound.mono (h : w.Sound load counter) : w.Sound load (counter + 1) where
  increasing := h.increasing
  below i hi := Nat.lt_succ_of_lt (h.below i hi)
  result := h.result
  done hdone := ⟨(h.done hdone).1, Nat.le_succ_of_le (h.done hdone).2⟩

theorem Worker.Sound.take (h : w.Sound load counter) (htodo : w.todo = []) :
    (w.take load counter).Sound load (counter + 1) := by
  have hresult := h.result
  rw [htodo, List.foldl_nil] at hresult
  unfold Worker.take
  split
  next hcount =>
    refine ⟨?_, ?_, ?_, fun hdone => absurd (h.done hdone).2 (by omega)⟩
    · refine List.pairwise_append.mpr ⟨h.increasing, List.pairwise_singleton _ _, ?_⟩
      intro i hi i' hi'
      rw [List.mem_singleton.mp hi']
      exact h.below i hi
    · intro i hi
      rcases List.mem_append.mp hi with hi | hi
      · exact Nat.lt_succ_of_lt (h.below i hi)
      · rw [List.mem_singleton.mp hi]
        exact Nat.lt_succ_self _
    · show (load.pieces counter).foldl load.apply w.result = load.resultOf (w.drawn ++ [counter])
      rw [hresult, Workload.resultOf, Workload.resultOf, List.flatMap_append, List.foldl_append,
        List.flatMap_singleton]
  next hcount =>
    refine ⟨h.increasing, fun i hi => Nat.lt_succ_of_lt (h.below i hi), h.result, fun _ => ?_⟩
    exact ⟨htodo, by omega⟩

theorem Worker.Sound.piece (h : w.Sound load counter) {p : ω} {rest : List ω}
    (htodo : w.todo = p :: rest) :
    Worker.Sound load counter { w with result := load.apply w.result p, todo := rest } where
  increasing := h.increasing
  below := h.below
  result := by
    have hresult := h.result
    rwa [htodo, List.foldl_cons] at hresult
  done hdone := by
    have := (h.done hdone).1
    rw [htodo] at this
    exact absurd this (List.cons_ne_nil _ _)

/-- What holds however the turns fall. -/
structure Crew.Drawn (load : Workload ω ρ) (jobs : Nat) (s : Crew ω ρ) : Prop where
  once : ((List.range jobs).flatMap fun j => (s.worker j).drawn).Perm
    (List.range (min s.counter load.count))
  sound : ∀ j, (s.worker j).Sound load s.counter

/-- A state of worker `j` that is sound. -/
theorem sound_set (h : ∀ k, (s.worker k).Sound load counter) {j : Nat}
    (hw : w.Sound load counter) (k : Nat) : ((s.set j w).worker k).Sound load counter := by
  by_cases hk : k = j
  · rw [hk, Crew.set_worker]
    exact hw
  · rw [Crew.set_worker_ne _ hk]
    exact h k

theorem Crew.Drawn.step (h : s.Drawn load jobs) {j : Nat} (hstep : Crew.Step load jobs s j t) :
    t.Drawn load jobs := by
  cases hstep with
  | draw hj htodo hopen =>
      refine ⟨?_, sound_set (fun k => (h.sound k).mono) ((h.sound j).take htodo)⟩
      have honce := h.once
      show ((List.range jobs).flatMap fun k => ((s.set j _).worker k).drawn).Perm
        (List.range (min (s.counter + 1) load.count))
      by_cases hcount : s.counter < load.count
      · -- the number at the counter falls to worker `j`
        have htake : (s.worker j).take load s.counter =
            { s.worker j with
              todo := load.pieces s.counter
              drawn := (s.worker j).drawn ++ [s.counter] } := if_pos hcount
        rw [Nat.min_eq_left hcount.le] at honce
        rw [Nat.min_eq_left hcount, List.range_succ, htake]
        refine (flatMap_update_perm List.nodup_range (List.mem_range.mpr hj)
          (by rw [Crew.set_worker]) fun k hk => ?_).trans (honce.append_right _)
        rw [Crew.set_worker_ne _ hk]
      · have htake : (s.worker j).take load s.counter = { s.worker j with done := true } :=
          if_neg hcount
        rw [Nat.min_eq_right (by omega)] at honce ⊢
        rw [htake]
        have hsame : ∀ k, ((s.set j { s.worker j with done := true }).worker k).drawn =
            (s.worker k).drawn := by
          intro k
          by_cases hk : k = j
          · rw [hk, Crew.set_worker]
          · rw [Crew.set_worker_ne _ hk]
        rw [List.flatMap_congr fun k _ => hsame k]
        exact honce
  | piece hj htodo =>
      rename_i p rest
      refine ⟨?_, sound_set h.sound ((h.sound j).piece htodo)⟩
      have hsame : ∀ k, ((s.set j { s.worker j with
          result := load.apply (s.worker j).result p, todo := rest }).worker k).drawn =
          (s.worker k).drawn := by
        intro k
        by_cases hk : k = j
        · rw [hk, Crew.set_worker]
        · rw [Crew.set_worker_ne _ hk]
      rw [List.flatMap_congr fun k _ => hsame k]
      exact h.once

theorem drawn_invariant : (crew load jobs).Invariant (Crew.Drawn load jobs) := by
  refine Transition.Inductive.invariant ⟨?_, ?_⟩
  · rintro s rfl
    refine ⟨by simp, fun j => ⟨List.Pairwise.nil, by simp, rfl, nofun⟩⟩
  · rintro s j t hs hstep
    exact hs.step hstep

/-- One way to deal out the numbers below `n`: each falls to one worker, and those
of a worker go up. -/
structure Dealt (jobs n : Nat) (claims : Nat → List Nat) : Prop where
  once : ((List.range jobs).flatMap claims).Perm (List.range n)
  increasing : ∀ j < jobs, (claims j).Pairwise (· < ·)

/-- When all workers are done, the numbers are dealt out, and each worker has the
result of those it has drawn. -/
theorem dealt_of_done (hjobs : jobs = 0 → load.count = 0) (hs : (crew load jobs).Reachable s)
    (hdone : s.Done jobs) :
    Dealt jobs load.count (fun j => (s.worker j).drawn) ∧
      ∀ j < jobs, (s.worker j).result = load.resultOf (s.worker j).drawn := by
  have h := drawn_invariant s hs
  have hcount : load.count ≤ s.counter := by
    cases jobs with
    | zero =>
        rw [hjobs rfl]
        exact Nat.zero_le _
    | succ jobs => exact ((h.sound 0).done (hdone 0 (Nat.zero_lt_succ jobs))).2
  refine ⟨⟨?_, fun j _ => (h.sound j).increasing⟩, fun j hj => ?_⟩
  · have honce := h.once
    rwa [Nat.min_eq_right hcount] at honce
  · have hresult := (h.sound j).result
    rwa [((h.sound j).done (hdone j hj)).1] at hresult

/-! ## The runs end -/

/-- The turns a worker still has with what it has drawn, and the one that finds no
number left. -/
def Worker.turns (w : Worker ω ρ) : Nat := w.todo.length + if w.done then 0 else 1

/-- The turns for the numbers from `counter` on. -/
def Workload.turnsFrom (load : Workload ω ρ) (counter : Nat) : Nat :=
  (((List.range load.count).drop counter).map fun i => (load.pieces i).length + 1).sum

/-- The turns to come. -/
def Crew.turns (load : Workload ω ρ) (jobs : Nat) (s : Crew ω ρ) : Nat :=
  ((List.range jobs).map fun j => (s.worker j).turns).sum + load.turnsFrom s.counter

theorem turnsFrom_of_lt (h : counter < load.count) :
    load.turnsFrom counter = (load.pieces counter).length + 1 + load.turnsFrom (counter + 1) := by
  have hdrop : (List.range load.count).drop counter =
      counter :: (List.range load.count).drop (counter + 1) := by
    rw [List.drop_eq_getElem_cons (by rwa [List.length_range]), List.getElem_range]
  rw [Workload.turnsFrom, hdrop, List.map_cons, List.sum_cons]
  rfl

theorem turnsFrom_of_le (h : load.count ≤ counter) : load.turnsFrom counter = 0 := by
  rw [Workload.turnsFrom, List.drop_of_length_le (by rwa [List.length_range])]
  rfl

/-- A sum in which one summand changes. -/
theorem sum_map_update {l : List Nat} (hl : l.Nodup) {j : Nat} (hj : j ∈ l) {f g : Nat → Nat}
    (hrest : ∀ k, k ≠ j → g k = f k) : (l.map g).sum + f j = (l.map f).sum + g j := by
  induction l with
  | nil => simp at hj
  | cons k l ih =>
      obtain ⟨hk, hnodup⟩ := List.nodup_cons.mp hl
      simp only [List.map_cons, List.sum_cons]
      rcases List.mem_cons.mp hj with rfl | hj
      · have hsame : l.map g = l.map f :=
          List.map_congr_left fun k' hk' => hrest k' fun heq => hk (heq ▸ hk')
        rw [hsame]
        omega
      · have hne : k ≠ j := fun heq => hk (heq ▸ hj)
        have := ih hnodup hj
        rw [hrest k hne]
        omega

theorem turns_set (s : Crew ω ρ) {j : Nat} (hj : j < jobs) (w : Worker ω ρ) :
    ((List.range jobs).map fun k => ((s.set j w).worker k).turns).sum + (s.worker j).turns =
      ((List.range jobs).map fun k => (s.worker k).turns).sum + w.turns := by
  have hsum := @sum_map_update (List.range jobs) List.nodup_range j (List.mem_range.mpr hj)
    (fun k => (s.worker k).turns) (fun k => ((s.set j w).worker k).turns)
    fun k hk => by simp only [Crew.set_worker_ne s hk]
  simpa using hsum

/-- A turn is one turn less to come, or two when it is a worker's last. -/
theorem turns_step {j : Nat} (hstep : Crew.Step load jobs s j t) :
    t.turns load jobs < s.turns load jobs := by
  cases hstep with
  | draw hj htodo hopen =>
      have hset := turns_set s hj ((s.worker j).take load s.counter)
      have hbefore : (s.worker j).turns = 1 := by simp [Worker.turns, htodo, hopen]
      rw [hbefore] at hset
      show ((List.range jobs).map fun k => ((s.set j _).worker k).turns).sum +
        load.turnsFrom (s.counter + 1) < _
      rw [Crew.turns]
      by_cases hcount : s.counter < load.count
      · have hafter : ((s.worker j).take load s.counter).turns =
            (load.pieces s.counter).length + 1 := by
          simp [Worker.take, hcount, Worker.turns, hopen]
        have := turnsFrom_of_lt hcount
        omega
      · have hafter : ((s.worker j).take load s.counter).turns = 0 := by
          simp [Worker.take, hcount, Worker.turns, htodo]
        have := @turnsFrom_of_le _ _ load s.counter (by omega)
        have := @turnsFrom_of_le _ _ load (s.counter + 1) (by omega)
        omega
  | piece hj htodo =>
      rename_i p rest
      have hset := turns_set s hj
        { s.worker j with result := load.apply (s.worker j).result p, todo := rest }
      simp only [Worker.turns, htodo, List.length_cons] at hset
      simp only [Crew.turns, Crew.set_counter, Worker.turns] at hset ⊢
      omega

/-- Every run comes to an end, and no worker ever waits. -/
theorem crew_progress (load : Workload ω ρ) (jobs : Nat) :
    (crew load jobs).Progress (fun _ => True) (Crew.Done jobs) (Crew.turns load jobs) where
  enabled s _ hopen := by
    obtain ⟨j, hj, hdone⟩ : ∃ j < jobs, (s.worker j).done = false := by
      simpa [Crew.Done] using hopen
    cases htodo : (s.worker j).todo with
    | nil => exact ⟨j, _, trivial, .draw hj htodo hdone⟩
    | cons p rest => exact ⟨j, _, trivial, .piece hj htodo⟩
  decreases s j t _ _ hstep := turns_step hstep

/-! ## Every way to deal comes about -/

/-- What worker `j` has to do, it does. -/
theorem exists_run_todo {j : Nat} (hj : j < jobs) (todo : List ω) :
    ∀ s : Crew ω ρ, (crew load jobs).Reachable s → (s.worker j).todo = todo →
      (crew load jobs).Reachable
        (s.set j { s.worker j with
          result := todo.foldl load.apply (s.worker j).result
          todo := [] }) := by
  induction todo with
  | nil =>
      intro s hs htodo
      have hsame : s.set j { s.worker j with result := (s.worker j).result, todo := [] } = s := by
        rw [← htodo]
        simp [Crew.set]
      rw [List.foldl_nil, hsame]
      exact hs
  | cons p rest ih =>
      intro s hs htodo
      have hstep := ih _ (hs.step (Crew.Step.piece hj htodo)) (by rw [Crew.set_worker])
      simpa [Crew.set] using hstep

/-- A crew between two numbers: all below the counter are dealt out and done. -/
def Crew.At (load : Workload ω ρ) (jobs : Nat) (claims : Nat → List Nat) (i : Nat)
    (s : Crew ω ρ) : Prop :=
  s.counter = i ∧ ∀ j < jobs, s.worker j =
    { result := load.resultOf ((claims j).filter (· < i)), drawn := (claims j).filter (· < i) }

/-- The numbers below `i + 1` in a list that goes up. -/
theorem filter_lt_succ {l : List Nat} (h : l.Pairwise (· < ·)) (i : Nat) :
    l.filter (· < i + 1) = l.filter (· < i) ++ if i ∈ l then [i] else [] := by
  induction l with
  | nil => rfl
  | cons a l ih =>
      obtain ⟨ha, hl⟩ := List.pairwise_cons.mp h
      have hrest := ih hl
      by_cases hai : a < i
      · have hne : i ≠ a := by omega
        rw [List.filter_cons_of_pos (by simpa using by omega),
          List.filter_cons_of_pos (by simpa using hai), hrest, List.cons_append]
        simp [hne]
      · have hnone : l.filter (· < i + 1) = [] := by
          rw [List.filter_eq_nil_iff]
          intro b hb
          have := ha b hb
          simpa using by omega
        have hnone' : l.filter (· < i) = [] := by
          rw [List.filter_eq_nil_iff]
          intro b hb
          have := ha b hb
          simpa using by omega
        have hmem : i ∉ l := fun hi => by
          have := ha i hi
          omega
        by_cases heq : a = i
        · rw [List.filter_cons_of_pos (by simpa using by omega),
            List.filter_cons_of_neg (by simpa using hai), hnone, hnone']
          simp [heq]
        · rw [List.filter_cons_of_neg (by simpa using by omega),
            List.filter_cons_of_neg (by simpa using hai), hnone, hnone']
          simp [Ne.symm heq, hmem]

theorem Dealt.owner {n : Nat} {claims : Nat → List Nat} (h : Dealt jobs n claims) {i : Nat}
    (hi : i < n) : ∃ j < jobs, i ∈ claims j ∧ ∀ k < jobs, k ≠ j → i ∉ claims k := by
  have hmem : i ∈ (List.range jobs).flatMap claims :=
    h.once.mem_iff.mpr (List.mem_range.mpr hi)
  obtain ⟨j, hj, hij⟩ := List.mem_flatMap.mp hmem
  have hnodup : ((List.range jobs).flatMap claims).Nodup := h.once.nodup_iff.mpr List.nodup_range
  refine ⟨j, List.mem_range.mp hj, hij, fun k hk hne hik => ?_⟩
  have hsymm : Std.Symm (Function.onFun List.Disjoint claims) := ⟨fun _ _ hd => hd.symm⟩
  have hdisjoint := (List.nodup_flatMap.mp hnodup).2.forall (List.mem_range.mpr hk) hj hne
  exact hdisjoint hik hij

/-- The numbers fall to the workers one after another. -/
theorem exists_at {claims : Nat → List Nat} (h : Dealt jobs load.count claims) :
    ∀ i ≤ load.count, ∃ s, (crew load jobs).Reachable s ∧ s.At load jobs claims i := by
  intro i
  induction i with
  | zero =>
      intro _
      refine ⟨_, .start rfl, rfl, fun j _ => ?_⟩
      have hnone : (claims j).filter (· < 0) = [] := by simp
      rw [hnone]
      rfl
  | succ i ih =>
      intro hi
      obtain ⟨s, hs, hcounter, hworkers⟩ := ih (by omega)
      obtain ⟨j, hj, hij, hothers⟩ := h.owner hi
      have hdraw := hs.step (Crew.Step.draw hj (by rw [hworkers j hj]) (by rw [hworkers j hj]))
      have htake : (s.worker j).take load s.counter =
          { s.worker j with todo := load.pieces i, drawn := (s.worker j).drawn ++ [i] } := by
        rw [hcounter]
        exact if_pos hi
      rw [htake] at hdraw
      have hdone := exists_run_todo hj (load.pieces i) _ hdraw (by simp)
      refine ⟨_, hdone, by simp [hcounter], fun k hk => ?_⟩
      by_cases hkj : k = j
      · subst hkj
        have hfilter := filter_lt_succ (h.increasing k hk) i
        rw [if_pos hij] at hfilter
        rw [hfilter]
        simp [hworkers k hk, Workload.resultOf]
      · have hfilter := filter_lt_succ (h.increasing k hk) i
        rw [if_neg (hothers k hk hkj), List.append_nil] at hfilter
        rw [hfilter, Crew.set_worker_ne _ hkj]
        show (s.set j _).worker k = _
        rw [Crew.set_worker_ne _ hkj]
        exact hworkers k hk

/-- The workers find no number left, one after another. -/
theorem exists_finish (hs : (crew load jobs).Reachable s) (hcount : load.count ≤ s.counter)
    (hopen : ∀ j < jobs, (s.worker j).todo = [] ∧ (s.worker j).done = false) :
    ∀ k ≤ jobs, ∃ t, (crew load jobs).Reachable t ∧ load.count ≤ t.counter ∧
      (∀ j < k, t.worker j = { s.worker j with done := true }) ∧
      ∀ j < jobs, k ≤ j → t.worker j = s.worker j := by
  intro k
  induction k with
  | zero => exact fun _ => ⟨s, hs, hcount, nofun, fun _ _ _ => rfl⟩
  | succ k ih =>
      intro hk
      obtain ⟨t, ht, htcount, hbefore, hbehind⟩ := ih (by omega)
      have hworker := hbehind k hk (Nat.le_refl k)
      obtain ⟨htodo, hdone⟩ := hopen k hk
      have hdraw := ht.step (Crew.Step.draw hk (by rw [hworker, htodo]) (by rw [hworker, hdone]))
      have htake : (t.worker k).take load t.counter = { t.worker k with done := true } :=
        if_neg (by omega)
      rw [htake, hworker] at hdraw
      refine ⟨_, hdraw, Nat.le_succ_of_le htcount, fun j hj => ?_, fun j hj hkj => ?_⟩
      · show (t.set k _).worker j = _
        by_cases hjk : j = k
        · rw [hjk, Crew.set_worker]
        · rw [Crew.set_worker_ne _ hjk]
          exact hbefore j (by omega)
      · show (t.set k _).worker j = _
        rw [Crew.set_worker_ne _ (by omega)]
        exact hbehind j hj (by omega)

/-- **Every way to deal out the numbers comes about.** -/
theorem exists_dealt {claims : Nat → List Nat} (h : Dealt jobs load.count claims) :
    ∃ s, (crew load jobs).Reachable s ∧ s.Done jobs ∧
      ∀ j < jobs, (s.worker j).result = load.resultOf (claims j) := by
  obtain ⟨s, hs, hcounter, hworkers⟩ := exists_at h load.count (Nat.le_refl _)
  obtain ⟨t, ht, _, hdone, _⟩ := exists_finish hs hcounter.ge
    (fun j hj => by rw [hworkers j hj]; exact ⟨rfl, rfl⟩) jobs (Nat.le_refl _)
  refine ⟨t, ht, fun j hj => by rw [hdone j hj], fun j hj => ?_⟩
  have hall : (claims j).filter (· < load.count) = claims j := by
    rw [List.filter_eq_self]
    intro i hi
    have hmem : i ∈ (List.range jobs).flatMap claims :=
      List.mem_flatMap.mpr ⟨j, List.mem_range.mpr hj, hi⟩
    simpa using h.once.mem_iff.mp hmem
  rw [hdone j hj, hworkers j hj, hall]

end Phpatcher.Basis
