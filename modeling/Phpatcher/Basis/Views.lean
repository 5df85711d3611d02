import Mathlib.Tactic

/-!
# Strings in memory and views of them

A string object keeps a short content inside itself and a longer one in a buffer of its
own. So a move takes the characters of a short string to another place, and leaves those
of a long one where they are. A view is a place in memory, and reads what is there when
it is read.

Places are not used twice, and a view of a place that is given up reads nothing: what is
found there later is nobody's promise.
-/

namespace Phpatcher.Basis

variable {α : Type}

/-- What is stored where; from `next` on nothing has been stored yet. -/
structure Memory (α : Type) where
  cells : Nat → Option (List α)
  next : Nat
  fresh : ∀ a, next ≤ a → cells a = none

namespace Memory

def empty : Memory α := ⟨fun _ => none, 0, fun _ _ => rfl⟩

/-- Characters are stored at a new place. -/
def put (m : Memory α) (chars : List α) : Memory α where
  cells := Function.update m.cells m.next (some chars)
  next := m.next + 1
  fresh a h := by
    rw [Function.update_of_ne (by omega)]
    exact m.fresh a (by omega)

/-- A place is given up. -/
def drop (m : Memory α) (addr : Nat) : Memory α where
  cells := Function.update m.cells addr none
  next := m.next
  fresh a h := by
    by_cases ha : a = addr
    · rw [ha, Function.update_self]
    · rw [Function.update_of_ne ha]
      exact m.fresh a h

@[simp] theorem put_next (m : Memory α) (chars : List α) : (m.put chars).next = m.next + 1 := rfl

@[simp] theorem drop_next (m : Memory α) (addr : Nat) : (m.drop addr).next = m.next := rfl

theorem put_cells_next (m : Memory α) (chars : List α) :
    (m.put chars).cells m.next = some chars := Function.update_self ..

theorem put_cells_of_lt (m : Memory α) (chars : List α) {a : Nat} (h : a < m.next) :
    (m.put chars).cells a = m.cells a := Function.update_of_ne (Nat.ne_of_lt h) ..

theorem drop_cells_self (m : Memory α) (addr : Nat) : (m.drop addr).cells addr = none :=
  Function.update_self ..

theorem drop_cells_of_ne (m : Memory α) {addr a : Nat} (h : a ≠ addr) :
    (m.drop addr).cells a = m.cells a := Function.update_of_ne h ..

theorem lt_next {m : Memory α} {addr : Nat} {chars : List α} (h : m.cells addr = some chars) :
    addr < m.next := by
  by_contra hle
  rw [m.fresh addr (by omega)] at h
  cases h

/-! ## What is left as it was -/

/-- Outside of some places, what was stored is still stored. -/
structure Leaves (m m' : Memory α) (places : Set Nat) : Prop where
  grows : m.next ≤ m'.next
  cells : ∀ a, a < m.next → a ∉ places → m'.cells a = m.cells a

variable {m m₁ m₂ : Memory α} {places more : Set Nat}

theorem Leaves.refl (m : Memory α) (places : Set Nat) : m.Leaves m places :=
  ⟨Nat.le_refl _, fun _ _ _ => rfl⟩

theorem Leaves.mono (h : m.Leaves m₁ places) (hsub : places ⊆ more) : m.Leaves m₁ more :=
  ⟨h.grows, fun a ha hnot => h.cells a ha fun hmem => hnot (hsub hmem)⟩

/-- One after the other; places that are new in between do not count. -/
theorem Leaves.trans (h₁ : m.Leaves m₁ places) (h₂ : m₁.Leaves m₂ more)
    (hmore : ∀ a ∈ more, a ∈ places ∨ m.next ≤ a) : m.Leaves m₂ places where
  grows := Nat.le_trans h₁.grows h₂.grows
  cells a ha hnot := by
    have hnew : a ∉ more := fun hmem => by
      rcases hmore a hmem with hin | hle
      · exact hnot hin
      · omega
    rw [h₂.cells a (Nat.lt_of_lt_of_le ha h₁.grows) hnew, h₁.cells a ha hnot]

theorem leaves_put (m : Memory α) (chars : List α) : m.Leaves (m.put chars) ∅ :=
  ⟨Nat.le_succ _, fun _ ha _ => m.put_cells_of_lt chars ha⟩

theorem leaves_drop (m : Memory α) (addr : Nat) : m.Leaves (m.drop addr) {addr} :=
  ⟨Nat.le_refl _, fun _ _ hnot => m.drop_cells_of_ne hnot⟩

end Memory

/-! ## Views -/

/-- A place, a position in it, and a length. -/
structure View where
  addr : Nat
  start : Nat
  len : Nat
  deriving DecidableEq, Repr

/-- What is there; an empty view does not look. -/
def View.read (m : Memory α) (v : View) : Option (List α) :=
  if v.len = 0 then some []
  else
    (m.cells v.addr).bind fun chars =>
      if v.start + v.len ≤ chars.length then some ((chars.drop v.start).take v.len) else none

/-- Whether these are the characters there. Where the lengths differ, it does not look. -/
def View.sameAs [BEq α] (m : Memory α) (v : View) (chars : List α) : Option Bool :=
  if v.len ≠ chars.length then some false else (v.read m).map (· == chars)

theorem View.read_congr {m m' : Memory α} {v : View} (h : m'.cells v.addr = m.cells v.addr) :
    v.read m' = v.read m := by
  rw [View.read, View.read, h]

theorem View.read_of_leaves {m m' : Memory α} {places : Set Nat} (h : m.Leaves m' places)
    {v : View} (hlt : v.addr < m.next) (hnot : v.addr ∉ places) : v.read m' = v.read m :=
  View.read_congr (h.cells v.addr hlt hnot)

theorem View.length_of_read {m : Memory α} {v : View} {chars : List α}
    (h : v.read m = some chars) : chars.length = v.len := by
  unfold View.read at h
  split at h
  next hlen => rw [← Option.some.inj h, hlen, List.length_nil]
  next =>
    obtain ⟨stored, _, hin⟩ := Option.bind_eq_some_iff.mp h
    split at hin
    next hle =>
      rw [← Option.some.inj hin, List.length_take, List.length_drop]
      omega
    next => simp at hin

/-! ## Parts between separators -/

section

variable [DecidableEq α] (sep : α) (cut : Nat → Nat → Nat) (chars : List α)

/-- Where the parts between separators begin and end, found at index `i` with `left`
characters left, in a part that begins at `start`. In front of a separator at `i` it
ends at `cut start i`. -/
def cutSpans : Nat → Nat → Nat → List (Nat × Nat)
  | 0, _, start => if start < chars.length then [(start, chars.length)] else []
  | left + 1, i, start =>
      if chars[i]? = some sep then (start, cut start i) :: cutSpans left (i + 1) (i + 1)
      else cutSpans left (i + 1) start

variable {sep cut chars}

theorem mem_cutSpans (hcut : ∀ start i, start ≤ i → start ≤ cut start i ∧ cut start i ≤ i)
    {left i start : Nat} (hleft : i + left = chars.length) (hstart : start ≤ i) :
    ∀ span ∈ cutSpans sep cut chars left i start, span.1 ≤ span.2 ∧ span.2 ≤ chars.length := by
  induction left generalizing i start with
  | zero =>
      intro span hspan
      rw [cutSpans] at hspan
      split at hspan
      next hlt =>
        rw [List.mem_singleton.mp hspan]
        exact ⟨hlt.le, Nat.le_refl _⟩
      next => simp at hspan
  | succ left ih =>
      intro span hspan
      rw [cutSpans] at hspan
      split at hspan
      next =>
        rcases List.mem_cons.mp hspan with rfl | hspan
        · obtain ⟨hle, hend⟩ := hcut start i hstart
          exact ⟨hle, by simp only; omega⟩
        · exact ih (by omega) (Nat.le_refl _) span hspan
      next => exact ih (by omega) (by omega) span hspan

end

/-- The view of a part. -/
def View.ofSpan (addr : Nat) (span : Nat × Nat) : View := ⟨addr, span.1, span.2 - span.1⟩

theorem View.read_ofSpan {m : Memory α} {addr : Nat} {chars : List α}
    (hcells : m.cells addr = some chars) {span : Nat × Nat}
    (h : span.1 ≤ span.2 ∧ span.2 ≤ chars.length) :
    (View.ofSpan addr span).read m = some ((chars.drop span.1).take (span.2 - span.1)) := by
  rw [View.read, View.ofSpan, hcells]
  by_cases hlen : span.2 - span.1 = 0
  · rw [if_pos hlen, hlen, List.take_zero]
  · have hin : span.1 + (span.2 - span.1) ≤ chars.length := by omega
    rw [if_neg hlen, Option.bind_some, if_pos hin]

/-! ## Strings -/

/-- A string object: where its characters are, and how many. -/
structure Str where
  addr : Nat
  size : Nat

namespace Str

/-- The characters of the string. -/
structure Holds (m : Memory α) (s : Str) (chars : List α) : Prop where
  cells : m.cells s.addr = some chars
  size : s.size = chars.length

/-- The characters of a string that is there. -/
def text (m : Memory α) (s : Str) : List α := (m.cells s.addr).getD []

/-- The whole string. -/
def view (s : Str) : View := ⟨s.addr, 0, s.size⟩

/-- A new string. -/
def store (m : Memory α) (chars : List α) : Str × Memory α := (⟨m.next, chars.length⟩, m.put chars)

/-- A string is moved to another object, and the object it was in goes away. Up to
`room` characters are kept in the object. -/
def move (room : Nat) (m : Memory α) (s : Str) : Str × Memory α :=
  if s.size ≤ room then
    (⟨m.next, s.size⟩, (m.put (s.text m)).drop s.addr)
  else (s, m)

variable {m m' : Memory α} {s : Str} {chars : List α} {room : Nat}

theorem Holds.text_eq (h : Holds m s chars) : s.text m = chars := by
  rw [Str.text, h.cells, Option.getD_some]

theorem Holds.lt_next (h : Holds m s chars) : s.addr < m.next := Memory.lt_next h.cells

theorem Holds.of_leaves {places : Set Nat} (h : Holds m s chars) (hleaves : m.Leaves m' places)
    (hnot : s.addr ∉ places) : Holds m' s chars :=
  ⟨by rw [hleaves.cells _ h.lt_next hnot]; exact h.cells, h.size⟩

theorem Holds.read_view (h : Holds m s chars) : s.view.read m = some chars := by
  rw [view, View.read, h.cells, h.size]
  by_cases hnil : chars.length = 0
  · rw [if_pos hnil, List.length_eq_zero_iff.mp hnil]
  · have hin : 0 + chars.length ≤ chars.length := by omega
    rw [if_neg hnil, Option.bind_some, if_pos hin, List.drop_zero, List.take_length]

theorem holds_store (m : Memory α) (chars : List α) :
    Holds (store m chars).2 (store m chars).1 chars :=
  ⟨m.put_cells_next chars, rfl⟩

theorem leaves_move (room : Nat) (m : Memory α) (s : Str) :
    m.Leaves (s.move room m).2 {s.addr} := by
  unfold move
  split
  · refine Memory.Leaves.trans ⟨Nat.le_succ _, fun a ha _ => m.put_cells_of_lt _ ha⟩
      (Memory.leaves_drop _ _) fun a ha => .inl ha
  · exact Memory.Leaves.refl _ _

/-- The moved string has the characters. -/
theorem Holds.move (h : Holds m s chars) (room : Nat) :
    Holds (s.move room m).2 (s.move room m).1 chars := by
  unfold Str.move
  split
  · refine ⟨?_, h.size⟩
    have hne : m.next ≠ s.addr := Nat.ne_of_gt h.lt_next
    rw [Memory.drop_cells_of_ne _ hne, Memory.put_cells_next, h.text_eq]
  · exact h

/-- A view of a string that is moved goes on reading the string if it is a long one. -/
theorem Holds.read_move (h : Holds m s chars) {v : View} (hv : v.addr = s.addr) :
    v.read (s.move room m).2 = if v.len = 0 ∨ room < chars.length then v.read m else none := by
  by_cases hlen : v.len = 0
  · rw [if_pos (.inl hlen), View.read, View.read, if_pos hlen, if_pos hlen]
  · unfold Str.move
    by_cases hroom : s.size ≤ room
    · have hshort : ¬ (v.len = 0 ∨ room < chars.length) := by
        rw [← h.size]
        omega
      rw [if_pos hroom, if_neg hshort, View.read, if_neg hlen, hv, Memory.drop_cells_self]
      rfl
    · rw [if_neg hroom, if_pos (.inr (by rw [← h.size]; omega))]

/-! ## Several strings -/

/-- New strings, one after the other. -/
def storeAll (m : Memory α) : List (List α) → List Str × Memory α
  | [] => ([], m)
  | chars :: rest =>
      let (s, m) := store m chars
      let (ss, m) := storeAll m rest
      (s :: ss, m)

/-- Strings are passed on, one after the other. -/
def passAll (pass : Memory α → Str → Str × Memory α) (m : Memory α) :
    List Str → List Str × Memory α
  | [] => ([], m)
  | s :: rest =>
      let (s, m) := pass m s
      let (ss, m) := passAll pass m rest
      (s :: ss, m)

/-- Passing a string on makes `g chars` of its characters, touches its own place only,
and puts the outcome there or at a new one. -/
structure Passes (pass : Memory α → Str → Str × Memory α) (g : List α → List α) : Prop where
  holds : ∀ {m : Memory α} {s : Str} {chars : List α}, Holds m s chars →
    Holds (pass m s).2 (pass m s).1 (g chars)
  leaves : ∀ (m : Memory α) (s : Str), m.Leaves (pass m s).2 {s.addr}
  addr : ∀ (m : Memory α) (s : Str), (pass m s).1.addr = s.addr ∨ m.next ≤ (pass m s).1.addr

theorem move_passes (room : Nat) : Passes (fun (m : Memory α) s => s.move room m) id where
  holds h := h.move room
  leaves := leaves_move room
  addr m s := by
    unfold move
    split
    · exact .inr (Nat.le_refl _)
    · exact .inl rfl

/-- The strings hold these contents, each at a place of its own from `n` on. -/
structure HoldAll (m : Memory α) (n : Nat) (ss : List Str) (contents : List (List α)) : Prop where
  holds : List.Forall₂ (Holds m) ss contents
  apart : (ss.map Str.addr).Nodup
  above : ∀ s ∈ ss, n ≤ s.addr

theorem lt_next_of_holds {ss : List Str} {contents : List (List α)}
    (h : List.Forall₂ (Holds m) ss contents) : ∀ s ∈ ss, s.addr < m.next := by
  induction h with
  | nil => simp
  | cons hs _ ih => exact List.forall_mem_cons.mpr ⟨hs.lt_next, ih⟩

theorem HoldAll.of_leaves {n : Nat} {ss : List Str} {contents : List (List α)} {places : Set Nat}
    (h : HoldAll m n ss contents) (hleaves : m.Leaves m' places)
    (hnot : ∀ s ∈ ss, s.addr ∉ places) : HoldAll m' n ss contents where
  holds := by
    have holds := h.holds
    clear h
    induction holds with
    | nil => exact .nil
    | cons hs _ ih =>
        rw [List.forall_mem_cons] at hnot
        exact .cons (hs.of_leaves hleaves hnot.1) (ih hnot.2)
  apart := h.apart
  above := h.above

theorem leaves_storeAll (m : Memory α) (contents : List (List α)) :
    m.Leaves (storeAll m contents).2 ∅ := by
  induction contents generalizing m with
  | nil => exact Memory.Leaves.refl _ _
  | cons chars rest ih => exact (m.leaves_put chars).trans (ih _) (by simp)

theorem holdAll_storeAll (m : Memory α) (contents : List (List α)) :
    HoldAll (storeAll m contents).2 m.next (storeAll m contents).1 contents := by
  induction contents generalizing m with
  | nil => exact ⟨.nil, List.nodup_nil, by simp [storeAll]⟩
  | cons chars rest ih =>
      obtain ⟨holds, apart, above⟩ := ih (m.put chars)
      have hfirst := (holds_store m chars).of_leaves (leaves_storeAll (m.put chars) rest)
        (Set.notMem_empty _)
      refine ⟨.cons hfirst holds, ?_, ?_⟩
      · refine List.nodup_cons.mpr ⟨fun hmem => ?_, apart⟩
        obtain ⟨s, hs, haddr⟩ := List.mem_map.mp hmem
        have hle := above s hs
        simp only [Memory.put_next] at haddr hle
        omega
      · refine List.forall_mem_cons.mpr ⟨Nat.le_refl _, fun s hs => ?_⟩
        exact Nat.le_trans (Nat.le_succ _) (above s hs)

section

variable {pass : Memory α → Str → Str × Memory α} {g : List α → List α}

/-- A new string that is passed on is new, and nothing that was there is touched. -/
theorem store_pass (hpass : Passes pass g) (m : Memory α) (chars : List α) :
    m.Leaves (pass (store m chars).2 (store m chars).1).2 ∅ ∧
      Holds (pass (store m chars).2 (store m chars).1).2
        (pass (store m chars).2 (store m chars).1).1 (g chars) ∧
      m.next ≤ (pass (store m chars).2 (store m chars).1).1.addr := by
  refine ⟨(m.leaves_put chars).trans (hpass.leaves _ _) ?_, hpass.holds (holds_store m chars), ?_⟩
  · rintro a rfl
    exact .inr (Nat.le_refl _)
  · rcases hpass.addr (store m chars).2 (store m chars).1 with hsame | hnew
    · exact Nat.le_of_eq hsame.symm
    · exact Nat.le_trans (Nat.le_succ _) hnew

/-- Passing several strings on touches the places they were at. -/
theorem Passes.leaves_all (h : Passes pass g) (m : Memory α) (ss : List Str) :
    m.Leaves (passAll pass m ss).2 { a | ∃ s ∈ ss, s.addr = a } := by
  induction ss generalizing m with
  | nil => exact Memory.Leaves.refl _ _
  | cons s rest ih =>
      have hfirst := h.leaves m s
      refine Memory.Leaves.trans ⟨hfirst.grows, fun a ha hnot => hfirst.cells a ha ?_⟩
        (ih (pass m s).2) ?_
      · rintro rfl
        exact hnot ⟨s, List.mem_cons_self, rfl⟩
      · rintro a ⟨t, ht, rfl⟩
        exact .inl ⟨t, List.mem_cons_of_mem _ ht, rfl⟩

theorem HoldAll.passed {n : Nat} {ss : List Str} {contents : List (List α)}
    (h : HoldAll m n ss contents) (hpass : Passes pass g) (hn : n ≤ m.next) :
    List.Forall₂ (Holds (passAll pass m ss).2) (passAll pass m ss).1 (contents.map g) ∧
      ∀ s ∈ (passAll pass m ss).1, n ≤ s.addr := by
  induction ss generalizing m contents with
  | nil =>
      cases h.holds
      exact ⟨.nil, by simp [passAll]⟩
  | cons s rest ih =>
      have hlt := lt_next_of_holds h.holds
      obtain ⟨holds, apart, above⟩ := h
      cases holds with
      | cons hs hrest =>
          rw [List.map_cons, List.nodup_cons] at apart
          rw [List.forall_mem_cons] at above hlt
          have hnot : ∀ t ∈ rest, t.addr ≠ s.addr := fun t ht haddr =>
            apart.1 (haddr ▸ List.mem_map_of_mem ht)
          have hothers : HoldAll (pass m s).2 n rest _ :=
            HoldAll.of_leaves ⟨hrest, apart.2, above.2⟩ (hpass.leaves m s) hnot
          obtain ⟨hall, habove⟩ := ih hothers (Nat.le_trans hn (hpass.leaves m s).grows)
          -- none of the others was where the first one is now
          have hkept : (pass m s).1.addr ∉ { a | ∃ t ∈ rest, t.addr = a } := by
            rintro ⟨t, ht, haddr⟩
            rcases hpass.addr m s with hsame | hnew
            · exact hnot t ht (haddr.trans hsame)
            · have hold := hlt.2 t ht
              omega
          have hfirst := (hpass.holds hs).of_leaves (hpass.leaves_all _ rest) hkept
          refine ⟨.cons hfirst hall, List.forall_mem_cons.mpr ⟨?_, habove⟩⟩
          show n ≤ (pass m s).1.addr
          rcases hpass.addr m s with hsame | hnew
          · rw [hsame]
            exact above.1
          · exact Nat.le_trans hn hnew

/-- New strings that are passed on are new, and nothing that was there is touched. -/
theorem storeAll_pass (hpass : Passes pass g) (m : Memory α) (contents : List (List α)) :
    m.Leaves (passAll pass (storeAll m contents).2 (storeAll m contents).1).2 ∅ ∧
      List.Forall₂ (Holds (passAll pass (storeAll m contents).2 (storeAll m contents).1).2)
        (passAll pass (storeAll m contents).2 (storeAll m contents).1).1 (contents.map g) ∧
      ∀ s ∈ (passAll pass (storeAll m contents).2 (storeAll m contents).1).1, m.next ≤ s.addr := by
  have hstored := holdAll_storeAll m contents
  have hleaves := leaves_storeAll m contents
  obtain ⟨hpassed, habove⟩ := hstored.passed hpass hleaves.grows
  refine ⟨hleaves.trans (hpass.leaves_all _ _) ?_, hpassed, habove⟩
  rintro a ⟨s, hs, rfl⟩
  exact .inr (hstored.above s hs)

end

end Str

/-! ## Views that read -/

/-- The views read these contents. -/
def ReadAll (m : Memory α) : List View → List (List α) → Prop :=
  List.Forall₂ fun v chars => v.addr < m.next ∧ v.read m = some chars

theorem ReadAll.of_leaves {m m' : Memory α} {views : List View} {contents : List (List α)}
    (h : ReadAll m views contents) (hleaves : m.Leaves m' ∅) : ReadAll m' views contents :=
  List.Forall₂.imp (fun _ _ hread => ⟨Nat.lt_of_lt_of_le hread.1 hleaves.grows,
    (View.read_of_leaves hleaves hread.1 (Set.notMem_empty _)).trans hread.2⟩) h

/-- Strings that hold contents are viewed as these. -/
theorem readAll_views {m : Memory α} {ss : List Str} {contents : List (List α)}
    (h : List.Forall₂ (Str.Holds m) ss contents) : ReadAll m (ss.map Str.view) contents := by
  induction h with
  | nil => exact .nil
  | cons hs _ ih => exact .cons ⟨hs.lt_next, hs.read_view⟩ ih

theorem readAll_of_map {m : Memory α} {views : List View} {contents : List (List α)}
    (h : views.map (View.read m) = contents.map some) (hlt : ∀ v ∈ views, v.addr < m.next) :
    ReadAll m views contents := by
  induction views generalizing contents with
  | nil =>
      cases contents with
      | nil => exact .nil
      | cons chars contents => simp at h
  | cons v views ih =>
      cases contents with
      | nil => simp at h
      | cons chars contents =>
          rw [List.map_cons, List.map_cons, List.cons.injEq] at h
          rw [List.forall_mem_cons] at hlt
          exact .cons ⟨hlt.1, h.1⟩ (ih h.2 hlt.2)

theorem ReadAll.map_read {m : Memory α} {views : List View} {contents : List (List α)}
    (h : ReadAll m views contents) : views.map (View.read m) = contents.map some := by
  induction h with
  | nil => rfl
  | cons hread _ ih => rw [List.map_cons, List.map_cons, hread.2, ih]

/-- They are as long as these. -/
theorem ReadAll.map_len {m : Memory α} {views : List View} {contents : List (List α)}
    (h : ReadAll m views contents) : views.map View.len = contents.map List.length := by
  induction h with
  | nil => rfl
  | cons hread _ ih => rw [List.map_cons, List.map_cons, View.length_of_read hread.2, ih]

theorem ReadAll.mapM_read {m : Memory α} {views : List View} {contents : List (List α)}
    (h : ReadAll m views contents) : views.mapM (View.read m) = some contents := by
  induction h with
  | nil => rfl
  | cons hread _ ih => rw [List.mapM_cons, hread.2, ih]; rfl

end Phpatcher.Basis
