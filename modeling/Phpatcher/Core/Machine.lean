import Phpatcher.Basis.Checked
import Phpatcher.Core.Apply
import Phpatcher.Core.Reader

/-!
# The arithmetic of the core

The functions of `patch.cpp` that calculate with `std::int64_t` or edit the
line vector by position, once more and operation by operation: every signed
result is checked against its type, every position against the vector. Next to
each stands the bound under which nothing is undefined and it computes what
the function on natural numbers does.
-/

namespace Phpatcher.Core

open Phpatcher.Basis

variable {σ : Type}

/-! ## Readers -/

/-- The loop of `read_uint`. -/
def readUintLoop64 : Int → Bytes → Checked (Option (Int × Bytes))
  | value, [] => some (some (value, []))
  | value, c :: s =>
      if isDigit c then do
        let room ← sub64 int64Max 9
        if value > room.tdiv 10 then return none
        else do
          let shifted ← mul64 value 10
          let value ← add64 shifted (digitValue c)
          readUintLoop64 value s
      else some (some (value, c :: s))

/-- `read_uint`. -/
def readUint64 (s : Bytes) : Checked (Option (Int × Bytes)) :=
  match s with
  | [] => some none
  | c :: _ => if isDigit c then readUintLoop64 0 s else some none

/-- The loop of `parse_decimal_full`. -/
def parseDecimalLoop64 : Int → Bytes → Checked (Option Int)
  | v, [] => some (some v)
  | v, c :: rest =>
      if !isDigit c then some none
      else do
        let room ← sub64 int64Max (digitValue c)
        if v > room.tdiv 10 then return none
        else do
          let shifted ← mul64 v 10
          let v ← add64 shifted (digitValue c)
          parseDecimalLoop64 v rest

/-- `parse_decimal_full`. -/
def parseDecimalFull64 (s : Bytes) : Checked (Option Int) :=
  if s = [] then some none else parseDecimalLoop64 0 s

/-- A test against a quotient. -/
theorem gt_tdiv_natCast {v n : Nat} : ((v : Int) > (n : Int).tdiv 10) ↔ v > n / 10 := by
  rw [show ((10 : Int)) = ((10 : Nat) : Int) from rfl, ← Int.ofNat_tdiv]
  exact Int.ofNat_lt

/-- One more digit, while there is room for it. -/
theorem mul64_add64_natCast {α : Type} {v d : Nat} (h : v * 10 + d < 2 ^ 63)
    (f : Int → Checked α) :
    ((mul64 v 10).bind fun shifted => (add64 shifted d).bind f) = f ((v * 10 + d : Nat) : Int) := by
  have hmul : mul64 (v : Int) 10 = some ((v * 10 : Nat) : Int) :=
    @mul64_natCast v 10 (by omega)
  rw [hmul, Option.bind_some, add64_natCast h, Option.bind_some]

/-- The cut-off leaves room for one more digit. -/
theorem readUintLoop64_eq {value : Nat} (h : value ≤ readUintMax) (s : Bytes) :
    readUintLoop64 value s =
      some ((scanDigits ((int64Max - 9) / 10) value s).map (Prod.map Nat.cast id)) := by
  induction s generalizing value with
  | nil => rfl
  | cons c s ih =>
      rw [readUintLoop64, scanDigits]
      by_cases hc : isDigit c = true
      · have hdigit : digitValue c ≤ 9 := digitValue_le hc
        have hroom : sub64 int64Max 9 = some ((int64Max - 9 : Nat) : Int) :=
          @sub64_natCast int64Max 9 (by decide) (by decide)
        simp only [hc, if_true, hroom, Option.bind_eq_bind, Option.bind_some, gt_tdiv_natCast]
        by_cases hcut : value > (int64Max - 9) / 10
        · simp [hcut]
        · have hmax : readUintMax = (int64Max - 9) / 10 * 10 + 9 := rfl
          have hfits : readUintMax < 2 ^ 63 := by decide
          rw [if_neg hcut, if_neg hcut, mul64_add64_natCast (by omega)]
          exact ih (by omega)
      · simp [hc]

theorem readUint64_eq (s : Bytes) :
    readUint64 s = some ((readUint s).map (Prod.map Nat.cast id)) := by
  cases s with
  | nil => rfl
  | cons c s =>
      rw [readUint64, readUint]
      split
      · exact readUintLoop64_eq (Nat.zero_le _) _
      · rfl

/-- The cut-off depends on the digit, and the value stays below `INT64_MAX`. -/
theorem parseDecimalLoop64_eq {v : Nat} (h : v ≤ int64Max) (s : Bytes) :
    parseDecimalLoop64 v s = some ((parseDecimalLoop v s).map Nat.cast) := by
  induction s generalizing v with
  | nil => rfl
  | cons c s ih =>
      rw [parseDecimalLoop64, parseDecimalLoop]
      by_cases hc : isDigit c = true
      · have hdigit : digitValue c ≤ 9 := digitValue_le hc
        have hmax : int64Max = 9223372036854775807 := rfl
        have hroom : sub64 int64Max (digitValue c : Nat) =
            some ((int64Max - digitValue c : Nat) : Int) := sub64_natCast (by omega) (by omega)
        simp only [hc, Bool.not_true, Bool.false_eq_true, if_false, hroom, Option.bind_eq_bind,
          Option.bind_some, gt_tdiv_natCast]
        by_cases hcut : v > (int64Max - digitValue c) / 10
        · simp [hcut]
        · rw [if_neg hcut, if_neg hcut, mul64_add64_natCast (by omega)]
          exact ih (by omega)
      · simp [hc]

theorem parseDecimalFull64_eq (s : Bytes) :
    parseDecimalFull64 s = some ((parseDecimalFull s).map Nat.cast) := by
  rw [parseDecimalFull64, parseDecimalFull]
  split
  · rfl
  · exact parseDecimalLoop64_eq (Nat.zero_le _) s

/-! ## The validator -/

/-- `addressed_top` and `affected_low` of a command. -/
def EdCommand.span64 (c : EdCommand) : Checked (Int × Int) :=
  match c.kind with
  | .delete | .change => some (c.end_, c.start)
  | .append => do
      let low ← add64 c.start 1
      return (c.start, low)
  | .insert => some (c.start, c.start)

/-- The loop of `validate_command_order`. -/
def validateFrom64 : Int → List EdCommand → Checked (Except Bytes Unit)
  | _, [] => some (.ok ())
  | barrier, c :: rest => do
      let (addressedTop, affectedLow) ← c.span64
      if addressedTop ≥ barrier then
        return .error (ascii "ed commands must be in descending, non-overlapping line order")
      else validateFrom64 (if affectedLow < barrier then affectedLow else barrier) rest

/-- `validate_command_order`. -/
def validateCommandOrder64 (fp : FilePatch) : Checked (Except Bytes Unit) :=
  validateFrom64 int64Max fp.commands

/-- The numbers of a command as `parse` leaves them. -/
def EdCommand.Readable64 (c : EdCommand) : Prop := c.start ≤ readUintMax

theorem EdCommand.span64_eq {c : EdCommand} (h : c.Readable64) :
    c.span64 = some ((c.addressedTop : Int), (c.affectedLow : Int)) := by
  have hfits : readUintMax + 1 < 2 ^ 63 := by decide
  rcases c with ⟨kind, start, end_, input⟩
  cases kind with
  | append =>
      have hstart : start ≤ readUintMax := h
      have hadd : add64 start 1 = some ((start + 1 : Nat) : Int) :=
        @add64_natCast start 1 (by omega)
      simp only [span64, hadd, addressedTop, affectedLow]
      rfl
  | delete | change | insert => rfl

theorem validateFrom64_eq {cs : List EdCommand} (h : ∀ c ∈ cs, c.Readable64) (barrier : Nat) :
    validateFrom64 barrier cs = some (validateFrom barrier cs) := by
  induction cs generalizing barrier with
  | nil => rfl
  | cons c cs ih =>
      rw [List.forall_mem_cons] at h
      rw [validateFrom64, validateFrom, EdCommand.span64_eq h.1]
      simp only [Option.bind_eq_bind, Option.bind_some, ge_iff_le, Nat.cast_le, Nat.cast_lt]
      by_cases htop : barrier ≤ c.addressedTop
      · rw [if_pos htop, if_pos htop]
        rfl
      · rw [if_neg htop, if_neg htop]
        have hmin : (if c.affectedLow < barrier then (c.affectedLow : Int) else (barrier : Int)) =
            ((if c.affectedLow < barrier then c.affectedLow else barrier : Nat) : Int) := by
          split <;> rfl
        rw [hmin]
        exact ih h.2 _

/-- An address `read_uint` would not have read. -/
example : validateFrom64 int64Max [{ kind := .append, start := int64Max }] = none := by
  decide +kernel

/-! ## The command loop -/

/-- `lines.erase(lines.begin() + i, lines.begin() + j)` inside the vector. -/
def eraseRange64 (lines : List Bytes) (i j : Int) : Checked (List Bytes) :=
  if 0 ≤ i ∧ i ≤ j ∧ j ≤ lines.length then some (eraseRange lines i.toNat j.toNat) else none

/-- `lines.insert(lines.begin() + i, ins.begin(), ins.end())` inside the vector. -/
def insertAt64 (lines : List Bytes) (i : Int) (ins : List Bytes) : Checked (List Bytes) :=
  if 0 ≤ i ∧ i ≤ lines.length then some (insertAt lines i.toNat ins) else none

theorem eraseRange64_natCast {lines : List Bytes} {i j : Nat} (hij : i ≤ j)
    (hj : j ≤ lines.length) : eraseRange64 lines i j = some (eraseRange lines i j) := by
  rw [eraseRange64, if_pos (by omega)]
  rfl

theorem insertAt64_natCast {lines : List Bytes} {i : Nat} (hi : i ≤ lines.length)
    (ins : List Bytes) : insertAt64 lines i ins = some (insertAt lines i ins) := by
  rw [insertAt64, if_pos (by omega)]
  rfl

/-- A resolver that may run into undefined behaviour. -/
abbrev RefResolver64 (σ : Type) := EdRef → Fallible (Stop Bytes) σ (List Bytes)

/-- `build_input`. -/
def buildInput64 (resolve : Option (RefResolver64 σ)) :
    List EdPiece → Fallible (Stop Bytes) σ (List Bytes)
  | [] => pure []
  | .literal line :: rest => do
      let out ← buildInput64 resolve rest
      return line :: out
  | .ref ref :: rest =>
      match resolve with
      | none =>
          throw (.error (ascii "patch references corpus lines but no resolver is available"))
      | some f => do
          let resolved ← f ref
          let out ← buildInput64 resolve rest
          return resolved.map ref.expandLine ++ out

/-- One command of `apply_ed_script`. -/
def applyCommand64 (resolve : Option (RefResolver64 σ)) (c : EdCommand) (lines : List Bytes) :
    Fallible (Stop Bytes) σ (List Bytes) := do
  let size ← .ofChecked (signed64 lines.length)
  let start : Int := c.start
  let end_ : Int := c.end_
  match c.kind with
  | .delete =>
      if start < 1 ∨ end_ < start ∨ end_ > size then
        throw (.error (ascii "ed delete out of range"))
      else do
        let first ← .ofChecked (sub64 start 1)
        .ofChecked (eraseRange64 lines first end_)
  | .change =>
      if start < 1 ∨ end_ < start ∨ end_ > size then
        throw (.error (ascii "ed change out of range"))
      else do
        let ins ← buildInput64 resolve c.input
        let first ← .ofChecked (sub64 start 1)
        let erased ← .ofChecked (eraseRange64 lines first end_)
        .ofChecked (insertAt64 erased first ins)
  | .append =>
      if start < 0 ∨ start > size then throw (.error (ascii "ed append out of range"))
      else do
        let ins ← buildInput64 resolve c.input
        .ofChecked (insertAt64 lines start ins)
  | .insert =>
      if start < 1 then throw (.error (ascii "ed insert out of range"))
      else do
        let limit ← .ofChecked (add64 size 1)
        if start > limit then throw (.error (ascii "ed insert out of range"))
        else do
          let ins ← buildInput64 resolve c.input
          let first ← .ofChecked (sub64 start 1)
          .ofChecked (insertAt64 lines first ins)

/-- The command loop of `apply_ed_script`. -/
def applyCommands64 (resolve : Option (RefResolver64 σ)) :
    List EdCommand → List Bytes → Fallible (Stop Bytes) σ (List Bytes)
  | [], lines => pure lines
  | c :: rest, lines => do
      let lines ← applyCommand64 resolve c lines
      applyCommands64 resolve rest lines

/-- `apply_ed_script`. -/
def applyEdScript64 (fp : FilePatch) (original : Bytes) (resolve : Option (RefResolver64 σ)) :
    Fallible (Stop Bytes) σ Bytes := do
  let order ← .ofChecked (validateCommandOrder64 fp)
  match order with
  | .error e => throw (.error e)
  | .ok () => do
      let lines ← applyCommands64 resolve fp.commands (splitLines original)
      return joinLines lines (finalNewline original)

/-! ### How long the buffer gets -/

variable {I : σ → Prop} {resolve : Option (RefResolver σ)} {resolve64 : Option (RefResolver64 σ)}
  {size : EdRef → Nat}

/-- From a state of the invariant the resolver answers each of the references
with at most `size` lines. -/
def Sized (I : σ → Prop) (resolve : Option (RefResolver σ)) (refs : List EdRef)
    (size : EdRef → Nat) : Prop :=
  ∀ f, resolve = some f → ∀ ref ∈ refs, ∀ s lines s', I s → (f ref).Yields s lines s' →
    lines.length ≤ size ref

/-- The lines the references of a list may come to, and one for each literal
line. -/
def inputSize (size : EdRef → Nat) (input : List EdPiece) : Nat :=
  input.length + ((inputRefs input).map size).sum

def commandSize (size : EdRef → Nat) (c : EdCommand) : Nat :=
  c.input.length + ((commandRefs c).map size).sum

/-- Both resolvers are there or none, and answer the references alike. -/
def Answers (I : σ → Prop) (refs : List EdRef) (resolve64 : Option (RefResolver64 σ))
    (resolve : Option (RefResolver σ)) : Prop :=
  Option.Rel (fun f g => ∀ ref ∈ refs, (f ref).Safe I (g ref)) resolve64 resolve

theorem Answers.mono {refs refs' : List EdRef} (h : Answers I refs resolve64 resolve)
    (hsub : ∀ ref ∈ refs', ref ∈ refs) : Answers I refs' resolve64 resolve := by
  cases h with
  | some hrefs => exact .some fun ref href => hrefs ref (hsub ref href)
  | none => exact .none

theorem buildInput64_safe {input : List EdPiece}
    (h : Answers I (inputRefs input) resolve64 resolve) :
    (buildInput64 resolve64 input).Safe I (buildInput resolve input) := by
  induction input with
  | nil => exact Fallible.Safe.pure []
  | cons piece rest ih =>
      cases piece with
      | literal line =>
          exact (ih h).bind fun _ _ => Fallible.Safe.pure _
      | ref ref =>
          have hrest := ih (h.mono fun r hr => List.mem_cons_of_mem ref hr)
          cases h with
          | none => exact Fallible.Safe.throw _
          | some hrefs =>
              exact (hrefs ref List.mem_cons_self).bind fun _ _ =>
                hrest.bind fun _ _ => Fallible.Safe.pure _

/-- An expanded input is no longer than its size. -/
theorem length_of_buildInput {input : List EdPiece} {s s' : σ} {out : List Bytes}
    (hans : Answers I (inputRefs input) resolve64 resolve)
    (hsized : Sized I resolve (inputRefs input) size) (hs : I s)
    (h : (buildInput resolve input).Yields s out s') : out.length ≤ inputSize size input := by
  induction input generalizing s s' out with
  | nil =>
      obtain ⟨rfl, _⟩ := Fallible.yields_pure.mp h
      exact Nat.zero_le _
  | cons piece rest ih =>
      cases piece with
      | literal line =>
          obtain ⟨out, hout, rfl⟩ := Fallible.yields_bind_pure.mp h
          have hrest : out.length ≤ inputSize size rest := ih hans hsized hs hout
          have hrefs : inputRefs (.literal line :: rest) = inputRefs rest := rfl
          rw [inputSize, hrefs, List.length_cons, List.length_cons]
          rw [inputSize] at hrest
          omega
      | ref ref =>
          cases hans with
          | none => exact absurd h Fallible.not_yields_throw
          | @some f64 f hrefs =>
              simp only [buildInput, Fallible.yields_bind, Fallible.yields_pure] at h
              obtain ⟨lines, t, hlines, text, _, htext, rfl, rfl⟩ := h
              have ht : I t := by
                have hafter := (hrefs ref List.mem_cons_self s hs).2
                rwa [show (f ref).outcome s = _ from hlines] at hafter
              have hfirst := hsized f rfl ref List.mem_cons_self s lines t hs hlines
              have hrest : text.length ≤ inputSize size rest :=
                ih (.some fun r hr => hrefs r (List.mem_cons_of_mem ref hr))
                  (fun g hg r hr => hsized g hg r (List.mem_cons_of_mem ref hr)) ht htext
              have hsum : inputRefs (.ref ref :: rest) = ref :: inputRefs rest := rfl
              rw [inputSize, hsum, List.map_cons, List.sum_cons, List.length_append,
                List.length_map, List.length_cons]
              rw [inputSize] at hrest
              omega

/-- A command that can be read edits a vector short of the limit without
undefined behaviour. -/
theorem applyCommand64_safe {c : EdCommand} {lines : List Bytes} (hc : c.Readable64)
    (hlen : lines.length + 1 < 2 ^ 63) (h : Answers I (commandRefs c) resolve64 resolve) :
    (applyCommand64 resolve64 c lines).Safe I (applyCommand resolve c lines) := by
  have hfits : readUintMax < 2 ^ 63 := by decide
  have hsize : signed64 lines.length = some (lines.length : Int) := signed64_natCast (by omega)
  rcases c with ⟨kind, start, end_, input⟩
  have hstart : start ≤ readUintMax := hc
  -- `start - 1`, computed behind the test for `start ≥ 1`
  have hfirst : 1 ≤ start → sub64 start 1 = some ((start - 1 : Nat) : Int) := fun h =>
    @sub64_natCast start 1 h (by omega)
  -- the tests come out as they do on natural numbers
  have hspan : ((start : Int) < 1 ∨ (end_ : Int) < start ∨ (end_ : Int) > lines.length) ↔
      (start < 1 ∨ end_ < start ∨ end_ > lines.length) := by
    omega
  have hbehind : ((start : Int) < 0 ∨ (start : Int) > lines.length) ↔ start > lines.length := by
    omega
  have hone : (start : Int) < 1 ↔ start < 1 := by
    omega
  have hlast : (start : Int) > ((lines.length + 1 : Nat) : Int) ↔ start > lines.length + 1 := by
    omega
  refine Fallible.Safe.ofChecked hsize ?_
  cases kind with
  | delete =>
      refine Fallible.Safe.ite hspan (fun _ => Fallible.Safe.throw _) fun hrange => ?_
      simp only [not_or, not_lt] at hrange
      refine Fallible.Safe.ofChecked (hfirst hrange.1) ?_
      rw [eraseRange64_natCast (by omega) hrange.2.2]
      exact Fallible.Safe.pure _
  | change =>
      refine Fallible.Safe.ite hspan (fun _ => Fallible.Safe.throw _) fun hrange => ?_
      simp only [not_or, not_lt] at hrange
      refine (buildInput64_safe h).bind fun ins _ => ?_
      refine Fallible.Safe.ofChecked (hfirst hrange.1) ?_
      have hbefore : start - 1 ≤ end_ := by omega
      refine Fallible.Safe.ofChecked (eraseRange64_natCast hbefore hrange.2.2) ?_
      -- what is left in front of the erased range is long enough
      have hleft : start - 1 ≤ (eraseRange lines (start - 1) end_).length := by
        simp only [eraseRange, List.length_append, List.length_take, List.length_drop]
        omega
      rw [insertAt64_natCast hleft]
      exact Fallible.Safe.pure _
  | append =>
      refine Fallible.Safe.ite hbehind (fun _ => Fallible.Safe.throw _) fun hrange => ?_
      refine (buildInput64_safe h).bind fun ins _ => ?_
      rw [insertAt64_natCast (Nat.not_lt.mp hrange)]
      exact Fallible.Safe.pure _
  | insert =>
      refine Fallible.Safe.ite_or hone (fun _ => Fallible.Safe.throw _) fun hpositive => ?_
      have hlimit : add64 (lines.length : Int) 1 = some ((lines.length + 1 : Nat) : Int) :=
        @add64_natCast lines.length 1 hlen
      refine Fallible.Safe.ofChecked hlimit ?_
      refine Fallible.Safe.ite hlast (fun _ => Fallible.Safe.throw _) fun hrange => ?_
      refine (buildInput64_safe h).bind fun ins _ => ?_
      refine Fallible.Safe.ofChecked (hfirst (Nat.not_lt.mp hpositive)) ?_
      have hat : start - 1 ≤ lines.length := by
        have hbound : start ≤ lines.length + 1 := Nat.not_lt.mp hrange
        omega
      rw [insertAt64_natCast hat]
      exact Fallible.Safe.pure _

/-- A command adds no more lines than its size. -/
theorem length_of_applyCommand {c : EdCommand} {lines out : List Bytes} {s s' : σ}
    (hans : Answers I (commandRefs c) resolve64 resolve)
    (hsized : Sized I resolve (commandRefs c) size) (hs : I s)
    (h : (applyCommand resolve c lines).Yields s out s') :
    out.length ≤ lines.length + commandSize size c := by
  obtain ⟨hrange, text, htext, rfl⟩ := applyCommand_yields.mp h
  have hlen : text.length ≤ commandSize size c := by
    rcases c with ⟨kind, start, end_, input⟩
    cases kind with
    | delete =>
        obtain ⟨rfl, _⟩ := Fallible.yields_pure.mp htext
        exact Nat.zero_le _
    | change | append | insert => exact length_of_buildInput hans hsized hs htext
  have hfit := hrange.fits text
  have htext' : (c.edit text).text.length ≤ text.length := by
    rcases c with ⟨kind, start, end_, input⟩
    cases kind <;> simp [EdCommand.edit]
  simp only [Edit.Fits] at hfit
  simp only [Edit.splice, List.length_append, List.length_take, List.length_drop]
  omega

/-- The command loop, as long as all inputs fit into the vector with the lines
it starts from. -/
theorem applyCommands64_safe {cs : List EdCommand} {lines : List Bytes}
    (hread : ∀ c ∈ cs, c.Readable64)
    (hlen : lines.length + (cs.map (commandSize size)).sum + 1 < 2 ^ 63)
    (hans : Answers I (cs.flatMap commandRefs) resolve64 resolve)
    (hsized : Sized I resolve (cs.flatMap commandRefs) size) :
    (applyCommands64 resolve64 cs lines).Safe I (applyCommands resolve cs lines) := by
  induction cs generalizing lines with
  | nil => exact Fallible.Safe.pure lines
  | cons c cs ih =>
      rw [List.forall_mem_cons] at hread
      rw [List.map_cons, List.sum_cons] at hlen
      have hfirst : ∀ ref ∈ commandRefs c, ref ∈ (c :: cs).flatMap commandRefs := fun ref href =>
        List.mem_flatMap.mpr ⟨c, List.mem_cons_self, href⟩
      have hrest : ∀ ref ∈ cs.flatMap commandRefs, ref ∈ (c :: cs).flatMap commandRefs := by
        intro ref href
        rw [List.flatMap_cons]
        exact List.mem_append_right _ href
      refine (applyCommand64_safe hread.1 (by omega) (hans.mono hfirst)).bind ?_
      intro out hout
      obtain ⟨s, s', hs, hyields⟩ := hout
      have hgrown := length_of_applyCommand (hans.mono hfirst)
        (fun f hf ref href => hsized f hf ref (hfirst ref href)) hs hyields
      exact ih hread.2 (by omega) (hans.mono hrest)
        fun f hf ref href => hsized f hf ref (hrest ref href)

/-- `apply_ed_script`. -/
theorem applyEdScript64_safe {fp : FilePatch} {original : Bytes}
    (hread : ∀ c ∈ fp.commands, c.Readable64)
    (hlen : (splitLines original).length + (fp.commands.map (commandSize size)).sum + 1 < 2 ^ 63)
    (hans : Answers I fp.refs resolve64 resolve) (hsized : Sized I resolve fp.refs size) :
    (applyEdScript64 fp original resolve64).Safe I (applyEdScript fp original resolve) := by
  have horder : validateCommandOrder64 fp = some (validateCommandOrder fp) :=
    validateFrom64_eq hread int64Max
  refine Fallible.Safe.ofChecked horder ?_
  rw [applyEdScript]
  cases validateCommandOrder fp with
  | error e => exact Fallible.Safe.throw e
  | ok u =>
      exact (applyCommands64_safe hread hlen hans hsized).bind fun lines _ =>
        Fallible.Safe.pure _

end Phpatcher.Core
