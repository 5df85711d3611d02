import Phpatcher.Core.Reader

/-!
# Guard tokens

The guards of a directive one by one, as they stand behind its `# `, and what
`parse_guard_tokens` makes of them: the reference it was given with one guard
after the other written into it, so that of several guards of a kind the last
is left (`parseGuardTokens_eq_some`).
-/

namespace Phpatcher.Core

open Phpatcher.Basis

/-- A guard: the byte length of a run (`s:`) or its hash (`h:`). -/
inductive Guard where
  | bytes (n : Nat)
  | hash (h : RefHash)
  deriving DecidableEq, Repr

/-- The guard a token stands for. -/
def Guard.ofToken (tok : Bytes) : Option Guard :=
  if tok.take 2 = ascii "s:" then (parseDecimalFull (tok.drop 2)).map .bytes
  else if tok.take 2 = ascii "h:" then (refHashParse (tok.drop 2)).map .hash
  else none

/-- The guards in a text of tokens between single spaces. -/
def Guard.ofText (text : Bytes) : Option (List Guard) :=
  ((text.splitOn space).filter (· ≠ [])).mapM Guard.ofToken

/-- The byte length a guard asks for. -/
def Guard.bytes? : Guard → Option Nat
  | .bytes n => some n
  | .hash _ => none

/-- The hash a guard asks for. -/
def Guard.hash? : Guard → Option RefHash
  | .bytes _ => none
  | .hash h => some h

/-- The run has the length, or the hash, the guard asks for. -/
def Guard.Holds (run : List Bytes) : Guard → Prop
  | .bytes n => (run.map fun l => l.length + 1).sum = n
  | .hash h => refHash (unlines run) = h

instance (run : List Bytes) : (g : Guard) → Decidable (Guard.Holds run g)
  | .bytes _ => inferInstanceAs (Decidable (_ = _))
  | .hash _ => inferInstanceAs (Decidable (_ = _))

/-- A reference with a guard written into it. -/
def EdRef.withGuard (ref : EdRef) : Guard → EdRef
  | .bytes n => { ref with bytes := some n }
  | .hash h => { ref with hash := some h }

theorem guardToken_eq (tok : Bytes) (ref : EdRef) (haveGuard : Bool) :
    guardToken tok ref haveGuard =
      if tok = [] then some (ref, haveGuard)
      else (Guard.ofToken tok).map fun g => (ref.withGuard g, true) := by
  unfold guardToken Guard.ofToken
  by_cases hnil : tok = []
  · subst hnil
    rfl
  rw [if_neg hnil]
  split
  · rw [Option.map_map]
    rfl
  split
  · rw [Option.map_map]
    rfl
  · rfl

/-- The token loop writes the guards into the reference, one after the
other. -/
theorem guardTokens_eq (toks : List Bytes) (ref : EdRef) (haveGuard : Bool) :
    guardTokens toks ref haveGuard =
      ((toks.filter (· ≠ [])).mapM Guard.ofToken).map fun gs =>
        (gs.foldl EdRef.withGuard ref, haveGuard || !gs.isEmpty) := by
  induction toks generalizing ref haveGuard with
  | nil => simp [guardTokens]
  | cons tok toks ih =>
      rw [guardTokens, guardToken_eq]
      by_cases hnil : tok = []
      · simp [hnil, ih]
      · rw [if_neg hnil, List.filter_cons_of_pos (by simpa using hnil), List.mapM_cons]
        cases Guard.ofToken tok with
        | none => rfl
        | some g =>
            simp only [Option.map_some, Option.bind_eq_bind, Option.bind_some, ih]
            cases (toks.filter (· ≠ [])).mapM Guard.ofToken <;> simp

/-- What `parse_guard_tokens` accepts: guards only, and at least one. -/
theorem parseGuardTokens_eq_some {text : Bytes} {ref ref' : EdRef} :
    parseGuardTokens text ref = some ref' ↔
      ∃ gs, Guard.ofText text = some gs ∧ gs ≠ [] ∧ ref' = gs.foldl EdRef.withGuard ref := by
  rw [parseGuardTokens, guardTokens_eq, ← Guard.ofText]
  cases Guard.ofText text with
  | none => simp
  | some gs =>
      cases gs with
      | nil => simp
      | cons g gs =>
          simp only [Option.map_some, Option.bind_eq_bind, Option.bind_some, Bool.false_or,
            List.isEmpty_cons, Bool.not_false, if_true, Option.some.injEq, exists_eq_left', ne_eq,
            reduceCtorEq, not_false_eq_true, true_and]
          exact eq_comm

/-! ## The guards left in the reference -/

/-- The last length of a list of guards. -/
def lastBytes (gs : List Guard) : Option Nat := (gs.filterMap Guard.bytes?).getLast?

/-- The last hash of a list of guards. -/
def lastHash (gs : List Guard) : Option RefHash := (gs.filterMap Guard.hash?).getLast?

theorem lastBytes_cons (g : Guard) (gs : List Guard) :
    lastBytes (g :: gs) = (lastBytes gs).or g.bytes? := by
  rw [lastBytes, lastBytes, List.filterMap_cons]
  cases g.bytes? with
  | none => simp
  | some n => rw [List.getLast?_cons, Option.or_some]

theorem lastHash_cons (g : Guard) (gs : List Guard) :
    lastHash (g :: gs) = (lastHash gs).or g.hash? := by
  rw [lastHash, lastHash, List.filterMap_cons]
  cases g.hash? with
  | none => simp
  | some h => rw [List.getLast?_cons, Option.or_some]

/-- Everything but the guards stays; of each kind the last guard is left. -/
theorem foldl_withGuard (gs : List Guard) (ref : EdRef) :
    gs.foldl EdRef.withGuard ref =
      { ref with bytes := (lastBytes gs).or ref.bytes, hash := (lastHash gs).or ref.hash } := by
  induction gs generalizing ref with
  | nil => rfl
  | cons g gs ih =>
      rw [List.foldl_cons, ih, lastBytes_cons, lastHash_cons, Option.or_assoc, Option.or_assoc]
      cases g <;> rfl

/-! ## Directives -/

/-- A directive up to its guards: the reference, and the text behind the
`# `. -/
def directiveParts (line : Bytes) : Option (EdRef × Bytes) := do
  if line.take 2 ≠ ascii "r " then none
  let (path, s) ← readPath (skipBlanks (line.drop 2))
  let (begin, s) ← readUint (skipBlanks s)
  let (end_, s) ← readUint (skipBlanks s)
  if begin < 1 ∨ end_ < begin then none
  let (ref, s) ← readPads (skipBlanks s) { path, begin, end_ }
  if s.take 2 ≠ ascii "# " then none
  return (ref, s.drop 2)

/-- The guard tokens of a directive, as they stand in the line. -/
def writtenGuards (line : Bytes) : Option (List Guard) :=
  (directiveParts line).bind fun (_, text) => Guard.ofText text

theorem parseRDirective_eq (line : Bytes) :
    parseRDirective line = (directiveParts line).bind fun (ref, text) =>
      parseGuardTokens text ref := by
  unfold parseRDirective directiveParts
  by_cases hletter : line.take 2 ≠ ascii "r "
  · rw [if_pos hletter, if_pos hletter]
    rfl
  rw [if_neg hletter, if_neg hletter]
  -- the two readers fail at the same places
  simp only [Option.bind_eq_bind]
  cases readPath (skipBlanks (line.drop 2)) with
  | none => rfl
  | some path =>
      simp only [Option.bind_some]
      cases readUint (skipBlanks path.2) with
      | none => rfl
      | some begin =>
          simp only [Option.bind_some]
          cases readUint (skipBlanks begin.2) with
          | none => rfl
          | some end_ =>
              simp only [Option.bind_some]
              split
              · rfl
              cases readPads (skipBlanks end_.2) _ with
              | none => rfl
              | some parts =>
                  simp only [Option.bind_some]
                  split
                  · rfl
                  · rfl

end Phpatcher.Core
