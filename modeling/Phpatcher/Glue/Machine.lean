import Phpatcher.Core.Machine
import Phpatcher.Glue.Resolver

/-!
# The arithmetic of the corpus resolver

The range and length arithmetic of `phpatcher_make_resolver`, operation by
operation. The text of the file bounds all of it: a range that passed the
check lies inside its lines, and their lengths add up to no more than its own.
-/

namespace Phpatcher.Glue

open Phpatcher.Basis Phpatcher.Core

/-- `lines[i]` inside the vector. -/
def lineAt64 (lines : List Bytes) (i : Int) : Checked Bytes :=
  if 0 ≤ i then lines[i.toNat]? else none

/-- The loop over the lines of a reference, with the text for the hash check,
the length and the lines so far. It gives up, as undefined, when the `fuel` is
spent before the loop is over. -/
def refLoop64 (ref : EdRef) (lines : List Bytes) :
    Nat → Int → Bytes → Int → List Bytes → Checked (Bytes × Int × List Bytes)
  | fuel, ln, bytes, total, out =>
      if ln ≤ ref.end_ then
        match fuel with
        | 0 => none
        | fuel + 1 => do
            let i ← sub64 ln 1
            let l ← lineAt64 lines i
            let length ← signed64 l.length
            let added ← add64 length 1
            let total ← add64 total added
            let bytes := if ref.hash.isSome then bytes ++ l ++ [newline] else bytes
            let ln ← add64 ln 1
            refLoop64 ref lines fuel ln bytes total (out ++ [l])
      else some (bytes, total, out)

/-- The range check and the guards. -/
def checkRef64 (ref : EdRef) (lines : List Bytes) : Checked (Except Bytes (List Bytes)) := do
  let count ← signed64 lines.length
  let begin : Int := ref.begin
  let end_ : Int := ref.end_
  if begin < 1 ∨ end_ < begin ∨ end_ > count then
    return .error (ascii "referenced range " ++ decimal ref.begin ++ ascii "," ++
      decimal ref.end_ ++ ascii " out of range in '" ++ ref.path ++ ascii "'")
  else do
    let span ← sub64 end_ begin
    let reserved ← add64 span 1
    let (bytes, total, out) ← refLoop64 ref lines reserved.toNat begin [] 0 []
    if ref.bytes.any fun n : Nat => total != (n : Int) then
      return .error (ascii "referenced content in '" ++ ref.path ++
        ascii "' has changed (length mismatch)")
    else if ref.hash.any (refHash bytes != ·) then
      return .error (ascii "referenced content in '" ++ ref.path ++
        ascii "' has changed (hash mismatch)")
    else return .ok out

/-- `phpatcher_make_resolver`. -/
def phpatcherMakeResolver64 (baseDir : Bytes) (disk : Disk) : RefResolver64 RefCache := fun ref =>
  Fallible.mk fun cache =>
    let full := refFile baseDir ref
    match cache.load disk full with
    | (none, cache) => (.error (.error (unreadableRef full)), cache)
    | (some lines, cache) => (checkedOutcome (checkRef64 ref lines), cache)

/-- The loop goes over the lines of the reference and adds up their lengths. -/
theorem refLoop64_eq {ref : EdRef} {lines : List Bytes} {i n total : Nat}
    (hend : ref.end_ = i + n) (hlines : i + n ≤ lines.length) (hcount : lines.length + 1 < 2 ^ 63)
    (htotal : total + (unlines ((lines.drop i).take n)).length < 2 ^ 63) (bytes : Bytes)
    (out : List Bytes) :
    refLoop64 ref lines n ((i + 1 : Nat) : Int) bytes total out =
      some (if ref.hash.isSome then bytes ++ unlines ((lines.drop i).take n) else bytes,
        ((total + (unlines ((lines.drop i).take n)).length : Nat) : Int),
        out ++ (lines.drop i).take n) := by
  induction n generalizing i total bytes out with
  | zero =>
      have hover : ¬ ((i + 1 : Nat) : Int) ≤ ref.end_ := by
        omega
      rw [refLoop64, if_neg hover]
      simp
  | succ n ih =>
      have hturn : ((i + 1 : Nat) : Int) ≤ ref.end_ := by
        omega
      have hi : i < lines.length := by
        omega
      have hsplit : (lines.drop i).take (n + 1) = lines[i] :: (lines.drop (i + 1)).take n := by
        rw [List.drop_eq_getElem_cons hi, List.take_succ_cons]
      rw [hsplit, unlines_cons, List.length_append, List.length_cons] at htotal
      have hindex : sub64 ((i + 1 : Nat) : Int) 1 = some ((i : Nat) : Int) :=
        @sub64_natCast (i + 1) 1 (by omega) (by omega)
      have hline : lineAt64 lines i = some lines[i] := by
        rw [lineAt64, if_pos (by omega)]
        exact List.getElem?_eq_getElem hi
      have hlength : signed64 (lines[i].length : Nat) = some ((lines[i].length : Nat) : Int) :=
        signed64_natCast (by omega)
      have hadded : add64 (lines[i].length : Nat) 1 = some ((lines[i].length + 1 : Nat) : Int) :=
        @add64_natCast lines[i].length 1 (by omega)
      have hsum : add64 (total : Nat) ((lines[i].length + 1 : Nat) : Int) =
          some ((total + (lines[i].length + 1) : Nat) : Int) := add64_natCast (by omega)
      have hnext : add64 ((i + 1 : Nat) : Int) 1 = some ((i + 1 + 1 : Nat) : Int) :=
        @add64_natCast (i + 1) 1 (by omega)
      rw [refLoop64, if_pos hturn]
      simp only [Option.bind_eq_bind]
      rw [hindex, Option.bind_some, hline, Option.bind_some, hlength, Option.bind_some, hadded,
        Option.bind_some, hsum, Option.bind_some, hnext, Option.bind_some]
      rw [ih (by omega) (by omega) (by omega), hsplit, unlines_cons]
      rw [Option.some.injEq, Prod.mk.injEq, Prod.mk.injEq]
      refine ⟨?_, ?_, ?_⟩
      · split <;> simp
      · simp only [List.length_append, List.length_cons]
        omega
      · simp

/-- The bound on the text of the file covers every operation. -/
theorem checkRef64_eq {ref : EdRef} {lines : List Bytes} (h : (unlines lines).length < 2 ^ 63)
    (hcount : lines.length + 1 < 2 ^ 63) :
    checkRef64 ref lines = some (checkRef ref lines) := by
  have hlen : signed64 lines.length = some (lines.length : Int) := signed64_natCast (by omega)
  have htest : ((ref.begin : Int) < 1 ∨ (ref.end_ : Int) < ref.begin ∨
      (ref.end_ : Int) > lines.length) ↔
      (ref.begin < 1 ∨ ref.end_ < ref.begin ∨ ref.end_ > lines.length) := by
    omega
  rw [checkRef64, checkRef, hlen]
  simp only [Option.bind_eq_bind, Option.bind_some, htest]
  split
  · rfl
  next hrange =>
    simp only [not_or, not_lt] at hrange
    obtain ⟨hone, hle, hend⟩ := hrange
    have hspan : sub64 (ref.end_ : Int) ref.begin = some ((ref.end_ - ref.begin : Nat) : Int) :=
      sub64_natCast hle (by omega)
    have hreserved : add64 ((ref.end_ - ref.begin : Nat) : Int) 1 =
        some ((ref.end_ - ref.begin + 1 : Nat) : Int) :=
      @add64_natCast (ref.end_ - ref.begin) 1 (by omega)
    -- the lines of the reference are some of the lines of the file
    have hpart : (unlines ((lines.drop (ref.begin - 1)).take (ref.end_ - ref.begin + 1))).length ≤
        (unlines lines).length := by
      rw [length_unlines, length_unlines]
      refine List.Sublist.sum_le_sum ?_ fun _ _ => Nat.zero_le _
      exact ((List.take_sublist _ _).trans (List.drop_sublist _ _)).map _
    have hloop := @refLoop64_eq ref lines (ref.begin - 1) (ref.end_ - ref.begin + 1) 0 (by omega)
      (by omega) hcount (by omega) [] []
    rw [show ref.begin - 1 + 1 = ref.begin by omega, Nat.cast_zero, Nat.zero_add,
      List.nil_append, List.nil_append] at hloop
    rw [hspan, Option.bind_some, hreserved, Option.bind_some, Int.toNat_natCast, hloop,
      Option.bind_some, ← length_unlines]
    generalize (lines.drop (ref.begin - 1)).take (ref.end_ - ref.begin + 1) = out
    have htotal : ref.bytes.any (fun n : Nat => ((unlines out).length : Int) != (n : Int)) =
        ref.bytes.any ((unlines out).length != ·) := by
      cases ref.bytes <;> simp [bne]
    -- the text was collected if there is a hash to compare it with
    have hhash : ∀ digest : Bytes → RefHash,
        ref.hash.any (digest (if ref.hash.isSome then unlines out else []) != ·) =
          ref.hash.any (digest (unlines out) != ·) := by
      intro digest
      cases ref.hash with
      | none => rfl
      | some h => simp only [Option.isSome_some, if_true]
    rw [htotal, hhash refHash]
    split
    · rfl
    · split <;> rfl

/-- The resolver calculates within its types for a file short of the limit. -/
theorem phpatcherMakeResolver64_safe (baseDir : Bytes) {disk : Disk} {ref : EdRef}
    (h : ∀ content, disk (refFile baseDir ref) = some content → content.length + 1 < 2 ^ 63) :
    (phpatcherMakeResolver64 baseDir disk ref).Safe (RefCache.Agrees disk)
      (phpatcherMakeResolver baseDir disk ref) := by
  intro cache hcache
  have hafter := (makeResolver_outcome baseDir hcache ref).2
  refine ⟨?_, hafter⟩
  obtain ⟨hentry, _⟩ := hcache.load (refFile baseDir ref)
  rw [phpatcherMakeResolver64, phpatcherMakeResolver, Fallible.outcome_mk, Fallible.outcome_mk]
  rcases hload : cache.load disk (refFile baseDir ref) with ⟨entry, cache'⟩
  rw [hload] at hentry
  simp only at hentry
  cases hdisk : disk (refFile baseDir ref) with
  | none => simp only [hload, hentry, hdisk, Option.map_none, Except.mapError]
  | some content =>
      have hbound := h content hdisk
      -- the lines of a text and their number are bounded by its length
      have htext : (unlines (phpatcherSplitLines content)).length < 2 ^ 63 := by
        have hle := length_unlines_splitWith (length_dropLastByte_le carriageReturn) [] content
        rw [List.length_nil, Nat.zero_add] at hle
        exact hle.trans_lt hbound
      have hcount : (phpatcherSplitLines content).length + 1 < 2 ^ 63 := by
        have hle := @length_splitWith_le (dropLastByte carriageReturn) [] content
        rw [List.length_nil, Nat.zero_add] at hle
        exact (Nat.succ_le_succ hle).trans_lt hbound
      rw [hdisk, Option.map_some] at hentry
      subst hentry
      simp only [hload]
      rw [checkRef64_eq htext hcount, checkedOutcome_some]

theorem length_of_checkRef {ref : EdRef} {lines out : List Bytes}
    (h : checkRef ref lines = .ok out) : out.length ≤ ref.end_ - ref.begin + 1 := by
  rw [checkRef] at h
  split at h
  · exact absurd h (by simp)
  · simp only at h
    split at h
    · exact absurd h (by simp)
    · split at h
      · exact absurd h (by simp)
      · rw [← Except.ok.inj h, List.length_take]
        exact Nat.min_le_left _ _

/-- The corpus resolver answers with the lines it is asked for. -/
theorem sized_phpatcherMakeResolver (baseDir : Bytes) (disk : Disk) (refs : List EdRef) :
    Sized (RefCache.Agrees disk) (some (phpatcherMakeResolver baseDir disk)) refs
      (fun ref => ref.end_ - ref.begin + 1) := by
  intro f hf ref _ cache lines cache' hcache hyields
  obtain rfl := Option.some.inj hf
  have hout := (makeResolver_outcome baseDir hcache ref).1
  rw [show (phpatcherMakeResolver baseDir disk ref).outcome cache = _ from hyields, resolveRef]
    at hout
  cases hdisk : disk (refFile baseDir ref) with
  | none => simp [hdisk] at hout
  | some content =>
      rw [hdisk] at hout
      exact length_of_checkRef hout.symm

end Phpatcher.Glue
