import Phpatcher.Basis.Decimal
import Phpatcher.Basis.Lines

/-!
# The patch data model

The types of `patch.hpp`: content hashes, corpus references, edit commands and
file patches. Addresses and lengths are `std::int64_t` in the source; every
value the parser produces is non-negative, so they are `Nat` here, and the two
"not present" encodings (`bytes = -1`, `has_hash = false`) are `none`.
-/

namespace Phpatcher.Core

open Phpatcher.Basis

/-- `INT64_MAX`. -/
def int64Max : Nat := 9223372036854775807

/-! ## Content hash -/

/-- A 128-bit content hash: two independent 64-bit lanes. -/
structure RefHash where
  a : UInt64 := 0
  b : UInt64 := 0
  deriving DecidableEq, Repr

/-- One xor-multiply step of both lanes. -/
def RefHash.mix (h : RefHash) (v : UInt64) : RefHash :=
  ⟨(h.a ^^^ v) * 1099511628211, (h.b ^^^ v) * 0x9E3779B97F4A7C15⟩

/-- `ref_hash`: every byte, then the length. -/
def refHash (s : Bytes) : RefHash :=
  let seed : RefHash := ⟨14695981039346656037, 1469598103934665603⟩
  (s.foldl (fun h c => h.mix c.toUInt64) seed).mix s.length.toUInt64

/-- `digits[v]` for `v < 16`. -/
def hexDigit (v : UInt64) : UInt8 := (ascii "0123456789abcdef").getD v.toNat 0

/-- The sixteen hexadecimal digits of one lane, most significant first. -/
def hexLane (v : UInt64) : Bytes :=
  (List.range 16).map fun j => hexDigit ((v >>> (4 * (15 - j)).toUInt64) &&& 0xf)

/-- `ref_hash_hex`: lane `a`, then lane `b`. -/
def refHashHex (h : RefHash) : Bytes := hexLane h.a ++ hexLane h.b

/-- The value of one hexadecimal digit of either case. -/
def hexValue (c : UInt8) : Option UInt64 :=
  if 48 ≤ c ∧ c ≤ 57 then some (c - 48).toUInt64
  else if 97 ≤ c ∧ c ≤ 102 then some (c - 97 + 10).toUInt64
  else if 65 ≤ c ∧ c ≤ 70 then some (c - 65 + 10).toUInt64
  else none

/-- The loop of `ref_hash_parse` from digit `i` on. -/
def refHashParseLoop : Nat → Bytes → RefHash → Option RefHash
  | _, [], h => some h
  | i, c :: rest, h =>
      match hexValue c with
      | none => none
      | some v =>
          refHashParseLoop (i + 1) rest
            (if i < 16 then { h with a := (h.a <<< 4) ||| v } else { h with b := (h.b <<< 4) ||| v })

/-- `ref_hash_parse`. -/
def refHashParse (hex : Bytes) : Option RefHash :=
  if hex.length ≠ 32 then none else refHashParseLoop 0 hex ⟨0, 0⟩

/-! ## References, commands, file patches -/

/-- `EdRef::Transform`. -/
inductive Transform where
  /-- insert the resolved lines unchanged -/
  | exact
  /-- insert `lpad + trim(line) + rpad` for each resolved line -/
  | trimPad
  deriving DecidableEq, Repr

/-- A reference to the lines `begin..end_` (1-based, inclusive) of a file, with
the guards it carries: the byte length of the run (`s:`) and its hash (`h:`). -/
structure EdRef where
  path : Bytes := []
  begin : Nat := 0
  end_ : Nat := 0
  bytes : Option Nat := none
  hash : Option RefHash := none
  transform : Transform := .exact
  lpad : Bytes := []
  rpad : Bytes := []
  deriving DecidableEq, Repr

/-- One element of an input block. -/
inductive EdPiece where
  | literal (line : Bytes)
  | ref (ref : EdRef)
  deriving DecidableEq, Repr

/-- `EdCommand::Kind`. -/
inductive Kind where
  | delete
  | change
  | append
  | insert
  deriving DecidableEq, Repr

/-- A single editing command. -/
structure EdCommand where
  kind : Kind := .delete
  start : Nat := 0
  end_ : Nat := 0
  input : List EdPiece := []
  deriving DecidableEq, Repr

/-- All edits of one file. `creates` marks a file introduced by `# newfile:`. -/
structure FilePatch where
  commands : List EdCommand := []
  creates : Bool := false
  deriving DecidableEq, Repr

/-! ## Blanks and lines -/

/-- `is_blank`. -/
def isBlank (c : UInt8) : Bool := c == space || c == tab || c == carriageReturn

/-- `rtrim`. -/
def rtrim (s : Bytes) : Bytes := s.rdropWhile isBlank

/-- `trim_blanks`. -/
def trimBlanks (s : Bytes) : Bytes := trimBoth isBlank s

/-- `split_lines`: lines with the newline stripped and everything else kept. -/
def splitLines (content : Bytes) : List Bytes := splitWith id [] content

/-- Terminated lines split back into themselves. -/
theorem splitLines_unlines {lines : List Bytes} (h : ∀ line ∈ lines, newline ∉ line) :
    splitLines (unlines lines) = lines := by
  rw [splitLines, splitWith_unlines_nil h, List.map_id]

theorem length_splitLines_le (text : Bytes) : (splitLines text).length ≤ text.length := by
  have hle := @length_splitWith_le id [] text
  rwa [List.length_nil, Nat.zero_add] at hle

/-- What `split_lines` reports in `ends_with_nl`. -/
def endsWithNl (content : Bytes) : Bool := content.getLast? == some newline

/-- `join_lines`. -/
def joinLines (lines : List Bytes) (trailingNewline : Bool) : Bytes :=
  joinWith trailingNewline lines

end Phpatcher.Core
