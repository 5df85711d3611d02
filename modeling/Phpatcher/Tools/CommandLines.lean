import Phpatcher.Core.Reader
import Phpatcher.Tools.Diff

/-!
# Command lines, written and read

The generator writes a change as a command line and its added lines; the
patcher reads the line with `parse_ed_command`. A change comes back as the
command it stands for (`parseEdCommand_header`) as long as its line numbers
are in the range `read_uint` accepts.
-/

namespace Phpatcher.Tools

open Phpatcher.Basis Phpatcher.Core

/-- The command a change stands for. -/
def commandOf (c : Change) : EdCommand :=
  if c.oldCount = 0 then
    { kind := .append, start := c.appendAfter, end_ := c.appendAfter
      input := c.added.map .literal }
  else if c.added = [] then
    { kind := .delete, start := c.oldStart, end_ := c.oldStart + c.oldCount - 1 }
  else
    { kind := .change, start := c.oldStart, end_ := c.oldStart + c.oldCount - 1
      input := c.added.map .literal }

/-- Read a change back: its command line is parsed, its added lines are taken
as literal input. -/
def readBack (c : Change) : Option EdCommand :=
  (parseEdCommand c.header).map fun (cmd, needsInput) =>
    { cmd with input := if needsInput then c.added.map .literal else [] }

/-- The numbers of a change are such as `read_uint` reads. -/
def Readable (c : Change) : Prop :=
  if c.oldCount = 0 then c.appendAfter ≤ readUintMax
  else c.oldStart + c.oldCount - 1 ≤ readUintMax

instance (c : Change) : Decidable (Readable c) :=
  inferInstanceAs (Decidable (if c.oldCount = 0 then c.appendAfter ≤ readUintMax
    else c.oldStart + c.oldCount - 1 ≤ readUintMax))

theorem readUint_decimal {n : Nat} (hn : n ≤ readUintMax) (rest : Bytes)
    (hrest : ∀ c, rest.head? = some c → isDigit c = false) :
    readUint (decimal n ++ rest) = some (n, rest) := by
  obtain ⟨c, s, hcs⟩ := List.exists_cons_of_ne_nil (decimal_ne_nil n)
  have hc : isDigit c = true := decimal_digits n c (hcs ▸ List.mem_cons_self)
  have hscan := scanDigits_decimal ((int64Max - 9) / 10) hn hrest
  rw [hcs, List.cons_append] at hscan ⊢
  rw [readUint, if_pos hc, hscan]

/-- The command line of one address and a letter. -/
theorem parseEdCommand_one {n : Nat} (hn : n ≤ readUintMax) {op : UInt8} (kind : Kind)
    (hop : Kind.ofLetter op = some kind) (hdigit : isDigit op = false) (hcomma : op ≠ comma) :
    parseEdCommand (decimal n ++ [op]) = some (.ofHeader kind n n, kind.needsInput) := by
  have hread := readUint_decimal hn [op] (by simpa using hdigit)
  simp [parseEdCommand, hread, readSecond, hcomma, rtrim, hop]

/-- The command line of two addresses and a letter. -/
theorem parseEdCommand_two {m n : Nat} (hm : m ≤ readUintMax) (hn : n ≤ readUintMax)
    {op : UInt8} (kind : Kind) (hop : Kind.ofLetter op = some kind)
    (hdigit : isDigit op = false) :
    parseEdCommand (decimal m ++ ascii "," ++ decimal n ++ [op]) =
      some (.ofHeader kind m n, kind.needsInput) := by
  have hfirst := readUint_decimal hm (comma :: (decimal n ++ [op]))
    (by intro c hc; simp only [List.head?_cons, Option.some.injEq] at hc; subst hc; rfl)
  have hsecond := readUint_decimal hn [op] (by simpa using hdigit)
  have hline : decimal m ++ ascii "," ++ decimal n ++ [op] =
      decimal m ++ comma :: (decimal n ++ [op]) := by
    rw [show ascii "," = [comma] from rfl]
    simp
  rw [hline]
  simp [parseEdCommand, hfirst, readSecond, hsecond, rtrim, hop]

/-- The command line of a change names its kind and its lines. -/
theorem parseEdCommand_header {c : Change} (h : Readable c) :
    parseEdCommand c.header =
      some ({ commandOf c with input := [] }, (commandOf c).kind.needsInput) := by
  unfold Readable at h
  by_cases hcount : c.oldCount = 0
  · rw [if_pos hcount] at h
    rw [Change.header, if_pos hcount, show ascii "a" = [97] from rfl,
      parseEdCommand_one h .append rfl rfl (by decide)]
    simp [commandOf, hcount, EdCommand.ofHeader]
  · rw [if_neg hcount] at h
    have hstart : c.oldStart ≤ readUintMax := by omega
    by_cases hone : c.oldCount = 1
    · have hlast : c.oldStart + c.oldCount - 1 = c.oldStart := by omega
      by_cases hadded : c.added = []
      · rw [Change.header, if_neg hcount, if_pos hone, if_pos hadded,
          show ascii "d" = [100] from rfl,
          parseEdCommand_one hstart .delete rfl rfl (by decide)]
        simp [commandOf, hcount, hadded, EdCommand.ofHeader, hlast]
      · rw [Change.header, if_neg hcount, if_pos hone, if_neg hadded,
          show ascii "c" = [99] from rfl,
          parseEdCommand_one hstart .change rfl rfl (by decide)]
        simp [commandOf, hcount, hadded, EdCommand.ofHeader, hlast]
    · by_cases hadded : c.added = []
      · rw [Change.header, if_neg hcount, if_neg hone, if_pos hadded,
          show ascii "d" = [100] from rfl,
          parseEdCommand_two hstart h .delete rfl rfl]
        simp [commandOf, hcount, hadded, EdCommand.ofHeader]
      · rw [Change.header, if_neg hcount, if_neg hone, if_neg hadded,
          show ascii "c" = [99] from rfl,
          parseEdCommand_two hstart h .change rfl rfl]
        simp [commandOf, hcount, hadded, EdCommand.ofHeader]

theorem readBack_eq {c : Change} (h : Readable c) : readBack c = some (commandOf c) := by
  rw [readBack, parseEdCommand_header h, Option.map_some]
  by_cases hcount : c.oldCount = 0
  · simp [commandOf, hcount, Kind.needsInput]
  · by_cases hadded : c.added = [] <;> simp [commandOf, hcount, hadded, Kind.needsInput]

end Phpatcher.Tools
