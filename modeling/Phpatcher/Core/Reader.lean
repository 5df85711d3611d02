import Phpatcher.Core.Patch

/-!
# Reading one line of a bundle

The hand-written readers of `patch.cpp`: numbers, edit commands, quoted
strings, guard tokens and the `r` directive. The source walks an index `pos`
through the line; here each reader returns the rest of the line instead. A
reader that fails leaves its output parameters half filled in the source, but
every caller gives up at once, so failure is `none`.
-/

namespace Phpatcher.Core

open Phpatcher.Basis

def kEdMagic : Bytes := ascii "# phpatcher-ed"
def kEdFileHeader : Bytes := ascii "# file:"
def kEdNewFileHeader : Bytes := ascii "# newfile:"

/-- `read_uint`: a digit, then digits as long as they come; a value above
`(INT64_MAX - 9) / 10` with another digit behind it is refused. -/
def readUint (s : Bytes) : Option (Nat × Bytes) :=
  match s with
  | [] => none
  | c :: _ => if isDigit c then scanDigits ((int64Max - 9) / 10) 0 s else none

/-- The largest number `readUint` accepts. -/
def readUintMax : Nat := (int64Max - 9) / 10 * 10 + 9

/-- `looks_like_ed_bundle`: the first line that is not blank starts with the
magic token, after blanks. -/
def looksLikeEdBundle (text : Bytes) : Bool :=
  match (splitLines text).map (List.dropWhile isBlank) |>.find? (· ≠ []) with
  | none => false
  | some line => kEdMagic.isPrefixOf line

/-- The command letters. -/
def Kind.ofLetter (op : UInt8) : Option Kind :=
  if op = 100 then some .delete        -- 'd'
  else if op = 99 then some .change    -- 'c'
  else if op = 97 then some .append    -- 'a'
  else if op = 105 then some .insert   -- 'i'
  else none

/-- The command a header stands for: `a` and `i` have no second address. -/
def EdCommand.ofHeader (kind : Kind) (first second : Nat) : EdCommand :=
  match kind with
  | .delete | .change => { kind, start := first, end_ := second }
  | .append | .insert => { kind, start := first, end_ := first }

/-- `needs_input`: an input block follows every command but `d`. -/
def Kind.needsInput : Kind → Bool
  | .delete => false
  | .change | .append | .insert => true

/-- The optional second address of a command header. -/
def readSecond (first : Nat) : Bytes → Option (Nat × Bytes)
  | c :: rest => if c = comma then readUint rest else some (first, c :: rest)
  | [] => some (first, [])

/-- `parse_ed_command`. -/
def parseEdCommand (line : Bytes) : Option (EdCommand × Bool) := do
  let (first, rest) ← readUint line
  let (second, rest) ← readSecond first rest
  match rest with
  | [] => none
  | op :: tail =>
      if rtrim tail ≠ [] then none
      else
        let kind ← Kind.ofLetter op
        return (EdCommand.ofHeader kind first second, kind.needsInput)

/-- The loop of `parse_decimal_full`: refuse a digit that would carry the value
past `INT64_MAX`. -/
def parseDecimalLoop : Nat → Bytes → Option Nat
  | v, [] => some v
  | v, c :: rest =>
      if !isDigit c then none
      else if v > (int64Max - digitValue c) / 10 then none
      else parseDecimalLoop (v * 10 + digitValue c) rest

/-- `parse_decimal_full`. -/
def parseDecimalFull (s : Bytes) : Option Nat :=
  if s = [] then none else parseDecimalLoop 0 s

/-- The byte an escape letter stands for. -/
def unescape (e : UInt8) : Option UInt8 :=
  if e = backslash then some backslash
  else if e = doubleQuote then some doubleQuote
  else if e = 116 then some tab              -- 't'
  else if e = 114 then some carriageReturn   -- 'r'
  else if e = 110 then some newline          -- 'n'
  else none

/-- `parse_quoted` behind the opening quote. -/
def parseQuotedBody (out : Bytes) : Bytes → Option (Bytes × Bytes)
  | [] => none
  | [c] => if c = doubleQuote then some (out, []) else none
  | c :: e :: rest =>
      if c = doubleQuote then some (out, e :: rest)
      else if c = backslash then
        match unescape e with
        | some b => parseQuotedBody (out ++ [b]) rest
        | none => none
      else parseQuotedBody (out ++ [c]) (e :: rest)

/-- `parse_quoted`. -/
def parseQuoted : Bytes → Option (Bytes × Bytes)
  | c :: rest => if c = doubleQuote then parseQuotedBody [] rest else none
  | [] => none

/-- One guard token, folded into the reference; the flag says that a guard was
read. An empty token, as two spaces in a row give, is skipped. -/
def guardToken (tok : Bytes) (ref : EdRef) (haveGuard : Bool) : Option (EdRef × Bool) :=
  if tok.take 2 = ascii "s:" then
    (parseDecimalFull (tok.drop 2)).map fun n => ({ ref with bytes := some n }, true)
  else if tok.take 2 = ascii "h:" then
    (refHashParse (tok.drop 2)).map fun h => ({ ref with hash := some h }, true)
  else if tok ≠ [] then none
  else some (ref, haveGuard)

/-- The token loop of `parse_guard_tokens`. -/
def guardTokens : List Bytes → EdRef → Bool → Option (EdRef × Bool)
  | [], ref, haveGuard => some (ref, haveGuard)
  | tok :: toks, ref, haveGuard => do
      let (ref, haveGuard) ← guardToken tok ref haveGuard
      guardTokens toks ref haveGuard

/-- `parse_guard_tokens`: the tokens between single spaces, at least one guard
among them. -/
def parseGuardTokens (text : Bytes) (ref : EdRef) : Option EdRef := do
  let (ref, haveGuard) ← guardTokens (text.splitOn space) ref false
  if haveGuard then some ref else none

/-- Bytes `skip_blanks` passes over. -/
def isSkipped (c : UInt8) : Bool := c == space || c == tab

/-- `skip_blanks`. -/
def skipBlanks (s : Bytes) : Bytes := s.dropWhile isSkipped

/-- The path of an `r` directive: quoted, or up to the next blank. -/
def readPath (s : Bytes) : Option (Bytes × Bytes) :=
  if s.head? = some doubleQuote then parseQuoted s
  else
    let path := s.takeWhile fun c => !isSkipped c
    if path = [] then none else some (path, s.dropWhile fun c => !isSkipped c)

/-- The optional pair of paddings of an `r` directive. -/
def readPads (s : Bytes) (ref : EdRef) : Option (EdRef × Bytes) :=
  if s.head? = some doubleQuote then do
    let (lpad, s) ← parseQuoted s
    let (rpad, s) ← parseQuoted (skipBlanks s)
    return ({ ref with lpad, rpad, transform := .trimPad }, skipBlanks s)
  else some (ref, s)

/-- `parse_r_directive`. -/
def parseRDirective (line : Bytes) : Option EdRef := do
  if line.take 2 ≠ ascii "r " then none
  let (path, s) ← readPath (skipBlanks (line.drop 2))
  let (begin, s) ← readUint (skipBlanks s)
  let (end_, s) ← readUint (skipBlanks s)
  if begin < 1 ∨ end_ < begin then none
  let (ref, s) ← readPads (skipBlanks s) { path, begin, end_ }
  if s.take 2 ≠ ascii "# " then none
  parseGuardTokens (s.drop 2) ref

/-- `parse_ed_input_piece`: a reference only if the whole line is one. -/
def parseEdInputPiece (line : Bytes) : EdPiece :=
  match parseRDirective line with
  | some ref => .ref ref
  | none => .literal line

end Phpatcher.Core
