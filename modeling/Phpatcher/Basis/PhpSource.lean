import Phpatcher.Basis.Bytes

/-!
# Tokens of PHP source

The scanner of PHP for sources made of names, a few symbols and single-quoted
literals: a step on one byte gives the next state and the token that ended with
it. In a literal a backslash escapes a backslash or a quote and stands for
itself in front of any other byte; the first quote that is not escaped ends the
literal. Any other construct of the language leaves the scanner stuck.
-/

namespace Phpatcher.Basis

/-- A token of the fragment; a literal is given by what it decodes to. -/
inductive PhpToken where
  | name (text : Bytes)
  | symbol (c : UInt8)
  | literal (value : Bytes)
  deriving DecidableEq, Repr

/-- Where the scanner is. -/
inductive ScanState where
  /-- between two tokens -/
  | code
  | name (text : Bytes)
  /-- in a literal, with what it decodes to so far -/
  | literal (value : Bytes)
  /-- in a literal, behind a backslash -/
  | escape (value : Bytes)
  | stuck
  deriving DecidableEq, Repr

/-- Whitespace between tokens. -/
def isPhpBlank (c : UInt8) : Bool := c == space || c == tab || c == carriageReturn || c == newline

/-- A byte of a name, which may be qualified with backslashes. -/
def isNameByte (c : UInt8) : Bool :=
  (97 ≤ c && c ≤ 122) || (65 ≤ c && c ≤ 90) || (48 ≤ c && c ≤ 57) || c == 95 || 128 ≤ c ||
    c == backslash

/-- Parentheses, comma and semicolon. -/
def isPhpSymbol (c : UInt8) : Bool := c == 40 || c == 41 || c == 44 || c == 59

/-- A byte between two tokens. -/
def ScanState.enter (c : UInt8) : ScanState × List PhpToken :=
  if isPhpBlank c then (.code, [])
  else if isNameByte c then (.name [c], [])
  else if c = singleQuote then (.literal [], [])
  else if isPhpSymbol c then (.code, [.symbol c])
  else (.stuck, [])

/-- One byte. -/
def ScanState.step : ScanState → UInt8 → ScanState × List PhpToken
  | .code, c => enter c
  | .name text, c =>
      if isNameByte c then (.name (text ++ [c]), [])
      else ((enter c).1, .name text :: (enter c).2)
  | .literal value, c =>
      if c = singleQuote then (.code, [.literal value])
      else if c = backslash then (.escape value, [])
      else (.literal (value ++ [c]), [])
  | .escape value, c =>
      if c = backslash ∨ c = singleQuote then (.literal (value ++ [c]), [])
      else (.literal (value ++ [backslash, c]), [])
  | .stuck, _ => (.stuck, [])

/-- Scan a text: the state behind it, and the tokens that ended in it. -/
def ScanState.scan (s : ScanState) : Bytes → ScanState × List PhpToken
  | [] => (s, [])
  | c :: rest =>
      let after := (s.step c).1.scan rest
      (after.1, (s.step c).2 ++ after.2)

/-- The tokens behind the open tag; a literal has to be closed. -/
def phpTokens (source : Bytes) : Option (List PhpToken) :=
  let openTag := ascii "<?php "
  if openTag.isPrefixOf source then
    match ScanState.code.scan (source.drop openTag.length) with
    | (.code, tokens) => some tokens
    | (.name text, tokens) => some (tokens ++ [.name text])
    | _ => none
  else none

namespace ScanState

theorem scan_append (s : ScanState) (text rest : Bytes) :
    s.scan (text ++ rest) =
      (((s.scan text).1.scan rest).1, (s.scan text).2 ++ ((s.scan text).1.scan rest).2) := by
  induction text generalizing s with
  | nil => rfl
  | cons c text ih => simp [scan, ih]

/-- Nothing ends a literal before a text that keeps it open does. -/
theorem scan_append_of_open {s t : ScanState} {text : Bytes} (h : s.scan text = (t, []))
    (rest : Bytes) : s.scan (text ++ rest) = t.scan rest := by
  rw [scan_append, h, List.nil_append]

/-- Bytes that are neither a quote nor a backslash stand for themselves. -/
theorem scan_literal_plain (value : Bytes) {text : Bytes}
    (h : ∀ c ∈ text, c ≠ singleQuote ∧ c ≠ backslash) :
    (literal value).scan text = (literal (value ++ text), []) := by
  induction text generalizing value with
  | nil => simp [scan]
  | cons c text ih =>
      rw [List.forall_mem_cons] at h
      have hstep : (literal value).step c = (literal (value ++ [c]), []) := by
        rw [step, if_neg h.1.1, if_neg h.1.2]
      rw [scan, hstep, ih (value ++ [c]) h.2, List.append_assoc]
      rfl

end ScanState

end Phpatcher.Basis
