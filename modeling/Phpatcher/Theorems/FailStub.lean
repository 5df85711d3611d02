import Phpatcher.Basis.PhpSource
import Phpatcher.Glue.Hooks

/-!
# The stub of a refused file

The source the hooks compile in place of a file they refuse is one `throw`
statement, and its message is the whole literal: no byte of the path or of the
reason gets out of it (`fail_stub_closed`).
-/

namespace Phpatcher.Theorems

open Phpatcher.Basis Phpatcher.Core Phpatcher.Glue

/-- The message of the stub. -/
def stubMessage (path reason : Bytes) : Bytes :=
  ascii "phpatcher: refusing to run unpatched code for " ++ path ++ ascii " (" ++ reason ++
    ascii ")"

/-- `throw new class('message');` -/
def throwNew (className message : Bytes) : List PhpToken :=
  [.name (ascii "throw"), .name (ascii "new"), .name className, .symbol 40, .literal message,
    .symbol 41, .symbol 59]

/-- Escaped, a byte is added to the literal, which goes on. -/
theorem scan_stubEscape (value s : Bytes) :
    (ScanState.literal value).scan (stubEscape s) = (.literal (value ++ s), []) := by
  induction s generalizing value with
  | nil => simp [stubEscape, ScanState.scan]
  | cons c s ih =>
      rw [stubEscape, List.flatMap_cons, ← stubEscape]
      by_cases hc : c = backslash ∨ c = singleQuote
      · -- the backslash in front takes the byte into the literal
        have hbackslash : backslash ≠ singleQuote := by decide
        rw [if_pos hc, ScanState.scan_append_of_open (t := .literal (value ++ [c])), ih]
        · simp
        · simp [ScanState.scan, ScanState.step, hc, hbackslash]
      · obtain ⟨hbackslash, hquote⟩ := not_or.mp hc
        rw [if_neg hc, ScanState.scan_append_of_open (t := .literal (value ++ [c])), ih]
        · simp
        · simp [ScanState.scan, ScanState.step, hbackslash, hquote]

/-- The text between the quotes of the stub. -/
def stubBody (path reason : Bytes) : Bytes :=
  ascii "phpatcher: refusing to run unpatched code for " ++ stubEscape path ++ ascii " (" ++
    stubEscape reason ++ ascii ")"

/-- The literal takes the whole text, and is open behind it. -/
theorem scan_stubBody (path reason : Bytes) :
    (ScanState.literal []).scan (stubBody path reason) =
      (.literal (stubMessage path reason), []) := by
  have hplain : ∀ value text : Bytes,
      text.all (fun c => c != singleQuote && c != backslash) = true →
      (ScanState.literal value).scan text = (.literal (value ++ text), []) := by
    intro value text htext
    apply ScanState.scan_literal_plain
    simpa using htext
  rw [stubBody, List.append_assoc, List.append_assoc, List.append_assoc,
    ScanState.scan_append_of_open (hplain _ _ (by decide)),
    ScanState.scan_append_of_open (scan_stubEscape _ _),
    ScanState.scan_append_of_open (hplain _ _ (by decide)),
    ScanState.scan_append_of_open (scan_stubEscape _ _), hplain _ _ (by decide)]
  simp [stubMessage]

theorem phpatcherFailStub_eq (path reason : Bytes) :
    phpatcherFailStub path reason =
      ascii "<?php throw new \\RuntimeException('" ++ stubBody path reason ++ ascii "');\n" := by
  have hopening :
      ascii "<?php throw new \\RuntimeException('phpatcher: refusing to run unpatched code for " =
        ascii "<?php throw new \\RuntimeException('" ++
          ascii "phpatcher: refusing to run unpatched code for " := by decide
  have hclosing : ascii ")');\n" = ascii ")" ++ ascii "');\n" := by decide
  rw [phpatcherFailStub, stubBody, hopening, hclosing]
  simp only [List.append_assoc]

/-- **The stub is closed.** For every path and reason the stub is the tokens of
one `throw` statement with exactly the message; and between the opening quote
and the stub's own closing quote no token ends. -/
theorem fail_stub_closed (path reason : Bytes) :
    phpTokens (phpatcherFailStub path reason) =
        some (throwNew (ascii "\\RuntimeException") (stubMessage path reason)) ∧
      ∃ body, phpatcherFailStub path reason =
          ascii "<?php throw new \\RuntimeException('" ++ body ++ ascii "');\n" ∧
        (ScanState.literal []).scan body = (.literal (stubMessage path reason), []) := by
  refine ⟨?_, stubBody path reason, phpatcherFailStub_eq path reason, scan_stubBody path reason⟩
  have hsource : phpatcherFailStub path reason = ascii "<?php " ++
      (ascii "throw new \\RuntimeException('" ++ (stubBody path reason ++ ascii "');\n")) := by
    rw [phpatcherFailStub_eq, List.append_assoc]
    rfl
  have hopening : ScanState.code.scan (ascii "throw new \\RuntimeException('") =
      (.literal [], [.name (ascii "throw"), .name (ascii "new"),
        .name (ascii "\\RuntimeException"), .symbol 40]) := by decide
  have hclosing : ∀ value, (ScanState.literal value).scan (ascii "');\n") =
      (.code, [.literal value, .symbol 41, .symbol 59]) := fun _ => rfl
  have htag : (ascii "<?php ").isPrefixOf (phpatcherFailStub path reason) = true := by
    rw [hsource]
    simp
  rw [phpTokens]
  simp only [htag, if_true]
  rw [hsource, List.drop_left, ScanState.scan_append, hopening,
    ScanState.scan_append_of_open (scan_stubBody path reason), hclosing]
  rfl

/-- A path that ends in a backslash and holds a quote behind another. -/
example : phpTokens (phpatcherFailStub (ascii "/a\\'b\\") patchFailed) =
    some (throwNew (ascii "\\RuntimeException")
      (stubMessage (ascii "/a\\'b\\") patchFailed)) := by decide +kernel

end Phpatcher.Theorems
