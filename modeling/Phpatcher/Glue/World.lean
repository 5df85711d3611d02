import Mathlib.Data.List.AList
import Phpatcher.Core.Bundle
import Phpatcher.Glue.Resolver

/-!
# The extension's configuration, its globals, and what lies outside

What `phpatcher.cpp` keeps in INI settings and process globals, and the
services of the engine and the operating system it asks. Memory allocation
always succeeds here.
-/

namespace Phpatcher.Glue

open Phpatcher.Basis Phpatcher.Core

/-- What the operating system and the engine answer at one moment. -/
structure World where
  disk : Disk
  os : Os
  /-- `VCWD_REALPATH` -/
  vcwdRealpath : Bytes → Option Bytes
  /-- `VCWD_GETCWD` -/
  vcwdGetcwd : Option Bytes
  /-- the path resolver the extension finds in the chain -/
  engineResolve : Bytes → Option Bytes

/-- The INI settings; an unset string is empty, an unset `on_error` is `none`. -/
structure Config where
  patchFile : Bytes
  baseDir : Bytes := []
  onError : Option Bytes := some (ascii "original")
  enabled : Bool := true
  strict : Bool := true
  precompute : Bool := true
  cache : Bool := true
  opcacheBind : Bool := true
  deriving DecidableEq

/-- `phpatcher_fail_closed`. -/
def Config.failClosed (cfg : Config) : Bool := cfg.onError == some (ascii "fail")

/-- `std::unordered_map<std::string, std::string>`. -/
abbrev ContentMap := AList fun _ : Bytes => Bytes

/-- The process globals, and what was sent to the outside. -/
structure Globals where
  /-- `g_base_dir` -/
  baseDir : Bytes := []
  /-- `g_patchset` -/
  patchset : Option PatchSet := none
  /-- `g_precomputed` -/
  precomputed : Option ContentMap := none
  /-- `g_cache` -/
  cache : Option ContentMap := none
  /-- `zend_compile_file` is `phpatcher_compile_file` -/
  compileHook : Bool := false
  /-- `zend_resolve_path` is `phpatcher_resolve_path` -/
  resolveHook : Bool := false
  /-- `zend_stream_open_function` is `phpatcher_stream_open` -/
  streamHook : Bool := false
  /-- `g_apply_failures` -/
  applyFailures : UInt64 := 0
  /-- `g_read_failures` -/
  readFailures : UInt64 := 0
  /-- `g_skipped_halt` -/
  skippedHalt : UInt64 := 0
  /-- `g_last_error` -/
  lastError : Bytes := []
  /-- the `E_WARNING`s raised -/
  warnings : List Bytes := []
  /-- what was mixed into the system id -/
  entropy : List (Bytes × Bytes) := []

/-- `php_error_docref`, when `phpatcher.strict` asks for it. -/
def Globals.warn (g : Globals) (strict : Bool) (message : Bytes) : Globals :=
  if strict then { g with warnings := g.warnings ++ [message] } else g

/-- The parts of a `zend_file_handle` the hooks use. -/
structure FileHandle where
  filename : Option Bytes := none
  openedPath : Option Bytes := none
  buf : Option Bytes := none
  deriving DecidableEq, Repr

end Phpatcher.Glue
