import Phpatcher.Basis.Codec
import Phpatcher.Tools.Normalize

/-!
# The pipe to the normalizer

`normalizer.hpp` behind its request: the read buffer with its two cursors, the
gathering and the zero-copy reads, and `run_each`. What the calls of `read()`
bring is a list of events; a pipe that has no more of them is at its end.

`pending` is what the pipe still delivers. Reading `n` bytes takes the first `n`
pending ones, whatever the events are (`readAll_eq`, `readView_eq`).
-/

namespace Phpatcher.Tools

open Phpatcher.Basis Phpatcher.Core

/-- The size of the read buffer. -/
def bufferSize : Nat := 65536

/-- What one call of `read()` returns: some bytes, and no more than fit. -/
structure Chunk where
  bytes : Bytes
  nonempty : bytes ≠ []
  fits : bytes.length ≤ bufferSize

/-- How a call of `read()` ends. -/
inductive ReadEvent where
  | data (chunk : Chunk)
  /-- `EINTR` -/
  | interrupted
  /-- another error -/
  | failed

/-- The bytes that the calls bring, up to an error. -/
def delivered : List ReadEvent → Bytes
  | [] => []
  | .data chunk :: events => chunk.bytes ++ delivered events
  | .interrupted :: events => delivered events
  | .failed :: _ => []

/-- `rbuf_`, `rpos_` and `rend_`, and the calls of `read()` to come. -/
structure Pipe where
  rbuf : Bytes := []
  rpos : Nat := 0
  rend : Nat := 0
  incoming : List ReadEvent
  rpos_le : rpos ≤ rend := by decide
  rend_le : rend ≤ rbuf.length := by decide
  sized : rbuf = [] ∨ rbuf.length = bufferSize := by decide

/-- The bytes between the cursors. -/
def Pipe.buffered (s : Pipe) : Bytes := (s.rbuf.drop s.rpos).take (s.rend - s.rpos)

/-- What the pipe still delivers. -/
def Pipe.pending (s : Pipe) : Bytes := s.buffered ++ delivered s.incoming

/-- The buffer once it has its size. -/
def Pipe.resized (s : Pipe) : Bytes := if s.rbuf = [] then List.replicate bufferSize 0 else s.rbuf

theorem Pipe.length_resized (s : Pipe) : s.resized.length = bufferSize := by
  rw [resized]
  split
  · exact List.length_replicate
  next h => exact s.sized.resolve_left h

/-- The loop of `fill_buffer`; `none` is its `false`. -/
def fillFrom (rbuf : Bytes) (hsize : rbuf.length = bufferSize) : List ReadEvent → Option Pipe
  | [] => none
  | .interrupted :: events => fillFrom rbuf hsize events
  | .failed :: _ => none
  | .data chunk :: events =>
      some
        { rbuf := overwrite 0 chunk.bytes rbuf
          rpos := 0
          rend := chunk.bytes.length
          incoming := events
          rpos_le := Nat.zero_le _
          rend_le := by
            rw [overwrite_start, List.length_append]
            exact Nat.le_add_right _ _
          sized := by
            right
            have := chunk.fits
            rw [overwrite_start, List.length_append, List.length_drop]
            omega }

/-- `fill_buffer`. -/
def Pipe.fillBuffer (s : Pipe) : Option Pipe := fillFrom s.resized s.length_resized s.incoming

/-- Fill the buffer if nothing is left in it. -/
def Pipe.refill (s : Pipe) : Option Pipe := if s.rpos = s.rend then s.fillBuffer else some s

/-- Step over `n` buffered bytes. -/
def Pipe.skip (s : Pipe) (n : Nat) (h : n ≤ s.rend - s.rpos) : Pipe :=
  { s with
    rpos := s.rpos + n
    rpos_le := by
      have := s.rpos_le
      omega }

/-- The loop of `read_all`; every turn takes a byte at least, so `n` bounds the
turns. -/
def readAllLoop : Nat → Nat → Pipe → Option (Bytes × Pipe)
  | 0, _, s => some ([], s)
  | turns + 1, n, s =>
      if n = 0 then some ([], s)
      else
        match s.refill with
        | none => none
        | some s =>
            let take := min (s.rend - s.rpos) n
            (readAllLoop turns (n - take) (s.skip take (Nat.min_le_left _ _))).map fun (bs, t) =>
              ((s.rbuf.drop s.rpos).take take ++ bs, t)

/-- `read_all`. -/
def Pipe.readAll (s : Pipe) (n : Nat) : Option (Bytes × Pipe) := readAllLoop n n s

/-- `read_view`: a view of the buffer where all bytes are in it, and otherwise
of the scratch string they are gathered in. -/
def Pipe.readView (s : Pipe) (n : Nat) : Option (Bytes × Pipe) :=
  match if s.rpos = s.rend ∧ n > 0 then s.fillBuffer else some s with
  | none => none
  | some s =>
      if h : n ≤ s.rend - s.rpos then some ((s.rbuf.drop s.rpos).take n, s.skip n h)
      else s.readAll n

/-! ## `run_each` -/

/-- A call of `on_line`. -/
structure LineCall where
  index : Nat
  flag : UInt8
  key : Bytes
  deriving DecidableEq, Repr

/-- The pipe and the calls made so far. -/
structure Session where
  pipe : Pipe
  calls : List LineCall := []

/-- Read `n` bytes by one of the two functions, or end with an error. -/
def fetchOr (read : Pipe → Nat → Option (Bytes × Pipe)) (error : Bytes) (n : Nat) :
    Fallible Bytes Session Bytes :=
  Fallible.mk fun s =>
    match read s.pipe n with
    | none => (.error error, s)
    | some (bs, pipe) => (.ok bs, { s with pipe := pipe })

/-- `get_u32le`. -/
def getU32le (p : Bytes) : Nat := ByteOrder.little.get (p.take 4)

def onLine (i : Nat) (flag : UInt8) (key : Bytes) : Fallible Bytes Session Unit :=
  Fallible.mk fun s => (.ok (), { s with calls := s.calls ++ [⟨i, flag, key⟩] })

def readFailed : Bytes := ascii "normalizer read failed (coprocess died?)"

def truncatedResponse : Bytes := ascii "normalizer truncated response"

def truncatedKey : Bytes := ascii "normalizer truncated key"

/-- The loop over the lines, with `left` of them to come. -/
def runEachLoop : Nat → Nat → Fallible Bytes Session Unit
  | 0, _ => pure ()
  | left + 1, i => do
      let fields ← fetchOr Pipe.readAll truncatedResponse 5
      let flag := fields.headD 0
      let klen := getU32le (fields.drop 1)
      let key ← fetchOr Pipe.readView truncatedKey klen
      onLine i flag key
      runEachLoop left (i + 1)

/-- `run_each`, once the request is written. -/
def runEach : Fallible Bytes Session Unit := do
  let hdr ← fetchOr Pipe.readAll readFailed 4
  runEachLoop (getU32le hdr) 0

/-- `run`: the lines of a response. -/
def runLines (pipe : Pipe) : Except Bytes (List NormLine) :=
  match runEach.outcome { pipe := pipe } with
  | (.error e, _) => .error e
  | (.ok (), s) => .ok (s.calls.map fun call => { flag := call.flag, key := call.key })

/-! ## The encoding of a response -/

/-- `pack('V', n)`. -/
def packV (n : Nat) : Bytes := ByteOrder.little.put 4 n

def lineRecord (line : NormLine) : Bytes := line.flag :: (packV line.key.length ++ line.key)

/-- What `normalize` returns for its lines. -/
def encodeResponse (lines : List NormLine) : Bytes :=
  packV lines.length ++ lines.flatMap lineRecord

/-! ## What reading takes -/

theorem Pipe.length_buffered (s : Pipe) : s.buffered.length = s.rend - s.rpos := by
  have := s.rend_le
  rw [buffered, List.length_take, List.length_drop]
  omega

/-- The first buffered bytes are pending. -/
theorem Pipe.take_pending (s : Pipe) {n : Nat} (h : n ≤ s.rend - s.rpos) :
    s.pending.take n = (s.rbuf.drop s.rpos).take n := by
  rw [pending, List.take_append_of_le_length (by rwa [length_buffered]), buffered, List.take_take,
    Nat.min_eq_left h]

theorem Pipe.pending_skip (s : Pipe) {n : Nat} (h : n ≤ s.rend - s.rpos) :
    (s.skip n h).pending = s.pending.drop n := by
  rw [pending, pending, List.drop_append_of_le_length (by rwa [length_buffered]), buffered,
    buffered, List.drop_take, List.drop_drop]
  have hrest : s.rend - (s.rpos + n) = s.rend - s.rpos - n := by omega
  rw [skip, hrest]

/-- Filling brings the next bytes to the front of the buffer, or nothing comes
any more. -/
theorem fillFrom_spec {rbuf : Bytes} {hsize : rbuf.length = bufferSize} (events : List ReadEvent) :
    match fillFrom rbuf hsize events with
    | some s => s.rpos < s.rend ∧ s.pending = delivered events
    | none => delivered events = [] := by
  induction events with
  | nil => rfl
  | cons event events ih =>
      cases event with
      | interrupted => exact ih
      | failed => rfl
      | data chunk =>
          refine ⟨List.length_pos_iff.mpr chunk.nonempty, ?_⟩
          show ((overwrite 0 chunk.bytes rbuf).drop 0).take (chunk.bytes.length - 0) ++
            delivered events = chunk.bytes ++ delivered events
          rw [overwrite_start, List.drop_zero, Nat.sub_zero, List.take_left]

/-- With a refill there are buffered bytes, and what is pending stays; without,
nothing is. -/
theorem Pipe.refill_spec (s : Pipe) :
    match s.refill with
    | some t => t.rpos < t.rend ∧ t.pending = s.pending
    | none => s.pending = [] := by
  unfold refill
  by_cases hempty : s.rpos = s.rend
  · have hbuffered : s.buffered = [] := List.length_eq_zero_iff.mp (by rw [length_buffered]; omega)
    have hfill := @fillFrom_spec s.resized s.length_resized s.incoming
    rw [if_pos hempty, fillBuffer, pending, hbuffered, List.nil_append]
    exact hfill
  · rw [if_neg hempty]
    exact ⟨Nat.lt_of_le_of_ne s.rpos_le hempty, rfl⟩

/-- `n` bytes are read if there are as many, and they are the next ones. -/
def ReadsNext (read : Pipe → Nat → Option (Bytes × Pipe)) : Prop :=
  ∀ s n, match read s n with
    | some (bs, t) => n ≤ s.pending.length ∧ bs = s.pending.take n ∧ t.pending = s.pending.drop n
    | none => s.pending.length < n

theorem readAllLoop_spec (turns : Nat) {n : Nat} (h : n ≤ turns) (s : Pipe) :
    match readAllLoop turns n s with
    | some (bs, t) => n ≤ s.pending.length ∧ bs = s.pending.take n ∧ t.pending = s.pending.drop n
    | none => s.pending.length < n := by
  induction turns generalizing n s with
  | zero =>
      obtain rfl := Nat.le_zero.mp h
      exact ⟨Nat.zero_le _, rfl, rfl⟩
  | succ turns ih =>
      rw [readAllLoop]
      by_cases hn : n = 0
      · subst hn
        exact ⟨Nat.zero_le _, rfl, rfl⟩
      · rw [if_neg hn]
        have hrefill := s.refill_spec
        cases hs : s.refill with
        | none =>
            rw [hs] at hrefill
            simp only at hrefill ⊢
            rw [hrefill, List.length_nil]
            omega
        | some t =>
            rw [hs] at hrefill
            obtain ⟨hsome, hpending⟩ := hrefill
            simp only
            -- a turn takes at least one byte
            have hle : min (t.rend - t.rpos) n ≤ t.rend - t.rpos := Nat.min_le_left _ _
            have hloop := @ih (n - min (t.rend - t.rpos) n) (by omega) (t.skip _ hle)
            have hfront := t.take_pending hle
            have hlength : min (t.rend - t.rpos) n ≤ t.pending.length := by
              rw [Pipe.pending, List.length_append, Pipe.length_buffered]
              omega
            rw [t.pending_skip hle, hpending] at hloop
            rw [hpending] at hfront hlength
            cases hrest : readAllLoop turns (n - min (t.rend - t.rpos) n) (t.skip _ hle) with
            | none =>
                rw [hrest] at hloop
                simp only [List.length_drop, Option.map_none] at hloop ⊢
                omega
            | some out =>
                obtain ⟨bs, u⟩ := out
                rw [hrest] at hloop
                obtain ⟨hmany, rfl, hleft⟩ := hloop
                rw [List.length_drop] at hmany
                refine ⟨by omega, ?_, ?_⟩
                · rw [← hfront, ← List.take_add, Nat.add_sub_cancel' (Nat.min_le_right _ _)]
                · rw [hleft, List.drop_drop, Nat.add_sub_cancel' (Nat.min_le_right _ _)]

theorem readAll_spec : ReadsNext Pipe.readAll := fun s n => readAllLoop_spec n (Nat.le_refl n) s

theorem readView_spec : ReadsNext Pipe.readView := by
  intro s n
  unfold Pipe.readView
  -- a view of no bytes needs no refill
  have hrefill : match if s.rpos = s.rend ∧ n > 0 then s.fillBuffer else some s with
      | some t => t.pending = s.pending
      | none => s.pending = [] ∧ 0 < n := by
    by_cases hfill : s.rpos = s.rend ∧ n > 0
    · have hspec := s.refill_spec
      rw [Pipe.refill, if_pos hfill.1] at hspec
      rw [if_pos hfill]
      cases hs : s.fillBuffer with
      | none =>
          rw [hs] at hspec
          exact ⟨hspec, hfill.2⟩
      | some t =>
          rw [hs] at hspec
          exact hspec.2
    · rw [if_neg hfill]
  generalize (if s.rpos = s.rend ∧ n > 0 then s.fillBuffer else some s) = filled at hrefill ⊢
  cases filled with
  | none =>
      simp only at hrefill ⊢
      rw [hrefill.1]
      exact hrefill.2
  | some t =>
      simp only at hrefill ⊢
      rw [← hrefill]
      by_cases hall : n ≤ t.rend - t.rpos
      · rw [dif_pos hall]
        refine ⟨?_, (t.take_pending hall).symm, t.pending_skip hall⟩
        rw [Pipe.pending, List.length_append, Pipe.length_buffered]
        omega
      · rw [dif_neg hall]
        exact readAll_spec t n

end Phpatcher.Tools
