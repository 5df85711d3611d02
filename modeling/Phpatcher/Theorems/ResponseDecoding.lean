import Phpatcher.Tools.NormalizerPipe

/-!
# The response of the normalizer, however it arrives

`run_each` makes one call for each line of a response and leaves what follows
it, for every way the bytes are split over calls of `read()`; of a response that
ends early it delivers whole lines and ends with an error (`response_decoded`).
Counts and lengths have 32 bits on the wire: a longer key is not delivered
(`long_key_lost`).
-/

namespace Phpatcher.Theorems

open Phpatcher.Basis Phpatcher.Core Phpatcher.Tools

/-- The lines a response can carry. -/
structure Carried (lines : List NormLine) : Prop where
  count : lines.length < 4294967296
  keys : ∀ line ∈ lines, line.key.length < 4294967296

/-- The calls for some lines, the first one with index `i`. -/
def callsOf (i : Nat) (lines : List NormLine) : List LineCall :=
  (lines.zipIdx i).map fun (line, j) => ⟨j, line.flag, line.key⟩

/-- Of a response, whatever follows it, every line is delivered, and what
follows is left. -/
def Delivers (lines : List NormLine) : Prop :=
  ∀ (s : Session) (rest : Bytes), s.pipe.pending = encodeResponse lines ++ rest →
    ∃ t, runEach.outcome s = (.ok (), t) ∧ t.calls = s.calls ++ callsOf 0 lines ∧
      t.pipe.pending = rest

/-- Of a response that ends early the first lines are delivered, and the
process ends with an error. -/
def EndsInError (lines : List NormLine) : Prop :=
  ∀ (s : Session) (missing : Bytes), missing ≠ [] → s.pipe.pending ++ missing = encodeResponse lines →
    ∃ error ∈ [readFailed, truncatedResponse, truncatedKey], ∃ t k,
      runEach.outcome s = (.error error, t) ∧ t.calls = s.calls ++ callsOf 0 (lines.take k)

/-! ## One read -/

theorem fetchOr_ok {read : Pipe → Nat → Option (Bytes × Pipe)} (hread : ReadsNext read)
    (error : Bytes) {s : Session} {bs rest : Bytes} (h : s.pipe.pending = bs ++ rest) :
    ∃ pipe, (fetchOr read error bs.length).outcome s = (.ok bs, { s with pipe := pipe }) ∧
      pipe.pending = rest := by
  have hspec := hread s.pipe bs.length
  rw [h, List.take_left, List.drop_left, List.length_append] at hspec
  rw [fetchOr, Fallible.outcome_mk]
  cases hout : read s.pipe bs.length with
  | none =>
      rw [hout] at hspec
      simp only at hspec
      omega
  | some out =>
      obtain ⟨bs', pipe⟩ := out
      rw [hout] at hspec
      obtain ⟨_, rfl, hrest⟩ := hspec
      exact ⟨pipe, rfl, hrest⟩

theorem fetchOr_short {read : Pipe → Nat → Option (Bytes × Pipe)} (hread : ReadsNext read)
    (error : Bytes) {s : Session} {n : Nat} (h : s.pipe.pending.length < n) :
    (fetchOr read error n).outcome s = (.error error, s) := by
  have hspec := hread s.pipe n
  rw [fetchOr, Fallible.outcome_mk]
  cases hout : read s.pipe n with
  | none => rfl
  | some out =>
      rw [hout] at hspec
      have := hspec.1
      omega

theorem length_packV (n : Nat) : (packV n).length = 4 := ByteOrder.length_put _ _ _

theorem getU32le_packV {n : Nat} (h : n < 4294967296) : getU32le (packV n) = n := by
  rw [getU32le, List.take_of_length_le (by rw [length_packV]), packV, ByteOrder.get_put]
  exact Nat.mod_eq_of_lt h

/-! ## The lines -/

/-- The flag and the length of a line. -/
def lineFields (line : NormLine) : Bytes := line.flag :: packV line.key.length

theorem length_lineFields (line : NormLine) : (lineFields line).length = 5 := by
  rw [lineFields, List.length_cons, length_packV]

theorem lineRecord_eq (line : NormLine) : lineRecord line = lineFields line ++ line.key := rfl

/-- A turn of the loop from the fields of a line on. -/
theorem runEachLoop_fields {line : NormLine} (hkey : line.key.length < 4294967296) (left i : Nat)
    {s : Session} {rest : Bytes} (h : s.pipe.pending = lineFields line ++ rest) :
    ∃ pipe, pipe.pending = rest ∧
      (runEachLoop (left + 1) i).outcome s =
        (do
          let key ← fetchOr Pipe.readView truncatedKey line.key.length
          onLine i line.flag key
          runEachLoop left (i + 1) : Fallible Bytes Session Unit).outcome { s with pipe := pipe } := by
  obtain ⟨pipe, hfetch, hrest⟩ := fetchOr_ok readAll_spec truncatedResponse h
  rw [length_lineFields] at hfetch
  refine ⟨pipe, hrest, ?_⟩
  rw [runEachLoop, Fallible.outcome_bind, hfetch]
  show Fallible.outcome (fetchOr Pipe.readView truncatedKey
    (getU32le (packV line.key.length)) >>= _) _ = _
  rw [getU32le_packV hkey]
  rfl

/-- A turn for a line that is there. -/
theorem runEachLoop_line {line : NormLine} (hkey : line.key.length < 4294967296) (left i : Nat)
    {s : Session} {rest : Bytes} (h : s.pipe.pending = lineRecord line ++ rest) :
    ∃ pipe, pipe.pending = rest ∧ (runEachLoop (left + 1) i).outcome s =
      (runEachLoop left (i + 1)).outcome ⟨pipe, s.calls ++ [⟨i, line.flag, line.key⟩]⟩ := by
  rw [lineRecord_eq, List.append_assoc] at h
  obtain ⟨pipe, hpipe, hturn⟩ := runEachLoop_fields hkey left i h
  obtain ⟨pipe', hfetch, hrest⟩ :=
    @fetchOr_ok _ readView_spec truncatedKey { s with pipe := pipe } _ _ hpipe
  refine ⟨pipe', hrest, ?_⟩
  rw [hturn, Fallible.outcome_bind, hfetch]
  rfl

theorem callsOf_cons (i : Nat) (line : NormLine) (lines : List NormLine) :
    callsOf i (line :: lines) = ⟨i, line.flag, line.key⟩ :: callsOf (i + 1) lines := by
  rw [callsOf, List.zipIdx_cons, List.map_cons]
  rfl

theorem runEachLoop_ok {lines : List NormLine}
    (hkeys : ∀ line ∈ lines, line.key.length < 4294967296) (i : Nat) {s : Session} {rest : Bytes}
    (h : s.pipe.pending = lines.flatMap lineRecord ++ rest) :
    ∃ pipe, pipe.pending = rest ∧ (runEachLoop lines.length i).outcome s =
      (.ok (), ⟨pipe, s.calls ++ callsOf i lines⟩) := by
  induction lines generalizing i s with
  | nil =>
      refine ⟨s.pipe, h, ?_⟩
      rw [callsOf, List.zipIdx_nil, List.map_nil, List.append_nil]
      rfl
  | cons line lines ih =>
      rw [List.forall_mem_cons] at hkeys
      rw [List.flatMap_cons, List.append_assoc] at h
      obtain ⟨pipe, hpipe, hturn⟩ := runEachLoop_line hkeys.1 lines.length i h
      obtain ⟨pipe', hrest, hloop⟩ :=
        @ih hkeys.2 (i + 1) ⟨pipe, s.calls ++ [⟨i, line.flag, line.key⟩]⟩ hpipe
      refine ⟨pipe', hrest, ?_⟩
      rw [List.length_cons, hturn, hloop, callsOf_cons, List.append_assoc, List.singleton_append]

/-- A part that begins with another one, which is not longer. -/
theorem behind_of_append {a b c d : Bytes} (h : a ++ b = c ++ d) (hle : c.length ≤ a.length) :
    ∃ behind, a = c ++ behind ∧ behind ++ b = d := by
  have hprefix : c <+: a :=
    List.prefix_of_prefix_length_le ⟨d, h.symm⟩ (List.prefix_append a b) hle
  obtain ⟨behind, rfl⟩ := hprefix
  rw [List.append_assoc] at h
  exact ⟨behind, rfl, List.append_cancel_left h⟩

/-- The stream ends in the fields of a line, in its key, or later. -/
theorem runEachLoop_short {lines : List NormLine}
    (hkeys : ∀ line ∈ lines, line.key.length < 4294967296) (i : Nat) {s : Session}
    {missing : Bytes} (hmissing : missing ≠ [])
    (h : s.pipe.pending ++ missing = lines.flatMap lineRecord) :
    ∃ error ∈ [truncatedResponse, truncatedKey], ∃ t k,
      (runEachLoop lines.length i).outcome s = (.error error, t) ∧
        t.calls = s.calls ++ callsOf i (lines.take k) := by
  induction lines generalizing i s with
  | nil => exact absurd (List.append_eq_nil_iff.mp h).2 hmissing
  | cons line lines ih =>
      rw [List.forall_mem_cons] at hkeys
      rw [List.flatMap_cons, lineRecord_eq, List.append_assoc] at h
      have hnone : s.calls = s.calls ++ callsOf i ((line :: lines).take 0) := by simp [callsOf]
      by_cases hfields : s.pipe.pending.length < 5
      · refine ⟨truncatedResponse, by simp, s, 0, ?_, hnone⟩
        rw [List.length_cons, runEachLoop, Fallible.outcome_bind,
          fetchOr_short readAll_spec truncatedResponse hfields]
      · obtain ⟨behind, hpending, hbehind⟩ :=
          behind_of_append h (by rw [length_lineFields]; omega)
        obtain ⟨pipe, hpipe, hturn⟩ := runEachLoop_fields hkeys.1 lines.length i hpending
        by_cases hkey : behind.length < line.key.length
        · refine ⟨truncatedKey, by simp, { s with pipe := pipe }, 0, ?_, hnone⟩
          rw [List.length_cons, hturn, Fallible.outcome_bind,
            fetchOr_short readView_spec truncatedKey (by rw [hpipe]; exact hkey)]
        · obtain ⟨later, rfl, hlater⟩ := behind_of_append hbehind (by omega)
          rw [← List.append_assoc, ← lineRecord_eq] at hpending
          obtain ⟨pipe', hpipe', hline⟩ := runEachLoop_line hkeys.1 lines.length i hpending
          obtain ⟨error, herror, t, k, hloop, hcalls⟩ := @ih hkeys.2 (i + 1)
            ⟨pipe', s.calls ++ [⟨i, line.flag, line.key⟩]⟩ (by rw [hpipe']; exact hlater)
          refine ⟨error, herror, t, k + 1, ?_, ?_⟩
          · rw [List.length_cons, hline, hloop]
          · rw [hcalls, List.take_succ_cons, callsOf_cons, List.append_assoc,
              List.singleton_append]

/-! ## The response -/

theorem delivers_of_carried {lines : List NormLine} (h : Carried lines) : Delivers lines := by
  intro s rest hpending
  rw [encodeResponse, List.append_assoc] at hpending
  obtain ⟨pipe, hfetch, hlines⟩ := fetchOr_ok readAll_spec readFailed hpending
  obtain ⟨pipe', hrest, hloop⟩ :=
    @runEachLoop_ok lines h.keys 0 { s with pipe := pipe } rest hlines
  rw [length_packV] at hfetch
  refine ⟨⟨pipe', s.calls ++ callsOf 0 lines⟩, ?_, rfl, hrest⟩
  rw [runEach, Fallible.outcome_bind, hfetch]
  simp only
  rw [getU32le_packV h.count, hloop]

theorem endsInError_of_carried {lines : List NormLine} (h : Carried lines) :
    EndsInError lines := by
  intro s missing hmissing hpending
  rw [encodeResponse] at hpending
  by_cases hcount : s.pipe.pending.length < 4
  · refine ⟨readFailed, by simp, s, 0, ?_, by simp [callsOf]⟩
    rw [runEach, Fallible.outcome_bind, fetchOr_short readAll_spec readFailed hcount]
  · obtain ⟨behind, hfront, hbehind⟩ := behind_of_append hpending (by rw [length_packV]; omega)
    obtain ⟨pipe, hfetch, hlines⟩ := fetchOr_ok readAll_spec readFailed hfront
    rw [length_packV] at hfetch
    obtain ⟨error, herror, t, k, hloop, hcalls⟩ :=
      @runEachLoop_short lines h.keys 0 { s with pipe := pipe } missing hmissing
        (by rw [hlines]; exact hbehind)
    refine ⟨error, List.mem_cons_of_mem _ herror, t, k, ?_, hcalls⟩
    rw [runEach, Fallible.outcome_bind, hfetch]
    simp only
    rw [getU32le_packV h.count, hloop]

/-- **The response decodes however it arrives.** -/
theorem response_decoded (lines : List NormLine) (h : Carried lines) :
    Delivers lines ∧ EndsInError lines :=
  ⟨delivers_of_carried h, endsInError_of_carried h⟩

/-- One line, cut in its length and in its key. -/
theorem response_decoded_cut :
    let line : NormLine := { key := ascii "echo 1 ;" }
    let chunks : List ReadEvent :=
      [.data ⟨(encodeResponse [line]).take 6, by decide, by decide⟩, .interrupted,
        .data ⟨((encodeResponse [line]).drop 6).take 5, by decide, by decide⟩,
        .data ⟨(encodeResponse [line]).drop 11, by decide, by decide⟩]
    ∃ t, runEach.outcome { pipe := { incoming := chunks } } = (.ok (), t) ∧
      t.calls = [⟨0, 0, ascii "echo 1 ;"⟩] ∧ t.pipe.pending = [] := by
  intro line chunks
  exact (response_decoded [line] ⟨by decide, by decide⟩).1 { pipe := { incoming := chunks } } []
    (by decide)

/-- What `run` returns are the lines the normalizer made. -/
theorem runLines_encoded {lines : List NormLine} (h : Carried lines) {pipe : Pipe}
    (hpipe : pipe.pending = encodeResponse lines) : runLines pipe = .ok lines := by
  obtain ⟨t, hrun, hcalls, _⟩ := delivers_of_carried h { pipe := pipe } [] (by simpa using hpipe)
  have hback : (callsOf 0 lines).map (fun call => NormLine.mk call.flag call.key) = lines := by
    rw [callsOf, List.map_map]
    exact List.zipIdx_map_fst 0 lines
  rw [runLines, hrun]
  simp only [hcalls, List.nil_append, hback]

/-! ## A key that is too long -/

/-- A byte string in chunks. -/
theorem exists_chunks (bs : Bytes) : ∃ events, delivered events = bs := by
  induction bs with
  | nil => exact ⟨[], rfl⟩
  | cons b bs ih =>
      obtain ⟨events, rfl⟩ := ih
      exact ⟨.data ⟨[b], by simp, by simp [bufferSize]⟩ :: events, rfl⟩

/-- The length of a key of `2^32` bytes is 0 on the wire. -/
theorem encode_long (key : Bytes) (h : key.length = 4294967296) :
    encodeResponse [{ key := key }] = encodeResponse [{ key := [] }] ++ key := by
  have hwrap : packV 4294967296 = packV 0 := by decide
  simp [encodeResponse, lineRecord, h, hwrap]

theorem long_key_lost : ¬ ∀ lines, Delivers lines ∧ EndsInError lines := by
  intro h
  obtain ⟨key, hkey⟩ : ∃ key : Bytes, key.length = 4294967296 :=
    ⟨List.replicate 4294967296 0, List.length_replicate⟩
  obtain ⟨events, hevents⟩ := exists_chunks (encodeResponse [{ key := key }])
  have hpending : Pipe.pending { incoming := events } = encodeResponse [{ key := key }] := hevents
  obtain ⟨t, hrun, hcalls, _⟩ := (h [{ key := key }]).1 { pipe := { incoming := events } } []
    (by rw [List.append_nil]; exact hpending)
  -- the same bytes are a response with an empty key
  obtain ⟨t', hrun', hcalls', _⟩ := delivers_of_carried
    (⟨by decide, by decide⟩ : Carried [{ key := [] }]) { pipe := { incoming := events } } key
    (by rw [← encode_long key hkey]; exact hpending)
  obtain rfl : t = t' := by
    rw [hrun] at hrun'
    exact (Prod.mk.inj hrun').2
  rw [hcalls] at hcalls'
  have hempty : key = [] := by simpa [callsOf] using hcalls'
  rw [hempty] at hkey
  simp at hkey

end Phpatcher.Theorems
