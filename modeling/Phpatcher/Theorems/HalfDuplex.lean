import Phpatcher.Theorems.ResponseDecoding
import Phpatcher.Tools.Coprocess

/-!
# The protocol of the normalizer is half-duplex

Between two requests nothing is under way and nothing is left in the read buffer
(`half_duplex`), so the response to a request is made of what `read()` returns
after it, and of nothing else. Whatever happens to the coprocess, the calls of
`on_line` are those of the lines it found, up to the place where it stopped.

The invariant is `Consistent`. `Asked` says how far the script is with the last
request, and what of the response it has still to write.
-/

namespace Phpatcher.Theorems

open Phpatcher.Basis Phpatcher.Core Phpatcher.Tools

/-- The calls of `on_line` for a content. -/
def answer (respond : Bytes → List NormLine) (content : Bytes) : List LineCall :=
  callsOf 0 (respond content)

/-- A content and its response, with lengths that the protocol can carry. -/
structure Fits (respond : Bytes → List NormLine) (content : Bytes) : Prop where
  length : content.length < 4294967296
  carried : Carried (respond content)

/-- A request, if it is one, is for a content that fits. -/
def Fitting (respond : Bytes → List NormLine) : PipeEvent → Prop
  | .request content => Fits respond content
  | _ => True

/-- The runs in which every content fits. -/
def fittingRuns (respond : Bytes → List NormLine) (m n : Nat) :
    Transition (Coprocess m n) PipeEvent :=
  (coprocess respond m n).restrict (fun _ => True) fun _ e _ => Fitting respond e

variable {respond : Bytes → List NormLine} {m n : Nat}

/-! ## The script and a request -/

/-- Where the script is in a request for `c`, after requests for `past`: of the
request some bytes are under way to it, and `rest` is not yet written; of the
response it has `out` to write. -/
inductive Asked (respond : Bytes → List NormLine) (past : List Bytes) (c : Bytes) :
    Script → Bytes → Bytes → List Bytes → Bytes → Prop
  | header {buf toChild rest} (hlen : buf.length < 4)
      (hbytes : buf ++ toChild ++ rest = requestOf c) :
      Asked respond past c (.header buf) toChild rest past (encodeResponse (respond c))
  | body {buf toChild rest} (hlen : buf.length < c.length) (hbytes : buf ++ toChild ++ rest = c) :
      Asked respond past c (.body c.length buf) toChild rest past (encodeResponse (respond c))
  | answering {out} (hout : out ≠ []) :
      Asked respond past c (.answering out) [] [] (past ++ [c]) out
  | answered : Asked respond past c (.header []) [] [] (past ++ [c]) []
  | died {toChild rest} :
      Asked respond past c .exited toChild rest past (encodeResponse (respond c))
  | diedLate {out} : Asked respond past c .exited [] [] (past ++ [c]) out

variable {past : List Bytes} {c rest out : Bytes} {s s' : Coprocess m n}

theorem encodeResponse_ne_nil (lines : List NormLine) : encodeResponse lines ≠ [] := by
  intro h
  have hlen := congrArg List.length h
  rw [encodeResponse, List.length_append, length_packV, List.length_nil] at hlen
  omega

theorem length_putU32le (k : Nat) : (putU32le k).length = 4 := ByteOrder.length_put _ _ _

/-- The tool has written some more of the request. -/
theorem Asked.write {script : Script} {toChild bs : Bytes} {normalized : List Bytes}
    (h : Asked respond past c script toChild (bs ++ rest) normalized out) (hbs : bs ≠ []) :
    Asked respond past c script (toChild ++ bs) rest normalized out := by
  generalize hall : bs ++ rest = all at h
  have hne : all ≠ [] := by
    rintro rfl
    exact hbs (List.append_eq_nil_iff.mp hall).1
  cases h with
  | header hlen hbytes =>
      refine .header hlen ?_
      rw [← hbytes, ← hall]
      simp only [List.append_assoc]
  | body hlen hbytes =>
      refine .body hlen ?_
      rw [← hbytes, ← hall]
      simp only [List.append_assoc]
  | died => exact .died
  | answering | answered | diedLate => exact absurd rfl hne

/-- The script has `buf` of the content. -/
theorem asked_gotBody {buf toChild : Bytes} (hnormalized : s.normalized = past)
    (hbytes : buf ++ toChild ++ rest = c) :
    ∃ script normalized,
      s.gotBody respond c.length buf = { s with script := script, normalized := normalized } ∧
        Asked respond past c script toChild rest normalized (encodeResponse (respond c)) := by
  unfold Coprocess.gotBody
  split
  next hlen => exact ⟨_, s.normalized, rfl, hnormalized ▸ .body hlen hbytes⟩
  next hlen =>
    -- all of the content is there, so nothing is under way
    have hall := congrArg List.length hbytes
    rw [List.length_append, List.length_append] at hall
    obtain rfl : toChild = [] := List.length_eq_zero_iff.mp (by omega)
    obtain rfl : rest = [] := List.length_eq_zero_iff.mp (by omega)
    obtain rfl : buf = c := by simpa using hbytes
    exact ⟨_, _, rfl, hnormalized ▸ .answering (encodeResponse_ne_nil _)⟩

/-- The script has `buf` of the request. -/
theorem asked_gotHeader {buf toChild : Bytes} (hc : c.length < 4294967296)
    (hnormalized : s.normalized = past) (hlen : buf.length ≤ 4)
    (hbytes : buf ++ toChild ++ rest = requestOf c) :
    ∃ script normalized,
      s.gotHeader respond buf = { s with script := script, normalized := normalized } ∧
        Asked respond past c script toChild rest normalized (encodeResponse (respond c)) := by
  unfold Coprocess.gotHeader
  split
  next hshort => exact ⟨_, s.normalized, rfl, hnormalized ▸ .header hshort hbytes⟩
  next hfull =>
    rw [requestOf, List.append_assoc] at hbytes
    obtain ⟨rfl, hrest⟩ := List.append_inj hbytes (by rw [length_putU32le]; omega)
    have hnumber : getU32le (putU32le c.length) = c.length := getU32le_packV hc
    rw [hnumber]
    exact asked_gotBody hnormalized (by rw [List.nil_append]; exact hrest)

/-- A script in the header of the request, or behind its answer. -/
theorem Asked.of_header {script : Script} {buf toChild : Bytes} {normalized : List Bytes}
    (h : Asked respond past c script toChild rest normalized out) (hscript : script = .header buf) :
    (buf ++ toChild ++ rest = requestOf c ∧ normalized = past ∧
        out = encodeResponse (respond c)) ∨
      (buf = [] ∧ toChild = [] ∧ rest = [] ∧ normalized = past ++ [c] ∧ out = []) := by
  cases h with
  | header _ hbytes => exact .inl ⟨Script.header.inj hscript ▸ hbytes, rfl, rfl⟩
  | answered => exact .inr ⟨(Script.header.inj hscript).symm, rfl, rfl, rfl, rfl⟩
  | body | answering | died | diedLate => cases hscript

theorem Asked.of_body {script : Script} {len : Nat} {buf toChild : Bytes}
    {normalized : List Bytes} (h : Asked respond past c script toChild rest normalized out)
    (hscript : script = .body len buf) :
    len = c.length ∧ buf ++ toChild ++ rest = c ∧ normalized = past ∧
      out = encodeResponse (respond c) := by
  cases h with
  | body _ hbytes =>
      obtain ⟨rfl, rfl⟩ := Script.body.inj hscript
      exact ⟨rfl, hbytes, rfl, rfl⟩
  | header | answering | answered | died | diedLate => cases hscript

/-- The script reads some of the request. -/
theorem Asked.reads (h : Asked respond past c s.script s.toChild.items rest s.normalized out)
    (hc : c.length < 4294967296) (hstep : Coprocess.Step respond s .scriptReads s') :
    ∃ channel script normalized bs,
      s' = { s with toChild := channel, script := script, normalized := normalized } ∧
        s.toChild.Took bs channel ∧
        Asked respond past c script channel.items rest normalized out := by
  cases hstep with
  | readsHeader hscript hlen htook =>
      rename_i buf bs channel
      rcases h.of_header hscript with ⟨hbytes, hnormalized, rfl⟩ | ⟨_, hempty, _⟩
      · rw [htook.2, ← List.append_assoc] at hbytes
        obtain ⟨script, normalized, hs, hasked⟩ :=
          @asked_gotHeader respond _ _ past c rest { s with toChild := channel } (buf ++ bs)
            channel.items hc hnormalized hlen hbytes
        exact ⟨channel, script, normalized, bs, hs, htook, hasked⟩
      · rw [htook.2] at hempty
        exact absurd (List.append_eq_nil_iff.mp hempty).1 htook.1
  | readsBody hscript hlen htook =>
      rename_i len buf bs channel
      obtain ⟨rfl, hbytes, hnormalized, rfl⟩ := h.of_body hscript
      rw [htook.2, ← List.append_assoc] at hbytes
      obtain ⟨script, normalized, hs, hasked⟩ :=
        @asked_gotBody respond _ _ past c rest { s with toChild := channel } (buf ++ bs)
          channel.items hnormalized hbytes
      exact ⟨channel, script, normalized, bs, hs, htook, hasked⟩

/-- A script in `fwrite` has read all of the request. -/
theorem Asked.of_answering {script : Script} {toChild all : Bytes} {normalized : List Bytes}
    (h : Asked respond past c script toChild rest normalized out)
    (hscript : script = .answering all) :
    all = out ∧ toChild = [] ∧ rest = [] ∧ normalized = past ++ [c] := by
  cases h with
  | answering => exact ⟨(Script.answering.inj hscript).symm, rfl, rfl, rfl⟩
  | header | body | answered | died | diedLate => cases hscript

/-- The script has written some more of the response. -/
theorem asked_gave (respond : Bytes → List NormLine) (past : List Bytes) (c out : Bytes) :
    Asked respond past c (if out = [] then .header [] else .answering out) [] [] (past ++ [c])
      out := by
  split
  next hdone =>
    subst hdone
    exact .answered
  next hmore => exact .answering hmore

theorem Asked.dies {script : Script} {toChild : Bytes} {normalized : List Bytes}
    (h : Asked respond past c script toChild rest normalized out) :
    Asked respond past c .exited toChild rest normalized out := by
  cases h with
  | header | body | died => exact .died
  | answering | answered | diedLate => exact .diedLate

/-! ## The tool and a response -/

/-- With all of the response `run_each` returns; with less it is in `read()`, or
at its end when there is no more. -/
theorem proceed_cases (hc : Carried (respond c)) {missing : Bytes}
    (h : s.pipe.pending ++ missing = encodeResponse (respond c))
    (blocked : Bytes → List LineCall → Tool) :
    (missing = [] ∧ ∃ pipe, pipe.pending = [] ∧ pipe.incoming = [] ∧
        s.proceed blocked =
          { s with tool := .idle, pipe := pipe, finished := s.finished ++ [answer respond c] }) ∨
      (missing ≠ [] ∧ ∃ error k,
        s.proceed blocked =
          { s with tool := blocked error (callsOf 0 ((respond c).take k)) }) := by
  unfold Coprocess.proceed
  by_cases hmissing : missing = []
  · rw [hmissing, List.append_nil] at h
    obtain ⟨t, hrun, hcalls, hpending⟩ :=
      delivers_of_carried hc { pipe := s.pipe } [] (by rw [List.append_nil]; exact h)
    refine .inl ⟨hmissing, t.pipe.drained, Pipe.pending_drained hpending, rfl, ?_⟩
    rw [hrun]
    simp only [hcalls, List.nil_append]
    rfl
  · obtain ⟨error, _, t, k, hrun, hcalls⟩ :=
      endsInError_of_carried hc { pipe := s.pipe } missing hmissing h
    refine .inr ⟨hmissing, error, k, ?_⟩
    rw [hrun]
    simp only [hcalls, List.nil_append]

/-! ## The invariant -/

/-- Where the tool is in a request of which `rest` is not yet written. -/
def InRequest (respond : Bytes → List NormLine) (c rest : Bytes) (s : Coprocess m n) : Prop :=
  s.tool = .writing rest ∧ rest ≠ [] ∨
    s.tool = .reading ∧ rest = [] ∧ s.pipe.pending ≠ encodeResponse (respond c)

/-- What holds of every state: the requests before the last one are answered, and
what has come of its response, what is under way and what the script has to write
make the whole. -/
inductive Consistent (respond : Bytes → List NormLine) (s : Coprocess m n) : Prop
  | between (htool : s.tool = .idle ∨ s.tool = .closed)
      (hscript : s.script = .header [] ∨ s.script = .exited)
      (hto : s.toChild.items = []) (hfrom : s.fromChild.items = [])
      (hpending : s.pipe.pending = []) (hincoming : s.pipe.incoming = [])
      (hfinished : s.finished = s.requested.map (answer respond))
      (hnormalized : s.normalized = s.requested)
  | serving {past : List Bytes} {c rest out : Bytes} (htool : InRequest respond c rest s)
      (hfits : Fits respond c) (hclean : .failed ∉ s.pipe.incoming)
      (hrequested : s.requested = past ++ [c]) (hfinished : s.finished = past.map (answer respond))
      (hasked : Asked respond past c s.script s.toChild.items rest s.normalized out)
      (hresponse : s.pipe.pending ++ s.fromChild.items ++ out = encodeResponse (respond c))
  | stopped {past : List Bytes} {c rest out : Bytes} {error : Option Bytes} {k : Nat}
      (htool : s.tool = .ended error (callsOf 0 ((respond c).take k))) (hfits : Fits respond c)
      (hrequested : s.requested = past ++ [c]) (hfinished : s.finished = past.map (answer respond))
      (hasked : Asked respond past c s.script s.toChild.items rest s.normalized out)

/-- When the response is written, so is the request read. -/
theorem Asked.of_nil {script : Script} {toChild : Bytes} {normalized : List Bytes}
    (h : Asked respond past c script toChild rest normalized out) (hout : out = []) :
    (script = .header [] ∨ script = .exited) ∧ toChild = [] ∧ normalized = past ++ [c] := by
  cases h with
  | header | body | died => exact absurd hout (encodeResponse_ne_nil _)
  | answering hne => exact absurd hout hne
  | answered => exact ⟨.inl rfl, rfl, rfl⟩
  | diedLate => exact ⟨.inr rfl, rfl, rfl⟩

/-- Before the request is written, nothing of the response is. -/
theorem Asked.of_rest {script : Script} {toChild : Bytes} {normalized : List Bytes}
    (h : Asked respond past c script toChild rest normalized out) (hrest : rest ≠ []) :
    out = encodeResponse (respond c) := by
  cases h with
  | header | body | died => rfl
  | answering | answered | diedLate => exact absurd rfl hrest

/-- The request is written, and `read()` has returned some of the response. -/
theorem Consistent.resume (hfits : Fits respond c) (hclean : .failed ∉ s.pipe.incoming)
    (hrequested : s.requested = past ++ [c]) (hfinished : s.finished = past.map (answer respond))
    (hasked : Asked respond past c s.script s.toChild.items [] s.normalized out)
    (hresponse : s.pipe.pending ++ s.fromChild.items ++ out = encodeResponse (respond c)) :
    Consistent respond s.resume := by
  unfold Coprocess.resume
  have hwhole := hresponse
  rw [List.append_assoc] at hwhole
  rcases proceed_cases hfits.carried hwhole fun _ _ => .reading with
    ⟨hmissing, pipe, hpending, hincoming, hs⟩ | ⟨hmissing, error, k, hs⟩
  · obtain ⟨hfrom, hout⟩ := List.append_eq_nil_iff.mp hmissing
    obtain ⟨hscript, hto, hnormalized⟩ := hasked.of_nil hout
    rw [hs]
    refine .between (.inl rfl) hscript hto hfrom hpending hincoming ?_ ?_
    · rw [hrequested, hfinished, List.map_append]
      rfl
    · rw [hrequested, hnormalized]
  · rw [hs]
    refine .serving (.inr ⟨rfl, rfl, ?_⟩) hfits hclean hrequested hfinished hasked hresponse
    intro hall
    rw [hall] at hwhole
    exact hmissing (List.append_right_eq_self.mp hwhole)

/-- `read()` has returned for the last time, and not all of the response is
there. -/
theorem Consistent.giveUp (hfits : Fits respond c)
    (hrequested : s.requested = past ++ [c]) (hfinished : s.finished = past.map (answer respond))
    (hasked : Asked respond past c s.script s.toChild.items rest s.normalized out)
    {missing : Bytes} (hresponse : s.pipe.pending ++ missing = encodeResponse (respond c))
    (hopen : s.pipe.pending ≠ encodeResponse (respond c)) :
    Consistent respond s.giveUp := by
  unfold Coprocess.giveUp
  rcases proceed_cases hfits.carried hresponse fun error calls => .ended (some error) calls with
    ⟨hmissing, _⟩ | ⟨_, error, k, hs⟩
  · rw [hmissing, List.append_nil] at hresponse
    exact absurd hresponse hopen
  · rw [hs]
    exact .stopped rfl hfits hrequested hfinished hasked

/-! ## The steps -/

/-- In `write_all` -/
theorem Consistent.of_writing (h : Consistent respond s) (htool : s.tool = .writing rest) :
    rest ≠ [] ∧ ∃ past c, Fits respond c ∧ .failed ∉ s.pipe.incoming ∧
      s.requested = past ++ [c] ∧ s.finished = past.map (answer respond) ∧
      Asked respond past c s.script s.toChild.items rest s.normalized
        (encodeResponse (respond c)) ∧
      s.pipe.pending ++ s.fromChild.items = [] := by
  cases h with
  | between hout => rcases hout with hidle | hclosed <;> simp_all
  | stopped hended => simp_all
  | serving hin hfits hclean hrequested hfinished hasked hresponse =>
      rcases hin with ⟨hwriting, hne⟩ | ⟨hreading, _⟩
      · obtain rfl := Tool.writing.inj (htool.symm.trans hwriting)
        obtain rfl := hasked.of_rest hne
        refine ⟨hne, _, _, hfits, hclean, hrequested, hfinished, hasked, ?_⟩
        exact List.append_left_eq_self.mp hresponse
      · rw [htool] at hreading
        cases hreading

/-- In `fill_buffer` -/
theorem Consistent.of_reading (h : Consistent respond s) (htool : s.tool = .reading) :
    ∃ past c out, Fits respond c ∧ .failed ∉ s.pipe.incoming ∧
      s.requested = past ++ [c] ∧ s.finished = past.map (answer respond) ∧
      Asked respond past c s.script s.toChild.items [] s.normalized out ∧
      s.pipe.pending ++ s.fromChild.items ++ out = encodeResponse (respond c) ∧
      s.pipe.pending ≠ encodeResponse (respond c) := by
  cases h with
  | between hout => rcases hout with hidle | hclosed <;> simp_all
  | stopped hended => simp_all
  | serving hin hfits hclean hrequested hfinished hasked hresponse =>
      rcases hin with ⟨hwriting, _⟩ | ⟨_, rfl, hopen⟩
      · rw [htool] at hwriting
        cases hwriting
      · exact ⟨_, _, _, hfits, hclean, hrequested, hfinished, hasked, hresponse, hopen⟩

theorem requestOf_ne_nil (content : Bytes) : requestOf content ≠ [] := by
  intro h
  have hlen := congrArg List.length h
  rw [requestOf, List.length_append, length_putU32le, List.length_nil] at hlen
  omega

/-- A new request. -/
theorem Consistent.request {content : Bytes} (h : Consistent respond s) (htool : s.tool = .idle)
    (hfits : Fits respond content) :
    Consistent respond
      { s with
        tool := .writing (requestOf content)
        requested := s.requested ++ [content] } := by
  cases h with
  | between _ hscript hto hfrom hpending hincoming hfinished hnormalized =>
      refine @Consistent.serving _ _ _ _ s.requested content (requestOf content)
        (encodeResponse (respond content)) (.inl ⟨rfl, requestOf_ne_nil content⟩) hfits ?_ rfl
        hfinished ?_ ?_
      · rw [hincoming]
        exact List.not_mem_nil
      · show Asked respond s.requested content s.script s.toChild.items _ s.normalized _
        rw [hnormalized, hto]
        rcases hscript with hheader | hexited
        · rw [hheader]
          exact .header (by decide) rfl
        · rw [hexited]
          exact .died
      · show s.pipe.pending ++ s.fromChild.items ++ _ = _
        rw [hpending, hfrom]
        rfl
  | serving hin =>
      rcases hin with ⟨hwriting, _⟩ | ⟨hreading, _⟩
      · cases htool.symm.trans hwriting
      · cases htool.symm.trans hreading
  | stopped hended => cases htool.symm.trans hended

/-- A step of the script, of which the tool sees the bytes it gives. -/
theorem Consistent.scriptStep (h : Consistent respond s) {toChild : Channel UInt8 m}
    {fromChild : Channel UInt8 n} {script : Script} {normalized : List Bytes}
    (hasked : ∀ past c rest out, c.length < 4294967296 →
      Asked respond past c s.script s.toChild.items rest s.normalized out →
      ∃ out', Asked respond past c script toChild.items rest normalized out' ∧
        (¬ s.tool.Gone → fromChild.items ++ out' = s.fromChild.items ++ out))
    (hbetween : s.script = .header [] ∨ s.script = .exited → s.toChild.items = [] →
      (script = .header [] ∨ script = .exited) ∧ toChild.items = [] ∧
        fromChild.items = s.fromChild.items ∧ normalized = s.normalized) :
    Consistent respond
      { s with
        toChild := toChild
        fromChild := fromChild
        script := script
        normalized := normalized } := by
  cases h with
  | between htool hscript hto hfrom hpending hincoming hfinished hnormalized =>
      obtain ⟨hscript', hto', hfrom', rfl⟩ := hbetween hscript hto
      exact .between htool hscript' hto' (hfrom'.trans hfrom) hpending hincoming hfinished
        hnormalized
  | serving hin hfits hclean hrequested hfinished hbefore hresponse =>
      obtain ⟨out', hafter, hbytes⟩ := hasked _ _ _ _ hfits.length hbefore
      have hopen : ¬ s.tool.Gone := by
        rcases hin with ⟨hwriting, _⟩ | ⟨hreading, _⟩
        · rw [hwriting]
          exact not_false
        · rw [hreading]
          exact not_false
      refine .serving hin hfits hclean hrequested hfinished hafter ?_
      rw [← hresponse, List.append_assoc, List.append_assoc, hbytes hopen]
  | stopped hended hfits hrequested hfinished hbefore =>
      obtain ⟨out', hafter, _⟩ := hasked _ _ _ _ hfits.length hbefore
      exact .stopped hended hfits hrequested hfinished hafter

theorem Took.items_ne_nil {channel channel' : Channel UInt8 m} {bs : Bytes}
    (h : channel.Took bs channel') : channel.items ≠ [] := by
  rw [h.2]
  exact fun hnil => h.1 (List.append_eq_nil_iff.mp hnil).1

/-- The script reads only what belongs to a request. -/
theorem Consistent.scriptReads (h : Consistent respond s)
    (hstep : Coprocess.Step respond s .scriptReads s') : Consistent respond s' := by
  cases h with
  | between _ _ hto =>
      cases hstep with
      | readsHeader _ _ htook | readsBody _ _ htook => exact absurd hto (Took.items_ne_nil htook)
  | serving hin hfits hclean hrequested hfinished hasked hresponse =>
      obtain ⟨channel, script, normalized, bs, rfl, _, hafter⟩ := hasked.reads hfits.length hstep
      exact .serving hin hfits hclean hrequested hfinished hafter hresponse
  | stopped hended hfits hrequested hfinished hasked =>
      obtain ⟨channel, script, normalized, bs, rfl, _, hafter⟩ := hasked.reads hfits.length hstep
      exact .stopped hended hfits hrequested hfinished hafter

/-- Some more of the request is written. -/
theorem Consistent.wrote (h : Consistent respond s) {bs : Bytes} {channel : Channel UInt8 m}
    (htool : s.tool = .writing (bs ++ rest)) (hput : s.toChild.Put bs channel) :
    Consistent respond (Coprocess.wrote { s with toChild := channel } rest) := by
  obtain ⟨_, past, c, hfits, hclean, hrequested, hfinished, hasked, hnone⟩ := h.of_writing htool
  have hafter := hasked.write hput.1
  rw [← hput.2] at hafter
  have hresponse : s.pipe.pending ++ s.fromChild.items ++ encodeResponse (respond c) =
      encodeResponse (respond c) := by rw [hnone, List.nil_append]
  unfold Coprocess.wrote
  split
  next hdone =>
    subst hdone
    exact .resume hfits hclean hrequested hfinished hafter hresponse
  next hmore =>
    exact .serving (.inl ⟨rfl, hmore⟩) hfits hclean hrequested hfinished hafter hresponse

/-- `read()` has returned with what left the channel, or with nothing. -/
theorem Consistent.fed (h : Consistent respond s) (htool : s.tool = .reading) {e : ReadEvent}
    (he : e ≠ .failed) {channel : Channel UInt8 n}
    (htook : s.fromChild.items = delivered [e] ++ channel.items) :
    Consistent respond
      (Coprocess.resume { s with pipe := s.pipe.feed e, fromChild := channel }) := by
  obtain ⟨past, c, out, hfits, hclean, hrequested, hfinished, hasked, hresponse, _⟩ :=
    h.of_reading htool
  refine .resume hfits ?_ hrequested hfinished hasked ?_
  · simpa [Pipe.feed, he.symm] using hclean
  · show (s.pipe.feed e).pending ++ channel.items ++ out = _
    rw [Pipe.pending_feed hclean, ← hresponse, htook, List.append_assoc, List.append_assoc,
      List.append_assoc, List.append_assoc]

/-- `read()` has returned for the last time. -/
theorem Consistent.readOver (h : Consistent respond s) (htool : s.tool = .reading) {pipe : Pipe}
    (hpipe : .failed ∉ s.pipe.incoming → pipe.pending = s.pipe.pending) :
    Consistent respond (Coprocess.giveUp { s with pipe := pipe }) := by
  obtain ⟨past, c, out, hfits, hclean, hrequested, hfinished, hasked, hresponse, hopen⟩ :=
    h.of_reading htool
  have hsame := hpipe hclean
  rw [List.append_assoc] at hresponse
  exact .giveUp hfits hrequested hfinished hasked (by rw [hsame]; exact hresponse)
    (by rw [hsame]; exact hopen)

/-- The destructor is called between requests. -/
theorem Consistent.closes (h : Consistent respond s) (htool : s.tool = .idle) :
    Consistent respond { s with tool := .closed } := by
  cases h with
  | between _ hscript hto hfrom hpending hincoming hfinished hnormalized =>
      exact .between (.inr rfl) hscript hto hfrom hpending hincoming hfinished hnormalized
  | serving hin =>
      rcases hin with ⟨hwriting, _⟩ | ⟨hreading, _⟩
      · cases htool.symm.trans hwriting
      · cases htool.symm.trans hreading
  | stopped hended => cases htool.symm.trans hended

/-- Every step keeps the invariant. -/
theorem Consistent.step (h : Consistent respond s) {e : PipeEvent} (hfitting : Fitting respond e)
    (hstep : Coprocess.Step respond s e s') : Consistent respond s' := by
  cases hstep with
  | request content htool => exact h.request htool hfitting
  | write htool halive hput => exact h.wrote htool hput
  | writeInterrupted => exact h
  | writeFails htool hgone herror =>
      obtain ⟨_, past, c, hfits, _, hrequested, hfinished, hasked, _⟩ := h.of_writing htool
      exact @Consistent.stopped _ _ _ _ past c _ _ _ 0 rfl hfits hrequested hfinished hasked
  | read chunk htool htook =>
      refine h.fed htool (by simp) ?_
      rw [htook.2, delivered, delivered, List.append_nil]
  | readInterrupted htool => exact h.fed htool (by simp) rfl
  | readEnds htool hgone hempty => exact h.readOver htool fun _ => rfl
  | readFails htool =>
      refine h.readOver htool fun hclean => ?_
      rw [Pipe.pending_feed hclean, delivered, List.append_nil]
  | close htool => exact h.closes htool
  | readsHeader hscript hlen htook => exact h.scriptReads (.readsHeader hscript hlen htook)
  | readsBody hscript hlen htook => exact h.scriptReads (.readsBody hscript hlen htook)
  | scriptWrites hscript hopen hput =>
      rename_i bs rest channel
      refine h.scriptStep (fun past c rest' out _ hasked => ?_) ?_
      · obtain ⟨rfl, hto, rfl, hnormalized⟩ := hasked.of_answering hscript
        refine ⟨rest, ?_, fun _ => ?_⟩
        · show Asked respond past c _ s.toChild.items [] s.normalized rest
          rw [hto, hnormalized]
          exact asked_gave respond past c rest
        · rw [hput.2, List.append_assoc]
      · rw [hscript]
        rintro (hheader | hexited)
        · cases hheader
        · cases hexited
  | scriptWriteFails hscript hgone =>
      refine h.scriptStep (fun past c rest' out _ hasked => ?_) ?_
      · obtain ⟨rfl, hto, rfl, hnormalized⟩ := hasked.of_answering hscript
        rw [hto, hnormalized]
        exact ⟨[], .answered, fun hopen => absurd hgone hopen⟩
      · exact fun _ hto => ⟨.inl rfl, hto, rfl, rfl⟩
  | headerEnds | bodyEnds | dies =>
      refine h.scriptStep (fun past c rest out _ hasked => ⟨out, hasked.dies, fun _ => rfl⟩) ?_
      exact fun _ hto => ⟨.inr rfl, hto, rfl, rfl⟩

theorem consistent_invariant : (fittingRuns respond m n).Invariant (Consistent respond) := by
  refine Transition.Inductive.invariant ⟨?_, ?_⟩
  · rintro s ⟨rfl, _⟩
    exact .between (.inl rfl) (.inl rfl) rfl rfl rfl rfl rfl rfl
  · rintro s e t hs ⟨hstep, hfitting⟩
    exact hs.step hfitting hstep

/-! ## What the two parties agree on -/

/-- Where no request is served. -/
structure Quiet (respond : Bytes → List NormLine) (s : Coprocess m n) : Prop where
  toChild : s.toChild.items = []
  fromChild : s.fromChild.items = []
  buffered : s.pipe.pending = []
  finished : s.finished = s.requested.map (answer respond)
  normalized : s.normalized = s.requested

/-- What a state says about the requests so far: all but the last are answered
with the lines of their contents; the script has been handed the contents that
were asked for, in their order, and the last one perhaps not yet; and a tool that
stopped has seen the first lines of the last one. -/
structure Agreed (respond : Bytes → List NormLine) (s : Coprocess m n) : Prop where
  answered : s.finished = (s.requested.take s.finished.length).map (answer respond)
  one_open : s.requested.length ≤ s.finished.length + 1
  handed : s.normalized <+: s.requested
  handed_first : s.finished.length ≤ s.normalized.length
  quiet : s.tool = .idle ∨ s.tool = .closed → Quiet respond s
  stopped : ∀ error calls, s.tool = .ended error calls →
    ∃ past c k, s.requested = past ++ [c] ∧ calls = callsOf 0 ((respond c).take k)

theorem Asked.normalized {script : Script} {toChild : Bytes} {normalized : List Bytes}
    (h : Asked respond past c script toChild rest normalized out) :
    normalized = past ∨ normalized = past ++ [c] := by
  cases h with
  | header | body | died => exact .inl rfl
  | answering | answered | diedLate => exact .inr rfl

/-- In a request. -/
theorem agreed_of_asked {script : Script} {toChild : Bytes}
    (hrequested : s.requested = past ++ [c]) (hfinished : s.finished = past.map (answer respond))
    (hasked : Asked respond past c script toChild rest s.normalized out)
    (hopen : ¬ (s.tool = .idle ∨ s.tool = .closed))
    (hstopped : ∀ error calls, s.tool = .ended error calls →
      ∃ k, calls = callsOf 0 ((respond c).take k)) : Agreed respond s where
  answered := by
    rw [hfinished, hrequested, List.length_map, List.take_left]
  one_open := by
    rw [hfinished, hrequested, List.length_map, List.length_append, List.length_singleton]
  handed := by
    rw [hrequested]
    rcases hasked.normalized with h | h
    · rw [h]
      exact List.prefix_append _ _
    · rw [h]
  handed_first := by
    rw [hfinished, List.length_map]
    rcases hasked.normalized with h | h
    · rw [h]
    · rw [h, List.length_append]
      exact Nat.le_add_right _ _
  quiet h := absurd h hopen
  stopped error calls h := by
    obtain ⟨k, hk⟩ := hstopped error calls h
    exact ⟨past, c, k, hrequested, hk⟩

theorem Consistent.agreed (h : Consistent respond s) : Agreed respond s := by
  cases h with
  | between htool _ hto hfrom hpending _ hfinished hnormalized =>
      have hlen : s.finished.length = s.requested.length := by rw [hfinished, List.length_map]
      refine ⟨?_, by omega, by rw [hnormalized], by rw [hnormalized, hlen], ?_, ?_⟩
      · rw [hlen, List.take_length, hfinished]
      · exact fun _ => ⟨hto, hfrom, hpending, hfinished, hnormalized⟩
      · intro error calls hended
        rcases htool with hidle | hclosed
        · cases hidle.symm.trans hended
        · cases hclosed.symm.trans hended
  | serving hin _ _ hrequested hfinished hasked =>
      rcases hin with ⟨htool, _⟩ | ⟨htool, _⟩ <;>
        exact agreed_of_asked hrequested hfinished hasked (by simp [htool]) (by simp [htool])
  | stopped htool _ hrequested hfinished hasked =>
      refine agreed_of_asked hrequested hfinished hasked (by simp [htool]) ?_
      intro error calls hended
      rw [htool] at hended
      exact ⟨_, (Tool.ended.inj hended).2.symm⟩

/-- **The two parties agree**, whatever happens to the coprocess, and between two
requests nothing is under way. -/
theorem half_duplex (respond : Bytes → List NormLine) (m n : Nat) :
    (fittingRuns respond m n).Invariant (Agreed respond) :=
  fun s hs => (consistent_invariant s hs).agreed

end Phpatcher.Theorems
