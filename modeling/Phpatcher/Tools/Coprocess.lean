import Phpatcher.Basis.Channel
import Phpatcher.Basis.Progress
import Phpatcher.Tools.NormalizerPipe

/-!
# The normalizer and its coprocess

`normalizer.hpp` and the loop of `normalize.php`: two processes, and a bounded
pipe each way. The tool asks for one content after another; which ones, and when,
is the choice of its caller. A `write()` takes some of the bytes it is given, a
`read()` brings some of those under way, calls are interrupted or fail, and the
coprocess may die at any time.

The tool's side of a response is `runEach` on what `read()` has returned since
the request: where that does not suffice, the tool is in the next call. What
PHP's streams have read ahead counts as under way.
-/

namespace Phpatcher.Tools

open Phpatcher.Basis Phpatcher.Core

/-- `put_u32le`. -/
def putU32le (n : Nat) : Bytes := ByteOrder.little.put 4 n

/-- `req`. -/
def requestOf (content : Bytes) : Bytes := putU32le content.length ++ content

def writeFailed : Bytes := ascii "normalizer write failed (coprocess died?)"

/-- One more call of `read()` has returned. -/
def Pipe.feed (s : Pipe) (event : ReadEvent) : Pipe := { s with incoming := s.incoming ++ [event] }

/-- All that `read()` has returned is used. -/
def Pipe.drained (s : Pipe) : Pipe := { s with incoming := [] }

/-- Where the tool is. -/
inductive Tool where
  /-- between two calls of `run_each` -/
  | idle
  /-- in a `write()` of `write_all` -/
  | writing (rest : Bytes)
  /-- in a `read()` of `fill_buffer` -/
  | reading
  /-- in the `waitpid` of the destructor -/
  | closed
  /-- `normalizer_fatal`, or a signal, with the calls of `on_line` made before -/
  | ended (error : Option Bytes) (calls : List LineCall)

/-- Where the loop of `normalize.php` is. -/
inductive Script where
  /-- in `read_exact(4)` -/
  | header (buf : Bytes)
  /-- in `read_exact($len)` -/
  | body (len : Nat) (buf : Bytes)
  /-- in `fwrite` -/
  | answering (rest : Bytes)
  | exited

/-- Both processes and what is under way between them. `pipe` holds what `read()`
has returned since the request; the three lists are the contents asked for, the
calls of `on_line` for each request that was answered, and the contents handed to
`normalize`. -/
structure Coprocess (m n : Nat) where
  tool : Tool := .idle
  script : Script := .header []
  toChild : Channel UInt8 m := {}
  fromChild : Channel UInt8 n := {}
  pipe : Pipe := { incoming := [] }
  requested : List Bytes := []
  finished : List (List LineCall) := []
  normalized : List Bytes := []

/-- The tool's ends of the pipes are closed. -/
def Tool.Gone : Tool → Prop
  | closed | ended _ _ => True
  | _ => False

inductive PipeEvent where
  | request (content : Bytes)
  | write
  | writeFails
  | read
  /-- `EINTR` -/
  | interrupt
  | readEnds
  | readFails
  | close
  | scriptReads
  | scriptWrites
  | scriptWriteFails
  | scriptEnds
  | dies

namespace Coprocess

variable {m n : Nat}

/-- `run_each` with what `read()` has returned: it returns, or is where `blocked`
says. -/
def proceed (s : Coprocess m n) (blocked : Bytes → List LineCall → Tool) : Coprocess m n :=
  match runEach.outcome { pipe := s.pipe } with
  | (.ok (), t) =>
      { s with tool := .idle, pipe := t.pipe.drained, finished := s.finished ++ [t.calls] }
  | (.error error, t) => { s with tool := blocked error t.calls }

/-- There may be another call of `read()`. -/
def resume (s : Coprocess m n) : Coprocess m n := s.proceed fun _ _ => .reading

/-- There is none. -/
def giveUp (s : Coprocess m n) : Coprocess m n :=
  s.proceed fun error calls => .ended (some error) calls

/-- `write_all` with `rest` to come. -/
def wrote (s : Coprocess m n) (rest : Bytes) : Coprocess m n :=
  if rest = [] then s.resume else { s with tool := .writing rest }

/-- `read_exact($len)` with `buf` of it, and `normalize` behind it. -/
def gotBody (respond : Bytes → List NormLine) (s : Coprocess m n) (len : Nat) (buf : Bytes) :
    Coprocess m n :=
  if buf.length < len then { s with script := .body len buf }
  else
    { s with
      script := .answering (encodeResponse (respond buf))
      normalized := s.normalized ++ [buf] }

/-- `read_exact(4)` with `buf` of it. -/
def gotHeader (respond : Bytes → List NormLine) (s : Coprocess m n) (buf : Bytes) :
    Coprocess m n :=
  if buf.length < 4 then { s with script := .header buf }
  else s.gotBody respond (getU32le buf) []

/-- `fwrite` with `rest` to come. -/
def gave (s : Coprocess m n) (rest : Bytes) : Coprocess m n :=
  { s with script := if rest = [] then .header [] else .answering rest }

/-- The steps of the two processes, for the lines that `normalize` finds. -/
inductive Step (respond : Bytes → List NormLine) :
    Coprocess m n → PipeEvent → Coprocess m n → Prop
  | request {s} (content : Bytes) (htool : s.tool = .idle) :
      Step respond s (.request content)
        { s with
          tool := .writing (requestOf content)
          requested := s.requested ++ [content] }
  | write {s bs rest channel} (htool : s.tool = .writing (bs ++ rest))
      (halive : s.script ≠ .exited) (hput : s.toChild.Put bs channel) :
      Step respond s .write ({ s with toChild := channel }.wrote rest)
  | writeInterrupted {s rest} (htool : s.tool = .writing rest) : Step respond s .interrupt s
  /-- `EPIPE`, or `SIGPIPE` where the tool's caller has not blocked it -/
  | writeFails {s rest error} (htool : s.tool = .writing rest) (hgone : s.script = .exited)
      (herror : error = none ∨ error = some writeFailed) :
      Step respond s .writeFails { s with tool := .ended error [] }
  | read {s channel} (chunk : Chunk) (htool : s.tool = .reading)
      (htook : s.fromChild.Took chunk.bytes channel) :
      Step respond s .read
        { s with fromChild := channel, pipe := s.pipe.feed (.data chunk) }.resume
  | readInterrupted {s} (htool : s.tool = .reading) :
      Step respond s .interrupt { s with pipe := s.pipe.feed .interrupted }.resume
  | readEnds {s} (htool : s.tool = .reading) (hgone : s.script = .exited)
      (hempty : s.fromChild.items = []) : Step respond s .readEnds s.giveUp
  | readFails {s} (htool : s.tool = .reading) :
      Step respond s .readFails { s with pipe := s.pipe.feed .failed }.giveUp
  | close {s} (htool : s.tool = .idle) : Step respond s .close { s with tool := .closed }
  | readsHeader {s buf bs channel} (hscript : s.script = .header buf)
      (hlen : (buf ++ bs).length ≤ 4) (htook : s.toChild.Took bs channel) :
      Step respond s .scriptReads ({ s with toChild := channel }.gotHeader respond (buf ++ bs))
  | readsBody {s len buf bs channel} (hscript : s.script = .body len buf)
      (hlen : (buf ++ bs).length ≤ len) (htook : s.toChild.Took bs channel) :
      Step respond s .scriptReads ({ s with toChild := channel }.gotBody respond len (buf ++ bs))
  | scriptWrites {s bs rest channel} (hscript : s.script = .answering (bs ++ rest))
      (hopen : ¬ s.tool.Gone) (hput : s.fromChild.Put bs channel) :
      Step respond s .scriptWrites ({ s with fromChild := channel }.gave rest)
  | scriptWriteFails {s rest} (hscript : s.script = .answering rest) (hgone : s.tool.Gone) :
      Step respond s .scriptWriteFails { s with script := .header [] }
  | headerEnds {s buf} (hscript : s.script = .header buf) (hgone : s.tool.Gone)
      (hempty : s.toChild.items = []) : Step respond s .scriptEnds { s with script := .exited }
  | bodyEnds {s len buf} (hscript : s.script = .body len buf) (hgone : s.tool.Gone)
      (hempty : s.toChild.items = []) : Step respond s .scriptEnds { s with script := .exited }
  | dies {s} : Step respond s .dies { s with script := .exited }

end Coprocess

/-- The tool and its coprocess, with room for `m` and `n` bytes in the pipes. -/
def coprocess (respond : Bytes → List NormLine) (m n : Nat) :
    Transition (Coprocess m n) PipeEvent where
  start s := s = {}
  step := Coprocess.Step respond

/-! ## What `read()` has returned -/

theorem delivered_append {events : List ReadEvent} (h : .failed ∉ events) (more : List ReadEvent) :
    delivered (events ++ more) = delivered events ++ delivered more := by
  induction events with
  | nil => rfl
  | cons event events ih =>
      obtain ⟨hhead, htail⟩ := not_or.mp (List.mem_cons.not.mp h)
      cases event with
      | data chunk => rw [List.cons_append, delivered, delivered, ih htail, List.append_assoc]
      | interrupted => rw [List.cons_append, delivered, delivered, ih htail]
      | failed => exact absurd rfl hhead

theorem Pipe.pending_feed {s : Pipe} (h : .failed ∉ s.incoming) (event : ReadEvent) :
    (s.feed event).pending = s.pending ++ delivered [event] := by
  rw [pending, pending, List.append_assoc, ← delivered_append h]
  rfl

theorem Pipe.pending_drained {s : Pipe} (h : s.pending = []) : s.drained.pending = [] := by
  have hbuffered : s.buffered = [] := (List.append_eq_nil_iff.mp h).1
  show s.buffered ++ delivered [] = []
  rw [hbuffered]
  rfl

end Phpatcher.Tools
