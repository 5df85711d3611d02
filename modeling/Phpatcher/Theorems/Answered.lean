import Phpatcher.Theorems.HalfDuplex

/-!
# Every request is answered

Two processes with a bounded pipe each way can wait for each other. These two do
not: the tool writes the whole request before it reads, and the script reads it
before it writes (`coprocess_progress`). Each byte of a request and of a response
is written once and read once, which bounds a run (`work`). Without a fault of
the coprocess every request is answered with the lines of its content
(`requests_answered`).
-/

namespace Phpatcher.Theorems

open Phpatcher.Basis Phpatcher.Core Phpatcher.Tools

variable {respond : Bytes → List NormLine} {m n : Nat}

/-- The events that move the two processes on. -/
def Moves : PipeEvent → Prop
  | .write | .writeFails | .read | .readEnds => True
  | .scriptReads | .scriptWrites | .scriptWriteFails | .scriptEnds => True
  | .request _ | .interrupt | .readFails | .close | .dies => False

/-- Nothing is left to do before the next request. -/
def Settled (s : Coprocess m n) : Prop :=
  s.tool = .idle ∨ s.tool.Gone ∧ s.script = .exited

/-! ## The work to come

A byte to be written counts twice, a byte under way once. -/

def toolWork : Tool → Nat
  | .writing rest => 2 * rest.length + 1
  | .reading => 1
  | .idle | .closed | .ended _ _ => 0

def scriptWork : Script → Nat
  | .header _ | .body _ _ => 1
  | .answering rest => 2 * rest.length + 2
  | .exited => 0

/-- The responses to the contents that are not yet normalized. -/
def owed (respond : Bytes → List NormLine) (requested normalized : List Bytes) : Nat :=
  ((requested.drop normalized.length).map fun c =>
    2 * (encodeResponse (respond c)).length + 1).sum

def work (respond : Bytes → List NormLine) (s : Coprocess m n) : Nat :=
  toolWork s.tool + s.toChild.items.length + owed respond s.requested s.normalized +
    scriptWork s.script + s.fromChild.items.length

variable {past : List Bytes} {c rest out : Bytes} {s s' : Coprocess m n}

theorem owed_past (respond : Bytes → List NormLine) (past : List Bytes) (c : Bytes) :
    owed respond (past ++ [c]) past = 2 * (encodeResponse (respond c)).length + 1 := by
  rw [owed, List.drop_left]
  rfl

theorem owed_all (respond : Bytes → List NormLine) (requested : List Bytes) :
    owed respond requested requested = 0 := by
  rw [owed, List.drop_length]
  rfl

/-- What the script still has to do for a request. -/
theorem Asked.owed_le {script : Script} {toChild : Bytes} {normalized : List Bytes}
    (h : Asked respond past c script toChild rest normalized out) :
    owed respond (past ++ [c]) normalized + scriptWork script ≤ 2 * out.length + 2 := by
  cases h with
  | header | body => exact Nat.le_of_eq (congrArg (· + 1) (owed_past respond past c))
  | died => exact (owed_past respond past c).le.trans (by omega)
  | answering | answered | diedLate => simp [owed_all, scriptWork]

theorem Asked.owed_eq {script : Script} {toChild : Bytes} {normalized : List Bytes}
    (h : Asked respond past c script toChild rest normalized out) (halive : script ≠ .exited)
    (hopen : out ≠ []) :
    owed respond (past ++ [c]) normalized + scriptWork script = 2 * out.length + 2 := by
  cases h with
  | header | body => exact congrArg (· + 1) (owed_past respond past c)
  | answering => simp [owed_all, scriptWork]
  | answered => exact absurd rfl hopen
  | died | diedLate => exact absurd rfl halive

/-- `run_each` changes nothing on the script's side. -/
theorem proceed_fields (s : Coprocess m n) (blocked : Bytes → List LineCall → Tool) :
    ∃ tool pipe finished,
      s.proceed blocked = { s with tool := tool, pipe := pipe, finished := finished } ∧
        (tool = .idle ∨ ∃ error calls, tool = blocked error calls) := by
  unfold Coprocess.proceed
  split
  · exact ⟨_, _, _, rfl, .inl rfl⟩
  · exact ⟨_, _, _, rfl, .inr ⟨_, _, rfl⟩⟩

theorem work_resume (respond : Bytes → List NormLine) (s : Coprocess m n) :
    work respond s.resume ≤ work respond { s with tool := .reading } := by
  obtain ⟨tool, pipe, finished, hs, htool⟩ := proceed_fields s fun _ _ => .reading
  rw [Coprocess.resume, hs]
  rcases htool with rfl | ⟨_, _, rfl⟩ <;> simp [work, toolWork]

theorem work_giveUp (respond : Bytes → List NormLine) (s : Coprocess m n) :
    work respond s.giveUp = work respond { s with tool := .idle } := by
  obtain ⟨tool, pipe, finished, hs, htool⟩ :=
    proceed_fields s fun error calls => .ended (some error) calls
  rw [Coprocess.giveUp, hs]
  rcases htool with rfl | ⟨_, _, rfl⟩ <;> simp [work, toolWork]

theorem work_wrote (respond : Bytes → List NormLine) (s : Coprocess m n) (rest : Bytes) :
    work respond (s.wrote rest) ≤ work respond { s with tool := .writing rest } := by
  unfold Coprocess.wrote
  split
  next h =>
    rw [h]
    exact work_resume respond s
  next => exact Nat.le_refl _

/-- The script reads, and owes the same response as before. -/
theorem work_scriptReads (h : Consistent respond s)
    (hstep : Coprocess.Step respond s .scriptReads s') : work respond s' < work respond s := by
  have halive : s.script ≠ .exited := by
    cases hstep with
    | readsHeader hscript | readsBody hscript =>
        rw [hscript]
        exact nofun
  have hserved : ∀ {past c rest out}, Fits respond c → s.requested = past ++ [c] →
      Asked respond past c s.script s.toChild.items rest s.normalized out →
      work respond s' < work respond s := by
    intro past c rest out hfits hrequested hasked
    obtain ⟨channel, script, normalized, bs, rfl, htook, hafter⟩ :=
      hasked.reads hfits.length hstep
    have hopen : out ≠ [] := fun hnil =>
      Took.items_ne_nil htook (hasked.of_nil hnil).2.1
    have hbefore := hasked.owed_eq halive hopen
    have hless := hafter.owed_le
    have hlen := htook.length
    have hpos := List.length_pos_iff.mpr htook.1
    simp only [work, hrequested, hlen]
    omega
  cases h with
  | between _ _ hto =>
      cases hstep with
      | readsHeader _ _ htook | readsBody _ _ htook => exact absurd hto (Took.items_ne_nil htook)
  | serving _ hfits _ hrequested _ hasked => exact hserved hfits hrequested hasked
  | stopped _ hfits hrequested _ hasked => exact hserved hfits hrequested hasked

/-- Each step that moves the processes on leaves less work. -/
theorem work_step (h : Consistent respond s) {e : PipeEvent} (he : Moves e)
    (hstep : Coprocess.Step respond s e s') : work respond s' < work respond s := by
  cases hstep with
  | request | writeInterrupted | readInterrupted | readFails | close | dies => cases he
  | write htool halive hput =>
      rename_i bs rest channel
      refine Nat.lt_of_le_of_lt (work_wrote respond _ rest) ?_
      have hlen := hput.length
      have hpos := List.length_pos_iff.mpr hput.1
      simp only [work, htool, toolWork, List.length_append, hlen]
      omega
  | writeFails htool hgone =>
      simp only [work, htool, toolWork]
      omega
  | read chunk htool htook =>
      refine Nat.lt_of_le_of_lt (work_resume respond _) ?_
      have hlen := htook.length
      have hpos := List.length_pos_iff.mpr htook.1
      simp only [work, htool, hlen]
      omega
  | readEnds htool =>
      rw [work_giveUp]
      simp only [work, htool, toolWork]
      omega
  | readsHeader hscript hlen htook =>
      exact work_scriptReads h (.readsHeader hscript hlen htook)
  | readsBody hscript hlen htook => exact work_scriptReads h (.readsBody hscript hlen htook)
  | scriptWrites hscript hopen hput =>
      rename_i bs rest channel
      have hlen := hput.length
      have hpos := List.length_pos_iff.mpr hput.1
      have hscriptWork : scriptWork (if rest = [] then .header [] else .answering rest) ≤
          2 * rest.length + 2 := by
        split <;> simp [scriptWork]
      simp only [work, Coprocess.gave, hscript, scriptWork, List.length_append, hlen]
        at hscriptWork ⊢
      omega
  | scriptWriteFails hscript =>
      simp only [work, hscript, scriptWork]
      omega
  | headerEnds hscript | bodyEnds hscript =>
      simp only [work, hscript, scriptWork]
      omega

/-! ## Nobody waits for the other one -/

/-- A script for which something is under way is reading. -/
theorem Asked.reading {script : Script} {toChild : Bytes} {normalized : List Bytes}
    (h : Asked respond past c script toChild rest normalized out) (hitems : toChild ≠ [])
    (halive : script ≠ .exited) :
    (∃ buf, script = .header buf ∧ buf.length < 4) ∨
      ∃ len buf, script = .body len buf ∧ buf.length < len := by
  cases h with
  | header hlen => exact .inl ⟨_, rfl, hlen⟩
  | body hlen => exact .inr ⟨_, _, rfl, hlen⟩
  | answering | answered | diedLate => exact absurd rfl hitems
  | died => exact absurd rfl halive

theorem exists_scriptReads
    (hasked : Asked respond past c s.script s.toChild.items rest s.normalized out)
    (hitems : s.toChild.items ≠ []) (halive : s.script ≠ .exited) :
    ∃ t, Coprocess.Step respond s .scriptReads t := by
  obtain ⟨x, xs, hx⟩ := List.exists_cons_of_ne_nil hitems
  obtain ⟨channel, htook, _⟩ := s.toChild.exists_took hx
  rcases hasked.reading hitems halive with ⟨buf, hscript, hlen⟩ | ⟨len, buf, hscript, hlen⟩
  · exact ⟨_, .readsHeader hscript (by rw [List.length_append]; exact hlen) htook⟩
  · exact ⟨_, .readsBody hscript (by rw [List.length_append]; exact hlen) htook⟩

theorem exists_read (htool : s.tool = .reading) (hitems : s.fromChild.items ≠ []) :
    ∃ t, Coprocess.Step respond s .read t := by
  obtain ⟨x, xs, hx⟩ := List.exists_cons_of_ne_nil hitems
  obtain ⟨channel, htook, _⟩ := s.fromChild.exists_took hx
  have hfits : [x].length ≤ bufferSize := Nat.one_le_pow 16 2 (by decide)
  exact ⟨_, .read ⟨[x], List.cons_ne_nil _ _, hfits⟩ htool htook⟩

/-- In `write_all` the pipe has room, or the script takes from it. -/
theorem exists_move_writing (hm : 0 < m) (htool : s.tool = .writing rest) (hrest : rest ≠ [])
    (hasked : Asked respond past c s.script s.toChild.items rest s.normalized out) :
    ∃ e t, Moves e ∧ Coprocess.Step respond s e t := by
  by_cases hexited : s.script = .exited
  · exact ⟨.writeFails, _, trivial, .writeFails htool hexited (.inl rfl)⟩
  · rcases s.toChild.room_or_item hm with hroom | ⟨x, xs, hx⟩
    · obtain ⟨b, bs, rfl⟩ := List.exists_cons_of_ne_nil hrest
      obtain ⟨channel, hput⟩ := Channel.exists_put hroom b
      have hsplit : s.tool = .writing ([b] ++ bs) := htool
      exact ⟨.write, _, trivial, .write hsplit hexited hput⟩
    · obtain ⟨t, hstep⟩ := exists_scriptReads hasked (by simp [hx]) hexited
      exact ⟨.scriptReads, t, trivial, hstep⟩

/-- In `fill_buffer` a byte is under way, or the script writes one, or has the
request still to read, or is gone. -/
theorem exists_move_reading (hn : 0 < n) (htool : s.tool = .reading)
    (hasked : Asked respond past c s.script s.toChild.items [] s.normalized out)
    (hresponse : s.pipe.pending ++ s.fromChild.items ++ out = encodeResponse (respond c))
    (hopen : s.pipe.pending ≠ encodeResponse (respond c)) :
    ∃ e t, Moves e ∧ Coprocess.Step respond s e t := by
  by_cases hfrom : s.fromChild.items = []
  · by_cases hexited : s.script = .exited
    · exact ⟨.readEnds, _, trivial, .readEnds htool hexited hfrom⟩
    · by_cases hitems : s.toChild.items = []
      · generalize hscript : s.script = script at hasked hexited
        generalize s.normalized = normalized at hasked
        rw [hitems] at hasked
        cases hasked with
        | header hlen hbytes =>
            -- the script would have all of the request
            have hall := congrArg List.length hbytes
            rw [requestOf, List.append_nil, List.append_nil, List.length_append,
              length_putU32le] at hall
            omega
        | body hlen hbytes =>
            rw [List.append_nil, List.append_nil] at hbytes
            rw [hbytes] at hlen
            exact absurd hlen (Nat.lt_irrefl _)
        | answering hout =>
            obtain ⟨b, bs, rfl⟩ := List.exists_cons_of_ne_nil hout
            obtain ⟨channel, hput⟩ := s.fromChild.exists_put (by simpa [hfrom] using hn) b
            have hsplit : s.script = .answering ([b] ++ bs) := hscript
            exact ⟨.scriptWrites, _, trivial,
              .scriptWrites hsplit (by rw [htool]; exact not_false) hput⟩
        | answered =>
            rw [hfrom, List.append_nil, List.append_nil] at hresponse
            exact absurd hresponse hopen
        | died | diedLate => exact absurd rfl hexited
      · obtain ⟨t, hstep⟩ := exists_scriptReads hasked hitems hexited
        exact ⟨.scriptReads, t, trivial, hstep⟩
  · obtain ⟨t, hstep⟩ := exists_read htool hfrom
    exact ⟨.read, t, trivial, hstep⟩

/-- When the tool is gone, the script comes to its end. -/
theorem exists_move_gone (htool : s.tool.Gone) (halive : s.script ≠ .exited)
    (hreads : s.toChild.items ≠ [] → ∃ t, Coprocess.Step respond s .scriptReads t) :
    ∃ e t, Moves e ∧ Coprocess.Step respond s e t := by
  cases hscript : s.script with
  | exited => exact absurd hscript halive
  | answering out => exact ⟨.scriptWriteFails, _, trivial, .scriptWriteFails hscript htool⟩
  | header buf =>
      by_cases hitems : s.toChild.items = []
      · exact ⟨.scriptEnds, _, trivial, .headerEnds hscript htool hitems⟩
      · obtain ⟨t, hstep⟩ := hreads hitems
        exact ⟨.scriptReads, t, trivial, hstep⟩
  | body len buf =>
      by_cases hitems : s.toChild.items = []
      · exact ⟨.scriptEnds, _, trivial, .bodyEnds hscript htool hitems⟩
      · obtain ⟨t, hstep⟩ := hreads hitems
        exact ⟨.scriptReads, t, trivial, hstep⟩

theorem Consistent.exists_move (hm : 0 < m) (hn : 0 < n) (h : Consistent respond s)
    (hopen : ¬ Settled s) : ∃ e t, Moves e ∧ Coprocess.Step respond s e t := by
  obtain ⟨hidle, hgone⟩ := not_or.mp hopen
  cases h with
  | between htool _ hto =>
      have hclosed := htool.resolve_left hidle
      have htool' : s.tool.Gone := by
        rw [hclosed]
        exact trivial
      exact exists_move_gone htool' (fun hexited => hgone ⟨htool', hexited⟩) (absurd hto)
  | serving hin _ _ _ _ hasked hresponse =>
      rcases hin with ⟨htool, hrest⟩ | ⟨htool, rfl, hopen⟩
      · exact exists_move_writing hm htool hrest hasked
      · exact exists_move_reading hn htool hasked hresponse hopen
  | stopped htool _ _ _ hasked =>
      have htool' : s.tool.Gone := by
        rw [htool]
        exact trivial
      have halive : s.script ≠ .exited := fun hexited => hgone ⟨htool', hexited⟩
      exact exists_move_gone htool' halive fun hitems => exists_scriptReads hasked hitems halive

theorem coprocess_moves (hm : 0 < m) (hn : 0 < n) :
    (fittingRuns respond m n).Progress Moves Settled (work respond) where
  enabled s hs hopen := by
    obtain ⟨e, t, hmoves, hstep⟩ := (consistent_invariant s hs).exists_move hm hn hopen
    refine ⟨e, t, hmoves, hstep, ?_⟩
    cases e with
    | request => cases hmoves
    | _ => trivial
  decreases s e t hs hmoves hstep := work_step (consistent_invariant s hs) hmoves hstep.1

/-- **The two processes never wait for each other**: in every state they reach, a
step is possible until the request is answered or both are gone, and every such
step leaves less work. -/
theorem coprocess_progress (respond : Bytes → List NormLine) {m n : Nat} (hm : 0 < m)
    (hn : 0 < n) : (fittingRuns respond m n).Progress Moves Settled (work respond) :=
  coprocess_moves hm hn

/-- Not even one byte of room is needed twice: a request over pipes of one byte. -/
theorem coprocess_progress_narrow :
    (fittingRuns (fun content => [{ key := content }]) 1 1).Progress Moves Settled
      (work fun content => [{ key := content }]) :=
  coprocess_progress _ Nat.one_pos Nat.one_pos

/-! ## Without faults -/

/-- A fault of the coprocess or of a pipe. -/
def Fault : PipeEvent → Prop
  | .dies | .readFails => True
  | _ => False

/-- The runs without faults. -/
def soundRuns (respond : Bytes → List NormLine) (m n : Nat) :
    Transition (Coprocess m n) PipeEvent :=
  (fittingRuns respond m n).restrict (fun _ => True) fun _ e _ => ¬ Fault e

/-- The tool has not ended, and the script ends behind the tool only. -/
structure Alive (s : Coprocess m n) : Prop where
  tool : ∀ error calls, s.tool ≠ .ended error calls
  script : s.script = .exited → s.tool = .closed

/-- `run_each` ends with an error only where it has no more to read. -/
theorem alive_resume (h : s.script ≠ .exited) : Alive s.resume := by
  obtain ⟨tool, pipe, finished, hs, htool⟩ := proceed_fields s fun _ _ => .reading
  rw [Coprocess.resume, hs]
  refine ⟨?_, fun hexited => absurd hexited h⟩
  rcases htool with rfl | ⟨_, _, rfl⟩ <;> exact nofun

/-- Reading does not end the script, and changes nothing on the tool's side. -/
theorem gotBody_fields (respond : Bytes → List NormLine) (s : Coprocess m n) (len : Nat)
    (buf : Bytes) :
    ∃ script normalized,
      s.gotBody respond len buf = { s with script := script, normalized := normalized } ∧
        script ≠ .exited := by
  unfold Coprocess.gotBody
  split
  · exact ⟨_, s.normalized, rfl, nofun⟩
  · exact ⟨_, _, rfl, nofun⟩

theorem gotHeader_fields (respond : Bytes → List NormLine) (s : Coprocess m n) (buf : Bytes) :
    ∃ script normalized,
      s.gotHeader respond buf = { s with script := script, normalized := normalized } ∧
        script ≠ .exited := by
  unfold Coprocess.gotHeader
  split
  · exact ⟨_, s.normalized, rfl, nofun⟩
  · exact gotBody_fields respond s _ []

theorem Alive.step (h : Alive s) {e : PipeEvent} (hfault : ¬ Fault e)
    (hstep : Coprocess.Step respond s e s') : Alive s' := by
  -- a tool that is at work has not closed its ends
  have halive : s.tool ≠ .closed → s.script ≠ .exited := fun hopen hexited =>
    hopen (h.script hexited)
  have hclosed : s.tool.Gone → s.tool = .closed := by
    intro hgone
    cases htool : s.tool with
    | closed => rfl
    | ended error calls => exact absurd htool (h.tool error calls)
    | idle | writing | reading =>
        rw [htool] at hgone
        exact absurd hgone not_false
  cases hstep with
  | request content htool =>
      exact ⟨nofun, fun hexited => absurd hexited (halive (by rw [htool]; exact nofun))⟩
  | write htool hexited hput =>
      unfold Coprocess.wrote
      split
      · exact alive_resume hexited
      · exact ⟨nofun, fun h' => absurd h' hexited⟩
  | writeInterrupted => exact h
  | writeFails htool hgone => exact absurd hgone (halive (by rw [htool]; exact nofun))
  | read chunk htool => exact alive_resume (halive (by rw [htool]; exact nofun))
  | readInterrupted htool => exact alive_resume (halive (by rw [htool]; exact nofun))
  | readEnds htool hgone => exact absurd hgone (halive (by rw [htool]; exact nofun))
  | readFails | dies => exact absurd trivial hfault
  | close htool => exact ⟨nofun, fun _ => rfl⟩
  | readsHeader =>
      obtain ⟨script, normalized, hs, hscript⟩ := gotHeader_fields respond _ _
      rw [hs]
      exact ⟨h.tool, fun hexited => absurd hexited hscript⟩
  | readsBody =>
      obtain ⟨script, normalized, hs, hscript⟩ := gotBody_fields respond _ _ _
      rw [hs]
      exact ⟨h.tool, fun hexited => absurd hexited hscript⟩
  | scriptWrites =>
      refine ⟨h.tool, fun hexited => ?_⟩
      unfold Coprocess.gave at hexited
      simp only at hexited
      split at hexited <;> cases hexited
  | scriptWriteFails => exact ⟨h.tool, nofun⟩
  | headerEnds _ hgone | bodyEnds _ hgone => exact ⟨h.tool, fun _ => hclosed hgone⟩

theorem alive_invariant : (soundRuns respond m n).Invariant Alive := by
  refine Transition.Inductive.invariant ⟨?_, ?_⟩
  · rintro s ⟨⟨rfl, _⟩, _⟩
    exact ⟨nofun, nofun⟩
  · rintro s e t hs ⟨⟨hstep, _⟩, hfault⟩
    exact hs.step hfault hstep

/-- **Every request is answered**: without faults a run of moves is no longer than
the work to come, and where no move is left, each request so far is answered with
the lines of its content. -/
theorem requests_answered (respond : Bytes → List NormLine) {m n : Nat} (hm : 0 < m) (hn : 0 < n)
    {s t : Coprocess m n} {es : List PipeEvent} (hs : (soundRuns respond m n).Reachable s)
    (hrun : (soundRuns respond m n).Run s es t) (hmoves : ∀ e ∈ es, Moves e) :
    es.length + work respond t ≤ work respond s ∧
      ((∀ e u, Moves e → ¬ (soundRuns respond m n).step t e u) →
        (t.tool = .idle ∨ t.tool = .closed ∧ t.script = .exited) ∧
          t.finished = t.requested.map (answer respond)) := by
  have hprogress : (soundRuns respond m n).Progress Moves Settled (work respond) := by
    refine (coprocess_moves hm hn).restrict fun _ e _ hmove _ => ?_
    cases e with
    | dies | readFails => exact absurd hmove not_false
    | _ => exact not_false
  have ht := hs.run hrun
  refine ⟨hprogress.length_le hs hrun hmoves, fun hstuck => ?_⟩
  have hsettled : t.tool = .idle ∨ t.tool = .closed ∧ t.script = .exited := by
    refine (hprogress.settled_of_stuck ht hstuck).imp_right fun ⟨_, hexited⟩ => ?_
    exact ⟨(alive_invariant t ht).script hexited, hexited⟩
  have hagreed := (consistent_invariant t ht.of_restrict).agreed
  exact ⟨hsettled, (hagreed.quiet (hsettled.imp_right And.left)).finished⟩

/-- A content whose request goes through the pipe in two pieces, up to the state in which
there is nothing left to do: it is answered. -/
theorem requests_answered_piecewise :
    let respond := fun content : Bytes => [({ key := content } : NormLine)]
    let content := ascii "a;\n"
    ∃ (s t : Coprocess 4 12) (es : List PipeEvent), (soundRuns respond 4 12).Run s es t ∧
      s.requested = [content] ∧ s.finished = [] ∧ es.length = 6 ∧
      (∀ e u, Moves e → ¬ (soundRuns respond 4 12).step t e u) ∧
      t.finished = [answer respond content] := by
  intro respond content
  let response : Chunk := ⟨encodeResponse (respond content), by decide, by decide⟩
  let s : Coprocess 4 12 := { tool := .writing (requestOf content), requested := [content] }
  let s₁ : Coprocess 4 12 :=
    { s with tool := .writing content, toChild := ⟨[3, 0, 0, 0], by decide⟩ }
  let s₂ : Coprocess 4 12 := { s with tool := .writing content, script := .body 3 [] }
  let s₃ : Coprocess 4 12 := { s₂ with tool := .reading, toChild := ⟨content, by decide⟩ }
  let s₄ : Coprocess 4 12 :=
    { s with tool := .reading, script := .answering response.bytes, normalized := [content] }
  let s₅ : Coprocess 4 12 :=
    { s₄ with script := .header [], fromChild := ⟨response.bytes, by decide⟩ }
  let s₆ : Coprocess 4 12 := { s₅ with fromChild := {}, pipe := s₅.pipe.feed (.data response) }
  have hfits : Fits respond content := ⟨by decide, by decide, by decide⟩
  have hs : (soundRuns respond 4 12).Reachable s :=
    .step (.start ⟨⟨rfl, trivial⟩, trivial⟩) ⟨⟨.request content rfl, hfits⟩, not_false⟩
  have hwrite : Coprocess.Step respond s .write s₁ := by
    have hsplit : s.tool = .writing ([3, 0, 0, 0] ++ content) := congrArg Tool.writing (by decide)
    have halive : Script.header [] ≠ .exited := nofun
    have hput : s.toChild.Put [3, 0, 0, 0] s₁.toChild := ⟨by decide, rfl⟩
    exact .write hsplit halive hput
  have hheader : Coprocess.Step respond s₁ .scriptReads s₂ := by
    have htook : s₁.toChild.Took [3, 0, 0, 0] s₂.toChild := ⟨by decide, rfl⟩
    exact .readsHeader rfl (by decide) htook
  have hwrite' : Coprocess.Step respond s₂ .write s₃ := by
    have hsplit : s₂.tool = .writing (content ++ []) := rfl
    have halive : Script.body 3 [] ≠ .exited := nofun
    have hput : s₂.toChild.Put content s₃.toChild := ⟨by decide, rfl⟩
    exact .write hsplit halive hput
  have hbody : Coprocess.Step respond s₃ .scriptReads s₄ := by
    have htook : s₃.toChild.Took content s₄.toChild := ⟨by decide, rfl⟩
    exact .readsBody rfl (by decide) htook
  have hanswer : Coprocess.Step respond s₄ .scriptWrites s₅ := by
    have hsplit : s₄.script = .answering (response.bytes ++ []) := rfl
    have hput : s₄.fromChild.Put response.bytes s₅.fromChild := ⟨by decide, rfl⟩
    exact .scriptWrites hsplit not_false hput
  -- all of the response is there
  have hwhole : s₆.pipe.pending ++ [] = encodeResponse (respond content) := by decide
  obtain ⟨_, pipe, _, _, hresume⟩ | ⟨hmissing, _⟩ :=
    proceed_cases hfits.carried hwhole fun _ _ => .reading
  case inr => exact absurd rfl hmissing
  let t : Coprocess 4 12 :=
    { s₆ with tool := .idle, pipe := pipe, finished := s₆.finished ++ [answer respond content] }
  have hread : Coprocess.Step respond s₅ .read t := by
    have htook : s₅.fromChild.Took response.bytes {} := ⟨response.nonempty, rfl⟩
    rw [show t = s₆.resume from hresume.symm]
    exact .read response rfl htook
  have hrun : (soundRuns respond 4 12).Run s
      [.write, .scriptReads, .write, .scriptReads, .scriptWrites, .read] t :=
    .cons ⟨⟨hwrite, trivial⟩, not_false⟩ <| .cons ⟨⟨hheader, trivial⟩, not_false⟩ <|
    .cons ⟨⟨hwrite', trivial⟩, not_false⟩ <| .cons ⟨⟨hbody, trivial⟩, not_false⟩ <|
    .cons ⟨⟨hanswer, trivial⟩, not_false⟩ <| .cons ⟨⟨hread, trivial⟩, not_false⟩ (.nil t)
  have hstuck : ∀ e u, Moves e → ¬ (soundRuns respond 4 12).step t e u := by
    rintro e u hmove ⟨⟨hstep, _⟩, _⟩
    cases hstep with
    | request | writeInterrupted | readInterrupted | readFails | close | dies => cases hmove
    | write htool | writeFails htool | read _ htool | readEnds htool => cases htool
    | readsHeader _ _ htook | readsBody _ _ htook => exact Took.items_ne_nil htook rfl
    | scriptWrites hanswers | scriptWriteFails hanswers => cases hanswers
    | headerEnds _ hgone | bodyEnds _ hgone => exact hgone
  obtain ⟨_, hends⟩ := requests_answered respond (by decide) (by decide) hs hrun (by simp [Moves])
  exact ⟨s, t, _, hrun, rfl, rfl, rfl, hstuck, (hends hstuck).2⟩

end Phpatcher.Theorems
