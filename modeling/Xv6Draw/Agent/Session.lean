import Xv6Draw.Agent.Generate
import Xv6Draw.Agent.Request
import Xv6Draw.Agent.Response
import Xv6Draw.Draw.Prompt

/-!
# Sessions

The loop of `run_agent` over the requests of a session, the way of a body that it sends
to the display, and the order in which the drawing is painted.
-/

namespace Xv6Draw

open Interaction Lines List PyText

/-- What the models answer in a round. -/
abbrev Replies := Backend → ℕ → Option (List ℕ)

/-- The payload that `run_agent` sends for a prompt; `none` when an exception is raised. -/
def answer (it : Interpreter) (replies : Replies) (prompt : List ℕ) : Option (List ℕ) :=
  (generateResponse it replies prompt).1.toOption.bind sendResponse

/-- The loop of `run_agent` on what `readline` has still to return: the payloads that it
sends in as many rounds as are given. An exception ends it. -/
def runAgent (it : Interpreter) : List Replies → SockFile → List (List ℕ)
  | [], _ => []
  | replies :: rounds, file =>
    match readRequest file with
    | (none, _) => []
    | (some prompt, file) =>
      match answer it replies prompt with
      | none => []
      | some payload => payload :: runAgent it rounds file

/-- A request of a session: console output that keeps the agent in step, the prompt, and what
the models answer. -/
structure Request where
  console : { p // Resync p }
  prompt : { p // PromptOk p }
  replies : Replies

/-- **Sessions.** The requests of a session are answered in their order, each by its own
prompt, until an exception is raised. -/
theorem runAgent_answers_in_order (it : Interpreter) (session : List Request) :
    runAgent it (session.map Request.replies)
        (sockFile (requestStream (session.map fun r => (r.console.1, r.prompt.1)))) =
      ((session.map fun r => answer it r.replies (strip (aiSendPrompt r.prompt))).takeWhile
        Option.isSome).reduceOption := by
  induction session with
  | nil => rfl
  | cons r session ih =>
    have hstream : requestStream ((r :: session).map fun r => (r.console.1, r.prompt.1)) =
        r.console.1 ++ aiRequest r.prompt.1 ++
          requestStream (session.map fun r => (r.console.1, r.prompt.1)) := by
      simp [requestStream]
    rw [hstream, map_cons, runAgent, readRequest_of_resync r.console.2 r.prompt.2, map_cons]
    cases hanswer : answer it r.replies (strip (aiSendPrompt r.prompt)) with
    | none => simp [hanswer]
    | some payload => simp [hanswer, ih]

/-- Whenever `ai_query` returns the reply, `aidraw` shows the image. -/
def Shown (reply : List ℕ) (image : Canvas) : Prop :=
  ∀ env argv, replyOf (exec env [] (aidraw argv)).1 = some reply → ∃ before after,
    (exec env [] (aidraw argv)).1 = before ++ after ∧ DisplayFree before ∧ ShowsImage image after

/-- The parse loop of `main` on a drawing that the bridge has received. -/
theorem parseLoop_reply (instrs : List Instr) :
    parseLoop ((drawingText instrs ++ [10]).splitOn 10) = (drawingCalls instrs, .sawEnd) := by
  have hsplit : (drawingText instrs ++ [10]).splitOn 10 = instrs.map Instr.line ++ [str "END", []] := by
    rw [drawingText, joinNewline_concat, append_assoc]
    induction instrs with
    | nil => decide
    | cons i instrs ih =>
      have hline : ∀ k ∈ i.line, (k == 10) = false := by
        intro k hk
        simpa using (Instr.of_mem_line hk).2.1
      rw [map_cons, unlines_cons, cons_append, ← ih, append_assoc]
      exact splitOnP_append_cons_of_forall_mem hline 10 rfl _
  rw [hsplit]
  exact parseLoop_drawing instrs [[]]

/-- **From the agent to the display.** The payload of a validated body that fits completes a
query, which returns the body with a newline, and `aidraw` shows what its lines draw on a
blank canvas. -/
theorem validated_body_is_shown {u : Unicode} {text body : List ℕ} (ai₀ : Ai)
    (h : validateResponse u text = .ok body) (hfits : body.length + 1 < aiResponseMax) :
    ∃ payload ai calls image, sendResponse body = some payload ∧
      feedAi (aiClaim ai₀) payload = some ai ∧ ai.complete = true ∧
      aiqueryResult ai aiResponseMax = some (body ++ [10]) ∧ parseResponse body = (calls, .sawEnd) ∧
      runCalls (fun _ => 0) calls = some image ∧ Shown (body ++ [10]) image := by
  obtain ⟨instrs, rfl⟩ := exists_drawing_of_validateResponse h
  obtain ⟨ai, hfeed, hcomplete, hfailed, hresponse⟩ := feedAi_drawing ai₀ (Nat.le_sub_one_of_lt hfits)
  have hresult : aiqueryResult ai aiResponseMax = some (drawingText instrs ++ [10]) := by
    have hlen := congrArg length hresponse
    rw [contents_length, length_append, length_singleton] at hlen
    rw [aiqueryResult, hfailed, hresponse, if_neg (by simp; omega)]
  have hparse := parseResponse_drawingText instrs (.inl rfl)
  rw [append_nil] at hparse
  obtain ⟨image, himage⟩ := exists_runCalls (fun _ => 0) (drawingCalls instrs)
  refine ⟨_, ai, _, image, sendResponse_drawingText instrs, hfeed, hcomplete, hresult, hparse,
    himage, ?_⟩
  intro env argv hreply
  obtain ⟨_, _, _, _, rest, htrace, hdata, hdraw⟩ :=
    exists_drawReply (runs_exec env [] (aidraw argv)) hreply
  have hloop := parseLoop_reply instrs
  rw [hdata] at hloop
  obtain ⟨image', himage', hshow⟩ :=
    (drawReply_spec hdraw).1 (parseLoop_sawEnd_iff.mp (congrArg Prod.snd hloop))
  rw [replyCalls, hloop, himage] at himage'
  cases himage'
  exact ⟨[_, _, _], rest, htrace, by simp [DisplayFree], hshow⟩

/-- A reply of the models is shown. -/
theorem clear_is_shown : ∃ image before after,
    (exec (goodEnv (str "CLEAR 9\nEND\n")) [] (aidraw [[], []])).1 = before ++ after ∧
      DisplayFree before ∧ ShowsImage image after := by
  have h : validateResponse Unicode.ascii (str "clear 9") = .ok (str "CLEAR 9\nEND") := by decide +kernel
  obtain ⟨_, _, _, image, -, -, -, -, -, -, hshown⟩ := validated_body_is_shown aiInit h (by decide)
  exact ⟨image, hshown _ _ rfl⟩

end Xv6Draw
