import Xv6Draw.Ai.Framing
import Xv6Draw.Syscall
import Xv6Draw.Lib.Transition

/-!
# Processes, the UART and the host around the bridge

The system has any number of processes that call `aiquery`, the interrupt handler
`uartintr` of the serial port, and the host at its other end. One event is one
critical section of `ai.lock`, or one step between two of them. The model also
keeps the history that the safety statements speak about: which request each
byte from the host answers, which bytes reached `ai_uart_rx` and which the
console, and what every admitted call returned.
-/

namespace Xv6Draw.AiSystem

open Function Lines Option Transition

/-- Where a process stands in `aiquery`. An admitted call carries the number of
its request and the size of the caller's buffer, and from the wait loop on the
tick count at which it started to wait. -/
inductive Phase where
  | outside
  | claimed (req : ℕ) (maxlen : ℤ)
  | sent (req : ℕ) (maxlen : ℤ)
  | waiting (req : ℕ) (maxlen : ℤ) (started : BitVec 32)
  | asleep (req : ℕ) (maxlen : ℤ) (started : BitVec 32)
  deriving DecidableEq

/-- The request of an admitted call. -/
def Phase.req : Phase → Option ℕ
  | .outside => none
  | .claimed req _ => some req
  | .sent req _ => some req
  | .waiting req _ _ => some req
  | .asleep req _ _ => some req

/-- `uartintr` runs on one processor only: it is not running, or it loops over
`ai_uart_rx`, or it has entered `consoleintr`. -/
inductive Handler where
  | idle
  | receiving
  | console
  deriving DecidableEq

/-- What an admitted call returned: the text for a result of at least zero,
`none` for -1, and the request whose reply had completed the bridge. -/
structure Result where
  pid : ℕ
  req : ℕ
  /-- The bytes copied to the caller. -/
  text : Option (List ℕ)
  /-- The request that the delivered reply answers. -/
  source : Option ℕ
  deriving DecidableEq

/-- A byte on the serial line, with the request that it answers, if any. -/
abbrev Tagged := ℕ × Option ℕ

/-- The state of the whole system. -/
structure State where
  ai : Ai
  /-- The tick counter, a 32-bit `uint`. -/
  ticks : BitVec 32
  /-- The progress of every process. -/
  phase : ℕ → Phase
  killed : ℕ → Bool
  /-- The serial interrupt handler. -/
  handler : Handler
  /-- Bytes from the host that have not been read from the UART. -/
  wire : List Tagged
  /-- Bytes passed to `ai_uart_rx`. -/
  received : List Tagged
  /-- Bytes passed to `consoleintr`. -/
  console : List Tagged
  /-- The number of the next admitted request. -/
  nextReq : ℕ
  /-- Requests the host has received and not yet answered, in order. -/
  queue : List ℕ
  /-- The bodies of the replies sent so far, with their requests. -/
  answers : List (ℕ × List (List ℕ))
  /-- The request whose reply set `complete` last. -/
  source : Option ℕ
  /-- What the admitted calls returned, in order. -/
  results : List Result

/-- The events of the system. -/
inductive Event where
  | call (pid : ℕ) (promptlen maxlen : ℤ)
  | send (pid : ℕ) (heard : Bool)
  | start (pid : ℕ)
  | pass (pid : ℕ)
  | wake (pid : ℕ)
  | kill (pid : ℕ)
  | tick
  | noise (bs : List ℕ)
  | answer (body : List (List ℕ))
  | enter
  | take
  | leave

/-- The bytes of a reply. -/
def frame (body : List (List ℕ)) : List ℕ := unlines 10 ([beginResp] ++ body ++ [endResp])

/-- A reply on the serial line. -/
def reply (req : ℕ) (body : List (List ℕ)) : List Tagged :=
  (frame body).map fun b => (b, some req)

/-- The text of a reply as a caller gets it: carriage returns are removed. -/
def replyText (body : List (List ℕ)) : List ℕ := unlines 10 (body.map stripCr)

/-- `aiquery` passes its checks: the arguments are in range and the channel is
neither claimed nor being drained. -/
def admits (s : State) (promptlen maxlen : ℤ) : Bool :=
  decide (0 ≤ promptlen ∧ promptlen ≤ aiPromptMax ∧ 0 < maxlen) && !s.ai.busy

/-- A call of `aiquery` up to the end of its first critical section. A refused
call returns -1 at once. -/
def call (s : State) (pid : ℕ) (promptlen maxlen : ℤ) : Option State :=
  if s.phase pid ≠ .outside then none
  else if admits s promptlen maxlen then
    some { s with
      ai := aiClaim s.ai
      phase := update s.phase pid (.claimed s.nextReq maxlen)
      nextReq := s.nextReq + 1 }
  else some s

/-- The request leaves through `uartputc`. The host may fail to recognise it
behind other output, and then never hears of it. -/
def send (s : State) (pid : ℕ) (heard : Bool) : Option State :=
  match s.phase pid with
  | .claimed req maxlen =>
    some { s with
      phase := update s.phase pid (.sent req maxlen)
      queue := if heard then s.queue ++ [req] else s.queue }
  | _ => none

/-- `started = ticks`. -/
def start (s : State) (pid : ℕ) : Option State :=
  match s.phase pid with
  | .sent req maxlen =>
    some { s with phase := update s.phase pid (.waiting req maxlen s.ticks) }
  | _ => none

/-- One pass of the wait loop under `ai.lock`: the call returns because the
reply is complete, because the process was killed or because time is up, or the
process goes to sleep. The time difference is a 32-bit difference. -/
def pass (s : State) (pid : ℕ) : Option State :=
  match s.phase pid with
  | .waiting req maxlen started =>
    if s.ai.complete then
      some { s with
        phase := update s.phase pid .outside
        results := s.results ++ [⟨pid, req, aiqueryResult s.ai maxlen, s.source⟩] }
    else if s.killed pid || decide (aiTimeoutTicks ≤ (s.ticks - started).toNat) then
      some { s with
        ai := aiAbandon s.ai
        phase := update s.phase pid .outside
        results := s.results ++ [⟨pid, req, none, none⟩] }
    else some { s with phase := update s.phase pid (.asleep req maxlen started) }
  | _ => none

/-- A sleeping process is woken, by `ai_finish_locked`, by `ai_tick` or by a
kill. The model lets a wakeup happen at any time. -/
def wake (s : State) (pid : ℕ) : Option State :=
  match s.phase pid with
  | .asleep req maxlen started =>
    some { s with phase := update s.phase pid (.waiting req maxlen started) }
  | _ => none

/-- The host answers the oldest request it has received, with a framed body
whose lines hold no newline. -/
def answer (s : State) (body : List (List ℕ)) : Option State :=
  match s.queue with
  | [] => none
  | req :: queue =>
    if ∃ l ∈ body, 10 ∈ l then none
    else some { s with
      queue := queue
      answers := s.answers ++ [(req, body)]
      wire := s.wire ++ reply req body }

/-- `uartintr` starts and decides by `ai_is_active` where its bytes go. -/
def enter (s : State) : Option State :=
  match s.handler with
  | .idle => some { s with handler := if s.ai.busy then .receiving else .console }
  | _ => none

/-- The running handler takes one byte from the UART. -/
def take (s : State) : Option State :=
  match s.handler, s.wire with
  | .receiving, (b, tag) :: wire =>
    (aiUartRx s.ai b).map fun ai =>
      { s with
        ai := ai
        wire := wire
        received := s.received ++ [(b, tag)]
        source := if ai.complete && !s.ai.complete then tag else s.source }
  | .console, byte :: wire => some { s with wire := wire, console := s.console ++ [byte] }
  | _, _ => none

/-- The handler finds no byte ready and returns. -/
def leave (s : State) : Option State :=
  match s.handler with
  | .idle => none
  | _ => some { s with handler := .idle }

/-- The effect of an event, or `none` when it cannot happen in this state. -/
def step (s : State) : Event → Option State
  | .call pid promptlen maxlen => call s pid promptlen maxlen
  | .send pid heard => send s pid heard
  | .start pid => start s pid
  | .pass pid => pass s pid
  | .wake pid => wake s pid
  | .kill pid => some { s with killed := update s.killed pid true }
  | .tick => some { s with ticks := s.ticks + 1 }
  | .noise bs => some { s with wire := s.wire ++ bs.map fun b => (b, none) }
  | .answer body => answer s body
  | .enter => enter s
  | .take => take s
  | .leave => leave s

/-- The system after boot. -/
def init : State where
  ai := aiInit
  ticks := 0
  phase := fun _ => .outside
  killed := fun _ => false
  handler := .idle
  wire := []
  received := []
  console := []
  nextReq := 0
  queue := []
  answers := []
  source := none
  results := []

variable {s t : State} {pid : ℕ}

/-- A call is admitted and claims the channel, or it is refused. -/
theorem call_cases {promptlen maxlen : ℤ} (h : call s pid promptlen maxlen = some t) :
    s.phase pid = .outside ∧
      ((admits s promptlen maxlen = true ∧ t = { s with
        ai := aiClaim s.ai
        phase := update s.phase pid (.claimed s.nextReq maxlen)
        nextReq := s.nextReq + 1 }) ∨ t = s) := by
  unfold call at h
  split_ifs at h with hphase hadmits
  · exact ⟨by simpa using hphase, .inl ⟨hadmits, (some.inj h).symm⟩⟩
  · exact ⟨by simpa using hphase, .inr (some.inj h).symm⟩

theorem send_cases {heard : Bool} (h : send s pid heard = some t) :
    ∃ req maxlen, s.phase pid = .claimed req maxlen ∧ t = { s with
      phase := update s.phase pid (.sent req maxlen)
      queue := if heard then s.queue ++ [req] else s.queue } := by
  unfold send at h
  split at h
  · next req maxlen hphase => exact ⟨req, maxlen, hphase, (some.inj h).symm⟩
  · simp at h

/-- Only a call that has sent its request starts to wait. -/
theorem start_cases (h : start s pid = some t) :
    ∃ req maxlen, s.phase pid = .sent req maxlen ∧ t = { s with
      phase := update s.phase pid (.waiting req maxlen s.ticks) } := by
  unfold start at h
  split at h
  · next req maxlen hphase => exact ⟨req, maxlen, hphase, (some.inj h).symm⟩
  · simp at h

/-- A pass of the wait loop delivers a complete reply, gives up on an
incomplete one, or goes to sleep. -/
theorem pass_cases (h : pass s pid = some t) :
    ∃ req maxlen started, s.phase pid = .waiting req maxlen started ∧
      ((s.ai.complete = true ∧ t = { s with
          phase := update s.phase pid .outside
          results := s.results ++ [⟨pid, req, aiqueryResult s.ai maxlen, s.source⟩] }) ∨
        (s.ai.complete = false ∧ t = { s with
          ai := aiAbandon s.ai
          phase := update s.phase pid .outside
          results := s.results ++ [⟨pid, req, none, none⟩] }) ∨
        t = { s with phase := update s.phase pid (.asleep req maxlen started) }) := by
  unfold pass at h
  split at h
  · next req maxlen started hphase =>
    refine ⟨req, maxlen, started, hphase, ?_⟩
    split_ifs at h with hcomplete hgiveup
    · exact .inl ⟨hcomplete, (some.inj h).symm⟩
    · exact .inr (.inl ⟨by simpa using hcomplete, (some.inj h).symm⟩)
    · exact .inr (.inr (some.inj h).symm)
  · simp at h

theorem wake_cases (h : wake s pid = some t) :
    ∃ req maxlen started, s.phase pid = .asleep req maxlen started ∧ t = { s with
      phase := update s.phase pid (.waiting req maxlen started) } := by
  unfold wake at h
  split at h
  · next req maxlen started hphase =>
    exact ⟨req, maxlen, started, hphase, (some.inj h).symm⟩
  · simp at h

/-- The host answers a request it has received. -/
theorem answer_cases {body : List (List ℕ)} (h : answer s body = some t) :
    (∀ l ∈ body, 10 ∉ l) ∧ ∃ req queue, s.queue = req :: queue ∧ t = { s with
      queue := queue
      answers := s.answers ++ [(req, body)]
      wire := s.wire ++ reply req body } := by
  unfold answer at h
  split at h
  · simp at h
  · next req queue hqueue =>
    split_ifs at h with hlines
    refine ⟨?_, req, queue, hqueue, (some.inj h).symm⟩
    intro l hl hmem
    exact hlines ⟨l, hl, hmem⟩

theorem enter_cases (h : enter s = some t) :
    s.handler = .idle ∧ t = { s with handler := if s.ai.busy then .receiving else .console } := by
  unfold enter at h
  split at h
  · next hhandler => exact ⟨hhandler, (some.inj h).symm⟩
  · simp at h

/-- The running handler passes the next byte to the bridge or to the console. -/
theorem take_cases (h : take s = some t) : ∃ b tag wire, s.wire = (b, tag) :: wire ∧
      ((s.handler = .receiving ∧ ∃ ai, aiUartRx s.ai b = some ai ∧ t = { s with
          ai := ai
          wire := wire
          received := s.received ++ [(b, tag)]
          source := if ai.complete && !s.ai.complete then tag else s.source }) ∨
        (s.handler = .console ∧ t = { s with
          wire := wire, console := s.console ++ [(b, tag)] })) := by
  unfold take at h
  split at h
  · next b tag wire hhandler hwire =>
    obtain ⟨ai, hrx, hstate⟩ := map_eq_some_iff.mp h
    exact ⟨b, tag, wire, hwire, .inl ⟨hhandler, ai, hrx, hstate.symm⟩⟩
  · next byte wire hhandler hwire =>
    exact ⟨byte.1, byte.2, wire, hwire, .inr ⟨hhandler, (some.inj h).symm⟩⟩
  · simp at h

theorem leave_cases (h : leave s = some t) : t = { s with handler := .idle } := by
  unfold leave at h
  split at h
  · simp at h
  · exact (some.inj h).symm

/-- An event leaves the bridge alone, claims a free channel, gives up on an
incomplete reply, or feeds one byte to `ai_uart_rx`. -/
theorem step_ai {e : Event} (hstep : step s e = some t) :
    t.ai = s.ai ∨ t.ai = aiClaim s.ai ∨ (t.ai = aiAbandon s.ai ∧ s.ai.complete = false) ∨
      ∃ b, aiUartRx s.ai b = some t.ai := by
  cases e with
  | call pid promptlen maxlen =>
    obtain ⟨-, ⟨-, rfl⟩ | rfl⟩ := call_cases hstep
    · exact .inr (.inl rfl)
    · exact .inl rfl
  | send pid heard =>
    obtain ⟨req, maxlen, -, rfl⟩ := send_cases hstep
    exact .inl rfl
  | start pid =>
    obtain ⟨req, maxlen, -, rfl⟩ := start_cases hstep
    exact .inl rfl
  | pass pid =>
    obtain ⟨req, maxlen, started, -, ⟨-, rfl⟩ | ⟨hopen, rfl⟩ | rfl⟩ := pass_cases hstep
    · exact .inl rfl
    · exact .inr (.inr (.inl ⟨rfl, hopen⟩))
    · exact .inl rfl
  | wake pid =>
    obtain ⟨req, maxlen, started, -, rfl⟩ := wake_cases hstep
    exact .inl rfl
  | kill pid => exact .inl (by rw [← some.inj hstep])
  | tick => exact .inl (by rw [← some.inj hstep])
  | noise bs => exact .inl (by rw [← some.inj hstep])
  | answer body =>
    obtain ⟨-, req, queue, -, rfl⟩ := answer_cases hstep
    exact .inl rfl
  | enter =>
    obtain ⟨-, rfl⟩ := enter_cases hstep
    exact .inl rfl
  | take =>
    obtain ⟨b, tag, wire, -, ⟨-, ai, hrx, rfl⟩ | ⟨-, rfl⟩⟩ := take_cases hstep
    · exact .inr (.inr (.inr ⟨b, hrx⟩))
    · exact .inl rfl
  | leave =>
    obtain rfl := leave_cases hstep
    exact .inl rfl

/-- Every event keeps the invariant of the bridge. -/
theorem step_inv {e : Event} (hinv : s.ai.Inv) (hstep : step s e = some t) :
    t.ai.Inv := by
  rcases step_ai hstep with hsame | hclaim | ⟨habandon, hopen⟩ | ⟨b, hrx⟩
  · rwa [hsame]
  · rw [hclaim]
    exact aiClaim_inv s.ai
  · rw [habandon]
    exact hinv.abandon hopen
  · cases hbusy : s.ai.busy with
    | false =>
      rw [aiUartRx_of_idle hbusy, some.injEq] at hrx
      rwa [← hrx]
    | true =>
      obtain ⟨ai', hrx', hinv', -⟩ := aiUartRx_spec hinv hbusy b
      rw [hrx, some.injEq] at hrx'
      rwa [hrx']

/-- Under the invariant no byte makes `ai_uart_rx` store out of bounds. -/
theorem aiUartRx_isSome {ai : Ai} (hinv : ai.Inv) (c : ℕ) : (aiUartRx ai c).isSome = true := by
  cases hbusy : ai.busy with
  | false => rw [aiUartRx_of_idle hbusy]; rfl
  | true =>
    obtain ⟨ai', hrx, -⟩ := aiUartRx_spec hinv hbusy c
    rw [hrx]
    rfl

/-- Under the invariant `ai_append_line_locked` stores within bounds. -/
theorem aiAppendLineLocked_isSome (ai : Ai) : (aiAppendLineLocked ai).isSome = true := by
  by_cases hfull : aiResponseMax ≤ ai.responseLen + ai.lineLen + 1
  · rw [aiAppendLineLocked_of_full hfull]
    rfl
  · obtain ⟨response, happend, -⟩ := aiAppendLineLocked_of_room (not_le.mp hfull)
    rw [happend]
    rfl

/-- **The bridge invariant.** In every state that any run of calls, wakeups,
kills, timeouts and serial bytes reaches, the lengths leave room for the NUL, the
response is terminated, the flags are consistent, and no byte that arrives next
makes the bridge store out of bounds. -/
theorem reachable_bridge_inv {es : List Event} {s : State} (hrun : run step init es = some s) :
    s.ai.lineLen ≤ aiLineMax - 1 ∧ s.ai.responseLen ≤ aiResponseMax - 1 ∧
      s.ai.response s.ai.responseLen = 0 ∧ ¬ (s.ai.active = true ∧ s.ai.draining = true) ∧
      s.ai.suppressConsole = s.ai.active ∧
      (s.ai.complete = true → s.ai.active = false ∧ s.ai.draining = false) ∧
      (∀ c, (aiUartRx s.ai c).isSome = true) ∧ (aiAppendLineLocked s.ai).isSome = true := by
  have hinv : s.ai.Inv :=
    invariant_run (I := fun s => s.ai.Inv) step_inv aiInit_inv hrun
  exact ⟨hinv.lineLen_le, hinv.responseLen_le, hinv.terminated, hinv.not_both, hinv.suppress_eq,
    hinv.complete_free, aiUartRx_isSome hinv, aiAppendLineLocked_isSome s.ai⟩

/-- A claimed channel that has received one byte. -/
theorem bridge_inv_after_one_byte :
    ∃ s, run step init [.call 0 5 100, .noise [65], .enter, .take] = some s ∧
      s.ai.lineLen = 1 ∧ s.ai.suppressConsole = s.ai.active ∧
      (∀ c, (aiUartRx s.ai c).isSome = true) := by
  obtain ⟨s, hrun, hlen⟩ : ∃ s,
      run step init [.call 0 5 100, .noise [65], .enter, .take] = some s ∧
        s.ai.lineLen = 1 := ⟨_, rfl, rfl⟩
  have hinv := reachable_bridge_inv hrun
  exact ⟨s, hrun, hlen, hinv.2.2.2.2.1, hinv.2.2.2.2.2.2.1⟩

end Xv6Draw.AiSystem
