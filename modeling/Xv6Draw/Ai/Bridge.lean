import Xv6Draw.CString
import Mathlib.Data.Nat.Basic

/-!
# The state of the AI bridge

The bridge of `ai.c` collects the bytes of a reply in a line buffer and appends
complete lines to a response buffer. Every store of this file is checked against
the size of its array, so that `none` marks a store out of bounds. The flags and
counters satisfy `Ai.Inv`, and under it `aiUartRx` never stores out of bounds and
acts as the receiver `Parser.rx` on the contents of the two buffers.
-/

namespace Xv6Draw

open Function List Option

/-- `AI_RESPONSE_MAX`. -/
def aiResponseMax : ℕ := 32768

/-- `AI_LINE_MAX`. -/
def aiLineMax : ℕ := 1024

/-- `AI_TIMEOUT_TICKS`. -/
def aiTimeoutTicks : ℕ := 500000

/-- The marker line that opens a reply. -/
def beginResp : List ℕ := str "BEGIN_RESP"

/-- The marker line that closes a reply. -/
def endResp : List ℕ := str "END_RESP"

/-- The fields of `ai` that its lock protects. -/
structure Ai where
  /-- A query holds the channel. -/
  active : Bool
  /-- The query gave up, and its late reply is being discarded. -/
  draining : Bool
  /-- Console output is kept off the UART. -/
  suppressConsole : Bool
  /-- The opening marker has been seen. -/
  inResponse : Bool
  /-- The reply has ended. -/
  complete : Bool
  /-- The reply ended by overflowing a buffer. -/
  failed : Bool
  responseLen : ℕ
  lineLen : ℕ
  /-- `char response[AI_RESPONSE_MAX]`. -/
  response : ℕ → ℕ
  /-- `char line[AI_LINE_MAX]`. -/
  line : ℕ → ℕ

/-- A store to an array of a given size; `none` is a store out of bounds. -/
def store (cap : ℕ) (a : ℕ → ℕ) (i v : ℕ) : Option (ℕ → ℕ) :=
  if i < cap then some (update a i v) else none

/-- The first `n` elements of an array. -/
def contents (a : ℕ → ℕ) (n : ℕ) : List ℕ := (range n).map a

/-- `ai_finish_locked`, up to the wakeup of the waiters. -/
def aiFinishLocked (ai : Ai) (failed : Bool) : Ai :=
  { ai with
    failed := failed, complete := true, active := false, draining := false,
    suppressConsole := false }

/-- The copying loop of `ai_append_line_locked`, from index `i` on. -/
def appendLoop (ai : Ai) (i : ℕ) : ℕ → Option Ai
  | 0 => some ai
  | k + 1 => do
    let response ← store aiResponseMax ai.response ai.responseLen (ai.line i)
    appendLoop { ai with response := response, responseLen := ai.responseLen + 1 } (i + 1) k

/-- `ai_append_line_locked`. -/
def aiAppendLineLocked (ai : Ai) : Option Ai :=
  if aiResponseMax ≤ ai.responseLen + ai.lineLen + 1 then some (aiFinishLocked ai true)
  else do
    let ai ← appendLoop ai 0 ai.lineLen
    let response ← store aiResponseMax ai.response ai.responseLen 10
    let ai := { ai with response := response, responseLen := ai.responseLen + 1 }
    let response ← store aiResponseMax ai.response ai.responseLen 0
    some { ai with response := response }

/-- The part of `ai_uart_rx` that a newline triggers, once the line has been
NUL-terminated: the line is a marker, noise, or a line of the response. -/
def aiLineEnd (ai : Ai) : Option Ai :=
  if !ai.inResponse then
    if streq (cstring aiLineMax ai.line) beginResp then do
      let response ← store aiResponseMax ai.response 0 0
      some { ai with inResponse := true, responseLen := 0, response := response }
    else some ai
  else if streq (cstring aiLineMax ai.line) endResp then some (aiFinishLocked ai false)
  else aiAppendLineLocked ai

/-- `ai_uart_rx` for the byte `c`; 13 is a carriage return and 10 a newline. -/
def aiUartRx (ai : Ai) (c : ℕ) : Option Ai :=
  if !ai.active && !ai.draining then some ai
  else if c = 13 then some ai
  else if c ≠ 10 then
    if aiLineMax - 1 ≤ ai.lineLen then some (aiFinishLocked ai true)
    else do
      let line ← store aiLineMax ai.line ai.lineLen c
      some { ai with line := line, lineLen := ai.lineLen + 1 }
  else do
    let line ← store aiLineMax ai.line ai.lineLen 0
    let ai ← aiLineEnd { ai with line := line }
    let line ← store aiLineMax ai.line 0 0
    some { ai with lineLen := 0, line := line }

/-- The first critical section of `aiquery`, entered when the channel is free:
the query claims the channel and resets the receiver. -/
def aiClaim (ai : Ai) : Ai :=
  { ai with
    active := true, draining := false, suppressConsole := true, inResponse := false,
    complete := false, failed := false, responseLen := 0, lineLen := 0,
    response := update ai.response 0 0, line := update ai.line 0 0 }

/-- The exits of the wait loop of `aiquery` for a killed or timed-out caller. -/
def aiAbandon (ai : Ai) : Ai :=
  { ai with active := false, draining := true, suppressConsole := false }

/-- The end of `aiquery` after its wait loop: the bytes copied to the caller,
whose number is returned, or `none` for -1. -/
def aiqueryResult (ai : Ai) (maxlen : ℤ) : Option (List ℕ) :=
  if ai.failed ∨ maxlen < ai.responseLen + 1 then none
  else some (contents ai.response ai.responseLen)

/-- `ai` after `aiinit`: static storage is zero. -/
def aiInit : Ai :=
  ⟨false, false, false, false, false, false, 0, 0, fun _ => 0, fun _ => 0⟩

/-- The invariant of the bridge: both lengths leave room for a terminating NUL,
the response is terminated, the channel is not claimed and drained at once, the
console is suppressed exactly while a query is active, and a complete reply
leaves the channel free. -/
structure Ai.Inv (ai : Ai) : Prop where
  lineLen_le : ai.lineLen ≤ aiLineMax - 1
  responseLen_le : ai.responseLen ≤ aiResponseMax - 1
  terminated : ai.response ai.responseLen = 0
  not_both : ¬ (ai.active = true ∧ ai.draining = true)
  suppress_eq : ai.suppressConsole = ai.active
  complete_free : ai.complete = true → ai.active = false ∧ ai.draining = false

/-- What a receiver has collected: the bytes of the response and of the
unfinished line. -/
structure Parser where
  /-- The opening marker has been seen. -/
  inResponse : Bool
  response : List ℕ
  /-- The unfinished line, without carriage returns. -/
  line : List ℕ
  deriving DecidableEq

/-- The receiver of a freshly admitted query. -/
def Parser.start : Parser := ⟨false, [], []⟩

/-- A receiver goes on, or the reply ends with or without an overflow. -/
inductive Outcome where
  | more (p : Parser)
  | done (failed : Bool) (p : Parser)
  deriving DecidableEq

/-- The response as text, one byte at a time. A line is compared with the
markers as a C string, up to its first NUL. -/
def Parser.rx (p : Parser) (c : ℕ) : Outcome :=
  if c = 13 then .more p
  else if c ≠ 10 then
    if aiLineMax - 1 ≤ p.line.length then .done true p else .more { p with line := p.line ++ [c] }
  else if !p.inResponse then
    if untilNul p.line = beginResp then .more ⟨true, [], []⟩
    else .more { p with line := [] }
  else if untilNul p.line = endResp then .done false { p with line := [] }
  else if aiResponseMax ≤ p.response.length + p.line.length + 1 then .done true { p with line := [] }
  else .more ⟨true, p.response ++ p.line ++ [10], []⟩

/-- The contents of the two buffers. -/
def Ai.parser (ai : Ai) : Parser :=
  ⟨ai.inResponse, contents ai.response ai.responseLen, contents ai.line ai.lineLen⟩

/-- The flags of the bridge after an outcome of its receiver. -/
def Outcome.Matches (o : Outcome) (ai ai' : Ai) : Prop :=
  match o with
  | .more p => ai'.parser = p ∧ ai'.active = ai.active ∧ ai'.draining = ai.draining ∧
      ai'.complete = ai.complete ∧ ai'.failed = ai.failed
  | .done failed p => ai'.parser = p ∧ ai'.active = false ∧ ai'.draining = false ∧
      ai'.complete = true ∧ ai'.failed = failed

theorem store_of_lt {cap i : ℕ} (h : i < cap) (a : ℕ → ℕ) (v : ℕ) :
    store cap a i v = some (update a i v) := if_pos h

@[simp] theorem contents_length (a : ℕ → ℕ) (n : ℕ) : (contents a n).length = n := by
  simp [contents]

@[simp] theorem contents_zero (a : ℕ → ℕ) : contents a 0 = [] := rfl

theorem contents_succ (a : ℕ → ℕ) (n : ℕ) : contents a (n + 1) = contents a n ++ [a n] := by
  simp [contents, range_succ]

/-- A store at or behind the end does not touch the contents. -/
theorem contents_update_of_le {n i : ℕ} (h : n ≤ i) (a : ℕ → ℕ) (v : ℕ) :
    contents (update a i v) n = contents a n := by
  apply map_congr_left
  intro k hk
  have hlt := mem_range.mp hk
  exact update_of_ne (by omega) _ _

theorem contents_update_self (a : ℕ → ℕ) (n v : ℕ) :
    contents (update a n v) (n + 1) = contents a n ++ [v] := by
  rw [contents_succ, contents_update_of_le le_rfl, update_self]

/-- The C string of a terminated buffer is its contents up to the first NUL. -/
theorem cstring_update {cap n : ℕ} (h : n < cap) (a : ℕ → ℕ) :
    cstring cap (update a n 0) = untilNul (contents a n) := by
  obtain ⟨k, rfl⟩ : ∃ k, cap = n + 1 + k := ⟨cap - (n + 1), by omega⟩
  have hsplit : (range (n + 1 + k)).map (update a n 0) =
      contents a n ++ 0 :: ((range k).map (n + 1 + ·)).map (update a n 0) := by
    rw [range_add, map_append]
    change contents (update a n 0) (n + 1) ++ _ = _
    rw [contents_update_self, append_assoc, singleton_append]
  rw [cstring, hsplit, untilNul_append_nul]

/-- The copying loop appends the copied part of the line. -/
theorem appendLoop_spec (ai : Ai) (i : ℕ) {k : ℕ} (hroom : ai.responseLen + k ≤ aiResponseMax) :
    ∃ response, appendLoop ai i k =
        some { ai with response := response, responseLen := ai.responseLen + k } ∧
      contents response (ai.responseLen + k) =
        contents ai.response ai.responseLen ++ (range' i k).map ai.line := by
  induction k generalizing ai i with
  | zero => exact ⟨ai.response, rfl, by simp⟩
  | succ k ih =>
    have hstore := store_of_lt (show ai.responseLen < aiResponseMax by omega) ai.response (ai.line i)
    obtain ⟨response, hloop, hcontents⟩ := ih
      { ai with
        response := update ai.response ai.responseLen (ai.line i),
        responseLen := ai.responseLen + 1 } (i + 1) (by simp only; omega)
    have hlen : ai.responseLen + 1 + k = ai.responseLen + (k + 1) := by omega
    simp only [hlen] at hloop hcontents
    refine ⟨response, ?_, ?_⟩
    · simp only [appendLoop, hstore, bind_eq_bind, bind_some, hloop]
    · rw [hcontents, contents_update_self, List.range'_succ, map_cons, append_assoc, singleton_append]

variable {ai : Ai} {p : Parser}

/-- `ai_append_line_locked` with room appends the line and a newline and
terminates the response. -/
theorem aiAppendLineLocked_of_room (hroom : ai.responseLen + ai.lineLen + 1 < aiResponseMax) :
    ∃ response, aiAppendLineLocked ai =
        some { ai with
          response := response, responseLen := ai.responseLen + ai.lineLen + 1 } ∧
      contents response (ai.responseLen + ai.lineLen + 1) =
        contents ai.response ai.responseLen ++ contents ai.line ai.lineLen ++ [10] ∧
      response (ai.responseLen + ai.lineLen + 1) = 0 := by
  obtain ⟨copied, hloop, hcopied⟩ := appendLoop_spec ai 0 (k := ai.lineLen) (by omega)
  have hnewline := store_of_lt (show ai.responseLen + ai.lineLen < aiResponseMax by omega) copied 10
  have hnul := store_of_lt (show ai.responseLen + ai.lineLen + 1 < aiResponseMax from hroom)
    (update copied (ai.responseLen + ai.lineLen) 10) 0
  refine ⟨update (update copied (ai.responseLen + ai.lineLen) 10)
    (ai.responseLen + ai.lineLen + 1) 0, ?_, ?_, update_self _ _ _⟩
  · simp only [aiAppendLineLocked, if_neg (not_le.mpr hroom), hloop, bind_eq_bind,
      bind_some, hnewline, hnul]
  · rw [contents_update_of_le le_rfl, contents_update_self, hcopied]
    simp only [contents, range_eq_range']

/-- `ai_append_line_locked` without room ends the reply as failed. -/
theorem aiAppendLineLocked_of_full (hfull : aiResponseMax ≤ ai.responseLen + ai.lineLen + 1) :
    aiAppendLineLocked ai = some (aiFinishLocked ai true) := if_pos hfull

/-- The bridge is busy while a query is active or its reply is being drained. -/
def Ai.busy (ai : Ai) : Bool := ai.active || ai.draining

theorem Ai.Inv.finish (hinv : ai.Inv) (failed : Bool) : (aiFinishLocked ai failed).Inv where
  lineLen_le := hinv.lineLen_le
  responseLen_le := hinv.responseLen_le
  terminated := hinv.terminated
  not_both := by simp [aiFinishLocked]
  suppress_eq := rfl
  complete_free := fun _ => ⟨rfl, rfl⟩

/-- The claim of the channel establishes the invariant from any state. -/
theorem aiClaim_inv (ai : Ai) : (aiClaim ai).Inv where
  lineLen_le := Nat.zero_le _
  responseLen_le := Nat.zero_le _
  terminated := by simp [aiClaim]
  not_both := by simp [aiClaim]
  suppress_eq := rfl
  complete_free := by simp [aiClaim]

/-- Giving up on an incomplete reply keeps the invariant. -/
theorem Ai.Inv.abandon (hinv : ai.Inv) (hopen : ai.complete = false) : (aiAbandon ai).Inv where
  lineLen_le := hinv.lineLen_le
  responseLen_le := hinv.responseLen_le
  terminated := hinv.terminated
  not_both := by simp [aiAbandon]
  suppress_eq := rfl
  complete_free := by simp [aiAbandon, hopen]

theorem aiInit_inv : aiInit.Inv where
  lineLen_le := Nat.zero_le _
  responseLen_le := Nat.zero_le _
  terminated := rfl
  not_both := by simp [aiInit]
  suppress_eq := rfl
  complete_free := by simp [aiInit]

theorem Ai.Inv.complete_of_busy (hinv : ai.Inv) (hbusy : ai.busy = true) :
    ai.complete = false := by
  by_contra hcomplete
  obtain ⟨ha, hd⟩ := hinv.complete_free (by simpa using hcomplete)
  simp [Ai.busy, ha, hd] at hbusy

theorem aiUartRx_of_idle (hidle : ai.busy = false) (c : ℕ) : aiUartRx ai c = some ai := by
  obtain ⟨ha, hd⟩ := Bool.or_eq_false_iff.mp hidle
  simp [aiUartRx, ha, hd]

private theorem busy_test (hbusy : ai.busy = true) : (!ai.active && !ai.draining) = false := by
  rw [← Bool.not_or, Bool.not_eq_false']
  exact hbusy

/-- The line buffer of a busy bridge takes a character while it has room. -/
theorem aiUartRx_char {c : ℕ} (hbusy : ai.busy = true) (hcr : c ≠ 13) (hnl : c ≠ 10)
    (hroom : ai.lineLen < aiLineMax - 1) :
    aiUartRx ai c = some { ai with
      line := update ai.line ai.lineLen c, lineLen := ai.lineLen + 1 } := by
  have hstore := store_of_lt (show ai.lineLen < aiLineMax by unfold aiLineMax at *; omega) ai.line c
  simp only [aiUartRx, busy_test hbusy, Bool.false_eq_true, if_false, if_neg hcr, if_pos hnl,
    if_neg (not_le.mpr hroom), hstore, bind_eq_bind, bind_some]

theorem aiUartRx_overlong {c : ℕ} (hbusy : ai.busy = true) (hcr : c ≠ 13) (hnl : c ≠ 10)
    (hfull : aiLineMax - 1 ≤ ai.lineLen) : aiUartRx ai c = some (aiFinishLocked ai true) := by
  simp only [aiUartRx, busy_test hbusy, Bool.false_eq_true, if_false, if_neg hcr, if_pos hnl,
    if_pos hfull]

/-- A newline terminates the line, acts on it and clears the line buffer. -/
theorem aiUartRx_newline {ai' : Ai} (hbusy : ai.busy = true) (hlen : ai.lineLen ≤ aiLineMax - 1)
    (hend : aiLineEnd { ai with line := update ai.line ai.lineLen 0 } = some ai') :
    aiUartRx ai 10 = some { ai' with lineLen := 0, line := update ai'.line 0 0 } := by
  have hnul := store_of_lt (show ai.lineLen < aiLineMax by unfold aiLineMax at *; omega) ai.line 0
  have hclear := store_of_lt (show 0 < aiLineMax by decide) ai'.line 0
  simp only [aiUartRx, busy_test hbusy, Bool.false_eq_true, if_false, Nat.reduceEqDiff, ne_eq,
    not_true_eq_false, hnul, bind_eq_bind, bind_some, hend, hclear]

theorem not_mem_markers : 0 ∉ beginResp ∧ 0 ∉ endResp := by decide

/-- The marker comparisons of a terminated line look at its text up to the
first NUL. -/
theorem streq_line_iff (hlen : ai.lineLen ≤ aiLineMax - 1) {marker : List ℕ} (hmarker : 0 ∉ marker) :
    streq (cstring aiLineMax (update ai.line ai.lineLen 0)) marker = true ↔
      untilNul ai.parser.line = marker := by
  rw [streq_iff hmarker, cstring_update (by unfold aiLineMax at *; omega)]
  rfl

theorem Parser.rx_newline_noise (hin : p.inResponse = false) :
    p.rx 10 = if untilNul p.line = beginResp then .more ⟨true, [], []⟩
      else .more { p with line := [] } := by
  simp [rx, hin]

theorem Parser.rx_newline_end (hin : p.inResponse = true)
    (hmarker : untilNul p.line = endResp) : p.rx 10 = .done false { p with line := [] } := by
  simp [rx, hin, hmarker]

/-- A newline in a response that ends one of its lines. -/
theorem Parser.rx_newline_line (hin : p.inResponse = true) (hmarker : untilNul p.line ≠ endResp) :
    p.rx 10 = if aiResponseMax ≤ p.response.length + p.line.length + 1
      then .done true { p with line := [] }
      else .more ⟨true, p.response ++ p.line ++ [10], []⟩ := by
  simp [rx, hin, hmarker]

/-- The newline branch of `ai_uart_rx`, from the terminated line to the cleared
line buffer, keeps the invariant and is the newline step of the receiver. -/
theorem aiLineEnd_spec (hinv : ai.Inv) :
    ∃ ai', aiLineEnd { ai with line := update ai.line ai.lineLen 0 } = some ai' ∧
      ai'.Inv ∧ (ai.parser.rx 10).Matches ai
        { ai' with lineLen := 0, line := update ai'.line 0 0 } := by
  have hbegin := streq_line_iff hinv.lineLen_le not_mem_markers.1
  have hend := streq_line_iff hinv.lineLen_le not_mem_markers.2
  have hline : contents (update ai.line ai.lineLen 0) ai.lineLen =
      contents ai.line ai.lineLen := contents_update_of_le le_rfl _ _
  have hinv' : Ai.Inv { ai with line := update ai.line ai.lineLen 0 } :=
    ⟨hinv.lineLen_le, hinv.responseLen_le, hinv.terminated, hinv.not_both, hinv.suppress_eq,
      hinv.complete_free⟩
  by_cases hin : ai.inResponse = true
  · by_cases hmarker : untilNul ai.parser.line = endResp
    · refine ⟨aiFinishLocked { ai with line := update ai.line ai.lineLen 0 } false, ?_,
        hinv'.finish false, ?_⟩
      · simp only [aiLineEnd, hin, Bool.not_true, Bool.false_eq_true, if_false, hend.mpr hmarker,
          if_true]
      · rw [Parser.rx_newline_end hin hmarker]
        exact ⟨rfl, rfl, rfl, rfl, rfl⟩
    · have hstreq : streq (cstring aiLineMax (update ai.line ai.lineLen 0)) endResp =
          false := Bool.eq_false_iff.mpr fun h => hmarker (hend.mp h)
      have hcall : aiLineEnd { ai with line := update ai.line ai.lineLen 0 } =
          aiAppendLineLocked { ai with line := update ai.line ai.lineLen 0 } := by
        simp only [aiLineEnd, hin, Bool.not_true, Bool.false_eq_true, if_false, hstreq]
      rw [hcall, Parser.rx_newline_line hin hmarker]
      have hlens : ai.parser.response.length + ai.parser.line.length + 1 =
          ai.responseLen + ai.lineLen + 1 := by simp [Ai.parser]
      rw [hlens]
      by_cases hfull : aiResponseMax ≤ ai.responseLen + ai.lineLen + 1
      · rw [if_pos hfull]
        exact ⟨_, aiAppendLineLocked_of_full hfull, hinv'.finish true, rfl, rfl, rfl, rfl, rfl⟩
      · obtain ⟨response, happend, hcontents, hnul⟩ := aiAppendLineLocked_of_room
          (show ({ ai with line := update ai.line ai.lineLen 0 } : Ai).responseLen +
            ai.lineLen + 1 < aiResponseMax from not_le.mp hfull)
        simp only [hline] at hcontents
        rw [if_neg hfull]
        refine ⟨_, happend, ?_, ?_, rfl, rfl, rfl, rfl⟩
        · refine ⟨hinv.lineLen_le, ?_, hnul, hinv.not_both, hinv.suppress_eq, hinv.complete_free⟩
          change ai.responseLen + ai.lineLen + 1 ≤ aiResponseMax - 1
          omega
        · simp only [Ai.parser, hin, hcontents, contents_zero]
  · have hout : ai.inResponse = false := by simpa using hin
    rw [Parser.rx_newline_noise hout]
    by_cases hmarker : untilNul ai.parser.line = beginResp
    · have hstore := store_of_lt (show 0 < aiResponseMax by decide) ai.response 0
      rw [if_pos hmarker]
      refine ⟨{ ai with
        line := update ai.line ai.lineLen 0, inResponse := true, responseLen := 0,
        response := update ai.response 0 0 }, ?_, ?_, rfl, rfl, rfl, rfl, rfl⟩
      · simp only [aiLineEnd, hout, Bool.not_false, if_true, hbegin.mpr hmarker, hstore,
          bind_eq_bind, bind_some]
      · exact ⟨hinv.lineLen_le, Nat.zero_le _, by simp, hinv.not_both, hinv.suppress_eq,
          hinv.complete_free⟩
    · have hstreq : streq (cstring aiLineMax (update ai.line ai.lineLen 0)) beginResp =
          false := Bool.eq_false_iff.mpr fun h => hmarker (hbegin.mp h)
      rw [if_neg hmarker]
      refine ⟨{ ai with line := update ai.line ai.lineLen 0 }, ?_, hinv', rfl, rfl, rfl, rfl, rfl⟩
      simp only [aiLineEnd, hout, Bool.not_false, if_true, hstreq, Bool.false_eq_true, if_false]

/-- Under the invariant, a busy bridge stores every byte within bounds, keeps
the invariant, and acts as the receiver on the contents of its buffers. -/
theorem aiUartRx_spec (hinv : ai.Inv) (hbusy : ai.busy = true) (c : ℕ) :
    ∃ ai', aiUartRx ai c = some ai' ∧ ai'.Inv ∧ (ai.parser.rx c).Matches ai ai' := by
  by_cases hcr : c = 13
  · subst c
    refine ⟨ai, ?_, hinv, rfl, rfl, rfl, rfl, rfl⟩
    simp only [aiUartRx, busy_test hbusy, Bool.false_eq_true, if_false, if_true]
  by_cases hnl : c = 10
  · subst c
    obtain ⟨ai', hend, hinv', hmatch⟩ := aiLineEnd_spec hinv
    refine ⟨_, aiUartRx_newline hbusy hinv.lineLen_le hend, ?_, hmatch⟩
    exact ⟨Nat.zero_le _, hinv'.responseLen_le, hinv'.terminated, hinv'.not_both,
      hinv'.suppress_eq, hinv'.complete_free⟩
  by_cases hfull : aiLineMax - 1 ≤ ai.lineLen
  · have hrx : ai.parser.rx c = .done true ai.parser := by
      simp [Parser.rx, hcr, hnl, Ai.parser, hfull]
    refine ⟨_, aiUartRx_overlong hbusy hcr hnl hfull, hinv.finish true, ?_⟩
    rw [hrx]
    exact ⟨rfl, rfl, rfl, rfl, rfl⟩
  · have hrx : ai.parser.rx c = .more { ai.parser with line := ai.parser.line ++ [c] } := by
      simp [Parser.rx, hcr, hnl, Ai.parser, hfull]
    refine ⟨_, aiUartRx_char hbusy hcr hnl (not_le.mp hfull), ?_, ?_⟩
    · refine ⟨?_, hinv.responseLen_le, hinv.terminated, hinv.not_both, hinv.suppress_eq,
        hinv.complete_free⟩
      change ai.lineLen + 1 ≤ aiLineMax - 1
      omega
    · rw [hrx]
      refine ⟨?_, rfl, rfl, rfl, rfl⟩
      simp only [Ai.parser, contents_update_self]

end Xv6Draw
