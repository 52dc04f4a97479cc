import Mathlib.Data.List.DropRight
import Xv6Draw.Lib.Ring
import Xv6Draw.Lib.Transition

/-!
# Console input

The input buffer of `console.c` with any number of processes that read it. A ring holds the
characters, and three counters cut them in two: those from `r` to `w` are committed and wait
for a reader, and those from `w` to `e` belong to the line that is still edited. Characters
come in one at a time. A process in `consoleread` makes one turn of its loop at a time with the
lock held, and gives the lock up where it sleeps.

The state has a history: the characters that were committed, those that readers have
taken out for good, and the calls of `consoleread` that are over.

The ring and its counters are an implementation of two lists, on which the keys act as on a
line of text. All results are about the lists.
-/

namespace Xv6Draw.Console

open Function List Ring Transition

/-- `INPUT_BUF`. -/
def inputBuf : ℕ := 128

/-- `C(x)`, a control key. -/
def ctrl (x : Char) : BitVec 8 := BitVec.ofNat 8 (x.toNat - '@'.toNat)

/-- `'\n'`. -/
def newline : BitVec 8 := 10

/-- `'\r'`. -/
def carriageReturn : BitVec 8 := 13

/-- The delete key. -/
def delete : BitVec 8 := 0x7f

/-- What a process does. -/
inductive Code where
  | idle
  /-- `consoleread` with its `target`, what is left of it, and the characters copied so far. -/
  | read (target n : ℤ) (dst : List (BitVec 8))
  deriving DecidableEq

/-- A call of `consoleread` that is over. -/
structure Call where
  /-- The number of characters that were asked for. -/
  target : ℤ
  /-- The characters that were returned. -/
  bytes : List (BitVec 8)
  /-- Did it end at a control-D? -/
  eof : Bool
  deriving DecidableEq

/-- A process. -/
structure Thread where
  code : Code
  /-- Does it sleep on `&input.r`? -/
  asleep : Bool
  /-- Its calls that are over. -/
  calls : List Call

/-- The input buffer and the processes. -/
structure State (ι : Type) where
  buf : ℕ → BitVec 8
  r : BitVec 32
  w : BitVec 32
  e : BitVec 32
  raw : Bool
  /-- The process in `consoleread` that holds `input.lock`. -/
  lock : Option ι
  thread : ι → Thread
  committed : List (BitVec 8)
  /-- The characters that readers have taken out, with the readers. -/
  taken : List (ι × BitVec 8)

section

variable {ι : Type}

/-- `input.w = input.e; wakeup(&input.r)`. -/
def commit (s : State ι) : State ι :=
  { s with
    w := s.e
    committed := s.committed ++ Ring.contents inputBuf s.buf s.w s.e
    thread := fun p => { s.thread p with asleep := false } }

/-- The loop for the key that kills the line, which makes at most as many turns as the line
is long. -/
def killLine (buf : ℕ → BitVec 8) (w : BitVec 32) : ℕ → BitVec 32 → BitVec 32
  | 0, e => e
  | k + 1, e =>
    if e ≠ w ∧ buf ((e - 1).toNat % inputBuf) ≠ newline then killLine buf w k (e - 1) else e

/-- What is stored for a key. -/
def stored (c : BitVec 8) : BitVec 8 := if c = carriageReturn then newline else c

/-- A character is stored, and the line is committed if the character ends it. -/
def store (s : State ι) (c : BitVec 8) : State ι :=
  let t := { s with buf := update s.buf (s.e.toNat % inputBuf) c, e := s.e + 1 }
  if s.raw ∨ c = newline ∨ c = ctrl 'D' ∨ t.e = s.r + BitVec.ofNat 32 inputBuf then commit t else t

/-- A turn of the loop of `consoleintr`. -/
def consoleintr (s : State ι) (c : BitVec 8) : State ι :=
  -- the reboot and the list of processes leave the buffer alone
  if c = ctrl 'Z' ∨ c = ctrl 'P' then s
  else if c = ctrl 'U' then { s with e := killLine s.buf s.w (s.e - s.w).toNat s.e }
  else if c = ctrl 'H' ∨ c = delete then if s.e ≠ s.w then { s with e := s.e - 1 } else s
  else if c ≠ 0 ∧ (s.e - s.r).toNat < inputBuf then store s (stored c)
  else s

/-- `consoleioctl` with the parameter of the raw mode. -/
def consoleioctl (s : State ι) (value : BitVec 32) : State ι :=
  let t := { s with raw := value ≠ 0 }
  if t.raw ∧ t.r ≠ t.e then commit t else t

variable [DecidableEq ι]

/-- A change to a process. -/
def State.setThread (s : State ι) (p : ι) (x : Thread) : State ι :=
  { s with thread := update s.thread p x }

/-- `consoleread` gives up the lock and returns. -/
def readReturn (s : State ι) (p : ι) (call : Call) : State ι :=
  { s.setThread p { s.thread p with code := .idle, calls := (s.thread p).calls ++ [call] } with
    lock := none }

/-- A reader takes the character at `input.r` out of the buffer. -/
def take (s : State ι) (p : ι) : State ι :=
  { s with r := s.r + 1, taken := s.taken ++ [(p, s.buf (s.r.toNat % inputBuf))] }

/-- A turn of the loop of `consoleread`. The process is not killed. -/
def consoleread (s : State ι) (p : ι) (target n : ℤ) (dst : List (BitVec 8)) : State ι :=
  if 0 < n then
    if s.r = s.w then
      { s.setThread p { s.thread p with asleep := true } with lock := none }
    else
      let c := s.buf (s.r.toNat % inputBuf)
      if c = ctrl 'D' then
        -- something was copied: the control-D is saved for the next call
        if n < target then readReturn s p ⟨target, dst, true⟩
        else readReturn (take s p) p ⟨target, dst, true⟩
      else if c = newline then readReturn (take s p) p ⟨target, dst ++ [c], false⟩
      else
        (take s p).setThread p { s.thread p with code := .read target (n - 1) (dst ++ [c]) }
  else readReturn s p ⟨target, dst, false⟩

/-- What can happen. -/
inductive Event (ι : Type) where
  /-- A character comes in. -/
  | key (c : BitVec 8)
  /-- The raw mode is switched. -/
  | raw (value : BitVec 32)
  /-- A call of `consoleread` starts. -/
  | read (p : ι) (n : ℤ)
  /-- A process in `consoleread` gets the lock. -/
  | acquire (p : ι)
  /-- The holder of the lock makes a turn. -/
  | run (p : ι)

/-- One step. -/
def step (s : State ι) : Event ι → Option (State ι)
  | .key c => if s.lock = none then some (consoleintr s c) else none
  | .raw value => if s.lock = none then some (consoleioctl s value) else none
  | .read p n =>
    if (s.thread p).code = .idle then
      some (s.setThread p { s.thread p with code := .read n n [] })
    else none
  | .acquire p =>
    if s.lock = none ∧ (s.thread p).code ≠ .idle ∧ (s.thread p).asleep = false then
      some { s with lock := some p }
    else none
  | .run p =>
    if s.lock = some p then
      match (s.thread p).code with
      | .idle => none
      | .read target n dst => some (consoleread s p target n dst)
    else none

/-- The console before the first character. -/
def boot (ι : Type) : State ι where
  buf _ := 0
  r := 0
  w := 0
  e := 0
  raw := false
  lock := none
  thread _ := ⟨.idle, false, []⟩
  committed := []
  taken := []

end

/-! ### Lines of text -/

/-- What a key does to the committed characters and to the line. -/
def type (raw : Bool) (c : BitVec 8) (queue line : List (BitVec 8)) :
    List (BitVec 8) × List (BitVec 8) :=
  if c = ctrl 'Z' ∨ c = ctrl 'P' then (queue, line)
  else if c = ctrl 'U' then (queue, line.rdropWhile (· ≠ newline))
  else if c = ctrl 'H' ∨ c = delete then (queue, line.dropLast)
  else if c ≠ 0 ∧ (queue ++ line).length < inputBuf then
    if raw ∨ stored c = newline ∨ stored c = ctrl 'D' ∨ (queue ++ line).length + 1 = inputBuf then
      (queue ++ (line ++ [stored c]), [])
    else (queue, line ++ [stored c])
  else (queue, line)

/-- The committed characters that wait for a reader. -/
def State.queue {ι : Type} (s : State ι) : List (BitVec 8) := Ring.contents inputBuf s.buf s.r s.w

/-- The line that is still edited. -/
def State.line {ι : Type} (s : State ι) : List (BitVec 8) := Ring.contents inputBuf s.buf s.w s.e

/-- All characters that came in and were not erased, in order. -/
def State.stream {ι : Type} (s : State ι) : List (BitVec 8) := s.taken.map Prod.snd ++ (s.queue ++ s.line)

variable {ι : Type} {s t : State ι} {queue line : List (BitVec 8)}

/-- The ring and its counters hold two lists, and the history is that of the first one. -/
structure Rep (s : State ι) (queue line : List (BitVec 8)) : Prop where
  ring : Holds inputBuf s.buf s.r s.e (queue ++ line)
  mid : s.w = s.r + BitVec.ofNat 32 queue.length
  committed : s.committed = s.taken.map Prod.snd ++ queue

theorem inputBuf_dvd : inputBuf ∣ 2 ^ 32 := by decide

theorem inputBuf_lt : inputBuf < 2 ^ 32 := by decide

theorem Rep.left (h : Rep s queue line) : Holds inputBuf s.buf s.r s.w queue := by
  rw [h.mid]
  exact h.ring.left

theorem Rep.right (h : Rep s queue line) : Holds inputBuf s.buf s.w s.e line := by
  rw [h.mid]
  exact h.ring.right inputBuf_dvd

theorem Rep.commit (h : Rep s queue line) : Rep (commit s) (queue ++ line) [] := by
  refine ⟨?_, ?_, ?_⟩
  · rw [append_nil]
    exact h.ring
  · exact h.ring.count
  · change s.committed ++ Ring.contents inputBuf s.buf s.w s.e = s.taken.map Prod.snd ++ (queue ++ line)
    rw [h.right.contents_eq inputBuf_lt, h.committed, append_assoc]

variable {c : BitVec 8} {target n : ℤ} {p : ι}

/-- The last character of the line is taken back. -/
theorem Rep.unpush (h : Rep s queue (line ++ [c])) :
    s.buf ((s.e - 1).toNat % inputBuf) = c ∧ Rep { s with e := s.e - 1 } queue line := by
  have hring := h.ring
  rw [← append_assoc] at hring
  obtain ⟨hcell, hrest⟩ := hring.unpush inputBuf_dvd
  exact ⟨hcell, hrest, h.mid, h.committed⟩

/-- The loop that kills the line. -/
theorem Rep.killLine (h : Rep s queue line) :
    Rep { s with e := killLine s.buf s.w line.length s.e } queue
      (line.rdropWhile (· ≠ newline)) := by
  induction line using List.reverseRecOn generalizing s with
  | nil => exact h
  | append_singleton line c ih =>
    obtain ⟨hcell, hrest⟩ := h.unpush
    have hopen : s.e ≠ s.w := by
      intro heq
      have hempty := (h.right.empty_iff inputBuf_lt).mp heq.symm
      exact absurd hempty (by simp)
    rw [length_append, length_singleton, Console.killLine, hcell]
    by_cases hc : c = newline
    · rw [if_neg (by tauto), rdropWhile_concat_neg _ _ _ (by simpa using hc)]
      exact h
    · rw [if_pos ⟨hopen, hc⟩, rdropWhile_concat_pos _ _ _ (by simpa using hc)]
      exact ih hrest

theorem Rep.store (h : Rep s queue line) (hroom : (queue ++ line).length < inputBuf) (c : BitVec 8) :
    Rep (store s c)
      (if s.raw ∨ c = newline ∨ c = ctrl 'D' ∨ (queue ++ line).length + 1 = inputBuf then
        queue ++ (line ++ [c]) else queue)
      (if s.raw ∨ c = newline ∨ c = ctrl 'D' ∨ (queue ++ line).length + 1 = inputBuf then
        [] else line ++ [c]) := by
  have hpush := h.ring.push inputBuf_dvd hroom c
  rw [append_assoc] at hpush
  have hfull := hpush.full_iff inputBuf_lt
  have hlength : (queue ++ (line ++ [c])).length = (queue ++ line).length + 1 := by
    simp only [length_append, length_singleton]
    omega
  rw [hlength] at hfull
  have hrep : Rep { s with buf := update s.buf (s.e.toNat % inputBuf) c, e := s.e + 1 }
      queue (line ++ [c]) := ⟨hpush, h.mid, h.committed⟩
  unfold Console.store
  simp only [hfull]
  split_ifs
  · exact hrep.commit
  · exact hrep

/-- A key acts on the ring as on the two lists. -/
theorem Rep.consoleintr (h : Rep s queue line) (c : BitVec 8) :
    Rep (consoleintr s c) (type s.raw c queue line).1 (type s.raw c queue line).2 := by
  unfold Console.consoleintr type
  rw [h.right.length_eq inputBuf_lt, h.ring.length_eq inputBuf_lt]
  split_ifs with hnone hkill herase hopen hroom hcommit
  · exact h
  · exact h.killLine
  · obtain ⟨init, last, rfl⟩ : ∃ init last, line = init ++ [last] := by
      rcases eq_nil_or_concat line with rfl | ⟨init, last, rfl⟩
      · exact absurd ((h.right.empty_iff inputBuf_lt).mpr rfl).symm hopen
      · exact ⟨init, last, concat_eq_append⟩
    rw [dropLast_concat]
    exact h.unpush.2
  · have hempty : line = [] := (h.right.empty_iff inputBuf_lt).mp (not_not.mp hopen).symm
    rw [hempty] at h ⊢
    exact h
  · have hstore := h.store hroom.2 (stored c)
    rw [if_pos hcommit, if_pos hcommit] at hstore
    exact hstore
  · have hstore := h.store hroom.2 (stored c)
    rw [if_neg hcommit, if_neg hcommit] at hstore
    exact hstore
  · exact h

/-- A switch of the raw mode commits the line, or leaves the buffer alone. -/
theorem Rep.consoleioctl (h : Rep s queue line) (value : BitVec 32) :
    Rep (consoleioctl s value) (if value ≠ 0 then queue ++ line else queue)
      (if value ≠ 0 then [] else line) := by
  have hrep : Rep { s with raw := value ≠ 0 } queue line := ⟨h.ring, h.mid, h.committed⟩
  unfold Console.consoleioctl
  simp only [decide_eq_true_eq]
  by_cases hvalue : value ≠ 0
  · rw [if_pos hvalue, if_pos hvalue]
    by_cases hempty : s.r = s.e
    · rw [if_neg (by tauto)]
      have hnil := (h.ring.empty_iff inputBuf_lt).mp hempty
      have hline : line = [] := (append_eq_nil_iff.mp hnil).2
      rw [hline] at hrep ⊢
      rw [append_nil]
      exact hrep
    · rw [if_pos ⟨hvalue, hempty⟩]
      exact hrep.commit
  · rw [if_neg hvalue, if_neg hvalue, if_neg (by tauto)]
    exact hrep

/-- The first committed character is taken out. -/
theorem Rep.take [DecidableEq ι] (h : Rep s (c :: queue) line) (p : ι) :
    s.buf (s.r.toNat % inputBuf) = c ∧ Rep (take s p) queue line := by
  obtain ⟨hcell, hrest⟩ := h.ring.pop inputBuf_dvd
  refine ⟨hcell, hrest, ?_, ?_⟩
  · exact (h.left.pop inputBuf_dvd).2.count
  · change s.committed = (s.taken ++ [(p, s.buf (s.r.toNat % inputBuf))]).map Prod.snd ++ queue
    rw [hcell, h.committed, map_append]
    simp

/-! ### Readers -/

/-- The characters that a process has taken out, in order. -/
def State.takenBy [DecidableEq ι] (s : State ι) (p : ι) : List (BitVec 8) :=
  (s.taken.filter fun x => x.1 = p).map Prod.snd

/-- The characters that a process in `consoleread` has copied. -/
def Code.dst : Code → List (BitVec 8)
  | .idle => []
  | .read _ _ dst => dst

/-- The characters that a call has taken out: those it returns, or the control-D alone. -/
def Call.chars (call : Call) : List (BitVec 8) :=
  if call.bytes = [] ∧ call.eof then [ctrl 'D'] else call.bytes

/-- How a call ends: it returns no control-D and at most one newline, the last character, and
less than what was asked for only at a newline or before a control-D. -/
structure Call.Ok (call : Call) : Prop where
  clean : ctrl 'D' ∉ call.bytes
  newline_last : newline ∉ call.bytes.dropLast
  length_le : (call.bytes.length : ℤ) ≤ max call.target 0
  early : (call.bytes.length : ℤ) < call.target →
    call.eof = true ∨ call.bytes.getLast? = some newline

/-- A call that goes on has copied neither a newline nor a control-D. -/
def Code.Ok : Code → Prop
  | .idle => True
  | .read target n dst =>
    n = target - dst.length ∧ (dst ≠ [] → 0 ≤ n) ∧ ctrl 'D' ∉ dst ∧ newline ∉ dst

/-- The calls of a process account for the characters that it has taken out. -/
structure ReaderOk (chars : List (BitVec 8)) (x : Thread) : Prop where
  chars_eq : chars = x.calls.flatMap Call.chars ++ x.code.dst
  calls : ∀ call ∈ x.calls, call.Ok
  code : x.code.Ok

/-- What every step keeps. -/
structure Inv [DecidableEq ι] (s : State ι) : Prop where
  rep : ∃ queue line, Rep s queue line ∧ (s.raw = true → line = [])
  readers : ∀ p, ReaderOk (s.takenBy p) (s.thread p)

/-- The lists that the counters cut out are those of the representation. -/
theorem Rep.lists (h : Rep s queue line) : s.queue = queue ∧ s.line = line :=
  ⟨h.left.contents_eq inputBuf_lt, h.right.contents_eq inputBuf_lt⟩

variable {chars dst more : List (BitVec 8)}

/-- A call that has ended is added to the account. -/
theorem ReaderOk.call {x : Thread} (h : ReaderOk chars x) (hcode : x.code = .read target n dst)
    {call : Call} (hcall : call.Ok) (hchars : dst ++ more = call.chars) :
    ReaderOk (chars ++ more) { x with code := .idle, calls := x.calls ++ [call] } := by
  refine ⟨?_, ?_, trivial⟩
  · rw [h.chars_eq, hcode]
    simp only [Code.dst, flatMap_append, flatMap_singleton, append_nil, append_assoc, hchars]
  · intro c hc
    rcases mem_append.mp hc with hold | hnew
    · exact h.calls c hold
    · rw [mem_singleton.mp hnew]
      exact hcall

/-- A process that only falls asleep or wakes up. -/
theorem ReaderOk.congr {x y : Thread} (h : ReaderOk chars x)
    (hcode : y.code = x.code) (hcalls : y.calls = x.calls) : ReaderOk chars y := by
  refine ⟨?_, ?_, ?_⟩
  · rw [hcalls, hcode]
    exact h.chars_eq
  · rw [hcalls]
    exact h.calls
  · rw [hcode]
    exact h.code

theorem consoleintr_frame (s : State ι) (c : BitVec 8) :
    (consoleintr s c).taken = s.taken ∧ (consoleintr s c).raw = s.raw ∧
      ∀ p, ((consoleintr s c).thread p).code = (s.thread p).code ∧
        ((consoleintr s c).thread p).calls = (s.thread p).calls := by
  unfold consoleintr store commit
  simp only
  split_ifs <;> exact ⟨rfl, rfl, fun p => ⟨rfl, rfl⟩⟩

theorem consoleioctl_frame (s : State ι) (value : BitVec 32) :
    (consoleioctl s value).taken = s.taken ∧ (consoleioctl s value).raw = decide (value ≠ 0) ∧
      ∀ p, ((consoleioctl s value).thread p).code = (s.thread p).code ∧
        ((consoleioctl s value).thread p).calls = (s.thread p).calls := by
  unfold consoleioctl commit
  simp only
  split_ifs <;> exact ⟨rfl, rfl, fun p => ⟨rfl, rfl⟩⟩

/-- In the raw mode every character is committed at once. -/
theorem type_raw (c : BitVec 8) (queue : List (BitVec 8)) : (type true c queue []).2 = [] := by
  unfold type
  split_ifs with h1 h2 h3 h4 h5
  · rfl
  · rfl
  · rfl
  · rfl
  · exact absurd (.inl rfl) h5
  · rfl

variable [DecidableEq ι]

theorem takenBy_take (s : State ι) (p q : ι) : (take s p).takenBy q =
    s.takenBy q ++ if p = q then [s.buf (s.r.toNat % inputBuf)] else [] := by
  unfold State.takenBy take
  simp only [filter_append, map_append]
  congr 1
  by_cases hpq : p = q
  · simp [hpq]
  · simp [hpq]

/-- A process returns from `consoleread`. -/
theorem readers_readReturn {call : Call}
    (h : ∀ q, ReaderOk (s.takenBy q) (s.thread q)) (hcode : (s.thread p).code = .read target n dst)
    (hthread : t.thread = s.thread)
    (htaken : ∀ q, t.takenBy q = s.takenBy q ++ if p = q then more else [])
    (hcall : call.Ok) (hchars : dst ++ more = call.chars) (q : ι) :
    ReaderOk ((readReturn t p call).takenBy q) ((readReturn t p call).thread q) := by
  change ReaderOk (t.takenBy q) (update t.thread p _ q)
  rw [htaken, hthread]
  by_cases hqp : q = p
  · subst q
    rw [update_self, if_pos rfl]
    exact (h p).call hcode hcall hchars
  · rw [update_of_ne hqp, if_neg (Ne.symm hqp), append_nil]
    exact h q

omit [DecidableEq ι] in
/-- The first committed character, when there is one. -/
theorem Rep.exists_cons (h : Rep s queue line) (hne : s.r ≠ s.w) : ∃ c rest, queue = c :: rest := by
  cases queue with
  | nil => exact absurd ((h.left.empty_iff inputBuf_lt).mpr rfl) hne
  | cons c rest => exact ⟨c, rest, rfl⟩

omit [DecidableEq ι] in
/-- The characters that came in, by the two lists. -/
theorem Rep.stream (h : Rep s queue line) :
    s.stream = s.taken.map Prod.snd ++ (queue ++ line) := by
  rw [State.stream, h.lists.1, h.lists.2]

/-- What a turn of `consoleread` does: all characters stay in their order, and the account of
the readers is kept. -/
structure Turn (s t : State ι) : Prop where
  inv : Inv t
  stream : t.stream = s.stream
  committed : t.committed = s.committed

/-- A turn that takes nothing out. -/
theorem Turn.of_rep (h : Rep s queue line) (hraw : s.raw = true → line = []) {lock : Option ι}
    {thread : ι → Thread} (hreaders : ∀ q, ReaderOk (s.takenBy q) (thread q)) :
    Turn s { s with lock, thread } :=
  ⟨⟨⟨queue, line, ⟨h.ring, h.mid, h.committed⟩, hraw⟩, hreaders⟩, rfl, rfl⟩

theorem Turn.of_take (h : Rep s (c :: queue) line) (hraw : s.raw = true → line = []) {lock : Option ι}
    {thread : ι → Thread} (hreaders : ∀ q, ReaderOk ((take s p).takenBy q) (thread q)) :
    Turn s { take s p with lock, thread } := by
  obtain ⟨hc, hrest⟩ := h.take p
  have hturn : Turn (take s p) { take s p with lock, thread } := .of_rep hrest hraw hreaders
  refine ⟨hturn.inv, ?_, rfl⟩
  rw [hturn.stream, hrest.stream, h.stream]
  simp [take, hc]

theorem Inv.consoleread (h : Inv s) (hcode : (s.thread p).code = .read target n dst) :
    Turn s (consoleread s p target n dst) := by
  obtain ⟨⟨queue, line, hrep, hraw⟩, hreaders⟩ := h
  obtain ⟨hn, hpos, hclean, hline⟩ : (Code.read target n dst).Ok := hcode ▸ (hreaders p).code
  have hdrop : newline ∉ dst.dropLast := fun hmem => hline (dropLast_subset dst hmem)
  have hnone : ∀ q, s.takenBy q = s.takenBy q ++ if p = q then [] else [] := by simp
  unfold Console.consoleread
  simp only
  split_ifs with hleft hempty heof hsave hend
  · -- nothing is committed: the process falls asleep
    refine Turn.of_rep hrep hraw ?_
    exact (forall_update_iff s.thread fun q x => ReaderOk (s.takenBy q) x).mpr
      ⟨(hreaders p).congr rfl rfl, fun q _ => hreaders q⟩
  · -- the control-D stays for the next call
    have hcopied : dst ≠ [] := by
      rintro rfl
      rw [length_nil] at hn
      omega
    refine Turn.of_rep hrep hraw ?_
    refine readers_readReturn hreaders hcode rfl hnone ?_ ?_
    · exact ⟨hclean, hdrop, by simp only; omega, fun _ => .inl rfl⟩
    · rw [append_nil, Call.chars, if_neg (by tauto)]
  · -- the control-D alone
    obtain ⟨c, rest, rfl⟩ := hrep.exists_cons hempty
    have hnil : dst = [] := by
      apply eq_nil_of_length_eq_zero
      omega
    subst dst
    refine Turn.of_take hrep hraw ?_
    refine readers_readReturn (t := take s p) hreaders hcode rfl (takenBy_take s p) ?_ ?_
    · exact ⟨hclean, hdrop, by simp, fun _ => .inl rfl⟩
    · rw [heof, Call.chars, if_pos ⟨rfl, rfl⟩, nil_append]
  · -- the end of a line
    obtain ⟨c, rest, rfl⟩ := hrep.exists_cons hempty
    refine Turn.of_take hrep hraw ?_
    refine readers_readReturn (t := take s p) hreaders hcode rfl (takenBy_take s p) ?_ ?_
    · refine ⟨?_, ?_, ?_, ?_⟩
      · simp only [mem_append, mem_singleton, not_or]
        exact ⟨hclean, Ne.symm heof⟩
      · rw [dropLast_concat]
        exact hline
      · simp only [length_append, length_singleton]
        omega
      · intro _
        right
        rw [List.getLast?_concat, hend]
    · rw [Call.chars, if_neg (by simp)]
  · -- a character of a line
    obtain ⟨c, rest, rfl⟩ := hrep.exists_cons hempty
    refine Turn.of_take (p := p) hrep hraw ?_
    simp only [takenBy_take]
    refine (forall_update_iff s.thread fun q x => ReaderOk (s.takenBy q ++ _) x).mpr ⟨?_, ?_⟩
    · rw [if_pos rfl]
      refine ⟨?_, (hreaders p).calls, ?_, ?_, ?_, ?_⟩
      · rw [(hreaders p).chars_eq, hcode]
        simp only [Code.dst, append_assoc]
      · rw [length_append, length_singleton]
        omega
      · intro _
        omega
      · simp only [mem_append, mem_singleton, not_or]
        exact ⟨hclean, Ne.symm heof⟩
      · simp only [mem_append, mem_singleton, not_or]
        exact ⟨hline, Ne.symm hend⟩
    · intro q hq
      rw [if_neg (Ne.symm hq), append_nil]
      exact hreaders q
  · -- all that was asked for
    refine Turn.of_rep hrep hraw ?_
    refine readers_readReturn hreaders hcode rfl hnone ?_ ?_
    · have hlength : (dst.length : ℤ) ≤ max target 0 ∧ ¬ (dst.length : ℤ) < target := by
        by_cases hnil : dst = []
        · subst dst
          simp only [length_nil] at hn ⊢
          omega
        · have := hpos hnil
          omega
      exact ⟨hclean, hdrop, hlength.1, fun hless => absurd hless hlength.2⟩
    · rw [append_nil, Call.chars, if_neg (by simp)]

theorem Inv.consoleintr (h : Inv s) (c : BitVec 8) : Inv (consoleintr s c) := by
  obtain ⟨⟨queue, line, hrep, hraw⟩, hreaders⟩ := h
  obtain ⟨htaken, hraw', hthread⟩ := consoleintr_frame s c
  refine ⟨⟨_, _, hrep.consoleintr c, ?_⟩, ?_⟩
  · rw [hraw']
    intro hr
    rw [hr, hraw hr]
    exact type_raw c queue
  · intro p
    rw [State.takenBy, htaken]
    exact (hreaders p).congr (hthread p).1 (hthread p).2

/-- A switch of the raw mode keeps the invariant and all characters. -/
theorem Inv.consoleioctl (h : Inv s) (value : BitVec 32) :
    Inv (consoleioctl s value) ∧ (consoleioctl s value).stream = s.stream := by
  obtain ⟨⟨queue, line, hrep, hraw⟩, hreaders⟩ := h
  obtain ⟨htaken, hraw', hthread⟩ := consoleioctl_frame s value
  have hrep' := hrep.consoleioctl value
  refine ⟨⟨⟨_, _, hrep', ?_⟩, ?_⟩, ?_⟩
  · rw [hraw']
    intro hr
    rw [if_pos (of_decide_eq_true hr)]
  · intro p
    rw [State.takenBy, htaken]
    exact (hreaders p).congr (hthread p).1 (hthread p).2
  · rw [hrep'.stream, hrep.stream, htaken]
    split_ifs <;> simp

theorem Inv.read (h : Inv s) (hidle : (s.thread p).code = .idle) (n : ℤ) :
    Turn s (s.setThread p { s.thread p with code := .read n n [] }) := by
  obtain ⟨⟨queue, line, hrep, hraw⟩, hreaders⟩ := h
  refine Turn.of_rep hrep hraw ?_
  refine (forall_update_iff s.thread fun q x => ReaderOk (s.takenBy q) x).mpr
    ⟨⟨?_, (hreaders p).calls, by simp, by simp, by simp, by simp⟩, fun q _ => hreaders q⟩
  rw [(hreaders p).chars_eq, hidle]
  rfl

/-- What a step other than a key does to the characters. -/
theorem Inv.step_of_ne_key (h : Inv s) {e : Event ι} (he : ∀ c, e ≠ .key c)
    (hstep : step s e = some t) : Inv t ∧ t.stream = s.stream := by
  cases e with
  | key c => exact absurd rfl (he c)
  | raw value =>
    simp only [step] at hstep
    split_ifs at hstep
    cases hstep
    exact h.consoleioctl value
  | read p n =>
    simp only [step] at hstep
    split_ifs at hstep with hidle
    cases hstep
    exact ⟨(h.read hidle n).inv, (h.read hidle n).stream⟩
  | acquire p =>
    simp only [step] at hstep
    split_ifs at hstep
    cases hstep
    obtain ⟨⟨queue, line, hrep, hraw⟩, hreaders⟩ := h
    have hturn : Turn s { s with lock := some p } :=
      Turn.of_rep hrep hraw hreaders
    exact ⟨hturn.inv, hturn.stream⟩
  | run p =>
    simp only [step] at hstep
    split_ifs at hstep
    cases hcode : (s.thread p).code with
    | idle => simp [hcode] at hstep
    | read target n dst =>
      simp only [hcode, Option.some.injEq] at hstep
      subst t
      exact ⟨(h.consoleread hcode).inv, (h.consoleread hcode).stream⟩

theorem Inv.step (h : Inv s) {e : Event ι} (hstep : Console.step s e = some t) : Inv t := by
  cases e with
  | key c =>
    simp only [Console.step] at hstep
    split_ifs at hstep
    cases hstep
    exact h.consoleintr c
  | raw value => exact (h.step_of_ne_key (by simp) hstep).1
  | read p n => exact (h.step_of_ne_key (by simp) hstep).1
  | acquire p | run p => exact (h.step_of_ne_key (by simp) hstep).1

theorem inv_boot : Inv (boot ι) := by
  refine ⟨⟨[], [], ⟨holds_nil _ _ _, rfl, rfl⟩, fun _ => rfl⟩, ?_⟩
  intro p
  exact ⟨rfl, by simp [boot], trivial⟩

/-- What a key does to the characters: the keys for the reboot and for the list of processes do
nothing, an erasing key takes characters of the line back, and any other character is added
unless it is zero or the buffer is full. -/
def KeyEffect (c : BitVec 8) (s t : State ι) : Prop :=
  if c = ctrl 'Z' ∨ c = ctrl 'P' then t.stream = s.stream
  else if c = ctrl 'U' ∨ c = ctrl 'H' ∨ c = delete then
    t.committed = s.committed ∧ t.stream <+: s.stream
  else if c = 0 ∨ s.e - s.r = BitVec.ofNat 32 inputBuf then t.stream = s.stream
  else t.stream = s.stream ++ [stored c]

omit [DecidableEq ι] in
/-- The effect of a key on the two lists. -/
theorem type_effect (raw : Bool) (c : BitVec 8) (hle : (queue ++ line).length ≤ inputBuf) :
    if c = ctrl 'Z' ∨ c = ctrl 'P' then type raw c queue line = (queue, line)
    else if c = ctrl 'U' ∨ c = ctrl 'H' ∨ c = delete then
      (type raw c queue line).1 = queue ∧ (type raw c queue line).2 <+: line
    else if c = 0 ∨ (queue ++ line).length = inputBuf then type raw c queue line = (queue, line)
    else (type raw c queue line).1 ++ (type raw c queue line).2 = queue ++ line ++ [stored c] := by
  unfold type
  by_cases hnone : c = ctrl 'Z' ∨ c = ctrl 'P'
  · rw [if_pos hnone, if_pos hnone]
  rw [if_neg hnone, if_neg hnone]
  by_cases hkill : c = ctrl 'U'
  · rw [if_pos (.inl hkill), if_pos hkill]
    exact ⟨rfl, rdropWhile_prefix _ line⟩
  rw [if_neg hkill]
  by_cases herase : c = ctrl 'H' ∨ c = delete
  · rw [if_pos (.inr herase), if_pos herase]
    exact ⟨rfl, dropLast_prefix line⟩
  rw [if_neg (by tauto), if_neg herase]
  by_cases hdrop : c = 0 ∨ (queue ++ line).length = inputBuf
  · have hno : ¬ (c ≠ 0 ∧ (queue ++ line).length < inputBuf) := by
      rintro ⟨hc, hroom⟩
      rcases hdrop with hzero | hfull
      · exact hc hzero
      · omega
    rw [if_pos hdrop, if_neg hno]
  · have hroom : (queue ++ line).length < inputBuf := lt_of_le_of_ne hle fun h => hdrop (.inr h)
    rw [if_neg hdrop, if_pos ⟨fun h => hdrop (.inl h), hroom⟩]
    split_ifs <;> simp

/-- The effect of a key. -/
theorem Inv.keyEffect (h : Inv s) (c : BitVec 8) : KeyEffect c s (Console.consoleintr s c) := by
  obtain ⟨⟨queue, line, hrep, -⟩, -⟩ := h
  have htaken := (consoleintr_frame s c).1
  have hrep' := hrep.consoleintr c
  have hfull : s.e - s.r = BitVec.ofNat 32 inputBuf ↔ (queue ++ line).length = inputBuf := by
    rw [← hrep.ring.full_iff inputBuf_lt, sub_eq_iff_eq_add, add_comm]
  have heffect := type_effect s.raw c hrep.ring.length_le
  unfold KeyEffect
  simp only [hfull]
  rw [hrep'.stream, hrep.stream, hrep'.committed, hrep.committed, htaken]
  split_ifs at heffect ⊢ with hnone herase hdrop
  · rw [heffect]
  · obtain ⟨hqueue, hline⟩ := heffect
    rw [hqueue]
    exact ⟨rfl, (prefix_append_right_inj _).mpr ((prefix_append_right_inj _).mpr hline)⟩
  · rw [heffect]
  · simp only [heffect, append_assoc]

/-- In every run, with the counters wrapping around: `r`, `w` and `e` are in order and no more
than the size of the buffer apart, and in the raw mode no line is edited. What was committed
is what readers have taken out, in order, and then what waits between `r` and `w`. Each
process has got what it has taken out from its calls, where a control-D gives one call that
returns nothing. A key changes the characters as it should, and nothing else does. -/
theorem console_input {es : List (Event ι)} (hrun : run Console.step (boot ι) es = some s) :
    (s.w - s.r).toNat ≤ (s.e - s.r).toNat ∧ (s.e - s.r).toNat ≤ inputBuf ∧ (s.raw = true → s.w = s.e) ∧
    s.committed = s.taken.map Prod.snd ++ s.queue ∧
    (∀ p, s.takenBy p = (s.thread p).calls.flatMap Call.chars ++ (s.thread p).code.dst ∧
      ∀ call ∈ (s.thread p).calls, call.Ok) ∧
    (∀ c t, Console.step s (.key c) = some t → KeyEffect c s t) ∧
    ∀ e t, (∀ c, e ≠ .key c) → Console.step s e = some t → t.stream = s.stream := by
  have hinv : Inv s := invariant_run (fun h hstep => h.step hstep) inv_boot hrun
  obtain ⟨queue, line, hrep, hraw⟩ := hinv.rep
  have hall := hrep.ring.length_eq inputBuf_lt
  have hleft := hrep.left.length_eq inputBuf_lt
  have hle := hrep.ring.length_le
  rw [length_append] at hall hle
  refine ⟨by omega, by omega, ?_, ?_, ?_, ?_, ?_⟩
  · intro hr
    exact (hrep.right.empty_iff inputBuf_lt).mpr (hraw hr)
  · rw [hrep.lists.1]
    exact hrep.committed
  · intro p
    exact ⟨(hinv.readers p).chars_eq, (hinv.readers p).calls⟩
  · intro c t hstep
    simp only [Console.step] at hstep
    split_ifs at hstep
    cases hstep
    exact hinv.keyEffect c
  · intro e t he hstep
    exact (hinv.step_of_ne_key he hstep).2

/-- A process reads a line and then a control-D. -/
theorem console_input_line : ∃ s, run Console.step (boot (Fin 1))
      [.key 97, .key 98, .key (ctrl 'H'), .key carriageReturn, .key (ctrl 'D'), .read 0 5,
        .acquire 0, .run 0, .run 0, .read 0 5, .acquire 0, .run 0] = some s ∧
    (s.thread 0).calls = [⟨5, [97, newline], false⟩, ⟨5, [], true⟩] ∧
    s.committed = s.taken.map Prod.snd ++ s.queue := by
  have hcalls : (run Console.step (boot (Fin 1))
      [.key 97, .key 98, .key (ctrl 'H'), .key carriageReturn, .key (ctrl 'D'), .read 0 5,
        .acquire 0, .run 0, .run 0, .read 0 5, .acquire 0, .run 0]).map
      (fun s => (s.thread 0).calls) = some [⟨5, [97, newline], false⟩, ⟨5, [], true⟩] := by
    decide +kernel
  obtain ⟨s, hrun, hs⟩ := Option.map_eq_some_iff.mp hcalls
  exact ⟨s, hrun, hs, (console_input hrun).2.2.2.1⟩

end Xv6Draw.Console
