import Mathlib.Data.BitVec

/-!
# Pipes

A pipe of `pipe.c` with any number of processes that read and write it. The holder of the
lock of the pipe goes through `pipewrite` or `piperead` in small steps, one turn of a
loop at a time, and others may be killed in between. `sleep` gives up the lock and
falls asleep in one step, because it takes the lock of the process table first, and
`wakeup` needs that lock.

A process in `piperead` or `pipewrite` has a descriptor for its end of the pipe, so an
end is closed only when no process is in a call on it, and a call starts only on an
open end. The state has a history: the bytes that were stored with their writers, what
the calls of `piperead` have returned, and for each process the calls of `pipewrite`
that are over.
-/

namespace Xv6Draw.Pipe

/-- `PIPESIZE`. -/
def pipesize : ℕ := 512

/-- What processes sleep on: `&p->nread` or `&p->nwrite`. -/
inductive Chan where
  | nread
  | nwrite
  deriving DecidableEq

/-- Where a process is in `piperead`: in the loop that waits for bytes, at the `sleep` in it,
or in the loop that copies them. -/
inductive Stage where
  | wait
  | sleep
  | copy
  deriving DecidableEq

/-- What a process does. -/
inductive Code where
  | idle
  /-- `pipewrite` of some bytes, of which a number is stored. It may be at its `sleep`. -/
  | write (addr : List (BitVec 8)) (i : ℕ) (sleep : Bool)
  /-- `piperead` of a number of bytes, of which some are copied. -/
  | read (n : ℕ) (stage : Stage) (addr : List (BitVec 8))
  deriving DecidableEq

/-- A process. -/
structure Thread where
  code : Code
  /-- What it sleeps on while it is `SLEEPING`. -/
  chan : Option Chan
  killed : Bool
  /-- Its calls of `pipewrite` that are over, with the number of bytes that were stored. -/
  calls : List (List (BitVec 8) × ℕ)

/-- A call of `piperead` that has returned bytes. -/
structure Read (ι : Type) where
  proc : ι
  /-- The number of bytes that were asked for. -/
  n : ℕ
  bytes : List (BitVec 8)

/-- A pipe and its processes. -/
structure State (ι : Type) where
  data : ℕ → BitVec 8
  nread : BitVec 32
  nwrite : BitVec 32
  readopen : Bool
  writeopen : Bool
  /-- The holder of `p->lock`. -/
  lock : Option ι
  thread : ι → Thread
  stored : List (ι × BitVec 8)
  /-- The calls of `piperead` that have returned bytes. -/
  reads : List (Read ι)

variable {ι : Type} [DecidableEq ι]

/-- A process goes on to other code. -/
def State.goto (s : State ι) (p : ι) (code : Code) : State ι :=
  { s with thread := Function.update s.thread p { s.thread p with code := code } }

/-- `wakeup`. -/
def wakeup (s : State ι) (chan : Chan) : State ι :=
  { s with
    thread := fun p =>
      if (s.thread p).chan = some chan then { s.thread p with chan := none } else s.thread p }

/-- `release` of the lock of the pipe. -/
def release (s : State ι) : State ι := { s with lock := none }

/-- `sleep` with the lock of the pipe, behind which the process goes on with some code. -/
def sleep (s : State ι) (p : ι) (chan : Chan) (code : Code) : State ι :=
  { s with
    lock := none
    thread := Function.update s.thread p { s.thread p with code := code, chan := some chan } }

/-- `pipewrite` gives up the lock and returns. -/
def writeReturn (s : State ι) (p : ι) (addr : List (BitVec 8)) (i : ℕ) : State ι :=
  { s with
    lock := none
    thread := Function.update s.thread p
      { s.thread p with code := .idle, calls := (s.thread p).calls ++ [(addr, i)] } }

/-- `p->data[p->nwrite++ % PIPESIZE] = addr[i]`. -/
def store (s : State ι) (p : ι) (b : BitVec 8) : State ι :=
  { s with
    data := Function.update s.data (s.nwrite.toNat % pipesize) b
    nwrite := s.nwrite + 1
    stored := s.stored ++ [(p, b)] }

/-- The ring is full. -/
def State.Full (s : State ι) : Prop := s.nwrite = s.nread + BitVec.ofNat 32 pipesize

instance (s : State ι) : Decidable s.Full := inferInstanceAs (Decidable (_ = _))

/-- A step of `pipewrite` with the lock held. -/
def pipewrite (s : State ι) (p : ι) (addr : List (BitVec 8)) (i : ℕ) (atSleep : Bool) : State ι :=
  if atSleep then sleep s p .nwrite (.write addr i false)
  else if hi : i < addr.length then
    if s.Full then
      if s.readopen = false ∨ (s.thread p).killed then writeReturn s p addr i
      else (wakeup s .nread).goto p (.write addr i true)
    else (store s p addr[i]).goto p (.write addr (i + 1) false)
  else writeReturn (wakeup s .nread) p addr i

/-- `addr[i] = p->data[p->nread++ % PIPESIZE]`. -/
def fetch (s : State ι) : State ι := { s with nread := s.nread + 1 }

/-- `piperead` returns bytes. -/
def readReturn (s : State ι) (p : ι) (n : ℕ) (addr : List (BitVec 8)) : State ι :=
  { (release s).goto p .idle with reads := s.reads ++ [⟨p, n, addr⟩] }

/-- A step of `piperead` with the lock held. -/
def piperead (s : State ι) (p : ι) (n : ℕ) (addr : List (BitVec 8)) : Stage → State ι
  | .wait =>
    if s.nread = s.nwrite ∧ s.writeopen then
      if (s.thread p).killed then (release s).goto p .idle else s.goto p (.read n .sleep addr)
    else s.goto p (.read n .copy addr)
  | .sleep => sleep s p .nread (.read n .wait addr)
  | .copy =>
    if addr.length < n ∧ s.nread ≠ s.nwrite then
      (fetch s).goto p (.read n .copy (addr ++ [s.data (s.nread.toNat % pipesize)]))
    else readReturn (wakeup s .nwrite) p n addr

/-- `pipeclose`. -/
def pipeclose (s : State ι) (writable : Bool) : State ι :=
  if writable then wakeup { s with writeopen := false } .nread
  else wakeup { s with readopen := false } .nwrite

/-- `kill`. -/
def kill (s : State ι) (p : ι) : State ι :=
  { s with thread := Function.update s.thread p { s.thread p with killed := true, chan := none } }

/-- What can happen. -/
inductive Event (ι : Type) where
  | write (p : ι) (addr : List (BitVec 8))
  | read (p : ι) (n : ℕ)
  | acquire (p : ι)
  | run (p : ι)
  | close (writable : Bool)
  | kill (p : ι)

/-- The process is in `piperead`. -/
def Code.isRead : Code → Bool
  | .read .. => true
  | _ => false

/-- The process is in `pipewrite`. -/
def Code.isWrite : Code → Bool
  | .write .. => true
  | _ => false

/-- The holder of the lock makes its next step. -/
def run (s : State ι) (p : ι) : Option (State ι) :=
  match (s.thread p).code with
  | .idle => none
  | .write addr i atSleep => some (pipewrite s p addr i atSleep)
  | .read n stage addr => some (piperead s p n addr stage)

theorem run_cases {s t : State ι} {p : ι} (h : run s p = some t) :
    (∃ addr i atSleep, (s.thread p).code = .write addr i atSleep ∧ t = pipewrite s p addr i atSleep) ∨
      ∃ n stage addr, (s.thread p).code = .read n stage addr ∧ t = piperead s p n addr stage := by
  unfold run at h
  split at h
  · contradiction
  · exact .inl ⟨_, _, _, ‹_›, (Option.some.inj h).symm⟩
  · exact .inr ⟨_, _, _, ‹_›, (Option.some.inj h).symm⟩

/-- One step. -/
def step [Fintype ι] (s : State ι) : Event ι → Option (State ι)
  | .write p addr =>
    if (s.thread p).code = .idle ∧ s.writeopen then some (s.goto p (.write addr 0 false)) else none
  | .read p n =>
    if (s.thread p).code = .idle ∧ s.readopen then some (s.goto p (.read n .wait [])) else none
  | .acquire p =>
    if s.lock = none ∧ (s.thread p).code ≠ .idle ∧ (s.thread p).chan = none then
      some { s with lock := some p }
    else none
  | .run p => if s.lock = some p then run s p else none
  | .close writable =>
    if s.lock = none ∧ ∀ p, if writable then (s.thread p).code.isWrite = false
        else (s.thread p).code.isRead = false then
      some (pipeclose s writable)
    else none
  | .kill p => some (kill s p)

/-- A thread that has done nothing. -/
def Thread.fresh : Thread := ⟨.idle, none, false, []⟩

/-- The pipe that `pipealloc` makes. -/
def pipealloc (data : ℕ → BitVec 8) : State ι where
  data := data
  nread := 0
  nwrite := 0
  readopen := true
  writeopen := true
  lock := none
  thread _ := .fresh
  stored := []
  reads := []

/-! ### `wakeup` -/

section

omit [DecidableEq ι]

variable (s : State ι) (chan : Chan)

@[simp, grind =] theorem wakeup_readopen : (wakeup s chan).readopen = s.readopen := rfl

@[simp, grind =] theorem wakeup_writeopen : (wakeup s chan).writeopen = s.writeopen := rfl

@[simp, grind =] theorem wakeup_lock : (wakeup s chan).lock = s.lock := rfl

@[simp, grind =] theorem wakeup_code (q : ι) :
    ((wakeup s chan).thread q).code = (s.thread q).code := by
  unfold wakeup
  simp only
  split_ifs <;> rfl

@[grind =] theorem wakeup_chan (q : ι) : ((wakeup s chan).thread q).chan =
    if (s.thread q).chan = some chan then none else (s.thread q).chan := by
  unfold wakeup
  simp only
  split_ifs <;> rfl

end

end Xv6Draw.Pipe
