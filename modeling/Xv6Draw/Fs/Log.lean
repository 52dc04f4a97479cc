import Xv6Draw.Lib.CrashStore
import Xv6Draw.Lib.Transition
import Mathlib

/-!
# The log and the buffer cache

Transactions of the file system as `log.c` runs them over the buffer cache of
`bio.c`. Any number of processes are inside system calls at once. A process takes
and releases buffers, changes one that it holds and calls `log_write` for it, whose
unlocked checks and locked update are two steps. The last `end_op` commits. Each
step writes at most one block to the disk, and between any two steps the machine
may crash, which leaves the disk and starts `recover_from_log`.

A block is a sequence of words, so that the header of the log is read from the
words that were written. A process that panics or sleeps has no step. The buffer
that `bget` recycles is any clean unused one, of which the source takes the least
recently used. What the file system is meant to hold is followed beside the run by
a store with transactions.
-/

namespace Xv6Draw.Log

open Function CrashStore

/-- The words of a block. -/
abbrev Block := ℕ → ℕ

/-- `NBUF`. -/
def nbuf : ℕ := 30

instance : NeZero nbuf := ⟨by decide⟩

/-- `LOGSIZE`, which `mkfs` also writes to the superblock as the number of log
blocks. -/
def logSize : ℕ := 30

/-- `MAXOPBLOCKS`. -/
def maxOpBlocks : ℕ := 10

/-- `log.start`, from the superblock that `mkfs` writes. -/
def logStart : ℕ := 2

/-- The home blocks: all but the log. -/
def Home : Set ℕ := {b | b < logStart ∨ logStart + logSize ≤ b}

instance : DecidablePred (· ∈ Home) := fun b =>
  inferInstanceAs (Decidable (b < logStart ∨ logStart + logSize ≤ b))

/-- A buffer of the cache: the block that it caches, its contents, `B_DIRTY`, and
the process that has it locked. -/
structure Buf where
  /-- The block number, once the buffer is in use. -/
  blockno : Option ℕ
  data : Block
  dirty : Bool
  holder : Option ℕ

/-- `struct logheader`. -/
structure LogHeader where
  /-- The number of logged blocks. -/
  n : ℕ
  /-- Their block numbers. -/
  block : ℕ → ℕ

/-- Where a process is: outside of system calls, inside of one, or in `log_write`
for a buffer before its checks or between them and the update. -/
inductive Phase where
  | out
  | running
  | editing (k : Fin nbuf)
  | checked (k : Fin nbuf)
  deriving DecidableEq

/-- The next step of the process that runs `recover_from_log` or `commit`. -/
inductive Job where
  | idle
  | readHead
  | writeLog (tail : ℕ)
  | commitHead
  | install (tail : ℕ)
  | clearHead
  | done
  deriving DecidableEq

/-- The disk, the buffer cache, the log in memory, and the processes. -/
structure State where
  disk : ℕ → Block
  buf : Fin nbuf → Buf
  lh : LogHeader
  outstanding : ℕ
  committing : Bool
  /-- Whether `initlog` has not returned yet. -/
  recovering : Bool
  phase : ℕ → Phase
  /-- What `recover_from_log` or `commit` does next. -/
  job : Job
  /-- The process that runs it. -/
  worker : ℕ

/-- The machine before `initlog`. -/
def boot (disk : ℕ → Block) : State where
  disk := disk
  buf _ := ⟨none, fun _ => 0, false, none⟩
  lh := ⟨0, fun _ => 0⟩
  outstanding := 0
  committing := false
  recovering := true
  phase _ := .out
  job := .readHead
  worker := 0

/-- `bread`, with the buffer that `bget` finds or recycles. -/
def bread (s : State) (p : ℕ) (k : Fin nbuf) (b : ℕ) : Option State :=
  if (s.buf k).holder ≠ none then none
  else if (s.buf k).blockno = some b then
    some { s with buf := update s.buf k { s.buf k with holder := some p } }
  else if (∃ i, (s.buf i).blockno = some b) ∨ (s.buf k).dirty then none
  else some { s with buf := update s.buf k ⟨some b, s.disk b, false, some p⟩ }

/-- `brelse`, which a process does not call in the middle of `log_write`. -/
def brelse (s : State) (p : ℕ) (k : Fin nbuf) : Option State :=
  if (s.buf k).holder = some p ∧ (s.phase p = .out ∨ s.phase p = .running) then
    some { s with buf := update s.buf k { s.buf k with holder := none } }
  else none

/-- `begin_op`. -/
def beginOp (s : State) (p : ℕ) : Option State :=
  if s.phase p ≠ .out ∨ s.recovering then none
  else if s.committing then none
  else if s.lh.n + (s.outstanding + 1) * maxOpBlocks > logSize then none
  else some { s with outstanding := s.outstanding + 1, phase := update s.phase p .running }

/-- A change to a buffer that caches a home block, before `log_write`. -/
def edit (s : State) (p : ℕ) (k : Fin nbuf) (data : Block) : Option State :=
  match (s.buf k).blockno with
  | none => none
  | some b =>
    if s.phase p = .running ∧ (s.buf k).holder = some p ∧ b ∈ Home then
      some { s with
        buf := update s.buf k { s.buf k with data := data }
        phase := update s.phase p (.editing k) }
    else none

/-- The checks of `log_write`, before it takes the lock. -/
def logWriteCheck (s : State) (p : ℕ) : Option State :=
  match s.phase p with
  | .editing k =>
    if s.lh.n ≥ logSize ∨ s.lh.n ≥ logSize - 1 then none
    else if s.outstanding < 1 then none
    else some { s with phase := update s.phase p (.checked k) }
  | _ => none

/-- The index that the loop of `log_write` ends with. -/
def absorb (lh : LogHeader) (b : ℕ) : ℕ :=
  ((List.range lh.n).find? fun i => lh.block i = b).getD lh.n

/-- The header with a block recorded. -/
def LogHeader.record (lh : LogHeader) (b : ℕ) : LogHeader where
  n := if absorb lh b = lh.n then lh.n + 1 else lh.n
  block := update lh.block (absorb lh b) b

/-- The update of `log_write`, under the lock. -/
def logWriteRecord (s : State) (p : ℕ) : Option State :=
  match s.phase p with
  | .checked k =>
    match (s.buf k).blockno with
    | none => none
    | some b =>
      some { s with
        lh := s.lh.record b
        buf := update s.buf k { s.buf k with dirty := true }
        phase := update s.phase p .running }
  | _ => none

/-- `end_op` up to `commit`. -/
def endOp (s : State) (p : ℕ) : Option State :=
  if s.phase p ≠ .running ∨ s.committing then none
  else if s.outstanding - 1 = 0 then
    some { s with
      outstanding := s.outstanding - 1
      committing := true
      phase := update s.phase p .out
      job := if 0 < s.lh.n then .writeLog 0 else .done
      worker := p }
  else some { s with
    outstanding := s.outstanding - 1
    phase := update s.phase p .out }

/-- The worker holds a buffer that caches a block. -/
def Holds (s : State) (k : Fin nbuf) (b : ℕ) : Prop :=
  (s.buf k).blockno = some b ∧ (s.buf k).holder = some s.worker

instance (s : State) (k : Fin nbuf) (b : ℕ) : Decidable (Holds s k b) :=
  inferInstanceAs (Decidable (_ ∧ _))

/-- `memmove` from one held buffer to another, `bwrite` of that one, and `brelse`
of both. -/
def copyBlock (s : State) (src dst : Fin nbuf) (b : ℕ) : State :=
  { s with
    disk := update s.disk b (s.buf src).data
    buf := update (update s.buf src { s.buf src with holder := none }) dst
      ⟨some b, (s.buf src).data, false, none⟩ }

/-- The header block that `write_head` writes over an old one. -/
def headerBlock (lh : LogHeader) (old : Block) : Block := fun i =>
  if i = 0 then lh.n else if i ≤ lh.n then lh.block (i - 1) else old i

/-- `write_head`. -/
def writeHead (s : State) (k : Fin nbuf) : State :=
  { s with
    disk := update s.disk logStart (headerBlock s.lh (s.buf k).data)
    buf := update s.buf k ⟨some logStart, headerBlock s.lh (s.buf k).data, false, none⟩ }

/-- `read_head`. -/
def readHead (s : State) (k : Fin nbuf) : State :=
  { s with
    lh := ⟨(s.buf k).data 0, fun i =>
      if i < (s.buf k).data 0 then (s.buf k).data (i + 1) else s.lh.block i⟩
    buf := update s.buf k { s.buf k with holder := none } }

/-- A step of `recover_from_log` or `commit`, with the buffers that `bread` has
given it. -/
def work (s : State) (src dst : Fin nbuf) : Option State :=
  match s.job with
  | .idle => none
  | .readHead =>
    if Holds s src logStart then some { readHead s src with job := .install 0 } else none
  | .writeLog tail =>
    if tail < s.lh.n then
      if Holds s dst (logStart + tail + 1) ∧ Holds s src (s.lh.block tail) then
        some { copyBlock s src dst (logStart + tail + 1) with job := .writeLog (tail + 1) }
      else none
    else some { s with job := .commitHead }
  | .commitHead =>
    if Holds s src logStart then some { writeHead s src with job := .install 0 } else none
  | .install tail =>
    if tail < s.lh.n then
      if Holds s src (logStart + tail + 1) ∧ Holds s dst (s.lh.block tail) then
        some { copyBlock s src dst (s.lh.block tail) with job := .install (tail + 1) }
      else none
    else some { s with job := .clearHead }
  | .clearHead =>
    if Holds s src logStart then
      some { writeHead { s with lh := { s.lh with n := 0 } } src with job := .done }
    else none
  | .done => some { s with committing := false, recovering := false, job := .idle }

/-- What can happen next. -/
inductive Event where
  | bread (p : ℕ) (k : Fin nbuf) (b : ℕ)
  | brelse (p : ℕ) (k : Fin nbuf)
  | beginOp (p : ℕ)
  | edit (p : ℕ) (k : Fin nbuf) (data : Block)
  | check (p : ℕ)
  | record (p : ℕ)
  | endOp (p : ℕ)
  | work (src dst : Fin nbuf)
  | crash

/-- One step of the machine. -/
def step (s : State) : Event → Option State
  | .bread p k b => bread s p k b
  | .brelse p k => brelse s p k
  | .beginOp p => beginOp s p
  | .edit p k data => edit s p k data
  | .check p => logWriteCheck s p
  | .record p => logWriteRecord s p
  | .endOp p => endOp s p
  | .work src dst => work s src dst
  | .crash => some (boot s.disk)

/-- What a step means for the store that the file system is meant to be: a block
recorded by `log_write` is written, and the transaction commits when `write_head`
has put its header on the disk. -/
def effect (s : State) : Event → Option (Op ℕ Block)
  | .record p =>
    match s.phase p with
    | .checked k => (s.buf k).blockno.map fun b => .write b (s.buf k).data
    | _ => none
  | .work _ _ => if s.job = .commitHead then some .commit else none
  | .crash => some .crash
  | _ => none

/-- The machine and the store side by side. -/
def stepBoth (x : State × Store ℕ Block) (e : Event) : Option (State × Store ℕ Block) :=
  (step x.1 e).map fun s => (s, ((effect x.1 e).map x.2.apply).getD x.2)

/-- A disk at its first boot. -/
def start (disk : ℕ → Block) : State × Store ℕ Block := (boot disk, Store.init disk)

end Xv6Draw.Log
