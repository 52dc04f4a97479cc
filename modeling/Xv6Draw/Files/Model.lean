import Mathlib

/-!
# Open files

The file table, the descriptor tables of the processes and the pipes, as in `file.c`,
`pipe.c`, `sysfile.c` and `proc.c`. The calls go in small steps, one lock section or one
change to a descriptor table at a time, and the steps of different processes mix in any
order. Where a process is in a call, and what it holds in local variables there, is its
code.

A call of `open` starts behind the lookup of the path. What `pipealloc` does to the page
and to its two files behind `kalloc` is one step, since no other process can see any of
it. A pipe is named by the number of its allocation, so that a page that is used for
another pipe counts as another one. `kalloc` may return 0 here, although the one of
`kalloc.c` panics instead.
-/

namespace Xv6Draw.Files

open Function

/-- `NPROC`. -/
def nproc : ℕ := 64

/-- `NOFILE`. -/
def nofile : ℕ := 16

/-- `NFILE`. -/
def nfile : ℕ := 100

instance : NeZero nproc := ⟨by decide⟩

instance : NeZero nofile := ⟨by decide⟩

instance : NeZero nfile := ⟨by decide⟩

/-- The type of a file. -/
inductive FileType where
  | none
  | pipe
  | inode
  deriving DecidableEq

/-- `struct file`. -/
structure File where
  type : FileType
  ref : ℕ
  readable : Bool
  writable : Bool
  pipe : ℕ
  deriving DecidableEq

/-- `struct pipe`, with the number of times its page was freed. -/
structure Pipe where
  readopen : Bool
  writeopen : Bool
  freed : ℕ

/-- What a process does when `fileclose` returns. -/
inductive Next where
  /-- The call returns. -/
  | ret (value : ℤ)
  /-- Another file is closed, and the call fails. -/
  | close (f : Fin nfile)
  /-- `exit` clears a descriptor and goes on. -/
  | exit (fd : Fin nofile)
  deriving DecidableEq

/-- What a process does. -/
inductive Code where
  /-- It is outside of these calls. -/
  | user
  /-- `sys_open` behind `filealloc`. -/
  | openAlloc (f : Fin nfile) (omode : BitVec 32)
  /-- `sys_open` behind `fdalloc`. -/
  | openFile (f : Fin nfile) (fd : Fin nofile) (omode : BitVec 32)
  /-- `sys_dup` behind `fdalloc`. -/
  | dup (f : Fin nfile) (fd : Fin nofile)
  /-- The loop of `fork` at a descriptor. -/
  | fork (np : Fin nproc) (i : ℕ)
  /-- `fork` behind `filedup`. -/
  | forkDup (np : Fin nproc) (i : Fin nofile) (f : Fin nfile)
  /-- `pipealloc` behind its first `filealloc`. -/
  | pipeAlloc (f0 : Fin nfile)
  /-- `pipealloc` at `kalloc`. -/
  | pipeKalloc (f0 f1 : Fin nfile)
  /-- `sys_pipe` behind `pipealloc`. -/
  | pipeFd0 (rf wf : Fin nfile)
  /-- `sys_pipe` behind its first `fdalloc`. -/
  | pipeFd1 (rf wf : Fin nfile) (fd0 : Fin nofile)
  | close (f : Fin nfile) (next : Next)
  /-- `fileclose` behind the lock section, for the last reference. -/
  | finish (ff : File) (next : Next)
  /-- `pipeclose` at `kfree`. -/
  | kfree (pipe : ℕ) (next : Next)
  /-- The loop of `exit` at a descriptor. -/
  | exit (fd : ℕ)
  /-- `exit` behind `fileclose`. -/
  | exitClear (fd : Fin nofile)
  deriving DecidableEq

/-- The state of a slot of the process table. -/
inductive ProcState where
  | unused
  | embryo
  | running
  | zombie
  deriving DecidableEq

/-- A process. -/
structure Process where
  state : ProcState
  ofile : Fin nofile → Option (Fin nfile)
  code : Code
  /-- What the last call returned. -/
  ret : ℤ

/-- The open files of the system. -/
structure State where
  file : Fin nfile → File
  /-- The pipes that were allocated. -/
  pipe : ℕ → Pipe
  /-- The number of pipes that were allocated. -/
  npipe : ℕ
  proc : Fin nproc → Process
  /-- Did `filedup` or `fileclose` panic? -/
  panicked : Bool

/-! ### Changes to the state -/

/-- A change to a file. -/
def State.setFile (s : State) (f : Fin nfile) (ff : File) : State :=
  { s with file := update s.file f ff }

/-- A change to a process. -/
def State.setProc (s : State) (p : Fin nproc) (pr : Process) : State :=
  { s with proc := update s.proc p pr }

/-- A process goes on to other code. -/
def State.goto (s : State) (p : Fin nproc) (code : Code) : State :=
  s.setProc p { s.proc p with code := code }

/-- The call of a process returns. -/
def State.ret (s : State) (p : Fin nproc) (value : ℤ) : State :=
  s.setProc p { s.proc p with code := .user, ret := value }

/-- A process changes a descriptor and goes on. -/
def State.put (s : State) (p : Fin nproc) (fd : Fin nofile) (f : Option (Fin nfile)) (code : Code) :
    State :=
  s.setProc p
    { s.proc p with ofile := update (s.proc p).ofile fd f, code := code }

/-! ### `file.c` -/

/-- The file that the loop of `filealloc` finds. -/
def freeFile (s : State) : Option (Fin nfile) :=
  (List.finRange nfile).find? fun f => (s.file f).ref = 0

/-- `filealloc`. -/
def filealloc (s : State) (f : Fin nfile) : State := s.setFile f { s.file f with ref := 1 }

/-- `filedup`. -/
def filedup (s : State) (f : Fin nfile) : State :=
  if (s.file f).ref < 1 then { s with panicked := true }
  else s.setFile f { s.file f with ref := (s.file f).ref + 1 }

/-- `fileclose` returns. -/
def fileclosed (s : State) (p : Fin nproc) : Next → State
  | .ret value => s.ret p value
  | .close f => s.goto p (.close f (.ret (-1)))
  | .exit fd => s.goto p (.exitClear fd)

/-- The lock section of `fileclose`. -/
def fileclose (s : State) (p : Fin nproc) (f : Fin nfile) (next : Next) : State :=
  if (s.file f).ref < 1 then { s with panicked := true }
  else if (s.file f).ref - 1 > 0 then
    fileclosed (s.setFile f { s.file f with ref := (s.file f).ref - 1 }) p next
  else
    (s.setFile f { s.file f with ref := 0, type := .none }).goto p (.finish (s.file f) next)

/-! ### `pipe.c` -/

/-- The end of a pipe is closed. -/
def Pipe.shut (pipe : Pipe) (writable : Bool) : Pipe :=
  if writable then { pipe with writeopen := false } else { pipe with readopen := false }

/-- A change to a pipe. -/
def State.setPipe (s : State) (i : ℕ) (pipe : Pipe) : State :=
  { s with pipe := update s.pipe i pipe }

/-- The lock section of `pipeclose`. -/
def pipeclose (s : State) (p : Fin nproc) (i : ℕ) (writable : Bool) (next : Next) : State :=
  let pipe := (s.pipe i).shut writable
  if pipe.readopen = false ∧ pipe.writeopen = false then (s.setPipe i pipe).goto p (.kfree i next)
  else fileclosed (s.setPipe i pipe) p next

/-- `kfree` of the page of a pipe. -/
def freePipe (s : State) (i : ℕ) : State :=
  s.setPipe i { s.pipe i with freed := (s.pipe i).freed + 1 }

/-- The rest of `fileclose` for the last reference. -/
def filefinish (s : State) (p : Fin nproc) (ff : File) (next : Next) : State :=
  match ff.type with
  | .pipe => pipeclose s p ff.pipe ff.writable next
  -- `iput` of the inode
  | .inode => fileclosed s p next
  | .none => fileclosed s p next

/-- `pipealloc` behind `kalloc`. -/
def pipeinit (s : State) (f0 f1 : Fin nfile) : State :=
  { s with
    pipe := update s.pipe s.npipe ⟨true, true, 0⟩
    npipe := s.npipe + 1
    file := update
      (update s.file f0
        { s.file f0 with type := .pipe, readable := true, writable := false, pipe := s.npipe })
      f1 { s.file f1 with type := .pipe, readable := false, writable := true, pipe := s.npipe } }

/-- `kalloc` in `pipealloc` returns a page, or 0. -/
def pipekalloc (s : State) (p : Fin nproc) (f0 f1 : Fin nfile) (page : Bool) : State :=
  if page then (pipeinit s f0 f1).goto p (.pipeFd0 f0 f1) else s.goto p (.close f0 (.close f1))

/-! ### System calls -/

/-- The descriptor that the loop of `fdalloc` finds. -/
def freeFd (pr : Process) : Option (Fin nofile) :=
  (List.finRange nofile).find? fun fd => (pr.ofile fd).isNone

/-- `sys_open` up to `filealloc`. -/
def sysOpen (s : State) (p : Fin nproc) (omode : BitVec 32) : State :=
  match freeFile s with
  | none => s.ret p (-1)
  | some f => (filealloc s f).goto p (.openAlloc f omode)

/-- `fdalloc` in `sys_open`. -/
def openFd (s : State) (p : Fin nproc) (f : Fin nfile) (omode : BitVec 32) : State :=
  match freeFd (s.proc p) with
  | none => s.goto p (.close f (.ret (-1)))
  | some fd => s.put p fd (some f) (.openFile f fd omode)

/-- `O_WRONLY`. -/
def oWronly : BitVec 32 := 1

/-- `O_RDWR`. -/
def oRdwr : BitVec 32 := 2

/-- The end of `sys_open`. -/
def openEnd (s : State) (p : Fin nproc) (f : Fin nfile) (fd : Fin nofile) (omode : BitVec 32) :
    State :=
  (s.setFile f
    { s.file f with
      type := .inode
      readable := omode &&& oWronly = 0
      writable := omode &&& oWronly ≠ 0 ∨ omode &&& oRdwr ≠ 0 }).ret p fd.val

/-- `sys_dup` up to `fdalloc`. -/
def sysDup (s : State) (p : Fin nproc) (fd : Fin nofile) : State :=
  match (s.proc p).ofile fd with
  | none => s.ret p (-1)
  | some f =>
    match freeFd (s.proc p) with
    | none => s.ret p (-1)
    | some fd' => s.put p fd' (some f) (.dup f fd')

/-- `sys_close` up to `fileclose`. -/
def sysClose (s : State) (p : Fin nproc) (fd : Fin nofile) : State :=
  match (s.proc p).ofile fd with
  | none => s.ret p (-1)
  | some f => s.put p fd none (.close f (.ret 0))

/-- `sys_pipe` up to the first `filealloc`. -/
def sysPipe (s : State) (p : Fin nproc) : State :=
  match freeFile s with
  | none => s.ret p (-1)
  | some f0 => (filealloc s f0).goto p (.pipeAlloc f0)

/-- The second `filealloc` of `pipealloc`. -/
def pipeSecond (s : State) (p : Fin nproc) (f0 : Fin nfile) : State :=
  match freeFile s with
  | none => s.goto p (.close f0 (.ret (-1)))
  | some f1 => (filealloc s f1).goto p (.pipeKalloc f0 f1)

/-- The first `fdalloc` of `sys_pipe`. -/
def pipeFd0 (s : State) (p : Fin nproc) (rf wf : Fin nfile) : State :=
  match freeFd (s.proc p) with
  | none => s.goto p (.close rf (.close wf))
  | some fd0 => s.put p fd0 (some rf) (.pipeFd1 rf wf fd0)

/-- The second `fdalloc` of `sys_pipe`. -/
def pipeFd1 (s : State) (p : Fin nproc) (rf wf : Fin nfile) (fd0 : Fin nofile) : State :=
  match freeFd (s.proc p) with
  | none => s.put p fd0 none (.close rf (.close wf))
  | some fd1 => (s.put p fd1 (some wf) .user).ret p 0

/-- `fork` starts: `allocproc` has found an unused slot, and `copyuvm` a page table. -/
def forkStart (s : State) (p np : Fin nproc) : State :=
  (s.setProc np { s.proc np with state := .embryo }).goto p (.fork np 0)

/-- A turn of the loop of `fork`, up to `filedup`, or the end of `fork`. -/
def forkTurn (s : State) (p np : Fin nproc) (i : ℕ) : State :=
  if hi : i < nofile then
    match (s.proc p).ofile ⟨i, hi⟩ with
    | none => s.goto p (.fork np (i + 1))
    | some f => (filedup s f).goto p (.forkDup np ⟨i, hi⟩ f)
  else (s.setProc np { s.proc np with state := .running }).ret p np.val

/-- The rest of a turn of the loop of `fork`. -/
def forkPut (s : State) (p np : Fin nproc) (i : Fin nofile) (f : Fin nfile) : State :=
  (s.setProc np
    { s.proc np with ofile := update (s.proc np).ofile i (some f) }).goto p
      (.fork np (i + 1))

/-- A turn of the loop of `exit`, up to `fileclose`, or the end of `exit`. -/
def exitTurn (s : State) (p : Fin nproc) (fd : ℕ) : State :=
  if hfd : fd < nofile then
    match (s.proc p).ofile ⟨fd, hfd⟩ with
    | none => s.goto p (.exit (fd + 1))
    | some f => s.goto p (.close f (.exit ⟨fd, hfd⟩))
  else s.setProc p { s.proc p with state := .zombie, code := .user }

/-! ### Steps -/

/-- What can happen. -/
inductive Event where
  | open (p : Fin nproc) (omode : BitVec 32)
  | dup (p : Fin nproc) (fd : Fin nofile)
  | close (p : Fin nproc) (fd : Fin nofile)
  | pipe (p : Fin nproc)
  | fork (p np : Fin nproc)
  | exit (p : Fin nproc)
  /-- `wait` finds a process that has exited. -/
  | wait (p : Fin nproc)
  /-- `kalloc` in `pipealloc` returns. -/
  | kalloc (p : Fin nproc) (page : Bool)
  /-- A process makes its next step in a call. -/
  | run (p : Fin nproc)

/-- The next step of a process in a call. -/
def run (s : State) (p : Fin nproc) : Option State :=
  match (s.proc p).code with
  | .user => none
  | .openAlloc f omode => some (openFd s p f omode)
  | .openFile f fd omode => some (openEnd s p f fd omode)
  | .dup f fd => some ((filedup s f).ret p fd.val)
  | .fork np i => some (forkTurn s p np i)
  | .forkDup np i f => some (forkPut s p np i f)
  | .pipeAlloc f0 => some (pipeSecond s p f0)
  | .pipeKalloc _ _ => none
  | .pipeFd0 rf wf => some (pipeFd0 s p rf wf)
  | .pipeFd1 rf wf fd0 => some (pipeFd1 s p rf wf fd0)
  | .close f next => some (fileclose s p f next)
  | .finish ff next => some (filefinish s p ff next)
  | .kfree i next => some (fileclosed (freePipe s i) p next)
  | .exit fd => some (exitTurn s p fd)
  | .exitClear fd => some (s.put p fd none (.exit (fd + 1)))

/-- A process can start a call. -/
def State.Ready (s : State) (p : Fin nproc) : Prop :=
  (s.proc p).state = .running ∧ (s.proc p).code = .user

instance (s : State) (p : Fin nproc) : Decidable (s.Ready p) := inferInstanceAs (Decidable (_ ∧ _))

/-- One step. -/
def step (s : State) : Event → Option State
  | .open p omode => if s.Ready p then some (sysOpen s p omode) else none
  | .dup p fd => if s.Ready p then some (sysDup s p fd) else none
  | .close p fd => if s.Ready p then some (sysClose s p fd) else none
  | .pipe p => if s.Ready p then some (sysPipe s p) else none
  | .fork p np =>
    if s.Ready p ∧ (s.proc np).state = .unused then some (forkStart s p np) else none
  -- `exit` of the first process panics
  | .exit p => if s.Ready p ∧ p.val ≠ 0 then some (s.goto p (.exit 0)) else none
  | .wait p =>
    if (s.proc p).state = .zombie then some (s.setProc p { s.proc p with state := .unused })
    else none
  | .kalloc p page =>
    match (s.proc p).code with
    | .pipeKalloc f0 f1 => some (pipekalloc s p f0 f1 page)
    | _ => none
  | .run p => run s p

/-- The system when the first process starts. -/
def boot : State where
  file _ := ⟨.none, 0, false, false, 0⟩
  pipe _ := ⟨false, false, 0⟩
  npipe := 0
  proc p := ⟨if p.val = 0 then .running else .unused, fun _ => none, .user, 0⟩
  panicked := false

end Xv6Draw.Files
