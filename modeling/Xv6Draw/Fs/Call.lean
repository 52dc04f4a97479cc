import Xv6Draw.Fs.Directory
import Xv6Draw.Fs.Log
import Xv6Draw.Lib.Hoare

/-!
# Files, processes and system calls

The file table of `file.c` and the system calls of `sysfile.c`, with `fork` and `exit`
of `proc.c` as far as they concern files. A process that does not run has no current
directory. The arguments of the calls are the values that the `arg` functions have
fetched. A call runs alone from its begin to its end, and it records the blocks that
each of its sections between `begin_op` and `end_op` has logged.

Pipes are left out: no call makes one. The devices are those that the kernel installs,
with what their functions do to the file.
-/

namespace Xv6Draw.Fs

open Function

/-- `NFILE`. -/
def nfile : ℕ := 100

instance : NeZero nfile := ⟨by decide⟩

/-- `NOFILE`. -/
def nofile : ℕ := 16

/-- `NPROC`. -/
def nproc : ℕ := 64

instance : NeZero nproc := ⟨by decide⟩

/-- The types of files. -/
inductive FileType where
  | none
  | inode
  deriving DecidableEq

/-- `struct file`. -/
structure File where
  type : FileType
  ref : ℕ
  readable : Bool
  writable : Bool
  ip : Fin ninode
  off : ℕ

/-- The part of `struct proc` for files. -/
structure Proc where
  ofile : Fin nofile → Option (Fin nfile)
  cwd : Option (Fin ninode)

/-- The system. -/
structure Sys where
  fs : State
  ftable : Fin nfile → File
  procs : Fin nproc → Proc
  /-- The blocks that each section of the call has logged. -/
  sections : List (List ℕ)

/-- A function of the system. -/
abbrev SysM := StateT Sys (Except Panic)

/-- A function of the file system in the system. -/
def onFs {α : Type} (x : FsM α) : SysM α := fun y =>
  match x y.fs with
  | .ok (a, s) => .ok (a, { y with fs := s })
  | .error e => .error e

/-- `begin_op`, for the record of what is logged. -/
def beginOp : SysM Unit := modify fun y => { y with fs := { y.fs with logged := [] } }

/-- `end_op`, for the record of what is logged. -/
def endOp : SysM Unit := modify fun y => { y with sections := y.sections ++ [y.fs.logged] }

/-- A function of the file system between `begin_op` and `end_op`. -/
def inOp {α : Type} (x : FsM α) : SysM α := do
  beginOp
  let a ← onFs x
  endOp
  return a

/-- A change to a file. -/
def setFile (f : Fin nfile) (h : File → File) : SysM Unit :=
  modify fun y => { y with ftable := update y.ftable f (h (y.ftable f)) }

/-- A change to a process. -/
def setProc (p : Fin nproc) (h : Proc → Proc) : SysM Unit :=
  modify fun y => { y with procs := update y.procs p (h (y.procs p)) }

/-- An assignment to a descriptor of a process. -/
def setFd (p : Fin nproc) (fd : Fin nofile) (f : Option (Fin nfile)) : SysM Unit :=
  setProc p fun pr => { pr with ofile := update pr.ofile fd f }

/-! ### Files -/

/-- The file that the loop of `filealloc` finds. -/
def freeFile (ftable : Fin nfile → File) : Option (Fin nfile) :=
  (List.finRange nfile).find? fun f => (ftable f).ref = 0

/-- `filealloc`. -/
def filealloc : SysM (Option (Fin nfile)) := do
  let y ← get
  match freeFile y.ftable with
  | none => return none
  | some f => do
    setFile f fun file => { file with ref := 1 }
    return some f

/-- `filedup`. -/
def filedup (f : Fin nfile) : SysM Unit := do
  let y ← get
  if (y.ftable f).ref < 1 then throw .filedup
  else setFile f fun file => { file with ref := file.ref + 1 }

/-- `fileclose` of the last reference. -/
def fileRelease (file : File) : SysM Unit :=
  if file.type = .inode then inOp (iput file.ip) else pure ()

/-- `fileclose`. -/
def fileclose (f : Fin nfile) : SysM Unit := do
  let y ← get
  if (y.ftable f).ref < 1 then throw .fileclose
  else if (y.ftable f).ref - 1 > 0 then setFile f fun file => { file with ref := file.ref - 1 }
  else do
    setFile f fun file => { file with ref := 0, type := .none }
    fileRelease (y.ftable f)

/-- The offset of a file moves on. -/
def advance (f : Fin nfile) (r : ℤ) : SysM Unit :=
  if r > 0 then setFile f fun file => { file with off := (file.off + r.toNat) % 2 ^ 32 } else pure ()

/-- The number of bytes of the answer of `readi`, as C returns it. -/
def readCount (r : Option (List (BitVec 8))) : ℤ :=
  match r with
  | none => -1
  | some bytes => bytes.length

/-- `fileread` of an inode that is no device. -/
def readInode (f : Fin nfile) (ip : Fin ninode) (n : ℕ) : SysM ℤ := do
  onFs (ilock ip)
  let y ← get
  let r ← onFs (readi ip (y.ftable f).off n)
  advance f (readCount r)
  onFs (iunlock ip)
  return readCount r

/-- `fileread`. The console is the only device that can be read, and answers with a
number of bytes of its own. -/
def fileread (f : Fin nfile) (n : ℕ) (console : ℤ) : SysM ℤ := do
  let y ← get
  let file := y.ftable f
  if file.readable = false then return -1
  else if file.type = .inode then
    if (y.fs.icache file.ip).d.type = tDev then
      return if (y.fs.icache file.ip).d.major = 1 then console else -1
    else readInode f file.ip n
  else throw .fileread

/-- `max` in `filewrite`. -/
def maxChunk : ℕ := ((Log.logSize - 1 - 1 - 2) / 2) * 512

/-- A section of `filewrite`. -/
def writeChunk (f : Fin nfile) (ip : Fin ninode) (src : ℕ → BitVec 8) (n1 : ℕ) : SysM ℤ := do
  beginOp
  onFs (ilock ip)
  let y ← get
  let r ← onFs (writei ip src (y.ftable f).off n1)
  advance f r
  onFs (iunlock ip)
  endOp
  return r

/-- The loop of `filewrite`: the bytes that were written. Every round writes at least
one byte. -/
def writeChunks (f : Fin nfile) (ip : Fin ninode) (addr : ℕ → BitVec 8) (n : ℕ) : ℕ → ℕ → SysM ℕ
  | 0, i => return i
  | rounds + 1, i =>
    if i < n then do
      let n1 := min (n - i) maxChunk
      let r ← writeChunk f ip (fun j => addr (i + j)) n1
      if r < 0 then return i
      else if r ≠ n1 then throw .shortFilewrite
      else writeChunks f ip addr n rounds (i + n1)
    else return i

/-- `filewrite` of an inode that is no device. -/
def writeInode (f : Fin nfile) (ip : Fin ninode) (addr : ℕ → BitVec 8) (n : ℕ) : SysM ℤ := do
  let i ← writeChunks f ip addr n n 0
  return if i = n then (n : ℤ) else -1

/-- The `write` functions of the devices: `consolewrite` and `displaywrite`, which
advances the offset. -/
def deviceWrite (f : Fin nfile) (major : BitVec 16) (n : ℕ) : SysM ℤ :=
  if major = 1 then return n
  else if major = 2 then do
    setFile f fun file => { file with off := (file.off + n) % 2 ^ 32 }
    return n
  else return -1

/-- `filewrite`. -/
def filewrite (f : Fin nfile) (addr : ℕ → BitVec 8) (n : ℕ) : SysM ℤ := do
  let y ← get
  let file := y.ftable f
  if file.writable = false then return -1
  else if file.type = .inode then
    if (y.fs.icache file.ip).d.type = tDev then deviceWrite f (y.fs.icache file.ip).d.major n
    else writeInode f file.ip addr n
  else throw .filewrite

/-! ### System calls -/

/-- The descriptor that the loop of `fdalloc` finds. -/
def freeFd (ofile : Fin nofile → Option (Fin nfile)) : Option (Fin nofile) :=
  (List.finRange nofile).find? fun fd => (ofile fd).isNone

/-- `fdalloc`. -/
def fdalloc (p : Fin nproc) (f : Fin nfile) : SysM (Option (Fin nofile)) := do
  let y ← get
  match freeFd (y.procs p).ofile with
  | none => return none
  | some fd => do
    setFd p fd (some f)
    return some fd

/-- `sys_dup`. -/
def sysDup (p : Fin nproc) (fd : Fin nofile) : SysM ℤ := do
  let y ← get
  match (y.procs p).ofile fd with
  | none => return -1
  | some f => do
    match ← fdalloc p f with
    | none => return -1
    | some fd' => do
      filedup f
      return fd'.val

/-- `sys_read`. -/
def sysRead (p : Fin nproc) (fd : Fin nofile) (n : ℕ) (console : ℤ) : SysM ℤ := do
  let y ← get
  match (y.procs p).ofile fd with
  | none => return -1
  | some f => fileread f n console

/-- `sys_write`. -/
def sysWrite (p : Fin nproc) (fd : Fin nofile) (addr : ℕ → BitVec 8) (n : ℕ) : SysM ℤ := do
  let y ← get
  match (y.procs p).ofile fd with
  | none => return -1
  | some f => filewrite f addr n

/-- `sys_close`. -/
def sysClose (p : Fin nproc) (fd : Fin nofile) : SysM ℤ := do
  let y ← get
  match (y.procs p).ofile fd with
  | none => return -1
  | some f => do
    setFd p fd none
    fileclose f
    return 0

/-- `O_WRONLY`. -/
def oWronly : BitVec 32 := 0x001

/-- `O_RDWR`. -/
def oRdwr : BitVec 32 := 0x002

/-- `O_CREATE`. -/
def oCreate : BitVec 32 := 0x200

/-- The inode that `sys_open` opens, locked. -/
def openInode (cwd : Fin ninode) (path : Name) (omode : BitVec 32) : FsM (Option (Fin ninode)) :=
  if omode &&& oCreate ≠ 0 then create cwd path tFile 0 0
  else do
    match ← namei cwd path with
    | none => return none
    | some ip => do
      ilock ip
      let s ← get
      if (s.icache ip).d.type = tDir ∧ omode ≠ 0 then do
        iunlockput ip
        return none
      else return some ip

/-- `sys_open` without a file or a descriptor. -/
def openFail (ip : Fin ninode) : SysM ℤ := do
  onFs (iunlockput ip)
  endOp
  return -1

/-- `sys_open` with a file and a descriptor. -/
def openDone (f : Fin nfile) (fd : Fin nofile) (ip : Fin ninode) (omode : BitVec 32) : SysM ℤ := do
  onFs (iunlock ip)
  endOp
  setFile f fun file =>
    { file with
      type := .inode
      ip := ip
      off := 0
      readable := omode &&& oWronly = 0
      writable := omode &&& oWronly ≠ 0 ∨ omode &&& oRdwr ≠ 0 }
  return fd.val

/-- `sys_open`. -/
def sysOpen (p : Fin nproc) (cwd : Fin ninode) (path : Name) (omode : BitVec 32) : SysM ℤ := do
  beginOp
  match ← onFs (openInode cwd path omode) with
  | none => do
    endOp
    return -1
  | some ip => do
    match ← filealloc with
    | none => openFail ip
    | some f => do
      match ← fdalloc p f with
      | none => do
        fileclose f
        openFail ip
      | some fd => openDone f fd ip omode

/-- `sys_chdir`. -/
def sysChdir (p : Fin nproc) (cwd : Fin ninode) (path : Name) : SysM ℤ := do
  match ← inOp (enter cwd path) with
  | none => return -1
  | some ip => do
    setProc p fun pr => { pr with cwd := some ip }
    return 0

/-- A round of the loop of `fork` over the open files. -/
def forkFd (p q : Fin nproc) (fd : Fin nofile) : SysM Unit := do
  let y ← get
  match (y.procs p).ofile fd with
  | none => pure ()
  | some f => do
    filedup f
    setFd q fd (some f)

/-- `fork`, when a process is there for the child. -/
def fork (p q : Fin nproc) (cwd : Fin ninode) : SysM ℤ := do
  (List.finRange nofile).forM (forkFd p q)
  let cwd' ← onFs (idup cwd)
  setProc q fun pr => { pr with cwd := some cwd' }
  return q.val

/-- A round of the loop of `exit` over the open files. -/
def exitFd (p : Fin nproc) (fd : Fin nofile) : SysM Unit := do
  let y ← get
  match (y.procs p).ofile fd with
  | none => pure ()
  | some f => do
    fileclose f
    setFd p fd none

/-- `exit`. The first process is `initproc`. -/
def exit (p : Fin nproc) (cwd : Fin ninode) : SysM ℤ :=
  if p = 0 then throw .initExiting
  else do
    (List.finRange nofile).forM (exitFd p)
    inOp (iput cwd)
    setProc p fun pr => { pr with cwd := none }
    return 0

/-- The system calls. -/
inductive Call where
  | openFile (path : Name) (omode : BitVec 32)
  | read (fd : Fin nofile) (n : ℕ) (console : ℤ)
  | write (fd : Fin nofile) (addr : ℕ → BitVec 8) (n : ℕ)
  | close (fd : Fin nofile)
  | dup (fd : Fin nofile)
  | link (old new : Name)
  | unlink (path : Name)
  | mkdir (path : Name)
  | mknod (path : Name) (major minor : BitVec 16)
  | chdir (path : Name)
  | fork (child : Fin nproc)
  | exit

/-- A system call of a process with its current directory. -/
def syscall (p : Fin nproc) (cwd : Fin ninode) : Call → SysM ℤ
  | .openFile path omode => sysOpen p cwd path omode
  | .read fd n console => sysRead p fd n console
  | .write fd addr n => sysWrite p fd addr n
  | .close fd => sysClose p fd
  | .dup fd => sysDup p fd
  | .link old new => inOp (link cwd old new)
  | .unlink path => inOp (unlink cwd path)
  | .mkdir path => inOp (make cwd path tDir 0 0)
  | .mknod path major minor => inOp (make cwd path tDev major minor)
  | .chdir path => sysChdir p cwd path
  | .fork child => fork p child cwd
  | .exit => exit p cwd

/-! ### Rules -/

section

open Hoare

variable {E : Panic → Prop} {y : Sys} {Q : Unit → Sys → Prop}

/-- A function of the file system changes the file system only. -/
theorem wp_onFs {α : Type} {x : FsM α} {R : α → Sys → Prop}
    (h : wp x E (fun a s => R a { y with fs := s }) y.fs) : wp (onFs x) E R y := by
  unfold wp at h ⊢
  unfold onFs
  cases hx : x y.fs with
  | error e =>
    rw [hx] at h
    exact h
  | ok r =>
    rw [hx] at h
    exact h

theorem wp_beginOp (h : Q () { y with fs := { y.fs with logged := [] } }) : wp beginOp E Q y :=
  wp_modify h

theorem wp_endOp (h : Q () { y with sections := y.sections ++ [y.fs.logged] }) : wp endOp E Q y :=
  wp_modify h

theorem wp_setFile {f : Fin nfile} {h : File → File}
    (hQ : Q () { y with ftable := update y.ftable f (h (y.ftable f)) }) :
    wp (setFile f h) E Q y :=
  wp_modify hQ

theorem wp_advance {f : Fin nfile} {r : ℤ}
    (h : ∀ off, Q () { y with ftable := update y.ftable f { y.ftable f with off := off } }) :
    wp (advance f r) E Q y := by
  unfold advance
  refine wp_ite (fun _ => wp_setFile (h _)) fun _ => wp_pure ?_
  have hsame := h (y.ftable f).off
  rwa [update_eq_self] at hsame

end

end Xv6Draw.Fs
