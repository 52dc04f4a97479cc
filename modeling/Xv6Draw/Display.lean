import Xv6Draw.Lib.Transition
import Xv6Draw.Memory
import Mathlib.Data.BitVec

/-!
# Writes to the display device

A descriptor of the display device shares its offset with every `dup` and every
forked child. `displaywrite` copies to the VGA window at that offset and advances
it, without comparing either with the size of the window. The model follows the
file table and the descriptor tables through whole runs of system calls.
-/

namespace Xv6Draw.Display

open Function Option Transition

/-- `KERNBASE`, the first kernel virtual address. -/
def kernbase : ℕ := 0xFFFF800000000000

/-- The start of the VGA window in kernel memory. -/
def vgaMem : ℕ := kernbase + 0xA0000

/-- The end of the VGA window, the first address that is not display memory. -/
def vgaEnd : ℕ := kernbase + 0xB0000

/-- `NFILE`, the size of the file table. -/
def nfile : ℕ := 100

/-- `NOFILE`, the size of a descriptor table. -/
def nofile : ℕ := 16

/-- The fields of `struct file` for an open display device. -/
structure File where
  /-- Reference count; zero marks a free slot. -/
  ref : ℕ
  /-- Whether the descriptor was opened for writing. -/
  writable : Bool
  /-- The offset, a 32-bit `uint`. -/
  off : BitVec 32

/-- Kernel memory, the file table and the descriptor table of every process. -/
structure State where
  mem : Mem
  file : ℕ → File
  /-- `ofile` of the process with a given number. -/
  ofile : ℕ → ℕ → Option ℕ

/-- System calls that touch descriptors of the display. A write names the
address of its source buffer and its `int` size. -/
inductive Event where
  | open (pid : ℕ) (omode : BitVec 32)
  | write (pid fd src : ℕ) (n : BitVec 32)
  | close (pid fd : ℕ)
  | dup (pid fd : ℕ)
  | fork (pid child : ℕ)

/-- `filealloc`: the first free slot of the file table. -/
def filealloc (s : State) : Option ℕ := (List.range nfile).find? fun f => (s.file f).ref == 0

/-- `fdalloc`: the first free descriptor of a process. -/
def fdalloc (s : State) (pid : ℕ) : Option ℕ :=
  (List.range nofile).find? fun fd => (s.ofile pid fd).isNone

/-- `argfd`: the file behind a descriptor below `NOFILE`. -/
def argfd (s : State) (pid fd : ℕ) : Option ℕ := if fd < nofile then s.ofile pid fd else none

/-- Point a descriptor at a file, or clear it. -/
def State.setOfile (s : State) (pid fd : ℕ) (f : Option ℕ) : State :=
  { s with ofile := update s.ofile pid (update (s.ofile pid) fd f) }

/-- Replace a slot of the file table. -/
def State.setFile (s : State) (f : ℕ) (file : File) : State :=
  { s with file := update s.file f file }

/-- `sys_open` of the display device, after the path lookup. With `O_CREATE`
(0x200) the call fails, because `create` finds a device where it wants a file;
it also fails when the file table or the descriptor table is full. `O_WRONLY` is
bit 0 and `O_RDWR` is bit 1. A failed call changes nothing. -/
def sysOpen (s : State) (pid : ℕ) (omode : BitVec 32) : State :=
  if omode &&& 0x200 ≠ 0 then s
  else match filealloc s, fdalloc s pid with
    | some f, some fd =>
      (s.setFile f ⟨1, omode &&& 1 ≠ 0 ∨ omode &&& 2 ≠ 0, 0⟩).setOfile pid fd (some f)
    | _, _ => s

/-- `displaywrite`: copy to the window at the file's offset, then advance the
offset modulo `2 ^ 32`. `memmove` takes the size as `uint`. -/
def displaywrite (s : State) (f src : ℕ) (n : BitVec 32) : State :=
  { s with mem := memmove s.mem (vgaMem + (s.file f).off.toNat) src n.toNat }.setFile f
    { s.file f with off := (s.file f).off + n }

/-- `filewrite` for a device descriptor whose `devsw` entry is `displaywrite`. -/
def filewrite (s : State) (f src : ℕ) (n : BitVec 32) : State :=
  if (s.file f).writable then displaywrite s f src n else s

/-- `filedup`. -/
def filedup (s : State) (f : ℕ) : State :=
  s.setFile f { s.file f with ref := (s.file f).ref + 1 }

/-- `fileclose`. -/
def fileclose (s : State) (f : ℕ) : State :=
  s.setFile f { s.file f with ref := (s.file f).ref - 1 }

/-- `sys_write` on a display descriptor. -/
def sysWrite (s : State) (pid fd src : ℕ) (n : BitVec 32) : State :=
  match argfd s pid fd with
  | some f => filewrite s f src n
  | none => s

/-- `sys_close`. -/
def sysClose (s : State) (pid fd : ℕ) : State :=
  match argfd s pid fd with
  | some f => fileclose (s.setOfile pid fd none) f
  | none => s

/-- `sys_dup`. -/
def sysDup (s : State) (pid fd : ℕ) : State :=
  match argfd s pid fd, fdalloc s pid with
  | some f, some fd' => filedup (s.setOfile pid fd' (some f)) f
  | _, _ => s

/-- The descriptor loop of `fork`, over the slots below `fd`. -/
def forkFiles (s : State) (pid child : ℕ) : ℕ → State
  | 0 => s
  | fd + 1 =>
    let t := forkFiles s pid child fd
    match s.ofile pid fd with
    | some f => filedup (t.setOfile child fd (some f)) f
    | none => t

/-- One system call. Every call returns, so every step is enabled. -/
def step (s : State) : Event → Option State
  | .open pid omode => some (sysOpen s pid omode)
  | .write pid fd src n => some (sysWrite s pid fd src n)
  | .close pid fd => some (sysClose s pid fd)
  | .dup pid fd => some (sysDup s pid fd)
  | .fork pid child => some (forkFiles s pid child nofile)

/-- The system after boot: no file is open. -/
def boot (mem : Mem) : State := ⟨mem, fun _ => ⟨0, false, 0⟩, fun _ _ => none⟩

/-- A write fits when the bytes from the descriptor's offset on lie in the
64 KiB window; an empty write always fits, as does any other system call. -/
def WriteFits (s : State) : Event → Prop
  | .write pid fd _ n => ∀ f, argfd s pid fd = some f → (s.file f).writable = true →
      n = 0 ∨ (s.file f).off.toNat + n.toNat ≤ 0x10000
  | _ => True

/-- Memory outside the VGA window is as in `mem`. -/
def FrameKept (mem : Mem) (s : State) : Prop := ∀ a, a < vgaMem ∨ vgaEnd ≤ a → s.mem a = mem a

/-- Only `displaywrite` touches memory: opening changes descriptors only. -/
theorem sysOpen_mem (s : State) (pid : ℕ) (omode : BitVec 32) :
    (sysOpen s pid omode).mem = s.mem := by
  unfold sysOpen
  split_ifs with hcreate
  · rfl
  · split <;> rfl

theorem sysClose_mem (s : State) (pid fd : ℕ) : (sysClose s pid fd).mem = s.mem := by
  unfold sysClose
  split <;> rfl

theorem sysDup_mem (s : State) (pid fd : ℕ) : (sysDup s pid fd).mem = s.mem := by
  unfold sysDup
  split <;> rfl

theorem forkFiles_mem (s : State) (pid child fd : ℕ) : (forkFiles s pid child fd).mem = s.mem := by
  induction fd with
  | zero => rfl
  | succ fd ih =>
    unfold forkFiles
    split
    · exact ih
    · exact ih

/-- A write through a writable descriptor is a copy to the window at the
offset of its file. -/
theorem sysWrite_mem {s : State} {pid fd f : ℕ} (hfd : argfd s pid fd = some f)
    (hw : (s.file f).writable = true) (src : ℕ) (n : BitVec 32) : (sysWrite s pid fd src n).mem =
      memmove s.mem (vgaMem + (s.file f).off.toNat) src n.toNat := by
  simp only [sysWrite, hfd, filewrite, hw, if_true, displaywrite, State.setFile]

/-- A write that fits keeps every byte outside the window. -/
theorem sysWrite_frame {s : State} {pid fd src : ℕ} {n : BitVec 32}
    (hfits : WriteFits s (.write pid fd src n)) {a : ℕ} (ha : a < vgaMem ∨ vgaEnd ≤ a) :
    (sysWrite s pid fd src n).mem a = s.mem a := by
  cases hfd : argfd s pid fd with
  | none => simp only [sysWrite, hfd]
  | some f =>
    by_cases hw : (s.file f).writable = true
    · rw [sysWrite_mem hfd hw]
      apply memmove_of_outside
      rcases hfits f hfd hw with rfl | hwindow
      · simp only [BitVec.ofNat_eq_ofNat, BitVec.toNat_ofNat, Nat.zero_mod]
        omega
      · have hend : vgaEnd = vgaMem + 0x10000 := rfl
        omega
    · simp only [sysWrite, hfd, filewrite, hw, Bool.false_eq_true, if_false]

/-- One system call keeps the frame when its write, if it is one, fits. -/
theorem step_frameKept {mem : Mem} {s t : State} {e : Event} (hframe : FrameKept mem s)
    (hfits : WriteFits s e) (hstep : step s e = some t) : FrameKept mem t := by
  intro a ha
  rw [← hframe a ha]
  cases e with
  | «open» pid omode =>
    simp only [step, some.injEq] at hstep
    rw [← hstep, sysOpen_mem]
  | write pid fd src n =>
    simp only [step, some.injEq] at hstep
    rw [← hstep]
    exact sysWrite_frame hfits ha
  | close pid fd =>
    simp only [step, some.injEq] at hstep
    rw [← hstep, sysClose_mem]
  | dup pid fd =>
    simp only [step, some.injEq] at hstep
    rw [← hstep, sysDup_mem]
  | fork pid child =>
    simp only [step, some.injEq] at hstep
    rw [← hstep, forkFiles_mem]

/-- Along every run of system calls in which each write fits at the offset its
descriptor has by then, no byte outside the VGA window changes. -/
theorem run_changes_only_window {mem : Mem} {es : List Event} {t : State}
    (hfits : Along step WriteFits (boot mem) es) (hrun : run step (boot mem) es = some t) :
    ∀ a, a < vgaMem ∨ vgaEnd ≤ a → t.mem a = mem a :=
  invariant_along (I := FrameKept mem) step_frameKept (fun _ _ => rfl) hfits hrun

/-- Memory that holds one marked byte, at the user address 0x1000. -/
def markedMem : Mem := fun a => if a = 0x1000 then 7 else 0

/-- The first chunk of `canvas_blit`, 1000 bytes to a fresh descriptor, changes
nothing outside the window. -/
theorem first_chunk_changes_only_window :
    run step (boot markedMem) [.open 1 1, .write 1 0 0x1000 1000] =
        some (sysWrite (sysOpen (boot markedMem) 1 1) 1 0 0x1000 1000) ∧
      FrameKept markedMem (sysWrite (sysOpen (boot markedMem) 1 1) 1 0 0x1000 1000) := by
  have hfits : Along step WriteFits (boot markedMem)
      [.open 1 1, .write 1 0 0x1000 1000] := by
    refine ⟨trivial, fun t ht => ⟨?_, fun _ _ => trivial⟩⟩
    simp only [step, some.injEq] at ht
    subst t
    intro f hf _
    have hslot : argfd (sysOpen (boot markedMem) 1 1) 1 0 = some 0 := rfl
    rw [hslot, some.injEq] at hf
    subst f
    exact .inr (by decide)
  exact ⟨rfl, run_changes_only_window hfits rfl⟩

/-- The window has been filled through descriptor 0 of process 1, so the
offset stands at the end of the window. -/
def filledWindow : State := sysWrite (sysOpen (boot markedMem) 1 1) 1 0 0x1000 0x10000

/-- After a write that fills the 64 KiB window, one more byte through the same
descriptor lands at the first address behind the window. -/
theorem write_past_window_changes_kernel_memory : run step (boot markedMem)
        [.open 1 1, .write 1 0 0x1000 0x10000, .write 1 0 0x1000 1] =
      some (sysWrite filledWindow 1 0 0x1000 1) ∧
      (sysWrite filledWindow 1 0 0x1000 1).mem vgaEnd = 7 ∧ markedMem vgaEnd = 0 := by
  have hfirst := sysWrite_mem (show argfd (sysOpen (boot markedMem) 1 1) 1 0 = some 0 from rfl)
    rfl 0x1000 0x10000
  have hlast := sysWrite_mem (show argfd filledWindow 1 0 = some 0 from rfl) rfl 0x1000 1
  have hoff : vgaMem + (filledWindow.file 0).off.toNat = vgaEnd := rfl
  -- the source byte is below the window, so filling the window did not change it
  have hsource : filledWindow.mem 0x1000 = markedMem 0x1000 := by
    unfold filledWindow
    rw [hfirst]
    exact memmove_of_outside (.inl (by decide))
  refine ⟨rfl, ?_, rfl⟩
  have hone : (1 : BitVec 32).toNat = 1 := rfl
  rw [hlast, hoff, hone, memmove_one, update_self, hsource]
  rfl

end Xv6Draw.Display
