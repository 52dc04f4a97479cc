import Mathlib

/-!
# The process table

The process table of `proc.c` with `fork`, `exit`, `wait`, `kill`, `sleep`, `wakeup` and
the scheduler. A step is a section under `ptable.lock`, or the end of `fork`, which
takes no lock and writes to a slot that nobody else writes to. A process that sleeps
in `wait` wakes up with the lock held, so the next look at its children is in the same
section as its scheduling.

`kalloc` panics when there is no page, so the paths of `allocproc` and `fork` that give
a slot back are never taken. The table carries two lists that the kernel does not have:
the processes that have exited, and the calls of `wait` that have returned one.
-/

namespace Xv6Draw.Ptable

open Function

/-- `NPROC`. -/
def nproc : ℕ := 64

instance : NeZero nproc := ⟨by decide⟩

/-- `enum procstate`. -/
inductive State where
  | unused
  | embryo
  | sleeping
  | runnable
  | running
  | zombie
  deriving DecidableEq

/-- What a process sleeps on: a process that waits for its children, or another address. -/
inductive Chan where
  | proc (p : Fin nproc)
  | addr (a : ℕ)
  deriving DecidableEq

/-- The system call in whose middle a process is. -/
inductive Call where
  | none
  | fork (np : Fin nproc)
  | wait
  deriving DecidableEq

/-- `struct proc`. -/
structure Proc where
  state : State
  pid : BitVec 32
  parent : Option (Fin nproc)
  /-- What the process sleeps on. -/
  chan : Option Chan
  killed : Bool
  /-- The system call that the process is in. -/
  call : Call
  deriving DecidableEq

/-- `ptable`, `nextpid` and `initproc`, with the history of exits and waits. -/
structure Table where
  proc : Fin nproc → Proc
  nextpid : BitVec 32
  initproc : Fin nproc
  exited : List (BitVec 32)
  /-- The processes that `wait` has returned, each with its caller. -/
  waited : List (Fin nproc × BitVec 32)

/-- A change to a slot. -/
def Table.set (t : Table) (p : Fin nproc) (x : Proc) : Table :=
  { t with proc := update t.proc p x }

/-- The slot that the loop of `allocproc` finds. -/
def unusedSlot (proc : Fin nproc → Proc) : Option (Fin nproc) :=
  (List.finRange nproc).find? fun p => (proc p).state = .unused

/-- `allocproc`. -/
def allocproc (t : Table) : Option (Fin nproc × Table) :=
  match unusedSlot t.proc with
  | none => none
  | some np =>
    some (np, { t.set np { t.proc np with state := .embryo, pid := t.nextpid } with
      nextpid := t.nextpid + 1 })

/-- `fork` up to the end of `allocproc`. Without a free slot it returns -1. -/
def fork (t : Table) (p : Fin nproc) : Table :=
  match allocproc t with
  | none => t
  | some (np, u) => u.set p { u.proc p with call := .fork np }

/-- `fork` behind `allocproc`. -/
def forkEnd (t : Table) (p np : Fin nproc) : Table :=
  (t.set np { t.proc np with parent := some p, state := .runnable }).set p
    { t.proc p with call := .none }

/-- `wakeup1`. -/
def wakeup1 (proc : Fin nproc → Proc) (chan : Option Chan) : Fin nproc → Proc := fun p =>
  if (proc p).state = .sleeping ∧ (proc p).chan = chan then { proc p with state := .runnable }
  else proc p

/-- A step of the loop of `exit` that passes the children to the first process. -/
def passChild (initproc p : Fin nproc) (proc : Fin nproc → Proc) (c : Fin nproc) : Fin nproc → Proc :=
  if (proc c).parent = some p then
    let passed := update proc c { proc c with parent := some initproc }
    if (proc c).state = .zombie then wakeup1 passed (some (.proc initproc)) else passed
  else proc

/-- The processes that `exit` leaves behind. -/
def abandon (initproc p : Fin nproc) (proc : Fin nproc → Proc) : Fin nproc → Proc :=
  (List.finRange nproc).foldl (passChild initproc p) proc

/-- `exit`, in its section. -/
def exit (t : Table) (p : Fin nproc) : Table :=
  let woken := wakeup1 t.proc ((t.proc p).parent.map .proc)
  let left := abandon t.initproc p woken
  { t with
    proc := update left p { left p with state := .zombie }
    exited := t.exited ++ [(t.proc p).pid] }

/-- The exited child that the loop of `wait` finds. -/
def exitedChild (proc : Fin nproc → Proc) (p : Fin nproc) : Option (Fin nproc) :=
  (List.finRange nproc).find? fun c => (proc c).parent = some p ∧ (proc c).state = .zombie

/-- A turn of the outer loop of `wait`: it returns an exited child, or -1, or sleeps. -/
def wait (t : Table) (p : Fin nproc) : Table :=
  match exitedChild t.proc p with
  | some c =>
    { (t.set c { t.proc c with pid := 0, parent := none, killed := false, state := .unused }).set p
        { t.proc p with call := .none } with
      waited := t.waited ++ [(p, (t.proc c).pid)] }
  | none =>
    if (∀ c, (t.proc c).parent ≠ some p) ∨ (t.proc p).killed then
      t.set p { t.proc p with call := .none }
    else t.set p { t.proc p with chan := some (.proc p), state := .sleeping, call := .wait }

/-- `sleep` on an address with another lock than that of the table. -/
def sleep (t : Table) (p : Fin nproc) (a : ℕ) : Table :=
  t.set p { t.proc p with chan := some (.addr a), state := .sleeping }

/-- `wakeup`. -/
def wakeup (t : Table) (a : ℕ) : Table := { t with proc := wakeup1 t.proc (some (.addr a)) }

/-- The scheduler takes a process, which goes on in `wait`, or comes back from another
`sleep`, from `yield` or from `fork`. -/
def schedule (t : Table) (p : Fin nproc) : Table :=
  if (t.proc p).call = .wait then
    wait (t.set p { t.proc p with state := .running, chan := none, call := .none }) p
  else t.set p { t.proc p with state := .running, chan := none }

/-- `yield`. -/
def yield (t : Table) (p : Fin nproc) : Table := t.set p { t.proc p with state := .runnable }

/-- The slot that the loop of `kill` finds. -/
def pidSlot (proc : Fin nproc → Proc) (pid : BitVec 32) : Option (Fin nproc) :=
  (List.finRange nproc).find? fun p => (proc p).pid = pid

/-- `kill`. -/
def kill (t : Table) (pid : BitVec 32) : ℤ × Table :=
  match pidSlot t.proc pid with
  | none => (-1, t)
  | some p =>
    (0, t.set p { t.proc p with
      killed := true
      state := if (t.proc p).state = .sleeping then .runnable else (t.proc p).state })

/-- The steps of the processes and of the scheduler. -/
inductive Event where
  | fork (p : Fin nproc)
  | forkEnd (p np : Fin nproc)
  | exit (p : Fin nproc)
  | wait (p : Fin nproc)
  | sleep (p : Fin nproc) (a : ℕ)
  | wakeup (a : ℕ)
  | schedule (p : Fin nproc)
  | yield (p : Fin nproc)
  | kill (pid : BitVec 32)

/-- The process runs and may make a system call. -/
def Runs (t : Table) (p : Fin nproc) : Prop :=
  (t.proc p).state = .running ∧ (t.proc p).call = .none

instance (t : Table) (p : Fin nproc) : Decidable (Runs t p) := inferInstanceAs (Decidable (_ ∧ _))

/-- One step. The first process does not exit: that is a panic. -/
def step (t : Table) : Event → Option Table
  | .fork p => if Runs t p then some (fork t p) else none
  | .forkEnd p np =>
    if (t.proc p).state = .running ∧ (t.proc p).call = .fork np then some (forkEnd t p np) else none
  | .exit p => if Runs t p ∧ p ≠ t.initproc then some (exit t p) else none
  | .wait p => if Runs t p then some (wait t p) else none
  | .sleep p a => if Runs t p then some (sleep t p a) else none
  | .wakeup a => some (wakeup t a)
  | .schedule p => if (t.proc p).state = .runnable then some (schedule t p) else none
  | .yield p => if (t.proc p).state = .running then some (yield t p) else none
  | .kill pid => some (kill t pid).2

/-- A slot of the table before the first process. -/
def blank : Proc := ⟨.unused, 0, none, none, false, .none⟩

/-- The table after `userinit`. -/
def boot : Table where
  proc := update (fun _ => blank) 0 { blank with state := .runnable, pid := 1 }
  nextpid := 2
  initproc := 0
  exited := []
  waited := []

/-- `userinit` makes the first process with `allocproc`. -/
example : unusedSlot (fun _ => blank) = some 0 := by decide

/-! ### What the loops find -/

section

variable (t : Table) (p : Fin nproc) (x : Proc)

theorem Table.set_proc (q : Fin nproc) :
    (t.set p x).proc q = if q = p then x else t.proc q :=
  update_apply t.proc p x q

@[simp] theorem Table.set_nextpid :
    (t.set p x).nextpid = t.nextpid := rfl

@[simp] theorem Table.set_initproc :
    (t.set p x).initproc = t.initproc := rfl

@[simp] theorem Table.set_exited :
    (t.set p x).exited = t.exited := rfl

@[simp] theorem Table.set_waited :
    (t.set p x).waited = t.waited := rfl

end

variable {proc : Fin nproc → Proc} {p c : Fin nproc}

theorem unusedSlot_eq_some (h : unusedSlot proc = some p) : (proc p).state = .unused := by
  simpa using List.find?_some h

theorem exitedChild_eq_some (h : exitedChild proc p = some c) :
    (proc c).parent = some p ∧ (proc c).state = .zombie := by
  simpa using List.find?_some h

theorem exitedChild_eq_none (h : exitedChild proc p = none) (hparent : (proc c).parent = some p) :
    (proc c).state ≠ .zombie := by
  have hall := List.find?_eq_none.mp h c (List.mem_finRange c)
  simp only [decide_eq_true_eq, not_and] at hall
  exact hall hparent

theorem pidSlot_eq_some {pid : BitVec 32} (h : pidSlot proc pid = some p) : (proc p).pid = pid := by
  simpa using List.find?_some h

/-! ### What `exit` does to the other processes -/

theorem wakeup1_eq (proc : Fin nproc → Proc) (chan : Option Chan) (p : Fin nproc) :
    wakeup1 proc chan p = { proc p with
      state := if (proc p).state = .sleeping ∧ (proc p).chan = chan then .runnable
        else (proc p).state } := by
  unfold wakeup1
  split_ifs <;> rfl

/-- One slot is passed on. -/
theorem passChild_eq (initproc p : Fin nproc) (proc : Fin nproc → Proc) (c q : Fin nproc) :
    passChild initproc p proc c q = { proc q with
      parent := if q = c ∧ (proc q).parent = some p then some initproc else (proc q).parent
      state := if (proc q).state = .sleeping ∧ (proc q).chan = some (.proc initproc) ∧
          (proc c).parent = some p ∧ (proc c).state = .zombie then .runnable
        else (proc q).state } := by
  unfold passChild
  by_cases hchild : (proc c).parent = some p
  · rw [if_pos hchild]
    by_cases hq : q = c
    · subst q
      by_cases hexited : (proc c).state = .zombie
      · simp [hchild, hexited, wakeup1]
      · simp [hchild, hexited]
    · by_cases hexited : (proc c).state = .zombie
      · simp [hchild, hexited, hq, wakeup1_eq]
      · simp [hexited, hq]
  · rw [if_neg hchild]
    by_cases hq : q = c
    · subst q
      simp [hchild]
    · simp [hchild, hq]

/-- The children in a part of the table are passed on, and the first process is woken when
one of them has exited. -/
theorem foldl_passChild {initproc : Fin nproc} (hp : initproc ≠ p) (slots : List (Fin nproc))
    (proc : Fin nproc → Proc) (q : Fin nproc) :
    slots.foldl (passChild initproc p) proc q = { proc q with
      parent := if q ∈ slots ∧ (proc q).parent = some p then some initproc else (proc q).parent
      state := if (proc q).state = .sleeping ∧ (proc q).chan = some (.proc initproc) ∧
          ∃ c ∈ slots, (proc c).parent = some p ∧ (proc c).state = .zombie then .runnable
        else (proc q).state } := by
  induction slots generalizing proc with
  | nil => simp
  | cons c slots ih =>
    have hparent : ∀ d, (passChild initproc p proc c d).parent = some p ↔
        (proc d).parent = some p ∧ d ≠ c := by
      intro d
      rw [passChild_eq]
      grind
    have hzombie : ∀ d, (passChild initproc p proc c d).state = .zombie ↔ (proc d).state = .zombie := by
      intro d
      rw [passChild_eq]
      grind
    have hexists : (∃ d ∈ c :: slots, (proc d).parent = some p ∧ (proc d).state = .zombie) ↔
        ((proc c).parent = some p ∧ (proc c).state = .zombie) ∨
          ∃ d ∈ slots, ((proc d).parent = some p ∧ d ≠ c) ∧ (proc d).state = .zombie := by
      constructor
      · rintro ⟨d, hd, hchild, hexited⟩
        by_cases hdc : d = c
        · subst d
          exact .inl ⟨hchild, hexited⟩
        · exact .inr ⟨d, List.mem_of_ne_of_mem hdc hd, ⟨hchild, hdc⟩, hexited⟩
      · rintro (⟨hchild, hexited⟩ | ⟨d, hd, ⟨hchild, -⟩, hexited⟩)
        · exact ⟨c, List.mem_cons_self, hchild, hexited⟩
        · exact ⟨d, List.mem_cons_of_mem c hd, hchild, hexited⟩
    rw [List.foldl_cons, ih]
    simp only [hparent, hzombie, hexists]
    rw [passChild_eq]
    simp only [List.mem_cons]
    congr 1
    · grind
    · grind

/-- The children are passed on, and the first process is woken when one of them has
exited. -/
theorem abandon_eq {initproc : Fin nproc} (hp : initproc ≠ p) (proc : Fin nproc → Proc)
    (q : Fin nproc) :
    abandon initproc p proc q = { proc q with
      parent := if (proc q).parent = some p then some initproc else (proc q).parent
      state := if (proc q).state = .sleeping ∧ (proc q).chan = some (.proc initproc) ∧
          ∃ c, (proc c).parent = some p ∧ (proc c).state = .zombie then .runnable
        else (proc q).state } := by
  rw [abandon, foldl_passChild hp]
  simp

end Xv6Draw.Ptable
