import Xv6Draw.Files.Model
import Xv6Draw.Lib.Tally

/-!
# References to open files

The reference count of a file is the number of descriptors that stand for a reference,
and of references that calls hold in local variables. A descriptor stands for a
reference unless a call is between the descriptor and the count: `dup` fills the
descriptor before it calls `filedup`, and `exit` clears it behind `fileclose`.
-/

namespace Xv6Draw.Files

open Function List Option Tally

variable {s t : State} {p q : Fin nproc} {f g : Fin nfile}

/-! ### What a process holds -/

/-- The references that wait in the rest of a call. -/
def Next.held : Next → List (Fin nfile)
  | .close f => [f]
  | .ret _ | .exit _ => []

/-- The references that a call holds in local variables. -/
def Code.held : Code → List (Fin nfile)
  | .openAlloc f _ => [f]
  | .forkDup _ _ f => [f]
  | .pipeAlloc f0 => [f0]
  | .pipeKalloc f0 f1 => [f0, f1]
  | .pipeFd0 rf wf => [rf, wf]
  | .pipeFd1 _ wf _ => [wf]
  -- `exit` closes a file through its descriptor.
  | .close _ (.exit _) => []
  | .close f next => f :: next.held
  | .finish _ next | .kfree _ next => next.held
  | .user | .openFile .. | .dup .. | .fork .. | .exit _ | .exitClear _ => []

/-- The descriptor that `exit` has closed and not cleared. -/
def Next.spent : Next → Option (Fin nofile)
  | .exit fd => some fd
  | .ret _ | .close _ => none

/-- The descriptor that does not stand for a reference. -/
def Code.spent : Code → Option (Fin nofile)
  | .dup _ fd => some fd
  | .finish _ next | .kfree _ next => next.spent
  | .exitClear fd => some fd
  | _ => none

/-- The descriptors that stand for references. -/
def Process.slot (pr : Process) (fd : Fin nofile) : Option (Fin nfile) :=
  if pr.code.spent = some fd then none else pr.ofile fd

/-- Does a descriptor point to a file? -/
def points (f : Fin nfile) (v : Option (Fin nfile)) : ℕ := if v = some f then 1 else 0

/-- The references of a process to a file. -/
def charge (f : Fin nfile) (pr : Process) : ℕ := tally (points f) pr.slot + pr.code.held.count f

/-- What the descriptors of a process are like in the loop of `exit`. -/
def Next.Ok (ofile : Fin nofile → Option (Fin nfile)) : Next → Prop
  | .exit fd => ∀ j < fd, ofile j = none
  | .ret _ | .close _ => True

/-- What the descriptors of a process are like in a call. -/
def Code.Ok (ofile : Fin nofile → Option (Fin nfile)) : Code → Prop
  | .openFile f fd _ => ofile fd = some f
  | .dup f fd => ofile fd = some f ∧ ∃ fd', fd' ≠ fd ∧ ofile fd' = some f
  | .pipeFd1 rf _ fd0 => ofile fd0 = some rf
  | .close f (.exit fd) => ofile fd = some f ∧ ∀ j < fd, ofile j = none
  | .finish _ next | .kfree _ next => next.Ok ofile
  | .exit fd => ∀ j : Fin nofile, j.val < fd → ofile j = none
  | .exitClear fd => ∀ j < fd, ofile j = none
  | _ => True

/-- The process that `fork` makes, and the descriptor that it is at. -/
def Code.child : Code → Option (Fin nproc × ℕ)
  | .fork np i => some (np, i)
  | .forkDup np i _ => some (np, i.val)
  | _ => none

/-- The account of the references. -/
structure Refs (s : State) : Prop where
  /-- `filedup` and `fileclose` did not panic. -/
  panicked : s.panicked = false
  refs : ∀ f, (s.file f).ref = tally (charge f) s.proc
  /-- Only a running process is in a call. -/
  calm : ∀ p, (s.proc p).state ≠ .running → (s.proc p).code = .user
  /-- An unused slot and a process that has exited have no descriptors. -/
  empty : ∀ p, (s.proc p).state = .unused ∨ (s.proc p).state = .zombie →
    ∀ fd, (s.proc p).ofile fd = none
  /-- The descriptors of a process in a call. -/
  ok : ∀ p, (s.proc p).code.Ok (s.proc p).ofile
  /-- A process that is being made has only the descriptors below the one `fork` is at. -/
  child : ∀ p np i, (s.proc p).code.child = some (np, i) →
    (s.proc np).state = .embryo ∧ ∀ fd : Fin nofile, i ≤ fd.val → (s.proc np).ofile fd = none
  only : ∀ p q np i j, (s.proc p).code.child = some (np, i) →
    (s.proc q).code.child = some (np, j) → p = q

/-! ### Charges -/

variable {pr pr' : Process} {c c' : Code} {fd : Fin nofile} {i : ℕ} {np : Fin nproc}

/-- When no descriptor changes, the charge changes with what the call holds. -/
theorem charge_of_code (hc : pr.code = c) (hc' : pr'.code = c')
    (hofile : pr'.ofile = pr.ofile) (hspent : c'.spent = c.spent) :
    charge f pr' + c.held.count f = charge f pr + c'.held.count f := by
  have hslot : pr'.slot = pr.slot := by
    funext fd
    rw [Process.slot, Process.slot, hc, hc', hofile, hspent]
  unfold charge
  rw [hslot, hc, hc']
  omega

/-- When a descriptor changes, the charge changes with it and with what the call holds. -/
theorem charge_of_slot_update (hc : pr.code = c) (hc' : pr'.code = c') {v : Option (Fin nfile)}
    (h : pr'.slot = update pr.slot fd v) : charge f pr' + points f (pr.slot fd) + c.held.count f =
      charge f pr + points f v + c'.held.count f := by
  have htally := tally_update (points f) pr.slot fd v
  unfold charge
  rw [h, hc, hc']
  omega

theorem slot_of_spent (h : pr.code.spent = none) : pr.slot = pr.ofile := by
  funext fd
  simp [Process.slot, h]

/-- The descriptor that does not stand for a reference is left out. -/
theorem slot_of_spent_eq_some (h : pr.code.spent = some fd) :
    pr.slot = update pr.ofile fd none := by
  funext j
  simp only [Process.slot, h, some.injEq, update_apply, eq_comm]

theorem charge_pos_of_held (h : f ∈ pr.code.held) : 0 < charge f pr := by
  have := count_pos_iff.mpr h
  unfold charge
  omega

/-- A descriptor that stands for a reference is charged. -/
theorem charge_pos_of_slot (h : pr.slot fd = some f) :
    0 < charge f pr := by
  have := le_tally (points f) pr.slot fd
  simp only [points, h, if_true] at this
  unfold charge
  omega

theorem Refs.ref_pos (h : Refs s) (hp : 0 < charge f (s.proc p)) : 0 < (s.file f).ref := by
  have := le_tally (charge f) s.proc p
  rw [h.refs f]
  omega

/-! ### Steps of one process -/

/-- What the account says of a process alone. -/
structure Process.Local (pr : Process) : Prop where
  /-- Only a running process is in a call. -/
  calm : pr.state ≠ .running → pr.code = .user
  /-- An unused slot and a process that has exited have no descriptors. -/
  empty : pr.state = .unused ∨ pr.state = .zombie → ∀ fd, pr.ofile fd = none
  /-- The descriptors in a call. -/
  ok : pr.code.Ok pr.ofile

theorem Process.local_of_running (h : pr.state = .running) (hok : pr.code.Ok pr.ofile) : pr.Local :=
  ⟨fun hne => absurd h hne, fun hor => by simp [h] at hor, hok⟩

theorem Refs.local (h : Refs s) (p : Fin nproc) : (s.proc p).Local := ⟨h.calm p, h.empty p, h.ok p⟩

/-- The processes are all right one by one, and `fork` has made progress at most. -/
theorem Refs.change (h : Refs s) (hpanicked : t.panicked = s.panicked)
    (hrefs : ∀ f, (t.file f).ref = tally (charge f) t.proc) (hlocal : ∀ q, (t.proc q).Local)
    (hembryo : ∀ np, (s.proc np).state = .embryo → t.proc np = s.proc np)
    (hold : ∀ q np i, (t.proc q).code.child = some (np, i) →
      ∃ j ≤ i, (s.proc q).code.child = some (np, j)) : Refs t := by
  refine ⟨hpanicked.trans h.panicked, hrefs, fun q => (hlocal q).calm, fun q => (hlocal q).empty,
    fun q => (hlocal q).ok, ?_, ?_⟩
  · intro q np i hq
    obtain ⟨j, hj, hq'⟩ := hold q np i hq
    obtain ⟨hnp, hempty⟩ := h.child q np j hq'
    rw [hembryo np hnp]
    exact ⟨hnp, fun fd hfd => hempty fd (hj.trans hfd)⟩
  · intro q r np i j hq hr
    obtain ⟨i', -, hq'⟩ := hold q np i hq
    obtain ⟨j', -, hr'⟩ := hold r np j hr
    exact h.only q r np i' j' hq' hr'

/-- A step that changes one process, which `fork` does not make, and the counts with its
charges. -/
theorem Refs.replace (h : Refs s) (hstate : (s.proc p).state ≠ .embryo)
    (hproc : t.proc = update s.proc p pr) (hpanicked : t.panicked = s.panicked)
    (hrefs : ∀ f, (t.file f).ref + charge f (s.proc p) = (s.file f).ref + charge f pr)
    (hlocal : pr.Local) (hchild : ∀ np i, pr.code.child = some (np, i) →
      ∃ j ≤ i, (s.proc p).code.child = some (np, j)) : Refs t := by
  have hother : ∀ q, q ≠ p → t.proc q = s.proc q := fun q hq => by
    rw [hproc, update_of_ne hq]
  refine h.change hpanicked ?_ ?_ ?_ ?_
  · intro f
    have htally := tally_update (charge f) s.proc p pr
    have hf := hrefs f
    have hs := h.refs f
    rw [hproc]
    omega
  · intro q
    by_cases hq : q = p
    · rw [hq, hproc, update_self]
      exact hlocal
    · rw [hother q hq]
      exact h.local q
  · intro np hnp
    refine hother np ?_
    rintro rfl
    exact hstate hnp
  · intro q np i hq
    by_cases hqp : q = p
    · subst q
      rw [hproc, update_self] at hq
      exact hchild np i hq
    · rw [hother q hqp] at hq
      exact ⟨i, le_rfl, hq⟩

theorem Refs.move (h : Refs s) (hrunning : (s.proc p).state = .running)
    (hproc : t.proc = update s.proc p pr) (hstate : pr.state = .running)
    (hpanicked : t.panicked = s.panicked)
    (hrefs : ∀ f, (t.file f).ref + charge f (s.proc p) = (s.file f).ref + charge f pr)
    (hok : pr.code.Ok pr.ofile) (hchild : ∀ np i, pr.code.child = some (np, i) →
      ∃ j ≤ i, (s.proc p).code.child = some (np, j)) : Refs t :=
  h.replace (by rw [hrunning]; nofun) hproc hpanicked hrefs (Process.local_of_running hstate hok) hchild

theorem Refs.running (h : Refs s) (hcode : (s.proc p).code = c) (hc : c ≠ .user) :
    (s.proc p).state = .running := by
  by_contra hstate
  exact hc (hcode.symm.trans (h.calm p hstate))

theorem Refs.ofile_ok (h : Refs s) (hcode : (s.proc p).code = c) : c.Ok (s.proc p).ofile :=
  hcode ▸ h.ok p

section

variable (h : Refs s) (hcode : (s.proc p).code = c) (hrunning : (s.proc p).state = .running)
include h hcode hrunning

/-- A step of a running process that leaves its descriptors alone. -/
theorem Refs.recode (hproc : t.proc = update s.proc p pr) (hstate : pr.state = .running)
    (hofile : pr.ofile = (s.proc p).ofile) (hpanicked : t.panicked = s.panicked)
    (hspent : pr.code.spent = c.spent)
    (hrefs : ∀ f, (t.file f).ref + c.held.count f = (s.file f).ref + pr.code.held.count f)
    (hok : pr.code.Ok (s.proc p).ofile)
    (hchild : ∀ np i, pr.code.child = some (np, i) → ∃ j ≤ i, c.child = some (np, j)) :
    Refs t := by
  refine h.move hrunning hproc hstate hpanicked ?_ (hofile ▸ hok) (by rwa [hcode])
  intro f
  have hcharge := charge_of_code (f := f) hcode rfl hofile hspent
  have := hrefs f
  omega

/-- A step of a running process that leaves alone the descriptors that stand for references. -/
theorem Refs.reslot (hproc : t.proc = update s.proc p pr) (hstate : pr.state = .running)
    (hfile : t.file = s.file) (hpanicked : t.panicked = s.panicked)
    (hslot : pr.slot = (s.proc p).slot) (hheld : pr.code.held = c.held)
    (hok : pr.code.Ok pr.ofile) (hchild : pr.code.child = none) : Refs t := by
  refine h.move hrunning hproc hstate hpanicked ?_ hok (fun np i hc => nomatch hchild.symm.trans hc)
  intro f
  have hcharge : charge f pr = charge f (s.proc p) := by rw [charge, charge, hslot, hheld, hcode]
  rw [hfile, hcharge]

/-- A step that leaves the files alone, and what the call of the process holds. -/
theorem Refs.goto (hspent : c'.spent = c.spent) (hheld : c'.held = c.held)
    (hok : c'.Ok (s.proc p).ofile)
    (hchild : ∀ np i, c'.child = some (np, i) → ∃ j ≤ i, c.child = some (np, j)) : Refs (s.goto p c') :=
  h.recode hcode hrunning rfl hrunning rfl rfl hspent (fun f => by rw [hheld]; rfl) hok hchild

theorem Refs.ret (hspent : c.spent = none) (hheld : c.held = []) (value : ℤ) : Refs (s.ret p value) :=
  h.recode hcode hrunning rfl hrunning rfl rfl hspent.symm (fun f => by rw [hheld]; rfl) trivial nofun

/-- A descriptor changes hands with what the call holds. -/
theorem Refs.put {v : Option (Fin nfile)} (hspent : c.spent = none)
    (hspent' : c'.spent = none) (hheld : ∀ f, points f v + c'.held.count f =
      points f ((s.proc p).ofile fd) + c.held.count f)
    (hok : c'.Ok (update (s.proc p).ofile fd v)) (hchild : c'.child = none) :
    Refs (s.put p fd v c') := by
  subst hcode
  refine h.move hrunning rfl hrunning rfl ?_ hok (fun np i hc => nomatch hchild.symm.trans hc)
  intro f
  have hslot : Process.slot
      { s.proc p with ofile := update (s.proc p).ofile fd v, code := c' } =
      update (s.proc p).slot fd v := by
    rw [slot_of_spent hspent]
    exact slot_of_spent hspent'
  have hcharge := charge_of_slot_update (f := f) rfl rfl hslot
  rw [slot_of_spent hspent] at hcharge
  have := hheld f
  simp only [State.put, State.setProc] at hcharge ⊢
  omega

end

/-! ### Files that are opened and closed -/

theorem freeFile_eq_some (h : freeFile s = some f) : (s.file f).ref = 0 := by
  simpa using List.find?_some h

theorem freeFd_eq_some (h : freeFd pr = some fd) :
    pr.ofile fd = none := by
  simpa using List.find?_some h

/-- A count that goes from `a` to `b`, up to what both have in common. -/
theorem ref_setFile {ff : File} (a b : ℕ) (h : ff.ref + a = (s.file f).ref + b) (g : Fin nfile) :
    ((s.setFile f ff).file g).ref + a * points g (some f) =
      (s.file g).ref + b * points g (some f) := by
  simp only [State.setFile, update_apply, points, some.injEq]
  by_cases hgf : g = f
  · subst g
    simpa using h
  · simp [hgf, Ne.symm hgf]

/-- `filealloc`, for a call that holds the file. -/
theorem Refs.filealloc (h : Refs s) (hcode : (s.proc p).code = c)
    (hrunning : (s.proc p).state = .running) (hf : (s.file f).ref = 0) (hspent : c'.spent = c.spent)
    (hheld : c'.held.Perm (f :: c.held)) (hok : c'.Ok (s.proc p).ofile) (hchild : c'.child = none) :
    Refs ((Files.filealloc s f).goto p c') := by
  refine h.recode hcode hrunning rfl hrunning rfl rfl hspent ?_ hok
    (fun np i hc => nomatch hchild.symm.trans hc)
  intro g
  have hcount : ((s.setFile f { s.file f with ref := 1 }).file g).ref + 0 * _ = _ :=
    ref_setFile 0 1 (by rw [hf]) g
  simp only [hheld.count_eq, count_cons, beq_iff_eq]
  simp only [points, some.injEq] at hcount
  simp only [Files.filealloc, State.goto, State.setProc]
  omega

theorem filedup_proc (s : State) (f : Fin nfile) : (filedup s f).proc = s.proc := by
  unfold filedup
  split_ifs <;> rfl

/-- `filedup` by a process that is charged for the file, which is charged once more. -/
theorem Refs.filedup (h : Refs s) (hrunning : (s.proc p).state = .running)
    (hf : 0 < charge f (s.proc p)) (hstate : pr.state = .running)
    (hcharge : ∀ g, charge g pr = charge g (s.proc p) + points g (some f)) (hok : pr.code.Ok pr.ofile)
    (hchild : ∀ np i, pr.code.child = some (np, i) → ∃ j ≤ i, (s.proc p).code.child = some (np, j)) :
    Refs ((Files.filedup s f).setProc p pr) := by
  have hpos := h.ref_pos hf
  unfold Files.filedup
  rw [if_neg (by omega)]
  refine h.move hrunning rfl hstate rfl ?_ hok hchild
  intro g
  have hcount : ((s.setFile f { s.file f with ref := (s.file f).ref + 1 }).file g).ref + 0 * _ = _ :=
    ref_setFile 0 1 rfl g
  have := hcharge g
  simp only [State.setProc] at hcount ⊢
  omega

/-- Where a process goes on when `fileclose` returns. -/
def Next.after : Next → Code
  | .ret _ => .user
  | .close f => .close f (.ret (-1))
  | .exit fd => .exitClear fd

theorem fileclosed_eq (s : State) (p : Fin nproc) (next : Next) : ∃ value, fileclosed s p next =
      s.setProc p ⟨(s.proc p).state, (s.proc p).ofile, next.after, value⟩ := by
  cases next with
  | ret value => exact ⟨value, rfl⟩
  | close f => exact ⟨(s.proc p).ret, rfl⟩
  | exit fd => exact ⟨(s.proc p).ret, rfl⟩

@[simp] theorem Next.after_held (next : Next) : next.after.held = next.held := by
  cases next <;> rfl

@[simp] theorem Next.after_spent (next : Next) : next.after.spent = next.spent := by
  cases next <;> rfl

@[simp] theorem Next.after_child (next : Next) : next.after.child = none := by
  cases next <;> rfl

theorem Next.after_ok {ofile : Fin nofile → Option (Fin nfile)} {next : Next} (h : next.Ok ofile) :
    next.after.Ok ofile := by
  cases next with
  | ret | close => trivial
  | exit fd => exact h

/-- The reference that `fileclose` drops. -/
theorem charge_close {next : Next} (hcode : pr.code = .close f next)
    (hok : pr.code.Ok pr.ofile) (hofile : pr'.ofile = pr.ofile) (hheld : pr'.code.held = next.held)
    (hspent : pr'.code.spent = next.spent) :
    charge g pr' + points g (some f) = charge g pr := by
  cases next with
  | ret value =>
    have hcharge := charge_of_code (f := g) hcode rfl hofile hspent
    rw [hheld] at hcharge
    simp only [Code.held, Next.held, count_cons, count_nil, beq_iff_eq] at hcharge
    simp only [points, some.injEq]
    omega
  | close f' =>
    have hcharge := charge_of_code (f := g) hcode rfl hofile hspent
    rw [hheld] at hcharge
    simp only [Code.held, Next.held, count_cons, count_nil, beq_iff_eq] at hcharge
    simp only [points, some.injEq]
    omega
  | exit fd =>
    have hslot : pr.slot = pr.ofile := slot_of_spent (by rw [hcode]; rfl)
    have hslot' : pr'.slot = update pr.slot fd none := by
      rw [slot_of_spent_eq_some hspent, hofile, hslot]
    have hcharge := charge_of_slot_update (f := g) hcode rfl hslot'
    rw [hcode] at hok
    rw [hheld, hslot, hok.1] at hcharge
    simpa [points, Code.held, Next.held] using hcharge

theorem Refs.close_pos (h : Refs s) {next : Next} (hcode : (s.proc p).code = .close f next) :
    0 < charge f (s.proc p) := by
  have hdrop : charge f ⟨(s.proc p).state, (s.proc p).ofile, next.after, 0⟩ + points f (some f) = _ :=
    charge_close hcode (h.ok p) rfl next.after_held next.after_spent
  simp only [points, if_true] at hdrop
  omega

theorem Code.Ok.next {ofile : Fin nofile → Option (Fin nfile)} {next : Next}
    (h : (Code.close f next).Ok ofile) : next.Ok ofile := by
  cases next with
  | ret | close => trivial
  | exit fd => exact h.2

section

variable (h : Refs s)
include h

theorem Refs.fileclose {next : Next} (hcode : (s.proc p).code = .close f next) :
    Refs (Files.fileclose s p f next) := by
  have hrunning := h.running hcode nofun
  have hpos := h.ref_pos (h.close_pos hcode)
  have hnext : next.Ok (s.proc p).ofile := (h.ofile_ok hcode).next
  -- One count goes down with the charge.
  have hcount : ∀ {ff : File} {pr : Process}, ff.ref + 1 = (s.file f).ref →
      pr.ofile = (s.proc p).ofile → pr.code.held = next.held → pr.code.spent = next.spent →
      ∀ g, ((s.setFile f ff).file g).ref + charge g (s.proc p) = (s.file g).ref + charge g pr := by
    intro ff pr href hofile hheld hspent g
    have hdrop := charge_close (g := g) hcode (h.ok p) hofile hheld hspent
    have hset := ref_setFile 1 0 href g
    omega
  unfold Files.fileclose
  rw [if_neg (by omega)]
  split_ifs with hmore
  · obtain ⟨value, heq⟩ :=
      fileclosed_eq (s.setFile f { s.file f with ref := (s.file f).ref - 1 }) p next
    rw [heq]
    refine h.move hrunning rfl hrunning rfl ?_ (Next.after_ok hnext) (fun np i hc => by simp at hc)
    exact hcount (Nat.sub_add_cancel hpos) rfl next.after_held next.after_spent
  · refine h.move hrunning rfl hrunning rfl ?_ hnext nofun
    exact hcount (by simp only; omega) rfl rfl rfl

/-- `fileclose` returns, behind what is done for the last reference. -/
theorem Refs.fileclosed (hcode : (s.proc p).code = c) (hc : c ≠ .user)
    {next : Next} (hheld : c.held = next.held) (hspent : c.spent = next.spent)
    (hok : next.Ok (s.proc p).ofile) (hproc : t.proc = s.proc) (hfile : t.file = s.file)
    (hpanicked : t.panicked = s.panicked) : Refs (Files.fileclosed t p next) := by
  have hrunning := h.running hcode hc
  obtain ⟨value, heq⟩ := fileclosed_eq t p next
  rw [heq, hproc]
  have hproc' : (t.setProc p ⟨(s.proc p).state, (s.proc p).ofile, next.after, value⟩).proc =
      update s.proc p ⟨(s.proc p).state, (s.proc p).ofile, next.after, value⟩ := by
    rw [← hproc]
    rfl
  refine h.recode hcode hrunning hproc' hrunning rfl hpanicked (next.after_spent.trans hspent.symm)
    ?_ (Next.after_ok hok) (fun np i hc => by simp at hc)
  intro g
  rw [hheld, Next.after_held]
  simp only [State.setProc, hfile]

/-- The rest of `fileclose` for the last reference. -/
theorem Refs.filefinish {ff : File} {next : Next}
    (hcode : (s.proc p).code = .finish ff next) : Refs (Files.filefinish s p ff next) := by
  have hrunning := h.running hcode nofun
  have hok : next.Ok (s.proc p).ofile := h.ofile_ok hcode
  have hclosed : ∀ t : State, t.proc = s.proc → t.file = s.file → t.panicked = s.panicked →
      Refs (Files.fileclosed t p next) := fun t => h.fileclosed hcode nofun rfl rfl hok
  unfold Files.filefinish
  split
  · unfold pipeclose
    simp only
    split_ifs
    · exact h.recode hcode hrunning rfl hrunning rfl rfl rfl (fun g => rfl) hok nofun
    · exact hclosed _ rfl rfl rfl
  · exact hclosed _ rfl rfl rfl
  · exact hclosed _ rfl rfl rfl

theorem Refs.kfree {next : Next} (hcode : (s.proc p).code = .kfree i next) :
    Refs (Files.fileclosed (freePipe s i) p next) :=
  h.fileclosed hcode nofun rfl rfl (h.ofile_ok hcode) rfl rfl rfl

/-! ### Calls -/

theorem Refs.fail (hready : s.Ready p) (value : ℤ) : Refs (s.ret p value) :=
  h.ret hready.2 hready.1 rfl rfl value

theorem Refs.sysOpen (hready : s.Ready p) (omode : BitVec 32) :
    Refs (Files.sysOpen s p omode) := by
  unfold Files.sysOpen
  split
  · exact h.fail hready _
  · next f hf =>
    exact h.filealloc hready.2 hready.1 (freeFile_eq_some hf) rfl (List.Perm.refl _) trivial rfl

theorem Refs.sysPipe (hready : s.Ready p) : Refs (Files.sysPipe s p) := by
  unfold Files.sysPipe
  split
  · exact h.fail hready _
  · next f hf =>
    exact h.filealloc hready.2 hready.1 (freeFile_eq_some hf) rfl (List.Perm.refl _) trivial rfl

theorem Refs.openFd {omode : BitVec 32} (hcode : (s.proc p).code = .openAlloc f omode) :
    Refs (Files.openFd s p f omode) := by
  have hrunning := h.running hcode nofun
  unfold Files.openFd
  split
  · exact h.goto hcode hrunning rfl rfl trivial nofun
  · next fd hfd =>
    refine h.put hcode hrunning rfl rfl ?_ (update_self ..) rfl
    intro g
    rw [freeFd_eq_some hfd]
    simp [points, Code.held, count_cons]

theorem Refs.openEnd {omode : BitVec 32}
    (hcode : (s.proc p).code = .openFile f fd omode) : Refs (Files.openEnd s p f fd omode) := by
  have hrunning := h.running hcode nofun
  refine h.recode hcode hrunning rfl hrunning rfl rfl rfl ?_ trivial nofun
  intro g
  simp only [Files.openEnd, State.ret, State.setProc, State.setFile, update_apply]
  split_ifs with hgf
  · rw [hgf]
    rfl
  · rfl

theorem Refs.sysDup (hready : s.Ready p) (fd : Fin nofile) :
    Refs (Files.sysDup s p fd) := by
  unfold Files.sysDup
  split
  · exact h.fail hready _
  · next f hf =>
    split
    · exact h.fail hready _
    · next fd' hfd' =>
      have hfree := freeFd_eq_some hfd'
      have hne : fd ≠ fd' := by
        rintro rfl
        rw [hfree] at hf
        contradiction
      refine h.reslot hready.2 hready.1 rfl hready.1 rfl rfl ?_ rfl
        ⟨update_self .., fd, hne, (update_of_ne hne ..).trans hf⟩ rfl
      -- The new descriptor does not stand for a reference yet.
      rw [slot_of_spent_eq_some rfl, slot_of_spent (by rw [hready.2]; rfl), update_idem,
        ← hfree, update_eq_self]

theorem Refs.dup (hcode : (s.proc p).code = .dup f fd) :
    Refs ((Files.filedup s f).ret p fd.val) := by
  have hrunning := h.running hcode nofun
  obtain ⟨hok, fd', hne, hfd'⟩ := h.ofile_ok hcode
  have hold : (s.proc p).slot = update (s.proc p).ofile fd none :=
    slot_of_spent_eq_some (by rw [hcode]; rfl)
  have hslot' : (s.proc p).slot fd' = some f := by
    rw [hold, update_of_ne hne, hfd']
  have hslot : Process.slot { s.proc p with code := .user, ret := fd.val } =
      update (s.proc p).slot fd (some f) := by
    rw [hold, update_idem, ← hok, update_eq_self]
    exact slot_of_spent rfl
  rw [State.ret, filedup_proc]
  refine h.filedup hrunning (charge_pos_of_slot hslot') hrunning ?_ trivial nofun
  intro g
  have hcharge := charge_of_slot_update (f := g) hcode rfl hslot
  rw [hold, update_self] at hcharge
  simpa only [Code.held, count_nil, add_zero, points, reduceCtorEq, if_false] using hcharge

theorem Refs.sysClose (hready : s.Ready p) (fd : Fin nofile) :
    Refs (Files.sysClose s p fd) := by
  unfold Files.sysClose
  split
  · exact h.fail hready _
  · next f hf =>
    refine h.put hready.2 hready.1 rfl rfl ?_ trivial rfl
    intro g
    rw [hf]
    simp [points, Code.held, Next.held, count_cons]

theorem Refs.pipeSecond {f0 : Fin nfile} (hcode : (s.proc p).code = .pipeAlloc f0) :
    Refs (Files.pipeSecond s p f0) := by
  have hrunning := h.running hcode nofun
  unfold Files.pipeSecond
  split
  · exact h.goto hcode hrunning rfl rfl trivial nofun
  · next f1 hf1 =>
    exact h.filealloc hcode hrunning (freeFile_eq_some hf1) rfl (List.Perm.swap ..) trivial rfl

theorem Refs.pipekalloc {f0 f1 : Fin nfile}
    (hcode : (s.proc p).code = .pipeKalloc f0 f1) (page : Bool) :
    Refs (Files.pipekalloc s p f0 f1 page) := by
  have hrunning := h.running hcode nofun
  unfold Files.pipekalloc
  split_ifs
  · refine h.recode hcode hrunning rfl hrunning rfl rfl rfl ?_ trivial nofun
    intro g
    refine congrArg (· + _) ?_
    simp only [State.goto, State.setProc, pipeinit, update_apply]
    split_ifs with h1 h0
    · rw [h1]
    · rw [h0]
    · rfl
  · exact h.goto hcode hrunning rfl rfl trivial nofun

/-- The first `fdalloc` of `sys_pipe`. -/
theorem Refs.pipeFd0 {rf wf : Fin nfile} (hcode : (s.proc p).code = .pipeFd0 rf wf) :
    Refs (Files.pipeFd0 s p rf wf) := by
  have hrunning := h.running hcode nofun
  unfold Files.pipeFd0
  split
  · exact h.goto hcode hrunning rfl rfl trivial nofun
  · next fd0 hfd0 =>
    refine h.put hcode hrunning rfl rfl ?_ (update_self ..) rfl
    intro g
    rw [freeFd_eq_some hfd0]
    simp only [points, some.injEq, Code.held, count_cons, count_nil, beq_iff_eq, reduceCtorEq, if_false]
    omega

/-- The second `fdalloc` of `sys_pipe`. -/
theorem Refs.pipeFd1 {rf wf : Fin nfile} {fd0 : Fin nofile}
    (hcode : (s.proc p).code = .pipeFd1 rf wf fd0) : Refs (Files.pipeFd1 s p rf wf fd0) := by
  have hrunning := h.running hcode nofun
  have hok : (s.proc p).ofile fd0 = some rf := h.ofile_ok hcode
  unfold Files.pipeFd1
  split
  · refine h.put hcode hrunning rfl rfl ?_ trivial rfl
    intro g
    rw [hok]
    simp only [points, some.injEq, Code.held, Next.held, count_cons, count_nil,
      beq_iff_eq, reduceCtorEq, if_false]
    omega
  · next fd1 hfd1 =>
    have hput : Refs (s.put p fd1 (some wf) .user) := by
      refine h.put hcode hrunning rfl rfl ?_ trivial rfl
      intro g
      rw [freeFd_eq_some hfd1]
      simp [points, Code.held, count_cons]
    have hready : (s.put p fd1 (some wf) .user).Ready p := by
      simp [State.Ready, State.put, State.setProc, hrunning]
    exact hput.fail hready 0

/-! ### `fork`, `exit` and `wait` -/

/-- A process that `fork` makes is not the one that calls `fork`. -/
theorem Refs.child_ne (hcode : (s.proc p).code = c) (hc : c ≠ .user)
    (hchild : c.child = some (np, i)) : np ≠ p := by
  rintro rfl
  have hembryo := (h.child np np i (by rw [hcode, hchild])).1
  rw [h.running hcode hc] at hembryo
  contradiction

/-- A step of `fork` that changes the process that it makes. -/
theorem Refs.pair (hcode : (s.proc p).code = c)
    (hrunning : (s.proc p).state = .running) (hne : np ≠ p) {cr : Process}
    (hproc : t.proc = update (update s.proc np cr) p pr)
    (hfile : t.file = s.file) (hpanicked : t.panicked = s.panicked)
    (hstate : pr.state = .running) (hofile : pr.ofile = (s.proc p).ofile)
    (hspent : pr.code.spent = c.spent) (hok : pr.code.Ok pr.ofile)
    (hcr : cr.state = .embryo ∨ cr.state = .running) (huser : cr.code = .user)
    (hcharge : ∀ f, pr.code.held.count f + charge f cr = c.held.count f + charge f (s.proc np))
    (hothers : ∀ q i, q ≠ p → (s.proc q).code.child ≠ some (np, i))
    (hmine : ∀ m i, pr.code.child = some (m, i) →
      m = np ∧ cr.state = .embryo ∧ ∀ fd : Fin nofile, i ≤ fd.val → cr.ofile fd = none) :
    Refs t := by
  have hself : t.proc p = pr := by rw [hproc, update_self]
  have hnp : t.proc np = cr := by
    rw [hproc, update_of_ne hne, update_self]
  have hrest : ∀ q, q ≠ p → q ≠ np → t.proc q = s.proc q := fun q hq hqn => by
    rw [hproc, update_of_ne hq, update_of_ne hqn]
  have hlocal : ∀ q, (t.proc q).Local := by
    intro q
    by_cases hqp : q = p
    · rw [hqp, hself]
      exact Process.local_of_running hstate hok
    by_cases hqn : q = np
    · rw [hqn, hnp]
      refine ⟨fun _ => huser, fun hor => ?_, huser ▸ trivial⟩
      obtain hcr | hcr := hcr <;> simp [hcr] at hor
    · rw [hrest q hqp hqn]
      exact h.local q
  -- Only `p` makes the process, and the others make what they made before.
  have hmakes : ∀ q m i, (t.proc q).code.child = some (m, i) →
      (q = p ∧ pr.code.child = some (m, i)) ∨
        (m ≠ np ∧ (s.proc q).code.child = some (m, i)) := by
    intro q m i hq
    by_cases hqp : q = p
    · rw [hqp, hself] at hq
      exact .inl ⟨hqp, hq⟩
    by_cases hqn : q = np
    · rw [hqn, hnp, huser] at hq
      contradiction
    · rw [hrest q hqp hqn] at hq
      refine .inr ⟨?_, hq⟩
      rintro rfl
      exact hothers q i hqp hq
  refine ⟨hpanicked.trans h.panicked, ?_, fun q => (hlocal q).calm, fun q => (hlocal q).empty,
    fun q => (hlocal q).ok, ?_, ?_⟩
  · intro f
    have h1 := tally_update (charge f) s.proc np cr
    have h2 := tally_update (charge f) (update s.proc np cr) p pr
    rw [update_of_ne hne.symm] at h2
    have hpr := charge_of_code (f := f) hcode rfl hofile hspent
    have := hcharge f
    rw [hproc, hfile, h.refs f]
    omega
  · intro q m i hq
    obtain ⟨-, hq⟩ | ⟨hmn, hq⟩ := hmakes q m i hq
    · obtain ⟨rfl, hm⟩ := hmine m i hq
      rwa [hnp]
    · obtain ⟨hm, hempty⟩ := h.child q m i hq
      have hmp : m ≠ p := by
        rintro rfl
        rw [hrunning] at hm
        contradiction
      rw [hrest m hmp hmn]
      exact ⟨hm, hempty⟩
  · intro q r m i j hq hr
    obtain ⟨rfl, hq⟩ | ⟨hm, hq⟩ := hmakes q m i hq <;> obtain ⟨rfl, hr⟩ | ⟨hm', hr⟩ := hmakes r m j hr
    · rfl
    · exact absurd (hmine m i hq).1 hm'
    · exact absurd (hmine m j hr).1 hm
    · exact h.only q r m i j hq hr

end

/-- `fork` changes the new process, and the one that calls it goes on. -/
theorem proc_setProc_setProc (hne : np ≠ p) (cr : Process) (next : Process → Process) :
    ((s.setProc np cr).setProc p (next ((s.setProc np cr).proc p))).proc =
      update (update s.proc np cr) p (next (s.proc p)) := by
  have hp : (s.setProc np cr).proc p = s.proc p := update_of_ne hne.symm ..
  rw [hp]
  rfl

theorem Refs.forkStart (h : Refs s) (hready : s.Ready p)
    (hunused : (s.proc np).state = .unused) : Refs (Files.forkStart s p np) := by
  have hne : np ≠ p := by
    rintro rfl
    rw [hready.1] at hunused
    contradiction
  refine h.pair hready.2 hready.1 hne (proc_setProc_setProc hne _ fun pr => { pr with code := .fork np 0 })
    rfl rfl hready.1 rfl rfl trivial (.inl rfl) (h.calm np (by rw [hunused]; nofun)) (fun f => rfl)
    ?_ ?_
  · intro q i _ hq
    have := (h.child q np i hq).1
    rw [hunused] at this
    contradiction
  · rintro m i ⟨⟩
    exact ⟨rfl, rfl, fun fd _ => h.empty np (.inl hunused) fd⟩

theorem Refs.forkTurn (h : Refs s)
    (hcode : (s.proc p).code = .fork np i) : Refs (Files.forkTurn s p np i) := by
  have hrunning := h.running hcode nofun
  have hchild : (s.proc p).code.child = some (np, i) := by rw [hcode]; rfl
  unfold Files.forkTurn
  split
  · next hi =>
    split
    · refine h.goto hcode hrunning rfl rfl trivial ?_
      rintro m j ⟨⟩
      exact ⟨i, Nat.le_succ i, rfl⟩
    · next f hf =>
      have hfd : (s.proc p).slot ⟨i, hi⟩ = some f := by rw [slot_of_spent (by rw [hcode]; rfl), hf]
      rw [State.goto, filedup_proc]
      refine h.filedup hrunning (charge_pos_of_slot hfd) hrunning ?_ trivial ?_
      · intro g
        have hcharge : charge g { s.proc p with code := .forkDup np ⟨i, hi⟩ f } +
            (Code.fork np i).held.count g = _ := charge_of_code (f := g) hcode rfl rfl rfl
        simpa [Code.held, count_cons, points] using hcharge
      · rintro m j ⟨⟩
        exact ⟨i, le_rfl, hchild⟩
  · have hne := h.child_ne hcode nofun rfl
    refine h.pair hcode hrunning hne
      (proc_setProc_setProc hne _ fun pr => { pr with code := .user, ret := np.val }) rfl rfl hrunning
      rfl rfl trivial (.inr rfl) (h.calm np (by rw [(h.child p np i hchild).1]; nofun))
      (fun f => rfl) ?_ nofun
    intro q j hqp hq
    exact hqp (h.only q p np j i hq hchild)

/-- `fork` stores the reference in the new process. -/
theorem Refs.forkPut (h : Refs s) {i : Fin nofile}
    (hcode : (s.proc p).code = .forkDup np i f) : Refs (Files.forkPut s p np i f) := by
  have hne := h.child_ne hcode nofun rfl
  have hchild : (s.proc p).code.child = some (np, i.val) := by rw [hcode]; rfl
  obtain ⟨hembryo, hempty⟩ := h.child p np i hchild
  have huser : (s.proc np).code = .user := h.calm np (by rw [hembryo]; nofun)
  have hspent : (s.proc np).code.spent = none := by rw [huser]; rfl
  refine h.pair hcode (h.running hcode nofun) hne
    (proc_setProc_setProc hne _ fun pr => { pr with code := .fork np (i + 1) }) rfl rfl
    (h.running hcode nofun) rfl rfl trivial (.inl hembryo) huser ?_ ?_ ?_
  · intro g
    have hslot : Process.slot
        { s.proc np with ofile := update (s.proc np).ofile i (some f) } =
          update (s.proc np).slot i (some f) := by
      rw [slot_of_spent hspent]
      exact slot_of_spent hspent
    have hput := charge_of_slot_update (f := g) rfl rfl hslot
    rw [slot_of_spent hspent, hempty i le_rfl] at hput
    simp only [Code.held, count_cons, count_nil, beq_iff_eq, points, reduceCtorEq,
      if_false, some.injEq] at hput ⊢
    omega
  · intro q j hqp hq
    exact hqp (h.only q p np j i hq hchild)
  · rintro m j ⟨⟩
    refine ⟨rfl, hembryo, fun fd hfd => ?_⟩
    have hfdi : fd ≠ i := by
      rintro rfl
      omega
    exact (update_of_ne hfdi ..).trans (hempty fd (by omega))

theorem Refs.exitTurn (h : Refs s) {fd : ℕ} (hcode : (s.proc p).code = .exit fd) :
    Refs (Files.exitTurn s p fd) := by
  have hrunning := h.running hcode nofun
  have hok : (Code.exit fd).Ok (s.proc p).ofile := h.ofile_ok hcode
  unfold Files.exitTurn
  split
  · next hfd =>
    split
    · next hnone =>
      refine h.goto hcode hrunning rfl rfl ?_ nofun
      intro j hj
      obtain hj | hj : j.val < fd ∨ j = ⟨fd, hfd⟩ := by
        rw [Fin.ext_iff]
        simp only
        omega
      · exact hok j hj
      · rw [hj, hnone]
    · next f hf => exact h.goto hcode hrunning rfl rfl ⟨hf, fun j hj => hok j hj⟩ nofun
  · refine h.replace (by rw [hrunning]; nofun) rfl rfl ?_
      ⟨fun _ => rfl, fun _ j => hok j (by omega), trivial⟩ nofun
    intro g
    have hcharge : charge g { s.proc p with state := .zombie, code := .user } +
        (Code.exit fd).held.count g = _ := charge_of_code (f := g) hcode rfl rfl rfl
    simp only [Code.held, count_nil] at hcharge
    simp only [State.setProc]
    omega

theorem Refs.exitClear (h : Refs s) (hcode : (s.proc p).code = .exitClear fd) :
    Refs (s.put p fd none (.exit (fd + 1))) := by
  have hrunning := h.running hcode nofun
  have hok : (Code.exitClear fd).Ok (s.proc p).ofile := h.ofile_ok hcode
  refine h.reslot hcode hrunning rfl hrunning rfl rfl ?_ rfl ?_ rfl
  · rw [slot_of_spent rfl, slot_of_spent_eq_some (by rw [hcode]; rfl)]
  · intro j hj
    simp only [update_apply]
    split_ifs with hjfd
    · rfl
    · exact hok j (by rw [Fin.lt_def]; rw [Fin.ext_iff] at hjfd; omega)

theorem Refs.wait (h : Refs s) (hzombie : (s.proc p).state = .zombie) :
    Refs (s.setProc p { s.proc p with state := .unused }) := by
  have hne : (s.proc p).state ≠ .running := by rw [hzombie]; nofun
  refine h.replace (by rw [hzombie]; nofun) rfl rfl (fun g => rfl)
    ⟨fun _ => h.calm p hne, fun _ => h.empty p (.inr hzombie), h.ok p⟩ ?_
  intro np i hchild
  exact ⟨i, le_rfl, hchild⟩

/-- The next step of a process in a call. -/
theorem Refs.run (h : Refs s) (hrun : Files.run s p = some t) : Refs t := by
  unfold Files.run at hrun
  split at hrun
  case h_1 => contradiction
  case h_2 f omode hcode => exact some.inj hrun ▸ h.openFd hcode
  case h_3 f fd omode hcode => exact some.inj hrun ▸ h.openEnd hcode
  case h_4 f fd hcode => exact some.inj hrun ▸ h.dup hcode
  case h_5 np i hcode => exact some.inj hrun ▸ h.forkTurn hcode
  case h_6 np i f hcode => exact some.inj hrun ▸ h.forkPut hcode
  case h_7 f0 hcode => exact some.inj hrun ▸ h.pipeSecond hcode
  case h_8 => contradiction
  case h_9 rf wf hcode => exact some.inj hrun ▸ h.pipeFd0 hcode
  case h_10 rf wf fd0 hcode => exact some.inj hrun ▸ h.pipeFd1 hcode
  case h_11 f next hcode => exact some.inj hrun ▸ h.fileclose hcode
  case h_12 ff next hcode => exact some.inj hrun ▸ h.filefinish hcode
  case h_13 i next hcode => exact some.inj hrun ▸ h.kfree hcode
  case h_14 fd hcode => exact some.inj hrun ▸ h.exitTurn hcode
  case h_15 fd hcode => exact some.inj hrun ▸ h.exitClear hcode

/-- Every step keeps the account of the references. -/
theorem Refs.step (h : Refs s) {e : Event} (hstep : Files.step s e = some t) : Refs t := by
  cases e with
  | «open» p omode =>
    obtain ⟨hready, ⟨⟩⟩ := ite_none_right_eq_some.mp hstep
    exact h.sysOpen hready omode
  | dup p fd =>
    obtain ⟨hready, ⟨⟩⟩ := ite_none_right_eq_some.mp hstep
    exact h.sysDup hready fd
  | close p fd =>
    obtain ⟨hready, ⟨⟩⟩ := ite_none_right_eq_some.mp hstep
    exact h.sysClose hready fd
  | pipe p =>
    obtain ⟨hready, ⟨⟩⟩ := ite_none_right_eq_some.mp hstep
    exact h.sysPipe hready
  | fork p np =>
    obtain ⟨⟨hready, hunused⟩, ⟨⟩⟩ := ite_none_right_eq_some.mp hstep
    exact h.forkStart hready hunused
  | exit p =>
    obtain ⟨⟨hready, -⟩, ⟨⟩⟩ := ite_none_right_eq_some.mp hstep
    refine h.goto hready.2 hready.1 rfl rfl ?_ nofun
    intro j hj
    omega
  | wait p =>
    obtain ⟨hzombie, ⟨⟩⟩ := ite_none_right_eq_some.mp hstep
    exact h.wait hzombie
  | kalloc p page =>
    simp only [Files.step] at hstep
    split at hstep
    · next f0 f1 hcode => exact some.inj hstep ▸ h.pipekalloc hcode page
    · contradiction
  | run p => exact h.run hstep

/-- There are no references when the first process starts. -/
theorem refs_boot : Refs boot := by
  have hcharge : ∀ f p, charge f (boot.proc p) = 0 := by
    intro f p
    unfold charge
    rw [slot_of_spent rfl, Nat.add_eq_zero_iff]
    exact ⟨tally_eq_zero_iff.mpr fun fd => rfl, rfl⟩
  refine ⟨rfl, ?_, fun _ _ => rfl, fun _ _ _ => rfl, fun _ => trivial, nofun, nofun⟩
  intro f
  exact (tally_eq_zero_iff.mpr (hcharge f)).symm

end Xv6Draw.Files
