import Xv6Draw.Lib.Transition
import Xv6Draw.Proc.Table

/-!
# Births and deaths of processes

Every process other than the first has a parent that is alive: `exit` passes the
children of a process to the first one before the process becomes a zombie. A parent
sleeps in `wait` only while none of its children is a zombie, because `exit` wakes the
parent in the section in which the child becomes one. A zombie keeps its slot and its
number until its parent has waited for it, so no process is waited for twice.

Most steps only move processes between the states in which they are alive. What such a
step keeps is said once, in `Quiet`.
-/

namespace Xv6Draw.Ptable

open List Option Transition

variable {t u : Table} {p q np : Fin nproc}

/-- The states of a process that has been started and has not exited. -/
def State.active : State → Bool
  | .sleeping | .runnable | .running => true
  | .unused | .embryo | .zombie => false

/-- The process has been started, and nobody has waited for it. -/
def Live (t : Table) (p : Fin nproc) : Prop :=
  (t.proc p).state ≠ .unused ∧ (t.proc p).state ≠ .embryo

/-- What holds of the table whenever its lock is free. -/
structure Inv (t : Table) : Prop where
  nextpid : 1 ≤ t.nextpid.toNat ∧ t.nextpid.toNat < 2 ^ 31
  /-- The numbers in use have been given out. -/
  range : ∀ p, (t.proc p).state ≠ .unused →
    0 < (t.proc p).pid.toNat ∧ (t.proc p).pid.toNat < t.nextpid.toNat
  pids : ∀ p q, (t.proc p).state ≠ .unused → (t.proc q).state ≠ .unused →
    (t.proc p).pid = (t.proc q).pid → p = q
  /-- A process that has not been started has no parent. -/
  orphan : ∀ p, ¬ Live t p → (t.proc p).parent = none
  /-- A process that has been started has a parent, apart from the first one. -/
  born : ∀ p, Live t p → p ≠ t.initproc → (t.proc p).parent ≠ none
  parent : ∀ p q, (t.proc p).parent = some q → (t.proc q).state.active = true
  apart : ∀ p, (t.proc p).parent ≠ some p
  init : (t.proc t.initproc).state.active = true
  root : (t.proc t.initproc).parent = none
  /-- Processes in system calls are alive. -/
  call : ∀ p, (t.proc p).call ≠ .none → (t.proc p).state.active = true
  /-- `fork` works on a slot that is not in use otherwise. -/
  fork : ∀ p np, (t.proc p).call = .fork np → (t.proc np).state = .embryo
  /-- No two calls of `fork` work on one slot. -/
  forks : ∀ p q np, (t.proc p).call = .fork np → (t.proc q).call = .fork np → p = q
  /-- A process in `wait` sleeps there or has been woken. -/
  wait : ∀ p, (t.proc p).call = .wait →
    ((t.proc p).state = .sleeping ∧ (t.proc p).chan = some (.proc p)) ∨ (t.proc p).state = .runnable
  /-- No process sleeps in `wait` with a child that has exited. -/
  awake : ∀ p c, (t.proc p).call = .wait → (t.proc p).state = .sleeping →
    (t.proc c).parent = some p → (t.proc c).state ≠ .zombie
  /-- No process has been waited for twice. -/
  once : (t.waited.map Prod.snd).Nodup
  /-- Processes that have been waited for are gone. -/
  gone : ∀ x ∈ t.waited.map Prod.snd, x ∈ t.exited ∧ ∀ p, (t.proc p).state ≠ .unused → (t.proc p).pid ≠ x
  /-- Processes that have exited have been waited for or are zombies. -/
  exited : ∀ x ∈ t.exited, x.toNat < t.nextpid.toNat ∧
    (x ∈ t.waited.map Prod.snd ∨ ∃ p, (t.proc p).state = .zombie ∧ (t.proc p).pid = x)
  zombie : ∀ p, (t.proc p).state = .zombie → (t.proc p).pid ∈ t.exited

/-- Nothing has happened to a table but that processes which are alive have changed their
state, or have come back from a system call. -/
structure Quiet (t u : Table) : Prop where
  nextpid : u.nextpid = t.nextpid
  initproc : u.initproc = t.initproc
  exited : u.exited = t.exited
  waited : u.waited = t.waited
  pid : ∀ p, (u.proc p).pid = (t.proc p).pid
  parent : ∀ p, (u.proc p).parent = (t.proc p).parent
  state : ∀ p, (u.proc p).state = (t.proc p).state ∨
    ((t.proc p).state.active = true ∧ (u.proc p).state.active = true)
  call : ∀ p, (u.proc p).call = .none ∨ (u.proc p).call = (t.proc p).call
  wait : ∀ p, (u.proc p).call = .wait → (u.proc p).state = .runnable ∨
    ((u.proc p).state = (t.proc p).state ∧ (u.proc p).chan = (t.proc p).chan)

/-- A quiet step keeps what holds of the table. -/
theorem Inv.quiet (h : Inv t) (hu : Quiet t u) : Inv u := by
  have hunused : ∀ p, (u.proc p).state = .unused ↔ (t.proc p).state = .unused := by
    intro p
    have := hu.state p
    grind [State.active]
  have hembryo : ∀ p, (u.proc p).state = .embryo ↔ (t.proc p).state = .embryo := by
    intro p
    have := hu.state p
    grind [State.active]
  have hzombie : ∀ p, (u.proc p).state = .zombie ↔ (t.proc p).state = .zombie := by
    intro p
    have := hu.state p
    grind [State.active]
  have hactive : ∀ p, (u.proc p).state.active = (t.proc p).state.active := by
    intro p
    have := hu.state p
    grind
  have hlive : ∀ p, Live u p ↔ Live t p := by
    intro p
    simp only [Live, ne_eq, hunused, hembryo]
  have hcall : ∀ p, (u.proc p).call ≠ .none → (t.proc p).call = (u.proc p).call := by
    intro p
    have := hu.call p
    grind
  refine ⟨?_, ?_, ?_, ?_, ?_, ?_, ?_, ?_, ?_, ?_, ?_, ?_, ?_, ?_, ?_, ?_, ?_, ?_⟩
  · rw [hu.nextpid]
    exact h.nextpid
  · intro p
    simp only [ne_eq, hunused, hu.pid, hu.nextpid]
    exact h.range p
  · intro p q
    simp only [ne_eq, hunused, hu.pid]
    exact h.pids p q
  · intro p
    rw [hlive, hu.parent]
    exact h.orphan p
  · intro p
    rw [hlive, hu.initproc, hu.parent]
    exact h.born p
  · intro p q
    rw [hu.parent, hactive]
    exact h.parent p q
  · intro p
    rw [hu.parent]
    exact h.apart p
  · rw [hu.initproc, hactive]
    exact h.init
  · rw [hu.initproc, hu.parent]
    exact h.root
  · intro p hp
    rw [hactive]
    apply h.call
    rwa [hcall p hp]
  · intro p np hp
    rw [hembryo]
    apply h.fork p
    rw [hcall p (by rw [hp]; nofun), hp]
  · intro p q np hp hq
    apply h.forks p q np
    · rw [hcall p (by rw [hp]; nofun), hp]
    · rw [hcall q (by rw [hq]; nofun), hq]
  · intro p hp
    obtain hrun | ⟨hstate, hchan⟩ := hu.wait p hp
    · exact .inr hrun
    · rw [hstate, hchan]
      apply h.wait
      rw [hcall p (by rw [hp]; nofun), hp]
  · intro p c hp hsleep
    rw [hu.parent, ne_eq, hzombie]
    obtain hrun | ⟨hstate, -⟩ := hu.wait p hp
    · rw [hrun] at hsleep
      contradiction
    · apply h.awake p c
      · rw [hcall p (by rw [hp]; nofun), hp]
      · rw [← hstate, hsleep]
  · rw [hu.waited]
    exact h.once
  · simp only [hu.waited, hu.exited, ne_eq, hunused, hu.pid]
    exact h.gone
  · simp only [hu.waited, hu.exited, hu.nextpid, hzombie, hu.pid]
    exact h.exited
  · simp only [hzombie, hu.pid, hu.exited]
    exact h.zombie

/-! ### Quiet steps -/

/-- What holds of a new slot and of all others holds of all. -/
theorem forall_set {x : Proc} {R : Fin nproc → Proc → Prop} (hp : R p x)
    (hother : ∀ q, q ≠ p → R q (t.proc q)) (q : Fin nproc) : R q ((t.set p x).proc q) := by
  rw [Table.set_proc]
  split_ifs with hq
  · rwa [hq]
  · exact hother q hq

/-- A process that is alive changes its state. -/
theorem quiet_set {x : Proc} (hpid : x.pid = (t.proc p).pid) (hparent : x.parent = (t.proc p).parent)
    (hstate : x.state = (t.proc p).state ∨ ((t.proc p).state.active = true ∧ x.state.active = true))
    (hcall : x.call = .none ∨ x.call = (t.proc p).call) (hwait : x.call = .wait → x.state = .runnable ∨
      (x.state = (t.proc p).state ∧ x.chan = (t.proc p).chan)) : Quiet t (t.set p x) where
  nextpid := rfl
  initproc := rfl
  exited := rfl
  waited := rfl
  pid := forall_set (R := fun q y => y.pid = (t.proc q).pid) hpid fun _ _ => rfl
  parent := forall_set (R := fun q y => y.parent = (t.proc q).parent) hparent fun _ _ => rfl
  state := forall_set (R := fun q y => y.state = (t.proc q).state ∨
    ((t.proc q).state.active = true ∧ y.state.active = true)) hstate fun _ _ => .inl rfl
  call := forall_set (R := fun q y => y.call = .none ∨ y.call = (t.proc q).call) hcall
    fun _ _ => .inr rfl
  wait := forall_set (R := fun q y => y.call = .wait → y.state = .runnable ∨
    (y.state = (t.proc q).state ∧ y.chan = (t.proc q).chan)) hwait fun _ _ _ => .inr ⟨rfl, rfl⟩

theorem quiet_wakeup1 (chan : Option Chan) : Quiet t { t with proc := wakeup1 t.proc chan } := by
  refine ⟨rfl, rfl, rfl, rfl, ?_, ?_, ?_, ?_, ?_⟩
  all_goals simp only [wakeup1_eq]
  · simp
  · simp
  · grind [State.active]
  · simp
  · grind

theorem Inv.quiet_kill (h : Inv t) (pid : BitVec 32) : Quiet t (kill t pid).2 := by
  unfold kill
  cases pidSlot t.proc pid with
  | none =>
    exact ⟨rfl, rfl, rfl, rfl, fun _ => rfl, fun _ => rfl, fun _ => .inl rfl, fun _ => .inr rfl,
      fun _ _ => .inr ⟨rfl, rfl⟩⟩
  | some p =>
    refine quiet_set rfl rfl ?_ (.inr rfl) ?_
    · by_cases hsleep : (t.proc p).state = .sleeping
      · simp [hsleep, State.active]
      · simp [hsleep]
    · intro hcall
      obtain ⟨hsleep, -⟩ | hrun := h.wait p hcall
      · simp [hsleep]
      · simp [hrun]

/-! ### `fork` -/

/-- `allocproc` gives out a slot and a number. -/
theorem Inv.allocproc (h : Inv t) (hslot : (t.proc np).state = .unused)
    (hwrap : t.nextpid.toNat + 1 < 2 ^ 31) {x : Proc} (hx : x.state = .embryo)
    (hpid : x.pid = t.nextpid) (hparent : x.parent = (t.proc np).parent) (hcall : x.call = (t.proc np).call) :
    Inv { t.set np x with nextpid := t.nextpid + 1 } := by
  have hnext : (t.nextpid + 1).toNat = t.nextpid.toNat + 1 := by
    rw [BitVec.toNat_add]
    exact Nat.mod_eq_of_lt (by simpa using by omega)
  have hrange := h.range
  have hpids := h.pids
  refine ⟨?_, ?_, ?_, ?_, ?_, ?_, ?_, ?_, ?_, ?_, ?_, ?_, ?_, ?_, ?_, ?_, ?_, ?_⟩
  · simp only [hnext]
    omega
  all_goals simp only [Live, Table.set_proc, Table.set_initproc, Table.set_exited,
    Table.set_waited]
  · have := h.nextpid
    grind
  · grind
  · have := h.orphan
    grind [Live]
  · have := h.born
    grind [Live]
  · have := h.parent
    grind [State.active]
  · have := h.apart
    grind
  · have := h.init
    grind [State.active]
  · have := h.root
    have := h.init
    grind [State.active]
  · have := h.call
    grind [State.active]
  · have := h.fork
    grind
  · have := h.forks
    grind
  · have := h.wait
    grind
  · have := h.awake
    grind
  · exact h.once
  · have := h.gone
    have := h.exited
    grind
  · have := h.exited
    grind
  · have := h.zombie
    grind

/-- A process goes into `fork` with a slot that no other call works on, or sleeps in `wait` without
a child that has exited. -/
theorem Inv.setCall (h : Inv t) {x : Proc} (hpid : x.pid = (t.proc p).pid)
    (hparent : x.parent = (t.proc p).parent) (hold : (t.proc p).state.active = true)
    (hactive : x.state.active = true)
    (hfork : ∀ np, x.call = .fork np → (t.proc np).state = .embryo ∧ ∀ q, (t.proc q).call ≠ .fork np)
    (hwait : x.call = .wait → x.state = .sleeping ∧ x.chan = some (.proc p) ∧
      ∀ c, (t.proc c).parent = some p → (t.proc c).state ≠ .zombie) : Inv (t.set p x) := by
  refine ⟨h.nextpid, ?_, ?_, ?_, ?_, ?_, ?_, ?_, ?_, ?_, ?_, ?_, ?_, ?_, h.once, ?_, ?_, ?_⟩
  all_goals simp only [Live, Table.set_proc, Table.set_nextpid, Table.set_initproc, Table.set_exited,
    Table.set_waited]
  · have := h.range
    grind [State.active]
  · have := h.pids
    grind [State.active]
  · have := h.orphan
    grind [Live, State.active]
  · have := h.born
    grind [Live, State.active]
  · have := h.parent
    grind
  · have := h.apart
    grind
  · have := h.init
    grind
  · have := h.root
    grind
  · have := h.call
    grind
  · have := h.fork
    grind [State.active]
  · have := h.forks
    grind
  · have := h.wait
    grind
  · have := h.awake
    grind [State.active]
  · have := h.gone
    grind [State.active]
  · have := h.exited
    grind [State.active]
  · have := h.zombie
    grind [State.active]

/-- `fork` up to the end of `allocproc`. -/
theorem Inv.fork_step (h : Inv t) (hp : Runs t p) (hwrap : t.nextpid.toNat + 1 < 2 ^ 31) :
    Inv (Ptable.fork t p) := by
  unfold Ptable.fork Ptable.allocproc
  cases hslot : unusedSlot t.proc with
  | none => exact h
  | some np =>
    have hunused := unusedSlot_eq_some hslot
    have hne : p ≠ np := by
      rintro rfl
      rw [hp.1] at hunused
      contradiction
    have hinv := h.allocproc hunused hwrap (x := { t.proc np with state := .embryo, pid := t.nextpid })
      rfl rfl rfl rfl
    refine hinv.setCall rfl rfl ?_ ?_ ?_ nofun
    · simp [Table.set_proc, hne, hp.1, State.active]
    · simp [Table.set_proc, hne, hp.1, State.active]
    · rintro _ ⟨⟩
      refine ⟨by simp [Table.set_proc], fun q => ?_⟩
      have hfork := h.fork q np
      simp only [Table.set_proc]
      grind [State.active]

/-- The end of `fork`. -/
theorem Inv.forkEnd_step (h : Inv t) (hp : (t.proc p).state = .running)
    (hcall : (t.proc p).call = .fork np) : Inv (forkEnd t p np) := by
  have hnp := h.fork p np hcall
  unfold forkEnd
  refine ⟨h.nextpid, ?_, ?_, ?_, ?_, ?_, ?_, ?_, ?_, ?_, ?_, ?_, ?_, ?_, h.once, ?_, ?_, ?_⟩
  all_goals simp only [Live, Table.set_proc, Table.set_nextpid, Table.set_initproc, Table.set_exited,
    Table.set_waited]
  · have := h.range
    grind
  · have := h.pids
    grind
  · have := h.orphan
    grind [Live]
  · have := h.born
    grind [Live]
  · have := h.parent
    grind [State.active]
  · have := h.apart
    grind
  · have := h.init
    grind [State.active]
  · have := h.root
    have := h.init
    grind [State.active]
  · have := h.call
    grind [State.active]
  · have := h.fork
    have := h.forks
    grind
  · have := h.forks
    grind
  · have := h.wait
    grind
  · have := h.awake
    have := h.wait
    grind
  · have := h.gone
    grind
  · have := h.exited
    grind
  · have := h.zombie
    grind

/-! ### `exit` -/

/-- The slots after `exit`. -/
theorem exit_proc (hp : p ≠ t.initproc) (q : Fin nproc) :
    (exit t p).proc q = { t.proc q with
      parent := if (t.proc q).parent = some p then some t.initproc else (t.proc q).parent
      state := if q = p then .zombie
        else if (t.proc q).state = .sleeping ∧ ((t.proc q).chan = (t.proc p).parent.map .proc ∨
          ((t.proc q).chan = some (.proc t.initproc) ∧
            ∃ c, (t.proc c).parent = some p ∧ (t.proc c).state = .zombie)) then .runnable
        else (t.proc q).state } := by
  have hzombie : ∀ c, (wakeup1 t.proc ((t.proc p).parent.map .proc) c).state = .zombie ↔
      (t.proc c).state = .zombie := by
    intro c
    rw [wakeup1_eq]
    grind
  have hparent : ∀ c, (wakeup1 t.proc ((t.proc p).parent.map .proc) c).parent = (t.proc c).parent := by
    intro c
    rw [wakeup1_eq]
  simp only [exit, Function.update_apply, abandon_eq hp.symm, hzombie, hparent]
  simp only [wakeup1_eq]
  grind

theorem Inv.exit_step (h : Inv t) (hp : Runs t p) (hinit : p ≠ t.initproc) : Inv (exit t p) := by
  obtain ⟨hrun, hcall⟩ := hp
  have hexited : (exit t p).exited = t.exited ++ [(t.proc p).pid] := rfl
  have hwaited : (exit t p).waited = t.waited := rfl
  have hnextpid : (exit t p).nextpid = t.nextpid := rfl
  have hinitproc : (exit t p).initproc = t.initproc := rfl
  refine ⟨h.nextpid, ?_, ?_, ?_, ?_, ?_, ?_, ?_, ?_, ?_, ?_, ?_, ?_, ?_, h.once, ?_, ?_, ?_⟩
  all_goals simp only [Live, exit_proc hinit, hexited, hwaited, hnextpid, hinitproc]
  · have := h.range
    grind
  · have := h.pids
    grind
  · have := h.orphan
    grind [Live]
  · have := h.born
    grind [Live]
  · have := h.parent
    have := h.init
    grind [State.active]
  · have := h.apart
    have := h.root
    grind
  · have := h.init
    grind [State.active]
  · have := h.root
    have := h.init
    grind [State.active]
  · have := h.call
    grind [State.active]
  · have := h.fork
    grind
  · have := h.forks
    grind
  · have := h.wait
    grind
  · intro w c hwait hsleep hparent hzombie
    have hwp : w ≠ p := by
      rintro rfl
      rw [hcall] at hwait
      contradiction
    obtain ⟨hasleep, hchan⟩ : (t.proc w).state = .sleeping ∧ (t.proc w).chan = some (.proc w) := by
      have := h.wait w hwait
      grind
    rw [if_neg hwp] at hsleep
    by_cases hcp : c = p
    · -- the process that exits has woken its parent
      subst c
      rw [if_neg (h.apart p)] at hparent
      simp [hasleep, hchan, hparent] at hsleep
    · have hold : (t.proc c).state = .zombie := by grind
      by_cases hchild : (t.proc c).parent = some p
      · -- the first process has been woken for a child that it gets
        rw [if_pos hchild, some.injEq] at hparent
        subst w
        have hsome : ∃ c, (t.proc c).parent = some p ∧ (t.proc c).state = .zombie := ⟨c, hchild, hold⟩
        simp [hasleep, hchan, hsome] at hsleep
      · rw [if_neg hchild] at hparent
        exact h.awake w c hwait hasleep hparent hold
  · have := h.gone
    grind
  · have := h.exited
    have := h.range
    grind
  · have := h.zombie
    grind

/-! ### `wait` -/

/-- `wait` returns a child. -/
theorem Inv.reap (h : Inv t) (hrun : (t.proc p).state = .running) {c : Fin nproc}
    (hparent : (t.proc c).parent = some p) (hzombie : (t.proc c).state = .zombie) :
    Inv { (t.set c { t.proc c with pid := 0, parent := none, killed := false, state := .unused }).set p
        { t.proc p with call := .none } with
      waited := t.waited ++ [(p, (t.proc c).pid)] } := by
  have hused : (t.proc c).state ≠ .unused := by
    rw [hzombie]
    nofun
  have hchildless : ∀ q, (t.proc q).parent ≠ some c := by
    intro q hq
    have := h.parent q c hq
    rw [hzombie] at this
    contradiction
  have hidle : (t.proc c).call = .none := by
    have := h.call c
    rw [hzombie] at this
    by_contra hne
    exact absurd (this hne) (by decide)
  refine ⟨h.nextpid, ?_, ?_, ?_, ?_, ?_, ?_, ?_, ?_, ?_, ?_, ?_, ?_, ?_, ?_, ?_, ?_, ?_⟩
  all_goals simp only [Live, Table.set_proc, Table.set_nextpid, Table.set_initproc, Table.set_exited]
  · have := h.range
    grind
  · have := h.pids
    grind
  · have := h.orphan
    grind [Live]
  · have := h.born
    grind [Live]
  · have := h.parent
    grind
  · have := h.apart
    grind
  · have := h.init
    grind [State.active]
  · have := h.root
    grind
  · have := h.call
    grind
  · have := h.fork
    grind
  · have := h.forks
    grind
  · have := h.wait
    grind
  · have := h.awake
    grind
  · rw [map_append, nodup_append']
    refine ⟨h.once, by simp, ?_⟩
    simp only [map_cons, map_nil, disjoint_singleton]
    intro hmem
    exact (h.gone _ hmem).2 c hused rfl
  · intro x hx
    rw [map_append, mem_append] at hx
    obtain hx | hx := hx
    · have := h.gone x hx
      grind
    · simp only [map_cons, map_nil, mem_singleton] at hx
      subst hx
      have := h.pids
      have := h.zombie c hzombie
      grind
  · intro x hx
    obtain ⟨hlt, hdone | ⟨q, hq, hpid⟩⟩ := h.exited x hx
    · exact ⟨hlt, Or.inl (by simpa using Or.inl hdone)⟩
    · refine ⟨hlt, ?_⟩
      by_cases hqc : q = c
      · subst q
        exact .inl (by simp [hpid])
      · refine .inr ⟨q, ?_⟩
        grind
  · have := h.zombie
    grind

theorem Inv.wait_step (h : Inv t) (hrun : (t.proc p).state = .running) : Inv (Ptable.wait t p) := by
  unfold Ptable.wait
  cases hchild : exitedChild t.proc p with
  | some c =>
    obtain ⟨hparent, hzombie⟩ := exitedChild_eq_some hchild
    exact h.reap hrun hparent hzombie
  | none =>
    simp only
    split_ifs with hback
    · exact h.quiet (quiet_set rfl rfl (.inl rfl) (.inl rfl) nofun)
    · -- no child has exited, so the process may sleep
      exact h.setCall rfl rfl (by rw [hrun]; rfl) rfl nofun
        fun _ => ⟨rfl, rfl, fun c => exitedChild_eq_none hchild⟩

/-- The scheduler takes a process. -/
theorem Inv.schedule_step (h : Inv t) (hrun : (t.proc p).state = .runnable) :
    Inv (Ptable.schedule t p) := by
  have hactive : (t.proc p).state.active = true := by
    rw [hrun]
    rfl
  unfold Ptable.schedule
  split_ifs with hwait
  · have hquiet : Quiet t (t.set p { t.proc p with state := .running, chan := none, call := .none }) :=
      quiet_set rfl rfl (.inr ⟨hactive, rfl⟩) (.inl rfl) nofun
    exact (h.quiet hquiet).wait_step (by simp [Table.set_proc])
  · exact h.quiet (quiet_set rfl rfl (.inr ⟨hactive, rfl⟩) (.inr rfl) fun heq => absurd heq hwait)

/-! ### Runs -/

/-- The process numbers do not wrap around. -/
def NoWrap (t : Table) : Event → Prop
  | .fork _ => t.nextpid.toNat + 1 < 2 ^ 31
  | _ => True

instance (t : Table) (e : Event) : Decidable (NoWrap t e) :=
  match e with
  | .fork _ => inferInstanceAs (Decidable (_ < _))
  | .forkEnd .. | .exit _ | .wait _ | .sleep .. | .wakeup _ | .schedule _ | .yield _ | .kill _ =>
    isTrue trivial

/-- Every step keeps what holds of the table. -/
theorem Inv.step (h : Inv t) {e : Event} (hwrap : NoWrap t e) (hstep : Ptable.step t e = some u) :
    Inv u := by
  cases e with
  | fork p =>
    obtain ⟨hp, ⟨⟩⟩ := ite_none_right_eq_some.mp hstep
    exact h.fork_step hp hwrap
  | forkEnd p np =>
    obtain ⟨⟨hp, hcall⟩, ⟨⟩⟩ := ite_none_right_eq_some.mp hstep
    exact h.forkEnd_step hp hcall
  | exit p =>
    obtain ⟨⟨hp, hinit⟩, ⟨⟩⟩ := ite_none_right_eq_some.mp hstep
    exact h.exit_step hp hinit
  | wait p =>
    obtain ⟨⟨hp, -⟩, ⟨⟩⟩ := ite_none_right_eq_some.mp hstep
    exact h.wait_step hp
  | sleep p a =>
    obtain ⟨⟨hp, hcall⟩, ⟨⟩⟩ := ite_none_right_eq_some.mp hstep
    refine h.quiet (quiet_set rfl rfl (.inr ⟨by rw [hp]; rfl, rfl⟩) (.inr rfl) ?_)
    intro hwait
    rw [hcall] at hwait
    contradiction
  | wakeup a =>
    obtain rfl := some.inj hstep
    exact h.quiet (quiet_wakeup1 _)
  | schedule p =>
    obtain ⟨hp, ⟨⟩⟩ := ite_none_right_eq_some.mp hstep
    exact h.schedule_step hp
  | yield p =>
    obtain ⟨hp, ⟨⟩⟩ := ite_none_right_eq_some.mp hstep
    exact h.quiet (quiet_set rfl rfl (.inr ⟨by rw [hp]; rfl, rfl⟩) (.inr rfl) fun _ => .inl rfl)
  | kill pid =>
    obtain rfl := some.inj hstep
    exact h.quiet (h.quiet_kill pid)

/-- The table after `userinit`. -/
theorem inv_boot : Inv boot := by
  have hproc : ∀ p, boot.proc p =
      if p = 0 then { blank with state := .runnable, pid := 1 } else blank := by
    intro p
    simp only [boot, Function.update_apply]
  have hinit : boot.initproc = 0 := rfl
  refine ⟨by decide, ?_, ?_, ?_, ?_, ?_, ?_, ?_, ?_, ?_, ?_, ?_, ?_, ?_, nodup_nil, ?_, ?_, ?_⟩
  all_goals simp only [Live, hproc, hinit, blank]
  · have : boot.nextpid = 2 := rfl
    grind
  · grind
  · grind
  · grind
  · grind
  · grind
  · rfl
  · rfl
  · grind
  · grind
  · grind
  · grind
  · grind
  · simp [boot]
  · simp [boot]
  · grind

/-- What the table says about the processes. -/
structure Lineage (t : Table) : Prop where
  /-- Processes have distinct numbers. -/
  distinct : ∀ p q, (t.proc p).state ≠ .unused → (t.proc q).state ≠ .unused →
    (t.proc p).pid = (t.proc q).pid → p = q
  /-- Every process but the first has a parent that is alive. -/
  parent : ∀ p, Live t p → p ≠ t.initproc →
    ∃ q, (t.proc p).parent = some q ∧ Live t q ∧ (t.proc q).state ≠ .zombie
  /-- No process is waited for twice. -/
  once : (t.waited.map Prod.snd).Nodup
  /-- A process that has exited has been waited for or is still in its slot. -/
  kept : ∀ x ∈ t.exited, x ∈ t.waited.map Prod.snd ∨
    ∃ p, (t.proc p).state = .zombie ∧ (t.proc p).pid = x
  /-- Nobody sleeps in `wait` with a child that has exited. -/
  awake : ∀ p c, (t.proc p).call = .wait → (t.proc p).state = .sleeping →
    (t.proc c).parent = some p → (t.proc c).state ≠ .zombie

/-- What a step does to the processes that have exited: they keep their slots until the step
in which `wait` returns them to their parent. -/
structure Reaps (t u : Table) : Prop where
  /-- `wait` returns a child of its caller that has exited. -/
  waited : u.waited = t.waited ∨ ∃ p c, u.waited = t.waited ++ [(p, (t.proc c).pid)] ∧
    (t.proc c).parent = some p ∧ (t.proc c).state = .zombie ∧ (u.proc c).state = .unused
  slot : ∀ c, (t.proc c).state = .zombie →
    ((u.proc c).state = .zombie ∧ (u.proc c).pid = (t.proc c).pid) ∨
    ((u.proc c).state = .unused ∧
      ∃ p, u.waited = t.waited ++ [(p, (t.proc c).pid)] ∧ (t.proc c).parent = some p)

/-- What holds of the table whenever its lock is free says it. -/
theorem Inv.lineage (h : Inv t) : Lineage t where
  distinct := h.pids
  parent := by
    intro p hp hinit
    obtain ⟨q, hq⟩ := ne_none_iff_exists'.mp (h.born p hp hinit)
    have hactive := h.parent p q hq
    refine ⟨q, hq, ⟨?_, ?_⟩, ?_⟩
    all_goals
      intro heq
      rw [heq] at hactive
      contradiction
  once := h.once
  kept := fun x hx => (h.exited x hx).2
  awake := h.awake

/-- A step that keeps the slots of the processes that have exited. -/
theorem Reaps.of_same (hwaited : u.waited = t.waited) (hslot : ∀ c, (t.proc c).state = .zombie →
      (u.proc c).state = .zombie ∧ (u.proc c).pid = (t.proc c).pid) : Reaps t u :=
  ⟨.inl hwaited, fun c hc => .inl (hslot c hc)⟩

theorem Quiet.zombie (h : Quiet t u) (c : Fin nproc) :
    (u.proc c).state = .zombie ↔ (t.proc c).state = .zombie := by
  have := h.state c
  grind [State.active]

theorem Reaps.quiet_left {v : Table} (hq : Quiet t u) (h : Reaps u v) : Reaps t v := by
  obtain ⟨hwaited, hslot⟩ := h
  simp only [hq.waited, hq.parent, hq.pid, hq.zombie] at hwaited hslot
  exact ⟨hwaited, hslot⟩

theorem Quiet.reaps (h : Quiet t u) : Reaps t u :=
  Reaps.of_same h.waited fun c hc => ⟨(h.zombie c).mpr hc, h.pid c⟩

/-- What a turn of the loop of `wait` does to them. -/
theorem reaps_wait (hrun : (t.proc p).state = .running) : Reaps t (wait t p) := by
  unfold wait
  cases hchild : exitedChild t.proc p with
  | some c =>
    obtain ⟨hparent, hzombie⟩ := exitedChild_eq_some hchild
    have hcp : c ≠ p := by
      rintro rfl
      rw [hrun] at hzombie
      contradiction
    refine ⟨.inr ⟨p, c, rfl, hparent, hzombie, ?_⟩, ?_⟩
    · simp [Table.set_proc, hcp]
    · intro d hd
      by_cases hdc : d = c
      · subst d
        refine .inr ⟨?_, p, rfl, hparent⟩
        simp [Table.set_proc, hcp]
      · have hdp : d ≠ p := by
          rintro rfl
          rw [hrun] at hd
          contradiction
        exact .inl (by simp [Table.set_proc, hdc, hdp, hd])
  | none =>
    have hkeep : ∀ x : Proc, Reaps t (t.set p x) := by
      intro x
      refine Reaps.of_same rfl ?_
      intro d hd
      have hdp : d ≠ p := by
        rintro rfl
        rw [hrun] at hd
        contradiction
      simp [Table.set_proc, hdp, hd]
    simp only
    split_ifs
    · exact hkeep _
    · exact hkeep _

/-- What a step does to them. -/
theorem Inv.reaps (h : Inv t) {e : Event} (hstep : Ptable.step t e = some u) : Reaps t u := by
  cases e with
  | fork p =>
    obtain ⟨hp, ⟨⟩⟩ := ite_none_right_eq_some.mp hstep
    unfold Ptable.fork Ptable.allocproc
    cases hslot : unusedSlot t.proc with
    | none => exact Reaps.of_same rfl fun c hc => ⟨hc, rfl⟩
    | some np =>
      have hunused := unusedSlot_eq_some hslot
      refine Reaps.of_same rfl ?_
      simp only [Table.set_proc]
      grind
  | forkEnd p np =>
    obtain ⟨⟨hp, hcall⟩, ⟨⟩⟩ := ite_none_right_eq_some.mp hstep
    have hembryo := h.fork p np hcall
    refine Reaps.of_same rfl ?_
    simp only [forkEnd, Table.set_proc]
    grind
  | exit p =>
    obtain ⟨⟨hp, hinit⟩, ⟨⟩⟩ := ite_none_right_eq_some.mp hstep
    refine Reaps.of_same rfl ?_
    simp only [exit_proc hinit]
    grind
  | wait p =>
    obtain ⟨⟨hp, hcall⟩, ⟨⟩⟩ := ite_none_right_eq_some.mp hstep
    exact reaps_wait hp
  | sleep p a =>
    obtain ⟨⟨hp, hcall⟩, ⟨⟩⟩ := ite_none_right_eq_some.mp hstep
    refine Reaps.of_same rfl ?_
    simp only [sleep, Table.set_proc]
    grind
  | wakeup a =>
    obtain rfl := some.inj hstep
    exact (quiet_wakeup1 _).reaps
  | schedule p =>
    obtain ⟨hp, ⟨⟩⟩ := ite_none_right_eq_some.mp hstep
    have hactive : (t.proc p).state.active = true := by
      rw [hp]
      rfl
    unfold Ptable.schedule
    split_ifs with hwait
    · have hquiet : Quiet t (t.set p { t.proc p with state := .running, chan := none, call := .none }) :=
        quiet_set rfl rfl (.inr ⟨hactive, rfl⟩) (.inl rfl) nofun
      exact (reaps_wait (by simp [Table.set_proc])).quiet_left hquiet
    · refine Reaps.of_same rfl ?_
      simp only [Table.set_proc]
      grind
  | yield p =>
    obtain ⟨hp, ⟨⟩⟩ := ite_none_right_eq_some.mp hstep
    refine Reaps.of_same rfl ?_
    simp only [yield, Table.set_proc]
    grind
  | kill pid =>
    obtain rfl := some.inj hstep
    exact (h.quiet_kill pid).reaps

/-- In every run in which the process numbers do not wrap around, processes have distinct
numbers and live parents, nobody sleeps in `wait` for a child that has exited, and a child
that has exited keeps its slot until the one call of `wait` that returns it to its
parent. -/
theorem process_lineage {es : List Event} (hrun : run Ptable.step boot es = some t)
    (hwrap : Along Ptable.step NoWrap boot es) :
    Lineage t ∧ ∀ e u, Ptable.step t e = some u → Reaps t u := by
  have h : Inv t := invariant_along (fun h hw hs => h.step hw hs) inv_boot hwrap hrun
  exact ⟨h.lineage, fun e u hstep => h.reaps hstep⟩

/-- A child exits while its parent sleeps in `wait`. The parent is woken and gets the number of
the child. -/
theorem process_lineage_wait : ∃ t, run Ptable.step boot
    [.schedule 0, .fork 0, .forkEnd 0 1, .wait 0, .schedule 1, .exit 1, .schedule 0] = some t ∧
    t.waited = [(0, 2)] ∧ Lineage t := by
  have hwaited : (run Ptable.step boot [.schedule 0, .fork 0, .forkEnd 0 1, .wait 0,
      .schedule 1, .exit 1, .schedule 0]).map Table.waited = some [(0, 2)] := by
    decide +kernel
  obtain ⟨t, hrun, ht⟩ := map_eq_some_iff.mp hwaited
  exact ⟨t, hrun, ht, (process_lineage hrun (by decide +kernel)).1⟩

end Xv6Draw.Ptable
