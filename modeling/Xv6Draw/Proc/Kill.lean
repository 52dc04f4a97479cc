import Xv6Draw.Proc.Lifecycle

/-!
# Killing processes

`kill` looks for a number in all slots, also in those that are not in use, whose number
is 0. The flag that it sets there is cleared only when `wait` frees a slot, so the next
process in the slot starts with it. As long as nobody asks for number 0, the slots that
are not in use stay clean, and `kill` does what it is for.
-/

namespace Xv6Draw.Ptable

open Option Transition

variable {t u : Table} {p : Fin nproc}

/-- A slot that is not in use has number 0 and has not been killed. -/
def Clean (t : Table) : Prop :=
  ∀ p, (t.proc p).state = .unused → (t.proc p).pid = 0 ∧ (t.proc p).killed = false

/-- `kill` is called for a process number, or all slots are in use. -/
def Aimed (t : Table) : Event → Prop
  | .kill pid => pid = 0 → ∀ p, (t.proc p).state ≠ .unused
  | _ => True

instance (t : Table) (e : Event) : Decidable (Aimed t e) :=
  match e with
  | .kill pid => inferInstanceAs (Decidable (pid = 0 → ∀ p, (t.proc p).state ≠ .unused))
  | .fork _ | .forkEnd .. | .exit _ | .wait _ | .sleep .. | .wakeup _ | .schedule _ | .yield _ =>
    isTrue trivial

theorem Clean.pidSlot (h : Clean t) {pid : BitVec 32}
    (haim : pid = 0 → ∀ p, (t.proc p).state ≠ .unused) (hslot : pidSlot t.proc pid = some p) :
    (t.proc p).state ≠ .unused := by
  intro hunused
  refine haim ?_ p hunused
  rw [← pidSlot_eq_some hslot]
  exact (h p hunused).1

theorem Clean.set (h : Clean t) {x : Proc} (hx : x.state = .unused → x.pid = 0 ∧ x.killed = false) :
    Clean (t.set p x) :=
  forall_set (R := fun _ y => y.state = .unused → y.pid = 0 ∧ y.killed = false) hx fun q _ => h q

theorem Clean.wakeup1 (h : Clean t) (chan : Option Chan) :
    Clean { t with proc := Ptable.wakeup1 t.proc chan } := by
  intro q hq
  simp only [wakeup1_eq] at hq ⊢
  apply h q
  grind

/-- A turn of the loop of `wait` cleans the slot that it frees. -/
theorem Clean.wait (h : Clean t) (hrun : (t.proc p).state = .running) : Clean (Ptable.wait t p) := by
  have hkeep : ∀ x : Proc, x.state ≠ .unused → Clean (t.set p x) :=
    fun x hx => h.set fun hunused => absurd hunused hx
  unfold Ptable.wait
  cases exitedChild t.proc p with
  | some c =>
    refine set (h.set fun _ => ⟨rfl, rfl⟩) ?_
    intro hunused
    simp [hrun] at hunused
  | none =>
    simp only
    split_ifs
    · exact hkeep _ (by simp [hrun])
    · exact hkeep _ (by simp)

/-- Steps keep the slots clean when `kill` is called for process numbers. -/
theorem Clean.step (h : Clean t) {e : Event} (haim : Aimed t e) (hstep : Ptable.step t e = some u) :
    Clean u := by
  cases e with
  | fork p =>
    obtain ⟨⟨hp, hcall⟩, ⟨⟩⟩ := ite_none_right_eq_some.mp hstep
    unfold Ptable.fork Ptable.allocproc
    cases hslot : unusedSlot t.proc with
    | none => exact h
    | some np =>
      refine set (h.set (by simp)) ?_
      simp only [Table.set_proc]
      grind
  | forkEnd p np =>
    obtain ⟨⟨hp, hcall⟩, ⟨⟩⟩ := ite_none_right_eq_some.mp hstep
    refine set (h.set (by simp)) ?_
    simp [hp]
  | exit p =>
    obtain ⟨⟨hp, hinit⟩, ⟨⟩⟩ := ite_none_right_eq_some.mp hstep
    intro q
    simp only [exit_proc hinit]
    have := h q
    grind
  | wait p =>
    obtain ⟨⟨hp, hcall⟩, ⟨⟩⟩ := ite_none_right_eq_some.mp hstep
    exact h.wait hp
  | sleep p a =>
    obtain ⟨hp, ⟨⟩⟩ := ite_none_right_eq_some.mp hstep
    exact h.set (by simp)
  | wakeup a =>
    obtain rfl := some.inj hstep
    exact h.wakeup1 _
  | schedule p =>
    obtain ⟨hp, ⟨⟩⟩ := ite_none_right_eq_some.mp hstep
    unfold Ptable.schedule
    split_ifs
    · exact (h.set (by simp)).wait (by simp [Table.set_proc])
    · exact h.set (by simp)
  | yield p =>
    obtain ⟨hp, ⟨⟩⟩ := ite_none_right_eq_some.mp hstep
    exact h.set (by simp)
  | kill pid =>
    obtain rfl := some.inj hstep
    unfold Ptable.kill
    cases hslot : Ptable.pidSlot t.proc pid with
    | none => exact h
    | some p =>
      have hused := h.pidSlot haim hslot
      refine h.set ?_
      simp only
      grind

theorem clean_boot : Clean boot := by
  intro q
  simp only [boot, Function.update_apply, blank]
  grind

/-- In every run in which `kill` is called for number 0 only while all slots are in use, `kill`
returns 0 only for the number of a process and changes that process only, and `allocproc`
returns processes that have not been killed. -/
theorem kill_allocproc_sound {es : List Event} (hrun : run Ptable.step boot es = some t)
    (haim : Along Ptable.step Aimed boot es) : (∀ pid, Aimed t (.kill pid) → (kill t pid).1 = 0 →
      ∃ p, (t.proc p).state ≠ .unused ∧ (t.proc p).pid = pid ∧
        ∀ q, q ≠ p → (kill t pid).2.proc q = t.proc q) ∧
    ∀ np u, allocproc t = some (np, u) → (u.proc np).killed = false := by
  have h : Clean t := invariant_along (fun h ha hs => h.step ha hs) clean_boot haim hrun
  refine ⟨?_, ?_⟩
  · intro pid hpid hzero
    unfold kill at hzero ⊢
    cases hslot : Ptable.pidSlot t.proc pid with
    | none => simp [hslot] at hzero
    | some p =>
      refine ⟨p, h.pidSlot hpid hslot, pidSlot_eq_some hslot, ?_⟩
      intro q hq
      simp [Table.set_proc, hq]
  · intro np u halloc
    unfold allocproc at halloc
    cases hslot : unusedSlot t.proc with
    | none => simp [hslot] at halloc
    | some p =>
      simp only [hslot, some.injEq, Prod.mk.injEq] at halloc
      obtain ⟨rfl, rfl⟩ := halloc
      simp only [Table.set_proc, if_true]
      exact (h p (unusedSlot_eq_some hslot)).2

/-- A process kills its child, which exits, and the next child starts in the same slot. -/
theorem kill_child_then_fork : ∃ t, run Ptable.step boot
    [.schedule 0, .fork 0, .forkEnd 0 1, .kill 2, .schedule 1, .exit 1, .wait 0] = some t ∧
    (allocproc t).map Prod.fst = some 1 ∧
    ∀ np u, allocproc t = some (np, u) → (u.proc np).killed = false := by
  have hslot : (run Ptable.step boot [.schedule 0, .fork 0, .forkEnd 0 1, .kill 2,
      .schedule 1, .exit 1, .wait 0]).map (fun t => (allocproc t).map Prod.fst) = some (some 1) := by
    decide +kernel
  obtain ⟨t, hrun, ht⟩ := map_eq_some_iff.mp hslot
  exact ⟨t, hrun, ht, (kill_allocproc_sound hrun (by decide +kernel)).2⟩

/-- `kill` of number 0 returns 0, although no process has the number, and the next process
starts killed. -/
theorem kill_zero_hits_unused :
    (kill boot 0).1 = 0 ∧ (∀ p, (boot.proc p).state ≠ .unused → (boot.proc p).pid ≠ 0) ∧
      (run Ptable.step boot [.schedule 0, .kill 0, .fork 0]).map
        (fun t => ((t.proc 1).state, (t.proc 1).killed)) = some (.embryo, true) := by
  decide +kernel

end Xv6Draw.Ptable
