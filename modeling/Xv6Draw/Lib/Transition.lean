import Mathlib.Tactic.Common

/-!
# Runs of labelled transition systems

A system is given by a partial step function over events. The rules here turn
facts about single steps into facts about whole runs: an invariant kept by every
enabled step holds at the end of every run, also when the steps are only known
to keep it under a condition that the run meets along the way.
-/

namespace Transition

open Option

variable {σ ε : Type*}

/-- The state after a list of events, or `none` when one of them is not enabled. -/
def run (step : σ → ε → Option σ) : σ → List ε → Option σ
  | s, [] => some s
  | s, e :: es => (step s e).bind fun t => run step t es

/-- A condition on state and event that holds at every step of a run. -/
def Along (step : σ → ε → Option σ) (P : σ → ε → Prop) : σ → List ε → Prop
  | _, [] => True
  | s, e :: es => P s e ∧ ∀ t, step s e = some t → Along step P t es

/-- A condition that can be decided at each step can be decided along a run. -/
instance decidableAlong {step : σ → ε → Option σ} {P : σ → ε → Prop} [∀ s e, Decidable (P s e)] :
    ∀ s es, Decidable (Along step P s es)
  | _, [] => isTrue trivial
  | s, e :: es =>
    match h : step s e with
    | none => decidable_of_iff (P s e) ⟨fun hp => ⟨hp, fun t ht => by simp [h] at ht⟩, And.left⟩
    | some t =>
      have : Decidable (Along step P t es) := decidableAlong t es
      decidable_of_iff (P s e ∧ Along step P t es)
        ⟨fun hp => ⟨hp.1, fun u hu => some.inj (h.symm.trans hu) ▸ hp.2⟩,
          fun hp => ⟨hp.1, hp.2 t h⟩⟩

variable {step : σ → ε → Option σ} {P : σ → ε → Prop} {I : σ → Prop} {s t : σ} {e : ε} {es : List ε}

theorem run_cons_eq_some :
    run step s (e :: es) = some t ↔ ∃ u, step s e = some u ∧ run step u es = some t := by
  simp [run, Option.bind_eq_some_iff]

/-- A system that allows the same steps and more has the same runs. -/
theorem run_mono {step' : σ → ε → Option σ} (h : ∀ {s t e}, step s e = some t → step' s e = some t)
    (hrun : run step s es = some t) : run step' s es = some t := by
  induction es generalizing s with
  | nil => exact hrun
  | cons e es ih =>
    obtain ⟨u, hstep, hrest⟩ := run_cons_eq_some.mp hrun
    exact run_cons_eq_some.mpr ⟨u, h hstep, ih hrest⟩

/-- A condition that the events meet in every state holds along every run. -/
theorem along_of_forall (h : ∀ e ∈ es, ∀ s, P s e) (s : σ) : Along step P s es := by
  induction es generalizing s with
  | nil => trivial
  | cons e es ih =>
    refine ⟨h e (by simp) s, ?_⟩
    intro t _
    exact ih (fun f hf => h f (by simp [hf])) t

/-- A condition along a run with one more event holds along the run, and of that
event at its end. -/
theorem along_concat (h : Along step P s (es ++ [e])) (hrun : run step s es = some t) :
    Along step P s es ∧ P t e := by
  induction es generalizing s with
  | nil =>
    simp only [run, some.injEq] at hrun
    subst t
    exact ⟨trivial, h.1⟩
  | cons f es ih =>
    obtain ⟨u, hstep, hrest⟩ := run_cons_eq_some.mp hrun
    obtain ⟨halong, hlast⟩ := ih (h.2 u hstep) hrest
    refine ⟨⟨h.1, ?_⟩, hlast⟩
    intro v hv
    rw [hstep, some.injEq] at hv
    subst v
    exact halong

/-- An invariant that every step keeps under a condition on the step holds at
the end of every run that meets the condition. -/
theorem invariant_along (hstep : ∀ {s e t}, I s → P s e → step s e = some t → I t) (hinit : I s)
    (halong : Along step P s es) (hrun : run step s es = some t) : I t := by
  induction es generalizing s with
  | nil =>
    simp only [run, some.injEq] at hrun
    rwa [← hrun]
  | cons e es ih =>
    obtain ⟨u, hu, hrest⟩ := run_cons_eq_some.mp hrun
    exact ih (hstep hinit halong.1 hu) (halong.2 u hu) hrest

/-- An invariant that every step keeps holds at the end of every run. -/
theorem invariant_run (hstep : ∀ {s e t}, I s → step s e = some t → I t) (hinit : I s)
    (hrun : run step s es = some t) : I t :=
  invariant_along (P := fun _ _ => True) (fun hs _ => hstep hs) hinit (along_of_forall (by simp) s) hrun

end Transition
