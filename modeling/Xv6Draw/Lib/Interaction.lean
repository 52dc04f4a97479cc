import Mathlib.Tactic.Common

/-!
# Programs that talk to their environment

A program is a tree of calls, each continued by what the environment answers. Its
runs are the sequences of calls and answers along the paths of the tree, and a run
of a sequence of programs is a sequence of runs. What holds of every run holds
against every environment, whatever it answers.
-/

namespace Interaction

variable {C R α β : Type}

/-- A program that makes calls in `C`, is answered in `R` and returns in `α`. -/
inductive Prog (C R α : Type) where
  | ret (a : α)
  | call (c : C) (next : R → Prog C R α)

/-- One program behind another. -/
def Prog.bind : Prog C R α → (α → Prog C R β) → Prog C R β
  | .ret a, f => f a
  | .call c next, f => .call c fun r => (next r).bind f

instance : Monad (Prog C R) where
  pure := .ret
  bind := .bind

/-- The program that makes one call and returns the answer. -/
def request (c : C) : Prog C R R := .call c .ret

/-- The program can make these calls, get these answers, and return this value. -/
def Runs : Prog C R α → List (C × R) → α → Prop
  | .ret a, t, b => t = [] ∧ b = a
  | .call c next, t, b => ∃ r rest, t = (c, r) :: rest ∧ Runs (next r) rest b

/-- The run against an environment that answers each call by what happened before
it. -/
def exec (env : List (C × R) → C → R) (past : List (C × R)) : Prog C R α → List (C × R) × α
  | .ret a => ([], a)
  | .call c next =>
    let r := env past c
    let rest := exec env (past ++ [(c, r)]) (next r)
    ((c, r) :: rest.1, rest.2)

theorem runs_exec (env : List (C × R) → C → R) (past : List (C × R)) (p : Prog C R α) :
    Runs p (exec env past p).1 (exec env past p).2 := by
  induction p generalizing past with
  | ret a => exact ⟨rfl, rfl⟩
  | call c next ih => exact ⟨_, _, rfl, ih _ _⟩

@[simp] theorem runs_pure {a b : α} {t : List (C × R)} :
    Runs (pure a : Prog C R α) t b ↔ t = [] ∧ b = a :=
  Iff.rfl

/-- The runs of one program behind another. -/
theorem runs_bind {p : Prog C R α} {f : α → Prog C R β} {t : List (C × R)} {b : β} :
    Runs (p >>= f) t b ↔ ∃ t₁ a t₂, t = t₁ ++ t₂ ∧ Runs p t₁ a ∧ Runs (f a) t₂ b := by
  induction p generalizing t with
  | ret a =>
    constructor
    · intro h
      exact ⟨[], a, t, rfl, ⟨rfl, rfl⟩, h⟩
    · rintro ⟨_, _, t₂, rfl, ⟨rfl, rfl⟩, h⟩
      exact h
  | call c next ih =>
    constructor
    · rintro ⟨r, rest, rfl, h⟩
      obtain ⟨t₁, a, t₂, rfl, hfirst, hsecond⟩ := ih r |>.mp h
      exact ⟨(c, r) :: t₁, a, t₂, rfl, ⟨r, t₁, rfl, hfirst⟩, hsecond⟩
    · rintro ⟨_, a, t₂, rfl, ⟨r, t₁, rfl, hfirst⟩, hsecond⟩
      exact ⟨r, t₁ ++ t₂, rfl, ih r |>.mpr ⟨t₁, a, t₂, rfl, hfirst, hsecond⟩⟩

theorem runs_request_bind {c : C} {f : R → Prog C R β} {t : List (C × R)} {b : β} :
    Runs (request c >>= f) t b ↔ ∃ r rest, t = (c, r) :: rest ∧ Runs (f r) rest b :=
  Iff.rfl

end Interaction
