import Mathlib.Algebra.BigOperators.Group.Finset.Piecewise
import Mathlib.Algebra.Order.BigOperators.Group.Finset

/-!
# Tallies

The sum of a weight over the entries of a finite table. An entry that is replaced trades
its old weight for the new one, so an account that is kept as a tally changes by what
one step does to one entry.
-/

namespace Tally

open Finset Function

variable {α β : Type*} [Fintype α]

/-- The sum of a weight over the entries of a table. -/
def tally (g : β → ℕ) (x : α → β) : ℕ := ∑ a, g (x a)

theorem le_tally (g : β → ℕ) (x : α → β) (a : α) : g (x a) ≤ tally g x :=
  single_le_sum (f := fun a => g (x a)) (fun _ _ => Nat.zero_le _) (mem_univ a)

variable {g : β → ℕ} {x : α → β}

theorem tally_eq_zero_iff : tally g x = 0 ↔ ∀ a, g (x a) = 0 := by
  simp [tally]

theorem tally_pos_iff : 0 < tally g x ↔ ∃ a, 0 < g (x a) := by
  rw [Nat.pos_iff_ne_zero, ne_eq, tally_eq_zero_iff]
  simp only [not_forall, Nat.pos_iff_ne_zero, ne_eq]

variable [DecidableEq α]

/-- An entry that is replaced trades its weight. -/
theorem tally_update (g : β → ℕ) (x : α → β) (a : α) (v : β) :
    tally g (update x a v) + g (x a) = tally g x + g v := by
  have hnew := add_sum_erase Finset.univ (fun b => g (update x a v b))
    (mem_univ a)
  have hold := add_sum_erase Finset.univ (fun b => g (x b)) (mem_univ a)
  have hrest : ∑ b ∈ Finset.univ.erase a, g (update x a v b) =
      ∑ b ∈ Finset.univ.erase a, g (x b) := by
    refine sum_congr rfl fun b hb => ?_
    rw [update_of_ne (ne_of_mem_erase hb)]
  simp only [update_self] at hnew
  unfold tally
  omega

theorem tally_update_of_eq {a : α} {v : β} (h : g v = g (x a)) :
    tally g (update x a v) = tally g x := by
  have := tally_update g x a v
  omega

theorem add_le_tally (g : β → ℕ) (x : α → β) {a b : α} (h : a ≠ b) :
    g (x a) + g (x b) ≤ tally g x := by
  have hpair : ∑ c ∈ {a, b}, g (x c) = g (x a) + g (x b) := sum_pair h
  rw [← hpair]
  exact sum_le_sum_of_subset (subset_univ _)

end Tally
