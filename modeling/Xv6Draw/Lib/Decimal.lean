import Mathlib.Tactic.Common
import Mathlib.Data.Int.Notation

/-!
# Decimal notation

The decimal notation of natural numbers and integers as lists of ASCII codes, as
`str` of an integer writes it, and the accumulation that reads it back.
-/

namespace Decimal

open List

/-- An ASCII digit. -/
def IsDigit (c : ℕ) : Prop := 48 ≤ c ∧ c ≤ 57

instance (c : ℕ) : Decidable (IsDigit c) := inferInstanceAs (Decidable (_ ∧ _))

/-- Decimal digits, most significant first, with a bound on their number. -/
def decimalAux : ℕ → ℕ → List ℕ
  | 0, _ => []
  | fuel + 1, n => if n < 10 then [48 + n] else decimalAux fuel (n / 10) ++ [48 + n % 10]

/-- The decimal notation of a natural number. -/
def decimal (n : ℕ) : List ℕ := decimalAux (n + 1) n

/-- The decimal notation of an integer. -/
def ofInt (z : ℤ) : List ℕ := if z < 0 then 45 :: decimal z.natAbs else decimal z.natAbs

/-- The number that digits stand for. -/
def value (cs : List ℕ) : ℕ := cs.foldl (fun acc c => acc * 10 + (c - 48)) 0

/-- The bound on the number of digits does not matter once it is large enough. -/
theorem decimalAux_eq {fuel n : ℕ} (h : n < fuel) : decimalAux fuel n = decimal n := by
  induction n using Nat.strongRecOn generalizing fuel with
  | _ n ih =>
    obtain ⟨k, rfl⟩ : ∃ k, fuel = k + 1 := ⟨fuel - 1, by omega⟩
    unfold decimal
    rw [decimalAux, decimalAux]
    by_cases hn : n < 10
    · rw [if_pos hn, if_pos hn]
    · rw [if_neg hn, if_neg hn, ih (n / 10) (by omega) (by omega), ih (n / 10) (by omega) (by omega)]

theorem decimal_eq (n : ℕ) :
    decimal n = if n < 10 then [48 + n] else decimal (n / 10) ++ [48 + n % 10] := by
  conv_lhs => rw [decimal, decimalAux]
  by_cases hn : n < 10
  · rw [if_pos hn, if_pos hn]
  · rw [if_neg hn, if_neg hn, decimalAux_eq (by omega)]

/-- All characters of the notation are digits. -/
theorem isDigit_of_mem_decimal {n c : ℕ} (hc : c ∈ decimal n) : IsDigit c := by
  induction n using Nat.strongRecOn with
  | _ n ih =>
    rw [decimal_eq] at hc
    split_ifs at hc with hn
    · rw [mem_singleton] at hc
      unfold IsDigit
      omega
    · rw [mem_append, mem_singleton] at hc
      rcases hc with hfront | hlast
      · exact ih (n / 10) (by omega) hfront
      · unfold IsDigit
        omega

theorem decimal_ne_nil (n : ℕ) : decimal n ≠ [] := by
  rw [decimal_eq]
  split_ifs <;> simp

theorem value_decimal (n : ℕ) : value (decimal n) = n := by
  induction n using Nat.strongRecOn with
  | _ n ih =>
    rw [decimal_eq]
    split_ifs with hn
    · simp [value]
    · have hfront := ih (n / 10) (by omega)
      unfold value at hfront ⊢
      rw [foldl_append, hfront]
      simp only [foldl_cons, foldl_nil]
      omega

/-- A rough bound on the length of the notation. -/
theorem length_decimal_le (n : ℕ) : (decimal n).length ≤ n + 1 := by
  have haux : ∀ fuel m, (decimalAux fuel m).length ≤ fuel := by
    intro fuel
    induction fuel with
    | zero => simp [decimalAux]
    | succ fuel ih =>
      intro m
      rw [decimalAux]
      split_ifs
      · simp
      · have hfront := ih (m / 10)
        simp only [length_append, length_singleton]
        omega
  exact haux (n + 1) n

end Decimal
