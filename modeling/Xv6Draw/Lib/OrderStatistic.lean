import Mathlib

/-!
# Order statistics

Two lists with pointwise bounds, put in order: the bounds then hold between the elements of
the same rank. The elements up to a bound are counted in both lists, and the count does not
depend on the order of a list.
-/

namespace OrderStatistic

open List

variable {α : Type*} [LinearOrder α]

/-- The smaller list has at least as many elements up to a bound. -/
theorem countP_le_countP {xs ys : List α} (h : List.Forall₂ (· ≤ ·) xs ys) (t : α) :
    ys.countP (fun a => decide (a ≤ t)) ≤ xs.countP (fun a => decide (a ≤ t)) := by
  induction h with
  | nil => exact Nat.le_refl _
  | @cons x y xs ys hxy _ ih =>
    rw [countP_cons, countP_cons]
    by_cases hy : y ≤ t
    · rw [if_pos (decide_eq_true hy), if_pos (decide_eq_true (hxy.trans hy))]
      omega
    · rw [if_neg (by simpa using hy)]
      omega

/-- In a list in order the elements up to rank `k` are at most the one of that rank. -/
theorem succ_le_countP {l : List α} (hl : l.Pairwise (· ≤ ·)) {k : ℕ} (hk : k < l.length) :
    k + 1 ≤ l.countP (fun a => decide (a ≤ l[k])) := by
  have hall : ∀ a ∈ l.take (k + 1), decide (a ≤ l[k]) = true := by
    intro a ha
    obtain ⟨i, hi, rfl⟩ := mem_take_iff_getElem.mp ha
    rcases Nat.lt_or_eq_of_le (show i ≤ k by omega) with hlt | rfl
    · exact decide_eq_true (pairwise_iff_getElem.mp hl i k (by omega) hk hlt)
    · exact decide_eq_true le_rfl
  have hcount := countP_eq_length.mpr hall
  rw [length_take_of_le (by omega)] at hcount
  rw [← hcount]
  exact (take_sublist _ _).countP_le

/-- In a list in order at most `k` elements are below the one of rank `k`. -/
theorem countP_le_of_lt {l : List α} (hl : l.Pairwise (· ≤ ·)) {k : ℕ} (hk : k < l.length) {t : α}
    (ht : t < l[k]) : l.countP (fun a => decide (a ≤ t)) ≤ k := by
  have hnone : (l.drop k).countP (fun a => decide (a ≤ t)) = 0 := by
    rw [countP_eq_zero]
    intro a ha
    obtain ⟨i, hi, rfl⟩ := mem_drop_iff_getElem.mp ha
    have hge : l[k] ≤ l[k + i] := by
      rcases Nat.eq_zero_or_pos i with rfl | hpos
      · exact le_rfl
      · exact pairwise_iff_getElem.mp hl k (k + i) hk _ (by omega)
    simpa using ht.trans_le hge
  rw [← take_append_drop k l, countP_append, hnone, Nat.add_zero]
  exact Nat.le_trans countP_le_length (length_take_le k l)

/-- Pointwise bounds hold between elements of the same rank. -/
theorem getElem_le_getElem {xs ys as bs : List α} (h : List.Forall₂ (· ≤ ·) xs ys)
    (has : as.Perm xs) (hbs : bs.Perm ys) (hasorted : as.Pairwise (· ≤ ·))
    (hbsorted : bs.Pairwise (· ≤ ·)) {k : ℕ} (hka : k < as.length) (hkb : k < bs.length) :
    as[k] ≤ bs[k] := by
  by_contra hgt
  have hlow := succ_le_countP hbsorted hkb
  have hhigh := countP_le_of_lt hasorted hka (not_le.mp hgt)
  have hmiddle := countP_le_countP h bs[k]
  rw [has.countP_eq] at hhigh
  rw [hbs.countP_eq] at hlow
  omega

end OrderStatistic
