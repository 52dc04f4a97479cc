import Mathlib.Algebra.Order.BigOperators.Group.Finset

/-!
# Reservations

Clients share a record of distinct items. Each of them may ask for at most `m` items,
and what it has asked for counts once it is in the record. The demand is the size of
the record together with what the clients may still add to it. It grows when a client
is admitted, by `m`, and at no other time.
-/

namespace Reservation

open Finset

variable {ι α : Type*} [DecidableEq α]

/-- The size of the record and the items that the clients may still add to it. -/
def demand (m : ℕ) (asked : ι → Finset α) (record : Finset α) (clients : Finset ι) : ℕ :=
  record.card + ∑ i ∈ clients, (m - (asked i ∩ record).card)

theorem card_le_demand (m : ℕ) (asked : ι → Finset α) (record : Finset α) (clients : Finset ι) :
    record.card ≤ demand m asked record clients := by
  unfold demand
  omega

/-- The demand is at most the record and `m` for each client. -/
theorem demand_le (m : ℕ) (asked : ι → Finset α) (record : Finset α) (clients : Finset ι) :
    demand m asked record clients ≤ record.card + clients.card * m := by
  have hsum : ∑ i ∈ clients, (m - (asked i ∩ record).card) ≤ clients.card * m := by
    rw [← sum_const_nat (m := m) (fun _ _ => rfl)]
    apply sum_le_sum
    intro i _
    omega
  unfold demand
  omega

/-- Clients that ask for more have no higher demand. -/
theorem demand_le_of_subset {m : ℕ} {asked asked' : ι → Finset α} (record : Finset α)
    {clients : Finset ι} (h : ∀ i ∈ clients, asked i ⊆ asked' i) :
    demand m asked' record clients ≤ demand m asked record clients := by
  unfold demand
  apply Nat.add_le_add_left
  apply sum_le_sum
  intro i hi
  have hcard := card_le_card (inter_subset_inter_right (u := record) (h i hi))
  omega

theorem demand_erase_le [DecidableEq ι] (m : ℕ) (asked : ι → Finset α) (record : Finset α) (clients : Finset ι)
    (i : ι) : demand m asked record (clients.erase i) ≤ demand m asked record clients := by
  unfold demand
  apply Nat.add_le_add_left
  exact sum_le_sum_of_subset (erase_subset i clients)

/-- An item that a client within its bound has asked for is recorded at no cost. -/
theorem demand_insert_le [DecidableEq ι] {m : ℕ} {asked : ι → Finset α} (record : Finset α)
    {clients : Finset ι} {i : ι} {a : α} (hi : i ∈ clients) (ha : a ∈ asked i) (hm : (asked i).card ≤ m) :
    demand m asked (insert a record) clients ≤ demand m asked record clients := by
  by_cases hrecord : a ∈ record
  · rw [insert_eq_self.mpr hrecord]
  have hmono : ∀ j, (asked j ∩ record).card ≤ (asked j ∩ insert a record).card := by
    intro j
    exact card_le_card (inter_subset_inter_left (subset_insert a record))
  have hone : (asked i ∩ insert a record).card = (asked i ∩ record).card + 1 := by
    rw [inter_insert_of_mem ha, card_insert_of_notMem]
    intro hmem
    exact hrecord (mem_of_mem_inter_right hmem)
  have hbound : (asked i ∩ insert a record).card ≤ m :=
    (card_le_card inter_subset_left).trans hm
  have hrest : ∑ j ∈ clients.erase i, (m - (asked j ∩ insert a record).card) ≤
      ∑ j ∈ clients.erase i, (m - (asked j ∩ record).card) := by
    apply sum_le_sum
    intro j _
    have hj := hmono j
    omega
  unfold demand
  rw [card_insert_of_notMem hrecord, ← add_sum_erase clients _ hi,
    ← add_sum_erase clients (fun j => m - (asked j ∩ record).card) hi]
  omega

end Reservation
