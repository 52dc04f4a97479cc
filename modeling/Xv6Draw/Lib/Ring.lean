import Mathlib.Data.BitVec

/-!
# Rings with counters that wrap around

A ring of `m` cells with two counters of `w` bits, of the elements that were taken out and
of those that were put in. The cell of an element is its number modulo `m`. The
counters may wrap around any number of times, because `m` divides `2 ^ w`: the ring is
empty when they are equal and full when they are `m` apart.
-/

namespace Ring

open BitVec Function List Nat

variable {α : Type*} {w : ℕ}

/-- The ring holds these elements, the oldest first. -/
structure Holds (m : ℕ) (data : ℕ → α) (nread nwrite : BitVec w) (xs : List α) : Prop where
  length_le : xs.length ≤ m
  count : nwrite = nread + BitVec.ofNat w xs.length
  /-- They are in the cells from the first counter on. -/
  cell : ∀ j (hj : j < xs.length), data ((nread.toNat + j) % m) = xs[j]

variable {m : ℕ} {data : ℕ → α} {nread nwrite : BitVec w} {x : α} {xs : List α}

/-- A counter and what is added to it have the same cell before and after wrapping
around. -/
theorem toNat_add_mod (hm : m ∣ 2 ^ w) (n : BitVec w) (k : ℕ) :
    (n + BitVec.ofNat w k).toNat % m = (n.toNat + k) % m := by
  rw [toNat_add, toNat_ofNat, add_mod_mod, mod_mod_of_dvd _ hm]

/-- Numbers below `2 ^ w` are told apart by adding them to a counter. -/
theorem add_ofNat_inj (n : BitVec w) {j k : ℕ} (hj : j < 2 ^ w) (hk : k < 2 ^ w) :
    n + BitVec.ofNat w j = n + BitVec.ofNat w k ↔ j = k := by
  constructor
  · intro h
    have h' := congrArg BitVec.toNat (add_left_cancel h)
    rwa [toNat_ofNat, toNat_ofNat, mod_eq_of_lt hj, mod_eq_of_lt hk] at h'
  · rintro rfl
    rfl

theorem Holds.length_eq (h : Holds m data nread nwrite xs) (hm : m < 2 ^ w) :
    (nwrite - nread).toNat = xs.length := by
  have hlen := h.length_le
  rw [h.count, add_sub_cancel_left, toNat_ofNat, mod_eq_of_lt (by omega)]

theorem Holds.full_iff (h : Holds m data nread nwrite xs) (hm : m < 2 ^ w) :
    nwrite = nread + BitVec.ofNat w m ↔ xs.length = m := by
  have hlen := h.length_le
  rw [h.count]
  exact add_ofNat_inj nread (by omega) hm

/-- The ring is empty when the counters are equal. -/
theorem Holds.empty_iff (h : Holds m data nread nwrite xs) (hm : m < 2 ^ w) :
    nread = nwrite ↔ xs = [] := by
  have hlen := h.length_le
  have hzero := add_ofNat_inj nread (j := 0) (k := xs.length) (Nat.two_pow_pos w) (by omega)
  rw [BitVec.add_zero] at hzero
  rw [h.count, hzero, eq_comm, length_eq_zero_iff]

theorem holds_nil (m : ℕ) (data : ℕ → α) (n : BitVec w) : Holds m data n n [] := by
  refine ⟨Nat.zero_le m, ?_, nofun⟩
  rw [length_nil, BitVec.add_zero]

/-- An element is put in. -/
theorem Holds.push (h : Holds m data nread nwrite xs) (hm : m ∣ 2 ^ w) (hroom : xs.length < m) (x : α) :
    Holds m (update data (nwrite.toNat % m) x) nread (nwrite + 1) (xs ++ [x]) := by
  have hnew : nwrite.toNat % m = (nread.toNat + xs.length) % m := by
    rw [h.count, toNat_add_mod hm]
  refine ⟨?_, ?_, ?_⟩
  · rw [length_append, length_singleton]
    omega
  · rw [length_append, length_singleton, h.count, ofNat_add, BitVec.add_assoc]
    rfl
  · intro j hj
    rw [length_append, length_singleton] at hj
    by_cases hlast : j = xs.length
    · subst j
      rw [hnew, update_self, getElem_concat_length rfl]
    · have hlt : j < xs.length := by omega
      rw [getElem_append_left hlt, update_of_ne, h.cell j hlt]
      -- two of at most `m` elements in a row are in different cells
      rw [hnew]
      intro heq
      have hmod := (Nat.ModEq.add_left_cancel' nread.toNat heq : j ≡ xs.length [MOD m])
      rw [Nat.ModEq, mod_eq_of_lt (by omega), mod_eq_of_lt hroom] at hmod
      exact hlast hmod

/-- The oldest element is taken out. -/
theorem Holds.pop (h : Holds m data nread nwrite (x :: xs)) (hm : m ∣ 2 ^ w) :
    data (nread.toNat % m) = x ∧ Holds m data (nread + 1) nwrite xs := by
  have hlen := h.length_le
  rw [length_cons] at hlen
  refine ⟨?_, by omega, ?_, ?_⟩
  · have hfirst := h.cell 0 (by simp)
    rwa [Nat.add_zero] at hfirst
  · rw [h.count, length_cons, Nat.add_comm, ofNat_add, BitVec.add_assoc]
    rfl
  · intro j hj
    have hnext := h.cell (j + 1) (by simpa using hj)
    rw [getElem_cons_succ] at hnext
    rw [← hnext]
    have hcell : (nread + 1).toNat % m = (nread.toNat + 1) % m := toNat_add_mod hm nread 1
    rw [add_mod, hcell, ← add_mod, Nat.add_assoc, Nat.add_comm 1 j]

/-- The newest element is taken back. -/
theorem Holds.unpush (h : Holds m data nread nwrite (xs ++ [x])) (hm : m ∣ 2 ^ w) :
    data ((nwrite - 1).toNat % m) = x ∧ Holds m data nread (nwrite - 1) xs := by
  have hlen := h.length_le
  rw [length_append, length_singleton] at hlen
  have hlast : nwrite - 1 = nread + BitVec.ofNat w xs.length := by
    have hone : BitVec.ofNat w 1 = 1 := rfl
    rw [h.count, length_append, length_singleton, ofNat_add, hone, ← BitVec.add_assoc,
      BitVec.add_sub_cancel]
  refine ⟨?_, by omega, hlast, ?_⟩
  · have hcell := h.cell xs.length (by simp)
    rw [getElem_concat_length rfl] at hcell
    rw [hlast, toNat_add_mod hm, hcell]
  · intro j hj
    have hcell := h.cell j (by simp; omega)
    rwa [getElem_append_left hj] at hcell

/-- The first elements of a ring, up to a counter in between. -/
theorem Holds.left {ys : List α} (h : Holds m data nread nwrite (xs ++ ys)) :
    Holds m data nread (nread + BitVec.ofNat w xs.length) xs := by
  have hlen := h.length_le
  rw [length_append] at hlen
  refine ⟨by omega, rfl, ?_⟩
  intro j hj
  have hcell := h.cell j (by simp; omega)
  rwa [getElem_append_left hj] at hcell

/-- The other elements of a ring, from a counter in between. -/
theorem Holds.right {ys : List α} (h : Holds m data nread nwrite (xs ++ ys)) (hm : m ∣ 2 ^ w) :
    Holds m data (nread + BitVec.ofNat w xs.length) nwrite ys := by
  have hlen := h.length_le
  rw [length_append] at hlen
  refine ⟨by omega, ?_, ?_⟩
  · rw [h.count, length_append, ofNat_add, BitVec.add_assoc]
  · intro j hj
    have hcell := h.cell (xs.length + j) (by simp; omega)
    rw [getElem_append_right (by omega)] at hcell
    simp only [Nat.add_sub_cancel_left] at hcell
    rw [← hcell, add_mod, toNat_add_mod hm, ← add_mod, Nat.add_assoc]

/-- The cells between two counters. -/
def contents (m : ℕ) (data : ℕ → α) (nread nwrite : BitVec w) : List α :=
  (range (nwrite - nread).toNat).map fun j => data ((nread.toNat + j) % m)

/-- The cells between the counters of a ring hold its elements. -/
theorem Holds.contents_eq (h : Holds m data nread nwrite xs) (hm : m < 2 ^ w) :
    contents m data nread nwrite = xs := by
  rw [contents, h.length_eq hm]
  apply ext_getElem
  · simp
  · intro j hj hj'
    rw [getElem_map, getElem_range]
    exact h.cell j hj'

end Ring
