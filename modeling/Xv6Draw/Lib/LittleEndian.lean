import Mathlib

/-!
# Numbers in byte arrays

Numbers of a fixed number of bytes, least significant byte first, at a position of a
byte array: what is loaded after a store, at the same place and elsewhere.
-/

namespace LittleEndian

/-- One byte of a number. -/
def digit (v i : ℕ) : BitVec 8 := BitVec.ofNat 8 (v / 256 ^ i)

/-- The number in the given number of bytes at a position. -/
def load (b : ℕ → BitVec 8) (o : ℕ) : ℕ → ℕ
  | 0 => 0
  | w + 1 => (b o).toNat + 256 * load b (o + 1) w

/-- A number written to the given number of bytes at a position. -/
def store (b : ℕ → BitVec 8) (o w v : ℕ) : ℕ → BitVec 8 := fun i =>
  if o ≤ i ∧ i < o + w then digit v (i - o) else b i

/-- A number is loaded from its own bytes only. -/
theorem load_congr {b c : ℕ → BitVec 8} {o w : ℕ} (h : ∀ i < w, b (o + i) = c (o + i)) :
    load b o w = load c o w := by
  induction w generalizing o with
  | zero => rfl
  | succ w ih =>
    have hrest : load b (o + 1) w = load c (o + 1) w := by
      apply ih
      intro i hi
      rw [Nat.add_assoc, Nat.add_comm 1 i]
      exact h (i + 1) (by omega)
    have hfirst : b o = c o := h 0 (by omega)
    rw [load, load, hrest, hfirst]

/-- The bytes of a number give the number. -/
theorem load_of_digits {b : ℕ → BitVec 8} {o w v : ℕ} (h : ∀ i < w, b (o + i) = digit v i) :
    load b o w = v % 256 ^ w := by
  induction w generalizing o v with
  | zero => simp [load, Nat.mod_one]
  | succ w ih =>
    have hrest : load b (o + 1) w = v / 256 % 256 ^ w := by
      apply ih
      intro i hi
      have hbyte := h (i + 1) (by omega)
      rw [Nat.add_assoc, Nat.add_comm 1 i, hbyte, digit, digit, Nat.pow_succ', Nat.div_div_eq_div_mul]
    have hfirst : b o = digit v 0 := h 0 (by omega)
    have hvalue : (digit v 0).toNat = v % 256 := by
      rw [digit, Nat.pow_zero, Nat.div_one, BitVec.toNat_ofNat]
    rw [load, hrest, hfirst, hvalue, Nat.pow_succ', Nat.mod_mul]

theorem load_store (b : ℕ → BitVec 8) (o w v : ℕ) : load (store b o w v) o w = v % 256 ^ w := by
  apply load_of_digits
  intro i hi
  rw [store, if_pos ⟨by omega, by omega⟩, Nat.add_sub_cancel_left]

theorem load_store_of_disjoint (b : ℕ → BitVec 8) {o w p x : ℕ} (v : ℕ)
    (h : o + w ≤ p ∨ p + x ≤ o) : load (store b p x v) o w = load b o w := by
  apply load_congr
  intro i hi
  rw [store, if_neg (by omega)]

/-- Bytes that are all zero are the number zero. -/
theorem load_eq_zero {b : ℕ → BitVec 8} {o w : ℕ} (h : ∀ i < w, b (o + i) = 0) :
    load b o w = 0 := by
  have hdigits : load b o w = 0 % 256 ^ w := by
    apply load_of_digits
    intro i hi
    rw [h i hi, digit, Nat.zero_div]
    rfl
  rw [hdigits, Nat.zero_mod]

end LittleEndian
