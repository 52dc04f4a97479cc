import Mathlib.Data.Int.Notation
import Mathlib.Tactic.Common

/-!
# Byte memory and `memmove`

Memory is a function from addresses to bytes. `memmove` of `string.c` chooses
its direction by the overlap of the two ranges; both of its loops store only
inside the destination range. `memmove` of `ulib.c` always copies upwards.
-/

namespace Xv6Draw

open Function

/-- The bytes of an address space. -/
abbrev Mem := ℕ → ℕ

/-- The loop `while(n-- > 0) *d++ = *s++`. -/
def copyUp (mem : Mem) (d s : ℕ) : ℕ → Mem
  | 0 => mem
  | n + 1 => copyUp (update mem d (mem s)) (d + 1) (s + 1) n

/-- The loop `while(n-- > 0) *--d = *--s`, entered with both pointers at the
ends of ranges that start at `d` and `s`. -/
def copyDown (mem : Mem) (d s : ℕ) : ℕ → Mem
  | 0 => mem
  | n + 1 => copyDown (update mem (d + n) (mem (s + n))) d s n

/-- `memmove` of the kernel. -/
def memmove (mem : Mem) (dst src n : ℕ) : Mem :=
  if src < dst ∧ dst < src + n then copyDown mem dst src n else copyUp mem dst src n

/-- `memmove` of the user library. -/
def Ulib.memmove (mem : Mem) (dst src : ℕ) (n : ℤ) : Mem := copyUp mem dst src n.toNat

/-- The ascending copy leaves every byte outside the destination range. -/
theorem copyUp_of_outside {mem : Mem} {d s n a : ℕ} (ha : a < d ∨ d + n ≤ a) :
    copyUp mem d s n a = mem a := by
  induction n generalizing mem d s with
  | zero => rfl
  | succ n ih =>
    rw [copyUp, ih (by omega)]
    exact update_of_ne (by omega) _ _

/-- The descending copy leaves every byte outside the destination range. -/
theorem copyDown_of_outside {mem : Mem} {d s n a : ℕ} (ha : a < d ∨ d + n ≤ a) :
    copyDown mem d s n a = mem a := by
  induction n generalizing mem with
  | zero => rfl
  | succ n ih =>
    rw [copyDown, ih (by omega)]
    exact update_of_ne (by omega) _ _

/-- `memmove` changes only the destination range. -/
theorem memmove_of_outside {mem : Mem} {dst src n a : ℕ} (ha : a < dst ∨ dst + n ≤ a) :
    memmove mem dst src n a = mem a := by
  unfold memmove
  split_ifs with hoverlap
  · exact copyDown_of_outside ha
  · exact copyUp_of_outside ha

/-- Moving one byte is one store, in either direction. -/
theorem memmove_one (mem : Mem) (dst src : ℕ) :
    memmove mem dst src 1 = update mem dst (mem src) := by
  unfold memmove
  split_ifs with hoverlap
  · rfl
  · rfl

/-! ### What is moved -/

/-- The memory with the original bytes of the source in the destination. -/
def moved (mem : Mem) (dst src n : ℕ) : Mem := fun a =>
  if dst ≤ a ∧ a < dst + n then mem (src + (a - dst)) else mem a

variable {mem mem' : Mem} {d s n j : ℕ}

theorem eq_moved_iff (hout : ∀ {a}, a < d ∨ d + n ≤ a → mem' a = mem a) :
    mem' = moved mem d s n ↔ ∀ j < n, mem' (d + j) = mem (s + j) := by
  constructor
  · rintro rfl j hj
    rw [moved, if_pos ⟨by omega, by omega⟩, Nat.add_sub_cancel_left]
  · intro hin
    funext a
    rw [moved]
    split_ifs with ha
    · rw [← hin (a - d) (by omega), Nat.add_sub_cancel' ha.1]
    · exact hout (by omega)

/-- A descending copy reads every byte of the source before it stores there. -/
theorem copyDown_inside (hsd : s ≤ d) (hj : j < n) : copyDown mem d s n (d + j) = mem (s + j) := by
  induction n generalizing mem with
  | zero => omega
  | succ n ih =>
    rw [copyDown]
    by_cases hjn : j = n
    · rw [hjn, copyDown_of_outside (.inr (Nat.le_refl _)), update_self]
    · rw [ih (by omega), update_of_ne (by omega)]

/-- So does an ascending copy to a lower address. -/
theorem copyUp_inside (hds : d ≤ s) (hj : j < n) : copyUp mem d s n (d + j) = mem (s + j) := by
  induction n generalizing mem d s j with
  | zero => omega
  | succ n ih =>
    rw [copyUp]
    cases j with
    | zero =>
      rw [copyUp_of_outside (by omega)]
      exact update_self ..
    | succ j =>
      rw [Nat.add_comm j, ← Nat.add_assoc, ← Nat.add_assoc, ih (by omega) (by omega)]
      exact update_of_ne (by omega) _ _

/-- In an ascending copy to a higher address each byte becomes equal to one that may have been
stored before. -/
theorem copyUp_above (hsd : s < d) (hj : j < n) : copyUp mem d s n (d + j) = copyUp mem d s n (s + j) := by
  induction n generalizing mem d s j with
  | zero => omega
  | succ n ih =>
    rw [copyUp]
    cases j with
    | zero =>
      rw [copyUp_of_outside (by omega), copyUp_of_outside (by omega)]
      exact (update_self ..).trans (update_of_ne (by omega) _ _).symm
    | succ j =>
      rw [Nat.add_comm j, ← Nat.add_assoc, ← Nat.add_assoc]
      exact ih (by omega) (by omega)

/-- An ascending copy moves the bytes unless it stores other bytes to the source before it reads
them. -/
theorem copyUp_eq_moved_iff : copyUp mem d s n = moved mem d s n ↔
    d ≤ s ∨ ∀ j, d + j < s + n → mem (d + j) = mem (s + j) := by
  rw [eq_moved_iff copyUp_of_outside]
  by_cases hds : d ≤ s
  · exact iff_of_true (fun j hj => copyUp_inside hds hj) (.inl hds)
  · have hsd : s < d := by omega
    rw [or_iff_right hds]
    constructor
    · intro hin j hj
      have hnext : s + (d - s + j) = d + j := by omega
      have habove : copyUp mem d s n _ = _ := copyUp_above hsd (by omega : d - s + j < n)
      rwa [hin _ (by omega), hnext, hin j (by omega)] at habove
    · -- by induction on the position, since the byte may come from an earlier one
      intro heq j
      induction j using Nat.strongRecOn with
      | _ j ih =>
        intro hj
        rw [copyUp_above hsd hj]
        by_cases hlow : s + j < d
        · exact copyUp_of_outside (.inl hlow)
        · obtain ⟨i, hi⟩ : ∃ i, s + j = d + i := ⟨s + j - d, by omega⟩
          rw [hi, ih i (by omega) (by omega), heq i (by omega)]

theorem memmove_eq_moved (mem : Mem) (dst src n : ℕ) : memmove mem dst src n = moved mem dst src n := by
  unfold memmove
  split_ifs with hoverlap
  · exact (eq_moved_iff copyDown_of_outside).mpr fun j hj => copyDown_inside (by omega) hj
  · rw [copyUp_eq_moved_iff, or_iff_not_imp_left]
    intro hbelow j hj
    omega

/-- The `n` bytes at `src` are moved by an ascending copy. A length that is not an `int` is
negative, and nothing is copied. -/
def Ulib.Movable (mem : Mem) (dst src : ℕ) (n : BitVec 32) : Prop :=
  if 0 ≤ n.toInt then dst ≤ src ∨ ∀ j, dst + j < src + n.toNat → mem (dst + j) = mem (src + j)
  else ∀ j < n.toNat, mem (dst + j) = mem (src + j)

/-- **Moves.** `memmove` of the kernel moves every range in every memory. That of the user library does,
and so agrees with it, if and only if the bytes of the source that it stores to before it reads them
do not change by that. -/
theorem memmove_moves_iff (mem : Mem) (dst src : ℕ) (n : BitVec 32) :
    memmove mem dst src n.toNat = moved mem dst src n.toNat ∧
    (Ulib.memmove mem dst src n.toInt = moved mem dst src n.toNat ↔ Ulib.Movable mem dst src n) ∧
    (Ulib.memmove mem dst src n.toInt = memmove mem dst src n.toNat ↔ Ulib.Movable mem dst src n) := by
  have hulib : Ulib.memmove mem dst src n.toInt = moved mem dst src n.toNat ↔
      Ulib.Movable mem dst src n := by
    have hn := n.toInt_eq_toNat_cond
    rw [Ulib.memmove, Ulib.Movable]
    split_ifs with hsign
    · have hlength : n.toInt.toNat = n.toNat := by omega
      rw [hlength, copyUp_eq_moved_iff]
    · have hlength : n.toInt.toNat = 0 := by omega
      rw [hlength, copyUp, eq_moved_iff fun _ => rfl]
  have hkernel := memmove_eq_moved mem dst src n.toNat
  exact ⟨hkernel, hulib, by rw [hkernel, hulib]⟩

/-- Two bytes that are moved up by one become equal. -/
theorem ulib_memmove_spreads : memmove id 1 0 2 2 = 1 ∧ Ulib.memmove id 1 0 2 2 = 0 := by decide

end Xv6Draw
