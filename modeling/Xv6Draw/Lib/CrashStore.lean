import Mathlib.Data.Set.Basic
import Mathlib.Tactic.Common

/-!
# Crash-safe stores and redo logs

A store with transactions that survive crashes, as its users see it, and the
argument behind a redo log that implements one. The log lists the places that a
transaction changes; from some entry on they still have to be installed. Every
other place is settled: the medium holds there what the store holds. Installing
an entry moves the boundary, and once it has passed the end everything is settled.
-/

namespace CrashStore

open Function

variable {ι α : Type*}

/-- The contents after the latest commit, after the commits before it, and with
the writes that are not committed yet. -/
structure Store (ι α : Type*) where
  /-- The contents after the latest commit. -/
  latest : ι → α
  /-- The contents after each earlier commit, and at the start. -/
  earlier : List (ι → α)
  /-- The contents with the writes behind the latest commit. -/
  current : ι → α

/-- What can happen to a store. -/
inductive Op (ι α : Type*) where
  | write (a : ι) (v : α)
  | commit
  | crash

namespace Store

/-- A fresh store. -/
def init (d : ι → α) : Store ι α := ⟨d, [], d⟩

/-- The contents after each commit, latest first. -/
def committed (s : Store ι α) : List (ι → α) := s.latest :: s.earlier

/-- A commit makes the current contents permanent, and a crash loses what was
written behind the latest commit. -/
def apply [DecidableEq ι] (s : Store ι α) : Op ι α → Store ι α
  | .write a v => { s with current := update s.current a v }
  | .commit => { s with latest := s.current, earlier := s.latest :: s.earlier }
  | .crash => { s with current := s.latest }

end Store

/-- Outside the targets of the log entries from `i` on, of which there are `n` in
all, medium and store agree. -/
def Settled (home : Set ι) (target : ℕ → ι) (i n : ℕ) (d v : ι → α) : Prop :=
  ∀ b ∈ home, (∀ j, i ≤ j → j < n → target j ≠ b) → d b = v b

variable {home : Set ι} {target : ℕ → ι} {i n : ℕ} {d v : ι → α}

theorem Settled.all
    (h : Settled home target i n d v) (hi : n ≤ i) : ∀ b ∈ home, d b = v b := by
  intro b hb
  apply h b hb
  intro j hij hjn
  omega

theorem settled_of_eq (h : ∀ b ∈ home, d b = v b) (target : ℕ → ι)
    (i n : ℕ) : Settled home target i n d v :=
  fun b hb _ => h b hb

/-- Only the contents of home places matter, and the targets still to install. -/
theorem Settled.congr {target' : ℕ → ι} {d' v' : ι → α}
    (h : Settled home target i n d v) (htarget : ∀ j < n, target' j = target j)
    (hd : ∀ b ∈ home, d' b = d b) (hv : ∀ b ∈ home, v' b = v b) :
    Settled home target' i n d' v' := by
  intro b hb houtside
  rw [hd b hb, hv b hb]
  apply h b hb
  intro j hij hjn
  rw [← htarget j hjn]
  exact houtside j hij hjn

/-- A write to a place that the log lists, or comes to list. -/
theorem Settled.write [DecidableEq ι] {target' : ℕ → ι} {n' : ℕ} (h : Settled home target i n d v)
    {b : ι} {x : α} (hn : n ≤ n')
    (htarget : ∀ j < n, target' j = target j) (hb : ∃ j, i ≤ j ∧ j < n' ∧ target' j = b) :
    Settled home target' i n' d (update v b x) := by
  intro c hc houtside
  obtain ⟨j, hij, hjn, hj⟩ := hb
  have hcb : c ≠ b := by
    rintro rfl
    exact houtside j hij hjn hj
  rw [update_of_ne hcb]
  apply h c hc
  intro k hik hkn
  rw [← htarget k hkn]
  exact houtside k hik (by omega)

theorem Settled.install [DecidableEq ι]
    (h : Settled home target i n d v) {x : α} (hx : x = v (target i)) :
    Settled home target (i + 1) n (update d (target i) x) v := by
  intro b hb houtside
  by_cases hbi : b = target i
  · rw [hbi, update_self, hx]
  · rw [update_of_ne hbi]
    apply h b hb
    intro j hij hjn
    rcases Nat.eq_or_lt_of_le hij with rfl | hlt
    · exact fun heq => hbi heq.symm
    · exact houtside j hlt hjn

end CrashStore
