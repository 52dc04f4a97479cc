import Mathlib.Tactic.Common
import Mathlib.Data.Int.Notation

/-!
# Loops

`while` loops as functions with a bound on the number of passes, where `none`
means that the bound was too small, and counting loops as folds over an integer
interval. The rules are those of total correctness: an invariant that every pass
keeps and a measure that every pass lowers give a result, and the invariant and
the exit condition hold of it.
-/

namespace Loop

variable {σ α : Type*}

/-- A `while` loop of at most `n` passes. -/
def whileLoop (cond : σ → Bool) (body : σ → σ) : ℕ → σ → Option σ
  | 0, s => if cond s then none else some s
  | n + 1, s => if cond s then whileLoop cond body n (body s) else some s

variable {cond : σ → Bool} {body : σ → σ} {I : σ → Prop} {n : ℕ} {s : σ}

/-- Total correctness of a `while` loop. -/
theorem whileLoop_rule {m : σ → ℕ} (hbody : ∀ s, I s → cond s = true → I (body s) ∧ m (body s) < m s)
    (hs : I s) (hn : m s ≤ n) :
    ∃ t, whileLoop cond body n s = some t ∧ I t ∧ cond t = false := by
  induction n generalizing s with
  | zero =>
    cases hcond : cond s with
    | false => exact ⟨s, by simp [whileLoop, hcond], hs, hcond⟩
    | true =>
      have hless := (hbody s hs hcond).2
      omega
  | succ n ih =>
    cases hcond : cond s with
    | false => exact ⟨s, by simp [whileLoop, hcond], hs, hcond⟩
    | true =>
      obtain ⟨hkeep, hless⟩ := hbody s hs hcond
      obtain ⟨t, hloop, ht⟩ := ih hkeep (by omega)
      exact ⟨t, by simp [whileLoop, hcond, hloop], ht⟩

/-- A loop that has ended needs no more passes. -/
theorem whileLoop_mono {m : ℕ} {t : σ}
    (h : whileLoop cond body n s = some t) (hnm : n ≤ m) : whileLoop cond body m s = some t := by
  induction n generalizing m s with
  | zero =>
    rw [whileLoop] at h
    split_ifs at h with hcond
    cases m with
    | zero => rwa [whileLoop, if_neg hcond]
    | succ m => rwa [whileLoop, if_neg hcond]
  | succ n ih =>
    obtain ⟨k, rfl⟩ : ∃ k, m = k + 1 := ⟨m - 1, by omega⟩
    rw [whileLoop] at h ⊢
    split_ifs at h ⊢ with hcond
    · exact ih h (by omega)
    · exact h

/-- Two `while` loops whose passes agree as long as an invariant holds. -/
theorem whileLoop_congr {body' : σ → σ}
    (hbody : ∀ s, I s → cond s = true → I (body s) ∧ body' s = body s) (hs : I s) (n : ℕ) :
    whileLoop cond body' n s = whileLoop cond body n s := by
  induction n generalizing s with
  | zero => rfl
  | succ n ih =>
    rw [whileLoop, whileLoop]
    split_ifs with hcond
    · obtain ⟨hkeep, heq⟩ := hbody s hs hcond
      rw [heq]
      exact ih hkeep
    · rfl

/-- Two `while` loops in step: a relation that the conditions respect and the passes
keep relates the results. -/
theorem whileLoop_sim {τ : Type*} {c : τ → Bool} {b : τ → τ}
    {R : σ → τ → Prop} (hcond : ∀ s t, R s t → cond s = c t)
    (hbody : ∀ s t, R s t → R (body s) (b t)) {s' : σ} {t : τ} (h : R s t)
    (hloop : whileLoop cond body n s = some s') :
    ∃ t', whileLoop c b n t = some t' ∧ R s' t' := by
  induction n generalizing s t with
  | zero =>
    rw [whileLoop, hcond s t h] at hloop
    split_ifs at hloop with hend
    cases hloop
    exact ⟨t, by rw [whileLoop, if_neg hend], h⟩
  | succ n ih =>
    rw [whileLoop, hcond s t h] at hloop
    rw [whileLoop]
    split_ifs at hloop ⊢ with hend
    · exact ih (hbody s t h) hloop
    · cases hloop
      exact ⟨t, rfl, h⟩

/-- The integers from `lo` to `hi`, as `for (i = lo; i <= hi; i++)` visits them. -/
def upTo (lo hi : ℤ) : List ℤ := (List.range (hi + 1 - lo).toNat).map fun k : ℕ => lo + k

theorem mem_upTo {lo hi i : ℤ} : i ∈ upTo lo hi ↔ lo ≤ i ∧ i ≤ hi := by
  simp only [upTo, List.mem_map, List.mem_range]
  constructor
  · rintro ⟨k, hk, rfl⟩
    omega
  · rintro ⟨hlo, hhi⟩
    exact ⟨(i - lo).toNat, by omega, by omega⟩

/-- An invariant of the passes of a fold holds at its end. -/
theorem foldl_rule {f : σ → α → σ} {as : List α}
    (hf : ∀ s, ∀ a ∈ as, I s → I (f s a)) (hs : I s) : I (as.foldl f s) := by
  induction as generalizing s with
  | nil => exact hs
  | cons a as ih =>
    exact ih (fun t b hb => hf t b (by simp [hb])) (hf s a (by simp) hs)

/-- A counting loop with an invariant that depends on the counter. -/
theorem foldl_range'_rule {f : σ → ℕ → σ} {I : ℕ → σ → Prop} {a : ℕ}
    (hf : ∀ s k, a ≤ k → k < a + n → I k s → I (k + 1) (f s k)) (hs : I a s) :
    I (a + n) ((List.range' a n).foldl f s) := by
  induction n generalizing a s with
  | zero => exact hs
  | succ n ih =>
    rw [List.range'_succ, List.foldl_cons, Nat.add_succ, ← Nat.succ_add]
    refine ih ?_ (hf s a (Nat.le_refl a) (by omega) hs)
    intro t k hk hlt
    exact hf t k (by omega) (by omega)

/-- Passes that all succeed and keep an invariant make a fold succeed. -/
theorem foldlM_rule {f : σ → α → Option σ} {as : List α}
    (hf : ∀ s, ∀ a ∈ as, I s → ∃ t, f s a = some t ∧ I t) (hs : I s) :
    ∃ t, as.foldlM f s = some t ∧ I t := by
  induction as generalizing s with
  | nil => exact ⟨s, rfl, hs⟩
  | cons a as ih =>
    obtain ⟨t, hpass, ht⟩ := hf s a (by simp) hs
    obtain ⟨r, hrest, hr⟩ := ih (fun t b hb => hf t b (by simp [hb])) ht
    refine ⟨r, ?_, hr⟩
    rw [List.foldlM_cons, hpass]
    exact hrest

end Loop
