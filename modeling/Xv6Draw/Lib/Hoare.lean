import Mathlib.Tactic.Common

/-!
# Programs with state and failure

A program over a state that returns a value or fails, and the weakest precondition of
a postcondition for the values and states it returns and a condition for its
failures. There is one rule for each way to build a program, and one for each loop.
-/

namespace Hoare

variable {σ ε α β : Type}

/-- Started in a state the program returns with `Q` or fails with `E`. -/
@[irreducible] def wp (x : StateT σ (Except ε) α) (E : ε → Prop) (Q : α → σ → Prop) (s : σ) : Prop :=
  match x s with
  | .ok (a, t) => Q a t
  | .error e => E e

variable {E : ε → Prop} {Q : α → σ → Prop} {s : σ}

variable {x : StateT σ (Except ε) α} {a : α} {f : α → StateT σ (Except ε) β} {R : β → σ → Prop}
  {as : List α}

theorem wp_ok {t : σ} (h : wp x E Q s)
    (hx : x s = .ok (a, t)) : Q a t := by
  simpa [wp, hx] using h

theorem wp_error {e : ε} (h : wp x E Q s) (hx : x s = .error e) :
    E e := by
  simpa [wp, hx] using h

theorem exists_ok_of_wp (h : wp x (fun _ => False) Q s) :
    ∃ a t, x s = .ok (a, t) ∧ Q a t := by
  cases hx : x s with
  | error e => exact (wp_error h hx).elim
  | ok r => exact ⟨r.1, r.2, rfl, wp_ok h hx⟩

/-- Under a condition the program returns, and whatever it returns has a postcondition. -/
def Yields (x : StateT σ (Except ε) α) (P : Prop) (Q : α → σ → Prop) (s : σ) : Prop :=
  (P → ∃ a t, x s = .ok (a, t)) ∧ ∀ a t, x s = .ok (a, t) → Q a t

/-- A program that fails only where all failures are allowed or its condition is not met. -/
theorem yields_of_wp {P : Prop}
    (h : ∀ E : ε → Prop, (∀ e, E e) ∨ P → wp x E Q s) : Yields x P Q s := by
  refine ⟨fun hP => ?_, fun a t hx => wp_ok (h (fun _ => True) (.inl fun _ => trivial)) hx⟩
  obtain ⟨a, t, hx, -⟩ := exists_ok_of_wp (h (fun _ => False) (.inr hP))
  exact ⟨a, t, hx⟩

theorem wp_mono {R : α → σ → Prop} (h : wp x E Q s)
    (hQ : ∀ a t, Q a t → R a t) : wp x E R s := by
  unfold wp at h ⊢
  cases hx : x s with
  | error e =>
    rw [hx] at h
    exact h
  | ok r =>
    rw [hx] at h
    exact hQ _ _ h

theorem wp_and {R : α → σ → Prop} (hQ : wp x E Q s) (hR : wp x E R s) :
    wp x E (fun a t => Q a t ∧ R a t) s := by
  unfold wp at hQ hR ⊢
  cases hx : x s with
  | error e =>
    rw [hx] at hQ
    exact hQ
  | ok r =>
    rw [hx] at hQ hR
    exact ⟨hQ, hR⟩

theorem wp_pure (h : Q a s) : wp (pure a) E Q s := by
  unfold wp
  exact h

theorem wp_bind
    (h : wp x E (fun a t => wp (f a) E R t) s) : wp (x >>= f) E R s := by
  have hrun : (x >>= f) s = (x s).bind fun r => f r.1 r.2 := rfl
  unfold wp at h ⊢
  rw [hrun]
  cases hx : x s with
  | error e =>
    rw [hx] at h
    exact h
  | ok r =>
    rw [hx] at h
    exact h

theorem wp_seq (hx : wp x E Q s) (hf : ∀ a t, Q a t → wp (f a) E R t) : wp (x >>= f) E R s :=
  wp_bind (wp_mono hx hf)

/-- A program behind another, of which nothing has to be known, when failures do not matter. -/
theorem wp_skip
    (hf : ∀ a t, wp (f a) (fun _ => True) R t) : wp (x >>= f) (fun _ => True) R s := by
  apply wp_bind
  unfold wp
  cases x s with
  | error e => trivial
  | ok r =>
    have hrest := hf r.1 r.2
    unfold wp at hrest
    exact hrest

theorem wp_get {Q : σ → σ → Prop} (h : Q s s) : wp (get : StateT σ (Except ε) σ) E Q s := by
  unfold wp
  exact h

theorem wp_modify {f : σ → σ} {Q : PUnit → σ → Prop} (h : Q ⟨⟩ (f s)) :
    wp (modify f : StateT σ (Except ε) PUnit) E Q s := by
  unfold wp
  exact h

theorem wp_throw {e : ε} (h : E e) : wp (throw e : StateT σ (Except ε) α) E Q s := by
  unfold wp
  exact h

theorem wp_ite {c : Prop} [Decidable c] {y : StateT σ (Except ε) α} (hx : c → wp x E Q s)
    (hy : ¬ c → wp y E Q s) : wp (if c then x else y) E Q s := by
  split_ifs with hc
  · exact hx hc
  · exact hy hc

theorem wp_forM {f : α → StateT σ (Except ε) PUnit} {I : List α → σ → Prop}
    (hf : ∀ a as s, I (a :: as) s → wp (f a) E (fun _ => I as) s) (h : I as s) :
    wp (as.forM f) E (fun _ => I []) s := by
  induction as generalizing s with
  | nil => exact wp_pure h
  | cons a as ih => exact wp_seq (hf a as s h) fun _ t ht => ih ht

/-- A loop that counts. -/
theorem wp_forM_range {f : ℕ → StateT σ (Except ε) PUnit} {I : ℕ → σ → Prop} {n : ℕ}
    (hf : ∀ m < n, ∀ s, I m s → wp (f m) E (fun _ => I (m + 1)) s) (h : I 0 s) :
    wp ((List.range n).forM f) E (fun _ => I n) s := by
  have hloop : ∀ d m s, m + d = n → I m s → wp ((List.range' m d).forM f) E (fun _ => I n) s := by
    intro d
    induction d with
    | zero =>
      rintro m s rfl hI
      exact wp_pure hI
    | succ d ih =>
      intro m s hm hI
      exact wp_seq (hf m (by omega) s hI) fun _ t ht => ih (m + 1) t (by omega) ht
  rw [List.range_eq_range']
  exact hloop n 0 s (Nat.zero_add n) h

/-- A search through a list: the invariant holds before every element that is looked
at, and with nothing left when nothing is found. -/
theorem wp_findSomeM {f : α → StateT σ (Except ε) (Option β)} {I : List α → σ → Prop}
    {R : Option β → σ → Prop} (hf : ∀ a as s, I (a :: as) s →
      wp (f a) E (fun r t => (∀ b, r = some b → R (some b) t) ∧ (r = none → I as t)) s)
    (hnone : ∀ t, I [] t → R none t) (h : I as s) : wp (as.findSomeM? f) E R s := by
  induction as generalizing s with
  | nil => exact wp_pure (hnone s h)
  | cons a as ih =>
    rw [List.findSomeM?]
    refine wp_seq (hf a as s h) ?_
    rintro (_ | b) t ⟨hfound, hnext⟩
    · exact ih (hnext rfl)
    · exact wp_pure (hfound b rfl)

/-! ### Programs that leave a part of the state alone -/

variable {γ : Type}

/-- When the program returns, what is seen of the state has not changed. -/
def Keeps (g : σ → γ) (x : StateT σ (Except ε) α) : Prop :=
  ∀ s, wp x (fun _ => True) (fun _ t => g t = g s) s

variable {g : σ → γ}

theorem Keeps.eq_of_ok (h : Keeps g x) {t : σ}
    (hx : x s = .ok (a, t)) : g t = g s := by
  have hs := h s
  exact wp_ok (Q := fun _ u => g u = g s) hs hx

theorem keeps_pure (a : α) : Keeps g (pure a : StateT σ (Except ε) α) := fun _ => wp_pure rfl

theorem keeps_throw (e : ε) : Keeps g (throw e : StateT σ (Except ε) α) := fun _ => wp_throw trivial

theorem keeps_get : Keeps g (get : StateT σ (Except ε) σ) := fun _ => wp_get rfl

theorem keeps_modify {f : σ → σ} (h : ∀ s, g (f s) = g s) :
    Keeps g (modify f : StateT σ (Except ε) PUnit) := fun s => wp_modify (h s)

theorem Keeps.bind (hx : Keeps g x)
    (hf : ∀ a, Keeps g (f a)) : Keeps g (x >>= f) := by
  intro s
  refine wp_seq (hx s) ?_
  intro a t ht
  refine wp_mono (hf a t) ?_
  intro b u hu
  exact hu.trans ht

theorem keeps_ite {c : Prop} [Decidable c] {y : StateT σ (Except ε) α} (hx : Keeps g x)
    (hy : Keeps g y) : Keeps g (if c then x else y) :=
  fun s => wp_ite (fun _ => hx s) fun _ => hy s

theorem keeps_forM {f : α → StateT σ (Except ε) PUnit} (hf : ∀ a, Keeps g (f a)) :
    Keeps g (as.forM f) := by
  intro s
  refine wp_forM (I := fun _ t => g t = g s) ?_ rfl
  intro a _ t ht
  refine wp_mono (hf a t) ?_
  intro _ u hu
  exact hu.trans ht

end Hoare
