import Mathlib.Data.List.Forall2

/-!
# Computations that may raise

Inversion and evaluation rules for code in the `Except` monad: a sequence
succeeds when each of its steps does, and so does a loop that collects results.
-/

namespace Fallible

variable {ε α β : Type}

variable {x : Except ε α} {f : α → Except ε β} {as : List α} {P : ε → Prop}

/-- A sequence succeeds when its first step does and the rest does behind it. -/
theorem bind_eq_ok {b : β} :
    x >>= f = .ok b ↔ ∃ a, x = .ok a ∧ f a = .ok b := by
  cases x with
  | error e => simp [bind, Except.bind]
  | ok a => simp [bind, Except.bind]

theorem exists_eq_ok_of_isOk (h : x.isOk = true) : ∃ a, x = .ok a := by
  cases x with
  | ok a => exact ⟨a, rfl⟩
  | error e => exact absurd h nofun

/-- A collecting loop that succeeds has succeeded on each item, in order. -/
theorem forall₂_of_mapM {bs : List β} (h : as.mapM f = .ok bs) :
    List.Forall₂ (fun a b => f a = .ok b) as bs := by
  induction as generalizing bs with
  | nil =>
    cases h
    exact List.Forall₂.nil
  | cons a as ih =>
    rw [List.mapM_cons, bind_eq_ok] at h
    obtain ⟨b, hb, hrest⟩ := h
    rw [bind_eq_ok] at hrest
    obtain ⟨cs, hcs, hpure⟩ := hrest
    cases hpure
    exact List.Forall₂.cons hb (ih hcs)

/-- A collecting loop succeeds when each item does. -/
theorem mapM_of_forall₂ {bs : List β}
    (h : List.Forall₂ (fun a b => f a = .ok b) as bs) : as.mapM f = .ok bs := by
  induction h with
  | nil => rfl
  | cons hb _ ih =>
    rw [List.mapM_cons, bind_eq_ok]
    refine ⟨_, hb, ?_⟩
    rw [bind_eq_ok]
    exact ⟨_, ih, rfl⟩

/-- Reading back a list that was written item by item. -/
theorem mapM_map {f : β → Except ε α} {g : α → β} (h : ∀ a ∈ as, f (g a) = .ok a) :
    (as.map g).mapM f = .ok as := by
  apply mapM_of_forall₂
  induction as with
  | nil => exact List.Forall₂.nil
  | cons a as ih =>
    exact List.Forall₂.cons (h a (by simp)) (ih fun b hb => h b (by simp [hb]))

/-- Every error that a computation raises is of a kind. -/
def Raises (P : ε → Prop) (x : Except ε α) : Prop := ∀ e, x = .error e → P e

theorem raises_ok (P : ε → Prop) (a : α) : Raises P (.ok a : Except ε α) := nofun

theorem raises_error {e : ε} (he : P e) : Raises P (.error e : Except ε α) := by
  intro e' heq
  rwa [← Except.error.inj heq]

theorem Raises.bind (hx : Raises P x)
    (hf : ∀ a, Raises P (f a)) : Raises P (x >>= f) := by
  cases x with
  | error e => exact raises_error (hx e rfl)
  | ok a => exact hf a

/-- The errors of a collecting loop are those of its items. -/
theorem raises_mapM (hf : ∀ a, Raises P (f a)) (as : List α) :
    Raises P (as.mapM f) := by
  induction as with
  | nil => exact raises_ok P _
  | cons a as ih =>
    rw [List.mapM_cons]
    exact (hf a).bind fun _ => ih.bind fun _ => raises_ok P _

end Fallible
