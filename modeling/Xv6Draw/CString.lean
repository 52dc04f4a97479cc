import Mathlib.Data.List.Basic
import Mathlib.Data.Int.Notation

/-!
# Characters and C strings

Characters of C and of Python are numbers here, bytes below 256 on the C side and
code points on the Python side. A C string is the list of the characters before
its terminating NUL. `strncmp` is the loop of `string.c` and `ulib.c`, and
`streq` is the comparison of protocol markers in `ai.c`.
-/

namespace Xv6Draw

/-- The characters of a literal. -/
def str (s : String) : List ℕ := s.toList.map Char.toNat

theorem str_ofList (cs : List Char) : str (String.ofList cs) = cs.map Char.toNat := by
  rw [str, String.toList_ofList]

/-- The characters before the first NUL. -/
def untilNul (cs : List ℕ) : List ℕ := cs.takeWhile (· ≠ 0)

/-- The C string that starts an array of the given size. Its length is what
`strlen` returns. -/
def cstring (cap : ℕ) (a : ℕ → ℕ) : List ℕ := untilNul ((List.range cap).map a)

/-- `strncmp`: past the end of a string the terminating NUL is read. -/
def strncmp : List ℕ → List ℕ → ℕ → ℤ
  | _, _, 0 => 0
  | p, q, n + 1 =>
    if p.headD 0 ≠ 0 ∧ p.headD 0 = q.headD 0 then strncmp p.tail q.tail n
    else (p.headD 0 : ℤ) - q.headD 0

/-- `streq`. -/
def streq (lhs rhs : List ℕ) : Bool :=
  if lhs.length ≠ rhs.length then false else strncmp lhs rhs lhs.length == 0

theorem strncmp_cons (a b : ℕ) (p q : List ℕ) (n : ℕ) : strncmp (a :: p) (b :: q) (n + 1) =
      if a ≠ 0 ∧ a = b then strncmp p q n else (a : ℤ) - b := rfl

/-- On strings, which hold no NUL, `strncmp` over the first `n` characters of
the second string asks whether it is a prefix of the first. -/
theorem strncmp_eq_zero_iff {p q : List ℕ} (hq : 0 ∉ q) :
    strncmp p q q.length = 0 ↔ q <+: p := by
  induction q generalizing p with
  | nil => simp [strncmp]
  | cons b q ih =>
    have hb : b ≠ 0 := fun h => hq (by simp [h])
    have hrest : 0 ∉ q := fun h => hq (by simp [h])
    cases p with
    | nil => simp [strncmp, hb]
    | cons a p =>
      rw [List.length_cons, strncmp_cons, List.cons_prefix_cons]
      by_cases hab : a = b
      · subst a
        rw [if_pos ⟨hb, rfl⟩, ih hrest]
        simp
      · rw [if_neg (fun h => hab h.2)]
        have hne : (a : ℤ) - b ≠ 0 := by omega
        simp only [hne, false_iff]
        exact fun h => hab h.1.symm

/-- `strncmp` compares the first characters before the NUL. -/
theorem strncmp_eq_zero_iff_take {p q : List ℕ} {n : ℕ} :
    strncmp p q n = 0 ↔ (untilNul p).take n = (untilNul q).take n := by
  induction n generalizing p q with
  | zero => simp [strncmp]
  | succ n ih =>
    have hsplit : ∀ {l : List ℕ}, (untilNul l).take (n + 1) =
        if l.headD 0 = 0 then [] else l.headD 0 :: (untilNul l.tail).take n := by
      intro l
      cases l with
      | nil => rfl
      | cons c cs =>
        by_cases hc : c = 0
        · simp [untilNul, hc]
        · simp [untilNul, hc]
    rw [strncmp, hsplit, hsplit]
    generalize p.headD 0 = a
    generalize q.headD 0 = b
    by_cases ha : a = 0
    · rw [if_neg (fun h => h.1 ha), if_pos ha]
      split_ifs with hb
      · exact iff_of_true (by omega) rfl
      · exact iff_of_false (by omega) nofun
    · by_cases hab : a = b
      · rw [if_pos ⟨ha, hab⟩, ih, if_neg ha, if_neg (hab ▸ ha), hab, List.cons_inj_right]
      · rw [if_neg (fun h => hab h.2), if_neg ha]
        refine iff_of_false (by omega) fun heq => hab ?_
        split_ifs at heq
        exact (List.cons.inj heq).1

/-- `streq` decides equality of C strings. -/
theorem streq_iff {p q : List ℕ} (hq : 0 ∉ q) : streq p q = true ↔ p = q := by
  unfold streq
  by_cases hlen : p.length = q.length
  · rw [if_neg (by simpa using hlen), hlen, beq_iff_eq, strncmp_eq_zero_iff hq]
    constructor
    · intro hpre
      exact (hpre.eq_of_length hlen.symm).symm
    · rintro rfl
      exact List.prefix_refl _
  · rw [if_pos (by simpa using hlen)]
    simp only [Bool.false_eq_true, false_iff]
    rintro rfl
    exact hlen rfl

theorem untilNul_cons_of_ne {c : ℕ} (hc : c ≠ 0) (cs : List ℕ) :
    untilNul (c :: cs) = c :: untilNul cs :=
  List.takeWhile_cons_of_pos (by simpa using hc)

theorem untilNul_of_not_mem {cs : List ℕ} (h : 0 ∉ cs) : untilNul cs = cs := by
  induction cs with
  | nil => rfl
  | cons c cs ih =>
    have hc : c ≠ 0 := fun heq => h (by simp [heq])
    have hcs : 0 ∉ cs := fun hmem => h (by simp [hmem])
    rw [untilNul_cons_of_ne hc, ih hcs]

theorem untilNul_append_nul (cs ds : List ℕ) : untilNul (cs ++ 0 :: ds) = untilNul cs := by
  induction cs with
  | nil => rfl
  | cons c cs ih =>
    by_cases hc : c = 0
    · subst c
      rfl
    · rw [List.cons_append, untilNul_cons_of_ne hc, untilNul_cons_of_ne hc, ih]

end Xv6Draw
