import Mathlib.Data.List.Basic
import Mathlib.Data.List.Induction

/-!
# Lines of a stream

A stream over any alphabet is cut at a separator into complete lines and an
unfinished rest. `lines` and `unlines` are inverse to each other on lines
without separator, and the lines of a growing stream change by one symbol at a
time, which is what a receiver with a line buffer follows.
-/

namespace Lines

open List

variable {α : Type*} [DecidableEq α]

/-- The complete lines of a stream, without their separators, and the
unfinished line after the last separator. -/
def lines (sep : α) : List α → List (List α) × List α
  | [] => ([], [])
  | a :: as =>
    if a = sep then ([] :: (lines sep as).1, (lines sep as).2)
    else match lines sep as with
      | ([], rest) => ([], a :: rest)
      | (l :: ls, rest) => ((a :: l) :: ls, rest)

omit [DecidableEq α] in
/-- Lines written out, each followed by the separator. -/
def unlines (sep : α) (ls : List (List α)) : List α := ls.flatMap (· ++ [sep])

omit [DecidableEq α] in
@[simp] theorem unlines_nil (sep : α) : unlines sep [] = [] := rfl

omit [DecidableEq α] in
@[simp] theorem unlines_cons (sep : α) (l : List α) (ls : List (List α)) :
    unlines sep (l :: ls) = l ++ sep :: unlines sep ls := by
  simp [unlines]

omit [DecidableEq α] in
@[simp] theorem unlines_append (sep : α) (ls ms : List (List α)) :
    unlines sep (ls ++ ms) = unlines sep ls ++ unlines sep ms := by
  simp [unlines]

/-- Cutting loses nothing: the lines and the rest make up the stream. -/
theorem unlines_lines (sep : α) (as : List α) :
    unlines sep (lines sep as).1 ++ (lines sep as).2 = as := by
  induction as with
  | nil => rfl
  | cons a as ih =>
    by_cases ha : a = sep
    · subst a
      simp only [lines, if_true, unlines_cons, nil_append, cons_append, ih]
    · rcases hl : lines sep as with ⟨_ | ⟨l, ls⟩, rest⟩
      · rw [hl] at ih
        simp only [unlines_nil, nil_append] at ih
        simp only [lines, if_neg ha, hl, unlines_nil, nil_append, ih]
      · rw [hl] at ih
        simp only [unlines_cons, append_assoc, cons_append] at ih
        simp only [lines, if_neg ha, hl, unlines_cons, cons_append, append_assoc, ih]

/-- No line holds the separator. -/
theorem sep_not_mem_lines (sep : α) (as : List α) :
    (∀ l ∈ (lines sep as).1, sep ∉ l) ∧ sep ∉ (lines sep as).2 := by
  induction as with
  | nil => simp [lines]
  | cons a as ih =>
    by_cases ha : a = sep
    · simpa only [lines, if_pos ha, forall_mem_cons, not_mem_nil, not_false_eq_true, true_and] using ih
    · rcases hl : lines sep as with ⟨_ | ⟨l, ls⟩, rest⟩
      · rw [hl] at ih
        simp only [lines, if_neg ha, hl, mem_cons, not_or]
        exact ⟨by simp, fun h => ha h.symm, ih.2⟩
      · rw [hl, forall_mem_cons] at ih
        have hfirst : sep ∉ a :: l := by
          rw [mem_cons, not_or]
          exact ⟨fun h => ha h.symm, ih.1.1⟩
        simp only [lines, if_neg ha, hl]
        exact ⟨forall_mem_cons.mpr ⟨hfirst, ih.1.2⟩, ih.2⟩

theorem lines_append_cons {sep : α} {l : List α} (h : sep ∉ l) (as : List α) :
    lines sep (l ++ sep :: as) = (l :: (lines sep as).1, (lines sep as).2) := by
  induction l with
  | nil => simp [lines]
  | cons a l ih =>
    have ha : a ≠ sep := fun heq => h (by simp [heq])
    have hl : sep ∉ l := fun hmem => h (by simp [hmem])
    simp only [cons_append, lines, if_neg ha, ih hl]

/-- Without a separator there is one unfinished line. -/
theorem lines_of_not_mem {sep : α} {as : List α} (h : sep ∉ as) : lines sep as = ([], as) := by
  induction as with
  | nil => rfl
  | cons a as ih =>
    rw [mem_cons, not_or] at h
    simp only [lines, if_neg (Ne.symm h.1), ih h.2]

/-- Lines written out and cut again are the same lines. -/
theorem lines_unlines_append {sep : α} {ls : List (List α)} (h : ∀ l ∈ ls, sep ∉ l) (as : List α) :
    lines sep (unlines sep ls ++ as) = (ls ++ (lines sep as).1, (lines sep as).2) := by
  induction ls with
  | nil => rfl
  | cons l ls ih =>
    have hl : sep ∉ l := h l (by simp)
    have hls : ∀ m ∈ ls, sep ∉ m := fun m hm => h m (by simp [hm])
    simp only [unlines_cons, append_assoc, cons_append, lines_append_cons hl, ih hls]

theorem lines_append (sep : α) (as bs : List α) : lines sep (as ++ bs) =
    ((lines sep as).1 ++ (lines sep ((lines sep as).2 ++ bs)).1, (lines sep ((lines sep as).2 ++ bs)).2) := by
  conv_lhs => rw [← unlines_lines sep as]
  rw [append_assoc, lines_unlines_append (sep_not_mem_lines sep as).1]

theorem lines_append_sep (sep : α) (as : List α) :
    lines sep (as ++ [sep]) = ((lines sep as).1 ++ [(lines sep as).2], []) := by
  rw [lines_append, lines_append_cons (sep_not_mem_lines sep as).2]
  rfl

/-- Any other symbol extends the unfinished line. -/
theorem lines_append_of_ne {sep a : α} (ha : a ≠ sep) (as : List α) :
    lines sep (as ++ [a]) = ((lines sep as).1, (lines sep as).2 ++ [a]) := by
  have hrest : sep ∉ (lines sep as).2 ++ [a] := by
    rw [mem_append, mem_singleton, not_or]
    exact ⟨(sep_not_mem_lines sep as).2, Ne.symm ha⟩
  rw [lines_append, lines_of_not_mem hrest, append_nil]

theorem lines_prefix_append (sep : α) (as bs : List α) :
    (lines sep as).1 <+: (lines sep (as ++ bs)).1 := by
  rw [lines_append]
  exact prefix_append _ _

end Lines
