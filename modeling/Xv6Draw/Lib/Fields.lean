import Mathlib.Data.List.Infix
import Mathlib.Data.List.TakeWhile

/-!
# Fields

The maximal runs of a list between separators. Three laws determine them: separators in front
do not matter, a run in front is the first field, and the empty list has none.
-/

namespace Fields

open List

variable {α : Type*} {sep : α → Bool}

/-- The maximal runs of elements that are not separators. -/
def fields (sep : α → Bool) (cs : List α) : List (List α) :=
  (cs.splitOnP sep).filter fun run => !run.isEmpty

@[simp] theorem fields_nil : fields sep [] = [] := by
  simp [fields]

theorem fields_cons_sep {c : α} (hc : sep c = true) (cs : List α) :
    fields sep (c :: cs) = fields sep cs := by
  simp [fields, splitOnP_cons_eq_if_modifyHead, hc]

theorem fields_dropWhile (cs : List α) : fields sep (cs.dropWhile sep) = fields sep cs := by
  induction cs with
  | nil => rfl
  | cons c cs ih =>
    by_cases hc : sep c = true
    · rw [dropWhile_cons_of_pos hc, fields_cons_sep hc, ih]
    · rw [dropWhile_cons_of_neg hc]

theorem fields_run {w cs : List α} (hne : w ≠ []) (hw : ∀ c ∈ w, sep c = false)
    (hcs : ∀ c ∈ cs.head?, sep c = true) : fields sep (w ++ cs) = w :: fields sep cs := by
  cases cs with
  | nil =>
    rw [append_nil, fields, splitOnP_eq_singleton hw]
    simp [hne]
  | cons c cs =>
    have hc : sep c = true := hcs c (by simp)
    rw [fields_cons_sep hc, fields, splitOnP_append_cons_of_forall_mem hw c hc]
    simp [fields, hne]

/-- The first field of a list that does not start with a separator. -/
theorem fields_cons {c : α} (hc : sep c = false) (cs : List α) :
    fields sep (c :: cs) = (c :: cs.takeWhile fun d => !sep d) ::
      fields sep (cs.dropWhile fun d => !sep d) := by
  have hsplit : c :: cs =
      (c :: cs.takeWhile fun d => !sep d) ++ cs.dropWhile fun d => !sep d := by
    rw [cons_append, takeWhile_append_dropWhile]
  conv_lhs => rw [hsplit]
  apply fields_run
  · simp
  · intro d hd
    rcases mem_cons.mp hd with rfl | hmem
    · exact hc
    · simpa using mem_takeWhile_imp hmem
  · intro d hd
    have hstop := List.head?_dropWhile_not (fun d => !sep d) cs
    rw [Option.mem_def.mp hd] at hstop
    simpa using hstop

/-- A field grows by an element in front of it that is not a separator. -/
theorem exists_field_cons {c : α} {cs run : List α} (hrun : run ∈ fields sep cs) :
    ∃ run' ∈ fields sep (c :: cs), run <:+: run' := by
  by_cases hc : sep c = true
  · exact ⟨run, by rwa [fields_cons_sep hc], infix_rfl⟩
  · have hc' : sep c = false := by simpa using hc
    rw [fields_cons hc']
    cases cs with
    | nil => simp at hrun
    | cons d cs =>
      by_cases hd : sep d = true
      · -- the element is a field of its own
        refine ⟨run, mem_cons_of_mem _ ?_, infix_rfl⟩
        rwa [dropWhile_cons_of_neg (by simp [hd])]
      · have hd' : sep d = false := by simpa using hd
        rw [fields_cons hd', mem_cons] at hrun
        rw [takeWhile_cons_of_pos (by simp [hd']), dropWhile_cons_of_pos (by simp [hd'])]
        rcases hrun with rfl | hrest
        · exact ⟨_, mem_cons_self, (suffix_cons c _).isInfix⟩
        · exact ⟨run, mem_cons_of_mem _ hrest, infix_rfl⟩

/-- Elements next to each other that are not separators are next to each other in a field. -/
theorem exists_field_infix {x y : α} (hx : sep x = false) (hy : sep y = false) (a b : List α) :
    ∃ run ∈ fields sep (a ++ x :: y :: b), [x, y] <:+: run := by
  induction a with
  | nil =>
    rw [nil_append, fields_cons hx, takeWhile_cons_of_pos (by simp [hy])]
    exact ⟨_, mem_cons_self, [], _, rfl⟩
  | cons c a ih =>
    obtain ⟨run, hrun, hin⟩ := ih
    obtain ⟨run', hrun', hgrown⟩ := exists_field_cons (c := c) hrun
    exact ⟨run', hrun', hin.trans hgrown⟩

end Fields
