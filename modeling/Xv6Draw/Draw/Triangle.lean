import Xv6Draw.Draw.Plane
import Mathlib.Algebra.BigOperators.Fin
import Mathlib.Algebra.Order.Field.Basic

/-!
# Filled triangles

`canvas_filltriangle` tests every point of the bounding box with three edge functions. Each is
twice the signed area of the triangle of the point and one edge. Divided by the area of the
whole triangle they are the weights of the corners in the point, so their signs decide whether
the point is a convex combination of the corners, for either orientation.
-/

namespace Xv6Draw

open Loop

/-- The three corners lie on one line. -/
def OnOneLine (v : Fin 3 → Point) : Prop :=
  ∃ a b c : ℤ, (a ≠ 0 ∨ b ≠ 0) ∧ ∀ i, a * (v i).1 + b * (v i).2 = c

/-- The point is a convex combination of the three corners. -/
def InClosedTriangle (v : Fin 3 → Point) (p : Point) : Prop :=
  ∃ w : Fin 3 → ℚ, (∀ i, 0 ≤ w i) ∧ ∑ i, w i = 1 ∧
    ∑ i, w i * (v i).1 = p.1 ∧ ∑ i, w i * (v i).2 = p.2

/-- The order of the corners does not matter for the line. -/
theorem OnOneLine.of_comp {v : Fin 3 → Point} {σ : Equiv.Perm (Fin 3)} (h : OnOneLine (v ∘ σ)) :
    OnOneLine v := by
  obtain ⟨a, b, c, hne, hline⟩ := h
  refine ⟨a, b, c, hne, ?_⟩
  intro i
  have hi := hline (σ.symm i)
  rwa [Function.comp_apply, Equiv.apply_symm_apply] at hi

/-- The order of the corners does not matter for the triangle. -/
theorem InClosedTriangle.comp {v : Fin 3 → Point} {p : Point} (h : InClosedTriangle v p)
    (σ : Equiv.Perm (Fin 3)) : InClosedTriangle (v ∘ σ) p := by
  obtain ⟨w, hw, hone, hx, hy⟩ := h
  refine ⟨w ∘ σ, fun i => hw (σ i), ?_, ?_, ?_⟩
  · rw [← hone]
    exact Equiv.sum_comp σ w
  · rw [← hx]
    exact Equiv.sum_comp σ fun i => w i * (v i).1
  · rw [← hy]
    exact Equiv.sum_comp σ fun i => w i * (v i).2

/-- A triangle and the triangle of its corners in another order. -/
theorem inClosedTriangle_comp {v : Fin 3 → Point} {σ : Equiv.Perm (Fin 3)} {p : Point} :
    InClosedTriangle (v ∘ σ) p ↔ InClosedTriangle v p := by
  constructor
  · intro h
    have hback := h.comp σ.symm
    rwa [Function.comp_assoc, Equiv.self_comp_symm, Function.comp_id] at hback
  · intro h
    exact h.comp σ

section

variable {x1 y1 x2 y2 x3 y3 : ℤ}

/-- Corners that are not on one line span an area. -/
theorem area_ne_zero (h : ¬ OnOneLine ![(x1, y1), (x2, y2), (x3, y3)]) :
    edgeFunction x1 y1 x2 y2 x3 y3 ≠ 0 := by
  intro harea
  unfold edgeFunction at harea
  apply h
  simp only [OnOneLine, Fin.forall_fin_succ, IsEmpty.forall_iff, and_true, Matrix.cons_val_zero,
    Matrix.cons_val_succ]
  -- the line through the first corner and one that differs from it
  by_cases hfirst : x2 = x1 ∧ y2 = y1
  · by_cases hsecond : x3 = x1 ∧ y3 = y1
    · exact ⟨1, 0, x1, by omega, by omega, by omega, by omega⟩
    · obtain ⟨rfl, rfl⟩ := hfirst
      exact ⟨y3 - y2, x2 - x3, (y3 - y2) * x2 + (x2 - x3) * y2, by omega, rfl, rfl, by ring⟩
  · exact ⟨y2 - y1, x1 - x2, (y2 - y1) * x1 + (x1 - x2) * y1, by omega, rfl, by ring,
      by linarith⟩

/-- The convex combinations of three corners, written out. -/
theorem inClosedTriangle_iff {p : Point} :
    InClosedTriangle ![(x1, y1), (x2, y2), (x3, y3)] p ↔ ∃ a b c : ℚ, 0 ≤ a ∧ 0 ≤ b ∧ 0 ≤ c ∧
      a + b + c = 1 ∧ a * x1 + b * x2 + c * x3 = p.1 ∧ a * y1 + b * y2 + c * y3 = p.2 := by
  simp only [InClosedTriangle, Fin.forall_fin_succ, Fin.forall_fin_zero, Fin.sum_univ_three,
    Matrix.cons_val]
  constructor
  · rintro ⟨w, ⟨ha, hb, hc, -⟩, hsum⟩
    exact ⟨w 0, w 1, w 2, ha, hb, hc, hsum⟩
  · rintro ⟨a, b, c, ha, hb, hc, hsum⟩
    exact ⟨![a, b, c], ⟨ha, hb, hc, trivial⟩, hsum⟩

/-- The edge functions of a point are its weights, scaled by the area. -/
theorem edgeFunction_of_weights {a b c : ℚ} {p : Point} (hone : a + b + c = 1)
    (hx : a * x1 + b * x2 + c * x3 = p.1) (hy : a * y1 + b * y2 + c * y3 = p.2) :
    (edgeFunction x2 y2 x3 y3 p.1 p.2 : ℚ) = a * edgeFunction x1 y1 x2 y2 x3 y3 ∧
      (edgeFunction x3 y3 x1 y1 p.1 p.2 : ℚ) = b * edgeFunction x1 y1 x2 y2 x3 y3 ∧
      (edgeFunction x1 y1 x2 y2 p.1 p.2 : ℚ) = c * edgeFunction x1 y1 x2 y2 x3 y3 := by
  obtain rfl : a = 1 - b - c := by linarith
  unfold edgeFunction
  push_cast
  rw [← hx, ← hy]
  exact ⟨by ring, by ring, by ring⟩

/-- The weights of a point from its edge functions. -/
theorem weights_of_edgeFunction (harea : edgeFunction x1 y1 x2 y2 x3 y3 ≠ 0) (p : Point) :
    let area : ℚ := edgeFunction x1 y1 x2 y2 x3 y3
    let a := edgeFunction x2 y2 x3 y3 p.1 p.2 / area
    let b := edgeFunction x3 y3 x1 y1 p.1 p.2 / area
    let c := edgeFunction x1 y1 x2 y2 p.1 p.2 / area
    a + b + c = 1 ∧ a * x1 + b * x2 + c * x3 = p.1 ∧ a * y1 + b * y2 + c * y3 = p.2 := by
  intro area a b c
  have hne : area ≠ 0 := Int.cast_ne_zero.mpr harea
  refine ⟨?_, ?_, ?_⟩
  · rw [← add_div, ← add_div, div_eq_one_iff_eq hne]
    simp only [area, edgeFunction]
    push_cast
    ring
  · rw [div_mul_eq_mul_div, div_mul_eq_mul_div, div_mul_eq_mul_div, ← add_div, ← add_div,
      div_eq_iff hne]
    simp only [area, edgeFunction]
    push_cast
    ring
  · rw [div_mul_eq_mul_div, div_mul_eq_mul_div, div_mul_eq_mul_div, ← add_div, ← add_div,
      div_eq_iff hne]
    simp only [area, edgeFunction]
    push_cast
    ring

/-- The test on a point decides whether it lies in the triangle. -/
theorem inTriangle_iff (harea : edgeFunction x1 y1 x2 y2 x3 y3 ≠ 0) (p : Point) :
    inTriangle x1 y1 x2 y2 x3 y3 p.1 p.2 = true ↔
      InClosedTriangle ![(x1, y1), (x2, y2), (x3, y3)] p := by
  rw [inClosedTriangle_iff]
  simp only [inTriangle, decide_eq_true_eq]
  constructor
  · intro h
    have hsum := weights_of_edgeFunction harea p
    refine ⟨_, _, _, ?_, ?_, ?_, hsum⟩
    all_goals
      rcases h with ⟨hpos, h₀, h₁, h₂⟩ | ⟨hneg, h₀, h₁, h₂⟩
      · exact div_nonneg (Int.cast_nonneg (by assumption)) (Int.cast_nonneg hpos.le)
      · exact div_nonneg_of_nonpos (Int.cast_nonpos.mpr (by assumption)) (Int.cast_nonpos.mpr hneg.le)
  · rintro ⟨a, b, c, ha, hb, hc, hone, hx, hy⟩
    obtain ⟨h₀, h₁, h₂⟩ := edgeFunction_of_weights hone hx hy
    -- the weights are not negative, so the edge functions have the sign of the area
    rcases lt_or_gt_of_ne harea with hneg | hpos
    · have hneg' : (edgeFunction x1 y1 x2 y2 x3 y3 : ℚ) ≤ 0 := Int.cast_nonpos.mpr hneg.le
      refine .inr ⟨hneg, ?_, ?_, ?_⟩
      · exact Int.cast_nonpos.mp (h₀ ▸ mul_nonpos_of_nonneg_of_nonpos ha hneg')
      · exact Int.cast_nonpos.mp (h₁ ▸ mul_nonpos_of_nonneg_of_nonpos hb hneg')
      · exact Int.cast_nonpos.mp (h₂ ▸ mul_nonpos_of_nonneg_of_nonpos hc hneg')
    · have hpos' : 0 ≤ (edgeFunction x1 y1 x2 y2 x3 y3 : ℚ) := Int.cast_nonneg hpos.le
      refine .inl ⟨hpos, ?_, ?_, ?_⟩
      · exact Int.cast_nonneg_iff.mp (h₀ ▸ mul_nonneg ha hpos')
      · exact Int.cast_nonneg_iff.mp (h₁ ▸ mul_nonneg hb hpos')
      · exact Int.cast_nonneg_iff.mp (h₂ ▸ mul_nonneg hc hpos')

/-- A convex combination of three numbers lies between the least and the greatest. -/
theorem between_of_weights {a b c : ℚ} {u v w z : ℤ} (ha : 0 ≤ a) (hb : 0 ≤ b) (hc : 0 ≤ c)
    (hone : a + b + c = 1) (hz : a * u + b * v + c * w = z) : min3 u v w ≤ z ∧ z ≤ max3 u v w := by
  have hlow : min3 u v w ≤ u ∧ min3 u v w ≤ v ∧ min3 u v w ≤ w := by
    simp only [min3]
    split_ifs <;> omega
  have hhigh : u ≤ max3 u v w ∧ v ≤ max3 u v w ∧ w ≤ max3 u v w := by
    simp only [max3]
    split_ifs <;> omega
  generalize min3 u v w = low at *
  generalize max3 u v w = high at *
  obtain ⟨hu, hv, hw⟩ := hlow
  obtain ⟨hu', hv', hw'⟩ := hhigh
  constructor
  · have hle : (low : ℚ) ≤ z := by
      calc (low : ℚ) = a * low + b * low + c * low := by rw [← add_mul, ← add_mul, hone, one_mul]
        _ ≤ a * u + b * v + c * w := by gcongr
        _ = z := hz
    exact_mod_cast hle
  · have hle : (z : ℚ) ≤ high := by
      calc (z : ℚ) = a * u + b * v + c * w := hz.symm
        _ ≤ a * high + b * high + c * high := by gcongr
        _ = high := by rw [← add_mul, ← add_mul, hone, one_mul]
    exact_mod_cast hle

/-- The points of `canvas_filltriangle`. -/
theorem planeFilltriangle_points (harea : edgeFunction x1 y1 x2 y2 x3 y3 ≠ 0) :
    ∃ points, planeFilltriangle x1 y1 x2 y2 x3 y3 = some points ∧
      ∀ p, p ∈ points ↔ InClosedTriangle ![(x1, y1), (x2, y2), (x3, y3)] p := by
  rw [planeFilltriangle, if_neg harea]
  refine ⟨_, rfl, ?_⟩
  intro p
  rw [← inTriangle_iff harea]
  simp only [List.mem_flatMap]
  constructor
  · rintro ⟨y, -, x, -, hp⟩
    split_ifs at hp with hin
    · rw [List.mem_singleton.mp hp]
      exact hin
    · simp at hp
  · intro hin
    obtain ⟨a, b, c, ha, hb, hc, hone, hx, hy⟩ :=
      inClosedTriangle_iff.mp ((inTriangle_iff harea p).mp hin)
    refine ⟨p.2, mem_upTo.mpr (between_of_weights ha hb hc hone hy), p.1,
      mem_upTo.mpr (between_of_weights ha hb hc hone hx), ?_⟩
    rw [if_pos hin]
    exact List.mem_singleton.mpr rfl

end

/-- **Filled triangles.** `canvas_filltriangle` paints exactly the pixels of the closed
triangle of three corners that are not on one line, and the order of the corners does not
matter. -/
theorem filltriangle_is_exact (v : Fin 3 → Point) (hv : ¬ OnOneLine v) (color : ℕ)
    (canvas : Canvas) : ∃ canvas', PaintsRegion color (InClosedTriangle v) canvas canvas' ∧
      ∀ σ : Equiv.Perm (Fin 3), canvasFilltriangle canvas (v (σ 0)).1 (v (σ 0)).2 (v (σ 1)).1
        (v (σ 1)).2 (v (σ 2)).1 (v (σ 2)).2 color = some canvas' := by
  have horder : ∀ σ : Equiv.Perm (Fin 3), ∃ canvas', canvasFilltriangle canvas (v (σ 0)).1
      (v (σ 0)).2 (v (σ 1)).1 (v (σ 1)).2 (v (σ 2)).1 (v (σ 2)).2 color = some canvas' ∧
      PaintsRegion color (InClosedTriangle v) canvas canvas' := by
    intro σ
    have heq : ![((v (σ 0)).1, (v (σ 0)).2), ((v (σ 1)).1, (v (σ 1)).2),
        ((v (σ 2)).1, (v (σ 2)).2)] = v ∘ σ := by
      funext i
      match i with
      | 0 => rfl
      | 1 => rfl
      | 2 => rfl
    have hline : ¬ OnOneLine (v ∘ σ) := fun h => hv h.of_comp
    rw [← heq] at hline
    obtain ⟨points, hpoints, hmem⟩ := planeFilltriangle_points (area_ne_zero hline)
    obtain ⟨points', hpoints', hdraw⟩ := draws_filltriangle (v (σ 0)).1 (v (σ 0)).2 (v (σ 1)).1
      (v (σ 1)).2 (v (σ 2)).1 (v (σ 2)).2 color
    obtain rfl : points' = points := Option.some.inj (hpoints'.symm.trans hpoints)
    obtain ⟨canvas', hcanvas', hshow⟩ := hdraw canvas
    refine ⟨canvas', hcanvas', hshow.paintsRegion ?_⟩
    intro p _
    rw [hmem, heq, inClosedTriangle_comp]
  obtain ⟨canvas', -, hpaint⟩ := horder (Equiv.refl _)
  refine ⟨canvas', hpaint, ?_⟩
  intro σ
  obtain ⟨canvas'', hcanvas'', hpaint'⟩ := horder σ
  rw [hcanvas'', hpaint'.unique hpaint]

/-- A triangle with a corner outside the canvas. -/
theorem filltriangle_is_exact_corner : ¬ OnOneLine ![(-5, 0), (10, 0), (0, 20)] ∧
    ∃ canvas', PaintsRegion 7 (InClosedTriangle ![(-5, 0), (10, 0), (0, 20)]) (fun _ => 0) canvas' := by
  have hline : ¬ OnOneLine ![(-5, 0), (10, 0), (0, 20)] := by
    rintro ⟨a, b, c, hne, h⟩
    simp only [Fin.forall_fin_succ, IsEmpty.forall_iff, and_true, Matrix.cons_val_zero,
      Matrix.cons_val_succ] at h
    omega
  obtain ⟨canvas', hpaint, -⟩ := filltriangle_is_exact _ hline 7 fun _ => 0
  exact ⟨hline, canvas', hpaint⟩

end Xv6Draw
