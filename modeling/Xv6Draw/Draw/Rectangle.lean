import Xv6Draw.Draw.Line

/-!
# Rectangles

`canvas_rect` draws its four sides with the general line loop, and `canvas_fillrect` draws
clipped spans. On a line along an axis the loop moves by one in every pass and never leaves
the axis, so the sides are the spans between the corners, a single point included. Both
functions then agree on the same inclusive edges.
-/

namespace Xv6Draw

open Loop

/-- A quantity that grows by a constant along a chain. -/
theorem eq_add_mul_of_isChain {α : Type*} {R : α → α → Prop} {f : α → ℤ} {s : ℤ}
    (hstep : ∀ a b, R a b → f b = f a + s) {l : List α} (hchain : l.IsChain R) {a b : α}
    (hhead : l.head? = some a) {n : ℕ} (hb : l[n]? = some b) : f b = f a + n * s := by
  induction n generalizing b with
  | zero =>
    rw [← List.head?_eq_getElem?, hhead] at hb
    cases hb
    simp
  | succ n ih =>
    obtain ⟨hn, rfl⟩ := List.getElem?_eq_some_iff.mp hb
    have hlast := ih (List.getElem?_eq_getElem (by omega))
    rw [hstep _ _ (List.isChain_iff_getElem.mp hchain n hn), hlast]
    push_cast
    ring

/-- A trace along an axis has the points between its ends: `along` is the coordinate that
grows and `across` the one that stays. -/
theorem mem_of_axis_trace {points : List Point} {along across : Point → ℤ} {a b : ℤ} {p₀ : Point}
    (hext : ∀ p q, along p = along q → across p = across q → p = q) (hab : a ≤ b)
    (hlength : (points.length : ℤ) = b - a + 1) (hhead : points.head? = some p₀) (ha : along p₀ = a)
    (hmoves : points.IsChain fun p q =>
      along q = along p + (b - a).sign ∧ across q = across p) (p : Point) :
    p ∈ points ↔ a ≤ along p ∧ along p ≤ b ∧ across p = across p₀ := by
  have hacross : ∀ (n : ℕ) (q : Point), points[n]? = some q → across q = across p₀ := by
    intro n q hq
    have hrow := eq_add_mul_of_isChain (f := across) (s := 0) ?_ hmoves hhead hq
    · simpa using hrow
    · intro q r hqr
      rw [hqr.2, add_zero]
  have halong : ∀ (n : ℕ) (q : Point), points[n]? = some q → along q = a + n := by
    intro n q hq
    have hcolumn := eq_add_mul_of_isChain (f := along) (fun q r hqr => hqr.1) hmoves hhead hq
    obtain ⟨hn, -⟩ := List.getElem?_eq_some_iff.mp hq
    rw [hcolumn, ha]
    rcases eq_or_lt_of_le hab with rfl | hlt
    · -- a single point
      obtain rfl : n = 0 := by omega
      simp
    · rw [Int.sign_eq_one_of_pos (by omega), mul_one]
  constructor
  · intro hp
    obtain ⟨n, hn⟩ := List.mem_iff_getElem?.mp hp
    obtain ⟨hlt, -⟩ := List.getElem?_eq_some_iff.mp hn
    have hcolumn := halong n p hn
    exact ⟨by omega, by omega, hacross n p hn⟩
  · rintro ⟨hlow, hhigh, hrow⟩
    have hlt : (along p - a).toNat < points.length := by omega
    have hget := List.getElem?_eq_getElem hlt
    have hp : points[(along p - a).toNat] = p := by
      apply hext
      · rw [halong _ _ hget]
        omega
      · rw [hacross _ _ hget, hrow]
    rw [← hp]
    exact List.getElem_mem hlt

/-- The points of a line along a row. -/
theorem planeLine_row {x1 x2 : ℤ} (h : x1 ≤ x2) (y : ℤ) : ∃ points, planeLine x1 y x2 y = some points ∧
      ∀ p, p ∈ points ↔ x1 ≤ p.1 ∧ p.1 ≤ x2 ∧ p.2 = y := by
  obtain ⟨points, hline, htrace⟩ := planeLine_traces x1 y x2 y
  refine ⟨points, hline, ?_⟩
  have hlength : (points.length : ℤ) = x2 - x1 + 1 := by
    rw [htrace.length, lineLength, sub_self, abs_zero, abs_of_nonneg (by omega),
      max_eq_left (by omega)]
  refine mem_of_axis_trace (fun p q => Prod.ext) h hlength htrace.head rfl (htrace.moves.imp ?_)
  rintro p q ⟨i, j, -, -, hx, hy, hlong, -⟩
  have hi : i = 1 := hlong (by simp)
  rw [hi, one_mul] at hx
  rw [sub_self, Int.sign_zero, mul_zero, add_zero] at hy
  exact ⟨hx, hy⟩

/-- The points of a line along a column. -/
theorem planeLine_column {y1 y2 : ℤ} (h : y1 ≤ y2) (x : ℤ) :
    ∃ points, planeLine x y1 x y2 = some points ∧
      ∀ p, p ∈ points ↔ y1 ≤ p.2 ∧ p.2 ≤ y2 ∧ p.1 = x := by
  obtain ⟨points, hline, htrace⟩ := planeLine_traces x y1 x y2
  refine ⟨points, hline, ?_⟩
  have hlength : (points.length : ℤ) = y2 - y1 + 1 := by
    rw [htrace.length, lineLength, sub_self, abs_zero, abs_of_nonneg (by omega),
      max_eq_right (by omega)]
  refine mem_of_axis_trace (fun p q hy hx => Prod.ext hx hy) h hlength htrace.head rfl
    (htrace.moves.imp ?_)
  rintro p q ⟨i, j, -, -, hx, hy, -, hlong⟩
  have hj : j = 1 := hlong (by simp)
  rw [hj, one_mul] at hy
  rw [sub_self, Int.sign_zero, mul_zero, add_zero] at hx
  exact ⟨hy, hx⟩

/-- The pixels of a rectangle. -/
def InRect (x y w h : ℤ) (p : Point) : Prop := x ≤ p.1 ∧ p.1 < x + w ∧ y ≤ p.2 ∧ p.2 < y + h

/-- The pixels on the border of a rectangle. -/
def OnBorder (x y w h : ℤ) (p : Point) : Prop :=
  InRect x y w h p ∧ (p.1 = x ∨ p.1 = x + w - 1 ∨ p.2 = y ∨ p.2 = y + h - 1)

/-- The points of `canvas_fillrect`. -/
theorem mem_planeFillrect {x y w h : ℤ} (hw : 1 ≤ w) (hh : 1 ≤ h) (p : Point) :
    p ∈ planeFillrect x y w h ↔ InRect x y w h p := by
  rw [planeFillrect, if_neg (by omega), List.mem_flatMap]
  unfold InRect
  constructor
  · rintro ⟨row, hrow, hp⟩
    rw [mem_upTo] at hrow
    rw [mem_planeHline] at hp
    omega
  · rintro ⟨hlow, hhigh, htop, hbottom⟩
    refine ⟨p.2 - y, mem_upTo.mpr ?_, mem_planeHline.mpr ?_⟩
    · omega
    · omega

/-- The points of `canvas_rect`. -/
theorem planeRect_points {x y w h : ℤ} (hw : 1 ≤ w) (hh : 1 ≤ h) :
    ∃ points, planeRect x y w h = some points ∧ ∀ p, p ∈ points ↔ OnBorder x y w h p := by
  obtain ⟨top, htop, hmemtop⟩ := planeLine_row (show x ≤ x + w - 1 by omega) y
  obtain ⟨left, hleft, hmemleft⟩ := planeLine_column (show y ≤ y + h - 1 by omega) x
  obtain ⟨right, hright, hmemright⟩ := planeLine_column (show y ≤ y + h - 1 by omega) (x + w - 1)
  obtain ⟨bottom, hbottom, hmembottom⟩ := planeLine_row (show x ≤ x + w - 1 by omega) (y + h - 1)
  refine ⟨top ++ (left ++ (right ++ bottom)), ?_, ?_⟩
  · rw [planeRect, if_neg (by omega), htop, hleft, hright, hbottom]
    rfl
  · intro p
    simp only [List.mem_append, hmemtop, hmemleft, hmemright, hmembottom]
    unfold OnBorder InRect
    omega

/-- **Rectangles.** `canvas_fillrect` paints the pixels of the rectangle and `canvas_rect`
those on its border, at every position relative to the canvas. A rectangle without width or
height leaves the canvas as it is. -/
theorem rectangles_are_exact (x y w h : ℤ) (color : ℕ) (canvas : Canvas) : (1 ≤ w → 1 ≤ h →
      PaintsRegion color (InRect x y w h) canvas (canvasFillrect canvas x y w h color) ∧
      ∃ canvas', canvasRect canvas x y w h color = some canvas' ∧
        PaintsRegion color (OnBorder x y w h) canvas canvas') ∧
    (w ≤ 0 ∨ h ≤ 0 → canvasFillrect canvas x y w h color = canvas ∧
      canvasRect canvas x y w h color = some canvas) := by
  constructor
  · intro hw hh
    constructor
    · exact (shows_fillrect canvas x y w h color).paintsRegion
        (fun p _ => mem_planeFillrect hw hh p)
    · obtain ⟨points, hplane, hdraw⟩ := draws_rect x y w h color
      obtain ⟨points', hplane', hmem⟩ := planeRect_points (x := x) (y := y) hw hh
      obtain rfl : points' = points := Option.some.inj (hplane'.symm.trans hplane)
      obtain ⟨canvas', hcanvas', hshow⟩ := hdraw canvas
      exact ⟨canvas', hcanvas', hshow.paintsRegion (fun p _ => hmem p)⟩
  · intro hempty
    exact ⟨if_pos hempty, if_pos hempty⟩

end Xv6Draw
