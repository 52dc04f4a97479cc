import Xv6Draw.Draw.Plane

/-!
# Circles

The loop of `canvas_circle` and `canvas_fillcircle` walks along one octant. For every row
offset `b` up to the diagonal it visits one column offset `a`, the one next to
the root of `r * r - b * b`. The error term is a quadratic form in the two offsets, and its
sign says whether the column offset stays or drops by one. One drop for each row is
enough, because above the diagonal the circle is steeper than that.

The outline and the fill draw from the same walk. So the fill is the outline with each row
filled in, and no row is left out: the row offsets below the diagonal and the column offsets
above it meet.
-/

namespace Xv6Draw

open Loop Option

/-- The points of an octant of a circle around the origin: `a` is the offset next to the root
of `r * r - b * b`, and `b` goes up to the diagonal. -/
structure Octant (r a b : ℤ) : Prop where
  nonneg : 0 ≤ b
  le : b ≤ a
  low : a * a - a < r * r - b * b
  high : r * r - b * b ≤ a * a + a

variable {a r b x y : ℤ} {draw : ℤ → ℤ → List Point} {t : PlaneCircle}

theorem pronic_le {c : ℤ} (hc : -1 ≤ c) (h : c < a) : c * c + c ≤ a * a - a := by
  rcases lt_or_eq_of_le (Int.add_one_le_iff.mpr h) with hlt | rfl
  · have hprod : 0 ≤ (a - c - 1) * (a + c) := mul_nonneg (by omega) (by omega)
    linarith
  · linarith

theorem Octant.unique {c : ℤ} (ha : Octant r a b) (hc : Octant r c b) : a = c := by
  obtain ⟨hb, hba, halow, hahigh⟩ := ha
  obtain ⟨-, hbc, hclow, hchigh⟩ := hc
  rcases lt_trichotomy a c with hlt | heq | hgt
  · have := pronic_le (by omega) hlt
    omega
  · exact heq
  · have := pronic_le (by omega) hgt
    omega

theorem Octant.le_radius (hr : 0 ≤ r) (h : Octant r a b) : a ≤ r := by
  by_contra hgt
  have hpronic := pronic_le (c := r) (by omega) (not_le.mp hgt)
  have hsq : 0 ≤ b * b := mul_self_nonneg b
  have hlow := h.low
  omega

/-- What the loop of the circle functions keeps. -/
structure CircleInv (draw : ℤ → ℤ → List Point) (r : ℤ) (t : PlaneCircle) : Prop where
  err_eq : t.err = t.cx * t.cx - t.cx + (t.cy + 1) * (t.cy + 1) - r * r
  cy_nonneg : 0 ≤ t.cy
  cx_ge : -1 ≤ t.cx
  high : r * r - t.cy * t.cy ≤ t.cx * t.cx + t.cx
  low : t.cy ≤ t.cx → t.cx * t.cx - t.cx < r * r - t.cy * t.cy
  /-- What was drawn belongs to the octant below the current row. -/
  points : ∀ p, p ∈ t.points ↔ ∃ a b, Octant r a b ∧ b < t.cy ∧ p ∈ draw a b
  /-- Every row offset below the current one was visited. -/
  rows : ∀ b, 0 ≤ b → b < t.cy → ∃ a, Octant r a b
  /-- Every column offset above the current one was visited. -/
  columns : ∀ a, t.cx < a → a ≤ r → ∃ b, Octant r a b

theorem CircleInv.octant (h : CircleInv draw r t) (hle : t.cy ≤ t.cx) : Octant r t.cx t.cy :=
  ⟨h.cy_nonneg, hle, h.low hle, h.high⟩

/-- The points after a pass. -/
theorem CircleInv.points_step (h : CircleInv draw r t) (hle : t.cy ≤ t.cx) (p : Point) :
    p ∈ t.points ++ draw t.cx t.cy ↔
      ∃ a b, Octant r a b ∧ b < t.cy + 1 ∧ p ∈ draw a b := by
  rw [List.mem_append, h.points]
  constructor
  · rintro (⟨a, b, hab, hb, hp⟩ | hp)
    · exact ⟨a, b, hab, by omega, hp⟩
    · exact ⟨t.cx, t.cy, h.octant hle, by omega, hp⟩
  · rintro ⟨a, b, hab, hb, hp⟩
    rcases lt_or_eq_of_le (Int.lt_add_one_iff.mp hb) with hlt | rfl
    · exact .inl ⟨a, b, hab, hlt, hp⟩
    · rw [hab.unique (h.octant hle)] at hp
      exact .inr hp

/-- A pass keeps the invariant. -/
theorem CircleInv.step
    (h : CircleInv draw r t) (hle : t.cy ≤ t.cx) : CircleInv draw r (planeCircleStep draw t) := by
  have hpoints := h.points_step hle
  have hoct := h.octant hle
  have hrows : ∀ b, 0 ≤ b → b < t.cy + 1 → ∃ a, Octant r a b := by
    intro b hb hlt
    rcases lt_or_eq_of_le (Int.lt_add_one_iff.mp hlt) with hless | rfl
    · exact h.rows b hb hless
    · exact ⟨t.cx, hoct⟩
  obtain ⟨herr, hcy, hcx, hhigh, hlow, -, -, hcolumns⟩ := h
  have hsq : (t.cy + 1) * (t.cy + 1) = t.cy * t.cy + 2 * t.cy + 1 := by ring
  have hnext : (t.cy + 1 + 1) * (t.cy + 1 + 1) = t.cy * t.cy + 4 * t.cy + 4 := by ring
  unfold planeCircleStep
  split_ifs with hneg
  · -- the root stays next to the same offset
    refine ⟨?_, ?_, ?_, ?_, ?_, hpoints, hrows, hcolumns⟩ <;> simp only <;> omega
  · have hdrop : (t.cx - 1) * (t.cx - 1) = t.cx * t.cx - 2 * t.cx + 1 := by ring
    refine ⟨?_, ?_, ?_, ?_, ?_, hpoints, hrows, ?_⟩
    · simp only
      omega
    · simp only
      omega
    · simp only
      omega
    · simp only
      omega
    · -- one drop is enough above the diagonal
      simp only
      omega
    · intro a ha har
      rcases lt_or_eq_of_le (Int.sub_one_lt_iff.mp ha) with hless | rfl
      · exact hcolumns a hless har
      · exact ⟨t.cy, hoct⟩

/-- The walk of both circle functions, for a radius of at least one: what a pass draws is drawn
for the points of the octant, and every offset up to the radius occurs in it. -/
theorem planeCircleLoop_points (draw : ℤ → ℤ → List Point) (hr : 1 ≤ r) :
    ∃ points, planeCircleLoop draw r = some points ∧
      (∀ p, p ∈ points ↔ ∃ a b, Octant r a b ∧ p ∈ draw a b) ∧
      ∀ d, 0 ≤ d → d ≤ r → (∃ a, Octant r a d) ∨ ∃ b, Octant r d b := by
  have hstart : CircleInv draw r ⟨[], r, 0, 1 - r⟩ := by
    refine ⟨?_, ?_, ?_, ?_, ?_, ?_, ?_, ?_⟩
    · simp only
      ring
    · exact le_rfl
    · simp only
      omega
    · simp only
      omega
    · intro _
      simp only
      omega
    · intro p
      simp only [List.not_mem_nil, false_iff]
      rintro ⟨a, b, hab, hb, -⟩
      exact absurd hab.nonneg (by omega)
    · intro b hb hlt
      simp only at hlt
      omega
    · intro a ha har
      simp only at ha
      omega
  have hpass : ∀ t : PlaneCircle, CircleInv draw r t → decide (t.cy ≤ t.cx) = true →
      CircleInv draw r (planeCircleStep draw t) ∧
        ((planeCircleStep draw t).cx + 1 - (planeCircleStep draw t).cy).toNat <
          (t.cx + 1 - t.cy).toNat := by
    intro t ht hcond
    have hle : t.cy ≤ t.cx := of_decide_eq_true hcond
    refine ⟨ht.step hle, ?_⟩
    unfold planeCircleStep
    split_ifs <;> simp only <;> omega
  obtain ⟨t, hloop, ht, hend⟩ := whileLoop_rule (I := CircleInv draw r)
    (m := fun t : PlaneCircle => (t.cx + 1 - t.cy).toNat) hpass (n := (r + 1).toNat)
    (s := ⟨[], r, 0, 1 - r⟩) hstart (by simp only; omega)
  have hlt : t.cx < t.cy := not_le.mp (of_decide_eq_false hend)
  refine ⟨t.points, ?_, ?_, ?_⟩
  · rw [planeCircleLoop, if_neg (by omega), hloop]
    rfl
  · intro p
    rw [ht.points]
    constructor
    · rintro ⟨a, b, hab, -, hp⟩
      exact ⟨a, b, hab, hp⟩
    · rintro ⟨a, b, hab, hp⟩
      refine ⟨a, b, hab, ?_, hp⟩
      -- past the last row the root is below the diagonal
      by_contra hge
      have hpronic := pronic_le ht.cx_ge (a := a) (by have := hab.le; omega)
      have hsq : t.cy * t.cy ≤ b * b := mul_self_le_mul_self ht.cy_nonneg (not_lt.mp hge)
      have hlow := hab.low
      have hhigh := ht.high
      omega
  · intro d hd hdr
    rcases lt_or_ge d t.cy with hless | hge
    · exact .inl (ht.rows d hd hless)
    · exact .inr (ht.columns d (by omega) hdr)

theorem planeCircleLoop_zero (draw : ℤ → ℤ → List Point) :
    planeCircleLoop draw 0 = some (draw 0 0) := rfl

theorem planeCircleLoop_neg (draw : ℤ → ℤ → List Point) (hr : r < 0) :
    planeCircleLoop draw r = some [] := if_pos hr

theorem mem_planeCirclePoints {p : Point} : p ∈ planeCirclePoints x y a b ↔
    ((p.1 = x + a ∨ p.1 = x - a) ∧ (p.2 = y + b ∨ p.2 = y - b)) ∨
      ((p.1 = x + b ∨ p.1 = x - b) ∧ (p.2 = y + a ∨ p.2 = y - a)) := by
  obtain ⟨px, py⟩ := p
  simp only [planeCirclePoints, List.mem_cons, Prod.mk.injEq, List.not_mem_nil, or_false]
  tauto

/-- The points of a pass of `canvas_fillcircle`. -/
theorem mem_planeCircleRows (ha : 0 ≤ a) (hb : 0 ≤ b) {p : Point} : p ∈ planeCircleRows x y a b ↔
      ((x - a ≤ p.1 ∧ p.1 ≤ x + a) ∧ (p.2 = y + b ∨ p.2 = y - b)) ∨
        ((x - b ≤ p.1 ∧ p.1 ≤ x + b) ∧ (p.2 = y + a ∨ p.2 = y - a)) := by
  obtain ⟨px, py⟩ := p
  simp only [planeCircleRows, List.mem_append, mem_planeHline]
  omega

/-- `canvas_circle` ends. On the plane it plots the eight reflections of the points of the
octant, only the centre for the radius zero, and nothing for a negative radius, and the
canvas shows these points. -/
theorem circle_points (x y radius : ℤ) : ∃ points, planeCircle x y radius = some points ∧
    (1 ≤ radius → ∀ p, p ∈ points ↔ ∃ a b, (0 ≤ b ∧ b ≤ a ∧
      a * a - a < radius * radius - b * b ∧ radius * radius - b * b ≤ a * a + a) ∧
        p ∈ [(x + a, y + b), (x + b, y + a), (x - b, y + a), (x - a, y + b),
          (x - a, y - b), (x - b, y - a), (x + b, y - a), (x + a, y - b)]) ∧
    (radius = 0 → ∀ p, p ∈ points ↔ p = (x, y)) ∧ (radius < 0 → points = []) ∧
    ∀ color canvas, ∃ canvas', canvasCircle canvas x y radius color = some canvas' ∧
      Shows color canvas points canvas' := by
  obtain ⟨points, hpoints, -⟩ := draws_circle x y radius 0
  refine ⟨points, hpoints, ?_, ?_, ?_, ?_⟩
  · intro hr p
    obtain ⟨points', hloop, hmem, -⟩ := planeCircleLoop_points (planeCirclePoints x y) hr
    obtain rfl : points' = points := some.inj (hloop.symm.trans hpoints)
    rw [hmem]
    constructor
    · rintro ⟨a, b, ⟨hb, hba, hlow, hhigh⟩, hp⟩
      exact ⟨a, b, ⟨hb, hba, hlow, hhigh⟩, hp⟩
    · rintro ⟨a, b, ⟨hb, hba, hlow, hhigh⟩, hp⟩
      exact ⟨a, b, ⟨hb, hba, hlow, hhigh⟩, hp⟩
  · rintro rfl p
    obtain rfl : planeCirclePoints x y 0 0 = points :=
      some.inj ((planeCircleLoop_zero _).symm.trans hpoints)
    simp [planeCirclePoints]
  · intro hr
    exact (some.inj ((planeCircleLoop_neg _ hr).symm.trans hpoints)).symm
  · intro color canvas
    obtain ⟨points', hpoints', hdraw⟩ := draws_circle x y radius color
    obtain rfl : points' = points := some.inj (hpoints'.symm.trans hpoints)
    exact hdraw canvas

/-- The points that both circle functions visit in the octant, for every radius. -/
def Visits (r a b : ℤ) : Prop := (1 ≤ r ∧ Octant r a b) ∨ (r = 0 ∧ a = 0 ∧ b = 0)

theorem Visits.bounds (h : Visits r a b) : 0 ≤ b ∧ b ≤ a ∧ a ≤ r := by
  rcases h with ⟨hr, hoct⟩ | ⟨rfl, rfl, rfl⟩
  · exact ⟨hoct.nonneg, hoct.le, hoct.le_radius (by omega)⟩
  · omega

theorem exists_visits {d : ℤ} (hd : 0 ≤ d) (hdr : d ≤ r) :
    (∃ a, Visits r a d) ∨ ∃ b, Visits r d b := by
  rcases eq_or_lt_of_le (hd.trans hdr) with rfl | hr
  · obtain rfl : d = 0 := by omega
    exact .inl ⟨0, .inr ⟨rfl, rfl, rfl⟩⟩
  · obtain ⟨-, -, -, hcover⟩ := planeCircleLoop_points (fun _ _ => []) hr
    rcases hcover d hd hdr with ⟨a, ha⟩ | ⟨b, hb⟩
    · exact .inl ⟨a, .inl ⟨hr, ha⟩⟩
    · exact .inr ⟨b, .inl ⟨hr, hb⟩⟩

/-- Both circle functions draw for the points that they visit. -/
theorem planeCircleLoop_visits (draw : ℤ → ℤ → List Point) (r : ℤ) :
    ∃ points, planeCircleLoop draw r = some points ∧
      ∀ p, p ∈ points ↔ ∃ a b, Visits r a b ∧ p ∈ draw a b := by
  rcases lt_trichotomy r 0 with hneg | rfl | hpos
  · refine ⟨[], planeCircleLoop_neg draw hneg, ?_⟩
    intro p
    simp only [List.not_mem_nil, false_iff]
    rintro ⟨a, b, hvisit, -⟩
    have := hvisit.bounds
    omega
  · refine ⟨draw 0 0, planeCircleLoop_zero draw, ?_⟩
    intro p
    constructor
    · intro hp
      exact ⟨0, 0, .inr ⟨rfl, rfl, rfl⟩, hp⟩
    · rintro ⟨a, b, ⟨hr, -⟩ | ⟨-, rfl, rfl⟩, hp⟩
      · omega
      · exact hp
  · obtain ⟨points, hloop, hmem, -⟩ := planeCircleLoop_points draw hpos
    refine ⟨points, hloop, ?_⟩
    intro p
    rw [hmem]
    constructor
    · rintro ⟨a, b, hab, hp⟩
      exact ⟨a, b, .inl ⟨hpos, hab⟩, hp⟩
    · rintro ⟨a, b, ⟨-, hab⟩ | ⟨rfl, -⟩, hp⟩
      · exact ⟨a, b, hab, hp⟩
      · omega

/-- A point of the fill lies between two points of the outline on its row. -/
theorem hull_of_row (ha : 0 ≤ a) (hb : 0 ≤ b) {px py : ℤ}
    (h : (px, py) ∈ planeCircleRows x y a b) : ∃ left right,
      (left, py) ∈ planeCirclePoints x y a b ∧ (right, py) ∈ planeCirclePoints x y a b ∧
        left ≤ px ∧ px ≤ right := by
  rcases (mem_planeCircleRows ha hb).mp h with ⟨hx, hy⟩ | ⟨hx, hy⟩
  · refine ⟨x - a, x + a, ?_, ?_, hx.1, hx.2⟩
    · exact mem_planeCirclePoints.mpr (.inl ⟨.inr rfl, hy⟩)
    · exact mem_planeCirclePoints.mpr (.inl ⟨.inl rfl, hy⟩)
  · refine ⟨x - b, x + b, ?_, ?_, hx.1, hx.2⟩
    · exact mem_planeCirclePoints.mpr (.inr ⟨.inr rfl, hy⟩)
    · exact mem_planeCirclePoints.mpr (.inr ⟨.inl rfl, hy⟩)

/-- A point between the axis and a point of the outline on its row belongs to the fill. -/
theorem row_of_outline (ha : 0 ≤ a) (hb : 0 ≤ b) {px py qx : ℤ}
    (h : (qx, py) ∈ planeCirclePoints x y a b) (hbetween : (qx ≤ px ∧ px ≤ x) ∨ (x ≤ px ∧ px ≤ qx)) :
    (px, py) ∈ planeCircleRows x y a b := by
  rw [mem_planeCircleRows ha hb]
  rw [mem_planeCirclePoints] at h
  omega

/-- `canvas_fillcircle` paints the outline that `canvas_circle` plots with each of its rows
filled in, and these are all the rows up to the radius. -/
theorem fillcircle_is_row_hull (x y radius : ℤ) :
    ∃ outline fill, planeCircle x y radius = some outline ∧ planeFillcircle x y radius = some fill ∧
      (∀ px py, (px, py) ∈ fill ↔ ∃ left right,
        (left, py) ∈ outline ∧ (right, py) ∈ outline ∧ left ≤ px ∧ px ≤ right) ∧
      (∀ py, (∃ px, (px, py) ∈ fill) ↔ y - radius ≤ py ∧ py ≤ y + radius) ∧
      ∀ color canvas, ∃ canvas', canvasFillcircle canvas x y radius color = some canvas' ∧
        Shows color canvas fill canvas' := by
  obtain ⟨outline, houtline, hplot⟩ := planeCircleLoop_visits (planeCirclePoints x y) radius
  obtain ⟨fill, hfill, hpaint⟩ := planeCircleLoop_visits (planeCircleRows x y) radius
  refine ⟨outline, fill, houtline, hfill, ?_, ?_, ?_⟩
  · intro px py
    rw [hpaint]
    constructor
    · rintro ⟨a, b, hab, hp⟩
      obtain ⟨hb, hba, -⟩ := hab.bounds
      obtain ⟨left, right, hleft, hright, hbetween⟩ := hull_of_row (by omega) hb hp
      exact ⟨left, right, (hplot _).mpr ⟨a, b, hab, hleft⟩, (hplot _).mpr ⟨a, b, hab, hright⟩, hbetween⟩
    · rintro ⟨left, right, hleft, hright, hlow, hhigh⟩
      rcases le_total px x with hpx | hpx
      · obtain ⟨a, b, hab, hp⟩ := (hplot _).mp hleft
        obtain ⟨hb, hba, -⟩ := hab.bounds
        exact ⟨a, b, hab, row_of_outline (by omega) hb hp (.inl ⟨hlow, hpx⟩)⟩
      · obtain ⟨a, b, hab, hp⟩ := (hplot _).mp hright
        obtain ⟨hb, hba, -⟩ := hab.bounds
        exact ⟨a, b, hab, row_of_outline (by omega) hb hp (.inr ⟨hpx, hhigh⟩)⟩
  · intro py
    constructor
    · rintro ⟨px, hp⟩
      obtain ⟨a, b, hab, hrow⟩ := (hpaint _).mp hp
      obtain ⟨hb, hba, har⟩ := hab.bounds
      rw [mem_planeCircleRows (by omega) hb] at hrow
      omega
    · rintro ⟨hlow, hhigh⟩
      -- the distance of the row from the centre
      obtain ⟨d, hd, hdr, hpy⟩ : ∃ d, 0 ≤ d ∧ d ≤ radius ∧ (py = y + d ∨ py = y - d) := by
        rcases le_total y py with hle | hle
        · exact ⟨py - y, by omega, by omega, by omega⟩
        · exact ⟨y - py, by omega, by omega, by omega⟩
      rcases exists_visits hd hdr with ⟨a, hab⟩ | ⟨b, hab⟩
      · obtain ⟨hb, hba, -⟩ := hab.bounds
        have hrow : (x, py) ∈ planeCircleRows x y a d :=
          (mem_planeCircleRows (by omega) hb).mpr (.inl ⟨⟨by omega, by omega⟩, hpy⟩)
        exact ⟨x, (hpaint _).mpr ⟨a, d, hab, hrow⟩⟩
      · obtain ⟨hb, hba, -⟩ := hab.bounds
        have hrow : (x, py) ∈ planeCircleRows x y d b :=
          (mem_planeCircleRows hd hb).mpr (.inr ⟨⟨by omega, by omega⟩, hpy⟩)
        exact ⟨x, (hpaint _).mpr ⟨d, b, hab, hrow⟩⟩
  · intro color canvas
    obtain ⟨fill', hfill', hdraw⟩ := draws_fillcircle x y radius color
    obtain rfl : fill' = fill := some.inj (hfill'.symm.trans hfill)
    exact hdraw canvas

end Xv6Draw
