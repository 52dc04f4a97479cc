import Xv6Draw.Draw.Plane
import Mathlib.Algebra.Order.Ring.Abs

/-!
# Ellipses

Both ellipse functions find the extent of the ellipse in one column, or in one row, by a
search for an integer root. `canvas_fillellipse` goes through the rows and paints exactly the
points of the ellipse. `canvas_ellipse` goes through the columns only and plots the first and
the last point of each. Near the two ends of a wide axis the ellipse is steeper than one row
for each column, and there the outline has gaps, unless the ellipse is so flat that its last
column but one has height one at most.
-/

namespace Xv6Draw

open List Loop

/-- The points of an ellipse around the origin. -/
def InEllipse (rx ry dx dy : ℤ) : Prop :=
  |dx| ≤ rx ∧ |dy| ≤ ry ∧ dx ^ 2 * ry ^ 2 + dy ^ 2 * rx ^ 2 ≤ rx ^ 2 * ry ^ 2

variable {rx ry d h x y : ℤ} {points : List Point}

theorem inEllipse_comm {dx dy : ℤ} : InEllipse rx ry dx dy ↔ InEllipse ry rx dy dx := by
  unfold InEllipse
  rw [add_comm, mul_comm (rx ^ 2)]
  tauto

/-- The height of an ellipse in column `d`, above its axis. -/
structure Height (rx ry d h : ℤ) : Prop where
  nonneg : 0 ≤ h
  fits : h * h * (rx * rx) ≤ ry * ry * (rx * rx - d * d)
  next : ry * ry * (rx * rx - d * d) < (h + 1) * (h + 1) * (rx * rx)

theorem Height.neg (hd : Height rx ry d h) : Height rx ry (-d) h := by
  have hsq : -d * -d = d * d := by ring
  exact ⟨hd.nonneg, by rw [hsq]; exact hd.fits, by rw [hsq]; exact hd.next⟩

theorem Height.le_radius (hrx : 1 ≤ rx) (hry : 0 ≤ ry) (hd : Height rx ry d h) :
    h ≤ ry := by
  by_contra hgt
  have hsq : 0 < rx * rx := by positivity
  have hdd : 0 ≤ ry * ry * (d * d) := mul_nonneg (mul_self_nonneg ry) (mul_self_nonneg d)
  have hlt : ry * ry < h * h := mul_self_lt_mul_self hry (not_le.mp hgt)
  have hprod := mul_lt_mul_of_pos_right hlt hsq
  have hfits := hd.fits
  linarith

/-- A column has one height. -/
theorem Height.unique {k : ℤ} (hrx : 1 ≤ rx) (hh : Height rx ry d h)
    (hk : Height rx ry d k) : h = k := by
  have hsq : 0 < rx * rx := by positivity
  have hle : ∀ {a b : ℤ}, Height rx ry d a → Height rx ry d b → a ≤ b := by
    intro a b ha hb
    by_contra hgt
    have hroot : (b + 1) * (b + 1) ≤ a * a :=
      mul_self_le_mul_self (by have := hb.nonneg; omega) (by omega)
    have hprod := mul_le_mul_of_nonneg_right hroot hsq.le
    have hfits := ha.fits
    have hnext := hb.next
    linarith
  exact le_antisymm (hle hh hk) (hle hk hh)

/-- The points of the ellipse in a column are those up to the height. -/
theorem Height.inEllipse_iff (hrx : 1 ≤ rx) (hry : 0 ≤ ry) (hdrx : |d| ≤ rx)
    (hd : Height rx ry d h) (dy : ℤ) : InEllipse rx ry d dy ↔ |dy| ≤ h := by
  have hsq : 0 < rx * rx := by positivity
  have habs : |dy| * |dy| = dy * dy := abs_mul_abs_self dy
  constructor
  · rintro ⟨-, -, hin⟩
    by_contra hgt
    have hle : (h + 1) * (h + 1) ≤ |dy| * |dy| :=
      mul_self_le_mul_self (by have := hd.nonneg; omega) (by omega)
    have hprod := mul_le_mul_of_nonneg_right hle hsq.le
    have hnext := hd.next
    rw [habs] at hprod
    linarith
  · intro hle
    refine ⟨hdrx, hle.trans (hd.le_radius hrx hry), ?_⟩
    have hsqle : |dy| * |dy| ≤ h * h := mul_self_le_mul_self (abs_nonneg dy) hle
    have hprod := mul_le_mul_of_nonneg_right hsqle hsq.le
    have hfits := hd.fits
    rw [habs] at hprod
    linarith

/-- The search in a column finds the height. -/
theorem ellipseExtent_height (hrx : 1 ≤ rx) (hry : 0 ≤ ry) (hd : |d| ≤ rx) :
    ∃ h, ellipseExtent (rx * rx) (ry * ry * (rx * rx - d * d)) (ry + 1).toNat = some h ∧
      Height rx ry d h := by
  obtain ⟨h, hextent, hge, hfits, hnext⟩ := ellipseExtent_of_radii (show 0 < rx by omega) hry d
  have hsq : d * d ≤ rx * rx := by
    rw [← abs_mul_abs_self d]
    exact mul_self_le_mul_self (abs_nonneg d) hd
  have hinside : 0 ≤ ry * ry * (rx * rx - d * d) := mul_nonneg (mul_self_nonneg ry) (by omega)
  have hpos : 0 ≤ h := by
    by_contra hneg
    obtain rfl : h = -1 := by omega
    omega
  exact ⟨h, hextent, hpos, hfits hpos, hnext⟩

/-- The points of passes that all end. -/
theorem mapM_flatten_points {α : Type} {plane : α → Option (List Point)} {S : α → Point → Prop}
    {as : List α} (h : ∀ a ∈ as, ∃ ps, plane a = some ps ∧ ∀ p, p ∈ ps ↔ S a p) :
    ∃ points, (as.mapM plane).map List.flatten = some points ∧
      ∀ p, p ∈ points ↔ ∃ a ∈ as, S a p := by
  induction as with
  | nil => exact ⟨[], rfl, by simp⟩
  | cons a as ih =>
    obtain ⟨ps, hps, hmem⟩ := h a (by simp)
    obtain ⟨qs, hqs, hrest⟩ := ih (fun b hb => h b (by simp [hb]))
    obtain ⟨lists, hlists, rfl⟩ := Option.map_eq_some_iff.mp hqs
    refine ⟨ps ++ lists.flatten, ?_, ?_⟩
    · rw [mapM_cons, hps, hlists]
      rfl
    · intro p
      rw [mem_append, hmem, hrest]
      simp only [mem_cons, exists_eq_or_imp]

/-- The points of `canvas_ellipse`. -/
theorem planeEllipse_points (x y : ℤ) (hrx : 1 ≤ rx) (hry : 0 ≤ ry) :
    ∃ points, planeEllipse x y rx ry = some points ∧
      ∀ p, p ∈ points ↔ ∃ d h, |d| ≤ rx ∧ Height rx ry d h ∧
        (p = (x + d, y + h) ∨ p = (x + d, y - h)) := by
  have hpass : ∀ d ∈ upTo (-rx) rx, ∃ ps, (do
        let py ← ellipseExtent (rx * rx) (ry * ry * (rx * rx - d * d)) (ry + 1).toNat
        some [(x + d, y + py), (x + d, y - py)]) = some ps ∧
      ∀ p, p ∈ ps ↔ ∃ h, Height rx ry d h ∧ (p = (x + d, y + h) ∨ p = (x + d, y - h)) := by
    intro d hmem
    obtain ⟨h, hextent, hheight⟩ :=
      ellipseExtent_height hrx hry (abs_le.mpr (mem_upTo.mp hmem))
    refine ⟨[(x + d, y + h), (x + d, y - h)], by rw [hextent]; rfl, ?_⟩
    intro p
    simp only [mem_cons, not_mem_nil, or_false]
    constructor
    · intro hp
      exact ⟨h, hheight, hp⟩
    · rintro ⟨h', hheight', hp⟩
      rwa [hheight.unique hrx hheight']
  obtain ⟨points, hpoints, hmem⟩ := mapM_flatten_points hpass
  refine ⟨points, ?_, ?_⟩
  · rw [planeEllipse, if_neg (by omega), if_neg (by omega), if_neg (by omega)]
    exact hpoints
  · intro p
    simp only [hmem, mem_upTo, ← abs_le, ← exists_and_left]

theorem inEllipse_zero {dx dy : ℤ} : InEllipse 0 ry dx dy ↔ dx = 0 ∧ |dy| ≤ ry := by
  unfold InEllipse
  rw [abs_nonpos_iff]
  constructor
  · rintro ⟨hdx, hdy, -⟩
    exact ⟨hdx, hdy⟩
  · rintro ⟨rfl, hdy⟩
    exact ⟨rfl, hdy, by simp⟩

/-- The points of `canvas_fillellipse`. -/
theorem planeFillellipse_points (x y : ℤ) (hrx : 0 ≤ rx) (hry : 0 ≤ ry) :
    ∃ points, planeFillellipse x y rx ry = some points ∧
      ∀ p, p ∈ points ↔ InEllipse rx ry (p.1 - x) (p.2 - y) := by
  rw [planeFillellipse, if_neg (by omega)]
  split_ifs with hpoint hcolumn hrow
  · obtain ⟨rfl, rfl⟩ := hpoint
    refine ⟨_, rfl, ?_⟩
    intro p
    rw [mem_singleton, inEllipse_zero, abs_nonpos_iff, Prod.ext_iff]
    omega
  · subst hcolumn
    refine ⟨_, rfl, ?_⟩
    intro p
    rw [inEllipse_zero, abs_le, mem_flatMap]
    constructor
    · rintro ⟨dy, hdy, hp⟩
      rw [mem_upTo] at hdy
      rw [mem_singleton.mp hp]
      simp only
      omega
    · rintro ⟨hx, hlow, hhigh⟩
      refine ⟨p.2 - y, mem_upTo.mpr ⟨hlow, hhigh⟩, mem_singleton.mpr ?_⟩
      exact Prod.ext (by simp only; omega) (by simp only; omega)
  · subst hrow
    refine ⟨_, rfl, ?_⟩
    intro p
    rw [inEllipse_comm, inEllipse_zero, abs_le, mem_planeHline]
    omega
  · have hpass : ∀ dy ∈ upTo (-ry) ry, ∃ ps, (do
          let px ← ellipseExtent (ry * ry) (rx * rx * (ry * ry - dy * dy)) (rx + 1).toNat
          some (planeHline (y + dy) (x - px) (x + px))) = some ps ∧
        ∀ p, p ∈ ps ↔ p.2 - y = dy ∧ InEllipse rx ry (p.1 - x) dy := by
      intro dy hmem
      have hdy : |dy| ≤ ry := abs_le.mpr (mem_upTo.mp hmem)
      obtain ⟨h, hextent, hheight⟩ := ellipseExtent_height (show 1 ≤ ry by omega) hrx hdy
      refine ⟨planeHline (y + dy) (x - h) (x + h), by rw [hextent]; rfl, ?_⟩
      intro p
      have hpos := hheight.nonneg
      rw [inEllipse_comm, hheight.inEllipse_iff (by omega) hrx hdy, abs_le, mem_planeHline]
      omega
    obtain ⟨points, hpoints, hmem⟩ := mapM_flatten_points hpass
    refine ⟨points, hpoints, ?_⟩
    intro p
    rw [hmem]
    constructor
    · rintro ⟨dy, -, rfl, hp⟩
      exact hp
    · intro hp
      exact ⟨p.2 - y, mem_upTo.mpr (abs_le.mp hp.2.1), rfl, hp⟩

/-- **Ellipses.** `canvas_fillellipse` paints exactly the points of the ellipse. The outline
of `canvas_ellipse` has the topmost and the bottommost of them in each column, and no other
point. -/
theorem ellipses_are_exact (x y : ℤ) {rx ry : ℤ} (hrx : 0 ≤ rx) (hry : 0 ≤ ry) :
    (∃ fill, planeFillellipse x y rx ry = some fill ∧
      (∀ dx dy, (x + dx, y + dy) ∈ fill ↔ InEllipse rx ry dx dy) ∧
      ∀ color canvas, ∃ canvas', canvasFillellipse canvas x y rx ry color = some canvas' ∧
        Shows color canvas fill canvas') ∧ (1 ≤ rx → ∃ outline, planeEllipse x y rx ry = some outline ∧
      (∀ dx, -rx ≤ dx → dx ≤ rx → ∃ top bottom,
        IsLeast {dy | InEllipse rx ry dx dy} top ∧ IsGreatest {dy | InEllipse rx ry dx dy} bottom ∧
        ∀ dy, (x + dx, y + dy) ∈ outline ↔ dy = top ∨ dy = bottom) ∧
      (∀ dx dy, (x + dx, y + dy) ∈ outline → -rx ≤ dx ∧ dx ≤ rx) ∧
      ∀ color canvas, ∃ canvas', canvasEllipse canvas x y rx ry color = some canvas' ∧
        Shows color canvas outline canvas') := by
  constructor
  · obtain ⟨fill, hfill, hmem⟩ := planeFillellipse_points x y hrx hry
    refine ⟨fill, hfill, ?_, ?_⟩
    · intro dx dy
      rw [hmem]
      simp only [add_sub_cancel_left]
    · intro color canvas
      obtain ⟨fill', hfill', hdraw⟩ := draws_fillellipse x y rx ry color
      obtain rfl : fill' = fill := Option.some.inj (hfill'.symm.trans hfill)
      exact hdraw canvas
  · intro hpos
    obtain ⟨outline, houtline, hmem⟩ := planeEllipse_points x y hpos hry
    refine ⟨outline, houtline, ?_, ?_, ?_⟩
    · intro dx hlow hhigh
      have hdx : |dx| ≤ rx := abs_le.mpr ⟨hlow, hhigh⟩
      obtain ⟨h, -, hheight⟩ := ellipseExtent_height hpos hry hdx
      have hiff := hheight.inEllipse_iff hpos hry hdx
      have habs : |h| = h := abs_of_nonneg hheight.nonneg
      refine ⟨-h, h, ⟨?_, ?_⟩, ⟨?_, ?_⟩, ?_⟩
      · rw [Set.mem_ofPred_eq, hiff, abs_neg, habs]
      · intro dy hdy
        exact (abs_le.mp ((hiff dy).mp hdy)).1
      · rw [Set.mem_ofPred_eq, hiff, habs]
      · intro dy hdy
        exact (abs_le.mp ((hiff dy).mp hdy)).2
      · intro dy
        rw [hmem]
        constructor
        · rintro ⟨d, k, -, hk, hp⟩
          simp only [Prod.mk.injEq, add_right_inj] at hp
          obtain rfl : d = dx := by omega
          obtain rfl := hheight.unique hpos hk
          omega
        · rintro (rfl | rfl)
          · exact ⟨dx, h, hdx, hheight, .inr rfl⟩
          · exact ⟨dx, dy, hdx, hheight, .inl rfl⟩
    · intro dx dy hp
      obtain ⟨d, h, hd, -, hp⟩ := (hmem _).mp hp
      simp only [Prod.mk.injEq, add_right_inj] at hp
      obtain rfl : d = dx := by omega
      exact abs_le.mp hd
    · intro color canvas
      obtain ⟨outline', houtline', hdraw⟩ := draws_ellipse x y rx ry color
      obtain rfl : outline' = outline := Option.some.inj (houtline'.symm.trans houtline)
      exact hdraw canvas

/-- An ellipse of the two radii three and two. -/
theorem ellipses_are_exact_three_two : ∃ fill, planeFillellipse 10 10 3 2 = some fill ∧
      (∀ dx dy, (10 + dx, 10 + dy) ∈ fill ↔ InEllipse 3 2 dx dy) := by
  obtain ⟨⟨fill, hfill, hmem, -⟩, -⟩ :=
    ellipses_are_exact 10 10 (show (0 : ℤ) ≤ 3 by decide) (show (0 : ℤ) ≤ 2 by decide)
  exact ⟨fill, hfill, hmem⟩

/-! ### Gaps of the outline -/

/-- Pixels that touch, by a side or by a corner. -/
def Touches (p q : Point) : Prop := |p.1 - q.1| ≤ 1 ∧ |p.2 - q.2| ≤ 1

/-- Two points of a drawing that touch. -/
def Joined (points : List Point) (p q : Point) : Prop := p ∈ points ∧ q ∈ points ∧ Touches p q

/-- A closed curve without gaps around a centre: it meets every row and every column up to the
radii, and any two of its points are joined by points of it that touch. -/
structure ClosedOutline (x y rx ry : ℤ) (points : List Point) : Prop where
  rows : ∀ row, y - ry ≤ row → row ≤ y + ry → ∃ column, (column, row) ∈ points
  columns : ∀ column, x - rx ≤ column → column ≤ x + rx → ∃ row, (column, row) ∈ points
  connected : ∀ p ∈ points, ∀ q ∈ points, Relation.ReflTransGen (Joined points) p q

/-- Being joined goes both ways. -/
instance joined_symm (points : List Point) : Std.Symm (Joined points) where
  symm := by
    rintro p q ⟨hp, hq, hcolumn, hrow⟩
    refine ⟨hq, hp, ?_, ?_⟩
    · rwa [abs_sub_comm]
    · rwa [abs_sub_comm]

section

variable {rx ry : ℤ}

theorem height_zero (hrx : 1 ≤ rx) (hry : 0 ≤ ry) : Height rx ry 0 ry := by
  have hsq : 0 < rx * rx := by positivity
  refine ⟨hry, by linarith, ?_⟩
  have hprod := mul_pos (show 0 < 2 * ry + 1 by omega) hsq
  linarith

theorem height_end (hrx : 1 ≤ rx) : Height rx ry rx 0 := by
  have hsq : 0 < rx * rx := by positivity
  exact ⟨le_rfl, by simp, by simpa using hsq⟩

variable {d h k : ℤ}

theorem Height.next_le (hrx : 1 ≤ rx) (hd : 0 ≤ d) (hh : Height rx ry d h)
    (hk : Height rx ry (d + 1) k) : k ≤ h := by
  by_contra hgt
  have hsq : 0 < rx * rx := by positivity
  have hroot : (h + 1) * (h + 1) ≤ k * k :=
    mul_self_le_mul_self (by have := hh.nonneg; omega) (by omega)
  have hprod := mul_le_mul_of_nonneg_right hroot hsq.le
  have hgrow : 0 ≤ ry * ry * (2 * d + 1) := mul_nonneg (mul_self_nonneg ry) (by omega)
  have hfits := hk.fits
  have hnext := hh.next
  linarith

/-- In a flat ellipse the height falls by one at most from one column to the next. -/
theorem Height.le_next (hrx : 1 ≤ rx) (hflat : ry * ry * (2 * rx - 1) < 4 * (rx * rx))
    (hd : 0 ≤ d) (hend : d + 1 ≤ rx) (hh : Height rx ry d h) (hk : Height rx ry (d + 1) k) :
    h ≤ k + 1 := by
  by_contra hgt
  have hsq : 0 < rx * rx := by positivity
  have hry2 : 0 ≤ ry * ry := mul_self_nonneg ry
  have hroot : (k + 2) * (k + 2) ≤ h * h :=
    mul_self_le_mul_self (by have := hk.nonneg; omega) (by omega)
  have hprod := mul_le_mul_of_nonneg_right hroot hsq.le
  have hfits := hh.fits
  have hnext := hk.next
  rcases eq_or_lt_of_le hk.nonneg with rfl | hpos
  · rcases eq_or_lt_of_le hend with hlast | hless
    · -- the last column, which the condition is about
      obtain rfl : d = rx - 1 := by omega
      linarith
    · -- four times the square of the height there would exceed the one before
      have hfour : rx * rx - d * d ≤ 4 * (rx * rx - (d + 1) * (d + 1)) := by
        have hdiff : 0 ≤ (rx - (d + 1) - 1) * (rx + (d + 1)) := mul_nonneg (by omega) (by omega)
        linarith
      have hscaled := mul_le_mul_of_nonneg_left hfour hry2
      linarith
  · have hslope : ry * ry * (2 * d + 1) ≤ ry * ry * (2 * rx - 1) :=
      mul_le_mul_of_nonneg_left (by omega) hry2
    have hfive : 5 * (rx * rx) ≤ (2 * k + 3) * (rx * rx) :=
      mul_le_mul_of_nonneg_right (by omega) hsq.le
    linarith

/-- In a flat ellipse the heights of neighbouring columns differ by one at most. -/
theorem Height.step (hrx : 1 ≤ rx) (hflat : ry * ry * (2 * rx - 1) < 4 * (rx * rx))
    (hlow : -rx ≤ d) (hend : d + 1 ≤ rx) (hh : Height rx ry d h) (hk : Height rx ry (d + 1) k) :
    |h - k| ≤ 1 := by
  rw [abs_le]
  rcases le_or_gt 0 d with hd | hd
  · have hle := hh.next_le hrx hd hk
    have hge := hh.le_next hrx hflat hd hend hk
    omega
  · -- on the other side of the centre the columns come in the opposite order
    have hk' : Height rx ry (-(d + 1)) k := hk.neg
    have hh' : Height rx ry (-(d + 1) + 1) h := by
      have heq : -(d + 1) + 1 = -d := by ring
      rw [heq]
      exact hh.neg
    have hle := hk'.next_le hrx (by omega) hh'
    have hge := hk'.le_next hrx hflat (by omega) (by omega) hh'
    omega

/-- A flat ellipse has a column of every height. -/
theorem exists_height_eq {t : ℤ} (hrx : 1 ≤ rx) (hry : 0 ≤ ry)
    (hflat : ry * ry * (2 * rx - 1) < 4 * (rx * rx)) (ht : t ≤ ry) :
    ∀ (n : ℕ) (h : ℤ), (n : ℤ) ≤ rx → Height rx ry n h → h ≤ t →
      ∃ d, |d| ≤ rx ∧ Height rx ry d t := by
  intro n
  induction n with
  | zero =>
    intro h _ hh hle
    have hmiddle : h = ry := hh.unique hrx (height_zero hrx hry)
    obtain rfl : t = ry := by omega
    exact ⟨0, by simpa using by omega, height_zero hrx hry⟩
  | succ n ih =>
    intro k hn hk hle
    push_cast at hn hk
    obtain ⟨h, -, hh⟩ := ellipseExtent_height (d := n) hrx hry (abs_le.mpr ⟨by omega, by omega⟩)
    rcases le_or_gt h t with hless | hgreater
    · exact ih h (by omega) hh hless
    · have hge := hh.le_next hrx hflat (by omega) hn hk
      obtain rfl : k = t := by omega
      exact ⟨n + 1, abs_le.mpr ⟨by omega, by omega⟩, hk⟩

/-- In a steep ellipse every column but the two last ones has height two at least. -/
theorem Height.two_le (hrx : 1 ≤ rx) (hsteep : 4 * (rx * rx) ≤ ry * ry * (2 * rx - 1))
    (hd : |d| ≤ rx - 1) (hh : Height rx ry d h) : 2 ≤ h := by
  by_contra hlt
  have hsq : 0 < rx * rx := by positivity
  have hroot : (h + 1) * (h + 1) ≤ 2 * 2 :=
    mul_self_le_mul_self (by have := hh.nonneg; omega) (by omega)
  have hprod := mul_le_mul_of_nonneg_right hroot hsq.le
  have hdd : d * d ≤ (rx - 1) * (rx - 1) := by
    rw [← abs_mul_abs_self d]
    exact mul_self_le_mul_self (abs_nonneg d) hd
  have hscaled := mul_le_mul_of_nonneg_left hdd (mul_self_nonneg ry)
  have hnext := hh.next
  linarith

end

/-- The outline of a flat ellipse is joined to its right end. -/
theorem joined_to_end {s : ℤ} (hrx : 1 ≤ rx) (hry : 0 ≤ ry)
    (hflat : ry * ry * (2 * rx - 1) < 4 * (rx * rx)) (hs : s = 1 ∨ s = -1)
    (hmem : ∀ d h, |d| ≤ rx → Height rx ry d h → (x + d, y + s * h) ∈ points) :
    ∀ (n : ℕ) (d h : ℤ), -rx ≤ d → d + n = rx → Height rx ry d h →
      Relation.ReflTransGen (Joined points) (x + d, y + s * h) (x + rx, y) := by
  intro n
  induction n with
  | zero =>
    intro d h _ hn hh
    obtain rfl : d = rx := by omega
    obtain rfl : h = 0 := hh.unique hrx (height_end hrx)
    rw [mul_zero, add_zero]
  | succ n ih =>
    intro d h hlow hn hh
    have hd : |d| ≤ rx := abs_le.mpr ⟨by omega, by omega⟩
    have hd' : |d + 1| ≤ rx := abs_le.mpr ⟨by omega, by omega⟩
    obtain ⟨k, -, hk⟩ := ellipseExtent_height hrx hry hd'
    have hstep := abs_le.mp (hh.step hrx hflat hlow (by omega) hk)
    have hrow : |y + s * h - (y + s * k)| ≤ 1 := by
      rw [abs_le]
      rcases hs with rfl | rfl <;> omega
    have htouch : Touches (x + d, y + s * h) (x + (d + 1), y + s * k) :=
      ⟨abs_le.mpr ⟨by simp only; omega, by simp only; omega⟩, hrow⟩
    exact Relation.ReflTransGen.head ⟨hmem d h hd hh, hmem (d + 1) k hd' hk, htouch⟩
      (ih (d + 1) k (by omega) (by omega) hk)

/-- The outline of a flat ellipse has no gaps. -/
theorem closedOutline_of_flat (hrx : 1 ≤ rx) (hry : 0 ≤ ry)
    (hflat : ry * ry * (2 * rx - 1) < 4 * (rx * rx))
    (hmem : ∀ p, p ∈ points ↔ ∃ d h, |d| ≤ rx ∧ Height rx ry d h ∧
      (p = (x + d, y + h) ∨ p = (x + d, y - h))) : ClosedOutline x y rx ry points := by
  have hplus : ∀ d h, |d| ≤ rx → Height rx ry d h → (x + d, y + 1 * h) ∈ points := by
    intro d h hd hh
    rw [one_mul]
    exact (hmem _).mpr ⟨d, h, hd, hh, .inl rfl⟩
  have hminus : ∀ d h, |d| ≤ rx → Height rx ry d h → (x + d, y + -1 * h) ∈ points := by
    intro d h hd hh
    rw [neg_one_mul, ← sub_eq_add_neg]
    exact (hmem _).mpr ⟨d, h, hd, hh, .inr rfl⟩
  have hjoined : ∀ p ∈ points, Relation.ReflTransGen (Joined points) p (x + rx, y) := by
    intro p hp
    obtain ⟨d, h, hd, hh, hp⟩ := (hmem p).mp hp
    obtain ⟨hlow, hhigh⟩ := abs_le.mp hd
    rcases hp with rfl | rfl
    · have hend := joined_to_end hrx hry hflat (.inl rfl) hplus (rx - d).toNat d h hlow (by omega) hh
      rwa [one_mul] at hend
    · have hend := joined_to_end hrx hry hflat (.inr rfl) hminus (rx - d).toNat d h hlow (by omega) hh
      rwa [neg_one_mul, ← sub_eq_add_neg] at hend
  have hcolumn : ∀ t, 0 ≤ t → t ≤ ry → ∃ d, |d| ≤ rx ∧ Height rx ry d t := by
    intro t ht htry
    refine exists_height_eq hrx hry hflat htry rx.toNat 0 (by omega) ?_ ht
    rw [Int.toNat_of_nonneg (by omega)]
    exact height_end hrx
  constructor
  · intro row hlow hhigh
    rcases le_total y row with hle | hle
    · obtain ⟨d, hd, hh⟩ := hcolumn (row - y) (by omega) (by omega)
      have hp := hplus d _ hd hh
      rw [one_mul, add_sub_cancel] at hp
      exact ⟨x + d, hp⟩
    · obtain ⟨d, hd, hh⟩ := hcolumn (y - row) (by omega) (by omega)
      have hp := hminus d _ hd hh
      rw [neg_one_mul, neg_sub, add_sub_cancel] at hp
      exact ⟨x + d, hp⟩
  · intro column hlow hhigh
    have hd : |column - x| ≤ rx := abs_le.mpr ⟨by omega, by omega⟩
    obtain ⟨h, -, hh⟩ := ellipseExtent_height hrx hry hd
    have hp := hplus _ h hd hh
    rw [add_sub_cancel] at hp
    exact ⟨_, hp⟩
  · intro p hp q hq
    exact (hjoined p hp).trans (Std.Symm.symm _ _ (hjoined q hq))

/-- The outline of a steep ellipse misses the rows next to its axis. -/
theorem not_closedOutline_of_steep (hrx : 1 ≤ rx)
    (hry : 0 ≤ ry) (hsteep : 4 * (rx * rx) ≤ ry * ry * (2 * rx - 1))
    (hmem : ∀ p, p ∈ points ↔ ∃ d h, |d| ≤ rx ∧ Height rx ry d h ∧
      (p = (x + d, y + h) ∨ p = (x + d, y - h))) : ¬ ClosedOutline x y rx ry points := by
  intro hclosed
  have htall : 2 ≤ ry := (height_zero hrx hry).two_le hrx hsteep (by rw [abs_zero]; omega)
  obtain ⟨column, hp⟩ := hclosed.rows (y + 1) (by omega) (by omega)
  obtain ⟨d, h, hd, hh, hp⟩ := (hmem _).mp hp
  simp only [Prod.mk.injEq, add_right_inj] at hp
  rcases lt_or_eq_of_le hd with hless | hend
  · have htwo := hh.two_le hrx hsteep (by omega)
    omega
  · -- the two last columns have height zero
    have hrxh : Height rx ry rx h := by
      rcases abs_eq (show 0 ≤ rx by omega) |>.mp hend with rfl | rfl
      · exact hh
      · have hright := hh.neg
        rwa [neg_neg] at hright
    have hzero : h = 0 := hrxh.unique hrx (height_end hrx)
    omega

/-- The outline that `canvas_ellipse` plots is a closed curve without gaps exactly when the
ellipse is flat: in the last column but one its height is below two. -/
theorem ellipse_closed_iff (x y : ℤ) {rx ry : ℤ} (hrx : 1 ≤ rx) (hry : 1 ≤ ry) :
    (∃ points, planeEllipse x y rx ry = some points ∧ ClosedOutline x y rx ry points) ↔
      ry * ry * (2 * rx - 1) < 4 * (rx * rx) := by
  obtain ⟨points, hpoints, hmem⟩ := planeEllipse_points x y hrx (show 0 ≤ ry by omega)
  constructor
  · rintro ⟨points', hpoints', hclosed⟩
    obtain rfl : points' = points := Option.some.inj (hpoints'.symm.trans hpoints)
    by_contra hsteep
    exact not_closedOutline_of_steep hrx (by omega) (not_lt.mp hsteep) hmem hclosed
  · intro hflat
    exact ⟨points, hpoints, closedOutline_of_flat hrx (by omega) hflat hmem⟩

/-- The outline of a wide ellipse of height one is closed. -/
theorem ellipse_closed_five_one :
    ∃ points, planeEllipse 0 0 5 1 = some points ∧ ClosedOutline 0 0 5 1 points :=
  (ellipse_closed_iff 0 0 (show (1 : ℤ) ≤ 5 by decide) (show (1 : ℤ) ≤ 1 by decide)).mpr (by decide)

/-- The ellipse that `drawdemo` draws has no pixel in the row below its centre. -/
theorem ellipse_of_drawdemo_has_gap :
    ¬ ∃ points, planeEllipse 264 112 34 18 = some points ∧ ClosedOutline 264 112 34 18 points := by
  have hrow : (planeEllipse 264 112 34 18).map (fun ps => ps.all fun p => p.2 ≠ 113) = some true := by
    decide +kernel
  rintro ⟨points, hpoints, hclosed⟩
  rw [hpoints, Option.map_some, Option.some.injEq, all_eq_true] at hrow
  obtain ⟨column, hp⟩ := hclosed.rows 113 (by decide) (by decide)
  exact absurd (hrow _ hp) (by simp)

end Xv6Draw
