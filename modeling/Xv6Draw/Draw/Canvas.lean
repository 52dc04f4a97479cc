import Xv6Draw.Lib.Loop
import Mathlib.Tactic.Linarith
import Mathlib.Tactic.Ring

/-!
# The drawing library

The primitives of `drawlib.c` over the memory around the canvas, which is a
function from offsets to bytes, so that a store outside the 64000 bytes would
show. Coordinates are integers without bound: the code computes with `int` and
`int64`, and the two agree as long as nothing overflows. Loops without an obvious
end carry a bound on their passes, and `none` would mean that it was too small.

Every primitive terminates and paints: it stores its colour, inside the canvas,
and changes nothing else.
-/

namespace Xv6Draw

open Function List Loop

/-- `CANVAS_WIDTH`. -/
def canvasWidth : ℤ := 320

/-- `CANVAS_HEIGHT`. -/
def canvasHeight : ℤ := 200

/-- `CANVAS_SIZE`. -/
def canvasSize : ℤ := canvasWidth * canvasHeight

/-- `POLYGON_MAX_POINTS`. -/
def polygonMaxPoints : ℕ := 16

/-- The memory at each offset from the start of the canvas. -/
abbrev Canvas := ℤ → ℕ

/-- `abs_int`. -/
def absInt (value : ℤ) : ℤ := if value < 0 then -value else value

/-- `draw_hline`. -/
def drawHline (canvas : Canvas) (y x0 x1 : ℤ) (color : ℕ) : Canvas :=
  if y < 0 ∨ canvasHeight ≤ y then canvas
  else
    let left := if x1 < x0 then x1 else x0
    let right := if x1 < x0 then x0 else x1
    if right < 0 ∨ canvasWidth ≤ left then canvas
    else
      let left := if left < 0 then 0 else left
      let right := if canvasWidth ≤ right then canvasWidth - 1 else right
      (upTo left right).foldl (fun c x => update c (y * canvasWidth + x) color) canvas

/-- `min3`. -/
def min3 (a b c : ℤ) : ℤ :=
  let result := if b < a then b else a
  if c < result then c else result

/-- `max3`. -/
def max3 (a b c : ℤ) : ℤ :=
  let result := if a < b then b else a
  if result < c then c else result

/-- `edge_function`. -/
def edgeFunction (ax ay bx «by» px py : ℤ) : ℤ := (px - ax) * («by» - ay) - (py - ay) * (bx - ax)

/-- One comparison of `sort_ints`, with its exchange. -/
def sortStep (values : List ℤ) (i j : ℕ) : List ℤ :=
  if values.getD j 0 < values.getD i 0 then
    (values.set i (values.getD j 0)).set j (values.getD i 0)
  else values

/-- `sort_ints`. -/
def sortInts (values : List ℤ) : List ℤ :=
  (range values.length).foldl (fun vs i =>
    (range' (i + 1) (values.length - (i + 1))).foldl (fun vs j => sortStep vs i j) vs) values

/-- `canvas_clear`. -/
def canvasClear (canvas : Canvas) (color : ℕ) : Canvas :=
  fun i => if 0 ≤ i ∧ i < canvasSize then color else canvas i

/-- `canvas_pixel`. -/
def canvasPixel (canvas : Canvas) (x y : ℤ) (color : ℕ) : Canvas :=
  if x < 0 ∨ canvasWidth ≤ x ∨ y < 0 ∨ canvasHeight ≤ y then canvas
  else update canvas (y * canvasWidth + x) color

/-- The variables of the loop of `canvas_line` that change. -/
structure LineState where
  canvas : Canvas
  x : ℤ
  y : ℤ
  err : ℤ

/-- A pass of the loop of `canvas_line` that does not end it. -/
def lineStep (dx sx dy sy : ℤ) (color : ℕ) (s : LineState) : LineState :=
  let canvas := canvasPixel s.canvas s.x s.y color
  let err2 := 2 * s.err
  let err := if dy ≤ err2 then s.err + dy else s.err
  let x := if dy ≤ err2 then s.x + sx else s.x
  let y := if err2 ≤ dx then s.y + sy else s.y
  let err := if err2 ≤ dx then err + dx else err
  ⟨canvas, x, y, err⟩

/-- `canvas_line`. The loop plots a point before it looks for the end, so the end
point is plotted behind the loop here. -/
def canvasLine (canvas : Canvas) (x1 y1 x2 y2 : ℤ) (color : ℕ) : Option Canvas :=
  let dx := absInt (x2 - x1)
  let sx := if x1 < x2 then 1 else -1
  let dy := -absInt (y2 - y1)
  let sy := if y1 < y2 then 1 else -1
  (whileLoop (fun s => !(s.x = x2 ∧ s.y = y2)) (lineStep dx sx dy sy color)
    (max dx (-dy)).toNat ⟨canvas, x1, y1, dx + dy⟩).map fun s => canvasPixel s.canvas s.x s.y color

/-- `canvas_rect`. -/
def canvasRect (canvas : Canvas) (x y w h : ℤ) (color : ℕ) : Option Canvas :=
  if w ≤ 0 ∨ h ≤ 0 then some canvas
  else do
    let canvas ← canvasLine canvas x y (x + w - 1) y color
    let canvas ← canvasLine canvas x y x (y + h - 1) color
    let canvas ← canvasLine canvas (x + w - 1) y (x + w - 1) (y + h - 1) color
    canvasLine canvas x (y + h - 1) (x + w - 1) (y + h - 1) color

/-- `canvas_fillrect`. -/
def canvasFillrect (canvas : Canvas) (x y w h : ℤ) (color : ℕ) : Canvas :=
  if w ≤ 0 ∨ h ≤ 0 then canvas
  else (upTo 0 (h - 1)).foldl (fun c row => drawHline c (y + row) x (x + w - 1) color) canvas

/-- The variables of the loops of `canvas_circle` and `canvas_fillcircle`. -/
structure CircleState where
  canvas : Canvas
  /-- The longer offset from the centre. -/
  cx : ℤ
  /-- The shorter offset from the centre. -/
  cy : ℤ
  err : ℤ

/-- A pass of either loop, around what it draws. -/
def circleStep (draw : Canvas → ℤ → ℤ → Canvas) (s : CircleState) : CircleState :=
  let canvas := draw s.canvas s.cx s.cy
  let cy := s.cy + 1
  if s.err < 0 then ⟨canvas, s.cx, cy, s.err + (2 * cy + 1)⟩
  else ⟨canvas, s.cx - 1, cy, s.err + (2 * (cy - (s.cx - 1)) + 1)⟩

/-- Either loop, around what a pass draws. -/
def circleLoop (draw : Canvas → ℤ → ℤ → Canvas) (canvas : Canvas) (radius : ℤ) : Option Canvas :=
  if radius < 0 then some canvas
  else (whileLoop (fun s => s.cy ≤ s.cx) (circleStep draw) (radius + 1).toNat
    ⟨canvas, radius, 0, 1 - radius⟩).map CircleState.canvas

/-- The eight points of a pass of `canvas_circle`. -/
def circlePoints (x y : ℤ) (color : ℕ) (canvas : Canvas) (cx cy : ℤ) : Canvas :=
  let canvas := canvasPixel canvas (x + cx) (y + cy) color
  let canvas := canvasPixel canvas (x + cy) (y + cx) color
  let canvas := canvasPixel canvas (x - cy) (y + cx) color
  let canvas := canvasPixel canvas (x - cx) (y + cy) color
  let canvas := canvasPixel canvas (x - cx) (y - cy) color
  let canvas := canvasPixel canvas (x - cy) (y - cx) color
  let canvas := canvasPixel canvas (x + cy) (y - cx) color
  canvasPixel canvas (x + cx) (y - cy) color

/-- The four rows of a pass of `canvas_fillcircle`. -/
def circleRows (x y : ℤ) (color : ℕ) (canvas : Canvas) (cx cy : ℤ) : Canvas :=
  let canvas := drawHline canvas (y + cy) (x - cx) (x + cx) color
  let canvas := drawHline canvas (y - cy) (x - cx) (x + cx) color
  let canvas := drawHline canvas (y + cx) (x - cy) (x + cy) color
  drawHline canvas (y - cx) (x - cy) (x + cy) color

/-- `canvas_circle`. -/
def canvasCircle (canvas : Canvas) (x y radius : ℤ) (color : ℕ) : Option Canvas :=
  circleLoop (circlePoints x y color) canvas radius

/-- `canvas_fillcircle`. -/
def canvasFillcircle (canvas : Canvas) (x y radius : ℤ) (color : ℕ) : Option Canvas :=
  circleLoop (circleRows x y color) canvas radius

/-- `canvas_triangle`. -/
def canvasTriangle (canvas : Canvas) (x1 y1 x2 y2 x3 y3 : ℤ) (color : ℕ) : Option Canvas := do
  let canvas ← canvasLine canvas x1 y1 x2 y2 color
  let canvas ← canvasLine canvas x2 y2 x3 y3 color
  canvasLine canvas x3 y3 x1 y1 color

/-- The test of `canvas_filltriangle` on one point. -/
def inTriangle (x1 y1 x2 y2 x3 y3 x y : ℤ) : Bool :=
  let area := edgeFunction x1 y1 x2 y2 x3 y3
  let w0 := edgeFunction x2 y2 x3 y3 x y
  let w1 := edgeFunction x3 y3 x1 y1 x y
  let w2 := edgeFunction x1 y1 x2 y2 x y
  (0 < area ∧ 0 ≤ w0 ∧ 0 ≤ w1 ∧ 0 ≤ w2) ∨ (area < 0 ∧ w0 ≤ 0 ∧ w1 ≤ 0 ∧ w2 ≤ 0)

/-- `canvas_filltriangle`. -/
def canvasFilltriangle (canvas : Canvas) (x1 y1 x2 y2 x3 y3 : ℤ) (color : ℕ) : Option Canvas :=
  if edgeFunction x1 y1 x2 y2 x3 y3 = 0 then canvasTriangle canvas x1 y1 x2 y2 x3 y3 color
  else
    let minX := if min3 x1 x2 x3 < 0 then 0 else min3 x1 x2 x3
    let maxX := if canvasWidth ≤ max3 x1 x2 x3 then canvasWidth - 1 else max3 x1 x2 x3
    let minY := if min3 y1 y2 y3 < 0 then 0 else min3 y1 y2 y3
    let maxY := if canvasHeight ≤ max3 y1 y2 y3 then canvasHeight - 1 else max3 y1 y2 y3
    some ((upTo minY maxY).foldl (fun c y => (upTo minX maxX).foldl (fun c x =>
      if inTriangle x1 y1 x2 y2 x3 y3 x y then canvasPixel c x y color else c) c) canvas)

/-- The search of both ellipse functions for the largest `p` with `p * p * r2` at
most `inside`, from zero upwards; `bound` limits the passes. -/
def ellipseExtent (r2 inside : ℤ) (bound : ℕ) : Option ℤ :=
  (whileLoop (fun p : ℤ => p * p * r2 ≤ inside) (· + 1) bound 0).map (· - 1)

/-- `canvas_ellipse`. -/
def canvasEllipse (canvas : Canvas) (x y rx ry : ℤ) (color : ℕ) : Option Canvas :=
  if rx < 0 ∨ ry < 0 then some canvas
  else if rx = 0 ∧ ry = 0 then some (canvasPixel canvas x y color)
  else if rx = 0 then
    -- the first loop breaks at once, and the second one draws
    some ((upTo (-ry) ry).foldl (fun c px => canvasPixel c x (y + px) color) canvas)
  else
    (upTo (-rx) rx).foldlM (fun c px => do
      let py ← ellipseExtent (rx * rx) (ry * ry * (rx * rx - px * px)) (ry + 1).toNat
      some (canvasPixel (canvasPixel c (x + px) (y + py) color) (x + px) (y - py) color)) canvas

/-- `canvas_fillellipse`. -/
def canvasFillellipse (canvas : Canvas) (x y rx ry : ℤ) (color : ℕ) : Option Canvas :=
  if rx < 0 ∨ ry < 0 then some canvas
  else if rx = 0 ∧ ry = 0 then some (canvasPixel canvas x y color)
  else if rx = 0 then
    some ((upTo (-ry) ry).foldl (fun c py => canvasPixel c x (y + py) color) canvas)
  else if ry = 0 then some (drawHline canvas y (x - rx) (x + rx) color)
  else
    (upTo (-ry) ry).foldlM (fun c py => do
      let px ← ellipseExtent (ry * ry) (rx * rx * (ry * ry - py * py)) (rx + 1).toNat
      some (drawHline c (y + py) (x - px) (x + px) color)) canvas

/-- `canvas_polygon`, with `count` points in the two arrays. -/
def canvasPolygon (canvas : Canvas) (xs ys : List ℤ) (count : ℕ) (color : ℕ) : Option Canvas :=
  if count < 2 then some canvas
  else (range count).foldlM (fun c i =>
    let next := (i + 1) % count
    canvasLine c (xs.getD i 0) (ys.getD i 0) (xs.getD next 0) (ys.getD next 0) color) canvas

/-- The crossings of row `y` with the edges, as `canvas_fillpolygon` records them. -/
def polygonHits (xs ys : List ℤ) (count : ℕ) (y : ℤ) : List ℤ :=
  (range count).filterMap fun i =>
    let next := (i + 1) % count
    let y0 := ys.getD i 0
    let y1 := ys.getD next 0
    let x0 := xs.getD i 0
    let x1 := xs.getD next 0
    if y0 = y1 then none
    else if (y0 ≤ y ∧ y < y1) ∨ (y1 ≤ y ∧ y < y0) then
      some (x0 + Int.tdiv ((y - y0) * (x1 - x0)) (y1 - y0))
    else none

/-- The last loop of `canvas_fillpolygon`: a row between every two crossings. -/
def drawPairs (y : ℤ) (color : ℕ) (canvas : Canvas) : List ℤ → Canvas
  | a :: b :: rest => drawPairs y color (drawHline canvas y a b color) rest
  | _ => canvas

/-- `canvas_fillpolygon`. -/
def canvasFillpolygon (canvas : Canvas) (xs ys : List ℤ) (count : ℕ) (color : ℕ) : Canvas :=
  if count < 3 ∨ polygonMaxPoints < count then canvas
  else
    let minY := (range' 1 (count - 1)).foldl
      (fun m i => if ys.getD i 0 < m then ys.getD i 0 else m) (ys.getD 0 0)
    let maxY := (range' 1 (count - 1)).foldl
      (fun m i => if m < ys.getD i 0 then ys.getD i 0 else m) (ys.getD 0 0)
    let minY := if minY < 0 then 0 else minY
    let maxY := if canvasHeight ≤ maxY then canvasHeight - 1 else maxY
    (upTo minY maxY).foldl (fun c y =>
      if (polygonHits xs ys count y).length < 2 then c
      else drawPairs y color c (sortInts (polygonHits xs ys count y))) canvas

/-- Painting with a colour: every byte stays, or holds the colour and lies inside
the canvas. -/
def Paints (color : ℕ) (c c' : Canvas) : Prop :=
  ∀ i, c' i = c i ∨ (c' i = color ∧ 0 ≤ i ∧ i < canvasSize)

@[refl] theorem Paints.refl (color : ℕ) (c : Canvas) : Paints color c c := fun _ => .inl rfl

variable {color : ℕ} {c : Canvas}

@[trans] theorem Paints.trans {a b : Canvas} (hab : Paints color a b)
    (hbc : Paints color b c) : Paints color a c := by
  intro i
  rcases hbc i with hsame | hpaint
  · rw [hsame]
    exact hab i
  · exact .inr hpaint

theorem paints_store {x y : ℤ} (hx : 0 ≤ x ∧ x < canvasWidth) (hy : 0 ≤ y ∧ y < canvasHeight)
    (c : Canvas) (color : ℕ) :
    Paints color c (update c (y * canvasWidth + x) color) := by
  intro i
  by_cases hi : i = y * canvasWidth + x
  · subst i
    unfold canvasSize canvasWidth canvasHeight at *
    exact .inr ⟨update_self _ _ _, by omega, by omega⟩
  · exact .inl (update_of_ne hi _ _)

theorem paints_clear (c : Canvas) (color : ℕ) : Paints color c (canvasClear c color) := by
  intro i
  unfold canvasClear
  split_ifs with hi
  · exact .inr ⟨rfl, hi⟩
  · exact .inl rfl

theorem paints_pixel (c : Canvas) (x y : ℤ) (color : ℕ) : Paints color c (canvasPixel c x y color) := by
  unfold canvasPixel
  split_ifs with hout
  · rfl
  · exact paints_store (by omega) (by omega) c color

theorem paints_hline (c : Canvas) (y x0 x1 : ℤ) (color : ℕ) :
    Paints color c (drawHline c y x0 x1 color) := by
  unfold drawHline
  by_cases hy : y < 0 ∨ canvasHeight ≤ y
  · rw [if_pos hy]
  · rw [if_neg hy]
    simp only
    split_ifs
    all_goals first
      | rfl
      | apply foldl_rule (I := Paints color c) _ (Paints.refl color c)
        intro s x hx hs
        have hx' := mem_upTo.mp hx
        refine hs.trans (paints_store ?_ (by omega) s color)
        omega

/-- What the loop of `canvas_line` keeps. With `dx` and `dy` steps to go in all and
`a` and `b` of them left, the error term is twice the distance from the ideal line
up to a constant, and it stays within half a step of the longer axis. -/
structure LineInv (c : Canvas) (color : ℕ) (dx dy a b : ℤ) (s : LineState) : Prop where
  paints : Paints color c s.canvas
  err_eq : s.err = dx - dy + (dy * a - dx * b)
  low : -max dx dy ≤ 2 * (dy * a - dx * b)
  high : 2 * (dy * a - dx * b) ≤ max dx dy
  a_le : a ≤ dx
  b_le : b ≤ dy
  long : (dy ≤ dx → 0 ≤ a) ∧ (dx < dy → 0 ≤ b)
  still : dx = 0 → dy = 0 → b = 0

/-- The steps left along the longer axis. -/
def lineLeft (dx dy a b : ℤ) : ℕ := if dy ≤ dx then a.toNat else b.toNat

/-- Before the end there is a step left along the longer axis. -/
theorem LineInv.long_pos {dx dy a b : ℤ} {s : LineState} (hdx : 0 ≤ dx)
    (hdy : 0 ≤ dy) (hinv : LineInv c color dx dy a b s) (hopen : ¬ (a = 0 ∧ b = 0)) :
    (dy ≤ dx → 0 < a) ∧ (dx < dy → 0 < b) := by
  obtain ⟨-, -, hlow, hhigh, -, -, hlong, hstill⟩ := hinv
  constructor
  · intro hmajor
    have ha := hlong.1 hmajor
    rw [max_eq_left hmajor] at hlow hhigh
    by_contra hzero
    have haz : a = 0 := by omega
    subst a
    have hb : b ≠ 0 := fun h => hopen ⟨rfl, h⟩
    rcases lt_or_gt_of_ne hb with hneg | hpos
    · have hprod : dx * 1 ≤ dx * -b := mul_le_mul_of_nonneg_left (by omega) hdx
      have hdx0 : dx = 0 := by linarith
      exact hb (hstill hdx0 (by omega))
    · have hprod : dx * 1 ≤ dx * b := mul_le_mul_of_nonneg_left (by omega) hdx
      have hdx0 : dx = 0 := by linarith
      exact hb (hstill hdx0 (by omega))
  · intro hmajor
    rw [max_eq_right hmajor.le] at hlow hhigh
    by_contra hzero
    have hbz : b = 0 := by omega
    subst b
    have ha : a ≠ 0 := fun h => hopen ⟨h, rfl⟩
    rcases lt_or_gt_of_ne ha with hneg | hpos
    · have hprod : dy * 1 ≤ dy * -a := mul_le_mul_of_nonneg_left (by omega) hdy
      linarith
    · have hprod : dy * 1 ≤ dy * a := mul_le_mul_of_nonneg_left (by omega) hdy
      linarith

/-- The effect of a pass, by the steps it takes. -/
theorem lineStep_eq (dx sx dy sy : ℤ) (color : ℕ) (s : LineState) : lineStep dx sx dy sy color s =
      ⟨canvasPixel s.canvas s.x s.y color, s.x + (if dy ≤ 2 * s.err then 1 else 0) * sx,
        s.y + (if 2 * s.err ≤ dx then 1 else 0) * sy,
        s.err + (if dy ≤ 2 * s.err then 1 else 0) * dy +
          (if 2 * s.err ≤ dx then 1 else 0) * dx⟩ := by
  by_cases hx : dy ≤ 2 * s.err
  · by_cases hy : 2 * s.err ≤ dx
    · simp only [lineStep, if_pos hx, if_pos hy, one_mul]
    · simp only [lineStep, if_pos hx, if_neg hy, one_mul, zero_mul, add_zero]
  · by_cases hy : 2 * s.err ≤ dx
    · simp only [lineStep, if_neg hx, if_pos hy, one_mul, zero_mul, add_zero]
    · simp only [lineStep, if_neg hx, if_neg hy, zero_mul, add_zero]

/-- A pass before the end takes one step along the longer axis and at most one
along the other, and keeps the invariant. -/
theorem LineInv.step {dx dy a b : ℤ} {s : LineState} (hdx : 0 ≤ dx)
    (hdy : 0 ≤ dy) (hinv : LineInv c color dx dy a b s) (hopen : ¬ (a = 0 ∧ b = 0)) (sx sy : ℤ) :
    ∃ i j, (lineStep dx sx (-dy) sy color s).x = s.x + i * sx ∧
      (lineStep dx sx (-dy) sy color s).y = s.y + j * sy ∧
      LineInv c color dx dy (a - i) (b - j) (lineStep dx sx (-dy) sy color s) ∧
      lineLeft dx dy (a - i) (b - j) + 1 = lineLeft dx dy a b ∧
      (i = 0 ∨ i = 1) ∧ (j = 0 ∨ j = 1) ∧ (dy ≤ dx → i = 1) ∧ (dx ≤ dy → j = 1) := by
  obtain ⟨hxpos, hypos⟩ := hinv.long_pos hdx hdy hopen
  obtain ⟨hpaints, herr, hlow, hhigh, ha, hb, -, -⟩ := hinv
  rw [lineStep_eq]
  generalize hi : (if -dy ≤ 2 * s.err then 1 else 0 : ℤ) = i
  generalize hj : (if 2 * s.err ≤ dx then 1 else 0 : ℤ) = j
  have hi' : (i = 1 ∧ -dy ≤ 2 * s.err) ∨ (i = 0 ∧ 2 * s.err < -dy) := by split_ifs at hi <;> omega
  have hj' : (j = 1 ∧ 2 * s.err ≤ dx) ∨ (j = 0 ∧ dx < 2 * s.err) := by split_ifs at hj <;> omega
  have herr' : s.err + i * -dy + j * dx = dx - dy + (dy * (a - i) - dx * (b - j)) := by
    rw [herr]
    ring
  have hxi : dy * (a - i) = dy * a - i * dy := by ring
  have hyj : dx * (b - j) = dx * b - j * dx := by ring
  have hlong : (dy ≤ dx → i = 1) ∧ (dx ≤ dy → j = 1) := by
    constructor
    · intro hmajor
      omega
    · intro hmajor
      omega
  have hbounds : -max dx dy ≤ 2 * (dy * (a - i) - dx * (b - j)) ∧
      2 * (dy * (a - i) - dx * (b - j)) ≤ max dx dy := by
    rw [hxi, hyj]
    rcases le_or_gt dy dx with hmajor | hmajor
    · rw [max_eq_left hmajor] at hlow hhigh ⊢
      rw [hlong.1 hmajor]
      rcases hj' with ⟨rfl, hy⟩ | ⟨rfl, hy⟩ <;> omega
    · rw [max_eq_right hmajor.le] at hlow hhigh ⊢
      rw [hlong.2 hmajor.le]
      rcases hi' with ⟨rfl, hx⟩ | ⟨rfl, hx⟩ <;> omega
  refine ⟨i, j, rfl, rfl, ⟨hpaints.trans (paints_pixel _ _ _ _), herr', hbounds.1, hbounds.2,
    by omega, by omega, by omega, ?_⟩, ?_, by omega, by omega, hlong.1, hlong.2⟩
  · rintro rfl rfl
    omega
  · unfold lineLeft
    rcases le_or_gt dy dx with hmajor | hmajor
    · rw [if_pos hmajor, if_pos hmajor, hlong.1 hmajor]
      omega
    · rw [if_neg (not_le.mpr hmajor), if_neg (not_le.mpr hmajor), hlong.2 hmajor.le]
      omega

/-- The steps of `canvas_line` along one axis: their number and direction. -/
theorem absInt_mul_sign (p q : ℤ) :
    0 ≤ absInt (q - p) ∧ p + absInt (q - p) * (if p < q then 1 else -1) = q := by
  unfold absInt
  split_ifs <;> omega

section

variable {c : Canvas} {color : ℕ} {dx dy sx sy x1 y1 x2 y2 : ℤ}

/-- The invariant at the start of the loop, where all steps are left. -/
theorem lineInv_start (c : Canvas) (color : ℕ) (hdx : 0 ≤ dx) (hdy : 0 ≤ dy)
    (hxend : (x2 - x1) * sx = dx) (hyend : (y2 - y1) * sy = dy) :
    LineInv c color dx dy ((x2 - x1) * sx) ((y2 - y1) * sy) ⟨c, x1, y1, dx + -dy⟩ := by
  rw [hxend, hyend]
  have hzero : dy * dx - dx * dy = 0 := by ring
  refine ⟨Paints.refl color c, ?_, ?_, ?_, le_rfl, le_rfl, by omega, by omega⟩
  · rw [hzero]
    ring
  · rw [hzero]
    omega
  · rw [hzero]
    omega

/-- A pass of the loop before the end point. The position determines the steps that are left
along both axes. -/
theorem LineInv.pass (hdx : 0 ≤ dx) (hdy : 0 ≤ dy) (hsx : sx = 1 ∨ sx = -1) (hsy : sy = 1 ∨ sy = -1)
    {s : LineState} (hs : LineInv c color dx dy ((x2 - s.x) * sx) ((y2 - s.y) * sy) s)
    (hcond : (!decide (s.x = x2 ∧ s.y = y2)) = true) :
    LineInv c color dx dy ((x2 - (lineStep dx sx (-dy) sy color s).x) * sx)
        ((y2 - (lineStep dx sx (-dy) sy color s).y) * sy) (lineStep dx sx (-dy) sy color s) ∧
      lineLeft dx dy ((x2 - (lineStep dx sx (-dy) sy color s).x) * sx)
          ((y2 - (lineStep dx sx (-dy) sy color s).y) * sy) <
        lineLeft dx dy ((x2 - s.x) * sx) ((y2 - s.y) * sy) := by
  have hopen : ¬ ((x2 - s.x) * sx = 0 ∧ (y2 - s.y) * sy = 0) := by
    simp only [Bool.not_eq_true', decide_eq_false_iff_not] at hcond
    rcases hsx with rfl | rfl <;> rcases hsy with rfl | rfl <;> omega
  obtain ⟨i, j, hx, hy, hkeep, hless, -⟩ := hs.step hdx hdy hopen sx sy
  have ha : (x2 - (lineStep dx sx (-dy) sy color s).x) * sx = (x2 - s.x) * sx - i := by
    rw [hx]
    rcases hsx with rfl | rfl <;> ring
  have hb : (y2 - (lineStep dx sx (-dy) sy color s).y) * sy = (y2 - s.y) * sy - j := by
    rw [hy]
    rcases hsy with rfl | rfl <;> ring
  rw [ha, hb]
  exact ⟨hkeep, by omega⟩

end

theorem line_direction (p q : ℤ) :
    (if p < q then 1 else -1 : ℤ) = 1 ∨ (if p < q then 1 else -1 : ℤ) = -1 := by
  split_ifs <;> omega

theorem paints_line (c : Canvas) (x1 y1 x2 y2 : ℤ) (color : ℕ) :
    ∃ c', canvasLine c x1 y1 x2 y2 color = some c' ∧ Paints color c c' := by
  obtain ⟨hdx, hxend⟩ := absInt_mul_sign x1 x2
  obtain ⟨hdy, hyend⟩ := absInt_mul_sign y1 y2
  have hsx := line_direction x1 x2
  have hsy := line_direction y1 y2
  unfold canvasLine
  generalize absInt (x2 - x1) = dx at *
  generalize absInt (y2 - y1) = dy at *
  generalize (if x1 < x2 then 1 else -1 : ℤ) = sx at *
  generalize (if y1 < y2 then 1 else -1 : ℤ) = sy at *
  have hstart : LineInv c color dx dy ((x2 - x1) * sx) ((y2 - y1) * sy) ⟨c, x1, y1, dx + -dy⟩ := by
    apply lineInv_start c color hdx hdy
    · rcases hsx with rfl | rfl <;> omega
    · rcases hsy with rfl | rfl <;> omega
  have hbound : lineLeft dx dy ((x2 - x1) * sx) ((y2 - y1) * sy) ≤ (max dx (- -dy)).toNat := by
    have ha := hstart.a_le
    have hb := hstart.b_le
    unfold lineLeft
    split_ifs <;> omega
  obtain ⟨s, hloop, hs, -⟩ := whileLoop_rule
    (I := fun s => LineInv c color dx dy ((x2 - s.x) * sx) ((y2 - s.y) * sy) s)
    (m := fun s => lineLeft dx dy ((x2 - s.x) * sx) ((y2 - s.y) * sy))
    (fun s hs hcond => hs.pass hdx hdy hsx hsy hcond) (s := ⟨c, x1, y1, dx + -dy⟩) hstart hbound
  exact ⟨canvasPixel s.canvas s.x s.y color, by simp only [hloop, Option.map_some],
    hs.paints.trans (paints_pixel _ _ _ _)⟩

/-- The loops of the two circle functions end and paint, if a pass does. -/
theorem paints_circleLoop {draw : Canvas → ℤ → ℤ → Canvas}
    (hdraw : ∀ c cx cy, Paints color c (draw c cx cy)) (c : Canvas) (radius : ℤ) :
    ∃ c', circleLoop draw c radius = some c' ∧ Paints color c c' := by
  unfold circleLoop
  split_ifs with hneg
  · exact ⟨c, rfl, Paints.refl color c⟩
  · have hpass : ∀ s : CircleState, Paints color c s.canvas → decide (s.cy ≤ s.cx) = true →
        Paints color c (circleStep draw s).canvas ∧
          ((circleStep draw s).cx + 1 - (circleStep draw s).cy).toNat < (s.cx + 1 - s.cy).toNat := by
      intro s hs hcond
      have hle : s.cy ≤ s.cx := of_decide_eq_true hcond
      unfold circleStep
      split_ifs
      · exact ⟨hs.trans (hdraw _ _ _), by simp only; omega⟩
      · exact ⟨hs.trans (hdraw _ _ _), by simp only; omega⟩
    obtain ⟨s, hloop, hs, -⟩ := whileLoop_rule
      (I := fun s : CircleState => Paints color c s.canvas)
      (m := fun s : CircleState => (s.cx + 1 - s.cy).toNat) hpass (n := (radius + 1).toNat)
      (s := ⟨c, radius, 0, 1 - radius⟩) (Paints.refl color c) (by simp only; omega)
    exact ⟨s.canvas, by rw [hloop]; rfl, hs⟩

/-- The result of the search of the ellipse functions: the next value is too large, and the
result is not, unless the search ended at once. -/
structure Extent (r2 inside p : ℤ) : Prop where
  ge : -1 ≤ p
  fits : 0 ≤ p → p * p * r2 ≤ inside
  next : inside < (p + 1) * (p + 1) * r2

/-- The search of the ellipse functions ends when the bound itself is too large a
value. -/
theorem ellipseExtent_spec {r2 inside : ℤ} {bound : ℕ} (hbound : inside < bound * bound * r2) :
    ∃ p, ellipseExtent r2 inside bound = some p ∧ Extent r2 inside p := by
  have hpass : ∀ p : ℤ, (0 ≤ p ∧ p ≤ bound ∧ (0 < p → (p - 1) * (p - 1) * r2 ≤ inside)) →
      decide (p * p * r2 ≤ inside) = true →
      (0 ≤ p + 1 ∧ p + 1 ≤ bound ∧ (0 < p + 1 → (p + 1 - 1) * (p + 1 - 1) * r2 ≤ inside)) ∧
        (bound - (p + 1)).toNat < (bound - p).toNat := by
    rintro p ⟨hp, hle, -⟩ hcond
    have hfits : p * p * r2 ≤ inside := of_decide_eq_true hcond
    have hlt : p < bound := by
      by_contra hge
      obtain rfl : p = bound := by omega
      omega
    refine ⟨⟨by omega, by omega, ?_⟩, by omega⟩
    intro _
    rwa [add_sub_cancel_right]
  obtain ⟨p, hloop, ⟨hp, -, hlast⟩, hend⟩ := whileLoop_rule
    (I := fun p : ℤ => 0 ≤ p ∧ p ≤ bound ∧ (0 < p → (p - 1) * (p - 1) * r2 ≤ inside))
    (m := fun p : ℤ => (bound - p).toNat) hpass (n := bound) (s := 0) (by simp) (by omega)
  have hnext : inside < p * p * r2 := not_le.mp (of_decide_eq_false hend)
  refine ⟨p - 1, by rw [ellipseExtent, hloop]; rfl, by omega, ?_, ?_⟩
  · intro hpos
    exact hlast (by omega)
  · rwa [sub_add_cancel]

/-- The search of `canvas_ellipse` in column `px`, and of `canvas_fillellipse` in
a row, ends within the bound that it is given. -/
theorem ellipseExtent_of_radii {rx ry : ℤ} (hrx : 0 < rx) (hry : 0 ≤ ry) (px : ℤ) :
    ∃ py, ellipseExtent (rx * rx) (ry * ry * (rx * rx - px * px)) (ry + 1).toNat = some py ∧
      Extent (rx * rx) (ry * ry * (rx * rx - px * px)) py := by
  apply ellipseExtent_spec
  have hcast : ((ry + 1).toNat : ℤ) = ry + 1 := by omega
  have hsq : 0 < rx * rx := by positivity
  rw [hcast]
  nlinarith [mul_pos (show 0 < 2 * ry + 1 by omega) hsq]

theorem paints_bind {m : Option Canvas} {f : Canvas → Option Canvas}
    (hm : ∃ c', m = some c' ∧ Paints color c c') (hf : ∀ c, ∃ c', f c = some c' ∧ Paints color c c') :
    ∃ c', m.bind f = some c' ∧ Paints color c c' := by
  obtain ⟨d, rfl, hd⟩ := hm
  obtain ⟨e, he, hpaint⟩ := hf d
  exact ⟨e, he, hd.trans hpaint⟩

theorem paints_foldl {α : Type*} {f : Canvas → α → Canvas} {as : List α}
    (hf : ∀ c a, Paints color c (f c a)) (c : Canvas) : Paints color c (as.foldl f c) :=
  foldl_rule (I := Paints color c) (fun d a _ hd => hd.trans (hf d a)) (Paints.refl color c)

/-- A fold of passes that end and paint does so. -/
theorem paints_foldlM {α : Type*} {f : Canvas → α → Option Canvas} {as : List α}
    (hf : ∀ c a, ∃ c', f c a = some c' ∧ Paints color c c') (c : Canvas) :
    ∃ c', as.foldlM f c = some c' ∧ Paints color c c' := by
  refine foldlM_rule (I := Paints color c) ?_ (Paints.refl color c)
  intro d a _ hd
  obtain ⟨e, he, hpaint⟩ := hf d a
  exact ⟨e, he, hd.trans hpaint⟩

theorem paints_rect (c : Canvas) (x y w h : ℤ) (color : ℕ) :
    ∃ c', canvasRect c x y w h color = some c' ∧ Paints color c c' := by
  unfold canvasRect
  split_ifs
  · exact ⟨c, rfl, Paints.refl color c⟩
  · apply paints_bind (paints_line _ _ _ _ _ _)
    intro c
    apply paints_bind (paints_line _ _ _ _ _ _)
    intro c
    apply paints_bind (paints_line _ _ _ _ _ _)
    intro c
    exact paints_line _ _ _ _ _ _

theorem paints_fillrect (c : Canvas) (x y w h : ℤ) (color : ℕ) :
    Paints color c (canvasFillrect c x y w h color) := by
  unfold canvasFillrect
  split_ifs
  · rfl
  · exact paints_foldl (fun d row => paints_hline d _ _ _ color) c

theorem paints_circle (c : Canvas) (x y radius : ℤ) (color : ℕ) :
    ∃ c', canvasCircle c x y radius color = some c' ∧ Paints color c c' := by
  apply paints_circleLoop
  intro c cx cy
  unfold circlePoints
  iterate 7 refine Paints.trans ?_ (paints_pixel _ _ _ color)
  exact paints_pixel _ _ _ color

theorem paints_fillcircle (c : Canvas) (x y radius : ℤ) (color : ℕ) :
    ∃ c', canvasFillcircle c x y radius color = some c' ∧ Paints color c c' := by
  apply paints_circleLoop
  intro c cx cy
  unfold circleRows
  iterate 3 refine Paints.trans ?_ (paints_hline _ _ _ _ color)
  exact paints_hline _ _ _ _ color

theorem paints_triangle (c : Canvas) (x1 y1 x2 y2 x3 y3 : ℤ) (color : ℕ) :
    ∃ c', canvasTriangle c x1 y1 x2 y2 x3 y3 color = some c' ∧ Paints color c c' := by
  apply paints_bind (paints_line _ _ _ _ _ _)
  intro c
  apply paints_bind (paints_line _ _ _ _ _ _)
  intro c
  exact paints_line _ _ _ _ _ _

theorem paints_filltriangle (c : Canvas) (x1 y1 x2 y2 x3 y3 : ℤ) (color : ℕ) :
    ∃ c', canvasFilltriangle c x1 y1 x2 y2 x3 y3 color = some c' ∧ Paints color c c' := by
  unfold canvasFilltriangle
  by_cases harea : edgeFunction x1 y1 x2 y2 x3 y3 = 0
  · rw [if_pos harea]
    exact paints_triangle c x1 y1 x2 y2 x3 y3 color
  · rw [if_neg harea]
    refine ⟨_, rfl, paints_foldl (fun d y => paints_foldl (fun d x => ?_) d) c⟩
    split_ifs
    · exact paints_pixel _ _ _ color
    · rfl

theorem paints_ellipse (c : Canvas) (x y rx ry : ℤ) (color : ℕ) :
    ∃ c', canvasEllipse c x y rx ry color = some c' ∧ Paints color c c' := by
  unfold canvasEllipse
  split_ifs with hneg hpoint hcolumn
  · exact ⟨c, rfl, Paints.refl color c⟩
  · exact ⟨_, rfl, paints_pixel _ _ _ color⟩
  · exact ⟨_, rfl, paints_foldl (fun d px => paints_pixel _ _ _ color) c⟩
  · apply paints_foldlM
    intro d px
    obtain ⟨py, hpy, -⟩ := ellipseExtent_of_radii (show 0 < rx by omega) (show 0 ≤ ry by omega) px
    rw [hpy]
    exact ⟨_, rfl, (paints_pixel _ _ _ color).trans (paints_pixel _ _ _ color)⟩

/-- `canvas_fillellipse` ends and paints. -/
theorem paints_fillellipse (c : Canvas) (x y rx ry : ℤ) (color : ℕ) :
    ∃ c', canvasFillellipse c x y rx ry color = some c' ∧ Paints color c c' := by
  unfold canvasFillellipse
  split_ifs with hneg hpoint hcolumn hrow
  · exact ⟨c, rfl, Paints.refl color c⟩
  · exact ⟨_, rfl, paints_pixel _ _ _ color⟩
  · exact ⟨_, rfl, paints_foldl (fun d px => paints_pixel _ _ _ color) c⟩
  · exact ⟨_, rfl, paints_hline _ _ _ _ color⟩
  · apply paints_foldlM
    intro d py
    obtain ⟨px, hpx, -⟩ := ellipseExtent_of_radii (show 0 < ry by omega) (show 0 ≤ rx by omega) py
    rw [hpx]
    exact ⟨_, rfl, paints_hline _ _ _ _ color⟩

theorem paints_polygon (c : Canvas) (xs ys : List ℤ) (count color : ℕ) :
    ∃ c', canvasPolygon c xs ys count color = some c' ∧ Paints color c c' := by
  unfold canvasPolygon
  split_ifs
  · exact ⟨c, rfl, Paints.refl color c⟩
  · exact paints_foldlM (fun d i => paints_line _ _ _ _ _ color) c

theorem paints_pairs (y : ℤ) (color : ℕ) :
    ∀ (hits : List ℤ) (c : Canvas), Paints color c (drawPairs y color c hits)
  | [], c => Paints.refl color c
  | [_], c => Paints.refl color c
  | a :: b :: rest, c => (paints_hline c y a b color).trans (paints_pairs y color rest _)

theorem paints_fillpolygon (c : Canvas) (xs ys : List ℤ) (count color : ℕ) :
    Paints color c (canvasFillpolygon c xs ys count color) := by
  unfold canvasFillpolygon
  by_cases hcount : count < 3 ∨ polygonMaxPoints < count
  · rw [if_pos hcount]
  · rw [if_neg hcount]
    refine paints_foldl (fun d y => ?_) c
    split_ifs
    · rfl
    · exact paints_pairs y color _ d

end Xv6Draw
