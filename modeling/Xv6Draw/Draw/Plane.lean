import Xv6Draw.Draw.Canvas

/-!
# Drawing without clipping

The algorithms of `drawlib.c` on the unbounded plane, with every clipping step left
out: each returns the points that it plots, in order. What a primitive does to the
canvas is then exact. The bytes of the plotted points that lie on the canvas get
the colour, and no other byte changes. Every clipping test of the library (of a
point, of a span or of a bounding box) is one instance of that.
-/

namespace Xv6Draw

open Function List Loop Option

/-- A point of the plane: a column and a row. -/
abbrev Point := ℤ × ℤ

/-- `draw_hline`. -/
def planeHline (y x0 x1 : ℤ) : List Point :=
  (upTo (if x1 < x0 then x1 else x0) (if x1 < x0 then x0 else x1)).map fun x => (x, y)

/-- The variables of the loop of `canvas_line`. -/
structure PlaneLine where
  points : List Point
  x : ℤ
  y : ℤ
  err : ℤ

/-- A pass of the loop of `canvas_line` that does not end it. -/
def planeLineStep (dx sx dy sy : ℤ) (s : PlaneLine) : PlaneLine :=
  let err2 := 2 * s.err
  let err := if dy ≤ err2 then s.err + dy else s.err
  let x := if dy ≤ err2 then s.x + sx else s.x
  let y := if err2 ≤ dx then s.y + sy else s.y
  let err := if err2 ≤ dx then err + dx else err
  ⟨s.points ++ [(s.x, s.y)], x, y, err⟩

/-- `canvas_line`. -/
def planeLine (x1 y1 x2 y2 : ℤ) : Option (List Point) :=
  let dx := absInt (x2 - x1)
  let sx := if x1 < x2 then 1 else -1
  let dy := -absInt (y2 - y1)
  let sy := if y1 < y2 then 1 else -1
  (whileLoop (fun s => !(s.x = x2 ∧ s.y = y2)) (planeLineStep dx sx dy sy)
    (max dx (-dy)).toNat ⟨[], x1, y1, dx + dy⟩).map fun s => s.points ++ [(s.x, s.y)]

/-- `canvas_rect`. -/
def planeRect (x y w h : ℤ) : Option (List Point) :=
  if w ≤ 0 ∨ h ≤ 0 then some []
  else do
    let top ← planeLine x y (x + w - 1) y
    let left ← planeLine x y x (y + h - 1)
    let right ← planeLine (x + w - 1) y (x + w - 1) (y + h - 1)
    let bottom ← planeLine x (y + h - 1) (x + w - 1) (y + h - 1)
    some (top ++ (left ++ (right ++ bottom)))

/-- `canvas_fillrect`. -/
def planeFillrect (x y w h : ℤ) : List Point :=
  if w ≤ 0 ∨ h ≤ 0 then []
  else (upTo 0 (h - 1)).flatMap fun row => planeHline (y + row) x (x + w - 1)

/-- The variables of the loops of `canvas_circle` and `canvas_fillcircle`. -/
structure PlaneCircle where
  points : List Point
  cx : ℤ
  cy : ℤ
  err : ℤ

/-- A pass of either loop, around what it draws. -/
def planeCircleStep (draw : ℤ → ℤ → List Point) (s : PlaneCircle) : PlaneCircle :=
  let points := s.points ++ draw s.cx s.cy
  let cy := s.cy + 1
  if s.err < 0 then ⟨points, s.cx, cy, s.err + (2 * cy + 1)⟩
  else ⟨points, s.cx - 1, cy, s.err + (2 * (cy - (s.cx - 1)) + 1)⟩

/-- Either loop, around what a pass draws. -/
def planeCircleLoop (draw : ℤ → ℤ → List Point) (radius : ℤ) : Option (List Point) :=
  if radius < 0 then some []
  else (whileLoop (fun s => s.cy ≤ s.cx) (planeCircleStep draw) (radius + 1).toNat
    ⟨[], radius, 0, 1 - radius⟩).map PlaneCircle.points

/-- The eight points of a pass of `canvas_circle`. -/
def planeCirclePoints (x y cx cy : ℤ) : List Point :=
  [(x + cx, y + cy), (x + cy, y + cx), (x - cy, y + cx), (x - cx, y + cy), (x - cx, y - cy),
    (x - cy, y - cx), (x + cy, y - cx), (x + cx, y - cy)]

/-- The four rows of a pass of `canvas_fillcircle`. -/
def planeCircleRows (x y cx cy : ℤ) : List Point :=
  planeHline (y + cy) (x - cx) (x + cx) ++ (planeHline (y - cy) (x - cx) (x + cx) ++
    (planeHline (y + cx) (x - cy) (x + cy) ++ planeHline (y - cx) (x - cy) (x + cy)))

/-- `canvas_circle`. -/
def planeCircle (x y radius : ℤ) : Option (List Point) :=
  planeCircleLoop (planeCirclePoints x y) radius

/-- `canvas_fillcircle`. -/
def planeFillcircle (x y radius : ℤ) : Option (List Point) :=
  planeCircleLoop (planeCircleRows x y) radius

/-- `canvas_triangle`. -/
def planeTriangle (x1 y1 x2 y2 x3 y3 : ℤ) : Option (List Point) := do
  let first ← planeLine x1 y1 x2 y2
  let second ← planeLine x2 y2 x3 y3
  let third ← planeLine x3 y3 x1 y1
  some (first ++ (second ++ third))

/-- `canvas_filltriangle`. -/
def planeFilltriangle (x1 y1 x2 y2 x3 y3 : ℤ) : Option (List Point) :=
  if edgeFunction x1 y1 x2 y2 x3 y3 = 0 then planeTriangle x1 y1 x2 y2 x3 y3
  else
    some ((upTo (min3 y1 y2 y3) (max3 y1 y2 y3)).flatMap fun y =>
      (upTo (min3 x1 x2 x3) (max3 x1 x2 x3)).flatMap fun x =>
        if inTriangle x1 y1 x2 y2 x3 y3 x y then [(x, y)] else [])

/-- `canvas_ellipse`. -/
def planeEllipse (x y rx ry : ℤ) : Option (List Point) :=
  if rx < 0 ∨ ry < 0 then some []
  else if rx = 0 ∧ ry = 0 then some [(x, y)]
  else if rx = 0 then some ((upTo (-ry) ry).flatMap fun px => [(x, y + px)])
  else
    ((upTo (-rx) rx).mapM fun px => do
      let py ← ellipseExtent (rx * rx) (ry * ry * (rx * rx - px * px)) (ry + 1).toNat
      some [(x + px, y + py), (x + px, y - py)]).map List.flatten

/-- `canvas_fillellipse`. -/
def planeFillellipse (x y rx ry : ℤ) : Option (List Point) :=
  if rx < 0 ∨ ry < 0 then some []
  else if rx = 0 ∧ ry = 0 then some [(x, y)]
  else if rx = 0 then some ((upTo (-ry) ry).flatMap fun py => [(x, y + py)])
  else if ry = 0 then some (planeHline y (x - rx) (x + rx))
  else
    ((upTo (-ry) ry).mapM fun py => do
      let px ← ellipseExtent (ry * ry) (rx * rx * (ry * ry - py * py)) (rx + 1).toNat
      some (planeHline (y + py) (x - px) (x + px))).map List.flatten

/-- `canvas_polygon`, with `count` points in the two arrays. -/
def planePolygon (xs ys : List ℤ) (count : ℕ) : Option (List Point) :=
  if count < 2 then some []
  else ((range count).mapM fun i =>
    let next := (i + 1) % count
    planeLine (xs.getD i 0) (ys.getD i 0) (xs.getD next 0) (ys.getD next 0)).map List.flatten

/-- The last loop of `canvas_fillpolygon`: a row between every two crossings. -/
def planePairs (y : ℤ) : List ℤ → List Point
  | a :: b :: rest => planeHline y a b ++ planePairs y rest
  | _ => []

/-- `canvas_fillpolygon`. -/
def planeFillpolygon (xs ys : List ℤ) (count : ℕ) : List Point :=
  if count < 3 ∨ polygonMaxPoints < count then []
  else
    let minY := (range' 1 (count - 1)).foldl
      (fun m i => if ys.getD i 0 < m then ys.getD i 0 else m) (ys.getD 0 0)
    let maxY := (range' 1 (count - 1)).foldl
      (fun m i => if m < ys.getD i 0 then ys.getD i 0 else m) (ys.getD 0 0)
    (upTo minY maxY).flatMap fun y =>
      if (polygonHits xs ys count y).length < 2 then []
      else planePairs y (sortInts (polygonHits xs ys count y))

/-- A drawing primitive with its arguments, apart from the canvas and the colour. -/
inductive Primitive where
  | pixel (x y : ℤ)
  | line (x1 y1 x2 y2 : ℤ)
  | rect (x y w h : ℤ)
  | fillrect (x y w h : ℤ)
  | circle (x y radius : ℤ)
  | fillcircle (x y radius : ℤ)
  | triangle (x1 y1 x2 y2 x3 y3 : ℤ)
  | filltriangle (x1 y1 x2 y2 x3 y3 : ℤ)
  | ellipse (x y rx ry : ℤ)
  | fillellipse (x y rx ry : ℤ)
  | polygon (xs ys : List ℤ) (count : ℤ)
  | fillpolygon (xs ys : List ℤ) (count : ℤ)

/-- The call of a primitive. A count below zero is turned down like the count zero. -/
def Primitive.draw (color : ℕ) (canvas : Canvas) : Primitive → Option Canvas
  | .pixel x y => some (canvasPixel canvas x y color)
  | .line x1 y1 x2 y2 => canvasLine canvas x1 y1 x2 y2 color
  | .rect x y w h => canvasRect canvas x y w h color
  | .fillrect x y w h => some (canvasFillrect canvas x y w h color)
  | .circle x y radius => canvasCircle canvas x y radius color
  | .fillcircle x y radius => canvasFillcircle canvas x y radius color
  | .triangle x1 y1 x2 y2 x3 y3 => canvasTriangle canvas x1 y1 x2 y2 x3 y3 color
  | .filltriangle x1 y1 x2 y2 x3 y3 => canvasFilltriangle canvas x1 y1 x2 y2 x3 y3 color
  | .ellipse x y rx ry => canvasEllipse canvas x y rx ry color
  | .fillellipse x y rx ry => canvasFillellipse canvas x y rx ry color
  | .polygon xs ys count => canvasPolygon canvas xs ys count.toNat color
  | .fillpolygon xs ys count => some (canvasFillpolygon canvas xs ys count.toNat color)

/-- The points of the plane that a primitive plots. -/
def Primitive.points : Primitive → Option (List Point)
  | .pixel x y => some [(x, y)]
  | .line x1 y1 x2 y2 => planeLine x1 y1 x2 y2
  | .rect x y w h => planeRect x y w h
  | .fillrect x y w h => some (planeFillrect x y w h)
  | .circle x y radius => planeCircle x y radius
  | .fillcircle x y radius => planeFillcircle x y radius
  | .triangle x1 y1 x2 y2 x3 y3 => planeTriangle x1 y1 x2 y2 x3 y3
  | .filltriangle x1 y1 x2 y2 x3 y3 => planeFilltriangle x1 y1 x2 y2 x3 y3
  | .ellipse x y rx ry => planeEllipse x y rx ry
  | .fillellipse x y rx ry => planeFillellipse x y rx ry
  | .polygon xs ys count => planePolygon xs ys count.toNat
  | .fillpolygon xs ys count => some (planeFillpolygon xs ys count.toNat)

/-- A point of the plane that lies on the canvas. -/
def Visible (p : Point) : Prop := 0 ≤ p.1 ∧ p.1 < canvasWidth ∧ 0 ≤ p.2 ∧ p.2 < canvasHeight

/-- The offset of a point in the canvas. -/
def offset (p : Point) : ℤ := p.2 * canvasWidth + p.1

/-- The offsets of the points of the canvas are the 64000 offsets below its size. -/
theorem exists_visible_iff {i : ℤ} : (∃ p, Visible p ∧ offset p = i) ↔ 0 ≤ i ∧ i < canvasSize := by
  unfold Visible offset canvasSize canvasWidth canvasHeight
  constructor
  · rintro ⟨p, hp, rfl⟩
    omega
  · intro hi
    exact ⟨(i % 320, i / 320), by simp only; omega, by simp only; omega⟩

variable {p : Point} {color : ℕ} {c c' : Canvas} {y : ℤ} {points : List Point}

/-- Points of the canvas have different offsets. -/
theorem offset_inj {q : Point} (hp : Visible p) (hq : Visible q) (h : offset p = offset q) :
    p = q := by
  unfold Visible offset canvasWidth at *
  apply Prod.ext
  · omega
  · omega

/-- The canvas shows points in a colour: their bytes hold it, as far as they lie on
the canvas, and every other byte is as before. -/
def Shows (color : ℕ) (c : Canvas) (points : List Point) (c' : Canvas) : Prop :=
  ∀ i, (c' i = color ∧ ∃ p ∈ points, Visible p ∧ offset p = i) ∨
    (c' i = c i ∧ ∀ p ∈ points, Visible p → offset p ≠ i)

theorem Shows.nil (color : ℕ) (c : Canvas) : Shows color c [] c := by
  intro i
  exact .inr ⟨rfl, by simp⟩

/-- One drawing after another. -/
theorem Shows.append {a b : Canvas} {ps qs : List Point} (hab : Shows color a ps b)
    (hbc : Shows color b qs c) : Shows color a (ps ++ qs) c := by
  intro i
  rcases hbc i with ⟨hcolor, p, hp, hoff⟩ | ⟨hsame, hnot⟩
  · exact .inl ⟨hcolor, p, mem_append_right _ hp, hoff⟩
  · rw [hsame]
    rcases hab i with ⟨hcolor, p, hp, hoff⟩ | ⟨hsame', hnot'⟩
    · exact .inl ⟨hcolor, p, mem_append_left _ hp, hoff⟩
    · refine .inr ⟨hsame', ?_⟩
      intro p hp
      rcases mem_append.mp hp with hfirst | hsecond
      · exact hnot' p hfirst
      · exact hnot p hsecond

theorem Shows.congr {ps qs : List Point} (h : Shows color c ps c')
    (hvisible : ∀ p, Visible p → (p ∈ ps ↔ p ∈ qs)) : Shows color c qs c' := by
  intro i
  rcases h i with ⟨hcolor, p, hp, hv, hoff⟩ | ⟨hsame, hnot⟩
  · exact .inl ⟨hcolor, p, (hvisible p hv).mp hp, hv, hoff⟩
  · exact .inr ⟨hsame, fun p hp hv => hnot p ((hvisible p hv).mpr hp) hv⟩

theorem Shows.foldl {α : Type*} {f : Canvas → α → Canvas} {points : α → List Point}
    {as : List α} (hf : ∀ c, ∀ a ∈ as, Shows color c (points a) (f c a)) (c : Canvas) :
    Shows color c (as.flatMap points) (as.foldl f c) := by
  induction as generalizing c with
  | nil => exact nil color c
  | cons a as ih =>
    rw [flatMap_cons, foldl_cons]
    exact (hf c a (by simp)).append (ih (fun d b hb => hf d b (by simp [hb])) (f c a))

theorem shows_store {x : ℤ} (hv : Visible (x, y)) (c : Canvas) (color : ℕ) :
    Shows color c [(x, y)] (update c (y * canvasWidth + x) color) := by
  intro i
  by_cases hi : offset (x, y) = i
  · subst i
    exact .inl ⟨update_self _ _ _, (x, y), by simp, hv, rfl⟩
  · refine .inr ⟨update_of_ne (Ne.symm hi) _ _, ?_⟩
    intro p hp _
    rw [mem_singleton.mp hp]
    exact hi

theorem shows_pixel (c : Canvas) (x y : ℤ) (color : ℕ) :
    Shows color c [(x, y)] (canvasPixel c x y color) := by
  unfold canvasPixel
  split_ifs with hout
  · refine (Shows.nil color c).congr ?_
    intro p hv
    constructor
    · simp
    · intro hp
      rw [mem_singleton.mp hp] at hv
      unfold Visible at hv
      omega
  · exact shows_store (by unfold Visible; omega) c color

theorem mem_planeHline {x0 x1 : ℤ} :
    p ∈ planeHline y x0 x1 ↔ min x0 x1 ≤ p.1 ∧ p.1 ≤ max x0 x1 ∧ p.2 = y := by
  have hends : (if x1 < x0 then x1 else x0) = min x0 x1 ∧
      (if x1 < x0 then x0 else x1) = max x0 x1 := by
    split_ifs <;> omega
  rw [planeHline, hends.1, hends.2]
  simp only [List.mem_map, mem_upTo]
  constructor
  · rintro ⟨x, hx, rfl⟩
    exact ⟨hx.1, hx.2, rfl⟩
  · rintro ⟨hlow, hhigh, rfl⟩
    exact ⟨p.1, ⟨hlow, hhigh⟩, rfl⟩

theorem shows_hline (c : Canvas) (y x0 x1 : ℤ) (color : ℕ) :
    Shows color c (planeHline y x0 x1) (drawHline c y x0 x1 color) := by
  unfold drawHline
  by_cases hy : y < 0 ∨ canvasHeight ≤ y
  · rw [if_pos hy]
    refine (Shows.nil color c).congr ?_
    intro p hv
    rw [mem_planeHline]
    unfold Visible at hv
    simp only [not_mem_nil, false_iff]
    omega
  · rw [if_neg hy]
    generalize hleft : (if x1 < x0 then x1 else x0) = left
    generalize hright : (if x1 < x0 then x0 else x1) = right
    by_cases hout : right < 0 ∨ canvasWidth ≤ left
    · simp only [if_pos hout]
      refine (Shows.nil color c).congr ?_
      intro p hv
      rw [mem_planeHline]
      unfold Visible at hv
      simp only [not_mem_nil, false_iff]
      omega
    · simp only [if_neg hout]
      generalize hlow : (if left < 0 then 0 else left) = low
      generalize hhigh : (if canvasWidth ≤ right then canvasWidth - 1 else right) = high
      -- the clipped span has the columns of the span that are on the canvas
      have hspan : Shows color c ((upTo low high).flatMap fun x => [(x, y)])
          ((upTo low high).foldl (fun c x => update c (y * canvasWidth + x) color) c) := by
        apply Shows.foldl
        intro d x hx
        apply shows_store
        have hmem := mem_upTo.mp hx
        unfold Visible
        omega
      refine hspan.congr ?_
      intro p hv
      rw [mem_planeHline, mem_flatMap]
      unfold Visible at hv
      constructor
      · rintro ⟨x, hx, hp⟩
        have hmem := mem_upTo.mp hx
        rw [mem_singleton.mp hp]
        refine ⟨?_, ?_, rfl⟩
        · simp only
          omega
        · simp only
          omega
      · rintro ⟨hge, hle, rfl⟩
        refine ⟨p.1, mem_upTo.mpr ?_, mem_singleton.mpr rfl⟩
        omega

/-- A drawing function and the points that it plots: on every canvas it returns, and
the canvas then shows the points. -/
def Draws (color : ℕ) (plane : Option (List Point)) (draw : Canvas → Option Canvas) : Prop :=
  ∃ points, plane = some points ∧ ∀ c, ∃ c', draw c = some c' ∧ Shows color c points c'

theorem Draws.pure {draw : Canvas → Canvas}
    (h : ∀ c, Shows color c points (draw c)) : Draws color (some points) fun c => some (draw c) :=
  ⟨points, rfl, fun c => ⟨draw c, rfl, h c⟩⟩

theorem Draws.bind {p q : Option (List Point)} {d e : Canvas → Option Canvas}
    (hd : Draws color p d) (he : Draws color q e) :
    Draws color (p.bind fun ps => q.bind fun qs => some (ps ++ qs)) fun c => (d c).bind e := by
  obtain ⟨ps, rfl, hps⟩ := hd
  obtain ⟨qs, rfl, hqs⟩ := he
  refine ⟨ps ++ qs, rfl, ?_⟩
  intro c
  obtain ⟨c₁, hc₁, hshow₁⟩ := hps c
  obtain ⟨c₂, hc₂, hshow₂⟩ := hqs c₁
  refine ⟨c₂, ?_, hshow₁.append hshow₂⟩
  simp only [hc₁, bind_some, hc₂]

/-- A fold of drawing functions. -/
theorem Draws.foldlM {α : Type} {plane : α → Option (List Point)}
    {draw : Canvas → α → Option Canvas} {as : List α}
    (h : ∀ a, Draws color (plane a) fun c => draw c a) :
    Draws color ((as.mapM plane).map List.flatten) fun c => as.foldlM draw c := by
  induction as with
  | nil => exact ⟨[], rfl, fun c => ⟨c, rfl, Shows.nil color c⟩⟩
  | cons a as ih =>
    obtain ⟨ps, hps, hdraw⟩ := h a
    obtain ⟨qs, hqs, hrest⟩ := ih
    obtain ⟨lists, hlists, rfl⟩ := map_eq_some_iff.mp hqs
    refine ⟨ps ++ lists.flatten, ?_, ?_⟩
    · rw [mapM_cons, hps, hlists]
      rfl
    · intro c
      obtain ⟨c₁, hc₁, hshow₁⟩ := hdraw c
      obtain ⟨c₂, hc₂, hshow₂⟩ := hrest c₁
      refine ⟨c₂, ?_, hshow₁.append hshow₂⟩
      simp only [foldlM_cons, hc₁, bind_eq_bind, bind_some, hc₂]

/-- A function that always returns, with a result that the points explain. -/
theorem Draws.of_sim {plane : Option (List Point)} {draw : Canvas → Option Canvas}
    (hreturns : ∀ c, ∃ c', draw c = some c')
    (hsim : ∀ c c', draw c = some c' → ∃ points, plane = some points ∧ Shows color c points c') :
    Draws color plane draw := by
  obtain ⟨c₀, hc₀⟩ := hreturns fun _ => 0
  obtain ⟨points, rfl, -⟩ := hsim _ _ hc₀
  refine ⟨points, rfl, ?_⟩
  intro c
  obtain ⟨c', hc'⟩ := hreturns c
  obtain ⟨points', heq, hshow⟩ := hsim c c' hc'
  cases heq
  exact ⟨c', hc', hshow⟩

/-- The loop of `canvas_line` on the canvas and on the plane, in step. -/
structure LineShows (color : ℕ) (c : Canvas) (s : LineState) (t : PlaneLine) : Prop where
  x_eq : s.x = t.x
  y_eq : s.y = t.y
  err_eq : s.err = t.err
  shows : Shows color c t.points s.canvas

theorem LineShows.step {s : LineState} {t : PlaneLine} (h : LineShows color c s t) (dx sx dy sy : ℤ) :
    LineShows color c (lineStep dx sx dy sy color s) (planeLineStep dx sx dy sy t) := by
  obtain ⟨hx, hy, herr, hshow⟩ := h
  constructor
  · simp only [lineStep, planeLineStep, hx, herr]
  · simp only [lineStep, planeLineStep, hy, herr]
  · simp only [lineStep, planeLineStep, herr]
  · simp only [lineStep, planeLineStep, hx, hy]
    exact hshow.append (shows_pixel _ _ _ _)

theorem draws_line (x1 y1 x2 y2 : ℤ) (color : ℕ) :
    Draws color (planeLine x1 y1 x2 y2) fun c => canvasLine c x1 y1 x2 y2 color := by
  apply Draws.of_sim
  · intro c
    obtain ⟨c', hc', -⟩ := paints_line c x1 y1 x2 y2 color
    exact ⟨c', hc'⟩
  · intro c c' hc'
    obtain ⟨s, hloop, rfl⟩ := map_eq_some_iff.mp hc'
    obtain ⟨t, hplane, hend⟩ := whileLoop_sim (R := LineShows color c)
      (c := fun t => !(t.x = x2 ∧ t.y = y2))
      (fun s t h => by rw [h.x_eq, h.y_eq]) (fun s t h => h.step _ _ _ _)
      (t := ⟨[], x1, y1, absInt (x2 - x1) + -absInt (y2 - y1)⟩)
      ⟨rfl, rfl, rfl, Shows.nil color c⟩ hloop
    refine ⟨t.points ++ [(t.x, t.y)], map_eq_some_iff.mpr ⟨t, hplane, rfl⟩, ?_⟩
    rw [hend.x_eq, hend.y_eq]
    exact hend.shows.append (shows_pixel _ _ _ _)

theorem draws_rect (x y w h : ℤ) (color : ℕ) :
    Draws color (planeRect x y w h) fun c => canvasRect c x y w h color := by
  unfold planeRect canvasRect
  split_ifs
  · exact Draws.pure (Shows.nil color)
  · have hlines := (draws_line x y (x + w - 1) y color).bind
      ((draws_line x y x (y + h - 1) color).bind
        ((draws_line (x + w - 1) y (x + w - 1) (y + h - 1) color).bind
          (draws_line x (y + h - 1) (x + w - 1) (y + h - 1) color)))
    simpa [bind_assoc] using hlines

theorem draws_triangle (x1 y1 x2 y2 x3 y3 : ℤ) (color : ℕ) :
    Draws color (planeTriangle x1 y1 x2 y2 x3 y3)
      fun c => canvasTriangle c x1 y1 x2 y2 x3 y3 color := by
  have hlines := (draws_line x1 y1 x2 y2 color).bind
    ((draws_line x2 y2 x3 y3 color).bind (draws_line x3 y3 x1 y1 color))
  simpa [planeTriangle, canvasTriangle, bind_assoc] using hlines

theorem shows_fillrect (c : Canvas) (x y w h : ℤ) (color : ℕ) :
    Shows color c (planeFillrect x y w h) (canvasFillrect c x y w h color) := by
  unfold planeFillrect canvasFillrect
  split_ifs
  · exact Shows.nil color c
  · exact Shows.foldl (fun d row _ => shows_hline d _ _ _ color) c

/-- The loops of the circle functions on the canvas and on the plane, in step. -/
structure CircleShows (color : ℕ) (c : Canvas) (s : CircleState) (t : PlaneCircle) : Prop where
  cx_eq : s.cx = t.cx
  cy_eq : s.cy = t.cy
  err_eq : s.err = t.err
  shows : Shows color c t.points s.canvas

theorem CircleShows.step {draw : Canvas → ℤ → ℤ → Canvas} {points : ℤ → ℤ → List Point}
    (hdraw : ∀ c cx cy, Shows color c (points cx cy) (draw c cx cy)) {s : CircleState}
    {t : PlaneCircle} (h : CircleShows color c s t) :
    CircleShows color c (circleStep draw s) (planeCircleStep points t) := by
  obtain ⟨hcx, hcy, herr, hshow⟩ := h
  have hpass := hshow.append (hdraw s.canvas s.cx s.cy)
  rw [hcx, hcy] at hpass
  unfold circleStep planeCircleStep
  rw [hcx, hcy, herr]
  split_ifs
  · exact ⟨rfl, rfl, rfl, hpass⟩
  · exact ⟨rfl, rfl, rfl, hpass⟩

/-- The loops of the circle functions show their points, if a pass does. -/
theorem draws_circleLoop {draw : Canvas → ℤ → ℤ → Canvas} {points : ℤ → ℤ → List Point}
    (hdraw : ∀ c cx cy, Shows color c (points cx cy) (draw c cx cy)) {radius : ℤ}
    (hreturns : ∀ c, ∃ c', circleLoop draw c radius = some c') :
    Draws color (planeCircleLoop points radius) fun c => circleLoop draw c radius := by
  apply Draws.of_sim hreturns
  intro c c' hc'
  unfold circleLoop at hc'
  unfold planeCircleLoop
  split_ifs at hc' ⊢
  · cases hc'
    exact ⟨[], rfl, Shows.nil color c⟩
  · obtain ⟨s, hloop, rfl⟩ := map_eq_some_iff.mp hc'
    obtain ⟨t, hplane, hend⟩ := whileLoop_sim (R := CircleShows color c)
      (c := fun t => t.cy ≤ t.cx)
      (fun s t h => by rw [h.cx_eq, h.cy_eq]) (fun s t h => h.step hdraw)
      (t := ⟨[], radius, 0, 1 - radius⟩) ⟨rfl, rfl, rfl, Shows.nil color c⟩ hloop
    exact ⟨t.points, map_eq_some_iff.mpr ⟨t, hplane, rfl⟩, hend.shows⟩

/-- `canvas_circle` shows its points. -/
theorem draws_circle (x y radius : ℤ) (color : ℕ) :
    Draws color (planeCircle x y radius) fun c => canvasCircle c x y radius color := by
  apply draws_circleLoop
  · intro c cx cy
    have hfirst := shows_pixel c (x + cx) (y + cy) color
    have hrest := (((((((hfirst.append (shows_pixel _ (x + cy) (y + cx) color)).append
      (shows_pixel _ (x - cy) (y + cx) color)).append
      (shows_pixel _ (x - cx) (y + cy) color)).append
      (shows_pixel _ (x - cx) (y - cy) color)).append
      (shows_pixel _ (x - cy) (y - cx) color)).append
      (shows_pixel _ (x + cy) (y - cx) color)).append
      (shows_pixel _ (x + cx) (y - cy) color))
    exact hrest
  · intro c
    obtain ⟨c', hc', -⟩ := paints_circle c x y radius color
    exact ⟨c', hc'⟩

theorem draws_fillcircle (x y radius : ℤ) (color : ℕ) :
    Draws color (planeFillcircle x y radius) fun c => canvasFillcircle c x y radius color := by
  apply draws_circleLoop
  · intro c cx cy
    have hrows := (((shows_hline c (y + cy) (x - cx) (x + cx) color).append
      (shows_hline _ (y - cy) (x - cx) (x + cx) color)).append
      (shows_hline _ (y + cx) (x - cy) (x + cy) color)).append
      (shows_hline _ (y - cx) (x - cy) (x + cy) color)
    simpa [planeCircleRows, circleRows] using hrows
  · intro c
    obtain ⟨c', hc', -⟩ := paints_fillcircle c x y radius color
    exact ⟨c', hc'⟩

/-- `canvas_filltriangle` shows its points. -/
theorem draws_filltriangle (x1 y1 x2 y2 x3 y3 : ℤ) (color : ℕ) :
    Draws color (planeFilltriangle x1 y1 x2 y2 x3 y3)
      fun c => canvasFilltriangle c x1 y1 x2 y2 x3 y3 color := by
  unfold planeFilltriangle canvasFilltriangle
  by_cases harea : edgeFunction x1 y1 x2 y2 x3 y3 = 0
  · simp only [if_pos harea]
    exact draws_triangle x1 y1 x2 y2 x3 y3 color
  · simp only [if_neg harea]
    apply Draws.pure
    intro c
    generalize hlowX : (if min3 x1 x2 x3 < 0 then 0 else min3 x1 x2 x3) = lowX
    generalize hhighX : (if canvasWidth ≤ max3 x1 x2 x3 then canvasWidth - 1 else max3 x1 x2 x3) =
      highX
    generalize hlowY : (if min3 y1 y2 y3 < 0 then 0 else min3 y1 y2 y3) = lowY
    generalize hhighY : (if canvasHeight ≤ max3 y1 y2 y3 then canvasHeight - 1 else max3 y1 y2 y3) =
      highY
    -- the loops over the clipped box
    have hbox : Shows color c
        ((upTo lowY highY).flatMap fun y => (upTo lowX highX).flatMap fun x =>
          if inTriangle x1 y1 x2 y2 x3 y3 x y then [(x, y)] else [])
        ((upTo lowY highY).foldl (fun c y => (upTo lowX highX).foldl (fun c x =>
          if inTriangle x1 y1 x2 y2 x3 y3 x y then canvasPixel c x y color else c) c) c) := by
      apply Shows.foldl
      intro d y _
      apply Shows.foldl
      intro e x _
      split_ifs
      · exact shows_pixel e x y color
      · exact Shows.nil color e
    refine hbox.congr ?_
    intro p hv
    unfold Visible at hv
    have hX : ∀ x, x = p.1 → (x ∈ upTo lowX highX ↔ x ∈ upTo (min3 x1 x2 x3) (max3 x1 x2 x3)) := by
      rintro x rfl
      rw [mem_upTo, mem_upTo]
      split_ifs at hlowX hhighX <;> omega
    have hY : ∀ y, y = p.2 → (y ∈ upTo lowY highY ↔ y ∈ upTo (min3 y1 y2 y3) (max3 y1 y2 y3)) := by
      rintro y rfl
      rw [mem_upTo, mem_upTo]
      split_ifs at hlowY hhighY <;> omega
    simp only [mem_flatMap]
    constructor
    · rintro ⟨y, hy, x, hx, hp⟩
      split_ifs at hp with hin
      · obtain rfl := mem_singleton.mp hp
        exact ⟨y, (hY y rfl).mp hy, x, (hX x rfl).mp hx, by rw [if_pos hin]; exact hp⟩
      · simp at hp
    · rintro ⟨y, hy, x, hx, hp⟩
      split_ifs at hp with hin
      · obtain rfl := mem_singleton.mp hp
        exact ⟨y, (hY y rfl).mpr hy, x, (hX x rfl).mpr hx, by rw [if_pos hin]; exact hp⟩
      · simp at hp

/-- `canvas_ellipse` shows its points. -/
theorem draws_ellipse (x y rx ry : ℤ) (color : ℕ) :
    Draws color (planeEllipse x y rx ry) fun c => canvasEllipse c x y rx ry color := by
  unfold planeEllipse canvasEllipse
  split_ifs with hneg hpoint hcolumn
  · exact Draws.pure (Shows.nil color)
  · exact Draws.pure fun c => shows_pixel c x y color
  · exact Draws.pure fun c => Shows.foldl (fun d px _ => shows_pixel d x (y + px) color) c
  · apply Draws.foldlM
    intro px
    obtain ⟨py, hpy, -⟩ := ellipseExtent_of_radii (show 0 < rx by omega) (show 0 ≤ ry by omega) px
    rw [hpy]
    exact Draws.pure fun c => (shows_pixel c (x + px) (y + py) color).append
      (shows_pixel _ (x + px) (y - py) color)

/-- `canvas_fillellipse` shows its points. -/
theorem draws_fillellipse (x y rx ry : ℤ) (color : ℕ) :
    Draws color (planeFillellipse x y rx ry) fun c => canvasFillellipse c x y rx ry color := by
  unfold planeFillellipse canvasFillellipse
  split_ifs with hneg hpoint hcolumn hrow
  · exact Draws.pure (Shows.nil color)
  · exact Draws.pure fun c => shows_pixel c x y color
  · exact Draws.pure fun c => Shows.foldl (fun d py _ => shows_pixel d x (y + py) color) c
  · exact Draws.pure fun c => shows_hline c y (x - rx) (x + rx) color
  · apply Draws.foldlM
    intro py
    obtain ⟨px, hpx, -⟩ := ellipseExtent_of_radii (show 0 < ry by omega) (show 0 ≤ rx by omega) py
    rw [hpx]
    exact Draws.pure fun c => shows_hline c (y + py) (x - px) (x + px) color

theorem draws_polygon (xs ys : List ℤ) (count color : ℕ) :
    Draws color (planePolygon xs ys count) fun c => canvasPolygon c xs ys count color := by
  unfold planePolygon canvasPolygon
  split_ifs
  · exact Draws.pure (Shows.nil color)
  · apply Draws.foldlM
    intro i
    exact draws_line _ _ _ _ color

theorem shows_pairs (y : ℤ) (color : ℕ) :
    ∀ (hits : List ℤ) (c : Canvas), Shows color c (planePairs y hits) (drawPairs y color c hits)
  | [], c => Shows.nil color c
  | [_], c => Shows.nil color c
  | a :: b :: rest, c => (shows_hline c y a b color).append (shows_pairs y color rest _)

/-- The points between crossings lie on the row. -/
theorem snd_of_mem_planePairs : ∀ {hits : List ℤ}, p ∈ planePairs y hits → p.2 = y
  | [], h => absurd h not_mem_nil
  | [_], h => absurd h not_mem_nil
  | a :: b :: rest, h => by
    rcases mem_append.mp h with hrow | hrest
    · exact (mem_planeHline.mp hrow).2.2
    · exact snd_of_mem_planePairs hrest

/-- `canvas_fillpolygon` shows its points. -/
theorem shows_fillpolygon (c : Canvas) (xs ys : List ℤ) (count color : ℕ) :
    Shows color c (planeFillpolygon xs ys count) (canvasFillpolygon c xs ys count color) := by
  unfold planeFillpolygon canvasFillpolygon
  by_cases hcount : count < 3 ∨ polygonMaxPoints < count
  · rw [if_pos hcount, if_pos hcount]
    exact Shows.nil color c
  · simp only [if_neg hcount]
    generalize (range' 1 (count - 1)).foldl
      (fun m i => if ys.getD i 0 < m then ys.getD i 0 else m) (ys.getD 0 0) = minY
    generalize (range' 1 (count - 1)).foldl
      (fun m i => if m < ys.getD i 0 then ys.getD i 0 else m) (ys.getD 0 0) = maxY
    generalize hlow : (if minY < 0 then 0 else minY) = low
    generalize hhigh : (if canvasHeight ≤ maxY then canvasHeight - 1 else maxY) = high
    have hrows : Shows color c
        ((upTo low high).flatMap fun y => if (polygonHits xs ys count y).length < 2 then []
          else planePairs y (sortInts (polygonHits xs ys count y)))
        ((upTo low high).foldl (fun c y => if (polygonHits xs ys count y).length < 2 then c
          else drawPairs y color c (sortInts (polygonHits xs ys count y))) c) := by
      apply Shows.foldl
      intro d y _
      split_ifs
      · exact Shows.nil color d
      · exact shows_pairs y color _ d
    refine hrows.congr ?_
    intro p hv
    unfold Visible at hv
    have hY : ∀ y, y = p.2 → (y ∈ upTo low high ↔ y ∈ upTo minY maxY) := by
      rintro y rfl
      rw [mem_upTo, mem_upTo]
      split_ifs at hlow hhigh <;> omega
    have hrow : ∀ y, p ∈ (if (polygonHits xs ys count y).length < 2 then []
        else planePairs y (sortInts (polygonHits xs ys count y))) → y = p.2 := by
      intro y hp
      split_ifs at hp
      · simp at hp
      · exact (snd_of_mem_planePairs hp).symm
    simp only [mem_flatMap]
    constructor
    · rintro ⟨y, hy, hp⟩
      exact ⟨y, (hY y (hrow y hp)).mp hy, hp⟩
    · rintro ⟨y, hy, hp⟩
      exact ⟨y, (hY y (hrow y hp)).mpr hy, hp⟩

/-- Every primitive shows its points. -/
theorem Primitive.draws (color : ℕ) (primitive : Primitive) :
    Draws color primitive.points fun c => primitive.draw color c := by
  cases primitive with
  | pixel x y => exact Draws.pure fun c => shows_pixel c x y color
  | line x1 y1 x2 y2 => exact draws_line x1 y1 x2 y2 color
  | rect x y w h => exact draws_rect x y w h color
  | fillrect x y w h => exact Draws.pure fun c => shows_fillrect c x y w h color
  | circle x y radius => exact draws_circle x y radius color
  | fillcircle x y radius => exact draws_fillcircle x y radius color
  | triangle x1 y1 x2 y2 x3 y3 => exact draws_triangle x1 y1 x2 y2 x3 y3 color
  | filltriangle x1 y1 x2 y2 x3 y3 => exact draws_filltriangle x1 y1 x2 y2 x3 y3 color
  | ellipse x y rx ry => exact draws_ellipse x y rx ry color
  | fillellipse x y rx ry => exact draws_fillellipse x y rx ry color
  | polygon xs ys count => exact draws_polygon xs ys count.toNat color
  | fillpolygon xs ys count =>
    exact Draws.pure fun c => shows_fillpolygon c xs ys count.toNat color

theorem Shows.apply_offset (h : Shows color c points c') (hv : Visible p) :
    c' (offset p) = if p ∈ points then color else c (offset p) := by
  rcases h (offset p) with ⟨hcolor, q, hq, hqv, hoff⟩ | ⟨hsame, hnot⟩
  · rw [offset_inj hqv hv hoff] at hq
    rw [if_pos hq, hcolor]
  · have hmem : p ∉ points := fun hp => hnot p hp hv rfl
    rw [if_neg hmem, hsame]

theorem Shows.apply_outside
    (h : Shows color c points c') {i : ℤ} (hi : ¬ (0 ≤ i ∧ i < canvasSize)) : c' i = c i := by
  rcases h i with ⟨-, q, -, hqv, hoff⟩ | ⟨hsame, -⟩
  · exact absurd (exists_visible_iff.mp ⟨q, hqv, hoff⟩) hi
  · exact hsame

/-- Showing the same points again changes nothing. -/
theorem Shows.idempotent {c'' : Canvas}
    (h : Shows color c points c') (h' : Shows color c' points c'') : c'' = c' := by
  funext i
  rcases h' i with ⟨hcolor, q, hq, hqv, hoff⟩ | ⟨hsame, -⟩
  · subst i
    rw [hcolor, h.apply_offset hqv, if_pos hq]
  · exact hsame

/-- A drawing that paints a region of the plane: exactly its pixels on the canvas get the
colour, and nothing else changes. -/
structure PaintsRegion (color : ℕ) (region : Point → Prop) (c c' : Canvas) : Prop where
  inside : ∀ p, Visible p → region p → c' (offset p) = color
  outside : ∀ p, Visible p → ¬ region p → c' (offset p) = c (offset p)
  beyond : ∀ i, ¬ (0 ≤ i ∧ i < canvasSize) → c' i = c i

/-- A canvas that shows the points of a region has it painted. -/
theorem Shows.paintsRegion {region : Point → Prop} (h : Shows color c points c')
    (hregion : ∀ p, Visible p → (p ∈ points ↔ region p)) : PaintsRegion color region c c' := by
  constructor
  · intro p hv hp
    rw [h.apply_offset hv, if_pos ((hregion p hv).mpr hp)]
  · intro p hv hp
    rw [h.apply_offset hv, if_neg (fun hmem => hp ((hregion p hv).mp hmem))]
  · intro i hi
    exact h.apply_outside hi

/-- The region, the colour and the canvas before determine the canvas. -/
theorem PaintsRegion.unique {region : Point → Prop} {c₁ c₂ : Canvas}
    (h₁ : PaintsRegion color region c c₁) (h₂ : PaintsRegion color region c c₂) : c₁ = c₂ := by
  funext i
  by_cases hi : 0 ≤ i ∧ i < canvasSize
  · obtain ⟨p, hv, rfl⟩ := exists_visible_iff.mpr hi
    by_cases hp : region p
    · rw [h₁.inside p hv hp, h₂.inside p hv hp]
    · rw [h₁.outside p hv hp, h₂.outside p hv hp]
  · rw [h₁.beyond i hi, h₂.beyond i hi]

/-- **Clipping.** A drawing primitive plots points of the plane that depend on its
arguments only. On every canvas it gives the points on the canvas its colour, leaves
every other byte as it was, on the canvas and around it, and does nothing more when
it is called again. -/
theorem clipping_is_exact (primitive : Primitive) :
    ∃ points, primitive.points = some points ∧ ∀ color canvas, ∃ canvas',
      primitive.draw color canvas = some canvas' ∧
      (∀ px py, 0 ≤ px → px < canvasWidth → 0 ≤ py → py < canvasHeight →
        canvas' (py * canvasWidth + px) =
          if (px, py) ∈ points then color else canvas (py * canvasWidth + px)) ∧
      (∀ i, ¬ (0 ≤ i ∧ i < canvasSize) → canvas' i = canvas i) ∧
      primitive.draw color canvas' = some canvas' := by
  obtain ⟨points, hpoints, -⟩ := primitive.draws 0
  refine ⟨points, hpoints, ?_⟩
  intro color canvas
  obtain ⟨points', hpoints', hdraw⟩ := primitive.draws color
  obtain rfl : points' = points := some.inj (hpoints'.symm.trans hpoints)
  obtain ⟨canvas', hcanvas', hshow⟩ := hdraw canvas
  obtain ⟨canvas'', hagain, hshow'⟩ := hdraw canvas'
  refine ⟨canvas', hcanvas', ?_, fun i hi => hshow.apply_outside hi, ?_⟩
  · intro px py hx hx' hy hy'
    exact hshow.apply_offset (p := (px, py)) ⟨hx, hx', hy, hy'⟩
  · rw [hshow.idempotent hshow'] at hagain
    exact hagain

end Xv6Draw
