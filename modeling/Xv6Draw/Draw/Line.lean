import Xv6Draw.Draw.Plane
import Xv6Draw.Draw.Parser
import Mathlib.Data.List.Chain

/-!
# Lines

The loop of `canvas_line` has no bound: it ends when it hits the end point. Its error term
is the distance from the ideal line, scaled by the length of the line, and the loop keeps it
within half a step of the longer axis. So a pass moves by one along that axis, and the end
point is hit after as many passes as the axis is long.

The error term is doubled before it is compared. In the arithmetic of `int` that is one
factor too much for the longest lines whose ends are still an `int` apart.
-/

namespace Xv6Draw

open List Loop Option

/-- The values of an `int`. -/
def IsInt (z : ℤ) : Prop := -2 ^ 31 ≤ z ∧ z < 2 ^ 31

instance (z : ℤ) : Decidable (IsInt z) := inferInstanceAs (Decidable (_ ∧ _))

/-- `abs_int` in the arithmetic of `int`. -/
def intAbs (value : ℤ) : ℤ := if value < 0 then wrap32 (-value) else value

/-- A pass of the loop of `canvas_line` that does not end it, in the arithmetic of `int`. -/
def intLineStep (dx sx dy sy : ℤ) (s : PlaneLine) : PlaneLine :=
  let err2 := wrap32 (2 * s.err)
  let err := if dy ≤ err2 then wrap32 (s.err + dy) else s.err
  let x := if dy ≤ err2 then wrap32 (s.x + sx) else s.x
  let y := if err2 ≤ dx then wrap32 (s.y + sy) else s.y
  let err := if err2 ≤ dx then wrap32 (err + dx) else err
  ⟨s.points ++ [(s.x, s.y)], x, y, err⟩

/-- `canvas_line` in the arithmetic of `int`: the points that it hands to `canvas_pixel`, if
`n` passes are enough. -/
def intLine (n : ℕ) (x1 y1 x2 y2 : ℤ) : Option (List Point) :=
  let dx := intAbs (wrap32 (x2 - x1))
  let sx := if x1 < x2 then 1 else -1
  let dy := wrap32 (-intAbs (wrap32 (y2 - y1)))
  let sy := if y1 < y2 then 1 else -1
  (whileLoop (fun s => !(s.x = x2 ∧ s.y = y2)) (intLineStep dx sx dy sy) n
    ⟨[], x1, y1, wrap32 (dx + dy)⟩).map fun s => s.points ++ [(s.x, s.y)]

/-- The length of a line along its longer axis. -/
def lineLength (x1 y1 x2 y2 : ℤ) : ℤ := max |x2 - x1| |y2 - y1|

/-- A step towards the end point: by one along the longer axis, and by one or not at all
along the other. -/
def LineMove (x1 y1 x2 y2 : ℤ) (p q : Point) : Prop :=
  ∃ i j : ℤ, (i = 0 ∨ i = 1) ∧ (j = 0 ∨ j = 1) ∧
    q.1 = p.1 + i * (x2 - x1).sign ∧ q.2 = p.2 + j * (y2 - y1).sign ∧
    (|y2 - y1| ≤ |x2 - x1| → i = 1) ∧ (|x2 - x1| ≤ |y2 - y1| → j = 1)

/-- A point is within half a pixel of the ideal line, measured along the shorter axis. -/
def NearLine (x1 y1 x2 y2 : ℤ) (p : Point) : Prop :=
  2 * |(|x2 - x1| * |p.2 - y1| - |y2 - y1| * |p.1 - x1|)| ≤ lineLength x1 y1 x2 y2

/-- Points that trace a line from one end to the other. -/
structure TracesLine (x1 y1 x2 y2 : ℤ) (points : List Point) : Prop where
  length : (points.length : ℤ) = lineLength x1 y1 x2 y2 + 1
  head : points.head? = some (x1, y1)
  last : points.getLast? = some (x2, y2)
  moves : points.IsChain (LineMove x1 y1 x2 y2)
  near : ∀ p ∈ points, NearLine x1 y1 x2 y2 p

/-- `canvas_line` ends, after as many passes as the line is long, and traces the line. -/
def DrawsLine (x1 y1 x2 y2 : ℤ) : Prop :=
  ∃ points, (∀ n : ℕ, lineLength x1 y1 x2 y2 ≤ n → intLine n x1 y1 x2 y2 = some points) ∧
    TracesLine x1 y1 x2 y2 points

/-! ### The loop on the plane -/

section

variable {x1 y1 x2 y2 dx dy sx sy : ℤ}

/-- One axis of a line: how many steps it takes along it, and in which direction. -/
structure Axis (p q d s : ℤ) : Prop where
  dist : d = |q - p|
  unit : s = 1 ∨ s = -1
  total : (q - p) * s = d
  sign : d ≠ 0 → s = (q - p).sign

theorem axis (p q : ℤ) : Axis p q (absInt (q - p)) (if p < q then 1 else -1) := by
  rcases lt_trichotomy p q with hlt | rfl | hgt
  · have hpos : 0 < q - p := by omega
    rw [if_pos hlt, absInt, if_neg (by omega)]
    exact ⟨(abs_of_pos hpos).symm, .inl rfl, mul_one _, fun _ => (Int.sign_eq_one_of_pos hpos).symm⟩
  · rw [if_neg (lt_irrefl p), absInt, if_neg (by omega)]
    exact ⟨by simp, .inr rfl, by simp, fun hne => absurd (sub_self p) hne⟩
  · have hneg : q - p < 0 := by omega
    rw [if_neg (by omega), absInt, if_pos hneg]
    exact ⟨(abs_of_neg hneg).symm, .inr rfl, by ring,
      fun _ => (Int.sign_eq_neg_one_of_neg hneg).symm⟩

/-- What the loop keeps: the invariant of the error term for the steps that are left, and
a trace of the line so far. -/
structure LineTrace (x1 y1 x2 y2 dx dy sx sy : ℤ) (t : PlaneLine) : Prop where
  inv : ∃ c c' : Canvas, LineInv c 0 dx dy ((x2 - t.x) * sx) ((y2 - t.y) * sy) ⟨c', t.x, t.y, t.err⟩
  count : t.points.length + lineLeft dx dy ((x2 - t.x) * sx) ((y2 - t.y) * sy) = (max dx dy).toNat
  head : (t.points ++ [(t.x, t.y)]).head? = some (x1, y1)
  moves : (t.points ++ [(t.x, t.y)]).IsChain (LineMove x1 y1 x2 y2)
  near : ∀ p ∈ t.points ++ [(t.x, t.y)], NearLine x1 y1 x2 y2 p

/-- Steps are left or none is, along both axes. -/
theorem LineInv.left_nonneg {c : Canvas} {color : ℕ} {a b : ℤ} {s : LineState} (hdx : 0 ≤ dx)
    (hdy : 0 ≤ dy) (h : LineInv c color dx dy a b s) : 0 ≤ a ∧ 0 ≤ b := by
  obtain ⟨-, -, hlow, hhigh, -, -, hlong, hstill⟩ := h
  rcases le_or_gt dy dx with hmajor | hmajor
  · have ha := hlong.1 hmajor
    refine ⟨ha, ?_⟩
    by_contra hneg
    rw [max_eq_left hmajor] at hhigh
    have hprod : dx * 1 ≤ dx * -b := mul_le_mul_of_nonneg_left (by omega) hdx
    have hprod' : 0 ≤ dy * a := mul_nonneg hdy ha
    have hdx0 : dx = 0 := by linarith
    exact absurd (hstill hdx0 (by omega)) (by omega)
  · have hb := hlong.2 hmajor
    refine ⟨?_, hb⟩
    by_contra hneg
    rw [max_eq_right hmajor.le] at hlow
    have hprod : dy * 1 ≤ dy * -a := mul_le_mul_of_nonneg_left (by omega) hdy
    have hprod' : 0 ≤ dx * b := mul_nonneg hdx hb
    linarith

/-- The position along one axis, from the steps that are left. -/
theorem Axis.position {p q d s x : ℤ} (h : Axis p q d s) (hle : (q - x) * s ≤ d) :
    |x - p| = d - (q - x) * s := by
  have htotal := h.total
  rcases h.unit with rfl | rfl
  · rw [abs_of_nonneg (by omega)]
    omega
  · rw [abs_of_nonpos (by omega)]
    omega

theorem Axis.isInt {p q d s x : ℤ} (h : Axis p q d s) (hp : IsInt p) (hq : IsInt q)
    (hnonneg : 0 ≤ (q - x) * s) (hle : (q - x) * s ≤ d) : IsInt x := by
  have htotal := h.total
  unfold IsInt at *
  rcases h.unit with rfl | rfl <;> omega

variable (hx : Axis x1 x2 dx sx) (hy : Axis y1 y2 dy sy)

include hx in
/-- A distance is not negative. -/
theorem Axis.nonneg : 0 ≤ dx := by
  rw [hx.dist]
  exact abs_nonneg _

include hx hy in
/-- The invariant of the error term keeps the position near the line. -/
theorem near_of_lineInv {c : Canvas} {color : ℕ} {s : LineState} {x y : ℤ}
    (h : LineInv c color dx dy ((x2 - x) * sx) ((y2 - y) * sy) s) :
    NearLine x1 y1 x2 y2 (x, y) := by
  have hX := hx.position h.a_le
  have hY := hy.position h.b_le
  have hlow := h.low
  have hhigh := h.high
  unfold NearLine lineLength
  rw [← hx.dist, ← hy.dist, hX, hY]
  have herr : dx * (dy - (y2 - y) * sy) - dy * (dx - (x2 - x) * sx) =
      dy * ((x2 - x) * sx) - dx * ((y2 - y) * sy) := by ring
  rw [herr]
  have habs : |dy * ((x2 - x) * sx) - dx * ((y2 - y) * sy)| * 2 ≤ max dx dy := by
    rcases abs_cases (dy * ((x2 - x) * sx) - dx * ((y2 - y) * sy)) with ⟨heq, -⟩ | ⟨heq, -⟩
    · omega
    · omega
  omega

/-- A step along an axis goes towards the end point. -/
theorem Axis.mul_sign {p q d s a i : ℤ} (h : Axis p q d s) (ha : 0 ≤ a) (hle : a ≤ d)
    (ha' : 0 ≤ a - i) (hle' : a - i ≤ d) : i * s = i * (q - p).sign := by
  by_cases hd : d = 0
  · obtain rfl : i = 0 := by omega
    simp
  · rw [h.sign hd]

include hx hy in
/-- A pass before the end extends the trace. -/
theorem LineTrace.step {t : PlaneLine} (h : LineTrace x1 y1 x2 y2 dx dy sx sy t)
    (hopen : ¬ (t.x = x2 ∧ t.y = y2)) :
    LineTrace x1 y1 x2 y2 dx dy sx sy (planeLineStep dx sx (-dy) sy t) ∧
      lineLeft dx dy ((x2 - (planeLineStep dx sx (-dy) sy t).x) * sx)
          ((y2 - (planeLineStep dx sx (-dy) sy t).y) * sy) <
        lineLeft dx dy ((x2 - t.x) * sx) ((y2 - t.y) * sy) := by
  obtain ⟨⟨c, c', hinv⟩, hcount, hhead, hmoves, hnear⟩ := h
  have hleft : ¬ ((x2 - t.x) * sx = 0 ∧ (y2 - t.y) * sy = 0) := by
    rcases hx.unit with rfl | rfl <;> rcases hy.unit with rfl | rfl <;> omega
  obtain ⟨i, j, hxi, hyj, hkeep, hless, hi, hj, hlongx, hlongy⟩ :=
    hinv.step hx.nonneg hy.nonneg hleft sx sy
  -- the pass on the canvas and the pass on the plane take the same steps
  change (planeLineStep dx sx (-dy) sy t).x = t.x + i * sx at hxi
  change (planeLineStep dx sx (-dy) sy t).y = t.y + j * sy at hyj
  have ha : (x2 - (planeLineStep dx sx (-dy) sy t).x) * sx = (x2 - t.x) * sx - i := by
    rw [hxi]
    rcases hx.unit with rfl | rfl <;> ring
  have hb : (y2 - (planeLineStep dx sx (-dy) sy t).y) * sy = (y2 - t.y) * sy - j := by
    rw [hyj]
    rcases hy.unit with rfl | rfl <;> ring
  have hpos := hinv.left_nonneg hx.nonneg hy.nonneg
  have hpos' := hkeep.left_nonneg hx.nonneg hy.nonneg
  have hmove : LineMove x1 y1 x2 y2 (t.x, t.y)
      ((planeLineStep dx sx (-dy) sy t).x, (planeLineStep dx sx (-dy) sy t).y) := by
    refine ⟨i, j, hi, hj, ?_, ?_, ?_, ?_⟩
    · rw [hxi, hx.mul_sign hpos.1 hinv.a_le hpos'.1 hkeep.a_le]
    · rw [hyj, hy.mul_sign hpos.2 hinv.b_le hpos'.2 hkeep.b_le]
    · rw [← hx.dist, ← hy.dist]
      exact hlongx
    · rw [← hx.dist, ← hy.dist]
      exact hlongy
  have hpoints : (planeLineStep dx sx (-dy) sy t).points = t.points ++ [(t.x, t.y)] := rfl
  rw [← ha, ← hb] at hkeep hless
  refine ⟨⟨⟨c, _, hkeep⟩, ?_, ?_, ?_, ?_⟩, by omega⟩
  · rw [hpoints, length_append, length_singleton]
    omega
  · rw [hpoints, List.head?_append, hhead, some_or]
  · rw [hpoints]
    refine hmoves.append (isChain_singleton _) ?_
    intro p hp q hq
    rw [List.getLast?_concat, mem_some_iff] at hp
    rw [List.head?_singleton, mem_some_iff] at hq
    rw [← hp, ← hq]
    exact hmove
  · rw [hpoints]
    intro p hp
    rcases mem_append.mp hp with hold | hnew
    · exact hnear p hold
    · rw [mem_singleton.mp hnew]
      exact near_of_lineInv hx hy hkeep

include hx hy in
/-- In a line that is short enough the arithmetic of `int` is exact. -/
theorem LineTrace.intLineStep_eq {t : PlaneLine} (h : LineTrace x1 y1 x2 y2 dx dy sx sy t)
    (hopen : ¬ (t.x = x2 ∧ t.y = y2)) (hx1 : IsInt x1) (hx2 : IsInt x2) (hy1 : IsInt y1)
    (hy2 : IsInt y2) (hlen : 3 * max dx dy < 2 ^ 31) :
    intLineStep dx sx (-dy) sy t = planeLineStep dx sx (-dy) sy t := by
  obtain ⟨⟨d, d', hinv'⟩, -⟩ := (h.step hx hy hopen).1
  obtain ⟨⟨c, c', hinv⟩, -⟩ := h
  have hdx := hx.nonneg
  have hdy := hy.nonneg
  have herr := hinv.err_eq
  have hlow := hinv.low
  have hhigh := hinv.high
  simp only at herr
  have hpos' := hinv'.left_nonneg hdx hdy
  have hxint := hx.isInt hx1 hx2 hpos'.1 hinv'.a_le
  have hyint := hy.isInt hy1 hy2 hpos'.2 hinv'.b_le
  have htwice : wrap32 (2 * t.err) = 2 * t.err := wrap32_eq_self (by omega) (by omega)
  have hminus : wrap32 (t.err + -dy) = t.err + -dy := wrap32_eq_self (by omega) (by omega)
  have hplus : wrap32 (t.err + dx) = t.err + dx := wrap32_eq_self (by omega) (by omega)
  have hboth : wrap32 (t.err + -dy + dx) = t.err + -dy + dx := wrap32_eq_self (by omega) (by omega)
  unfold intLineStep
  unfold planeLineStep at hxint hyint ⊢
  simp only [htwice] at hxint hyint ⊢
  by_cases hstepx : -dy ≤ 2 * t.err
  · have hnewx : wrap32 (t.x + sx) = t.x + sx := by
      rw [if_pos hstepx] at hxint
      exact wrap32_eq_self hxint.1 hxint.2
    by_cases hstepy : 2 * t.err ≤ dx
    · have hnewy : wrap32 (t.y + sy) = t.y + sy := by
        rw [if_pos hstepy] at hyint
        exact wrap32_eq_self hyint.1 hyint.2
      simp only [if_pos hstepx, if_pos hstepy, hnewx, hnewy, hminus, hboth]
    · simp only [if_pos hstepx, if_neg hstepy, hnewx, hminus]
  · by_cases hstepy : 2 * t.err ≤ dx
    · have hnewy : wrap32 (t.y + sy) = t.y + sy := by
        rw [if_pos hstepy] at hyint
        exact wrap32_eq_self hyint.1 hyint.2
      simp only [if_neg hstepx, if_pos hstepy, hnewy, hplus]
    · simp only [if_neg hstepx, if_neg hstepy]

include hx hy in
/-- The loop starts with a trace of one point. -/
theorem lineTrace_start : LineTrace x1 y1 x2 y2 dx dy sx sy ⟨[], x1, y1, dx + -dy⟩ := by
  have hinv := lineInv_start (fun _ => 0) 0 hx.nonneg hy.nonneg hx.total hy.total
  refine ⟨⟨_, _, hinv⟩, ?_, rfl, isChain_singleton _, ?_⟩
  · have hdx := hx.nonneg
    simp only [length_nil, hx.total, hy.total, lineLeft]
    split_ifs <;> omega
  · intro p hp
    rw [nil_append, mem_singleton] at hp
    rw [hp]
    exact near_of_lineInv hx hy hinv

end

theorem intAbs_eq {z : ℤ} (hlow : -2 ^ 31 < z) (hhigh : z < 2 ^ 31) : intAbs z = absInt z := by
  unfold intAbs absInt
  split_ifs with hneg
  · exact wrap32_eq_self (by omega) (by omega)
  · rfl

/-- On the plane `canvas_line` traces the line between its two ends. -/
theorem planeLine_traces (x1 y1 x2 y2 : ℤ) :
    ∃ points, planeLine x1 y1 x2 y2 = some points ∧ TracesLine x1 y1 x2 y2 points := by
  have hx := axis x1 x2
  have hy := axis y1 y2
  have hmax : lineLength x1 y1 x2 y2 = max (absInt (x2 - x1)) (absInt (y2 - y1)) := by
    rw [lineLength, hx.dist, hy.dist]
  have hstart := lineTrace_start hx hy
  unfold planeLine
  generalize absInt (x2 - x1) = dx at *
  generalize absInt (y2 - y1) = dy at *
  generalize (if x1 < x2 then 1 else -1 : ℤ) = sx at *
  generalize (if y1 < y2 then 1 else -1 : ℤ) = sy at *
  have hdx := hx.nonneg
  have hpass : ∀ t : PlaneLine, LineTrace x1 y1 x2 y2 dx dy sx sy t →
      (!decide (t.x = x2 ∧ t.y = y2)) = true →
      LineTrace x1 y1 x2 y2 dx dy sx sy (planeLineStep dx sx (-dy) sy t) ∧
        lineLeft dx dy ((x2 - (planeLineStep dx sx (-dy) sy t).x) * sx)
            ((y2 - (planeLineStep dx sx (-dy) sy t).y) * sy) <
          lineLeft dx dy ((x2 - t.x) * sx) ((y2 - t.y) * sy) := by
    intro t ht hcond
    simp only [Bool.not_eq_true', decide_eq_false_iff_not] at hcond
    exact ht.step hx hy hcond
  have hbound : lineLeft dx dy ((x2 - x1) * sx) ((y2 - y1) * sy) ≤ (max dx (- -dy)).toNat := by
    have hcount := hstart.count
    simp only [length_nil] at hcount
    rw [neg_neg]
    omega
  obtain ⟨t, hloop, ht, hend⟩ := whileLoop_rule (I := LineTrace x1 y1 x2 y2 dx dy sx sy)
    (m := fun t => lineLeft dx dy ((x2 - t.x) * sx) ((y2 - t.y) * sy)) hpass
    (s := ⟨[], x1, y1, dx + -dy⟩) hstart hbound
  simp only [Bool.not_eq_false', decide_eq_true_eq] at hend
  refine ⟨t.points ++ [(t.x, t.y)], by simp only [hloop, map_some], ?_, ht.head, ?_,
    ht.moves, ht.near⟩
  · have hcount := ht.count
    have hleft : lineLeft dx dy ((x2 - t.x) * sx) ((y2 - t.y) * sy) = 0 := by
      rw [hend.1, hend.2]
      simp [lineLeft]
    rw [length_append, length_singleton, hmax]
    omega
  · rw [List.getLast?_concat, hend.1, hend.2]

/-- In the arithmetic of `int` a line that is short enough is the line of the plane. -/
theorem intLine_eq_planeLine {x1 y1 x2 y2 : ℤ} (hx1 : IsInt x1) (hy1 : IsInt y1) (hx2 : IsInt x2)
    (hy2 : IsInt y2) (hlen : IsInt (3 * lineLength x1 y1 x2 y2)) :
    intLine (lineLength x1 y1 x2 y2).toNat x1 y1 x2 y2 = planeLine x1 y1 x2 y2 := by
  have hx := axis x1 x2
  have hy := axis y1 y2
  have hmax : lineLength x1 y1 x2 y2 = max (absInt (x2 - x1)) (absInt (y2 - y1)) := by
    rw [lineLength, hx.dist, hy.dist]
  have hxabs : intAbs (wrap32 (x2 - x1)) = absInt (x2 - x1) := by
    have hle := le_abs_self (x2 - x1)
    have hge := neg_abs_le (x2 - x1)
    unfold IsInt lineLength at hlen
    rw [wrap32_eq_self (by omega) (by omega), intAbs_eq (by omega) (by omega)]
  have hyabs : intAbs (wrap32 (y2 - y1)) = absInt (y2 - y1) := by
    have hle := le_abs_self (y2 - y1)
    have hge := neg_abs_le (y2 - y1)
    unfold IsInt lineLength at hlen
    rw [wrap32_eq_self (by omega) (by omega), intAbs_eq (by omega) (by omega)]
  rw [hmax] at hlen ⊢
  have hstart := lineTrace_start hx hy
  unfold intLine planeLine
  rw [hxabs, hyabs]
  generalize absInt (x2 - x1) = dx at *
  generalize absInt (y2 - y1) = dy at *
  generalize (if x1 < x2 then 1 else -1 : ℤ) = sx at *
  generalize (if y1 < y2 then 1 else -1 : ℤ) = sy at *
  have hdx := hx.nonneg
  have hdy := hy.nonneg
  have hlong := hlen.2
  have hneg : wrap32 (-dy) = -dy := wrap32_eq_self (by omega) (by omega)
  have herr : wrap32 (dx + -dy) = dx + -dy := wrap32_eq_self (by omega) (by omega)
  have hpass : ∀ t : PlaneLine, LineTrace x1 y1 x2 y2 dx dy sx sy t →
      (!decide (t.x = x2 ∧ t.y = y2)) = true →
      LineTrace x1 y1 x2 y2 dx dy sx sy (planeLineStep dx sx (-dy) sy t) ∧
        intLineStep dx sx (-dy) sy t = planeLineStep dx sx (-dy) sy t := by
    intro t ht hcond
    simp only [Bool.not_eq_true', decide_eq_false_iff_not] at hcond
    exact ⟨(ht.step hx hy hcond).1, ht.intLineStep_eq hx hy hcond hx1 hx2 hy1 hy2 hlong⟩
  simp only [hneg, herr]
  rw [neg_neg, whileLoop_congr hpass hstart]

/-- `canvas_line` traces the line between its two ends if three times the length of the line
is an `int`: it ends after a pass for each step along the longer axis, moves by one along
that axis in every pass, and stays within half a pixel of the ideal line. -/
theorem line_is_traced {x1 y1 x2 y2 : ℤ} (hx1 : IsInt x1) (hy1 : IsInt y1) (hx2 : IsInt x2)
    (hy2 : IsInt y2) (hlen : IsInt (3 * lineLength x1 y1 x2 y2)) : DrawsLine x1 y1 x2 y2 := by
  obtain ⟨points, hplane, htrace⟩ := planeLine_traces x1 y1 x2 y2
  refine ⟨points, ?_, htrace⟩
  intro n hn
  rw [← intLine_eq_planeLine hx1 hy1 hx2 hy2 hlen] at hplane
  obtain ⟨t, hloop, rfl⟩ := map_eq_some_iff.mp hplane
  exact map_eq_some_iff.mpr ⟨t, whileLoop_mono hloop (by omega), rfl⟩

/-- A line to the right and down. -/
theorem line_is_traced_short : IsInt (3 * lineLength 0 0 5 2) ∧ DrawsLine 0 0 5 2 :=
  ⟨by decide, line_is_traced (by decide) (by decide) (by decide) (by decide) (by decide)⟩

/-- The points that were plotted stay. -/
theorem whileLoop_points_prefix {cond : PlaneLine → Bool} {dx sx dy sy : ℤ} {n : ℕ}
    {s t : PlaneLine} (h : whileLoop cond (intLineStep dx sx dy sy) n s = some t) :
    s.points ++ [(s.x, s.y)] <+: t.points ++ [(t.x, t.y)] := by
  induction n generalizing s with
  | zero =>
    rw [whileLoop] at h
    split_ifs at h
    cases h
    exact prefix_rfl
  | succ n ih =>
    rw [whileLoop] at h
    split_ifs at h
    · have hrest := ih h
      exact (prefix_append _ _).trans hrest
    · cases h
      exact prefix_rfl

/-- Twice the error term of this line wraps, and the first step leaves the line. -/
theorem long_line_step :
    intLineStep (2 ^ 30) 1 0 (-1) ⟨[], 0, 0, 2 ^ 30⟩ = ⟨[(0, 0)], 0, -1, -2 ^ 31⟩ := by
  have htwice : wrap32 2147483648 = -2147483648 := by decide
  have hminus : wrap32 (-1) = -1 := by decide
  simp [intLineStep, htwice, hminus]

/-- The ends of this line are an `int` apart, but twice its error term is not an `int`: the
second point is not on the line. -/
theorem long_line_goes_astray : IsInt (2 ^ 30 - 0) ∧ IsInt (0 - 0) ∧ ¬ DrawsLine 0 0 (2 ^ 30) 0 := by
  refine ⟨by decide, by decide, ?_⟩
  rintro ⟨points, hline, hlength, hhead, hlast, hmoves, hnear⟩
  have hloop := hline (2 ^ 30 + 1) (by decide)
  have hdx : intAbs (wrap32 (2 ^ 30 - 0)) = 2 ^ 30 := by decide
  have hdy : wrap32 (-intAbs (wrap32 (0 - 0))) = 0 := by decide
  have herr : wrap32 (2 ^ 30 + 0) = 2 ^ 30 := by decide
  unfold intLine at hloop
  simp only [hdx, hdy, herr] at hloop
  obtain ⟨t, ht, rfl⟩ := map_eq_some_iff.mp hloop
  rw [whileLoop, if_pos (by decide), if_pos (by decide), if_neg (by decide), long_line_step] at ht
  have hprefix := whileLoop_points_prefix ht
  have hsecond : (0, -1) ∈ t.points ++ [(t.x, t.y)] := hprefix.subset (by simp)
  have hfar := hnear (0, -1) hsecond
  exact absurd hfar (by unfold NearLine; decide)

end Xv6Draw
