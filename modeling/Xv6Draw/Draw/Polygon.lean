import Xv6Draw.Draw.Plane
import Xv6Draw.Lib.OrderStatistic

/-!
# Filled polygons

`canvas_fillpolygon` collects the crossings of a row with the edges, puts them in order and
fills between every two. An edge crosses the row when its ends are on different sides of it,
the row itself counted to one side. Around a closed chain the side changes an even number of
times, so no crossing is left over. The division rounds a crossing towards the first end of
its edge, up or down, but by less than one. Rounded in one direction or the other all
crossings keep their order, so after the sort the crossing of each rank is within one of the
exact crossing of the same rank.
-/

namespace Xv6Draw

open List Loop

/-! ### The sort -/

section

variable {values : List ℤ} {i j : ℕ}

/-- A comparison of `sort_ints` only exchanges. -/
theorem sortStep_perm (hi : i < values.length) (hj : j < values.length) :
    (sortStep values i j).Perm values := by
  unfold sortStep
  split_ifs
  · rw [getD_eq_getElem _ _ hi, getD_eq_getElem _ _ hj]
    exact set_set_perm hi hj
  · exact List.Perm.refl _

/-- The value at a place after a store in a list. -/
theorem getD_set_of_lt (hi : i < values.length) (v : ℤ) (k : ℕ) :
    (values.set i v).getD k 0 = if k = i then v else values.getD k 0 := by
  rw [getD_eq_getElem?_getD, List.getElem?_set, getD_eq_getElem?_getD]
  by_cases hki : k = i
  · rw [if_pos hki.symm, if_pos hi, if_pos hki, Option.getD_some]
  · rw [if_neg (Ne.symm hki), if_neg hki]

/-- The values after a comparison of `sort_ints`. -/
theorem getD_sortStep (hi : i < values.length) (hj : j < values.length) (hij : i ≠ j) (k : ℕ) :
    (sortStep values i j).getD k 0 =
      if k = i then min (values.getD i 0) (values.getD j 0)
      else if k = j then max (values.getD i 0) (values.getD j 0) else values.getD k 0 := by
  unfold sortStep
  by_cases hless : values.getD j 0 < values.getD i 0
  · rw [if_pos hless, getD_set_of_lt (by rwa [length_set]), getD_set_of_lt hi,
      min_eq_right hless.le, max_eq_left hless.le]
    split_ifs with hkj hki hki
    · exact absurd (hki.symm.trans hkj) hij
    · rfl
    · rfl
    · rfl
  · rw [if_neg hless, min_eq_left (not_lt.mp hless), max_eq_right (not_lt.mp hless)]
    split_ifs with hki hkj
    · rw [hki]
    · rw [hkj]
    · rfl

/-- The first `n` values are in their final places: each is at most all that follow it. -/
def SettledTo (values : List ℤ) (n : ℕ) : Prop :=
  ∀ a b, a < n → a < b → b < values.length → values.getD a 0 ≤ values.getD b 0

/-- What the inner loop of `sort_ints` keeps before it looks at place `j`: the value at place
`i` is the least so far. -/
structure SortPass (start : List ℤ) (i j : ℕ) (values : List ℤ) : Prop where
  perm : values.Perm start
  settled : SettledTo values i
  least : ∀ b, i < b → b < j → values.getD i 0 ≤ values.getD b 0

/-- A pass of the inner loop. -/
theorem SortPass.step {start : List ℤ} (h : SortPass start i j values) (hij : i < j)
    (hj : j < values.length) : SortPass start i (j + 1) (sortStep values i j) := by
  obtain ⟨hperm, hsettled, hleast⟩ := h
  have hi : i < values.length := by omega
  have hlength : (sortStep values i j).length = values.length := (sortStep_perm hi hj).length_eq
  refine ⟨(sortStep_perm hi hj).trans hperm, ?_, ?_⟩
  · intro a b ha hab hb
    rw [hlength] at hb
    have hai := hsettled a i ha ha hi
    have haj := hsettled a j ha (by omega) hj
    have habound := hsettled a b ha hab hb
    rw [getD_sortStep hi hj (by omega), getD_sortStep hi hj (by omega), if_neg (by omega),
      if_neg (by omega)]
    split_ifs
    · exact le_min hai haj
    · exact hai.trans (le_max_left _ _)
    · exact habound
  · intro b hib hbj
    rw [getD_sortStep hi hj (by omega), getD_sortStep hi hj (by omega), if_pos rfl,
      if_neg (by omega)]
    split_ifs with hb
    · exact min_le_max
    · exact (min_le_left _ _).trans (hleast b hib (by omega))

end

/-- `sort_ints` puts its values in order. -/
theorem sortInts_sorts (values : List ℤ) :
    (sortInts values).Perm values ∧ (sortInts values).Pairwise (· ≤ ·) := by
  have houter : (sortInts values).Perm values ∧ SettledTo (sortInts values) (0 + values.length) := by
    unfold sortInts
    rw [range_eq_range']
    refine foldl_range'_rule (I := fun i vs => vs.Perm values ∧ SettledTo vs i) ?_
      ⟨List.Perm.refl _, fun a b ha => absurd ha (Nat.not_lt_zero a)⟩
    rintro vs i - hi ⟨hperm, hsettled⟩
    have hpass : SortPass values i (i + 1 + (values.length - (i + 1)))
        ((range' (i + 1) (values.length - (i + 1))).foldl (fun vs j => sortStep vs i j) vs) := by
      refine foldl_range'_rule (I := fun j us => SortPass values i j us) ?_
        ⟨hperm, hsettled, fun b hib hb => absurd hb (by omega)⟩
      intro us j hij hj hus
      exact hus.step (by omega) (by rw [hus.perm.length_eq]; omega)
    refine ⟨hpass.perm, ?_⟩
    intro a b ha hab hb
    rcases Nat.lt_or_eq_of_le (Nat.lt_succ_iff.mp ha) with hlt | rfl
    · exact hpass.settled a b hlt hab hb
    · rw [hpass.perm.length_eq] at hb
      exact hpass.least b hab (by omega)
  refine ⟨houter.1, ?_⟩
  rw [pairwise_iff_getElem]
  intro a b ha hb hab
  have hle := houter.2 a b (by rw [← houter.1.length_eq]; omega) hab hb
  rwa [getD_eq_getElem _ _ ha, getD_eq_getElem _ _ hb] at hle

/-! ### The crossings -/

/-- An edge from row `y0` to row `y1` crosses row `y`: its half-open range of rows has `y`. -/
def Crosses (y y0 y1 : ℤ) : Prop := (y0 ≤ y ∧ y < y1) ∨ (y1 ≤ y ∧ y < y0)

instance (y y0 y1 : ℤ) : Decidable (Crosses y y0 y1) := inferInstanceAs (Decidable (_ ∨ _))

/-- The exact crossings of row `y` with the edges of a polygon. -/
def crossings (xs ys : List ℤ) (count : ℕ) (y : ℤ) : List ℚ :=
  (range count).filterMap fun i =>
    let next := (i + 1) % count
    let y0 := ys.getD i 0
    let y1 := ys.getD next 0
    let x0 := xs.getD i 0
    let x1 := xs.getD next 0
    if Crosses y y0 y1 then some (x0 + (y - y0) * (x1 - x0) / (y1 - y0) : ℚ) else none

/-- Division towards zero is off by less than one. -/
theorem tdiv_near (a : ℤ) {b : ℤ} (hb : b ≠ 0) :
    ((a.tdiv b : ℤ) : ℚ) - 1 < a / b ∧ (a / b : ℚ) < (a.tdiv b : ℤ) + 1 := by
  have hmod : |a.tmod b| < |b| := by
    rw [Int.abs_eq_natAbs, Int.abs_eq_natAbs, Int.natAbs_tmod]
    exact_mod_cast Nat.mod_lt _ (Int.natAbs_pos.mpr hb)
  have hb' : (b : ℚ) ≠ 0 := Int.cast_ne_zero.mpr hb
  have hsplit : (a : ℚ) = b * a.tdiv b + a.tmod b := by
    exact_mod_cast (Int.mul_tdiv_add_tmod a b).symm
  have hdiv : (a / b : ℚ) = a.tdiv b + a.tmod b / b := by
    calc (a / b : ℚ) = (b * a.tdiv b + a.tmod b) / b := by rw [← hsplit]
      _ = a.tdiv b + a.tmod b / b := by rw [add_div, mul_div_cancel_left₀ _ hb']
  have hfrac : |(a.tmod b / b : ℚ)| < 1 := by
    rw [abs_div, div_lt_one (abs_pos.mpr hb')]
    exact_mod_cast hmod
  obtain ⟨hlow, hhigh⟩ := abs_lt.mp hfrac
  rw [hdiv]
  exact ⟨by linarith, by linarith⟩

/-- A recorded crossing is within one of the exact one. -/
def Near (h : ℤ) (c : ℚ) : Prop := (h : ℚ) - 1 < c ∧ c < h + 1

/-- Lists that a test and a value for each index make, related where the values are. -/
theorem forall₂_filterMap {α β γ : Type*} {R : β → γ → Prop} {f : α → Option β} {g : α → Option γ}
    (h : ∀ a, Option.Rel R (f a) (g a)) (l : List α) :
    List.Forall₂ R (l.filterMap f) (l.filterMap g) := by
  induction l with
  | nil => exact List.Forall₂.nil
  | cons a l ih =>
    rw [filterMap_cons, filterMap_cons]
    have ha := h a
    generalize f a = b at ha ⊢
    generalize g a = c at ha ⊢
    cases ha with
    | none => exact ih
    | some hr => exact List.Forall₂.cons hr ih

/-- The recorded crossings are near the exact ones, edge by edge. -/
theorem polygonHits_near (xs ys : List ℤ) (count : ℕ) (y : ℤ) :
    List.Forall₂ Near (polygonHits xs ys count y) (crossings xs ys count y) := by
  apply forall₂_filterMap
  intro i
  simp only
  generalize ys.getD i 0 = y0
  generalize ys.getD ((i + 1) % count) 0 = y1
  generalize xs.getD i 0 = x0
  generalize xs.getD ((i + 1) % count) 0 = x1
  by_cases hflat : y0 = y1
  · rw [if_pos hflat, if_neg (by unfold Crosses; omega)]
    exact Option.Rel.none
  · rw [if_neg hflat]
    by_cases hcross : Crosses y y0 y1
    · have hrange : (y0 ≤ y ∧ y < y1) ∨ (y1 ≤ y ∧ y < y0) := hcross
      rw [if_pos hcross, if_pos hrange]
      apply Option.Rel.some
      obtain ⟨hlow, hhigh⟩ := tdiv_near ((y - y0) * (x1 - x0)) (show y1 - y0 ≠ 0 by omega)
      push_cast at hlow hhigh
      unfold Near
      push_cast
      exact ⟨by linarith, by linarith⟩
    · have hrange : ¬ ((y0 ≤ y ∧ y < y1) ∨ (y1 ≤ y ∧ y < y0)) := hcross
      rw [if_neg hcross, if_neg hrange]
      exact Option.Rel.none

/-- A recorded crossing lies between the roundings of the exact one. -/
theorem Near.floor_le {h : ℤ} {c : ℚ} (hnear : Near h c) : ⌊c⌋ ≤ h ∧ h ≤ ⌈c⌉ := by
  have hfloor : ⌊c⌋ < h + 1 := Int.floor_lt.mpr (by push_cast; exact hnear.2)
  have hceil : h - 1 < ⌈c⌉ := Int.lt_ceil.mpr (by push_cast; exact hnear.1)
  omega

/-- After the sort the crossing of each rank lies between the roundings of the exact crossing
of the same rank. -/
theorem sortInts_near {hits : List ℤ} {edges cs : List ℚ} (hnear : List.Forall₂ Near hits edges)
    (hperm : cs.Perm edges) (hsorted : cs.Pairwise (· ≤ ·)) {k : ℕ} {h : ℤ} {c : ℚ}
    (hh : (sortInts hits)[k]? = some h) (hc : cs[k]? = some c) : ⌊c⌋ ≤ h ∧ h ≤ ⌈c⌉ := by
  obtain ⟨hsperm, hssorted⟩ := sortInts_sorts hits
  obtain ⟨hk, rfl⟩ := List.getElem?_eq_some_iff.mp hh
  obtain ⟨hk', rfl⟩ := List.getElem?_eq_some_iff.mp hc
  constructor
  · have hfloors : List.Forall₂ (· ≤ ·) (edges.map Int.floor) hits := by
      rw [List.forall₂_map_left_iff]
      exact (hnear.imp fun a b hab => hab.floor_le.1).flip
    have hbound := OrderStatistic.getElem_le_getElem hfloors (hperm.map _) hsperm
      (hsorted.map _ fun a b hab => Int.floor_le_floor hab) hssorted
      (show k < (cs.map Int.floor).length by simpa using hk') hk
    simpa using hbound
  · have hceils : List.Forall₂ (· ≤ ·) hits (edges.map Int.ceil) := by
      rw [List.forall₂_map_right_iff]
      exact hnear.imp fun a b hab => hab.floor_le.2
    have hbound := OrderStatistic.getElem_le_getElem hceils hsperm (hperm.map _) hssorted
      (hsorted.map _ fun a b hab => Int.ceil_le_ceil hab) hk
      (show k < (cs.map Int.ceil).length by simpa using hk')
    simpa using hbound

theorem length_polygonHits (xs ys : List ℤ) (count : ℕ) (y : ℤ) : (polygonHits xs ys count y).length =
      (range count).countP fun i => Crosses y (ys.getD i 0) (ys.getD ((i + 1) % count) 0) := by
  rw [(polygonHits_near xs ys count y).length_eq, crossings, length_filterMap_eq_countP]
  apply countP_congr
  intro i _
  simp only
  split_ifs with hcross
  · rw [Option.isSome_some, decide_eq_true hcross]
  · rw [Option.isSome_none, decide_eq_false hcross]

/-- Along a chain the side changes an even number of times when it starts and ends on the same
side. -/
theorem even_changes (side : ℕ → Bool) (n : ℕ) :
    Even ((range n).countP fun i => side i ≠ side (i + 1)) ↔ side 0 = side n := by
  induction n with
  | zero => simp
  | succ n ih =>
    rw [range_succ, countP_append, countP_singleton]
    by_cases hchange : side n = side (n + 1)
    · simp only [hchange, ne_eq, not_true_eq_false, decide_false, Bool.false_eq_true, if_false,
        add_zero]
      rw [← hchange]
      exact ih
    · simp only [ne_eq, hchange, not_false_eq_true, decide_true, if_true]
      rw [Nat.even_add_one]
      rw [ih]
      revert hchange
      cases side 0 <;> cases side n <;> cases side (n + 1) <;> simp

/-- Around a closed chain the side changes an even number of times. -/
theorem even_changes_cyclic (side : ℕ → Bool) (n : ℕ) :
    Even ((range n).countP fun i => side i ≠ side ((i + 1) % n)) := by
  cases n with
  | zero => simp
  | succ n =>
    have hchain := (even_changes (fun i => side (i % (n + 1))) (n + 1)).mpr (by simp)
    convert hchain using 1
    apply countP_congr
    intro i hi
    rw [Nat.mod_eq_of_lt (mem_range.mp hi)]

theorem crosses_iff {y y0 y1 : ℤ} : Crosses y y0 y1 ↔ decide (y0 ≤ y) ≠ decide (y1 ≤ y) := by
  unfold Crosses
  rw [ne_eq, decide_eq_decide]
  omega

/-- A row has an even number of crossings, and one for each edge at most. -/
theorem even_length_polygonHits (xs ys : List ℤ) (count : ℕ) (y : ℤ) :
    Even (polygonHits xs ys count y).length ∧ (polygonHits xs ys count y).length ≤ count := by
  rw [length_polygonHits]
  constructor
  · have heven := even_changes_cyclic (fun i => decide (ys.getD i 0 ≤ y)) count
    simpa only [crosses_iff] using heven
  · exact countP_le_length.trans (length_range ▸ le_rfl)

/-! ### The rows -/

/-- The points of a row between crossings in order. -/
theorem mem_planePairs {y px : ℤ} : ∀ {hits : List ℤ}, hits.Pairwise (· ≤ ·) →
    ((px, y) ∈ planePairs y hits ↔ ∃ (j : ℕ) (a b : ℤ),
      hits[2 * j]? = some a ∧ hits[2 * j + 1]? = some b ∧ a ≤ px ∧ px ≤ b)
  | [], _ => by simp [planePairs]
  | [a], _ => by
    simp only [planePairs, not_mem_nil, false_iff]
    rintro ⟨j, a, b, -, hb, -⟩
    simp at hb
  | a :: b :: rest, hsorted => by
    have hab : a ≤ b := rel_of_pairwise_cons hsorted (by simp)
    have ih : (px, y) ∈ planePairs y rest ↔ _ := mem_planePairs hsorted.of_cons.of_cons
    rw [planePairs, mem_append, mem_planeHline, min_eq_left hab, max_eq_right hab, ih]
    constructor
    · rintro (⟨hlow, hhigh, -⟩ | ⟨j, c, d, hc, hd, hbetween⟩)
      · exact ⟨0, a, b, rfl, rfl, hlow, hhigh⟩
      · exact ⟨j + 1, c, d, hc, hd, hbetween⟩
    · rintro ⟨j, c, d, hc, hd, hlow, hhigh⟩
      cases j with
      | zero =>
        cases hc
        cases hd
        exact .inl ⟨hlow, hhigh, rfl⟩
      | succ j => exact .inr ⟨j, c, d, hc, hd, hlow, hhigh⟩

/-- A row with a crossing is crossed by an edge. -/
theorem exists_crosses {xs ys : List ℤ} {count : ℕ} {y : ℤ}
    (h : 0 < (polygonHits xs ys count y).length) :
    ∃ i < count, Crosses y (ys.getD i 0) (ys.getD ((i + 1) % count) 0) := by
  rw [length_polygonHits, countP_pos_iff] at h
  obtain ⟨i, hi, hcross⟩ := h
  exact ⟨i, mem_range.mp hi, of_decide_eq_true hcross⟩

/-- The row a polygon starts with, and the row it ends with. -/
theorem rows_of_polygon (ys : List ℤ) {count : ℕ} (hcount : 1 ≤ count) :
    ∀ i < count, (range' 1 (count - 1)).foldl
        (fun m i => if ys.getD i 0 < m then ys.getD i 0 else m) (ys.getD 0 0) ≤ ys.getD i 0 ∧
      ys.getD i 0 ≤ (range' 1 (count - 1)).foldl
        (fun m i => if m < ys.getD i 0 then ys.getD i 0 else m) (ys.getD 0 0) := by
  have hend : 1 + (count - 1) = count := by omega
  have hstart : ∀ i < 1, ys.getD i 0 = ys.getD 0 0 := by
    intro i hi
    obtain rfl : i = 0 := by omega
    rfl
  have hmin := foldl_range'_rule (a := 1) (n := count - 1)
    (f := fun m i => if ys.getD i 0 < m then ys.getD i 0 else m)
    (I := fun k m => ∀ i < k, m ≤ ys.getD i 0) (s := ys.getD 0 0) ?_ (fun i hi => (hstart i hi).ge)
  · have hmax := foldl_range'_rule (a := 1) (n := count - 1)
      (f := fun m i => if m < ys.getD i 0 then ys.getD i 0 else m)
      (I := fun k m => ∀ i < k, ys.getD i 0 ≤ m) (s := ys.getD 0 0) ?_ (fun i hi => (hstart i hi).le)
    · rw [hend] at hmin hmax
      intro i hi
      exact ⟨hmin i hi, hmax i hi⟩
    · intro m k _ _ hm i hi
      rcases Nat.lt_or_eq_of_le (Nat.lt_succ_iff.mp hi) with hlt | rfl
      · have hold := hm i hlt
        split_ifs <;> omega
      · split_ifs <;> omega
  · intro m k _ _ hm i hi
    rcases Nat.lt_or_eq_of_le (Nat.lt_succ_iff.mp hi) with hlt | rfl
    · have hold := hm i hlt
      split_ifs <;> omega
    · split_ifs <;> omega

/-- The points of `canvas_fillpolygon` in a row are those between its crossings. -/
theorem mem_planeFillpolygon {xs ys : List ℤ} {count : ℕ} (h3 : 3 ≤ count)
    (h16 : count ≤ polygonMaxPoints) {px y : ℤ} : (px, y) ∈ planeFillpolygon xs ys count ↔
      (px, y) ∈ planePairs y (sortInts (polygonHits xs ys count y)) := by
  have hrows := rows_of_polygon ys (show 1 ≤ count by omega)
  simp only [planeFillpolygon, if_neg (show ¬ (count < 3 ∨ polygonMaxPoints < count) by omega),
    mem_flatMap]
  constructor
  · rintro ⟨row, -, hp⟩
    split_ifs at hp with hfew
    · simp at hp
    · obtain rfl : y = row := snd_of_mem_planePairs hp
      exact hp
  · intro hp
    obtain ⟨hperm, hsorted⟩ := sortInts_sorts (polygonHits xs ys count y)
    have hlength : ¬ (polygonHits xs ys count y).length < 2 := by
      obtain ⟨j, a, b, -, hb, -⟩ := (mem_planePairs hsorted).mp hp
      obtain ⟨hlt, -⟩ := List.getElem?_eq_some_iff.mp hb
      rw [hperm.length_eq] at hlt
      omega
    obtain ⟨i, hi, hcross⟩ := exists_crosses (show 0 < (polygonHits xs ys count y).length by omega)
    have hfirst := hrows i hi
    have hsecond := hrows ((i + 1) % count) (Nat.mod_lt _ (by omega))
    unfold Crosses at hcross
    refine ⟨y, mem_upTo.mpr (by omega), ?_⟩
    rw [if_neg hlength]
    exact hp

/-- **Filled polygons.** In every row the recorded crossings are even in number and fit in the
array. With the exact crossings in order, every pixel strictly between the two of a pair is
painted, and a painted pixel is less than one outside of such a pair. Rows above the polygon,
its last row and the rows below are not touched. -/
theorem fillpolygon_is_exact (xs ys : List ℤ) {count : ℕ} (h3 : 3 ≤ count)
    (h16 : count ≤ polygonMaxPoints) : (∀ y, Even (polygonHits xs ys count y).length ∧
      (polygonHits xs ys count y).length ≤ polygonMaxPoints ∧
      (∀ cs : List ℚ, cs.Perm (crossings xs ys count y) → cs.Pairwise (· ≤ ·) →
        (∀ (j : ℕ) (a b : ℚ) (px : ℤ), cs[2 * j]? = some a → cs[2 * j + 1]? = some b →
          a < px → px < b → (px, y) ∈ planeFillpolygon xs ys count) ∧
        ∀ px, (px, y) ∈ planeFillpolygon xs ys count → ∃ (j : ℕ) (a b : ℚ),
          cs[2 * j]? = some a ∧ cs[2 * j + 1]? = some b ∧ a - 1 < px ∧ px < b + 1) ∧
      ((∀ i < count, y < ys.getD i 0) ∨ (∀ i < count, ys.getD i 0 ≤ y) →
        ∀ px, (px, y) ∉ planeFillpolygon xs ys count)) ∧
    ∀ color canvas, Shows color canvas (planeFillpolygon xs ys count)
      (canvasFillpolygon canvas xs ys count color) := by
  refine ⟨?_, fun color canvas => shows_fillpolygon canvas xs ys count color⟩
  intro y
  obtain ⟨heven, hle⟩ := even_length_polygonHits xs ys count y
  obtain ⟨hperm, hsorted⟩ := sortInts_sorts (polygonHits xs ys count y)
  have hnear := polygonHits_near xs ys count y
  refine ⟨heven, hle.trans h16, ?_, ?_⟩
  · intro cs hcs hcsorted
    have hlength : cs.length = (sortInts (polygonHits xs ys count y)).length := by
      rw [hcs.length_eq, hperm.length_eq, hnear.length_eq]
    simp only [mem_planeFillpolygon h3 h16, mem_planePairs hsorted]
    constructor
    · intro j a b px ha hb hapx hpxb
      obtain ⟨hla, -⟩ := List.getElem?_eq_some_iff.mp ha
      obtain ⟨hlb, -⟩ := List.getElem?_eq_some_iff.mp hb
      have hs := List.getElem?_eq_getElem (hlength ▸ hla)
      have ht := List.getElem?_eq_getElem (hlength ▸ hlb)
      refine ⟨j, _, _, hs, ht, ?_, ?_⟩
      · exact (sortInts_near hnear hcs hcsorted hs ha).2.trans (Int.ceil_le.mpr hapx.le)
      · exact (Int.le_floor.mpr hpxb.le).trans (sortInts_near hnear hcs hcsorted ht hb).1
    · rintro px ⟨j, s, t, hs, ht, hlow, hhigh⟩
      obtain ⟨hls, -⟩ := List.getElem?_eq_some_iff.mp hs
      obtain ⟨hlt, -⟩ := List.getElem?_eq_some_iff.mp ht
      have ha := List.getElem?_eq_getElem (hlength.symm ▸ hls)
      have hb := List.getElem?_eq_getElem (hlength.symm ▸ hlt)
      refine ⟨j, _, _, ha, hb, ?_, ?_⟩
      · have hfloor := (sortInts_near hnear hcs hcsorted hs ha).1.trans hlow
        have hbelow := Int.floor_le_iff.mp hfloor
        linarith
      · have hceil := hhigh.trans (sortInts_near hnear hcs hcsorted ht hb).2
        have habove := Int.le_ceil_iff.mp hceil
        linarith
  · intro houtside px hp
    rw [mem_planeFillpolygon h3 h16, mem_planePairs hsorted] at hp
    obtain ⟨j, a, b, -, hb, -⟩ := hp
    obtain ⟨hlt, -⟩ := List.getElem?_eq_some_iff.mp hb
    rw [hperm.length_eq] at hlt
    obtain ⟨i, hi, hcross⟩ := exists_crosses (show 0 < (polygonHits xs ys count y).length by omega)
    have hnext := Nat.mod_lt (i + 1) (show count > 0 by omega)
    unfold Crosses at hcross
    rcases houtside with habove | hbelow
    · have h₀ := habove i hi
      have h₁ := habove _ hnext
      omega
    · have h₀ := hbelow i hi
      have h₁ := hbelow _ hnext
      omega

/-- A polygon that crosses itself. The pixel lies between its first two crossings. -/
theorem fillpolygon_is_exact_bowtie : crossings [0, 10, 10, 0] [0, 10, 0, 10] 4 2 = [2, 10, 8, 0] ∧
      (1, 2) ∈ planeFillpolygon [0, 10, 10, 0] [0, 10, 0, 10] 4 := by
  have hcs : crossings [0, 10, 10, 0] [0, 10, 0, 10] 4 2 = [2, 10, 8, 0] := by decide +kernel
  obtain ⟨hrows, -⟩ := fillpolygon_is_exact [0, 10, 10, 0] [0, 10, 0, 10] (show 3 ≤ 4 by decide)
    (by decide)
  obtain ⟨-, -, hfill, -⟩ := hrows 2
  have hpairs := hfill [0, 2, 8, 10] (by rw [hcs]; decide +kernel) (by decide +kernel)
  exact ⟨hcs, hpairs.1 0 0 2 1 rfl rfl (by norm_num) (by norm_num)⟩

end Xv6Draw
