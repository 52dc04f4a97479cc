import Xv6Draw.CString
import Xv6Draw.Draw.Canvas
import Xv6Draw.Lib.Lines
import Xv6Draw.Lib.PyText

/-!
# The command parser of aidraw

`parse_line` reads one line of a reply and calls the drawing function that it
names. Here it returns the call, and `Call.run` makes it, so that the calls of a
whole reply can be compared with what the reply is meant to draw. Integers are
32-bit: a result out of range wraps.
-/

namespace Xv6Draw

open Decimal Lines List PyText

/-- A call of a drawing function, with the integers that the parser passes. -/
inductive Call where
  | clear (color : ℤ)
  | pixel (x y color : ℤ)
  | line (x1 y1 x2 y2 color : ℤ)
  | rect (x y w h color : ℤ)
  | fillrect (x y w h color : ℤ)
  | circle (x y radius color : ℤ)
  | fillcircle (x y radius color : ℤ)
  | triangle (x1 y1 x2 y2 x3 y3 color : ℤ)
  | filltriangle (x1 y1 x2 y2 x3 y3 color : ℤ)
  | ellipse (x y rx ry color : ℤ)
  | fillellipse (x y rx ry color : ℤ)
  | polygon (xs ys : List ℤ) (color : ℤ)
  | fillpolygon (xs ys : List ℤ) (color : ℤ)
  deriving DecidableEq

/-- The colour argument of a call. -/
def Call.color : Call → ℤ
  | .clear color => color
  | .pixel _ _ color => color
  | .line _ _ _ _ color => color
  | .rect _ _ _ _ color => color
  | .fillrect _ _ _ _ color => color
  | .circle _ _ _ color => color
  | .fillcircle _ _ _ color => color
  | .triangle _ _ _ _ _ _ color => color
  | .filltriangle _ _ _ _ _ _ color => color
  | .ellipse _ _ _ _ color => color
  | .fillellipse _ _ _ _ color => color
  | .polygon _ _ color => color
  | .fillpolygon _ _ color => color

/-- The conversion of an `int` to the `unsigned char` of a colour. -/
def uchar (color : ℤ) : ℕ := (color % 256).toNat

/-- A call of a drawing function. -/
def Call.run (canvas : Canvas) : Call → Option Canvas
  | .clear color => some (canvasClear canvas (uchar color))
  | .pixel x y color => some (canvasPixel canvas x y (uchar color))
  | .line x1 y1 x2 y2 color => canvasLine canvas x1 y1 x2 y2 (uchar color)
  | .rect x y w h color => canvasRect canvas x y w h (uchar color)
  | .fillrect x y w h color => some (canvasFillrect canvas x y w h (uchar color))
  | .circle x y radius color => canvasCircle canvas x y radius (uchar color)
  | .fillcircle x y radius color => canvasFillcircle canvas x y radius (uchar color)
  | .triangle x1 y1 x2 y2 x3 y3 color => canvasTriangle canvas x1 y1 x2 y2 x3 y3 (uchar color)
  | .filltriangle x1 y1 x2 y2 x3 y3 color =>
    canvasFilltriangle canvas x1 y1 x2 y2 x3 y3 (uchar color)
  | .ellipse x y rx ry color => canvasEllipse canvas x y rx ry (uchar color)
  | .fillellipse x y rx ry color => canvasFillellipse canvas x y rx ry (uchar color)
  | .polygon xs ys color => canvasPolygon canvas xs ys xs.length (uchar color)
  | .fillpolygon xs ys color => some (canvasFillpolygon canvas xs ys xs.length (uchar color))

/-- A space or a tab. -/
def isBlank (c : ℕ) : Bool := c == 32 || c == 9

/-- `skip_spaces`. -/
def skipSpaces (cursor : List ℕ) : List ℕ := cursor.dropWhile isBlank

/-- `line_done`. -/
def lineDone (cursor : List ℕ) : Bool := (skipSpaces cursor).isEmpty

/-- `match_command`: the cursor behind the name. -/
def matchCommand (cursor name : List ℕ) : Option (List ℕ) :=
  if strncmp cursor name name.length ≠ 0 then none
  else if (cursor.drop name.length).headD 0 ≠ 0 ∧ !isBlank ((cursor.drop name.length).headD 0) then
    none
  else some (cursor.drop name.length)

/-- The value of a 32-bit `int` after a computation. -/
def wrap32 (z : ℤ) : ℤ := Int.bmod z (2 ^ 32)

/-- The digit loop of `parse_int`: the result, whether a digit was seen, and the
cursor. -/
def digitLoop (result : ℤ) (sawDigit : Bool) : List ℕ → ℤ × Bool × List ℕ
  | [] => (result, sawDigit, [])
  | c :: cs =>
    if IsDigit c then digitLoop (wrap32 (result * 10 + (c - 48))) true cs
    else (result, sawDigit, c :: cs)

/-- `parse_int` behind the optional sign. -/
def parseDigits (sign : ℤ) (cursor : List ℕ) : Option (ℤ × List ℕ) :=
  match digitLoop 0 false cursor with
  | (_, false, _) => none
  | (result, true, cursor) => some (wrap32 (sign * result), cursor)

/-- `parse_int`. -/
def parseInt (cursor : List ℕ) : Option (ℤ × List ℕ) :=
  match skipSpaces cursor with
  | 45 :: cs => parseDigits (-1) cs
  | cs => parseDigits 1 cs

/-- A number of calls of `parse_int`, one after the other. -/
def parseInts : ℕ → List ℕ → Option (List ℤ × List ℕ)
  | 0, cursor => some ([], cursor)
  | n + 1, cursor => do
    let (a, cursor) ← parseInt cursor
    let (as, cursor) ← parseInts n cursor
    some (a :: as, cursor)

/-- The arguments of a command with a fixed number of them. -/
def parseArgs (n : ℕ) (cursor : List ℕ) : Option (List ℤ) := do
  let (args, cursor) ← parseInts n cursor
  if lineDone cursor then some args else none

/-- The point loop of `parse_polygon`. -/
def parsePoints : ℕ → List ℕ → Option (List ℤ × List ℤ × List ℕ)
  | 0, cursor => some ([], [], cursor)
  | n + 1, cursor => do
    let (x, cursor) ← parseInt cursor
    let (y, cursor) ← parseInt cursor
    let (xs, ys, cursor) ← parsePoints n cursor
    some (x :: xs, y :: ys, cursor)

/-- `parse_polygon`, around the function that it calls. -/
def parsePolygon (call : List ℤ → List ℤ → ℤ → Call) (cursor : List ℕ) : Option Call := do
  let (count, cursor) ← parseInt cursor
  if count < 3 ∨ polygonMaxPoints < count then none
  else do
    let (xs, ys, cursor) ← parsePoints count.toNat cursor
    let (color, cursor) ← parseInt cursor
    if lineDone cursor then some (call xs ys color) else none

/-- The commands in the order in which `parse_line` tries them, with what it does
behind the name. -/
def parseTable : List (List ℕ × (List ℕ → Option Call)) :=
  [(str "CLEAR", fun cursor => (parseArgs 1 cursor).bind fun
      | [a] => some (.clear a)
      | _ => none),
    (str "PIXEL", fun cursor => (parseArgs 3 cursor).bind fun
      | [a, b, c] => some (.pixel a b c)
      | _ => none),
    (str "LINE", fun cursor => (parseArgs 5 cursor).bind fun
      | [a, b, c, d, e] => some (.line a b c d e)
      | _ => none),
    (str "RECT", fun cursor => (parseArgs 5 cursor).bind fun
      | [a, b, c, d, e] => some (.rect a b c d e)
      | _ => none),
    (str "FILLRECT", fun cursor => (parseArgs 5 cursor).bind fun
      | [a, b, c, d, e] => some (.fillrect a b c d e)
      | _ => none),
    (str "CIRCLE", fun cursor => (parseArgs 4 cursor).bind fun
      | [a, b, c, d] => some (.circle a b c d)
      | _ => none),
    (str "FILLCIRCLE", fun cursor => (parseArgs 4 cursor).bind fun
      | [a, b, c, d] => some (.fillcircle a b c d)
      | _ => none),
    (str "TRIANGLE", fun cursor => (parseArgs 7 cursor).bind fun
      | [a, b, c, d, e, f, g] => some (.triangle a b c d e f g)
      | _ => none),
    (str "FILLTRIANGLE", fun cursor => (parseArgs 7 cursor).bind fun
      | [a, b, c, d, e, f, g] => some (.filltriangle a b c d e f g)
      | _ => none),
    (str "ELLIPSE", fun cursor => (parseArgs 5 cursor).bind fun
      | [a, b, c, d, e] => some (.ellipse a b c d e)
      | _ => none),
    (str "FILLELLIPSE", fun cursor => (parseArgs 5 cursor).bind fun
      | [a, b, c, d, e] => some (.fillellipse a b c d e)
      | _ => none),
    (str "POLYGON", parsePolygon .polygon),
    (str "FILLPOLYGON", parsePolygon .fillpolygon)]

/-- The first command of a table that the cursor names, and what follows from it. -/
def parseCommand : List (List ℕ × (List ℕ → Option Call)) → List ℕ → Option Call
  | [], _ => none
  | (name, parse) :: table, cursor =>
    match matchCommand cursor name with
    | some cursor => parse cursor
    | none => parseCommand table cursor

/-- `parse_line`: the call that the line makes, if any, and `saw_end`; `none` is a
rejected line. -/
def parseLine (line : List ℕ) : Option (Option Call × Bool) :=
  let cursor := skipSpaces line
  if cursor = [] then some (none, false)
  else match matchCommand cursor (str "END") with
    | some cursor => if lineDone cursor then some (none, true) else none
    | none => (parseCommand parseTable cursor).map fun call => (some call, false)

/-- How the parse loop of `main` ends: at a line `END`, at a rejected line, or at
the end of the response. -/
inductive ParseEnd where
  | sawEnd
  | invalid (line : List ℕ)
  | missingEnd
  deriving DecidableEq

/-- The parse loop of `main` over the lines of the response: the calls that it
makes, in order, and how it ends. -/
def parseLoop : List (List ℕ) → List Call × ParseEnd
  | [] => ([], .missingEnd)
  | line :: lines =>
    match parseLine line with
    | none => ([], .invalid line)
    | some (call, true) => (call.toList, .sawEnd)
    | some (call, false) => (call.toList ++ (parseLoop lines).1, (parseLoop lines).2)

/-- The lines that the loop cuts a response into. -/
def responseLines (response : List ℕ) : List (List ℕ) :=
  (lines 10 response).1 ++ if (lines 10 response).2 = [] then [] else [(lines 10 response).2]

/-- The parse loop of `main` on the C string in the response buffer. -/
def parseResponse (response : List ℕ) : List Call × ParseEnd :=
  parseLoop (responseLines (untilNul response))

/-- The canvas after a sequence of calls. -/
def runCalls (canvas : Canvas) (calls : List Call) : Option Canvas := calls.foldlM Call.run canvas

/-- Every call ends and paints with its colour. -/
theorem Call.paints (canvas : Canvas) (call : Call) :
    ∃ canvas', call.run canvas = some canvas' ∧ Paints (uchar call.color) canvas canvas' := by
  cases call with
  | clear color => exact ⟨_, rfl, paints_clear _ _⟩
  | pixel x y color => exact ⟨_, rfl, paints_pixel _ _ _ _⟩
  | line x1 y1 x2 y2 color => exact paints_line _ _ _ _ _ _
  | rect x y w h color => exact paints_rect _ _ _ _ _ _
  | fillrect x y w h color => exact ⟨_, rfl, paints_fillrect _ _ _ _ _ _⟩
  | circle x y radius color => exact paints_circle _ _ _ _ _
  | fillcircle x y radius color => exact paints_fillcircle _ _ _ _ _
  | triangle x1 y1 x2 y2 x3 y3 color => exact paints_triangle _ _ _ _ _ _ _ _
  | filltriangle x1 y1 x2 y2 x3 y3 color => exact paints_filltriangle _ _ _ _ _ _ _ _
  | ellipse x y rx ry color => exact paints_ellipse _ _ _ _ _ _
  | fillellipse x y rx ry color => exact paints_fillellipse _ _ _ _ _ _
  | polygon xs ys color => exact paints_polygon _ _ _ _ _
  | fillpolygon xs ys color => exact ⟨_, rfl, paints_fillpolygon _ _ _ _ _⟩

/-- Rendering calls with valid colours on a canvas of valid colours ends, and
leaves a canvas of valid colours. -/
theorem runCalls_colors {canvas : Canvas} {calls : List Call}
    (hcanvas : ∀ i, 0 ≤ i → i < canvasSize → canvas i < 16)
    (hcalls : ∀ call ∈ calls, 0 ≤ call.color ∧ call.color ≤ 15) :
    ∃ canvas', runCalls canvas calls = some canvas' ∧
      ∀ i, 0 ≤ i → i < canvasSize → canvas' i < 16 := by
  refine Loop.foldlM_rule (I := fun c : Canvas => ∀ i, 0 ≤ i → i < canvasSize → c i < 16) ?_ hcanvas
  intro c call hcall hc
  obtain ⟨c', hrun, hpaints⟩ := call.paints c
  refine ⟨c', hrun, ?_⟩
  intro i hlow hhigh
  rcases hpaints i with hsame | ⟨hcolor, -⟩
  · rw [hsame]
    exact hc i hlow hhigh
  · have hrange := hcalls call hcall
    rw [hcolor, uchar]
    omega

theorem wrap32_eq_self {z : ℤ} (hlow : -2 ^ 31 ≤ z) (hhigh : z < 2 ^ 31) : wrap32 z = z := by
  unfold wrap32
  rw [Int.bmod_def]
  omega

theorem wrap32_step (r d : ℤ) : wrap32 (wrap32 r * 10 + d) = wrap32 (r * 10 + d) := by
  unfold wrap32
  simp only [Int.bmod_def]
  omega

variable {rest : List ℕ}

/-- The digit loop over a run of digits that something else ends. -/
theorem digitLoop_digits {cs : List ℕ} (hcs : ∀ c ∈ cs, IsDigit c)
    (hrest : ∀ c ∈ rest.head?, ¬ IsDigit c) (n : ℕ) (saw : Bool) :
    digitLoop (wrap32 n) saw (cs ++ rest) =
      (wrap32 (cs.foldl (fun acc c => acc * 10 + (c - 48)) n : ℕ), saw || !cs.isEmpty, rest) := by
  induction cs generalizing n saw with
  | nil =>
    cases rest with
    | nil => simp [digitLoop]
    | cons c rest =>
      have hc : ¬ IsDigit c := hrest c (by simp)
      simp [digitLoop, hc]
  | cons c cs ih =>
    have hc : IsDigit c := hcs c (by simp)
    have hcast : ((c : ℤ) - 48) = ((c - 48 : ℕ) : ℤ) := by
      have hlow := hc.1
      omega
    have hnext : wrap32 (wrap32 n * 10 + ((c : ℤ) - 48)) = wrap32 ((n * 10 + (c - 48) : ℕ) : ℤ) := by
      rw [wrap32_step, hcast]
      push_cast
      rfl
    rw [cons_append, digitLoop, if_pos hc, hnext,
      ih (fun d hd => hcs d (by simp [hd])) (n * 10 + (c - 48)) true]
    simp

/-- `parse_int` behind the sign, on a run of digits that something else ends. -/
theorem parseDigits_digits {ds : List ℕ} (hds : ∀ c ∈ ds, IsDigit c)
    (hrest : ∀ c ∈ rest.head?, ¬ IsDigit c) (sign : ℤ) :
    parseDigits sign (ds ++ rest) = if ds = [] then none else some (wrap32 (sign * value ds), rest) := by
  have hwrap : wrap32 (sign * wrap32 (value ds)) = wrap32 (sign * value ds) := Int.mul_bmod_bmod
  have hloop : digitLoop 0 false (ds ++ rest) = (wrap32 (value ds), false || !ds.isEmpty, rest) :=
    digitLoop_digits hds hrest 0 false
  rw [parseDigits, hloop]
  cases ds with
  | nil => rfl
  | cons d ds => simp [hwrap]

/-- `parse_int` behind the sign, on the digits of a small number. -/
theorem parseDigits_small {ds : List ℕ} (hds : ∀ c ∈ ds, IsDigit c)
    (hrest : ∀ c ∈ rest.head?, ¬ IsDigit c) (hsmall : value ds < 2 ^ 31) {sign : ℤ}
    (hsign : sign = 1 ∨ sign = -1) :
    parseDigits sign (ds ++ rest) = if ds = [] then none else some (sign * value ds, rest) := by
  rw [parseDigits_digits hds hrest, wrap32_eq_self]
  · rcases hsign with rfl | rfl <;> omega
  · rcases hsign with rfl | rfl <;> omega

/-- `parse_int` behind the sign, on the notation of a number. -/
theorem parseDigits_decimal {n : ℕ} (hn : n < 2 ^ 31)
    (hrest : ∀ c ∈ rest.head?, ¬ IsDigit c) {sign : ℤ} (hsign : sign = 1 ∨ sign = -1) :
    parseDigits sign (decimal n ++ rest) = some (sign * n, rest) := by
  have hvalue := value_decimal n
  rw [parseDigits_small (fun _ => isDigit_of_mem_decimal) hrest (by omega) hsign, if_neg (decimal_ne_nil n),
    hvalue]

/-- `parse_int` reads an integer behind a space, up to the next space or the end
of the line. -/
theorem parseInt_ofInt {v : ℤ} (hv : v.natAbs < 2 ^ 31)
    (hrest : ∀ c ∈ rest.head?, c = 32) : parseInt (32 :: (ofInt v ++ rest)) = some (v, rest) := by
  have hstop : ∀ c ∈ rest.head?, ¬ IsDigit c := by
    intro c hc
    rw [hrest c hc]
    decide
  have hskip : skipSpaces (32 :: (ofInt v ++ rest)) = ofInt v ++ rest := by
    obtain ⟨c, cs, hcs⟩ := exists_cons_of_ne_nil (isWord_ofInt v).1
    have hc : isBlank c = false := by
      have hmem := of_mem_ofInt (z := v) (c := c) (by simp [hcs])
      unfold IsDigit at hmem
      simp only [isBlank, Bool.or_eq_false_iff, beq_eq_false_iff_ne]
      omega
    rw [skipSpaces, dropWhile_cons_of_pos (by rfl), hcs, cons_append,
      dropWhile_cons_of_neg (by simp [hc])]
  rw [parseInt, hskip]
  by_cases hneg : v < 0
  · rw [ofInt, if_pos hneg, cons_append]
    simp only [parseDigits_decimal hv hstop (.inr rfl), Option.some.injEq, Prod.mk.injEq, and_true]
    omega
  · rw [ofInt, if_neg hneg]
    have hread := parseDigits_decimal hv hstop (.inl rfl)
    obtain ⟨c, cs, hcs⟩ := exists_cons_of_ne_nil (decimal_ne_nil v.natAbs)
    have hc : IsDigit c := isDigit_of_mem_decimal (n := v.natAbs) (by simp [hcs])
    rw [hcs, cons_append] at hread ⊢
    split
    · next heq =>
      have hminus := (List.cons.inj heq).1
      unfold IsDigit at hc
      omega
    · rw [hread]
      simp only [Option.some.injEq, Prod.mk.injEq, and_true]
      omega

/-- The arguments of a command as they stand on a line. -/
def argText (values : List ℤ) : List ℕ := values.flatMap fun v => 32 :: ofInt v

/-- What stands behind arguments starts with a space, if at all. -/
theorem head_argText_append (values : List ℤ) (hrest : ∀ c ∈ rest.head?, c = 32) :
    ∀ c ∈ (argText values ++ rest).head?, c = 32 := by
  cases values with
  | nil => exact hrest
  | cons v vs =>
    intro c hc
    simpa [argText, eq_comm] using hc

variable {values xs ys : List ℤ}

theorem parseInts_argText (hvalues : ∀ v ∈ values, v.natAbs < 2 ^ 31)
    (hrest : ∀ c ∈ rest.head?, c = 32) :
    parseInts values.length (argText values ++ rest) = some (values, rest) := by
  induction values with
  | nil => rfl
  | cons v vs ih =>
    have htext : argText (v :: vs) ++ rest = 32 :: (ofInt v ++ (argText vs ++ rest)) := by
      simp [argText]
    rw [htext, length_cons, parseInts,
      parseInt_ofInt (hvalues v (by simp)) (head_argText_append vs hrest)]
    simp [ih (fun w hw => hvalues w (by simp [hw]))]

/-- The arguments of a fixed number, to the end of the line. -/
theorem parseArgs_argText {n : ℕ} (hlen : values.length = n)
    (hvalues : ∀ v ∈ values, v.natAbs < 2 ^ 31) : parseArgs n (argText values) = some values := by
  have hints : parseInts values.length (argText values ++ []) = some (values, []) :=
    parseInts_argText hvalues (by simp)
  rw [append_nil, hlen] at hints
  rw [parseArgs, hints]
  rfl

/-- The coordinates of points, one after the other. -/
def pointCoords : List ℤ → List ℤ → List ℤ
  | x :: xs, y :: ys => x :: y :: pointCoords xs ys
  | _, _ => []

/-- The point loop reads the points. -/
theorem parsePoints_argText (hlen : xs.length = ys.length)
    (hvalues : ∀ v ∈ pointCoords xs ys, v.natAbs < 2 ^ 31) (hrest : ∀ c ∈ rest.head?, c = 32) :
    parsePoints xs.length (argText (pointCoords xs ys) ++ rest) = some (xs, ys, rest) := by
  induction xs generalizing ys with
  | nil =>
    obtain rfl : ys = [] := eq_nil_of_length_eq_zero hlen.symm
    rfl
  | cons x xs ih =>
    cases ys with
    | nil => simp at hlen
    | cons y ys =>
      have htext : argText (pointCoords (x :: xs) (y :: ys)) ++ rest =
          32 :: (ofInt x ++ 32 :: (ofInt y ++ (argText (pointCoords xs ys) ++ rest))) := by
        simp [argText, pointCoords]
      have hx := hvalues x (by simp [pointCoords])
      have hy := hvalues y (by simp [pointCoords])
      have hspace : ∀ c ∈ (32 :: (ofInt y ++ (argText (pointCoords xs ys) ++ rest))).head?,
          c = 32 := by simp
      have hfirst := parseInt_ofInt hx hspace
      have hsecond := parseInt_ofInt hy (head_argText_append (pointCoords xs ys) hrest)
      have hpoints := ih (by simpa using hlen) (fun v hv => hvalues v (by simp [pointCoords, hv]))
      rw [htext, length_cons, parsePoints, hfirst]
      simp [hsecond, hpoints]

/-- A polygon line behind its name. -/
theorem parsePolygon_argText {color : ℤ} (call : List ℤ → List ℤ → ℤ → Call)
    (hlen : xs.length = ys.length) (hcount : 3 ≤ xs.length ∧ xs.length ≤ 16)
    (hvalues : ∀ v ∈ pointCoords xs ys, v.natAbs < 2 ^ 31) (hcolor : color.natAbs < 2 ^ 31) :
    parsePolygon call (argText (xs.length :: (pointCoords xs ys ++ [color]))) =
      some (call xs ys color) := by
  have htext : argText (xs.length :: (pointCoords xs ys ++ [color])) =
      32 :: (ofInt xs.length ++ (argText (pointCoords xs ys) ++ (32 :: (ofInt color ++ [])))) := by
    simp [argText]
  have hrest : ∀ c ∈ (32 :: (ofInt color ++ []) : List ℕ).head?, c = 32 := by simp
  have hfirst := parseInt_ofInt (v := (xs.length : ℤ)) (by omega)
    (head_argText_append (pointCoords xs ys) hrest)
  have hpoints := parsePoints_argText hlen hvalues hrest
  have hlast : parseInt (32 :: (ofInt color ++ [])) = some (color, []) :=
    parseInt_ofInt hcolor (by simp)
  have hrange : ¬ ((xs.length : ℤ) < 3 ∨ (polygonMaxPoints : ℤ) < xs.length) := by
    unfold polygonMaxPoints
    omega
  rw [htext, parsePolygon, hfirst]
  simp only [Option.bind_eq_bind, Option.bind_some, if_neg hrange, Int.toNat_natCast, hpoints, hlast]
  rfl

end Xv6Draw
