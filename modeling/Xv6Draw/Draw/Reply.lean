import Xv6Draw.Agent.Validate
import Xv6Draw.Draw.Parser

/-!
# Validated replies in the parser

Two programs read the drawing language: the validation of the agent, which is
Python, and the parser of `aidraw`, which is C. Here the second one reads what the
first one writes. Every instruction denotes a drawing call, its line makes exactly
that call, and the parse loop over a validated reply makes the calls of its
instructions and stops at `END`.
-/

namespace Xv6Draw

open Decimal Lines List PyText

/-- The first coordinates of listed points. -/
def abscissas : List ℤ → List ℤ
  | x :: _ :: vs => x :: abscissas vs
  | _ => []

/-- The second coordinates of listed points. -/
def ordinates : List ℤ → List ℤ
  | _ :: y :: vs => y :: ordinates vs
  | _ => []

/-- The drawing call that a command with its arguments stands for. -/
def denote : Command → List ℤ → Option Call
  | .clear, [color] => some (.clear color)
  | .pixel, [x, y, color] => some (.pixel x y color)
  | .line, [x1, y1, x2, y2, color] => some (.line x1 y1 x2 y2 color)
  | .rect, [x, y, w, h, color] => some (.rect x y w h color)
  | .fillrect, [x, y, w, h, color] => some (.fillrect x y w h color)
  | .circle, [x, y, radius, color] => some (.circle x y radius color)
  | .fillcircle, [x, y, radius, color] => some (.fillcircle x y radius color)
  | .triangle, [x1, y1, x2, y2, x3, y3, color] => some (.triangle x1 y1 x2 y2 x3 y3 color)
  | .filltriangle, [x1, y1, x2, y2, x3, y3, color] => some (.filltriangle x1 y1 x2 y2 x3 y3 color)
  | .ellipse, [x, y, rx, ry, color] => some (.ellipse x y rx ry color)
  | .fillellipse, [x, y, rx, ry, color] => some (.fillellipse x y rx ry color)
  | .polygon, _ :: vs =>
    some (.polygon (abscissas vs.dropLast) (ordinates vs.dropLast) (vs.getLastD 0))
  | .fillpolygon, _ :: vs =>
    some (.fillpolygon (abscissas vs.dropLast) (ordinates vs.dropLast) (vs.getLastD 0))
  | _, _ => none

/-- The calls of a drawing. -/
def drawingCalls (instrs : List Instr) : List Call :=
  instrs.filterMap fun i => denote i.command i.values

/-- Points are found again among their coordinates. -/
theorem pointCoords_points {n : ℕ} (vs : List ℤ) (hlen : vs.length = 2 * n) :
    pointCoords (abscissas vs) (ordinates vs) = vs ∧ (abscissas vs).length = n ∧
      (ordinates vs).length = n := by
  induction n generalizing vs with
  | zero =>
    obtain rfl : vs = [] := eq_nil_of_length_eq_zero (by omega)
    exact ⟨rfl, rfl, rfl⟩
  | succ n ih =>
    match vs with
    | [] => simp at hlen
    | [x] =>
      simp only [length_cons, length_nil] at hlen
      omega
    | x :: y :: vs =>
      have hrest : vs.length = 2 * n := by
        simp only [length_cons] at hlen
        omega
      obtain ⟨hcoords, hxs, hys⟩ := ih vs hrest
      simp [abscissas, ordinates, pointCoords, hcoords, hxs, hys]

variable {name rest : List ℕ}

theorem matchCommand_name (hname : 0 ∉ name) (hrest : ∀ c ∈ rest.head?, c = 32) :
    matchCommand (name ++ rest) name = some rest := by
  have hmatch : strncmp (name ++ rest) name name.length = 0 :=
    (strncmp_eq_zero_iff hname).mpr (prefix_append _ _)
  have hnext : ¬ (rest.headD 0 ≠ 0 ∧ (!isBlank (rest.headD 0)) = true) := by
    cases rest with
    | nil => simp
    | cons c rest =>
      have hc : c = 32 := hrest c (by simp)
      simp [hc, isBlank]
  rw [matchCommand, if_neg (not_not.mpr hmatch), drop_left, if_neg hnext]

/-- `match_command` on another name, neither of the two starting the other. -/
theorem matchCommand_other {other : List ℕ} (hother : 0 ∉ other)
    (hpre : ¬ other <+: name ∧ ¬ name <+: other) : matchCommand (name ++ rest) other = none := by
  have hmatch : strncmp (name ++ rest) other other.length ≠ 0 := by
    rw [ne_eq, strncmp_eq_zero_iff hother]
    intro hcursor
    rcases prefix_or_prefix_of_prefix hcursor (prefix_append name rest) with h | h
    · exact hpre.1 h
    · exact hpre.2 h
  rw [matchCommand, if_pos hmatch]

theorem names_pairwise : (str "END" :: parseTable.map Prod.fst).Pairwise
    (fun a b => ¬ a <+: b ∧ ¬ b <+: a) := by
  decide

theorem names_ok : ∀ name ∈ str "END" :: parseTable.map Prod.fst,
    0 ∉ name ∧ skipSpaces name = name ∧ name ≠ [] := by
  decide

/-- The search through the table finds a name at its place. -/
theorem parseCommand_name {table post : List (List ℕ × (List ℕ → Option Call))}
    {parse : List ℕ → Option Call} (hname : 0 ∉ name) (hrest : ∀ c ∈ rest.head?, c = 32)
    (htable : ∀ entry ∈ table, 0 ∉ entry.1 ∧ ¬ entry.1 <+: name ∧ ¬ name <+: entry.1) :
    parseCommand (table ++ (name, parse) :: post) (name ++ rest) = parse rest := by
  induction table with
  | nil => simp [parseCommand, matchCommand_name hname hrest]
  | cons entry table ih =>
    obtain ⟨hnul, hpre⟩ := htable entry (by simp)
    rw [cons_append, parseCommand, matchCommand_other hnul hpre]
    exact ih fun e he => htable e (by simp [he])

/-- `parse_line` on a line that starts with a name of the table. -/
theorem parseLine_name {k : ℕ} {parse : List ℕ → Option Call}
    (htable : parseTable = parseTable.take k ++ (name, parse) :: parseTable.drop (k + 1))
    (hrest : ∀ c ∈ rest.head?, c = 32) :
    parseLine (name ++ rest) = (parse rest).map fun call => (some call, false) := by
  have hpair := names_pairwise
  have hok := names_ok
  rw [htable, map_append, map_cons, ← cons_append, pairwise_append] at hpair
  obtain ⟨hnul, hskip, hne⟩ := hok name (by
    rw [htable]
    simp)
  have hcursor : skipSpaces (name ++ rest) = name ++ rest := by
    cases name with
    | nil => exact absurd rfl hne
    | cons c name =>
      have hc : isBlank c = false := by
        by_contra hblank
        rw [skipSpaces, dropWhile_cons_of_pos (by simpa using hblank)] at hskip
        have hshort := (dropWhile_suffix isBlank (l := name)).length_le
        rw [hskip, length_cons] at hshort
        omega
      rw [skipSpaces, cons_append, dropWhile_cons_of_neg (by simp [hc])]
  have hend : matchCommand (name ++ rest) (str "END") = none :=
    matchCommand_other (by decide) (hpair.2.2 _ (by simp) _ (by simp))
  have hcommand : parseCommand parseTable (name ++ rest) = parse rest := by
    rw [htable]
    apply parseCommand_name hnul hrest
    intro entry hentry
    have hmem : entry.1 ∈ (parseTable.take k).map Prod.fst := mem_map_of_mem hentry
    refine ⟨(hok entry.1 ?_).1, hpair.2.2 _ (mem_cons_of_mem _ hmem) _ (by simp)⟩
    rw [htable, map_append]
    exact mem_cons_of_mem _ (mem_append_left _ hmem)
  rw [parseLine, hcursor]
  simp only [hend, hcommand]
  rw [if_neg (by simp [hne])]

theorem exists_map_range {values : List ℤ} {n : ℕ} (h : values.length = n) :
    ∃ g : ℕ → ℤ, values = (range n).map g := by
  refine ⟨fun k => values.getD k 0, ?_⟩
  apply ext_getElem
  · simp [h]
  · intro k hk _
    simp [hk]

theorem Instr.line_eq (i : Instr) : i.line = i.command.name ++ argText i.values := by
  rw [line, cleanLine, joinSpace_cons, argText, flatMap_map]

/-- A command with arguments is read by the parser as it is meant. -/
def ReadAsDenoted (command : Command) (values : List ℤ) : Prop :=
  ∃ call, denote command values = some call ∧
    parseLine (command.name ++ argText values) = some (some call, false) ∧
    call.color = command.color values

theorem head_argText (values : List ℤ) : ∀ c ∈ (argText values).head?, c = 32 := by
  have h := head_argText_append values (fun c (hc : c ∈ ([] : List ℕ).head?) => by simp at hc)
  rwa [append_nil] at h

/-- A command with a fixed number of arguments is read as it is meant. -/
theorem readAsDenoted_fixed {command : Command} {values : List ℤ} (k n : ℕ) (f : List ℤ → Option Call)
    (htable : parseTable = parseTable.take k ++
      (command.name, fun cursor => (parseArgs n cursor).bind f) :: parseTable.drop (k + 1))
    (hlen : values.length = n) (hsmall : ∀ v ∈ values, v.natAbs < 2 ^ 31)
    (hcall : ∀ g : ℕ → ℤ, ∃ call, denote command ((range n).map g) = some call ∧
      f ((range n).map g) = some call ∧ call.color = command.color ((range n).map g)) :
    ReadAsDenoted command values := by
  have hargs := parseArgs_argText hlen hsmall
  have hspace := head_argText values
  obtain ⟨g, rfl⟩ := exists_map_range hlen
  obtain ⟨call, hdenote, hf, hcolor⟩ := hcall g
  refine ⟨call, hdenote, ?_, hcolor⟩
  rw [parseLine_name htable hspace, hargs, Option.bind_some, hf, Option.map_some]

/-- A polygon command is read as it is meant. -/
theorem readAsDenoted_polygon {command : Command} {count : ℤ} {vs : List ℤ} (k : ℕ)
    (f : List ℤ → List ℤ → ℤ → Call) (htable : parseTable =
      parseTable.take k ++ (command.name, parsePolygon f) :: parseTable.drop (k + 1))
    (hcount : 3 ≤ count ∧ count ≤ 16) (hlen : (vs.length : ℤ) = 1 + count * 2)
    (hsmall : ∀ v ∈ count :: vs, v.natAbs < 2 ^ 31) (hdenote : denote command (count :: vs) =
      some (f (abscissas vs.dropLast) (ordinates vs.dropLast) (vs.getLastD 0)))
    (hcall : ∀ xs ys color, (f xs ys color).color = color)
    (hcolor : command.color (count :: vs) = (count :: vs).getLastD 0) :
    ReadAsDenoted command (count :: vs) := by
  have hne : vs ≠ [] := by
    rintro rfl
    simp only [length_nil] at hlen
    omega
  have hlast : ∀ d, vs.getLastD d = vs.getLast hne := by
    intro d
    rw [getLastD_eq_getLast?, List.getLast?_eq_some_getLast hne, Option.getD_some]
  obtain ⟨hcoords, hxs, hys⟩ := pointCoords_points (n := count.toNat) vs.dropLast
    (by rw [length_dropLast]; omega)
  have hvalues : count :: vs = ((abscissas vs.dropLast).length : ℤ) ::
      (pointCoords (abscissas vs.dropLast) (ordinates vs.dropLast) ++ [vs.getLastD 0]) := by
    rw [hcoords, hxs, hlast, dropLast_append_getLast, Int.toNat_of_nonneg (by omega)]
  refine ⟨_, hdenote, ?_, ?_⟩
  · rw [parseLine_name htable (head_argText _), hvalues, parsePolygon_argText f (by omega) (by omega)]
    · rfl
    · intro v hv
      rw [hcoords] at hv
      exact hsmall v (mem_cons_of_mem _ (dropLast_subset vs hv))
    · rw [hlast]
      exact hsmall _ (mem_cons_of_mem _ (getLast_mem hne))
  · rw [hcall, hcolor, getLastD_cons, hlast, hlast]

/-- Every instruction is read as it is meant. -/
theorem Instr.readAsDenoted (i : Instr) : ReadAsDenoted i.command i.values := by
  have hsmall : ∀ v ∈ i.values, v.natAbs < 2 ^ 31 := by
    intro v hv
    have hbound := i.natAbs_le hv
    omega
  obtain ⟨command, values, hend, harity, _, _⟩ := i
  have hpolygon : command.arity = none → ∃ count vs, values = count :: vs ∧
      (3 ≤ count ∧ count ≤ 16) ∧ (vs.length : ℤ) = 1 + count * 2 := by
    intro hnone
    simp only [HasArity, hnone] at harity
    cases values with
    | nil => simp at harity
    | cons count vs =>
      simp only [headD_cons, length_cons] at harity
      exact ⟨count, vs, rfl, by omega, by omega⟩
  cases command with
  | clear => exact readAsDenoted_fixed 0 1 _ rfl harity hsmall fun g => ⟨_, rfl, rfl, rfl⟩
  | pixel => exact readAsDenoted_fixed 1 3 _ rfl harity hsmall fun g => ⟨_, rfl, rfl, rfl⟩
  | line => exact readAsDenoted_fixed 2 5 _ rfl harity hsmall fun g => ⟨_, rfl, rfl, rfl⟩
  | rect => exact readAsDenoted_fixed 3 5 _ rfl harity hsmall fun g => ⟨_, rfl, rfl, rfl⟩
  | fillrect => exact readAsDenoted_fixed 4 5 _ rfl harity hsmall fun g => ⟨_, rfl, rfl, rfl⟩
  | circle => exact readAsDenoted_fixed 5 4 _ rfl harity hsmall fun g => ⟨_, rfl, rfl, rfl⟩
  | fillcircle => exact readAsDenoted_fixed 6 4 _ rfl harity hsmall fun g => ⟨_, rfl, rfl, rfl⟩
  | triangle => exact readAsDenoted_fixed 7 7 _ rfl harity hsmall fun g => ⟨_, rfl, rfl, rfl⟩
  | filltriangle => exact readAsDenoted_fixed 8 7 _ rfl harity hsmall fun g => ⟨_, rfl, rfl, rfl⟩
  | ellipse => exact readAsDenoted_fixed 9 5 _ rfl harity hsmall fun g => ⟨_, rfl, rfl, rfl⟩
  | fillellipse => exact readAsDenoted_fixed 10 5 _ rfl harity hsmall fun g => ⟨_, rfl, rfl, rfl⟩
  | polygon =>
    obtain ⟨count, vs, rfl, hcount, hlen⟩ := hpolygon rfl
    exact readAsDenoted_polygon 11 .polygon rfl hcount hlen hsmall rfl (fun _ _ _ => rfl) rfl
  | fillpolygon =>
    obtain ⟨count, vs, rfl, hcount, hlen⟩ := hpolygon rfl
    exact readAsDenoted_polygon 12 .fillpolygon rfl hcount hlen hsmall rfl (fun _ _ _ => rfl) rfl
  | «end» => exact absurd rfl hend

theorem parseLoop_end (lines : List (List ℕ)) : parseLoop (str "END" :: lines) = ([], .sawEnd) := by
  have hend : parseLine (str "END") = some (none, true) := by decide
  rw [parseLoop, hend]
  rfl

/-- The parse loop over the lines of a drawing makes its calls and stops at
`END`, whatever stands behind it. -/
theorem parseLoop_drawing (instrs : List Instr) (lines : List (List ℕ)) :
    parseLoop (instrs.map Instr.line ++ str "END" :: lines) = (drawingCalls instrs, .sawEnd) := by
  induction instrs with
  | nil => exact parseLoop_end lines
  | cons i instrs ih =>
    obtain ⟨call, hdenote, hparse, -⟩ := i.readAsDenoted
    rw [← i.line_eq] at hparse
    rw [map_cons, cons_append, parseLoop, hparse]
    simp [ih, drawingCalls, hdenote]

/-- Joined lines are the lines before the last one, each with its newline, and the
last one. -/
theorem joinNewline_concat (ls : List (List ℕ)) (l : List ℕ) :
    joinNewline (ls ++ [l]) = unlines 10 ls ++ l := by
  induction ls with
  | nil => rfl
  | cons m ls ih =>
    rw [cons_append, joinNewline, ih, unlines_cons]
    · simp
    · simp

theorem Instr.of_mem_line {i : Instr} {k : ℕ} (hk : k ∈ i.line) :
    k ≠ 0 ∧ k ≠ 10 ∧ isLineBreak k = false := by
  have hchar := of_mem_cleanLine hk
  unfold IsDigit at hchar
  exact ⟨by omega, by omega, isLineBreak_of_visible (by omega) (by omega)⟩

/-- The parse loop of `main` on the text of a drawing, with or without a newline
at its end. -/
theorem parseResponse_drawingText (instrs : List Instr) {tail : List ℕ} (htail : tail = [] ∨ tail = [10]) :
    parseResponse (drawingText instrs ++ tail) = (drawingCalls instrs, .sawEnd) := by
  have hnul : 0 ∉ drawingText instrs ++ tail := by
    rw [mem_append, not_or]
    constructor
    · intro hmem
      rcases of_mem_joinNewline hmem with hzero | ⟨l, hl, hk⟩
      · simp at hzero
      · rw [mem_append, mem_singleton] at hl
        rcases hl with hline | rfl
        · obtain ⟨i, -, rfl⟩ := mem_map.mp hline
          exact (Instr.of_mem_line hk).1 rfl
        · revert hk
          decide
    · rcases htail with rfl | rfl <;> decide
  have hlines : ∀ l ∈ instrs.map Instr.line, 10 ∉ l := by
    intro l hl hmem
    obtain ⟨i, -, rfl⟩ := mem_map.mp hl
    exact (Instr.of_mem_line hmem).2.1 rfl
  have hcut : responseLines (drawingText instrs ++ tail) = instrs.map Instr.line ++ [str "END"] := by
    rw [responseLines, drawingText, joinNewline_concat, append_assoc, lines_unlines_append hlines]
    rcases htail with rfl | rfl
    · have hend : str "END" ≠ [] := by decide
      rw [show lines 10 (str "END" ++ []) = ([], str "END") by decide]
      simp [hend]
    · rw [show lines 10 (str "END" ++ [10]) = ([str "END"], []) by decide]
      simp
  rw [parseResponse, untilNul_of_not_mem hnul, hcut]
  exact parseLoop_drawing instrs []

theorem splitlines_drawingText (instrs : List Instr) :
    splitlines (drawingText instrs) = instrs.map Instr.line ++ [str "END"] := by
  apply splitlines_joinNewline
  intro l hl
  rw [mem_append, mem_singleton] at hl
  rcases hl with hline | rfl
  · obtain ⟨i, -, rfl⟩ := mem_map.mp hline
    exact ⟨cleanLine_ne_nil _ _, fun k hk => (Instr.of_mem_line hk).2.2⟩
  · decide

theorem Instr.line_ne_end (i : Instr) : i.line ≠ str "END" := by
  intro hline
  have hsplit : split i.line = i.command.name :: i.values.map ofInt := split_cleanLine _ _
  have hend : split (str "END") = [Command.«end».name] := split_cleanLine .«end» []
  rw [hline, hend] at hsplit
  have hname := congrArg Command.ofName (List.cons.inj hsplit).1
  rw [Command.ofName_name, Command.ofName_name, Option.some.injEq] at hname
  exact i.ne_end hname.symm

theorem drawingCalls_color {instrs : List Instr} {call : Call} (hcall : call ∈ drawingCalls instrs) :
    0 ≤ call.color ∧ call.color ≤ 15 := by
  obtain ⟨i, -, hdenote⟩ := mem_filterMap.mp hcall
  obtain ⟨call', hdenote', -, hcolor⟩ := i.readAsDenoted
  obtain rfl : call' = call := Option.some.inj (hdenote'.symm.trans hdenote)
  rw [hcolor]
  exact i.color

/-- What `validate_response` returns for any text ends with its only `END`, is its
own validation, and is drawn by `aidraw` to the end: the parse loop accepts every
line and stops at `END`, and rendering leaves a valid colour in every byte of the
canvas. -/
theorem validated_reply_is_drawn (u : Unicode) {text r : List ℕ} (h : validateResponse u text = .ok r) :
    (∃ ls, splitlines r = ls ++ [str "END"] ∧ str "END" ∉ ls) ∧ validateResponse u r = .ok r ∧
    ∃ calls, parseResponse r = (calls, .sawEnd) ∧ parseResponse (r ++ [10]) = (calls, .sawEnd) ∧
      ∀ canvas, ∃ canvas', runCalls (canvasClear canvas 0) calls = some canvas' ∧
        ∀ i, 0 ≤ i → i < canvasSize → canvas' i < 16 := by
  obtain ⟨instrs, rfl⟩ := exists_drawing_of_validateResponse h
  refine ⟨⟨instrs.map Instr.line, ?_, ?_⟩, validateResponse_drawingText u instrs,
    drawingCalls instrs, ?_, parseResponse_drawingText instrs (.inr rfl), ?_⟩
  · exact splitlines_drawingText instrs
  · intro hmem
    obtain ⟨i, -, hline⟩ := mem_map.mp hmem
    exact i.line_ne_end hline
  · have hparse := parseResponse_drawingText instrs (.inl rfl)
    rwa [append_nil] at hparse
  · intro canvas
    apply runCalls_colors
    · intro i hlow hhigh
      rw [canvasClear, if_pos ⟨hlow, hhigh⟩]
      decide
    · exact fun call hcall => drawingCalls_color hcall

/-- A reply with a fence, a list mark and another number syntax is one that is
validated and drawn. -/
theorem chatty_reply_is_drawn :
    validateResponse Unicode.ascii (str "```\n- clear +0_9; line: (1,2,3,4,15)") =
        .ok (str "CLEAR 9\nLINE 1 2 3 4 15\nEND") ∧
      validateResponse Unicode.ascii (str "CLEAR 9\nLINE 1 2 3 4 15\nEND") =
        .ok (str "CLEAR 9\nLINE 1 2 3 4 15\nEND") := by
  have h : validateResponse Unicode.ascii (str "```\n- clear +0_9; line: (1,2,3,4,15)") =
      .ok (str "CLEAR 9\nLINE 1 2 3 4 15\nEND") := by decide +kernel
  exact ⟨h, (validated_reply_is_drawn Unicode.ascii h).2.1⟩

end Xv6Draw
