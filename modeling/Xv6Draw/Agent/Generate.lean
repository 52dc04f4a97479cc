import Xv6Draw.Agent.Overflow

/-!
# Generating a response

`generate_response` of `agent.py` asks one model after the other for a drawing, lets
a model repair what does not validate, and falls back to a template. It catches
every `ValueError` on the way. So it returns a drawing, unless one of the replies
that it looks at makes the JSON validation raise something else.
-/

namespace Xv6Draw

open Fallible List PyText

/-- What the agent uses of the interpreter besides. -/
structure Interpreter extends Runtime where
  /-- `str.lower()`. -/
  lower : List ℕ → List ℕ
  /-- `str` of an exception. -/
  errorText : PyError → List ℕ
  /-- What starts with a brace decodes to an object, if at all. -/
  loads_object : ∀ text v, loads (123 :: text) = .ok v → ∃ fields, v = .obj fields

/-- The models, in the words of `backend_attempt_order`. -/
inductive Backend where
  | claude
  | gemini
  deriving DecidableEq

/-- `backend_attempt_order`. -/
def backendAttemptOrder : List Backend := [.claude, .gemini]

/-- `MAX_MODEL_REPAIRS`. -/
def maxModelRepairs : ℕ := 2

/-- Whether one of the words stands in a text. -/
def mentions (text : List ℕ) (words : List String) : Bool :=
  words.any fun word => decide (str word <:+: text)

/-! ### The check of what was asked for -/

/-- `line.split()[0]`. -/
def firstWord (line : List ℕ) : Except PyError (List ℕ) :=
  match split line with
  | [] => .error .index
  | word :: _ => .ok word

/-- `raise ValueError(message)` under a condition. -/
def refuse (condition : Bool) (message : String) : Except PyError Unit :=
  if condition then .error (.value (str message)) else .ok ()

/-- The number of commands with one of the names. -/
def countCommands (commands : List (List ℕ)) (names : List String) : ℕ :=
  commands.countP fun command => names.any fun name => str name = command

/-- `semantic_validate_response`. -/
def semanticValidateResponse (it : Interpreter) (prompt text : List ℕ) : Except PyError Unit := do
  let lowered := it.lower prompt
  let lines := ((splitlines text).map strip).filter fun line => line ≠ [] ∧ line ≠ str "END"
  let commands ← lines.mapM firstWord
  let circleCount := countCommands commands ["CIRCLE", "FILLCIRCLE"]
  let rectCount := countCommands commands ["RECT", "FILLRECT"]
  let lineCount := countCommands commands
    ["LINE", "TRIANGLE", "FILLTRIANGLE", "POLYGON", "FILLPOLYGON"]
  let triangleCount := countCommands commands ["TRIANGLE", "FILLTRIANGLE"]
  let ellipseCount := countCommands commands ["ELLIPSE", "FILLELLIPSE"]
  refuse (mentions lowered ["car", "bus", "truck", "vehicle"] &&
      (circleCount + ellipseCount < 2 || rectCount < 1))
    "vehicle prompt requires at least two wheel circles and one body rectangle"
  refuse (mentions lowered ["house"] && (rectCount < 1 || lineCount + triangleCount < 2))
    "house prompt requires wall rectangles and roof lines"
  refuse (mentions lowered ["flag"] && rectCount < 2 && triangleCount < 1)
    "flag prompt requires rectangles for the flag body"
  refuse (mentions lowered ["smiley", "smile", "face"] &&
      (circleCount + ellipseCount < 3 || lineCount < 1))
    "smiley prompt requires a face circle, eyes, and a mouth line"
  refuse (mentions lowered ["mountain", "mountains", "peak", "peaks"] && lineCount < 1 &&
      triangleCount < 1)
    "mountain prompt requires line-based peaks"
  refuse (mentions lowered ["sunset"] && circleCount + ellipseCount < 1)
    "sunset prompt requires a sun circle"

/-! ### The templates -/

/-- The first drawing of `vehicle_template`. -/
def busTemplate : List ℕ := joinNewline (List.map str
  ["CLEAR 9", "FILLRECT 0 150 320 50 2", "FILLRECT 40 95 220 55 12", "RECT 40 95 220 55 15",
    "FILLRECT 55 108 30 18 15", "FILLRECT 92 108 30 18 15", "FILLRECT 129 108 30 18 15",
    "FILLRECT 166 108 30 18 15", "FILLRECT 203 108 30 18 15", "FILLCIRCLE 90 155 18 0",
    "FILLCIRCLE 210 155 18 0", "CIRCLE 90 155 18 7", "CIRCLE 210 155 18 7", "END"])

/-- The second drawing of `vehicle_template`. -/
def carTemplate : List ℕ := joinNewline (List.map str
  ["CLEAR 9", "FILLRECT 0 150 320 50 2", "FILLRECT 60 115 150 32 12", "FILLRECT 95 90 70 30 12",
    "RECT 60 115 150 32 15", "RECT 95 90 70 30 15", "FILLRECT 105 98 22 14 15",
    "FILLRECT 132 98 22 14 15", "FILLCIRCLE 95 150 16 0", "FILLCIRCLE 180 150 16 0",
    "CIRCLE 95 150 16 7", "CIRCLE 180 150 16 7", "END"])

/-- `vehicle_template`. -/
def vehicleTemplate (it : Interpreter) (prompt : List ℕ) : List ℕ :=
  if mentions (it.lower prompt) ["bus"] then busTemplate else carTemplate

/-- `targeted_template`. -/
def targetedTemplate (it : Interpreter) (prompt : List ℕ) : Option (List ℕ) :=
  if mentions (it.lower prompt) ["car", "bus", "truck", "vehicle"] then
    some (vehicleTemplate it prompt)
  else none

/-- The flag of `canned_response`. -/
def flagTemplate : List ℕ := joinNewline (List.map str
  ["CLEAR 15", "FILLRECT 0 0 320 200 15", "FILLRECT 0 0 128 112 1", "FILLRECT 0 18 320 18 12",
    "FILLRECT 0 54 320 18 12", "FILLRECT 0 90 320 18 12", "FILLRECT 0 126 320 18 12",
    "FILLRECT 0 162 320 18 12", "END"])

/-- The face of `canned_response`. -/
def smileyTemplate : List ℕ := joinNewline (List.map str
  ["CLEAR 9", "FILLCIRCLE 160 100 58 14", "CIRCLE 160 100 58 15", "FILLCIRCLE 138 82 7 0",
    "FILLCIRCLE 182 82 7 0", "LINE 130 130 146 144 0", "LINE 146 144 174 144 0",
    "LINE 174 144 190 130 0", "END"])

/-- The house of `canned_response`. -/
def houseTemplate : List ℕ := joinNewline (List.map str
  ["CLEAR 9", "FILLRECT 0 145 320 55 2", "FILLRECT 96 86 112 70 6", "RECT 96 86 112 70 15",
    "FILLRECT 138 118 28 38 4", "RECT 138 118 28 38 15", "LINE 96 86 152 48 12",
    "LINE 152 48 208 86 12", "LINE 96 87 152 49 12", "LINE 152 49 208 87 12", "END"])

/-- The scene of `canned_response`. -/
def sceneTemplate : List ℕ := joinNewline (List.map str
  ["CLEAR 9", "FILLRECT 0 140 320 60 2", "FILLCIRCLE 250 45 24 14", "CIRCLE 250 45 24 15",
    "FILLRECT 90 85 95 70 6", "RECT 90 85 95 70 15", "FILLRECT 123 118 26 37 4",
    "RECT 123 118 26 37 15", "LINE 90 85 138 52 4", "LINE 138 52 185 85 4", "END"])

/-- `canned_response`. -/
def cannedResponse (it : Interpreter) (prompt : List ℕ) : List ℕ :=
  let lowered := it.lower (strip prompt)
  if mentions lowered ["flag"] && mentions lowered ["us"] then flagTemplate
  else if mentions lowered ["smiley", "face"] then smileyTemplate
  else if mentions lowered ["house"] then houseTemplate
  else sceneTemplate

/-- The end of `generate_response`. -/
def fallbackResponse (it : Interpreter) (prompt : List ℕ) : List ℕ :=
  (targetedTemplate it prompt).getD (cannedResponse it prompt)

/-! ### Repairs -/

/-- `PROMPT_HINTS`. -/
def promptHintTable : List (String × String) :=
  [("car", "A car should usually have a rectangular body, a smaller roof, and two wheel circles."),
    ("bus", "A bus should usually have a long rectangular body, windows made from rectangles, " ++
        "and two or more wheel circles."),
    ("truck", "A truck should usually have a cargo body, a cab, and at least two wheel circles."),
    ("vehicle", "A vehicle should usually have a body rectangle and wheel circles."),
    ("house", "A house should usually have a wall rectangle, a door rectangle, and roof lines."),
    ("flag", "A flag should usually be built from rectangles, not circles."),
    ("smiley", "A smiley should usually have one large face circle, two eye circles, and a mouth line."),
    ("mountain", "Mountains should usually be built from sloped lines forming peaks."),
    ("sunset", "A sunset should usually include a sun circle and a horizon or landscape.")]

/-- `prompt_hints`. -/
def promptHints (it : Interpreter) (prompt : List ℕ) : List ℕ :=
  let hints := promptHintTable.filterMap fun entry =>
    if mentions (it.lower prompt) [entry.1] then some entry.2 else none
  let hints := if hints = [] then
    ["Use simple large shapes that clearly match the requested object."] else hints
  joinNewline (hints.map fun hint => str "- " ++ str hint)

/-- The lines of `JSON_EXAMPLE_TEXT`. -/
def jsonExampleLines : List String :=
  ["\x7b", "  \"commands\": [", "    \x7b", "      \"cmd\": \"CLEAR\",", "      \"color\": 9",
    "    \x7d,", "    \x7b", "      \"cmd\": \"FILLRECT\",", "      \"x\": 10,",
    "      \"y\": 120,", "      \"w\": 120,", "      \"h\": 50,", "      \"color\": 6",
    "    \x7d,", "    \x7b", "      \"cmd\": \"TRIANGLE\",", "      \"x1\": 20,",
    "      \"y1\": 120,", "      \"x2\": 70,", "      \"y2\": 70,", "      \"x3\": 120,",
    "      \"y3\": 120,", "      \"color\": 15", "    \x7d,", "    \x7b",
    "      \"cmd\": \"FILLELLIPSE\",", "      \"x\": 220,", "      \"y\": 70,",
    "      \"rx\": 40,", "      \"ry\": 20,", "      \"color\": 14", "    \x7d,", "    \x7b",
    "      \"cmd\": \"END\"", "    \x7d", "  ]", "\x7d"]

/-- `REPAIR_PREAMBLE`, in which the braces of the example are doubled. -/
@[irreducible] def repairPreamble : List ℕ :=
  joinNewline (List.map str
    ["Rewrite the broken drawing response so it becomes valid.",
    "Return JSON only. Do not return DSL directly.",
    "Return exactly one JSON object with this shape:"] ++
  jsonExampleLines.map (fun line =>
    (str line).flatMap fun c => if c = 123 ∨ c = 125 then [c, c] else [c]) ++ List.map str
    ["",
    "Rules:",
    "- Use only these commands: CLEAR, PIXEL, LINE, RECT, FILLRECT, CIRCLE, " ++
      "FILLCIRCLE, TRIANGLE, FILLTRIANGLE, ELLIPSE, FILLELLIPSE, POLYGON, FILLPOLYGON, " ++
      "END.",
    "- Use integers only.",
    "- Colors must be in the range 0..15.",
    "- For POLYGON and FILLPOLYGON, use a \"points\" array with 3 to 16 [x, y] pairs " ++
      "plus a color.",
    "- End the command list with \x7b\x7b\"cmd\": \"END\"\x7d\x7d.",
    "- Do not include markdown, bullets, explanations, or code fences.",
    "",
    "Original drawing request:",
    "\x7bprompt\x7d",
    "",
    "Validation error:",
    "\x7berror\x7d",
    "",
    "Broken output:",
    "\x7bbad_output\x7d",
    "",
    "Drawing hints:",
    "\x7bhints\x7d"]) ++ [10]

/-- `str.format` for fields that are plain names: from a state that is outside a
field, or inside one with the start of its name. -/
def formatLoop (value : List ℕ → Option (List ℕ)) :
    Option (List ℕ) → List ℕ → Except PyError (List ℕ)
  | none, [] => .ok []
  | none, 123 :: 123 :: cs => do .ok (123 :: (← formatLoop value none cs))
  | none, 125 :: 125 :: cs => do .ok (125 :: (← formatLoop value none cs))
  | none, c :: cs =>
    if c = 125 then .error (.value (str "Single '\x7d' encountered in format string"))
    else if c = 123 then formatLoop value (some []) cs
    else do .ok (c :: (← formatLoop value none cs))
  | some _, [] => .error (.value (str "expected '\x7d' before end of string"))
  | some name, c :: cs =>
    if c = 125 then
      if name.all fun d => 48 ≤ d && d ≤ 57 then .error .index
      else
        match value name with
        | none => .error .key
        | some v => do .ok (v ++ (← formatLoop value none cs))
    else formatLoop value (some (name ++ [c])) cs

/-- The arguments of `REPAIR_PREAMBLE.format`. -/
def repairFields (it : Interpreter) (prompt badOutput : List ℕ) (error : PyError)
    (name : List ℕ) : Option (List ℕ) :=
  if name = str "prompt" then some prompt
  else if name = str "error" then some (it.errorText error)
  else if name = str "bad_output" then some badOutput
  else if name = str "hints" then some (promptHints it prompt)
  else none

/-- The exception handler of `repair_output`, and the request behind it: `reply` is
what the model answers. -/
def requestRepair (reply : Option (List ℕ)) :
    Except PyError (List ℕ) → Except PyError (Option (List ℕ)) × ℕ
  | .ok _ => (.ok reply, 1)
  | .error e => if e == .key || e.isValue then (.ok none, 0) else (.error e, 0)

/-- `repair_output`, with the number of requests that it makes. -/
def repairOutput (it : Interpreter) (reply : Option (List ℕ)) (prompt badOutput : List ℕ)
    (error : PyError) : Except PyError (Option (List ℕ)) × ℕ :=
  requestRepair reply (formatLoop (repairFields it prompt badOutput error) none repairPreamble)

/-! ### The loops -/

/-- The inner `try` block of `generate_response`. -/
def validateCandidate (it : Interpreter) (candidate : List ℕ) : Except PyError (List ℕ) :=
  match validateJsonResponse it.toRuntime candidate with
  | .ok validated => .ok validated
  | .error e => if e.isValue then validateResponse it.unicode candidate else .error e

/-- The outer `try` block of `generate_response`. -/
def checkCandidate (it : Interpreter) (prompt candidate : List ℕ) : Except PyError (List ℕ) := do
  let validated ← validateCandidate it candidate
  semanticValidateResponse it prompt validated
  .ok validated

/-- The body of the loop over the attempts, with `left` attempts behind this one and
`calls` requests before it: what the loop ends with, or the next candidate. -/
def attempt (it : Interpreter) (replies : ℕ → Option (List ℕ)) (prompt : List ℕ)
    (left calls : ℕ) (candidate : List ℕ) :
    (Except PyError (Option (List ℕ)) × ℕ) ⊕ (ℕ × List ℕ) :=
  match checkCandidate it prompt candidate with
  | .ok validated => .inl (.ok (some validated), calls)
  | .error e =>
    if e.isValue = false then .inl (.error e, calls)
    else if left = 0 then .inl (.ok none, calls)
    else
      match repairOutput it (replies calls) prompt candidate e with
      | (.error e, asked) => .inl (.error e, calls + asked)
      | (.ok none, asked) => .inl (.ok none, calls + asked)
      | (.ok (some repaired), asked) => .inr (calls + asked, repaired)

/-- The attempts at one model: `left` of them are left, `calls` requests were made
before, and `replies` are what the model answers in turn. The number of requests is
returned too. -/
def attemptLoop (it : Interpreter) (replies : ℕ → Option (List ℕ)) (prompt : List ℕ) :
    ℕ → ℕ → List ℕ → Except PyError (Option (List ℕ)) × ℕ
  | 0, calls, _ => (.ok none, calls)
  | left + 1, calls, candidate =>
    match attempt it replies prompt left calls candidate with
    | .inl result => result
    | .inr (calls, repaired) => attemptLoop it replies prompt left calls repaired

/-- One pass of the loop over the models. -/
def tryBackend (it : Interpreter) (replies : ℕ → Option (List ℕ)) (prompt : List ℕ) :
    Except PyError (Option (List ℕ)) × ℕ :=
  match replies 0 with
  | none => (.ok none, 1)
  | some candidate => attemptLoop it replies prompt (maxModelRepairs + 1) 1 candidate

/-- The loop over the models, with the requests that it makes. -/
def backendLoop (it : Interpreter) (replies : Backend → ℕ → Option (List ℕ)) (prompt : List ℕ) :
    List Backend → Except PyError (Option (List ℕ)) × List Backend
  | [] => (.ok none, [])
  | backend :: backends =>
    match tryBackend it (replies backend) prompt with
    | (.ok none, calls) =>
      let rest := backendLoop it replies prompt backends
      (rest.1, replicate calls backend ++ rest.2)
    | (result, calls) => (result, replicate calls backend)

/-- `generate_response`, where `replies` are what the models answer in turn, with
the requests that it makes. -/
def generateResponse (it : Interpreter) (replies : Backend → ℕ → Option (List ℕ))
    (prompt : List ℕ) : Except PyError (List ℕ) × List Backend :=
  let loop := backendLoop it replies prompt backendAttemptOrder
  ((do
    match ← loop.1 with
    | some validated => .ok validated
    | none => .ok (fallbackResponse it prompt)), loop.2)

/-! ### What the loops look at -/

/-- A reply passes all checks. -/
def accepted (it : Interpreter) (prompt candidate : List ℕ) : Bool :=
  (checkCandidate it prompt candidate).isOk

/-- The replies that the attempts at one model look at, while they are rejected. -/
def examinedFrom (it : Interpreter) (replies : ℕ → Option (List ℕ)) (prompt : List ℕ) :
    ℕ → ℕ → List ℕ → List (List ℕ)
  | 0, _, _ => []
  | left + 1, calls, candidate =>
    candidate ::
      if accepted it prompt candidate || left = 0 then []
      else
        match replies calls with
        | none => []
        | some repaired => examinedFrom it replies prompt left (calls + 1) repaired

/-- The replies of one model that are looked at. -/
def examinedBackend (it : Interpreter) (replies : ℕ → Option (List ℕ)) (prompt : List ℕ) :
    List (List ℕ) :=
  match replies 0 with
  | none => []
  | some candidate => examinedFrom it replies prompt (maxModelRepairs + 1) 1 candidate

/-- The replies that are looked at before one is accepted: those of each model in
turn. -/
def examinedLoop (it : Interpreter) (replies : Backend → ℕ → Option (List ℕ)) (prompt : List ℕ) :
    List Backend → List (List ℕ)
  | [] => []
  | backend :: backends =>
    let examined := examinedBackend it (replies backend) prompt
    examined ++
      if examined.any (accepted it prompt) then [] else examinedLoop it replies prompt backends

/-- The replies that `generate_response` looks at. -/
def examined (it : Interpreter) (replies : Backend → ℕ → Option (List ℕ)) (prompt : List ℕ) :
    List (List ℕ) :=
  examinedLoop it replies prompt backendAttemptOrder

/-- Whether `str.format` succeeds depends only on the names that have a value. -/
theorem isOk_formatLoop_congr {value value' : List ℕ → Option (List ℕ)}
    (h : ∀ name, (value name).isSome = (value' name).isSome) (state : Option (List ℕ))
    (cs : List ℕ) : (formatLoop value state cs).isOk = (formatLoop value' state cs).isOk := by
  have hcons : ∀ (x y : Except PyError (List ℕ)) (f g : List ℕ → List ℕ), x.isOk = y.isOk →
      (x >>= fun a => Except.ok (f a)).isOk = (y >>= fun a => Except.ok (g a)).isOk := by
    intro x y f g hxy
    cases x with
    | ok a =>
      cases y with
      | ok b => rfl
      | error e => exact absurd hxy nofun
    | error e =>
      cases y with
      | ok b => exact absurd hxy nofun
      | error e' => rfl
  fun_induction formatLoop value state cs with
  | case1 => rfl
  | case2 cs ih | case3 cs ih => exact hcons _ _ _ _ ih
  | case4 cs h1 h2 =>
    rw [formatLoop, if_pos rfl]
    · exact h1
    · exact h2
  | case5 cs h1 h2 h3 ih =>
    rw [formatLoop, if_neg h3, if_pos rfl]
    · exact ih
    · exact h1
    · exact h2
  | case6 c cs h1 h2 h3 h4 ih =>
    rw [formatLoop, if_neg h3, if_neg h4]
    · exact hcons _ _ _ _ ih
    · exact h1
    · exact h2
  | case7 => rfl
  | case8 name cs hdigits =>
    rw [formatLoop, if_pos rfl, if_pos hdigits]
  | case9 name cs hdigits hnone =>
    have hother := h name
    rw [hnone, Option.isSome_none, Eq.comm, Option.isSome_eq_false_iff, Option.isNone_iff_eq_none]
      at hother
    rw [formatLoop, if_pos rfl, if_neg hdigits, hother]
  | case10 name cs hdigits v hsome ih =>
    have hother := h name
    rw [hsome, Option.isSome_some, Eq.comm, Option.isSome_iff_exists] at hother
    obtain ⟨w, hw⟩ := hother
    rw [formatLoop, if_pos rfl, if_neg hdigits, hw]
    exact hcons _ _ _ _ ih
  | case11 name c cs hne ih =>
    rw [formatLoop, if_neg hne]
    exact ih

/-- An empty value for each name of a field of the preamble. -/
def blankFields (name : List ℕ) : Option (List ℕ) :=
  if name ∈ [str "prompt", str "error", str "bad_output", str "hints"] then some [] else none

/-- The preamble is a format text over those names. -/
theorem isOk_formatLoop_repairPreamble :
    (formatLoop blankFields none repairPreamble).isOk = true := by
  unfold repairPreamble jsonExampleLines
  simp only [map_cons, map_nil]
  repeat rw [str_ofList]
  decide +kernel

variable (it : Interpreter)

theorem repairOutput_eq (reply : Option (List ℕ)) (prompt badOutput : List ℕ)
    (error : PyError) : repairOutput it reply prompt badOutput error = (.ok reply, 1) := by
  -- the names in the preamble are those of the arguments, whatever these are
  have hnames : ∀ name, (repairFields it prompt badOutput error name).isSome =
      (blankFields name).isSome := by
    intro name
    simp only [repairFields, blankFields, mem_cons, not_mem_nil, or_false]
    split_ifs <;> simp_all
  have hok := (isOk_formatLoop_congr hnames none repairPreamble).trans
    isOk_formatLoop_repairPreamble
  obtain ⟨text, htext⟩ := exists_eq_ok_of_isOk hok
  rw [repairOutput, htext, requestRepair]

/-- What the JSON validation returns comes from the validation of some lines. -/
theorem exists_validateResponse_of_json {rt : Runtime} {text r : List ℕ}
    (h : validateJsonResponse rt text = .ok r) :
    ∃ lines, validateResponse rt.unicode lines = .ok r := by
  obtain ⟨payload, -, h⟩ := bind_eq_ok.mp h
  split at h
  · split at h
    · obtain ⟨lines, -, h⟩ := bind_eq_ok.mp h
      exact ⟨_, h⟩
    · exact absurd h nofun
  · exact absurd h nofun

/-- The check of what was asked for raises a `ValueError` or passes. -/
theorem semanticValidateResponse_raises (prompt text : List ℕ) :
    Raises (·.isValue = true) (semanticValidateResponse it prompt text) := by
  have hrefuse : ∀ condition message, Raises (·.isValue = true) (refuse condition message) := by
    intro condition message
    unfold refuse
    split_ifs
    · exact raises_error rfl
    · exact raises_ok _ _
  -- a stripped line that is not empty has a first word
  have hwords : ∀ lines : List (List ℕ),
      Raises (·.isValue = true) (((lines.map strip).filter fun line =>
        line ≠ [] ∧ line ≠ str "END").mapM firstWord) := by
    intro lines
    induction lines with
    | nil => exact raises_ok _ _
    | cons line lines ih =>
      rw [map_cons, filter_cons]
      split_ifs with hkeep
      · rw [mapM_cons]
        have hfirst : Raises (·.isValue = true) (firstWord (strip line)) := by
          unfold firstWord
          split
          · next hnil =>
            have hne : strip line ≠ [] := (of_decide_eq_true hkeep).1
            exact absurd hnil (split_strip_ne_nil hne)
          · exact raises_ok _ _
        exact hfirst.bind fun _ => ih.bind fun _ => raises_ok _ _
      · exact ih
  unfold semanticValidateResponse
  refine (hwords _).bind fun commands => ?_
  exact (hrefuse _ _).bind fun _ => (hrefuse _ _).bind fun _ => (hrefuse _ _).bind fun _ =>
    (hrefuse _ _).bind fun _ => (hrefuse _ _).bind fun _ => hrefuse _ _

/-- The checks of a reply raise something else than a `ValueError` exactly when the
reply escapes. -/
theorem checkCandidate_escapes_iff (prompt candidate : List ℕ) :
    (∃ e, checkCandidate it prompt candidate = .error e ∧ e.isValue = false) ↔
      escapes it.toRuntime candidate = true := by
  rw [← validateJsonResponse_escapes_iff it.toRuntime it.loads_object]
  have hrest : ∀ validated, Raises (·.isValue = true)
      (semanticValidateResponse it prompt validated >>= fun _ => Except.ok validated) :=
    fun validated => (semanticValidateResponse_raises it prompt validated).bind
      fun _ => raises_ok _ _
  have hvalue : ∀ {x : Except PyError (List ℕ)}, Raises (·.isValue = true) x →
      ¬ ∃ e, x = .error e ∧ e.isValue = false := by
    rintro x hx ⟨e, heq, hnot⟩
    rw [hx e heq] at hnot
    exact absurd hnot (by decide)
  unfold checkCandidate validateCandidate
  cases hjson : validateJsonResponse it.toRuntime candidate with
  | ok validated =>
    constructor
    · intro h
      exact absurd h (hvalue (hrest validated))
    · rintro ⟨e, heq, -⟩
      exact absurd heq nofun
  | error e =>
    cases he : e.isValue with
    | true =>
      constructor
      · intro h
        refine absurd h (hvalue ?_)
        simp only [he, if_true]
        exact (validateResponse_raises it.unicode candidate).bind hrest
      · rintro ⟨e', heq, hnot⟩
        rw [← Except.error.inj heq, he] at hnot
        exact absurd hnot (by decide)
    | false =>
      simp only [he, Bool.false_eq_true, if_false]
      rfl

/-- A reply that passes all checks has been validated. -/
theorem fixed_of_checkCandidate {it : Interpreter} {prompt candidate validated : List ℕ}
    (h : checkCandidate it prompt candidate = .ok validated) :
    validateResponse it.unicode validated = .ok validated := by
  have hfixed : ∀ {text : List ℕ}, validateResponse it.unicode text = .ok validated →
      validateResponse it.unicode validated = .ok validated := by
    intro text htext
    obtain ⟨instrs, rfl⟩ := exists_drawing_of_validateResponse htext
    exact validateResponse_drawingText it.unicode instrs
  obtain ⟨v, hv, h⟩ := bind_eq_ok.mp h
  obtain ⟨_, -, h⟩ := bind_eq_ok.mp h
  obtain rfl := Except.ok.inj h
  unfold validateCandidate at hv
  cases hjson : validateJsonResponse it.toRuntime candidate with
  | ok w =>
    rw [hjson] at hv
    obtain rfl := Except.ok.inj hv
    obtain ⟨lines, hlines⟩ := exists_validateResponse_of_json hjson
    exact hfixed hlines
  | error e =>
    rw [hjson] at hv
    simp only at hv
    split_ifs at hv
    exact hfixed hv

/-- One attempt at a model. -/
theorem attemptLoop_succ (replies : ℕ → Option (List ℕ)) (prompt : List ℕ)
    (left calls : ℕ) (candidate : List ℕ) : attemptLoop it replies prompt (left + 1) calls candidate =
      match checkCandidate it prompt candidate with
      | .ok validated => (.ok (some validated), calls)
      | .error e =>
        if e.isValue = false then (.error e, calls)
        else if left = 0 then (.ok none, calls)
        else
          match replies calls with
          | none => (.ok none, calls + 1)
          | some repaired => attemptLoop it replies prompt left (calls + 1) repaired := by
  rw [attemptLoop, attempt]
  cases checkCandidate it prompt candidate with
  | ok validated => rfl
  | error e =>
    simp only [repairOutput_eq]
    split_ifs
    · rfl
    · rfl
    · cases replies calls <;> rfl

/-- What becomes of the replies that are looked at: an exception if one of them escapes, a
validated reply if one is accepted, and nothing if none is. -/
structure Verdict (it : Interpreter) (prompt : List ℕ) (examined : List (List ℕ))
    (r : Except PyError (Option (List ℕ))) : Prop where
  returns : (∃ o, r = .ok o) ↔ ∀ c ∈ examined, escapes it.toRuntime c = false
  accepts : ∀ v, r = .ok (some v) → ∃ c ∈ examined, checkCandidate it prompt c = .ok v
  rejects : r = .ok none → ∀ c ∈ examined, accepted it prompt c = false

section
variable {it : Interpreter} {prompt candidate validated : List ℕ} {examined others : List (List ℕ)}
  {r : Except PyError (Option (List ℕ))} {e : PyError}

theorem Verdict.nil : Verdict it prompt [] (.ok none) := ⟨by simp, by simp, by simp⟩

theorem accepted_of_ok (h : checkCandidate it prompt candidate = .ok validated) :
    accepted it prompt candidate = true := by
  rw [accepted, h]
  rfl

/-- One reply. -/
theorem Verdict.single (it : Interpreter) (prompt candidate : List ℕ) : Verdict it prompt [candidate]
    (match checkCandidate it prompt candidate with
      | .ok validated => .ok (some validated)
      | .error e => if e.isValue = false then .error e else .ok none) := by
  have hescapes := checkCandidate_escapes_iff it prompt candidate
  cases hcheck : checkCandidate it prompt candidate with
  | ok v =>
    refine ⟨?_, ?_, nofun⟩
    · simpa [hcheck] using hescapes
    · rintro w ⟨⟩
      exact ⟨candidate, mem_singleton_self _, hcheck⟩
  | error e =>
    have hrejected : accepted it prompt candidate = false := by
      rw [accepted, hcheck]
      rfl
    rw [hcheck] at hescapes
    simp only
    split_ifs with he
    · exact ⟨by simpa [he] using hescapes, nofun, nofun⟩
    · exact ⟨by simpa [he] using hescapes, nofun, by simp [hrejected]⟩

/-- Replies of which none is accepted, and others. -/
theorem Verdict.append (h : Verdict it prompt examined (.ok none)) (hr : Verdict it prompt others r) :
    Verdict it prompt (examined ++ others) r := by
  refine ⟨?_, ?_, ?_⟩
  · rw [hr.returns, forall_mem_append]
    exact ⟨fun hothers => ⟨h.returns.mp ⟨none, rfl⟩, hothers⟩, And.right⟩
  · intro v hv
    obtain ⟨c, hc, hok⟩ := hr.accepts v hv
    exact ⟨c, mem_append_right _ hc, hok⟩
  · intro hnone
    exact forall_mem_append.mpr ⟨h.rejects rfl, hr.rejects hnone⟩

theorem Verdict.append_error (h : Verdict it prompt examined (.error e)) :
    Verdict it prompt (examined ++ others) (.error e) := by
  refine ⟨iff_of_false nofun fun hall => ?_, nofun, nofun⟩
  exact nomatch (h.returns.mpr (forall_mem_append.mp hall).1).choose_spec

end

/-- The attempts at one model: how many requests they make, and what becomes of the replies. -/
theorem attemptLoop_spec (replies : ℕ → Option (List ℕ)) (prompt : List ℕ)
    (left calls : ℕ) (candidate : List ℕ) :
    (attemptLoop it replies prompt (left + 1) calls candidate).2 ≤ calls + left ∧
    Verdict it prompt (examinedFrom it replies prompt (left + 1) calls candidate)
      (attemptLoop it replies prompt (left + 1) calls candidate).1 := by
  induction left generalizing calls candidate with
  | zero =>
    have hfirst := Verdict.single it prompt candidate
    rw [attemptLoop_succ]
    simp only [examinedFrom, decide_true, Bool.or_true, if_true]
    cases hcheck : checkCandidate it prompt candidate with
    | ok v =>
      rw [hcheck] at hfirst
      exact ⟨le_rfl, hfirst⟩
    | error e =>
      rw [hcheck] at hfirst
      simp only at hfirst ⊢
      split_ifs at hfirst ⊢
      all_goals exact ⟨le_rfl, hfirst⟩
  | succ left ih =>
    have hfirst := Verdict.single it prompt candidate
    rw [attemptLoop_succ, examinedFrom]
    simp only [Nat.add_one_ne_zero, decide_false, Bool.or_false, if_false]
    cases hcheck : checkCandidate it prompt candidate with
    | ok v =>
      rw [hcheck] at hfirst
      rw [if_pos (accepted_of_ok hcheck)]
      exact ⟨Nat.le_add_right _ _, hfirst⟩
    | error e =>
      rw [hcheck] at hfirst
      simp only at hfirst ⊢
      by_cases he : e.isValue = false
      · rw [if_pos he] at hfirst ⊢
        exact ⟨Nat.le_add_right _ _, hfirst.append_error⟩
      · rw [if_neg he] at hfirst ⊢
        rw [hfirst.rejects rfl candidate (mem_singleton_self _), if_neg nofun]
        cases replies calls with
        | none => exact ⟨Nat.add_le_add_left (Nat.le_add_left _ _) _, hfirst⟩
        | some repaired =>
          obtain ⟨hcalls, hrest⟩ := ih (calls + 1) repaired
          exact ⟨hcalls.trans (by omega), hfirst.append hrest⟩

/-- One model: how many requests it gets, and what becomes of its replies. -/
theorem tryBackend_spec (replies : ℕ → Option (List ℕ)) (prompt : List ℕ) :
    (tryBackend it replies prompt).2 ≤ 1 + maxModelRepairs ∧
    Verdict it prompt (examinedBackend it replies prompt) (tryBackend it replies prompt).1 := by
  unfold tryBackend examinedBackend
  cases replies 0 with
  | none => exact ⟨Nat.le_add_right _ _, .nil⟩
  | some candidate => exact attemptLoop_spec it replies prompt maxModelRepairs 1 candidate

/-- The models in turn: how many requests each gets, and what becomes of the replies. -/
theorem backendLoop_spec (replies : Backend → ℕ → Option (List ℕ))
    (prompt : List ℕ) {backends : List Backend} (hnodup : backends.Nodup) :
    (∀ b, (backendLoop it replies prompt backends).2.count b ≤
      if b ∈ backends then 1 + maxModelRepairs else 0) ∧
    Verdict it prompt (examinedLoop it replies prompt backends)
      (backendLoop it replies prompt backends).1 := by
  induction backends with
  | nil => exact ⟨fun _ => le_rfl, .nil⟩
  | cons backend backends ih =>
    obtain ⟨hfresh, hnodup⟩ := nodup_cons.mp hnodup
    obtain ⟨hcalls, hrest⟩ := ih hnodup
    obtain ⟨hcalls₀, hfirst⟩ := tryBackend_spec it (replies backend) prompt
    have hcount : ∀ n, n ≤ 1 + maxModelRepairs → ∀ b, (replicate n backend).count b ≤
        if b ∈ backend :: backends then 1 + maxModelRepairs else 0 := by
      intro n hn b
      rw [count_replicate]
      by_cases hb : backend = b
      · simp [hb, hn]
      · simp [hb]
    rw [backendLoop, examinedLoop]
    rcases hpass : tryBackend it (replies backend) prompt with ⟨e | (_ | v), n⟩
    · -- the pass raises
      rw [hpass] at hcalls₀ hfirst
      exact ⟨hcount n hcalls₀, hfirst.append_error⟩
    · -- nothing is accepted, and the next model is asked
      rw [hpass] at hcalls₀ hfirst
      have hany : (examinedBackend it (replies backend) prompt).any (accepted it prompt) = false := by
        rw [any_eq_false]
        intro c hc
        simp [hfirst.rejects rfl c hc]
      simp only [hany, Bool.false_eq_true, if_false]
      refine ⟨fun b => ?_, hfirst.append hrest⟩
      have hb₀ := hcount n hcalls₀ b
      have hb := hcalls b
      rw [count_append]
      by_cases heq : b = backend
      · subst b
        rw [if_neg hfresh] at hb
        omega
      · have hzero : (replicate n backend).count b = 0 := by
          rw [count_replicate]
          simp [Ne.symm heq]
        simp only [mem_cons, heq, false_or]
        omega
    · -- a reply is accepted
      rw [hpass] at hcalls₀ hfirst
      obtain ⟨c, hc, hok⟩ := hfirst.accepts v rfl
      have hany : (examinedBackend it (replies backend) prompt).any (accepted it prompt) = true :=
        any_eq_true.mpr ⟨c, hc, accepted_of_ok hok⟩
      simp only [hany, if_true, append_nil]
      exact ⟨hcount n hcalls₀, hfirst⟩

/-- A text that validates to itself over ASCII does so with every table. -/
theorem validateResponse_fixed (u : Unicode) {text : List ℕ}
    (h : validateResponse Unicode.ascii text = .ok text) : validateResponse u text = .ok text := by
  obtain ⟨instrs, rfl⟩ := exists_drawing_of_validateResponse h
  exact validateResponse_drawingText u instrs

/-- Every template is a validated drawing. -/
theorem validateResponse_fallbackResponse (prompt : List ℕ) :
    validateResponse it.unicode (fallbackResponse it prompt) = .ok (fallbackResponse it prompt) := by
  have htemplates : ∀ text ∈ [busTemplate, carTemplate, flagTemplate, smileyTemplate, houseTemplate,
      sceneTemplate], validateResponse Unicode.ascii text = .ok text := by
    unfold busTemplate carTemplate flagTemplate smileyTemplate houseTemplate sceneTemplate
    simp only [map_cons, map_nil]
    repeat rw [str_ofList]
    decide +kernel
  have hcanned : cannedResponse it prompt ∈
      [busTemplate, carTemplate, flagTemplate, smileyTemplate, houseTemplate, sceneTemplate] := by
    unfold cannedResponse
    simp only
    split_ifs <;> simp
  apply validateResponse_fixed
  apply htemplates
  unfold fallbackResponse targetedTemplate vehicleTemplate
  split_ifs
  · simp
  · simp
  · simpa using hcanned

/-- **Responses.** `generate_response` returns a validated drawing, which is the
fallback when no reply passes the checks, and asks each model at most once and
`MAX_MODEL_REPAIRS` times for a repair, exactly when no reply that it looks at
escapes the JSON validation. -/
theorem generate_response_returns_iff (it : Interpreter)
    (replies : Backend → ℕ → Option (List ℕ)) (prompt : List ℕ) :
    ((∃ body, (generateResponse it replies prompt).1 = .ok body ∧
        validateResponse it.unicode body = .ok body ∧
        ((∀ c ∈ examined it replies prompt, accepted it prompt c = false) →
          body = fallbackResponse it prompt)) ∧
      ∀ b, (generateResponse it replies prompt).2.count b ≤ 1 + maxModelRepairs) ↔
    ∀ c ∈ examined it replies prompt, escapes it.toRuntime c = false := by
  obtain ⟨hcalls, hloop⟩ :=
    backendLoop_spec it replies prompt (show backendAttemptOrder.Nodup by decide)
  have hcount : ∀ b, (generateResponse it replies prompt).2.count b ≤ 1 + maxModelRepairs := by
    intro b
    have hb := hcalls b
    have hmem : b ∈ backendAttemptOrder := by cases b <;> decide
    rwa [if_pos hmem] at hb
  rw [examined, ← hloop.returns]
  constructor
  · rintro ⟨⟨body, hbody, -⟩, -⟩
    obtain ⟨r, hr, -⟩ := bind_eq_ok.mp hbody
    exact ⟨r, hr⟩
  · rintro ⟨r, hr⟩
    refine ⟨?_, hcount⟩
    cases r with
    | none =>
      refine ⟨fallbackResponse it prompt, ?_, validateResponse_fallbackResponse it prompt, fun _ => rfl⟩
      exact bind_eq_ok.mpr ⟨none, hr, rfl⟩
    | some v =>
      obtain ⟨c, hc, hok⟩ := hloop.accepts v hr
      refine ⟨v, bind_eq_ok.mpr ⟨some v, hr, rfl⟩, fixed_of_checkCandidate hok, ?_⟩
      intro hrejected
      exact absurd (hrejected c hc) (by rw [accepted_of_ok hok]; exact nofun)

/-- The text of a reply with an infinite colour. -/
def infiniteText : List ℕ :=
  str "\x7b\"commands\": [\x7b\"cmd\": \"CLEAR\", \"color\": 1e999\x7d]\x7d"

/-- An interpreter that decodes that text. -/
def infiniteInterpreter : Interpreter where
  toRuntime := oneTextRuntime infiniteText (.obj [(str "commands", .arr [.obj
    [(str "cmd", .str (str "CLEAR")), (str "color", .inf)]])])
  lower := List.map fun c => if 65 ≤ c ∧ c ≤ 90 then c + 32 else c
  errorText _ := []
  loads_object text v h := by
    simp only [oneTextRuntime] at h
    split_ifs at h
    exact ⟨_, (Except.ok.inj h).symm⟩

/-- An infinite colour in the first reply makes `generate_response` raise. -/
theorem infinite_color_escapes :
    (generateResponse infiniteInterpreter (fun _ _ => some infiniteText) (str "a house")).1 =
      .error .overflow := by
  decide +kernel

end Xv6Draw
