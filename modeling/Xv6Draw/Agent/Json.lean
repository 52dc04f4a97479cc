import Xv6Draw.Draw.Reply

/-!
# Replies in JSON

A model may answer with a JSON object that lists drawing commands.
`validate_json_response` of `agent.py` translates it to the drawing language and
validates the text. The drawing that a JSON command stands for is stated here on
its own, field by field, and the text is shown to make `aidraw` draw just that.
The JSON decoder and `str` are the interpreter's and enter as parameters.
-/

namespace Xv6Draw

open Decimal Fallible List Option PyText

/-- The values of `json.loads`. The keys of an object are distinct. -/
inductive Json where
  | null
  | bool (b : Bool)
  | int (z : ℤ)
  | float (q : ℚ)
  | inf
  | nan
  | str (s : List ℕ)
  | arr (items : List Json)
  | obj (fields : List (List ℕ × Json))

/-- What the agent uses of the interpreter. -/
structure Runtime where
  unicode : Unicode
  loads : List ℕ → Except PyError Json
  /-- `str` of a JSON value. -/
  text : Json → List ℕ
  text_str : ∀ s, text (.str s) = s

/-- A field of an object. -/
def Json.field (fields : List (List ℕ × Json)) (name : String) : Option Json :=
  fields.lookup (Xv6Draw.str name)

/-- `extract_json_object`. -/
def extractJsonObject (text : List ℕ) : Except PyError (List ℕ) :=
  let start := text.dropWhile (· ≠ 123)
  let object := start.rdropWhile (· ≠ 125)
  -- the last closing brace has to stand behind the first opening one
  if object.length < 2 then .error (.value (str "no JSON object found")) else .ok object

/-- `int` of a JSON value. -/
def toInt (rt : Runtime) : Json → Except PyError ℤ
  | .int z => .ok z
  | .bool b => .ok (if b then 1 else 0)
  | .float q => .ok (Int.tdiv q.num q.den)
  | .inf => .error .overflow
  | .nan => .error (.value (str "cannot convert float NaN to integer"))
  | .str s => readInt rt.unicode s
  | _ => .error .type

/-- `require_int`. -/
def requireInt (rt : Runtime) (command : List (List ℕ × Json)) (names : List String) :
    Except PyError ℤ :=
  match names.findSome? (Json.field command) with
  | some v => toInt rt v
  | none => .error (.value (str ("missing required field: " ++ "/".intercalate names)))

/-- `require_circle_radius`. -/
def requireCircleRadius (rt : Runtime) (command : List (List ℕ × Json)) : Except PyError ℤ :=
  match Json.field command "radius" with
  | some v => toInt rt v
  | none =>
    match Json.field command "r" with
    | some v => toInt rt v
    | none =>
      match Json.field command "rx", Json.field command "ry" with
      | some v, some w => do
        let rx ← toInt rt v
        let ry ← toInt rt w
        if rx ≠ ry then
          .error (.value (str "circle command used ellipse radii rx/ry with different values"))
        else toInt rt v
      | some v, none => toInt rt v
      | none, some w => toInt rt w
      | none, none => .error (.value (str "missing required field: radius/r/rx"))

/-- The formatted line of a command with a fixed number of fields. -/
def dslLine (cmd : List ℕ) (fields : List (Except PyError ℤ)) : Except PyError (List ℕ) := do
  let values ← fields.mapM id
  .ok (joinSpace (cmd :: values.map ofInt))

/-- A point of a polygon in `command_to_dsl`. -/
def pointInts (rt : Runtime) (cmd : List ℕ) : Json → Except PyError (List ℤ)
  | .arr [a, b] => do
    let x ← toInt rt a
    let y ← toInt rt b
    .ok [x, y]
  | _ => .error (.value (cmd ++ str " points must be [x, y] pairs"))

/-- The polygon branch of `command_to_dsl`. -/
def polygonToDsl (rt : Runtime) (command : List (List ℕ × Json)) (cmd : List ℕ) :
    Except PyError (List ℕ) :=
  match Json.field command "points" with
  | some (.arr points) =>
    if points.length < 3 ∨ 16 < points.length then
      .error (.value (cmd ++ str " requires 3 to 16 points"))
    else do
      let coords ← points.mapM (pointInts rt cmd)
      let color ← requireInt rt command ["color"]
      .ok (joinSpace (cmd :: ((points.length : ℤ) :: (coords.flatten ++ [color])).map ofInt))
  | _ => .error (.value (cmd ++ str " requires a points list"))

/-- The upper case form of the `cmd` field. -/
def commandName (rt : Runtime) (command : List (List ℕ × Json)) : List ℕ :=
  upper rt.unicode (match Json.field command "cmd" with
    | some v => rt.text v
    | none => [])

/-- `command_to_dsl`. -/
def commandToDsl (rt : Runtime) (command : List (List ℕ × Json)) : Except PyError (List ℕ) :=
  let cmd := commandName rt command
  let field := requireInt rt command
  match Command.ofName cmd with
  | some .clear => dslLine cmd [field ["color"]]
  | some .pixel => dslLine cmd [field ["x"], field ["y"], field ["color"]]
  | some .line =>
    dslLine cmd [field ["x1"], field ["y1"], field ["x2"], field ["y2"], field ["color"]]
  | some .rect =>
    dslLine cmd [field ["x"], field ["y"], field ["w", "width"], field ["h", "height"],
      field ["color"]]
  | some .fillrect =>
    dslLine cmd [field ["x"], field ["y"], field ["w", "width"], field ["h", "height"],
      field ["color"]]
  | some .circle =>
    dslLine cmd [field ["x"], field ["y"], requireCircleRadius rt command, field ["color"]]
  | some .fillcircle =>
    dslLine cmd [field ["x"], field ["y"], requireCircleRadius rt command, field ["color"]]
  | some .triangle =>
    dslLine cmd [field ["x1"], field ["y1"], field ["x2"], field ["y2"], field ["x3"],
      field ["y3"], field ["color"]]
  | some .filltriangle =>
    dslLine cmd [field ["x1"], field ["y1"], field ["x2"], field ["y2"], field ["x3"],
      field ["y3"], field ["color"]]
  | some .ellipse =>
    dslLine cmd [field ["x"], field ["y"], field ["rx"], field ["ry"], field ["color"]]
  | some .fillellipse =>
    dslLine cmd [field ["x"], field ["y"], field ["rx"], field ["ry"], field ["color"]]
  | some .polygon => polygonToDsl rt command cmd
  | some .fillpolygon => polygonToDsl rt command cmd
  | some .«end» => .ok (str "END")
  | none => .error (.value (str "unsupported command in JSON: " ++ cmd))

/-- An `except` clause that raises a `ValueError` with a text before the cause. -/
def except (caught : PyError → Bool) (message : List ℕ) {α : Type} (body : Except PyError α) :
    Except PyError α :=
  match body with
  | .ok a => .ok a
  | .error e => if caught e then .error (.caused message e) else .error e

/-- The line of one entry of the commands list. -/
def entryLine (rt : Runtime) : Json → Except PyError (List ℕ)
  | .obj command =>
    except (fun e => e.isValue || e == .type) (str "invalid JSON command: ") (commandToDsl rt command)
  | _ => .error (.value (str "each JSON command must be an object"))

/-- `validate_json_response`. -/
def validateJsonResponse (rt : Runtime) (text : List ℕ) : Except PyError (List ℕ) := do
  let payload ← except PyError.isValue (str "invalid JSON response: ") do
    let object ← extractJsonObject text
    rt.loads object
  match payload with
  | .obj fields =>
    match Json.field fields "commands" with
    | some (.arr (command :: commands)) => do
      let lines ← (command :: commands).mapM (entryLine rt)
      validateResponse rt.unicode (joinNewline lines)
    | _ => .error (.value (str "JSON response must contain a non-empty commands list"))
  | _ => .error .attribute

/-! ### What a JSON command stands for -/

/-- An interpreter that decodes one text. -/
def oneTextRuntime (object : List ℕ) (payload : Json) : Runtime where
  unicode := Unicode.ascii
  loads s := if s = object then .ok payload else .error (.value (str "Expecting value"))
  text
    | .str s => s
    | _ => []
  text_str _ := rfl

end Xv6Draw
