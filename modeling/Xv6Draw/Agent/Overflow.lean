import Xv6Draw.Agent.Json
import Mathlib

/-!
# What the JSON validation raises

`validate_json_response` means to raise nothing but a `ValueError`. It catches what
`int` raises for most values, but not the `OverflowError` for an infinite number,
which the JSON decoder accepts. The values that the commands of a reply pass to
`int` are listed here in their order; the error gets out exactly when the first one
that `int` does not convert is infinite.
-/

namespace Xv6Draw

open Decimal Fallible List PyText

/-- The JSON values that `int` converts. -/
def Json.convertible (u : Unicode) : Json → Bool
  | .int _ => true
  | .bool _ => true
  | .float _ => true
  | .str s => (PyText.int u s).isSome
  | _ => false

/-- All of the values in a list of reads are there and convert. -/
def readable (u : Unicode) (reads : List (Option Json)) : Bool :=
  reads.all fun r => r.any (Json.convertible u)

/-- The first value in a list of reads that is missing or does not convert is an
infinite number. -/
def overflows (u : Unicode) : List (Option Json) → Bool
  | [] => false
  | none :: _ => false
  | some .inf :: _ => true
  | some v :: reads => v.convertible u && overflows u reads

/-- The values that `require_circle_radius` converts. Two radii of an ellipse that
differ count as a missing value. -/
def radiusReads (rt : Runtime) (command : List (List ℕ × Json)) : List (Option Json) :=
  match Json.field command "radius" with
  | some v => [some v]
  | none =>
    match Json.field command "r" with
    | some v => [some v]
    | none =>
      match Json.field command "rx", Json.field command "ry" with
      | some v, some w =>
        if toInt rt v = toInt rt w then [some v, some w] else [some v, some w, none]
      | some v, none => [some v]
      | none, some w => [some w]
      | none, none => [none]

/-- The values of a point. -/
def pointReads : Json → List (Option Json)
  | .arr [a, b] => [some a, some b]
  | _ => [none]

/-- The value under the first accepted name that a command has. -/
def fieldRead (command : List (List ℕ × Json)) (names : List String) : Option Json :=
  names.findSome? (Json.field command)

/-- The values of a polygon. -/
def polygonReads (command : List (List ℕ × Json)) : List (Option Json) :=
  match Json.field command "points" with
  | some (.arr points) =>
    if points.length < 3 ∨ 16 < points.length then [none]
    else points.flatMap pointReads ++ [fieldRead command ["color"]]
  | _ => [none]

/-- The values that a command passes to `int`, in their order. A command that does
not exist counts as a missing value. -/
def commandReads (rt : Runtime) (command : List (List ℕ × Json)) : List (Option Json) :=
  let fields := fun names => names.map (fieldRead command)
  match Command.ofName (commandName rt command) with
  | some .clear => fields [["color"]]
  | some .pixel => fields [["x"], ["y"], ["color"]]
  | some .line => fields [["x1"], ["y1"], ["x2"], ["y2"], ["color"]]
  | some .rect => fields [["x"], ["y"], ["w", "width"], ["h", "height"], ["color"]]
  | some .fillrect => fields [["x"], ["y"], ["w", "width"], ["h", "height"], ["color"]]
  | some .circle => fields [["x"], ["y"]] ++ radiusReads rt command ++ fields [["color"]]
  | some .fillcircle => fields [["x"], ["y"]] ++ radiusReads rt command ++ fields [["color"]]
  | some .triangle => fields [["x1"], ["y1"], ["x2"], ["y2"], ["x3"], ["y3"], ["color"]]
  | some .filltriangle => fields [["x1"], ["y1"], ["x2"], ["y2"], ["x3"], ["y3"], ["color"]]
  | some .ellipse => fields [["x"], ["y"], ["rx"], ["ry"], ["color"]]
  | some .fillellipse => fields [["x"], ["y"], ["rx"], ["ry"], ["color"]]
  | some .polygon => polygonReads command
  | some .fillpolygon => polygonReads command
  | some .«end» => []
  | none => [none]

/-- The values of an entry of the commands list. -/
def entryReads (rt : Runtime) : Json → List (Option Json)
  | .obj command => commandReads rt command
  | _ => [none]

/-- The errors of `int` that the JSON validation catches. -/
def PyError.isCaught (e : PyError) : Bool := e.isValue || e == .type

/-- A computation that converts values in their order: it succeeds when they all
convert, it overflows when the first one that does not is infinite, and it raises an
error that is caught otherwise. -/
structure Converts {α : Type} (u : Unicode) (x : Except PyError α) (reads : List (Option Json)) :
    Prop where
  ok_iff : (∃ a, x = .ok a) ↔ readable u reads = true
  overflow_iff : x = .error .overflow ↔ overflows u reads = true
  raises : Raises (fun e => e = .overflow ∨ e.isCaught = true) x

theorem readable_append (u : Unicode) (rs ss : List (Option Json)) :
    readable u (rs ++ ss) = (readable u rs && readable u ss) :=
  all_append

/-- The first failure of conversions one after the other. -/
theorem overflows_append (u : Unicode) (rs ss : List (Option Json)) :
    overflows u (rs ++ ss) = (overflows u rs || (readable u rs && overflows u ss)) := by
  induction rs with
  | nil => simp [overflows, readable]
  | cons r rs ih =>
    rw [cons_append]
    cases r with
    | none => simp [overflows, readable]
    | some v =>
      cases v with
      | inf => simp [overflows, readable]
      | _ =>
        simp only [overflows, ih, readable, all_cons, Option.any_some, Bool.and_assoc,
          Bool.and_or_distrib_left]

/-- No list of reads is readable and overflows at once. -/
theorem overflows_of_readable {u : Unicode} {reads : List (Option Json)}
    (h : readable u reads = true) : overflows u reads = false := by
  induction reads with
  | nil => rfl
  | cons r reads ih =>
    simp only [readable, all_cons, Bool.and_eq_true] at h
    cases r with
    | none => rfl
    | some v =>
      cases v with
      | inf => simp [Json.convertible] at h
      | _ => simp only [overflows, ih h.2, Bool.and_false]

section

variable {α β : Type} {u : Unicode}

theorem Converts.pure (a : α) : Converts u (.ok a) [] :=
  ⟨by simp [readable], by simp [overflows], raises_ok _ a⟩

theorem Converts.missing {e : PyError} (he : e.isCaught = true) :
    Converts u (.error e : Except PyError α) [none] := by
  refine ⟨by simp [readable], ?_, raises_error (.inr he)⟩
  constructor
  · intro heq
    rw [Except.error.inj heq] at he
    exact absurd he (by decide)
  · intro h
    simp [overflows] at h

/-- A sequence of conversions. -/
theorem Converts.bind {x : Except PyError α} {f : α → Except PyError β} {rs ss : List (Option Json)}
    (hx : Converts u x rs) (hf : ∀ a, x = .ok a → Converts u (f a) ss) :
    Converts u (x >>= f) (rs ++ ss) := by
  cases hcase : x with
  | ok a =>
    have hreadable : readable u rs = true := hx.ok_iff.mp ⟨a, hcase⟩
    have hrest := hf a hcase
    refine ⟨?_, ?_, hrest.raises⟩
    · rw [readable_append, hreadable, Bool.true_and]
      exact hrest.ok_iff
    · rw [overflows_append, hreadable, overflows_of_readable hreadable, Bool.false_or, Bool.true_and]
      exact hrest.overflow_iff
  | error e =>
    have hnot : readable u rs = false := by
      rw [Bool.eq_false_iff, ne_eq, ← hx.ok_iff]
      rintro ⟨a, heq⟩
      exact absurd (hcase.symm.trans heq) nofun
    refine ⟨?_, ?_, raises_error (hx.raises e hcase)⟩
    · rw [readable_append, hnot, Bool.false_and]
      simp [Bind.bind, Except.bind]
    · rw [overflows_append, hnot, Bool.false_and, Bool.or_false, ← hx.overflow_iff, hcase]
      simp [Bind.bind, Except.bind]

theorem Converts.map {x : Except PyError α} {rs : List (Option Json)} (hx : Converts u x rs)
    (f : α → β) : Converts u (x >>= fun a => .ok (f a)) rs := by
  rw [← append_nil rs]
  exact hx.bind fun a _ => pure (f a)

theorem Converts.mapM {f : α → Except PyError β} {reads : α → List (Option Json)}
    (hf : ∀ a, Converts u (f a) (reads a)) (as : List α) :
    Converts u (as.mapM f) (as.flatMap reads) := by
  induction as with
  | nil => exact pure []
  | cons a as ih =>
    rw [mapM_cons, flatMap_cons]
    exact (hf a).bind fun b _ => ih.map (b :: ·)

end

variable (rt : Runtime)

theorem toInt_converts (v : Json) : Converts rt.unicode (toInt rt v) [some v] := by
  have hcaught : ∀ e : PyError, e.isCaught = true → v.convertible rt.unicode = false →
      v ≠ .inf → toInt rt v = .error e → Converts rt.unicode (toInt rt v) [some v] := by
    intro e he hnot hinf heq
    have hoverflow : overflows rt.unicode [some v] = false := by
      cases v <;> simp_all [overflows]
    refine ⟨?_, ?_, ?_⟩
    · simp [heq, readable, hnot]
    · rw [heq, hoverflow]
      constructor
      · intro hsame
        rw [Except.error.inj hsame] at he
        exact absurd he (by decide)
      · simp
    · rw [heq]
      exact raises_error (.inr he)
  have hok : ∀ z : ℤ, v.convertible rt.unicode = true → toInt rt v = .ok z →
      Converts rt.unicode (toInt rt v) [some v] := by
    intro z hconv heq
    have hreadable : readable rt.unicode [some v] = true := by simp [readable, hconv]
    rw [heq]
    exact ⟨by simp [hreadable], by simp [overflows_of_readable hreadable], raises_ok _ z⟩
  cases v with
  | int z => exact hok z rfl rfl
  | bool b => exact hok _ rfl rfl
  | float q => exact hok _ rfl rfl
  | inf => exact ⟨by simp [toInt, readable, Json.convertible], by simp [toInt, overflows],
      raises_error (.inl rfl)⟩
  | nan => exact hcaught _ (by rfl) rfl (by simp) rfl
  | str s =>
    cases hint : PyText.int rt.unicode s with
    | some z => exact hok z (by simp [Json.convertible, hint]) (by simp [toInt, readInt, hint])
    | none =>
      exact hcaught (.literal s) rfl (by simp [Json.convertible, hint]) (by simp)
        (by simp [toInt, readInt, hint])
  | null => exact hcaught .type rfl rfl (by simp) rfl
  | arr items => exact hcaught .type rfl rfl (by simp) rfl
  | obj fields => exact hcaught .type rfl rfl (by simp) rfl

theorem requireInt_converts (command : List (List ℕ × Json)) (names : List String) :
    Converts rt.unicode (requireInt rt command names) [fieldRead command names] := by
  unfold requireInt fieldRead
  cases names.findSome? (Json.field command) with
  | some v => exact toInt_converts rt v
  | none => exact Converts.missing rfl

theorem requireCircleRadius_converts (command : List (List ℕ × Json)) :
    Converts rt.unicode (requireCircleRadius rt command) (radiusReads rt command) := by
  unfold requireCircleRadius radiusReads
  cases Json.field command "radius" with
  | some v => exact toInt_converts rt v
  | none =>
    cases Json.field command "r" with
    | some v => exact toInt_converts rt v
    | none =>
      cases Json.field command "rx" with
      | none =>
        cases Json.field command "ry" with
        | some w => exact toInt_converts rt w
        | none => exact Converts.missing rfl
      | some v =>
        cases Json.field command "ry" with
        | none => exact toInt_converts rt v
        | some w =>
          simp only
          by_cases hsame : toInt rt v = toInt rt w
          · -- the radius that is converted again converts again
            rw [if_pos hsame]
            refine (toInt_converts rt v).bind fun rx hrx => ?_
            refine (toInt_converts rt w).bind fun ry hry => ?_
            have heq : rx = ry := Except.ok.inj (hrx.symm.trans (hsame.trans hry))
            rw [if_neg (not_not.mpr heq), hrx]
            exact Converts.pure rx
          · rw [if_neg hsame]
            refine (toInt_converts rt v).bind fun rx hrx => ?_
            refine (toInt_converts rt w).bind fun ry hry => ?_
            have hne : rx ≠ ry := by
              rintro rfl
              exact hsame (hrx.trans hry.symm)
            rw [if_pos hne]
            exact Converts.missing rfl

/-- The line of a command with a fixed number of fields. -/
theorem dslLine_converts {u : Unicode} (cmd : List ℕ) {fields : List (Except PyError ℤ)}
    {reads : List (List (Option Json))} (h : List.Forall₂ (Converts u) fields reads) :
    Converts u (dslLine cmd fields) reads.flatten := by
  have hvalues : Converts u (fields.mapM id) reads.flatten := by
    induction h with
    | nil => exact Converts.pure []
    | cons hfield _ ih =>
      rw [mapM_cons, flatten_cons]
      exact hfield.bind fun v _ => ih.map (v :: ·)
  exact hvalues.map fun values => joinSpace (cmd :: values.map ofInt)

theorem pointInts_converts (cmd : List ℕ) (point : Json) :
    Converts rt.unicode (pointInts rt cmd point) (pointReads point) := by
  cases point with
  | arr items =>
    rcases items with _ | ⟨a, _ | ⟨b, _ | ⟨c, rest⟩⟩⟩
    · exact Converts.missing rfl
    · exact Converts.missing rfl
    · exact (toInt_converts rt a).bind fun x _ => (toInt_converts rt b).map fun y => [x, y]
    · exact Converts.missing rfl
  | _ => exact Converts.missing rfl

/-- The polygon branch of `command_to_dsl`. -/
theorem polygonToDsl_converts (command : List (List ℕ × Json)) (cmd : List ℕ) :
    Converts rt.unicode (polygonToDsl rt command cmd) (polygonReads command) := by
  unfold polygonToDsl polygonReads
  cases Json.field command "points" with
  | none => exact Converts.missing rfl
  | some v =>
    cases v with
    | arr points =>
      simp only
      split_ifs
      · exact Converts.missing rfl
      · refine (Converts.mapM (pointInts_converts rt cmd) points).bind fun coords _ => ?_
        exact (requireInt_converts rt command ["color"]).map _
    | _ => exact Converts.missing rfl

theorem commandToDsl_converts (command : List (List ℕ × Json)) :
    Converts rt.unicode (commandToDsl rt command) (commandReads rt command) := by
  have hfields : ∀ names : List (List String),
      List.Forall₂ (Converts rt.unicode) (names.map (requireInt rt command))
        (names.map fun n => [fieldRead command n]) := by
    intro names
    rw [List.forall₂_map_left_iff, List.forall₂_map_right_iff, List.forall₂_same]
    exact fun n _ => requireInt_converts rt command n
  have hplain : ∀ (cmd : List ℕ) (names : List (List String)),
      Converts rt.unicode (dslLine cmd (names.map (requireInt rt command)))
        (names.map (fieldRead command)) := by
    intro cmd names
    have hflat : (names.map fun n => [fieldRead command n]).flatten = names.map (fieldRead command) := by
      rw [← flatMap_def, ← map_eq_flatMap]
    rw [← hflat]
    exact dslLine_converts cmd (hfields names)
  have hcircle : ∀ cmd : List ℕ, Converts rt.unicode
      (dslLine cmd [requireInt rt command ["x"], requireInt rt command ["y"],
        requireCircleRadius rt command, requireInt rt command ["color"]])
      ([["x"], ["y"]].map (fieldRead command) ++ radiusReads rt command ++
        [["color"]].map (fieldRead command)) := by
    intro cmd
    have h := dslLine_converts cmd (List.Forall₂.cons (requireInt_converts rt command ["x"])
      (.cons (requireInt_converts rt command ["y"])
        (.cons (requireCircleRadius_converts rt command)
          (.cons (requireInt_converts rt command ["color"]) .nil))))
    simpa using h
  unfold commandToDsl commandReads
  simp only
  cases Command.ofName (commandName rt command) with
  | none => exact Converts.missing rfl
  | some c =>
    cases c with
    | clear => exact hplain _ [["color"]]
    | pixel => exact hplain _ [["x"], ["y"], ["color"]]
    | line => exact hplain _ [["x1"], ["y1"], ["x2"], ["y2"], ["color"]]
    | rect | fillrect => exact hplain _ [["x"], ["y"], ["w", "width"], ["h", "height"], ["color"]]
    | circle | fillcircle => exact hcircle _
    | triangle | filltriangle =>
      exact hplain _ [["x1"], ["y1"], ["x2"], ["y2"], ["x3"], ["y3"], ["color"]]
    | ellipse | fillellipse => exact hplain _ [["x"], ["y"], ["rx"], ["ry"], ["color"]]
    | polygon | fillpolygon => exact polygonToDsl_converts rt command _
    | «end» => exact Converts.pure _

/-- An entry of the commands list. What is caught becomes a `ValueError`. -/
theorem entryLine_converts (entry : Json) :
    Converts rt.unicode (entryLine rt entry) (entryReads rt entry) ∧
      Raises (fun e => e = .overflow ∨ e.isValue = true) (entryLine rt entry) := by
  cases entry with
  | obj command =>
    have hdsl := commandToDsl_converts rt command
    rw [entryLine, entryReads]
    cases hcase : commandToDsl rt command with
    | ok line =>
      rw [hcase] at hdsl
      exact ⟨hdsl, raises_ok _ line⟩
    | error e =>
      rw [hcase] at hdsl
      simp only [except]
      by_cases hoverflow : e = .overflow
      · subst e
        exact ⟨hdsl, raises_error (.inl rfl)⟩
      · have hcaught : (e.isValue || e == .type) = true :=
          (hdsl.raises e rfl).resolve_left hoverflow
        rw [if_pos hcaught]
        refine ⟨⟨?_, ?_, raises_error (.inr rfl)⟩, raises_error (.inr rfl)⟩
        · rw [← hdsl.ok_iff]
          simp
        · rw [← hdsl.overflow_iff]
          simp [hoverflow]
  | _ => exact ⟨Converts.missing rfl, raises_error (.inr rfl)⟩

/-- A reply on which `validate_json_response` raises something else than a
`ValueError`: the decoder does, as for an object that is nested too deeply, or the
first value of the commands that `int` does not convert is infinite. -/
def escapes (rt : Runtime) (text : List ℕ) : Bool :=
  match extractJsonObject text with
  | .error _ => false
  | .ok object =>
    match rt.loads object with
    | .error e => !e.isValue
    | .ok (.obj fields) =>
      match Json.field fields "commands" with
      | some (.arr entries) => overflows rt.unicode (entries.flatMap (entryReads rt))
      | _ => false
    | .ok _ => false

/-- What `extract_json_object` returns starts with a brace. -/
theorem extractJsonObject_brace {text object : List ℕ} (h : extractJsonObject text = .ok object) :
    ∃ rest, object = 123 :: rest := by
  unfold extractJsonObject at h
  simp only at h
  split_ifs at h with hshort
  obtain rfl := Except.ok.inj h
  have hprefix := rdropWhile_prefix (· ≠ 125) (text.dropWhile (· ≠ 123))
  have hne : (text.dropWhile (· ≠ 123)).rdropWhile (· ≠ 125) ≠ [] := by
    rintro hnil
    rw [hnil] at hshort
    simp at hshort
  cases hobject : (text.dropWhile (· ≠ 123)).rdropWhile (· ≠ 125) with
  | nil => exact absurd hobject hne
  | cons c rest =>
    obtain ⟨tail, htail⟩ := hprefix
    rw [hobject] at htail
    have hhead := List.head?_dropWhile_not (· ≠ 123) text
    rw [← htail] at hhead
    exact ⟨rest, by simpa using hhead⟩

/-- `validate_json_response` raises something else than a `ValueError` exactly on
the replies that escape. -/
theorem validateJsonResponse_escapes_iff
    (hobject : ∀ text v, rt.loads (123 :: text) = .ok v → ∃ fields, v = .obj fields) (text : List ℕ) :
    (∃ e, validateJsonResponse rt text = .error e ∧ e.isValue = false) ↔ escapes rt text = true := by
  have hother : ∀ e : PyError, e.isValue = true →
      ((∃ e', (.error e : Except PyError (List ℕ)) = .error e' ∧ e'.isValue = false) ↔
        false = true) := by
    intro e he
    constructor
    · rintro ⟨e', heq, hnot⟩
      rw [← Except.error.inj heq, he] at hnot
      exact absurd hnot (by decide)
    · exact nofun
  unfold validateJsonResponse escapes
  cases hextract : extractJsonObject text with
  | error e =>
    have hvalue : e.isValue = true := by
      unfold extractJsonObject at hextract
      simp only at hextract
      split_ifs at hextract
      rw [← Except.error.inj hextract]
      rfl
    simp only [bind, Except.bind, except, hvalue, if_true]
    exact hother _ rfl
  | ok object =>
    obtain ⟨rest, rfl⟩ := extractJsonObject_brace hextract
    cases hloads : rt.loads (123 :: rest) with
    | error e =>
      simp only [bind, Except.bind, except, hloads]
      cases hvalue : e.isValue with
      | true =>
        exact hother _ rfl
      | false =>
        simp only [Bool.false_eq_true, if_false, Bool.not_false, iff_true]
        exact ⟨e, rfl, hvalue⟩
    | ok v =>
      obtain ⟨fields, rfl⟩ := hobject rest v hloads
      simp only [bind, Except.bind, except, hloads]
      cases hcommands : Json.field fields "commands" with
      | none => exact hother _ rfl
      | some v =>
        cases v with
        | arr entries =>
          cases entries with
          | nil => exact hother _ rfl
          | cons entry entries =>
            have hconv := Converts.mapM (fun e => (entryLine_converts rt e).1) (entry :: entries)
            have hraises := raises_mapM (fun e => (entryLine_converts rt e).2) (entry :: entries)
            simp only [← hconv.overflow_iff]
            cases hlines : (entry :: entries).mapM (entryLine rt) with
            | ok lines =>
              simp only [reduceCtorEq, iff_false]
              rintro ⟨e, heq, hnot⟩
              have hvalue := validateResponse_raises rt.unicode _ e heq
              rw [hvalue] at hnot
              exact absurd hnot (by decide)
            | error e =>
              simp only [Except.error.injEq, exists_eq_left']
              rcases hraises e hlines with rfl | hvalue
              · exact ⟨fun _ => rfl, fun _ => rfl⟩
              · constructor
                · intro hnot
                  rw [hvalue] at hnot
                  exact absurd hnot (by decide)
                · rintro rfl
                  exact absurd hvalue (by decide)
        | _ => exact hother _ rfl

end Xv6Draw
