import Xv6Draw.CString
import Xv6Draw.Lib.Fallible
import Xv6Draw.Lib.PyText

/-!
# Validation of drawing commands

`validate_response` of `agent.py` turns whatever a model wrote into lines of the
drawing language or raises. Its result is the notation of instructions that obey
the limits of the language, with one `END` behind them, and such a text is a fixed
point of the validation.
-/

namespace Xv6Draw

open Decimal Fallible List PyText

/-- The commands of the drawing language. -/
inductive Command where
  | clear
  | pixel
  | line
  | rect
  | fillrect
  | circle
  | fillcircle
  | triangle
  | filltriangle
  | ellipse
  | fillellipse
  | polygon
  | fillpolygon
  | «end»
  deriving DecidableEq

/-- The keys of `COMMAND_ARITY`, in its order. -/
def Command.all : List Command :=
  [.clear, .pixel, .line, .rect, .fillrect, .circle, .fillcircle, .triangle, .filltriangle,
    .ellipse, .fillellipse, .polygon, .fillpolygon, .«end»]

/-- The name of a command. -/
def Command.name : Command → List ℕ
  | .clear => str "CLEAR"
  | .pixel => str "PIXEL"
  | .line => str "LINE"
  | .rect => str "RECT"
  | .fillrect => str "FILLRECT"
  | .circle => str "CIRCLE"
  | .fillcircle => str "FILLCIRCLE"
  | .triangle => str "TRIANGLE"
  | .filltriangle => str "FILLTRIANGLE"
  | .ellipse => str "ELLIPSE"
  | .fillellipse => str "FILLELLIPSE"
  | .polygon => str "POLYGON"
  | .fillpolygon => str "FILLPOLYGON"
  | .«end» => str "END"

/-- The values of `COMMAND_ARITY`. -/
def Command.arity : Command → Option ℕ
  | .clear => some 1
  | .pixel => some 3
  | .line => some 5
  | .rect => some 5
  | .fillrect => some 5
  | .circle => some 4
  | .fillcircle => some 4
  | .triangle => some 7
  | .filltriangle => some 7
  | .ellipse => some 5
  | .fillellipse => some 5
  | .polygon => none
  | .fillpolygon => none
  | .«end» => some 0

/-- The lookup of a word in `COMMAND_ARITY`. -/
def Command.ofName (word : List ℕ) : Option Command := Command.all.find? fun c => c.name = word

/-- One line of `normalize_candidate_text`; `none` is a skipped line. -/
def normalizeLine (u : Unicode) (rawLine : List ℕ) : Option (List ℕ) :=
  let line := strip rawLine
  if line = [] ∨ (str "```").isPrefixOf line then none
  else
    let line :=
      if 58 ∈ line then
        let parts := splitOnce 58 line
        if (Command.ofName (upper u (strip parts.1))).isSome then
          strip parts.1 ++ 32 :: strip parts.2
        else line
      else line
    let line := line.map fun c => if c = 44 ∨ c = 40 ∨ c = 41 then 32 else c
    match (split line).filter fun part => part ≠ str "-" ∧ part ≠ str "*" with
    | [] => none
    | part :: parts => some (joinSpace (upper u part :: parts))

/-- `normalize_candidate_text`. -/
def normalizeCandidateText (u : Unicode) (text : List ℕ) : List (List ℕ) :=
  (splitlines (text.map fun c => if c = 59 then 10 else c)).filterMap (normalizeLine u)

/-- What the validation can raise: a `ValueError` with its message, with the
literal that `int` does not read, or with a text in front of the error that caused
it, and the errors of the interpreter. -/
inductive PyError where
  | value (message : List ℕ)
  | literal (item : List ℕ)
  | caused (message : List ℕ) (cause : PyError)
  | index
  | type
  | overflow
  | attribute
  | key
  | recursion
  deriving DecidableEq

/-- The errors that are a `ValueError`. -/
def PyError.isValue : PyError → Bool
  | .value _ => true
  | .literal _ => true
  | .caused _ _ => true
  | _ => false

/-- `int(item)`. -/
def readInt (u : Unicode) (item : List ℕ) : Except PyError ℤ :=
  match int u item with
  | some v => .ok v
  | none => .error (.literal item)

/-- The arity checks of `validate_response` on the parts behind the command. -/
def checkArity (u : Unicode) (command : Command) (line : List ℕ) (args : List (List ℕ)) :
    Except PyError Unit :=
  match command.arity with
  | none =>
    if args.length + 1 < 8 then .error (.value (str "wrong arity for command: " ++ line))
    else do
      let count ← readInt u (args.headD [])
      if count < 3 ∨ 16 < count ∨ (args.length : ℤ) ≠ 2 + count * 2 then
        .error (.value (str "wrong arity for command: " ++ line))
      else .ok ()
  | some n =>
    if args.length ≠ n then .error (.value (str "wrong arity for command: " ++ line)) else .ok ()

/-- The values that `validate_response` checks as coordinates. -/
def Command.coords (command : Command) (values : List ℤ) : List ℤ :=
  match command with
  | .clear => []
  | .polygon => values.tail.dropLast
  | .fillpolygon => values.tail.dropLast
  | _ => values.dropLast

/-- The value that `validate_response` checks as a colour. -/
def Command.color (command : Command) (values : List ℤ) : ℤ :=
  match command with
  | .clear => values.headD 0
  | _ => values.getLastD 0

/-- The range checks of `validate_response`. -/
def checkValues (command : Command) (line : List ℕ) (values : List ℤ) : Except PyError Unit :=
  if ∃ v ∈ command.coords values, v < -4096 ∨ 4096 < v then
    .error (.value (str "unreasonable coordinate in line: " ++ line))
  else if ¬ (0 ≤ command.color values ∧ command.color values ≤ 15) then
    .error (.value (str "invalid color in line: " ++ line))
  else .ok ()

/-- The line that `validate_response` writes for a command. -/
def cleanLine (command : Command) (values : List ℤ) : List ℕ :=
  joinSpace (command.name :: values.map ofInt)

/-- The loop body of `validate_response` for a command other than `END`. -/
def validateCommand (u : Unicode) (command : Command) (line : List ℕ) (args : List (List ℕ)) :
    Except PyError (List ℕ) := do
  checkArity u command line args
  let values ← args.mapM (readInt u)
  checkValues command line values
  .ok (cleanLine command values)

/-- The loop of `validate_response`: the cleaned lines, `saw_end` and
`saw_command`. -/
def validateLoop (u : Unicode) : List (List ℕ) → List (List ℕ) → Bool →
    Except PyError (List (List ℕ) × Bool × Bool)
  | [], cleaned, sawCommand => .ok (cleaned, false, sawCommand)
  | line :: lines, cleaned, sawCommand =>
    match split line with
    | [] => .error .index
    | word :: args =>
      match Command.ofName word with
      | none => validateLoop u lines cleaned sawCommand
      | some command =>
        if command = .«end» then .ok (cleaned ++ [str "END"], true, true)
        else do
          let clean ← validateCommand u command line args
          validateLoop u lines (cleaned ++ [clean]) true

/-- `validate_response`. -/
def validateResponse (u : Unicode) (text : List ℕ) : Except PyError (List ℕ) := do
  let (cleaned, sawEnd, sawCommand) ← validateLoop u (normalizeCandidateText u text) [] false
  if sawCommand = false then .error (.value (str "no valid DSL commands found"))
  else .ok (joinNewline (if sawEnd then cleaned else cleaned ++ [str "END"]))

/-- The arity of the language: a polygon starts with the number of its points. -/
def HasArity (command : Command) (values : List ℤ) : Prop :=
  match command.arity with
  | some n => values.length = n
  | none => 3 ≤ values.headD 0 ∧ values.headD 0 ≤ 16 ∧ (values.length : ℤ) = 2 + values.headD 0 * 2

/-- An instruction of the language: a command other than `END` with values that
respect its arity and the limits on coordinates and colours. -/
structure Instr where
  command : Command
  values : List ℤ
  ne_end : command ≠ .«end»
  arity : HasArity command values
  /-- Coordinates and sizes are in range. -/
  coords : ∀ v ∈ command.coords values, -4096 ≤ v ∧ v ≤ 4096
  color : 0 ≤ command.color values ∧ command.color values ≤ 15

/-- The line of an instruction. -/
def Instr.line (i : Instr) : List ℕ := cleanLine i.command i.values

/-- The text of a drawing: its instructions and `END`. -/
def drawingText (instrs : List Instr) : List ℕ := joinNewline (instrs.map Instr.line ++ [str "END"])

/-- A line of a program in the language: an instruction, or `END`. -/
def itemLine : Option Instr → List ℕ
  | some i => i.line
  | none => str "END"

/-- The instructions before the first `END`. -/
def drawn : List (Option Instr) → List Instr
  | some i :: items => i :: drawn items
  | _ => []

@[simp] theorem Command.ofName_name (c : Command) : ofName c.name = some c := by
  cases c <;> rfl

theorem Command.name_of_ofName {word : List ℕ} {c : Command} (h : ofName word = some c) :
    c.name = word := by
  simpa using List.find?_some h

theorem Command.mem_name {c : Command} {k : ℕ} (hk : k ∈ c.name) : 65 ≤ k ∧ k ≤ 90 := by
  have hall : ∀ k ∈ c.name, 65 ≤ k ∧ k ≤ 90 := by
    cases c <;> decide
  exact hall k hk

theorem Command.two_le_length_name (c : Command) : 2 ≤ c.name.length := by
  cases c <;> decide

variable {u : Unicode} {command : Command} {line : List ℕ} {values : List ℤ} {v : ℤ}

/-- The arity checks establish the arity of the language for what `int` reads. -/
theorem hasArity_of_checkArity {args : List (List ℕ)} (hcheck : checkArity u command line args = .ok ())
    (hread : args.mapM (readInt u) = .ok values) : HasArity command values := by
  have hitems := forall₂_of_mapM hread
  have hlen := hitems.length_eq
  unfold checkArity at hcheck
  unfold HasArity
  cases harity : command.arity with
  | some n =>
    simp only [harity] at hcheck ⊢
    split_ifs at hcheck with hne
    omega
  | none =>
    simp only [harity] at hcheck ⊢
    split_ifs at hcheck with hshort
    obtain ⟨count, hcount, hrange⟩ := bind_eq_ok.mp hcheck
    split_ifs at hrange with hout
    cases hitems with
    | nil => simp at hshort
    | cons hfirst hrest =>
      have hhead : count = _ := Except.ok.inj (hcount.symm.trans hfirst)
      simp only [headD_cons, ← hhead, length_cons] at hlen hout ⊢
      omega

/-- A command that passes all checks is written as an instruction. -/
theorem exists_instr_of_validateCommand {clean : List ℕ}
    {args : List (List ℕ)} (hend : command ≠ .«end»)
    (h : validateCommand u command line args = .ok clean) : ∃ i : Instr, clean = i.line := by
  obtain ⟨_, harity, h⟩ := bind_eq_ok.mp h
  obtain ⟨values, hvalues, h⟩ := bind_eq_ok.mp h
  obtain ⟨_, hcheck, h⟩ := bind_eq_ok.mp h
  unfold checkValues at hcheck
  split_ifs at hcheck with hcoords hcolor
  refine ⟨⟨command, values, hend, hasArity_of_checkArity harity hvalues, ?_, hcolor⟩,
    (Except.ok.inj h).symm⟩
  intro v hv
  by_contra hout
  exact hcoords ⟨v, hv, by omega⟩

/-- The loop adds lines of instructions, and at most one `END` behind them. -/
theorem exists_instrs_of_validateLoop {lines cleaned cleaned' : List (List ℕ)}
    {saw sawEnd sawCommand : Bool}
    (h : validateLoop u lines cleaned saw = .ok (cleaned', sawEnd, sawCommand)) : ∃ instrs : List Instr,
      cleaned' = cleaned ++ instrs.map Instr.line ++ if sawEnd then [str "END"] else [] := by
  induction lines generalizing cleaned saw with
  | nil =>
    cases h
    exact ⟨[], by simp⟩
  | cons line lines ih =>
    rw [validateLoop] at h
    split at h
    · simp at h
    · next word args _ =>
      split at h
      · exact ih h
      · next command _ =>
        split_ifs at h with hend
        · cases h
          exact ⟨[], by simp⟩
        · obtain ⟨clean, hclean, hrest⟩ := bind_eq_ok.mp h
          obtain ⟨i, rfl⟩ := exists_instr_of_validateCommand hend hclean
          obtain ⟨instrs, rfl⟩ := ih hrest
          exact ⟨i :: instrs, by simp⟩

/-- What `validate_response` returns is the text of a drawing. -/
theorem exists_drawing_of_validateResponse {text r : List ℕ}
    (h : validateResponse u text = .ok r) : ∃ instrs, r = drawingText instrs := by
  obtain ⟨⟨cleaned, sawEnd, sawCommand⟩, hloop, h⟩ := bind_eq_ok.mp h
  obtain ⟨instrs, hcleaned⟩ := exists_instrs_of_validateLoop hloop
  refine ⟨instrs, ?_⟩
  simp only at h
  split_ifs at h with hsaw hend
  · rw [hend] at hcleaned
    rw [← Except.ok.inj h, hcleaned, drawingText]
    simp
  · rw [← Except.ok.inj h, hcleaned, drawingText, if_neg hend]
    simp

/-- A normalised line has a first word, so that looking for its command raises no
`IndexError`. -/
theorem split_normalizeLine_ne_nil {rawLine : List ℕ}
    (h : normalizeLine u rawLine = some line) : split line ≠ [] := by
  unfold normalizeLine at h
  simp only at h
  split_ifs at h
  all_goals
    split at h
    · simp at h
    · next part parts hparts =>
      have hwords : ∀ w ∈ part :: parts, IsWord w := by
        intro w hw
        rw [← hparts] at hw
        exact isWord_of_mem_split (mem_of_mem_filter hw)
      have hupper : ∀ w ∈ upper u part :: parts, IsWord w := by
        intro w hw
        rcases mem_cons.mp hw with rfl | hrest
        · exact isWord_upper u (hwords part (by simp))
        · exact hwords w (by simp [hrest])
      rw [← Option.some.inj h, split_joinSpace hupper]
      simp

variable (u : Unicode)

/-- The checks of one command raise a `ValueError` or pass. -/
theorem validateCommand_raises (command : Command) (line : List ℕ)
    (args : List (List ℕ)) : Raises (·.isValue = true) (validateCommand u command line args) := by
  have hread : ∀ item, Raises (·.isValue = true) (readInt u item) := by
    intro item
    unfold readInt
    split
    · exact raises_ok _ _
    · exact raises_error rfl
  have harity : Raises (·.isValue = true) (checkArity u command line args) := by
    unfold checkArity
    split
    · split_ifs
      · exact raises_error rfl
      · apply (hread _).bind
        intro count
        split_ifs
        · exact raises_error rfl
        · exact raises_ok _ _
    · split_ifs
      · exact raises_error rfl
      · exact raises_ok _ _
  have hvalues : ∀ values, Raises (·.isValue = true) (checkValues command line values) := by
    intro values
    unfold checkValues
    split_ifs
    · exact raises_error rfl
    · exact raises_ok _ _
    · exact raises_error rfl
  unfold validateCommand
  exact harity.bind fun _ => (raises_mapM hread args).bind fun values =>
    (hvalues values).bind fun _ => raises_ok _ _

/-- `validate_response` raises a `ValueError` or returns. -/
theorem validateResponse_raises (text : List ℕ) :
    Raises (·.isValue = true) (validateResponse u text) := by
  have hloop : ∀ lines : List (List ℕ), (∀ line ∈ lines, split line ≠ []) → ∀ cleaned saw,
      Raises (·.isValue = true) (validateLoop u lines cleaned saw) := by
    intro lines
    induction lines with
    | nil => exact fun _ _ _ => raises_ok _ _
    | cons line lines ih =>
      intro hsplit cleaned saw
      have hrest := ih fun l hl => hsplit l (by simp [hl])
      rw [validateLoop]
      split
      · next hnil => exact absurd hnil (hsplit line (by simp))
      · split
        · exact hrest cleaned saw
        · split_ifs
          · exact raises_ok _ _
          · exact (validateCommand_raises u _ line _).bind fun clean => hrest _ true
  unfold validateResponse
  apply Raises.bind
  · apply hloop
    intro line hline
    obtain ⟨rawLine, -, hnormal⟩ := mem_filterMap.mp hline
    exact split_normalizeLine_ne_nil hnormal
  · rintro ⟨cleaned, sawEnd, sawCommand⟩
    simp only
    split_ifs
    · exact raises_error rfl
    · exact raises_ok _ _
    · exact raises_ok _ _

/-- A value of a list is among the front ones, or the last one. -/
theorem mem_dropLast_or_eq_getLastD (hv : v ∈ values) (d : ℤ) :
    v ∈ values.dropLast ∨ v = values.getLastD d := by
  have hne : values ≠ [] := ne_nil_of_mem hv
  rw [← dropLast_append_getLast hne, mem_append, mem_singleton] at hv
  rw [getLastD_eq_getLast?, List.getLast?_eq_some_getLast hne]
  exact hv

/-- The values of an instruction are small. -/
theorem Instr.natAbs_le (i : Instr) (hv : v ∈ i.values) : v.natAbs ≤ 4096 := by
  obtain ⟨command, values, hend, harity, hcoords, hcolor⟩ := i
  simp only at hv
  have hplain : command.coords values = values.dropLast → command.color values = values.getLastD 0 →
      v.natAbs ≤ 4096 := by
    intro hfront hlast
    rw [hfront] at hcoords
    rcases mem_dropLast_or_eq_getLastD hv 0 with hmem | rfl
    · have hrange := hcoords v hmem
      omega
    · omega
  have hpolygon : command.arity = none → command.coords values = values.tail.dropLast →
      command.color values = values.getLastD 0 → v.natAbs ≤ 4096 := by
    intro hnone hmiddle hlast
    simp only [HasArity, hnone] at harity
    rw [hmiddle] at hcoords
    rw [hlast] at hcolor
    cases values with
    | nil => simp at hv
    | cons count rest =>
      simp only [headD_cons, tail_cons, getLastD_cons] at harity hcoords hcolor
      rcases mem_cons.mp hv with rfl | hrest
      · omega
      · rcases mem_dropLast_or_eq_getLastD hrest count with hmem | rfl
        · have hrange := hcoords v hmem
          omega
        · omega
  cases command with
  | clear =>
    obtain ⟨c, rfl⟩ := length_eq_one_iff.mp harity
    rw [mem_singleton] at hv
    subst v
    simp only [Command.color, headD_cons] at hcolor
    omega
  | polygon | fillpolygon => exact hpolygon rfl rfl rfl
  | «end» => exact absurd rfl hend
  | _ => exact hplain rfl rfl

theorem isWord_of_mem_cleanLine {w : List ℕ}
    (hw : w ∈ command.name :: values.map ofInt) : IsWord w := by
  rcases mem_cons.mp hw with rfl | hvalue
  · constructor
    · have hlen := command.two_le_length_name
      rintro hnil
      simp [hnil] at hlen
    · intro k hk
      have hletter := Command.mem_name hk
      exact isSpace_of_visible (by omega) (by omega)
  · obtain ⟨v, -, rfl⟩ := mem_map.mp hvalue
    exact isWord_ofInt v

/-- The characters of a cleaned line: spaces, digits, minus signs and capital
letters. -/
theorem of_mem_cleanLine {k : ℕ}
    (hk : k ∈ cleanLine command values) : k = 32 ∨ k = 45 ∨ IsDigit k ∨ (65 ≤ k ∧ k ≤ 90) := by
  rcases of_mem_joinSpace hk with rfl | ⟨w, hw, hkw⟩
  · exact .inl rfl
  · rcases mem_cons.mp hw with rfl | hvalue
    · exact .inr (.inr (.inr (Command.mem_name hkw)))
    · obtain ⟨v, -, rfl⟩ := mem_map.mp hvalue
      rcases of_mem_ofInt hkw with hdigit | hminus
      · exact .inr (.inr (.inl hdigit))
      · exact .inr (.inl hminus)

theorem cleanLine_ne_nil (command : Command) (values : List ℤ) : cleanLine command values ≠ [] := by
  have hlen := command.two_le_length_name
  rw [cleanLine, joinSpace_cons]
  intro hnil
  rw [(append_eq_nil_iff.mp hnil).1] at hlen
  simp at hlen

/-- No integer is written as a lone sign. -/
theorem ofInt_ne_sign (v : ℤ) : ofInt v ≠ str "-" ∧ ofInt v ≠ str "*" := by
  constructor
  · intro heq
    unfold ofInt at heq
    split_ifs at heq
    · exact decimal_ne_nil _ (List.cons.inj heq).2
    · have hdigit := isDigit_of_mem_decimal (n := v.natAbs) (c := 45) (by simp [heq, str])
      unfold IsDigit at hdigit
      omega
  · intro heq
    have hchar := of_mem_ofInt (z := v) (c := 42) (by simp [heq, str])
    unfold IsDigit at hchar
    omega

theorem split_cleanLine (command : Command) (values : List ℤ) :
    split (cleanLine command values) = command.name :: values.map ofInt :=
  split_joinSpace fun _ hw => isWord_of_mem_cleanLine hw

/-- Normalisation leaves a cleaned line alone. -/
theorem normalizeLine_cleanLine (command : Command) (values : List ℤ) :
    normalizeLine u (cleanLine command values) = some (cleanLine command values) := by
  have hstrip : strip (cleanLine command values) = cleanLine command values :=
    strip_joinSpace fun _ hw => isWord_of_mem_cleanLine hw
  have hfence : (str "```").isPrefixOf (cleanLine command values) = false := by
    rw [Bool.eq_false_iff, ne_eq, isPrefixOf_iff_prefix]
    intro hpre
    have hchar := of_mem_cleanLine (k := 96) (hpre.subset (by decide))
    unfold IsDigit at hchar
    omega
  have hcolon : 58 ∉ cleanLine command values := by
    intro hmem
    have hchar := of_mem_cleanLine hmem
    unfold IsDigit at hchar
    omega
  have hsame : (cleanLine command values).map (fun c => if c = 44 ∨ c = 40 ∨ c = 41 then 32 else c) =
      cleanLine command values := by
    conv_rhs => rw [← map_id (cleanLine command values)]
    apply map_congr_left
    intro k hk
    have hchar := of_mem_cleanLine hk
    unfold IsDigit at hchar
    exact if_neg (by omega)
  have hkeep : (command.name :: values.map ofInt).filter
      (fun part => part ≠ str "-" ∧ part ≠ str "*") = command.name :: values.map ofInt := by
    rw [filter_eq_self]
    intro w hw
    rw [decide_eq_true_eq]
    rcases mem_cons.mp hw with rfl | hvalue
    · have hlen := command.two_le_length_name
      constructor
      · intro heq
        simp [heq, str] at hlen
      · intro heq
        simp [heq, str] at hlen
    · obtain ⟨v, -, rfl⟩ := mem_map.mp hvalue
      exact ofInt_ne_sign v
  have hupper : upper u command.name = command.name := by
    apply upper_eq_self
    intro k hk
    have hletter := Command.mem_name hk
    omega
  simp only [normalizeLine, hstrip, hfence, cleanLine_ne_nil, hcolon, hsame, split_cleanLine, hkeep,
    hupper, or_self, Bool.false_eq_true, if_false]
  rfl

theorem itemLine_eq_cleanLine (item : Option Instr) :
    ∃ command values, itemLine item = cleanLine command values := by
  cases item with
  | none => exact ⟨.«end», [], rfl⟩
  | some i => exact ⟨i.command, i.values, rfl⟩

/-- Normalisation finds the lines of a program again. -/
theorem normalizeCandidateText_items (items : List (Option Instr)) :
    normalizeCandidateText u (joinNewline (items.map itemLine)) = items.map itemLine := by
  have hchars : ∀ l ∈ items.map itemLine, ∀ k ∈ l,
      k = 32 ∨ k = 45 ∨ IsDigit k ∨ (65 ≤ k ∧ k ≤ 90) := by
    intro l hl k hk
    obtain ⟨item, -, rfl⟩ := mem_map.mp hl
    obtain ⟨command, values, hline⟩ := itemLine_eq_cleanLine item
    rw [hline] at hk
    exact of_mem_cleanLine hk
  have hsemicolon : (joinNewline (items.map itemLine)).map (fun c => if c = 59 then 10 else c) =
      joinNewline (items.map itemLine) := by
    conv_rhs => rw [← map_id (joinNewline (items.map itemLine))]
    apply map_congr_left
    intro k hk
    refine if_neg ?_
    rcases of_mem_joinNewline hk with rfl | ⟨l, hl, hkl⟩
    · decide
    · have hchar := hchars l hl k hkl
      unfold IsDigit at hchar
      omega
  have hlines : splitlines (joinNewline (items.map itemLine)) = items.map itemLine := by
    apply splitlines_joinNewline
    intro l hl
    constructor
    · obtain ⟨item, -, rfl⟩ := mem_map.mp hl
      obtain ⟨command, values, hline⟩ := itemLine_eq_cleanLine item
      rw [hline]
      exact cleanLine_ne_nil command values
    · intro k hk
      have hchar := hchars l hl k hk
      unfold IsDigit at hchar
      exact isLineBreak_of_visible (by omega) (by omega)
  rw [normalizeCandidateText, hsemicolon, hlines, filterMap_map]
  conv_rhs => rw [← filterMap_eq_map]
  apply filterMap_congr
  intro item _
  obtain ⟨command, values, hline⟩ := itemLine_eq_cleanLine item
  simp only [Function.comp_apply, hline]
  exact normalizeLine_cleanLine u command values

theorem Instr.readInt_ofInt (i : Instr) (hv : v ∈ i.values) :
    readInt u (ofInt v) = .ok v := by
  have hsmall := i.natAbs_le hv
  rw [readInt, int_ofInt u (by omega)]

/-- An instruction passes the arity checks. -/
theorem Instr.checkArity_ok (i : Instr) (line : List ℕ) :
    checkArity u i.command line (i.values.map ofInt) = .ok () := by
  have harity := i.arity
  have hread := fun v => i.readInt_ofInt u (v := v)
  unfold HasArity at harity
  unfold checkArity
  cases hcase : i.command.arity with
  | some n =>
    simp only [hcase] at harity ⊢
    rw [length_map, if_neg (not_not.mpr harity)]
  | none =>
    simp only [hcase] at harity ⊢
    generalize i.values = values at harity hread ⊢
    cases values with
    | nil => simp at harity
    | cons count rest =>
      simp only [headD_cons, length_cons, map_cons, length_map] at harity ⊢
      rw [if_neg (by omega), hread count (by simp)]
      exact if_neg (by omega)

/-- An instruction passes all checks and is written again. -/
theorem Instr.validateCommand_ok (i : Instr) (line : List ℕ) :
    validateCommand u i.command line (i.values.map ofInt) = .ok i.line := by
  have hvalues : checkValues i.command line i.values = .ok () := by
    unfold checkValues
    rw [if_neg, if_neg (not_not.mpr i.color)]
    rintro ⟨v, hv, hout⟩
    have hrange := i.coords v hv
    omega
  rw [validateCommand, i.checkArity_ok u, mapM_map fun v hv => i.readInt_ofInt u hv]
  simp only [bind, Except.bind, hvalues]
  rfl

/-- The loop of the validation over the lines of a program. -/
theorem validateLoop_items (items : List (Option Instr)) (cleaned : List (List ℕ)) (saw : Bool) :
    validateLoop u (items.map itemLine) cleaned saw = .ok (cleaned ++ (drawn items).map Instr.line ++
          (if items.any Option.isNone then [str "END"] else []),
        items.any Option.isNone, saw || !items.isEmpty) := by
  induction items generalizing cleaned saw with
  | nil => simp [validateLoop, drawn]
  | cons item items ih =>
    cases item with
    | none =>
      have hsplit : split (str "END") = [Command.«end».name] := split_cleanLine .«end» []
      simp only [map_cons, itemLine, validateLoop, hsplit, Command.ofName_name, if_true]
      simp [drawn]
    | some i =>
      have hsplit : split i.line = i.command.name :: i.values.map ofInt := split_cleanLine _ _
      simp only [map_cons, itemLine, validateLoop, hsplit, Command.ofName_name,
        if_neg i.ne_end, i.validateCommand_ok u]
      rw [bind_eq_ok]
      refine ⟨i.line, rfl, ?_⟩
      rw [ih]
      simp only [drawn, any_cons, Option.isNone_some, Bool.false_or, map_cons,
        append_assoc, cons_append, nil_append, isEmpty_cons, Bool.not_false,
        Bool.or_true, Bool.true_or]

theorem drawn_append_none (instrs : List Instr) : drawn (instrs.map some ++ [none]) = instrs := by
  induction instrs with
  | nil => rfl
  | cons i instrs ih => rw [map_cons, cons_append, drawn, ih]

/-- A program with at least one line validates to its instructions before the
first `END`. -/
theorem validateResponse_items (items : List (Option Instr)) (hne : items ≠ []) :
    validateResponse u (joinNewline (items.map itemLine)) = .ok (drawingText (drawn items)) := by
  have hsome : items.isEmpty = false := by simpa using hne
  rw [validateResponse, normalizeCandidateText_items, validateLoop_items, bind_eq_ok]
  refine ⟨_, rfl, ?_⟩
  simp only [hsome, Bool.not_false, Bool.or_true, Bool.true_eq_false, if_false, nil_append]
  cases items.any Option.isNone with
  | true => rfl
  | false => simp [drawingText]

/-- The text of a drawing is a fixed point of the validation. -/
theorem validateResponse_drawingText (instrs : List Instr) :
    validateResponse u (drawingText instrs) = .ok (drawingText instrs) := by
  have htext : drawingText instrs = joinNewline ((instrs.map some ++ [none]).map itemLine) := by
    simp [drawingText, itemLine, Function.comp_def]
  have hvalid := validateResponse_items u (instrs.map some ++ [none]) (by simp)
  rw [← htext, drawn_append_none] at hvalid
  exact hvalid

end Xv6Draw
