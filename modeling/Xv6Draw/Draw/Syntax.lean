import Xv6Draw.Draw.Reply
import Xv6Draw.Lib.Fields

/-!
# The syntax of command lines

What a command line means is said by its fields, the runs between blanks: a command name and
numbers. `parse_line` has no fields. Each number is read from a moving cursor, and a number
ends where its digits end. So a minus sign directly behind a digit starts a number as well,
and `parse_line` reads every line as if a blank stood in front of each such sign. On all other
lines it reads exactly the fields.
-/

namespace Xv6Draw

open Decimal Fields List Option

/-- Every run of digits has at most nine of them. -/
def ShortRuns (line : List ℕ) : Prop :=
  ∀ s, s <:+ line → (s.takeWhile fun c => decide (IsDigit c)).length ≤ 9

/-- The number that a field of the form `-?[0-9]+` stands for. -/
def fieldValue (field : List ℕ) : Option ℤ :=
  let digits := if field.head? = some 45 then field.tail else field
  let sign : ℤ := if field.head? = some 45 then -1 else 1
  if digits ≠ [] ∧ ∀ c ∈ digits, IsDigit c then some (sign * value digits) else none

instance (command : Command) (values : List ℤ) : Decidable (HasArity command values) :=
  match harity : command.arity with
  | some n => decidable_of_iff (values.length = n) (by simp only [HasArity, harity])
  | none => decidable_of_iff
      (3 ≤ values.headD 0 ∧ values.headD 0 ≤ 16 ∧ (values.length : ℤ) = 2 + values.headD 0 * 2)
      (by simp only [HasArity, harity])

/-- What a line says: nothing, the end, or a drawing call. `none` is a malformed line. -/
def lineMeaning (line : List ℕ) : Option (Option Call × Bool) :=
  match fields isBlank line with
  | [] => some (none, false)
  | name :: args =>
    if name = str "END" then if args = [] then some (none, true) else none
    else do
      let command ← Command.ofName name
      let values ← args.mapM fieldValue
      if HasArity command values then (denote command values).map fun call => (some call, false)
      else none

/-- The longest number of the form `-?[0-9]+` behind the blanks at a cursor, and what follows it. -/
def numberAt (cursor : List ℕ) : Option (ℤ × List ℕ) :=
  let text := skipSpaces cursor
  let sign := if text.head? = some 45 then 1 else 0
  let length := sign + ((text.drop sign).takeWhile fun c => decide (IsDigit c)).length
  (fieldValue (text.take length)).map (·, text.drop length)

/-- A minus sign stands directly behind a digit. -/
def Glued (line : List ℕ) : Prop := ∃ a c b, line = a ++ c :: 45 :: b ∧ IsDigit c

/-- The line with a blank in front of every minus sign that stands directly behind a digit. -/
def spread : List ℕ → List ℕ
  | [] => []
  | c :: cs => c :: if IsDigit c ∧ cs.head? = some 45 then 32 :: spread cs else spread cs

/-- The fields of a line with its glued minus signs set apart. -/
def spreadFields (cursor : List ℕ) : List (List ℕ) := fields isBlank (spread cursor)

/-! ### Blanks and digits -/

variable {c : ℕ} {ds line cursor name : List ℕ}

theorem not_isDigit_of_isBlank (hc : isBlank c = true) : ¬ IsDigit c := by
  simp only [isBlank, Bool.or_eq_true, beq_iff_eq] at hc
  unfold IsDigit
  omega

theorem head?_spread (cs : List ℕ) : (spread cs).head? = cs.head? := by
  cases cs <;> rfl

theorem spread_cons_of_not (hc : ¬ IsDigit c) (cs : List ℕ) :
    spread (c :: cs) = c :: spread cs := by
  rw [spread, if_neg (fun h => hc h.1)]

/-- Behind characters that are not digits nothing is set apart. -/
theorem spread_append_of_not {w : List ℕ} (hw : ∀ c ∈ w, ¬ IsDigit c) (cs : List ℕ) :
    spread (w ++ cs) = w ++ spread cs := by
  induction w with
  | nil => rfl
  | cons c w ih =>
    rw [cons_append, spread_cons_of_not (hw c (by simp)), ih (fun d hd => hw d (by simp [hd])),
      cons_append]

/-- Behind a number a minus sign is set apart. -/
theorem spread_digits (hne : ds ≠ []) (hds : ∀ c ∈ ds, IsDigit c) (cs : List ℕ) :
    spread (ds ++ cs) = ds ++ if cs.head? = some 45 then 32 :: spread cs else spread cs := by
  induction ds with
  | nil => exact absurd rfl hne
  | cons d ds ih =>
    have hd : IsDigit d := hds d (by simp)
    cases ds with
    | nil =>
      rw [singleton_append, spread, singleton_append]
      simp [hd]
    | cons e es =>
      have he : IsDigit e := hds e (by simp)
      have hhead : ¬ (IsDigit d ∧ ((e :: es) ++ cs).head? = some 45) := by
        rintro ⟨-, hminus⟩
        rw [cons_append, List.head?_cons, some.injEq] at hminus
        unfold IsDigit at he
        omega
      rw [cons_append, spread, if_neg hhead, ih (by simp) (fun c hc => hds c (by simp [hc]))]
      rfl

theorem spreadFields_skipSpaces (cursor : List ℕ) :
    spreadFields (skipSpaces cursor) = spreadFields cursor := by
  unfold spreadFields skipSpaces
  induction cursor with
  | nil => rfl
  | cons c cs ih =>
    by_cases hc : isBlank c = true
    · rw [dropWhile_cons_of_pos hc, ih, spread_cons_of_not (not_isDigit_of_isBlank hc),
        fields_cons_sep hc]
    · rw [dropWhile_cons_of_neg hc]

/-- A line without glued minus signs stays as it is. -/
theorem spread_of_not_glued (h : ¬ Glued line) : spread line = line := by
  induction line with
  | nil => rfl
  | cons c cs ih =>
    have hrest : ¬ Glued cs := by
      rintro ⟨a, d, b, rfl, hd⟩
      exact h ⟨c :: a, d, b, rfl, hd⟩
    have hhead : ¬ (IsDigit c ∧ cs.head? = some 45) := by
      rintro ⟨hc, hminus⟩
      obtain ⟨b, rfl⟩ := List.head?_eq_some_iff.mp hminus
      exact h ⟨[], c, b, rfl, hc⟩
    rw [spread, if_neg hhead, ih hrest]

/-! ### Numbers -/

/-- Digits in front of a line, and what stands behind them. -/
theorem exists_digits (cs : List ℕ) : ∃ ds rest, cs = ds ++ rest ∧ (∀ c ∈ ds, IsDigit c) ∧
    (∀ c ∈ rest.head?, ¬ IsDigit c) ∧ ds = cs.takeWhile fun c => decide (IsDigit c) := by
  refine ⟨cs.takeWhile fun c => decide (IsDigit c), cs.dropWhile fun c => decide (IsDigit c),
    (takeWhile_append_dropWhile).symm, ?_, ?_, rfl⟩
  · intro c hc
    simpa using mem_takeWhile_imp hc
  · intro c hc
    have hstop := List.head?_dropWhile_not (fun c => decide (IsDigit c)) cs
    rw [mem_def.mp hc] at hstop
    simpa using hstop

/-- A number of at most nine digits. -/
theorem value_lt (hds : ∀ c ∈ ds, IsDigit c) (hlen : ds.length ≤ 9) :
    value ds < 2 ^ 31 := by
  have hbound : ∀ (cs : List ℕ) (n : ℕ), (∀ c ∈ cs, IsDigit c) →
      cs.foldl (fun acc c => acc * 10 + (c - 48)) n < (n + 1) * 10 ^ cs.length := by
    intro cs
    induction cs with
    | nil => simp
    | cons c cs ih =>
      intro n hcs
      have hc : IsDigit c := hcs c (by simp)
      have hrest := ih (n * 10 + (c - 48)) (fun d hd => hcs d (by simp [hd]))
      unfold IsDigit at hc
      have hle : (n * 10 + (c - 48) + 1) * 10 ^ cs.length ≤ (n + 1) * 10 * 10 ^ cs.length :=
        Nat.mul_le_mul_right _ (by omega)
      rw [foldl_cons, length_cons, Nat.pow_succ]
      calc _ < _ := hrest
        _ ≤ _ := hle
        _ = _ := by ring
  have hvalue := hbound ds 0 hds
  have hpow : 10 ^ ds.length ≤ 10 ^ 9 := Nat.pow_le_pow_right (by decide) hlen
  unfold value
  omega

/-- A cursor that neither a number nor the end of the line follows. -/
def Stuck (cursor : List ℕ) : Prop := parseInt cursor = none ∧ lineDone cursor = false

/-- A cursor in front of a character that no number starts with. -/
theorem stuck_of_head {cs : List ℕ} (hblank : isBlank c = false) (hminus : c ≠ 45)
    (hdigit : ¬ IsDigit c) : Stuck (c :: cs) := by
  have hskip : skipSpaces (c :: cs) = c :: cs := dropWhile_cons_of_neg (by simp [hblank])
  have hdigits : parseDigits 1 (c :: cs) = none := by
    simp [parseDigits, digitLoop, hdigit]
  constructor
  · rw [parseInt, hskip]
    split
    · next heq => exact absurd (List.cons.inj heq).1 hminus
    · exact hdigits
  · rw [lineDone, hskip]
    rfl

/-- What `parse_int` finds at a cursor: the end of the line, a field that is a number, or a
malformed field, whose digits in front it may still read. -/
inductive Reads (cursor : List ℕ) : Prop where
  | done (hfields : spreadFields cursor = []) (hdone : lineDone cursor = true)
      (hint : parseInt cursor = none)
  | number (field : List ℕ) (rest : List (List ℕ)) (v : ℤ) (next : List ℕ)
      (hfields : spreadFields cursor = field :: rest) (hvalue : fieldValue field = some v)
      (hdone : lineDone cursor = false) (hint : parseInt cursor = some (v, next))
      (hnext : next <:+ cursor) (hrest : spreadFields next = rest)
  | malformed (field : List ℕ) (rest : List (List ℕ))
      (hfields : spreadFields cursor = field :: rest) (hvalue : fieldValue field = none)
      (hdone : lineDone cursor = false)
      (hint : parseInt cursor = none ∨ ∃ v next, parseInt cursor = some (v, next) ∧ Stuck next)

/-- A field that starts with a sign or not and goes on with digits. -/
theorem fieldValue_of_digits {sign : List ℕ} {s : ℤ} {more : List ℕ}
    (hsign : (sign = [] ∧ s = 1 ∧ (ds ++ more).head? ≠ some 45) ∨ (sign = [45] ∧ s = -1))
    (hds : ∀ c ∈ ds, IsDigit c) (hmore : ∀ c ∈ more.head?, ¬ IsDigit c) :
    fieldValue (sign ++ (ds ++ more)) =
      if ds ≠ [] ∧ more = [] then some (s * value ds) else none := by
  have hall : (∀ c ∈ ds ++ more, IsDigit c) ↔ more = [] := by
    constructor
    · intro h
      cases more with
      | nil => rfl
      | cons c more => exact absurd (h c (by simp)) (hmore c (by simp))
    · rintro rfl c hc
      exact hds c (by simpa using hc)
  have hdigits : ds ++ more ≠ [] ∧ (∀ c ∈ ds ++ more, IsDigit c) ↔ ds ≠ [] ∧ more = [] := by
    rw [hall]
    constructor
    · rintro ⟨hne, rfl⟩
      exact ⟨by simpa using hne, rfl⟩
    · rintro ⟨hne, rfl⟩
      exact ⟨by simpa using hne, rfl⟩
  rcases hsign with ⟨rfl, rfl, hhead⟩ | ⟨rfl, rfl⟩
  · simp only [fieldValue, nil_append, if_neg hhead, hdigits]
    split_ifs with hnumber
    · rw [hnumber.2, append_nil]
    · rfl
  · simp only [fieldValue, singleton_append, List.head?_cons, if_true, tail_cons, hdigits]
    split_ifs with hnumber
    · rw [hnumber.2, append_nil]
    · rfl

/-- The sign that `parse_int` finds behind the blanks. -/
theorem exists_sign (cursor : List ℕ) : ∃ (sign : List ℕ) (s : ℤ) (body : List ℕ),
    skipSpaces cursor = sign ++ body ∧ ((sign = [] ∧ s = 1 ∧ body.head? ≠ some 45) ∨
      (sign = [45] ∧ s = -1)) ∧ parseInt cursor = parseDigits s body := by
  unfold parseInt
  split
  · next cs hcur => exact ⟨[45], -1, cs, hcur, .inr ⟨rfl, rfl⟩, rfl⟩
  · next hne =>
    refine ⟨[], 1, skipSpaces cursor, rfl, .inl ⟨rfl, rfl, ?_⟩, rfl⟩
    intro hhead
    obtain ⟨cs, hcs⟩ := List.head?_eq_some_iff.mp hhead
    exact hne cs hcs

/-- `parse_int` stores the number at the cursor, modulo `2 ^ 32`. -/
theorem parseInt_eq (cursor : List ℕ) :
    parseInt cursor = (numberAt cursor).map fun r => (wrap32 r.1, r.2) := by
  obtain ⟨sign, s, body, hbody, hsign, hint⟩ := exists_sign cursor
  obtain ⟨ds, rest, rfl, hds, hrest, htake⟩ := exists_digits body
  have hsigned : (if (sign ++ (ds ++ rest)).head? = some 45 then 1 else 0) = sign.length := by
    rcases hsign with ⟨rfl, -, hhead⟩ | ⟨rfl, -⟩
    · exact if_neg hhead
    · rfl
  have hvalue : fieldValue (sign ++ (ds ++ [])) =
      if ds ≠ [] ∧ ([] : List ℕ) = [] then some (s * value ds) else none := by
    refine fieldValue_of_digits (hsign.imp_left fun ⟨hnil, hone, hhead⟩ => ⟨hnil, hone, ?_⟩) hds nofun
    cases ds with
    | nil => exact nofun
    | cons d ds => exact hhead
  have hnumber : numberAt cursor = (fieldValue (sign ++ ds)).map (·, rest) := by
    simp only [numberAt, hbody]
    rw [hsigned, drop_left, ← htake, ← length_append, ← append_assoc, take_left, drop_left]
  rw [append_nil] at hvalue
  rw [hint, parseDigits_digits hds hrest, hnumber, hvalue]
  by_cases hne : ds = []
  · simp [hne]
  · simp [hne]

/-- What stands behind the digits of a number when minus signs are set apart. -/
theorem spread_field (hds : ∀ c ∈ ds, IsDigit c) (rest : List ℕ) :
    ∃ tail, spread (ds ++ rest) = ds ++ tail ∧ fields isBlank tail = spreadFields rest ∧
      (tail.head? = rest.head? ∧ (ds ≠ [] → rest.head? ≠ some 45) ∨ tail.head? = some 32) := by
  by_cases hne : ds = []
  · subst hne
    exact ⟨spread rest, rfl, rfl, .inl ⟨head?_spread rest, fun h => absurd rfl h⟩⟩
  · refine ⟨_, spread_digits hne hds rest, ?_, ?_⟩
    · split_ifs
      · exact fields_cons_sep (by decide) _
      · rfl
    · split_ifs with hminus
      · exact .inr rfl
      · exact .inl ⟨head?_spread rest, fun _ => hminus⟩

/-- What `parse_int` does at a cursor. -/
theorem reads (hruns : ShortRuns cursor) : Reads cursor := by
  have hsuffix : skipSpaces cursor <:+ cursor := dropWhile_suffix _
  have hskip := spreadFields_skipSpaces cursor
  cases hcur : skipSpaces cursor with
  | nil =>
    rw [hcur] at hskip
    exact .done hskip.symm (by rw [lineDone, hcur]; rfl) (by rw [parseInt, hcur]; rfl)
  | cons c cs =>
    rw [hcur] at hskip hsuffix
    have hblank : isBlank c = false := by
      have hstop := List.head?_dropWhile_not isBlank cursor
      unfold skipSpaces at hcur
      rw [hcur] at hstop
      exact hstop
    have hdone : lineDone cursor = false := by rw [lineDone, hcur]; rfl
    -- the sign, the digits and what stands behind them
    obtain ⟨sign, s, body, hbody, hsign, hint⟩ := exists_sign cursor
    rw [hcur] at hbody
    obtain ⟨ds, rest, rfl, hds, hrest, htake⟩ := exists_digits body
    have hlen : ds.length ≤ 9 := by
      rw [htake]
      exact hruns _ ((hbody ▸ suffix_append sign _).trans hsuffix)
    rw [parseDigits_small hds hrest (value_lt hds hlen) (by rcases hsign with h | h <;> simp [h])] at hint
    obtain ⟨tail, htail, hfields, hhead⟩ := spread_field hds rest
    -- the first field is the sign, the digits and what follows them up to a blank
    have hspread : spread (c :: cs) = (sign ++ ds) ++ tail := by
      rw [hbody, spread_append_of_not (by rcases hsign with h | h <;> simp [h, IsDigit]), htail,
        append_assoc]
    have hword : ∀ d ∈ sign ++ ds, (!isBlank d) = true := by
      intro d hd
      rcases mem_append.mp hd with hmem | hmem
      · rcases hsign with ⟨rfl, -⟩ | ⟨rfl, -⟩
        · simp at hmem
        · rw [mem_singleton.mp hmem]
          rfl
      · have hdigit := hds d hmem
        cases hd' : isBlank d with
        | false => rfl
        | true => exact absurd hdigit (not_isDigit_of_isBlank hd')
    have hfield : spreadFields cursor =
        (sign ++ (ds ++ tail.takeWhile fun d => !isBlank d)) ::
          fields isBlank (tail.dropWhile fun d => !isBlank d) := by
      have hfirst : fields isBlank (spread (c :: cs)) =
          ((spread (c :: cs)).takeWhile fun d => !isBlank d) ::
            fields isBlank ((spread (c :: cs)).dropWhile fun d => !isBlank d) := by
        rw [spread, fields_cons hblank, takeWhile_cons_of_pos (by simp [hblank]),
          dropWhile_cons_of_pos (by simp [hblank])]
      rw [← hskip, spreadFields, hfirst, hspread, takeWhile_append_of_pos hword,
        dropWhile_append_of_pos hword, append_assoc]
    have hmore : ∀ d ∈ (tail.takeWhile fun d => !isBlank d).head?, isBlank d = false ∧
        rest.head? = some d := by
      intro d hd
      cases tail with
      | nil => simp at hd
      | cons e tail =>
        by_cases he : isBlank e = true
        · rw [takeWhile_cons_of_neg (by simp [he])] at hd
          simp at hd
        · rw [takeWhile_cons_of_pos (by simpa using he)] at hd
          obtain rfl : e = d := by simpa using hd
          refine ⟨by simpa using he, ?_⟩
          rcases hhead with ⟨heq, -⟩ | h32
          · exact heq.symm
          · cases h32
            exact absurd rfl he
    generalize hmoredef : (tail.takeWhile fun d => !isBlank d) = more at hfield hmore
    have hvalue : fieldValue (sign ++ (ds ++ more)) =
        if ds ≠ [] ∧ more = [] then some (s * value ds) else none := by
      refine fieldValue_of_digits ?_ hds (fun d hd => hrest d (hmore d hd).2)
      rcases hsign with ⟨hnil, hone, hbodyhead⟩ | hminus
      · refine .inl ⟨hnil, hone, ?_⟩
        intro hhead45
        apply hbodyhead
        cases ds with
        | nil => exact (hmore 45 hhead45).2
        | cons d ds => exact hhead45
      · exact .inr hminus
    by_cases hnumber : ds ≠ [] ∧ more = []
    · rw [if_pos hnumber] at hvalue
      rw [if_neg hnumber.1] at hint
      have hleft : (tail.dropWhile fun d => !isBlank d) = tail := by
        have hsplit := takeWhile_append_dropWhile (p := fun d => !isBlank d) (l := tail)
        rwa [hmoredef, hnumber.2, nil_append] at hsplit
      refine .number _ _ _ rest hfield hvalue hdone hint ?_ ?_
      · rw [hbody] at hsuffix
        exact ((suffix_append ds rest).trans (suffix_append sign _)).trans hsuffix
      · rw [hleft, hfields]
    · rw [if_neg hnumber] at hvalue
      refine .malformed _ _ hfield hvalue hdone ?_
      by_cases hne : ds = []
      · exact .inl (by rw [hint, if_pos hne])
      · refine .inr ⟨_, rest, by rw [hint, if_neg hne], ?_⟩
        obtain ⟨d, hd⟩ : ∃ d, d ∈ more.head? := by
          cases more with
          | nil => exact absurd ⟨hne, rfl⟩ hnumber
          | cons d more => exact ⟨d, rfl⟩
        obtain ⟨hdblank, hdrest⟩ := hmore d hd
        have hnotminus : d ≠ 45 := by
          rintro rfl
          rcases hhead with ⟨-, hminus⟩ | h32
          · exact hminus hne hdrest
          · -- the digits are followed by a blank, not by more of the field
            cases tail with
            | nil => simp at h32
            | cons e tail =>
              obtain rfl : e = 32 := by simpa using h32
              rw [takeWhile_cons_of_neg (by decide)] at hmoredef
              rw [← hmoredef] at hd
              simp at hd
        obtain ⟨rest', rfl⟩ := List.head?_eq_some_iff.mp hdrest
        exact stuck_of_head hdblank hnotminus (hrest d rfl)

/-- `parse_int` fails or stores exactly the number at the cursor, if and only if that number is
one of 32 bits. -/
theorem parse_int_exact_iff (cursor : List ℕ) :
    parseInt cursor = none ∨ parseInt cursor = numberAt cursor ↔
      ∀ v rest, numberAt cursor = some (v, rest) → -2 ^ 31 ≤ v ∧ v < 2 ^ 31 := by
  rw [parseInt_eq]
  cases numberAt cursor with
  | none => simp
  | some r =>
    have hwrap : wrap32 r.1 = r.1 ↔ -2 ^ 31 ≤ r.1 ∧ r.1 < 2 ^ 31 := by
      refine ⟨fun heq => ?_, fun hsmall => wrap32_eq_self hsmall.1 hsmall.2⟩
      rw [wrap32, Int.bmod_def] at heq
      omega
    constructor
    · rintro (hnone | heq) v rest ⟨⟩
      · exact nomatch hnone
      · exact hwrap.mp (Prod.mk.inj (some.inj heq)).1
    · intro hsmall
      exact .inr (congrArg some (Prod.ext (hwrap.mpr (hsmall r.1 r.2 rfl)) rfl))

/-- The number of points of a polygon, which bounds two arrays, wraps to a legal one. -/
theorem parse_int_wraps : numberAt (str " 4294967299 0") = some (4294967299, str " 0") ∧
    parseInt (str " 4294967299 0") = some (3, str " 0") :=
  ⟨by decide, by decide⟩

/-! ### Arguments -/

theorem ShortRuns.suffix (h : ShortRuns line) (hsuffix : cursor <:+ line) :
    ShortRuns cursor := fun s hs => h s (hs.trans hsuffix)

theorem parseArgs_zero (cursor : List ℕ) :
    parseArgs 0 cursor = if lineDone cursor then some [] else none := rfl

/-- One argument and the others. -/
theorem parseArgs_succ (n : ℕ) (cursor : List ℕ) : parseArgs (n + 1) cursor =
    (parseInt cursor).bind fun r => (parseArgs n r.2).map fun vs => r.1 :: vs := by
  unfold parseArgs
  rw [parseInts]
  cases parseInt cursor with
  | none => rfl
  | some r =>
    simp only [bind_eq_bind, bind_some]
    cases parseInts n r.2 with
    | none => rfl
    | some q =>
      simp only [bind_some]
      split_ifs <;> rfl

theorem Stuck.parseArgs (h : Stuck cursor) (n : ℕ) :
    parseArgs n cursor = none := by
  cases n with
  | zero => rw [parseArgs_zero, h.2]; rfl
  | succ n => rw [parseArgs_succ, h.1]; rfl

/-- The arguments of a command are its fields, as many as it has. -/
theorem parseArgs_eq (n : ℕ) (hruns : ShortRuns cursor) :
    parseArgs n cursor = ((spreadFields cursor).mapM fieldValue).bind
      fun vs => if vs.length = n then some vs else none := by
  induction n generalizing cursor with
  | zero =>
    rw [parseArgs_zero]
    cases reads hruns with
    | done hfields hdone hint => rw [hfields, hdone]; rfl
    | number field rest v next hfields hvalue hdone hint hnext hrest =>
      rw [hfields, hdone, mapM_cons, hvalue]
      cases rest.mapM fieldValue <;> simp
    | malformed field rest hfields hvalue hdone hint =>
      rw [hfields, hdone, mapM_cons, hvalue]
      rfl
  | succ n ih =>
    rw [parseArgs_succ]
    cases reads hruns with
    | done hfields hdone hint => rw [hfields, hint]; rfl
    | number field rest v next hfields hvalue hdone hint hnext hrest =>
      rw [hint, bind_some, ih (hruns.suffix hnext), hrest, hfields, mapM_cons, hvalue]
      cases rest.mapM fieldValue with
      | none => rfl
      | some vs =>
        simp only [bind_some, bind_eq_bind, Option.pure_def, length_cons, Nat.add_right_cancel_iff]
        split_ifs <;> rfl
    | malformed field rest hfields hvalue hdone hint =>
      rw [hfields, mapM_cons, hvalue]
      rcases hint with hnone | ⟨v, next, hsome, hstuck⟩
      · rw [hnone]
        rfl
      · rw [hsome, bind_some, hstuck.parseArgs]
        rfl

/-- The last of several calls of `parse_int`. -/
theorem parseInts_succ_last (n : ℕ) (cursor : List ℕ) : parseInts (n + 1) cursor =
    (parseInts n cursor).bind fun r => (parseInt r.2).map fun q => (r.1 ++ [q.1], q.2) := by
  induction n generalizing cursor with
  | zero =>
    simp only [parseInts, bind_some]
    cases parseInt cursor <;> rfl
  | succ n ih =>
    rw [parseInts]
    conv_rhs => rw [parseInts]
    cases parseInt cursor with
    | none => rfl
    | some r =>
      simp only [bind_eq_bind, bind_some, ih]
      cases parseInts n r.2 with
      | none => rfl
      | some q =>
        simp only [bind_some]
        cases parseInt q.2 <;> rfl

/-- The point loop reads two numbers for each point. -/
theorem parsePoints_eq (n : ℕ) (cursor : List ℕ) : parsePoints n cursor =
    (parseInts (2 * n) cursor).map fun r => (abscissas r.1, ordinates r.1, r.2) := by
  induction n generalizing cursor with
  | zero => rfl
  | succ n ih =>
    rw [parsePoints, show 2 * (n + 1) = 2 * n + 1 + 1 by ring, parseInts]
    cases parseInt cursor with
    | none => rfl
    | some r =>
      simp only [bind_eq_bind, bind_some, parseInts]
      cases parseInt r.2 with
      | none => rfl
      | some q =>
        simp only [bind_some, ih]
        cases parseInts (2 * n) q.2 <;> rfl

/-- A polygon is its count and as many arguments as this says. -/
theorem parsePolygon_eq (call : List ℤ → List ℤ → ℤ → Call) (cursor : List ℕ) :
    parsePolygon call cursor = (parseInt cursor).bind fun r =>
      if r.1 < 3 ∨ polygonMaxPoints < r.1 then none
      else (parseArgs (2 * r.1.toNat + 1) r.2).map fun vs =>
        call (abscissas vs.dropLast) (ordinates vs.dropLast) (vs.getLastD 0) := by
  unfold parsePolygon
  cases parseInt cursor with
  | none => rfl
  | some r =>
    simp only [bind_eq_bind, bind_some]
    split_ifs
    · rfl
    · rw [parsePoints_eq, parseArgs, parseInts_succ_last]
      cases parseInts (2 * r.1.toNat) r.2 with
      | none => rfl
      | some q =>
        simp only [map_some, bind_some, bind_eq_bind]
        cases parseInt q.2 with
        | none => rfl
        | some p =>
          simp only [map_some, bind_some]
          split_ifs
          · simp
          · rfl

/-! ### Command names -/

/-- Letters only, as in a command name. -/
def IsName (name : List ℕ) : Prop := name ≠ [] ∧ ∀ c ∈ name, 65 ≤ c ∧ c ≤ 90

/-- The characters of a name are neither blanks nor digits. -/
theorem IsName.mem (h : IsName name) (hc : c ∈ name) :
    isBlank c = false ∧ ¬ IsDigit c ∧ c ≠ 0 := by
  have hletter := h.2 c hc
  refine ⟨?_, ?_, by omega⟩
  · simp only [isBlank, Bool.or_eq_false_iff, beq_eq_false_iff_ne]
    omega
  · unfold IsDigit
    omega

/-- A name in front of a blank or the end of the line. -/
theorem matchCommand_eq_some_iff {rest : List ℕ} (hname : IsName name)
    (hnul : 0 ∉ cursor) : matchCommand cursor name = some rest ↔
      cursor = name ++ rest ∧ ∀ c ∈ rest.head?, isBlank c = true := by
  have hstarts : strncmp cursor name name.length = 0 ↔ name <+: cursor :=
    strncmp_eq_zero_iff (fun h => (hname.mem h).2.2 rfl)
  have hrest : ∀ r : List ℕ, 0 ∉ r →
      (¬ (r.headD 0 ≠ 0 ∧ (!isBlank (r.headD 0)) = true) ↔ ∀ c ∈ r.head?, isBlank c = true) := by
    intro r hr
    cases r with
    | nil => simp
    | cons c r =>
      have hc : c ≠ 0 := fun h => hr (by simp [h])
      simp [hc]
  rw [matchCommand]
  by_cases hpre : name <+: cursor
  · rw [if_neg (not_not.mpr (hstarts.mpr hpre))]
    obtain ⟨r, rfl⟩ := hpre
    have hr : 0 ∉ r := fun h => hnul (mem_append_right _ h)
    rw [drop_left]
    split_ifs with hnext
    · constructor
      · rintro ⟨⟩
      · rintro ⟨heq, hblank⟩
        obtain rfl := append_cancel_left heq
        exact absurd hnext ((hrest _ hr).mpr hblank)
    · constructor
      · rintro ⟨rfl⟩
        exact ⟨rfl, (hrest _ hr).mp hnext⟩
      · rintro ⟨heq, -⟩
        rw [append_cancel_left heq]
  · rw [if_pos (fun h => hpre (hstarts.mp h))]
    constructor
    · rintro ⟨⟩
    · rintro ⟨rfl, -⟩
      exact absurd (prefix_append _ _) hpre

/-- Setting minus signs apart behind a name. -/
theorem eq_append_of_spread {tail : List ℕ} (hname : ∀ c ∈ name, ¬ IsDigit c)
    (h : spread cursor = name ++ tail) : ∃ rest, cursor = name ++ rest ∧ spread rest = tail := by
  induction name generalizing cursor with
  | nil => exact ⟨cursor, rfl, h⟩
  | cons c name ih =>
    cases cursor with
    | nil => simp [spread] at h
    | cons d cursor =>
      have hd : d = c := by
        have hhead := congrArg List.head? h
        rw [head?_spread] at hhead
        simpa using hhead
      subst hd
      rw [spread_cons_of_not (hname d (by simp)), cons_append] at h
      obtain ⟨rest, rfl, hrest⟩ := ih (fun e he => hname e (by simp [he])) (List.cons.inj h).2
      exact ⟨rest, rfl, hrest⟩

/-- A name that is the first field is found by `match_command`, and no other one is. -/
theorem matchCommand_spreadFields (hname : IsName name) (hnul : 0 ∉ cursor)
    (hblank : ∀ c ∈ cursor.head?, isBlank c = false) :
    (∃ rest, matchCommand cursor name = some rest ∧ rest <:+ cursor ∧
      spreadFields cursor = name :: spreadFields rest) ∨
    (matchCommand cursor name = none ∧ (spreadFields cursor).head? ≠ some name) := by
  have hword : ∀ c ∈ name, isBlank c = false := fun c hc => (hname.mem hc).1
  have hletters : ∀ c ∈ name, ¬ IsDigit c := fun c hc => (hname.mem hc).2.1
  cases hmatch : matchCommand cursor name with
  | some rest =>
    obtain ⟨rfl, hrest⟩ := (matchCommand_eq_some_iff hname hnul).mp hmatch
    refine .inl ⟨rest, rfl, suffix_append _ _, ?_⟩
    rw [spreadFields, spread_append_of_not hletters, fields_run hname.1 hword]
    · rfl
    · rwa [head?_spread]
  | none =>
    refine .inr ⟨rfl, ?_⟩
    intro hfirst
    -- a line with this first field starts with the name
    cases cursor with
    | nil => simp [spreadFields, spread] at hfirst
    | cons c cs =>
      have hc : isBlank c = false := hblank c rfl
      obtain ⟨tail, htail⟩ : ∃ tail, spread (c :: cs) = c :: tail := ⟨_, rfl⟩
      rw [spreadFields, htail, fields_cons hc, List.head?_cons, some.injEq] at hfirst
      have hspread : spread (c :: cs) = name ++ tail.dropWhile fun d => !isBlank d := by
        rw [htail, ← hfirst, cons_append, takeWhile_append_dropWhile]
      obtain ⟨rest, hcursor, hrest⟩ := eq_append_of_spread hletters hspread
      have hstop : ∀ d ∈ rest.head?, isBlank d = true := by
        intro d hd
        have hhead := List.head?_dropWhile_not (fun d => !isBlank d) tail
        rw [← hrest, head?_spread, mem_def.mp hd] at hhead
        simpa using hhead
      rw [(matchCommand_eq_some_iff hname hnul).mpr ⟨hcursor, hstop⟩] at hmatch
      cases hmatch

/-- The search through the table finds the entry of the first field. -/
theorem parseCommand_spreadFields {args : List (List ℕ)}
    (hnul : 0 ∉ cursor) (hblank : ∀ c ∈ cursor.head?, isBlank c = false)
    (hfields : spreadFields cursor = name :: args) :
    ∀ table : List (List ℕ × (List ℕ → Option Call)), (∀ entry ∈ table, IsName entry.1) →
      (∃ entry rest, table.find? (fun e => e.1 = name) = some entry ∧ rest <:+ cursor ∧
        spreadFields rest = args ∧ parseCommand table cursor = entry.2 rest) ∨
      (table.find? (fun e => e.1 = name) = none ∧ parseCommand table cursor = none)
  | [], _ => .inr ⟨rfl, rfl⟩
  | entry :: table, hnames => by
    rcases matchCommand_spreadFields (hnames entry (by simp)) hnul hblank with
      ⟨rest, hmatch, hsuffix, hrest⟩ | ⟨hmatch, hother⟩
    · rw [hfields, List.cons.injEq] at hrest
      refine .inl ⟨entry, rest, ?_, hsuffix, hrest.2.symm, ?_⟩
      · rw [List.find?_cons_of_pos (by simp [hrest.1])]
      · rw [parseCommand, hmatch]
    · have hne : entry.1 ≠ name := by
        rintro rfl
        rw [hfields] at hother
        exact hother rfl
      have ih := parseCommand_spreadFields hnul hblank hfields table
        (fun e he => hnames e (by simp [he]))
      rw [List.find?_cons_of_neg (by simpa using hne), parseCommand, hmatch]
      exact ih

/-- What arguments mean for a command. -/
def argsMeaning (command : Command) (args : List (List ℕ)) : Option Call :=
  (args.mapM fieldValue).bind fun values =>
    if HasArity command values then denote command values else none

/-- The table of the parser has an entry for a command, which reads what the arguments mean. -/
def HasEntry (command : Command) : Prop :=
  ∃ entry, parseTable.find? (fun e => e.1 = command.name) = some entry ∧
    ∀ cursor, ShortRuns cursor → entry.2 cursor = argsMeaning command (spreadFields cursor)

/-- A command with a fixed number of arguments. -/
theorem hasEntry_fixed {command : Command} {n : ℕ} {f : List ℤ → Option Call}
    (hfind : parseTable.find? (fun e => e.1 = command.name) =
      some (name, fun cursor => (parseArgs n cursor).bind f))
    (harity : command.arity = some n)
    (hcall : ∀ g : ℕ → ℤ, f ((range n).map g) = denote command ((range n).map g)) :
    HasEntry command := by
  refine ⟨_, hfind, ?_⟩
  intro cursor hruns
  simp only
  rw [parseArgs_eq n hruns, argsMeaning, bind_assoc]
  congr 1
  funext values
  have hiff : HasArity command values ↔ values.length = n := by simp only [HasArity, harity]
  by_cases hlen : values.length = n
  · rw [if_pos hlen, if_pos (hiff.mpr hlen), bind_some]
    obtain ⟨g, rfl⟩ := exists_map_range hlen
    exact hcall g
  · rw [if_neg hlen, if_neg (fun h => hlen (hiff.mp h)), bind_none]

/-- A polygon command. -/
theorem parsePolygon_meaning {command : Command} {call : List ℤ → List ℤ → ℤ → Call}
    (harity : command.arity = none) (hcall : ∀ count vs, denote command (count :: vs) =
      some (call (abscissas vs.dropLast) (ordinates vs.dropLast) (vs.getLastD 0))) (hruns :
      ShortRuns cursor) :
    parsePolygon call cursor = argsMeaning command (spreadFields cursor) := by
  have hiff : ∀ count vs, HasArity command (count :: vs) ↔
      ¬ (count < 3 ∨ (polygonMaxPoints : ℤ) < count) ∧ vs.length = 2 * count.toNat + 1 := by
    intro count vs
    simp only [HasArity, harity, headD_cons, length_cons, polygonMaxPoints]
    omega
  have hnil : ¬ HasArity command [] := by
    simp only [HasArity, harity, headD_nil]
    omega
  rw [parsePolygon_eq, argsMeaning]
  cases reads hruns with
  | done hfields hdone hint =>
    rw [hint, hfields, mapM_nil, Option.pure_def, bind_some, if_neg hnil]
    rfl
  | number field rest v next hfields hvalue hdone hint hnext hrest =>
    rw [hint, hfields, mapM_cons, hvalue, bind_some, parseArgs_eq _ (hruns.suffix hnext), hrest]
    cases rest.mapM fieldValue with
    | none =>
      simp only [bind_none, map_none, ite_self]
      rfl
    | some vs =>
      simp only [bind_eq_bind, bind_some, Option.pure_def, hiff, hcall]
      by_cases hcount : v < 3 ∨ (polygonMaxPoints : ℤ) < v
      · rw [if_pos hcount, if_neg (fun h => h.1 hcount)]
      · rw [if_neg hcount]
        by_cases hlen : vs.length = 2 * v.toNat + 1
        · rw [if_pos hlen, if_pos ⟨hcount, hlen⟩, map_some]
        · rw [if_neg hlen, if_neg (fun h => hlen h.2), map_none]
  | malformed field rest hfields hvalue hdone hint =>
    rw [hfields, mapM_cons, hvalue]
    rcases hint with hnone | ⟨v, next, hsome, hstuck⟩
    · rw [hnone]
      rfl
    · rw [hsome, bind_some, hstuck.parseArgs]
      split_ifs <;> rfl

/-- Every command other than `END` has an entry. -/
theorem hasEntry (command : Command) (hend : command ≠ .«end») : HasEntry command := by
  cases command with
  | clear | pixel | line | rect | fillrect | circle | fillcircle | triangle | filltriangle
  | ellipse | fillellipse => exact hasEntry_fixed rfl rfl fun _ => rfl
  | polygon | fillpolygon => exact ⟨_, rfl, fun _ h => parsePolygon_meaning rfl (fun _ _ => rfl) h⟩
  | «end» => exact absurd rfl hend

/-- The names in the table of the parser are command names other than `END`. -/
theorem parseTable_names : ∀ name ∈ parseTable.map Prod.fst,
    (Command.ofName name).isSome ∧ name ≠ str "END" := by
  decide

/-- The names in the table of the parser are names. -/
theorem parseTable_isName {entry : List ℕ × (List ℕ → Option Call)} (h : entry ∈ parseTable) :
    IsName entry.1 := by
  obtain ⟨hsome, -⟩ := parseTable_names entry.1 (List.mem_map_of_mem h)
  obtain ⟨command, hcommand⟩ := isSome_iff_exists.mp hsome
  rw [← Command.name_of_ofName hcommand]
  exact ⟨length_pos_iff.mp (by have := command.two_le_length_name; omega),
    fun c hc => Command.mem_name hc⟩

/-- The end of the line is where no field is left. -/
theorem lineDone_eq (hruns : ShortRuns cursor) :
    lineDone cursor = decide (spreadFields cursor = []) := by
  cases reads hruns with
  | done hfields hdone hint => rw [hfields, hdone]; rfl
  | number field rest v next hfields hvalue hdone hint hnext hrest => rw [hfields, hdone]; rfl
  | malformed field rest hfields hvalue hdone hint => rw [hfields, hdone]; rfl

/-- `parse_line` reads a line as if a blank stood in front of every minus sign that stands
directly behind a digit. -/
theorem parseLine_eq_spread (hnul : 0 ∉ line) (hruns : ShortRuns line) :
    parseLine line = lineMeaning (spread line) := by
  have hsuffix : skipSpaces line <:+ line := dropWhile_suffix _
  have hskip : spreadFields (skipSpaces line) = fields isBlank (spread line) :=
    spreadFields_skipSpaces line
  rw [parseLine, lineMeaning, ← hskip]
  have hblank : ∀ c ∈ (skipSpaces line).head?, isBlank c = false := by
    intro c hc
    have hstop := List.head?_dropWhile_not isBlank line
    unfold skipSpaces at hc
    rw [mem_def.mp hc] at hstop
    exact hstop
  have hcnul : 0 ∉ skipSpaces line := fun h => hnul (hsuffix.subset h)
  have hcruns := hruns.suffix hsuffix
  generalize skipSpaces line = cursor at *
  cases cursor with
  | nil => rfl
  | cons c cs =>
    obtain ⟨name, args, hfields⟩ : ∃ name args, spreadFields (c :: cs) = name :: args :=
      ⟨_, _, fields_cons (hblank c rfl) _⟩
    simp only [hfields, reduceCtorEq, if_false]
    have hEND : IsName (str "END") := ⟨by decide, by decide⟩
    rcases matchCommand_spreadFields hEND hcnul hblank with
      ⟨rest, hmatch, hrestsuffix, hrest⟩ | ⟨hmatch, hother⟩
    · rw [hfields, List.cons.injEq] at hrest
      rw [hmatch, if_pos hrest.1]
      simp only [lineDone_eq (hcruns.suffix hrestsuffix), ← hrest.2, decide_eq_true_eq]
    · have hne : name ≠ str "END" := by
        rintro rfl
        rw [hfields] at hother
        exact hother rfl
      rw [hmatch, if_neg hne]
      simp only
      rcases parseCommand_spreadFields hcnul hblank hfields parseTable
          (fun e he => parseTable_isName he) with
        ⟨entry, rest, hfind, hrestsuffix, hrest, hparse⟩ | ⟨hfind, hparse⟩
      · -- the entry belongs to the command of this name
        have hname : entry.1 = name := by simpa using List.find?_some hfind
        obtain ⟨hsome, -⟩ := parseTable_names entry.1
          (List.mem_map_of_mem (mem_of_find?_eq_some hfind))
        obtain ⟨command, hcommand⟩ := isSome_iff_exists.mp hsome
        rw [hname] at hcommand
        have hend : command ≠ .«end» := by
          rintro rfl
          exact hne (Command.name_of_ofName hcommand).symm
        obtain ⟨entry', hfind', hmeaning⟩ := hasEntry command hend
        rw [Command.name_of_ofName hcommand, hfind, some.injEq] at hfind'
        subst hfind'
        rw [hparse, hmeaning rest (hcruns.suffix hrestsuffix), hrest, hcommand, argsMeaning]
        simp only [bind_eq_bind, bind_some]
        cases args.mapM fieldValue with
        | none => rfl
        | some values =>
          simp only [bind_some]
          split_ifs <;> rfl
      · have hnone : Command.ofName name = none := by
          cases hcommand : Command.ofName name with
          | none => rfl
          | some command =>
            have hend : command ≠ .«end» := by
              rintro rfl
              exact hne (Command.name_of_ofName hcommand).symm
            obtain ⟨entry', hfind', -⟩ := hasEntry command hend
            rw [Command.name_of_ofName hcommand, hfind] at hfind'
            cases hfind'
        rw [hparse, hnone]
        rfl

/-- A field with a glued minus sign is not a number. -/
theorem fieldValue_of_glued {field : List ℕ} (hc : IsDigit c) (h : [c, 45] <:+: field) :
    fieldValue field = none := by
  obtain ⟨u, v, rfl⟩ := h
  have hmem : 45 ∈ if (u ++ [c, 45] ++ v).head? = some 45 then (u ++ [c, 45] ++ v).tail
      else u ++ [c, 45] ++ v := by
    split_ifs with hhead
    · cases u with
      | nil =>
        have hc45 : c = 45 := by simpa using hhead
        unfold IsDigit at hc
        omega
      | cons d u => simp
    · simp
  rw [fieldValue]
  exact if_neg fun hdigits => absurd (hdigits.2 45 hmem) (by decide)

theorem mapM_fieldValue_eq_none {fs : List (List ℕ)} {field : List ℕ} (hmem : field ∈ fs)
    (hvalue : fieldValue field = none) : fs.mapM fieldValue = none := by
  induction fs with
  | nil => simp at hmem
  | cons f fs ih =>
    rw [mapM_cons]
    rcases mem_cons.mp hmem with rfl | hrest
    · rw [hvalue]
      rfl
    · rw [ih hrest]
      cases fieldValue f <;> rfl

/-- A line with a glued minus sign is malformed. -/
theorem lineMeaning_of_glued (h : Glued line) : lineMeaning line = none := by
  obtain ⟨a, c, b, rfl, hc⟩ := h
  have hblank : isBlank c = false := by
    cases hblank : isBlank c with
    | false => rfl
    | true => exact absurd hc (not_isDigit_of_isBlank hblank)
  obtain ⟨field, hfield, hglued⟩ := exists_field_infix hblank (show isBlank 45 = false from rfl) a b
  rw [lineMeaning]
  cases hfields : fields isBlank (a ++ c :: 45 :: b) with
  | nil =>
    rw [hfields] at hfield
    simp at hfield
  | cons name args =>
    rw [hfields] at hfield
    simp only
    rcases mem_cons.mp hfield with rfl | hargs
    · -- names have letters only
      have hmem : c ∈ field := hglued.subset (by simp)
      have hnone : Command.ofName field = none := by
        cases hcommand : Command.ofName field with
        | none => rfl
        | some command =>
          rw [← Command.name_of_ofName hcommand] at hmem
          have hletter := Command.mem_name hmem
          unfold IsDigit at hc
          omega
      have hend : field ≠ str "END" := by
        rintro rfl
        cases hnone
      rw [if_neg hend, hnone]
      rfl
    · split_ifs with hend hempty
      · rw [hempty] at hargs
        simp at hargs
      · rfl
      · rw [mapM_fieldValue_eq_none hargs (fieldValue_of_glued hc hglued)]
        cases Command.ofName name <;> rfl

/-- **Command lines.** `parse_line` accepts a line, makes its call and sees `END` exactly as
the fields of the line say, if and only if no minus sign stands directly behind a digit or the
line stays malformed when such signs are set apart. -/
theorem parse_line_exact_iff {line : List ℕ} (hnul : 0 ∉ line) (hruns : ShortRuns line) :
    parseLine line = lineMeaning line ↔ ¬ Glued line ∨ lineMeaning (spread line) = none := by
  rw [parseLine_eq_spread hnul hruns]
  constructor
  · intro h
    by_cases hglued : Glued line
    · rw [lineMeaning_of_glued hglued] at h
      exact .inr h
    · exact .inl hglued
  · rintro (hglued | hnone)
    · rw [spread_of_not_glued hglued]
    · by_cases hglued : Glued line
      · rw [hnone, lineMeaning_of_glued hglued]
      · rw [spread_of_not_glued hglued]

theorem shortRuns_iff : ShortRuns line ↔
    ∀ s ∈ line.tails, (s.takeWhile fun c => decide (IsDigit c)).length ≤ 9 := by
  simp only [ShortRuns, mem_tails]

/-- A line with all its fields apart. -/
theorem parse_line_exact_pixel :
    parseLine (str " PIXEL 1\t-2  15") = lineMeaning (str " PIXEL 1\t-2  15") ∧
      lineMeaning (str " PIXEL 1\t-2  15") = some (some (.pixel 1 (-2) 15), false) := by
  have hmeaning : lineMeaning (str " PIXEL 1\t-2  15") = some (some (.pixel 1 (-2) 15), false) := by
    decide
  refine ⟨(parse_line_exact_iff (by decide) (shortRuns_iff.mpr (by decide))).mpr (.inl ?_),
    hmeaning⟩
  intro hglued
  rw [lineMeaning_of_glued hglued] at hmeaning
  cases hmeaning

/-- Two numbers that nothing separates are read as two arguments. -/
theorem glued_line_is_accepted : 0 ∉ str "PIXEL 1-2 3" ∧ ShortRuns (str "PIXEL 1-2 3") ∧
      lineMeaning (str "PIXEL 1-2 3") = none ∧
      parseLine (str "PIXEL 1-2 3") = some (some (.pixel 1 (-2) 3), false) :=
  ⟨by decide, shortRuns_iff.mpr (by decide), by decide, by decide⟩

end Xv6Draw
