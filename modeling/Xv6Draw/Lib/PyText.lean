import Xv6Draw.Lib.Decimal
import Mathlib.Data.List.DropRight

/-!
# Text operations of Python

The methods of `str` that text protocols use, and `int` of a string, over lists
of code points. White space and line boundaries are the language's own. The case
and digit tables of Unicode are a structure with the laws that they satisfy, so
that a statement about every table holds for the one of any version.
-/

namespace PyText

open Decimal List

/-- `str.isspace` of one character. -/
def isSpace (c : ℕ) : Bool :=
  (9 ≤ c && c ≤ 13) || (28 ≤ c && c ≤ 32) || c == 0x85 || c == 0xA0 || c == 0x1680 ||
    (0x2000 ≤ c && c ≤ 0x200A) || c == 0x2028 || c == 0x2029 || c == 0x202F || c == 0x205F ||
    c == 0x3000

/-- A line boundary of `str.splitlines`. -/
def isLineBreak (c : ℕ) : Bool :=
  (10 ≤ c && c ≤ 13) || (28 ≤ c && c ≤ 30) || c == 0x85 || c == 0x2028 || c == 0x2029

/-- `str.strip()`. -/
def strip (cs : List ℕ) : List ℕ := (cs.dropWhile isSpace).rdropWhile isSpace

/-- `" ".join(parts)`. -/
def joinSpace : List (List ℕ) → List ℕ
  | [] => []
  | [p] => p
  | p :: ps => p ++ 32 :: joinSpace ps

/-- `"\n".join(parts)`. -/
def joinNewline : List (List ℕ) → List ℕ
  | [] => []
  | [p] => p
  | p :: ps => p ++ 10 :: joinNewline ps

/-- `str.splitlines()`: a carriage return and the newline behind it are one
boundary. -/
def splitlines : List ℕ → List (List ℕ)
  | [] => []
  | 13 :: 10 :: cs => [] :: splitlines cs
  | c :: cs =>
    if isLineBreak c then [] :: splitlines cs
    else match splitlines cs with
      | [] => [[c]]
      | l :: ls => (c :: l) :: ls

/-- The word that a text starts with, which is empty before white space, and the
words behind it. -/
def splitFirst : List ℕ → List ℕ × List (List ℕ)
  | [] => ([], [])
  | c :: cs =>
    if isSpace c then ([], if (splitFirst cs).1 = [] then (splitFirst cs).2
      else (splitFirst cs).1 :: (splitFirst cs).2)
    else (c :: (splitFirst cs).1, (splitFirst cs).2)

/-- `str.split()`: the maximal runs of characters that are not white space. -/
def split (cs : List ℕ) : List (List ℕ) :=
  if (splitFirst cs).1 = [] then (splitFirst cs).2 else (splitFirst cs).1 :: (splitFirst cs).2

/-- `str.split(sep, 1)` of a text that holds the separator. -/
def splitOnce (sep : ℕ) (cs : List ℕ) : List ℕ × List ℕ :=
  (cs.takeWhile (· ≠ sep), (cs.dropWhile (· ≠ sep)).tail)

/-- The tables of Unicode that text processing reads, with the laws that hold in
every version: case mapping and digits are the usual ones on ASCII, and no upper
case form is empty or brings in white space. -/
structure Unicode where
  /-- The upper case form of a character, which may be longer. -/
  upper : ℕ → List ℕ
  /-- The value of a decimal digit. -/
  digit : ℕ → Option ℕ
  upper_ascii : ∀ c < 128, upper c = [if 97 ≤ c ∧ c ≤ 122 then c - 32 else c]
  upper_ne_nil : ∀ c, upper c ≠ []
  upper_space : ∀ c, isSpace c = false → ∀ d ∈ upper c, isSpace d = false
  digit_ascii : ∀ c < 128, digit c = if 48 ≤ c ∧ c ≤ 57 then some (c - 48) else none

/-- `str.upper()`. -/
def upper (u : Unicode) (cs : List ℕ) : List ℕ := cs.flatMap u.upper

/-- White space that `int` skips around a number. -/
def isIntSpace (c : ℕ) : Bool := isSpace c && !(28 ≤ c && c ≤ 31)

/-- The values of a run of digits, in which single underscores may stand between
two digits. -/
def digitValues (u : Unicode) : List ℕ → Option (List ℕ)
  | [] => none
  | [c] => (u.digit c).map fun v => [v]
  | c :: d :: cs =>
    match u.digit c with
    | none => none
    | some v =>
      if d = 95 then (digitValues u cs).map (v :: ·) else (digitValues u (d :: cs)).map (v :: ·)

/-- The magnitude behind a sign. More than 4300 digits are refused. -/
def magnitude (u : Unicode) (cs : List ℕ) : Option ℕ :=
  match digitValues u cs with
  | none => none
  | some vs => if 4300 < vs.length then none else some (vs.foldl (fun acc v => acc * 10 + v) 0)

/-- `int(s)`, where `none` is a `ValueError`. -/
def int (u : Unicode) (s : List ℕ) : Option ℤ :=
  match (s.dropWhile isIntSpace).rdropWhile isIntSpace with
  | 45 :: cs => (magnitude u cs).map fun n : ℕ => -(n : ℤ)
  | 43 :: cs => (magnitude u cs).map fun n : ℕ => (n : ℤ)
  | cs => (magnitude u cs).map fun n : ℕ => (n : ℤ)

variable {c : ℕ} {cs w : List ℕ}

theorem isSpace_of_visible (hlow : 33 ≤ c) (hhigh : c < 127) : isSpace c = false := by
  simp only [isSpace, Bool.or_eq_false_iff, Bool.and_eq_false_iff, decide_eq_false_iff_not,
    beq_eq_false_iff_ne]
  omega

theorem isLineBreak_of_visible (hlow : 32 ≤ c) (hhigh : c < 127) : isLineBreak c = false := by
  simp only [isLineBreak, Bool.or_eq_false_iff, Bool.and_eq_false_iff, decide_eq_false_iff_not,
    beq_eq_false_iff_ne]
  omega

/-- A character that is not white space survives stripping. -/
theorem mem_strip (hc : isSpace c = false) (hmem : c ∈ cs) : c ∈ strip cs := by
  have hfront : ∀ {ds : List ℕ}, c ∈ ds → c ∈ ds.dropWhile isSpace := by
    intro ds hds
    rw [← takeWhile_append_dropWhile (p := isSpace) (l := ds), mem_append] at hds
    rcases hds with hskip | hrest
    · have hspace := mem_takeWhile_imp hskip
      simp [hc] at hspace
    · exact hrest
  rw [strip, List.rdropWhile, mem_reverse]
  exact hfront (mem_reverse.mpr (hfront hmem))

/-- Joined words as the first word and the others with the space before each. -/
theorem joinSpace_cons (w : List ℕ) (ws : List (List ℕ)) :
    joinSpace (w :: ws) = w ++ ws.flatMap (32 :: ·) := by
  induction ws generalizing w with
  | nil => simp [joinSpace]
  | cons v vs ih =>
    rw [joinSpace, ih v]
    · simp
    · simp

theorem joinNewline_cons (l : List ℕ) (ls : List (List ℕ)) :
    joinNewline (l :: ls) = l ++ ls.flatMap (10 :: ·) := by
  induction ls generalizing l with
  | nil => simp [joinNewline]
  | cons m ms ih =>
    rw [joinNewline, ih m]
    · simp
    · simp

variable {ps ls ws : List (List ℕ)}

/-- The characters of a part are among those of the joined text. -/
theorem mem_joinSpace {p : List ℕ} (hc : c ∈ p) (hp : p ∈ ps) :
    c ∈ joinSpace ps := by
  cases ps with
  | nil => exact absurd hp not_mem_nil
  | cons q qs =>
    rw [joinSpace_cons]
    rcases mem_cons.mp hp with rfl | hrest
    · exact mem_append_left _ hc
    · exact mem_append_right _ (mem_flatMap.mpr ⟨p, hrest, mem_cons_of_mem _ hc⟩)

/-- The characters of a joined text are separators and those of its parts. -/
theorem of_mem_joined {sep : ℕ} {p : List ℕ}
    (hc : c ∈ p ++ ps.flatMap (sep :: ·)) : c = sep ∨ ∃ q ∈ p :: ps, c ∈ q := by
  rcases mem_append.mp hc with hp | hrest
  · exact .inr ⟨p, mem_cons_self, hp⟩
  · obtain ⟨q, hq, hcq⟩ := mem_flatMap.mp hrest
    rcases mem_cons.mp hcq with rfl | hcq
    · exact .inl rfl
    · exact .inr ⟨q, mem_cons_of_mem _ hq, hcq⟩

theorem of_mem_joinSpace (hc : c ∈ joinSpace ps) : c = 32 ∨ ∃ p ∈ ps, c ∈ p := by
  cases ps with
  | nil => exact absurd hc not_mem_nil
  | cons p ps =>
    rw [joinSpace_cons] at hc
    exact of_mem_joined hc

theorem of_mem_joinNewline (hc : c ∈ joinNewline ls) : c = 10 ∨ ∃ l ∈ ls, c ∈ l := by
  cases ls with
  | nil => exact absurd hc not_mem_nil
  | cons l ls =>
    rw [joinNewline_cons] at hc
    exact of_mem_joined hc

/-- A word: not empty and without white space. -/
def IsWord (w : List ℕ) : Prop := w ≠ [] ∧ ∀ c ∈ w, isSpace c = false

/-- A run of other characters is the start of the first word. -/
theorem splitFirst_append (hw : ∀ c ∈ w, isSpace c = false) (cs : List ℕ) :
    splitFirst (w ++ cs) = (w ++ (splitFirst cs).1, (splitFirst cs).2) := by
  induction w with
  | nil => rfl
  | cons c w ih =>
    have hc : isSpace c = false := hw c (by simp)
    rw [cons_append, splitFirst, ih (fun d hd => hw d (by simp [hd]))]
    simp [hc]

/-- Words joined by spaces and split again are the same words. -/
theorem split_joinSpace (hws : ∀ w ∈ ws, IsWord w) :
    split (joinSpace ws) = ws := by
  induction ws with
  | nil => rfl
  | cons w ws ih =>
    obtain ⟨hne, hw⟩ := hws w (by simp)
    cases ws with
    | nil =>
      have h := splitFirst_append hw []
      rw [append_nil] at h
      simp [split, joinSpace, h, splitFirst, hne]
    | cons v vs =>
      have hrest := ih (fun x hx => hws x (by simp [hx]))
      have hspace : splitFirst (32 :: joinSpace (v :: vs)) = ([], v :: vs) := by
        rw [splitFirst, if_pos (by decide)]
        rw [split] at hrest
        rw [hrest]
      rw [split, joinSpace, splitFirst_append hw, hspace]
      · simp [hne]
      · simp

/-- The first run of other characters, and the words behind it. -/
theorem splitFirst_words (cs : List ℕ) :
    (∀ c ∈ (splitFirst cs).1, isSpace c = false) ∧ ∀ w ∈ (splitFirst cs).2, IsWord w := by
  induction cs with
  | nil => simp [splitFirst]
  | cons c cs ih =>
    obtain ⟨hfirst, hrest⟩ := ih
    rw [splitFirst]
    split_ifs with hspace hempty
    · exact ⟨by simp, hrest⟩
    · exact ⟨by simp, forall_mem_cons.mpr ⟨⟨hempty, hfirst⟩, hrest⟩⟩
    · refine ⟨forall_mem_cons.mpr ⟨?_, hfirst⟩, hrest⟩
      simpa using hspace

theorem isWord_of_mem_split (hw : w ∈ split cs) : IsWord w := by
  obtain ⟨hfirst, hwords⟩ := splitFirst_words cs
  rw [split] at hw
  split_ifs at hw with hempty
  · exact hwords w hw
  · rcases mem_cons.mp hw with rfl | hrest
    · exact ⟨hempty, hfirst⟩
    · exact hwords w hrest

/-- A stripped text that is not empty has words. -/
theorem split_strip_ne_nil (h : strip cs ≠ []) : split (strip cs) ≠ [] := by
  obtain ⟨tail, htail⟩ := rdropWhile_prefix isSpace (cs.dropWhile isSpace)
  cases hstrip : strip cs with
  | nil => exact absurd hstrip h
  | cons c rest =>
    have hhead := List.head?_dropWhile_not isSpace cs
    rw [strip] at hstrip
    rw [← htail, hstrip, cons_append, List.head?_cons] at hhead
    have hfirst : isSpace c = false := hhead
    rw [split, splitFirst, hfirst]
    simp

/-- A text whose first and last characters are not white space is stripped. -/
theorem strip_eq_self (hne : cs ≠ []) (hfirst : isSpace (cs.head hne) = false)
    (hlast : isSpace (cs.getLast hne) = false) : strip cs = cs := by
  have hfront : cs.dropWhile isSpace = cs := by
    cases cs with
    | nil => rfl
    | cons c cs => exact dropWhile_cons_of_neg (by simpa using hfirst)
  rw [strip, hfront, rdropWhile_eq_self_iff]
  intro _
  simpa using hlast

/-- Words joined by spaces are stripped. -/
theorem strip_joinSpace (hws : ∀ w ∈ ws, IsWord w) :
    strip (joinSpace ws) = joinSpace ws := by
  have hlast : ∀ vs : List (List ℕ), vs ≠ [] → (∀ w ∈ vs, IsWord w) →
      ∃ hne : joinSpace vs ≠ [], isSpace ((joinSpace vs).getLast hne) = false := by
    intro vs hne hvs
    induction vs with
    | nil => exact absurd rfl hne
    | cons v vs ih =>
      obtain ⟨hv, hspace⟩ := hvs v (by simp)
      cases vs with
      | nil => exact ⟨hv, hspace _ (getLast_mem hv)⟩
      | cons x xs =>
        obtain ⟨hrest, hend⟩ := ih (by simp) (fun w hw => hvs w (by simp [hw]))
        have hjoin : joinSpace (v :: x :: xs) = v ++ 32 :: joinSpace (x :: xs) := by
          rw [joinSpace]
          simp
        refine ⟨by simp [hjoin], ?_⟩
        simp only [hjoin, getLast_append_of_ne_nil _ (cons_ne_nil _ _), getLast_cons hrest, hend]
  cases ws with
  | nil => rfl
  | cons w ws =>
    obtain ⟨hne, hend⟩ := hlast (w :: ws) (by simp) hws
    obtain ⟨hw, hspace⟩ := hws w (by simp)
    apply strip_eq_self hne _ hend
    cases w with
    | nil => exact absurd rfl hw
    | cons c w =>
      have hc : isSpace c = false := hspace c (by simp)
      cases ws with
      | nil => exact hc
      | cons v vs =>
        simp only [joinSpace]
        exact hc

/-- Text without line boundaries extends the first line behind it. -/
theorem splitlines_append {l : List ℕ} (hl : ∀ c ∈ l, isLineBreak c = false) (hne : l ≠ []) (cs : List ℕ) :
    splitlines (l ++ cs) = (l ++ (splitlines cs).headD []) :: (splitlines cs).tail := by
  induction l with
  | nil => exact absurd rfl hne
  | cons c l ih =>
    have hc : isLineBreak c = false := hl c (by simp)
    have hcr : c ≠ 13 := by
      rintro rfl
      simp [isLineBreak] at hc
    rw [cons_append, splitlines]
    · cases l with
      | nil => cases hcs : splitlines cs <;> simp [hc, hcs]
      | cons d l =>
        rw [ih (fun e he => hl e (by simp [he])) (by simp)]
        simp [hc]
    · intro ds hds
      exact absurd hds hcr

theorem splitlines_newline (cs : List ℕ) : splitlines (10 :: cs) = [] :: splitlines cs := by
  rw [splitlines]
  · simp [isLineBreak]
  · simp

/-- Lines joined by newlines and split again are the same lines. -/
theorem splitlines_joinNewline (hls : ∀ l ∈ ls, l ≠ [] ∧ ∀ c ∈ l, isLineBreak c = false) :
    splitlines (joinNewline ls) = ls := by
  induction ls with
  | nil => rfl
  | cons l ls ih =>
    obtain ⟨hne, hl⟩ := hls l (by simp)
    cases ls with
    | nil =>
      have hline := splitlines_append hl hne []
      rw [append_nil] at hline
      rw [joinNewline, hline]
      simp [splitlines]
    | cons m ms =>
      rw [joinNewline, splitlines_append hl hne, splitlines_newline, ih (fun x hx => hls x (by simp [hx]))]
      · simp
      · simp

/-- ASCII text without lower case letters is its own upper case form. -/
theorem upper_eq_self (u : Unicode) (hcs : ∀ c ∈ cs, c < 97) : upper u cs = cs := by
  induction cs with
  | nil => rfl
  | cons c cs ih =>
    have hc : c < 97 := hcs c (by simp)
    have hupper : u.upper c = [c] := by
      rw [u.upper_ascii c (by omega), if_neg (by omega)]
    have hrest := ih (fun d hd => hcs d (by simp [hd]))
    rw [upper] at hrest ⊢
    rw [flatMap_cons, hupper, hrest]
    rfl

theorem isWord_upper (u : Unicode) (hw : IsWord w) : IsWord (upper u w) := by
  obtain ⟨hne, hspace⟩ := hw
  constructor
  · cases w with
    | nil => exact absurd rfl hne
    | cons c w =>
      rw [upper, flatMap_cons]
      simp [u.upper_ne_nil c]
  · intro d hd
    obtain ⟨c, hc, hdc⟩ := mem_flatMap.mp hd
    exact u.upper_space c (hspace c hc) d hdc

/-- The values of ASCII digits. -/
theorem digitValues_digits (u : Unicode) (hne : cs ≠ []) (hcs : ∀ c ∈ cs, IsDigit c) :
    digitValues u cs = some (cs.map (· - 48)) := by
  have hdigit : ∀ c, IsDigit c → u.digit c = some (c - 48) := by
    intro c hc
    obtain ⟨hlow, hhigh⟩ := hc
    rw [u.digit_ascii c (by omega), if_pos ⟨hlow, hhigh⟩]
  induction cs with
  | nil => exact absurd rfl hne
  | cons c cs ih =>
    have hc := hdigit c (hcs c (by simp))
    cases cs with
    | nil => simp [digitValues, hc]
    | cons d cs =>
      have hd : d ≠ 95 := by
        have hlt := (hcs d (by simp)).2
        omega
      rw [digitValues, hc]
      simp only [if_neg hd]
      rw [ih (by simp) (fun e he => hcs e (by simp [he]))]
      rfl

theorem magnitude_decimal (u : Unicode) {n : ℕ} (hn : n < 4300) :
    magnitude u (decimal n) = some n := by
  have hlen := length_decimal_le n
  have hvalue := value_decimal n
  rw [value] at hvalue
  rw [magnitude, digitValues_digits u (decimal_ne_nil n) (fun c hc => isDigit_of_mem_decimal hc)]
  simp only [length_map, foldl_map]
  rw [if_neg (by omega), hvalue]

theorem isSpace_of_isDigit (hc : IsDigit c ∨ c = 45) : isSpace c = false := by
  unfold IsDigit at hc
  exact isSpace_of_visible (by omega) (by omega)

theorem of_mem_ofInt {z : ℤ} (hc : c ∈ ofInt z) : IsDigit c ∨ c = 45 := by
  unfold ofInt at hc
  split_ifs at hc with hneg
  · rcases mem_cons.mp hc with rfl | hrest
    · exact .inr rfl
    · exact .inl (isDigit_of_mem_decimal hrest)
  · exact .inl (isDigit_of_mem_decimal hc)

theorem isWord_ofInt (z : ℤ) : IsWord (ofInt z) := by
  constructor
  · unfold ofInt
    split_ifs
    · simp
    · exact decimal_ne_nil _
  · intro c hc
    exact isSpace_of_isDigit (of_mem_ofInt hc)

/-- `int` reads back what `str` writes. -/
theorem int_ofInt (u : Unicode) {z : ℤ} (hz : z.natAbs < 4300) : int u (ofInt z) = some z := by
  have hstrip : ((ofInt z).dropWhile isIntSpace).rdropWhile isIntSpace = ofInt z := by
    have hnone : ∀ c ∈ ofInt z, isIntSpace c = false := by
      intro c hc
      rw [isIntSpace, isSpace_of_isDigit (of_mem_ofInt hc), Bool.false_and]
    have hfront : (ofInt z).dropWhile isIntSpace = ofInt z := by
      rw [dropWhile_eq_self_iff]
      intro hlen
      simpa using hnone _ (getElem_mem hlen)
    rw [hfront, rdropWhile_eq_self_iff]
    intro hne
    simpa using hnone _ (getLast_mem hne)
  rw [int, hstrip]
  by_cases hneg : z < 0
  · rw [ofInt, if_pos hneg]
    simp only [magnitude_decimal u hz, Option.map_some, Option.some.injEq]
    omega
  · rw [ofInt, if_neg hneg]
    obtain ⟨c, cs, hcs⟩ := exists_cons_of_ne_nil (decimal_ne_nil z.natAbs)
    have hc : IsDigit c := isDigit_of_mem_decimal (n := z.natAbs) (by simp [hcs])
    have hsign : c ≠ 45 ∧ c ≠ 43 := by
      unfold IsDigit at hc
      omega
    have hmag := magnitude_decimal u hz
    rw [hcs] at hmag ⊢
    split
    · next heq => exact absurd (List.cons.inj heq).1 hsign.1
    · next heq => exact absurd (List.cons.inj heq).1 hsign.2
    · rw [hmag, Option.map_some, Option.some.injEq]
      omega

/-- The tables of Unicode cut down to ASCII. -/
def Unicode.ascii : Unicode where
  upper c := [if 97 ≤ c ∧ c ≤ 122 then c - 32 else c]
  digit c := if 48 ≤ c ∧ c ≤ 57 then some (c - 48) else none
  upper_ascii _ _ := rfl
  upper_ne_nil _ := by simp
  upper_space := by
    intro c hc d hd
    rw [mem_singleton] at hd
    subst d
    split_ifs with hlower
    · exact isSpace_of_visible (by omega) (by omega)
    · exact hc
  digit_ascii _ _ := rfl

end PyText
