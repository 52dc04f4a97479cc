import Xv6Draw.CString
import Xv6Draw.Lib.Lines
import Mathlib

/-!
# grep

The matcher of `grep.c` is compared with what a pattern means: it is a list of items, each of
which takes one character or any number of them, and the last one may ask for the end of the
text. `grep` itself reads into a buffer and keeps the beginning of a line for the next read, but
only if the buffer holds a newline: what has been read without one is dropped.
-/

namespace Xv6Draw.Grep

open Lines List

/-! ### The matcher -/

/-- `matchstar`, where `here` is `matchhere` for the rest of the pattern. -/
def matchstar (here : List ℕ → Bool) (c : ℕ) : List ℕ → Bool
  | [] => here []
  | t :: text => here (t :: text) || ((t == c || c == 46) && matchstar here c text)

/-- `matchhere`. -/
def matchhere : List ℕ → List ℕ → Bool
  | [], _ => true
  | [c], text =>
    if c = 36 then text.isEmpty
    else
      match text with
      | [] => false
      | t :: _ => c == 46 || c == t
  | c :: d :: re, text =>
    if d = 42 then matchstar (matchhere re) c text
    else
      match text with
      | [] => false
      | t :: text => (c == 46 || c == t) && matchhere (d :: re) text

/-- The loop of `match`. -/
def matchLoop (re : List ℕ) : List ℕ → Bool
  | [] => matchhere re []
  | t :: text => matchhere re (t :: text) || matchLoop re text

/-- `match`. -/
def grepMatch (re text : List ℕ) : Bool :=
  if re.head? = some 94 then matchhere re.tail text else matchLoop re text

/-- The items of a pattern. -/
inductive Item where
  | one (c : ℕ)
  | star (c : ℕ)
  | eol
  deriving DecidableEq

/-- The items that the characters of a pattern stand for. -/
def items : List ℕ → List Item
  | [] => []
  | [c] => if c = 36 then [.eol] else [.one c]
  | c :: d :: re => if d = 42 then .star c :: items re else .one c :: items (d :: re)

/-- The characters that match `c`. -/
def Fits (c t : ℕ) : Prop := c = 46 ∨ c = t

/-- A text in front of another matches some items. -/
def Matches : List Item → List ℕ → List ℕ → Prop
  | [], text, _ => text = []
  | .one c :: is, text, rest => ∃ t more, text = t :: more ∧ Fits c t ∧ Matches is more rest
  | .star c :: is, text, rest => ∃ run more, text = run ++ more ∧ (∀ t ∈ run, Fits c t) ∧
      Matches is more rest
  | .eol :: is, text, rest => text ++ rest = [] ∧ Matches is text rest

variable {text p : List ℕ}

/-- The repeated character is taken some number of times. -/
theorem matchstar_iff {here : List ℕ → Bool} {c : ℕ} : matchstar here c text = true ↔
    ∃ run more, text = run ++ more ∧ (∀ t ∈ run, Fits c t) ∧ here more = true := by
  induction text with
  | nil => simp [matchstar]
  | cons t text ih =>
    have hfits : (t == c || c == 46) = true ↔ Fits c t := by
      simp only [Fits, Bool.or_eq_true, beq_iff_eq]
      tauto
    rw [matchstar, Bool.or_eq_true, Bool.and_eq_true, hfits, ih]
    constructor
    · rintro (hhere | ⟨ht, run, more, rfl, hrun, hmore⟩)
      · exact ⟨[], t :: text, rfl, nofun, hhere⟩
      · exact ⟨t :: run, more, rfl, forall_mem_cons.mpr ⟨ht, hrun⟩, hmore⟩
    · rintro ⟨run, more, htext, hrun, hmore⟩
      cases run with
      | nil => exact .inl (htext ▸ hmore)
      | cons u run =>
        obtain ⟨rfl, rfl⟩ := List.cons.inj htext
        exact .inr ⟨hrun t mem_cons_self, run, more, rfl,
          fun u hu => hrun u (mem_cons_of_mem _ hu), hmore⟩

theorem matches_one {c : ℕ} {is : List Item} :
    (∃ sub rest, text = sub ++ rest ∧ Matches (.one c :: is) sub rest) ↔
      ∃ t more, text = t :: more ∧ Fits c t ∧ ∃ sub rest, more = sub ++ rest ∧ Matches is sub rest := by
  constructor
  · rintro ⟨-, rest, rfl, t, sub, rfl, ht, hsub⟩
    exact ⟨t, sub ++ rest, rfl, ht, sub, rest, rfl, hsub⟩
  · rintro ⟨t, -, rfl, ht, sub, rest, rfl, hsub⟩
    exact ⟨t :: sub, rest, rfl, t, sub, rfl, ht, hsub⟩

/-- `matchhere` looks for a match at the beginning of the text. -/
theorem matchhere_iff (re : List ℕ) : ∀ text, matchhere re text = true ↔
    ∃ sub rest, text = sub ++ rest ∧ Matches (items re) sub rest := by
  induction re using items.induct with
  | case1 => simp [matchhere, items, Matches]
  | case2 =>
    intro text
    cases text <;> simp [matchhere, items, Matches]
  | case3 c hc =>
    intro text
    simp only [matchhere, items, if_neg hc, matches_one]
    cases text <;> simp [Matches, Fits]
  | case4 c re ih =>
    intro text
    simp only [matchhere, items, if_true, matchstar_iff]
    constructor
    · rintro ⟨run, more, rfl, hrun, hmore⟩
      obtain ⟨sub, rest, rfl, hsub⟩ := (ih more).mp hmore
      exact ⟨run ++ sub, rest, (append_assoc ..).symm, run, sub, rfl, hrun, hsub⟩
    · rintro ⟨-, rest, rfl, run, sub, rfl, hrun, hsub⟩
      exact ⟨run, sub ++ rest, append_assoc .., hrun, (ih _).mpr ⟨sub, rest, rfl, hsub⟩⟩
  | case5 c d re hd ih =>
    intro text
    simp only [matchhere, items, if_neg hd, matches_one]
    cases text with
    | nil => simp
    | cons t text =>
      rw [Bool.and_eq_true, ih]
      constructor
      · rintro ⟨ht, hmore⟩
        exact ⟨t, text, rfl, by simpa [Fits] using ht, hmore⟩
      · rintro ⟨u, more, htext, hu, hmore⟩
        obtain ⟨rfl, rfl⟩ := List.cons.inj htext
        exact ⟨by simpa [Fits] using hu, hmore⟩

/-- **Patterns.** `match` finds a match exactly when a part of the text, or the beginning of
it when the pattern starts with `^`, matches the items of the rest of the pattern. -/
theorem match_iff (re text : List ℕ) : grepMatch re text = true ↔
    ∃ front sub rest, text = front ++ (sub ++ rest) ∧
      if re.head? = some 94 then front = [] ∧ Matches (items re.tail) sub rest
      else Matches (items re) sub rest := by
  unfold grepMatch
  split_ifs
  · rw [matchhere_iff]
    constructor
    · rintro ⟨sub, rest, rfl, hsub⟩
      exact ⟨[], sub, rest, rfl, rfl, hsub⟩
    · rintro ⟨-, sub, rest, rfl, rfl, hsub⟩
      exact ⟨sub, rest, rfl, hsub⟩
  · induction text with
    | nil => simp [matchLoop, matchhere_iff]
    | cons t text ih =>
      rw [matchLoop, Bool.or_eq_true, ih, matchhere_iff]
      constructor
      · rintro (⟨sub, rest, htext, hsub⟩ | ⟨front, sub, rest, rfl, hsub⟩)
        · exact ⟨[], sub, rest, htext, hsub⟩
        · exact ⟨t :: front, sub, rest, rfl, hsub⟩
      · rintro ⟨front, sub, rest, htext, hsub⟩
        cases front with
        | nil => exact .inl ⟨sub, rest, htext, hsub⟩
        | cons u front => exact .inr ⟨front, sub, rest, (List.cons.inj htext).2, hsub⟩

/-! ### The buffer -/

/-- `sizeof(buf)`. -/
def bufSize : ℕ := 1024

/-- `strchr`, as a distance. -/
def strchr (c : ℕ) : List ℕ → Option ℕ
  | [] => none
  | a :: s => if a = 0 then none else if a = c then some 0 else (strchr c s).map (· + 1)

/-- The inner loop of `grep` from `p` on, with a bound on the number of lines: what it writes, and
what `p` points to behind it. -/
def lineLoop (re : List ℕ) : ℕ → List ℕ → List ℕ × List ℕ
  | 0, p => ([], p)
  | n + 1, p =>
    match strchr 10 p with
    | none => ([], p)
    | some q =>
      let out := if grepMatch re (p.take q) then p.take (q + 1) else []
      let r := lineLoop re n (p.drop (q + 1))
      (out ++ r.1, r.2)

/-- `grep` with some bytes in the buffer, where `reads` are what `read` returns in turn: what it
writes. `none` is a store outside of the buffer. -/
def grep (re buf : List ℕ) : List (List ℕ) → Option (List ℕ)
  | [] => some []
  | chunk :: reads =>
    let p := buf ++ chunk
    if bufSize ≤ p.length then none
    else
      let r := lineLoop re p.length p
      -- `if(p == buf) m = 0`
      let buf := if r.2.length = p.length then [] else r.2
      (grep re buf reads).map (r.1 ++ ·)

/-- What `grep` keeps of the buffer for the next read. -/
def kept (p : List ℕ) : List ℕ := if 10 ∈ p then (lines 10 p).2 else []

/-- `read` returns at least one byte, and at most as many as are asked for. -/
def Answers (buf : List ℕ) : List (List ℕ) → Prop
  | [] => True
  | chunk :: reads =>
    (chunk ≠ [] ∧ chunk.length ≤ bufSize - buf.length - 1) ∧ Answers (kept (buf ++ chunk)) reads

/-- What `strchr` finds in a string. -/
theorem strchr_cases (hnul : 0 ∉ p) (c : ℕ) : (strchr c p = none ∧ c ∉ p) ∨
    ∃ l as, p = l ++ c :: as ∧ c ∉ l ∧ strchr c p = some l.length := by
  induction p with
  | nil => exact .inl ⟨rfl, by simp⟩
  | cons a p ih =>
    rw [mem_cons, not_or] at hnul
    rw [strchr, if_neg (Ne.symm hnul.1)]
    by_cases ha : a = c
    · subst a
      exact .inr ⟨[], p, rfl, by simp, if_pos rfl⟩
    · rw [if_neg ha]
      obtain ⟨hnone, hp⟩ | ⟨l, as, rfl, hl, hsome⟩ := ih hnul.2
      · exact .inl ⟨by rw [hnone]; rfl, by simp [hp, Ne.symm ha]⟩
      · exact .inr ⟨a :: l, as, rfl, by simp [hl, Ne.symm ha], by rw [hsome]; rfl⟩

/-- The inner loop writes the lines that match, and stops behind the last one. -/
theorem lineLoop_eq (re : List ℕ) {n : ℕ} (hn : p.length ≤ n) (hnul : 0 ∉ p) :
    lineLoop re n p = (unlines 10 ((lines 10 p).1.filter (grepMatch re)), (lines 10 p).2) := by
  induction n generalizing p with
  | zero =>
    obtain rfl := length_eq_zero_iff.mp (Nat.le_zero.mp hn)
    rfl
  | succ n ih =>
    obtain ⟨hnone, hp⟩ | ⟨l, as, rfl, hl, hsome⟩ := strchr_cases hnul 10
    · rw [lineLoop, hnone, lines_of_not_mem hp]
      rfl
    · have hrest : lineLoop re n as = _ := ih (by simp at hn; omega) (by simp at hnul; tauto)
      rw [lineLoop, hsome, lines_append_cons hl]
      simp only [take_left, filter_cons]
      rw [show l ++ 10 :: as = (l ++ [10]) ++ as by simp, show l.length + 1 = (l ++ [10]).length by simp,
        take_left, drop_left, hrest]
      split_ifs <;> simp

variable {re buf chunk out : List ℕ} {reads : List (List ℕ)}

/-- A round of `grep`. -/
theorem grep_cons (hnul : 0 ∉ buf ++ chunk) (hroom : chunk.length ≤ bufSize - buf.length - 1)
    (hne : chunk ≠ []) (re : List ℕ) (reads : List (List ℕ)) : grep re buf (chunk :: reads) =
      (grep re (kept (buf ++ chunk)) reads).map
        (unlines 10 ((lines 10 (buf ++ chunk)).1.filter (grepMatch re)) ++ ·) := by
  have hpos := length_pos_of_ne_nil hne
  have hkept : (if (lines 10 (buf ++ chunk)).2.length = (buf ++ chunk).length then []
      else (lines 10 (buf ++ chunk)).2) = kept (buf ++ chunk) := by
    unfold kept
    by_cases hmem : 10 ∈ buf ++ chunk
    · rw [if_pos hmem, if_neg]
      intro hlength
      obtain ⟨l, as, hp, hl, -⟩ := (strchr_cases hnul 10).resolve_left fun h => h.2 hmem
      have hsum := congrArg List.length (unlines_lines 10 (buf ++ chunk))
      rw [hp, lines_append_cons hl] at hsum hlength
      simp at hsum hlength
      omega
    · rw [if_neg hmem, lines_of_not_mem hmem, if_pos rfl]
  rw [grep, lineLoop_eq re (Nat.le_refl _) hnul, if_neg (by rw [length_append]; omega)]
  simp only [hkept]

theorem kept_spec {as : List ℕ} (hnul : 0 ∉ p ++ as) : 10 ∉ kept p ∧ 0 ∉ kept p ++ as := by
  rw [mem_append, not_or] at hnul ⊢
  unfold kept
  split_ifs
  · refine ⟨(sep_not_mem_lines 10 p).2, fun hmem => hnul.1 ?_, hnul.2⟩
    rw [← unlines_lines 10 p]
    exact mem_append_right _ hmem
  · exact ⟨by simp, by simp, hnul.2⟩

theorem filter_grepMatch_nil (ls : List (List ℕ)) : ls.filter (grepMatch []) = ls := by
  refine filter_eq_self.mpr fun l _ => ?_
  cases l <;> rfl

/-- When no read is without a newline, `grep` writes the lines that match. -/
theorem grep_of_newlines (re : List ℕ) (hbuf : 10 ∉ buf) (hnul : 0 ∉ buf ++ reads.flatten)
    (hreads : Answers buf reads) (hnew : ∀ chunk ∈ reads, 10 ∈ chunk) : grep re buf reads =
      some (unlines 10 ((lines 10 (buf ++ reads.flatten)).1.filter (grepMatch re))) := by
  induction reads generalizing buf with
  | nil => rw [flatten_nil, append_nil, lines_of_not_mem hbuf]; rfl
  | cons chunk reads ih =>
    obtain ⟨⟨hne, hroom⟩, hreads⟩ := hreads
    rw [flatten_cons, ← append_assoc] at hnul ⊢
    have hkept : kept (buf ++ chunk) = (lines 10 (buf ++ chunk)).2 :=
      if_pos (mem_append_right _ (hnew chunk mem_cons_self))
    obtain ⟨hclean, hnul'⟩ := kept_spec hnul
    rw [grep_cons (fun h => hnul (mem_append_left _ h)) hroom hne,
      ih hclean hnul' hreads fun c hc => hnew c (mem_cons_of_mem _ hc), hkept, Option.map_some,
      ← unlines_append, ← filter_append, lines_append 10 (buf ++ chunk)]

/-- With the empty pattern `grep` writes no more than it reads, and less when a read is without a
newline. -/
theorem length_grep (hbuf : 10 ∉ buf) (hnul : 0 ∉ buf ++ reads.flatten) (hreads : Answers buf reads)
    (hout : grep [] buf reads = some out) : out.length ≤ buf.length + reads.flatten.length ∧
      ((∃ chunk ∈ reads, 10 ∉ chunk) → out.length < buf.length + reads.flatten.length) := by
  induction reads generalizing buf out with
  | nil =>
    obtain rfl := Option.some.inj hout
    simp
  | cons chunk reads ih =>
    obtain ⟨⟨hne, hroom⟩, hreads⟩ := hreads
    have hpos := length_pos_of_ne_nil hne
    rw [flatten_cons, ← append_assoc] at hnul
    obtain ⟨hclean, hnul'⟩ := kept_spec hnul
    rw [grep_cons (fun h => hnul (mem_append_left _ h)) hroom hne] at hout
    obtain ⟨rest, hrest, rfl⟩ := Option.map_eq_some_iff.mp hout
    obtain ⟨hle, hlt⟩ := ih hclean hnul' hreads hrest
    have hsum := congrArg List.length (unlines_lines 10 (buf ++ chunk))
    rw [filter_grepMatch_nil, flatten_cons]
    simp only [length_append] at hsum ⊢
    by_cases hmem : 10 ∈ chunk
    · rw [kept, if_pos (mem_append_right _ hmem)] at hle hlt
      refine ⟨by omega, ?_⟩
      rintro ⟨c, hc, hmiss⟩
      obtain rfl | hc := mem_cons.mp hc
      · exact absurd hmem hmiss
      · have hshort := hlt ⟨c, hc, hmiss⟩
        omega
    · -- the buffer and the read are dropped
      have hnone : 10 ∉ buf ++ chunk := by
        rw [mem_append, not_or]
        exact ⟨hbuf, hmem⟩
      rw [kept, if_neg hnone, length_nil] at hle
      rw [lines_of_not_mem hnone]
      simp only [unlines_nil, length_nil]
      exact ⟨by omega, fun _ => by omega⟩

/-- **Lines.** For every pattern `grep` writes exactly the lines that match, if and only if no read
is without a newline. -/
theorem grep_writes_matching_lines_iff {ls reads : List (List ℕ)} (hls : ∀ l ∈ ls, 0 ∉ l ∧ 10 ∉ l)
    (hcut : reads.flatten = unlines 10 ls) (hreads : Answers [] reads) :
    (∀ re, grep re [] reads = some (unlines 10 (ls.filter (grepMatch re)))) ↔
      ∀ chunk ∈ reads, 10 ∈ chunk := by
  have hnul : 0 ∉ [] ++ reads.flatten := by
    rw [nil_append, hcut, unlines, mem_flatMap]
    rintro ⟨l, hl, hmem⟩
    simp only [mem_append, mem_singleton] at hmem
    obtain hmem | hmem := hmem
    · exact (hls l hl).1 hmem
    · cases hmem
  constructor
  · intro h
    by_contra hmiss
    simp only [not_forall, exists_prop] at hmiss
    have hout := h []
    have hlt := (length_grep (by simp) hnul hreads hout).2 hmiss
    rw [filter_grepMatch_nil, hcut] at hlt
    simp at hlt
  · intro hnew re
    have hlines : (lines 10 (unlines 10 ls ++ [])).1 = _ :=
      congrArg Prod.fst (lines_unlines_append (fun l hl => (hls l hl).2) [])
    rw [grep_of_newlines re (by simp) hnul hreads hnew, nil_append, hcut]
    rw [append_nil] at hlines
    rw [hlines, lines_of_not_mem (by simp), append_nil]

theorem grep_writes_whole_line : grep (str "b*c") [] [str "abc\n"] = some (str "abc\n") := by
  have hcut : [str "abc\n"].flatten = unlines 10 [str "abc"] := by decide
  have hreads : Answers [] [str "abc\n"] := ⟨⟨by decide, by decide⟩, trivial⟩
  exact (grep_writes_matching_lines_iff (by decide) hcut hreads).mpr (by decide) (str "b*c")

theorem grep_drops_partial_line : (∀ l ∈ [str "abc"], 0 ∉ l ∧ 10 ∉ l) ∧
    [str "ab", str "c\n"].flatten = unlines 10 [str "abc"] ∧ Answers [] [str "ab", str "c\n"] ∧
    grepMatch (str "a") (str "abc") = true ∧ grep (str "a") [] [str "ab", str "c\n"] = some [] :=
  ⟨by decide, by decide, ⟨⟨by decide, by decide⟩, ⟨by decide, by decide⟩, trivial⟩, by decide, by decide⟩

end Xv6Draw.Grep
