import Xv6Draw.Ai.Framing
import Xv6Draw.Draw.Reply
import Xv6Draw.Lib.Utf8
import Mathlib.Algebra.Order.BigOperators.Group.List

/-!
# Replies on the serial line

`send_response` of `agent.py` frames a validated body, and the bridge in the guest
receives it into buffers of fixed size. The lines of a body are always short
enough, because the language limits the arguments of a command. Their number is not
limited, so a body fits exactly when the commands of the text that was validated
are short enough in total.
-/

namespace Xv6Draw

open Decimal Fallible Lines List PyText

/-- `send_response`: the bytes of the payload; `none` when a character cannot be
encoded. -/
def sendResponse (body : List ℕ) : Option (List ℕ) :=
  Utf8.encode (str "BEGIN_RESP\n" ++ body.rdropWhile isSpace ++ str "\nEND_RESP\n")

/-- The length of an argument in decimal notation, with the space before it. -/
def argLength (u : Unicode) (arg : List ℕ) : ℕ :=
  match int u arg with
  | some v => (ofInt v).length + 1
  | none => 0

/-- The length of the commands of a text in the notation of the language, each with
a newline, up to its first `END`, which is counted in any case. -/
def commandsLength (u : Unicode) : List (List ℕ) → ℕ
  | [] => 4
  | line :: lines =>
    match split line with
    | [] => commandsLength u lines
    | word :: args =>
      match Command.ofName word with
      | none => commandsLength u lines
      | some command =>
        if command = .«end» then 4
        else command.name.length + (args.map (argLength u)).sum + 1 + commandsLength u lines

/-- The length of the drawing that a text asks for. -/
def drawingLength (u : Unicode) (text : List ℕ) : ℕ :=
  commandsLength u (normalizeCandidateText u text)

theorem length_cleanLine (command : Command) (values : List ℤ) : (cleanLine command values).length =
      command.name.length + (values.map fun v => (ofInt v).length + 1).sum := by
  rw [cleanLine, joinSpace_cons, length_append, length_flatMap, map_map]
  rfl

variable {u : Unicode} {instrs : List Instr}

/-- The arguments that `int` reads have the length of what it reads. -/
theorem sum_argLength {args : List (List ℕ)} {values : List ℤ}
    (hread : args.mapM (readInt u) = .ok values) :
    (args.map (argLength u)).sum = (values.map fun v => (ofInt v).length + 1).sum := by
  have hitems := forall₂_of_mapM hread
  clear hread
  induction hitems with
  | nil => rfl
  | @cons arg v args values hfirst hrest ih =>
    have hint : int u arg = some v := by
      unfold readInt at hfirst
      split at hfirst
      · next w hw => rw [hw, Except.ok.inj hfirst]
      · exact absurd hfirst nofun
    simp only [map_cons, sum_cons, ih, argLength, hint]

/-- The loop of the validation collects lines of the length of the commands. -/
theorem length_validateLoop {lines cleaned cleaned' : List (List ℕ)} {saw sawEnd sawCommand : Bool}
    (h : validateLoop u lines cleaned saw = .ok (cleaned', sawEnd, sawCommand)) :
    (unlines 10 (if sawEnd then cleaned' else cleaned' ++ [str "END"])).length =
      (unlines 10 cleaned).length + commandsLength u lines := by
  have hlast : (unlines 10 [str "END"]).length = 4 := by decide
  induction lines generalizing cleaned saw with
  | nil =>
    cases h
    simp [commandsLength, str]
  | cons line lines ih =>
    rw [validateLoop] at h
    rw [commandsLength]
    cases hsplit : split line with
    | nil =>
      rw [hsplit] at h
      simp at h
    | cons word args =>
      simp only [hsplit] at h ⊢
      cases hname : Command.ofName word with
      | none =>
        simp only [hname] at h ⊢
        exact ih h
      | some command =>
        simp only [hname] at h ⊢
        split_ifs at h with hend
        · cases h
          simp only [if_pos hend, if_true, unlines_append, length_append, hlast]
        · obtain ⟨clean, hclean, hrest⟩ := bind_eq_ok.mp h
          obtain ⟨_, -, hclean⟩ := bind_eq_ok.mp hclean
          obtain ⟨values, hvalues, hclean⟩ := bind_eq_ok.mp hclean
          obtain ⟨_, -, hclean⟩ := bind_eq_ok.mp hclean
          have hlen : clean.length = command.name.length + (args.map (argLength u)).sum := by
            rw [← Except.ok.inj hclean, length_cleanLine, sum_argLength hvalues]
          simp only [ih hrest, if_neg hend, unlines_append, length_append, unlines_cons,
            unlines_nil, length_singleton, hlen]
          omega

/-- A validated body and its last newline have the length of the drawing. -/
theorem length_validateResponse {text r : List ℕ}
    (h : validateResponse u text = .ok r) : r.length + 1 = drawingLength u text := by
  obtain ⟨⟨cleaned, sawEnd, sawCommand⟩, hloop, h⟩ := bind_eq_ok.mp h
  have hlen := length_validateLoop hloop
  obtain ⟨instrs, hcleaned⟩ := exists_instrs_of_validateLoop hloop
  have hconcat : (if sawEnd then cleaned else cleaned ++ [str "END"]) =
      instrs.map Instr.line ++ [str "END"] := by
    cases sawEnd <;> simp [hcleaned]
  simp only [hconcat] at h hlen
  split_ifs at h
  rw [← Except.ok.inj h, joinNewline_concat, drawingLength]
  simp only [unlines_append, unlines_cons, unlines_nil, length_append, length_cons,
    length_nil] at hlen ⊢
  omega

/-- A small number has few digits. -/
theorem length_ofInt_le {v : ℤ} (hv : v.natAbs ≤ 4096) : (ofInt v).length ≤ 5 := by
  have hdigits : ∀ n, n ≤ 4096 → (decimal n).length ≤ 4 := by
    intro n hn
    rw [decimal_eq, decimal_eq (n / 10), decimal_eq (n / 10 / 10), decimal_eq (n / 10 / 10 / 10)]
    split_ifs
    all_goals first
      | omega
      | simp
  have hlen := hdigits v.natAbs hv
  unfold ofInt
  split_ifs
  · rw [length_cons]
    omega
  · omega

/-- A command has at most 34 arguments, those of a polygon with 16 points. -/
theorem Instr.length_values_le (i : Instr) : i.values.length ≤ 34 := by
  obtain ⟨command, values, hend, harity, hcoords, hcolor⟩ := i
  simp only
  cases command
  case polygon | fillpolygon =>
    simp only [HasArity, Command.arity] at harity
    omega
  all_goals
    simp only [HasArity, Command.arity] at harity
    omega

/-- The line of an instruction fits the line buffer of the guest. -/
theorem Instr.length_line_lt (i : Instr) : i.line.length < aiLineMax := by
  have hname : i.command.name.length ≤ 12 := by cases i.command <;> decide
  have hvalues : (i.values.map fun v => (ofInt v).length + 1).sum ≤ i.values.length * 6 := by
    have hsum := sum_le_card_nsmul (i.values.map fun v => (ofInt v).length + 1) 6 ?_
    · rwa [length_map, Nat.nsmul_eq_mul] at hsum
    intro k hk
    obtain ⟨v, hv, rfl⟩ := mem_map.mp hk
    have hdigits := length_ofInt_le (i.natAbs_le hv)
    omega
  have hcount := i.length_values_le
  have hmax : aiLineMax = 1024 := rfl
  rw [line, length_cleanLine]
  omega

theorem mem_drawing_lines {l : List ℕ} (hl : l ∈ instrs.map Instr.line ++ [str "END"]) :
    l ≠ [] ∧ l.length < aiLineMax ∧ ∀ k ∈ l, 32 ≤ k ∧ k ≤ 90 := by
  rw [mem_append, mem_singleton] at hl
  rcases hl with hline | rfl
  · obtain ⟨i, -, rfl⟩ := mem_map.mp hline
    refine ⟨cleanLine_ne_nil _ _, i.length_line_lt, ?_⟩
    intro k hk
    have hchar := of_mem_cleanLine hk
    unfold IsDigit at hchar
    omega
  · decide

/-- The lines of a drawing, as the guest receives them. -/
theorem isLine_of_mem_drawing {l : List ℕ}
    (hl : l ∈ instrs.map Instr.line ++ [str "END"]) : IsLine l ∧ untilNul l ≠ endResp := by
  obtain ⟨hne, hlen, hchars⟩ := mem_drawing_lines hl
  have hnot : ∀ k, k < 32 ∨ 90 < k → k ∉ l := by
    intro k hk hmem
    have hchar := hchars k hmem
    omega
  refine ⟨⟨hnot 10 (by omega), hnot 13 (by omega), hlen⟩, ?_⟩
  rw [untilNul_of_not_mem (hnot 0 (by omega))]
  rintro rfl
  exact hnot 95 (by omega) (by decide)

/-- The payload of a drawing is the frame of its lines. -/
theorem sendResponse_drawingText (instrs : List Instr) : sendResponse (drawingText instrs) =
      some (unlines 10 ([beginResp] ++ (instrs.map Instr.line ++ [str "END"]) ++ [endResp])) := by
  have hstrip : (drawingText instrs).rdropWhile isSpace = drawingText instrs := by
    rw [drawingText, joinNewline_concat, show str "END" = str "EN" ++ [68] from rfl,
      ← append_assoc, rdropWhile_concat_neg _ _ _ (by decide)]
  have hframe : str "BEGIN_RESP\n" ++ drawingText instrs ++ str "\nEND_RESP\n" =
      unlines 10 ([beginResp] ++ (instrs.map Instr.line ++ [str "END"]) ++ [endResp]) := by
    rw [drawingText, joinNewline_concat]
    simp [str, beginResp, endResp]
  have hascii : ∀ c ∈ unlines 10 ([beginResp] ++ (instrs.map Instr.line ++ [str "END"]) ++ [endResp]),
      c < 0x80 := by
    intro c hc
    obtain ⟨l, hl, hcl⟩ := mem_flatMap.mp hc
    rw [mem_append, mem_singleton] at hcl
    rcases hcl with hmem | rfl
    · have hmarkers : (∀ k ∈ beginResp, k < 0x80) ∧ ∀ k ∈ endResp, k < 0x80 := by decide
      rw [mem_append, mem_append, mem_singleton, mem_singleton] at hl
      rcases hl with (rfl | hline) | rfl
      · exact hmarkers.1 c hmem
      · have hchar := (mem_drawing_lines hline).2.2 c hmem
        omega
      · exact hmarkers.2 c hmem
    · decide
  rw [sendResponse, hstrip, hframe, Utf8.encode_of_ascii hascii]

/-- The guest receives a drawing that fits. -/
theorem feedAi_drawing (ai₀ : Ai) (hfits : (drawingText instrs).length + 1 ≤ aiResponseMax - 1) :
    ∃ ai, feedAi (aiClaim ai₀)
        (unlines 10 ([beginResp] ++ (instrs.map Instr.line ++ [str "END"]) ++ [endResp])) = some ai ∧
      ai.complete = true ∧ ai.failed = false ∧
      contents ai.response ai.responseLen = drawingText instrs ++ [10] := by
  have hbody : unlines 10 (instrs.map Instr.line ++ [str "END"]) = drawingText instrs ++ [10] := by
    rw [drawingText, joinNewline_concat]
    simp
  have hlen : (unlines 10 (instrs.map Instr.line ++ [str "END"])).length ≤ aiResponseMax - 1 := by
    rwa [hbody, length_append, length_singleton]
  have hframe : Parser.start.feed (unlines 10 ([] ++ [beginResp] ++
      (instrs.map Instr.line ++ [str "END"]) ++ [endResp]) ++ []) = .done false _ :=
    Parser.feed_frame (by simp) (fun l hl => isLine_of_mem_drawing hl) hlen []
  rw [nil_append, append_nil, hbody] at hframe
  obtain ⟨ai, hfeed, hinv, hmatch⟩ := feedAi_spec (aiClaim_inv ai₀) rfl
    (unlines 10 ([beginResp] ++ (instrs.map Instr.line ++ [str "END"]) ++ [endResp]))
  change (Parser.start.feed _).Matches (aiClaim ai₀) ai at hmatch
  rw [hframe] at hmatch
  obtain ⟨hparser, -, -, hcomplete, hfailed⟩ := hmatch
  exact ⟨ai, hfeed, hcomplete, hfailed, congrArg Parser.response hparser⟩

/-- The guest never holds more than its buffer. -/
theorem length_le_of_feedAi {ai₀ ai : Ai} {bs r : List ℕ} (hfeed : feedAi (aiClaim ai₀) bs = some ai)
    (hresponse : contents ai.response ai.responseLen = r ++ [10]) :
    r.length + 1 ≤ aiResponseMax - 1 := by
  obtain ⟨ai', hfeed', hinv, -⟩ := feedAi_spec (aiClaim_inv ai₀) rfl bs
  rw [hfeed, Option.some.injEq] at hfeed'
  subst ai'
  have hlen := congrArg List.length hresponse
  rw [contents_length, length_append, length_singleton] at hlen
  have hroom := hinv.responseLen_le
  omega

/-- **Validated replies in the guest's buffers.** Every line of a validated body is
short enough for the guest. Its payload makes an admitted query complete without
failure and hold the body with a newline exactly when the commands of the validated
text have at most `AI_RESPONSE_MAX - 1` characters. -/
theorem validated_reply_fits_iff (u : Unicode) (ai₀ : Ai) {text r : List ℕ}
    (h : validateResponse u text = .ok r) : (∀ l ∈ splitlines r, l.length < aiLineMax) ∧
    ((∃ payload ai, sendResponse r = some payload ∧ feedAi (aiClaim ai₀) payload = some ai ∧
        ai.complete = true ∧ ai.failed = false ∧ contents ai.response ai.responseLen = r ++ [10]) ↔
      drawingLength u text ≤ aiResponseMax - 1) := by
  have hlen := length_validateResponse h
  obtain ⟨instrs, rfl⟩ := exists_drawing_of_validateResponse h
  constructor
  · have hlines : splitlines (drawingText instrs) = instrs.map Instr.line ++ [str "END"] := by
      apply splitlines_joinNewline
      intro l hl
      obtain ⟨hne, -, hchars⟩ := mem_drawing_lines hl
      refine ⟨hne, ?_⟩
      intro k hk
      have hchar := hchars k hk
      exact isLineBreak_of_visible (by omega) (by omega)
    rw [hlines]
    intro l hl
    exact (mem_drawing_lines hl).2.1
  · rw [← hlen]
    constructor
    · rintro ⟨payload, ai, -, hfeed, -, -, hresponse⟩
      exact length_le_of_feedAi hfeed hresponse
    · intro hfits
      obtain ⟨ai, hfeed, hcomplete, hfailed, hresponse⟩ := feedAi_drawing ai₀ hfits
      exact ⟨_, ai, sendResponse_drawingText instrs, hfeed, hcomplete, hfailed, hresponse⟩

/-- A reply of two commands is received. -/
theorem short_reply_fits : ∃ payload ai, sendResponse (str "CLEAR 9\nPIXEL 1 2 3\nEND") = some payload ∧
      feedAi (aiClaim aiInit) payload = some ai ∧ ai.complete = true ∧ ai.failed = false ∧
      contents ai.response ai.responseLen = str "CLEAR 9\nPIXEL 1 2 3\nEND" ++ [10] := by
  have hvalid : validateResponse Unicode.ascii (str "clear 9; pixel (1, 2, 3)") =
      .ok (str "CLEAR 9\nPIXEL 1 2 3\nEND") := by decide +kernel
  exact (validated_reply_fits_iff Unicode.ascii aiInit hvalid).2.mpr (by decide +kernel)

/-- The instruction `CLEAR 1`. -/
def clearOne : Instr :=
  ⟨.clear, [1], by decide, rfl, by decide, by decide⟩

theorem length_drawingText_replicate (n : ℕ) :
    (drawingText (replicate n clearOne)).length = 8 * n + 3 := by
  have hline : clearOne.line.length = 7 := by decide
  have hend : (str "END").length = 3 := by decide
  rw [drawingText, joinNewline_concat, length_append, unlines, length_flatMap,
    map_map, map_replicate, sum_replicate, Function.comp_apply, length_append,
    hline, hend, Nat.nsmul_eq_mul, length_singleton, Nat.mul_comm]

/-- A validated reply of 4096 commands is one that no admitted query receives. -/
theorem long_reply_is_not_received :
    validateResponse Unicode.ascii (drawingText (replicate 4096 clearOne)) =
        .ok (drawingText (replicate 4096 clearOne)) ∧
      ¬ ∃ payload ai, sendResponse (drawingText (replicate 4096 clearOne)) = some payload ∧
        feedAi (aiClaim aiInit) payload = some ai ∧ ai.complete = true ∧ ai.failed = false ∧
        contents ai.response ai.responseLen =
          drawingText (replicate 4096 clearOne) ++ [10] := by
  refine ⟨validateResponse_drawingText _ _, ?_⟩
  rintro ⟨payload, ai, -, hfeed, -, -, hresponse⟩
  have hfits := length_le_of_feedAi hfeed hresponse
  have hmax : aiResponseMax = 32768 := rfl
  rw [length_drawingText_replicate, hmax] at hfits
  omega

end Xv6Draw
