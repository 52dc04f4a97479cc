import Xv6Draw.CString
import Xv6Draw.Lib.Lines
import Xv6Draw.Lib.PyText
import Xv6Draw.Lib.Utf8

/-!
# Requests on the serial line

`aiquery` writes a request as the lines `BEGIN_REQ`, `DRAW`, the prompt and
`END_REQ`, right behind whatever the console has written before. The agent reads
the line with `read_request`, which waits for a line `BEGIN_REQ`. It finds the
request exactly when the console output before it leaves no visible character on
an unfinished line, because the first marker is then a line of its own.
-/

namespace Xv6Draw

open Lines List Option PyText

/-- The marker line that opens a request. -/
def beginReq : List ℕ := str "BEGIN_REQ"

/-- The marker line that closes a request. -/
def endReq : List ℕ := str "END_REQ"

/-- The only mode of a request. -/
def drawMode : List ℕ := str "DRAW"

/-- `ai_send_prompt`: line ends become spaces. -/
def aiSendPrompt (prompt : List ℕ) : List ℕ := prompt.map fun c => if c = 10 ∨ c = 13 then 32 else c

/-- The bytes that `aiquery` sends for a prompt. -/
def aiRequest (prompt : List ℕ) : List ℕ :=
  str "BEGIN_REQ\nDRAW\n" ++ aiSendPrompt prompt ++ str "\nEND_REQ\n"

/-- A binary socket file, as the results that `readline` has still to return. -/
abbrev SockFile := List (List ℕ)

/-- The socket file of a byte stream: every line comes with its newline, and the
last one may be without. -/
def sockFile (bs : List ℕ) : SockFile :=
  (lines 10 bs).1.map (· ++ [10]) ++ if (lines 10 bs).2 = [] then [] else [(lines 10 bs).2]

/-- A carriage return or a newline. -/
def isLineEnd (c : ℕ) : Bool := c == 13 || c == 10

/-- `raw.decode("utf-8", "ignore").rstrip("\r\n")`. -/
def decodeLine (raw : List ℕ) : List ℕ := (Utf8.decode raw).rdropWhile isLineEnd

/-- The first loop of `read_request`: what is left behind the opening marker. -/
def skipToBegin : SockFile → Option SockFile
  | [] => none
  | raw :: file => if decodeLine raw = beginReq then some file else skipToBegin file

/-- The last loop of `read_request`: the lines before the closing marker, and
what is left behind it. -/
def collectPrompt : SockFile → Option (List (List ℕ) × SockFile)
  | [] => none
  | raw :: file =>
    if decodeLine raw = endReq then some ([], file)
    else (collectPrompt file).map fun r => (decodeLine raw :: r.1, r.2)

/-- `read_request` behind the opening marker. -/
def readBody : SockFile → Option (List ℕ) × SockFile
  | [] => (none, [])
  | mode :: file =>
    match collectPrompt file with
    | none => (none, [])
    | some (promptLines, file) =>
      if decodeLine mode ≠ drawMode then (some [], file)
      else (some (strip (joinSpace (promptLines.filter (· ≠ [])))), file)

/-- `read_request`, with the socket file that it leaves. -/
def readRequest (file : SockFile) : Option (List ℕ) × SockFile :=
  match skipToBegin file with
  | none => (none, [])
  | some file => readBody file

/-- The results of successive calls of `read_request`. -/
def readRequests : ℕ → SockFile → List (Option (List ℕ))
  | 0, _ => []
  | n + 1, file => (readRequest file).1 :: readRequests n (readRequest file).2

/-- Console output and prompts on the serial line, in turn. -/
def requestStream (reqs : List (List ℕ × List ℕ)) : List ℕ :=
  reqs.flatMap fun r => r.1 ++ aiRequest r.2

/-- An ASCII prompt whose text is not the closing marker. -/
def PromptOk (prompt : List ℕ) : Prop := (∀ c ∈ prompt, c < 0x80) ∧ aiSendPrompt prompt ≠ endReq

/-- Console output that lets the agent find the request behind it: its
unfinished line decodes to nothing, and no complete line reads as the opening
marker. -/
def Resync (p : List ℕ) : Prop :=
  Utf8.decode (lines 10 p).2 = [] ∧ ∀ l ∈ (lines 10 p).1, decodeLine l ≠ beginReq

instance (p : List ℕ) : Decidable (Resync p) := inferInstanceAs (Decidable (_ ∧ _))

/-- The first line of a stream is the first result of `readline`. -/
theorem sockFile_line {l : List ℕ} (hl : 10 ∉ l) (bs : List ℕ) :
    sockFile (l ++ 10 :: bs) = (l ++ [10]) :: sockFile bs := by
  simp [sockFile, lines_append_cons hl]

theorem sockFile_unlines {ls : List (List ℕ)} (hls : ∀ l ∈ ls, 10 ∉ l) (bs : List ℕ) :
    sockFile (unlines 10 ls ++ bs) = ls.map (· ++ [10]) ++ sockFile bs := by
  simp [sockFile, lines_unlines_append hls]

theorem decodeLine_newline (l : List ℕ) : decodeLine (l ++ [10]) = decodeLine l := by
  rw [decodeLine, Utf8.decode_append_of_ascii (by simp), rdropWhile_concat_pos _ _ _ (by rfl)]
  rfl

/-- A line that ends in visible ASCII text keeps it. -/
theorem decodeLine_append {text : List ℕ} (htext : ∀ c ∈ text, c < 0x80) (hne : text ≠ [])
    (hcr : 13 ∉ text) (hnl : 10 ∉ text) (l : List ℕ) :
    decodeLine (l ++ text) = Utf8.decode l ++ text := by
  obtain ⟨init, c, rfl⟩ := (eq_nil_or_concat text).resolve_left hne
  have hc : ¬ (isLineEnd c = true) := by
    simp only [isLineEnd, Bool.or_eq_true, beq_iff_eq]
    rintro (rfl | rfl)
    · simp at hcr
    · simp at hnl
  rw [decodeLine, Utf8.decode_append_of_ascii htext, concat_eq_append, ← append_assoc,
    rdropWhile_concat_neg _ _ _ hc]

/-- An ASCII line without line ends decodes to itself. -/
theorem decodeLine_of_ascii {text : List ℕ} (htext : ∀ c ∈ text, c < 0x80) (hcr : 13 ∉ text)
    (hnl : 10 ∉ text) : decodeLine text = text := by
  by_cases hne : text = []
  · subst text
    rfl
  · have h := decodeLine_append htext hne hcr hnl []
    rwa [nil_append] at h

theorem aiSendPrompt_not_mem (prompt : List ℕ) :
    10 ∉ aiSendPrompt prompt ∧ 13 ∉ aiSendPrompt prompt := by
  have hmap : ∀ d ∈ aiSendPrompt prompt, d ≠ 10 ∧ d ≠ 13 := by
    intro d hd
    obtain ⟨c, -, rfl⟩ := List.mem_map.mp hd
    split_ifs with hend
    · decide
    · exact not_or.mp hend
  exact ⟨fun h => (hmap 10 h).1 rfl, fun h => (hmap 13 h).2 rfl⟩

variable {prompt p : List ℕ} {file left : SockFile}

theorem aiSendPrompt_ascii (h : ∀ c ∈ prompt, c < 0x80) :
    ∀ c ∈ aiSendPrompt prompt, c < 0x80 := by
  intro c hc
  obtain ⟨d, hd, rfl⟩ := List.mem_map.mp hc
  have hlt := h d hd
  split_ifs
  · decide
  · exact hlt

theorem decodeLine_prompt (h : PromptOk prompt) :
    decodeLine (aiSendPrompt prompt ++ [10]) = aiSendPrompt prompt := by
  obtain ⟨hnl, hcr⟩ := aiSendPrompt_not_mem prompt
  rw [decodeLine_newline, decodeLine_of_ascii (aiSendPrompt_ascii h.1) hcr hnl]

theorem decodeLine_markers : decodeLine (beginReq ++ [10]) = beginReq ∧
    decodeLine (drawMode ++ [10]) = drawMode ∧ decodeLine (endReq ++ [10]) = endReq := by
  decide

theorem decodeLine_begin (l : List ℕ) :
    decodeLine (l ++ beginReq ++ [10]) = Utf8.decode l ++ beginReq := by
  rw [decodeLine_newline, decodeLine_append (by decide) (by decide) (by decide) (by decide)]

/-- The socket file of console output and a request: the marker is glued to the
unfinished line. -/
theorem sockFile_request (p prompt bs : List ℕ) :
    sockFile (p ++ aiRequest prompt ++ bs) = (lines 10 p).1.map (· ++ [10]) ++
      [(lines 10 p).2 ++ beginReq ++ [10], drawMode ++ [10], aiSendPrompt prompt ++ [10],
        endReq ++ [10]] ++ sockFile bs := by
  obtain ⟨hls, hq⟩ := sep_not_mem_lines 10 p
  have hstream : p ++ aiRequest prompt ++ bs = unlines 10 (lines 10 p).1 ++
      ((lines 10 p).2 ++ beginReq ++ 10 :: (drawMode ++ 10 :: (aiSendPrompt prompt ++
        10 :: (endReq ++ 10 :: bs)))) := by
    conv_lhs => rw [← unlines_lines 10 p]
    simp [aiRequest, beginReq, drawMode, endReq, str]
  have hglued : 10 ∉ (lines 10 p).2 ++ beginReq := by
    rw [mem_append, not_or]
    exact ⟨hq, by decide⟩
  rw [hstream, sockFile_unlines hls, sockFile_line hglued, sockFile_line (by decide),
    sockFile_line (aiSendPrompt_not_mem prompt).1, sockFile_line (by decide)]
  simp

/-- Lines that do not read as the opening marker are skipped. -/
theorem skipToBegin_append_of_none (h : skipToBegin file = none)
    (rest : SockFile) : skipToBegin (file ++ rest) = skipToBegin rest := by
  induction file with
  | nil => rfl
  | cons raw file ih =>
    simp only [skipToBegin] at h
    split_ifs at h with hbegin
    rw [cons_append, skipToBegin, if_neg hbegin, ih h]

/-- An opening marker is found whatever follows. -/
theorem skipToBegin_append_of_some (h : skipToBegin file = some left)
    (rest : SockFile) : skipToBegin (file ++ rest) = some (left ++ rest) := by
  induction file with
  | nil => simp [skipToBegin] at h
  | cons raw file ih =>
    simp only [skipToBegin] at h
    rw [cons_append, skipToBegin]
    split_ifs at h with hbegin
    · rw [if_pos hbegin, ← some.inj h]
    · rw [if_neg hbegin, ih h]

/-- No opening marker is found exactly when no line reads as one. -/
theorem skipToBegin_eq_none :
    skipToBegin file = none ↔ ∀ raw ∈ file, decodeLine raw ≠ beginReq := by
  induction file with
  | nil => simp [skipToBegin]
  | cons raw file ih =>
    rw [skipToBegin, forall_mem_cons]
    by_cases hbegin : decodeLine raw = beginReq
    · simp [hbegin]
    · rw [if_neg hbegin, ih]
      exact ⟨fun h => ⟨hbegin, h⟩, fun h => h.2⟩

/-- Lines before the closing marker are all collected. -/
theorem collectPrompt_append_of_none (h : collectPrompt file = none)
    (rest : SockFile) : collectPrompt (file ++ rest) =
      (collectPrompt rest).map fun r => (file.map decodeLine ++ r.1, r.2) := by
  induction file with
  | nil => simp
  | cons raw file ih =>
    simp only [collectPrompt] at h
    split_ifs at h with hend
    have hfile : collectPrompt file = none := by simpa using h
    rw [cons_append, collectPrompt, if_neg hend, ih hfile]
    cases collectPrompt rest <;> simp

/-- A closing marker is found whatever follows. -/
theorem collectPrompt_append_of_some {promptLines : List (List ℕ)}
    (h : collectPrompt file = some (promptLines, left)) (rest : SockFile) :
    collectPrompt (file ++ rest) = some (promptLines, left ++ rest) := by
  induction file generalizing promptLines with
  | nil => simp [collectPrompt] at h
  | cons raw file ih =>
    simp only [collectPrompt] at h
    rw [cons_append, collectPrompt]
    split_ifs at h with hend
    · obtain ⟨rfl, rfl⟩ := Prod.mk.inj (some.inj h)
      rw [if_pos hend]
    · obtain ⟨⟨ls, left'⟩, hfile, hpair⟩ := Option.map_eq_some_iff.mp h
      obtain ⟨rfl, rfl⟩ := Prod.mk.inj hpair
      rw [if_neg hend, ih hfile]
      rfl

/-- The end of a request behind its prompt line. -/
theorem collectPrompt_request (h : PromptOk prompt) (rest : SockFile) :
    collectPrompt ((aiSendPrompt prompt ++ [10]) :: (endReq ++ [10]) :: rest) =
      some ([aiSendPrompt prompt], rest) := by
  rw [collectPrompt, decodeLine_prompt h, if_neg h.2, collectPrompt, decodeLine_markers.2.2, if_pos rfl]
  rfl

/-- Behind console output that keeps the agent in step, a request is read and
the stream is left behind it. -/
theorem readRequest_of_resync (hp : Resync p) (hprompt : PromptOk prompt) (bs : List ℕ) :
    readRequest (sockFile (p ++ aiRequest prompt ++ bs)) =
      (some (strip (aiSendPrompt prompt)), sockFile bs) := by
  have hskip : skipToBegin ((lines 10 p).1.map (· ++ [10])) = none := by
    rw [skipToBegin_eq_none]
    intro raw hraw
    obtain ⟨l, hl, rfl⟩ := List.mem_map.mp hraw
    rw [decodeLine_newline]
    exact hp.2 l hl
  have hjoin : strip (joinSpace ([aiSendPrompt prompt].filter (· ≠ []))) =
      strip (aiSendPrompt prompt) := by
    by_cases hempty : aiSendPrompt prompt = []
    · simp [hempty, joinSpace]
    · simp [hempty, joinSpace]
  rw [sockFile_request, append_assoc, readRequest, skipToBegin_append_of_none hskip,
    cons_append, skipToBegin, decodeLine_begin, hp.1, nil_append, if_pos rfl]
  simp only [cons_append, nil_append, readBody, collectPrompt_request hprompt,
    decodeLine_markers.2.1, ne_eq, not_true_eq_false, if_false]
  rw [← hjoin]

/-- Without an opening marker of its own, a request is not read at all. -/
theorem readRequest_of_glued (hp : ∀ l ∈ (lines 10 p).1, decodeLine l ≠ beginReq)
    (hq : Utf8.decode (lines 10 p).2 ≠ []) (hprompt : PromptOk prompt)
    (hbegin : aiSendPrompt prompt ≠ beginReq) :
    (readRequest (sockFile (p ++ aiRequest prompt))).1 = none := by
  have hnone : skipToBegin (sockFile (p ++ aiRequest prompt)) = none := by
    have hfile := sockFile_request p prompt []
    rw [append_nil] at hfile
    rw [hfile, skipToBegin_eq_none]
    intro raw hraw
    have hglued : Utf8.decode (lines 10 p).2 ++ beginReq ≠ beginReq := by
      intro heq
      exact hq (by simpa using heq)
    simp only [sockFile, lines, map_nil, if_true, append_nil, mem_append,
      List.mem_map, mem_cons, not_mem_nil, or_false] at hraw
    rcases hraw with ⟨l, hl, rfl⟩ | rfl | rfl | rfl | rfl
    · rw [decodeLine_newline]
      exact hp l hl
    · rwa [decodeLine_begin]
    · rw [decodeLine_markers.2.1]
      decide
    · rwa [decodeLine_prompt hprompt]
    · rw [decodeLine_markers.2.2]
      decide
  rw [readRequest, hnone]

theorem promptOk_singleton {c : ℕ} (hc : c < 0x80) : PromptOk [c] := by
  refine ⟨by simpa using hc, ?_⟩
  intro heq
  have hlen := congrArg List.length heq
  simp [aiSendPrompt, endReq, str] at hlen

/-- What `read_request` returns behind an opening marker that stands before the
request: it does not depend on the prompt, or it is empty, or it holds the text of
the request's own opening marker. -/
theorem readBody_of_early_begin (left : SockFile) (q : List ℕ) : (∃ text, ∀ prompt, PromptOk prompt →
      (readBody (left ++ [q ++ beginReq ++ [10], drawMode ++ [10], aiSendPrompt prompt ++ [10],
        endReq ++ [10]])).1 = some text) ∨ (∀ prompt, PromptOk prompt → ∃ text,
      (readBody (left ++ [q ++ beginReq ++ [10], drawMode ++ [10], aiSendPrompt prompt ++ [10],
        endReq ++ [10]])).1 = some text ∧ (text = [] ∨ 66 ∈ text)) := by
  have hglued : Utf8.decode q ++ beginReq ≠ endReq ∧ Utf8.decode q ++ beginReq ≠ drawMode := by
    constructor
    · intro heq
      have hlen := congrArg List.length heq
      simp [beginReq, endReq, str] at hlen
    · intro heq
      have hlen := congrArg List.length heq
      simp [beginReq, drawMode, str] at hlen
  have hdraw : drawMode ≠ endReq := by decide
  cases left with
  | nil =>
    -- the glued marker is taken for the mode
    refine .inl ⟨[], ?_⟩
    intro prompt hprompt
    have hcollect : collectPrompt [drawMode ++ [10], aiSendPrompt prompt ++ [10], endReq ++ [10]] =
        some ([drawMode, aiSendPrompt prompt], []) := by
      rw [collectPrompt, decodeLine_markers.2.1, if_neg hdraw, collectPrompt_request hprompt]
      rfl
    simp only [nil_append, readBody, hcollect, decodeLine_begin, ne_eq, hglued.2,
      not_false_eq_true, if_true]
  | cons mode left =>
    cases hleft : collectPrompt left with
    | some found =>
      refine .inl ⟨(readBody (mode :: left)).1.getD [], ?_⟩
      intro prompt _
      simp only [cons_append, readBody, collectPrompt_append_of_some hleft, hleft]
      split_ifs <;> rfl
    | none =>
      refine .inr ?_
      intro prompt hprompt
      have hcollect : collectPrompt (left ++ [q ++ beginReq ++ [10], drawMode ++ [10],
          aiSendPrompt prompt ++ [10], endReq ++ [10]]) =
          some (left.map decodeLine ++ [Utf8.decode q ++ beginReq, drawMode, aiSendPrompt prompt],
            []) := by
        rw [collectPrompt_append_of_none hleft, collectPrompt, decodeLine_begin, if_neg hglued.1,
          collectPrompt, decodeLine_markers.2.1, if_neg hdraw, collectPrompt_request hprompt]
        rfl
      simp only [cons_append, readBody, hcollect]
      split_ifs with hmode
      · exact ⟨[], rfl, .inl rfl⟩
      · refine ⟨_, rfl, .inr ?_⟩
        have hmem : (66 : ℕ) ∈ Utf8.decode q ++ beginReq := mem_append_right _ (by decide)
        apply mem_strip (by decide)
        apply mem_joinSpace hmem
        rw [mem_filter]
        have hne : Utf8.decode q ++ beginReq ≠ [] := ne_nil_of_mem hmem
        exact ⟨by simp, decide_eq_true hne⟩

/-- A complete line that reads as the opening marker makes the agent miss one of
the requests `x` and `y`. -/
theorem readRequest_of_early_begin (hskip : skipToBegin ((lines 10 p).1.map (· ++ [10])) = some left) :
    ¬ ∀ prompt, PromptOk prompt →
      (readRequest (sockFile (p ++ aiRequest prompt))).1 = some (strip (aiSendPrompt prompt)) := by
  intro hread
  have hbody : ∀ prompt, PromptOk prompt →
      (readBody (left ++ [(lines 10 p).2 ++ beginReq ++ [10], drawMode ++ [10],
        aiSendPrompt prompt ++ [10], endReq ++ [10]])).1 = some (strip (aiSendPrompt prompt)) := by
    intro prompt hprompt
    have hfile := sockFile_request p prompt []
    rw [append_nil, append_assoc] at hfile
    rw [← hread prompt hprompt, hfile, readRequest, skipToBegin_append_of_some hskip]
    simp [sockFile, lines]
  have hokx : PromptOk (str "x") := promptOk_singleton (by decide)
  have hoky : PromptOk (str "y") := promptOk_singleton (by decide)
  have hx := hbody (str "x") hokx
  have hy := hbody (str "y") hoky
  rcases readBody_of_early_begin left (lines 10 p).2 with ⟨text, hfixed⟩ | hmarked
  · rw [hfixed _ hokx] at hx
    rw [hfixed _ hoky, hx] at hy
    exact absurd hy (by decide)
  · obtain ⟨text, htext, hcases⟩ := hmarked (str "x") hokx
    rw [htext, some.injEq] at hx
    subst hx
    exact absurd hcases (by decide)

/-- **Resynchronisation.** The agent reads every request behind the console
output `p` exactly when `p` ends in no visible unfinished line and holds no line
that reads as the opening marker; and it reads a whole sequence of requests, each
behind such output. -/
theorem readRequest_resyncs_iff (p : List ℕ) (reqs : List (List ℕ × List ℕ)) :
    ((∀ prompt, PromptOk prompt →
      (readRequest (sockFile (p ++ aiRequest prompt))).1 = some (strip (aiSendPrompt prompt))) ↔
        Resync p) ∧ ((∀ r ∈ reqs, Resync r.1 ∧ PromptOk r.2) →
      readRequests reqs.length (sockFile (requestStream reqs)) =
        reqs.map fun r => some (strip (aiSendPrompt r.2))) := by
  refine ⟨⟨?_, ?_⟩, ?_⟩
  · intro hread
    cases hskip : skipToBegin ((lines 10 p).1.map (· ++ [10])) with
    | some left => exact absurd hread (readRequest_of_early_begin hskip)
    | none =>
      have hlines : ∀ l ∈ (lines 10 p).1, decodeLine l ≠ beginReq := by
        intro l hl
        rw [← decodeLine_newline]
        exact skipToBegin_eq_none.mp hskip _ (mem_map_of_mem hl)
      refine ⟨?_, hlines⟩
      by_contra hq
      have hok : PromptOk (str "x") := promptOk_singleton (by decide)
      have hlost := readRequest_of_glued hlines hq hok (by decide)
      rw [hread _ hok] at hlost
      simp at hlost
  · intro hp prompt hprompt
    have h := readRequest_of_resync hp hprompt []
    rw [append_nil] at h
    rw [h]
  · intro hreqs
    induction reqs with
    | nil => rfl
    | cons r reqs ih =>
      obtain ⟨hp, hprompt⟩ := hreqs r (by simp)
      have hstream : requestStream (r :: reqs) = r.1 ++ aiRequest r.2 ++ requestStream reqs := by
        simp [requestStream]
      rw [hstream, length_cons, readRequests, readRequest_of_resync hp hprompt,
        ih (fun q hq => hreqs q (by simp [hq])), map_cons]

/-- Behind a shell prompt the agent finds no request. -/
theorem request_behind_shell_prompt_is_lost :
    (readRequest (sockFile (str "$ " ++ aiRequest (str "house")))).1 = none := by
  decide +kernel

/-- Sending changes a prompt into the closing marker only if it is that marker
already, which has no space in it. -/
theorem aiSendPrompt_eq_endReq : aiSendPrompt prompt = endReq ↔ prompt = endReq := by
  constructor
  · intro heq
    have hkept : aiSendPrompt prompt = prompt := by
      refine (map_congr_left ?_).trans (map_id prompt)
      intro c hc
      rw [id_eq, if_neg]
      intro hend
      have hspace : (32 : ℕ) ∈ aiSendPrompt prompt :=
        List.mem_map.mpr ⟨c, hc, if_pos hend⟩
      rw [heq] at hspace
      exact absurd hspace (by decide)
    rw [← heq, hkept]
  · rintro rfl
    decide

/-- The frame of the prompt that is the closing marker: the agent takes the prompt
for the end of the request and leaves the marker itself behind. -/
theorem readRequest_endReq (rest : List ℕ) : readRequest (sockFile (aiRequest endReq ++ rest)) =
      (some [], (endReq ++ [10]) :: sockFile rest) := by
  have hsent : aiSendPrompt endReq = endReq := aiSendPrompt_eq_endReq.mpr rfl
  have hfile := sockFile_request [] endReq rest
  simp only [nil_append, lines, map_nil, hsent, cons_append] at hfile
  have hcollect : collectPrompt ((endReq ++ [10]) :: (endReq ++ [10]) :: sockFile rest) =
      some ([], (endReq ++ [10]) :: sockFile rest) := by
    rw [collectPrompt, decodeLine_markers.2.2, if_pos rfl]
  rw [hfile, readRequest, skipToBegin, decodeLine_markers.1, if_pos rfl]
  simp only [readBody, hcollect, decodeLine_markers.2.1, ne_eq, not_true_eq_false, if_false]
  rfl

/-- A frame at the beginning of a line is read, whatever the agent has to skip
before it. -/
theorem readRequest_of_skipped {raw : List ℕ} (hraw : decodeLine raw ≠ beginReq) (file : SockFile) :
    readRequest (raw :: file) = readRequest file := by
  rw [readRequest, readRequest, skipToBegin, if_neg hraw]

/-- The results for a sequence of frames, one behind the other: the prompt that is
the closing marker reads as empty, and every other prompt as it was sent. -/
theorem readRequests_frames {prompts : List (List ℕ)} (hascii : ∀ p ∈ prompts, ∀ c ∈ p, c < 0x80) :
    readRequests prompts.length (sockFile (prompts.flatMap aiRequest)) =
      prompts.map fun p => some (if p = endReq then [] else strip (aiSendPrompt p)) := by
  -- a frame may follow the closing marker that the frame before it left behind
  have hboth : ∀ n (file : SockFile),
      readRequests n ((endReq ++ [10]) :: file) = readRequests n file := by
    intro n file
    cases n with
    | zero => rfl
    | succ n =>
      rw [readRequests, readRequests, readRequest_of_skipped]
      rw [decodeLine_markers.2.2]
      decide
  induction prompts with
  | nil => rfl
  | cons p prompts ih =>
    have htail := ih fun q hq => hascii q (by simp [hq])
    rw [flatMap_cons, length_cons, readRequests, map_cons]
    by_cases hend : p = endReq
    · subst p
      rw [readRequest_endReq, hboth, htail, if_pos rfl]
    · have hok : PromptOk p := by
        refine ⟨hascii p (by simp), ?_⟩
        rwa [ne_eq, aiSendPrompt_eq_endReq]
      have hread := readRequest_of_resync (p := []) (by decide) hok (prompts.flatMap aiRequest)
      rw [nil_append] at hread
      rw [hread, htail, if_neg hend]

/-- **Transparency of prompts.** The agent reads the frame of an ASCII prompt back
as the prompt, and stands behind it, exactly when the prompt is not the closing
marker; and it reads a sequence of frames back exactly when none of the prompts
is. -/
theorem request_transparent_iff (prompts : List (List ℕ)) (hascii : ∀ p ∈ prompts, ∀ c ∈ p, c < 0x80) :
    (∀ prompt ∈ prompts, ∀ rest, (readRequest (sockFile (aiRequest prompt ++ rest)) =
        (some (strip (aiSendPrompt prompt)), sockFile rest) ↔ prompt ≠ endReq)) ∧
    (readRequests prompts.length (sockFile (prompts.flatMap aiRequest)) =
      (prompts.map fun p => some (strip (aiSendPrompt p))) ↔ endReq ∉ prompts) := by
  have hmarker : strip (aiSendPrompt endReq) ≠ [] := by decide
  refine ⟨?_, ?_⟩
  · intro prompt hprompt rest
    constructor
    · rintro hread rfl
      rw [readRequest_endReq, Prod.mk.injEq, some.injEq] at hread
      exact hmarker hread.1.symm
    · intro hne
      have hok : PromptOk prompt := by
        refine ⟨hascii prompt hprompt, ?_⟩
        rwa [ne_eq, aiSendPrompt_eq_endReq]
      have hread := readRequest_of_resync (p := []) (by decide) hok rest
      rwa [nil_append] at hread
  · rw [readRequests_frames hascii, map_inj_left]
    constructor
    · intro hall hmem
      have heq := hall endReq hmem
      rw [if_pos rfl, some.injEq] at heq
      exact hmarker heq.symm
    · intro hnot p hp
      have hne : p ≠ endReq := by
        rintro rfl
        exact hnot hp
      rw [if_neg hne]

/-- The frames of two prompts are read back. -/
theorem two_requests_transparent :
    readRequests 2 (sockFile ([str "house", str "BEGIN_REQ\n"].flatMap aiRequest)) =
      [some (str "house"), some (str "BEGIN_REQ")] := by
  have h := (request_transparent_iff [str "house", str "BEGIN_REQ\n"] (by decide)).2.mpr (by decide)
  rw [length_cons, length_singleton] at h
  rw [h]
  decide

/-- The prompt `END_REQ` is read as an empty request. -/
theorem end_marker_prompt_is_lost : (readRequest (sockFile (aiRequest (str "END_REQ")))).1 = some [] ∧
      strip (aiSendPrompt (str "END_REQ")) = str "END_REQ" := by
  decide +kernel

end Xv6Draw
