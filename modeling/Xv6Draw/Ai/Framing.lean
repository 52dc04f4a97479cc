import Xv6Draw.Ai.Bridge
import Xv6Draw.Lib.Lines

/-!
# Framed replies

A reply travels as a line `BEGIN_RESP`, the lines of its body and a line
`END_RESP`. This file follows the receiver through whole byte streams: framed
bodies that fit the buffers come out unchanged, and only a framed stream makes a
query succeed.
-/

namespace Xv6Draw

open Lines List

/-- Feed a byte stream to the receiver. Bytes after the end of the reply are
ignored, as the bridge is then no longer busy. -/
def Parser.feed (p : Parser) : List ℕ → Outcome
  | [] => .more p
  | c :: cs =>
    match p.rx c with
    | .more q => q.feed cs
    | .done failed q => .done failed q

/-- Feed a byte stream to the bridge, one call of `ai_uart_rx` for each byte. -/
def feedAi : Ai → List ℕ → Option Ai
  | ai, [] => some ai
  | ai, c :: cs => (aiUartRx ai c).bind fun ai' => feedAi ai' cs

/-- The stream without its carriage returns. -/
def stripCr (bs : List ℕ) : List ℕ := bs.filter (· ≠ 13)

theorem feedAi_of_idle {ai : Ai} (hidle : ai.busy = false) (bs : List ℕ) : feedAi ai bs = some ai := by
  induction bs with
  | nil => rfl
  | cons c bs ih => simp only [feedAi, aiUartRx_of_idle hidle, Option.bind_some, ih]

/-- The bridge follows the receiver along a stream. -/
theorem feedAi_spec {ai : Ai} (hinv : ai.Inv) (hbusy : ai.busy = true) (bs : List ℕ) :
    ∃ ai', feedAi ai bs = some ai' ∧ ai'.Inv ∧ (ai.parser.feed bs).Matches ai ai' := by
  induction bs generalizing ai with
  | nil => exact ⟨ai, rfl, hinv, rfl, rfl, rfl, rfl, rfl⟩
  | cons c bs ih =>
    obtain ⟨ai₁, hrx, hinv₁, hmatch⟩ := aiUartRx_spec hinv hbusy c
    cases hout : ai.parser.rx c with
    | more q =>
      rw [hout] at hmatch
      obtain ⟨hparser, hactive, hdraining, hcomplete, hfailed⟩ := hmatch
      have hbusy₁ : ai₁.busy = true := by rw [Ai.busy, hactive, hdraining]; exact hbusy
      obtain ⟨ai₂, hfeed, hinv₂, hmatch₂⟩ := ih hinv₁ hbusy₁
      refine ⟨ai₂, by simp only [feedAi, hrx, Option.bind_some, hfeed], hinv₂, ?_⟩
      simp only [Parser.feed, hout]
      rw [hparser] at hmatch₂
      cases hq : q.feed bs with
      | more r =>
        rw [hq] at hmatch₂
        obtain ⟨h1, h2, h3, h4, h5⟩ := hmatch₂
        exact ⟨h1, h2.trans hactive, h3.trans hdraining, h4.trans hcomplete, h5.trans hfailed⟩
      | done failed r =>
        rw [hq] at hmatch₂
        exact hmatch₂
    | done failed q =>
      rw [hout] at hmatch
      have hidle : ai₁.busy = false := by rw [Ai.busy, hmatch.2.1, hmatch.2.2.1]; rfl
      refine ⟨ai₁, by simp only [feedAi, hrx, Option.bind_some, feedAi_of_idle hidle], hinv₁, ?_⟩
      simp only [Parser.feed, hout]
      exact hmatch

/-- Feeding a concatenation continues after its first part. -/
theorem Parser.feed_append (p : Parser) (as bs : List ℕ) :
    p.feed (as ++ bs) = match p.feed as with
      | .more q => q.feed bs
      | .done failed q => .done failed q := by
  induction as generalizing p with
  | nil => rfl
  | cons a as ih =>
    simp only [cons_append, feed]
    cases p.rx a with
    | more q => exact ih q
    | done failed q => rfl

variable {p q : Parser} {c : ℕ}

/-- Feeding goes on after a part that leaves the receiver running. -/
theorem Parser.feed_append_of_more {as : List ℕ} (h : p.feed as = .more q)
    (bs : List ℕ) : p.feed (as ++ bs) = q.feed bs := by
  rw [feed_append, h]

/-- Carriage returns have no effect on the receiver. -/
theorem Parser.feed_stripCr (p : Parser) (bs : List ℕ) : p.feed (stripCr bs) = p.feed bs := by
  induction bs generalizing p with
  | nil => rfl
  | cons c bs ih =>
    by_cases hc : c = 13
    · subst c
      have hrx : p.rx 13 = .more p := by simp [rx]
      have hstrip : stripCr (13 :: bs) = stripCr bs := by simp [stripCr]
      rw [hstrip, ih, feed, hrx]
    · have hstrip : stripCr (c :: bs) = c :: stripCr bs := by simp [stripCr, hc]
      rw [hstrip]
      simp only [feed]
      cases p.rx c with
      | more q => exact ih q
      | done failed q => rfl

/-- Characters that fit the line buffer extend the unfinished line. -/
theorem Parser.feed_chars {l : List ℕ} (hnl : 10 ∉ l) (hcr : 13 ∉ l)
    (hroom : p.line.length + l.length ≤ aiLineMax - 1) :
    p.feed l = .more { p with line := p.line ++ l } := by
  induction l generalizing p with
  | nil => simp [feed]
  | cons c l ih =>
    have hc : c ≠ 10 ∧ c ≠ 13 := ⟨fun h => hnl (by simp [h]), fun h => hcr (by simp [h])⟩
    have hlen : ¬ aiLineMax - 1 ≤ p.line.length := by
      simp only [length_cons] at hroom
      omega
    have hrx : p.rx c = .more { p with line := p.line ++ [c] } := by
      simp [rx, hc.1, hc.2, hlen]
    have hrest := ih (p := { p with line := p.line ++ [c] }) (fun h => hnl (by simp [h]))
      (fun h => hcr (by simp [h])) (by
        simp only [length_append, length_cons, length_nil] at hroom ⊢
        omega)
    simp only [feed, hrx, hrest, append_assoc, singleton_append]

/-- A complete line from an empty line buffer: its characters are collected and
the newline acts on them. -/
theorem Parser.feed_line {l : List ℕ} (hline : p.line = []) (hnl : 10 ∉ l)
    (hcr : 13 ∉ l) (hlen : l.length < aiLineMax) (rest : List ℕ) :
    p.feed (l ++ 10 :: rest) = match { p with line := l : Parser }.rx 10 with
      | .more q => q.feed rest
      | .done failed q => .done failed q := by
  have hchars : p.feed l = .more { p with line := l } := by
    have h := feed_chars hnl hcr (p := p) (by rw [hline]; simp only [length_nil]; omega)
    rwa [hline, nil_append] at h
  rw [feed_append_of_more hchars]
  rfl

/-- A line that the receiver can hold: no line ends and room for its NUL. -/
def IsLine (l : List ℕ) : Prop := 10 ∉ l ∧ 13 ∉ l ∧ l.length < aiLineMax

/-- Lines before the opening marker are skipped. -/
theorem Parser.feed_noise {noise : List (List ℕ)}
    (hnoise : ∀ l ∈ noise, IsLine l ∧ untilNul l ≠ beginResp) (rest : List ℕ) :
    start.feed (unlines 10 noise ++ rest) = start.feed rest := by
  induction noise with
  | nil => rfl
  | cons l noise ih =>
    obtain ⟨⟨hnl, hcr, hlen⟩, hmarker⟩ := hnoise l (by simp)
    rw [unlines_cons, append_assoc, cons_append,
      feed_line rfl hnl hcr hlen, rx_newline_noise rfl, if_neg hmarker]
    exact ih fun m hm => hnoise m (by simp [hm])

theorem Parser.feed_beginResp (rest : List ℕ) :
    start.feed (beginResp ++ 10 :: rest) = (⟨true, [], []⟩ : Parser).feed rest := by
  have hmarker : untilNul beginResp = beginResp := untilNul_of_not_mem not_mem_markers.1
  rw [feed_line rfl (by decide) (by decide) (by decide), rx_newline_noise rfl,
    if_pos hmarker]

/-- Body lines are appended to the response while they fit. -/
theorem Parser.feed_body {body : List (List ℕ)} (response : List ℕ)
    (hbody : ∀ l ∈ body, IsLine l ∧ untilNul l ≠ endResp)
    (hfits : response.length + (unlines 10 body).length ≤ aiResponseMax - 1) (rest : List ℕ) :
    (⟨true, response, []⟩ : Parser).feed (unlines 10 body ++ rest) =
      (⟨true, response ++ unlines 10 body, []⟩ : Parser).feed rest := by
  induction body generalizing response with
  | nil => simp
  | cons l body ih =>
    obtain ⟨⟨hnl, hcr, hlen⟩, hmarker⟩ := hbody l (by simp)
    rw [unlines_cons, length_append, length_cons] at hfits
    have hroom : ¬ aiResponseMax ≤ response.length + l.length + 1 := by omega
    rw [unlines_cons, append_assoc, cons_append,
      feed_line rfl hnl hcr hlen, rx_newline_line rfl hmarker, if_neg hroom]
    have hrest := ih (response ++ l ++ [10]) (fun m hm => hbody m (by simp [hm])) (by
      simp only [length_append, length_singleton]
      omega)
    simpa only [append_assoc, singleton_append] using hrest

theorem Parser.feed_endResp (response rest : List ℕ) :
    (⟨true, response, []⟩ : Parser).feed (endResp ++ 10 :: rest) =
      .done false ⟨true, response, []⟩ := by
  have hmarker : untilNul endResp = endResp := untilNul_of_not_mem not_mem_markers.2
  rw [feed_line rfl (by decide) (by decide) (by decide), rx_newline_end rfl hmarker]

/-- A framed body that fits, behind any noise lines, comes out unchanged. -/
theorem Parser.feed_frame {noise body : List (List ℕ)}
    (hnoise : ∀ l ∈ noise, IsLine l ∧ untilNul l ≠ beginResp)
    (hbody : ∀ l ∈ body, IsLine l ∧ untilNul l ≠ endResp)
    (hfits : (unlines 10 body).length ≤ aiResponseMax - 1) (rest : List ℕ) :
    start.feed (unlines 10 (noise ++ [beginResp] ++ body ++ [endResp]) ++ rest) =
      .done false ⟨true, unlines 10 body, []⟩ := by
  have hbodyFeed := feed_body [] hbody (by simpa using hfits) (endResp ++ 10 :: rest)
  rw [nil_append, feed_endResp] at hbodyFeed
  simp only [unlines_append, unlines_cons, unlines_nil, append_assoc, cons_append, nil_append]
  rw [feed_noise hnoise, feed_beginResp, hbodyFeed]

/-- What the receiver knows of the stream it has read: its line buffer is the
unfinished line, and in a response the opening marker is among the lines. -/
def Parser.Tracks (p : Parser) (read : List ℕ) : Prop :=
  p.line = (lines 10 (stripCr read)).2 ∧
    (p.inResponse = true → beginResp ∈ (lines 10 (stripCr read)).1)

private theorem stripCr_append_cr (bs : List ℕ) : stripCr (bs ++ [13]) = stripCr bs := by
  simp [stripCr]

private theorem stripCr_append_of_ne (hc : c ≠ 13) (bs : List ℕ) :
    stripCr (bs ++ [c]) = stripCr bs ++ [c] := by
  simp [stripCr, hc]

/-- One byte that leaves the receiver running extends the stream it tracks. -/
theorem Parser.Tracks.rx_more {read : List ℕ} (htracks : p.Tracks read)
    (hnul : 0 ∉ p.line) (hrx : p.rx c = .more q) : q.Tracks (read ++ [c]) := by
  obtain ⟨hline, hin⟩ := htracks
  by_cases hcr : c = 13
  · subst c
    simp only [Parser.rx, if_true, Outcome.more.injEq] at hrx
    subst q
    rw [Parser.Tracks, stripCr_append_cr]
    exact ⟨hline, hin⟩
  by_cases hnl : c = 10
  · subst c
    rw [Parser.Tracks, stripCr_append_of_ne (by decide), lines_append_sep, ← hline]
    cases hresp : p.inResponse with
    | false =>
      rw [Parser.rx_newline_noise hresp, untilNul_of_not_mem hnul] at hrx
      split_ifs at hrx with hmarker
      · simp only [Outcome.more.injEq] at hrx
        subst q
        exact ⟨rfl, fun _ => by simp [hmarker]⟩
      · simp only [Outcome.more.injEq] at hrx
        subst q
        exact ⟨rfl, fun h => by simp [hresp] at h⟩
    | true =>
      by_cases hmarker : untilNul p.line = endResp
      · simp [Parser.rx_newline_end hresp hmarker] at hrx
      · rw [Parser.rx_newline_line hresp hmarker] at hrx
        split_ifs at hrx with hfull
        simp only [Outcome.more.injEq] at hrx
        subst q
        exact ⟨rfl, fun _ => mem_append_left _ (hin hresp)⟩
  · rw [Parser.Tracks, stripCr_append_of_ne hcr, lines_append_of_ne hnl, ← hline]
    simp only [Parser.rx, if_neg hcr, ne_eq, hnl, not_false_eq_true, if_true] at hrx
    split_ifs at hrx with hfull
    simp only [Outcome.more.injEq] at hrx
    subst q
    exact ⟨rfl, hin⟩

/-- A successful end of the reply is the closing marker line in a response. -/
theorem Parser.rx_done_false (hrx : p.rx c = .done false q) :
    c = 10 ∧ p.inResponse = true ∧ untilNul p.line = endResp := by
  unfold rx at hrx
  split_ifs at hrx with hcr hnl hfull hin hbegin hend hlong
  · simp at hrx
  · exact ⟨by simpa using hnl, by simpa using hin, hend⟩
  · simp at hrx

/-- A stream without NULs on which the receiver succeeds has an opening marker
line and, later, a closing one. -/
theorem Parser.markers_of_feed_done {read bs : List ℕ} (htracks : p.Tracks read)
    (hnul : 0 ∉ read ++ bs) (hfeed : p.feed bs = .done false q) :
    ∃ xs ys zs, (lines 10 (stripCr (read ++ bs))).1 =
      xs ++ beginResp :: ys ++ endResp :: zs := by
  induction bs generalizing p read with
  | nil => simp [feed] at hfeed
  | cons c bs ih =>
    -- the line buffer is a part of what was read, so it holds no NUL either
    have hline : 0 ∉ p.line := by
      intro hmem
      rw [htracks.1] at hmem
      have hread : (0 : ℕ) ∈ stripCr read := by
        rw [← unlines_lines 10 (stripCr read)]
        exact mem_append_right _ hmem
      exact hnul (mem_append_left _ (mem_of_mem_filter hread))
    have hassoc : read ++ c :: bs = read ++ [c] ++ bs := by simp
    cases hrx : p.rx c with
    | more r =>
      simp only [feed, hrx] at hfeed
      rw [hassoc] at hnul ⊢
      exact ih (htracks.rx_more hline hrx) hnul hfeed
    | done failed r =>
      simp only [feed, hrx, Outcome.done.injEq] at hfeed
      rw [hfeed.1] at hrx
      obtain ⟨rfl, hin, hend⟩ := rx_done_false hrx
      rw [untilNul_of_not_mem hline, htracks.1] at hend
      obtain ⟨xs, ys, hbegin⟩ := append_of_mem (htracks.2 hin)
      have hlines := lines_append_sep 10 (stripCr read)
      rw [← stripCr_append_of_ne (by decide), hbegin, hend] at hlines
      obtain ⟨zs, hzs⟩ := lines_prefix_append 10 (stripCr (read ++ [10])) (stripCr bs)
      refine ⟨xs, ys, zs, ?_⟩
      have hsplit : stripCr (read ++ 10 :: bs) = stripCr (read ++ [10]) ++ stripCr bs := by
        simp [stripCr]
      rw [hsplit, ← hzs, hlines]
      simp

/-- **The framing of replies.** A framed body of lines that fit, behind noise
lines and with carriage returns anywhere, makes an admitted query complete
without failure and return exactly the body, unless the caller's buffer is too
small for it. Conversely, a query succeeds on a stream without NULs only when an
opening marker line and a later closing marker line are among the lines received
since it was admitted. -/
theorem query_returns_framed_body :
    (∀ (ai₀ : Ai) (noise body : List (List ℕ)) (bs : List ℕ) (maxlen : ℤ),
      (∀ l ∈ noise, 0 ∉ l ∧ IsLine l ∧ l ≠ beginResp) → (∀ l ∈ body, 0 ∉ l ∧ IsLine l ∧ l ≠ endResp) →
      (unlines 10 body).length ≤ aiResponseMax - 1 →
      stripCr bs = unlines 10 (noise ++ [beginResp] ++ body ++ [endResp]) →
      ∃ ai, feedAi (aiClaim ai₀) bs = some ai ∧ ai.complete = true ∧ ai.failed = false ∧
        aiqueryResult ai maxlen =
          if maxlen < (unlines 10 body).length + 1 then none else some (unlines 10 body)) ∧
    (∀ (ai₀ ai : Ai) (bs text : List ℕ) (maxlen : ℤ), 0 ∉ bs →
      feedAi (aiClaim ai₀) bs = some ai → ai.complete = true → aiqueryResult ai maxlen = some text →
      ∃ xs ys zs, (lines 10 (stripCr bs)).1 = xs ++ beginResp :: ys ++ endResp :: zs) := by
  constructor
  · intro ai₀ noise body bs maxlen hnoise hbody hfits hbs
    obtain ⟨ai, hfeed, hinv, hmatch⟩ := feedAi_spec (aiClaim_inv ai₀) rfl bs
    have hnoise' : ∀ l ∈ noise, IsLine l ∧ untilNul l ≠ beginResp := by
      intro l hl
      obtain ⟨hnul, hline, hne⟩ := hnoise l hl
      exact ⟨hline, by rwa [untilNul_of_not_mem hnul]⟩
    have hbody' : ∀ l ∈ body, IsLine l ∧ untilNul l ≠ endResp := by
      intro l hl
      obtain ⟨hnul, hline, hne⟩ := hbody l hl
      exact ⟨hline, by rwa [untilNul_of_not_mem hnul]⟩
    have hframe := Parser.feed_frame hnoise' hbody' hfits []
    rw [append_nil, ← hbs, Parser.feed_stripCr] at hframe
    change (Parser.start.feed bs).Matches (aiClaim ai₀) ai at hmatch
    rw [hframe] at hmatch
    obtain ⟨hparser, -, -, hcomplete, hfailed⟩ := hmatch
    have hresponse : contents ai.response ai.responseLen = unlines 10 body :=
      congrArg Parser.response hparser
    have hlen : ai.responseLen = (unlines 10 body).length := by
      rw [← hresponse, contents_length]
    refine ⟨ai, hfeed, hcomplete, hfailed, ?_⟩
    rw [hlen] at hresponse
    simp only [aiqueryResult, hfailed, Bool.false_eq_true, false_or, hlen, hresponse]
  · intro ai₀ ai bs text maxlen hnul hfeed hcomplete hresult
    obtain ⟨ai', hfeed', hinv, hmatch⟩ := feedAi_spec (aiClaim_inv ai₀) rfl bs
    rw [hfeed, Option.some.injEq] at hfeed'
    subst ai'
    change (Parser.start.feed bs).Matches (aiClaim ai₀) ai at hmatch
    have htracks : Parser.start.Tracks [] := ⟨rfl, fun h => by simp [Parser.start] at h⟩
    cases hout : Parser.start.feed bs with
    | more q =>
      rw [hout] at hmatch
      have hopen : ai.complete = false := hmatch.2.2.2.1
      simp [hopen] at hcomplete
    | done failed q =>
      rw [hout] at hmatch
      have hfailed : ai.failed = failed := hmatch.2.2.2.2
      cases failed with
      | true => simp [aiqueryResult, hfailed] at hresult
      | false => exact Parser.markers_of_feed_done htracks (by simpa using hnul) hout

/-- A two-line reply behind a console line, with carriage returns. -/
theorem query_returns_two_lines : ∃ ai, feedAi (aiClaim aiInit)
        (str "ok\r\nBEGIN_RESP\r\nCLEAR 1\nEND\r\nEND_RESP\n") = some ai ∧
      ai.complete = true ∧ ai.failed = false ∧
      aiqueryResult ai 64 = some (str "CLEAR 1\nEND\n") := by
  obtain ⟨ai, hfeed, hcomplete, hfailed, hresult⟩ := query_returns_framed_body.1 aiInit
    [str "ok"] [str "CLEAR 1", str "END"]
    (str "ok\r\nBEGIN_RESP\r\nCLEAR 1\nEND\r\nEND_RESP\n") 64
    (by unfold IsLine; decide) (by unfold IsLine; decide) (by decide) (by decide)
  exact ⟨ai, hfeed, hcomplete, hfailed, hresult⟩

end Xv6Draw
