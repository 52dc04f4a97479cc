import Xv6Draw.Ai.System

/-!
# The serial link between a query and its reply

What is on the serial line while the bridge is busy decides who reads it. No byte
of a reply reaches the console as long as every reply fits the buffers and no
query is admitted while `uartintr` is inside `consoleintr` or console input is
unread. A reply that overflows a buffer frees the channel in its middle, and an
interrupt that found the channel free keeps reading for the console.
-/

namespace Xv6Draw.AiSystem

open Function Lines List Option Transition

/-- A reply body that fits the buffers: each line leaves room for its NUL, none
reads as the closing marker, and the response fits with its NUL. -/
def Fits (body : List (List ℕ)) : Prop :=
  (∀ l ∈ body, (stripCr l).length < aiLineMax ∧ untilNul (stripCr l) ≠ endResp) ∧
    (replyText body).length ≤ aiResponseMax - 1

/-- Removing carriage returns works line by line. -/
theorem stripCr_unlines (ls : List (List ℕ)) :
    stripCr (unlines 10 ls) = unlines 10 (ls.map stripCr) := by
  induction ls with
  | nil => rfl
  | cons l ls ih =>
    rw [unlines_cons, map_cons, unlines_cons, ← ih]
    simp [stripCr]

variable {body : List (List ℕ)} {pid req : ℕ} {s t : State} {maxlen : ℤ}

/-- The lines of a body that fits are lines for the receiver. -/
theorem Fits.isLine (hfits : Fits body) (hlines : ∀ l ∈ body, 10 ∉ l) :
    ∀ l ∈ body.map stripCr, IsLine l ∧ untilNul l ≠ endResp := by
  intro l hl
  obtain ⟨m, hm, rfl⟩ := mem_map.mp hl
  obtain ⟨hlen, hmarker⟩ := hfits.1 m hm
  refine ⟨⟨?_, ?_, hlen⟩, hmarker⟩
  · intro hmem
    exact hlines m hm (mem_of_mem_filter hmem)
  · simp [stripCr]

/-- A reply that fits, up to its last newline, leaves the receiver running. -/
theorem feed_frame_init (hfits : Fits body) (hlines : ∀ l ∈ body, 10 ∉ l) :
    Parser.start.feed (unlines 10 ([beginResp] ++ body) ++ endResp) =
      .more ⟨true, replyText body, endResp⟩ := by
  have hbody := Parser.feed_body [] (hfits.isLine hlines)
    (by rw [length_nil, Nat.zero_add]; exact hfits.2) endResp
  rw [← Parser.feed_stripCr]
  have hstrip : stripCr (unlines 10 ([beginResp] ++ body) ++ endResp) =
      beginResp ++ 10 :: (unlines 10 (body.map stripCr) ++ endResp) := by
    have happend : ∀ as bs, stripCr (as ++ bs) = stripCr as ++ stripCr bs := by simp [stripCr]
    rw [happend, stripCr_unlines, map_append, unlines_append]
    simp only [map_cons, map_nil, unlines_cons, unlines_nil, append_assoc, cons_append, nil_append]
    rfl
  rw [hstrip, Parser.feed_beginResp, hbody]
  exact Parser.feed_chars (by decide) (by decide)
    (show ([] : List ℕ).length + endResp.length ≤ aiLineMax - 1 by decide)

/-- A reply that fits completes the receiver with its text. -/
theorem feed_frame (hfits : Fits body) (hlines : ∀ l ∈ body, 10 ∉ l) :
    Parser.start.feed (frame body) = .done false ⟨true, replyText body, []⟩ := by
  have hframe : frame body = unlines 10 ([beginResp] ++ body) ++ endResp ++ [10] := by
    simp [frame]
  have hmarker : untilNul endResp = endResp := untilNul_of_not_mem not_mem_markers.2
  rw [hframe, Parser.feed_append_of_more (feed_frame_init hfits hlines), Parser.feed,
    Parser.rx_newline_end rfl hmarker]

/-- The next byte of a reply that fits: the last one ends the reply, every other
one leaves the receiver running. -/
theorem rx_next {read rest : List ℕ} {b : ℕ} {p : Parser}
    (hfits : Fits body) (hlines : ∀ l ∈ body, 10 ∉ l) (hframe : read ++ b :: rest = frame body)
    (hread : Parser.start.feed read = .more p) :
    (rest = [] ∧ p.rx b = .done false ⟨true, replyText body, []⟩) ∨
      (rest ≠ [] ∧ ∃ q, p.rx b = .more q ∧ Parser.start.feed (read ++ [b]) = .more q) := by
  have hnext : Parser.start.feed (read ++ [b]) = p.rx b := by
    rw [Parser.feed_append_of_more hread, Parser.feed]
    cases p.rx b <;> rfl
  rcases eq_nil_or_concat rest with rfl | ⟨init, c, rfl⟩
  · refine .inl ⟨rfl, ?_⟩
    rw [← hnext, hframe, feed_frame hfits hlines]
  · refine .inr ⟨by simp, ?_⟩
    -- the bytes up to here are a prefix of the frame without its last newline
    have hinit : read ++ [b] ++ init = unlines 10 ([beginResp] ++ body) ++ endResp := by
      have hsplit : read ++ [b] ++ init ++ [c] =
          unlines 10 ([beginResp] ++ body) ++ endResp ++ [10] := by
        simpa [frame] using hframe
      exact (append_inj' hsplit rfl).1
    have hmore := feed_frame_init hfits hlines
    rw [← hinit, Parser.feed_append, hnext] at hmore
    cases hrx : p.rx b with
    | more q => exact ⟨q, rfl, by rw [hnext, hrx]⟩
    | done failed q => simp [hrx] at hmore

/-- The condition on the steps of a run under which the console sees no reply:
while the channel is busy the host sends replies only, each reply fits, and no
call is admitted while `uartintr` is inside `consoleintr` or input is unread. -/
def Orderly (s : State) : Event → Prop
  | .noise _ => s.ai.busy = false
  | .answer body => Fits body
  | .call _ promptlen maxlen =>
    admits s promptlen maxlen = true → s.handler ≠ .console ∧ s.wire = []
  | _ => True

/-- A process has claimed the channel and not yet sent its request. -/
def State.Claimed (s : State) (p : ℕ) : Prop := ∃ req maxlen, s.phase p = .claimed req maxlen

/-- The bridge waits for a reply whose first byte has not been sent. At most one
request is on its way to the host. -/
def State.Quiet (s : State) : Prop :=
  s.wire = [] ∧ s.ai.parser = Parser.start ∧ s.queue.length ≤ 1 ∧
    ∀ p, s.Claimed p → s.queue = [] ∧ ∀ q, s.Claimed q → q = p

/-- The serial line holds the rest of a reply, and the receiver has read the
part before it. -/
def State.Arriving (s : State) : Prop :=
  s.queue = [] ∧ (∀ p, ¬ s.Claimed p) ∧
    ∃ req body read rest, (req, body) ∈ s.answers ∧ Fits body ∧ (∀ l ∈ body, 10 ∉ l) ∧
      read ++ rest = frame body ∧ rest ≠ [] ∧ s.wire = rest.map (fun b => (b, some req)) ∧
      Parser.start.feed read = .more s.ai.parser

/-- The bytes of replies among the bytes of a line. -/
def replies (bytes : List Tagged) : List Tagged := bytes.filter (·.2.isSome)

/-- The invariant of the serial line. With an idle bridge the line holds no
reply, a busy one is in one of the two states above, and all replies are read by
the bridge. -/
structure Linked (s : State) : Prop where
  inv : s.ai.Inv
  routed : s.ai.busy = true → s.handler ≠ .console
  idle : s.ai.busy = false → replies s.wire = [] ∧ s.queue = [] ∧ ∀ p, ¬ s.Claimed p
  waiting : ∀ p req, (s.phase p).req = some req → s.ai.busy = true ∨ s.ai.complete = true
  busy : s.ai.busy = true → s.Quiet ∨ s.Arriving
  read : replies s.received ++ replies s.wire = s.answers.flatMap fun a => reply a.1 a.2
  console : replies s.console = []

theorem replies_reply (req : ℕ) (body : List (List ℕ)) : replies (reply req body) = reply req body := by
  simp [replies, reply]

@[simp] theorem replies_append (xs ys : List Tagged) :
    replies (xs ++ ys) = replies xs ++ replies ys := by
  simp [replies]

theorem replies_noise (bs : List ℕ) : replies (bs.map fun b => (b, none)) = [] := by
  simp [replies]

/-- Processes only move on: those in progress keep their request, and none
claims the channel. -/
def Advances (f g : ℕ → Phase) : Prop :=
  ∀ p, (∀ req, (g p).req = some req → (f p).req = some req) ∧
    ∀ req maxlen, g p = .claimed req maxlen → f p = .claimed req maxlen

theorem advances_update {f : ℕ → Phase} {ph : Phase}
    (hreq : ∀ req, ph.req = some req → (f pid).req = some req)
    (hclaimed : ∀ req maxlen, ph ≠ .claimed req maxlen) :
    Advances f (update f pid ph) := by
  refine (forall_update_iff f fun p ph => (∀ req, ph.req = some req → (f p).req = some req) ∧
    ∀ req maxlen, ph = .claimed req maxlen → f p = .claimed req maxlen).mpr ⟨?_, ?_⟩
  · exact ⟨hreq, fun req maxlen h => absurd h (hclaimed req maxlen)⟩
  · exact fun _ _ => ⟨fun _ h => h, fun _ _ h => h⟩

theorem advances_refl (f : ℕ → Phase) : Advances f f := fun _ => ⟨fun _ h => h, fun _ _ h => h⟩

/-- A step that leaves the line, the host and the receiver as they are. -/
structure KeepsLine (s t : State) : Prop where
  inv : t.ai.Inv
  busy : t.ai.busy = s.ai.busy
  parser : t.ai.parser = s.ai.parser
  complete : t.ai.complete = s.ai.complete
  failed : t.ai.failed = s.ai.failed
  wire : t.wire = s.wire
  received : t.received = s.received
  console : t.console = s.console
  queue : t.queue = s.queue
  answers : t.answers = s.answers
  nextReq : t.nextReq = s.nextReq
  source : t.source = s.source
  phase : Advances s.phase t.phase

/-- The results, the clock, the killed flags and the handler are not part of the line. -/
theorem KeepsLine.rest {ai : Ai} {phase : ℕ → Phase} (hinv : ai.Inv) (hbusy : ai.busy = s.ai.busy)
    (hparser : ai.parser = s.ai.parser) (hcomplete : ai.complete = s.ai.complete)
    (hfailed : ai.failed = s.ai.failed) (hphase : Advances s.phase phase) (results : List Result)
    (ticks : BitVec 32) (killed : ℕ → Bool) (handler : Handler) :
    KeepsLine s { s with
      ai := ai, phase := phase, results := results, ticks := ticks, killed := killed,
      handler := handler } where
  inv := hinv
  busy := hbusy
  parser := hparser
  complete := hcomplete
  failed := hfailed
  wire := rfl
  received := rfl
  console := rfl
  queue := rfl
  answers := rfl
  nextReq := rfl
  source := rfl
  phase := hphase

/-- Giving up on an incomplete reply keeps the line: the bridge drains it. -/
theorem KeepsLine.abandon (hinv : s.ai.Inv) (hbusy : s.ai.busy = true) (results : List Result) :
    KeepsLine s { s with
      ai := aiAbandon s.ai
      phase := update s.phase pid .outside
      results := results } :=
  .rest (hinv.abandon (hinv.complete_of_busy hbusy)) (by rw [hbusy]; rfl) rfl rfl rfl
    (advances_update (by simp [Phase.req]) (by simp)) results s.ticks s.killed s.handler

/-- A step of a process that changes nothing but its phase and the results. -/
theorem KeepsLine.move (hinv : s.ai.Inv) {ph : Phase}
    (hreq : ∀ req, ph.req = some req → (s.phase pid).req = some req)
    (hclaimed : ∀ req maxlen, ph ≠ .claimed req maxlen) (results : List Result) :
    KeepsLine s { s with
      phase := update s.phase pid ph
      results := results } :=
  .rest hinv rfl rfl rfl rfl (advances_update hreq hclaimed) results s.ticks s.killed s.handler

theorem KeepsLine.claimed (hkeeps : KeepsLine s t) {p : ℕ} (h : t.Claimed p) :
    s.Claimed p := by
  obtain ⟨req, maxlen, hphase⟩ := h
  exact ⟨req, maxlen, (hkeeps.phase p).2 req maxlen hphase⟩

/-- A step that keeps the line and does not enter the console keeps the
invariant. -/
theorem Linked.keeps (hlinked : Linked s) (hkeeps : KeepsLine s t)
    (hhandler : s.ai.busy = true → t.handler = .console → s.handler = .console) : Linked t where
  inv := hkeeps.inv
  routed := by
    intro hbusy hconsole
    rw [hkeeps.busy] at hbusy
    exact hlinked.routed hbusy (hhandler hbusy hconsole)
  idle := by
    rw [hkeeps.busy, hkeeps.wire, hkeeps.queue]
    intro hidle
    obtain ⟨hwire, hqueue, hnone⟩ := hlinked.idle hidle
    exact ⟨hwire, hqueue, fun p hp => hnone p (hkeeps.claimed hp)⟩
  waiting := by
    intro p req hreq
    rw [hkeeps.busy, hkeeps.complete]
    exact hlinked.waiting p req ((hkeeps.phase p).1 req hreq)
  busy := by
    rw [hkeeps.busy]
    intro hbusy
    rcases hlinked.busy hbusy with ⟨hwire, hparser, hlen, hone⟩ | ⟨hqueue, hnone, hreply⟩
    · refine .inl ⟨hkeeps.wire.trans hwire, hkeeps.parser.trans hparser, ?_, ?_⟩
      · rwa [hkeeps.queue]
      · intro p hp
        obtain ⟨hqueue, hunique⟩ := hone p (hkeeps.claimed hp)
        exact ⟨hkeeps.queue.trans hqueue, fun q hq => hunique q (hkeeps.claimed hq)⟩
    · refine .inr ⟨hkeeps.queue.trans hqueue, fun p hp => hnone p (hkeeps.claimed hp), ?_⟩
      rwa [hkeeps.answers, hkeeps.wire, hkeeps.parser]
  read := by rw [hkeeps.received, hkeeps.wire, hkeeps.answers, hlinked.read]
  console := by rw [hkeeps.console, hlinked.console]

theorem idle_of_admits {promptlen : ℤ} (h : admits s promptlen maxlen = true) :
    s.ai.busy = false := by
  simp only [admits, Bool.and_eq_true, Bool.not_eq_true'] at h
  exact h.2

section

variable (hlinked : Linked s)
include hlinked

/-- An admitted call outside the console starts a quiet wait. -/
theorem Linked.claim (hidle : s.ai.busy = false)
    (hhandler : s.handler ≠ .console) (hwire : s.wire = []) (pid : ℕ) (maxlen : ℤ) :
    Linked { s with
      ai := aiClaim s.ai
      phase := update s.phase pid (.claimed s.nextReq maxlen)
      nextReq := s.nextReq + 1 } := by
  obtain ⟨-, hqueue, hnone⟩ := hlinked.idle hidle
  have hclaimed : ∀ p req m, update s.phase pid (.claimed s.nextReq maxlen) p =
      Phase.claimed req m → p = pid := by
    intro p req m hp
    by_contra hne
    rw [update_of_ne hne] at hp
    exact hnone p ⟨req, m, hp⟩
  refine ⟨aiClaim_inv _, fun _ => hhandler, ?_, fun _ _ _ => .inl rfl, fun _ => .inl ?_,
    hlinked.read, hlinked.console⟩
  · intro h
    simp [aiClaim, Ai.busy] at h
  · refine ⟨hwire, rfl, by simp [hqueue], ?_⟩
    rintro p ⟨req, m, hp⟩
    refine ⟨hqueue, ?_⟩
    rintro q ⟨req', m', hq⟩
    rw [hclaimed p req m hp, hclaimed q req' m' hq]

theorem Linked.quiet_of_claimed {p : ℕ} (hp : s.Claimed p) :
    s.ai.busy = true ∧ s.Quiet := by
  cases hbusy : s.ai.busy with
  | false => exact absurd hp ((hlinked.idle hbusy).2.2 p)
  | true =>
    rcases hlinked.busy hbusy with hquiet | ⟨-, hnone, -⟩
    · exact ⟨rfl, hquiet⟩
    · exact absurd hp (hnone p)

/-- Sending the request keeps the wait quiet. -/
theorem Linked.send (hphase : s.phase pid = .claimed req maxlen) (heard : Bool) :
    Linked { s with
      phase := update s.phase pid (.sent req maxlen)
      queue := if heard then s.queue ++ [req] else s.queue } := by
  obtain ⟨hbusy, hwire, hparser, -, hone⟩ := hlinked.quiet_of_claimed ⟨req, maxlen, hphase⟩
  obtain ⟨hqueue, hunique⟩ := hone pid ⟨req, maxlen, hphase⟩
  have hnone : ∀ p r m, update s.phase pid (.sent req maxlen) p ≠ Phase.claimed r m := by
    intro p r m hp
    by_cases hne : p = pid
    · simp [hne] at hp
    · rw [update_of_ne hne] at hp
      exact hne (hunique p ⟨r, m, hp⟩)
  refine ⟨hlinked.inv, hlinked.routed, ?_, fun _ _ _ => .inl hbusy, fun _ => .inl ?_,
    hlinked.read, hlinked.console⟩
  · intro hidle
    simp [hbusy] at hidle
  · refine ⟨hwire, hparser, ?_, ?_⟩
    · cases heard <;> simp [hqueue]
    · rintro p ⟨r, m, hp⟩
      exact absurd hp (hnone p r m)

/-- A request at the host makes the wait a quiet one. -/
theorem Linked.quiet_of_queued {queue : List ℕ} (hqueue : s.queue = req :: queue) :
    s.wire = [] ∧ queue = [] ∧ ∀ p, ¬ s.Claimed p := by
  have hbusy : s.ai.busy = true := by
    by_contra hidle
    simp [(hlinked.idle (by simpa using hidle)).2.1] at hqueue
  rcases hlinked.busy hbusy with ⟨hwire, -, hlen, hone⟩ | ⟨hnil, -⟩
  · refine ⟨hwire, ?_, ?_⟩
    · rw [hqueue, length_cons] at hlen
      exact eq_nil_of_length_eq_zero (by omega)
    · intro p hp
      have hempty := (hone p hp).1
      simp [hqueue] at hempty
  · simp [hnil] at hqueue

/-- The answer to a queued request that fits puts its reply on an empty line. -/
theorem Linked.answer {queue : List ℕ} (hqueue : s.queue = req :: queue) (hfits : Fits body)
    (hlines : ∀ l ∈ body, 10 ∉ l) :
    Linked { s with
      queue := queue
      answers := s.answers ++ [(req, body)]
      wire := s.wire ++ reply req body } := by
  obtain ⟨hwire, hnil, hnone⟩ := hlinked.quiet_of_queued hqueue
  refine ⟨hlinked.inv, hlinked.routed, ?_, hlinked.waiting, fun hbusy => .inr ?_, ?_, hlinked.console⟩
  · intro hidle
    simp [(hlinked.idle hidle).2.1] at hqueue
  · have hparser : s.ai.parser = Parser.start := by
      rcases hlinked.busy hbusy with hquiet | harriving
      · exact hquiet.2.1
      · simp [harriving.1] at hqueue
    refine ⟨hnil, hnone, req, body, [], frame body, by simp, hfits, hlines, by simp,
      by simp [frame], ?_, ?_⟩
    · simp [hwire, reply]
    · simp [hparser, Parser.feed]
  · simp [← append_assoc, hlinked.read, replies_reply]

/-- Input that arrives while the channel is free is not part of a reply. -/
theorem Linked.noise (hidle : s.ai.busy = false) (bs : List ℕ) :
    Linked { s with wire := s.wire ++ bs.map fun b => (b, none) } := by
  obtain ⟨hwire, hqueue, hnone⟩ := hlinked.idle hidle
  refine ⟨hlinked.inv, hlinked.routed, fun _ => ⟨?_, hqueue, hnone⟩, hlinked.waiting, ?_, ?_,
    hlinked.console⟩
  · rw [replies_append, hwire, replies_noise, append_nil]
  · intro hbusy
    simp [hidle] at hbusy
  · rw [replies_append, replies_noise, append_nil]
    exact hlinked.read

/-- What a byte taken from the line does. With a free channel it is input, and
the bridge and the console may read it. With a busy channel it is the next byte
of an arriving reply and goes to the bridge, and only the last byte completes
the reply. -/
theorem Linked.take_spec (htake : take s = some t) :
    (s.ai.busy = false ∧ ∃ b wire, s.wire = (b, none) :: wire ∧
      (t = { s with wire := wire, received := s.received ++ [(b, none)] } ∨
        t = { s with wire := wire, console := s.console ++ [(b, none)] })) ∨
    (s.ai.busy = true ∧ ∃ req body b wire ai, s.wire = (b, some req) :: wire ∧
      (req, body) ∈ s.answers ∧ s.queue = [] ∧ (∀ p, ¬ s.Claimed p) ∧ ai.Inv ∧
      t = { s with
        ai := ai
        wire := wire
        received := s.received ++ [(b, some req)]
        source := if ai.complete then some req else s.source } ∧
      ((wire = [] ∧ ai.busy = false ∧ ai.complete = true ∧ ai.failed = false ∧
          ai.parser = ⟨true, replyText body, []⟩) ∨
        (ai.busy = true ∧ ai.complete = false ∧ t.Arriving))) := by
  obtain ⟨b, tag, wire, hwire, hcases⟩ := take_cases htake
  cases hbusy : s.ai.busy with
  | false =>
    have htag : tag = none := by
      have hnil := (hlinked.idle hbusy).1
      rw [hwire, replies, filter_eq_nil_iff] at hnil
      simpa using hnil (b, tag) (by simp)
    subst tag
    refine .inl ⟨rfl, b, wire, hwire, ?_⟩
    rcases hcases with ⟨-, ai, hrx, rfl⟩ | ⟨-, rfl⟩
    · rw [aiUartRx_of_idle hbusy, some.injEq] at hrx
      subst ai
      exact .inl (by simp)
    · exact .inr rfl
  | true =>
    have hopen := hlinked.inv.complete_of_busy hbusy
    rcases hlinked.busy hbusy with hquiet | ⟨hqueue, hnone, req, body, read, rest, hmem, hfits,
      hlines, hframe, hrest, hline, hfeed⟩
    · simp [hquiet.1] at hwire
    rcases hcases with ⟨-, ai, hrx, rfl⟩ | ⟨hconsole, -⟩
    · obtain ⟨ai', hrx', hinv, hmatch⟩ := aiUartRx_spec hlinked.inv hbusy b
      rw [hrx, some.injEq] at hrx'
      subst ai'
      -- the byte on the line and the next byte of the frame are the same
      cases rest with
      | nil => exact absurd rfl hrest
      | cons c rest =>
        rw [hwire, map_cons, List.cons.injEq, Prod.mk.injEq] at hline
        obtain ⟨⟨rfl, rfl⟩, rfl⟩ := hline
        refine .inr ⟨rfl, req, body, b, _, ai, hwire, hmem, hqueue, hnone, hinv, ?_, ?_⟩
        · simp [hopen]
        · rcases rx_next hfits hlines hframe hfeed with ⟨rfl, hdone⟩ | ⟨hne, q, hmore, hfeed'⟩
          · rw [hdone] at hmatch
            obtain ⟨hparser, hactive, hdraining, hcomplete, hfailed⟩ := hmatch
            exact .inl ⟨rfl, by simp [Ai.busy, hactive, hdraining], hcomplete, hfailed, hparser⟩
          · rw [hmore] at hmatch
            obtain ⟨hparser, hactive, hdraining, hcomplete, -⟩ := hmatch
            refine .inr ⟨?_, hcomplete.trans hopen, hqueue, hnone, req, body, read ++ [b], rest,
              hmem, hfits, hlines, by simpa using hframe, hne, rfl, ?_⟩
            · rw [Ai.busy, hactive, hdraining]
              exact hbusy
            · rw [hfeed', ← hparser]
    · exact absurd hconsole (hlinked.routed hbusy)

/-- Input read with a free channel keeps the invariant, whoever reads it. -/
theorem Linked.take_input (hidle : s.ai.busy = false) {b : ℕ}
    {wire : List Tagged} (hwire : s.wire = (b, none) :: wire) {received console : List Tagged}
    (hreceived : replies received = replies s.received)
    (hconsole : replies console = replies s.console) :
    Linked { s with wire := wire, received := received, console := console } := by
  obtain ⟨hnil, hqueue, hnone⟩ := hlinked.idle hidle
  have hrest : replies s.wire = replies wire := by
    rw [hwire]
    simp [replies]
  refine ⟨hlinked.inv, hlinked.routed, fun _ => ⟨?_, hqueue, hnone⟩, hlinked.waiting, ?_, ?_, ?_⟩
  · rw [← hrest, hnil]
  · intro hbusy
    simp [hidle] at hbusy
  · rw [hreceived, ← hrest]
    exact hlinked.read
  · rw [hconsole, hlinked.console]

/-- A byte taken from the line keeps the invariant. -/
theorem Linked.take (htake : AiSystem.take s = some t) :
    Linked t := by
  have hinput : ∀ b : ℕ, ∀ xs : List Tagged, replies (xs ++ [(b, none)]) = replies xs := by
    simp [replies]
  rcases hlinked.take_spec htake with ⟨hidle, b, wire, hwire, rfl | rfl⟩ |
    ⟨hbusy, req, body, b, wire, ai, hwire, hmem, hqueue, hnone, hinv, ht, hcases⟩
  · exact hlinked.take_input hidle hwire (hinput b _) rfl
  · exact hlinked.take_input hidle hwire rfl (hinput b _)
  have hai : t.ai = ai := by rw [ht]
  refine ⟨hai ▸ hinv, ?_, ?_, ?_, ?_, ?_, by rw [ht]; exact hlinked.console⟩
  · intro _
    rw [ht]
    exact hlinked.routed hbusy
  · rw [hai]
    intro hidle
    rcases hcases with ⟨rfl, -⟩ | ⟨hbusy', -⟩
    · rw [ht]
      exact ⟨rfl, hqueue, hnone⟩
    · simp [hidle] at hbusy'
  · intro p r hp
    rw [hai]
    rcases hcases with ⟨-, -, hcomplete, -⟩ | ⟨hbusy', -⟩
    · exact .inr hcomplete
    · exact .inl hbusy'
  · rw [hai]
    intro hbusy'
    rcases hcases with ⟨-, hidle, -⟩ | ⟨-, -, harriving⟩
    · simp [hidle] at hbusy'
    · exact .inr harriving
  · rw [ht, ← hlinked.read, hwire]
    simp [replies]

/-- A process in the wait loop without a complete reply finds the bridge busy. -/
theorem Linked.busy_of_waiting {started : BitVec 32}
    (hphase : s.phase pid = .waiting req maxlen started)
    (hopen : s.ai.complete = false) : s.ai.busy = true := by
  rcases hlinked.waiting pid req (by rw [hphase]; rfl) with hbusy | hcomplete
  · exact hbusy
  · simp [hopen] at hcomplete

end

/-- The kinds of steps of an orderly run. -/
inductive LineStep (s : State) : Event → State → Prop where
  | claim (pid : ℕ) (promptlen maxlen : ℤ) (hidle : s.ai.busy = false)
      (hadmits : admits s promptlen maxlen = true) (hhandler : s.handler ≠ .console)
      (hwire : s.wire = []) :
      LineStep s (.call pid promptlen maxlen) { s with
        ai := aiClaim s.ai
        phase := update s.phase pid (.claimed s.nextReq maxlen)
        nextReq := s.nextReq + 1 }
  | send (pid req : ℕ) (maxlen : ℤ) (heard : Bool) (hphase : s.phase pid = .claimed req maxlen) :
      LineStep s (.send pid heard) { s with
        phase := update s.phase pid (.sent req maxlen)
        queue := if heard then s.queue ++ [req] else s.queue }
  | answer (req : ℕ) (queue : List ℕ) (body : List (List ℕ)) (hqueue : s.queue = req :: queue)
      (hfits : Fits body) (hlines : ∀ l ∈ body, 10 ∉ l) :
      LineStep s (.answer body) { s with
        queue := queue
        answers := s.answers ++ [(req, body)]
        wire := s.wire ++ reply req body }
  | noise (bs : List ℕ) (hidle : s.ai.busy = false) :
      LineStep s (.noise bs) { s with wire := s.wire ++ bs.map fun b => (b, none) }
  | take (t : State) (htake : take s = some t) : LineStep s .take t
  | keeps (e : Event) (t : State) (hkeeps : KeepsLine s t)
      (hhandler : s.ai.busy = true → t.handler = .console → s.handler = .console) :
      LineStep s e t

/-- Every step of an orderly run is of one of these kinds. -/
theorem Linked.lineStep {e : Event} (hlinked : Linked s) (horderly : Orderly s e)
    (hstep : step s e = some t) : LineStep s e t := by
  have hrest := KeepsLine.rest hlinked.inv rfl rfl rfl rfl (advances_refl s.phase) s.results
  cases e with
  | call pid promptlen maxlen =>
    obtain ⟨-, ⟨hadmits, rfl⟩ | rfl⟩ := call_cases hstep
    · obtain ⟨hhandler, hwire⟩ := horderly hadmits
      exact .claim pid promptlen maxlen (idle_of_admits hadmits) hadmits hhandler hwire
    · exact .keeps _ _ (hrest t.ticks t.killed t.handler) fun _ h => h
  | send pid heard =>
    obtain ⟨req, maxlen, hphase, rfl⟩ := send_cases hstep
    exact .send pid req maxlen heard hphase
  | start pid =>
    obtain ⟨req, maxlen, hphase, rfl⟩ := start_cases hstep
    exact .keeps _ _ (.move hlinked.inv (by simp [hphase, Phase.req]) (by simp) s.results) fun _ h => h
  | pass pid =>
    obtain ⟨req, maxlen, started, hphase, hcases⟩ := pass_cases hstep
    rcases hcases with ⟨-, rfl⟩ | ⟨hopen, rfl⟩ | rfl
    · exact .keeps _ _ (.move hlinked.inv (by simp [Phase.req]) (by simp) _) fun _ h => h
    · exact .keeps _ _ (.abandon hlinked.inv (hlinked.busy_of_waiting hphase hopen) _) fun _ h => h
    · exact .keeps _ _ (.move hlinked.inv (by simp [hphase, Phase.req]) (by simp) s.results) fun _ h => h
  | wake pid =>
    obtain ⟨req, maxlen, started, hphase, rfl⟩ := wake_cases hstep
    exact .keeps _ _ (.move hlinked.inv (by simp [hphase, Phase.req]) (by simp) s.results) fun _ h => h
  | kill pid =>
    rw [← some.inj hstep]
    exact .keeps _ _ (hrest s.ticks _ s.handler) fun _ h => h
  | tick =>
    rw [← some.inj hstep]
    exact .keeps _ _ (hrest _ s.killed s.handler) fun _ h => h
  | noise bs =>
    rw [← some.inj hstep]
    exact .noise bs horderly
  | answer body =>
    obtain ⟨hlines, req, queue, hqueue, rfl⟩ := answer_cases hstep
    exact .answer req queue body hqueue horderly hlines
  | enter =>
    obtain ⟨-, rfl⟩ := enter_cases hstep
    refine .keeps _ _ (hrest s.ticks s.killed _) ?_
    intro hbusy h
    simp [hbusy] at h
  | take => exact .take t hstep
  | leave =>
    obtain rfl := leave_cases hstep
    refine .keeps _ _ (hrest s.ticks s.killed _) ?_
    intro _ h
    simp at h

/-- Every step of an orderly run keeps the invariant of the line. -/
theorem Linked.step {e : Event} (hlinked : Linked s) (horderly : Orderly s e)
    (hstep : AiSystem.step s e = some t) : Linked t := by
  cases hlinked.lineStep horderly hstep with
  | claim pid promptlen maxlen hidle _ hhandler hwire =>
    exact hlinked.claim hidle hhandler hwire pid maxlen
  | send pid req maxlen heard hphase => exact hlinked.send hphase heard
  | answer req queue body hqueue hfits hlines => exact hlinked.answer hqueue hfits hlines
  | noise bs hidle => exact hlinked.noise hidle bs
  | take _ htake => exact hlinked.take htake
  | keeps _ _ hkeeps hhandler => exact hlinked.keeps hkeeps hhandler

theorem linked_init : Linked init where
  inv := aiInit_inv
  routed := by simp [init, aiInit, Ai.busy]
  idle := fun _ => ⟨rfl, rfl, by simp [State.Claimed, init]⟩
  waiting := by simp [init, Phase.req]
  busy := by simp [init, aiInit, Ai.busy]
  read := rfl
  console := rfl

/-- **Replies never reach the console.** In every state of an orderly run, the
reply bytes that `ai_uart_rx` has read and those still on the line are exactly
the frames the host has sent, and `consoleintr` has read none of them. -/
theorem replies_read_by_bridge {es : List Event} {s : State}
    (horderly : Along step Orderly init es) (hrun : run step init es = some s) :
    replies s.received ++ replies s.wire = s.answers.flatMap (fun a => reply a.1 a.2) ∧
      replies s.console = [] := by
  have hlinked : Linked s :=
    invariant_along (I := Linked) Linked.step linked_init horderly hrun
  exact ⟨hlinked.read, hlinked.console⟩

/-- A run in which one query is admitted, the host answers it with the body
`DOT`, the bridge reads the whole reply and the query returns. -/
def oneReply : List Event :=
  .call 0 5 100 :: ([.send 0 true, .start 0, .answer [str "DOT"], .enter] ++
    replicate 24 .take ++ [.leave, .pass 0])

/-- The later steps of that run are orderly in any state. -/
theorem orderly_oneReply_tail : ∀ e ∈ oneReply.tail, ∀ s,
    Orderly s e ∧ ∀ pid promptlen maxlen, e ≠ .call pid promptlen maxlen := by
  intro e he s
  have hfits : Fits [str "DOT"] := by
    unfold Fits
    decide
  simp only [oneReply, tail_cons, mem_append, mem_cons, mem_replicate, not_mem_nil, or_false] at he
  rcases he with ((rfl | rfl | rfl | rfl) | ⟨-, rfl⟩) | (rfl | rfl)
  all_goals first
    | exact ⟨hfits, by simp⟩
    | exact ⟨trivial, by simp⟩

/-- The bridge reads all bytes of a short reply. -/
theorem one_reply_read_by_bridge : ∃ s, run step init oneReply = some s ∧
      s.answers = [(0, [str "DOT"])] ∧ s.wire = [] ∧
      replies s.received ++ replies s.wire = s.answers.flatMap (fun a => reply a.1 a.2) ∧
      replies s.console = [] := by
  have horderly : Along step Orderly init oneReply :=
    ⟨fun _ => by decide, fun t _ =>
      along_of_forall (fun e he s => (orderly_oneReply_tail e he s).1) t⟩
  have hend : (run step init oneReply).map (fun s => (s.answers, s.wire)) =
      some ([(0, [str "DOT"])], []) := by decide +kernel
  obtain ⟨s, hrun, hs⟩ := Option.map_eq_some_iff.mp hend
  obtain ⟨hanswers, hwire⟩ := Prod.mk.inj hs
  exact ⟨s, hrun, hanswers, hwire, replies_read_by_bridge horderly hrun⟩

/-- A line of 1024 characters fills the line buffer and frees the channel, so
that the newline after it reaches the console with the next interrupt. A reply
that arrives while the handler still reads for the console is lost to it. -/
theorem overlong_line_reaches_console : (run step init
      ([.call 0 5 100, .send 0 true, .start 0, .answer [replicate 1024 65], .enter] ++
        replicate 1035 .take ++ [.leave, .enter, .take])).map State.console = some [(10, some 0)] ∧
    (run step init
      [.enter, .call 0 5 100, .send 0 true, .start 0, .answer [], .take]).map State.console =
      some [(66, some 0)] := by
  decide +kernel

end Xv6Draw.AiSystem
