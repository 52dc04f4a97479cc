import Xv6Draw.Ai.Bridge
import Xv6Draw.Draw.Parser
import Xv6Draw.Draw.Plane
import Xv6Draw.Lib.Interaction
import Xv6Draw.Syscall

/-!
# The drawing program

`main` of `aidraw.c` with the functions that it uses, as a program that asks the
kernel and the library and goes on with whatever they answer. A reply that parses
up to a line `END` is drawn, shown and taken off the screen again, whichever of the
later calls fail. With any other reply the display is never opened.
-/

namespace Xv6Draw

open Interaction List Option

/-- What the program asks of the kernel and of the library. -/
inductive Sys where
  | printf (fd : ℤ) (text : List ℕ)
  | malloc (size : ℕ)
  | free (p : ℤ)
  | aiQuery (prompt : List ℕ) (maxlen : ℕ)
  | «open» (path : List ℕ) (mode : ℕ)
  | close (fd : ℤ)
  | ioctl (fd param value : ℤ)
  | read (fd : ℤ) (size : ℕ)
  | write (fd : ℤ) (bytes : List ℕ)
  | exit
  deriving DecidableEq

/-- An answer: the value that the call returns, and the bytes behind the pointer
that it returns or was given. -/
structure Answer where
  value : ℤ
  data : List ℕ

/-- Calls with their answers, in order. -/
abbrev Trace := List (Sys × Answer)

/-- The path of the display, in `aidraw.c` and as `DISPLAY_PATH` in `drawlib.c`. -/
def displayPath : List ℕ := str "display"

/-- `DISPLAY_CHUNK`. -/
def displayChunk : ℕ := 1000

/-- `O_WRONLY`. -/
def oWronly : ℕ := 1

/-- `set_display_mode`. -/
def setDisplayMode (mode : ℤ) : Prog Sys Answer ℤ := do
  let fd ← request (.open displayPath oWronly)
  if fd.value < 0 then pure (-1)
  else do
    let rc ← request (.ioctl fd.value 1 mode)
    let _ ← request (.close fd.value)
    pure rc.value

/-- `wait_for_keypress`. -/
def waitForKeypress : Prog Sys Answer ℤ := do
  let rc ← request (.ioctl 0 2 1)
  if rc.value < 0 then pure (-1)
  else do
    let n ← request (.read 0 1)
    if n.value ≠ 1 then do
      let _ ← request (.ioctl 0 2 0)
      pure (-1)
    else do
      let rc ← request (.ioctl 0 2 0)
      if rc.value < 0 then pure (-1) else pure 0

/-- The bytes of the canvas from an offset on. -/
def canvasChunk (canvas : Canvas) (offset chunk : ℕ) : List ℕ :=
  (range' offset chunk).map fun i : ℕ => canvas i

/-- The loop of `canvas_blit` over the offsets, and what follows it. -/
def blitLoop (fd : ℤ) (canvas : Canvas) : List ℕ → Prog Sys Answer ℤ
  | [] => do
    let _ ← request (.close fd)
    pure 0
  | offset :: offsets => do
    let rest := canvasSize.toNat - offset
    let chunk := if displayChunk < rest then displayChunk else rest
    let written ← request (.write fd (canvasChunk canvas offset chunk))
    if written.value ≠ chunk then do
      let _ ← request (.close fd)
      pure (-1)
    else blitLoop fd canvas offsets

/-- `canvas_blit`, whose loop makes 64 passes. -/
def canvasBlit (canvas : Canvas) : Prog Sys Answer ℤ := do
  let fd ← request (.open displayPath oWronly)
  if fd.value < 0 then pure (-1)
  else blitLoop fd.value canvas (range' 0 64 displayChunk)

/-- The loop of `join_prompt` over the words: the prompt so far, and whether the
next word is the first. -/
def joinLoop (prompt : List ℕ) (first : Bool) : List (List ℕ) → Option (List ℕ)
  | [] => some prompt
  | word :: words =>
    if !first ∧ aiPromptMax ≤ prompt.length + 1 then none
    else
      let prompt := if first then prompt else prompt ++ [32]
      if aiPromptMax ≤ prompt.length + word.length then none
      else joinLoop (prompt ++ word) false words

/-- `join_prompt`, which skips the name of the program. -/
def joinPrompt (argv : List (List ℕ)) : Option (List ℕ) := joinLoop [] true argv.tail

/-- `parse_line` on the canvas: the canvas behind it, what it returns, and
`saw_end`. -/
def parseLineOn (canvas : Canvas) (line : List ℕ) : Option (Canvas × ℤ × Bool) :=
  match parseLine line with
  | none => some (canvas, -1, false)
  | some (none, sawEnd) => some (canvas, 0, sawEnd)
  | some (some call, sawEnd) => (call.run canvas).map fun canvas => (canvas, 0, sawEnd)

/-- The parse loop of `main` from `line` on, which `strchr` and the NUL in the place
of the newline cut into the line and the rest. -/
def drawLoop (canvas : Canvas) (line : List ℕ) : Option (Canvas × ParseEnd) :=
  if line = [] then some (canvas, .missingEnd)
  else
    match parseLineOn canvas (line.takeWhile (· ≠ 10)) with
    | none => none
    | some (canvas, rc, sawEnd) =>
      if rc < 0 then some (canvas, .invalid (line.takeWhile (· ≠ 10)))
      else if sawEnd then some (canvas, .sawEnd)
      else if line.dropWhile (· ≠ 10) = [] then some (canvas, .missingEnd)
      else drawLoop canvas (line.dropWhile (· ≠ 10)).tail
termination_by line.length
decreasing_by
  have hle := (dropWhile_sublist (l := line) (· ≠ 10)).length_le
  have hpos := length_pos_of_ne_nil ‹¬line.dropWhile (· ≠ 10) = []›
  rw [length_tail]
  omega

/-- A message, the two buffers freed, and the end. -/
def giveUp (canvas response : ℤ) (text : List ℕ) : Prog Sys Answer Unit := do
  let _ ← request (.printf 2 text)
  let _ ← request (.free canvas)
  let _ ← request (.free response)
  let _ ← request .exit
  pure ()

/-- `main` from the switch to graphics mode on. -/
def showCanvas (canvas response : ℤ) (image : Canvas) : Prog Sys Answer Unit := do
  let rc ← setDisplayMode 0x13
  if rc < 0 then giveUp canvas response (str "aidraw: failed to switch to VGA mode\n")
  else do
    let rc ← canvasBlit image
    if rc < 0 then do
      let _ ← request (.printf 2 (str "aidraw: failed to blit canvas\n"))
      let _ ← setDisplayMode 0x3
      let _ ← request (.free canvas)
      let _ ← request (.free response)
      let _ ← request .exit
      pure ()
    else do
      let rc ← waitForKeypress
      if rc < 0 then do
        let _ ← request (.printf 2 (str "aidraw: failed to read keypress\n"))
        let _ ← setDisplayMode 0x3
        let _ ← request (.free canvas)
        let _ ← request (.free response)
        let _ ← request .exit
        pure ()
      else do
        let rc ← setDisplayMode 0x3
        if rc < 0 then giveUp canvas response (str "aidraw: failed to restore text mode\n")
        else do
          let _ ← request (.free canvas)
          let _ ← request (.free response)
          let _ ← request .exit
          pure ()

/-- `main` from the reply on, which is the C string in the response buffer. The
canvas starts with what `malloc` left in it. A drawing function that did not return
would keep the program from any further call. -/
def drawReply (canvas response : ℤ) (heap : List ℕ) (reply : List ℕ) : Prog Sys Answer Unit :=
  match drawLoop (canvasClear (fun i => heap.getD i.toNat 0) 0) (untilNul reply) with
  | none => pure ()
  | some (_, .invalid line) =>
    giveUp canvas response (str "aidraw: invalid drawing command '" ++ line ++ str "'\n")
  | some (_, .missingEnd) => giveUp canvas response (str "aidraw: response missing END\n")
  | some (image, .sawEnd) => showCanvas canvas response image

/-- A message and the end. -/
def stop (text : List ℕ) : Prog Sys Answer Unit := do
  let _ ← request (.printf 2 text)
  let _ ← request .exit
  pure ()

/-- `main`. -/
def aidraw (argv : List (List ℕ)) : Prog Sys Answer Unit :=
  if argv.length < 2 then stop (str "usage: aidraw prompt...\n")
  else
    match joinPrompt argv with
    | none => stop (str "aidraw: prompt too long\n")
    | some prompt => do
      let canvas ← request (.malloc canvasSize.toNat)
      let response ← request (.malloc aiResponseMax)
      if canvas.value = 0 ∨ response.value = 0 then stop (str "aidraw: allocation failed\n")
      else do
        let reply ← request (.aiQuery prompt aiResponseMax)
        if reply.value < 0 then
          giveUp canvas.value response.value (str "aidraw: ai query failed\n")
        else drawReply canvas.value response.value canvas.data reply.data

/-! ### The parse loop -/

/-- A reply with a line `END` whose earlier lines all parse. -/
def Drawable (reply : List ℕ) : Prop :=
  ∃ before line after, reply.splitOn 10 = before ++ line :: after ∧
    (∃ call, parseLine line = some (call, true)) ∧ ∀ l ∈ before, (parseLine l).isSome

/-- The calls that the lines before the first `END` make, in order. -/
def replyCalls (reply : List ℕ) : List Call := (parseLoop (reply.splitOn 10)).1

/-- The first line of a text, as the loop cuts it off. -/
theorem splitOn_eq_takeWhile (line : List ℕ) : line.splitOn 10 = line.takeWhile (· ≠ 10) ::
      if line.dropWhile (· ≠ 10) = [] then [] else (line.dropWhile (· ≠ 10)).tail.splitOn 10 := by
  have hword : ∀ c ∈ line.takeWhile (· ≠ 10), (c == 10) = false := by
    intro c hc
    have hne := mem_takeWhile_imp hc
    simpa using hne
  have happend := takeWhile_append_dropWhile (p := (· ≠ 10)) (l := line)
  cases hrest : line.dropWhile (· ≠ 10) with
  | nil =>
    rw [hrest, append_nil] at happend
    rw [happend] at hword
    rw [happend, List.splitOn, splitOnP_eq_singleton hword, if_pos rfl]
  | cons c rest =>
    have hc : c = 10 := by
      have hhead := List.head?_dropWhile_not (· ≠ 10) line
      rw [hrest] at hhead
      simpa using hhead
    have hsplit := splitOnP_append_cons_of_forall_mem hword c (by simp [hc]) rest
    rw [hrest] at happend
    rw [happend] at hsplit
    rw [if_neg (cons_ne_nil c rest), tail_cons]
    exact hsplit

variable {line text reply : List ℕ}

theorem parseLine_end {call : Option Call} (h : parseLine line = some (call, true)) :
    call = none := by
  unfold parseLine at h
  simp only at h
  split_ifs at h
  · cases h
  · split at h
    · split_ifs at h
      cases h
      rfl
    · obtain ⟨c, -, hc⟩ := map_eq_some_iff.mp h
      cases hc

/-- The loop makes the calls of the lines up to the one that ends it. -/
theorem drawLoop_eq (canvas : Canvas) (line : List ℕ) :
    drawLoop canvas line = (runCalls canvas (parseLoop (line.splitOn 10)).1).map
      (·, (parseLoop (line.splitOn 10)).2) := by
  induction hn : line.length using Nat.strong_induction_on generalizing canvas line with
  | _ n ih =>
    rw [drawLoop]
    by_cases hnil : line = []
    · subst line
      rfl
    · rw [if_neg hnil, splitOn_eq_takeWhile, parseLoop, parseLineOn]
      rcases hparse : parseLine (line.takeWhile (· ≠ 10)) with _ | ⟨call, sawEnd⟩
      · rfl
      · -- the rest of the loop, on whatever canvas the line leaves
        have hrest : ∀ canvas', (if line.dropWhile (· ≠ 10) = [] then some (canvas', .missingEnd)
            else drawLoop canvas' (line.dropWhile (· ≠ 10)).tail) =
            (runCalls canvas' (parseLoop (if line.dropWhile (· ≠ 10) = [] then []
              else (line.dropWhile (· ≠ 10)).tail.splitOn 10)).1).map
              (·, (parseLoop (if line.dropWhile (· ≠ 10) = [] then []
                else (line.dropWhile (· ≠ 10)).tail.splitOn 10)).2) := by
          intro canvas'
          split_ifs with hend
          · rfl
          · refine ih _ ?_ canvas' _ rfl
            have hle := (dropWhile_sublist (l := line) (· ≠ 10)).length_le
            have hpos := length_pos_of_ne_nil hend
            rw [length_tail]
            omega
        cases sawEnd with
        | true =>
          obtain rfl := parseLine_end hparse
          rfl
        | false =>
          cases call with
          | none =>
            simp only [lt_self_iff_false, if_false, Bool.false_eq_true, hrest canvas]
            rfl
          | some call =>
            obtain ⟨canvas', hrun, -⟩ := call.paints canvas
            simp only [hrun, map_some, lt_self_iff_false, if_false, Bool.false_eq_true,
              hrest canvas', toList_some, cons_append, nil_append, runCalls,
              foldlM_cons, bind_eq_bind, bind_some]

/-- The loop ends at a line `END` exactly when the reply is drawable. -/
theorem parseLoop_sawEnd_iff {lines : List (List ℕ)} :
    (parseLoop lines).2 = .sawEnd ↔ ∃ before line after, lines = before ++ line :: after ∧
      (∃ call, parseLine line = some (call, true)) ∧ ∀ l ∈ before, (parseLine l).isSome := by
  induction lines with
  | nil => simp [parseLoop]
  | cons line lines ih =>
    rw [parseLoop]
    rcases hparse : parseLine line with _ | ⟨call, _ | _⟩
    · simp only [reduceCtorEq, false_iff]
      rintro ⟨_ | ⟨l, before⟩, line', after, heq, ⟨call, hend⟩, hbefore⟩
      · rw [nil_append, List.cons.injEq] at heq
        rw [← heq.1, hparse] at hend
        cases hend
      · rw [cons_append, List.cons.injEq] at heq
        have hsome := hbefore l (by simp)
        rw [← heq.1, hparse] at hsome
        cases hsome
    · simp only [ih]
      constructor
      · rintro ⟨before, line', after, rfl, hend, hbefore⟩
        refine ⟨line :: before, line', after, rfl, hend, ?_⟩
        intro l hl
        rcases mem_cons.mp hl with rfl | hl
        · rw [hparse]
          rfl
        · exact hbefore l hl
      · rintro ⟨_ | ⟨l, before⟩, line', after, heq, ⟨call', hend⟩, hbefore⟩
        · rw [nil_append, List.cons.injEq] at heq
          rw [← heq.1, hparse] at hend
          cases hend
        · rw [cons_append, List.cons.injEq] at heq
          exact ⟨before, line', after, heq.2, ⟨call', hend⟩, fun l' hl' => hbefore l' (by simp [hl'])⟩
    · simp only [true_iff]
      exact ⟨[], line, lines, rfl, ⟨call, hparse⟩, by simp⟩

/-! ### The canvas that is drawn on -/

/-- Two memories that agree on the canvas. -/
def SameCanvas (c d : Canvas) : Prop := ∀ i, 0 ≤ i → i < canvasSize → c i = d i

variable {c c' d : Canvas} {t : Trace} {rc canvas response : ℤ}

/-- The same points on two canvases that agree. -/
theorem Shows.sameCanvas {color : ℕ} {points : List Point} {d' : Canvas}
    (hc : Shows color c points c') (hd : Shows color d points d') (h : SameCanvas c d) :
    SameCanvas c' d' := by
  intro i hlow hhigh
  obtain ⟨p, hv, rfl⟩ := exists_visible_iff.mpr ⟨hlow, hhigh⟩
  rw [hc.apply_offset hv, hd.apply_offset hv, h _ hlow hhigh]

/-- The primitive that a call makes, other than `canvas_clear`. -/
def Call.primitive : Call → Option Primitive
  | .clear _ => none
  | .pixel x y _ => some (.pixel x y)
  | .line x1 y1 x2 y2 _ => some (.line x1 y1 x2 y2)
  | .rect x y w h _ => some (.rect x y w h)
  | .fillrect x y w h _ => some (.fillrect x y w h)
  | .circle x y radius _ => some (.circle x y radius)
  | .fillcircle x y radius _ => some (.fillcircle x y radius)
  | .triangle x1 y1 x2 y2 x3 y3 _ => some (.triangle x1 y1 x2 y2 x3 y3)
  | .filltriangle x1 y1 x2 y2 x3 y3 _ => some (.filltriangle x1 y1 x2 y2 x3 y3)
  | .ellipse x y rx ry _ => some (.ellipse x y rx ry)
  | .fillellipse x y rx ry _ => some (.fillellipse x y rx ry)
  | .polygon xs ys _ => some (.polygon xs ys xs.length)
  | .fillpolygon xs ys _ => some (.fillpolygon xs ys xs.length)

/-- A call is `canvas_clear` or draws its primitive. -/
theorem Call.run_cases (call : Call) :
    (∃ color, call = .clear color) ∨ ∃ primitive : Primitive, ∀ canvas,
      call.run canvas = primitive.draw (uchar call.color) canvas := by
  cases hprim : call.primitive with
  | none =>
    cases call with
    | clear color => exact .inl ⟨color, rfl⟩
    | _ => cases hprim
  | some primitive =>
    refine .inr ⟨primitive, ?_⟩
    intro canvas
    cases call <;> cases hprim <;> rfl

/-- A call on two canvases that agree. -/
theorem Call.run_sameCanvas (call : Call) (h : SameCanvas c d)
    (hrun : call.run c = some c') : ∃ d', call.run d = some d' ∧ SameCanvas c' d' := by
  rcases call.run_cases with ⟨color, rfl⟩ | ⟨primitive, hdraw⟩
  · cases hrun
    refine ⟨_, rfl, ?_⟩
    intro i hlow hhigh
    simp [canvasClear, hlow, hhigh]
  · obtain ⟨points, -, hshows⟩ := primitive.draws (uchar call.color)
    obtain ⟨c₁, hc₁, hshow⟩ := hshows c
    obtain ⟨d₁, hd₁, hshow'⟩ := hshows d
    rw [hdraw] at hrun
    obtain rfl : c₁ = c' := some.inj (hc₁.symm.trans hrun)
    exact ⟨d₁, (hdraw d).trans hd₁, hshow.sameCanvas hshow' h⟩

/-- What calls draw does not depend on the memory around the canvas. -/
theorem runCalls_sameCanvas {calls : List Call} (h : SameCanvas c d)
    (hrun : runCalls c calls = some c') : ∃ d', runCalls d calls = some d' ∧ SameCanvas c' d' := by
  induction calls generalizing c d with
  | nil =>
    cases hrun
    exact ⟨d, rfl, h⟩
  | cons call calls ih =>
    obtain ⟨c₁, hfirst, hrest⟩ := bind_eq_some_iff.mp hrun
    obtain ⟨d₁, hfirst', hsame⟩ := call.run_sameCanvas h hfirst
    obtain ⟨d', hrest', hsame'⟩ := ih hsame hrest
    exact ⟨d', bind_eq_some_iff.mpr ⟨d₁, hfirst', hrest'⟩, hsame'⟩

theorem exists_runCalls (canvas : Canvas) (calls : List Call) :
    ∃ canvas', runCalls canvas calls = some canvas' := by
  have hcall : ∀ c, ∀ call ∈ calls, True → ∃ c', Call.run c call = some c' ∧ True := by
    intro c call _ _
    obtain ⟨c', hc', -⟩ := call.paints c
    exact ⟨c', hc', trivial⟩
  obtain ⟨canvas', hrun, -⟩ := Loop.foldlM_rule hcall (s := canvas) trivial
  exact ⟨canvas', hrun⟩

/-- The bytes of the canvas. -/
def canvasBytes (canvas : Canvas) : List ℕ := canvasChunk canvas 0 canvasSize.toNat

theorem canvasBytes_congr (h : SameCanvas c d) : canvasBytes c = canvasBytes d := by
  unfold canvasBytes canvasChunk
  apply map_congr_left
  intro i hi
  have hmem := mem_range'_1.mp hi
  exact h i (by omega) (by omega)

/-! ### What a run asks for -/

/-- Nothing is written and the display is not opened. -/
def DisplayFree (t : Trace) : Prop :=
  ∀ e ∈ t, (∀ mode, e.1 ≠ .open displayPath mode) ∧ ∀ fd bytes, e.1 ≠ .write fd bytes

/-- A request for a mode of the display: the device is opened and, if that works, the
mode is set through it. -/
def Switches (mode : ℤ) (t : Trace) (rc : ℤ) : Prop :=
  (∃ fd, t = [(.open displayPath oWronly, fd)] ∧ fd.value < 0 ∧ rc = -1) ∨
  ∃ fd set closed, t = [(.open displayPath oWronly, fd), (.ioctl fd.value 1 mode, set),
    (.close fd.value, closed)] ∧ 0 ≤ fd.value ∧ rc = set.value

/-- The bytes that are written, in order. -/
def written (t : Trace) : List ℕ :=
  t.flatMap fun e => match e.1 with
    | .write _ bytes => bytes
    | _ => []

/-- A call of `write` that does not return the number of bytes that it was given. -/
def ShortWrite (e : Sys × Answer) : Prop := ∃ fd bytes, e.1 = .write fd bytes ∧ e.2.value ≠ bytes.length

/-- The blit: the device is opened and, if that works, the bytes of the canvas are
written to it in order, all of them or up to a write that falls short. -/
def Blits (canvas : Canvas) (t : Trace) (rc : ℤ) : Prop :=
  (∃ fd, t = [(.open displayPath oWronly, fd)] ∧ fd.value < 0 ∧ rc = -1) ∨
  ∃ fd writes closed, t = (.open displayPath oWronly, fd) :: (writes ++ [(.close fd.value, closed)]) ∧
    0 ≤ fd.value ∧ (∀ e ∈ writes, ∃ bytes, e.1 = .write fd.value bytes) ∧
    written writes <+: canvasBytes canvas ∧
    ((rc = 0 ∧ written writes = canvasBytes canvas ∧ ∀ e ∈ writes, ¬ ShortWrite e) ∨
      (rc = -1 ∧ ∃ e ∈ writes, ShortWrite e))

/-- An image is shown: graphics mode is requested; if that works, the image is
blitted, and then, whatever fails, text mode is requested before the end. -/
def ShowsImage (canvas : Canvas) (t : Trace) : Prop :=
  ∃ enter rc rest, t = enter ++ rest ∧ Switches 0x13 enter rc ∧
    (rc < 0 → DisplayFree rest) ∧
    (0 ≤ rc → ∃ blit brc middle leave lrc tail, rest = blit ++ (middle ++ (leave ++ tail)) ∧
      Blits canvas blit brc ∧ DisplayFree middle ∧ Switches 0x3 leave lrc ∧ DisplayFree tail)

theorem DisplayFree.nil : DisplayFree [] := by
  intro e he
  simp at he

theorem DisplayFree.cons {c : Sys} {r : Answer} (hopen : ∀ mode, c ≠ .open displayPath mode)
    (hwrite : ∀ fd bytes, c ≠ .write fd bytes) (h : DisplayFree t) : DisplayFree ((c, r) :: t) := by
  intro e he
  rcases mem_cons.mp he with rfl | he
  · exact ⟨hopen, hwrite⟩
  · exact h e he

theorem DisplayFree.append {u : Trace} (ht : DisplayFree t) (hu : DisplayFree u) :
    DisplayFree (t ++ u) := by
  intro e he
  rcases mem_append.mp he with hfirst | hsecond
  · exact ht e hfirst
  · exact hu e hsecond

theorem switches_of_runs {mode : ℤ} (h : Runs (setDisplayMode mode) t rc) :
    Switches mode t rc := by
  obtain ⟨fd, rest, rfl, hopened⟩ := runs_request_bind.mp h
  split_ifs at hopened with hfd
  · obtain ⟨rfl, rfl⟩ := runs_pure.mp hopened
    exact .inl ⟨fd, rfl, hfd, rfl⟩
  · obtain ⟨set, rest, rfl, hset⟩ := runs_request_bind.mp hopened
    obtain ⟨closed, rest, rfl, hclosed⟩ := runs_request_bind.mp hset
    obtain ⟨rfl, rfl⟩ := runs_pure.mp hclosed
    exact .inr ⟨fd, set, closed, rfl, by omega, rfl⟩

/-- Waiting for a key does not touch the display. -/
theorem displayFree_waitForKeypress (h : Runs waitForKeypress t rc) :
    DisplayFree t := by
  obtain ⟨raw, rest, rfl, hraw⟩ := runs_request_bind.mp h
  refine DisplayFree.cons nofun nofun ?_
  split_ifs at hraw
  · obtain ⟨rfl, -⟩ := runs_pure.mp hraw
    exact DisplayFree.nil
  · obtain ⟨n, rest, rfl, hread⟩ := runs_request_bind.mp hraw
    refine DisplayFree.cons nofun nofun ?_
    split_ifs at hread
    · obtain ⟨cooked, rest, rfl, hcooked⟩ := runs_request_bind.mp hread
      refine DisplayFree.cons nofun nofun ?_
      obtain ⟨rfl, -⟩ := runs_pure.mp hcooked
      exact DisplayFree.nil
    · obtain ⟨cooked, rest, rfl, hcooked⟩ := runs_request_bind.mp hread
      refine DisplayFree.cons nofun nofun ?_
      split_ifs at hcooked
      · obtain ⟨rfl, -⟩ := runs_pure.mp hcooked
        exact DisplayFree.nil
      · obtain ⟨rfl, -⟩ := runs_pure.mp hcooked
        exact DisplayFree.nil

theorem canvasChunk_add (canvas : Canvas) (offset m n : ℕ) :
    canvasChunk canvas offset (m + n) = canvasChunk canvas offset m ++ canvasChunk canvas (offset + m) n := by
  unfold canvasChunk
  rw [← map_append, List.range'_append_1]

/-- The loop of `canvas_blit` over the last `n` chunks. -/
theorem blitLoop_spec {fd : ℤ} {canvas : Canvas} {n offset : ℕ}
    (hend : offset + n * displayChunk = canvasSize.toNat)
    (h : Runs (blitLoop fd canvas (range' offset n displayChunk)) t rc) :
    ∃ writes closed, t = writes ++ [(.close fd, closed)] ∧
      (∀ e ∈ writes, ∃ bytes, e.1 = .write fd bytes) ∧
      written writes <+: canvasChunk canvas offset (n * displayChunk) ∧
      ((rc = 0 ∧ written writes = canvasChunk canvas offset (n * displayChunk) ∧
          ∀ e ∈ writes, ¬ ShortWrite e) ∨
        (rc = -1 ∧ ∃ e ∈ writes, ShortWrite e)) := by
  induction n generalizing offset t with
  | zero =>
    obtain ⟨closed, rest, rfl, hclosed⟩ := runs_request_bind.mp h
    obtain ⟨rfl, rfl⟩ := runs_pure.mp hclosed
    refine ⟨[], closed, rfl, by simp, ?_, .inl ⟨rfl, ?_, by simp⟩⟩
    · exact nil_prefix
    · simp [written, canvasChunk]
  | succ n ih =>
    have hchunk : (if displayChunk < canvasSize.toNat - offset then displayChunk
        else canvasSize.toNat - offset) = displayChunk := by
      have hmul : (n + 1) * displayChunk = n * displayChunk + displayChunk := Nat.succ_mul _ _
      split_ifs <;> omega
    have hrest : offset + displayChunk + n * displayChunk = canvasSize.toNat := by
      rw [← hend]
      ring
    have hall : canvasChunk canvas offset ((n + 1) * displayChunk) =
        canvasChunk canvas offset displayChunk ++
          canvasChunk canvas (offset + displayChunk) (n * displayChunk) := by
      rw [← canvasChunk_add]
      congr 1
      ring
    have hlen : (canvasChunk canvas offset displayChunk).length = displayChunk := by
      simp [canvasChunk]
    rw [List.range'_succ, blitLoop] at h
    simp only [hchunk] at h
    obtain ⟨n', rest, rfl, hwrite⟩ := runs_request_bind.mp h
    rw [hall]
    split_ifs at hwrite with hshort
    · obtain ⟨closed, rest, rfl, hclosed⟩ := runs_request_bind.mp hwrite
      obtain ⟨rfl, rfl⟩ := runs_pure.mp hclosed
      refine ⟨[(.write fd (canvasChunk canvas offset displayChunk), n')], closed, rfl, ?_, ?_,
        .inr ⟨rfl, _, mem_singleton.mpr rfl, fd, _, rfl, ?_⟩⟩
      · intro e he
        rw [mem_singleton.mp he]
        exact ⟨_, rfl⟩
      · simp [written]
      · rw [hlen]
        exact hshort
    · obtain ⟨writes, closed, rfl, hwrites, hprefix, hresult⟩ := ih hrest hwrite
      have hwritten : written ((.write fd (canvasChunk canvas offset displayChunk), n') :: writes) =
          canvasChunk canvas offset displayChunk ++ written writes := by
        simp [written]
      refine ⟨(.write fd (canvasChunk canvas offset displayChunk), n') :: writes, closed, rfl,
        ?_, ?_, ?_⟩
      · intro e he
        rcases mem_cons.mp he with rfl | he
        · exact ⟨_, rfl⟩
        · exact hwrites e he
      · rw [hwritten]
        exact prefix_append_right_inj _ |>.mpr hprefix
      · rcases hresult with ⟨hrc, hwrote, hfull⟩ | ⟨hrc, e, he, hshort'⟩
        · refine .inl ⟨hrc, by rw [hwritten, hwrote], ?_⟩
          intro e he
          rcases mem_cons.mp he with rfl | he
          · rintro ⟨_, _, heq, hne⟩
            cases heq
            rw [hlen] at hne
            exact hshort hne
          · exact hfull e he
        · exact .inr ⟨hrc, e, mem_cons_of_mem _ he, hshort'⟩

theorem blits_of_runs {canvas : Canvas} (h : Runs (canvasBlit canvas) t rc) :
    Blits canvas t rc := by
  obtain ⟨fd, rest, rfl, hopened⟩ := runs_request_bind.mp h
  split_ifs at hopened with hfd
  · obtain ⟨rfl, rfl⟩ := runs_pure.mp hopened
    exact .inl ⟨fd, rfl, hfd, rfl⟩
  · obtain ⟨writes, closed, rfl, hrest⟩ := blitLoop_spec (by decide) hopened
    exact .inr ⟨fd, writes, closed, rfl, by omega, hrest⟩

/-- The last calls of `main` do not touch the display. -/
theorem displayFree_end {u : Unit}
    (h : Runs (do
      let _ ← request (.free canvas)
      let _ ← request (.free response)
      let _ ← request .exit
      pure () : Prog Sys Answer Unit) t u) : DisplayFree t := by
  obtain ⟨_, rest, rfl, hfree⟩ := runs_request_bind.mp h
  obtain ⟨_, rest, rfl, hfree'⟩ := runs_request_bind.mp hfree
  obtain ⟨_, rest, rfl, hexit⟩ := runs_request_bind.mp hfree'
  obtain ⟨rfl, -⟩ := runs_pure.mp hexit
  exact DisplayFree.cons nofun nofun (DisplayFree.cons nofun nofun
    (DisplayFree.cons nofun nofun DisplayFree.nil))

theorem displayFree_giveUp
    (h : Runs (giveUp canvas response text) t ()) : DisplayFree t := by
  obtain ⟨_, rest, rfl, hsaid⟩ := runs_request_bind.mp h
  exact DisplayFree.cons nofun nofun (displayFree_end hsaid)

/-- From the switch on, `main` shows the image. -/
theorem showsImage_of_runs {image : Canvas}
    (h : Runs (showCanvas canvas response image) t ()) : ShowsImage image t := by
  obtain ⟨enter, rc, rest, rfl, henter, hrest⟩ := runs_bind.mp h
  refine ⟨enter, rc, rest, rfl, switches_of_runs henter, ?_, ?_⟩
  · intro hrc
    rw [if_pos hrc] at hrest
    exact displayFree_giveUp hrest
  · intro hrc
    rw [if_neg (by omega)] at hrest
    obtain ⟨blit, brc, rest, rfl, hblit, hblitted⟩ := runs_bind.mp hrest
    have hblits := blits_of_runs hblit
    split_ifs at hblitted
    · obtain ⟨said, rest, rfl, hsaid⟩ := runs_request_bind.mp hblitted
      obtain ⟨leave, lrc, tail, rfl, hleave, htail⟩ := runs_bind.mp hsaid
      exact ⟨blit, brc, [(_, said)], leave, lrc, tail, rfl, hblits,
        DisplayFree.cons nofun nofun DisplayFree.nil, switches_of_runs hleave,
        displayFree_end htail⟩
    · obtain ⟨wait, wrc, rest, rfl, hwait, hwaited⟩ := runs_bind.mp hblitted
      have hfree := displayFree_waitForKeypress hwait
      split_ifs at hwaited
      · obtain ⟨said, rest, rfl, hsaid⟩ := runs_request_bind.mp hwaited
        obtain ⟨leave, lrc, tail, rfl, hleave, htail⟩ := runs_bind.mp hsaid
        refine ⟨blit, brc, wait ++ [(.printf 2 (str "aidraw: failed to read keypress\n"), said)],
          leave, lrc, tail, ?_, hblits,
          hfree.append (DisplayFree.cons nofun nofun DisplayFree.nil), switches_of_runs hleave,
          displayFree_end htail⟩
        simp
      · obtain ⟨leave, lrc, tail, rfl, hleave, htail⟩ := runs_bind.mp hwaited
        refine ⟨blit, brc, wait, leave, lrc, tail, rfl, hblits, hfree, switches_of_runs hleave, ?_⟩
        split_ifs at htail
        · exact displayFree_giveUp htail
        · exact displayFree_end htail

theorem ShowsImage.congr (h : canvasBytes c = canvasBytes d)
    (hshow : ShowsImage c t) : ShowsImage d t := by
  unfold ShowsImage Blits at hshow ⊢
  rwa [h] at hshow

theorem drawReply_spec {heap : List ℕ} (h : Runs (drawReply canvas response heap reply) t ()) :
    (Drawable (untilNul reply) → ∃ image,
      runCalls (fun _ => 0) (replyCalls (untilNul reply)) = some image ∧ ShowsImage image t) ∧
    (¬ Drawable (untilNul reply) → DisplayFree t) := by
  unfold drawReply at h
  rw [drawLoop_eq] at h
  have hend : (parseLoop ((untilNul reply).splitOn 10)).2 = .sawEnd ↔ Drawable (untilNul reply) :=
    parseLoop_sawEnd_iff
  obtain ⟨image, himage⟩ := exists_runCalls (fun _ => 0) (replyCalls (untilNul reply))
  have hzero : SameCanvas (fun _ => 0) (canvasClear (fun i => heap.getD i.toNat 0) 0) := by
    intro i hlow hhigh
    simp [canvasClear, hlow, hhigh]
  obtain ⟨image', hrun, hsame⟩ := runCalls_sameCanvas hzero himage
  have hrun' : runCalls (canvasClear (fun i => heap.getD i.toNat 0) 0)
      (parseLoop ((untilNul reply).splitOn 10)).1 = some image' := hrun
  rw [hrun', map_some] at h
  cases hresult : (parseLoop ((untilNul reply).splitOn 10)).2 with
  | sawEnd =>
    rw [hresult] at h hend
    have hdraw : Drawable (untilNul reply) := hend.mp rfl
    refine ⟨fun _ => ⟨image, himage, ?_⟩, fun hnot => absurd hdraw hnot⟩
    exact (showsImage_of_runs h).congr (canvasBytes_congr hsame).symm
  | invalid line =>
    rw [hresult] at h hend
    have hdraw : ¬ Drawable (untilNul reply) := fun hd => nomatch hend.mpr hd
    exact ⟨fun hd => absurd hd hdraw, fun _ => displayFree_giveUp h⟩
  | missingEnd =>
    rw [hresult] at h hend
    have hdraw : ¬ Drawable (untilNul reply) := fun hd => nomatch hend.mpr hd
    exact ⟨fun hd => absurd hd hdraw, fun _ => displayFree_giveUp h⟩

/-- The reply that `ai_query` returns in a run, if it does. -/
def replyOf : Trace → Option (List ℕ)
  | [] => none
  | (.aiQuery _ _, answer) :: _ => if 0 ≤ answer.value then some (untilNul answer.data) else none
  | _ :: t => replyOf t

theorem replyOf_stop (h : Runs (stop text) t ()) : replyOf t = none := by
  obtain ⟨_, rest, rfl, hsaid⟩ := runs_request_bind.mp h
  obtain ⟨_, rest, rfl, hexit⟩ := runs_request_bind.mp hsaid
  obtain ⟨rfl, -⟩ := runs_pure.mp hexit
  rfl

/-- A run with a reply: the buffers, the query, and what is made of the reply. -/
theorem exists_drawReply {argv : List (List ℕ)}
    (h : Runs (aidraw argv) t ()) (hreply : replyOf t = some reply) :
    ∃ prompt canvas response answer rest, t = (.malloc canvasSize.toNat, canvas) ::
        (.malloc aiResponseMax, response) :: (.aiQuery prompt aiResponseMax, answer) :: rest ∧
      reply = untilNul answer.data ∧
      Runs (drawReply canvas.value response.value canvas.data answer.data) rest () := by
  unfold aidraw at h
  split_ifs at h
  · rw [replyOf_stop h] at hreply
    cases hreply
  · split at h
    · rw [replyOf_stop h] at hreply
      cases hreply
    · next prompt _ =>
      obtain ⟨canvas, rest, rfl, hcanvas⟩ := runs_request_bind.mp h
      obtain ⟨response, rest, rfl, hresponse⟩ := runs_request_bind.mp hcanvas
      have hskip : replyOf rest = some reply := hreply
      split_ifs at hresponse
      · rw [replyOf_stop hresponse] at hskip
        cases hskip
      · obtain ⟨answer, rest, rfl, hanswer⟩ := runs_request_bind.mp hresponse
        rw [replyOf] at hskip
        split_ifs at hskip with hvalue
        rw [if_neg (by omega)] at hanswer
        exact ⟨prompt, canvas, response, answer, rest, rfl, (some.inj hskip).symm, hanswer⟩

/-- An environment in which every call succeeds and the reply is the given text. -/
def goodEnv (reply : List ℕ) (_ : Trace) : Sys → Answer
  | .malloc _ => ⟨1, []⟩
  | .aiQuery _ _ => ⟨0, reply⟩
  | .read _ _ => ⟨1, [32]⟩
  | .write _ bytes => ⟨bytes.length, []⟩
  | _ => ⟨0, []⟩

end Xv6Draw
