import Xv6Draw.Pipe.Stream

/-!
# Sleepers of a pipe

A process that sleeps on `&p->nread` waits for bytes, and one that sleeps on `&p->nwrite`
waits for room. Whoever changes the counters wakes the sleepers before the lock is
released, with one exception: a writer that finds the ring full and has been killed
returns without a wakeup, although it may have stored bytes since it took the lock.
Apart from that, no process sleeps while what it waits for is there.
-/

namespace Xv6Draw.Pipe

open Function Option

variable {ι : Type} [DecidableEq ι] {s t : State ι} {p q : ι}

/-- No process sleeps while there is something for it to do. -/
def NoLostWakeup (s : State ι) : Prop :=
  ∀ p, ((s.thread p).chan = some .nread → s.nread = s.nwrite ∧ s.writeopen = true) ∧
    ((s.thread p).chan = some .nwrite → s.Full ∧ s.readopen = true)

/-- A process that is about to sleep has nothing to do, and a writer has woken the readers. -/
def Poised (s : State ι) : Code → Prop
  | .read _ .sleep _ => s.nread = s.nwrite ∧ s.writeopen = true
  | .write _ _ true => s.Full ∧ s.readopen = true ∧ ∀ q, (s.thread q).chan ≠ some .nread
  | _ => True

/-- Who sleeps, and for what. -/
structure Sleepers (s : State ι) : Prop where
  reader : ∀ p, (s.thread p).chan = some .nread → (s.thread p).code.isRead = true
  writer : ∀ p, (s.thread p).chan = some .nwrite → (s.thread p).code.isWrite = true
  /-- The holder of the lock does not sleep. -/
  holder : ∀ p, s.lock = some p → (s.thread p).chan = none
  /-- Nobody reads when the read end is closed. -/
  noRead : s.readopen = false → ∀ p, (s.thread p).code.isRead = false
  /-- Nobody writes when the write end is closed. -/
  noWrite : s.writeopen = false → ∀ p, (s.thread p).code.isWrite = false
  /-- Readers sleep while there are no bytes, or until the writer at work wakes them. -/
  nread : ∀ p, (s.thread p).chan = some .nread → (s.nread = s.nwrite ∧ s.writeopen = true) ∨
    ∃ q addr i, s.lock = some q ∧ (s.thread q).code = .write addr i false
  /-- Writers sleep while there is no room, or until the reader at work wakes them. -/
  nwrite : ∀ p, (s.thread p).chan = some .nwrite → (s.Full ∧ s.readopen = true) ∨
    ∃ q n addr, s.lock = some q ∧ (s.thread q).code = .read n .copy addr
  /-- Who is about to sleep may do so. -/
  poised : ∀ p, Poised s (s.thread p).code

/-- A killed writer that finds the ring full leaves no reader asleep. -/
def Noticed (s : State ι) : Event ι → Prop
  | .run p =>
    match (s.thread p).code with
    | .write addr i false =>
      i < addr.length ∧ s.Full ∧ (s.thread p).killed = true → ∀ q, (s.thread q).chan ≠ some .nread
    | _ => True
  | _ => True

omit [DecidableEq ι] in
/-- Sleepers when the lock is free. -/
theorem Sleepers.noLostWakeup (h : Sleepers s) (hfree : s.lock = none) : NoLostWakeup s := by
  intro p
  constructor
  · intro hp
    obtain hempty | ⟨q, addr, i, hq, -⟩ := h.nread p hp
    · exact hempty
    · rw [hfree] at hq
      contradiction
  · intro hp
    obtain hfull | ⟨q, n, addr, hq, -⟩ := h.nwrite p hp
    · exact hfull
    · rw [hfree] at hq
      contradiction

/-! ### Steps of the holder of the lock -/

omit [DecidableEq ι] in
/-- Who is outside is not about to sleep. -/
theorem poised_of_outside {c : Code} (hc : c.inside = false) (s : State ι) : Poised s c := by
  cases c with
  | idle => trivial
  | write addr i atSleep =>
    cases atSleep with
    | false => trivial
    | true => contradiction
  | read n stage addr =>
    cases stage with
    | wait => trivial
    | sleep => contradiction
    | copy => trivial

/-- The holder of the lock makes a step in its call or returns from it. Others are woken or go
on to sleep. -/
theorem Sleepers.run (h : Sleepers s) (hheld : Held s) (hlock : s.lock = some p)
    (hcode : ∀ q, q ≠ p → (t.thread q).code = (s.thread q).code)
    (hchan : ∀ q, q ≠ p → (t.thread q).chan = (s.thread q).chan ∨ (t.thread q).chan = none)
    (hro : t.readopen = s.readopen) (hwo : t.writeopen = s.writeopen)
    (hread : (t.thread p).code.isRead = true → (s.thread p).code.isRead = true)
    (hwrite : (t.thread p).code.isWrite = true → (s.thread p).code.isWrite = true)
    (hself : (t.thread p).chan = (s.thread p).chan ∨ (t.lock = none ∧
      (((t.thread p).chan = some .nread ∧ (t.thread p).code.isRead = true) ∨
        ((t.thread p).chan = some .nwrite ∧ (t.thread p).code.isWrite = true))))
    (hlock' : t.lock = some p ∨ t.lock = none)
    (hnread : ∀ q, (t.thread q).chan = some .nread → (t.nread = t.nwrite ∧ t.writeopen = true) ∨
      ∃ q addr i, t.lock = some q ∧ (t.thread q).code = .write addr i false)
    (hnwrite : ∀ q, (t.thread q).chan = some .nwrite → (t.Full ∧ t.readopen = true) ∨
      ∃ q n addr, t.lock = some q ∧ (t.thread q).code = .read n .copy addr)
    (hpoised : Poised t (t.thread p).code) : Sleepers t := by
  rw [h.holder p hlock] at hself
  refine ⟨?_, ?_, ?_, ?_, ?_, hnread, hnwrite, ?_⟩
  · intro q hq
    by_cases hqp : q = p
    · subst q
      grind
    · rw [hcode q hqp]
      apply h.reader
      grind
  · intro q hq
    by_cases hqp : q = p
    · subst q
      grind
    · rw [hcode q hqp]
      apply h.writer
      grind
  · intro q hq
    obtain rfl : q = p := by grind
    grind
  · intro hclosed q
    rw [hro] at hclosed
    have hq := h.noRead hclosed q
    by_cases hqp : q = p
    · subst q
      grind
    · rwa [hcode q hqp]
  · intro hclosed q
    rw [hwo] at hclosed
    have hq := h.noWrite hclosed q
    by_cases hqp : q = p
    · subst q
      grind
    · rwa [hcode q hqp]
  · intro q
    by_cases hqp : q = p
    · rwa [hqp]
    · rw [hcode q hqp]
      apply poised_of_outside
      apply hheld.outside
      rw [hlock]
      simpa using Ne.symm hqp

omit [DecidableEq ι] in
/-- Some processes no longer sleep. -/
theorem Sleepers.wake (h : Sleepers s) {thread : ι → Thread}
    (hcode : ∀ q, (thread q).code = (s.thread q).code)
    (hchan : ∀ q c, (thread q).chan = some c → (s.thread q).chan = some c) :
    Sleepers { s with thread } := by
  refine ⟨?_, ?_, ?_, ?_, ?_, ?_, ?_, ?_⟩
  · intro q hq
    rw [hcode]
    exact h.reader q (hchan q _ hq)
  · intro q hq
    rw [hcode]
    exact h.writer q (hchan q _ hq)
  · intro q hq
    rw [eq_none_iff_forall_ne_some]
    intro c hc
    exact nomatch (h.holder q hq).symm.trans (hchan q c hc)
  · intro hclosed q
    rw [hcode]
    exact h.noRead hclosed q
  · intro hclosed q
    rw [hcode]
    exact h.noWrite hclosed q
  · intro q hq
    simp only [hcode]
    exact h.nread q (hchan q _ hq)
  · intro q hq
    simp only [hcode]
    exact h.nwrite q (hchan q _ hq)
  · intro q
    rw [hcode]
    have hq := h.poised q
    unfold Poised at hq ⊢
    split at hq
    · exact hq
    · exact ⟨hq.1, hq.2.1, fun r hr => hq.2.2 r (hchan r _ hr)⟩
    · trivial

omit [DecidableEq ι] in
theorem Sleepers.wakeup (h : Sleepers s) (chan : Chan) : Sleepers (Pipe.wakeup s chan) := by
  refine h.wake (wakeup_code s chan) ?_
  intro q c hq
  change ((Pipe.wakeup s chan).thread q).chan = _ at hq
  rw [wakeup_chan] at hq
  split_ifs at hq
  exact hq

omit [DecidableEq ι] in
/-- Nobody sleeps on a channel that was woken. -/
theorem wakeup_chan_ne (s : State ι) (chan : Chan) (q : ι) :
    ((wakeup s chan).thread q).chan ≠ some chan := by
  rw [wakeup_chan]
  split_ifs with hq
  · nofun
  · exact hq

omit [DecidableEq ι] in
/-- While the holder of the lock does not copy bytes, writers sleep only without room. -/
theorem Sleepers.full_of_lock (h : Sleepers s) (hlock : s.lock = some p)
    (hcode : ∀ n addr, (s.thread p).code ≠ .read n .copy addr) (hq : (s.thread q).chan = some .nwrite) :
    s.Full ∧ s.readopen = true := by
  obtain hfull | ⟨r, n, addr, hr, hr'⟩ := h.nwrite q hq
  · exact hfull
  · obtain rfl : p = r := some.inj (hlock.symm.trans hr)
    exact absurd hr' (hcode n addr)

omit [DecidableEq ι] in
/-- While a reader has the lock, readers sleep only without bytes. -/
theorem Sleepers.empty_of_read (h : Sleepers s) (hlock : s.lock = some p) {n : ℕ} {stage : Stage}
    {addr : List (BitVec 8)} (hcode : (s.thread p).code = .read n stage addr)
    (hq : (s.thread q).chan = some .nread) : s.nread = s.nwrite ∧ s.writeopen = true := by
  obtain hempty | ⟨r, addr', i, hr, hr'⟩ := h.nread q hq
  · exact hempty
  · rw [hlock, some.injEq] at hr
    rw [← hr, hcode] at hr'
    contradiction

section

variable {n i : ℕ} {addr : List (BitVec 8)} (h : Sleepers s) (hheld : Held s) (hlock : s.lock = some p)
include h hheld hlock

attribute [local grind] Code.isRead Code.isWrite Poised State.Full

/-! ### Steps of `pipewrite` -/

theorem Sleepers.sleepWrite (hcode : (s.thread p).code = .write addr i true) :
    Sleepers (sleep s p .nwrite (.write addr i false)) := by
  have hpoised := h.poised p
  rw [hcode] at hpoised
  obtain ⟨hfull, hopen, hnone⟩ := hpoised
  apply h.run hheld hlock
  all_goals simp only [sleep, update_apply]
  all_goals grind

theorem Sleepers.writeReturn {atSleep : Bool} (hcode : (s.thread p).code = .write addr i atSleep)
    (hnone : ∀ q, (s.thread q).chan ≠ some .nread) : Sleepers (Pipe.writeReturn s p addr i) := by
  have hnwrite := fun q => h.full_of_lock (q := q) hlock (by simp [hcode])
  apply h.run hheld hlock
  all_goals simp only [Pipe.writeReturn, update_apply]
  all_goals grind

/-- A writer that finds no room and has woken the readers is about to sleep. -/
theorem Sleepers.poiseWrite (hcode : (s.thread p).code = .write addr i false) (hfull : s.Full)
    (hopen : s.readopen = true)
    (hnone : ∀ q, (s.thread q).chan ≠ some .nread) : Sleepers (s.goto p (.write addr i true)) := by
  apply h.run hheld hlock
  all_goals simp only [State.goto, update_apply]
  all_goals grind

/-- A writer stores a byte, so there is room and no writer sleeps. -/
theorem Sleepers.store (hcode : (s.thread p).code = .write addr i false) (hroom : ¬s.Full)
    (b : BitVec 8) :
    Sleepers ((Pipe.store s p b).goto p (.write addr (i + 1) false)) := by
  have hnwrite : ∀ q, (s.thread q).chan ≠ some .nwrite := fun q hq =>
    hroom (h.full_of_lock hlock (by simp [hcode]) hq).1
  apply h.run hheld hlock
  all_goals simp only [State.goto, Pipe.store, update_apply]
  all_goals grind

theorem Sleepers.pipewrite {atSleep : Bool} (hcode : (s.thread p).code = .write addr i atSleep)
    (hnotice : atSleep = false → i < addr.length → s.Full → (s.thread p).killed = true →
      ∀ q, (s.thread q).chan ≠ some .nread) :
    Sleepers (Pipe.pipewrite s p addr i atSleep) := by
  have hheld' : Held (Pipe.wakeup s .nread) :=
    hheld.congr (wakeup_code s .nread) rfl fun _ => ⟨rfl, rfl, rfl⟩
  have hcode' : ((Pipe.wakeup s .nread).thread p).code = .write addr i atSleep := by
    rw [wakeup_code, hcode]
  unfold Pipe.pipewrite
  split_ifs with hsleep hi hfull hback
  · rw [hsleep] at hcode
    exact h.sleepWrite hheld hlock hcode
  · -- It returns in the middle.
    refine h.writeReturn hheld hlock hcode ?_
    obtain hclosed | hkilled := hback
    · intro q hq
      have := h.reader q hq
      rw [h.noRead hclosed q] at this
      contradiction
    · exact hnotice (by simpa using hsleep) hi hfull hkilled
  · rw [Bool.not_eq_true] at hsleep
    rw [hsleep] at hcode'
    have hopen : s.readopen = true := by
      rw [not_or] at hback
      simpa using hback.1
    exact (h.wakeup .nread).poiseWrite hheld' hlock hcode' hfull hopen (wakeup_chan_ne s .nread)
  · rw [Bool.not_eq_true] at hsleep
    rw [hsleep] at hcode
    exact h.store hheld hlock hcode hfull _
  · exact (h.wakeup .nread).writeReturn hheld' hlock hcode' (wakeup_chan_ne s .nread)

/-! ### Steps of `piperead` -/

theorem Sleepers.readKilled (hcode : (s.thread p).code = .read n .wait addr) :
    Sleepers ((release s).goto p .idle) := by
  have hnread := fun q => h.empty_of_read (q := q) hlock hcode
  have hnwrite := fun q => h.full_of_lock (q := q) hlock (by simp [hcode])
  apply h.run hheld hlock
  all_goals simp only [State.goto, release, update_apply]
  all_goals grind

/-- A reader that finds no bytes is about to sleep. -/
theorem Sleepers.poiseRead (hcode : (s.thread p).code = .read n .wait addr)
    (hempty : s.nread = s.nwrite ∧ s.writeopen = true) :
    Sleepers (s.goto p (.read n .sleep addr)) := by
  have hnwrite := fun q => h.full_of_lock (q := q) hlock (by simp [hcode])
  apply h.run hheld hlock
  all_goals simp only [State.goto, update_apply]
  all_goals grind

/-- A reader starts to copy, so no reader sleeps. -/
theorem Sleepers.startCopy (hcode : (s.thread p).code = .read n .wait addr)
    (hsome : ¬(s.nread = s.nwrite ∧ s.writeopen = true)) :
    Sleepers (s.goto p (.read n .copy addr)) := by
  have hnread : ∀ q, (s.thread q).chan ≠ some .nread := fun q hq =>
    hsome (h.empty_of_read hlock hcode hq)
  apply h.run hheld hlock
  all_goals simp only [State.goto, update_apply]
  all_goals grind

theorem Sleepers.sleepRead (hcode : (s.thread p).code = .read n .sleep addr) :
    Sleepers (sleep s p .nread (.read n .wait addr)) := by
  have hpoised := h.poised p
  rw [hcode] at hpoised
  obtain ⟨hempty, hopen⟩ := hpoised
  have hnwrite := fun q => h.full_of_lock (q := q) hlock (by simp [hcode])
  apply h.run hheld hlock
  all_goals simp only [sleep, update_apply]
  all_goals grind

/-- A reader copies a byte, so no reader sleeps. -/
theorem Sleepers.fetch (hcode : (s.thread p).code = .read n .copy addr) (hsome : s.nread ≠ s.nwrite)
    (b : BitVec 8) :
    Sleepers ((Pipe.fetch s).goto p (.read n .copy (addr ++ [b]))) := by
  have hnread : ∀ q, (s.thread q).chan ≠ some .nread := fun q hq =>
    hsome (h.empty_of_read hlock hcode hq).1
  apply h.run hheld hlock
  all_goals simp only [State.goto, Pipe.fetch, update_apply]
  all_goals grind

theorem Sleepers.readReturn (hcode : (s.thread p).code = .read n .copy addr)
    (hnone : ∀ q, (s.thread q).chan ≠ some .nwrite) : Sleepers (Pipe.readReturn s p n addr) := by
  have hnread := fun q => h.empty_of_read (q := q) hlock hcode
  apply h.run hheld hlock
  all_goals simp only [Pipe.readReturn, State.goto, release, update_apply]
  all_goals grind

theorem Sleepers.piperead {stage : Stage} (hcode : (s.thread p).code = .read n stage addr) :
    Sleepers (Pipe.piperead s p n addr stage) := by
  unfold Pipe.piperead
  cases stage with
  | wait =>
    simp only
    split_ifs with hempty hkilled
    · exact h.readKilled hheld hlock hcode
    · exact h.poiseRead hheld hlock hcode hempty
    · exact h.startCopy hheld hlock hcode hempty
  | sleep => exact h.sleepRead hheld hlock hcode
  | copy =>
    simp only
    split_ifs with hmore
    · exact h.fetch hheld hlock hcode hmore.2 _
    · have hheld' : Held (Pipe.wakeup s .nwrite) :=
        hheld.congr (wakeup_code s .nwrite) rfl fun _ => ⟨rfl, rfl, rfl⟩
      have hcode' : ((Pipe.wakeup s .nwrite).thread p).code = .read n .copy addr := by
        rw [wakeup_code, hcode]
      exact (h.wakeup .nwrite).readReturn hheld' hlock hcode' (wakeup_chan_ne s .nwrite)

end

/-! ### Other steps -/

/-- A process starts a call on an end that is open. -/
theorem Sleepers.call (h : Sleepers s) (hheld : Held s) (hidle : (s.thread p).code = .idle) {c : Code}
    (hc : c.inside = false) (hread : c.isRead = true → s.readopen = true)
    (hwrite : c.isWrite = true → s.writeopen = true) : Sleepers (s.goto p c) := by
  have hne : s.lock ≠ some p := fun hp => hheld.busy p hp hidle
  have hawake : (s.thread p).chan = none := by
    cases hchan : (s.thread p).chan with
    | none => rfl
    | some chan =>
      have hreader := h.reader p
      have hwriter := h.writer p
      rw [hidle] at hreader hwriter
      cases chan with
      | nread => exact absurd (hreader hchan) (by decide)
      | nwrite => exact absurd (hwriter hchan) (by decide)
  have hchan : ∀ q, ((s.goto p c).thread q).chan = (s.thread q).chan := by
    intro q
    simp only [State.goto, update_apply]
    split_ifs with hqp
    · rw [hqp]
    · rfl
  have hcode : ∀ q, q ≠ p → ((s.goto p c).thread q).code = (s.thread q).code := by
    intro q hq
    simp [State.goto, hq]
  have hself : ((s.goto p c).thread p).code = c := by simp [State.goto]
  have hlock : (s.goto p c).lock = s.lock := rfl
  refine ⟨?_, ?_, ?_, ?_, ?_, ?_, ?_, ?_⟩
  · intro q hq
    rw [hchan] at hq
    by_cases hqp : q = p
    · rw [hqp, hawake] at hq
      contradiction
    · rw [hcode q hqp]
      exact h.reader q hq
  · intro q hq
    rw [hchan] at hq
    by_cases hqp : q = p
    · rw [hqp, hawake] at hq
      contradiction
    · rw [hcode q hqp]
      exact h.writer q hq
  · intro q
    rw [hchan, hlock]
    exact h.holder q
  · intro hclosed q
    have hclosed' : s.readopen = false := hclosed
    by_cases hqp : q = p
    · rw [hqp, hself, Bool.eq_false_iff]
      intro hr
      rw [hread hr] at hclosed'
      contradiction
    · rw [hcode q hqp]
      exact h.noRead hclosed q
  · intro hclosed q
    have hclosed' : s.writeopen = false := hclosed
    by_cases hqp : q = p
    · rw [hqp, hself, Bool.eq_false_iff]
      intro hw
      rw [hwrite hw] at hclosed'
      contradiction
    · rw [hcode q hqp]
      exact h.noWrite hclosed q
  · intro q hq
    rw [hchan] at hq
    obtain hempty | ⟨r, addr, i, hr, hr'⟩ := h.nread q hq
    · exact .inl hempty
    · have hrp : r ≠ p := fun heq => hne (heq ▸ hr)
      exact .inr ⟨r, addr, i, hr, by rw [hcode r hrp, hr']⟩
  · intro q hq
    rw [hchan] at hq
    obtain hfull | ⟨r, n, addr, hr, hr'⟩ := h.nwrite q hq
    · exact .inl hfull
    · have hrp : r ≠ p := fun heq => hne (heq ▸ hr)
      exact .inr ⟨r, n, addr, hr, by rw [hcode r hrp, hr']⟩
  · intro q
    by_cases hqp : q = p
    · rw [hqp, hself]
      exact poised_of_outside hc _
    · rw [hcode q hqp]
      have hq := h.poised q
      unfold Poised at hq ⊢
      simp only [hchan]
      exact hq

omit [DecidableEq ι] in
/-- A process takes the lock. -/
theorem Sleepers.acquire (h : Sleepers s) (hfree : s.lock = none) (hawake : (s.thread p).chan = none) :
    Sleepers { s with lock := some p } := by
  have hnone := h.noLostWakeup hfree
  refine ⟨h.reader, h.writer, ?_, h.noRead, h.noWrite, ?_, ?_, h.poised⟩
  · intro q hq
    simp only [some.injEq] at hq
    rwa [← hq]
  · exact fun q hq => .inl ((hnone q).1 hq)
  · exact fun q hq => .inl ((hnone q).2 hq)

omit [DecidableEq ι] in
/-- An end of the pipe is closed. -/
theorem Sleepers.pipeclose (h : Sleepers s) (hheld : Held s) (hfree : s.lock = none) {writable : Bool}
    (hclosed : ∀ p, if writable then (s.thread p).code.isWrite = false
      else (s.thread p).code.isRead = false) : Sleepers (Pipe.pipeclose s writable) := by
  have hreader := h.reader
  have hwriter := h.writer
  have hpoised : ∀ q (u : State ι), Poised u (s.thread q).code := by
    intro q u
    apply poised_of_outside
    apply hheld.outside
    rw [hfree]
    nofun
  unfold Pipe.pipeclose
  cases writable with
  | true =>
    simp only [if_true] at hclosed ⊢
    have hnoRead := h.noRead
    refine ⟨?_, ?_, ?_, ?_, ?_, ?_, ?_, fun q => by rw [wakeup_code]; exact hpoised q _⟩
    all_goals grind
  | false =>
    simp only [Bool.false_eq_true, if_false] at hclosed ⊢
    have hnoWrite := h.noWrite
    refine ⟨?_, ?_, ?_, ?_, ?_, ?_, ?_, fun q => by rw [wakeup_code]; exact hpoised q _⟩
    all_goals grind

theorem Sleepers.kill (h : Sleepers s) (p : ι) : Sleepers (Pipe.kill s p) := by
  refine h.wake ?_ ?_
  · intro q
    rw [update_apply]
    split_ifs with hqp
    · rw [hqp]
    · rfl
  · intro q c
    rw [update_apply]
    split_ifs with hqp
    · nofun
    · exact id

/-! ### Runs -/

/-- Every step keeps the sleepers informed, unless a writer that was killed leaves a reader
asleep. -/
theorem Sleepers.step [Fintype ι] (h : Sleepers s) (hheld : Held s) {e : Event ι} (hnotice : Noticed s e)
    (hstep : Pipe.step s e = some t) : Sleepers t := by
  cases e with
  | write p addr =>
    obtain ⟨⟨hidle, hopen⟩, ⟨⟩⟩ := ite_none_right_eq_some.mp hstep
    exact h.call hheld hidle rfl nofun fun _ => hopen
  | read p n =>
    obtain ⟨⟨hidle, hopen⟩, ⟨⟩⟩ := ite_none_right_eq_some.mp hstep
    exact h.call hheld hidle rfl (fun _ => hopen) nofun
  | acquire p =>
    obtain ⟨⟨hfree, -, hawake⟩, ⟨⟩⟩ := ite_none_right_eq_some.mp hstep
    exact h.acquire hfree hawake
  | run p =>
    obtain ⟨hlock, hrun⟩ := ite_none_right_eq_some.mp hstep
    obtain ⟨addr, i, atSleep, hcode, rfl⟩ | ⟨n, stage, addr, hcode, rfl⟩ := run_cases hrun
    · refine h.pipewrite hheld hlock hcode ?_
      rintro rfl hi hfull hkilled
      simp only [Noticed, hcode] at hnotice
      exact hnotice ⟨hi, hfull, hkilled⟩
    · exact h.piperead hheld hlock hcode
  | close writable =>
    obtain ⟨⟨hfree, hclosed⟩, ⟨⟩⟩ := ite_none_right_eq_some.mp hstep
    exact h.pipeclose hheld hfree hclosed
  | kill p =>
    obtain rfl := some.inj hstep
    exact h.kill p

omit [DecidableEq ι] in
/-- A new pipe has no sleepers. -/
theorem sleepers_pipealloc (data : ℕ → BitVec 8) : Sleepers (pipealloc data : State ι) :=
  ⟨nofun, nofun, nofun, nofun, nofun, nofun, nofun, fun _ => trivial⟩

/-- In every run of a pipe in which a killed writer that finds the ring full leaves no reader
asleep, no process sleeps, whenever the lock is free, while there is something for it to
do. -/
theorem pipe_no_lost_wakeup [Fintype ι] {data : ℕ → BitVec 8} {es : List (Event ι)}
    (hrun : Transition.run Pipe.step (pipealloc data) es = some s)
    (hnotice : Transition.Along Pipe.step Noticed (pipealloc data) es) (hfree : s.lock = none) :
    NoLostWakeup s := by
  have hstep : ∀ {s t : State ι} {e : Event ι}, Stream s ∧ Sleepers s → Noticed s e →
      Pipe.step s e = some t → Stream t ∧ Sleepers t :=
    fun h hn hs => ⟨h.1.step hs, h.2.step h.1.held hn hs⟩
  have h : Stream s ∧ Sleepers s :=
    Transition.invariant_along (I := fun s => Stream s ∧ Sleepers s) hstep
      ⟨stream_pipealloc data, sleepers_pipealloc data⟩ hnotice hrun
  exact h.2.noLostWakeup hfree

/-- Whether a killed writer leaves no reader asleep can be decided. -/
instance [Fintype ι] (s : State ι) (e : Event ι) : Decidable (Noticed s e) :=
  match e with
  | .run p =>
    match h : (s.thread p).code with
    | .write addr i false =>
      decidable_of_iff (i < addr.length ∧ s.Full ∧ (s.thread p).killed = true →
        ∀ q, (s.thread q).chan ≠ some .nread) (by simp only [Noticed, h])
    | .write _ _ true => isTrue (by simp only [Noticed, h])
    | .idle => isTrue (by simp only [Noticed, h])
    | .read .. => isTrue (by simp only [Noticed, h])
  | .write .. | .read .. | .acquire _ | .close _ | .kill _ => isTrue trivial

/-- Whether a process sleeps for nothing can be decided. -/
instance [Fintype ι] (s : State ι) : Decidable (NoLostWakeup s) :=
  inferInstanceAs (Decidable (∀ _, _ ∧ _))

/-- A reader that waits for the bytes of a writer is woken. -/
theorem pipe_no_lost_wakeup_reader : ∃ s : State Bool, Transition.run Pipe.step
    (pipealloc fun _ => 0)
    [.read false 5, .acquire false, .run false, .run false, .write true [7], .acquire true,
      .run true, .run true] = some s ∧ s.lock = none ∧ s.nread ≠ s.nwrite ∧ NoLostWakeup s := by
  have hlock : (Transition.run Pipe.step (pipealloc fun _ => 0 : State Bool)
      [.read false 5, .acquire false, .run false, .run false, .write true [7], .acquire true,
        .run true, .run true]).map (fun s => (s.lock, s.nread, s.nwrite)) = some (none, 0, 1) := by
    decide +kernel
  obtain ⟨s, hrun, hs⟩ := map_eq_some_iff.mp hlock
  obtain ⟨hfree, hr, hw⟩ : s.lock = none ∧ s.nread = 0 ∧ s.nwrite = 1 := by simpa using hs
  refine ⟨s, hrun, hfree, by rw [hr, hw]; decide, ?_⟩
  exact pipe_no_lost_wakeup hrun (by decide +kernel) hfree

/-- The events that leave a reader asleep: it waits for bytes, and a writer with more bytes
than the ring holds is killed when the ring is full. -/
def killedWriter : List (Event Bool) :=
  [.read false 1, .acquire false, .run false, .run false,
    .write true (List.replicate 513 7), .acquire true] ++ List.replicate 512 (.run true) ++
    [.kill true, .run true]

/-- A writer that was killed leaves a reader asleep although the ring is full. -/
theorem pipe_reader_left_asleep : ∃ s : State Bool,
    Transition.run Pipe.step (pipealloc fun _ => 0) killedWriter = some s ∧
      s.lock = none ∧ (s.thread false).chan = some .nread ∧ s.Full ∧ ¬NoLostWakeup s := by
  have hend : (Transition.run Pipe.step (pipealloc fun _ => 0 : State Bool) killedWriter).map
      (fun s => (s.lock, (s.thread false).chan, decide s.Full, decide (NoLostWakeup s))) =
        some (none, some .nread, true, false) := by
    decide +kernel
  obtain ⟨s, hrun, hs⟩ := map_eq_some_iff.mp hend
  simp only [Prod.mk.injEq, decide_eq_true_eq, decide_eq_false_iff_not] at hs
  exact ⟨s, hrun, hs⟩

end Xv6Draw.Pipe
