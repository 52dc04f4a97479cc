import Xv6Draw.Lib.Ring
import Xv6Draw.Lib.Transition
import Xv6Draw.Pipe.Model

/-!
# The bytes of a pipe

The bytes that readers have got are the first of those that writers have stored, and the
ring holds the rest. A reader that copies bytes holds the lock, so what it has copied so
far follows what the calls before it have returned.
-/

namespace Xv6Draw.Pipe

open Function List Option Ring

variable {ι : Type} [DecidableEq ι] {s t : State ι} {p q : ι}

/-- The bytes that a process in `piperead` has copied. -/
def Code.copied : Code → List (BitVec 8)
  | .read _ _ addr => addr
  | _ => []

/-- The bytes that the holder of the lock has copied. -/
def copying (s : State ι) : List (BitVec 8) :=
  match s.lock with
  | some p => (s.thread p).code.copied
  | none => []

/-- The bytes that were handed to readers, in order. -/
def handed (s : State ι) : List (BitVec 8) := s.reads.flatMap Read.bytes ++ copying s

/-- The bytes that a process in `pipewrite` has stored. -/
def Code.written : Code → List (BitVec 8)
  | .write addr i _ => addr.take i
  | _ => []

/-- The bytes that a process has stored: the first bytes of each of its calls of `pipewrite`, in
order. -/
def Thread.sent (x : Thread) : List (BitVec 8) :=
  x.calls.flatMap (fun c => c.1.take c.2) ++ x.code.written

/-- The bytes that were stored by a process, in order. -/
def storedBy (s : State ι) (p : ι) : List (BitVec 8) :=
  (s.stored.filter fun x => x.1 = p).map Prod.snd

/-- The process holds the lock: it copies bytes, or it is about to sleep. -/
def Code.inside : Code → Bool
  | .read _ .wait _ | .write _ _ false | .idle => false
  | .read _ .sleep _ | .read _ .copy _ | .write _ _ true => true

/-- A reader has copied bytes only in its last loop, which it enters when there are bytes or the
other end is closed. -/
def Code.Ok (nread nwrite : BitVec 32) (writeopen : Bool) : Code → Prop
  | .read _ .copy addr => addr = [] → nread ≠ nwrite ∨ writeopen = false
  | .read _ .wait addr | .read _ .sleep addr => addr = []
  | .idle | .write .. => True

/-- Where the processes are. -/
structure Held (s : State ι) : Prop where
  /-- The holder of the lock is in a call. -/
  busy : ∀ p, s.lock = some p → (s.thread p).code ≠ .idle
  inside : ∀ p, (s.thread p).code.inside = true → s.lock = some p
  ok : ∀ p, (s.thread p).code.Ok s.nread s.nwrite s.writeopen

/-- The ring holds the bytes that were not handed to readers. -/
structure Stream (s : State ι) : Prop where
  held : Held s
  ring : ∃ rest, s.stored.map Prod.snd = handed s ++ rest ∧
    Holds pipesize s.data s.nread s.nwrite rest
  /-- Every process has stored its bytes in order. -/
  writers : ∀ p, storedBy s p = (s.thread p).sent

/-! ### Where the processes are -/

variable {c : Code} {x : Thread} {addr : List (BitVec 8)} {n : ℕ}

/-- What a process outside has copied does not depend on the pipe. -/
theorem Code.Ok.outside {nread nwrite : BitVec 32} {writeopen : Bool}
    (h : c.Ok nread nwrite writeopen) (hc : c.inside = false) (nread' nwrite' : BitVec 32)
    (writeopen' : Bool) : c.Ok nread' nwrite' writeopen' := by
  cases c with
  | idle => trivial
  | write addr i atSleep => trivial
  | read n stage addr =>
    cases stage with
    | wait => exact h
    | sleep | copy => contradiction

theorem Code.Ok.copied_eq_nil {nread nwrite : BitVec 32} {writeopen : Bool}
    (h : c.Ok nread nwrite writeopen) (hc : c.inside = false) : c.copied = [] := by
  cases c with
  | idle => rfl
  | write addr i atSleep => rfl
  | read n stage addr =>
    cases stage with
    | wait => exact h
    | sleep | copy => contradiction

omit [DecidableEq ι] in
/-- Only one process is inside. -/
theorem Held.outside (h : Held s) (hne : s.lock ≠ some p) : (s.thread p).code.inside = false := by
  rw [Bool.eq_false_iff]
  intro hin
  exact hne (h.inside p hin)

/-- The holder of the lock makes a step. -/
theorem Held.run (h : Held s) (hlock : s.lock = some p) (hthread : t.thread = update s.thread p x)
    (hself : (t.lock = some p ∧ x.code ≠ .idle) ∨ (t.lock = none ∧ x.code.inside = false))
    (hok : x.code.Ok t.nread t.nwrite t.writeopen) : Held t := by
  have hout : ∀ q, q ≠ p → (s.thread q).code.inside = false := by
    intro q hq
    apply h.outside
    rw [hlock]
    simpa using Ne.symm hq
  refine ⟨?_, ?_, ?_⟩
  · intro q hq
    obtain ⟨hlock', hbusy⟩ | ⟨hfree, -⟩ := hself
    · obtain rfl : p = q := some.inj (hlock'.symm.trans hq)
      rwa [hthread, update_self]
    · exact nomatch hfree.symm.trans hq
  · rw [hthread]
    refine (forall_update_iff s.thread fun q x => x.code.inside = true → t.lock = some q).mpr ⟨?_, ?_⟩
    · intro hin
      obtain ⟨hlock', -⟩ | ⟨-, hin'⟩ := hself
      · exact hlock'
      · exact nomatch hin.symm.trans hin'
    · exact fun q hq hin => nomatch hin.symm.trans (hout q hq)
  · rw [hthread]
    exact (forall_update_iff s.thread fun _ x => x.code.Ok t.nread t.nwrite t.writeopen).mpr
      ⟨hok, fun q hq => (h.ok q).outside (hout q hq) _ _ _⟩

/-- A process goes on to code outside, and does not hold the lock. -/
theorem Held.goto (h : Held s) (hne : s.lock ≠ some p) (hc : c.inside = false)
    (hok : c.Ok s.nread s.nwrite s.writeopen) : Held (s.goto p c) := by
  refine ⟨?_, ?_, ?_⟩
  all_goals
    intro q
    simp only [State.goto, update_apply]
    split_ifs with hqp
  · intro hq
    rw [hqp] at hq
    exact absurd hq hne
  · exact h.busy q
  · intro hq
    rw [hq] at hc
    contradiction
  · exact h.inside q
  · exact hok
  · exact h.ok q

omit [DecidableEq ι] in
/-- The codes and the lock are the same, and so is the pipe for the process that is inside. -/
theorem Held.congr (h : Held s) (hcode : ∀ q, (t.thread q).code = (s.thread q).code)
    (hlock : t.lock = s.lock)
    (hpipe : s.lock ≠ none → t.nread = s.nread ∧ t.nwrite = s.nwrite ∧ t.writeopen = s.writeopen) :
    Held t := by
  refine ⟨?_, ?_, ?_⟩
  · intro q
    rw [hcode, hlock]
    exact h.busy q
  · intro q
    rw [hcode, hlock]
    exact h.inside q
  · intro q
    rw [hcode]
    by_cases hfree : s.lock = none
    · exact (h.ok q).outside (h.outside (by rw [hfree]; nofun)) _ _ _
    · obtain ⟨hread, hwrite, hopen⟩ := hpipe hfree
      rw [hread, hwrite, hopen]
      exact h.ok q

omit [DecidableEq ι] in
/-- A process takes the lock. -/
theorem Held.acquire (h : Held s) (hfree : s.lock = none) (hbusy : (s.thread p).code ≠ .idle) :
    Held { s with lock := some p } := by
  have hout : ∀ q, (s.thread q).code.inside = false := by
    intro q
    apply h.outside
    rw [hfree]
    nofun
  refine ⟨?_, ?_, ?_⟩
  · intro q hq
    simp only [some.injEq] at hq
    rwa [← hq]
  · intro q hq
    simp [hout q] at hq
  · exact h.ok

/-! ### Steps that move no bytes -/

omit [DecidableEq ι] in
/-- The bytes that the holder of the lock has copied. -/
theorem copying_of_lock (h : s.lock = some p) : copying s = (s.thread p).code.copied := by
  rw [copying, h]

omit [DecidableEq ι] in
theorem copying_of_free (h : s.lock = none) : copying s = [] := by
  rw [copying, h]

/-- Nothing has happened to the bytes. -/
structure SameBytes (s t : State ι) : Prop where
  data : t.data = s.data
  nread : t.nread = s.nread
  nwrite : t.nwrite = s.nwrite
  stored : t.stored = s.stored
  reads : t.reads = s.reads
  copying : copying t = copying s
  sent : ∀ p, (t.thread p).sent = (s.thread p).sent

section

variable (h : Stream s)
include h

/-- The bytes stay where they are. -/
theorem Stream.same (ht : SameBytes s t) (hheld : Held t) : Stream t where
  held := hheld
  ring := by
    obtain ⟨rest, hstored, hring⟩ := h.ring
    refine ⟨rest, ?_, ?_⟩
    · rw [ht.stored, handed, ht.reads, ht.copying]
      exact hstored
    · rw [ht.data, ht.nread, ht.nwrite]
      exact hring
  writers := by
    intro p
    rw [ht.sent p, storedBy, ht.stored]
    exact h.writers p

theorem Stream.call (hidle : (s.thread p).code = .idle)
    (hc : c.inside = false) (hok : c.Ok s.nread s.nwrite s.writeopen) (hwritten : c.written = []) :
    Stream (s.goto p c) := by
  have hne : s.lock ≠ some p := fun hp => h.held.busy p hp hidle
  refine h.same ⟨rfl, rfl, rfl, rfl, rfl, ?_, ?_⟩ (h.held.goto hne hc hok)
  · cases hlock : s.lock with
    | none =>
      rw [copying_of_free hlock, copying_of_free]
      exact hlock
    | some q =>
      have hqp : q ≠ p := by
        rintro rfl
        exact hne hlock
      have hlock' : (s.goto p c).lock = some q := hlock
      rw [copying_of_lock hlock, copying_of_lock hlock']
      simp [State.goto, hqp]
  · intro q
    simp only [State.goto, update_apply]
    split_ifs with hqp
    · subst q
      simp only [Thread.sent, hidle, hwritten]
      rfl
    · rfl

theorem Stream.acquire (hfree : s.lock = none) (hbusy : (s.thread p).code ≠ .idle) :
    Stream { s with lock := some p } := by
  refine h.same ⟨rfl, rfl, rfl, rfl, rfl, ?_, fun _ => rfl⟩ (h.held.acquire hfree hbusy)
  rw [copying_of_free hfree, copying_of_lock (p := p) rfl]
  exact (h.held.ok p).copied_eq_nil (h.held.outside (by rw [hfree]; nofun))

/-- Only who sleeps, who is killed and what is open changes. -/
theorem Stream.congr (hcode : ∀ q, (t.thread q).code = (s.thread q).code)
    (hcalls : ∀ q, (t.thread q).calls = (s.thread q).calls) (hlock : t.lock = s.lock)
    (hdata : t.data = s.data) (hread : t.nread = s.nread) (hwrite : t.nwrite = s.nwrite)
    (hstored : t.stored = s.stored) (hreads : t.reads = s.reads)
    (hopen : s.lock ≠ none → t.writeopen = s.writeopen) : Stream t := by
  refine h.same ⟨hdata, hread, hwrite, hstored, hreads, ?_, ?_⟩
    (h.held.congr hcode hlock fun hheld => ⟨hread, hwrite, hopen hheld⟩)
  · unfold copying
    rw [hlock]
    cases s.lock with
    | none => rfl
    | some q => simp only [hcode]
  · intro q
    rw [Thread.sent, Thread.sent, hcode, hcalls]

theorem Stream.wakeup (chan : Chan) : Stream (Pipe.wakeup s chan) := by
  refine h.congr ?_ ?_ rfl rfl rfl rfl rfl rfl fun _ => rfl
  all_goals
    intro q
    unfold Pipe.wakeup
    simp only
    split_ifs <;> rfl

/-- The holder of the lock goes on without moving bytes. -/
theorem Stream.run (hlock : s.lock = some p) {lock : Option ι}
    (hsent : x.sent = (s.thread p).sent) (hok : x.code.Ok s.nread s.nwrite s.writeopen)
    (hself : (lock = some p ∧ x.code ≠ .idle ∧ x.code.copied = (s.thread p).code.copied) ∨
      (lock = none ∧ x.code.inside = false ∧ (s.thread p).code.copied = [])) :
    Stream { s with lock, thread := update s.thread p x } := by
  refine h.same ⟨rfl, rfl, rfl, rfl, rfl, ?_, ?_⟩ (h.held.run hlock rfl ?_ hok)
  · rw [copying_of_lock hlock]
    obtain ⟨rfl, -, hsame⟩ | ⟨rfl, -, hnil⟩ := hself
    · rw [copying_of_lock (p := p) rfl]
      simp only [update_self, hsame]
    · rw [copying_of_free rfl, hnil]
  · exact (forall_update_iff s.thread fun q x => x.sent = (s.thread q).sent).mpr ⟨hsent, fun _ _ => rfl⟩
  · obtain ⟨hlock', hbusy, -⟩ | ⟨hfree, hin, -⟩ := hself
    · exact .inl ⟨hlock', hbusy⟩
    · exact .inr ⟨hfree, hin⟩

/-! ### `pipewrite` -/

/-- A byte is stored. -/
theorem Stream.store (hlock : s.lock = some p) {i : ℕ}
    (hcode : (s.thread p).code = .write addr i false) (hi : i < addr.length) (hroom : ¬ s.Full) :
    Stream ((Pipe.store s p addr[i]).goto p (.write addr (i + 1) false)) := by
  obtain ⟨rest, hstored, hring⟩ := h.ring
  have hsize : pipesize < 2 ^ 32 := by decide
  refine ⟨?_, ⟨rest ++ [addr[i]], ?_, ?_⟩, ?_⟩
  · exact h.held.run hlock rfl (.inl ⟨hlock, nofun⟩) trivial
  · have hcopying : copying ((Pipe.store s p addr[i]).goto p (.write addr (i + 1) false)) = copying s := by
      have hlock' : ((Pipe.store s p addr[i]).goto p (.write addr (i + 1) false)).lock = some p := hlock
      rw [copying_of_lock hlock, copying_of_lock hlock', hcode]
      simp [State.goto, Code.copied]
    rw [handed, hcopying, ← append_assoc]
    simp only [State.goto, Pipe.store, map_append, map_cons, map_nil]
    rw [hstored, handed]
  · have hlen : rest.length < pipesize := by
      have hle := hring.length_le
      have hne : rest.length ≠ pipesize := fun heq => hroom ((hring.full_iff hsize).mpr heq)
      omega
    exact hring.push (by decide) hlen addr[i]
  · intro q
    have hq := h.writers q
    by_cases hqp : q = p
    · subst q
      simp only [storedBy, State.goto, Pipe.store, filter_append, map_append,
        update_self, Thread.sent, Code.written]
      rw [storedBy, Thread.sent, hcode, Code.written] at hq
      rw [hq, append_assoc, take_succ_eq_append_getElem hi]
      simp
    · simp only [storedBy, State.goto, Pipe.store, filter_append, map_append, update_of_ne hqp]
      rw [storedBy] at hq
      rw [hq]
      simp [Ne.symm hqp]

theorem Stream.pipewrite (hlock : s.lock = some p) {i : ℕ}
    {atSleep : Bool} (hcode : (s.thread p).code = .write addr i atSleep) :
    Stream (Pipe.pipewrite s p addr i atSleep) := by
  have hcode' : ((Pipe.wakeup s .nread).thread p).code = .write addr i atSleep := by
    rw [wakeup_code, hcode]
  have hreturn : ∀ {s : State ι}, Stream s → s.lock = some p → (s.thread p).code = .write addr i atSleep →
      Stream (writeReturn s p addr i) := by
    intro s h hlock hcode
    refine h.run hlock ?_ trivial (.inr ⟨rfl, rfl, ?_⟩)
    · simp [Thread.sent, Code.written, hcode]
    · rw [hcode, Code.copied]
      nofun
  unfold Pipe.pipewrite
  split_ifs with hsleep hi hfull hback
  · refine h.run hlock ?_ trivial (.inr ⟨rfl, rfl, ?_⟩)
    · simp [Thread.sent, Code.written, hcode]
    · rw [hcode, Code.copied]
      nofun
  · exact hreturn h hlock hcode
  · refine (h.wakeup .nread).run hlock ?_ trivial (.inl ⟨hlock, nofun, ?_⟩)
    · simp [Thread.sent, Code.written, hcode]
    · rw [hcode']
      rfl
  · rw [Bool.not_eq_true] at hsleep
    subst hsleep
    exact h.store hlock hcode hi hfull
  · exact hreturn (h.wakeup .nread) hlock hcode'

/-! ### `piperead` -/

/-- A byte is copied. -/
theorem Stream.fetch (hlock : s.lock = some p)
    (hcode : (s.thread p).code = .read n .copy addr) (hsome : s.nread ≠ s.nwrite) :
    Stream ((Pipe.fetch s).goto p (.read n .copy (addr ++ [s.data (s.nread.toNat % pipesize)]))) := by
  obtain ⟨rest, hstored, hring⟩ := h.ring
  obtain ⟨x, rest, rfl⟩ : ∃ x xs, rest = x :: xs := by
    refine exists_cons_of_ne_nil ?_
    intro hnil
    exact hsome ((hring.empty_iff (by decide)).mpr hnil)
  obtain ⟨hx, hrest⟩ := hring.pop (by decide)
  rw [hx]
  refine ⟨?_, ⟨rest, ?_, hrest⟩, ?_⟩
  · refine h.held.run hlock rfl (.inl ⟨hlock, nofun⟩) ?_
    simp [Code.Ok]
  · have hlock' : ((Pipe.fetch s).goto p (.read n .copy (addr ++ [x]))).lock = some p := hlock
    have hcopying : copying ((Pipe.fetch s).goto p (.read n .copy (addr ++ [x]))) = copying s ++ [x] := by
      rw [copying_of_lock hlock, copying_of_lock hlock', hcode]
      simp [State.goto, Code.copied]
    have hmap : ((Pipe.fetch s).goto p (.read n .copy (addr ++ [x]))).stored.map Prod.snd =
        handed s ++ x :: rest := hstored
    rw [hmap, handed, handed, hcopying]
    simp [State.goto, Pipe.fetch]
  · refine (forall_update_iff s.thread fun q x => storedBy s q = x.sent).mpr ⟨?_, fun q _ => h.writers q⟩
    rw [h.writers p, Thread.sent, hcode]
    rfl

/-- Bytes are returned. -/
theorem Stream.readReturn (hlock : s.lock = some p)
    (hcode : (s.thread p).code = .read n .copy addr) : Stream (Pipe.readReturn s p n addr) := by
  obtain ⟨rest, hstored, hring⟩ := h.ring
  refine ⟨?_, ⟨rest, ?_, hring⟩, ?_⟩
  · exact h.held.run hlock rfl (.inr ⟨rfl, rfl⟩) trivial
  · have hmap : (Pipe.readReturn s p n addr).stored.map Prod.snd = handed s ++ rest := hstored
    rw [hmap, handed, handed, copying_of_lock hlock, hcode, copying_of_free (s := Pipe.readReturn s p n addr) rfl]
    simp [Pipe.readReturn, Code.copied]
  · refine (forall_update_iff s.thread fun q x => storedBy s q = x.sent).mpr ⟨?_, fun q _ => h.writers q⟩
    rw [h.writers p, Thread.sent, hcode]
    rfl

theorem Stream.piperead (hlock : s.lock = some p) {stage : Stage}
    (hcode : (s.thread p).code = .read n stage addr) :
    Stream (Pipe.piperead s p n addr stage) := by
  have hok := h.held.ok p
  rw [hcode] at hok
  have hsent : ∀ {c : Code}, c.written = [] → ({ s.thread p with code := c } : Thread).sent =
      (s.thread p).sent := by
    intro c hc
    rw [Thread.sent, Thread.sent, hc, hcode]
    rfl
  cases stage with
  | wait =>
    have hnil : addr = [] := hok
    have hcopied : (s.thread p).code.copied = [] := by rw [hcode, Code.copied, hnil]
    unfold Pipe.piperead
    simp only
    split_ifs with hempty hkilled
    · exact h.run hlock (hsent rfl) trivial (.inr ⟨rfl, rfl, hcopied⟩)
    · exact h.run hlock (hsent rfl) hnil (.inl ⟨hlock, nofun, hnil.trans hcopied.symm⟩)
    · refine h.run hlock (hsent rfl) ?_ (.inl ⟨hlock, nofun, hnil.trans hcopied.symm⟩)
      intro _
      rw [not_and_or, Bool.not_eq_true] at hempty
      exact hempty
  | sleep =>
    refine h.run hlock (hsent rfl) hok (.inr ⟨rfl, rfl, ?_⟩)
    rw [hcode]
    exact hok
  | copy =>
    unfold Pipe.piperead
    simp only
    split_ifs with hmore
    · exact h.fetch hlock hcode hmore.2
    · exact (h.wakeup .nwrite).readReturn hlock (by rw [wakeup_code, hcode])

/-! ### Runs -/

/-- Every step keeps the bytes in order. -/
theorem Stream.step [Fintype ι] {e : Event ι} (hstep : Pipe.step s e = some t) :
    Stream t := by
  cases e with
  | write p addr =>
    obtain ⟨⟨hidle, -⟩, ⟨⟩⟩ := ite_none_right_eq_some.mp hstep
    exact h.call hidle rfl trivial rfl
  | read p n =>
    obtain ⟨⟨hidle, -⟩, ⟨⟩⟩ := ite_none_right_eq_some.mp hstep
    exact h.call hidle rfl rfl rfl
  | acquire p =>
    obtain ⟨⟨hfree, hbusy, -⟩, ⟨⟩⟩ := ite_none_right_eq_some.mp hstep
    exact h.acquire hfree hbusy
  | run p =>
    obtain ⟨hlock, hrun⟩ := ite_none_right_eq_some.mp hstep
    obtain ⟨addr, i, atSleep, hcode, rfl⟩ | ⟨n, stage, addr, hcode, rfl⟩ := run_cases hrun
    · exact h.pipewrite hlock hcode
    · exact h.piperead hlock hcode
  | close writable =>
    obtain ⟨⟨hfree, -⟩, ⟨⟩⟩ := ite_none_right_eq_some.mp hstep
    unfold pipeclose
    split_ifs
    all_goals
      apply wakeup
      exact h.congr (fun _ => rfl) (fun _ => rfl) rfl rfl rfl rfl rfl rfl fun hheld => absurd hfree hheld
  | kill p =>
    obtain rfl := some.inj hstep
    refine h.congr ?_ ?_ rfl rfl rfl rfl rfl rfl fun _ => rfl
    all_goals
      intro q
      simp only [Pipe.kill, update_apply]
      split_ifs with hqp
      · rw [hqp]
      · rfl

end

/-- The calls of `piperead` return bytes in the last step of their loop. -/
theorem reads_of_step [Fintype ι] {e : Event ι} (hstep : step s e = some t) :
    t.reads = s.reads ∨ ∃ p n addr, (s.thread p).code = .read n .copy addr ∧
      ¬ (addr.length < n ∧ s.nread ≠ s.nwrite) ∧ t.reads = s.reads ++ [⟨p, n, addr⟩] := by
  cases e with
  | write p addr =>
    obtain ⟨-, ⟨⟩⟩ := ite_none_right_eq_some.mp hstep
    exact .inl rfl
  | read p n =>
    obtain ⟨-, ⟨⟩⟩ := ite_none_right_eq_some.mp hstep
    exact .inl rfl
  | acquire p =>
    obtain ⟨-, ⟨⟩⟩ := ite_none_right_eq_some.mp hstep
    exact .inl rfl
  | run p =>
    obtain ⟨-, hrun⟩ := ite_none_right_eq_some.mp hstep
    obtain ⟨addr, i, atSleep, hcode, rfl⟩ | ⟨n, stage, addr, hcode, rfl⟩ := run_cases hrun
    · unfold pipewrite
      left
      split_ifs <;> rfl
    · unfold piperead
      cases stage with
      | wait =>
        left
        simp only
        split_ifs <;> rfl
      | sleep => exact .inl rfl
      | copy =>
        simp only
        split_ifs with hmore
        · exact .inl rfl
        · exact .inr ⟨p, n, addr, hcode, hmore, rfl⟩
  | close writable =>
    obtain ⟨-, ⟨⟩⟩ := ite_none_right_eq_some.mp hstep
    unfold pipeclose
    left
    split_ifs <;> rfl
  | kill p =>
    obtain rfl := some.inj hstep
    exact .inl rfl

theorem stream_pipealloc (data : ℕ → BitVec 8) : Stream (pipealloc data : State ι) where
  held := ⟨nofun, nofun, fun _ => trivial⟩
  ring := ⟨[], rfl, holds_nil pipesize data 0⟩
  writers _ := rfl

/-- In every run of readers and writers of a pipe, the ring holds at most `PIPESIZE` bytes; the
bytes handed to readers are the first of the bytes stored, and the others are in the ring;
every writer's bytes are stored in the writer's order; and `piperead` returns 0 to who asked for
bytes only when all bytes that were stored have been read and the write end is closed. -/
theorem pipe_stream [Fintype ι] {data : ℕ → BitVec 8} {es : List (Event ι)}
    (hrun : Transition.run Pipe.step (pipealloc data) es = some s) :
    (s.nwrite - s.nread).toNat ≤ pipesize ∧
    (∃ rest, s.stored.map Prod.snd = handed s ++ rest ∧ rest.length = (s.nwrite - s.nread).toNat ∧
      ∀ j (hj : j < rest.length), s.data ((s.nread + BitVec.ofNat 32 j).toNat % pipesize) = rest[j]) ∧
    (∀ p, storedBy s p = (s.thread p).sent) ∧
    ∀ e t p n, Pipe.step s e = some t → t.reads = s.reads ++ [⟨p, n, []⟩] → 0 < n →
      handed s = s.stored.map Prod.snd ∧ s.writeopen = false := by
  have h : Stream s := Transition.invariant_run (fun h hs => h.step hs) (stream_pipealloc data) hrun
  have hsize : pipesize < 2 ^ 32 := by decide
  obtain ⟨rest, hstored, hring⟩ := h.ring
  have hlen := hring.length_eq hsize
  refine ⟨?_, ⟨rest, hstored, hlen.symm, ?_⟩, h.writers, ?_⟩
  · rw [hlen]
    exact hring.length_le
  · intro j hj
    rw [toNat_add_mod (by decide), hring.cell j hj]
  · intro e t p n hstep hreads hn
    obtain hsame | ⟨q, m, addr, hcode, hend, hreads'⟩ := reads_of_step hstep
    · simp [hsame] at hreads
    · rw [hreads'] at hreads
      obtain ⟨rfl, rfl, rfl⟩ : q = p ∧ m = n ∧ addr = [] := by simpa using hreads
      have hempty : s.nread = s.nwrite := by
        by_contra hne
        exact hend ⟨hn, hne⟩
      have hfound := h.held.ok q
      rw [hcode] at hfound
      obtain hne | hclosed := hfound rfl
      · exact absurd hempty hne
      · rw [(hring.empty_iff hsize).mp hempty, append_nil] at hstored
        exact ⟨hstored.symm, hclosed⟩

/-- A writer stores two bytes and leaves, its end is closed, and a reader gets them. The next
read returns 0. -/
theorem pipe_stream_two_bytes : ∃ s : State Bool, Transition.run Pipe.step (pipealloc fun _ => 0)
    [.write true [7, 9], .acquire true, .run true, .run true, .run true, .close true,
      .read false 5, .acquire false, .run false, .run false, .run false, .run false,
      .read false 5, .acquire false, .run false] = some s ∧
    handed s = [7, 9] ∧ s.stored.map Prod.snd = [7, 9] ∧ (s.nwrite - s.nread).toNat ≤ pipesize := by
  have hbytes : (Transition.run Pipe.step (pipealloc fun _ => 0 : State Bool)
      [.write true [7, 9], .acquire true, .run true, .run true, .run true, .close true,
        .read false 5, .acquire false, .run false, .run false, .run false, .run false,
        .read false 5, .acquire false, .run false]).map
        (fun s => (handed s, s.stored.map Prod.snd)) = some ([7, 9], [7, 9]) := by
    decide +kernel
  obtain ⟨s, hrun, hs⟩ := map_eq_some_iff.mp hbytes
  exact ⟨s, hrun, congrArg Prod.fst hs, congrArg Prod.snd hs, (pipe_stream hrun).1⟩

end Xv6Draw.Pipe
