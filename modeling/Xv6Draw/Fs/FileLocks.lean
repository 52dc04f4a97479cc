import Xv6Draw.Console
import Xv6Draw.Fs.Call
import Xv6Draw.Pipe.Model

/-!
# The locks of calls on files

`fileread`, `filewrite`, `filestat` and `fileclose` of one process, for every kind of file, with
the inode locks that the process holds and the log operations that it is in. The process goes
through a call in small steps. Between two steps the rest of the machine may have done
anything: what the process finds at a step is given from outside, with the locks of other
processes, the buffers of the console and of the pipe, and whether it has been killed. Only the locks
that the process holds are its own.

The functions of `fs.c` are the ones of the model of the file system, run on what the process
finds. `writei` and the others run as one step, `ilock` and `begin_op` wait as long as they have to.
-/

namespace Xv6Draw.Fs

open Function Hoare

/-! ### Functions that take no locks -/

theorem keeps_bread (b : ℕ) : Keeps locks (bread b) :=
  keeps_get.bind fun _ => keeps_ite (keeps_pure _) (keeps_throw _)

theorem keeps_logWrite (b : ℕ) (data : Block) : Keeps locks (logWrite b data) :=
  keeps_modify fun _ => rfl

theorem locks_update (s : State) (k : Fin ninode) (e : Inode) :
    locks { s with icache := update s.icache k e } =
      update (locks s) k e.locked := by
  funext j
  by_cases hj : j = k
  · subst j
    simp [locks]
  · simp [locks, hj]

theorem keeps_setInode {k : Fin ninode} {f : Inode → Inode} (hf : ∀ ip, (f ip).locked = ip.locked) :
    Keeps locks (setInode k f) := by
  apply keeps_modify
  intro s
  rw [locks_update, hf]
  exact update_eq_self k (locks s)

variable (k : Fin ninode)

theorem keeps_setCopy (f : Dinode → Dinode) : Keeps locks (setCopy k f) :=
  keeps_setInode fun _ => rfl

theorem keeps_bzero (b : ℕ) : Keeps locks (bzero b) :=
  (keeps_bread b).bind fun _ => keeps_logWrite _ _

theorem keeps_balloc : Keeps locks balloc := by
  refine keeps_get.bind fun s => ?_
  cases freeBlock s.disk with
  | none => exact keeps_throw _
  | some b =>
    exact (keeps_bread _).bind fun _ => (keeps_logWrite _ _).bind fun _ =>
      (keeps_bzero b).bind fun _ => keeps_pure b

theorem keeps_bfree (b : ℕ) : Keeps locks (bfree b) :=
  (keeps_bread _).bind fun _ => keeps_ite (keeps_throw _) (keeps_logWrite _ _)

theorem keeps_iupdate : Keeps locks (iupdate k) :=
  keeps_get.bind fun _ => (keeps_bread _).bind fun _ => keeps_logWrite _ _

theorem keeps_itrunc : Keeps locks (itrunc k) := by
  refine (keeps_forM fun i => ?_).bind fun _ => Keeps.bind ?_ fun _ =>
    (keeps_setCopy _ _).bind fun _ => keeps_iupdate k
  · exact keeps_get.bind fun _ => keeps_ite (keeps_pure _)
      ((keeps_bfree _).bind fun _ => keeps_setCopy _ _)
  · refine keeps_get.bind fun _ => keeps_ite (keeps_pure _) ((keeps_bread _).bind fun _ => ?_)
    refine (keeps_forM fun j => ?_).bind fun _ => (keeps_bfree _).bind fun _ => keeps_setCopy _ _
    exact keeps_ite (keeps_pure _) (keeps_bfree _)

theorem keeps_iput : Keeps locks (iput k) := by
  refine Keeps.bind (keeps_get.bind fun _ => keeps_ite ?_ (keeps_pure _)) fun _ =>
    keeps_setInode fun _ => rfl
  exact (keeps_itrunc k).bind fun _ => (keeps_setCopy _ _).bind fun _ =>
    (keeps_iupdate k).bind fun _ => keeps_setInode fun _ => rfl

theorem keeps_addrBlock (n : ℕ) : Keeps locks (addrBlock k n) :=
  keeps_get.bind fun _ => keeps_ite
    (keeps_balloc.bind fun _ => (keeps_setCopy _ _).bind fun _ => keeps_pure _) (keeps_pure _)

theorem keeps_entryBlock (addr j : ℕ) : Keeps locks (entryBlock addr j) :=
  (keeps_bread _).bind fun _ => keeps_ite (keeps_balloc.bind fun _ => keeps_get.bind fun _ =>
    (keeps_logWrite _ _).bind fun _ => keeps_pure _) (keeps_pure _)

theorem keeps_bmap (bn : ℕ) : Keeps locks (bmap k bn) :=
  keeps_ite (keeps_addrBlock k bn) (keeps_ite
    ((keeps_addrBlock k ndirect).bind fun _ => keeps_entryBlock _ _) (keeps_throw _))

theorem keeps_readLoop (fuel off n : ℕ) : Keeps locks (readLoop k fuel off n) := by
  induction fuel generalizing off n with
  | zero => exact keeps_pure _
  | succ fuel ih =>
    exact keeps_ite (keeps_pure _) ((keeps_bmap k _).bind fun _ => (keeps_bread _).bind fun _ =>
      (ih _ _).bind fun _ => keeps_pure _)

theorem keeps_readi (off n : ℕ) : Keeps locks (readi k off n) :=
  keeps_get.bind fun _ => keeps_ite (keeps_pure _)
    ((keeps_readLoop k _ _ _).bind fun _ => keeps_pure _)

theorem keeps_writeLoop (src : ℕ → BitVec 8) (fuel tot off n : ℕ) :
    Keeps locks (writeLoop k src fuel tot off n) := by
  induction fuel generalizing tot off n with
  | zero => exact keeps_pure _
  | succ fuel ih =>
    exact keeps_ite (keeps_pure _) ((keeps_bmap k _).bind fun _ => (keeps_bread _).bind fun _ =>
      (keeps_logWrite _ _).bind fun _ => ih _ _ _)

theorem keeps_writei (src : ℕ → BitVec 8) (off n : ℕ) :
    Keeps locks (writei k src off n) := by
  refine keeps_get.bind fun _ => keeps_ite (keeps_pure _) (keeps_ite (keeps_pure _) ?_)
  refine (keeps_writeLoop k src _ _ _ _).bind fun _ => Keeps.bind ?_ fun _ => keeps_pure _
  exact keeps_get.bind fun _ => keeps_ite ((keeps_setCopy _ _).bind fun _ => keeps_iupdate k)
    (keeps_pure _)

end Xv6Draw.Fs

namespace Xv6Draw.FileLocks

open Function Hoare Option Fs

/-! ### Calls on files -/

/-- The types of open files. -/
inductive FdType where
  | none
  | pipe
  | inode
  deriving DecidableEq

/-- The part of `struct file` that is fixed while the file is open. -/
structure OpenFile where
  type : FdType
  readable : Bool
  writable : Bool
  ip : Fin ninode

/-- What a process finds at a step. -/
structure Moment where
  /-- The file system, with the inode locks of other processes. -/
  fs : Fs.State
  committing : Bool
  /-- `log.lh.n`. -/
  logged : ℕ
  outstanding : ℕ
  ref : ℕ
  off : ℕ
  killed : Bool
  buf : ℕ → BitVec 8
  r : BitVec 32
  w : BitVec 32
  nread : BitVec 32
  nwrite : BitVec 32
  readopen : Bool
  writeopen : Bool

/-- The calls. -/
inductive FileCall where
  | fileread (n : ℤ)
  | filewrite (addr : ℕ → BitVec 8) (n : ℤ)
  | filestat
  | fileclose

/-- Where a process is in a call. -/
inductive Control where
  /-- At the beginning. -/
  | call (c : FileCall)
  /-- `fileread` at `ilock`. -/
  | readLock (n : ℤ)
  /-- `fileread` at `readi`. -/
  | readBody (n : ℤ)
  /-- `fileread` at `iunlock`. -/
  | readUnlock (r : ℤ)
  /-- `consoleread` in its loop. -/
  | consoleread (target n : ℤ)
  /-- `consoleread` of a killed process, at `ilock`. -/
  | consoleKilled
  /-- `piperead` in the loop that waits. -/
  | piperead (n : ℤ)
  /-- `pipewrite` in its loop. -/
  | pipewrite (i n : ℤ)
  /-- `filewrite` at the top of its loop. -/
  | writeLoop (addr : ℕ → BitVec 8) (i n : ℤ)
  /-- `filewrite` at `ilock`. -/
  | writeLock (addr : ℕ → BitVec 8) (i n n1 : ℤ)
  /-- `filewrite` at `writei`. -/
  | writeBody (addr : ℕ → BitVec 8) (i n n1 : ℤ)
  /-- `filewrite` at `iunlock`. -/
  | writeUnlock (addr : ℕ → BitVec 8) (i n n1 r : ℤ)
  /-- `filewrite` at `end_op`. -/
  | writeEnd (addr : ℕ → BitVec 8) (i n n1 r : ℤ)
  /-- `filestat` at `ilock`. -/
  | statLock
  /-- `filestat` at `iunlock`, behind `stati`. -/
  | statUnlock
  /-- `fileclose` at `begin_op`. -/
  | closeBegin
  /-- `fileclose` at `iput`. -/
  | closeBody
  /-- `fileclose` at `end_op`. -/
  | closeEnd
  /-- Behind the call. -/
  | returned (r : ℤ)

/-- A process in a call. -/
structure Caller where
  code : Control
  /-- The inode locks that it holds. -/
  mine : Fin ninode → Bool
  /-- The log operations that it is in. -/
  ops : ℕ

/-- The file system with the locks of all processes. -/
def Moment.view (m : Moment) (mine : Fin ninode → Bool) : Fs.State :=
  { m.fs with icache := fun k => { m.fs.icache k with locked := (m.fs.icache k).locked || mine k } }

/-- A function of the file system: its result and the locks that the process holds then. -/
def Moment.call {α : Type} (m : Moment) (mine : Fin ninode → Bool) (x : FsM α) :
    Except Panic (α × (Fin ninode → Bool)) :=
  match x (m.view mine) with
  | .ok (a, s) => .ok (a, fun k => (s.icache k).locked && !((m.fs.icache k).locked && !mine k))
  | .error e => .error e

/-- The process goes on behind a function of the file system. It does not when that panics. -/
def Caller.after {α : Type} (s : Caller) (m : Moment) (x : FsM α) (code : α → Control) : Option Caller :=
  match m.call s.mine x with
  | .ok (a, mine) => some { s with code := code a, mine := mine }
  | .error _ => none

/-- `ilock`, which waits while the lock is taken. -/
def Caller.lock (s : Caller) (m : Moment) (k : Fin ninode) (code : Control) : Option Caller :=
  match m.call s.mine (ilock k) with
  | .ok (_, mine) => some { s with code := code, mine := mine }
  | .error .asleep => some s
  | .error _ => none

/-- `begin_op`, which waits for a commit and for space in the log. -/
def Caller.beginOp (s : Caller) (m : Moment) (code : Control) : Caller :=
  if m.committing then s
  else if m.logged + (m.outstanding + 1) * Log.maxOpBlocks > Log.logSize then s
  else { s with code := code, ops := s.ops + 1 }

/-- `end_op`, which panics during a commit. -/
def Caller.endOp (s : Caller) (m : Moment) (code : Control) : Option Caller :=
  if m.committing then none else some { s with code := code, ops := s.ops - 1 }

/-- `NDEV`. -/
def ndev : ℤ := 10

/-- `CONSOLE`. -/
def console : ℤ := 1

/-- The major number of the display. -/
def display : ℤ := 2

/-- `devsw[major].read` is set. -/
def hasRead (major : ℤ) : Prop := 0 ≤ major ∧ major < ndev ∧ major = console

/-- `devsw[major].write` is set. -/
def hasWrite (major : ℤ) : Prop := 0 ≤ major ∧ major < ndev ∧ (major = console ∨ major = display)

instance (major : ℤ) : Decidable (hasRead major) := inferInstanceAs (Decidable (_ ∧ _))

instance (major : ℤ) : Decidable (hasWrite major) := inferInstanceAs (Decidable (_ ∧ _))

/-- An int as the unsigned number that a function gets. -/
def toUint (n : ℤ) : ℕ := (n % 2 ^ 32).toNat

/-- The beginning of `fileread`. -/
def startRead (f : OpenFile) (m : Moment) (n : ℤ) : Option Control :=
  if f.readable = false then some (.returned (-1))
  else match f.type with
    | .pipe => some (.piperead n)
    | .inode =>
      if (m.fs.icache f.ip).d.type = tDev then
        if hasRead (m.fs.icache f.ip).d.major.toInt then some (.consoleread n n)
        else some (.returned (-1))
      else some (.readLock n)
    | .none => none

/-- The beginning of `filewrite`. `consolewrite` and `displaywrite` return at once. -/
def startWrite (f : OpenFile) (m : Moment) (addr : ℕ → BitVec 8) (n : ℤ) : Option Control :=
  if f.writable = false then some (.returned (-1))
  else match f.type with
    | .pipe => some (.pipewrite 0 n)
    | .inode =>
      if (m.fs.icache f.ip).d.type = tDev then
        if hasWrite (m.fs.icache f.ip).d.major.toInt then some (.returned n)
        else some (.returned (-1))
      else some (.writeLoop addr 0 n)
    | .none => none

/-- The beginning of `fileclose`. -/
def startClose (f : OpenFile) (m : Moment) : Option Control :=
  if m.ref < 1 then none
  else if m.ref - 1 > 0 then some (.returned 0)
  else match f.type with
    | .pipe => some (.returned 0)
    | .inode => some .closeBegin
    | .none => some (.returned 0)

/-- The beginning of a call. -/
def start (f : OpenFile) (m : Moment) : FileCall → Option Control
  | .fileread n => startRead f m n
  | .filewrite addr n => startWrite f m addr n
  | .filestat => some (if f.type = .inode then .statLock else .returned (-1))
  | .fileclose => startClose f m

/-- A turn of the loops of `consoleread`. -/
def consoleTurn (m : Moment) (target n : ℤ) : Control :=
  if n > 0 then
    if m.r = m.w then if m.killed then .consoleKilled else .consoleread target n
    else if m.buf (m.r.toNat % Console.inputBuf) = Console.ctrl 'D' then .returned (target - n)
    else if m.buf (m.r.toNat % Console.inputBuf) = Console.newline then .returned (target - (n - 1))
    else .consoleread target (n - 1)
  else .returned (target - n)

/-- A turn of the loop in which `piperead` waits, or the rest of the call. -/
def pipereadTurn (m : Moment) (n : ℤ) : Control :=
  if m.nread = m.nwrite ∧ m.writeopen then if m.killed then .returned (-1) else .piperead n
  else .returned (max 0 (min n (m.nwrite - m.nread).toNat))

/-- A turn of the loops of `pipewrite`. -/
def pipewriteTurn (m : Moment) (i n : ℤ) : Control :=
  if i < n then
    if m.nwrite = m.nread + BitVec.ofNat 32 Pipe.pipesize then
      if m.readopen = false ∨ m.killed then .returned (-1) else .pipewrite i n
    else .pipewrite (i + 1) n
  else .returned n

/-- What `filewrite` returns behind its loop. -/
def writeResult (i n : ℤ) : ℤ := if i = n then n else -1

/-- A step of a process in a call. -/
def step (f : OpenFile) (s : Caller) (m : Moment) : Option Caller :=
  match s.code with
  | .call c => (start f m c).map fun code => { s with code := code }
  | .readLock n => s.lock m f.ip (.readBody n)
  | .readBody n => s.after m (readi f.ip m.off (toUint n)) fun r => .readUnlock (readCount r)
  | .readUnlock r => s.after m (iunlock f.ip) fun _ => .returned r
  | .consoleread target n => some { s with code := consoleTurn m target n }
  | .consoleKilled => s.lock m f.ip (.returned (-1))
  | .piperead n => some { s with code := pipereadTurn m n }
  | .pipewrite i n => some { s with code := pipewriteTurn m i n }
  | .writeLoop addr i n =>
    if i < n then some (s.beginOp m (.writeLock addr i n (min (n - i) maxChunk)))
    else some { s with code := .returned (writeResult i n) }
  | .writeLock addr i n n1 => s.lock m f.ip (.writeBody addr i n n1)
  | .writeBody addr i n n1 =>
    s.after m (writei f.ip (fun j => addr (i.toNat + j)) m.off (toUint n1)) (.writeUnlock addr i n n1)
  | .writeUnlock addr i n n1 r => s.after m (iunlock f.ip) fun _ => .writeEnd addr i n n1 r
  | .writeEnd addr i n n1 r =>
    if r < 0 then s.endOp m (.returned (writeResult i n))
    else if r ≠ n1 then none
    else s.endOp m (.writeLoop addr (i + r) n)
  | .statLock => s.lock m f.ip .statUnlock
  | .statUnlock => s.after m (iunlock f.ip) fun _ => .returned 0
  | .closeBegin => some (s.beginOp m .closeBody)
  | .closeBody => s.after m (iput f.ip) fun _ => .closeEnd
  | .closeEnd => s.endOp m (.returned 0)
  | .returned _ => none

/-! ### What a call owes -/

/-- The process holds the lock of the inode. -/
def Control.locked : Control → Bool
  | .readBody _ => true
  | .readUnlock _ => true
  | .writeBody _ _ _ _ => true
  | .writeUnlock _ _ _ _ _ => true
  | .statUnlock => true
  | _ => false

/-- The log operations that the call has begun. -/
def Control.begun : Control → ℕ
  | .writeLock _ _ _ _ => 1
  | .writeBody _ _ _ _ => 1
  | .writeUnlock _ _ _ _ _ => 1
  | .writeEnd _ _ _ _ _ => 1
  | .closeBody => 1
  | .closeEnd => 1
  | _ => 0

/-- The process holds what it held before the call, and what the call gives back. -/
structure Owes (f : OpenFile) (mine : Fin ninode → Bool) (ops : ℕ) (s : Caller) : Prop where
  locks : s.mine = if s.code.locked then update mine f.ip true else mine
  /-- The lock of the inode was not held before. -/
  free : s.code.locked = true → mine f.ip = false
  ops : s.ops = ops + s.code.begun
  /-- The process is not on the way out of `consoleread` for killed processes. -/
  alive : s.code ≠ .consoleKilled

/-- A killed process does not find the console empty in `consoleread`. -/
def NotKilledWaiting (s : Caller) (m : Moment) : Prop :=
  ¬ ∃ target n, s.code = .consoleread target n ∧ 0 < n ∧ m.r = m.w ∧ m.killed = true

variable {f : OpenFile} {m : Moment} {mine mine' : Fin ninode → Bool} {ops : ℕ} {s t : Caller}

theorem own_lock (a b : Bool) : ((a || b) && !(a && !b)) = b := by
  cases a <;> cases b <;> rfl

variable {α : Type} {k : Fin ninode} {code : Control}

/-- The locks that a process holds behind a function of the file system. -/
theorem Moment.call_eq_ok {x : FsM α} {a : α} (h : m.call mine x = .ok (a, mine')) :
    ∃ u, x (m.view mine) = .ok (a, u) ∧
      mine' = fun k => Fs.locks u k && !((m.fs.icache k).locked && !mine k) := by
  unfold call at h
  cases hrun : x (m.view mine) with
  | error e =>
    rw [hrun] at h
    exact absurd h nofun
  | ok r =>
    obtain ⟨b, u⟩ := r
    rw [hrun] at h
    obtain ⟨rfl, rfl⟩ := Prod.mk.inj (Except.ok.inj h)
    exact ⟨u, rfl, rfl⟩

/-- The process holds its own locks, but for the one that a function has changed. -/
theorem own_locks {b : Bool} {locks : Fin ninode → Bool}
    (hlocks : locks = update (Fs.locks (m.view mine)) k b)
    (hfree : b = true → (m.fs.icache k).locked = false) :
    (fun j => locks j && !((m.fs.icache j).locked && !mine j)) = update mine k b := by
  subst hlocks
  funext j
  by_cases hj : j = k
  · subst j
    rw [update_self, update_self]
    cases b with
    | false => rfl
    | true => simp [hfree rfl]
  · rw [update_of_ne hj, update_of_ne hj]
    exact own_lock _ _

theorem Moment.call_keeps {x : FsM α} (hx : Keeps Fs.locks x) {a : α}
    (h : m.call mine x = .ok (a, mine')) : mine' = mine := by
  obtain ⟨u, hrun, rfl⟩ := call_eq_ok h
  rw [hx.eq_of_ok hrun]
  funext k
  exact own_lock _ _

/-- What `ilock` does to the locks. -/
theorem Moment.call_ilock {a : Unit} (h : m.call mine (ilock k) = .ok (a, mine')) :
    mine k = false ∧ mine' = update mine k true := by
  have hlock : wp (ilock k) (fun _ => True) (fun _ u => ((m.view mine).icache k).locked = false ∧
      Fs.locks u = update (Fs.locks (m.view mine)) k true) (m.view mine) := by
    unfold ilock
    refine wp_bind (wp_get (wp_ite (fun _ => wp_throw trivial) fun _ => ?_))
    refine wp_ite (fun _ => wp_throw trivial) fun hfree => ?_
    rw [Bool.not_eq_true] at hfree
    refine wp_ite (fun _ => wp_modify ⟨hfree, locks_update _ _ _⟩) fun _ => ?_
    unfold bread
    refine wp_bind (wp_bind (wp_get (wp_ite (fun _ => wp_pure ?_) fun _ => wp_throw trivial)))
    refine wp_bind (wp_modify (wp_ite (fun _ => wp_throw trivial) fun _ => wp_pure ?_))
    exact ⟨hfree, locks_update _ _ _⟩
  obtain ⟨u, hrun, rfl⟩ := call_eq_ok h
  obtain ⟨hfree, hlocks⟩ := wp_ok hlock hrun
  obtain ⟨hother, hmine⟩ := Bool.or_eq_false_iff.mp hfree
  exact ⟨hmine, own_locks hlocks fun _ => hother⟩

theorem Moment.call_iunlock {a : Unit}
    (h : m.call mine (iunlock k) = .ok (a, mine')) : mine' = update mine k false := by
  have hunlock : wp (iunlock k) (fun _ => True) (fun _ u =>
      Fs.locks u = update (Fs.locks (m.view mine)) k false) (m.view mine) := by
    unfold iunlock
    exact wp_bind (wp_get (wp_ite (fun _ => wp_throw trivial) fun _ =>
      wp_modify (locks_update _ _ _)))
  obtain ⟨u, hrun, rfl⟩ := call_eq_ok h
  have hlocks := wp_ok hunlock hrun
  exact own_locks hlocks nofun

/-! ### Steps -/

/-- The process has begun to wait or has the lock. -/
theorem Caller.lock_cases (h : s.lock m k code = some t) : t = s ∨ (s.mine k = false ∧
      t = { s with code := code, mine := update s.mine k true }) := by
  unfold lock at h
  split at h
  · rename_i mine' hcall
    obtain ⟨hfree, rfl⟩ := Moment.call_ilock hcall
    exact .inr ⟨hfree, (some.inj h).symm⟩
  · exact .inl (some.inj h).symm
  · exact absurd h nofun

/-- The process is behind a function of the file system. -/
theorem Caller.after_cases {x : FsM α} {code : α → Control} (h : s.after m x code = some t) :
    ∃ a mine', m.call s.mine x = .ok (a, mine') ∧ t = { s with code := code a, mine := mine' } := by
  unfold after at h
  split at h
  · rename_i a mine' hcall
    exact ⟨a, mine', hcall, (some.inj h).symm⟩
  · exact absurd h nofun

/-- The process goes on where it holds the same. -/
theorem Owes.goto (h : Owes f mine ops s) (hlocked : code.locked = s.code.locked)
    (hbegun : code.begun = s.code.begun) (halive : code ≠ .consoleKilled) :
    Owes f mine ops { s with code := code } := by
  obtain ⟨hlocks, hfree, hops, -⟩ := h
  refine ⟨?_, ?_, ?_, halive⟩
  · rw [hlocks]
    simp only [hlocked]
  · simp only [hlocked]
    exact hfree
  · rw [hops]
    simp only [hbegun]

/-- The process waits for the lock of the inode or gets it. -/
theorem Owes.lock (h : Owes f mine ops s) (hstep : s.lock m f.ip code = some t)
    (hbefore : s.code.locked = false) (hafter : code.locked = true)
    (hbegun : code.begun = s.code.begun) : Owes f mine ops t := by
  obtain rfl | ⟨hfree, rfl⟩ := Caller.lock_cases hstep
  · exact h
  · obtain ⟨hlocks, -, hops, -⟩ := h
    rw [hbefore] at hlocks
    change s.mine = mine at hlocks
    refine ⟨?_, ?_, ?_, ?_⟩
    · simp only [hafter, if_true, hlocks]
    · intro _
      rw [← hlocks]
      exact hfree
    · rw [hops]
      simp only [hbegun]
    · rintro rfl
      exact absurd hafter nofun

/-- The process gives the lock of the inode back. -/
theorem Owes.unlock (h : Owes f mine ops s)
    (hstep : s.after m (iunlock f.ip) (fun _ => code) = some t) (hbefore : s.code.locked = true)
    (hafter : code.locked = false) (hbegun : code.begun = s.code.begun)
    (halive : code ≠ .consoleKilled) : Owes f mine ops t := by
  obtain ⟨_, mine', hcall, rfl⟩ := Caller.after_cases hstep
  obtain rfl := Moment.call_iunlock hcall
  obtain ⟨hlocks, hfree, hops, -⟩ := h
  rw [hbefore, if_pos rfl] at hlocks
  refine ⟨?_, ?_, ?_, halive⟩
  · have hback := update_eq_self f.ip mine
    rw [hfree hbefore] at hback
    simp only [hafter, hlocks, update_idem, hback, Bool.false_eq_true, if_false]
  · simp [hafter]
  · rw [hops]
    simp only [hbegun]

/-- The process is behind a function that keeps the locks. -/
theorem Owes.after {x : FsM α} (h : Owes f mine ops s) {code : α → Control}
    (hstep : s.after m x code = some t) (hx : Keeps Fs.locks x)
    (hlocked : ∀ a, (code a).locked = s.code.locked) (hbegun : ∀ a, (code a).begun = s.code.begun)
    (halive : ∀ a, code a ≠ .consoleKilled) : Owes f mine ops t := by
  obtain ⟨a, mine', hcall, rfl⟩ := Caller.after_cases hstep
  obtain rfl := Moment.call_keeps hx hcall
  exact h.goto (hlocked a) (hbegun a) (halive a)

/-- The process waits for the log or begins an operation. -/
theorem Owes.beginOp (h : Owes f mine ops s) (hlocked : code.locked = s.code.locked)
    (hbegun : code.begun = s.code.begun + 1) : Owes f mine ops (s.beginOp m code) := by
  unfold Caller.beginOp
  split_ifs
  · exact h
  · exact h
  · obtain ⟨hlocks, hfree, hops, -⟩ := h
    refine ⟨?_, ?_, ?_, ?_⟩
    · simp only [hlocked]
      exact hlocks
    · simp only [hlocked]
      exact hfree
    · simp only [hbegun]
      omega
    · rintro rfl
      exact absurd hbegun nofun

/-- The process ends an operation. -/
theorem Owes.endOp (h : Owes f mine ops s) (hstep : s.endOp m code = some t)
    (hlocked : code.locked = s.code.locked) (hbegun : code.begun + 1 = s.code.begun)
    (halive : code ≠ .consoleKilled) : Owes f mine ops t := by
  unfold Caller.endOp at hstep
  split_ifs at hstep
  obtain rfl := some.inj hstep
  obtain ⟨hlocks, hfree, hops, -⟩ := h
  refine ⟨?_, ?_, ?_, halive⟩
  · simp only [hlocked]
    exact hlocks
  · simp only [hlocked]
    exact hfree
  · simp only
    omega

/-- A process that holds nothing of a call, and is not on the way out for killed processes. -/
structure Control.Plain (code : Control) : Prop where
  locked : code.locked = false
  begun : code.begun = 0
  alive : code ≠ .consoleKilled

/-- A call begins without locks. -/
theorem start_plain {c : FileCall} (h : start f m c = some code) : code.Plain := by
  have hdone : ∀ {code'}, some code' = some code → Control.Plain code' → code.Plain := by
    rintro code' heq hcode'
    rwa [some.inj heq] at hcode'
  cases c with
  | fileread n =>
    simp only [start, startRead] at h
    cases htype : f.type <;> rw [htype] at h <;> split_ifs at h <;> exact hdone h ⟨rfl, rfl, nofun⟩
  | filewrite addr n =>
    simp only [start, startWrite] at h
    cases htype : f.type <;> rw [htype] at h <;> split_ifs at h <;> exact hdone h ⟨rfl, rfl, nofun⟩
  | filestat =>
    simp only [start] at h
    split_ifs at h <;> exact hdone h ⟨rfl, rfl, nofun⟩
  | fileclose =>
    simp only [start, startClose] at h
    cases htype : f.type <;> rw [htype] at h <;> split_ifs at h <;> exact hdone h ⟨rfl, rfl, nofun⟩

/-- The loops of `consoleread` hold no inode lock. -/
theorem consoleTurn_plain {target n : ℤ} (h : ¬ (0 < n ∧ m.r = m.w ∧ m.killed = true)) :
    (consoleTurn m target n).Plain := by
  unfold consoleTurn
  split_ifs with hn hempty hkilled
  · exact absurd ⟨hn, hempty, hkilled⟩ h
  all_goals exact ⟨rfl, rfl, nofun⟩

/-- A killed process leaves the loops of `consoleread` when there is nothing to read. -/
theorem consoleTurn_killed {target n : ℤ} (h : 0 < n ∧ m.r = m.w ∧ m.killed = true) :
    consoleTurn m target n = .consoleKilled := by
  unfold consoleTurn
  rw [if_pos h.1, if_pos h.2.1, if_pos h.2.2]

theorem pipereadTurn_plain (m : Moment) (n : ℤ) : (pipereadTurn m n).Plain := by
  unfold pipereadTurn
  split_ifs <;> exact ⟨rfl, rfl, nofun⟩

theorem pipewriteTurn_plain (m : Moment) (i n : ℤ) : (pipewriteTurn m i n).Plain := by
  unfold pipewriteTurn
  split_ifs <;> exact ⟨rfl, rfl, nofun⟩

theorem Owes.plain (h : Owes f mine ops s) (hlocked : s.code.locked = false)
    (hbegun : s.code.begun = 0) (hafter : code.Plain) : Owes f mine ops { s with code := code } :=
  h.goto (hafter.locked.trans hlocked.symm) (hafter.begun.trans hbegun.symm) hafter.alive

/-- Every step keeps the account when no killed process finds the console empty. -/
theorem Owes.step (h : Owes f mine ops s) (hcond : NotKilledWaiting s m)
    (hstep : step f s m = some t) : Owes f mine ops t := by
  obtain ⟨code, held, n⟩ := s
  cases code with
  | call c =>
    obtain ⟨code, hstart, rfl⟩ := map_eq_some_iff.mp hstep
    exact h.plain rfl rfl (start_plain hstart)
  | readLock n => exact h.lock hstep rfl rfl rfl
  | readBody n => exact h.after hstep (keeps_readi _ _ _) (fun _ => rfl) (fun _ => rfl) fun _ => nofun
  | readUnlock r => exact h.unlock hstep rfl rfl rfl nofun
  | consoleread target n =>
    obtain rfl := some.inj hstep
    exact h.plain rfl rfl (consoleTurn_plain fun hkilled => hcond ⟨target, n, rfl, hkilled⟩)
  | consoleKilled => exact absurd rfl h.alive
  | piperead n =>
    obtain rfl := some.inj hstep
    exact h.plain rfl rfl (pipereadTurn_plain m n)
  | pipewrite i n =>
    obtain rfl := some.inj hstep
    exact h.plain rfl rfl (pipewriteTurn_plain m i n)
  | writeLoop addr i n =>
    simp only [FileLocks.step] at hstep
    split_ifs at hstep
    · obtain rfl := some.inj hstep
      exact h.beginOp rfl rfl
    · obtain rfl := some.inj hstep
      exact h.plain rfl rfl ⟨rfl, rfl, nofun⟩
  | writeLock addr i n n1 => exact h.lock hstep rfl rfl rfl
  | writeBody addr i n n1 =>
    exact h.after hstep (keeps_writei _ _ _ _) (fun _ => rfl) (fun _ => rfl) fun _ => nofun
  | writeUnlock addr i n n1 r => exact h.unlock hstep rfl rfl rfl nofun
  | writeEnd addr i n n1 r =>
    simp only [FileLocks.step] at hstep
    split_ifs at hstep
    · exact h.endOp hstep rfl rfl nofun
    · exact h.endOp hstep rfl rfl nofun
  | statLock => exact h.lock hstep rfl rfl rfl
  | statUnlock => exact h.unlock hstep rfl rfl rfl nofun
  | closeBegin =>
    obtain rfl := some.inj hstep
    exact h.beginOp rfl rfl
  | closeBody => exact h.after hstep (keeps_iput _) (fun _ => rfl) (fun _ => rfl) fun _ => nofun
  | closeEnd => exact h.endOp hstep rfl rfl nofun
  | returned r => exact absurd hstep nofun

/-! ### The lock that is not given back -/

/-- A killed process has left the loop of `consoleread`: it waits for the lock of the inode, or it has
returned with it. -/
def Leaks (f : OpenFile) (mine : Fin ninode → Bool) (s : Caller) : Prop :=
  (s.code = .consoleKilled ∧ s.mine = mine) ∨
    (s.code = .returned (-1) ∧ mine f.ip = false ∧ s.mine f.ip = true)

/-- A killed process that finds the console empty takes the way out. -/
theorem Owes.leaks (h : Owes f mine ops s) (hcond : ¬ NotKilledWaiting s m)
    (hstep : FileLocks.step f s m = some t) : Leaks f mine t := by
  obtain ⟨target, n, hcode, hkilled⟩ := not_not.mp hcond
  have hmine := h.locks
  rw [hcode] at hmine
  unfold FileLocks.step at hstep
  rw [hcode] at hstep
  obtain rfl := some.inj hstep
  exact .inl ⟨consoleTurn_killed hkilled, hmine⟩

/-- The way out ends with the lock of the inode. -/
theorem Leaks.step (h : Leaks f mine s) (hstep : FileLocks.step f s m = some t) : Leaks f mine t := by
  obtain ⟨hcode, hmine⟩ | ⟨hcode, -⟩ := h
  · unfold FileLocks.step at hstep
    rw [hcode] at hstep
    obtain rfl | ⟨hfree, rfl⟩ := Caller.lock_cases hstep
    · exact .inl ⟨hcode, hmine⟩
    · rw [hmine] at hfree
      exact .inr ⟨rfl, hfree, update_self _ _ _⟩
  · unfold FileLocks.step at hstep
    rw [hcode] at hstep
    exact absurd hstep nofun

/-- A call that has returned. -/
theorem owes_returned_iff {ms : List Moment} (h : Owes f mine ops s)
    (hrun : Transition.run (step f) s ms = some t) {r : ℤ} (hret : t.code = .returned r) :
    (t.mine = mine ∧ t.ops = ops) ↔ Transition.Along (step f) NotKilledWaiting s ms := by
  induction ms generalizing s with
  | nil =>
    obtain rfl : s = t := some.inj hrun
    have hlocks := h.locks
    have hops := h.ops
    rw [hret] at hlocks hops
    exact iff_of_true ⟨hlocks, hops⟩ trivial
  | cons m ms ih =>
    obtain ⟨u, hstep, hrest⟩ := Transition.run_cons_eq_some.mp hrun
    by_cases hcond : NotKilledWaiting s m
    · rw [ih (h.step hcond hstep) hrest]
      constructor
      · intro halong
        refine ⟨hcond, ?_⟩
        intro v hv
        rw [hstep, Option.some.injEq] at hv
        rwa [← hv]
      · intro halong
        exact halong.2 u hstep
    · refine iff_of_false ?_ fun halong => hcond halong.1
      rintro ⟨hmine, -⟩
      have hleaks : Leaks f mine t :=
        Transition.invariant_run (fun hl hs => Leaks.step hl hs) (h.leaks hcond hstep) hrest
      obtain ⟨hcode, -⟩ | ⟨-, hfree, hheld⟩ := hleaks
      · rw [hret] at hcode
        exact absurd hcode nofun
      · rw [hmine, hfree] at hheld
        exact absurd hheld nofun

/-- **Calls on files give back what they take.** A call of `fileread`, `filewrite`, `filestat` or
`fileclose` on any file, by a process with any locks, whatever it finds at each step, returns with the
inode locks and in the log operations that the process had before, exactly when `consoleread`
does not find the input buffer empty while the process is killed. -/
theorem file_calls_balanced_iff (c : FileCall) {ms : List Moment}
    (hrun : Transition.run (step f) ⟨.call c, mine, ops⟩ ms = some t) {r : ℤ}
    (hret : t.code = .returned r) : (t.mine = mine ∧ t.ops = ops) ↔
      Transition.Along (step f) NotKilledWaiting ⟨.call c, mine, ops⟩ ms :=
  owes_returned_iff ⟨rfl, nofun, rfl, nofun⟩ hrun hret

/-- A file on the console. -/
def consoleFile : OpenFile := ⟨.inode, true, true, 0⟩

/-- The console with or without a line to read, with its inode in the cache. -/
def consoleMoment (w : BitVec 32) (killed : Bool) : Moment where
  fs := ⟨fun _ _ => 0, [], fun _ => ⟨2, 1, false, true, { Dinode.zero with type := tDev, major := 1 }⟩⟩
  committing := false
  logged := 0
  outstanding := 0
  ref := 1
  off := 0
  killed := killed
  buf := fun _ => Console.newline
  r := 0
  w := w
  nread := 0
  nwrite := 0
  readopen := true
  writeopen := true

/-- A process reads a line that comes while it waits, and gives back what it took. -/
theorem console_line_balanced : ∃ t, Transition.run (step consoleFile)
      ⟨.call (.fileread 1), fun _ => false, 0⟩
      [consoleMoment 0 false, consoleMoment 0 false, consoleMoment 1 false] = some t ∧
    t.mine = (fun _ => false) ∧ t.ops = 0 := by
  have hrun : Transition.run (step consoleFile) ⟨.call (.fileread 1), fun _ => false, 0⟩
      [consoleMoment 0 false, consoleMoment 0 false, consoleMoment 1 false] =
      some ⟨.returned 1, fun _ => false, 0⟩ := rfl
  refine ⟨_, hrun, (file_calls_balanced_iff (.fileread 1) hrun rfl).mpr ?_⟩
  refine Transition.along_of_forall ?_ _
  rintro m hm s ⟨-, -, -, -, -, hkilled⟩
  simp only [List.mem_cons, List.not_mem_nil, or_false] at hm
  obtain rfl | rfl | rfl := hm <;> exact absurd hkilled nofun

/-- A process that is killed while it waits for a line returns with the inode of the console locked. -/
theorem killed_console_reader_keeps_lock : ∃ t, Transition.run (step consoleFile)
      ⟨.call (.fileread 1), fun _ => false, 0⟩
      [consoleMoment 0 false, consoleMoment 0 false, consoleMoment 0 true, consoleMoment 0 true] =
        some t ∧ t.code = .returned (-1) ∧ t.mine 0 = true :=
  ⟨_, rfl, rfl, rfl⟩

end Xv6Draw.FileLocks
