import Xv6Draw.Fs.ByteArray

/-!
# Writers that share a file

Processes that have inherited a descriptor write through one `struct file`. `filewrite`
cuts a call into sections between `begin_op` and `end_op` and releases the inode between
them, so sections of several calls may run in any order. Each section reads the offset,
writes and advances the offset while it has the inode locked. So the sections lie one
behind the other in the file, in the order in which they ran.
-/

namespace Xv6Draw.Fs

open Function Hoare List Option Transition

/-- A call of `filewrite`, with its local variable `i`. -/
structure WriteCall where
  /-- The bytes. -/
  addr : ℕ → BitVec 8
  n : ℕ
  /-- The bytes that have been written. -/
  i : ℕ

/-- The number of bytes of the next section of a call. -/
def WriteCall.n1 (c : WriteCall) : ℕ := min (c.n - c.i) maxChunk

/-- The bytes of the next section of a call. -/
def WriteCall.chunk (c : WriteCall) : List (BitVec 8) :=
  (range c.n1).map fun j => c.addr (c.i + j)

/-- The call behind its next section. -/
def WriteCall.next (c : WriteCall) : WriteCall := { c with i := c.i + c.n1 }

/-- What `filewrite` returns behind its loop. -/
def WriteCall.result (c : WriteCall) : ℤ := if c.i = c.n then c.n else -1

/-- A process that writes to the file. -/
structure Writer where
  /-- The call that it is in. -/
  code : Option WriteCall
  /-- The calls that have returned. -/
  returned : List WriteCall

/-- The calls that a process has made. -/
def Writer.calls (w : Writer) : List WriteCall := w.returned ++ w.code.toList

/-- A section that has run. -/
structure WriteSection (ι : Type) where
  proc : ι
  /-- The number of the call among the calls of the process. -/
  call : ℕ
  /-- The offset at which it wrote. -/
  start : ℕ
  bytes : List (BitVec 8)

/-- The system with the processes that write to the file, and the sections that have written, in
the order in which they ran. -/
structure Shared (ι : Type) where
  sys : Sys
  writer : ι → Writer
  /-- The sections. -/
  log : List (WriteSection ι)

/-- No process has written to the file yet. -/
def Shared.start (ι : Type) (y : Sys) : Shared ι := ⟨y, fun _ => ⟨none, []⟩, []⟩

/-- The steps of the processes. -/
inductive WriteEvent (ι : Type) where
  /-- A process calls `filewrite`. -/
  | write (p : ι) (addr : ℕ → BitVec 8) (n : ℕ)
  /-- A process runs the next section of its call, or returns from it. -/
  | chunk (p : ι)

section
variable {ι : Type} [DecidableEq ι]

/-- The process returns from its call. -/
def Shared.leave (s : Shared ι) (p : ι) (c : WriteCall) : Shared ι :=
  { s with writer := update s.writer p ⟨none, (s.writer p).returned ++ [c]⟩ }

/-- A section of a call has written its bytes. -/
def Shared.wrote (s : Shared ι) (p : ι) (c : WriteCall) (y : Sys) (off : ℕ) : Shared ι where
  sys := y
  writer := update s.writer p { s.writer p with code := some c.next }
  log := s.log ++ [⟨p, (s.writer p).returned.length, off, c.chunk⟩]

/-- A round of the loop of `filewrite`. -/
def writeRound (f : Fin nfile) (s : Shared ι) (p : ι) (c : WriteCall) : Option (Shared ι) :=
  if c.i < c.n then
    match writeChunk f (s.sys.ftable f).ip (fun j => c.addr (c.i + j)) c.n1 s.sys with
    | .error _ => none
    | .ok (r, y) =>
      if r < 0 then some ({ s with sys := y }.leave p c)
      else if r ≠ c.n1 then none
      else some (s.wrote p c y (s.sys.ftable f).off)
  else some (s.leave p c)

/-- The steps of processes that share a file. A call gets to the loop when the file may be written
and is no device. -/
def writeStep (f : Fin nfile) (s : Shared ι) : WriteEvent ι → Option (Shared ι)
  | .write p addr n =>
    match (s.writer p).code with
    | some _ => none
    | none =>
      if n < 2 ^ 31 ∧ (s.sys.ftable f).writable = true ∧ (s.sys.ftable f).type = .inode ∧
          (s.sys.fs.icache (s.sys.ftable f).ip).d.type ≠ tDev then
        some { s with writer := update s.writer p { s.writer p with code := some ⟨addr, n, 0⟩ } }
      else none
  | .chunk p => (s.writer p).code.bind (writeRound f s p)

end

/-! ### A section on the contents of the file -/

/-- A list of bytes in which the bytes from an offset on are replaced. -/
def splice (c : List (BitVec 8)) (off : ℕ) (bytes : List (BitVec 8)) : List (BitVec 8) :=
  c.take off ++ bytes ++ c.drop (off + bytes.length)

/-- A file that is open on an inode with known contents. -/
structure FileOn (y : Sys) (f : Fin nfile) (i : ℕ) (c : List (BitVec 8)) : Prop where
  owned : BlocksOwned y.fs
  held : Held y.fs (y.ftable f).ip i
  contents : contents y.fs i = some c
  off : (y.ftable f).off < 2 ^ 32

section
variable {s s' : State} {g g' : Ghost} {k : Fin ninode} {i : ℕ} {E : Panic → Prop}

/-- The lock of an entry does not matter to what is stored. -/
theorem Store.setLocked (h : Store s g) (hk : Held s k i) (b : Bool) :
    Store (s.setEntry k { s.icache k with locked := b }) g ∧
      Held (s.setEntry k { s.icache k with locked := b }) k i := by
  have hheld : ∀ j l, Held (s.setEntry k { s.icache k with locked := b }) j l ↔ Held s j l := by
    intro j l
    by_cases hj : j = k
    · subst j
      constructor <;> rintro ⟨href, hinum, hvalid⟩ <;>
        exact ⟨by simpa using href, by simpa using hinum, by simpa using hvalid⟩
    · constructor <;> rintro ⟨href, hinum, hvalid⟩ <;>
        exact ⟨by simpa [hj] using href, by simpa [hj] using hinum, by simpa [hj] using hvalid⟩
  refine ⟨⟨h.owned, ?_, ?_⟩, (hheld k i).mpr hk⟩
  · intro j hj hnone
    exact h.uncached j hj fun l hl => hnone l ((hheld l j).mpr hl)
  · exact h.cache.set_same hk.ref rfl (h.cache.copy k) (h.cache.live k)

theorem Store.setLogged (h : Store s g) (l : List ℕ) : Store { s with logged := l } g := by
  refine ⟨h.owned, ?_, h.cache⟩
  intro j hj hnone
  exact h.uncached j hj fun k hk => hnone k ⟨hk.ref, hk.inum, hk.valid⟩

theorem wp_ilock_held (hE : ∀ e, E e) (hk : Held s k i) {Q : Unit → State → Prop}
    (hQ : Q () (s.setEntry k { s.icache k with locked := true })) : wp (ilock k) E Q s := by
  unfold ilock
  refine wp_bind (wp_get (wp_ite (fun _ => wp_throw (hE _)) fun _ => ?_))
  refine wp_ite (fun _ => wp_throw (hE _)) fun _ => ?_
  rw [if_pos hk.valid]
  exact wp_setInode hQ

theorem wp_iunlock_any (hE : ∀ e, E e) {Q : Unit → State → Prop}
    (hQ : Q () (s.setEntry k { s.icache k with locked := false })) : wp (iunlock k) E Q s := by
  unfold iunlock
  exact wp_bind (wp_get (wp_ite (fun _ => wp_throw (hE _)) fun _ => wp_setInode hQ))

end

/-- The offset moves on by the bytes that were written. -/
theorem wp_advance_nat {E : Panic → Prop} {y : Sys} {f : Fin nfile} {n : ℕ} {Q : Unit → Sys → Prop}
    (hoff : (y.ftable f).off + n < 2 ^ 32)
    (hQ : Q () { y with
      ftable := update y.ftable f { y.ftable f with off := (y.ftable f).off + n } }) :
    wp (advance f (n : ℤ)) E Q y := by
  unfold advance
  refine wp_ite (fun _ => wp_setFile ?_) fun hzero => wp_pure ?_
  · rw [Int.toNat_natCast, Nat.mod_eq_of_lt hoff]
    exact hQ
  · obtain rfl : n = 0 := by omega
    rw [Nat.add_zero, update_eq_self] at hQ
    exact hQ

/-- What a section leaves: it writes all its bytes at the offset and moves the offset behind them,
or it does not fit and changes nothing. -/
structure Chunked (f : Fin nfile) (i : ℕ) (c bytes : List (BitVec 8)) (y : Sys) (r : ℤ) (y' : Sys) :
    Prop where
  /-- The file is open on the same inode, and may be written as before. -/
  file : (y'.ftable f).ip = (y.ftable f).ip
  fits : (y.ftable f).off ≤ c.length ∧ (y.ftable f).off + bytes.length ≤ maxfile * bsize →
    r = bytes.length ∧ (y'.ftable f).off = (y.ftable f).off + bytes.length ∧
      FileOn y' f i (splice c (y.ftable f).off bytes)
  refused : ¬ ((y.ftable f).off ≤ c.length ∧ (y.ftable f).off + bytes.length ≤ maxfile * bsize) →
    r = -1 ∧ (y'.ftable f).off = (y.ftable f).off ∧ FileOn y' f i c

/-- A section of `filewrite` on the contents of the file. -/
theorem FileOn.wp_writeChunk {y : Sys} {f : Fin nfile} {i : ℕ} {c : List (BitVec 8)}
    (h : FileOn y f i c) (src : ℕ → BitVec 8) {n : ℕ} (hn : n < 2 ^ 31) :
    wp (writeChunk f (y.ftable f).ip src n) (fun _ => True)
      (Chunked f i c ((range n).map src) y) y := by
  obtain ⟨g, hstore⟩ := h.owned.store
  obtain ⟨hi, -, -⟩ := h.held.facts hstore.cache
  obtain ⟨-, hbytes⟩ := hstore.contents_eq_some hi h.contents
  have hlength : c.length = (g.ino i).size.toNat := by
    rw [hbytes, length_map, length_range]
  have hfits : Fits (g.ino i) (y.ftable f).off n ↔
      (y.ftable f).off ≤ c.length ∧ (y.ftable f).off + n ≤ maxfile * bsize := by
    rw [hlength]
    unfold Fits maxfile bsize
    omega
  have hlogged : Held { y.fs with logged := [] } (y.ftable f).ip i :=
    ⟨h.held.ref, h.held.inum, h.held.valid⟩
  obtain ⟨hlocked, hheld⟩ := (hstore.setLogged []).setLocked hlogged true
  unfold writeChunk
  refine wp_bind (wp_beginOp (wp_bind (wp_onFs (wp_ilock_held (fun _ => trivial) hlogged ?_))))
  refine wp_bind (wp_get (wp_bind (wp_onFs (wp_mono
    (hlocked.wp_writei hheld h.off (by omega) (.inl trivial)) ?_))))
  intro r s' hpost
  rw [hfits] at hpost
  obtain ⟨hin, rfl, g', hwrote⟩ | ⟨hout, rfl, rfl⟩ := hpost
  · have hsum : (y.ftable f).off + n < 2 ^ 32 := by
      unfold maxfile bsize at hin
      omega
    have hc := hwrote.contents_eq hlocked hi ((hlocked.contents_eq hi).trans
      ((hstore.contents_eq hi).symm.trans h.contents)) hin.1 hin.2
    obtain ⟨hstore', hheld'⟩ :=
      hwrote.store.setLocked ((held_iff_of_copy hwrote.cache _ i).mpr hheld) false
    refine wp_bind (wp_advance_nat hsum (wp_bind (wp_onFs (wp_iunlock_any (fun _ => trivial) ?_))))
    refine wp_bind (wp_endOp (wp_pure ⟨by simp, fun _ => ?_, fun hnot => ?_⟩))
    · rw [splice, length_map, length_range]
      refine ⟨rfl, by simp, hstore'.blocksOwned, by simpa using hheld', ?_, by simpa using hsum⟩
      rw [hstore'.contents_eq hi]
      rw [hwrote.store.contents_eq hi] at hc
      exact hc
    · rw [length_map, length_range] at hnot
      exact absurd hin hnot
  · obtain ⟨hstore', hheld'⟩ := hlocked.setLocked hheld false
    unfold advance
    rw [if_neg (by decide)]
    refine wp_bind (wp_pure (wp_bind (wp_onFs (wp_iunlock_any (fun _ => trivial) ?_))))
    refine wp_bind (wp_endOp (wp_pure ⟨rfl, fun hin => ?_, fun _ => ?_⟩))
    · rw [length_map, length_range] at hin
      exact absurd hin hout
    · refine ⟨rfl, rfl, hstore'.blocksOwned, hheld', ?_, h.off⟩
      rw [hstore'.contents_eq hi]
      rw [← h.contents, hstore.contents_eq hi]
      rfl

/-! ### Sections one behind the other -/

section
variable {ι : Type}

/-- The bytes of sections, in their order. -/
def written (log : List (WriteSection ι)) : List (BitVec 8) := log.flatMap WriteSection.bytes

/-- Sections that lie one behind the other from an offset on. -/
def Contiguous : ℕ → List (WriteSection ι) → Prop
  | _, [] => True
  | off, x :: log => x.start = off ∧ Contiguous (off + x.bytes.length) log

variable {log : List (WriteSection ι)} {x : WriteSection ι} {off : ℕ}

theorem written_concat : written (log ++ [x]) = written log ++ x.bytes := by
  simp [written]

theorem contiguous_concat :
    Contiguous off (log ++ [x]) ↔ Contiguous off log ∧ x.start = off + (written log).length := by
  induction log generalizing off with
  | nil => simp [Contiguous, written]
  | cons z log ih =>
    have hlength : off + (written (z :: log)).length =
        off + z.bytes.length + (written log).length := by
      simp [written, Nat.add_assoc]
    rw [cons_append, Contiguous, ih, Contiguous, hlength, and_assoc]

theorem Contiguous.le_start (h : Contiguous off log) (hx : x ∈ log) : off ≤ x.start := by
  induction log generalizing off with
  | nil => exact absurd hx (not_mem_nil)
  | cons z log ih =>
    obtain ⟨hz, hlog⟩ := h
    obtain rfl | hx := mem_cons.mp hx
    · exact Nat.le_of_eq hz.symm
    · have hle := ih hlog hx
      omega

theorem Contiguous.pairwise (h : Contiguous off log) :
    log.Pairwise fun x x' => x.start + x.bytes.length ≤ x'.start := by
  induction log generalizing off with
  | nil => exact List.Pairwise.nil
  | cons z log ih =>
    obtain ⟨hz, hlog⟩ := h
    refine List.Pairwise.cons ?_ (ih hlog)
    intro x' hx'
    rw [hz]
    exact hlog.le_start hx'

/-- The range of a section holds its bytes. -/
theorem Contiguous.range_eq (h : Contiguous off log) {before after : List (BitVec 8)}
    (hbefore : before.length = off) (hx : x ∈ log) :
    ((before ++ written log ++ after).drop x.start).take x.bytes.length = x.bytes := by
  induction log generalizing off before with
  | nil => exact absurd hx (not_mem_nil)
  | cons z log ih =>
    obtain ⟨hz, hlog⟩ := h
    have hsplit : before ++ written (z :: log) ++ after =
        before ++ z.bytes ++ written log ++ after := by
      simp [written]
    rw [hsplit]
    obtain rfl | hx := mem_cons.mp hx
    · rw [hz, ← hbefore, append_assoc, append_assoc, drop_left, take_left]
    · exact ih hlog (by simp [hbefore]) hx

theorem splice_nil (c : List (BitVec 8)) (off : ℕ) : splice c off [] = c := by
  simp [splice]

/-- A range is replaced and then the range behind it. -/
theorem splice_splice {c w b : List (BitVec 8)} (hoff : off ≤ c.length) :
    splice (splice c off w) (off + w.length) b = splice c off (w ++ b) := by
  have hlength : (c.take off ++ w).length = off + w.length := by
    simp [Nat.min_eq_left hoff]
  unfold splice
  rw [take_left' hlength, ← drop_drop, drop_left' hlength, drop_drop, length_append]
  simp only [append_assoc, Nat.add_assoc]

end

/-! ### The invariant -/

section
variable {ι : Type} [DecidableEq ι]

/-- The sections of a call. -/
def sectionsOf (log : List (WriteSection ι)) (p : ι) (m : ℕ) : List (WriteSection ι) :=
  log.filter fun x => x.proc = p ∧ x.call = m

/-- The sections of a call have written the first part of its bytes. -/
structure CallOk (log : List (WriteSection ι)) (p : ι) (m : ℕ) (c : WriteCall) : Prop where
  bound : c.n < 2 ^ 31
  /-- No more is written than was asked for. -/
  le : c.i ≤ c.n
  bytes : written (sectionsOf log p m) = (range c.i).map c.addr
  none : c.i = 0 → sectionsOf log p m = []
  /-- A call of at most one chunk is one section. -/
  single : c.n ≤ maxChunk → c.i ≠ 0 → c.i = c.n ∧ (sectionsOf log p m).length = 1

/-- The sections of a process are those of its calls. -/
structure WriterOk (log : List (WriteSection ι)) (p : ι) (w : Writer) : Prop where
  calls : ∀ m c, w.calls[m]? = some c → CallOk log p m c
  fresh : ∀ m, w.calls.length ≤ m → sectionsOf log p m = []

/-- The file has the bytes of the sections from the first offset on. -/
structure SharedInv (f : Fin nfile) (i : ℕ) (c₀ : List (BitVec 8)) (off₀ : ℕ) (s : Shared ι) :
    Prop where
  file : FileOn s.sys f i (splice c₀ off₀ (written s.log))
  off : (s.sys.ftable f).off = off₀ + (written s.log).length
  /-- Nothing is written behind a gap. -/
  gap : written s.log ≠ [] → off₀ ≤ c₀.length
  contiguous : Contiguous off₀ s.log
  writers : ∀ p, WriterOk s.log p (s.writer p)

variable {f : Fin nfile} {i off₀ : ℕ} {c₀ : List (BitVec 8)} {s t : Shared ι} {p : ι}
  {log : List (WriteSection ι)} {c : WriteCall} {w : Writer}

theorem WriteCall.n1_pos (h : c.i < c.n) : 0 < c.n1 := by
  unfold n1 maxChunk Log.logSize
  omega

theorem WriteCall.n1_le : c.n1 ≤ c.n - c.i := Nat.min_le_left _ _

@[simp] theorem WriteCall.length_chunk : c.chunk.length = c.n1 := by
  simp [chunk]

theorem WriteCall.range_next :
    (range c.next.i).map c.next.addr = (range c.i).map c.addr ++ c.chunk := by
  unfold next chunk
  rw [range_add, map_append, List.map_map]
  rfl

/-- The sections of a call when another section has run. -/
theorem sectionsOf_concat (x : WriteSection ι) (q : ι) (m : ℕ) : sectionsOf (log ++ [x]) q m =
      sectionsOf log q m ++ if x.proc = q ∧ x.call = m then [x] else [] := by
  unfold sectionsOf
  rw [filter_append]
  split_ifs with hx <;> simp [hx]

/-- A call behind its next section. -/
theorem CallOk.next {m off : ℕ} (h : CallOk log p m c) (hlt : c.i < c.n) :
    CallOk (log ++ [⟨p, m, off, c.chunk⟩]) p m c.next := by
  have hpos := WriteCall.n1_pos hlt
  have hle := WriteCall.n1_le (c := c)
  have hsections : sectionsOf (log ++ [⟨p, m, off, c.chunk⟩]) p m =
      sectionsOf log p m ++ [⟨p, m, off, c.chunk⟩] := by
    rw [sectionsOf_concat, if_pos ⟨rfl, rfl⟩]
  have hi : c.next.i = c.i + c.n1 := rfl
  refine ⟨h.bound, ?_, ?_, ?_, ?_⟩
  · change c.i + c.n1 ≤ c.n
    omega
  · rw [hsections, written_concat, h.bytes, WriteCall.range_next]
  · omega
  · intro hsmall _
    change c.n ≤ maxChunk at hsmall
    -- the call had not written anything, and writes all of it now
    have hzero : c.i = 0 := by
      by_contra hne
      have hdone := (h.single hsmall hne).1
      omega
    rw [hsections, h.none hzero]
    refine ⟨?_, rfl⟩
    change c.i + c.n1 = c.n
    unfold WriteCall.n1
    omega

theorem CallOk.concat {m : ℕ} {x : WriteSection ι} (h : CallOk log p m c)
    (hx : ¬ (x.proc = p ∧ x.call = m)) : CallOk (log ++ [x]) p m c := by
  have hsections : sectionsOf (log ++ [x]) p m = sectionsOf log p m := by
    rw [sectionsOf_concat, if_neg hx, append_nil]
  refine ⟨h.bound, h.le, ?_, ?_, ?_⟩
  · rw [hsections]
    exact h.bytes
  · rw [hsections]
    exact h.none
  · rw [hsections]
    exact h.single

theorem WriterOk.concat {x : WriteSection ι} (h : WriterOk log p w) (hx : x.proc ≠ p) :
    WriterOk (log ++ [x]) p w := by
  refine ⟨?_, ?_⟩
  · intro m c hc
    exact (h.calls m c hc).concat fun hboth => hx hboth.1
  · intro m hm
    rw [sectionsOf_concat, if_neg fun hboth => hx hboth.1, append_nil]
    exact h.fresh m hm

/-- A process calls `filewrite`. -/
theorem WriterOk.call (h : WriterOk log p w) (hcode : w.code = none) {addr : ℕ → BitVec 8} {n : ℕ}
    (hn : n < 2 ^ 31) : WriterOk log p { w with code := some ⟨addr, n, 0⟩ } := by
  have hcalls : w.calls = w.returned := by
    simp [Writer.calls, hcode]
  have hcalls' : Writer.calls { w with code := some ⟨addr, n, 0⟩ } = w.returned ++ [⟨addr, n, 0⟩] :=
    rfl
  obtain ⟨hok, hfresh⟩ := h
  rw [hcalls] at hok hfresh
  refine ⟨?_, ?_⟩
  · intro m c hc
    rw [hcalls', List.getElem?_append] at hc
    split_ifs at hc with hm
    · exact hok m c hc
    · have hnone := hfresh m (by omega)
      rw [List.getElem?_singleton] at hc
      split_ifs at hc with hlast
      obtain rfl := some.inj hc
      exact ⟨hn, Nat.zero_le n, by simp [hnone, written], fun _ => hnone, fun _ hne => absurd rfl hne⟩
  · intro m hm
    rw [hcalls', length_append, length_singleton] at hm
    exact hfresh m (by omega)

theorem WriterOk.leave (h : WriterOk log p w) (hcode : w.code = some c) :
    WriterOk log p ⟨none, w.returned ++ [c]⟩ := by
  have hcalls : Writer.calls ⟨none, w.returned ++ [c]⟩ = w.calls := by
    simp [Writer.calls, hcode]
  obtain ⟨hok, hfresh⟩ := h
  rw [← hcalls] at hok hfresh
  exact ⟨hok, hfresh⟩

/-- A section of a process has written. -/
theorem WriterOk.wrote (h : WriterOk log p w) (hcode : w.code = some c) (hlt : c.i < c.n) {off : ℕ} :
    WriterOk (log ++ [⟨p, w.returned.length, off, c.chunk⟩]) p { w with code := some c.next } := by
  have hcalls : w.calls = w.returned ++ [c] := by
    simp [Writer.calls, hcode]
  have hcalls' : Writer.calls { w with code := some c.next } = w.returned ++ [c.next] := rfl
  obtain ⟨hok, hfresh⟩ := h
  rw [hcalls] at hok hfresh
  refine ⟨?_, ?_⟩
  · intro m d hd
    rw [hcalls', List.getElem?_append] at hd
    split_ifs at hd with hm
    · -- an earlier call
      have hd' : (w.returned ++ [c])[m]? = some d := by
        rwa [List.getElem?_append_left hm]
      exact (hok m d hd').concat fun hboth => by
        have := hboth.2
        simp only at this
        omega
    · rw [List.getElem?_singleton] at hd
      split_ifs at hd with hlast
      obtain rfl := some.inj hd
      obtain rfl : m = w.returned.length := by omega
      exact (hok _ c (by simp)).next hlt
  · intro m hm
    rw [hcalls', length_append, length_singleton] at hm
    rw [sectionsOf_concat, if_neg, append_nil]
    · exact hfresh m (by simpa using hm)
    · rintro ⟨-, hcall⟩
      simp only at hcall
      omega

/-- What a round of the loop does. -/
theorem writeRound_cases (h : FileOn s.sys f i c₀) (hbound : c.n < 2 ^ 31)
    (hstep : writeRound f s p c = some t) : (¬ c.i < c.n ∧ t = s.leave p c) ∨
      (c.i < c.n ∧ ∃ r y, Chunked f i c₀ c.chunk s.sys r y ∧
        ((r < 0 ∧ t = { s with sys := y }.leave p c) ∨
          (r = c.n1 ∧ t = s.wrote p c y (s.sys.ftable f).off))) := by
  unfold writeRound at hstep
  split_ifs at hstep with hlt
  · right
    refine ⟨hlt, ?_⟩
    have hn1 : c.n1 < 2 ^ 31 := by
      have hle := WriteCall.n1_le (c := c)
      omega
    have hwp := h.wp_writeChunk (fun j => c.addr (c.i + j)) hn1
    cases hchunk : writeChunk f (s.sys.ftable f).ip (fun j => c.addr (c.i + j)) c.n1 s.sys with
    | error e =>
      rw [hchunk] at hstep
      exact absurd hstep nofun
    | ok a =>
      obtain ⟨r, y⟩ := a
      rw [hchunk] at hstep
      simp only at hstep
      refine ⟨r, y, wp_ok hwp hchunk, ?_⟩
      split_ifs at hstep with hneg hshort
      · exact .inl ⟨hneg, (some.inj hstep).symm⟩
      · exact .inr ⟨not_not.mp hshort, (some.inj hstep).symm⟩
  · exact .inl ⟨hlt, (some.inj hstep).symm⟩

/-- A section keeps the invariant. -/
theorem SharedInv.wrote (h : SharedInv f i c₀ off₀ s) (hcode : (s.writer p).code = some c)
    (hlt : c.i < c.n) {r : ℤ} {y : Sys} (hr : r = c.n1)
    (hchunk : Chunked f i (splice c₀ off₀ (written s.log)) c.chunk s.sys r y) :
    SharedInv f i c₀ off₀ (s.wrote p c y (s.sys.ftable f).off) := by
  obtain ⟨-, hfits, hrefused⟩ := hchunk
  have hin : (s.sys.ftable f).off ≤ (splice c₀ off₀ (written s.log)).length ∧
      (s.sys.ftable f).off + c.chunk.length ≤ maxfile * bsize := by
    by_contra hout
    omega
  obtain ⟨-, hoff', hfile'⟩ := hfits hin
  -- the first section writes behind the offset only when that is in the file
  have hgap : off₀ ≤ c₀.length := by
    by_cases hempty : written s.log = []
    · have hle := hin.1
      rw [h.off, hempty, splice_nil] at hle
      exact hle
    · exact h.gap hempty
  have hlog : written (s.wrote p c y (s.sys.ftable f).off).log = written s.log ++ c.chunk :=
    written_concat
  refine ⟨?_, ?_, fun _ => hgap, ?_, ?_⟩
  · rw [h.off, splice_splice hgap] at hfile'
    rw [hlog]
    exact hfile'
  · rw [hlog, length_append, ← Nat.add_assoc, ← h.off]
    exact hoff'
  · exact contiguous_concat.mpr ⟨h.contiguous, h.off⟩
  · exact (forall_update_iff _ (WriterOk (s.log ++ [_]))).mpr
      ⟨(h.writers p).wrote hcode hlt, fun q hq => (h.writers q).concat hq.symm⟩

/-- A process that returns keeps the invariant. -/
theorem SharedInv.leave (h : SharedInv f i c₀ off₀ s) (hcode : (s.writer p).code = some c) :
    SharedInv f i c₀ off₀ (s.leave p c) := by
  refine ⟨h.file, h.off, h.gap, h.contiguous, ?_⟩
  exact (forall_update_iff _ (WriterOk s.log)).mpr ⟨(h.writers p).leave hcode, fun q _ => h.writers q⟩

/-- A section that does not fit keeps the invariant. -/
theorem SharedInv.refused (h : SharedInv f i c₀ off₀ s) {r : ℤ} {y : Sys} (hr : r < 0)
    {bytes : List (BitVec 8)} (hchunk : Chunked f i (splice c₀ off₀ (written s.log)) bytes s.sys r y) :
    SharedInv f i c₀ off₀ { s with sys := y } := by
  obtain ⟨-, hfits, hrefused⟩ := hchunk
  obtain ⟨-, hoff', hfile'⟩ := hrefused fun hin => by
    omega
  exact ⟨hfile', hoff'.trans h.off, h.gap, h.contiguous, h.writers⟩

/-- A process starts a call. -/
theorem writeStep_write {addr : ℕ → BitVec 8} {n : ℕ} (hstep : writeStep f s (.write p addr n) = some t) :
    (s.writer p).code = none ∧ n < 2 ^ 31 ∧
      t = { s with writer := update s.writer p { s.writer p with code := some ⟨addr, n, 0⟩ } } := by
  rw [writeStep] at hstep
  split at hstep
  · exact nomatch hstep
  · next hcode =>
    split_ifs at hstep with hok
    exact ⟨hcode, hok.1, (some.inj hstep).symm⟩

theorem SharedInv.step (h : SharedInv f i c₀ off₀ s) {e : WriteEvent ι}
    (hstep : writeStep f s e = some t) : SharedInv f i c₀ off₀ t := by
  cases e with
  | write p addr n =>
    obtain ⟨hcode, hn, rfl⟩ := writeStep_write hstep
    refine ⟨h.file, h.off, h.gap, h.contiguous, ?_⟩
    exact (forall_update_iff _ (WriterOk s.log)).mpr ⟨(h.writers p).call hcode hn, fun q _ => h.writers q⟩
  | chunk p =>
    obtain ⟨c, hcode, hround⟩ := bind_eq_some_iff.mp hstep
    have hbound := ((h.writers p).calls (s.writer p).returned.length c (by
      simp [Writer.calls, hcode])).bound
    obtain ⟨-, rfl⟩ | ⟨hlt, r, y, hchunk, ⟨hr, rfl⟩ | ⟨hr, rfl⟩⟩ :=
      writeRound_cases h.file hbound hround
    · exact h.leave hcode
    · exact (h.refused hr hchunk).leave hcode
    · exact h.wrote hcode hlt hr hchunk

theorem SharedInv.start {y : Sys} (h : FileOn y f i c₀) :
    SharedInv f i c₀ (y.ftable f).off (Shared.start ι y) := by
  refine ⟨?_, rfl, fun hne => absurd rfl hne, trivial, ?_⟩
  · change FileOn y f i (splice c₀ (y.ftable f).off [])
    rwa [splice_nil]
  · intro p
    exact ⟨fun m c hc => absurd hc (by simp [Shared.start, Writer.calls]), fun _ _ => rfl⟩

/-! ### Writes within the largest file -/

/-- A section stays within the largest size of a file. -/
def WithinLimit (f : Fin nfile) (s : Shared ι) : WriteEvent ι → Prop
  | .write _ _ _ => True
  | .chunk p => ∀ c ∈ (s.writer p).code, c.i < c.n →
    (s.sys.ftable f).off + c.n1 ≤ maxfile * bsize

/-- All calls that have returned have written all their bytes. -/
def AllWritten (s : Shared ι) : Prop := ∀ p, ∀ c ∈ (s.writer p).returned, c.i = c.n

/-- A call that has written all its bytes returns. -/
theorem AllWritten.leave (h : AllWritten s) (hc : c.i = c.n) : AllWritten (s.leave p c) := by
  intro q d hd
  change d ∈ (update s.writer p _ q).returned at hd
  by_cases hq : q = p
  · subst q
    rw [update_self] at hd
    obtain hd | hd := mem_append.mp hd
    · exact h p d hd
    · rw [mem_singleton.mp hd]
      exact hc
  · rw [update_of_ne hq] at hd
    exact h q d hd

theorem AllWritten.update (h : AllWritten s) (hwriter : t.writer =
    update s.writer p { s.writer p with code := some c }) : AllWritten t := by
  intro q d hd
  rw [hwriter] at hd
  by_cases hq : q = p
  · subst q
    rw [update_self] at hd
    exact h p d hd
  · rw [update_of_ne hq] at hd
    exact h q d hd

/-- Every step within the limit writes what it is to write. -/
theorem AllWritten.step (h : AllWritten s) (hinv : SharedInv f i c₀ off₀ s) (hoff : off₀ ≤ c₀.length)
    {e : WriteEvent ι} (hlimit : WithinLimit f s e) (hstep : writeStep f s e = some t) :
    AllWritten t := by
  cases e with
  | write p addr n =>
    obtain ⟨-, -, rfl⟩ := writeStep_write hstep
    exact h.update rfl
  | chunk p =>
    obtain ⟨c, hcode, hround⟩ := bind_eq_some_iff.mp hstep
    have hcall := (hinv.writers p).calls (s.writer p).returned.length c (by
      simp [Writer.calls, hcode])
    obtain ⟨hge, rfl⟩ | ⟨hlt, r, y, hchunk, ⟨hr, rfl⟩ | ⟨-, rfl⟩⟩ :=
      writeRound_cases hinv.file hcall.bound hround
    · have hle := hcall.le
      exact h.leave (by omega)
    · -- a section within the limit is not refused
      have hin : (s.sys.ftable f).off ≤ (splice c₀ off₀ (written s.log)).length := by
        rw [hinv.off]
        simp only [splice, length_append, length_take]
        omega
      have hpos := (hchunk.fits ⟨hin, by simpa using hlimit c hcode hlt⟩).1
      omega
    · exact h.update rfl

/-- **Shared writers.** Processes write through one file, and their sections run in any order.
The offset has moved by the number of bytes that were written. The sections lie one behind the
other from the first offset on, in the order in which they ran: their ranges are
disjoint, each range holds the bytes of its section, and the rest of the file is as it was.
The sections of a call have written a first part of its bytes, all of them in a single section when
the call is of at most one chunk. When the sections stay within the largest size of a
file, every call that has returned has written all its bytes and returned their number. -/
theorem shared_writers {y : Sys} (h : FileOn y f i c₀) {es : List (WriteEvent ι)}
    (hrun : run (writeStep f) (Shared.start ι y) es = some s) :
    (s.sys.ftable f).off = (y.ftable f).off + (written s.log).length ∧
      Contiguous (y.ftable f).off s.log ∧
      s.log.Pairwise (fun x x' => x.start + x.bytes.length ≤ x'.start) ∧
      (∃ c, contents s.sys.fs i = some c ∧ c = splice c₀ (y.ftable f).off (written s.log) ∧
        ∀ x ∈ s.log, (c.drop x.start).take x.bytes.length = x.bytes) ∧
      (∀ x ∈ s.log, x.call < (s.writer x.proc).calls.length) ∧
      (∀ p m c, (s.writer p).calls[m]? = some c → c.i ≤ c.n ∧
        written (sectionsOf s.log p m) = (range c.i).map c.addr ∧
        (c.n ≤ maxChunk → c.i = 0 ∧ sectionsOf s.log p m = [] ∨
          c.i = c.n ∧ (sectionsOf s.log p m).length = 1)) ∧ ((y.ftable f).off ≤ c₀.length →
        Along (writeStep f) (WithinLimit f) (Shared.start ι y) es →
        ∀ p, ∀ c ∈ (s.writer p).returned, c.i = c.n ∧ c.result = c.n) := by
  have hinv : SharedInv f i c₀ (y.ftable f).off s :=
    invariant_run (fun hinv hstep => hinv.step hstep) (SharedInv.start h) hrun
  refine ⟨hinv.off, hinv.contiguous, hinv.contiguous.pairwise, ⟨_, hinv.file.contents, rfl, ?_⟩, ?_,
    ?_, ?_⟩
  · intro x hx
    by_cases hempty : written s.log = []
    · have hbytes : x.bytes = [] := by
        rw [written, flatMap_eq_nil_iff] at hempty
        exact hempty x hx
      rw [hbytes, length_nil, take_zero]
    · exact hinv.contiguous.range_eq (length_take_of_le (hinv.gap hempty)) hx
  · intro x hx
    by_contra hge
    have hnone := (hinv.writers x.proc).fresh x.call (by omega)
    have hmem : x ∈ sectionsOf s.log x.proc x.call := by
      simpa [sectionsOf] using hx
    rw [hnone] at hmem
    exact not_mem_nil hmem
  · intro p m c hc
    have hcall := (hinv.writers p).calls m c hc
    refine ⟨hcall.le, hcall.bytes, ?_⟩
    intro hsmall
    by_cases hzero : c.i = 0
    · exact .inl ⟨hzero, hcall.none hzero⟩
    · exact .inr (hcall.single hsmall hzero)
  · intro hoff halong p c hc
    have hall : SharedInv f i c₀ (y.ftable f).off s ∧ AllWritten s := by
      have hstart : AllWritten (Shared.start ι y) := fun _ _ hnone => absurd hnone not_mem_nil
      refine invariant_along (I := fun s => SharedInv f i c₀ (y.ftable f).off s ∧
        AllWritten s) ?_ ⟨SharedInv.start h, hstart⟩ halong hrun
      rintro s e t ⟨hinv, hall⟩ hlimit hstep
      exact ⟨hinv.step hstep, hall.step hinv hoff hlimit hstep⟩
    have hdone := hall.2 p c hc
    refine ⟨hdone, ?_⟩
    rw [WriteCall.result, if_pos hdone]

theorem newFileSys_fileOn : FileOn newFileSys 0 2 [] :=
  ⟨(newFileSys_openOn.rep.store nofun).blocksOwned, newFileSys_openOn.held, by decide +kernel,
    by decide⟩

/-- Two processes write two bytes and one byte to a new file, the second one first. -/
theorem shared_writers_two : ∃ s : Shared (Fin 2), run (writeStep 0) (Shared.start (Fin 2) newFileSys)
        [.write 0 (fun j => BitVec.ofNat 8 (65 + j)) 2, .write 1 (fun _ => 67) 1, .chunk 1, .chunk 0,
          .chunk 1, .chunk 0] = some s ∧
      contents s.sys.fs 2 = some [67, 65, 66] := by
  have hlog : (run (writeStep 0) (Shared.start (Fin 2) newFileSys)
      [.write 0 (fun j => BitVec.ofNat 8 (65 + j)) 2, .write 1 (fun _ => 67) 1, .chunk 1, .chunk 0,
        .chunk 1, .chunk 0]).map (fun s => written s.log) = some [67, 65, 66] := by decide +kernel
  obtain ⟨s, hrun, hs⟩ := map_eq_some_iff.mp hlog
  obtain ⟨-, -, -, ⟨c, hc, hsplice, -⟩, -⟩ := shared_writers newFileSys_fileOn hrun
  refine ⟨s, hrun, ?_⟩
  rw [hc, hsplice, hs]
  rfl

end

end Xv6Draw.Fs
