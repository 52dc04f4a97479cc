import Xv6Draw.Fs.Log
import Xv6Draw.Lib.LinkedList
import Xv6Draw.Lib.Tally

/-!
# The buffer cache

The buffers of `bio.c` with the list through their pointers. Any number of processes
take buffers with `bread` and give them back with `brelse`. A step is what runs under
`bcache.lock`, or the acquisition or release of the lock of a buffer, so that a process
may wait between the two parts of `bget`, and others may come between the release of
the lock and the count in `brelse`. A process releases only buffers that it has.

Beside the run it is noted when the count of a buffer has last dropped to zero. The
contents of the buffers are left out here.
-/

namespace Xv6Draw.Bcache

open Function LinkedList List Option Tally Transition
open Log (nbuf)

/-- `struct buf`, without the list and the contents. -/
structure Buf where
  valid : Bool
  dirty : Bool
  dev : BitVec 32
  blockno : BitVec 32
  locked : Bool
  refcnt : ℕ
  deriving DecidableEq

/-- Where a process is: outside, in `acquiresleep` of `bget`, or in `brelse` before the count. -/
inductive Code where
  | idle
  | acquire (k : Fin nbuf)
  | release (k : Fin nbuf)
  deriving DecidableEq

/-- A process with the buffers that it holds. -/
structure Thread where
  code : Code
  /-- The buffers that it has locked. -/
  holds : List (Fin nbuf)

/-- The cache and the processes. -/
structure State (ι : Type) where
  links : Links (Fin nbuf)
  buf : Fin nbuf → Buf
  thread : ι → Thread
  /-- How often a count has dropped to zero. -/
  clock : ℕ
  /-- When the count of a buffer has last dropped to zero, from one on, or zero. -/
  dropped : Fin nbuf → ℕ

/-- The loop of `binit`, on pointers that are not set yet. -/
def binit : Links (Fin nbuf) :=
  (finRange nbuf).foldl Links.insertFront ⟨fun _ => none, fun _ => none⟩

/-- The cache after `binit`. -/
def boot (ι : Type) : State ι where
  links := binit
  buf _ := ⟨false, false, 0, 0, false, 0⟩
  thread _ := ⟨.idle, []⟩
  clock := 0
  dropped _ := 0

/-- The first loop of `bget`. -/
def cached {ι : Type} (s : State ι) (dev blockno : BitVec 32) : Option (Option (Fin nbuf)) :=
  find s.links.next (fun k => (s.buf k).dev = dev ∧ (s.buf k).blockno = blockno) (nbuf + 1)
    (s.links.next none)

/-- The second loop of `bget`. -/
def unused {ι : Type} (s : State ι) : Option (Option (Fin nbuf)) :=
  find s.links.prev (fun k => (s.buf k).refcnt = 0 ∧ (s.buf k).dirty = false) (nbuf + 1)
    (s.links.prev none)

section
variable {ι : Type} [DecidableEq ι]

/-- A change to a buffer and to a process. -/
def State.set (s : State ι) (p : ι) (k : Fin nbuf) (b : Buf) (x : Thread) : State ι :=
  { s with buf := update s.buf k b, thread := update s.thread p x }

/-- `bget` up to `acquiresleep`. It panics without an unused buffer. -/
def bget (s : State ι) (p : ι) (dev blockno : BitVec 32) : Option (State ι) :=
  if (s.thread p).code ≠ .idle then none
  else
    match cached s dev blockno with
    | none => none
    | some (some k) =>
      some (s.set p k { s.buf k with refcnt := (s.buf k).refcnt + 1 }
        { s.thread p with code := .acquire k })
    | some none =>
      match unused s with
      | none => none
      | some none => none
      | some (some k) =>
        some (s.set p k
          { s.buf k with dev := dev, blockno := blockno, valid := false, dirty := false, refcnt := 1 }
          { s.thread p with code := .acquire k })

/-- `acquiresleep` in `bget`, when the lock is free. -/
def acquiresleep (s : State ι) (p : ι) : Option (State ι) :=
  match (s.thread p).code with
  | .acquire k =>
    if (s.buf k).locked then none
    else some (s.set p k { s.buf k with locked := true } ⟨.idle, k :: (s.thread p).holds⟩)
  | _ => none

/-- A buffer is marked in `bwrite` or in `log_write`. -/
def markDirty (s : State ι) (p : ι) (k : Fin nbuf) : Option (State ι) :=
  if (s.thread p).code = .idle ∧ k ∈ (s.thread p).holds then
    some (s.set p k { s.buf k with dirty := true } (s.thread p))
  else none

/-- `iderw` of `bread` or `bwrite`. It panics when there is nothing to do. -/
def iderw (s : State ι) (p : ι) (k : Fin nbuf) : Option (State ι) :=
  if (s.thread p).code = .idle ∧ k ∈ (s.thread p).holds ∧ (s.buf k).locked ∧
      ¬ ((s.buf k).valid ∧ (s.buf k).dirty = false) then
    some (s.set p k { s.buf k with valid := true, dirty := false } (s.thread p))
  else none

/-- `brelse` up to `releasesleep`. It panics when the buffer is not locked. -/
def brelse (s : State ι) (p : ι) (k : Fin nbuf) : Option (State ι) :=
  if (s.thread p).code = .idle ∧ k ∈ (s.thread p).holds then
    if (s.buf k).locked = false then none
    else some (s.set p k { s.buf k with locked := false } ⟨.release k, (s.thread p).holds.erase k⟩)
  else none

/-- A buffer is moved behind the head. -/
def State.moveFront (s : State ι) (k : Fin nbuf) : State ι :=
  { s with
    links := (s.links.unlink k).insertFront k
    clock := s.clock + 1
    dropped := update s.dropped k (s.clock + 1) }

/-- The rest of `brelse`. -/
def brelseCount (s : State ι) (p : ι) : Option (State ι) :=
  match (s.thread p).code with
  | .release k =>
    let t := s.set p k { s.buf k with refcnt := (s.buf k).refcnt - 1 } { s.thread p with code := .idle }
    some (if (t.buf k).refcnt = 0 then t.moveFront k else t)
  | _ => none

/-- The steps of the processes. -/
inductive Event (ι : Type) where
  | bget (p : ι) (dev blockno : BitVec 32)
  | acquiresleep (p : ι)
  | markDirty (p : ι) (k : Fin nbuf)
  | iderw (p : ι) (k : Fin nbuf)
  | brelse (p : ι) (k : Fin nbuf)
  | brelseCount (p : ι)

/-- A step. -/
def step (s : State ι) : Event ι → Option (State ι)
  | .bget p dev blockno => bget s p dev blockno
  | .acquiresleep p => acquiresleep s p
  | .markDirty p k => markDirty s p k
  | .iderw p k => iderw s p k
  | .brelse p k => brelse s p k
  | .brelseCount p => brelseCount s p

end

/-! ### Blocks -/

section
variable {ι : Type} {s t : State ι} {p : ι} {k : Fin nbuf} {b : Buf} {x : Thread}
  {dev blockno : BitVec 32}

theorem cached_spec (h : cached s dev blockno = some (some k)) :
    (s.buf k).dev = dev ∧ (s.buf k).blockno = blockno := by
  simpa using of_find_eq_some h

theorem unused_spec (h : unused s = some (some k)) :
    (s.buf k).refcnt = 0 ∧ (s.buf k).dirty = false := by
  simpa using of_find_eq_some h

variable [DecidableEq ι]

/-- What `bget` does before it waits. -/
theorem bget_cases (h : bget s p dev blockno = some t) : (s.thread p).code = .idle ∧
    ((∃ k, cached s dev blockno = some (some k) ∧
      t = s.set p k { s.buf k with refcnt := (s.buf k).refcnt + 1 }
        { s.thread p with code := .acquire k }) ∨
    (∃ k, cached s dev blockno = some none ∧ unused s = some (some k) ∧
      t = s.set p k
        { s.buf k with dev := dev, blockno := blockno, valid := false, dirty := false, refcnt := 1 }
        { s.thread p with code := .acquire k })) := by
  unfold bget at h
  split_ifs at h with hidle
  refine ⟨not_not.mp hidle, ?_⟩
  cases hcached : cached s dev blockno with
  | none =>
    rw [hcached] at h
    exact absurd h nofun
  | some found =>
    rw [hcached] at h
    cases found with
    | some k => exact .inl ⟨k, rfl, (some.inj h).symm⟩
    | none =>
      cases hunused : unused s with
      | none =>
        rw [hunused] at h
        exact absurd h nofun
      | some found =>
        rw [hunused] at h
        cases found with
        | none => exact absurd h nofun
        | some k => exact .inr ⟨k, rfl, rfl, (some.inj h).symm⟩

/-- A change that leaves the block of the buffer. -/
theorem State.set_block (hdev : b.dev = (s.buf k).dev) (hno : b.blockno = (s.buf k).blockno)
    (j : Fin nbuf) : ((s.set p k b x).buf j).dev = (s.buf j).dev ∧
      ((s.set p k b x).buf j).blockno = (s.buf j).blockno := by
  change (update s.buf k b j).dev = _ ∧ (update s.buf k b j).blockno = _
  by_cases hj : j = k
  · subst j
    rw [update_self]
    exact ⟨hdev, hno⟩
  · rw [update_of_ne hj]
    exact ⟨rfl, rfl⟩

/-- A buffer that is in use or dirty keeps its block. -/
theorem step_keeps_block {e : Event ι} (hstep : step s e = some t)
    (hpin : 0 < (s.buf k).refcnt ∨ (s.buf k).dirty = true) :
    (t.buf k).dev = (s.buf k).dev ∧ (t.buf k).blockno = (s.buf k).blockno := by
  cases e with
  | bget p dev blockno =>
    obtain ⟨-, ⟨j, -, rfl⟩ | ⟨j, -, hunused, rfl⟩⟩ := bget_cases hstep
    · exact State.set_block (by rfl) (by rfl) k
    · -- the buffer that gets the block is another one
      have hne : k ≠ j := by
        rintro rfl
        obtain ⟨hzero, hclean⟩ := unused_spec hunused
        simp [hzero, hclean] at hpin
      change (update s.buf j _ k).dev = _ ∧ (update s.buf j _ k).blockno = _
      rw [update_of_ne hne]
      exact ⟨rfl, rfl⟩
  | acquiresleep p =>
    simp only [step, acquiresleep] at hstep
    split at hstep
    · split_ifs at hstep
      obtain rfl := some.inj hstep
      exact State.set_block (by rfl) (by rfl) k
    · exact absurd hstep nofun
  | markDirty p j | iderw p j | brelse p j =>
    simp only [step, markDirty, iderw, brelse] at hstep
    split_ifs at hstep
    obtain rfl := some.inj hstep
    exact State.set_block (by rfl) (by rfl) k
  | brelseCount p =>
    simp only [step, brelseCount] at hstep
    split at hstep
    · rename_i j _
      have hset := State.set_block (s := s) (p := p) (k := j)
        (b := { s.buf j with refcnt := (s.buf j).refcnt - 1 })
        (x := { s.thread p with code := .idle }) rfl rfl k
      obtain rfl := some.inj hstep
      split_ifs
      · exact hset
      · exact hset
    · exact absurd hstep nofun

end

/-! ### References -/

/-- How often a process holds a buffer. -/
def Thread.held (k : Fin nbuf) (x : Thread) : ℕ := x.holds.count k

/-- A process waits for a buffer. -/
def Thread.waits (k : Fin nbuf) (x : Thread) : ℕ := if x.code = .acquire k then 1 else 0

/-- A process has unlocked a buffer in `brelse` and not counted yet. -/
def Thread.leaves (k : Fin nbuf) (x : Thread) : ℕ := if x.code = .release k then 1 else 0

/-- The references of a process to a buffer. -/
def Thread.uses (k : Fin nbuf) (x : Thread) : ℕ := x.held k + x.waits k + x.leaves k

section
variable {ι : Type} [Fintype ι]

/-- The number of holders of a buffer. -/
def holders (s : State ι) (k : Fin nbuf) : ℕ := tally (Thread.held k) s.thread

/-- The number of processes that wait for a buffer. -/
def waiters (s : State ι) (k : Fin nbuf) : ℕ := tally (Thread.waits k) s.thread

/-- The number of processes between the two parts of `brelse` for a buffer. -/
def leavers (s : State ι) (k : Fin nbuf) : ℕ := tally (Thread.leaves k) s.thread

theorem tally_uses (s : State ι) (k : Fin nbuf) :
    tally (Thread.uses k) s.thread = holders s k + waiters s k + leavers s k := by
  simp only [tally, holders, waiters, leavers, Thread.uses, Finset.sum_add_distrib]

/-- A buffer that was dropped later, or any other when that one was never dropped. -/
def DroppedBefore (dropped : Fin nbuf → ℕ) (j k : Fin nbuf) : Prop :=
  dropped j = 0 ∨ dropped j < dropped k

/-- The invariant of the cache. -/
structure Inv (s : State ι) : Prop where
  /-- The list has all buffers, the last ones dropped first. -/
  list : ∃ xs, Lists s.links xs ∧ (∀ k, k ∈ xs) ∧
    xs.Pairwise fun j k => DroppedBefore s.dropped k j
  clock : ∀ k, s.dropped k ≤ s.clock
  unique : ∀ j k, (s.buf j).dev ≠ 0 → (s.buf j).dev = (s.buf k).dev →
    (s.buf j).blockno = (s.buf k).blockno → j = k
  refcnt : ∀ k, (s.buf k).refcnt = tally (Thread.uses k) s.thread
  locked : ∀ k, (if (s.buf k).locked then 1 else 0) = holders s k

variable {s t : State ι} {p : ι} {k : Fin nbuf} {b : Buf} {x : Thread} {dev blockno : BitVec 32}

theorem Inv.own_block (h : Inv s) (hdev : b.dev = (s.buf k).dev)
    (hno : b.blockno = (s.buf k).blockno) (j : Fin nbuf) (hj : j ≠ k) (hne : b.dev ≠ 0)
    (heq : b.dev = (s.buf j).dev) : b.blockno ≠ (s.buf j).blockno := by
  intro hsame
  rw [hdev] at hne heq
  rw [hno] at hsame
  exact hj (h.unique k j hne heq hsame).symm

/-- A buffer that is moved to the front is the last one dropped. -/
theorem Inv.moveFront (h : Inv s) (k : Fin nbuf) : Inv (s.moveFront k) := by
  obtain ⟨xs, hlists, hall, hsorted⟩ := h.list
  obtain ⟨front, back, rfl⟩ := append_of_mem (hall k)
  have hnodup := hlists.nodup
  have hrest : (front ++ back).Sublist (front ++ k :: back) :=
    List.Sublist.append_left (sublist_cons_self k back) front
  have hnot : k ∉ front ++ back := by
    rw [nodup_middle] at hnodup
    exact (nodup_cons.mp hnodup).1
  refine ⟨⟨k :: (front ++ back), hlists.unlink.insertFront hnot, ?_, ?_⟩, ?_, h.unique, h.refcnt,
    h.locked⟩
  · intro j
    have hj := hall j
    simp only [mem_append, mem_cons] at hj ⊢
    tauto
  · refine pairwise_cons.mpr ⟨?_, ?_⟩
    · intro j hj
      have hne : j ≠ k := by
        rintro rfl
        exact hnot hj
      have hle := h.clock j
      right
      change update s.dropped k (s.clock + 1) j < update s.dropped k (s.clock + 1) k
      rw [update_self, update_of_ne hne]
      omega
    · refine (hsorted.sublist hrest).imp_of_mem ?_
      intro i j hi hj hij
      have hik : i ≠ k := by
        rintro rfl
        exact hnot hi
      have hjk : j ≠ k := by
        rintro rfl
        exact hnot hj
      change DroppedBefore (update s.dropped k (s.clock + 1)) j i
      unfold DroppedBefore
      rw [update_of_ne hik, update_of_ne hjk]
      exact hij
  · intro j
    change update s.dropped k (s.clock + 1) j ≤ s.clock + 1
    by_cases hj : j = k
    · rw [hj, update_self]
    · rw [update_of_ne hj]
      exact Nat.le_succ_of_le (h.clock j)

theorem length_lt_of_nodup {xs : List (Fin nbuf)} (h : xs.Nodup) : xs.length < nbuf + 1 := by
  have hle := h.length_le_card
  rw [Fintype.card_fin] at hle
  omega

/-- The loops of `bget` come to an end: the list is searched from its two ends. -/
theorem Inv.loops (h : Inv s) : ∃ xs : List (Fin nbuf), (∀ k, k ∈ xs) ∧
    (xs.Pairwise fun j k => DroppedBefore s.dropped k j) ∧
    (∀ dev blockno, cached s dev blockno =
      some (xs.find? fun k => (s.buf k).dev = dev ∧ (s.buf k).blockno = blockno)) ∧
    unused s = some (xs.reverse.find? fun k => (s.buf k).refcnt = 0 ∧ (s.buf k).dirty = false) := by
  obtain ⟨xs, hlists, hall, hsorted⟩ := h.list
  have hlength := length_lt_of_nodup hlists.nodup
  exact ⟨xs, hall, hsorted, fun _ _ => hlists.find_next _ hlength, hlists.find_prev _ hlength⟩

/-- A block that the first loop of `bget` does not find is not cached. -/
theorem Inv.not_cached (h : Inv s) (hnone : cached s dev blockno = some none) (j : Fin nbuf)
    (hdev : (s.buf j).dev = dev) : (s.buf j).blockno ≠ blockno := by
  obtain ⟨xs, hall, -, hcached, -⟩ := h.loops
  intro hno
  rw [hcached, some.injEq, List.find?_eq_none] at hnone
  exact hnone j (hall j) (by simp [hdev, hno])

/-- The second loop of `bget` finds the unused clean buffer that was dropped first. -/
theorem Inv.unused_oldest (h : Inv s) (hunused : unused s = some (some k)) {j : Fin nbuf}
    (hne : j ≠ k) (hzero : (s.buf j).refcnt = 0) (hclean : (s.buf j).dirty = false) :
    DroppedBefore s.dropped k j := by
  obtain ⟨xs, hall, hsorted, -, hfind⟩ := h.loops
  rw [hfind, some.injEq] at hunused
  -- the buffers behind the one that is found are in use or dirty
  obtain ⟨-, back, front, hsplit, hback⟩ := List.find?_eq_some_iff_append.mp hunused
  have hsplit' : xs = front.reverse ++ k :: back.reverse := by
    rw [← reverse_reverse xs, hsplit]
    simp
  have hj := hall j
  rw [hsplit'] at hj hsorted
  obtain hj | hj := mem_append.mp hj
  · exact (pairwise_append.mp hsorted).2.2 j hj k mem_cons_self
  · obtain rfl | hj := mem_cons.mp hj
    · exact absurd rfl hne
    · have hnot := hback j (mem_reverse.mp hj)
      simp [hzero, hclean] at hnot

theorem binit_lists : Lists binit (finRange nbuf).reverse := by
  have hempty : Lists (⟨fun _ => none, fun _ => none⟩ : Links (Fin nbuf)) [] :=
    ⟨⟨rfl, rfl⟩, nodup_nil⟩
  have hnodup : ((finRange nbuf).reverse ++ []).Nodup := by
    rw [append_nil, nodup_reverse]
    exact nodup_finRange nbuf
  have hlists := hempty.foldl_insertFront hnodup
  rwa [append_nil] at hlists

theorem Inv.boot : Inv (boot ι) := by
  refine ⟨⟨_, binit_lists, by simp, ?_⟩, fun _ => Nat.le_refl 0, ?_, ?_, ?_⟩
  · exact pairwise_of_forall fun _ _ => .inl rfl
  · intro j k hdev
    exact absurd rfl hdev
  · intro k
    exact (tally_eq_zero_iff.mpr fun _ => rfl).symm
  · intro k
    exact (tally_eq_zero_iff.mpr fun _ => rfl).symm

variable [DecidableEq ι]

/-- A change to one buffer and one process keeps the invariant when the buffer counts what the
process does and has a block of its own. -/
theorem Inv.set (h : Inv s)
    (hblock : ∀ j, j ≠ k → b.dev ≠ 0 → b.dev = (s.buf j).dev → b.blockno ≠ (s.buf j).blockno)
    (huses : b.refcnt + (s.thread p).uses k = (s.buf k).refcnt + x.uses k)
    (hlock : (if b.locked then 1 else 0) + (s.thread p).held k =
      (if (s.buf k).locked then 1 else 0) + x.held k)
    (hother : ∀ j, j ≠ k → x.uses j = (s.thread p).uses j ∧ x.held j = (s.thread p).held j) :
    Inv (s.set p k b x) := by
  refine ⟨h.list, h.clock, ?_, ?_, ?_⟩
  · intro i j
    change (update s.buf k b i).dev ≠ 0 →
      (update s.buf k b i).dev = (update s.buf k b j).dev →
      (update s.buf k b i).blockno = (update s.buf k b j).blockno → i = j
    by_cases hi : i = k
    · subst i
      by_cases hj : j = k
      · exact fun _ _ _ => hj.symm
      · rw [update_self, update_of_ne hj]
        exact fun hdev heq hno => absurd hno (hblock j hj hdev heq)
    · rw [update_of_ne hi]
      by_cases hj : j = k
      · subst j
        rw [update_self]
        exact fun hdev heq hno => absurd hno.symm (hblock i hi (heq ▸ hdev) heq.symm)
      · rw [update_of_ne hj]
        exact h.unique i j
  · intro j
    change (update s.buf k b j).refcnt =
      tally (Thread.uses j) (update s.thread p x)
    have hsum := tally_update (Thread.uses j) s.thread p x
    have hcount := h.refcnt j
    by_cases hj : j = k
    · subst j
      rw [update_self]
      omega
    · rw [update_of_ne hj]
      have hsame := (hother j hj).1
      omega
  · intro j
    change (if (update s.buf k b j).locked then 1 else 0) =
      tally (Thread.held j) (update s.thread p x)
    have hsum := tally_update (Thread.held j) s.thread p x
    have hcount : _ = tally (Thread.held j) s.thread := h.locked j
    by_cases hj : j = k
    · subst j
      rw [update_self]
      omega
    · rw [update_of_ne hj]
      have hsame := (hother j hj).2
      omega

theorem Thread.uses_acquire (hidle : x.code = .idle) (j : Fin nbuf) :
    ({ x with code := .acquire k } : Thread).uses j = x.uses j + if j = k then 1 else 0 := by
  unfold uses held waits leaves
  simp [hidle, eq_comm]

theorem Inv.bget (h : Inv s) (hstep : bget s p dev blockno = some t) : Inv t := by
  obtain ⟨hidle, ⟨k, -, rfl⟩ | ⟨k, hcached, hunused, rfl⟩⟩ := bget_cases hstep
  · refine h.set (h.own_block rfl rfl) ?_ rfl ?_
    · rw [Thread.uses_acquire hidle, if_pos rfl]
      simp only
      omega
    · intro j hj
      rw [Thread.uses_acquire hidle, if_neg hj]
      exact ⟨rfl, rfl⟩
  · obtain ⟨hzero, -⟩ := unused_spec hunused
    refine h.set ?_ ?_ rfl ?_
    · intro j _ _ hdev hno
      exact h.not_cached hcached j hdev.symm hno.symm
    · rw [Thread.uses_acquire hidle, if_pos rfl, hzero]
      simp only
      omega
    · intro j hj
      rw [Thread.uses_acquire hidle, if_neg hj]
      exact ⟨rfl, rfl⟩

/-- `acquiresleep` keeps the invariant. -/
theorem Inv.acquiresleep (h : Inv s) (hstep : acquiresleep s p = some t) : Inv t := by
  unfold Bcache.acquiresleep at hstep
  split at hstep
  · rename_i k hcode
    split_ifs at hstep with hlocked
    obtain rfl := some.inj hstep
    have huses : ∀ j, (⟨.idle, k :: (s.thread p).holds⟩ : Thread).uses j = (s.thread p).uses j := by
      intro j
      unfold Thread.uses Thread.held Thread.waits Thread.leaves
      rw [hcode, count_cons]
      simp only [Code.acquire.injEq, reduceCtorEq, if_false, beq_iff_eq]
    refine h.set (h.own_block rfl rfl) ?_ ?_ ?_
    · rw [huses]
    · unfold Thread.held
      rw [count_cons_self]
      simp only [hlocked, if_true, Bool.false_eq_true, if_false]
      omega
    · intro j hj
      refine ⟨huses j, ?_⟩
      unfold Thread.held
      rw [count_cons_of_ne (Ne.symm hj)]
  · exact absurd hstep nofun

theorem Inv.setFlags (h : Inv s) (valid dirty : Bool) :
    Inv (s.set p k { s.buf k with valid := valid, dirty := dirty } (s.thread p)) :=
  h.set (h.own_block rfl rfl) rfl rfl fun _ _ => ⟨rfl, rfl⟩

theorem Inv.brelse (h : Inv s) (hstep : brelse s p k = some t) : Inv t := by
  unfold Bcache.brelse at hstep
  split_ifs at hstep with hheld hlocked
  obtain rfl := some.inj hstep
  obtain ⟨hcode, hmem⟩ := hheld
  have hpos := count_pos_iff.mpr hmem
  refine h.set (h.own_block rfl rfl) ?_ ?_ ?_
  · unfold Thread.uses Thread.held Thread.waits Thread.leaves
    rw [hcode, count_erase_self]
    simp only [reduceCtorEq, if_false, if_true]
    omega
  · unfold Thread.held
    rw [count_erase_self]
    simp only [hlocked, Bool.false_eq_true, if_false, if_true]
    omega
  · intro j hj
    unfold Thread.uses Thread.held Thread.waits Thread.leaves
    rw [count_erase_of_ne hj, hcode]
    simp [Ne.symm hj]

/-- The count of `brelse` keeps the invariant. -/
theorem Inv.brelseCount (h : Inv s) (hstep : brelseCount s p = some t) : Inv t := by
  unfold Bcache.brelseCount at hstep
  split at hstep
  · rename_i k hcode
    obtain rfl := some.inj hstep
    have hpos : 0 < (s.buf k).refcnt := by
      rw [h.refcnt k, tally_pos_iff]
      refine ⟨p, ?_⟩
      unfold Thread.uses Thread.leaves
      rw [if_pos hcode]
      omega
    have hset : Inv (s.set p k { s.buf k with refcnt := (s.buf k).refcnt - 1 }
        { s.thread p with code := .idle }) := by
      refine h.set (h.own_block rfl rfl) ?_ rfl ?_
      · unfold Thread.uses Thread.held Thread.waits Thread.leaves
        rw [hcode]
        simp only [reduceCtorEq, if_false, if_true]
        omega
      · intro j hj
        unfold Thread.uses Thread.held Thread.waits Thread.leaves
        rw [hcode]
        simp [Ne.symm hj]
    split_ifs
    · exact hset.moveFront k
    · exact hset
  · exact absurd hstep nofun

theorem Inv.step (h : Inv s) {e : Event ι} (hstep : step s e = some t) : Inv t := by
  cases e with
  | bget p dev blockno => exact h.bget hstep
  | acquiresleep p => exact h.acquiresleep hstep
  | markDirty p k =>
    simp only [Bcache.step, markDirty] at hstep
    split_ifs at hstep
    obtain rfl := some.inj hstep
    exact h.setFlags _ _
  | iderw p k =>
    simp only [Bcache.step, iderw] at hstep
    split_ifs at hstep
    obtain rfl := some.inj hstep
    exact h.setFlags _ _
  | brelse p k => exact h.brelse hstep
  | brelseCount p => exact h.brelseCount hstep

/-- **The buffer cache.** After any steps of any processes the list is a single cycle through all
buffers, its pointers are inverse to each other, and no block of a device other than zero is
cached twice. The count of a buffer is the number of its holders and waiters, where a process in
`brelse` keeps its reference up to the count. A buffer that is in use or dirty keeps its block. And
`bget` ends with a buffer that has the block already, or with the unused clean one whose count
has dropped to zero longest ago, one that was never dropped first. -/
theorem buffer_cache {es : List (Event ι)} (hrun : run step (boot ι) es = some s) :
    (∃ xs, Lists s.links xs ∧ xs.length = nbuf ∧ ∀ k, k ∈ xs) ∧
      (∀ n, s.links.prev (s.links.next n) = n ∧ s.links.next (s.links.prev n) = n) ∧
      (∀ j k, (s.buf j).dev ≠ 0 → (s.buf j).dev = (s.buf k).dev →
        (s.buf j).blockno = (s.buf k).blockno → j = k) ∧
      (∀ k, (s.buf k).refcnt = holders s k + waiters s k + leavers s k) ∧
      (∀ e t, step s e = some t → ∀ k, 0 < (s.buf k).refcnt ∨ (s.buf k).dirty = true →
        (t.buf k).dev = (s.buf k).dev ∧ (t.buf k).blockno = (s.buf k).blockno) ∧
      (∀ dev blockno, (cached s dev blockno).isSome ∧ (unused s).isSome) ∧
      ∀ p dev blockno t, step s (.bget p dev blockno) = some t → ∃ k, (t.thread p).code = .acquire k ∧
        (t.buf k).dev = dev ∧ (t.buf k).blockno = blockno ∧
        ((s.buf k).dev = dev ∧ (s.buf k).blockno = blockno ∨
          (∀ j, (s.buf j).dev = dev → (s.buf j).blockno ≠ blockno) ∧
            (s.buf k).refcnt = 0 ∧ (s.buf k).dirty = false ∧
            ∀ j, j ≠ k → (s.buf j).refcnt = 0 → (s.buf j).dirty = false →
              s.dropped k = 0 ∨ s.dropped k < s.dropped j) := by
  have hinv : Inv s := invariant_run (fun h hstep => h.step hstep) Inv.boot hrun
  obtain ⟨xs, hlists, hall, -⟩ := hinv.list
  refine ⟨⟨xs, hlists, ?_, hall⟩, hlists.inverse hall, hinv.unique, ?_, ?_, ?_, ?_⟩
  · rw [← toFinset_card_of_nodup hlists.nodup, Finset.eq_univ_iff_forall.mpr
      fun k => List.mem_toFinset.mpr (hall k), Finset.card_univ, Fintype.card_fin]
  · intro k
    rw [hinv.refcnt k, tally_uses]
  · intro e t hstep k hpin
    exact step_keeps_block hstep hpin
  · intro dev blockno
    obtain ⟨_, -, -, hcached, hunused⟩ := hinv.loops
    rw [hcached, hunused]
    exact ⟨rfl, rfl⟩
  · intro p dev blockno t hstep
    obtain ⟨-, ⟨k, hcached, rfl⟩ | ⟨k, hcached, hunused, rfl⟩⟩ := bget_cases hstep
    · obtain ⟨hdev, hno⟩ := cached_spec hcached
      exact ⟨k, by simp [State.set], by simp [State.set, hdev], by simp [State.set, hno],
        .inl ⟨hdev, hno⟩⟩
    · obtain ⟨hzero, hclean⟩ := unused_spec hunused
      refine ⟨k, by simp [State.set], by simp [State.set], by simp [State.set],
        .inr ⟨hinv.not_cached hcached, hzero, hclean, ?_⟩⟩
      intro j hne hfree hj
      exact hinv.unused_oldest hunused hne hfree hj

/-- One process has released a block, and two others use it again. -/
theorem buffer_cache_shared : ∃ s : State (Fin 2), run step (boot (Fin 2))
        [.bget 0 1 5, .acquiresleep 0, .iderw 0 0, .brelse 0 0, .brelseCount 0, .bget 1 1 5,
          .acquiresleep 1, .bget 0 1 5] = some s ∧
      (s.buf 0).refcnt = 2 ∧ holders s 0 + waiters s 0 + leavers s 0 = 2 := by
  have hcount : (run step (boot (Fin 2))
      [.bget 0 1 5, .acquiresleep 0, .iderw 0 0, .brelse 0 0, .brelseCount 0, .bget 1 1 5,
        .acquiresleep 1, .bget 0 1 5]).map (fun s => (s.buf 0).refcnt) = some 2 := by
    decide +kernel
  obtain ⟨s, hrun, hs⟩ := map_eq_some_iff.mp hcount
  obtain ⟨-, -, -, hrefs, -⟩ := buffer_cache hrun
  exact ⟨s, hrun, hs, (hrefs 0).symm.trans hs⟩

end

end Xv6Draw.Bcache
