import Xv6Draw.Fs.Inode
import Xv6Draw.Lib.Tally
import Xv6Draw.Lib.Transition

/-!
# References to inodes

The inode cache of `fs.c` with any number of processes. A step is what runs under
`icache.lock`, under the lock of an inode, or under the lock of a block, so that `iput`, which
gives `icache.lock` up while it frees an inode, takes several steps.

An inode on the disk has a type, a number of links and its contents. Of the directories
there is the number of entries that name an inode: all entries but `.`, and but the `..` of a
directory that has no links itself. The system calls change the entries and the
number of links one after the other, and a process that has done one of the two has the other
one left to do. A directory without links may still be the current directory of a
process, and its `..` may name anything by then.

References are held by processes and by open files, and a reference may be handed over.
-/

namespace Xv6Draw.Icache

open Function Option Tally Transition
open Fs (ninode ninodes)

/-- `ROOTINO`. -/
def rootino : ℕ := 1

/-- An inode on the disk. -/
structure Node where
  /-- The type, zero for a free inode. -/
  type : BitVec 16
  nlink : ℕ
  data : List (BitVec 8)
  deriving DecidableEq

/-- What is being done to an entry of the cache. -/
inductive Stage where
  | ready
  /-- Its inode has been allocated and has no link yet. -/
  | creating
  /-- `iput` is about to truncate its inode. -/
  | dying
  /-- `iput` has truncated its inode. -/
  | truncated
  /-- `iput` has freed its inode. -/
  | freed
  deriving DecidableEq

/-- `struct inode`, with a note of what is being done to it. -/
structure Slot (ι : Type) where
  inum : ℕ
  ref : ℕ
  valid : Bool
  node : Node
  holder : Option ι
  stage : Stage

/-- Where a process is. -/
inductive Code where
  | idle
  /-- In `ialloc` before `iget`. -/
  | alloc (i : ℕ)
  /-- In `create` behind `ialloc`. -/
  | create (k : Fin ninode)
  /-- In `iput` before `itrunc`. -/
  | trunc (k : Fin ninode)
  /-- In `iput` behind `itrunc`. -/
  | free (k : Fin ninode)
  /-- In `iput` behind `iupdate`. -/
  | clear (k : Fin ninode)
  deriving DecidableEq

/-- The entry that a process is about to set up or to free. -/
def Code.on : Code → Option (Fin ninode)
  | .idle => none
  | .alloc _ => none
  | .create k => some k
  | .trunc k => some k
  | .free k => some k
  | .clear k => some k

/-- What a process does to that entry. -/
def Code.stage : Code → Stage
  | .idle => .ready
  | .alloc _ => .ready
  | .create _ => .creating
  | .trunc _ => .dying
  | .free _ => .truncated
  | .clear _ => .freed

/-- A process, or an open file. -/
structure Thread where
  code : Code
  refs : Fin ninode → ℕ
  /-- The links that it has counted without an entry. -/
  owed : ℕ → ℕ

/-- The disk, the cache and the processes. -/
structure State (ι : Type) where
  disk : ℕ → Node
  /-- The number of directory entries that name an inode. -/
  names : ℕ → ℕ
  /-- `icache.inode`. -/
  slot : Fin ninode → Slot ι
  thread : ι → Thread

section
variable {ι : Type}

/-- The entry that caches an inode. -/
def cachedEntry (s : State ι) (i : ℕ) : Option (Fin ninode) :=
  (List.finRange ninode).find? fun k => 0 < (s.slot k).ref ∧ (s.slot k).inum = i

/-- The first entry that is not in use. -/
def emptyEntry (s : State ι) : Option (Fin ninode) :=
  (List.finRange ninode).find? fun k => (s.slot k).ref = 0

/-- The entry that `iget` returns, and what it is then. -/
def iget (s : State ι) (i : ℕ) : Option (Fin ninode × Slot ι) :=
  match cachedEntry s i with
  | some k => some (k, { s.slot k with ref := (s.slot k).ref + 1 })
  | none =>
    match emptyEntry s with
    | none => none
    | some k => some (k, { s.slot k with inum := i, ref := 1, valid := false })

/-- The entry that `ilock` locks. It panics when the inode is free. -/
def ilock (s : State ι) (p : ι) (k : Fin ninode) : Option (Slot ι) :=
  if (s.slot k).valid then some { s.slot k with holder := some p }
  else if (s.disk (s.slot k).inum).type = 0 then none
  else some { s.slot k with holder := some p, valid := true, node := s.disk (s.slot k).inum }

variable [DecidableEq ι]

/-- A change to an entry. -/
def State.setSlot (s : State ι) (k : Fin ninode) (v : Slot ι) : State ι :=
  { s with slot := Function.update s.slot k v }

/-- A change to a process. -/
def State.setThread (s : State ι) (p : ι) (x : Thread) : State ι :=
  { s with thread := Function.update s.thread p x }

/-- A process is somewhere else. -/
def State.goto (s : State ι) (p : ι) (code : Code) : State ι :=
  s.setThread p { s.thread p with code := code }

/-- A process has one more reference. -/
def State.addRef (s : State ι) (p : ι) (k : Fin ninode) : State ι :=
  s.setThread p { s.thread p with
    refs := Function.update (s.thread p).refs k ((s.thread p).refs k + 1) }

/-- A process has one reference less. -/
def State.dropRef (s : State ι) (p : ι) (k : Fin ninode) : State ι :=
  s.setThread p { s.thread p with
    refs := Function.update (s.thread p).refs k ((s.thread p).refs k - 1) }

/-- The links that a process has counted without an entry. -/
def State.setOwed (s : State ι) (p : ι) (i n : ℕ) : State ι :=
  s.setThread p { s.thread p with owed := Function.update (s.thread p).owed i n }

/-- A change to the copy of an inode, and `iupdate`. -/
def State.update (s : State ι) (k : Fin ninode) (node : Node) : State ι :=
  { s.setSlot k { s.slot k with node := node } with
    disk := Function.update s.disk (s.slot k).inum node }

/-- The number of entries that name an inode. -/
def State.setNames (s : State ι) (i n : ℕ) : State ι :=
  { s with names := Function.update s.names i n }

/-- What can happen. -/
inductive Event (ι : Type) where
  /-- `iget` in `dirlookup`, or for the root. -/
  | lookup (p : ι) (i : ℕ)
  /-- `iget` for the `..` of a directory without links. -/
  | dotdot (p : ι) (i : ℕ)
  /-- `idup`, or `iget` for the `.` of a directory, for a process that holds the reference then. -/
  | idup (p q : ι) (k : Fin ninode)
  /-- A reference is handed over. -/
  | give (p q : ι) (k : Fin ninode)
  | ilock (p : ι) (k : Fin ninode)
  | iunlock (p : ι) (k : Fin ninode)
  | writei (p : ι) (k : Fin ninode) (data : List (BitVec 8))
  /-- `ip->nlink++` and `iupdate`. -/
  | inc (p : ι) (k : Fin ninode)
  /-- `ip->nlink--` and `iupdate`. -/
  | dec (p : ι) (k : Fin ninode)
  /-- An entry is written by `dirlink`. -/
  | enter (p : ι) (i : ℕ)
  /-- An entry is cleared by `sys_unlink`, or the directory that it is in loses its last link. -/
  | erase (p : ι) (k : Fin ninode)
  /-- An entry is in a directory that is freed. -/
  | vanish (i : ℕ)
  /-- `ialloc` up to `iget`. -/
  | ialloc (p : ι) (i : ℕ) (type : BitVec 16)
  /-- `iget` in `ialloc`. -/
  | ialloced (p : ι)
  /-- `ilock`, `ip->nlink = 1` and `iupdate` in `create`. -/
  | create (p : ι)
  /-- `iput` up to the test, and the rest of it when the inode is not freed. -/
  | iput (p : ι) (k : Fin ninode)
  /-- The next part of `iput` when the inode is freed. -/
  | ifree (p : ι)

/-- A process that is in none of the parts of `ialloc`, `create` or `iput`. -/
def State.Idle (s : State ι) (p : ι) : Prop := (s.thread p).code = .idle

instance (s : State ι) (p : ι) : Decidable (s.Idle p) := inferInstanceAs (Decidable (_ = _))

/-- The inode has an entry that may go: the `..` of the root does not. -/
def State.Named (s : State ι) (i : ℕ) : Prop := (if i = rootino then 1 else 0) < s.names i

instance (s : State ι) (i : ℕ) : Decidable (s.Named i) := inferInstanceAs (Decidable (_ < _))

/-- `iget` for a process. -/
def State.get (s : State ι) (p : ι) (i : ℕ) : Option (State ι) :=
  (iget s i).map fun r => (s.setSlot r.1 r.2).addRef p r.1

/-- A process begins to do something to an entry. -/
def State.enter (s : State ι) (p : ι) (k : Fin ninode) (code : Code) : State ι :=
  (s.setSlot k { s.slot k with stage := code.stage }).goto p code

/-- The parts of `iput` that free an inode. -/
def ifree (s : State ι) (p : ι) : Option (State ι) :=
  match (s.thread p).code with
  | .trunc k => some ((s.update k { (s.slot k).node with data := [] }).enter p k (.free k))
  | .free k => some ((s.update k { (s.slot k).node with type := 0 }).enter p k (.clear k))
  | .clear k =>
    some (((s.setSlot k { s.slot k with valid := false, ref := (s.slot k).ref - 1 }).dropRef p k).enter
      p k .idle)
  | _ => none

/-- A step. -/
def step (s : State ι) : Event ι → Option (State ι)
  | .lookup p i => if s.Idle p ∧ 0 < s.names i then s.get p i else none
  | .dotdot p i => if s.Idle p then s.get p i else none
  | .idup p q k =>
    if s.Idle p ∧ 0 < (s.thread p).refs k then
      some ((s.setSlot k { s.slot k with ref := (s.slot k).ref + 1 }).addRef q k)
    else none
  | .give p q k =>
    if s.Idle p ∧ 0 < (s.thread p).refs k ∧ (s.slot k).holder ≠ some p then
      some ((s.dropRef p k).addRef q k)
    else none
  | .ilock p k =>
    if s.Idle p ∧ 0 < (s.thread p).refs k ∧ (s.slot k).holder = none then
      (ilock s p k).map fun v => s.setSlot k v
    else none
  | .iunlock p k =>
    if s.Idle p ∧ (s.slot k).holder = some p then some (s.setSlot k { s.slot k with holder := none })
    else none
  | .writei p k data =>
    if s.Idle p ∧ (s.slot k).holder = some p then some (s.update k { (s.slot k).node with data := data })
    else none
  | .inc p k =>
    if s.Idle p ∧ (s.slot k).holder = some p then
      some ((s.update k { (s.slot k).node with nlink := (s.slot k).node.nlink + 1 }).setOwed p
        (s.slot k).inum ((s.thread p).owed (s.slot k).inum + 1))
    else none
  | .dec p k =>
    if s.Idle p ∧ (s.slot k).holder = some p ∧ 0 < (s.thread p).owed (s.slot k).inum then
      some ((s.update k { (s.slot k).node with nlink := (s.slot k).node.nlink - 1 }).setOwed p
        (s.slot k).inum ((s.thread p).owed (s.slot k).inum - 1))
    else none
  | .enter p i =>
    if s.Idle p ∧ 0 < (s.thread p).owed i then
      some ((s.setNames i (s.names i + 1)).setOwed p i ((s.thread p).owed i - 1))
    else none
  | .erase p k =>
    if s.Idle p ∧ (s.slot k).holder = some p ∧ s.Named (s.slot k).inum then
      some ((s.setNames (s.slot k).inum (s.names (s.slot k).inum - 1)).setOwed p (s.slot k).inum
        ((s.thread p).owed (s.slot k).inum + 1))
    else none
  | .vanish i => if s.Named i then some (s.setNames i (s.names i - 1)) else none
  | .ialloc p i type =>
    if s.Idle p ∧ 0 < i ∧ i < ninodes ∧ (s.disk i).type = 0 ∧ type ≠ 0 then
      some (({ s with disk := Function.update s.disk i ⟨type, 0, []⟩ } : State ι).goto p (.alloc i))
    else none
  | .ialloced p =>
    match (s.thread p).code with
    | .alloc i => (iget s i).map fun r => ((s.setSlot r.1 r.2).addRef p r.1).enter p r.1 (.create r.1)
    | _ => none
  | .create p =>
    match (s.thread p).code with
    | .create k =>
      if (s.slot k).holder = none then
        (ilock s p k).map fun v =>
          (((s.setSlot k v).update k { v.node with nlink := 1 }).setOwed p v.inum
            ((s.thread p).owed v.inum + 1)).enter p k .idle
      else none
    | _ => none
  | .iput p k =>
    if s.Idle p ∧ 0 < (s.thread p).refs k ∧ (s.slot k).holder ≠ some p then
      if (s.slot k).ref = 1 ∧ (s.slot k).valid ∧ (s.slot k).node.nlink = 0 then
        some (s.enter p k (.trunc k))
      else some ((s.setSlot k { s.slot k with ref := (s.slot k).ref - 1 }).dropRef p k)
    else none
  | .ifree p => ifree s p

end

/-- A process allocates an inode that no process is about to clear in the cache, and
follows the `..` of a directory without links only to an inode that has links. -/
def Safe {ι : Type} (s : State ι) : Event ι → Prop
  | .ialloc _ i _ => ∀ q k, (s.thread q).code = .clear k → (s.slot k).inum ≠ i
  | .dotdot _ i => (s.disk i).nlink ≠ 0
  | _ => True

/-! ### The invariant -/

/-- An entry in use and the inode that it caches. -/
structure SlotOk {ι : Type} (v : Slot ι) (n : Node) : Prop where
  /-- A valid copy is the inode on the disk. -/
  copy : v.valid = true → v.node = n
  /-- The inode is free when `iput` has freed it, and only then. -/
  type : n.type = 0 ↔ v.stage = .freed
  /-- What is being done to an entry is done with the only reference, to an inode without links. -/
  busy : v.stage ≠ .ready → v.ref = 1 ∧ v.holder = none ∧ n.nlink = 0
  /-- Inodes that are freed have been read. -/
  valid : v.stage ≠ .ready → v.stage ≠ .creating → v.valid = true
  lock : v.holder ≠ none → v.valid = true
  /-- Inodes without links have been read, unless they are new. -/
  orphan : n.nlink = 0 → v.valid = true ∨ v.stage = .creating
  empty : v.stage = .truncated ∨ v.stage = .freed → n.data = []

section
variable {ι : Type} {v : Slot ι} {n : Node}

theorem SlotOk.of_ready (hready : v.stage = .ready) (hcopy : v.valid = true → v.node = n)
    (htype : n.type ≠ 0) (hlock : v.holder ≠ none → v.valid = true)
    (horphan : n.nlink = 0 → v.valid = true) : SlotOk v n where
  copy := hcopy
  type := iff_of_false htype (by rw [hready]; exact nofun)
  busy := fun h => absurd hready h
  valid := fun h _ => absurd hready h
  lock := hlock
  orphan := fun h => .inl (horphan h)
  empty := by simp [hready]

theorem SlotOk.type_ne_zero (h : SlotOk v n) {stage : Stage} (hstage : v.stage = stage)
    (hne : stage ≠ .freed := by nofun) : n.type ≠ 0 :=
  fun hzero => hne (hstage.symm.trans (h.type.mp hzero))

/-- An entry to which nothing is being done has been read, if its inode has no links. -/
theorem SlotOk.valid_of_ready (h : SlotOk v n) (hready : v.stage = .ready) (hzero : n.nlink = 0) :
    v.valid = true := by
  refine (h.orphan hzero).resolve_right ?_
  rw [hready]
  exact nofun

theorem SlotOk.ready_of_nlink (h : SlotOk v n) (hnlink : n.nlink ≠ 0) : v.stage = .ready := by
  by_contra hready
  exact hnlink (h.busy hready).2.2

theorem SlotOk.free (h : SlotOk v n) (hzero : n.type = 0) : n.nlink = 0 := by
  have hfreed := h.type.mp hzero
  exact (h.busy (by rw [hfreed]; exact nofun)).2.2

end

section
variable {ι : Type} [Fintype ι]

/-- The references to an entry. -/
def refsOf (s : State ι) (k : Fin ninode) : ℕ := tally (fun x => x.refs k) s.thread

/-- The links of an inode that are counted without an entry. -/
def owedOf (s : State ι) (i : ℕ) : ℕ := tally (fun x => x.owed i) s.thread

/-- The invariant of the inode cache. -/
structure Inv (s : State ι) : Prop where
  unique : ∀ j k, 0 < (s.slot j).ref → 0 < (s.slot k).ref →
    (s.slot j).inum = (s.slot k).inum → j = k
  count : ∀ k, (s.slot k).ref = refsOf s k
  slots : ∀ k, 0 < (s.slot k).ref → SlotOk (s.slot k) (s.disk (s.slot k).inum)
  unused : ∀ k, (s.slot k).ref = 0 → (s.slot k).stage = .ready ∧ (s.slot k).holder = none
  /-- The holder of a lock has a reference. -/
  holder : ∀ k p, (s.slot k).holder = some p → 0 < (s.thread p).refs k
  /-- A process that does something to an entry has a reference. -/
  code : ∀ p k, (s.thread p).code.on = some k →
    0 < (s.thread p).refs k ∧ (s.slot k).stage = (s.thread p).code.stage
  /-- What is being done to an entry is done by a process. -/
  stage : ∀ k, (s.slot k).stage ≠ .ready → ∃ p, (s.thread p).code.on = some k
  /-- Entries that name an inode are counted as links. -/
  links : ∀ i, s.names i + owedOf s i ≤ (s.disk i).nlink
  root : 0 < s.names rootino
  free : ∀ i, (s.disk i).type = 0 → (s.disk i).nlink = 0
  /-- An allocated inode without links is in the cache, unless it is new. -/
  orphan : ∀ i, (s.disk i).type ≠ 0 → (s.disk i).nlink = 0 →
    (∃ k, 0 < (s.slot k).ref ∧ (s.slot k).inum = i) ∨ ∃ p, (s.thread p).code = .alloc i
  /-- A new inode has no links and is not in the cache yet. -/
  alloc : ∀ p i, (s.thread p).code = .alloc i → (s.disk i).type ≠ 0 ∧ (s.disk i).nlink = 0 ∧
    (∀ k, 0 < (s.slot k).ref → (s.slot k).inum ≠ i) ∧ ∀ q, (s.thread q).code = .alloc i → q = p

variable {s t : State ι} {p q : ι} {k : Fin ninode}

theorem Inv.ref_pos (h : Inv s) (hrefs : 0 < (s.thread p).refs k) : 0 < (s.slot k).ref := by
  rw [h.count]
  exact hrefs.trans_le (le_tally (fun y : Thread => y.refs k) s.thread p)

/-- A process that does something to an entry is alone with it. -/
theorem Inv.busy (h : Inv s) (hon : (s.thread p).code.on = some k) :
    0 < (s.slot k).ref ∧ (s.slot k).stage ≠ .ready ∧ (s.slot k).ref = 1 ∧ (s.slot k).holder = none ∧
      (s.disk (s.slot k).inum).nlink = 0 := by
  obtain ⟨hrefs, hstage⟩ := h.code p k hon
  have hpos := h.ref_pos hrefs
  have hready : (s.slot k).stage ≠ .ready := by
    rw [hstage]
    cases hcode : (s.thread p).code with
    | idle => simp [hcode, Code.on] at hon
    | alloc i => simp [hcode, Code.on] at hon
    | create j | trunc j | free j | clear j => exact nofun
  exact ⟨hpos, hready, (h.slots k hpos).busy hready⟩

theorem Inv.eq_of_ref_eq_one (h : Inv s) (href : (s.slot k).ref = 1)
    (hp : 0 < (s.thread p).refs k) (hq : 0 < (s.thread q).refs k) : p = q := by
  classical
  by_contra hne
  have hle := add_le_tally (fun y : Thread => y.refs k) s.thread hne
  have hcount := h.count k
  unfold refsOf at hcount
  omega

theorem Inv.inum_eq_iff (h : Inv s) (hk : 0 < (s.slot k).ref) (j : Fin ninode)
    (hj : 0 < (s.slot j).ref) : (s.slot j).inum = (s.slot k).inum ↔ j = k :=
  ⟨h.unique j k hj hk, fun heq => by rw [heq]⟩

/-- Nothing is being done to an entry that a process has a reference to and does nothing to. -/
theorem Inv.ready (h : Inv s) (hidle : s.Idle p) (hrefs : 0 < (s.thread p).refs k) :
    (s.slot k).stage = .ready := by
  by_contra hready
  obtain ⟨q, hq⟩ := h.stage k hready
  obtain ⟨-, -, hone, -⟩ := h.busy hq
  obtain rfl := h.eq_of_ref_eq_one hone (h.code q k hq).1 hrefs
  simp [show (s.thread q).code = .idle from hidle, Code.on] at hq

/-- Without the only reference, nobody else holds the lock. -/
theorem Inv.holder_none (h : Inv s) (hone : (s.slot k).ref = 1) (hrefs : 0 < (s.thread p).refs k)
    (hholder : (s.slot k).holder ≠ some p) : (s.slot k).holder = none := by
  cases hlock : (s.slot k).holder with
  | none => rfl
  | some q =>
    obtain rfl := h.eq_of_ref_eq_one hone (h.holder k q hlock) hrefs
    exact absurd hlock hholder

theorem Inv.not_alloc (h : Inv s) (hk : 0 < (s.slot k).ref) (q : ι) :
    (s.thread q).code ≠ .alloc (s.slot k).inum :=
  fun hq => (h.alloc q _ hq).2.2.1 k hk rfl

theorem Inv.locked (h : Inv s) (hidle : s.Idle p) (hholder : (s.slot k).holder = some p) :
    0 < (s.thread p).refs k ∧ 0 < (s.slot k).ref ∧ (s.slot k).stage = .ready ∧
      (s.slot k).valid = true ∧ (s.slot k).node = s.disk (s.slot k).inum ∧
      (s.disk (s.slot k).inum).type ≠ 0 := by
  have hrefs := h.holder k p hholder
  have hk := h.ref_pos hrefs
  have hready := h.ready hidle hrefs
  have hvalid := (h.slots k hk).lock (by rw [hholder]; exact nofun)
  exact ⟨hrefs, hk, hready, hvalid, (h.slots k hk).copy hvalid, (h.slots k hk).type_ne_zero hready⟩

variable [DecidableEq ι] {v : Slot ι} {x : Thread} {n : Node} {i m : ℕ}

/-- A change to an entry, the inode that it caches, the names of that inode and a process. -/
def State.touch (s : State ι) (p : ι) (k : Fin ninode) (i : ℕ) (v : Slot ι) (n : Node) (m : ℕ)
    (x : Thread) : State ι where
  disk := Function.update s.disk i n
  names := Function.update s.names i m
  slot := Function.update s.slot k v
  thread := Function.update s.thread p x

theorem refsOf_update (s : State ι) (p : ι) (x : Thread) (k : Fin ninode) :
    tally (fun y => y.refs k) (update s.thread p x) + (s.thread p).refs k =
      refsOf s k + x.refs k :=
  tally_update (fun y : Thread => y.refs k) s.thread p x

theorem owedOf_update (s : State ι) (p : ι) (x : Thread) (i : ℕ) :
    tally (fun y => y.owed i) (update s.thread p x) + (s.thread p).owed i =
      owedOf s i + x.owed i :=
  tally_update (fun y : Thread => y.owed i) s.thread p x

/-- What a change to an entry and a process must keep. -/
structure Touch (s : State ι) (p : ι) (k : Fin ninode) (i : ℕ) (v : Slot ι) (n : Node) (m : ℕ)
    (x : Thread) : Prop where
  /-- If the inode is cached, then by this entry, and this entry caches no other one. -/
  before : ∀ j, 0 < (s.slot j).ref → ((s.slot j).inum = i ↔ j = k)
  /-- In use, the entry caches the inode. -/
  after : 0 < v.ref → v.inum = i ∧ SlotOk v n
  /-- Out of use, it leaves an inode that is free or has links. -/
  unused : v.ref = 0 → v.stage = .ready ∧ v.holder = none ∧ (n.type = 0 ∨ n.nlink ≠ 0)
  free : n.type = 0 → n.nlink = 0
  /-- The entry counts the references of the process. -/
  count : v.ref + (s.thread p).refs k = (s.slot k).ref + x.refs k
  /-- The process has the same references to other entries. -/
  refs : ∀ j, j ≠ k → x.refs j = (s.thread p).refs j
  links : m + owedOf s i + x.owed i ≤ n.nlink + (s.thread p).owed i
  /-- The process has the same links of other inodes left. -/
  owed : ∀ j, j ≠ i → x.owed j = (s.thread p).owed j
  root : i = rootino → 0 < m
  /-- The holder of the lock is the process, or the same as before. -/
  holder : v.holder = none ∨ (v.holder = some p ∧ 0 < x.refs k) ∨
    (v.holder = (s.slot k).holder ∧ (v.holder = some p → 0 < x.refs k))

/-- What a process goes on to do, and what is noted at the entry that it changes. -/
structure CodeStep (s : State ι) (p : ι) (k : Fin ninode) (i : ℕ) (v : Slot ι) (x : Thread) :
    Prop where
  /-- The process does not begin `ialloc`, and ends it for this inode only. -/
  alloc : ∀ j, x.code = .alloc j ↔ (s.thread p).code = .alloc j ∧ j ≠ i
  /-- No other process has allocated the inode. -/
  mine : ∀ q, q ≠ p → (s.thread q).code ≠ .alloc i
  /-- It has a reference to the entry that it does something to, and that is noted there. -/
  code : ∀ j, x.code.on = some j →
    0 < x.refs j ∧ (Function.update s.slot k v j).stage = x.code.stage
  /-- What another process does to the entry stays noted. -/
  other : ∀ q, q ≠ p → (s.thread q).code.on = some k → v.stage = (s.slot k).stage
  /-- What is noted at the entry is done by a process. -/
  stage : v.stage ≠ .ready → ∃ q, (Function.update s.thread p x q).code.on = some k
  /-- The process goes on with what it does to another entry. -/
  leave : ∀ j, j ≠ k → (s.thread p).code.on = some j → x.code.on = some j

/-- The process does what it did before. -/
theorem CodeStep.same (h : Inv s) (hnew : ∀ q, (s.thread q).code ≠ .alloc i)
    (hcode : x.code = (s.thread p).code)
    (hstage : v.stage = (s.slot k).stage) (hrefs : ∀ j, j ≠ k → x.refs j = (s.thread p).refs j)
    (hon : x.code.on = some k → 0 < x.refs k) : CodeStep s p k i v x := by
  refine ⟨?_, fun q _ => hnew q, ?_, fun _ _ _ => hstage, ?_, fun j _ hj => by rw [hcode]; exact hj⟩
  · intro j
    rw [hcode]
    refine ⟨fun hj => ⟨hj, ?_⟩, And.left⟩
    rintro rfl
    exact hnew p hj
  · intro j hj
    obtain ⟨hpos, hnoted⟩ := h.code p j (by rw [← hcode]; exact hj)
    by_cases hjk : j = k
    · subst j
      rw [update_self, hstage, hcode]
      exact ⟨hon hj, hnoted⟩
    · rw [update_of_ne hjk, hrefs j hjk, hcode]
      exact ⟨hpos, hnoted⟩
  · intro hready
    rw [hstage] at hready
    obtain ⟨q, hq⟩ := h.stage k hready
    refine ⟨q, ?_⟩
    by_cases hqp : q = p
    · subst q
      rw [update_self, hcode]
      exact hq
    · rwa [update_of_ne hqp]

/-- The process does the next thing to the entry, alone with it. -/
theorem CodeStep.own (h : Inv s) (hmine : ∀ q, q ≠ p → (s.thread q).code ≠ .alloc i)
    (hbefore : (s.thread p).code.on = some k ∨ ((s.slot k).stage = .ready ∧
      ((s.thread p).code = .idle ∨ (s.thread p).code = .alloc i)))
    (hafter : x.code.on = some k ∧ 0 < x.refs k ∨ x.code = .idle) (hstage : v.stage = x.code.stage) :
    CodeStep s p k i v x := by
  have halloc : ∀ j, ¬ ((s.thread p).code = .alloc j ∧ j ≠ i) := by
    rintro j ⟨heq, hji⟩
    obtain hon | ⟨-, hidle | hi⟩ := hbefore
    · simp [heq, Code.on] at hon
    · simp [heq] at hidle
    · exact hji (Code.alloc.inj (heq.symm.trans hi))
  have halloc' : ∀ j, x.code ≠ .alloc j := by
    intro j heq
    obtain ⟨hon, -⟩ | hidle := hafter
    · simp [heq, Code.on] at hon
    · simp [heq] at hidle
  refine ⟨fun j => iff_of_false (halloc' j) (halloc j), hmine, ?_, ?_, ?_, ?_⟩
  · intro j hj
    obtain ⟨hon, hpos⟩ | hidle := hafter
    · obtain rfl : k = j := some.inj (hon.symm.trans hj)
      rw [update_self]
      exact ⟨hpos, hstage⟩
    · simp [hidle, Code.on] at hj
  · intro q hqp hq
    exfalso
    obtain ⟨-, hready, hone, -⟩ := h.busy hq
    obtain hon | ⟨hnone, -⟩ := hbefore
    · exact hqp (h.eq_of_ref_eq_one hone (h.code q k hq).1 (h.code p k hon).1)
    · exact hready hnone
  · intro hready
    obtain ⟨hon, -⟩ | hidle := hafter
    · exact ⟨p, by rw [update_self]; exact hon⟩
    · rw [hstage, hidle] at hready
      exact absurd rfl hready
  · intro j hjk hj
    obtain hon | ⟨-, hidle | hi⟩ := hbefore
    · exact absurd (some.inj (hj.symm.trans hon)) hjk
    · simp [hidle, Code.on] at hj
    · simp [hi, Code.on] at hj

/-- A change to an entry keeps the invariant. -/
theorem Inv.touch (h : Inv s) (ht : Touch s p k i v n m x) (hc : CodeStep s p k i v x) :
    Inv (s.touch p k i v n m x) := by
  -- the other entries cache other inodes, before and after
  have hother : ∀ j, j ≠ k → 0 < (s.slot j).ref → (s.slot j).inum ≠ i :=
    fun j hj hpos heq => hj ((ht.before j hpos).mp heq)
  have hcached : ∀ j, 0 < (update s.slot k v j).ref → ((update s.slot k v j).inum = i ↔ j = k) :=
    (forall_update_iff s.slot fun j v => 0 < v.ref → (v.inum = i ↔ j = k)).mpr
      ⟨fun hpos => iff_of_true (ht.after hpos).1 rfl,
        fun j hj hpos => iff_of_false (hother j hj hpos) hj⟩
  have halloc : ∀ q j, (update s.thread p x q).code = .alloc j ↔
      (s.thread q).code = .alloc j ∧ j ≠ i := by
    intro q j
    by_cases hq : q = p
    · subst q
      rw [update_self]
      exact hc.alloc j
    · rw [update_of_ne hq]
      refine ⟨fun hj => ⟨hj, ?_⟩, And.left⟩
      rintro rfl
      exact hc.mine q hq hj
  refine ⟨?_, ?_, ?_, ?_, ?_, ?_, ?_, ?_, ?_, ?_, ?_, ?_⟩
  · intro a b ha hb (heq : (update s.slot k v a).inum = (update s.slot k v b).inum)
    have hiff : a = k ↔ b = k := by rw [← hcached a ha, ← hcached b hb, heq]
    by_cases hak : a = k
    · rw [hak, hiff.mp hak]
    · have hbk := mt hiff.mpr hak
      simp only [State.touch, update_of_ne hak, update_of_ne hbk] at ha hb heq
      exact h.unique a b ha hb heq
  · refine (forall_update_iff s.slot fun j v => v.ref = refsOf (s.touch p k i _ n m x) j).mpr ⟨?_, ?_⟩
    · have hsum : refsOf (s.touch p k i v n m x) k + _ = _ := refsOf_update s p x k
      have hold := h.count k
      have hnew := ht.count
      omega
    · intro j hj
      have hsum : refsOf (s.touch p k i v n m x) j + _ = _ := refsOf_update s p x j
      have hold := h.count j
      have hsame := ht.refs j hj
      omega
  · refine (forall_update_iff s.slot fun j v =>
      0 < v.ref → SlotOk v (update s.disk i n v.inum)).mpr ⟨?_, ?_⟩
    · intro hpos
      rw [(ht.after hpos).1, update_self]
      exact (ht.after hpos).2
    · intro j hj hpos
      rw [update_of_ne (hother j hj hpos)]
      exact h.slots j hpos
  · exact (forall_update_iff s.slot fun _ v => v.ref = 0 → v.stage = .ready ∧ v.holder = none).mpr
      ⟨fun hzero => ⟨(ht.unused hzero).1, (ht.unused hzero).2.1⟩, fun j _ => h.unused j⟩
  · refine (forall_update_iff s.slot fun j v =>
      ∀ q, v.holder = some q → 0 < (update s.thread p x q).refs j).mpr ⟨?_, ?_⟩
    · intro q hq
      obtain hnone | ⟨hp, hpos⟩ | ⟨hsame, hpos⟩ := ht.holder
      · exact nomatch hnone.symm.trans hq
      · obtain rfl : q = p := some.inj (hq.symm.trans hp)
        rwa [update_self]
      · by_cases hqp : q = p
        · subst q
          rw [update_self]
          exact hpos hq
        · rw [update_of_ne hqp]
          exact h.holder _ _ (hsame.symm.trans hq)
    · intro j hj q hq
      have hpos := h.holder j q hq
      by_cases hqp : q = p
      · subst q
        rwa [update_self, ht.refs j hj]
      · rwa [update_of_ne hqp]
  · refine (forall_update_iff s.thread fun _ y => ∀ j, y.code.on = some j →
      0 < y.refs j ∧ (update s.slot k v j).stage = y.code.stage).mpr ⟨hc.code, ?_⟩
    intro q hqp j hq
    obtain ⟨hpos, hnoted⟩ := h.code q j hq
    refine ⟨hpos, ?_⟩
    by_cases hj : j = k
    · subst j
      rwa [update_self, hc.other q hqp hq]
    · rwa [update_of_ne hj]
  · refine (forall_update_iff s.slot fun j v =>
      v.stage ≠ .ready → ∃ q, (update s.thread p x q).code.on = some j).mpr ⟨hc.stage, ?_⟩
    intro j hj hready
    obtain ⟨q, hq⟩ := h.stage j hready
    refine ⟨q, ?_⟩
    by_cases hqp : q = p
    · subst q
      rw [update_self]
      exact hc.leave j hj hq
    · rwa [update_of_ne hqp]
  · intro j
    have hsum : owedOf (s.touch p k i v n m x) j + _ = _ := owedOf_update s p x j
    have hlinks := h.links j
    by_cases hj : j = i
    · subst j
      have hi := ht.links
      simp only [State.touch, update_self] at hsum ⊢
      omega
    · have hsame := ht.owed j hj
      simp only [State.touch, update_of_ne hj] at hsum ⊢
      omega
  · exact (forall_update_iff s.names fun j m => j = rootino → 0 < m).mpr
      ⟨ht.root, fun j _ hj => hj ▸ h.root⟩ rootino rfl
  · exact (forall_update_iff s.disk fun _ n => n.type = 0 → n.nlink = 0).mpr
      ⟨ht.free, fun j _ => h.free j⟩
  · refine (forall_update_iff s.disk fun j n => n.type ≠ 0 → n.nlink = 0 →
      (∃ l, 0 < (update s.slot k v l).ref ∧ (update s.slot k v l).inum = j) ∨
        ∃ q, (update s.thread p x q).code = .alloc j).mpr ⟨?_, ?_⟩
    · intro htype hnlink
      have hpos : 0 < v.ref := by
        by_contra hzero
        obtain hfree | hlinks := (ht.unused (by omega)).2.2
        · exact htype hfree
        · exact hlinks hnlink
      refine .inl ⟨k, ?_⟩
      rw [update_self]
      exact ⟨hpos, (ht.after hpos).1⟩
    · intro j hj htype hnlink
      obtain ⟨l, hpos, hinum⟩ | ⟨q, hq⟩ := h.orphan j htype hnlink
      · have hlk : l ≠ k := by
          rintro rfl
          exact hj (hinum.symm.trans ((ht.before l hpos).mpr rfl))
        refine .inl ⟨l, ?_⟩
        rw [update_of_ne hlk]
        exact ⟨hpos, hinum⟩
      · exact .inr ⟨q, (halloc q j).mpr ⟨hq, hj⟩⟩
  · intro q j hq
    obtain ⟨hq, hj⟩ := (halloc q j).mp hq
    obtain ⟨htype, hnlink, hnone, honly⟩ := h.alloc q j hq
    simp only [State.touch, update_of_ne hj]
    refine ⟨htype, hnlink, ?_, fun r hr => honly r ((halloc r j).mp hr).1⟩
    refine (forall_update_iff s.slot fun _ v => 0 < v.ref → v.inum ≠ j).mpr ⟨?_, fun l _ => hnone l⟩
    intro hpos
    rw [(ht.after hpos).1]
    exact hj.symm

/-! ### Steps -/

omit [DecidableEq ι] in
/-- A change to an entry in use that leaves links and names alone. -/
theorem Inv.touch_used (h : Inv s) (hk : 0 < (s.slot k).ref) (hv : 0 < v.ref)
    (hinum : v.inum = (s.slot k).inum) (hslot : SlotOk v n)
    (hnlink : n.nlink = (s.disk (s.slot k).inum).nlink) (howed : x.owed = (s.thread p).owed)
    (hcount : v.ref + (s.thread p).refs k = (s.slot k).ref + x.refs k)
    (hrefs : ∀ j, j ≠ k → x.refs j = (s.thread p).refs j)
    (hholder : v.holder = none ∨ (v.holder = some p ∧ 0 < x.refs k) ∨
      (v.holder = (s.slot k).holder ∧ (v.holder = some p → 0 < x.refs k))) :
    Touch s p k (s.slot k).inum v n (s.names (s.slot k).inum) x where
  before := h.inum_eq_iff hk
  after := fun _ => ⟨hinum, hslot⟩
  unused := fun hzero => by omega
  free := hslot.free
  count := hcount
  refs := hrefs
  links := by
    rw [hnlink, howed]
    have hlinks := h.links (s.slot k).inum
    omega
  owed := fun j _ => by rw [howed]
  root := fun hroot => by
    rw [hroot]
    exact h.root
  holder := hholder

/-- The step truncates the inode, or frees it. -/
def Ends (s : State ι) (e : Event ι) (i : ℕ) : Prop :=
  ∃ p k, e = .ifree p ∧ ((s.thread p).code = .trunc k ∨ (s.thread p).code = .free k) ∧
    (s.slot k).inum = i

/-- The step writes to the inode, with its lock. -/
def Writes (s : State ι) (e : Event ι) (i : ℕ) : Prop :=
  ∃ p k data, e = .writei p k data ∧ (s.slot k).inum = i ∧ (s.slot k).holder = some p

/-- What a step does to an inode. -/
structure NodeStep (s : State ι) (e : Event ι) (i : ℕ) (v : Slot ι) (n : Node) : Prop where
  /-- Its contents change by `writei` and `itrunc` only. -/
  data : n.data = (s.disk i).data ∨ Writes s e i ∨ Ends s e i
  /-- Its type changes by `iput` only. -/
  type : n.type = (s.disk i).type ∨ Ends s e i
  /-- Without references, a free inode is empty. -/
  last : v.ref = 0 → n.type = 0 → n.data = []

/-- What a step can do. -/
inductive Does (s : State ι) (e : Event ι) : State ι → Prop where
  /-- It changes an entry, its inode and a process. -/
  | entry {p : ι} {k : Fin ninode} {i : ℕ} {v : Slot ι} {n : Node} {m : ℕ} {x : Thread}
      (ht : Touch s p k i v n m x) (hc : CodeStep s p k i v x) (hinum : v.inum = i)
      (hn : NodeStep s e i v n) (he : ∀ p i type, e ≠ .ialloc p i type) :
      Does s e (s.touch p k i v n m x)
  /-- It changes directories, or hands a reference over. -/
  | names {f : ι → Thread} {names : ℕ → ℕ} (hcode : ∀ q, (f q).code = (s.thread q).code)
      (hcount : ∀ j, tally (fun y => y.refs j) f = refsOf s j)
      (hholder : ∀ j q, (s.slot j).holder = some q → 0 < (f q).refs j)
      (hon : ∀ q j, (s.thread q).code.on = some j → 0 < (f q).refs j)
      (hlinks : ∀ j, names j + tally (fun y => y.owed j) f ≤ (s.disk j).nlink)
      (hroot : 0 < names rootino) (he : ∀ p i type, e ≠ .ialloc p i type) :
      Does s e { s with names := names, thread := f }
  /-- It allocates an inode. -/
  | ialloc {p : ι} {i : ℕ} {type : BitVec 16} (hidle : s.Idle p) (hfree : (s.disk i).type = 0)
      (htype : type ≠ 0) (hnone : ∀ k, 0 < (s.slot k).ref → (s.slot k).inum ≠ i)
      (he : e = .ialloc p i type) :
      Does s e (({ s with disk := Function.update s.disk i ⟨type, 0, []⟩ } : State ι).goto p (.alloc i))

variable {e : Event ι}

/-- A step that leaves the inode and its names alone. -/
theorem Does.of_slot (he : ∀ p i type, e ≠ .ialloc p i type)
    (ht : Touch s p k i v (s.disk i) (s.names i) x) (hc : CodeStep s p k i v x) (hinum : v.inum = i)
    (hlast : v.ref = 0 → (s.disk i).type = 0 → (s.disk i).data = []) :
    Does s e { s with slot := update s.slot k v, thread := update s.thread p x } := by
  have hentry := entry ht hc hinum ⟨.inl rfl, .inl rfl, hlast⟩ he
  simp only [State.touch, update_eq_self] at hentry
  exact hentry

/-- The process does nothing special to the entry. -/
theorem CodeStep.idle (h : Inv s) (hk : 0 < (s.slot k).ref) (hidle : s.Idle p)
    (hcode : x.code = (s.thread p).code) (hstage : v.stage = (s.slot k).stage)
    (hrefs : ∀ j, j ≠ k → x.refs j = (s.thread p).refs j) : CodeStep s p k (s.slot k).inum v x := by
  refine .same h (h.not_alloc hk) hcode hstage hrefs ?_
  intro hon
  rw [hcode, show (s.thread p).code = .idle from hidle] at hon
  exact nomatch hon

theorem does_ilock (h : Inv s) (hstep : step s (.ilock p k) = some t) : Does s (.ilock p k) t := by
  obtain ⟨⟨hidle, hrefs, hfree⟩, hstep⟩ := ite_none_right_eq_some.mp hstep
  obtain ⟨v, hv, rfl⟩ := map_eq_some_iff.mp hstep
  have hk := h.ref_pos hrefs
  have hready := h.ready hidle hrefs
  have hslot := h.slots k hk
  have hlocked : v.inum = (s.slot k).inum ∧ v.ref = (s.slot k).ref ∧ v.stage = .ready ∧
      v.holder = some p ∧ v.valid = true ∧ v.node = s.disk (s.slot k).inum := by
    unfold ilock at hv
    split_ifs at hv with hvalid htype
    · cases hv
      exact ⟨rfl, rfl, hready, rfl, hvalid, hslot.copy hvalid⟩
    · cases hv
      exact ⟨rfl, rfl, hready, rfl, rfl, rfl⟩
  obtain ⟨hinum, href, hstage, hholder, hvalid, hnode⟩ := hlocked
  have hok : SlotOk v (s.disk (s.slot k).inum) :=
    .of_ready hstage (fun _ => hnode) (hslot.type_ne_zero hready) (fun _ => hvalid) (fun _ => hvalid)
  have hdoes := Does.of_slot (e := .ilock p k) nofun (h.touch_used (x := s.thread p) hk (by omega) hinum
    hok rfl rfl (by omega) (fun _ _ => rfl) (.inr (.inl ⟨hholder, hrefs⟩)))
    (.idle h hk hidle rfl (hstage.trans hready.symm) fun _ _ => rfl) hinum (fun hzero => by omega)
  rw [update_eq_self] at hdoes
  exact hdoes

/-- A step of the holder of a lock to its inode, with or without giving the lock up. -/
theorem Does.of_locked (n : Node) (m w : ℕ) (holder : Option ι) (h : Inv s) (hidle : s.Idle p)
    (hholder : (s.slot k).holder = some p) (he : ∀ p i type, e ≠ .ialloc p i type)
    (ht : t = s.touch p k (s.slot k).inum { s.slot k with node := n, holder := holder } n m
      { s.thread p with owed := update (s.thread p).owed (s.slot k).inum w })
    (hkeep : holder = none ∨ holder = some p) (htype : n.type = (s.disk (s.slot k).inum).type)
    (hdata : n.data = (s.disk (s.slot k).inum).data ∨ Writes s e (s.slot k).inum)
    (hlinks : m + owedOf s (s.slot k).inum + w ≤ n.nlink + (s.thread p).owed (s.slot k).inum)
    (hroot : (s.slot k).inum = rootino → 0 < m) : Does s e t := by
  obtain ⟨hrefs, hk, hready, hvalid, hnode, htype'⟩ := h.locked hidle hholder
  have hslot : SlotOk { s.slot k with node := n, holder := holder } n :=
    .of_ready hready (fun _ => rfl) (by rw [htype]; exact htype') (fun _ => hvalid) (fun _ => hvalid)
  rw [ht]
  refine .entry ?_ (.idle h hk hidle rfl rfl fun _ _ => rfl) rfl ?_ he
  · exact {
      before := h.inum_eq_iff hk
      after := fun _ => ⟨rfl, hslot⟩
      unused := fun hzero => absurd hzero hk.ne'
      free := hslot.free
      count := rfl
      refs := fun _ _ => rfl
      links := by simpa only [update_self] using hlinks
      owed := fun j hj => update_of_ne hj _ _
      root := hroot
      holder := hkeep.imp id fun hp => .inl ⟨hp, hrefs⟩ }
  · exact ⟨hdata.imp_right .inl, .inl htype, fun hzero => absurd hzero hk.ne'⟩

theorem does_iunlock (h : Inv s) (hstep : step s (.iunlock p k) = some t) :
    Does s (.iunlock p k) t := by
  obtain ⟨⟨hidle, hholder⟩, ⟨⟩⟩ := ite_none_right_eq_some.mp hstep
  obtain ⟨-, -, -, -, hnode, -⟩ := h.locked hidle hholder
  refine .of_locked (s.disk (s.slot k).inum) (s.names (s.slot k).inum)
    ((s.thread p).owed (s.slot k).inum) none h hidle hholder nofun ?_ (.inl rfl) rfl (.inl rfl) ?_ ?_
  · simp only [State.touch, State.setSlot, ← hnode, update_eq_self]
    rw [hnode, update_eq_self]
  · have hlinks := h.links (s.slot k).inum
    omega
  · rintro hroot
    rw [hroot]
    exact h.root

/-- `iupdate` by the holder of the lock. -/
theorem Does.of_iupdate (n : Node) (w : ℕ) (h : Inv s) (hidle : s.Idle p)
    (hholder : (s.slot k).holder = some p) (he : ∀ p i type, e ≠ .ialloc p i type)
    (htype : n.type = (s.slot k).node.type)
    (hdata : n.data = (s.slot k).node.data ∨ Writes s e (s.slot k).inum)
    (hlinks : (s.slot k).node.nlink + w ≤ n.nlink + (s.thread p).owed (s.slot k).inum) :
    Does s e ((s.update k n).setOwed p (s.slot k).inum w) := by
  obtain ⟨-, -, -, -, hnode, -⟩ := h.locked hidle hholder
  rw [hnode] at htype hdata hlinks
  refine .of_locked n (s.names (s.slot k).inum) w (some p) h hidle hholder he ?_ (.inr rfl) htype hdata
    ?_ ?_
  · simp only [State.touch, State.update, State.setSlot, State.setOwed, State.setThread, ← hholder,
      update_eq_self]
  · have := h.links (s.slot k).inum
    omega
  · intro hroot
    rw [hroot]
    exact h.root

section

variable (h : Inv s)
include h

theorem does_writei {data : List (BitVec 8)}
    (hstep : step s (.writei p k data) = some t) : Does s (.writei p k data) t := by
  obtain ⟨⟨hidle, hholder⟩, ⟨⟩⟩ := ite_none_right_eq_some.mp hstep
  have hsame : (s.update k { (s.slot k).node with data := data }).setOwed p (s.slot k).inum
      ((s.thread p).owed (s.slot k).inum) = s.update k { (s.slot k).node with data := data } := by
    simp only [State.update, State.setSlot, State.setOwed, State.setThread, update_eq_self]
  rw [← hsame]
  exact .of_iupdate _ _ h hidle hholder nofun rfl (.inr ⟨p, k, data, rfl, rfl, hholder⟩) le_rfl

theorem does_inc (hstep : step s (.inc p k) = some t) : Does s (.inc p k) t := by
  obtain ⟨⟨hidle, hholder⟩, ⟨⟩⟩ := ite_none_right_eq_some.mp hstep
  refine .of_iupdate _ _ h hidle hholder nofun rfl (.inl rfl) ?_
  dsimp only
  omega

theorem does_dec (hstep : step s (.dec p k) = some t) : Does s (.dec p k) t := by
  obtain ⟨⟨hidle, hholder, howed⟩, ⟨⟩⟩ := ite_none_right_eq_some.mp hstep
  refine .of_iupdate _ _ h hidle hholder nofun rfl (.inl rfl) ?_
  dsimp only
  omega

/-- An entry is cleared. -/
theorem does_erase (hstep : step s (.erase p k) = some t) : Does s (.erase p k) t := by
  obtain ⟨⟨hidle, hholder, hnamed⟩, ⟨⟩⟩ := ite_none_right_eq_some.mp hstep
  obtain ⟨-, -, -, -, hnode, -⟩ := h.locked hidle hholder
  unfold State.Named at hnamed
  refine .of_locked (s.disk (s.slot k).inum) (s.names (s.slot k).inum - 1)
    ((s.thread p).owed (s.slot k).inum + 1) (some p) h hidle hholder nofun ?_ (.inr rfl) rfl
    (.inl rfl) ?_ ?_
  · rw [← hholder, ← hnode]
    simp only [State.touch, State.setNames, State.setOwed, State.setThread, update_eq_self]
    rw [hnode, update_eq_self]
  · have hlinks := h.links (s.slot k).inum
    split_ifs at hnamed <;> omega
  · intro hroot
    rw [if_pos hroot] at hnamed
    omega

omit [DecidableEq ι] in
/-- What `iget` finds. -/
theorem iget_cases {r : Fin ninode × Slot ι} (hget : iget s i = some r) :
    (0 < (s.slot r.1).ref ∧ (s.slot r.1).inum = i ∧
      r.2 = { s.slot r.1 with ref := (s.slot r.1).ref + 1 }) ∨
    ((∀ j, 0 < (s.slot j).ref → ((s.slot j).inum = i ↔ j = r.1)) ∧ (s.slot r.1).ref = 0 ∧
      (s.slot r.1).stage = .ready ∧ (s.slot r.1).holder = none ∧
      r.2 = { s.slot r.1 with inum := i, ref := 1, valid := false }) := by
  unfold iget at hget
  split at hget
  · next k hk =>
    cases hget
    have hfound := List.find?_some hk
    simp only [decide_eq_true_eq] at hfound
    exact .inl ⟨hfound.1, hfound.2, rfl⟩
  · next hnone =>
    split at hget
    · exact nomatch hget
    · next k hk =>
      cases hget
      have hfound := List.find?_some hk
      simp only [decide_eq_true_eq] at hfound
      refine .inr ⟨?_, hfound, (h.unused k hfound).1, (h.unused k hfound).2, rfl⟩
      intro j hj
      have hmiss := List.find?_eq_none.mp hnone j (List.mem_finRange j)
      simp only [decide_eq_true_eq, not_and] at hmiss
      refine iff_of_false (hmiss hj) ?_
      rintro rfl
      omega

/-- One more reference for a process. -/
theorem Does.of_addRef (hnew : ∀ q, (s.thread q).code ≠ .alloc i)
    (he : ∀ p i type, e ≠ .ialloc p i type)
    (hbefore : ∀ j, 0 < (s.slot j).ref → ((s.slot j).inum = i ↔ j = k)) (hinum : v.inum = i)
    (href : v.ref = (s.slot k).ref + 1) (hholder : v.holder = (s.slot k).holder)
    (hstage : v.stage = (s.slot k).stage) (hslot : SlotOk v (s.disk i)) :
    Does s e ((s.setSlot k v).addRef p k) := by
  have hlinks := h.links i
  have hrefs : 0 < update (s.thread p).refs k ((s.thread p).refs k + 1) k := by
    rw [update_self]
    exact Nat.succ_pos _
  have ht : Touch s p k i v (s.disk i) (s.names i) { s.thread p with
      refs := update (s.thread p).refs k ((s.thread p).refs k + 1) } := {
    before := hbefore
    after := fun _ => ⟨hinum, hslot⟩
    unused := fun hzero => by omega
    free := h.free i
    count := by
      simp only [update_self]
      omega
    refs := fun j hj => update_of_ne hj _ _
    links := by
      dsimp only
      omega
    owed := fun _ _ => rfl
    root := fun hroot => hroot ▸ h.root
    holder := .inr (.inr ⟨hholder, fun _ => hrefs⟩) }
  exact .of_slot he ht (.same h hnew rfl hstage ht.refs fun _ => hrefs) hinum (fun hzero => by omega)

/-- `iget` for an inode with links. -/
theorem does_get (hnlink : (s.disk i).nlink ≠ 0)
    (he : ∀ p i type, e ≠ .ialloc p i type) (hget : s.get p i = some t) : Does s e t := by
  obtain ⟨⟨k, v⟩, hr, rfl⟩ := map_eq_some_iff.mp hget
  have hnew : ∀ q, (s.thread q).code ≠ .alloc i := fun q hq => hnlink (h.alloc q i hq).2.1
  obtain ⟨hk, hi, hv⟩ | ⟨hbefore, hzero, hready, hholder, hv⟩ := iget_cases h hr
  · dsimp only at hk hi hv
    subst i v
    have hslot := h.slots k hk
    have hready := hslot.ready_of_nlink hnlink
    exact .of_addRef h hnew he (h.inum_eq_iff hk) rfl rfl rfl rfl
      (.of_ready hready hslot.copy (hslot.type_ne_zero hready) hslot.lock
        (fun hzero => absurd hzero hnlink))
  · dsimp only at hbefore hzero hready hholder hv
    subst v
    exact .of_addRef h hnew he hbefore rfl (by rw [hzero]) rfl rfl
      (.of_ready hready nofun (fun htype => hnlink (h.free i htype))
        (fun hlock => absurd hholder hlock) (fun hzero => absurd hzero hnlink))

theorem does_idup (hstep : step s (.idup p q k) = some t) : Does s (.idup p q k) t := by
  obtain ⟨⟨hidle, hrefs⟩, ⟨⟩⟩ := ite_none_right_eq_some.mp hstep
  have hk := h.ref_pos hrefs
  have hready := h.ready hidle hrefs
  have hslot := h.slots k hk
  refine .of_addRef h (h.not_alloc hk) nofun (h.inum_eq_iff hk) rfl rfl rfl rfl ?_
  exact .of_ready hready hslot.copy (hslot.type_ne_zero hready) hslot.lock (hslot.valid_of_ready hready)

/-- An entry of the cache is set up for a new inode. -/
theorem does_ialloced (hstep : step s (.ialloced p) = some t) :
    Does s (.ialloced p) t := by
  simp only [step] at hstep
  split at hstep
  · next i hcode =>
    obtain ⟨⟨k, v⟩, hr, rfl⟩ := map_eq_some_iff.mp hstep
    obtain ⟨htype, hnlink, hnone, honly⟩ := h.alloc p i hcode
    obtain ⟨hk, hi, -⟩ | ⟨hbefore, hzero, hready, hholder, hv⟩ := iget_cases h hr
    · exact absurd hi (hnone _ hk)
    · dsimp only at hbefore hzero hready hholder hv
      subst v
      have hsame : ((s.setSlot k { s.slot k with inum := i, ref := 1, valid := false }).addRef
          p k).enter p k (.create k) = { s with
            slot := update s.slot k { s.slot k with
              inum := i, ref := 1, valid := false, stage := .creating }
            thread := update s.thread p { s.thread p with
              code := .create k
              refs := update (s.thread p).refs k ((s.thread p).refs k + 1) } } := by
        simp only [State.setSlot, State.addRef, State.setThread, State.enter, State.goto, update_self,
          update_idem, Code.stage]
      have hlinks := h.links i
      rw [hsame]
      refine .of_slot nofun ?_ (.own h (fun q hqp hq => hqp (honly q hq)) (.inr ⟨hready, .inr hcode⟩)
        (.inl ⟨rfl, ?_⟩) rfl) rfl nofun
      · refine {
          before := hbefore
          after := fun _ => ⟨rfl, ?_⟩
          unused := nofun
          free := h.free i
          count := ?_
          refs := fun j hj => update_of_ne hj _ _
          links := by
            dsimp only
            omega
          owed := fun _ _ => rfl
          root := fun hroot => hroot ▸ h.root
          holder := .inl hholder }
        · exact {
            copy := nofun
            type := iff_of_false htype nofun
            busy := fun _ => ⟨rfl, hholder, hnlink⟩
            valid := fun _ hnew => absurd rfl hnew
            lock := fun hlock => absurd hholder hlock
            orphan := fun _ => .inr rfl
            empty := nofun }
        · simp only [update_self]
          omega
      · simp only [update_self]
        omega
  · exact nomatch hstep

/-- A new inode gets its first link. -/
theorem does_create (hstep : step s (.create p) = some t) : Does s (.create p) t := by
  simp only [step] at hstep
  split at hstep
  · next k hcode =>
    have hon : (s.thread p).code.on = some k := by rw [hcode, Code.on]
    obtain ⟨hk, -, hone, hfree, hnlink⟩ := h.busy hon
    obtain ⟨hrefs, hstage⟩ := h.code p k hon
    rw [hcode, Code.stage] at hstage
    have hslot := h.slots k hk
    have htype := hslot.type_ne_zero hstage
    rw [if_pos hfree] at hstep
    obtain ⟨v, hv, rfl⟩ := map_eq_some_iff.mp hstep
    have hlocked : v = { s.slot k with
        holder := some p, valid := true, node := s.disk (s.slot k).inum } := by
      unfold ilock at hv
      split_ifs at hv with hvalid
      · cases hv
        rw [← hvalid, ← hslot.copy hvalid]
      · cases hv
        rfl
    subst v
    have hsame : (((s.setSlot k { s.slot k with
          holder := some p, valid := true, node := s.disk (s.slot k).inum }).update k
          { s.disk (s.slot k).inum with nlink := 1 }).setOwed p (s.slot k).inum
          ((s.thread p).owed (s.slot k).inum + 1)).enter p k .idle =
        s.touch p k (s.slot k).inum { s.slot k with
          holder := some p, valid := true, node := { s.disk (s.slot k).inum with nlink := 1 },
          stage := .ready } { s.disk (s.slot k).inum with nlink := 1 } (s.names (s.slot k).inum)
          { s.thread p with
            code := .idle
            owed := update (s.thread p).owed (s.slot k).inum
              ((s.thread p).owed (s.slot k).inum + 1) } := by
      simp only [State.touch, State.setSlot, State.setOwed, State.setThread, State.enter, State.goto,
        State.update, update_eq_self, update_self, update_idem, Code.stage]
    have hlinks := h.links (s.slot k).inum
    rw [hsame]
    refine .entry ?_ (CodeStep.own h (fun q _ => h.not_alloc hk q) (.inl hon) (.inr rfl) rfl) rfl
      ⟨.inl rfl, .inl rfl, fun hzero => absurd hzero hk.ne'⟩ nofun
    refine {
      before := h.inum_eq_iff hk
      after := fun _ => ⟨rfl, .of_ready rfl (fun _ => rfl) htype (fun _ => rfl) nofun⟩
      unused := fun hzero => absurd hzero hk.ne'
      free := fun hzero => absurd hzero htype
      count := rfl
      refs := fun _ _ => rfl
      links := ?_
      owed := fun j hj => update_of_ne hj _ _
      root := fun hroot => hroot ▸ h.root
      holder := .inr (.inl ⟨rfl, hrefs⟩) }
    simp only [update_self]
    omega
  · exact nomatch hstep

omit [DecidableEq ι] in
/-- One reference less for a process. -/
theorem Inv.touch_drop (hrefs : 0 < (s.thread p).refs k)
    (hinum : v.inum = (s.slot k).inum) (href : v.ref = (s.slot k).ref - 1)
    (hslot : 0 < v.ref → SlotOk v (s.disk (s.slot k).inum))
    (hunused : v.ref = 0 → v.stage = .ready ∧ v.holder = none ∧
      ((s.disk (s.slot k).inum).type = 0 ∨ (s.disk (s.slot k).inum).nlink ≠ 0))
    (hholder : v.holder = none ∨ (v.holder = (s.slot k).holder ∧ v.holder ≠ some p))
    (hx : x.refs = update (s.thread p).refs k ((s.thread p).refs k - 1))
    (howed : x.owed = (s.thread p).owed) :
    Touch s p k (s.slot k).inum v (s.disk (s.slot k).inum) (s.names (s.slot k).inum) x where
  before := h.inum_eq_iff (h.ref_pos hrefs)
  after := fun hpos => ⟨hinum, hslot hpos⟩
  unused := hunused
  free := h.free _
  count := by
    have hk := h.ref_pos hrefs
    rw [hx, update_self]
    omega
  refs := fun j hj => by rw [hx, update_of_ne hj]
  links := by
    have hlinks := h.links (s.slot k).inum
    rw [howed]
    omega
  owed := fun j _ => by rw [howed]
  root := fun hroot => by
    rw [hroot]
    exact h.root
  holder := hholder.imp_right fun hsame => .inr ⟨hsame.1, fun hp => absurd hp hsame.2⟩

/-- `iput` begins to free an inode. -/
theorem does_iput_last (hidle : s.Idle p) (hrefs : 0 < (s.thread p).refs k)
    (hholder : (s.slot k).holder ≠ some p) (hone : (s.slot k).ref = 1)
    (hvalid : (s.slot k).valid = true) (hzero : (s.slot k).node.nlink = 0) :
    Does s (.iput p k) (s.enter p k (.trunc k)) := by
  have hk := h.ref_pos hrefs
  have hready := h.ready hidle hrefs
  have hslot := h.slots k hk
  have hfree := h.holder_none hone hrefs hholder
  have hnlink : (s.disk (s.slot k).inum).nlink = 0 := by rwa [← hslot.copy hvalid]
  refine .of_slot nofun (h.touch_used hk hk rfl ?_ rfl rfl rfl (fun _ _ => rfl) (.inl hfree))
    (.own h (fun q _ => h.not_alloc hk q) (.inr ⟨hready, .inl hidle⟩) (.inl ⟨rfl, hrefs⟩) rfl) rfl
    (fun hzero => absurd hzero hk.ne')
  exact {
    copy := hslot.copy
    type := iff_of_false (hslot.type_ne_zero hready) nofun
    busy := fun _ => ⟨hone, hfree, hnlink⟩
    valid := fun _ _ => hvalid
    lock := hslot.lock
    orphan := fun _ => .inl hvalid
    empty := nofun }

/-- `iput` drops a reference. -/
theorem does_iput_drop (hidle : s.Idle p) (hrefs : 0 < (s.thread p).refs k)
    (hholder : (s.slot k).holder ≠ some p)
    (hmore : ¬ ((s.slot k).ref = 1 ∧ (s.slot k).valid ∧ (s.slot k).node.nlink = 0)) : Does s (.iput p k)
      ((s.setSlot k { s.slot k with ref := (s.slot k).ref - 1 }).dropRef p k) := by
  have hk := h.ref_pos hrefs
  have hready := h.ready hidle hrefs
  have hslot := h.slots k hk
  have htype := hslot.type_ne_zero hready
  have hvalid := hslot.valid_of_ready hready
  refine .of_slot nofun (h.touch_drop hrefs rfl rfl ?_ ?_ (.inr ⟨rfl, hholder⟩) rfl rfl)
    (.idle h hk hidle rfl rfl fun j hj => update_of_ne hj _ _) rfl (fun _ hzero => absurd hzero htype)
  · intro _
    exact .of_ready hready hslot.copy htype hslot.lock hvalid
  · intro hzero
    have hone : (s.slot k).ref = 1 := by
      dsimp only at hzero
      omega
    refine ⟨hready, h.holder_none hone hrefs hholder, .inr fun hnlink => hmore ⟨hone, hvalid hnlink, ?_⟩⟩
    rw [hslot.copy (hvalid hnlink)]
    exact hnlink

theorem does_iput (hstep : step s (.iput p k) = some t) : Does s (.iput p k) t := by
  simp only [step] at hstep
  split_ifs at hstep with hguard hlast
  · cases hstep
    exact does_iput_last h hguard.1 hguard.2.1 hguard.2.2 hlast.1 hlast.2.1 hlast.2.2
  · cases hstep
    exact does_iput_drop h hguard.1 hguard.2.1 hguard.2.2 hlast

/-- `iput` truncates an inode, or frees it. -/
theorem does_end {code : Code} (he : Ends s e (s.slot k).inum)
    (hon : (s.thread p).code.on = some k) (hold : (s.slot k).stage ≠ .creating)
    (hcode : code.on = some k) (htype : n.type = 0 ↔ code.stage = .freed) (hnlink : n.nlink = (s.slot k).node.nlink)
    (hdata : n.data = []) : Does s e ((s.update k n).enter p k code) := by
  obtain ⟨hk, hready, hone, hfree, hzero⟩ := h.busy hon
  obtain ⟨hrefs, -⟩ := h.code p k hon
  have hslot := h.slots k hk
  have hvalid := hslot.valid hready hold
  rw [hslot.copy hvalid] at hnlink
  have hsame : (s.update k n).enter p k code = s.touch p k (s.slot k).inum
      { s.slot k with node := n, stage := code.stage } n (s.names (s.slot k).inum)
      { s.thread p with code := code } := by
    simp only [State.touch, State.enter, State.update, State.setSlot, State.goto, State.setThread,
      update_eq_self, update_self, update_idem]
  rw [hsame]
  refine .entry (h.touch_used hk hk rfl ?_ hnlink rfl rfl (fun _ _ => rfl) (.inl hfree))
    (CodeStep.own h (fun q _ => h.not_alloc hk q) (.inl hon) (.inl ⟨hcode, hrefs⟩) rfl) rfl
    ⟨.inr (.inr he), .inr he, fun hzero => absurd hzero hk.ne'⟩ ?_
  · exact {
      copy := fun _ => rfl
      type := htype
      busy := fun _ => ⟨hone, hfree, hnlink.trans hzero⟩
      valid := fun _ _ => hvalid
      lock := fun _ => hvalid
      orphan := fun _ => .inl hvalid
      empty := fun _ => hdata }
  · obtain ⟨q, l, rfl, -⟩ := he
    exact nofun

/-- The parts of `iput` that free an inode. -/
theorem does_ifree (hstep : step s (.ifree p) = some t) : Does s (.ifree p) t := by
  simp only [step, ifree] at hstep
  split at hstep
  · next k hcode =>
    cases hstep
    have hon : (s.thread p).code.on = some k := by rw [hcode, Code.on]
    have hstage := (h.code p k hon).2
    have hslot := h.slots k (h.busy hon).1
    rw [hcode, Code.stage] at hstage
    refine does_end h ⟨p, k, rfl, .inl hcode, rfl⟩ hon (by simp [hstage]) rfl
      (iff_of_false ?_ nofun) rfl rfl
    rw [hslot.copy (hslot.valid (by simp [hstage]) (by simp [hstage]))]
    exact hslot.type_ne_zero hstage
  · next k hcode =>
    cases hstep
    have hon : (s.thread p).code.on = some k := by rw [hcode, Code.on]
    have hstage := (h.code p k hon).2
    have hslot := h.slots k (h.busy hon).1
    rw [hcode, Code.stage] at hstage
    refine does_end h ⟨p, k, rfl, .inr hcode, rfl⟩ hon (by simp [hstage]) rfl
      (iff_of_true rfl rfl) rfl ?_
    rw [← hslot.empty (.inl hstage),
      ← hslot.copy (hslot.valid (by simp [hstage]) (by simp [hstage]))]
  · next k hcode =>
    cases hstep
    have hon : (s.thread p).code.on = some k := by rw [hcode, Code.on]
    obtain ⟨hk, -, hone, hfree, -⟩ := h.busy hon
    obtain ⟨hrefs, hstage⟩ := h.code p k hon
    have hslot := h.slots k hk
    rw [hcode, Code.stage] at hstage
    have hsame : ((s.setSlot k { s.slot k with valid := false, ref := (s.slot k).ref - 1 }).dropRef
        p k).enter p k .idle = { s with
          slot := update s.slot k { s.slot k with
            valid := false, ref := (s.slot k).ref - 1, stage := .ready }
          thread := update s.thread p { s.thread p with
            code := .idle
            refs := update (s.thread p).refs k ((s.thread p).refs k - 1) } } := by
      simp only [State.enter, State.setSlot, State.dropRef, State.goto, State.setThread, update_self,
        update_idem, Code.stage]
    rw [hsame]
    refine .of_slot nofun (h.touch_drop hrefs rfl rfl ?_ ?_ (.inl hfree) rfl rfl)
      (.own h (fun q _ => h.not_alloc hk q) (.inl hon) (.inr rfl) rfl) rfl
      (fun _ _ => hslot.empty (.inr hstage))
    · intro hpos
      dsimp only at hpos
      omega
    · exact fun _ => ⟨rfl, hfree, .inl (hslot.type.mpr hstage)⟩
  · exact nomatch hstep

/-- A reference is handed over. -/
theorem does_give (hstep : step s (.give p q k) = some t) : Does s (.give p q k) t := by
  obtain ⟨⟨hidle, hrefs, hholder⟩, ⟨⟩⟩ := ite_none_right_eq_some.mp hstep
  -- `f` are the processes without the reference, `g` those with the reference at its new place
  set f := update s.thread p { s.thread p with
    refs := update (s.thread p).refs k ((s.thread p).refs k - 1) } with hf
  set g := update f q { f q with
    refs := update (f q).refs k ((f q).refs k + 1) } with hg
  have hfcode : ∀ r, (f r).code = (s.thread r).code ∧ (f r).owed = (s.thread r).owed :=
    (forall_update_iff s.thread fun r y => y.code = (s.thread r).code ∧ y.owed = (s.thread r).owed).mpr
      ⟨⟨rfl, rfl⟩, fun _ _ => ⟨rfl, rfl⟩⟩
  have hgcode : ∀ r, (g r).code = (s.thread r).code ∧ (g r).owed = (s.thread r).owed :=
    (forall_update_iff f fun r y => y.code = (s.thread r).code ∧ y.owed = (s.thread r).owed).mpr
      ⟨hfcode q, fun r _ => hfcode r⟩
  -- only the process that hands the reference over has less
  have hless : ∀ r j, (r ≠ p ∨ j ≠ k) → (s.thread r).refs j ≤ (g r).refs j := by
    intro r j hne
    have hfle : (s.thread r).refs j ≤ (f r).refs j := by
      by_cases hr : r = p
      · have hj := hne.resolve_left (not_not_intro hr)
        rw [hr, hf, update_self]
        simp only [update_of_ne hj, le_refl]
      · rw [hf, update_of_ne hr]
    refine hfle.trans ((forall_update_iff f fun r y => (f r).refs j ≤ y.refs j).mpr
      ⟨?_, fun _ _ => le_rfl⟩ r)
    exact (forall_update_iff (f q).refs fun j m => (f q).refs j ≤ m).mpr
      ⟨Nat.le_succ _, fun _ _ => le_rfl⟩ j
  refine .names (f := g) (fun r => (hgcode r).1) ?_ ?_ ?_ ?_ h.root nofun
  · intro j
    have hfsum := tally_update (fun y : Thread => y.refs j) s.thread p { s.thread p with
      refs := update (s.thread p).refs k ((s.thread p).refs k - 1) }
    have hgsum := tally_update (fun y : Thread => y.refs j) f q { f q with
      refs := update (f q).refs k ((f q).refs k + 1) }
    rw [← hf] at hfsum
    rw [← hg] at hgsum
    unfold refsOf
    by_cases hj : j = k
    · subst j
      simp only [update_self] at hfsum hgsum
      omega
    · simp only [update_of_ne hj] at hfsum hgsum
      omega
  · intro j r hr
    refine (h.holder j r hr).trans_le (hless r j ?_)
    by_contra hboth
    push Not at hboth
    rw [hboth.1, hboth.2] at hr
    exact hholder hr
  · intro r j hr
    refine (h.code r j hr).1.trans_le (hless r j (.inl ?_))
    rintro rfl
    rw [show (s.thread r).code = .idle from hidle] at hr
    exact nomatch hr
  · intro j
    have howed : tally (fun y => y.owed j) g = owedOf s j := by
      unfold owedOf tally
      exact Finset.sum_congr rfl fun r _ => congrFun (hgcode r).2 j
    rw [howed]
    exact h.links j

/-- An entry is written by `dirlink`. -/
theorem does_enter (hstep : step s (.enter p i) = some t) : Does s (.enter p i) t := by
  obtain ⟨⟨hidle, howed⟩, ⟨⟩⟩ := ite_none_right_eq_some.mp hstep
  set x : Thread := { s.thread p with
    owed := update (s.thread p).owed i ((s.thread p).owed i - 1) } with hx
  change Does s (.enter p i) { s with
    names := update s.names i (s.names i + 1), thread := update s.thread p x }
  refine .names ?_ (fun j => tally_update_of_eq rfl) ?_ ?_ ?_ ?_ nofun
  · exact (forall_update_iff s.thread fun q y => y.code = (s.thread q).code).mpr
      ⟨rfl, fun _ _ => rfl⟩
  · exact fun j => (forall_update_iff s.thread fun q y => (s.slot j).holder = some q → 0 < y.refs j).mpr
      ⟨h.holder j p, fun q _ => h.holder j q⟩
  · exact (forall_update_iff s.thread fun q y => ∀ j, (s.thread q).code.on = some j → 0 < y.refs j).mpr
      ⟨fun j hj => (h.code p j hj).1, fun q _ j hj => (h.code q j hj).1⟩
  · intro j
    have hsum := owedOf_update s p x j
    have hlinks := h.links j
    by_cases hj : j = i
    · subst j
      simp only [hx, update_self] at hsum ⊢
      omega
    · simp only [hx, update_of_ne hj] at hsum ⊢
      omega
  · have hroot := h.root
    by_cases hi : rootino = i
    · rw [← hi, update_self]
      omega
    · rwa [update_of_ne hi]

/-- An entry goes with its directory. -/
theorem does_vanish (hstep : step s (.vanish i) = some t) : Does s (.vanish i) t := by
  obtain ⟨hnamed, ⟨⟩⟩ := ite_none_right_eq_some.mp hstep
  unfold State.Named at hnamed
  refine .names (f := s.thread) (fun _ => rfl) (fun _ => rfl) h.holder
    (fun q j hq => (h.code q j hq).1) ?_ ?_ nofun
  · intro j
    have hlinks := h.links j
    unfold owedOf at hlinks
    by_cases hj : j = i
    · rw [hj] at hlinks ⊢
      rw [update_self]
      omega
    · rwa [update_of_ne hj]
  · have hroot := h.root
    by_cases hi : rootino = i
    · rw [if_pos hi.symm] at hnamed
      rw [hi, update_self]
      omega
    · rwa [update_of_ne hi]

omit [DecidableEq ι] in
/-- A free inode that is in the cache is about to be cleared there. -/
theorem Inv.clear_of_type_eq_zero (hk : 0 < (s.slot k).ref)
    (hzero : (s.disk (s.slot k).inum).type = 0) : ∃ q, (s.thread q).code = .clear k := by
  have hfreed := (h.slots k hk).type.mp hzero
  obtain ⟨q, hq⟩ := h.stage k (by rw [hfreed]; exact nofun)
  have hnoted := (h.code q k hq).2
  rw [hfreed] at hnoted
  refine ⟨q, ?_⟩
  cases hcode : (s.thread q).code with
  | clear j =>
    rw [hcode, Code.on, some.injEq] at hq
    rw [hq]
  | idle => simp [hcode, Code.stage] at hnoted
  | alloc i => simp [hcode, Code.stage] at hnoted
  | create j | trunc j | free j => simp [hcode, Code.stage] at hnoted

theorem does_ialloc {type : BitVec 16} (hsafe : Safe s (.ialloc p i type))
    (hstep : step s (.ialloc p i type) = some t) : Does s (.ialloc p i type) t := by
  obtain ⟨⟨hidle, -, -, hfree, htype⟩, ⟨⟩⟩ := ite_none_right_eq_some.mp hstep
  refine .ialloc hidle hfree htype ?_ rfl
  rintro k hk rfl
  obtain ⟨q, hq⟩ := h.clear_of_type_eq_zero hk hfree
  exact hsafe q k hq rfl

/-- What every step does. -/
theorem step_does (hsafe : Safe s e) (hstep : step s e = some t) : Does s e t := by
  cases e with
  | lookup p i =>
    obtain ⟨⟨-, hnames⟩, hget⟩ := ite_none_right_eq_some.mp hstep
    have hlinks := h.links i
    exact does_get h (by omega) nofun hget
  | dotdot p i =>
    exact does_get h hsafe nofun (ite_none_right_eq_some.mp hstep).2
  | idup p q k => exact does_idup h hstep
  | give p q k => exact does_give h hstep
  | ilock p k => exact does_ilock h hstep
  | iunlock p k => exact does_iunlock h hstep
  | writei p k data => exact does_writei h hstep
  | inc p k => exact does_inc h hstep
  | dec p k => exact does_dec h hstep
  | enter p i => exact does_enter h hstep
  | erase p k => exact does_erase h hstep
  | vanish i => exact does_vanish h hstep
  | ialloc p i type => exact does_ialloc h hsafe hstep
  | ialloced p => exact does_ialloced h hstep
  | create p => exact does_create h hstep
  | iput p k => exact does_iput h hstep
  | ifree p => exact does_ifree h hstep

omit [DecidableEq ι] in
/-- Changes to directories keep the invariant, and so does handing a reference over. -/
theorem Inv.names_thread {f : ι → Thread} {names : ℕ → ℕ} (hcode : ∀ q, (f q).code = (s.thread q).code)
    (hcount : ∀ j, tally (fun y => y.refs j) f = refsOf s j)
    (hholder : ∀ j q, (s.slot j).holder = some q → 0 < (f q).refs j)
    (hon : ∀ q j, (s.thread q).code.on = some j → 0 < (f q).refs j)
    (hlinks : ∀ j, names j + tally (fun y => y.owed j) f ≤ (s.disk j).nlink)
    (hroot : 0 < names rootino) : Inv { s with names := names, thread := f } where
  unique := h.unique
  count := fun j => (h.count j).trans (hcount j).symm
  slots := h.slots
  unused := h.unused
  holder := hholder
  code := by
    intro q j hq
    rw [hcode] at hq ⊢
    exact ⟨hon q j hq, (h.code q j hq).2⟩
  stage := by
    intro j hready
    obtain ⟨q, hq⟩ := h.stage j hready
    exact ⟨q, by dsimp only; rw [hcode]; exact hq⟩
  links := hlinks
  root := hroot
  free := h.free
  orphan := by
    intro j htype hnlink
    refine (h.orphan j htype hnlink).imp_right ?_
    rintro ⟨q, hq⟩
    exact ⟨q, by dsimp only; rw [hcode]; exact hq⟩
  alloc := by
    intro q j hq
    dsimp only at hq ⊢
    rw [hcode] at hq
    obtain ⟨htype, hnlink, hnone, honly⟩ := h.alloc q j hq
    exact ⟨htype, hnlink, hnone, fun r hr => honly r (by rw [← hcode]; exact hr)⟩

/-- `ialloc` keeps the invariant when nobody has a reference to the inode. -/
theorem Inv.ialloc {type : BitVec 16} (hidle : s.Idle p) (hfree : (s.disk i).type = 0)
    (htype : type ≠ 0) (hnone : ∀ k, 0 < (s.slot k).ref → (s.slot k).inum ≠ i) :
    Inv (({ s with disk := update s.disk i ⟨type, 0, []⟩ } : State ι).goto p (.alloc i)) := by
  set x : Thread := { s.thread p with code := .alloc i } with hx
  change Inv { s with
    disk := update s.disk i ⟨type, 0, []⟩, thread := update s.thread p x }
  have hnlink := h.free i hfree
  have hidle : (s.thread p).code = .idle := hidle
  have halloc : ∀ q j, (update s.thread p x q).code = .alloc j ↔
      (q = p ∧ j = i) ∨ (s.thread q).code = .alloc j := by
    intro q j
    by_cases hq : q = p
    · rw [hq, update_self, hidle, hx]
      simp [eq_comm]
    · rw [update_of_ne hq]
      simp [hq]
  -- nobody else has allocated the inode, since it was free
  have hfresh : ∀ r, (s.thread r).code ≠ .alloc i := fun r hr => (h.alloc r i hr).1 hfree
  exact {
    unique := h.unique
    count := by
      intro j
      have hsum : tally (fun y => y.refs j) (update s.thread p x) = refsOf s j :=
        tally_update_of_eq rfl
      exact (h.count j).trans hsum.symm
    slots := by
      intro j hj
      dsimp only
      rw [update_of_ne (hnone j hj)]
      exact h.slots j hj
    unused := h.unused
    holder := fun j => (forall_update_iff s.thread fun q y =>
      (s.slot j).holder = some q → 0 < y.refs j).mpr ⟨h.holder j p, fun q _ => h.holder j q⟩
    code := (forall_update_iff s.thread fun _ y => ∀ j, y.code.on = some j →
      0 < y.refs j ∧ (s.slot j).stage = y.code.stage).mpr ⟨nofun, fun q _ => h.code q⟩
    stage := by
      intro j hready
      obtain ⟨q, hq⟩ := h.stage j hready
      have hqp : q ≠ p := by
        rintro rfl
        rw [hidle] at hq
        exact nomatch hq
      exact ⟨q, by rwa [← update_of_ne hqp x s.thread] at hq⟩
    links := by
      intro j
      have hsum : tally (fun y => y.owed j) (update s.thread p x) = owedOf s j :=
        tally_update_of_eq rfl
      have hlinks := h.links j
      simp only [owedOf, hsum] at hlinks ⊢
      by_cases hj : j = i
      · subst j
        rw [update_self]
        omega
      · rwa [update_of_ne hj]
    root := h.root
    free := (forall_update_iff s.disk fun _ n => n.type = 0 → n.nlink = 0).mpr
      ⟨fun _ => rfl, fun j _ => h.free j⟩
    orphan := by
      intro j htype hzero
      dsimp only at htype hzero
      by_cases hj : j = i
      · exact .inr ⟨p, (halloc p j).mpr (.inl ⟨rfl, hj⟩)⟩
      · rw [update_of_ne hj] at htype hzero
        refine (h.orphan j htype hzero).imp_right ?_
        rintro ⟨q, hq⟩
        exact ⟨q, (halloc q j).mpr (.inr hq)⟩
    alloc := by
      intro q j hq
      dsimp only at hq ⊢
      obtain ⟨rfl, rfl⟩ | hq' := (halloc q j).mp hq
      · rw [update_self]
        refine ⟨htype, rfl, hnone, ?_⟩
        intro r hr
        obtain ⟨hrq, -⟩ | hr := (halloc r j).mp hr
        · exact hrq
        · exact absurd hr (hfresh r)
      · have hj : j ≠ i := by
          rintro rfl
          exact hfresh q hq'
        obtain ⟨hne, hzero, hout, honly⟩ := h.alloc q j hq'
        rw [update_of_ne hj]
        refine ⟨hne, hzero, hout, ?_⟩
        intro r hr
        obtain ⟨-, hji⟩ | hr := (halloc r j).mp hr
        · exact absurd hji hj
        · exact honly r hr }

end

theorem Does.inv (hd : Does s e t) (h : Inv s) : Inv t := by
  cases hd with
  | entry ht hc _ _ _ => exact h.touch ht hc
  | names hcode hcount hholder hon hlinks hroot _ =>
    exact h.names_thread hcode hcount hholder hon hlinks hroot
  | ialloc hidle hfree htype hnone _ => exact h.ialloc hidle hfree htype hnone

/-! ### Every run -/

/-- The process of the step is in `iput` and has the only reference to the inode, which has no
links. -/
def Last (s : State ι) (e : Event ι) (i : ℕ) : Prop :=
  ∃ p k, e = .ifree p ∧ (s.slot k).inum = i ∧ (s.disk i).nlink = 0 ∧ (s.slot k).ref = 1 ∧
    ∀ q, 0 < (s.thread q).refs k → q = p

/-- References and the inodes that they are to. -/
structure Sound (s : State ι) : Prop where
  unique : ∀ j k, 0 < (s.slot j).ref → 0 < (s.slot k).ref →
    (s.slot j).inum = (s.slot k).inum → j = k
  /-- The count of an entry is the number of references to it. -/
  count : ∀ k, (s.slot k).ref = refsOf s k
  /-- Whoever has a reference has it to an allocated inode, but for the end of `iput`. -/
  alive : ∀ p k, 0 < (s.thread p).refs k → (s.thread p).code ≠ .clear k →
    (s.disk (s.slot k).inum).type ≠ 0
  /-- Every allocated inode has a link or a reference, or is about to get one. -/
  kept : ∀ i, (s.disk i).type ≠ 0 → (s.disk i).nlink = 0 →
    (∃ k, 0 < (s.slot k).ref ∧ (s.slot k).inum = i) ∨ ∃ p, (s.thread p).code = .alloc i

/-- What a step does to the references, and to the inodes that they are to. -/
structure SoundStep (s : State ι) (e : Event ι) (t : State ι) : Prop where
  inum : ∀ k, 0 < (s.slot k).ref → (t.slot k).inum = (s.slot k).inum
  /-- Inodes are freed by the last reference, without links. -/
  type : ∀ i, (s.disk i).type ≠ 0 → (t.disk i).type = 0 → Last s e i
  /-- The contents change by `writei`, by the last reference, and before the first one. -/
  data : ∀ i, (t.disk i).data ≠ (s.disk i).data →
    Writes s e i ∨ Last s e i ∨ ∀ k, 0 < (s.slot k).ref → (s.slot k).inum ≠ i
  /-- When the last reference goes, an inode without links is free and empty. -/
  last : ∀ k, 0 < (s.slot k).ref → (t.slot k).ref = 0 →
    ((t.disk (s.slot k).inum).nlink = 0 ↔ (t.disk (s.slot k).inum).type = 0) ∧
      ((t.disk (s.slot k).inum).type = 0 → (t.disk (s.slot k).inum).data = [])
  /-- The number of an inode with references is not allocated. -/
  alloc : ∀ p i type, e = .ialloc p i type → ∀ k, 0 < (s.slot k).ref → (s.slot k).inum ≠ i

omit [DecidableEq ι] in
/-- The references of a state with the invariant. -/
theorem Inv.sound (h : Inv s) : Sound s where
  unique := h.unique
  count := h.count
  alive := by
    intro p k hrefs hcode hzero
    have hk := h.ref_pos hrefs
    obtain ⟨q, hq⟩ := h.clear_of_type_eq_zero hk hzero
    have hon : (s.thread q).code.on = some k := by rw [hq, Code.on]
    obtain ⟨-, -, hone, -⟩ := h.busy hon
    obtain rfl := h.eq_of_ref_eq_one hone (h.code q k hon).1 hrefs
    exact hcode hq
  kept := h.orphan

omit [DecidableEq ι] in
/-- An inode is truncated and freed by the last reference. -/
theorem Inv.last_of_ends (h : Inv s) (he : Ends s e i) : Last s e i := by
  obtain ⟨p, k, he, hcode, rfl⟩ := he
  have hon : (s.thread p).code.on = some k := by
    obtain hcode | hcode := hcode <;> rw [hcode, Code.on]
  obtain ⟨-, -, hone, -, hnlink⟩ := h.busy hon
  exact ⟨p, k, he, rfl, hnlink, hone, fun q hq => h.eq_of_ref_eq_one hone hq (h.code p k hon).1⟩

/-- What a step does to the references. -/
theorem Does.sound (hd : Does s e t) (h : Inv s) : SoundStep s e t := by
  cases hd with
  | @entry p k i v n m x ht hc hinum hn he =>
    exact {
      inum := by
        refine (forall_update_iff s.slot fun j v =>
          0 < (s.slot j).ref → v.inum = (s.slot j).inum).mpr ⟨fun hk => ?_, fun _ _ _ => rfl⟩
        exact hinum.trans ((ht.before k hk).mpr rfl).symm
      type := by
        refine (forall_update_iff s.disk fun j n =>
          (s.disk j).type ≠ 0 → n.type = 0 → Last s e j).mpr ⟨fun hne hzero => ?_, fun j _ hne hzero =>
            absurd hzero hne⟩
        obtain hsame | hends := hn.type
        · exact absurd (hsame.symm.trans hzero) hne
        · exact h.last_of_ends hends
      data := by
        refine (forall_update_iff s.disk fun j n => n.data ≠ (s.disk j).data → Writes s e j ∨
          Last s e j ∨ ∀ k, 0 < (s.slot k).ref → (s.slot k).inum ≠ j).mpr ⟨fun hne => ?_, fun j _ hne =>
            absurd rfl hne⟩
        obtain hsame | hwrites | hends := hn.data
        · exact absurd hsame hne
        · exact .inl hwrites
        · exact .inr (.inl (h.last_of_ends hends))
      last := by
        intro j hj hzero
        change (update s.slot k v j).ref = 0 at hzero
        have hjk : j = k := by
          by_contra hjk
          rw [update_of_ne hjk] at hzero
          omega
        have hji := (ht.before j hj).mpr hjk
        rw [hjk, update_self] at hzero
        change ((update s.disk i n _).nlink = 0 ↔ (update s.disk i n _).type = 0) ∧
          ((update s.disk i n _).type = 0 → (update s.disk i n _).data = [])
        rw [hji, update_self]
        refine ⟨⟨?_, ht.free⟩, hn.last hzero⟩
        intro hnlink
        exact (ht.unused hzero).2.2.resolve_right (not_not_intro hnlink)
      alloc := fun p i type heq => absurd heq (he p i type) }
  | names _ _ _ _ _ _ he =>
    exact {
      inum := fun _ _ => rfl
      type := fun _ hne hzero => absurd hzero hne
      data := fun _ hne => absurd rfl hne
      last := fun k hk hzero => by
        dsimp only at hzero
        omega
      alloc := fun p i type heq => absurd heq (he p i type) }
  | @ialloc p i type hidle hfree htype hnone he =>
    subst he
    exact {
      inum := fun _ _ => rfl
      type := by
        exact (forall_update_iff s.disk fun j n => (s.disk j).type ≠ 0 → n.type = 0 → _).mpr
          ⟨fun _ hzero => absurd hzero htype, fun j _ hne hzero => absurd hzero hne⟩
      data := by
        intro j hne
        change (update s.disk i _ j).data ≠ _ at hne
        by_cases hj : j = i
        · rw [hj]
          exact .inr (.inr hnone)
        · rw [update_of_ne hj] at hne
          exact absurd rfl hne
      last := fun k hk hzero => by
        change (s.slot k).ref = 0 at hzero
        omega
      alloc := by
        intro q j ty heq
        cases heq
        exact hnone }

/-- The state at boot, with a consistent file system on the disk. -/
structure Start (s : State ι) : Prop where
  slot : ∀ k, (s.slot k).ref = 0 ∧ (s.slot k).stage = .ready ∧ (s.slot k).holder = none
  thread : ∀ p, (s.thread p).code = .idle ∧ (∀ k, (s.thread p).refs k = 0) ∧
    ∀ i, (s.thread p).owed i = 0
  /-- The entries that name an inode are counted. -/
  names : ∀ i, s.names i ≤ (s.disk i).nlink
  root : 0 < s.names rootino
  /-- An inode has links when it is allocated, and only then. -/
  links : ∀ i, (s.disk i).type = 0 ↔ (s.disk i).nlink = 0

omit [DecidableEq ι] in
/-- At boot. -/
theorem Start.inv (h : Start s) : Inv s where
  unique := fun j _ hj => absurd (h.slot j).1 hj.ne'
  count := fun k => (h.slot k).1.trans (tally_eq_zero_iff.mpr fun p => (h.thread p).2.1 k).symm
  slots := fun k hk => absurd (h.slot k).1 hk.ne'
  unused := fun k _ => (h.slot k).2
  holder := fun k p hp => by
    rw [(h.slot k).2.2] at hp
    exact nomatch hp
  code := fun p k hp => by
    rw [(h.thread p).1] at hp
    exact nomatch hp
  stage := fun k hready => absurd (h.slot k).2.1 hready
  links := fun i => by
    have howed : owedOf s i = 0 := tally_eq_zero_iff.mpr fun p => (h.thread p).2.2 i
    rw [howed]
    exact h.names i
  root := h.root
  free := fun i => (h.links i).mp
  orphan := fun i htype hnlink => absurd ((h.links i).mpr hnlink) htype
  alloc := fun p i hp => by
    rw [(h.thread p).1] at hp
    exact nomatch hp

omit [DecidableEq ι] in
/-- Whoever keeps a reference keeps the contents, unless someone writes to the file. -/
theorem SoundStep.data_eq (hs : SoundStep s e t) (h : Inv s) (hrefs : 0 < (s.thread p).refs k)
    (hmine : e ≠ .ifree p) (hwrites : ¬ Writes s e (s.slot k).inum) :
    (t.disk (s.slot k).inum).data = (s.disk (s.slot k).inum).data := by
  by_contra hne
  have hk := h.ref_pos hrefs
  obtain hw | ⟨q, j, he, hinum, -, hone, honly⟩ | hnone := hs.data _ hne
  · exact hwrites hw
  · have hj : 0 < (s.slot j).ref := by omega
    obtain rfl := h.unique j k hj hk hinum
    obtain rfl := honly p hrefs
    exact hmine he
  · exact hnone k hk rfl

/-- In every run in which no inode is allocated while a process is about to clear it in the
cache, and in which the `..` of removed directories are followed only to inodes with links,
references are to allocated inodes that are cached once and counted right, and the next step
frees or empties an inode only with its last reference, when it has no links. -/
theorem inode_references {s₀ : State ι} {es : List (Event ι)} (h₀ : Start s₀)
    (hrun : run step s₀ es = some s) (hsafe : Along step Safe s₀ es) :
    Sound s ∧ ∀ e t, Safe s e → step s e = some t → SoundStep s e t ∧
      ∀ p k, 0 < (s.thread p).refs k → e ≠ .ifree p → ¬ Writes s e (s.slot k).inum →
        (t.disk (s.slot k).inum).data = (s.disk (s.slot k).inum).data := by
  have h : Inv s :=
    invariant_along (fun hi hs hstep => (step_does hi hs hstep).inv hi) h₀.inv hsafe hrun
  refine ⟨h.sound, ?_⟩
  intro e t hs hstep
  have hsound := (step_does h hs hstep).sound h
  exact ⟨hsound, fun p k hrefs hmine hwrites => hsound.data_eq h hrefs hmine hwrites⟩

end

/-- A file system with the root directory and a file in it, and two processes. -/
def oneFile : State (Fin 2) where
  disk i := if i = rootino then ⟨1, 1, []⟩ else if i = 2 then ⟨2, 1, [65]⟩ else ⟨0, 0, []⟩
  names i := if i = rootino ∨ i = 2 then 1 else 0
  slot _ := ⟨0, 0, false, ⟨0, 0, []⟩, none, .ready⟩
  thread _ := ⟨.idle, fun _ => 0, fun _ => 0⟩

theorem start_oneFile : Start oneFile where
  slot _ := ⟨rfl, rfl, rfl⟩
  thread _ := ⟨rfl, fun _ => rfl, fun _ => rfl⟩
  names i := by
    unfold oneFile
    dsimp only
    split_ifs <;> simp_all
  root := by decide
  links i := by
    unfold oneFile
    dsimp only
    split_ifs <;> simp_all

/-- A process opens the file, and the other one opens it and removes it. -/
def unlinkOpen : List (Event (Fin 2)) :=
  [.lookup 1 2, .lookup 0 2, .ilock 0 0, .erase 0 0, .dec 0 0, .iunlock 0 0, .iput 0 0]

/-- A file that is removed while it is open. -/
theorem inode_references_unlinked : ∃ s, run step oneFile unlinkOpen = some s ∧
    (s.thread 1).refs 0 = 1 ∧ s.disk (s.slot 0).inum = ⟨2, 0, [65]⟩ ∧ Sound s := by
  have hrun : (run step oneFile unlinkOpen).map
      (fun s => ((s.thread 1).refs 0, s.disk (s.slot 0).inum)) = some (1, ⟨2, 0, [65]⟩) := by
    decide +kernel
  have hsafe : Along step Safe oneFile unlinkOpen := by
    refine along_of_forall ?_ oneFile
    intro e he s
    simp only [unlinkOpen, List.mem_cons, List.not_mem_nil, or_false] at he
    obtain rfl | rfl | rfl | rfl | rfl | rfl | rfl := he <;> trivial
  obtain ⟨s, hs, hvalue⟩ := map_eq_some_iff.mp hrun
  rw [Prod.mk.injEq] at hvalue
  exact ⟨s, hs, hvalue.1, hvalue.2, (inode_references start_oneFile hs hsafe).1⟩

/-- A process removes the file, and before its `iput` is through, the other one makes a new file
and gets the same inode. -/
def createEarly : List (Event (Fin 2)) :=
  [.lookup 0 2, .ilock 0 0, .erase 0 0, .dec 0 0, .iunlock 0 0, .iput 0 0, .ifree 0, .ifree 0,
    .ialloc 1 2 2, .ialloced 1, .create 1, .enter 1 2, .iunlock 1 0, .ifree 0]

/-- The new file has a name and a reference, and its inode on the disk is free: `ilock` has found
the old inode in the cache, still valid. -/
theorem new_file_is_free : Start oneFile ∧ ∃ s, run step oneFile createEarly = some s ∧
    (s.thread 1).refs 0 = 1 ∧ (s.thread 1).code = .idle ∧ s.names (s.slot 0).inum = 1 ∧
    (s.disk (s.slot 0).inum).type = 0 ∧ ¬ Sound s := by
  have hrun : (run step oneFile createEarly).map (fun s =>
      ((s.thread 1).refs 0, (s.thread 1).code, s.names (s.slot 0).inum,
        (s.disk (s.slot 0).inum).type)) = some (1, .idle, 1, 0) := by
    decide +kernel
  obtain ⟨s, hs, hvalue⟩ := map_eq_some_iff.mp hrun
  simp only [Prod.mk.injEq] at hvalue
  obtain ⟨hrefs, hcode, hnames, htype⟩ := hvalue
  refine ⟨start_oneFile, s, hs, hrefs, hcode, hnames, htype, ?_⟩
  intro hsound
  exact hsound.alive 1 0 (by omega) (by rw [hcode]; exact nofun) htype

end Xv6Draw.Icache
