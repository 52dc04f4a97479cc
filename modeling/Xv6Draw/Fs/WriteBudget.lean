import Xv6Draw.Fs.Call
import Xv6Draw.Fs.InodeCache

/-!
# The blocks that a write logs

`filewrite` cuts a write into sections between `begin_op` and `end_op`, each of which
may log `MAXOPBLOCKS` blocks. What a section logs is counted exactly: its data blocks,
the bitmap when one of them is new, the indirect block when it gets an entry, and the
block of the inode when the file grows. A section of the largest size is thirteen
blocks long, so a write stays within the budget only when it is short.
-/

namespace Xv6Draw.Fs

open Finset Hoare LittleEndian

variable {E : Panic → Prop} {s s' : State} {g g' : Ghost} {k : Fin ninode} {i off n : ℕ}
  {src : ℕ → BitVec 8}

/-- The number of distinct blocks that a write to an inode logs. -/
def blockCost (disk : ℕ → Block) (d : Dinode) (off n : ℕ) : ℕ :=
  (writeBlocks off n).card +
  (if ∃ m ∈ writeBlocks off n, ptr disk d m = 0 then 1 else 0) +
  (if ∃ m ∈ writeBlocks off n, ndirect ≤ m ∧ ptr disk d m = 0 then 1 else 0) +
  (if d.size.toNat < off + n then 1 else 0)

/-- A block number that is there or not. -/
def optional (p : Prop) [Decidable p] (b : ℕ) : Finset ℕ := if p then {b} else ∅

variable {p : Prop} {y : Sys} {f : Fin nfile} {addr : ℕ → BitVec 8}

theorem mem_optional [Decidable p] {b x : ℕ} : x ∈ optional p b ↔ p ∧ x = b := by
  unfold optional
  split_ifs with hp <;> simp [hp]

theorem card_optional [Decidable p] (b : ℕ) :
    (optional p b).card = if p then 1 else 0 := by
  unfold optional
  split_ifs <;> rfl

theorem card_union_optional [Decidable p] {t : Finset ℕ} {b : ℕ} (h : p → b ∉ t) :
    (t ∪ optional p b).card = t.card + if p then 1 else 0 := by
  rw [card_union_of_disjoint, card_optional]
  rw [disjoint_left]
  intro x hx hb
  obtain ⟨hp, rfl⟩ := mem_optional.mp hb
  exact h hp hx

/-- What `writei` logs, counted. -/
theorem Wrote.card_logged (h : Wrote k i src off n s g s' g') (hrep : Rep s g none none)
    (hk : Held s k i) (hfits : Fits (g.ino i) off n) {l : List ℕ}
    (hl : s'.logged = s.logged ++ l) : l.toFinset.card = blockCost s.disk (g.ino i) off n := by
  obtain ⟨l', hl', hmem⟩ := h.logs
  obtain rfl : l = l' := List.append_cancel_left (hl.symm.trans hl')
  obtain ⟨hi, -, -⟩ := hk.facts hrep.cache
  have hk' : Held s' k i := (held_iff_of_copy h.cache k i).mpr hk
  obtain ⟨-, htype, -⟩ := hk'.facts h.store.cache
  have howns := h.store.owned.owns i hi htype nofun
  have hblocks := fun m => mem_writeBlocks hfits.2 (m := m)
  have hlt : ∀ m ∈ writeBlocks off n, m < maxfile := by
    intro m hm
    exact mem_range.mp (mem_filter.mp hm).1
  have howner : ∀ m ∈ writeBlocks off n, g'.owner (ptr s'.disk (g'.ino i) m) = some (i, m) := by
    intro m hm
    have hm' := hlt m hm
    exact howns m (by omega) (h.touched m hm' ((hblocks m).mp hm))
  have hdata : ∀ m ∈ writeBlocks off n, nmeta ≤ ptr s'.disk (g'.ino i) m := by
    intro m hm
    obtain ⟨-, -, -, -, hlow, -⟩ := h.store.owned.sound _ _ _ (howner m hm)
    exact hlow
  -- the indirect block is there when it gets an entry
  have hindirect : (∃ m ∈ writeBlocks off n, ndirect ≤ m ∧ ptr s.disk (g.ino i) m = 0) →
      g'.owner ((g'.ino i).addr ndirect) = some (i, maxfile) ∧ nmeta ≤ (g'.ino i).addr ndirect := by
    rintro ⟨m, hm, hlow, -⟩
    have hne : (g'.ino i).addr ndirect ≠ 0 := by
      intro hzero
      exact h.touched m (hlt m hm) ((hblocks m).mp hm) (ptr_eq_zero_of_addr hzero hlow)
    have hlast := howns.indirect hne
    obtain ⟨-, -, -, -, hmeta, -⟩ := h.store.owned.sound _ _ _ hlast
    exact ⟨hlast, hmeta⟩
  have hset : l.toFinset = (writeBlocks off n).image (ptr s'.disk (g'.ino i)) ∪
      optional (∃ m ∈ writeBlocks off n, ptr s.disk (g.ino i) m = 0) bmapstart ∪
      optional (∃ m ∈ writeBlocks off n, ndirect ≤ m ∧ ptr s.disk (g.ino i) m = 0)
        ((g'.ino i).addr ndirect) ∪
      optional ((g.ino i).size.toNat < off + n) (iblock i) := by
    ext x
    simp only [List.mem_toFinset, hmem, LoopLogs, mem_union, mem_image, mem_optional,
      hblocks, eq_comm (a := x) (b := ptr _ _ _), or_assoc]
  have hinode := iblock_range hi
  rw [hset, card_union_optional, card_union_optional, card_union_optional,
    card_image_of_injOn, blockCost]
  · intro m hm m' hm' heq
    have hm₁ := howner m hm
    rw [heq, howner m' hm', Option.some.injEq, Prod.mk.injEq] at hm₁
    exact hm₁.2.symm
  · intro _ hx
    obtain ⟨m, hm, hx⟩ := mem_image.mp hx
    have hlow := hdata m hm
    unfold nmeta bmapstart at *
    omega
  · intro hsome hx
    obtain ⟨hlast, hmeta⟩ := hindirect hsome
    simp only [mem_union, mem_image, mem_optional] at hx
    obtain ⟨m, hm, hx⟩ | ⟨-, hx⟩ := hx
    · have hm₁ := howner m hm
      rw [hx, hlast, Option.some.injEq, Prod.mk.injEq] at hm₁
      have hm₂ := hlt m hm
      omega
    · unfold nmeta bmapstart at *
      omega
  · intro _ hx
    simp only [mem_union, mem_image, mem_optional] at hx
    obtain (⟨m, hm, hx⟩ | ⟨-, hx⟩) | ⟨hsome, hx⟩ := hx
    · have hlow := hdata m hm
      unfold nmeta bmapstart at *
      omega
    · unfold bmapstart at *
      omega
    · obtain ⟨-, hmeta⟩ := hindirect hsome
      unfold nmeta bmapstart at *
      omega

/-! ### The sections of a write -/

/-- A regular file that is open for writing. -/
structure OpenOn (y : Sys) (g : Ghost) (f : Fin nfile) (i : ℕ) : Prop where
  /-- The file system represents a volume. -/
  rep : Rep y.fs g none none
  type : (y.ftable f).type = .inode
  writable : (y.ftable f).writable = true
  held : Held y.fs (y.ftable f).ip i
  regular : (g.ino i).type = tFile
  off : (y.ftable f).off < 2 ^ 32

/-- `filewrite` of an inode that is no device is the loop over its sections. -/
theorem filewrite_eq_writeInode (hwritable : (y.ftable f).writable = true)
    (htype : (y.ftable f).type = .inode) (hdev : (y.fs.icache (y.ftable f).ip).d.type ≠ tDev)
    (addr : ℕ → BitVec 8) (n : ℕ) :
    filewrite f addr n y = writeInode f (y.ftable f).ip addr n y := by
  have hget : filewrite f addr n y =
      (if (y.ftable f).writable = false then return -1
        else if (y.ftable f).type = .inode then
          if (y.fs.icache (y.ftable f).ip).d.type = tDev then
            deviceWrite f (y.fs.icache (y.ftable f).ip).d.major n
          else writeInode f (y.ftable f).ip addr n
        else throw Panic.filewrite : SysM ℤ) y := rfl
  rw [hget, if_neg (by simp [hwritable]), if_pos htype, if_neg hdev]

/-- `filewrite` of a regular file is the loop over its sections. -/
theorem OpenOn.filewrite_eq (h : OpenOn y g f i) (addr : ℕ → BitVec 8)
    (n : ℕ) : filewrite f addr n y = writeInode f (y.ftable f).ip addr n y := by
  obtain ⟨-, -, hcopy⟩ := h.held.facts h.rep.cache
  apply filewrite_eq_writeInode h.writable h.type
  rw [hcopy, h.regular]
  decide

/-- What the first section of a write logs. -/
theorem wp_writeChunk (hE : ∀ e, e ≠ .freeingFreeBlock → E e) (h : OpenOn y g f i) (hn : n < 2 ^ 32) :
    wp (writeChunk f (y.ftable f).ip src n) E (fun r y' => ∃ l, y'.sections = y.sections ++ [l] ∧
      ((Fits (g.ino i) (y.ftable f).off n ∧ r = n ∧
          l.toFinset.card = blockCost y.fs.disk (g.ino i) (y.ftable f).off n) ∨
        (¬ Fits (g.ino i) (y.ftable f).off n ∧ r = -1 ∧ l = []))) y := by
  unfold writeChunk
  refine wp_bind (wp_beginOp ?_)
  have hrep : Rep { y.fs with logged := [] } g none none := ⟨h.rep.blocks, h.rep.synced, h.rep.cache⟩
  refine wp_bind (wp_onFs (wp_ilock (.inl hE) hrep ?_))
  intro e he hpos _ _ hrep₁
  have hinum : e.inum = i := by
    rw [he]
    exact h.held.inum
  have hheld : Held (State.setEntry { y.fs with logged := [] } (y.ftable f).ip e) (y.ftable f).ip i := by
    refine ⟨?_, ?_, ?_⟩
    · simpa using hpos
    · simpa using hinum
    · simp [he]
  refine wp_bind (wp_get (wp_bind (wp_onFs (wp_mono (wp_writei hrep₁ hheld h.off hn (.inl (hE _ nofun))) ?_))))
  rintro r s' hpost
  refine wp_bind (wp_advance fun off' => wp_bind (wp_onFs ?_))
  have hrep' : ∃ g', Rep s' g' none none := by
    obtain ⟨-, -, g', -, hrep'⟩ | ⟨-, -, rfl⟩ := hpost
    · exact ⟨g', hrep'⟩
    · exact ⟨g, hrep₁⟩
  obtain ⟨g', hrep'⟩ := hrep'
  refine wp_iunlock (.inl hE) hrep' fun _ => wp_bind (wp_endOp (wp_pure ⟨s'.logged, rfl, ?_⟩))
  obtain ⟨hfits, hr, g'', hwrote, -⟩ | ⟨hfits, hr, rfl⟩ := hpost
  · exact .inl ⟨hfits, hr, hwrote.card_logged hrep₁ hheld hfits rfl⟩
  · exact .inr ⟨hfits, hr, rfl⟩

/-- The sections of a write stay within a number of distinct blocks, after any number of
rounds of the loop. -/
def SectionsWithin (m : ℕ) (y : Sys) (f : Fin nfile) (addr : ℕ → BitVec 8) (n : ℕ) : Prop :=
  ∀ rounds r y', writeChunks f (y.ftable f).ip addr n rounds 0 y = .ok (r, y') →
    ∀ l ∈ y'.sections, l.toFinset.card ≤ m

/-- A write is within the budget of its sections: it is empty, or it is refused, or it is a
single section that logs no more than `MAXOPBLOCKS` blocks. -/
def InBudget (disk : ℕ → Block) (d : Dinode) (off n : ℕ) : Prop :=
  n = 0 ∨ ¬ Fits d off (min n maxChunk) ∨
    (n ≤ maxChunk ∧ blockCost disk d off n ≤ Log.maxOpBlocks)

/-- A section of the largest size has more blocks than `MAXOPBLOCKS`. -/
theorem maxOpBlocks_lt_card (hfits : off + maxChunk ≤ maxfile * bsize) :
    Log.maxOpBlocks < (writeBlocks off maxChunk).card := by
  have hsub : (Finset.range 13).image (off / bsize + ·) ⊆ writeBlocks off maxChunk := by
    intro m hm
    rw [mem_writeBlocks hfits]
    obtain ⟨j, hj, rfl⟩ := mem_image.mp hm
    rw [mem_range] at hj
    unfold Touched maxChunk Log.logSize bsize
    omega
  have hcard : ((Finset.range 13).image (off / bsize + ·)).card = 13 := by
    rw [card_image_of_injective _ (add_right_injective _), card_range]
  have hle := card_le_card hsub
  unfold Log.maxOpBlocks
  omega

theorem wp_writeChunks_done {rounds : ℕ}
    {Q : ℕ → Sys → Prop} (h : Q n y) : wp (writeChunks f k addr n rounds n) E Q y := by
  cases rounds with
  | zero => exact wp_pure h
  | succ rounds =>
    unfold writeChunks
    rw [if_neg (Nat.lt_irrefl n)]
    exact wp_pure h

/-- A write within the budget. -/
theorem wp_writeChunks_inBudget (hE : ∀ e, e ≠ .freeingFreeBlock → E e)
    (h : OpenOn y g f i) (hsections : y.sections = []) (hn : n < 2 ^ 32)
    (hbudget : InBudget y.fs.disk (g.ino i) (y.ftable f).off n) (rounds : ℕ) :
    wp (writeChunks f (y.ftable f).ip addr n rounds 0) E
      (fun _ y' => ∀ l ∈ y'.sections, l.toFinset.card ≤ Log.maxOpBlocks) y := by
  have hstart : ∀ l ∈ y.sections, l.toFinset.card ≤ Log.maxOpBlocks := by
    simp [hsections]
  cases rounds with
  | zero => exact wp_pure hstart
  | succ rounds =>
    unfold writeChunks
    refine wp_ite (fun hpos => ?_) fun _ => wp_pure hstart
    rw [Nat.sub_zero]
    refine wp_seq (wp_writeChunk hE h (by omega)) ?_
    rintro r y' ⟨l, hl, hpost⟩
    have hall : l.toFinset.card ≤ Log.maxOpBlocks →
        ∀ l' ∈ y'.sections, l'.toFinset.card ≤ Log.maxOpBlocks := by
      intro hle l' hl'
      rw [hl, hsections, List.nil_append, List.mem_singleton] at hl'
      rwa [hl']
    obtain ⟨hfits, rfl, hcard⟩ | ⟨hfits, rfl, rfl⟩ := hpost
    · obtain hzero | hnot | ⟨hle, hcost⟩ := hbudget
      · omega
      · exact absurd hfits hnot
      · rw [Nat.min_eq_left hle] at hcard ⊢
        rw [if_neg (by omega), if_neg (by simp), Nat.zero_add]
        exact wp_writeChunks_done (hall (hcard ▸ hcost))
    · rw [if_pos (by omega)]
      exact wp_pure (hall (by simp))

/-- The first round of a write that is not refused. -/
theorem wp_writeChunks_first (hE : ∀ e, e ≠ .freeingFreeBlock → E e)
    (h : OpenOn y g f i) (hsections : y.sections = []) (hn : n < 2 ^ 32)
    (hpos : n ≠ 0) (hfits : Fits (g.ino i) (y.ftable f).off (min n maxChunk)) :
    wp (writeChunks f (y.ftable f).ip addr n 1 0) E (fun _ y' => ∃ l, y'.sections = [l] ∧
      l.toFinset.card = blockCost y.fs.disk (g.ino i) (y.ftable f).off (min n maxChunk)) y := by
  unfold writeChunks
  rw [if_pos (by omega), Nat.sub_zero]
  refine wp_seq (wp_writeChunk hE h (by omega)) ?_
  rintro r y' ⟨l, hl, hpost⟩
  rw [hsections, List.nil_append] at hl
  obtain ⟨-, rfl, hcard⟩ | ⟨hnot, -, -⟩ := hpost
  · rw [if_neg (by omega), if_neg (by simp)]
    unfold writeChunks
    exact wp_pure ⟨l, hl, hcard⟩
  · exact absurd hfits hnot

/-- **The budget of a write.** The sections of a write to a file, whatever its length, the
offset and the file, log at most `MAXOPBLOCKS` distinct blocks each exactly when the
write is within the budget. -/
theorem filewrite_within_budget_iff {y : Sys} {f : Fin nfile} (h : OpenOn y g f i)
    (hsections : y.sections = []) {addr : ℕ → BitVec 8} (hn : n < 2 ^ 31)
    (hfirst : ∃ r y', writeChunks f (y.ftable f).ip addr n 1 0 y = .ok (r, y')) :
    filewrite f addr n y = writeInode f (y.ftable f).ip addr n y ∧
      (SectionsWithin Log.maxOpBlocks y f addr n ↔
        InBudget y.fs.disk (y.fs.icache (y.ftable f).ip).d (y.ftable f).off n) := by
  have hE : ∀ e, e ≠ Panic.freeingFreeBlock → (fun _ => True) e := fun _ _ => trivial
  obtain ⟨-, -, hcopy⟩ := h.held.facts h.rep.cache
  refine ⟨h.filewrite_eq addr n, ?_⟩
  rw [hcopy]
  constructor
  · intro hwithin
    by_contra hnot
    simp only [InBudget, not_or, not_not, not_and, not_le] at hnot
    obtain ⟨hpos, hfits, hcost⟩ := hnot
    obtain ⟨r, y', hrun⟩ := hfirst
    obtain ⟨l, hl, hcard⟩ := wp_ok (wp_writeChunks_first hE h hsections (by omega) hpos hfits) hrun
    have hle := hwithin 1 r y' hrun l (by simp [hl])
    rw [hcard] at hle
    by_cases hone : n ≤ maxChunk
    · rw [Nat.min_eq_left hone] at hle
      have hlt := hcost hone
      omega
    · have hmin : min n maxChunk = maxChunk := by omega
      rw [hmin] at hle hfits
      have hlt := maxOpBlocks_lt_card hfits.2
      unfold blockCost at hle
      omega
  · intro hbudget rounds r y' hrun
    exact wp_ok (wp_writeChunks_inBudget hE h hsections (by omega) hbudget rounds) hrun

/-! ### A new file -/

/-- A disk whose inodes are free, with the bits of the metadata set. -/
def blankDisk : ℕ → Block := fun b j =>
  if b = bmapstart then if j < 7 then 0xff else if j = 7 then 0x07 else 0 else 0

theorem dinode_blankDisk {j : ℕ} (hj : j < ninodes) : dinode blankDisk j = Dinode.zero := by
  obtain ⟨-, hlt⟩ := iblock_range hj
  have hblock : blankDisk (iblock j) = fun _ => 0#8 := by
    funext x
    exact if_neg (by omega)
  have hload : ∀ o w, load (fun _ => 0#8) o w = 0 := fun _ _ => load_eq_zero fun _ _ => rfl
  simp [dinode, readDinode, hblock, hload, Dinode.zero]

/-- The inode of a new file. -/
def newFile : Dinode := { Dinode.zero with type := tFile, nlink := 1 }

/-- The disk with a new file as its second inode. -/
def newFileDisk : ℕ → Block :=
  Function.update blankDisk (iblock 2) (writeDinode (blankDisk (iblock 2)) (2 % ipb) newFile)

theorem dinode_newFileDisk {j : ℕ} (hj : j < ninodes) :
    dinode newFileDisk j = if j = 2 then newFile else Dinode.zero := by
  rw [newFileDisk, dinode_write, dinode_blankDisk hj]

/-- A process has the new file open for writing. -/
def newFileSys : Sys where
  fs := ⟨newFileDisk, [], fun k => ⟨2, if k = 0 then 1 else 0, false, true, newFile⟩⟩
  ftable := fun _ => ⟨.inode, 1, false, true, 0, 0⟩
  procs := fun _ => ⟨fun _ => some 0, some 0⟩
  sections := []

/-- The ghost of the disk with a new file: no block has an owner. -/
def newFileGhost : Ghost := ⟨dinode newFileDisk, fun _ => none⟩

theorem ptr_newFile (disk : ℕ → Block) (m : ℕ) : ptr disk newFile m = 0 := by
  have haddr : ∀ j, newFile.addr j = 0 := by
    intro j
    simp [Dinode.addr, newFile, Dinode.zero]
  simp [ptr, haddr]

/-- The new file is open. -/
theorem newFileSys_openOn : OpenOn newFileSys newFileGhost 0 2 := by
  have hino : ∀ j < ninodes, (newFileGhost.ino j).type ≠ 0 → newFileGhost.ino j = newFile := by
    intro j hj htype
    simp only [newFileGhost, dinode_newFileDisk hj] at htype ⊢
    split_ifs at htype ⊢ with h2
    · rfl
    · exact absurd rfl htype
  have hself : newFileGhost.ino 2 = newFile := by
    simp only [newFileGhost, dinode_newFileDisk (by decide : 2 < ninodes), if_true]
  have hbits : ∀ b < fsSize, bit newFileDisk b = decide (b < nmeta) := by decide +kernel
  have hzero : ∀ m, 0 < (newFileSys.fs.icache m).ref → m = 0 := by
    intro m hm
    by_contra hne
    simp [newFileSys, hne] at hm
  refine ⟨⟨⟨⟨nofun, ?_, ?_, ?_⟩, ?_⟩, fun _ _ _ => rfl, ⟨?_, ?_, ?_, ?_⟩⟩, rfl, rfl, ⟨?_, rfl, rfl⟩, ?_, ?_⟩
  · intro j hj htype _ m _ hne
    rw [hino j hj htype, ptr_newFile] at hne
    exact absurd rfl hne
  · intro j hj htype hne
    rw [hino j hj htype] at hne
    simp [Dinode.addr, newFile, Dinode.zero] at hne
  · intro b hb
    simp [newFileSys, hbits b hb, newFileGhost]
  · intro j hj htype _ m _ hsize
    rw [hino j hj htype] at hsize
    simp [newFile, Dinode.zero] at hsize
  · intro j l hj hl _
    rw [hzero j hj, hzero l hl]
  · intro _ _
    exact (by decide : 2 < ninodes)
  · intro _ _ _
    exact hself.symm
  · intro _ _ _
    simp [newFileSys, newFile, tFile]
  · simp [newFileSys]
  · rw [hself]
    rfl
  · simp [newFileSys]

theorem exists_ok_of_isSome {α : Type} {x : SysM α} (h : (x y).toOption.isSome = true) :
    ∃ r y', x y = .ok (r, y') := by
  cases hx : x y with
  | error e => simp [hx, Except.toOption] at h
  | ok r => exact ⟨r.1, r.2, rfl⟩

/-- A write of a block to the new file is within the budget. -/
theorem block_in_budget : SectionsWithin Log.maxOpBlocks newFileSys 0 (fun _ => 0) 512 :=
  (filewrite_within_budget_iff newFileSys_openOn rfl (by decide)
    (exists_ok_of_isSome (by decide +kernel))).2.mpr (.inr (.inr ⟨by decide, by decide +kernel⟩))

/-- A write of two pages to the new file logs sixteen blocks in its first section. -/
theorem two_pages_over_budget : ¬ SectionsWithin Log.maxOpBlocks newFileSys 0 (fun _ => 0) 8192 := by
  have hE : ∀ e, e ≠ Panic.freeingFreeBlock → (fun _ => True) e := fun _ _ => trivial
  have hcost : blockCost newFileDisk (newFileGhost.ino 2) 0 (min 8192 maxChunk) = 16 := by
    decide +kernel
  intro hwithin
  obtain ⟨r, y', hrun⟩ : ∃ r y', writeChunks 0 0 (fun _ => 0) 8192 1 0 newFileSys = .ok (r, y') :=
    exists_ok_of_isSome (by decide +kernel)
  obtain ⟨l, hl, hcard⟩ := wp_ok (wp_writeChunks_first hE newFileSys_openOn rfl (by decide) (by decide)
    (by decide +kernel)) hrun
  have hle := hwithin 1 r y' hrun l (by simp [hl])
  rw [hcard] at hle
  have hbudget : blockCost newFileDisk (newFileGhost.ino 2) 0 (min 8192 maxChunk) ≤ 10 := hle
  omega

end Xv6Draw.Fs
