import Xv6Draw.Fs.ReadWrite
import Xv6Draw.Mkfs.Model

/-!
# Appending to a file

The blocks of the image while `mkfs` runs. At every moment the bitmap that `balloc` would
write then completes the image to one whose blocks are owned, so the lemmas about the
blocks of the kernel's files apply: taking the next block is what the allocator of the
kernel does on that image. A file holds its bytes, and zeros up to the end of its last
block.

`mkfs` numbers the inodes from 1, and the last of them may be `NINODES`. The owners of
blocks are therefore counted from 0.
-/

namespace Xv6Draw.Mkfs

open Fs Function Hoare List LittleEndian Nat

variable {E : Exit → Prop} {st st' : State} {g g' : Ghost}

/-! ### Programs that access one thing -/

variable {b : ℕ}

theorem wp_rsect {Q : Block → State → Prop} (hb : b < fsSize) (h : Q (st.img b) st) :
    wp (rsect b) E Q st := by
  unfold rsect
  refine wp_bind (wp_get ?_)
  rw [if_pos hb]
  exact wp_pure h

theorem wp_wsect {buf : Block} {Q : Unit → State → Prop}
    (h : Q () { st with img := update st.img b buf }) : wp (wsect b buf) E Q st :=
  wp_modify h

theorem wp_nextBlock {Q : ℕ → State → Prop}
    (h : Q st.freeblock { st with freeblock := st.freeblock + 1 }) : wp nextBlock E Q st := by
  unfold nextBlock
  exact wp_bind (wp_get (wp_bind (wp_modify (wp_pure h))))

/-! ### The bitmap -/

/-- The bitmap marks the first blocks. -/
theorem getLsbD_bitmap (used b : ℕ) : (bitmap used (b / 8)).getLsbD (b % 8) = decide (b < used) := by
  unfold bitmap
  induction used with
  | zero => simp
  | succ used ih =>
    rw [range_succ, foldl_append, foldl_cons, foldl_nil, markUsed]
    by_cases hbyte : b / 8 = used / 8
    · have hbit : used % 8 < 8 := mod_lt _ (by decide)
      rw [hbyte, update_self, BitVec.getLsbD_or, ← hbyte, ih, ← BitVec.twoPow_eq,
        BitVec.getLsbD_twoPow, Bool.eq_iff_iff]
      simp only [hbit, decide_true, Bool.true_and, Bool.or_eq_true, decide_eq_true_eq]
      omega
    · rw [update_of_ne hbyte, ih, decide_eq_decide]
      omega

/-- The image with the bitmap that `balloc` would write now. -/
def image (st : State) : ℕ → Block := update st.img bmapstart (bitmap st.freeblock)

theorem image_of_ne (st : State) (hb : b ≠ bmapstart) : image st b = st.img b :=
  update_of_ne hb _ _

theorem bit_image (st : State) (hb : b < fsSize) :
    bit (image st) b = decide (b < st.freeblock) := by
  rw [bit_eq _ hb, image, update_self, getLsbD_bitmap]

theorem bit_freeblock (hlt : st.freeblock < fsSize) : bit (image st) st.freeblock = false := by
  rw [bit_image st hlt, decide_eq_false_iff_not]
  exact Nat.lt_irrefl _

theorem image_update (st : State) (hb : b ≠ bmapstart) (buf : Block) :
    image { st with img := update st.img b buf } = update (image st) b buf := by
  unfold image
  rw [update_comm hb]

/-- Taking the next block is what the allocator of the kernel does. -/
theorem image_nextBlock (hlow : nmeta ≤ st.freeblock) (hlt : st.freeblock < fsSize)
    (hblank : st.img st.freeblock = fun _ => 0) :
    image { st with freeblock := st.freeblock + 1 } = allocDisk (image st) st.freeblock := by
  have hne : st.freeblock ≠ bmapstart := by
    unfold nmeta at hlow
    unfold bmapstart
    omega
  have hmark : bitmap (st.freeblock + 1) = setBit (bitmap st.freeblock) st.freeblock := by
    have hbyte : st.freeblock % bpb = st.freeblock := by
      unfold fsSize at hlt
      unfold bpb
      omega
    funext i
    rw [bitmap, range_succ, foldl_append, foldl_cons, foldl_nil, ← bitmap,
      markUsed, setBit, mask, hbyte]
    by_cases hi : i = st.freeblock / 8
    · rw [if_pos hi, hi, update_self]
    · rw [if_neg hi, update_of_ne hi]
  funext b
  unfold allocDisk
  rw [bblock_eq hlt]
  by_cases hb : b = st.freeblock
  · rw [hb, update_self, image_of_ne _ hne]
    exact hblank
  · rw [update_of_ne hb]
    by_cases hmap : b = bmapstart
    · rw [hmap, update_self, image, image, update_self, update_self]
      exact hmark
    · rw [update_of_ne hmap, image_of_ne _ hmap, image_of_ne _ hmap]

/-- Taking the next block for an entry of an indirect block. -/
theorem image_nextEntry (hlow : nmeta ≤ st.freeblock) (hlt : st.freeblock < fsSize)
    (hblank : st.img st.freeblock = fun _ => 0) {a j : ℕ} (ha : nmeta ≤ a) (hne : a ≠ st.freeblock) :
    image { st with
      img := update st.img a (LittleEndian.store (st.img a) (4 * j) 4 st.freeblock)
      freeblock := st.freeblock + 1 } = allocEntryDisk (image st) a j st.freeblock := by
  have ha' : a ≠ bmapstart := by
    unfold nmeta at ha
    unfold bmapstart
    omega
  have hsame : allocDisk (image st) st.freeblock a = st.img a := by
    rw [allocDisk_of_ne hlt ha hne, image_of_ne st ha']
  rw [allocEntryDisk, hsame, ← image_nextBlock hlow hlt hblank]
  exact image_update { st with freeblock := st.freeblock + 1 } ha' _

/-! ### Contents -/

/-- An inode holds some bytes: it has the blocks below their end, and zeros behind it. -/
structure Holds (disk : ℕ → Block) (d : Dinode) (c : List (BitVec 8)) : Prop where
  fits : c.length ≤ maxfile * bsize
  blocks : ∀ m < maxfile, ptr disk d m ≠ 0 ↔ m * bsize < c.length
  bytes : ∀ x < maxfile * bsize, byteAt disk d x = c.getD x 0

/-- An inode holds the same bytes when its blocks are the same. -/
theorem Holds.congr {disk disk' : ℕ → Block} {d d' : Dinode} {c : List (BitVec 8)}
    (h : Holds disk d c) (hptr : ∀ m < maxfile, ptr disk' d' m = ptr disk d m)
    (hblock : ∀ m < maxfile, blockAt disk' d' m = blockAt disk d m) : Holds disk' d' c := by
  refine ⟨h.fits, ?_, ?_⟩
  · intro m hm
    rw [hptr m hm]
    exact h.blocks m hm
  · intro x hx
    rw [byteAt, hblock _ (by unfold bsize at *; omega)]
    exact h.bytes x hx

/-- The blocks that bytes take, with the indirect block. -/
def blocksOf (n : ℕ) : ℕ := (n + (bsize - 1)) / bsize + if ndirect * bsize < n then 1 else 0

theorem blocksOf_mono {m n : ℕ} (h : m ≤ n) : blocksOf m ≤ blocksOf n := by
  unfold blocksOf bsize ndirect
  split_ifs <;> omega

/-- What is missing for bytes behind the end of a file. -/
theorem Holds.missing_le {disk : ℕ → Block} {d : Dinode} {c : List (BitVec 8)} (h : Holds disk d c)
    {m : ℕ} (hm : 0 < m) (hblock : c.length / bsize < maxfile) :
    missing disk d (mapPos (c.length / bsize)) + blocksOf c.length ≤ blocksOf (c.length + m) := by
  by_cases hne : ptr disk d (c.length / bsize) = 0
  · have hstart : c.length % bsize = 0 := by
      have hiff := h.blocks _ hblock
      simp only [hne, ne_eq, not_true_eq_false, false_iff] at hiff
      unfold bsize at hiff ⊢
      omega
    by_cases hdirect : c.length / bsize < ndirect
    · rw [missing_direct hdirect hne]
      unfold blocksOf bsize ndirect at *
      split_ifs <;> omega
    · by_cases hfirst : c.length / bsize = ndirect
      · have hle : missing disk d (mapPos (c.length / bsize)) ≤ 2 := by
          rw [missing, mapPos, if_neg hdirect]
          exact (Finset.card_filter_le _ _).trans Finset.card_le_two
        unfold blocksOf bsize ndirect at *
        split_ifs <;> omega
      · -- the block before this one is behind the direct ones too
        have hlast : ptr disk d ndirect ≠ 0 := by
          rw [h.blocks _ (by decide)]
          unfold bsize ndirect at *
          omega
        have haddr : d.addr ndirect ≠ 0 := fun hzero => hlast (ptr_eq_zero_of_addr hzero (Nat.le_refl _))
        rw [missing_entry (by omega) hne haddr]
        unfold blocksOf bsize ndirect at *
        split_ifs <;> omega
  · rw [missing_of_present hne, Nat.zero_add]
    exact blocksOf_mono (by omega)

/-- The inodes of the image and their blocks. -/
structure Layout (st : State) (g : Ghost) (cs : ℕ → List (BitVec 8)) : Prop where
  owned : Owned (image st) g none
  /-- The blocks that are left are zero. -/
  blank : ∀ b, st.freeblock ≤ b → st.img b = fun _ => 0
  /-- Blocks behind the metadata are used. -/
  low : nmeta ≤ st.freeblock
  high : st.freeblock ≤ fsSize
  count : st.freeinode ≤ ninodes + 1
  live : ∀ j < ninodes, (g.ino j).type ≠ 0 ↔ j + 1 < st.freeinode
  holds : ∀ j, j + 1 < st.freeinode → Holds (image st) (g.ino j) (cs j)

/-- An inode has a block at a position. -/
structure Placed (j n x : ℕ) (st : State) (g : Ghost) (st' : State) (g' : Ghost) : Prop extends
    Gets j n x (image st) g (image st') g' where
  freeinode : st'.freeinode = st.freeinode
  /-- The blocks that are left are zero. -/
  blank : ∀ b, st'.freeblock ≤ b → st'.img b = fun _ => 0
  /-- The blocks that were missing are taken. -/
  freeblock : st'.freeblock = st.freeblock + missing (image st) (g.ino j) (mapPos n)

section

variable {cs : ℕ → List (BitVec 8)} {j n x m : ℕ}

theorem Layout.lt (h : Layout st g cs) (hj : j + 1 < st.freeinode) :
    j < ninodes ∧ (g.ino j).type ≠ 0 := by
  have hcount := h.count
  have hlt : j < ninodes := by omega
  exact ⟨hlt, (h.live j hlt).mpr hj⟩

theorem Layout.placed_present (h : Layout st g cs) {b : ℕ} (hptr : ptr (image st) (g.ino j) n = b)
    (hb : b ≠ 0) : Placed j n b st g st g := by
  subst b
  exact ⟨h.owned.gets_present hb, rfl, h.blank, by rw [missing_of_present hb, Nat.add_zero]⟩

/-- A direct block. -/
theorem wp_fileBlock_direct (h : Layout st g cs) (hj : j + 1 < st.freeinode) (hn : n < ndirect)
    (hroom : st.freeblock + missing (image st) (g.ino j) (mapPos n) ≤ fsSize) :
    wp (addrBlock (g.ino j) n) E (fun r st' => ∃ g', g'.ino j = r.1 ∧ Placed j n r.2 st g st' g') st := by
  obtain ⟨hi, htype⟩ := h.lt hj
  have hptr : ptr (image st) (g.ino j) n = (g.ino j).addr n := by
    rw [ptr, if_pos hn]
  unfold addrBlock
  refine wp_ite (fun haddr => ?_) fun haddr => ?_
  · have hcost : missing (image st) (g.ino j) (mapPos n) = 1 :=
      missing_direct hn (by rw [hptr, haddr])
    have hlt : st.freeblock < fsSize := by omega
    obtain ⟨g', hino, hgets⟩ : ∃ g', g'.ino j = (g.ino j).setAddr n st.freeblock ∧
        Gets j n st.freeblock (image st) g (image { st with freeblock := st.freeblock + 1 }) g' := by
      rw [image_nextBlock h.low hlt (h.blank _ (Nat.le_refl _))]
      exact ⟨_, update_self _ _ _, h.owned.gets_direct hi htype hn haddr hlt (bit_freeblock hlt)⟩
    have hself : ((g.ino j).setAddr n st.freeblock).addr n = st.freeblock := by
      rw [Dinode.addr_setAddr _ (by omega) (by unfold fsSize at hlt; omega), if_pos rfl]
    refine wp_bind (wp_nextBlock (wp_pure ⟨g', hino, ?_, rfl, ?_, ?_⟩))
    · rw [hself]
      exact hgets
    · intro b hb
      exact h.blank b (le_of_succ_le hb)
    · rw [hcost]
  · exact wp_pure ⟨g, rfl, h.placed_present hptr haddr⟩

/-- A block of which the indirect block is there. -/
theorem wp_fileBlock_entry (h : Layout st g cs) (hj : j + 1 < st.freeinode) (hm : m < nindirect)
    (haddr : (g.ino j).addr ndirect ≠ 0)
    (hroom : st.freeblock + missing (image st) (g.ino j) (mapPos (ndirect + m)) ≤ fsSize) :
    wp (entryBlock ((g.ino j).addr ndirect) m) E
      (fun x st' => ∃ g', g'.ino j = g.ino j ∧ Placed j (ndirect + m) x st g st' g') st := by
  obtain ⟨hi, htype⟩ := h.lt hj
  have hlow := h.owned.indirect j hi htype haddr
  have hmap : (g.ino j).addr ndirect ≠ bmapstart := by
    unfold nmeta at hlow
    unfold bmapstart
    omega
  have hptr : ptr (image st) (g.ino j) (ndirect + m) =
      load (st.img ((g.ino j).addr ndirect)) (4 * m) 4 := by
    rw [ptr_indirect _ _ (by omega) (by unfold ndirect maxfile; unfold nindirect at hm; omega) haddr,
      Nat.add_sub_cancel_left, image_of_ne st hmap]
  unfold entryBlock
  refine wp_bind (wp_rsect (h.owned.indirect_lt hi htype) (wp_ite (fun hzero => ?_) fun hne => ?_))
  · have hnone : ptr (image st) (g.ino j) (ndirect + m) = 0 := by rw [hptr, hzero]
    have hcost := missing_entry (by omega) hnone haddr
    have hlt : st.freeblock < fsSize := by omega
    have hbit := bit_freeblock hlt
    obtain ⟨hfree, hmeta⟩ := h.owned.free hlt hbit
    obtain ⟨g', hino, hgets⟩ : ∃ g', g'.ino j = g.ino j ∧
        Gets j (ndirect + m) st.freeblock (image st) g
          (allocEntryDisk (image st) ((g.ino j).addr ndirect) m st.freeblock) g' :=
      ⟨_, rfl, h.owned.gets_entry hi htype hm haddr hnone hlt hbit⟩
    rw [← image_nextEntry h.low hlt (h.blank _ (Nat.le_refl _)) hlow
      (h.owned.indirect_ne hi htype hfree hmeta)] at hgets
    have hself : load (LittleEndian.store (st.img ((g.ino j).addr ndirect)) (4 * m) 4 st.freeblock)
        (4 * m) 4 = st.freeblock := by
      rw [load_store, mod_eq_of_lt]
      unfold fsSize at hlt
      omega
    refine wp_bind (wp_nextBlock (wp_bind (wp_wsect (wp_pure ⟨g', hino, ?_, rfl, ?_, ?_⟩))))
    · rw [hself]
      exact hgets
    · intro b hb
      simp only at hb ⊢
      rw [update_of_ne, h.blank b (le_of_succ_le hb)]
      -- the indirect block is in use
      intro heq
      have hbit' := (h.owned.bits _ (h.owned.indirect_lt hi htype)).mpr
        (.inr (by rw [(h.owned.owns j hi htype nofun).indirect haddr]; rfl))
      rw [bit_image st (h.owned.indirect_lt hi htype), decide_eq_true_eq] at hbit'
      omega
    · rw [hcost]
  · exact wp_pure ⟨g, rfl, h.placed_present hptr hne⟩

/-- A block of which the indirect block is taken first. -/
theorem wp_fileBlock_indirect (h : Layout st g cs) (hj : j + 1 < st.freeinode) (hm : m < nindirect)
    (haddr : (g.ino j).addr ndirect = 0)
    (hroom : st.freeblock + missing (image st) (g.ino j) (mapPos (ndirect + m)) ≤ fsSize) :
    wp (entryBlock st.freeblock m) E
      (fun x st' => ∃ g', g'.ino j = (g.ino j).setAddr ndirect st.freeblock ∧
        Placed j (ndirect + m) x st g st' g') { st with freeblock := st.freeblock + 1 } := by
  obtain ⟨hi, htype⟩ := h.lt hj
  have hcost : missing (image st) (g.ino j) (mapPos (ndirect + m)) = 2 :=
    missing_indirect (by omega) (by unfold ndirect maxfile; unfold nindirect at hm; omega) haddr
  have hlt : st.freeblock < fsSize := by omega
  have hlt' : st.freeblock + 1 < fsSize := by omega
  have hblank := h.blank st.freeblock (Nat.le_refl _)
  have hnext := image_nextBlock h.low hlt hblank
  have hbit : bit (allocDisk (image st) st.freeblock) (st.freeblock + 1) = false := by
    rw [← hnext, bit_image _ hlt']
    simp
  obtain ⟨g', hgets, hino⟩ :=
    h.owned.gets_indirect hi htype hm haddr hlt (bit_freeblock hlt) hlt' hbit
  have hentry : image ⟨update st.img st.freeblock
      (LittleEndian.store (st.img st.freeblock) (4 * m) 4 (st.freeblock + 1)), st.freeinode,
      st.freeblock + 1 + 1⟩ =
      allocEntryDisk (image { st with freeblock := st.freeblock + 1 }) st.freeblock m (st.freeblock + 1) :=
    @image_nextEntry { st with freeblock := st.freeblock + 1 } (le_succ_of_le h.low) hlt'
      (h.blank _ (le_succ _)) _ _ h.low (by simp)
  rw [hnext] at hentry
  have hself : load (LittleEndian.store (st.img st.freeblock) (4 * m) 4 (st.freeblock + 1)) (4 * m) 4 =
      st.freeblock + 1 := by
    rw [load_store, mod_eq_of_lt]
    unfold fsSize at hlt'
    omega
  have hzero : load (st.img st.freeblock) (4 * m) 4 = 0 := by
    rw [hblank]
    exact load_eq_zero fun _ _ => rfl
  unfold entryBlock
  refine wp_bind (wp_rsect hlt (wp_ite (fun _ => ?_) fun hne => absurd hzero hne))
  refine wp_bind (wp_nextBlock (wp_bind (wp_wsect (wp_pure ⟨g', ?_, ?_, rfl, ?_, ?_⟩))))
  · rw [hino, update_self]
  · rw [hself, hentry]
    exact hgets
  · intro b hb
    simp only at hb ⊢
    rw [update_of_ne (by omega), h.blank b (by omega)]
  · rw [hcost]

/-- The part of the loop of `iappend` that finds the block. -/
theorem wp_fileBlock (h : Layout st g cs) (hj : j + 1 < st.freeinode) (hn : n < maxfile)
    (hroom : st.freeblock + missing (image st) (g.ino j) (mapPos n) ≤ fsSize) :
    wp (fileBlock (g.ino j) n) E (fun r st' => ∃ g', g'.ino j = r.1 ∧ Placed j n r.2 st g st' g') st := by
  unfold fileBlock
  refine wp_ite (fun hdirect => wp_fileBlock_direct h hj hdirect hroom) fun hdirect => ?_
  obtain ⟨m, rfl⟩ : ∃ m, n = ndirect + m := ⟨n - ndirect, by omega⟩
  have hm : m < nindirect := by
    unfold ndirect nindirect maxfile at *
    omega
  rw [Nat.add_sub_cancel_left]
  unfold addrBlock
  by_cases haddr : (g.ino j).addr ndirect = 0
  · have hcost : missing (image st) (g.ino j) (mapPos (ndirect + m)) = 2 :=
      missing_indirect (by omega) hn haddr
    have hself : ((g.ino j).setAddr ndirect st.freeblock).addr ndirect = st.freeblock := by
      have hlt : st.freeblock < 2 ^ 32 := by
        unfold fsSize at hroom
        omega
      rw [Dinode.addr_setAddr _ (Nat.le_refl _) hlt, if_pos rfl]
    rw [if_pos haddr]
    refine wp_bind (wp_bind (wp_nextBlock (wp_pure ?_)))
    rw [hself]
    refine wp_seq (wp_fileBlock_indirect h hj hm haddr hroom) ?_
    rintro x st' ⟨g', hino, hplaced⟩
    exact wp_pure ⟨g', hino, hplaced⟩
  · rw [if_neg haddr]
    refine wp_bind (wp_pure (wp_seq (wp_fileBlock_entry h hj hm haddr hroom) ?_))
    rintro x st' ⟨g', hino, hplaced⟩
    exact wp_pure ⟨g', hino, hplaced⟩

/-! ### The loop of `iappend` -/

/-- What is on the image apart from the contents of files when some bytes are appended. -/
structure Appended (j : ℕ) (st : State) (g : Ghost) (st' : State) (g' : Ghost) : Prop where
  freeinode : st'.freeinode = st.freeinode
  /-- The metadata is the same, apart from the bitmap. -/
  metas : ∀ b < bmapstart, st'.img b = st.img b
  other : ∀ l, l ≠ j → g'.ino l = g.ino l
  /-- The inode differs in `addrs` only. -/
  fields : ∃ addrs, g'.ino j = { g.ino j with addrs := addrs }

theorem Appended.refl (j : ℕ) (st : State) (g : Ghost) : Appended j st g st g :=
  ⟨rfl, fun _ _ => rfl, fun _ _ => rfl, _, rfl⟩

theorem Appended.trans {st₁ st₂ st₃ : State} {g₁ g₂ g₃ : Ghost} (h : Appended j st₁ g₁ st₂ g₂)
    (h' : Appended j st₂ g₂ st₃ g₃) : Appended j st₁ g₁ st₃ g₃ := by
  refine ⟨?_, ?_, ?_, ?_⟩
  · rw [h'.freeinode, h.freeinode]
  · intro b hb
    rw [h'.metas b hb, h.metas b hb]
  · intro l hl
    rw [h'.other l hl, h.other l hl]
  · obtain ⟨addrs, haddrs⟩ := h.fields
    obtain ⟨addrs', haddrs'⟩ := h'.fields
    exact ⟨addrs', by rw [haddrs', haddrs]⟩

/-- The state after a round of the loop. -/
def writeBytes (st : State) (x o m : ℕ) (src : ℕ → BitVec 8) : State :=
  { st with img := update st.img x (memmoveTo (st.img x) o m src) }

theorem writeBytes_of_ne (hb : b ≠ x) (o : ℕ) (src : ℕ → BitVec 8) :
    (writeBytes st x o m src).img b = st.img b :=
  update_of_ne hb _ _

/-- A block that has been placed is a data block. -/
theorem Placed.bounds (h : Placed j n x st g st' g') (hlayout : Layout st g cs)
    (hj : j + 1 < st.freeinode) (hn : n < maxfile) :
    j < ninodes ∧ (g'.ino j).type ≠ 0 ∧ g'.owner x = some (j, n) ∧ bmapstart < x ∧ x < st'.freeblock ∧
      x < fsSize := by
  obtain ⟨hi, htype⟩ := hlayout.lt hj
  obtain ⟨addrs, haddrs⟩ := h.grown.fields
  have htype' : (g'.ino j).type ≠ 0 := by
    rw [haddrs]
    exact htype
  have howner := h.owner hi htype' hn
  obtain ⟨-, -, -, -, hlow, hlt⟩ := h.owned.sound _ _ _ howner
  have hbit := (h.owned.bits x hlt).mpr (.inr (by rw [howner]; rfl))
  rw [bit_image _ hlt, decide_eq_true_eq] at hbit
  refine ⟨hi, htype', howner, ?_, hbit, hlt⟩
  unfold nmeta at hlow
  unfold bmapstart
  omega

/-- The blocks of another inode are the same behind a round. -/
theorem Placed.other_block (h : Placed j n x st g st' g') (hlayout : Layout st g cs)
    (hj : j + 1 < st.freeinode) (hn : n < maxfile) (o : ℕ) (src : ℕ → BitVec 8) {l p : ℕ}
    (howner : g.owner b = some (l, p)) (hl : l ≠ j) :
    image (writeBytes st' x o m src) b = image st b := by
  obtain ⟨-, -, hx, hmap, -⟩ := h.bounds hlayout hj hn
  have hbx : b ≠ x := by
    rintro rfl
    rw [h.grown.owner b _ howner, Option.some.injEq, Prod.mk.injEq] at hx
    exact hl hx.1
  rw [writeBytes, image_update _ (by omega), update_of_ne hbx, h.grown.data b _ howner]
  simp [hl]

/-- A round of the loop appends some bytes. -/
theorem Layout.write (h : Layout st g cs) (hj : j + 1 < st.freeinode)
    (hplaced : Placed j ((cs j).length / bsize) x st g st' g') {src : ℕ → BitVec 8} (hm : 0 < m)
    (hfit : m ≤ bsize - (cs j).length % bsize) (hmax : (cs j).length + m ≤ maxfile * bsize)
    (hhigh : st'.freeblock ≤ fsSize) : Layout (writeBytes st' x ((cs j).length % bsize) m src) g'
      (update cs j (cs j ++ (range m).map src)) := by
  have hn : (cs j).length / bsize < maxfile := by
    unfold bsize at *
    omega
  obtain ⟨hi, htype', howner, hmap, hused, hlt⟩ := hplaced.bounds h hj hn
  have himage : image (writeBytes st' x ((cs j).length % bsize) m src) = update (image st') x
      (memmoveTo (image st' x) ((cs j).length % bsize) m src) := by
    rw [writeBytes, image_update _ (by omega), image_of_ne _ (by omega : x ≠ bmapstart)]
  obtain ⟨addrs, haddrs⟩ := hplaced.grown.fields
  have hfreeinode : (writeBytes st' x ((cs j).length % bsize) m src).freeinode = st.freeinode :=
    hplaced.freeinode
  refine ⟨?_, ?_, ?_, hhigh, ?_, ?_, ?_⟩
  · rw [himage]
    exact hplaced.owned.update_data howner hn _
  · intro b hb
    have hbx : b ≠ x := by
      rintro rfl
      exact absurd hb (by simpa [writeBytes] using hused)
    rw [writeBytes_of_ne hbx]
    exact hplaced.blank b hb
  · change nmeta ≤ st'.freeblock
    rw [hplaced.freeblock]
    exact le_add_right_of_le h.low
  · rw [hfreeinode]
    exact h.count
  · intro l hl
    rw [hfreeinode, ← h.live l hl]
    by_cases hlj : l = j
    · rw [hlj, haddrs]
    · rw [hplaced.grown.other l hlj]
  · intro l hl
    rw [hfreeinode] at hl
    by_cases hlj : l = j
    · subst l
      have hold := h.holds j hj
      rw [update_self, himage]
      refine ⟨?_, ?_, ?_⟩
      · simpa using hmax
      · intro l hl'
        rw [hplaced.ptr_update hi htype' hn, length_append, length_map, length_range]
        by_cases hln : l = (cs j).length / bsize
        · rw [hln, hplaced.self]
          refine iff_of_true hplaced.pos ?_
          unfold bsize
          omega
        · rw [hplaced.other l hl' hln, hold.blocks l hl']
          unfold bsize at *
          omega
      · intro y hy
        rw [hplaced.byteAt_update hi htype' hmax hm hfit hy]
        split_ifs with hin
        · rw [getD_append_right _ _ _ _ hin.1, getD_eq_getElem?_getD, List.getElem?_map,
            List.getElem?_range (by omega)]
          rfl
        · rw [hold.bytes y hy]
          by_cases hlow : y < (cs j).length
          · rw [getD_append _ _ _ _ hlow]
          · rw [getD_eq_default _ _ (by omega), getD_eq_default]
            rw [length_append, length_map, length_range]
            omega
    · obtain ⟨hl', hltype⟩ := h.lt hl
      rw [update_of_ne hlj, hplaced.grown.other l hlj]
      have hsame : ∀ b p, g.owner b = some (l, p) →
          image (writeBytes st' x ((cs j).length % bsize) m src) b = image st b :=
        fun b p hb => hplaced.other_block h hj hn _ src hb hlj
      refine (h.holds l hl).congr ?_ ?_
      · intro q _
        exact Fs.ptr_congr (fun hne => hsame _ _ ((h.owned.owns l hl' hltype nofun).indirect hne)) q
      · intro q hq
        exact h.owned.blockAt_congr hl' hltype nofun hsame hq

theorem Placed.appended (h : Placed j n x st g st' g') (hlayout : Layout st g cs)
    (hj : j + 1 < st.freeinode) (hn : n < maxfile) (o : ℕ) (src : ℕ → BitVec 8) :
    Appended j st g (writeBytes st' x o m src) g' := by
  obtain ⟨-, -, -, hmap, -⟩ := h.bounds hlayout hj hn
  refine ⟨h.freeinode, ?_, h.grown.other, h.grown.fields⟩
  intro b hb
  have hsame := h.grown.metas b hb
  rw [image_of_ne _ (by omega : b ≠ bmapstart), image_of_ne _ (by omega : b ≠ bmapstart)] at hsame
  rw [writeBytes_of_ne (by omega), hsame]

/-- The loop of `iappend`. -/
theorem wp_appendLoop {fuel : ℕ} : ∀ {st : State} {g : Ghost} {cs : ℕ → List (BitVec 8)}
    {p : List (BitVec 8)}, p.length ≤ fuel → Layout st g cs → j + 1 < st.freeinode →
      (cs j).length + p.length ≤ maxfile * bsize →
      st.freeblock + blocksOf ((cs j).length + p.length) ≤ fsSize + blocksOf (cs j).length →
      wp (appendLoop fuel (g.ino j) (cs j).length p) E (fun r st' => ∃ g',
        r = (g'.ino j, (cs j).length + p.length) ∧ Layout st' g' (update cs j (cs j ++ p)) ∧
        Appended j st g st' g' ∧
        st'.freeblock + blocksOf (cs j).length ≤ st.freeblock + blocksOf ((cs j).length + p.length)) st := by
  induction fuel with
  | zero =>
    intro st g cs p hp h _ _ _
    obtain rfl : p = [] := eq_nil_of_length_eq_zero (by omega)
    refine wp_pure ⟨g, rfl, ?_, Appended.refl j st g, Nat.le_refl _⟩
    rwa [append_nil, update_eq_self]
  | succ fuel ih =>
    intro st g cs p hp h hj hmax hroom
    unfold appendLoop
    refine wp_ite (fun hnil => ?_) fun hnil => ?_
    · subst hnil
      refine wp_pure ⟨g, rfl, ?_, Appended.refl j st g, Nat.le_refl _⟩
      rwa [append_nil, update_eq_self]
    · have hpos : 0 < p.length := length_pos_iff.mpr hnil
      obtain ⟨off, hoff⟩ : ∃ off, off = (cs j).length := ⟨_, rfl⟩
      rw [← hoff] at hmax hroom ⊢
      have hn : off / bsize < maxfile := by
        unfold bsize at *
        omega
      obtain ⟨m, hm⟩ : ∃ m, m = min p.length ((off / bsize + 1) * bsize - off) := ⟨_, rfl⟩
      have hbounds : 0 < m ∧ m ≤ p.length ∧ m ≤ bsize - off % bsize := by
        unfold bsize at *
        omega
      obtain ⟨hm0, hmp, hfit⟩ := hbounds
      have hcost := (h.holds j hj).missing_le hm0 (by rwa [← hoff])
      rw [← hoff] at hcost
      have hmono : blocksOf (off + m) ≤ blocksOf (off + p.length) := blocksOf_mono (by omega)
      rw [if_pos hn]
      refine wp_seq (wp_fileBlock h hj hn (by omega)) ?_
      rintro ⟨din, x⟩ st₁ ⟨g₁, rfl, hplaced⟩
      obtain ⟨-, -, -, -, -, hlt⟩ := hplaced.bounds h hj hn
      refine wp_bind (wp_rsect hlt (wp_bind (wp_wsect ?_)))
      have hmod : off - off / bsize * bsize = off % bsize := by
        unfold bsize
        omega
      simp only [← hm, hmod]
      have hfree := hplaced.freeblock
      have hlayout : Layout (writeBytes st₁ x ((cs j).length % bsize) m fun i => p.getD i 0) g₁
          (update cs j (cs j ++ (range m).map fun i => p.getD i 0)) :=
        h.write hj (by rwa [← hoff]) hm0 (by rwa [← hoff]) (by omega) (by omega)
      have hchunk : (range m).map (fun i => p.getD i 0) = p.take m := by
        apply ext_getElem
        · simp [hmp]
        · intro i hi _
          rw [length_map, length_range] at hi
          rw [getElem_map, getElem_range, getElem_take, getD_eq_getElem _ _ (by omega)]
      rw [hchunk, ← hoff] at hlayout
      have hlength : (update cs j (cs j ++ p.take m) j).length = off + m := by
        rw [update_self, length_append, length_take, ← hoff]
        omega
      have hrest : (off + m) + (p.drop m).length = off + p.length := by
        rw [length_drop]
        omega
      have hloop := ih (p := p.drop m) (by rw [length_drop]; omega) hlayout
        (by rw [writeBytes]; simpa [hplaced.freeinode] using hj)
        (by rw [hlength, hrest]; exact hmax)
        (by rw [hlength, hrest, writeBytes]; simp only; omega)
      rw [hlength, hrest] at hloop
      refine wp_mono hloop ?_
      rintro r st₂ ⟨g₂, rfl, hlayout₂, happ, hfree₂⟩
      refine ⟨g₂, rfl, ?_, (hplaced.appended h hj hn _ _).trans happ, ?_⟩
      · rwa [update_self, update_idem, append_assoc, take_append_drop] at hlayout₂
      · rw [writeBytes] at hfree₂
        simp only at hfree₂
        omega

end

end Xv6Draw.Mkfs
