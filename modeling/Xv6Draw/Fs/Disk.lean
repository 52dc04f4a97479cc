import Xv6Draw.Lib.LittleEndian

/-!
# The layout of the disk

What `fs.h` and the superblock of `mkfs` say about the disk: where the inodes and the
bitmap are, how an inode is laid out in its block, and how an inode leads to the
blocks of its file. A block is an array of bytes. The numbers in it are read from
the bytes that were written.
-/

namespace Xv6Draw.Fs

open BitVec Function LittleEndian

/-- The bytes of a block. -/
abbrev Block := ℕ → BitVec 8

/-- `BSIZE`. -/
def bsize : ℕ := 512

/-- `NDIRECT`. -/
def ndirect : ℕ := 12

/-- `NINDIRECT`. -/
def nindirect : ℕ := 128

/-- `MAXFILE`. -/
def maxfile : ℕ := 140

/-- `IPB`, the inodes in a block. -/
def ipb : ℕ := 8

/-- `BPB`, the bits of the bitmap in a block. -/
def bpb : ℕ := 4096

/-- `sb.size`, which is `FSSIZE`. -/
def fsSize : ℕ := 1000

/-- `sb.ninodes`, which is `NINODES`. -/
def ninodes : ℕ := 200

/-- `sb.inodestart`, behind the boot block, the superblock and the log. -/
def inodestart : ℕ := 32

/-- `sb.bmapstart`, behind the blocks of the inodes. -/
def bmapstart : ℕ := 58

/-- `nmeta`, the first block behind the bitmap. -/
def nmeta : ℕ := 59

/-- `IBLOCK`. -/
def iblock (i : ℕ) : ℕ := i / ipb + inodestart

/-- `BBLOCK`. -/
def bblock (b : ℕ) : ℕ := b / bpb + bmapstart

/-- `struct dinode`. -/
structure Dinode where
  /-- The type, 0 for a free inode. -/
  type : BitVec 16
  major : BitVec 16
  minor : BitVec 16
  nlink : BitVec 16
  size : BitVec 32
  /-- The block numbers: the direct blocks and the indirect block. -/
  addrs : Fin (ndirect + 1) → BitVec 32

/-- An inode of zeros. -/
def Dinode.zero : Dinode := ⟨0, 0, 0, 0, 0, fun _ => 0⟩

/-- An entry of `addrs` as a block number. -/
def Dinode.addr (d : Dinode) (n : ℕ) : ℕ :=
  if h : n < ndirect + 1 then (d.addrs ⟨n, h⟩).toNat else 0

/-- Assignment to an entry of `addrs`. -/
def Dinode.setAddr (d : Dinode) (n b : ℕ) : Dinode :=
  { d with addrs := fun i => if i = n then BitVec.ofNat 32 b else d.addrs i }

/-- A byte of an inode as it lies in its block. -/
def Dinode.byte (d : Dinode) (j : ℕ) : BitVec 8 :=
  if j < 2 then digit d.type.toNat j
  else if j < 4 then digit d.major.toNat (j - 2)
  else if j < 6 then digit d.minor.toNat (j - 4)
  else if j < 8 then digit d.nlink.toNat (j - 6)
  else if j < 12 then digit d.size.toNat (j - 8)
  else digit (d.addr ((j - 12) / 4)) ((j - 12) % 4)

/-- The inode at a place of a block. -/
def readDinode (b : Block) (slot : ℕ) : Dinode where
  type := BitVec.ofNat 16 (load b (slot * 64) 2)
  major := BitVec.ofNat 16 (load b (slot * 64 + 2) 2)
  minor := BitVec.ofNat 16 (load b (slot * 64 + 4) 2)
  nlink := BitVec.ofNat 16 (load b (slot * 64 + 6) 2)
  size := BitVec.ofNat 32 (load b (slot * 64 + 8) 4)
  addrs i := BitVec.ofNat 32 (load b (slot * 64 + 12 + 4 * i) 4)

/-- A block with an inode written to a place. -/
def writeDinode (b : Block) (slot : ℕ) (d : Dinode) : Block := fun i =>
  if slot * 64 ≤ i ∧ i < slot * 64 + 64 then d.byte (i - slot * 64) else b i

/-- An inode on the disk. -/
def dinode (disk : ℕ → Block) (i : ℕ) : Dinode := readDinode (disk (iblock i)) (i % ipb)

/-- The bit of a block in its block of the bitmap. -/
def bitOf (blk : Block) (b : ℕ) : Bool := (blk (b % bpb / 8)).getLsbD (b % bpb % 8)

/-- The bit of a block in the bitmap. -/
def bit (disk : ℕ → Block) (b : ℕ) : Bool := bitOf (disk (bblock b)) b

/-- The mask of a bit in its byte. -/
def mask (b : ℕ) : BitVec 8 := 1#8 <<< (b % bpb % 8)

/-- A block of the bitmap with a bit set. -/
def setBit (blk : Block) (b : ℕ) : Block := fun i =>
  if i = b % bpb / 8 then blk i ||| mask b else blk i

/-- A block of the bitmap with a bit cleared. -/
def clearBit (blk : Block) (b : ℕ) : Block := fun i =>
  if i = b % bpb / 8 then blk i &&& ~~~ mask b else blk i

/-- The block that a file has at a position: its data blocks in order, and at position
`MAXFILE` the indirect block. Zero when there is none. -/
def ptr (disk : ℕ → Block) (d : Dinode) (n : ℕ) : ℕ :=
  if n < ndirect then d.addr n
  else if n < maxfile then
    if d.addr ndirect = 0 then 0 else load (disk (d.addr ndirect)) (4 * (n - ndirect)) 4
  else if n = maxfile then d.addr ndirect
  else 0

/-! ### Inodes -/

theorem Dinode.ext_addr {d e : Dinode} (htype : d.type = e.type) (hmajor : d.major = e.major)
    (hminor : d.minor = e.minor) (hnlink : d.nlink = e.nlink) (hsize : d.size = e.size)
    (haddr : ∀ n ≤ ndirect, d.addr n = e.addr n) : d = e := by
  obtain ⟨type, major, minor, nlink, size, addrs⟩ := d
  obtain ⟨type', major', minor', nlink', size', addrs'⟩ := e
  have haddrs : addrs = addrs' := by
    funext i
    have hi := haddr i (by omega)
    simp only [addr, i.isLt, dif_pos] at hi
    exact eq_of_toNat_eq hi
  simp_all

@[simp] theorem Dinode.addr_zero (n : ℕ) : zero.addr n = 0 := by
  unfold addr zero
  split <;> rfl

variable {b c : ℕ}

/-- The entries of `addrs` after an assignment. -/
theorem Dinode.addr_setAddr (d : Dinode) {n : ℕ} (hn : n ≤ ndirect) (hb : b < 2 ^ 32) (m : ℕ) :
    (d.setAddr n b).addr m = if m = n then b else d.addr m := by
  unfold addr setAddr
  by_cases hm : m < ndirect + 1
  · simp only [hm, dif_pos]
    split_ifs
    · rw [toNat_ofNat, Nat.mod_eq_of_lt hb]
    · rfl
  · rw [dif_neg hm, dif_neg hm, if_neg (by omega)]

@[simp] theorem Dinode.setAddr_type (d : Dinode) (n b : ℕ) : (d.setAddr n b).type = d.type := rfl

/-- Numbers in an inode are read from their bytes. -/
theorem load_writeDinode (b : Block) (slot : ℕ) (d : Dinode) {k w : ℕ} {v : BitVec (8 * w)} (hk : k + w ≤ 64)
    (h : ∀ i < w, d.byte (k + i) = digit v.toNat i) :
    load (writeDinode b slot d) (slot * 64 + k) w = v.toNat := by
  have hv : v.toNat < 256 ^ w := by
    rw [show 256 = 2 ^ 8 from rfl, ← Nat.pow_mul]
    exact v.isLt
  rw [← Nat.mod_eq_of_lt hv]
  apply load_of_digits
  intro i hi
  rw [writeDinode, if_pos ⟨by omega, by omega⟩, ← h i hi]
  congr 1
  omega

/-- What was written to a place of a block is read there. -/
theorem readDinode_writeDinode (b : Block) (slot : ℕ) (d : Dinode) :
    readDinode (writeDinode b slot d) slot = d := by
  have htype : load (writeDinode b slot d) (slot * 64) 2 = d.type.toNat :=
    load_writeDinode b slot d (k := 0) (by decide) (by grind [Dinode.byte])
  have hmajor : load (writeDinode b slot d) (slot * 64 + 2) 2 = d.major.toNat :=
    load_writeDinode b slot d (by decide) (by grind [Dinode.byte])
  have hminor : load (writeDinode b slot d) (slot * 64 + 4) 2 = d.minor.toNat :=
    load_writeDinode b slot d (by decide) (by grind [Dinode.byte])
  have hnlink : load (writeDinode b slot d) (slot * 64 + 6) 2 = d.nlink.toNat :=
    load_writeDinode b slot d (by decide) (by grind [Dinode.byte])
  have hsize : load (writeDinode b slot d) (slot * 64 + 8) 4 = d.size.toNat :=
    load_writeDinode b slot d (by decide) (by grind [Dinode.byte])
  have haddr : ∀ n : Fin (ndirect + 1), load (writeDinode b slot d) (slot * 64 + 12 + 4 * n) 4 =
      (d.addrs n).toNat := by
    intro n
    have hn := n.isLt
    unfold ndirect at hn
    rw [Nat.add_assoc]
    refine load_writeDinode b slot d (by omega) ?_
    intro i hi
    have hdiv : (12 + 4 * (n : ℕ) + i - 12) / 4 = n := by omega
    have hmod : (12 + 4 * (n : ℕ) + i - 12) % 4 = i := by omega
    rw [Dinode.byte, if_neg (by omega), if_neg (by omega), if_neg (by omega), if_neg (by omega),
      if_neg (by omega), hdiv, hmod, Dinode.addr, dif_pos n.isLt]
  unfold readDinode
  simp only [htype, hmajor, hminor, hnlink, hsize, haddr, ofNat_toNat, setWidth_eq]

/-- Writing an inode to one place of a block does not change the others. -/
theorem readDinode_writeDinode_of_ne (b : Block) {slot slot' : ℕ} (h : slot' ≠ slot) (d : Dinode) :
    readDinode (writeDinode b slot d) slot' = readDinode b slot' := by
  have hload : ∀ k w, k + w ≤ 64 →
      load (writeDinode b slot d) (slot' * 64 + k) w = load b (slot' * 64 + k) w := by
    intro k w hk
    apply load_congr
    intro i hi
    rw [writeDinode, if_neg]
    rintro ⟨hlow, hhigh⟩
    omega
  have haddr : ∀ n : Fin (ndirect + 1), load (writeDinode b slot d) (slot' * 64 + 12 + 4 * n) 4 =
      load b (slot' * 64 + 12 + 4 * n) 4 := by
    intro n
    have hn := n.isLt
    unfold ndirect at hn
    rw [Nat.add_assoc]
    exact hload _ _ (by omega)
  have htype : load (writeDinode b slot d) (slot' * 64) 2 = load b (slot' * 64) 2 :=
    hload 0 2 (by decide)
  unfold readDinode
  simp only [htype, hload 2 2 (by decide), hload 4 2 (by decide), hload 6 2 (by decide),
    hload 8 4 (by decide), haddr]

theorem iblock_range {i : ℕ} (hi : i < ninodes) : inodestart ≤ iblock i ∧ iblock i < bmapstart := by
  unfold iblock ipb inodestart bmapstart
  unfold ninodes at hi
  omega

/-- The inodes of a disk after one was written. -/
theorem dinode_write (disk : ℕ → Block) (i j : ℕ) (d : Dinode) :
    dinode (update disk (iblock i) (writeDinode (disk (iblock i)) (i % ipb) d)) j =
      if j = i then d else dinode disk j := by
  unfold dinode
  split_ifs with hj
  · subst j
    rw [update_self, readDinode_writeDinode]
  · by_cases hblock : iblock j = iblock i
    · rw [hblock, update_self, readDinode_writeDinode_of_ne]
      unfold iblock ipb at hblock
      unfold ipb
      omega
    · rw [update_of_ne hblock]

/-- Writing a block that holds no inodes does not change the inodes. -/
theorem dinode_update (hb : bmapstart ≤ b) (disk : ℕ → Block) (x : Block) {i : ℕ}
    (hi : i < ninodes) : dinode (update disk b x) i = dinode disk i := by
  have hrange := iblock_range hi
  unfold dinode
  rw [update_of_ne (by omega)]

/-! ### The bitmap -/

theorem bblock_eq (hb : b < fsSize) : bblock b = bmapstart := by
  unfold bblock bpb
  unfold fsSize at hb
  omega

theorem bit_eq (disk : ℕ → Block) (hb : b < fsSize) :
    bit disk b = (disk bmapstart (b / 8)).getLsbD (b % 8) := by
  unfold fsSize at hb
  rw [bit, bitOf, bblock_eq hb, bpb, Nat.mod_eq_of_lt (by omega)]

theorem mask_getLsbD (hb : b < fsSize) (j : ℕ) : (mask b).getLsbD j = decide (j = b % 8) := by
  unfold fsSize at hb
  have hbit : b % 8 < 8 := by omega
  rw [mask, bpb, Nat.mod_eq_of_lt (by omega : b < 4096), ← twoPow_eq, getLsbD_twoPow]
  simp [hbit, eq_comm]

/-- The bitmap after a bit was set. -/
theorem bit_setBit (disk : ℕ → Block) (hb : b < fsSize) (hc : c < fsSize) :
    bit (update disk (bblock b) (setBit (disk (bblock b)) b)) c =
      (bit disk c || decide (c = b)) := by
  have hbyte : b % bpb / 8 = b / 8 := by
    unfold fsSize at hb
    unfold bpb
    omega
  rw [bit_eq _ hc, bit_eq _ hc, bblock_eq hb, update_self, setBit, hbyte]
  split_ifs with hsame
  · have hiff : c % 8 = b % 8 ↔ c = b := by omega
    rw [getLsbD_or, mask_getLsbD hb]
    simp [hiff]
  · have hne : c ≠ b := by
      rintro rfl
      exact hsame rfl
    simp [hne]

/-- The bitmap after a bit was cleared. -/
theorem bit_clearBit (disk : ℕ → Block) (hb : b < fsSize) (hc : c < fsSize) :
    bit (update disk (bblock b) (clearBit (disk (bblock b)) b)) c =
      (bit disk c && decide (c ≠ b)) := by
  have hbyte : b % bpb / 8 = b / 8 := by
    unfold fsSize at hb
    unfold bpb
    omega
  rw [bit_eq _ hc, bit_eq _ hc, bblock_eq hb, update_self, clearBit, hbyte]
  split_ifs with hsame
  · have hiff : c % 8 = b % 8 ↔ c = b := by omega
    have hlt : c % 8 < 8 := by omega
    rw [getLsbD_and, getLsbD_not, mask_getLsbD hb]
    simp [hiff, hlt]
  · have hne : c ≠ b := by
      rintro rfl
      exact hsame rfl
    simp [hne]

theorem bit_update (hb : b ≠ bmapstart) (disk : ℕ → Block) (x : Block)
    (hc : c < fsSize) : bit (update disk b x) c = bit disk c := by
  rw [bit_eq _ hc, bit_eq _ hc, update_of_ne (Ne.symm hb)]

/-! ### Pointers -/

/-- Pointers depend on the disk through the indirect block. -/
theorem ptr_congr {disk disk' : ℕ → Block} {d : Dinode}
    (h : d.addr ndirect ≠ 0 → disk (d.addr ndirect) = disk' (d.addr ndirect)) (n : ℕ) :
    ptr disk d n = ptr disk' d n := by
  unfold ptr
  by_cases hzero : d.addr ndirect = 0
  · simp [hzero]
  · rw [h hzero]

end Xv6Draw.Fs
