import Xv6Draw.Fs.Inode

/-!
# The volume behind the blocks

What the file system is for: a table of files, each with its type, its link count and
its bytes. A state represents such a volume when every block of the disk is metadata,
is free or has one owner, a position of an inode, and the bitmap says which. The
inodes are taken as their holders see them, since the copy in the cache is ahead of
the disk until `iupdate`.

The lemmas of this module say how the block owners change with the elementary changes
to the disk: new contents for a data block, a block that is allocated for a pointer,
a block that is freed, and an inode that is written back.
-/

namespace Xv6Draw.Fs

open Function LittleEndian Option

/-- A file of the volume. -/
structure Node where
  type : BitVec 16
  major : BitVec 16
  minor : BitVec 16
  nlink : BitVec 16
  size : ℕ
  /-- The bytes, zero behind the size. -/
  data : ℕ → BitVec 8

/-- The block at a position of a file. A block that is not there reads as zeros, because `bmap`
allocates a block of zeros for it. -/
def blockAt (disk : ℕ → Block) (d : Dinode) (n : ℕ) : Block :=
  if ptr disk d n = 0 then fun _ => 0 else disk (ptr disk d n)

/-- A byte of a file. -/
def fileByte (disk : ℕ → Block) (d : Dinode) (off : ℕ) : BitVec 8 :=
  if off < d.size.toNat ∧ off < maxfile * bsize then blockAt disk d (off / bsize) (off % bsize)
  else 0

/-- The file that an inode describes, if it is allocated. -/
def node (disk : ℕ → Block) (d : Dinode) : Option Node :=
  if d.type = 0 then none
  else some ⟨d.type, d.major, d.minor, d.nlink, d.size.toNat, fileByte disk d⟩

/-- The inodes as their holders see them, and the owner of each block: an inode and the
position there. -/
structure Ghost where
  ino : ℕ → Dinode
  owner : ℕ → Option (ℕ × ℕ)

/-- The volume. -/
def vol (disk : ℕ → Block) (g : Ghost) (i : ℕ) : Option Node :=
  if i < ninodes then node disk (g.ino i) else none

/-- Every pointer of an inode is recorded with its owner. -/
def Owns (disk : ℕ → Block) (g : Ghost) (i : ℕ) : Prop :=
  ∀ n ≤ maxfile, ptr disk (g.ino i) n ≠ 0 → g.owner (ptr disk (g.ino i) n) = some (i, n)

/-- A file has all blocks below its size. -/
def NoHole (disk : ℕ → Block) (d : Dinode) : Prop :=
  ∀ n < maxfile, n * bsize < d.size.toNat → ptr disk d n ≠ 0

/-- The blocks of the disk and their owners. An inode that is being truncated still
names blocks that are free. -/
structure Owned (disk : ℕ → Block) (g : Ghost) (dying : Option ℕ) : Prop where
  /-- Owners are allocated inodes, with a pointer to their block. -/
  sound : ∀ b i n, g.owner b = some (i, n) → i < ninodes ∧ (g.ino i).type ≠ 0 ∧ n ≤ maxfile ∧
    ptr disk (g.ino i) n = b ∧ nmeta ≤ b ∧ b < fsSize
  owns : ∀ i < ninodes, (g.ino i).type ≠ 0 → dying ≠ some i → Owns disk g i
  /-- Indirect blocks are no metadata. -/
  indirect : ∀ i < ninodes, (g.ino i).type ≠ 0 → (g.ino i).addr ndirect ≠ 0 →
    nmeta ≤ (g.ino i).addr ndirect
  /-- The bitmap marks the metadata and the blocks with owners. -/
  bits : ∀ b < fsSize, bit disk b = true ↔ b < nmeta ∨ (g.owner b).isSome

/-- The blocks of a disk whose files have no holes. -/
structure Blocks (disk : ℕ → Block) (g : Ghost) (dying : Option ℕ) : Prop extends
    Owned disk g dying where
  full : ∀ i < ninodes, (g.ino i).type ≠ 0 → dying ≠ some i → NoHole disk (g.ino i)

/-- The inodes on the disk, apart from one whose copy is ahead. -/
def Synced (disk : ℕ → Block) (ino : ℕ → Dinode) (ahead : Option ℕ) : Prop :=
  ∀ i < ninodes, ahead ≠ some i → dinode disk i = ino i

/-- The inode cache. -/
structure Cache (icache : Fin ninode → Inode) (ino : ℕ → Dinode) : Prop where
  unique : ∀ j k, 0 < (icache j).ref → 0 < (icache k).ref → (icache j).inum = (icache k).inum → j = k
  range : ∀ k, 0 < (icache k).ref → (icache k).inum < ninodes
  copy : ∀ k, 0 < (icache k).ref → (icache k).valid = true → (icache k).d = ino (icache k).inum
  live : ∀ k, 0 < (icache k).ref → (icache k).valid = true → (icache k).d.type ≠ 0

/-- A state represents its ghost. -/
structure Rep (s : State) (g : Ghost) (ahead dying : Option ℕ) : Prop where
  blocks : Blocks s.disk g dying
  synced : Synced s.disk g.ino ahead
  cache : Cache s.icache g.ino

/-! ### Owners -/

variable {disk : ℕ → Block} {g : Ghost} {dying : Option ℕ}

theorem ptr_maxfile (disk : ℕ → Block) (d : Dinode) : ptr disk d maxfile = d.addr ndirect := by
  rw [ptr, if_neg (by decide), if_neg (by decide), if_pos rfl]

variable {d : Dinode} {n i b c : ℕ} {disk' : ℕ → Block}

/-- Pointers through the indirect block are there only with it. -/
theorem ptr_eq_zero_of_addr (h : d.addr ndirect = 0) (hn : ndirect ≤ n) :
    ptr disk d n = 0 := by
  unfold ptr
  rw [if_neg (by omega)]
  split_ifs
  · rfl
  · exact h
  · rfl

theorem Owns.indirect (h : Owns disk g i) (hne : (g.ino i).addr ndirect ≠ 0) :
    g.owner ((g.ino i).addr ndirect) = some (i, maxfile) := by
  have howner := h maxfile (Nat.le_refl _)
  exact howner hne

/-- A block whose bit is clear has no owner and is no metadata. -/
theorem Owned.free (h : Owned disk g dying) (hb : b < fsSize) (hbit : bit disk b = false) :
    g.owner b = none ∧ nmeta ≤ b := by
  have hnot : ¬ (b < nmeta ∨ (g.owner b).isSome) := by
    rw [← h.bits b hb, hbit]
    simp
  rw [not_or, Option.not_isSome_iff_eq_none] at hnot
  exact ⟨hnot.2, by omega⟩

/-! ### Contents -/

/-- A file is the same on two disks when its fields and the blocks below its size are. -/
theorem node_congr {d' : Dinode} (htype : d'.type = d.type)
    (hmajor : d'.major = d.major) (hminor : d'.minor = d.minor) (hnlink : d'.nlink = d.nlink)
    (hsize : d'.size = d.size)
    (hblock : ∀ n < maxfile, n * bsize < d.size.toNat → blockAt disk' d' n = blockAt disk d n) :
    node disk' d' = node disk d := by
  have hdata : fileByte disk' d' = fileByte disk d := by
    funext off
    unfold fileByte
    rw [hsize]
    split_ifs with hoff
    · have hn : off / bsize < maxfile := by
        unfold bsize maxfile at *
        omega
      rw [hblock (off / bsize) hn (by unfold bsize; omega)]
    · rfl
  unfold node
  rw [htype, hmajor, hminor, hnlink, hsize, hdata]

/-- The blocks of a file are the same when the disk has the same blocks for its owner. -/
theorem Owned.blockAt_congr (h : Owned disk g dying) (hi : i < ninodes)
    (htype : (g.ino i).type ≠ 0) (hdying : dying ≠ some i)
    (hsame : ∀ b n, g.owner b = some (i, n) → disk' b = disk b) (hn : n < maxfile) :
    blockAt disk' (g.ino i) n = blockAt disk (g.ino i) n := by
  have howns := h.owns i hi htype hdying
  have hptr : ptr disk' (g.ino i) n = ptr disk (g.ino i) n :=
    ptr_congr (fun hne => hsame _ _ (howns.indirect hne)) n
  unfold blockAt
  rw [hptr]
  split_ifs with hzero
  · rfl
  · exact hsame _ _ (howns n (by omega) hzero)

/-- A file is not changed when the blocks with owners keep their contents. -/
theorem Owned.node_congr (h : Owned disk g dying) (hi : i < ninodes) (hdying : dying ≠ some i)
    (hsame : ∀ b j n, g.owner b = some (j, n) → j = i → disk' b = disk b) :
    node disk' (g.ino i) = node disk (g.ino i) := by
  by_cases htype : (g.ino i).type = 0
  · simp [node, htype]
  · exact Fs.node_congr rfl rfl rfl rfl rfl fun n hn _ =>
      h.blockAt_congr hi htype hdying (fun b m hb => hsame b i m hb rfl) hn

/-! ### Elementary changes -/

/-- Pointers depend on blocks that are no metadata. -/
theorem Owned.ptr_congr (h : Owned disk g dying) (hi : i < ninodes) (htype : (g.ino i).type ≠ 0)
    (hsame : nmeta ≤ (g.ino i).addr ndirect → disk' ((g.ino i).addr ndirect) = disk ((g.ino i).addr ndirect))
    (n : ℕ) : ptr disk' (g.ino i) n = ptr disk (g.ino i) n := by
  apply Fs.ptr_congr
  intro hne
  exact hsame (h.indirect i hi htype hne)

/-- A disk on which all pointers and the bitmap are the same. -/
theorem Owned.of_ptr (h : Owned disk g dying)
    (hptr : ∀ i < ninodes, (g.ino i).type ≠ 0 → ∀ n, ptr disk' (g.ino i) n = ptr disk (g.ino i) n)
    (hbits : ∀ b < fsSize, bit disk' b = bit disk b) : Owned disk' g dying := by
  refine ⟨?_, ?_, h.indirect, ?_⟩
  · intro b i n howner
    obtain ⟨hi, htype, hn, hb, hrange⟩ := h.sound b i n howner
    exact ⟨hi, htype, hn, by rw [hptr i hi htype, hb], hrange⟩
  · intro i hi htype hdying n hn
    rw [hptr i hi htype]
    exact h.owns i hi htype hdying n hn
  · intro b hb
    rw [hbits b hb]
    exact h.bits b hb

theorem Blocks.of_ptr (h : Blocks disk g dying)
    (hptr : ∀ i < ninodes, (g.ino i).type ≠ 0 → ∀ n, ptr disk' (g.ino i) n = ptr disk (g.ino i) n)
    (hbits : ∀ b < fsSize, bit disk' b = bit disk b) : Blocks disk' g dying := by
  refine ⟨h.toOwned.of_ptr hptr hbits, ?_⟩
  intro i hi htype hdying n hn hsize
  rw [hptr i hi htype]
  exact h.full i hi htype hdying n hn hsize

/-- Pointers do not change when metadata is written. -/
theorem Owned.ptr_update_meta (h : Owned disk g dying) (hb : b < bmapstart) (x : Block)
    (hi : i < ninodes) (htype : (g.ino i).type ≠ 0) (n : ℕ) :
    ptr (update disk b x) (g.ino i) n = ptr disk (g.ino i) n := by
  refine h.ptr_congr hi htype (fun hmeta => update_of_ne ?_ _ _) n
  unfold nmeta at hmeta
  unfold bmapstart at hb
  omega

theorem Owned.update_meta (h : Owned disk g dying) (hb : b < bmapstart) (x : Block) :
    Owned (update disk b x) g dying :=
  h.of_ptr (fun _ hi htype => h.ptr_update_meta hb x hi htype) fun _ hc =>
    bit_update (by omega) disk x hc

theorem Blocks.update_meta (h : Blocks disk g dying) (hb : b < bmapstart) (x : Block) :
    Blocks (update disk b x) g dying :=
  h.of_ptr (fun _ hi htype => h.ptr_update_meta hb x hi htype) fun _ hc =>
    bit_update (by omega) disk x hc

/-- A data block is written. -/
theorem Owned.update_data (h : Owned disk g none) (howner : g.owner b = some (i, n))
    (hn : n < maxfile) (x : Block) : Owned (update disk b x) g none := by
  obtain ⟨-, -, -, -, hlow, -⟩ := h.sound b i n howner
  apply h.of_ptr
  · intro j hj htype m
    apply h.ptr_congr hj htype
    intro hmeta
    apply update_of_ne
    rintro rfl
    have hindirect := (h.owns j hj htype nofun).indirect (by unfold nmeta at hmeta; omega)
    rw [howner, some.injEq, Prod.mk.injEq] at hindirect
    omega
  · intro c hc
    apply bit_update _ disk x hc
    unfold nmeta at hlow
    unfold bmapstart
    omega

/-- The disk after `balloc` has marked a block and zeroed it. -/
def allocDisk (disk : ℕ → Block) (b : ℕ) : ℕ → Block :=
  update (update disk (bblock b) (setBit (disk (bblock b)) b)) b fun _ => 0

theorem allocDisk_of_ne (hb : b < fsSize) (hc : nmeta ≤ c) (hne : c ≠ b) :
    allocDisk disk b c = disk c := by
  unfold nmeta at hc
  rw [allocDisk, update_of_ne hne, update_of_ne]
  rw [bblock_eq hb]
  unfold bmapstart
  omega

/-- `balloc` changes no metadata but the bitmap. -/
theorem allocDisk_of_lt (hb : b < fsSize) (hmeta : nmeta ≤ b) (hc : c < bmapstart) :
    allocDisk disk b c = disk c := by
  have hbit : c ≠ bblock b := by
    rw [bblock_eq hb]
    omega
  have hcb : c ≠ b := by
    unfold nmeta at hmeta
    unfold bmapstart at hc
    omega
  rw [allocDisk, update_of_ne hcb, update_of_ne hbit]

theorem allocDisk_self (disk : ℕ → Block) (b : ℕ) : allocDisk disk b b = fun _ => 0 :=
  update_self _ _ _

theorem bit_allocDisk (hb : b < fsSize) (hmeta : nmeta ≤ b) (hc : c < fsSize) :
    bit (allocDisk disk b) c = (bit disk c || decide (c = b)) := by
  unfold nmeta at hmeta
  rw [allocDisk, bit_update (by unfold bmapstart; omega) _ _ hc, bit_setBit disk hb hc]

/-- A pointer of an inode is replaced, with everything that depends on it. -/
theorem Owned.setIno (h : Owned disk g dying) (hdying : ∀ j, dying = some j → j = i)
    (hsound : ∀ b n, g.owner b = some (i, n) → d.type ≠ 0 ∧ ptr disk d n = b)
    (howns : d.type ≠ 0 → ∀ n ≤ maxfile, ptr disk d n ≠ 0 → g.owner (ptr disk d n) = some (i, n)) :
    Owned disk { g with ino := update g.ino i d } none := by
  have hother : ∀ j, j ≠ i → dying ≠ some j := fun j hj heq => hj (hdying j heq)
  refine ⟨?_, ?_, ?_, h.bits⟩
  · intro b j n howner
    obtain ⟨hj, htype, hn, hptr, hrange⟩ := h.sound b j n howner
    by_cases hji : j = i
    · subst j
      obtain ⟨htype', hptr'⟩ := hsound b n howner
      simp only [update_self]
      exact ⟨hj, htype', hn, hptr', hrange⟩
    · simp only [update_of_ne hji]
      exact ⟨hj, htype, hn, hptr, hrange⟩
  · intro j hj htype _
    unfold Owns
    by_cases hji : j = i
    · subst j
      simp only [update_self] at htype ⊢
      exact howns htype
    · simp only [update_of_ne hji] at htype ⊢
      exact h.owns j hj htype (hother j hji)
  · intro j hj htype hne
    by_cases hji : j = i
    · subst j
      simp only [update_self] at htype hne ⊢
      have howner := howns htype maxfile (Nat.le_refl _)
      obtain ⟨-, -, -, -, hlow, -⟩ := h.sound _ _ _ (howner hne)
      exact hlow
    · simp only [update_of_ne hji] at htype hne ⊢
      exact h.indirect j hj htype hne

/-- The same for files without holes. -/
theorem Blocks.setIno (h : Blocks disk g dying) (hdying : ∀ j, dying = some j → j = i)
    (hsound : ∀ b n, g.owner b = some (i, n) → d.type ≠ 0 ∧ ptr disk d n = b)
    (howns : d.type ≠ 0 → ∀ n ≤ maxfile, ptr disk d n ≠ 0 → g.owner (ptr disk d n) = some (i, n))
    (hfull : d.type ≠ 0 → NoHole disk d) :
    Blocks disk { g with ino := update g.ino i d } none := by
  refine ⟨h.toOwned.setIno hdying hsound howns, ?_⟩
  intro j hj htype _
  by_cases hji : j = i
  · subst j
    simp only [update_self] at htype ⊢
    exact hfull htype
  · simp only [update_of_ne hji] at htype ⊢
    exact h.full j hj htype fun heq => hji (hdying j heq)

/-- A block without owner becomes the block of an inode at a position. -/
theorem Owned.attach (h : Owned disk g none) {p : ℕ}
    (hi : i < ninodes) (htype : (g.ino i).type ≠ 0) (hp : p ≤ maxfile)
    (hzero : ptr disk (g.ino i) p = 0) (hb : b < fsSize) (hmeta : nmeta ≤ b) (hfree : g.owner b = none)
    (hdtype : d.type = (g.ino i).type) (hother : ∀ j < ninodes, (g.ino j).type ≠ 0 → j ≠ i → ∀ n,
      ptr disk' (g.ino j) n = ptr disk (g.ino j) n)
    (hself : ∀ n ≤ maxfile, ptr disk' d n = if n = p then b else ptr disk (g.ino i) n)
    (hbits : ∀ c < fsSize, bit disk' c = (bit disk c || decide (c = b))) :
    Owned disk' ⟨update g.ino i d, update g.owner b (some (i, p))⟩ none := by
  refine ⟨?_, ?_, ?_, ?_⟩
  · intro c j n howner
    by_cases hcb : c = b
    · subst c
      simp only [update_self, some.injEq, Prod.mk.injEq] at howner
      obtain ⟨rfl, rfl⟩ := howner
      simp only [update_self]
      exact ⟨hi, by rwa [hdtype], hp, by rw [hself p hp, if_pos rfl], hmeta, hb⟩
    · simp only [update_of_ne hcb] at howner
      obtain ⟨hj, hjtype, hn, hptr, hrange⟩ := h.sound c j n howner
      by_cases hji : j = i
      · subst j
        have hnp : n ≠ p := by
          rintro rfl
          unfold nmeta at hrange
          omega
        simp only [update_self]
        exact ⟨hj, by rwa [hdtype], hn, by rw [hself n hn, if_neg hnp, hptr], hrange⟩
      · simp only [update_of_ne hji]
        exact ⟨hj, hjtype, hn, by rw [hother j hj hjtype hji, hptr], hrange⟩
  · intro j hj hjtype _ n hn hne
    have hkeep : ∀ c, g.owner c = some (j, n) →
        update g.owner b (some (i, p)) c = some (j, n) := by
      intro c hc
      rw [update_of_ne, hc]
      rintro rfl
      rw [hfree] at hc
      contradiction
    by_cases hji : j = i
    · subst j
      simp only [update_self] at hne ⊢
      rw [hself n hn] at hne ⊢
      split_ifs at hne ⊢ with hnp
      · rw [update_self, hnp]
      · exact hkeep _ (h.owns i hi htype nofun n hn hne)
    · simp only [update_of_ne hji] at hjtype hne ⊢
      rw [hother j hj hjtype hji] at hne ⊢
      exact hkeep _ (h.owns j hj hjtype nofun n hn hne)
  · intro j hj hjtype hne
    by_cases hji : j = i
    · subst j
      simp only [update_self] at hne ⊢
      have hlast := hself maxfile (Nat.le_refl _)
      rw [ptr_maxfile, ptr_maxfile] at hlast
      rw [hlast] at hne ⊢
      split_ifs at hne ⊢
      · exact hmeta
      · exact h.indirect i hi htype hne
    · simp only [update_of_ne hji] at hjtype hne ⊢
      exact h.indirect j hj hjtype hne
  · intro c hc
    rw [hbits c hc]
    by_cases hcb : c = b
    · simp [hcb]
    · simp [hcb, h.bits c hc]

/-- The position of an entry of `addrs`. -/
def addrPos (n : ℕ) : ℕ := if n = ndirect then maxfile else n

theorem ptr_addrPos (disk : ℕ → Block) (d : Dinode) (hn : n ≤ ndirect) :
    ptr disk d (addrPos n) = d.addr n := by
  unfold addrPos
  split_ifs with hlast
  · rw [ptr_maxfile, hlast]
  · rw [ptr, if_pos (by omega)]

section

variable (h : Owned disk g none) (hi : i < ninodes) (htype : (g.ino i).type ≠ 0)
include h hi htype

theorem Owned.indirect_ne (hfree : g.owner b = none) (hmeta : nmeta ≤ b) :
    (g.ino i).addr ndirect ≠ b := by
  rintro rfl
  have howner := (h.owns i hi htype nofun).indirect (by unfold nmeta at hmeta; omega)
  rw [hfree] at howner
  contradiction

theorem Owned.indirect_lt : (g.ino i).addr ndirect < fsSize := by
  by_cases hzero : (g.ino i).addr ndirect = 0
  · rw [hzero]
    decide
  · obtain ⟨-, -, -, -, -, hlt⟩ := h.sound _ _ _ ((h.owns i hi htype nofun).indirect hzero)
    exact hlt

theorem Owned.ptr_allocDisk (hb : b < fsSize) (hfree : g.owner b = none) (hmeta : nmeta ≤ b) (n : ℕ) :
    ptr (allocDisk disk b) (g.ino i) n = ptr disk (g.ino i) n := by
  apply h.ptr_congr hi htype
  intro hlow
  exact allocDisk_of_ne hb hlow (h.indirect_ne hi htype hfree hmeta)

/-- The pointers of an inode with a new block at an entry of `addrs`. -/
theorem Owned.ptr_setAddr (hn : n ≤ ndirect) (hzero : (g.ino i).addr n = 0) (hb : b < fsSize)
    (hfree : g.owner b = none) (hmeta : nmeta ≤ b) {m : ℕ} (hm : m ≤ maxfile) :
    ptr (allocDisk disk b) ((g.ino i).setAddr n b) m =
      if m = addrPos n then b else ptr disk (g.ino i) m := by
  have hb32 : b < 2 ^ 32 := by
    unfold fsSize at hb
    omega
  have hpos : b ≠ 0 := by
    unfold nmeta at hmeta
    omega
  rw [← h.ptr_allocDisk hi htype hb hfree hmeta]
  unfold ptr addrPos
  simp only [Dinode.addr_setAddr _ hn hb32]
  by_cases hlast : n = ndirect
  · subst n
    have hload : load (allocDisk disk b b) (4 * (m - ndirect)) 4 = 0 := by
      rw [allocDisk_self]
      exact load_eq_zero fun _ _ => rfl
    simp only [hpos, hzero, hload, if_true, if_false]
    unfold ndirect maxfile at *
    split_ifs <;> first | rfl | omega
  · have hne : ndirect ≠ n := fun heq => hlast heq.symm
    simp only [hne, hlast, if_false]
    split_ifs <;> first | rfl | omega

/-- A block is allocated for an entry of `addrs`. -/
theorem Owned.allocAddr (hn : n ≤ ndirect) (hzero : (g.ino i).addr n = 0) (hb : b < fsSize)
    (hbit : bit disk b = false) : Owned (allocDisk disk b) ⟨update g.ino i ((g.ino i).setAddr n b),
      update g.owner b (some (i, addrPos n))⟩ none := by
  obtain ⟨hfree, hmeta⟩ := h.free hb hbit
  have hp : addrPos n ≤ maxfile := by
    unfold addrPos maxfile ndirect at *
    split_ifs <;> omega
  refine h.attach hi htype hp ?_ hb hmeta hfree rfl ?_ ?_ ?_
  · rw [ptr_addrPos disk _ hn, hzero]
  · intro j hj hjtype _ m
    exact h.ptr_allocDisk hj hjtype hb hfree hmeta m
  · intro m hm
    exact h.ptr_setAddr hi htype hn hzero hb hfree hmeta hm
  · intro c hc
    exact bit_allocDisk hb hmeta hc

/-- The disk after a block was allocated for an entry of an indirect block. -/
def allocEntryDisk (disk : ℕ → Block) (a j b : ℕ) : ℕ → Block :=
  update (allocDisk disk b) a (LittleEndian.store (allocDisk disk b a) (4 * j) 4 b)

/-- The pointers of an inode with a new block at an entry of its indirect block. -/
theorem Owned.ptr_allocEntry {j : ℕ} (hj : j < nindirect) (hne : (g.ino i).addr ndirect ≠ 0)
    (hb : b < fsSize) (hfree : g.owner b = none) (hmeta : nmeta ≤ b) (m : ℕ) :
    ptr (allocEntryDisk disk ((g.ino i).addr ndirect) j b) (g.ino i) m =
      if m = ndirect + j then b else ptr disk (g.ino i) m := by
  have hb32 : b % 256 ^ 4 = b := by
    unfold fsSize at hb
    apply Nat.mod_eq_of_lt
    omega
  have hsame : allocDisk disk b ((g.ino i).addr ndirect) = disk ((g.ino i).addr ndirect) :=
    allocDisk_of_ne hb (h.indirect i hi htype hne) (h.indirect_ne hi htype hfree hmeta)
  unfold ptr allocEntryDisk
  rw [update_self, hsame]
  unfold nindirect at hj
  unfold ndirect maxfile at *
  split_ifs <;> first | rfl | omega | skip
  · rw [show m - 12 = j by omega, load_store, hb32]
  · rw [load_store_of_disjoint]
    omega

/-- A block is allocated for an entry of the indirect block. -/
theorem Owned.allocEntry {j : ℕ} (hj : j < nindirect) (hne : (g.ino i).addr ndirect ≠ 0)
    (hzero : ptr disk (g.ino i) (ndirect + j) = 0) (hb : b < fsSize) (hbit : bit disk b = false) :
    Owned (allocEntryDisk disk ((g.ino i).addr ndirect) j b)
      ⟨update g.ino i (g.ino i), update g.owner b (some (i, ndirect + j))⟩ none := by
  obtain ⟨hfree, hmeta⟩ := h.free hb hbit
  have hlow := h.indirect i hi htype hne
  have howner := (h.owns i hi htype nofun).indirect hne
  refine h.attach hi htype ?_ hzero hb hmeta hfree rfl ?_ ?_ ?_
  · unfold ndirect maxfile
    unfold nindirect at hj
    omega
  · intro l hl hltype hli m
    apply h.ptr_congr hl hltype
    intro hmeta'
    -- the indirect block of another inode is neither this one nor the new block
    rw [allocEntryDisk, update_of_ne, allocDisk_of_ne hb hmeta']
    · exact h.indirect_ne hl hltype hfree hmeta
    · intro heq
      have howner' := (h.owns l hl hltype nofun).indirect (by unfold nmeta at hmeta'; omega)
      rw [heq, howner, some.injEq, Prod.mk.injEq] at howner'
      exact hli howner'.1.symm
  · intro m _
    exact h.ptr_allocEntry hi htype hj hne hb hfree hmeta m
  · intro c hc
    unfold nmeta at hlow
    rw [allocEntryDisk, bit_update (by unfold bmapstart; omega) _ _ hc, bit_allocDisk hb hmeta hc]

end

theorem Owned.ptr_bfree (h : Owned disk g dying) (hb : b < fsSize) (hi : i < ninodes)
    (htype : (g.ino i).type ≠ 0) (n : ℕ) :
    ptr (update disk (bblock b) (clearBit (disk (bblock b)) b)) (g.ino i) n =
      ptr disk (g.ino i) n := by
  refine h.ptr_congr hi htype (fun hlow => update_of_ne ?_ _ _) n
  rw [bblock_eq hb]
  unfold nmeta at hlow
  unfold bmapstart
  omega

/-- A block of an inode that is being truncated is freed. -/
theorem Blocks.bfree (h : Blocks disk g (some i)) (howner : g.owner b = some (i, n)) :
    Blocks (update disk (bblock b) (clearBit (disk (bblock b)) b))
      { g with owner := update g.owner b none } (some i) := by
  obtain ⟨-, -, -, -, hmeta, hb⟩ := h.sound b i n howner
  have hptr := fun j hj htype => h.ptr_bfree hb (i := j) hj htype
  refine ⟨⟨?_, ?_, h.indirect, ?_⟩, ?_⟩
  · intro c j m hc
    by_cases hcb : c = b
    · simp [hcb] at hc
    · simp only [update_of_ne hcb] at hc
      obtain ⟨hj, htype, hm, hcptr, hrange⟩ := h.sound c j m hc
      exact ⟨hj, htype, hm, by rw [hptr j hj htype, hcptr], hrange⟩
  · intro j hj htype hji m hm hne
    rw [hptr j hj htype] at hne ⊢
    have hold := h.owns j hj htype hji m hm hne
    simp only
    rw [update_of_ne, hold]
    intro heq
    rw [heq, howner, some.injEq, Prod.mk.injEq] at hold
    exact hji (by rw [hold.1])
  · intro c hc
    rw [bit_clearBit disk hb hc]
    by_cases hcb : c = b
    · subst c
      simp only [ne_eq, not_true_eq_false, decide_false, Bool.and_false, update_self,
        Option.isSome_none, Bool.false_eq_true, or_false, false_iff]
      omega
    · simp [hcb, h.bits c hc]
  · intro j hj htype hji m hm hsize
    rw [hptr j hj htype]
    exact h.full j hj htype hji m hm hsize

end Xv6Draw.Fs
