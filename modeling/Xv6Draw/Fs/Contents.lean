import Xv6Draw.Fs.Volume
import Xv6Draw.Lib.Hoare

/-!
# The blocks of files

The block allocator and `bmap` on a state that represents a volume. `bmap` returns the
block at a position of a file. A block that is not there is allocated, so the copy of
the inode in the cache may get ahead of the disk, and nothing else changes. The blocks
that are passed to `log_write` on the way are named exactly, and the free blocks that
it takes are counted, so that it does not run out of blocks when there are enough.
-/

namespace Xv6Draw.Fs

open Finset Function Hoare List LittleEndian

variable {E : Panic → Prop} {s : State} {g : Ghost}

/-! ### Programs that access one thing -/

variable {b i j n a : ℕ} {k : Fin ninode} {disk disk' : ℕ → Block} {Q : ℕ → State → Prop}
  {d : Dinode} {g' : Ghost} {s' : State}

theorem wp_bread {Q : Block → State → Prop} (hb : b < fsSize) (h : Q (s.disk b) s) :
    wp (bread b) E Q s := by
  unfold bread
  refine wp_bind (wp_get ?_)
  rw [if_pos hb]
  exact wp_pure h

theorem wp_logWrite {data : Block} {Q : Unit → State → Prop}
    (h : Q () { s with disk := update s.disk b data, logged := s.logged ++ [b] }) :
    wp (logWrite b data) E Q s :=
  wp_modify h

theorem wp_setInode {f : Inode → Inode} {Q : Unit → State → Prop}
    (h : Q () { s with icache := update s.icache k (f (s.icache k)) }) :
    wp (setInode k f) E Q s :=
  wp_modify h

theorem wp_setCopy {f : Dinode → Dinode} {Q : Unit → State → Prop}
    (h : Q () { s with
      icache := update s.icache k { s.icache k with d := f (s.icache k).d } }) :
    wp (setCopy k f) E Q s :=
  wp_setInode h

theorem freeBlock_eq_some (h : freeBlock disk = some b) :
    b < fsSize ∧ bit disk b = false := by
  have hmem := mem_of_find?_eq_some h
  have hbit := List.find?_some h
  exact ⟨List.mem_range.mp hmem, by simpa using hbit⟩

/-- The number of free blocks. -/
def freeBlocks (disk : ℕ → Block) : ℕ := ((Finset.range fsSize).filter fun b => bit disk b = false).card

/-- `balloc` finds no block when there is none. -/
theorem freeBlocks_eq_zero (h : freeBlock disk = none) : freeBlocks disk = 0 := by
  unfold freeBlock at h
  rw [List.find?_eq_none] at h
  rw [freeBlocks, card_eq_zero, filter_eq_empty_iff]
  intro b hb hbit
  exact h b (List.mem_range.mpr (Finset.mem_range.mp hb)) (by simp [hbit])

theorem freeBlocks_congr (hbits : ∀ c < fsSize, bit disk' c = bit disk c) :
    freeBlocks disk' = freeBlocks disk := by
  have hset : ((Finset.range fsSize).filter fun c => bit disk' c = false) =
      (Finset.range fsSize).filter fun c => bit disk c = false := by
    refine Finset.filter_congr fun c hc => ?_
    rw [hbits c (Finset.mem_range.mp hc)]
  unfold freeBlocks
  rw [hset]

/-- There is one free block less when a bit is set. -/
theorem freeBlocks_setBit (hb : b < fsSize) (hbit : bit disk b = false)
    (hbits : ∀ c < fsSize, bit disk' c = (bit disk c || decide (c = b))) :
    freeBlocks disk' + 1 = freeBlocks disk := by
  have hset : ((Finset.range fsSize).filter fun c => bit disk' c = false) =
      ((Finset.range fsSize).filter fun c => bit disk c = false).erase b := by
    ext c
    simp only [Finset.mem_filter, Finset.mem_range, mem_erase]
    refine ⟨fun ⟨hc, hzero⟩ => ?_, fun ⟨hne, hc, hzero⟩ => ?_⟩
    · rw [hbits c hc] at hzero
      simp only [Bool.or_eq_false_iff, decide_eq_false_iff_not] at hzero
      exact ⟨hzero.2, hc, hzero.1⟩
    · rw [hbits c hc, hzero]
      simpa using ⟨hc, hne⟩
  have hmem : b ∈ (Finset.range fsSize).filter fun c => bit disk c = false :=
    Finset.mem_filter.mpr ⟨Finset.mem_range.mpr hb, hbit⟩
  unfold freeBlocks
  rw [hset]
  exact card_erase_add_one hmem

/-- `balloc` takes a free block. -/
theorem wp_balloc (hE : E .outOfBlocks ∨ 0 < freeBlocks s.disk)
    (h : ∀ b < fsSize, bit s.disk b = false →
      Q b { s with disk := allocDisk s.disk b, logged := s.logged ++ [bmapstart, b] }) :
    wp balloc E Q s := by
  unfold balloc
  refine wp_bind (wp_get ?_)
  cases hfind : freeBlock s.disk with
  | none =>
    have hzero := freeBlocks_eq_zero hfind
    exact wp_throw (hE.resolve_right (by omega))
  | some b =>
    obtain ⟨hb, hbit⟩ := freeBlock_eq_some hfind
    have hblock : bblock b < fsSize := by
      rw [bblock_eq hb]
      decide
    refine wp_bind (wp_bread hblock ?_)
    refine wp_bind (wp_logWrite ?_)
    unfold bzero
    refine wp_bind (wp_bind (wp_bread hb ?_))
    refine wp_logWrite (wp_pure ?_)
    have hQ := h b hb hbit
    rw [← bblock_eq hb] at hQ
    simpa [allocDisk] using hQ

/-! ### Inodes that are held -/

/-- An entry of the cache holds a valid copy of an inode. -/
structure Held (s : State) (k : Fin ninode) (i : ℕ) : Prop where
  ref : 0 < (s.icache k).ref
  inum : (s.icache k).inum = i
  valid : (s.icache k).valid = true

/-- A held inode is an allocated inode of the disk. -/
theorem Held.facts (hk : Held s k i) (h : Cache s.icache g.ino) :
    i < ninodes ∧ (g.ino i).type ≠ 0 ∧ (s.icache k).d = g.ino i := by
  have hcopy := h.copy k hk.ref hk.valid
  have hrange := h.range k hk.ref
  have hlive := h.live k hk.ref hk.valid
  rw [hk.inum] at hcopy hrange
  rw [hcopy] at hlive
  exact ⟨hrange, hlive, hcopy⟩

/-- An inode changes together with its copy. -/
theorem Cache.setCopy (hk : Held s k i) (h : Cache s.icache g.ino) (htype : d.type ≠ 0) :
    Cache (update s.icache k { s.icache k with d := d }) (update g.ino i d) := by
  have hfield : ∀ j, (update s.icache k { s.icache k with d := d } j).ref = (s.icache j).ref ∧
      (update s.icache k { s.icache k with d := d } j).inum = (s.icache j).inum ∧
      (update s.icache k { s.icache k with d := d } j).valid = (s.icache j).valid := by
    intro j
    by_cases hj : j = k
    · subst j
      simp
    · simp [hj]
  refine ⟨?_, ?_, ?_, ?_⟩
  · intro j l
    rw [(hfield j).1, (hfield j).2.1, (hfield l).1, (hfield l).2.1]
    exact h.unique j l
  · intro j
    rw [(hfield j).1, (hfield j).2.1]
    exact h.range j
  · intro j
    rw [(hfield j).1, (hfield j).2.1, (hfield j).2.2]
    intro href hvalid
    by_cases hj : j = k
    · subst j
      rw [update_self, hk.inum, update_self]
    · have hne : (s.icache j).inum ≠ i := by
        intro heq
        exact hj (h.unique j k href hk.ref (heq.trans hk.inum.symm))
      rw [update_of_ne hj, update_of_ne hne]
      exact h.copy j href hvalid
  · intro j
    rw [(hfield j).1, (hfield j).2.2]
    intro href hvalid
    by_cases hj : j = k
    · subst j
      rw [update_self]
      exact htype
    · rw [update_of_ne hj]
      exact h.live j href hvalid

/-- A state stores its ghost: the blocks have the owners, and the inodes are the valid copies
in the cache and, for the others, those on the disk. -/
structure Store (s : State) (g : Ghost) : Prop where
  owned : Owned s.disk g none
  /-- The inodes without a copy in the cache. -/
  uncached : ∀ i < ninodes, (∀ k, ¬ Held s k i) → dinode s.disk i = g.ino i
  cache : Cache s.icache g.ino

theorem Rep.store {ahead : Option ℕ} (h : Rep s g ahead none)
    (hahead : ∀ i, ahead = some i → ∃ k, Held s k i) : Store s g := by
  refine ⟨h.blocks.toOwned, ?_, h.cache⟩
  intro i hi hnone
  apply h.synced i hi
  intro heq
  obtain ⟨k, hk⟩ := hahead i heq
  exact hnone k hk

/-- A disk on which an inode may have got more blocks. Nothing else has changed. -/
structure Grown (i : ℕ) (disk : ℕ → Block) (g : Ghost) (disk' : ℕ → Block) (g' : Ghost) : Prop where
  other : ∀ j, j ≠ i → g'.ino j = g.ino j
  /-- The inode differs in `addrs` only. -/
  fields : ∃ addrs, g'.ino i = { g.ino i with addrs := addrs }
  ptr : ∀ n ≤ maxfile, Fs.ptr disk (g.ino i) n ≠ 0 → Fs.ptr disk' (g'.ino i) n = Fs.ptr disk (g.ino i) n
  owner : ∀ b p, g.owner b = some p → g'.owner b = some p
  /-- Blocks keep their contents, apart from the indirect block. -/
  data : ∀ b p, g.owner b = some p → p ≠ (i, maxfile) → disk' b = disk b
  /-- The inode reads the same, also where it has got blocks. -/
  same : ∀ n < maxfile, blockAt disk' (g'.ino i) n = blockAt disk (g.ino i) n
  /-- The metadata is the same, apart from the bitmap. -/
  metas : ∀ b < bmapstart, disk' b = disk b

theorem Grown.refl (i : ℕ) (disk : ℕ → Block) (g : Ghost) : Grown i disk g disk g :=
  ⟨fun _ _ => rfl, ⟨_, rfl⟩, fun _ _ _ => rfl, fun _ _ h => h, fun _ _ _ _ => rfl, fun _ _ => rfl,
    fun _ _ => rfl⟩

/-- Growth in two steps. -/
theorem Grown.trans {disk₁ disk₂ disk₃ : ℕ → Block} {g₁ g₂ g₃ : Ghost}
    (h : Grown i disk₁ g₁ disk₂ g₂) (h' : Grown i disk₂ g₂ disk₃ g₃) : Grown i disk₁ g₁ disk₃ g₃ := by
  refine ⟨?_, ?_, ?_, ?_, ?_, ?_, ?_⟩
  · intro j hj
    rw [h'.other j hj, h.other j hj]
  · obtain ⟨addrs, haddrs⟩ := h.fields
    obtain ⟨addrs', haddrs'⟩ := h'.fields
    exact ⟨addrs', by rw [haddrs', haddrs]⟩
  · intro n hn hne
    have hfirst := h.ptr n hn hne
    rw [h'.ptr n hn (by rwa [hfirst]), hfirst]
  · intro b p hb
    exact h'.owner b p (h.owner b p hb)
  · intro b p hb hp
    rw [h'.data b p (h.owner b p hb) hp, h.data b p hb hp]
  · intro n hn
    rw [h'.same n hn, h.same n hn]
  · intro b hb
    rw [h'.metas b hb, h.metas b hb]

theorem Grown.inodes (h : Grown i disk g disk' g') (hj : iblock j < bmapstart) : dinode disk' j =
    dinode disk j := by
  unfold dinode
  rw [h.metas _ hj]

/-- An inode gets a block at an entry of `addrs`. -/
theorem Owned.grown_allocAddr (h : Owned disk g none)
    (hi : i < ninodes) (htype : (g.ino i).type ≠ 0) (hn : n ≤ ndirect)
    (hzero : (g.ino i).addr n = 0) (hb : b < fsSize) (hbit : bit disk b = false) :
    Grown i disk g (allocDisk disk b) ⟨update g.ino i ((g.ino i).setAddr n b),
      update g.owner b (some (i, addrPos n))⟩ := by
  obtain ⟨hfree, hmeta⟩ := h.free hb hbit
  have hkeep : ∀ c p, g.owner c = some p → c ≠ b := by
    rintro c p hc rfl
    rw [hfree] at hc
    contradiction
  have hptr := fun m => h.ptr_setAddr hi htype hn hzero hb hfree hmeta (m := m)
  refine ⟨?_, ?_, ?_, ?_, ?_, ?_, ?_⟩
  · intro j hj
    exact update_of_ne hj _ _
  · simp only [update_self]
    exact ⟨_, rfl⟩
  · intro m hm hne
    simp only [update_self]
    rw [hptr m hm, if_neg]
    rintro rfl
    rw [ptr_addrPos _ _ hn] at hne
    exact hne hzero
  · intro c p hc
    simp only [update_of_ne (hkeep c p hc), hc]
  · intro c p hc _
    obtain ⟨-, -, -, -, hlow, -⟩ := h.sound c p.1 p.2 hc
    exact allocDisk_of_ne hb hlow (hkeep c p hc)
  · intro m hm
    simp only [update_self]
    unfold blockAt
    rw [hptr m (by omega)]
    by_cases hpos : m = addrPos n
    · -- the new block is zero, as what was not there
      have hold : ptr disk (g.ino i) m = 0 := by rw [hpos, ptr_addrPos _ _ hn, hzero]
      rw [if_pos hpos, if_pos hold, allocDisk_self, ite_self]
    · rw [if_neg hpos]
      split_ifs with hnone
      · rfl
      · have howner := h.owns i hi htype nofun m (by omega) hnone
        obtain ⟨-, -, -, -, hlow, -⟩ := h.sound _ _ _ howner
        exact allocDisk_of_ne hb hlow (hkeep _ _ howner)
  · intro c hc
    exact allocDisk_of_lt hb hmeta hc

/-- An inode gets a block at an entry of its indirect block. -/
theorem Owned.grown_allocEntry (h : Owned disk g none)
    (hi : i < ninodes) (htype : (g.ino i).type ≠ 0) (hj : j < nindirect)
    (hne : (g.ino i).addr ndirect ≠ 0) (hzero : ptr disk (g.ino i) (ndirect + j) = 0)
    (hb : b < fsSize) (hbit : bit disk b = false) :
    Grown i disk g (allocEntryDisk disk ((g.ino i).addr ndirect) j b)
      ⟨g.ino, update g.owner b (some (i, ndirect + j))⟩ := by
  obtain ⟨hfree, hmeta⟩ := h.free hb hbit
  have hlow := h.indirect i hi htype hne
  have howns := h.owns i hi htype nofun
  have howner := howns.indirect hne
  have hptr := h.ptr_allocEntry hi htype hj hne hb hfree hmeta
  have hkeep : ∀ c p, g.owner c = some p → c ≠ b := by
    rintro c p hc rfl
    rw [hfree] at hc
    contradiction
  have hdata : ∀ c p, g.owner c = some p → p ≠ (i, maxfile) →
      allocEntryDisk disk ((g.ino i).addr ndirect) j b c = disk c := by
    intro c p hc hp
    obtain ⟨-, -, -, -, hlow', -⟩ := h.sound c p.1 p.2 hc
    rw [allocEntryDisk, update_of_ne, allocDisk_of_ne hb hlow' (hkeep c p hc)]
    rintro rfl
    rw [howner] at hc
    exact hp (Option.some.inj hc).symm
  have hself : allocEntryDisk disk ((g.ino i).addr ndirect) j b b = fun _ => 0 := by
    rw [allocEntryDisk, update_of_ne (hkeep _ _ howner).symm, allocDisk_self]
  refine ⟨fun _ _ => rfl, ⟨_, rfl⟩, ?_, ?_, hdata, ?_, ?_⟩
  · intro m _ hold
    rw [hptr, if_neg]
    rintro rfl
    exact hold hzero
  · intro c p hc
    simp only [update_of_ne (hkeep c p hc), hc]
  · intro m hm
    unfold blockAt
    rw [hptr]
    by_cases hpos : m = ndirect + j
    · rw [if_pos hpos, hpos, if_pos hzero, hself, ite_self]
    · rw [if_neg hpos]
      split_ifs with hnone
      · rfl
      · refine hdata _ _ (howns m (by omega) hnone) ?_
        simp only [ne_eq, Prod.mk.injEq, true_and]
        omega
  · intro c hc
    have hca : c ≠ (g.ino i).addr ndirect := by
      unfold nmeta at hlow
      unfold bmapstart at hc
      omega
    rw [allocEntryDisk, update_of_ne hca, allocDisk_of_lt hb hmeta hc]

/-- The positions that `bmap` needs for a block: its own, and behind the direct blocks the one
of the indirect block. -/
def mapPos (n : ℕ) : Finset ℕ := if n < ndirect then {n} else {n, maxfile}

/-- The number of positions without a block. -/
def missing (disk : ℕ → Block) (d : Dinode) (P : Finset ℕ) : ℕ :=
  (P.filter fun m => ptr disk d m = 0).card

/-- A file has what `bmap` needs for a block that is there. -/
theorem missing_of_present (hne : ptr disk d n ≠ 0) :
    missing disk d (mapPos n) = 0 := by
  rw [missing, card_eq_zero, filter_eq_empty_iff]
  intro m hm hzero
  unfold mapPos at hm
  split_ifs at hm with hdirect
  · rw [Finset.mem_singleton.mp hm] at hzero
    exact hne hzero
  · rw [mem_insert, Finset.mem_singleton] at hm
    obtain rfl | rfl := hm
    · exact hne hzero
    · rw [ptr_maxfile] at hzero
      exact hne (ptr_eq_zero_of_addr hzero (by omega))

theorem missing_direct (hn : n < ndirect)
    (hzero : ptr disk d n = 0) : missing disk d (mapPos n) = 1 := by
  rw [missing, mapPos, if_pos hn, Finset.filter_singleton, if_pos hzero, card_singleton]

/-- What a block behind the direct ones needs when there is an indirect block. -/
theorem missing_entry (hlow : ndirect ≤ n)
    (hzero : ptr disk d n = 0) (haddr : d.addr ndirect ≠ 0) : missing disk d (mapPos n) = 1 := by
  have hlast : ¬ ptr disk d maxfile = 0 := by rwa [ptr_maxfile]
  rw [missing, mapPos, if_neg (by omega), filter_insert, if_pos hzero, Finset.filter_singleton,
    if_neg hlast]
  rfl

/-- What a block behind the direct ones needs when there is no indirect block. -/
theorem missing_indirect (hlow : ndirect ≤ n)
    (hn : n < maxfile) (haddr : d.addr ndirect = 0) : missing disk d (mapPos n) = 2 := by
  have hlast : ptr disk d maxfile = 0 := by rwa [ptr_maxfile]
  rw [missing, mapPos, if_neg (by omega), filter_insert,
    if_pos (ptr_eq_zero_of_addr haddr hlow), Finset.filter_singleton, if_pos hlast]
  exact card_pair (by omega)

/-- The bitmap after a block was allocated for an entry of an indirect block. -/
theorem bit_allocEntryDisk (ha : nmeta ≤ a) (hb : b < fsSize)
    (hmeta : nmeta ≤ b) {c : ℕ} (hc : c < fsSize) :
    bit (allocEntryDisk disk a j b) c = (bit disk c || decide (c = b)) := by
  unfold nmeta at ha
  rw [allocEntryDisk, bit_update (by unfold bmapstart; omega) _ _ hc, bit_allocDisk hb hmeta hc]

/-- An inode has a block at a position, which was allocated if there was none. -/
structure Gets (i n b : ℕ) (disk : ℕ → Block) (g : Ghost) (disk' : ℕ → Block) (g' : Ghost) : Prop where
  owned : Owned disk' g' none
  grown : Grown i disk g disk' g'
  self : ptr disk' (g'.ino i) n = b
  pos : b ≠ 0
  /-- The other data blocks are the same. -/
  other : ∀ m < maxfile, m ≠ n → ptr disk' (g'.ino i) m = ptr disk (g.ino i) m
  /-- The free blocks that were taken are those that were missing. -/
  count : freeBlocks disk' + missing disk (g.ino i) (mapPos n) = freeBlocks disk

section

variable {disk : ℕ → Block} {i n b : ℕ}

theorem Owned.gets_present (h : Owned disk g none) (hne : ptr disk (g.ino i) n ≠ 0) :
    Gets i n (ptr disk (g.ino i) n) disk g disk g := by
  refine ⟨h, Grown.refl i disk g, rfl, hne, fun _ _ _ => rfl, ?_⟩
  rw [missing_of_present hne, Nat.add_zero]

/-- A direct block is allocated. -/
theorem Owned.gets_direct (h : Owned disk g none) (hi : i < ninodes) (htype : (g.ino i).type ≠ 0)
    (hn : n < ndirect) (hzero : (g.ino i).addr n = 0) (hb : b < fsSize) (hbit : bit disk b = false) :
    Gets i n b disk g (allocDisk disk b) ⟨update g.ino i ((g.ino i).setAddr n b),
      update g.owner b (some (i, addrPos n))⟩ := by
  obtain ⟨hfree, hmeta⟩ := h.free hb hbit
  have hpos : addrPos n = n := by
    rw [addrPos, if_neg (by omega)]
  have hnone : ptr disk (g.ino i) n = 0 := by
    rwa [ptr, if_pos hn]
  have hptr := fun m => h.ptr_setAddr hi htype (Nat.le_of_lt hn) hzero hb hfree hmeta (m := m)
  rw [hpos] at hptr
  refine ⟨h.allocAddr hi htype (Nat.le_of_lt hn) hzero hb hbit,
    h.grown_allocAddr hi htype (Nat.le_of_lt hn) hzero hb hbit, ?_, ?_, ?_, ?_⟩
  · simp only [update_self]
    rw [hptr n (by unfold ndirect maxfile at *; omega), if_pos rfl]
  · unfold nmeta at hmeta
    omega
  · intro m hm hmn
    simp only [update_self]
    rw [hptr m (by omega), if_neg hmn]
  · rw [missing_direct hn hnone]
    exact freeBlocks_setBit hb hbit fun c hc => bit_allocDisk hb hmeta hc

/-- An entry of the indirect block is allocated. -/
theorem Owned.gets_entry (h : Owned disk g none) (hi : i < ninodes) (htype : (g.ino i).type ≠ 0)
    {j : ℕ} (hj : j < nindirect) (hne : (g.ino i).addr ndirect ≠ 0)
    (hzero : ptr disk (g.ino i) (ndirect + j) = 0) (hb : b < fsSize) (hbit : bit disk b = false) :
    Gets i (ndirect + j) b disk g (allocEntryDisk disk ((g.ino i).addr ndirect) j b)
      ⟨g.ino, update g.owner b (some (i, ndirect + j))⟩ := by
  obtain ⟨hfree, hmeta⟩ := h.free hb hbit
  have hptr := h.ptr_allocEntry hi htype hj hne hb hfree hmeta
  have hlow := h.indirect i hi htype hne
  have howned := h.allocEntry hi htype hj hne hzero hb hbit
  rw [update_eq_self] at howned
  refine ⟨howned, h.grown_allocEntry hi htype hj hne hzero hb hbit, ?_, ?_, ?_, ?_⟩
  · rw [hptr, if_pos rfl]
  · unfold nmeta at hmeta
    omega
  · intro m _ hm
    rw [hptr, if_neg hm]
  · rw [missing_entry (by omega) hzero hne]
    exact freeBlocks_setBit hb hbit fun c hc => bit_allocEntryDisk hlow hb hmeta hc

/-- The indirect block is allocated first, and then its entry. -/
theorem Owned.gets_indirect (h : Owned disk g none) (hi : i < ninodes) (htype : (g.ino i).type ≠ 0)
    {j a : ℕ} (hj : j < nindirect) (haddr : (g.ino i).addr ndirect = 0) (ha : a < fsSize)
    (habit : bit disk a = false) (hb : b < fsSize) (hbit : bit (allocDisk disk a) b = false) :
    ∃ g', Gets i (ndirect + j) b disk g (allocEntryDisk (allocDisk disk a) a j b) g' ∧
      g'.ino = update g.ino i ((g.ino i).setAddr ndirect a) := by
  obtain ⟨hafree, hameta⟩ := h.free ha habit
  have ha0 : a ≠ 0 := by
    unfold nmeta at hameta
    omega
  have hj' : ndirect + j < maxfile := by
    unfold ndirect maxfile
    unfold nindirect at hj
    omega
  have hcount := freeBlocks_setBit ha habit fun c hc => bit_allocDisk ha hameta hc
  have hptr := fun m => h.ptr_setAddr hi htype (Nat.le_refl ndirect) haddr ha hafree hameta (m := m)
  have hother : ∀ m < maxfile, ptr (allocDisk disk a) ((g.ino i).setAddr ndirect a) m =
      ptr disk (g.ino i) m := by
    intro m hm
    rw [hptr m (by omega), if_neg]
    rw [addrPos, if_pos rfl]
    omega
  have hino : ((g.ino i).setAddr ndirect a).addr ndirect = a := by
    rw [Dinode.addr_setAddr _ (Nat.le_refl _) (by unfold fsSize at ha; omega), if_pos rfl]
  have hzero : ptr disk (g.ino i) (ndirect + j) = 0 := ptr_eq_zero_of_addr haddr (by omega)
  have howned := h.allocAddr hi htype (Nat.le_refl ndirect) haddr ha habit
  have hgrown := h.grown_allocAddr hi htype (Nat.le_refl ndirect) haddr ha habit
  have hgets := howned.gets_entry hi (by simpa using htype) hj (by simpa [hino] using ha0)
    (by simpa [hother _ hj'] using hzero) hb hbit
  simp only [update_self, hino] at hgets
  have hsecond := hgets.count
  have hentry : ptr (allocDisk disk a) ((g.ino i).setAddr ndirect a) (ndirect + j) = 0 := by
    rw [hother _ hj', hzero]
  simp only [update_self] at hsecond
  rw [missing_entry (by omega) hentry (by rwa [hino])] at hsecond
  refine ⟨_, ⟨hgets.owned, hgrown.trans hgets.grown, hgets.self, hgets.pos, ?_, ?_⟩, rfl⟩
  · intro m hm hmn
    rw [hgets.other m hm hmn]
    simp only [update_self]
    exact hother m hm
  · rw [missing_indirect (by omega) hj' haddr]
    omega

end

/-- A state in which an inode may have got more blocks. Nothing else has changed. -/
structure Grows (k : Fin ninode) (i : ℕ) (s : State) (g : Ghost) (s' : State) (g' : Ghost) : Prop
    extends Grown i s.disk g s'.disk g' where
  cache : s'.icache = update s.icache k { s.icache k with d := g'.ino i }

theorem Grows.refl (hk : Held s k i) (h : Cache s.icache g.ino) :
    Grows k i s g s g := by
  obtain ⟨-, -, hcopy⟩ := hk.facts h
  refine ⟨Grown.refl i s.disk g, ?_⟩
  rw [← hcopy]
  exact (update_eq_self k s.icache).symm

theorem Grows.trans {s₁ s₂ s₃ : State} {g₁ g₂ g₃ : Ghost}
    (h : Grows k i s₁ g₁ s₂ g₂) (h' : Grows k i s₂ g₂ s₃ g₃) : Grows k i s₁ g₁ s₃ g₃ := by
  refine ⟨h.toGrown.trans h'.toGrown, ?_⟩
  rw [h'.cache, h.cache]
  simp

/-- Entries of the cache are held as before when a copy changes. -/
theorem held_iff_of_copy
    (hcache : s'.icache = update s.icache k { s.icache k with d := d }) (j : Fin ninode)
    (l : ℕ) : Held s' j l ↔ Held s j l := by
  have hfields : (s'.icache j).ref = (s.icache j).ref ∧ (s'.icache j).inum = (s.icache j).inum ∧
      (s'.icache j).valid = (s.icache j).valid := by
    rw [hcache]
    by_cases hj : j = k
    · subst j
      simp
    · simp [hj]
  constructor
  · rintro ⟨href, hinum, hvalid⟩
    rw [hfields.1] at href
    rw [hfields.2.1] at hinum
    rw [hfields.2.2] at hvalid
    exact ⟨href, hinum, hvalid⟩
  · rintro ⟨href, hinum, hvalid⟩
    rw [← hfields.1] at href
    rw [← hfields.2.1] at hinum
    rw [← hfields.2.2] at hvalid
    exact ⟨href, hinum, hvalid⟩

theorem Grows.held (h : Grows k i s g s' g') (hk : Held s k i) : Held s' k i :=
  (held_iff_of_copy h.cache k i).mpr hk

/-- Growth does not change the volume. -/
theorem Grows.vol (h : Grows k i s g s' g')
    (howned : Owned s.disk g none) : vol s'.disk g' = vol s.disk g := by
  funext j
  unfold Fs.vol
  split_ifs with hj
  · by_cases hji : j = i
    · subst j
      obtain ⟨addrs, haddrs⟩ := h.fields
      apply node_congr
      · rw [haddrs]
      · rw [haddrs]
      · rw [haddrs]
      · rw [haddrs]
      · rw [haddrs]
      · exact fun n hn _ => h.same n hn
    · rw [h.other j hji]
      refine howned.node_congr hj nofun ?_
      rintro b l n howner rfl
      refine h.data b _ howner ?_
      simp [hji]
  · rfl

/-! ### `bmap` -/

theorem wp_addrBlock_present (hne : (s.icache k).d.addr n ≠ 0) (h : Q ((s.icache k).d.addr n) s) :
    wp (addrBlock k n) E Q s := by
  unfold addrBlock
  refine wp_bind (wp_get ?_)
  rw [if_neg hne]
  exact wp_pure h

/-- An entry of `addrs` that is not there is allocated. -/
theorem wp_addrBlock_fresh
    (hE : E .outOfBlocks ∨ 0 < freeBlocks s.disk) (hzero : (s.icache k).d.addr n = 0)
    (h : ∀ b < fsSize, bit s.disk b = false → Q b ⟨allocDisk s.disk b, s.logged ++ [bmapstart, b],
        update s.icache k { s.icache k with d := (s.icache k).d.setAddr n b }⟩) :
    wp (addrBlock k n) E Q s := by
  unfold addrBlock
  refine wp_bind (wp_get ?_)
  rw [if_pos hzero]
  refine wp_bind (wp_balloc hE ?_)
  intro b hb hbit
  exact wp_bind (wp_setCopy (wp_pure (h b hb hbit)))

/-- An entry of an indirect block that is there. -/
theorem wp_entryBlock_present (ha : a < fsSize)
    (hne : load (s.disk a) (4 * j) 4 ≠ 0) (h : Q (load (s.disk a) (4 * j) 4) s) :
    wp (entryBlock a j) E Q s := by
  unfold entryBlock
  refine wp_bind (wp_bread ha ?_)
  rw [if_neg hne]
  exact wp_pure h

/-- An entry of an indirect block that is not there is allocated. -/
theorem wp_entryBlock_fresh (hE : E .outOfBlocks ∨ 0 < freeBlocks s.disk) (ha : a < fsSize)
    (hzero : load (s.disk a) (4 * j) 4 = 0) (h : ∀ b < fsSize, bit s.disk b = false →
      Q b ⟨allocEntryDisk s.disk a j b, s.logged ++ [bmapstart, b, a], s.icache⟩) :
    wp (entryBlock a j) E Q s := by
  unfold entryBlock
  refine wp_bind (wp_bread ha ?_)
  rw [if_pos hzero]
  refine wp_bind (wp_balloc hE ?_)
  intro b hb hbit
  refine wp_bind (wp_get (wp_bind (wp_logWrite (wp_pure ?_))))
  have hQ := h b hb hbit
  simpa [allocEntryDisk] using hQ

theorem ptr_indirect (disk : ℕ → Block) (d : Dinode) (hlow : ndirect ≤ n) (hn : n < maxfile)
    (hne : d.addr ndirect ≠ 0) :
    ptr disk d n = load (disk (d.addr ndirect)) (4 * (n - ndirect)) 4 := by
  rw [ptr, if_neg (by omega), if_pos hn, if_neg hne]

/-- `bmap` finds a block that is there. -/
theorem wp_bmap_present (hcopy : (s.icache k).d = d)
    (hlt : d.addr ndirect < fsSize) (hn : n < maxfile) (hne : ptr s.disk d n ≠ 0)
    (hQ : Q (ptr s.disk d n) s) : wp (bmap k n) E Q s := by
  subst hcopy
  unfold bmap
  by_cases hdirect : n < ndirect
  · have hptr : ptr s.disk (s.icache k).d n = (s.icache k).d.addr n := by
      rw [ptr, if_pos hdirect]
    rw [hptr] at hne hQ
    rw [if_pos hdirect]
    exact wp_addrBlock_present hne hQ
  · have haddr : (s.icache k).d.addr ndirect ≠ 0 := by
      intro hzero
      exact hne (ptr_eq_zero_of_addr hzero (by omega))
    have hptr := ptr_indirect s.disk (s.icache k).d (by omega) hn haddr
    rw [hptr] at hne hQ
    rw [if_neg hdirect, if_pos (by unfold ndirect nindirect maxfile at *; omega)]
    refine wp_bind (wp_addrBlock_present haddr ?_)
    exact wp_entryBlock_present hlt hne hQ

/-- What `bmap` does: it returns the block at a position, which it allocates when there
is none. -/
structure Mapped (k : Fin ninode) (i n b : ℕ) (s : State) (g : Ghost) (s' : State) (g' : Ghost) :
    Prop extends Gets i n b s.disk g s'.disk g' where
  store : Store s' g'
  cache : s'.icache = update s.icache k { s.icache k with d := g'.ino i }
  /-- Nothing changes when the block is there. -/
  present : ptr s.disk (g.ino i) n ≠ 0 → s' = s ∧ g' = g
  /-- When it is not there, the bitmap, the block and for blocks behind the direct ones the
  indirect block are logged. -/
  logs : ∃ l, s'.logged = s.logged ++ l ∧ ∀ x, x ∈ l ↔ ptr s.disk (g.ino i) n = 0 ∧
    (x = bmapstart ∨ x = b ∨ (ndirect ≤ n ∧ x = (g'.ino i).addr ndirect))

theorem Mapped.grows (h : Mapped k i n b s g s' g') : Grows k i s g s' g' :=
  ⟨h.grown, h.cache⟩

/-- A state whose disk and copy have grown stores its ghost. -/
theorem Store.of_grown (h : Store s g) (hk : Held s k i) (howned : Owned s'.disk g' none)
    (hgrown : Grown i s.disk g s'.disk g')
    (hcache : s'.icache = update s.icache k { s.icache k with d := g'.ino i }) :
    Store s' g' := by
  obtain ⟨-, htype, -⟩ := hk.facts h.cache
  refine ⟨howned, ?_, ?_⟩
  · intro j hj hnone
    have hne : j ≠ i := by
      rintro rfl
      exact hnone k ((held_iff_of_copy hcache k j).mpr hk)
    rw [hgrown.inodes (iblock_range hj).2, hgrown.other j hne]
    exact h.uncached j hj fun l hl => hnone l ((held_iff_of_copy hcache l j).mpr hl)
  · have hino : g'.ino = update g.ino i (g'.ino i) := by
      funext j
      by_cases hji : j = i
      · rw [hji, update_self]
      · rw [update_of_ne hji, hgrown.other j hji]
    obtain ⟨addrs, haddrs⟩ := hgrown.fields
    rw [hcache, hino, update_self]
    refine h.cache.setCopy hk ?_
    rw [haddrs]
    exact htype

/-- `bmap` allocates a block that is not there. -/
theorem wp_bmap_fresh (h : Store s g) (hk : Held s k i)
    (hE : E .outOfBlocks ∨ missing s.disk (g.ino i) (mapPos n) ≤ freeBlocks s.disk)
    (hn : n < maxfile) (hzero : ptr s.disk (g.ino i) n = 0) :
    wp (bmap k n) E (fun b s' => ∃ g', Mapped k i n b s g s' g') s := by
  obtain ⟨hi, htype, hcopy⟩ := hk.facts h.cache
  unfold bmap
  by_cases hdirect : n < ndirect
  · have haddr : (g.ino i).addr n = 0 := by
      rwa [ptr, if_pos hdirect] at hzero
    have hcost := missing_direct hdirect hzero
    rw [if_pos hdirect]
    refine wp_addrBlock_fresh (hE.imp_right (by omega)) (by rwa [hcopy]) ?_
    intro b hb hbit
    rw [hcopy]
    have hgets := h.owned.gets_direct hi htype hdirect haddr hb hbit
    refine ⟨_, hgets, h.of_grown hk hgets.owned hgets.grown ?_, ?_, fun hptr => absurd hzero hptr,
      _, rfl, ?_⟩
    · simp only [update_self]
    · simp only [update_self]
    · intro x
      have hnot : ¬ ndirect ≤ n := by omega
      simp [hnot, hzero]
  · obtain ⟨j, rfl⟩ : ∃ j, n = ndirect + j := ⟨n - ndirect, by omega⟩
    have hj : j < nindirect := by
      unfold ndirect nindirect maxfile at *
      omega
    have hge : ndirect ≤ ndirect + j := by omega
    rw [if_neg hdirect, Nat.add_sub_cancel_left, if_pos hj]
    by_cases haddr : (g.ino i).addr ndirect = 0
    · have hcost : missing s.disk (g.ino i) (mapPos (ndirect + j)) = 2 := missing_indirect hge hn haddr
      refine wp_bind (wp_addrBlock_fresh (hE.imp_right (by omega)) (by rwa [hcopy]) ?_)
      intro a ha habit
      obtain ⟨-, hameta⟩ := h.owned.free ha habit
      have hcount := freeBlocks_setBit ha habit fun c hc => bit_allocDisk ha hameta hc
      have hload : load (allocDisk s.disk a a) (4 * j) 4 = 0 := by
        rw [allocDisk_self]
        exact load_eq_zero fun _ _ => rfl
      rw [hcopy]
      refine wp_entryBlock_fresh (hE.imp_right fun hle => ?_) ha hload ?_
      · change 0 < freeBlocks (allocDisk s.disk a)
        omega
      intro b hb hbit
      obtain ⟨g', hgets, hino⟩ := h.owned.gets_indirect hi htype hj haddr ha habit hb hbit
      have hlast : (g'.ino i).addr ndirect = a := by
        rw [hino, update_self,
          Dinode.addr_setAddr _ (Nat.le_refl _) (by unfold fsSize at ha; omega), if_pos rfl]
      refine ⟨g', hgets, h.of_grown hk hgets.owned hgets.grown ?_, ?_, fun hptr => absurd hzero hptr,
        _, by rw [append_assoc], ?_⟩
      · rw [hino, update_self]
      · rw [hino, update_self]
      · intro x
        simp only [mem_append, List.mem_cons, not_mem_nil, or_false, hge, true_and, hlast, hzero]
        clear * -
        tauto
    · have howner := (h.owned.owns i hi htype (by simp)).indirect haddr
      obtain ⟨-, -, -, -, -, hlt⟩ := h.owned.sound _ _ _ howner
      have hcost := missing_entry hge hzero haddr
      have hload : load (s.disk ((g.ino i).addr ndirect)) (4 * j) 4 = 0 := by
        rw [ptr_indirect _ _ hge hn haddr, Nat.add_sub_cancel_left] at hzero
        exact hzero
      refine wp_bind (wp_addrBlock_present (by rwa [hcopy]) ?_)
      rw [hcopy]
      refine wp_entryBlock_fresh (hE.imp_right (by omega)) hlt hload ?_
      intro b hb hbit
      have hgets := h.owned.gets_entry hi htype hj haddr hzero hb hbit
      have hcache : s.icache = update s.icache k { s.icache k with d := g.ino i } := by
        rw [← hcopy]
        exact (update_eq_self k s.icache).symm
      refine ⟨_, hgets, h.of_grown hk hgets.owned hgets.grown hcache, hcache,
        fun hptr => absurd hzero hptr, _, rfl, ?_⟩
      simp [hzero]

theorem wp_bmap (h : Store s g) (hk : Held s k i)
    (hE : E .outOfBlocks ∨ missing s.disk (g.ino i) (mapPos n) ≤ freeBlocks s.disk)
    (hn : n < maxfile) : wp (bmap k n) E (fun b s' => ∃ g', Mapped k i n b s g s' g') s := by
  by_cases hzero : ptr s.disk (g.ino i) n = 0
  · exact wp_bmap_fresh h hk hE hn hzero
  · obtain ⟨hi, htype, hcopy⟩ := hk.facts h.cache
    refine wp_bmap_present hcopy (h.owned.indirect_lt hi htype) hn hzero
      ⟨g, h.owned.gets_present hzero, h, (Grows.refl hk h.cache).cache, fun _ => ⟨rfl, rfl⟩, [], ?_, ?_⟩
    · rw [append_nil]
    · simp [hzero]

theorem Mapped.mapPos_ne
    (h : Mapped k i n b s g s' g') {m : ℕ} (hm : m ∈ mapPos n) : ptr s'.disk (g'.ino i) m ≠ 0 := by
  have hne : ptr s'.disk (g'.ino i) n ≠ 0 := by
    rw [h.self]
    exact h.pos
  intro hzero
  have hnone := missing_of_present hne
  rw [missing, card_eq_zero, filter_eq_empty_iff] at hnone
  exact hnone hm hzero

/-- With enough free blocks for some positions, there are enough for the others behind
`bmap`. -/
theorem Mapped.missing_le
    (h : Mapped k i n b s g s' g') {P R : Finset ℕ} (hP : ∀ m ∈ P, m ≤ maxfile) (hR : R ⊆ P)
    (hn : mapPos n ⊆ P) (hle : missing s.disk (g.ino i) P ≤ freeBlocks s.disk) :
    missing s'.disk (g'.ino i) R ≤ freeBlocks s'.disk := by
  have hcount := h.count
  have hsub : R.filter (fun m => ptr s'.disk (g'.ino i) m = 0) ⊆
      P.filter (fun m => ptr s.disk (g.ino i) m = 0) \
        (mapPos n).filter fun m => ptr s.disk (g.ino i) m = 0 := by
    intro m hm
    rw [Finset.mem_filter] at hm
    have hold : ptr s.disk (g.ino i) m = 0 := by
      by_contra hne
      have hsame := h.grows.ptr m (hP m (hR hm.1)) hne
      rw [hm.2] at hsame
      exact hne hsame.symm
    rw [mem_sdiff, Finset.mem_filter, Finset.mem_filter]
    exact ⟨⟨hR hm.1, hold⟩, fun hpos => h.mapPos_ne hpos.1 hm.2⟩
  have hcard := card_le_card hsub
  have hinner : (mapPos n).filter (fun m => ptr s.disk (g.ino i) m = 0) ⊆
      P.filter fun m => ptr s.disk (g.ino i) m = 0 :=
    filter_subset_filter _ hn
  rw [card_sdiff_of_subset hinner] at hcard
  unfold missing at *
  omega

end Xv6Draw.Fs
