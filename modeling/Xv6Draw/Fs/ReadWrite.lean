import Xv6Draw.Fs.Contents

/-!
# Reading and writing files

`iupdate`, `readi` and `writei` on a state that stores a volume. Reading allocates the
blocks that are not there, so it does not change the volume. Writing changes it by the
bytes that were written. The blocks that are passed to `log_write` on the way are named
exactly.

When the files have no holes, all blocks below the size are there, so reading changes
nothing. Writing allocates blocks behind the size only, and then the size grows and the
inode is written back, so what is in the cache is on the disk again afterwards.
-/

namespace Xv6Draw.Fs

open Finset Function Hoare List LittleEndian Option

variable {E : Panic → Prop} {s : State} {g : Ghost}

/-! ### `iupdate` -/

variable {ahead : Option ℕ} {k : Fin ninode} {i off n m : ℕ} {s' : State} {Q : Unit → State → Prop}
  {disk : ℕ → Block} {d : Dinode}

/-- An inode is written back. -/
theorem Rep.writeBack {dying : Option ℕ} (h : Rep s g ahead dying)
    (hahead : ∀ j, ahead = some j → j = i) (hk : Held s k i) (hdisk : s'.disk = update s.disk (iblock i)
      (writeDinode (s.disk (iblock i)) (i % ipb) (g.ino i)))
    (hcache : s'.icache = s.icache) : Rep s' g none dying := by
  obtain ⟨hi, -, -⟩ := hk.facts h.cache
  refine ⟨?_, ?_, by rw [hcache]; exact h.cache⟩
  · rw [hdisk]
    exact h.blocks.update_meta (iblock_range hi).2 _
  · intro j hj _
    rw [hdisk, dinode_write]
    split_ifs with hji
    · rw [hji]
    · exact h.synced j hj fun heq => hji (hahead j heq)

/-- The inodes of a state in which one was written back are stored. -/
theorem Store.writeBack (h : Store s g) (hk : Held s k i) (hdisk : s'.disk = update s.disk (iblock i)
      (writeDinode (s.disk (iblock i)) (i % ipb) (g.ino i)))
    (hcache : s'.icache = s.icache) : Store s' g := by
  obtain ⟨hi, -, -⟩ := hk.facts h.cache
  refine ⟨?_, ?_, by rw [hcache]; exact h.cache⟩
  · rw [hdisk]
    exact h.owned.update_meta (iblock_range hi).2 _
  · intro j hj hnone
    rw [hdisk, dinode_write]
    split_ifs with hji
    · rw [hji]
    · refine h.uncached j hj fun l hl => hnone l ?_
      obtain ⟨href, hinum, hvalid⟩ := hl
      rw [← hcache] at href hinum hvalid
      exact ⟨href, hinum, hvalid⟩

theorem wp_iupdate_eq (hi : (s.icache k).inum < ninodes)
    (hQ : Q () { s with
      disk := update s.disk (iblock (s.icache k).inum)
        (writeDinode (s.disk (iblock (s.icache k).inum)) ((s.icache k).inum % ipb) (s.icache k).d)
      logged := s.logged ++ [iblock (s.icache k).inum] }) : wp (iupdate k) E Q s := by
  obtain ⟨-, hlt⟩ := iblock_range hi
  have hrange : iblock (s.icache k).inum < fsSize := by
    unfold bmapstart at hlt
    unfold fsSize
    omega
  unfold iupdate
  exact wp_bind (wp_get (wp_bind (wp_bread hrange (wp_logWrite hQ))))

theorem wp_iupdate {dying : Option ℕ} (h : Rep s g ahead dying)
    (hahead : ∀ j, ahead = some j → j = i) (hk : Held s k i)
    (hQ : ∀ s', Rep s' g none dying → (∀ b, nmeta ≤ b → s'.disk b = s.disk b) →
      s'.icache = s.icache → s'.logged = s.logged ++ [iblock i] → Q () s') :
    wp (iupdate k) E Q s := by
  obtain ⟨hi, -, hcopy⟩ := hk.facts h.cache
  obtain ⟨-, hlt⟩ := iblock_range hi
  refine wp_iupdate_eq (by rwa [hk.inum]) ?_
  rw [hk.inum, hcopy]
  refine hQ _ (h.writeBack hahead hk rfl rfl) ?_ rfl rfl
  intro b hb
  apply update_of_ne
  unfold nmeta at hb
  unfold bmapstart at hlt
  omega

/-- The volume is not changed when the blocks with owners keep their contents. -/
theorem Owned.vol_congr {disk' : ℕ → Block} (h : Owned disk g none)
    (hsame : ∀ b, nmeta ≤ b → disk' b = disk b) : vol disk' g = vol disk g := by
  funext i
  unfold vol
  split_ifs with hi
  · apply h.node_congr hi nofun
    intro b j n howner _
    obtain ⟨-, -, -, -, hlow, -⟩ := h.sound b j n howner
    exact hsame b hlow
  · rfl

theorem ptr_of_addrs {e : Dinode} (h : d.addrs = e.addrs) (disk : ℕ → Block) (n : ℕ) :
    ptr disk d n = ptr disk e n := by
  unfold ptr Dinode.addr
  rw [h]

/-- An inode gets other fields, and its pointers stay. -/
theorem Owned.setFields (h : Owned disk g none) (hi : i < ninodes)
    (hlive : (g.ino i).type ≠ 0) (htype : d.type = (g.ino i).type)
    (haddrs : d.addrs = (g.ino i).addrs) :
    Owned disk { g with ino := update g.ino i d } none := by
  have hptr := ptr_of_addrs haddrs disk
  apply h.setIno nofun
  · intro b n howner
    obtain ⟨-, -, -, hb, -⟩ := h.sound b i n howner
    exact ⟨by rwa [htype], by rw [hptr, hb]⟩
  · intro _ n hn
    rw [hptr]
    exact h.owns i hi hlive nofun n hn

/-- A held inode gets other fields, and its pointers stay. -/
theorem Store.setCopy (h : Store s g) (hk : Held s k i)
    (htype : d.type = (g.ino i).type) (haddrs : d.addrs = (g.ino i).addrs) (hdisk : s'.disk = s.disk)
    (hcache : s'.icache = update s.icache k { s.icache k with d := d }) :
    Store s' { g with ino := update g.ino i d } := by
  obtain ⟨hi, hlive, -⟩ := hk.facts h.cache
  refine ⟨?_, ?_, ?_⟩
  · rw [hdisk]
    exact h.owned.setFields hi hlive htype haddrs
  · intro j hj hnone
    have hne : j ≠ i := by
      rintro rfl
      exact hnone k ((held_iff_of_copy hcache k j).mpr hk)
    simp only [hdisk, update_of_ne hne]
    exact h.uncached j hj fun l hl => hnone l ((held_iff_of_copy hcache l j).mpr hl)
  · rw [hcache]
    exact h.cache.setCopy hk (by rwa [htype])

/-- A held inode gets other fields. -/
theorem Rep.setCopy (h : Rep s g ahead none) (hahead : ∀ j, ahead = some j → j = i) (hk : Held s k i)
    (htype : d.type = (g.ino i).type) (haddrs : d.addrs = (g.ino i).addrs) (hfull : NoHole s.disk d)
    (hdisk : s'.disk = s.disk)
    (hcache : s'.icache = update s.icache k { s.icache k with d := d }) :
    Rep s' { g with ino := update g.ino i d } (some i) none := by
  obtain ⟨hi, hlive, -⟩ := hk.facts h.cache
  have hptr := ptr_of_addrs haddrs s.disk
  refine ⟨?_, ?_, ?_⟩
  · rw [hdisk]
    apply h.blocks.setIno nofun
    · intro b n howner
      obtain ⟨-, -, -, hb, -⟩ := h.blocks.sound b i n howner
      exact ⟨by rwa [htype], by rw [hptr, hb]⟩
    · intro _ n hn
      rw [hptr]
      exact h.blocks.owns i hi hlive nofun n hn
    · exact fun _ => hfull
  · intro j hj hji
    have hne : j ≠ i := fun heq => hji (by rw [heq])
    simp only [hdisk, update_of_ne hne]
    exact h.synced j hj fun heq => hne (hahead j heq)
  · rw [hcache]
    exact h.cache.setCopy hk (by rwa [htype])

/-- A change to the fields of a held inode. -/
theorem wp_setField (h : Rep s g ahead none)
    (hahead : ∀ j, ahead = some j → j = i) (hk : Held s k i) {f : Dinode → Dinode}
    (htype : (f (g.ino i)).type = (g.ino i).type) (haddrs : (f (g.ino i)).addrs = (g.ino i).addrs)
    (hfull : NoHole s.disk (f (g.ino i)))
    (hQ : ∀ s', Rep s' { g with ino := update g.ino i (f (g.ino i)) } (some i) none →
      Held s' k i → s'.disk = s.disk →
      s'.icache = update s.icache k { s.icache k with d := f (g.ino i) } →
      s'.logged = s.logged → Q () s') :
    wp (setCopy k f) E Q s := by
  obtain ⟨-, -, hcopy⟩ := hk.facts h.cache
  refine wp_setCopy ?_
  rw [hcopy]
  refine hQ _ (h.setCopy hahead hk htype haddrs hfull rfl rfl) ⟨?_, ?_, ?_⟩ rfl rfl rfl
  · simpa using hk.ref
  · simpa using hk.inum
  · simpa using hk.valid

/-! ### Ranges of bytes -/

/-- The blocks in which the bytes from one offset up to another lie. -/
def Touched (off₀ cur n : ℕ) : Prop := off₀ < cur ∧ off₀ / bsize ≤ n ∧ n * bsize < cur

instance (off cur m : ℕ) : Decidable (Touched off cur m) := inferInstanceAs (Decidable (_ ∧ _ ∧ _))

/-- The blocks of the file in which a write lies. -/
def writeBlocks (off n : ℕ) : Finset ℕ := (Finset.range maxfile).filter (Touched off (off + n))

/-- The positions that `bmap` needs for a range of bytes. -/
def rangePos (off n : ℕ) : Finset ℕ := (writeBlocks off n).biUnion mapPos

/-- The blocks of a write that fits into a file. -/
theorem mem_writeBlocks (hmax : off + n ≤ maxfile * bsize) :
    m ∈ writeBlocks off n ↔ Touched off (off + n) m := by
  rw [writeBlocks, Finset.mem_filter, Finset.mem_range]
  constructor
  · exact fun h => h.2
  · intro h
    refine ⟨?_, h⟩
    unfold Touched maxfile bsize at *
    omega

/-- Positions are those of the blocks and of the indirect block. -/
theorem le_maxfile_of_mem_rangePos (hm : m ∈ rangePos off n) : m ≤ maxfile := by
  obtain ⟨c, hc, hmc⟩ := mem_biUnion.mp hm
  have hlt : c < maxfile := Finset.mem_range.mp (Finset.mem_filter.mp hc).1
  unfold mapPos at hmc
  split_ifs at hmc
  · rw [Finset.mem_singleton.mp hmc]
    omega
  · rw [mem_insert, Finset.mem_singleton] at hmc
    omega

theorem mapPos_subset_rangePos (hn : n ≠ 0) (hoff : off / bsize < maxfile) :
    mapPos (off / bsize) ⊆ rangePos off n := by
  refine subset_biUnion_of_mem mapPos (Finset.mem_filter.mpr ⟨Finset.mem_range.mpr hoff, ?_⟩)
  unfold Touched bsize
  omega

theorem rangePos_subset (hm : m ≤ n) : rangePos (off + m) (n - m) ⊆ rangePos off n := by
  apply biUnion_subset_biUnion_of_subset_left
  intro c hc
  rw [writeBlocks, Finset.mem_filter] at hc ⊢
  refine ⟨hc.1, ?_⟩
  have htouched := hc.2
  unfold Touched bsize at htouched ⊢
  omega

/-- Nothing is missing where all blocks are there. -/
theorem missing_rangePos
    (h : ∀ m ∈ writeBlocks off n, ptr disk d m ≠ 0) : missing disk d (rangePos off n) = 0 := by
  rw [missing, card_eq_zero, filter_eq_empty_iff]
  intro m hm hzero
  obtain ⟨c, hc, hmc⟩ := mem_biUnion.mp hm
  have hnone := missing_of_present (h c hc)
  rw [missing, card_eq_zero, filter_eq_empty_iff] at hnone
  exact hnone hmc hzero

/-- The bytes of a round of a loop: some, all in one block, up to the end of the block or
of what is left. -/
theorem round_bounds {cur : ℕ} (hn : n ≠ 0) (hm : m = min n (bsize - cur % bsize)) :
    0 < m ∧ m ≤ bsize - cur % bsize ∧ m ≤ n ∧ (n - m = 0 ∨ (cur + m) % bsize = 0) := by
  unfold bsize at hm ⊢
  omega

/-! ### `readi` -/

/-- The byte at an offset of the blocks of a file. -/
def byteAt (disk : ℕ → Block) (d : Dinode) (x : ℕ) : BitVec 8 := blockAt disk d (x / bsize) (x % bsize)

theorem fileByte_eq {x : ℕ} (hsize : x < d.size.toNat)
    (hmax : x < maxfile * bsize) : fileByte disk d x = byteAt disk d x := by
  rw [fileByte, if_pos ⟨hsize, hmax⟩, byteAt]

/-- The bytes of a file in a part of a block. -/
theorem map_block (hm : m ≤ bsize - off % bsize)
    (hsize : off + m ≤ d.size.toNat) (hmax : off / bsize < maxfile) :
    (List.range' (off % bsize) m).map (blockAt disk d (off / bsize)) =
      (List.range' off m).map (fileByte disk d) := by
  apply ext_getElem
  · simp
  · intro j hj _
    simp only [length_map, length_range'] at hj
    simp only [getElem_map, getElem_range', Nat.one_mul]
    have hblock : (off + j) / bsize = off / bsize ∧ (off + j) % bsize = off % bsize + j := by
      unfold bsize at *
      omega
    rw [fileByte_eq (by omega) (by unfold bsize maxfile at *; omega), byteAt, hblock.1, hblock.2]

/-- The bytes of a round of `readi` and the rest. -/
theorem map_round (hm : m ≤ bsize - off % bsize)
    (hle : m ≤ n) (hsize : off + n ≤ d.size.toNat) (hmax : off / bsize < maxfile) :
    (List.range' off n).map (fileByte disk d) =
      (List.range' (off % bsize) m).map (blockAt disk d (off / bsize)) ++
        (List.range' (off + m) (n - m)).map (fileByte disk d) := by
  have hsplit : n = m + (n - m) := by omega
  rw [map_block hm (by omega) hmax]
  conv_lhs => rw [hsplit, ← List.range'_append_1, map_append]

/-- The loop of `readi` when all blocks are there. -/
theorem wp_readLoop_present (hcopy : (s.icache k).d = d)
    (hlt : d.addr ndirect < fsSize) (hmax : d.size.toNat ≤ maxfile * bsize)
    (hfull : ∀ m < maxfile, m * bsize < d.size.toNat → ptr s.disk d m ≠ 0 ∧ ptr s.disk d m < fsSize)
    {fuel : ℕ} : ∀ {off n : ℕ} {Q : List (BitVec 8) → State → Prop}, n ≤ fuel →
      off + n ≤ d.size.toNat → Q ((List.range' off n).map (fileByte s.disk d)) s →
      wp (readLoop k fuel off n) E Q s := by
  induction fuel with
  | zero =>
    intro off n Q hn _ hQ
    obtain rfl : n = 0 := by omega
    exact wp_pure hQ
  | succ fuel ih =>
    intro off n Q hn hsize hQ
    unfold readLoop
    refine wp_ite (fun hzero => ?_) fun hzero => ?_
    · subst hzero
      exact wp_pure hQ
    · have hblock : off / bsize < maxfile := by
        unfold bsize at *
        omega
      obtain ⟨hne, hptr⟩ := hfull (off / bsize) hblock (by unfold bsize; omega)
      refine wp_bind (wp_bmap_present hcopy hlt hblock hne (wp_bind (wp_bread hptr ?_)))
      obtain ⟨m, hm⟩ : ∃ m, m = min n (bsize - off % bsize) := ⟨_, rfl⟩
      obtain ⟨hpos, hfit, hle, -⟩ := round_bounds hzero hm
      simp only [← hm]
      refine wp_bind (ih (by omega) (by omega) (wp_pure ?_))
      rw [map_round hfit hle hsize hblock, blockAt, if_neg hne] at hQ
      exact hQ

/-- A file reads the same when it has got blocks. -/
theorem Grows.fileByte {g' : Ghost} (h : Grows k i s g s' g') :
    fileByte s'.disk (g'.ino i) = fileByte s.disk (g.ino i) := by
  obtain ⟨addrs, haddrs⟩ := h.fields
  have hsize : (g'.ino i).size = (g.ino i).size := by rw [haddrs]
  funext x
  unfold Fs.fileByte
  rw [hsize]
  split_ifs with hx
  · rw [h.same _ (by unfold bsize maxfile at *; omega)]
  · rfl

section

variable {i n b cur m : ℕ} {src : ℕ → BitVec 8} {disk disk' : ℕ → Block} {g' : Ghost}

theorem Gets.owner (h : Gets i n b disk g disk' g') (hi : i < ninodes)
    (htype : (g'.ino i).type ≠ 0) (hn : n < maxfile) : g'.owner b = some (i, n) := by
  have howner := h.owned.owns i hi htype nofun n (by omega)
  rw [h.self] at howner
  exact howner h.pos

/-- A data block is no indirect block, so the pointers stay when it is written. -/
theorem Gets.ptr_update (h : Gets i n b disk g disk' g') (hi : i < ninodes)
    (htype : (g'.ino i).type ≠ 0) (hn : n < maxfile) (x : Block) (l : ℕ) :
    ptr (update disk' b x) (g'.ino i) l = ptr disk' (g'.ino i) l := by
  apply ptr_congr
  intro hne
  apply update_of_ne
  intro heq
  have hindirect := (h.owned.owns i hi htype nofun).indirect hne
  rw [heq, h.owner hi htype hn, some.injEq, Prod.mk.injEq] at hindirect
  omega

/-- The bytes of the inode after some were moved into the block. -/
theorem Gets.byteAt_update (h : Gets i (cur / bsize) b disk g disk' g') (hi : i < ninodes)
    (htype : (g'.ino i).type ≠ 0) (hmax : cur + m ≤ maxfile * bsize) (hm : 0 < m)
    (hfit : m ≤ bsize - cur % bsize) {x : ℕ} (hx : x < maxfile * bsize) :
    byteAt (update disk' b (memmoveTo (disk' b) (cur % bsize) m src)) (g'.ino i) x =
      if cur ≤ x ∧ x < cur + m then src (x - cur) else byteAt disk (g.ino i) x := by
  have hcur : cur / bsize < maxfile := by
    unfold bsize at *
    omega
  have hn : x / bsize < maxfile := by
    unfold bsize at *
    omega
  unfold byteAt
  rw [← h.grown.same (x / bsize) hn]
  unfold blockAt
  rw [h.ptr_update hi htype hcur]
  by_cases hblock : x / bsize = cur / bsize
  · rw [hblock, h.self, if_neg h.pos, if_neg h.pos, update_self, memmoveTo]
    by_cases hin : cur ≤ x ∧ x < cur + m
    · rw [if_pos (by unfold bsize at *; omega), if_pos hin]
      congr 1
      unfold bsize at *
      omega
    · rw [if_neg (by unfold bsize at *; omega), if_neg hin]
  · have hin : ¬ (cur ≤ x ∧ x < cur + m) := by
      unfold bsize at *
      omega
    rw [if_neg hin]
    split_ifs with hzero
    · rfl
    · have howner := h.owned.owns i hi htype nofun (x / bsize) (by omega) hzero
      have hother : ptr disk' (g'.ino i) (x / bsize) ≠ b := by
        intro heq
        rw [heq, h.owner hi htype hcur, some.injEq, Prod.mk.injEq] at howner
        exact hblock howner.2.symm
      exact congrFun (update_of_ne hother _ _) _

end

/-- The loop of `readi` reads the bytes of the file. -/
theorem wp_readLoop {fuel : ℕ} : ∀ {s : State} {g : Ghost} {off n : ℕ}
    {Q : List (BitVec 8) → State → Prop}, Store s g → Held s k i →
      (E .bmapOutOfRange ∨ off + n ≤ maxfile * bsize) →
      (E .outOfBlocks ∨ missing s.disk (g.ino i) (rangePos off n) ≤ freeBlocks s.disk) →
      n ≤ fuel → off + n ≤ (g.ino i).size.toNat → (∀ s' g', Store s' g' → Grows k i s g s' g' →
        ((∀ m ∈ writeBlocks off n, ptr s.disk (g.ino i) m ≠ 0) → s' = s ∧ g' = g) →
        Q ((List.range' off n).map (fileByte s.disk (g.ino i))) s') →
      wp (readLoop k fuel off n) E Q s := by
  induction fuel with
  | zero =>
    intro s g off n Q h hk _ _ hn _ hQ
    obtain rfl : n = 0 := by omega
    exact wp_pure (hQ s g h (Grows.refl hk h.cache) fun _ => ⟨rfl, rfl⟩)
  | succ fuel ih =>
    intro s g off n Q h hk hE hE' hn hsize hQ
    unfold readLoop
    refine wp_ite (fun hzero => ?_) fun hzero => ?_
    · subst hzero
      exact wp_pure (hQ s g h (Grows.refl hk h.cache) fun _ => ⟨rfl, rfl⟩)
    by_cases hmax : off / bsize < maxfile
    · obtain ⟨m, hm⟩ : ∃ m, m = min n (bsize - off % bsize) := ⟨_, rfl⟩
      obtain ⟨hpos, hfit, hle, -⟩ := round_bounds hzero hm
      have hfirst := mapPos_subset_rangePos hzero hmax
      have hblocks : off / bsize ∈ writeBlocks off n := by
        rw [writeBlocks, Finset.mem_filter, Finset.mem_range]
        refine ⟨hmax, ?_⟩
        unfold Touched bsize
        omega
      have hcost : missing s.disk (g.ino i) (mapPos (off / bsize)) ≤
          missing s.disk (g.ino i) (rangePos off n) :=
        card_le_card (filter_subset_filter _ hfirst)
      refine wp_seq (wp_bmap h hk (hE'.imp_right hcost.trans) hmax) ?_
      rintro b s₁ ⟨g₁, hmap⟩
      obtain ⟨hi, htype₁, -⟩ := (hmap.grows.held hk).facts hmap.store.cache
      obtain ⟨-, -, -, -, -, hlt⟩ := hmap.store.owned.sound _ _ _ (hmap.owner hi htype₁ hmax)
      refine wp_bind (wp_bread hlt ?_)
      simp only [← hm]
      have hsize₁ : (g₁.ino i).size = (g.ino i).size := by
        obtain ⟨addrs, haddrs⟩ := hmap.grows.fields
        rw [haddrs]
      refine wp_bind (ih hmap.store (hmap.grows.held hk) (hE.imp_right (by omega))
        (hE'.imp_right (hmap.missing_le (fun _ => le_maxfile_of_mem_rangePos) (rangePos_subset hle) hfirst))
        (by omega) (by rw [hsize₁]; omega) ?_)
      intro s₂ g₂ hstore₂ hgrows₂ hsame₂
      refine wp_pure ?_
      -- the block that was read is the one of the file
      have hblock : s₁.disk b = blockAt s.disk (g.ino i) (off / bsize) := by
        rw [← hmap.grows.same _ hmax, blockAt, hmap.self, if_neg hmap.pos]
      rw [hblock, hmap.grows.fileByte, ← map_round hfit hle hsize hmax]
      refine hQ s₂ g₂ hstore₂ (hmap.grows.trans hgrows₂) ?_
      intro hfull
      obtain ⟨rfl, rfl⟩ := hmap.present (hfull _ hblocks)
      refine hsame₂ fun c hc => hfull c ?_
      rw [writeBlocks, Finset.mem_filter] at hc ⊢
      refine ⟨hc.1, ?_⟩
      have htouched := hc.2
      unfold Touched bsize at htouched ⊢
      omega
    · -- the size in the inode is larger than a file can be
      refine wp_bind ?_
      unfold bmap
      rw [if_neg (by unfold ndirect maxfile at *; omega),
        if_neg (by unfold nindirect ndirect maxfile at *; omega)]
      exact wp_throw (hE.resolve_right (by unfold bsize at *; omega))

/-- What `readi` returns. -/
def readResult (disk : ℕ → Block) (d : Dinode) (off n : ℕ) : Option (List (BitVec 8)) :=
  if off ≤ d.size.toNat ∧ off + n < 2 ^ 32 then
    some ((List.range' off (min n (d.size.toNat - off))).map (fileByte disk d))
  else none

/-- `readi` returns a part of the bytes of a file. -/
theorem readResult_eq {c : List (BitVec 8)}
    (hc : c = (List.range d.size.toNat).map (fileByte disk d)) (off n : ℕ) : readResult disk d off n =
      if off ≤ c.length ∧ off + n < 2 ^ 32 then some ((c.drop off).take n) else none := by
  have hlength : c.length = d.size.toNat := by
    rw [hc, length_map, length_range]
  unfold readResult
  rw [hlength]
  split_ifs with hin
  · rw [some.injEq]
    apply ext_getElem
    · simp [hlength]
    · intro x hx _
      simp [hc]
  · rfl

theorem read_count {size : ℕ} (hoff : off ≤ size) (hwrap : off + n < 2 ^ 32) :
    (if (off + n) % 2 ^ 32 > size then size - off else n) = min n (size - off) := by
  split_ifs <;> omega

/-- `readi` when all blocks are there. -/
theorem wp_readi_present (hcopy : (s.icache k).d = d)
    (hlt : d.addr ndirect < fsSize) (hmax : d.size.toNat ≤ maxfile * bsize)
    (hfull : ∀ m < maxfile, m * bsize < d.size.toNat → ptr s.disk d m ≠ 0 ∧ ptr s.disk d m < fsSize)
    (hn : n < 2 ^ 32) {Q : Option (List (BitVec 8)) → State → Prop}
    (hQ : Q (readResult s.disk d off n) s) : wp (readi k off n) E Q s := by
  unfold readi
  refine wp_bind (wp_get ?_)
  rw [hcopy]
  unfold readResult at hQ
  refine wp_ite (fun hout => ?_) fun hin => ?_
  · rw [if_neg (by omega)] at hQ
    exact wp_pure hQ
  · have hwrap : off + n < 2 ^ 32 := by omega
    rw [if_pos (by omega)] at hQ
    rw [read_count (by omega) hwrap]
    exact wp_bind (wp_readLoop_present hcopy hlt hmax hfull (Nat.le_refl _) (by omega) (wp_pure hQ))

/-- `readi` allocates the blocks that are not there, and else does not change anything. -/
theorem Store.wp_readi (h : Store s g) (hk : Held s k i)
    (hn : n < 2 ^ 32) (hE : E .bmapOutOfRange ∨ (g.ino i).size.toNat ≤ maxfile * bsize)
    (hE' : E .outOfBlocks ∨
      missing s.disk (g.ino i) (rangePos off (min n ((g.ino i).size.toNat - off))) ≤ freeBlocks s.disk)
    {Q : Option (List (BitVec 8)) → State → Prop} (hQ : ∀ s' g', Store s' g' → Grows k i s g s' g' →
      (readResult s.disk (g.ino i) off n = none → s' = s) →
      ((∀ m ∈ writeBlocks off (min n ((g.ino i).size.toNat - off)),
        ptr s.disk (g.ino i) m ≠ 0) → s' = s ∧ g' = g) → Q (readResult s.disk (g.ino i) off n) s') :
    wp (readi k off n) E Q s := by
  obtain ⟨-, -, hcopy⟩ := hk.facts h.cache
  unfold readi
  refine wp_bind (wp_get ?_)
  rw [hcopy]
  unfold readResult at hQ
  refine wp_ite (fun hout => ?_) fun hin => ?_
  · rw [if_neg (by omega)] at hQ
    exact wp_pure (hQ s g h (Grows.refl hk h.cache) (fun _ => rfl) fun _ => ⟨rfl, rfl⟩)
  · have hwrap : off + n < 2 ^ 32 := by omega
    rw [if_pos (by omega)] at hQ
    rw [read_count (by omega) hwrap]
    refine wp_bind (wp_readLoop h hk (hE.imp_right (by omega)) hE' (Nat.le_refl _) (by omega) ?_)
    intro s' g' hstore hgrows hsame
    exact wp_pure (hQ s' g' hstore hgrows nofun hsame)

/-- The blocks below the size of a file are there. -/
theorem Rep.full (h : Rep s g none none) (hk : Held s k i) (off : ℕ)
    (hle : n ≤ (g.ino i).size.toNat - off) : ∀ m ∈ writeBlocks off n, ptr s.disk (g.ino i) m ≠ 0 := by
  obtain ⟨hi, htype, -⟩ := hk.facts h.cache
  intro m hm
  rw [writeBlocks, Finset.mem_filter, Finset.mem_range] at hm
  refine h.blocks.full i hi htype nofun m hm.1 ?_
  unfold Touched bsize at *
  omega

/-- `readi` does not change anything when files have no holes. -/
theorem wp_readi (h : Rep s g none none) (hk : Held s k i)
    (hE : E .bmapOutOfRange ∨ (g.ino i).size.toNat ≤ maxfile * bsize) (hn : n < 2 ^ 32)
    {Q : Option (List (BitVec 8)) → State → Prop} (hQ : Q (readResult s.disk (g.ino i) off n) s) :
    wp (readi k off n) E Q s := by
  have hfull := h.full hk off (min_le_right n _)
  refine (h.store nofun).wp_readi hk hn hE (.inr ?_) ?_
  · rw [missing_rangePos hfull]
    exact Nat.zero_le _
  · intro s' g' _ _ _ hsame
    rw [(hsame hfull).1]
    exact hQ

/-! ### The loop of `writei` -/

/-- The blocks that the loop of `writei` has logged: the data blocks, the bitmap when one
of them was not there, and the indirect block when it has got an entry. -/
def LoopLogs (i off₀ cur : ℕ) (s₀ : State) (g₀ : Ghost) (s : State) (g : Ghost) (x : ℕ) : Prop :=
  (∃ n, Touched off₀ cur n ∧ x = ptr s.disk (g.ino i) n) ∨
  ((∃ n, Touched off₀ cur n ∧ ptr s₀.disk (g₀.ino i) n = 0) ∧ x = bmapstart) ∨
  ((∃ n, Touched off₀ cur n ∧ ndirect ≤ n ∧ ptr s₀.disk (g₀.ino i) n = 0) ∧
    x = (g.ino i).addr ndirect)

/-- The loop of `writei`, started at an offset in a state, has come to another offset. -/
structure Writing (k : Fin ninode) (i : ℕ) (src : ℕ → BitVec 8) (off₀ : ℕ) (s₀ : State) (g₀ : Ghost)
    (cur : ℕ) (s : State) (g : Ghost) : Prop where
  store : Store s g
  /-- The cache differs in the copy of the inode. -/
  cache : s.icache = update s₀.icache k { s₀.icache k with d := g.ino i }
  other : ∀ j, j ≠ i → g.ino j = g₀.ino j
  /-- The inode differs in `addrs` only. -/
  fields : ∃ addrs, g.ino i = { g₀.ino i with addrs := addrs }
  /-- The inodes on the disk are the same. -/
  inodes : ∀ j < ninodes, dinode s.disk j = dinode s₀.disk j
  /-- The blocks that were there are the same. -/
  kept : ∀ n ≤ maxfile, ptr s₀.disk (g₀.ino i) n ≠ 0 →
    ptr s.disk (g.ino i) n = ptr s₀.disk (g₀.ino i) n
  /-- Blocks that were not written are the same. -/
  untouched : ∀ n < maxfile, ¬ Touched off₀ cur n →
    ptr s.disk (g.ino i) n = ptr s₀.disk (g₀.ino i) n
  /-- Blocks that were written are there. -/
  touched : ∀ n < maxfile, Touched off₀ cur n → ptr s.disk (g.ino i) n ≠ 0
  owner : ∀ b p, g₀.owner b = some p → g.owner b = some p
  /-- The blocks of other inodes keep their contents. -/
  foreign : ∀ b j n, g₀.owner b = some (j, n) → j ≠ i → s.disk b = s₀.disk b
  /-- Other bytes of this inode are the same. -/
  old : ∀ x < maxfile * bsize, ¬ (off₀ ≤ x ∧ x < cur) →
    byteAt s.disk (g.ino i) x = byteAt s₀.disk (g₀.ino i) x
  new : ∀ x, off₀ ≤ x → x < cur → byteAt s.disk (g.ino i) x = src (x - off₀)
  /-- The inode is the same when all blocks were there. -/
  still : (∀ n, Touched off₀ cur n → ptr s₀.disk (g₀.ino i) n ≠ 0) → g.ino i = g₀.ino i
  logs : ∃ l, s.logged = s₀.logged ++ l ∧ ∀ x, x ∈ l ↔ LoopLogs i off₀ cur s₀ g₀ s g x

section

variable {k : Fin ninode} {i off₀ cur m : ℕ} {src : ℕ → BitVec 8} {s₀ s₁ : State} {g₀ g₁ : Ghost}

theorem touched_add (hoff : off₀ ≤ cur) (hm : 0 < m) (hfit : m ≤ bsize - cur % bsize) (n : ℕ) :
    Touched off₀ (cur + m) n ↔ Touched off₀ cur n ∨ n = cur / bsize := by
  unfold Touched
  unfold bsize at hfit ⊢
  omega

theorem not_touched (halign : cur = off₀ ∨ cur % bsize = 0) : ¬ Touched off₀ cur (cur / bsize) := by
  unfold Touched
  unfold bsize at halign ⊢
  omega

theorem Writing.held (h : Writing k i src off₀ s₀ g₀ cur s g) (hk : Held s₀ k i) : Held s k i :=
  (held_iff_of_copy h.cache k i).mpr hk

/-- The start of the loop. -/
theorem Writing.start (h : Store s g) (hk : Held s k i) (off : ℕ) :
    Writing k i src off s g off s g := by
  have hnot : ∀ n, ¬ Touched off off n := by
    intro n hn
    exact Nat.lt_irrefl off hn.1
  obtain ⟨-, -, hcopy⟩ := hk.facts h.cache
  refine ⟨h, ?_, fun _ _ => rfl, ⟨_, rfl⟩, fun _ _ => rfl, fun _ _ _ => rfl, fun _ _ _ => rfl,
    fun n _ hn => absurd hn (hnot n), fun _ _ hb => hb, fun _ _ _ _ _ => rfl, fun _ _ _ => rfl, ?_,
    fun _ => rfl, [], ?_, ?_⟩
  · rw [← hcopy]
    exact (update_eq_self k s.icache).symm
  · intro x hlow hhigh
    omega
  · rw [append_nil]
  · intro x
    simp [LoopLogs, hnot]

/-- The state after a round of the loop. -/
def writeBlock (s : State) (b o m : ℕ) (src : ℕ → BitVec 8) : State :=
  { s with
    disk := update s.disk b (memmoveTo (s.disk b) o m src)
    logged := s.logged ++ [b] }

/-- What is logged in a round of the loop is what is logged for its block. -/
theorem logs_round {data old ind fresh indirect atMap atBlock atOld atNew : Prop}
    (h : ind → (atOld ↔ atNew)) :
    ((data ∨ old ∧ atMap ∨ ind ∧ atOld) ∨ fresh ∧ (atMap ∨ atBlock ∨ indirect ∧ atNew) ∨ atBlock) ↔
      (data ∨ atBlock) ∨ (old ∧ atMap ∨ fresh ∧ atMap) ∨ ind ∧ atNew ∨ (indirect ∧ fresh) ∧ atNew := by
  by_cases hind : ind
  · rw [h hind]
    grind
  · grind

/-- A round of the loop. -/
theorem Writing.step {b : ℕ} (h : Writing k i src off₀ s₀ g₀ cur s g)
    (hmap : Mapped k i (cur / bsize) b s g s₁ g₁) (hk : Held s₀ k i)
    (hoff : off₀ ≤ cur) (halign : cur = off₀ ∨ cur % bsize = 0) (hm : 0 < m)
    (hfit : m ≤ bsize - cur % bsize) (hmax : cur + m ≤ maxfile * bsize) :
    Writing k i src off₀ s₀ g₀ (cur + m)
      (writeBlock s₁ b (cur % bsize) m fun j => src (cur - off₀ + j)) g₁ := by
  have hk' := h.held hk
  have hcur : cur / bsize < maxfile := by
    unfold bsize at *
    omega
  obtain ⟨hi, htype, -⟩ := (hmap.grows.held hk').facts hmap.store.cache
  have hb := hmap.owner hi htype hcur
  obtain ⟨-, -, -, -, hlow, -⟩ := hmap.store.owned.sound _ _ _ hb
  have htouched := touched_add hoff hm hfit
  have hzero : ptr s.disk (g.ino i) (cur / bsize) = ptr s₀.disk (g₀.ino i) (cur / bsize) :=
    h.untouched _ hcur (not_touched halign)
  have hsame : ∀ l, ptr (writeBlock s₁ b (cur % bsize) m fun j => src (cur - off₀ + j)).disk
      (g₁.ino i) l = ptr s₁.disk (g₁.ino i) l :=
    hmap.ptr_update hi htype hcur _
  have hbyte : ∀ x < maxfile * bsize,
      byteAt (writeBlock s₁ b (cur % bsize) m fun j => src (cur - off₀ + j)).disk (g₁.ino i) x =
        if cur ≤ x ∧ x < cur + m then src (cur - off₀ + (x - cur)) else byteAt s.disk (g.ino i) x :=
    fun x hx => hmap.byteAt_update hi htype hmax hm hfit hx
  have hinodes : ∀ j < ninodes,
      dinode (writeBlock s₁ b (cur % bsize) m fun j => src (cur - off₀ + j)).disk j =
        dinode s₁.disk j := by
    intro j hj
    apply dinode_update _ _ _ hj
    unfold nmeta at hlow
    unfold bmapstart
    omega
  refine ⟨⟨hmap.store.owned.update_data hb hcur _, ?_, hmap.store.cache⟩, ?_, ?_, ?_, ?_, ?_, ?_, ?_, ?_,
    ?_, ?_, ?_, ?_, ?_⟩
  · intro j hj hnone
    rw [hinodes j hj]
    exact hmap.store.uncached j hj fun l hl => hnone l ⟨hl.ref, hl.inum, hl.valid⟩
  · change s₁.icache = _
    rw [hmap.grows.cache, h.cache]
    simp
  · intro j hj
    rw [hmap.grows.other j hj, h.other j hj]
  · obtain ⟨addrs, haddrs⟩ := h.fields
    obtain ⟨addrs₁, haddrs₁⟩ := hmap.grows.fields
    exact ⟨addrs₁, by rw [haddrs₁, haddrs]⟩
  · intro j hj
    rw [hinodes j hj, hmap.grows.inodes (iblock_range hj).2, h.inodes j hj]
  · intro n hn hne
    have hkept := h.kept n hn hne
    rw [hsame, hmap.grows.ptr n hn (by rwa [hkept]), hkept]
  · intro n hn hnot
    rw [htouched, not_or] at hnot
    rw [hsame, hmap.other n hn hnot.2, h.untouched n hn hnot.1]
  · intro n hn ht
    rw [hsame]
    obtain ht | rfl := (htouched n).mp ht
    · have hne := h.touched n hn ht
      rwa [hmap.grows.ptr n (by omega) hne]
    · rw [hmap.self]
      exact hmap.pos
  · intro c p hc
    exact hmap.grows.owner c p (h.owner c p hc)
  · intro c j n hc hji
    have hcb : c ≠ b := by
      rintro rfl
      have hc₁ := hmap.grows.owner c _ (h.owner c _ hc)
      rw [hb, some.injEq, Prod.mk.injEq] at hc₁
      exact hji hc₁.1.symm
    have hdisk : (writeBlock s₁ b (cur % bsize) m fun j => src (cur - off₀ + j)).disk c = s₁.disk c :=
      update_of_ne hcb _ _
    rw [hdisk, hmap.grows.data c _ (h.owner c _ hc), h.foreign c j n hc hji]
    simp [hji]
  · intro x hx hout
    rw [hbyte x hx, if_neg (by omega)]
    exact h.old x hx (by omega)
  · intro x hlow' hhigh
    rw [hbyte x (by omega)]
    split_ifs with hin
    · congr 1
      omega
    · exact h.new x hlow' (by omega)
  · intro hall
    obtain ⟨-, rfl⟩ := hmap.present (by rw [hzero]; exact hall _ ((htouched _).mpr (.inr rfl)))
    exact h.still fun n hn => hall n ((htouched n).mpr (.inl hn))
  · obtain ⟨l, hl, hmem⟩ := h.logs
    obtain ⟨l₁, hl₁, hmem₁⟩ := hmap.logs
    refine ⟨l ++ (l₁ ++ [b]), ?_, ?_⟩
    · simp only [writeBlock, hl₁, hl, append_assoc]
    · intro x
      have hold : (∃ n, Touched off₀ cur n ∧ x = ptr s₁.disk (g₁.ino i) n) ↔
          ∃ n, Touched off₀ cur n ∧ x = ptr s.disk (g.ino i) n := by
        refine exists_congr fun n => and_congr_right fun ht => ?_
        have hn : n < maxfile := by
          unfold Touched bsize maxfile at *
          omega
        rw [hmap.grows.ptr n (by omega) (h.touched n hn ht)]
      have hindirect : (∃ n, Touched off₀ cur n ∧ ndirect ≤ n ∧ ptr s₀.disk (g₀.ino i) n = 0) →
          (g₁.ino i).addr ndirect = (g.ino i).addr ndirect := by
        rintro ⟨n, ht, hn, -⟩
        have hn' : n < maxfile := by
          unfold Touched bsize maxfile at *
          omega
        have hne : ptr s.disk (g.ino i) maxfile ≠ 0 := by
          rw [ptr_maxfile]
          intro hnone
          exact h.touched n hn' ht (ptr_eq_zero_of_addr hnone hn)
        have hlast := hmap.grows.ptr maxfile (Nat.le_refl _) hne
        rwa [ptr_maxfile, ptr_maxfile] at hlast
      simp only [mem_append, List.mem_singleton, hmem, hmem₁, LoopLogs, htouched, hsame, hzero,
        or_and_right, exists_or, exists_eq_left, hmap.self, hold]
      refine logs_round fun hsome => ?_
      rw [hindirect hsome]

/-- The loop of `writei`. -/
theorem wp_writeLoop (hk : Held s₀ k i) {fuel : ℕ} : ∀ {cur n : ℕ} {s : State} {g : Ghost},
    n ≤ fuel → Writing k i src off₀ s₀ g₀ cur s g →
      (E .outOfBlocks ∨ missing s.disk (g.ino i) (rangePos cur n) ≤ freeBlocks s.disk) →
      off₀ ≤ cur → (n = 0 ∨ cur = off₀ ∨ cur % bsize = 0) → cur + n ≤ maxfile * bsize →
      wp (writeLoop k src fuel (cur - off₀) cur n) E
        (fun _ s' => ∃ g', Writing k i src off₀ s₀ g₀ (cur + n) s' g') s := by
  induction fuel with
  | zero =>
    intro cur n s g hn h _ _ _ _
    obtain rfl : n = 0 := by omega
    exact wp_pure ⟨g, h⟩
  | succ fuel ih =>
    intro cur n s g hn h hE hoff halign hmax
    unfold writeLoop
    refine wp_ite (fun hzero => ?_) fun hzero => ?_
    · subst hzero
      exact wp_pure ⟨g, h⟩
    · have hcur : cur / bsize < maxfile := by
        unfold bsize at *
        omega
      have hk' := h.held hk
      have hfirst := mapPos_subset_rangePos hzero hcur
      have hcost : missing s.disk (g.ino i) (mapPos (cur / bsize)) ≤
          missing s.disk (g.ino i) (rangePos cur n) :=
        card_le_card (filter_subset_filter _ hfirst)
      refine wp_seq (wp_bmap h.store hk' (hE.imp_right hcost.trans) hcur) ?_
      rintro b s₁ ⟨g₁, hmap⟩
      obtain ⟨hi, htype, -⟩ := (hmap.grows.held hk').facts hmap.store.cache
      obtain ⟨-, -, -, -, hlow, hlt⟩ := hmap.store.owned.sound _ _ _ (hmap.owner hi htype hcur)
      refine wp_bind (wp_bread hlt (wp_bind (wp_logWrite ?_)))
      obtain ⟨m, hm⟩ : ∃ m, m = min n (bsize - cur % bsize) := ⟨_, rfl⟩
      obtain ⟨hpos, hfit, hle, hnext⟩ := round_bounds hzero hm
      rw [← hm]
      have hstep := h.step hmap hk hoff (by omega) hpos hfit (by omega)
      -- what is missing and what is free is the same when a data block is written
      have hrest : E .outOfBlocks ∨ missing (writeBlock s₁ b (cur % bsize) m fun j =>
          src (cur - off₀ + j)).disk (g₁.ino i) (rangePos (cur + m) (n - m)) ≤
          freeBlocks (writeBlock s₁ b (cur % bsize) m fun j => src (cur - off₀ + j)).disk := by
        refine hE.imp_right fun hle' => ?_
        have hmissing : ∀ P, missing (writeBlock s₁ b (cur % bsize) m fun j =>
            src (cur - off₀ + j)).disk (g₁.ino i) P = missing s₁.disk (g₁.ino i) P := by
          intro P
          unfold missing
          simp only [writeBlock, hmap.ptr_update hi htype hcur]
        have hfree : freeBlocks (writeBlock s₁ b (cur % bsize) m fun j =>
            src (cur - off₀ + j)).disk = freeBlocks s₁.disk := by
          refine freeBlocks_congr fun c hc => ?_
          refine bit_update ?_ _ _ hc
          unfold nmeta at hlow
          unfold bmapstart
          omega
        rw [hmissing, hfree]
        exact hmap.missing_le (fun _ => le_maxfile_of_mem_rangePos) (rangePos_subset hle) hfirst hle'
      have hloop := ih (n := n - m) (by omega) hstep hrest (by omega) (by omega) (by omega)
      rw [show cur + m - off₀ = cur - off₀ + m by omega,
        show cur + m + (n - m) = cur + n by omega] at hloop
      exact hloop

end

/-! ### `writei` -/

/-- The bytes to be written start in the file or at its end, and end within the largest
file. -/
def Fits (d : Dinode) (off n : ℕ) : Prop := off ≤ d.size.toNat ∧ off + n ≤ maxfile * bsize

instance (d : Dinode) (off n : ℕ) : Decidable (Fits d off n) :=
  inferInstanceAs (Decidable (_ ∧ _))

/-- A file with bytes written to it. -/
def Node.write (nd : Node) (src : ℕ → BitVec 8) (off n : ℕ) : Node :=
  { nd with
    size := max nd.size (off + n)
    data := fun x => if off ≤ x ∧ x < off + n then src (x - off) else nd.data x }

/-- `writei` has written bytes. -/
structure Wrote (k : Fin ninode) (i : ℕ) (src : ℕ → BitVec 8) (off n : ℕ) (s : State) (g : Ghost)
    (s' : State) (g' : Ghost) : Prop where
  store : Store s' g'
  /-- The cache differs in the copy of the inode. -/
  cache : s'.icache = update s.icache k { s.icache k with d := g'.ino i }
  other : ∀ j, j ≠ i → g'.ino j = g.ino j
  /-- The size has grown when it was too small. -/
  size : (g'.ino i).size.toNat = max (g.ino i).size.toNat (off + n)
  vol : vol s'.disk g' =
    update (vol s.disk g) i ((vol s.disk g i).map fun nd => nd.write src off n)
  /-- The blocks that were written are there. -/
  touched : ∀ m < maxfile, Touched off (off + n) m → ptr s'.disk (g'.ino i) m ≠ 0
  /-- The blocks that were there are the same. -/
  kept : ∀ m ≤ maxfile, ptr s.disk (g.ino i) m ≠ 0 →
    ptr s'.disk (g'.ino i) m = ptr s.disk (g.ino i) m
  /-- The blocks of other inodes keep their contents. -/
  foreign : ∀ b j m, g.owner b = some (j, m) → j ≠ i → s'.disk b = s.disk b
  /-- The other inodes on the disk are the same. -/
  inodes : ∀ j < ninodes, j ≠ i → dinode s'.disk j = dinode s.disk j
  /-- The inode is on the disk, or the size has not grown and it is the same when all blocks
  were there. -/
  back : dinode s'.disk i = g'.ino i ∨ (off + n ≤ (g.ino i).size.toNat ∧
    dinode s'.disk i = dinode s.disk i ∧
    ((∀ m, Touched off (off + n) m → ptr s.disk (g.ino i) m ≠ 0) → g'.ino i = g.ino i))
  logs : ∃ l, s'.logged = s.logged ++ l ∧ ∀ x, x ∈ l ↔
    LoopLogs i off (off + n) s g s' g' x ∨ ((g.ino i).size.toNat < off + n ∧ x = iblock i)

section

variable {k : Fin ninode} {i off n : ℕ} {src : ℕ → BitVec 8} {s' : State} {g' : Ghost}

/-- The volume after the loop, with the size that `writei` sets. -/
theorem Writing.vol (h : Writing k i src off s g (off + n) s' g') (hstore : Store s g)
    (hk : Held s k i) (hfits : Fits (g.ino i) off n) {d : Dinode}
    (hd : d = { g'.ino i with size := d.size })
    (hsize : d.size.toNat = max (g.ino i).size.toNat (off + n)) :
    node s'.disk d = (node s.disk (g.ino i)).map fun nd => nd.write src off n := by
  obtain ⟨hi, htype, -⟩ := hk.facts hstore.cache
  obtain ⟨addrs, haddrs⟩ := h.fields
  have hbyte : ∀ x, byteAt s'.disk d x = byteAt s'.disk (g'.ino i) x := by
    intro x
    unfold byteAt blockAt
    rw [ptr_of_addrs (d := d) (e := g'.ino i) (by rw [hd])]
  have hdata : fileByte s'.disk d =
      fun x => if off ≤ x ∧ x < off + n then src (x - off) else fileByte s.disk (g.ino i) x := by
    funext x
    obtain ⟨hstart, hmax⟩ := hfits
    by_cases hin : off ≤ x ∧ x < off + n
    · rw [if_pos hin, fileByte_eq (by omega) (by omega), hbyte, h.new x hin.1 hin.2]
    · rw [if_neg hin]
      by_cases hold : x < (g.ino i).size.toNat ∧ x < maxfile * bsize
      · rw [fileByte_eq (by omega) hold.2, fileByte_eq hold.1 hold.2, hbyte, h.old x hold.2 hin]
      · rw [fileByte, fileByte, if_neg hold, if_neg (by omega)]
  have htype' : d.type = (g.ino i).type := by rw [hd, haddrs]
  rw [node, node, htype', if_neg htype, if_neg htype, hdata, hsize, Option.map_some, Node.write]
  rw [hd, haddrs]

/-- `writei` behind its loop, with the size set. -/
theorem Writing.wrote (h : Writing k i src off s g (off + n) s' g') (hstore : Store s g)
    (hk : Held s k i) (hfits : Fits (g.ino i) off n) {s'' : State} {d : Dinode}
    (hd : d = { g'.ino i with size := d.size })
    (hsize : d.size.toNat = max (g.ino i).size.toNat (off + n))
    (hstore' : Store s'' { g' with ino := update g'.ino i d })
    (hdisk : ∀ b, nmeta ≤ b → s''.disk b = s'.disk b)
    (hcache : s''.icache = update s'.icache k { s'.icache k with d := d })
    (hinodes : ∀ j < ninodes, j ≠ i → dinode s''.disk j = dinode s'.disk j)
    (hback : dinode s''.disk i = d ∨ (off + n ≤ (g.ino i).size.toNat ∧
      dinode s''.disk i = dinode s'.disk i ∧ d = g'.ino i)) {l : List ℕ}
    (hlogged : s''.logged = s'.logged ++ l)
    (hmem : ∀ x, x ∈ l ↔ (g.ino i).size.toNat < off + n ∧ x = iblock i) :
    Wrote k i src off n s g s'' { g' with ino := update g'.ino i d } := by
  obtain ⟨hi, htype, -⟩ := hk.facts hstore.cache
  obtain ⟨-, htype', -⟩ := (h.held hk).facts h.store.cache
  have haddrs : d.addrs = (g'.ino i).addrs := by rw [hd]
  have hptr : ∀ m, ptr s''.disk d m = ptr s'.disk (g'.ino i) m := by
    intro m
    rw [ptr_of_addrs haddrs]
    exact h.store.owned.ptr_congr hi htype' (hdisk _) m
  have hforeign : ∀ b j m, g.owner b = some (j, m) → j ≠ i → s''.disk b = s.disk b := by
    intro b j m howner hji
    obtain ⟨-, -, -, -, hlow, -⟩ := hstore.owned.sound _ _ _ howner
    rw [hdisk b hlow, h.foreign b j m howner hji]
  refine ⟨hstore', ?_, ?_, ?_, ?_, ?_, ?_, hforeign, ?_, ?_, ?_⟩
  · rw [hcache, h.cache]
    simp
  · intro j hj
    simp only [update_of_ne hj]
    exact h.other j hj
  · simp only [update_self]
    exact hsize
  · funext j
    by_cases hj : j = i
    · subst j
      rw [update_self, Fs.vol, Fs.vol, if_pos hi, if_pos hi]
      simp only [update_self]
      rw [← h.vol hstore hk hfits hd hsize]
      apply node_congr rfl rfl rfl rfl rfl
      intro m hm _
      unfold blockAt
      rw [hptr, ptr_of_addrs haddrs]
      split_ifs with hzero
      · rfl
      · have howner := h.store.owned.owns i hi htype' nofun m (by omega) hzero
        obtain ⟨-, -, -, -, hlow, -⟩ := h.store.owned.sound _ _ _ howner
        exact hdisk _ hlow
    · rw [update_of_ne hj, Fs.vol, Fs.vol]
      split_ifs with hlt
      · simp only [update_of_ne hj, h.other j hj]
        refine hstore.owned.node_congr hlt nofun ?_
        rintro b l m howner rfl
        exact hforeign b _ m howner hj
      · rfl
  · intro m hm ht
    simp only [update_self, hptr]
    exact h.touched m hm ht
  · intro m hm hne
    simp only [update_self, hptr]
    exact h.kept m hm hne
  · intro j hj hji
    rw [hinodes j hj hji, h.inodes j hj]
  · simp only [update_self]
    obtain hback | ⟨hle, hsame, heq⟩ := hback
    · exact .inl hback
    · refine .inr ⟨hle, by rw [hsame, h.inodes i hi], fun hall => ?_⟩
      rw [heq]
      exact h.still hall
  · obtain ⟨l', hl', hmem'⟩ := h.logs
    refine ⟨l' ++ l, by rw [hlogged, hl', append_assoc], ?_⟩
    intro x
    have haddr : d.addr ndirect = (g'.ino i).addr ndirect := by
      unfold Dinode.addr
      rw [haddrs]
    rw [mem_append, hmem', hmem]
    simp only [LoopLogs, update_self, hptr, haddr]

/-- `writei` behind its loop. -/
theorem Writing.wp_grow (h : Writing k i src off s g (off + n) s' g') (hstore : Store s g)
    (hk : Held s k i) (hfits : Fits (g.ino i) off n) :
    wp (grow k n (off + n)) E (fun _ s'' => ∃ g'', Wrote k i src off n s g s'' g'') s' := by
  have hk' := h.held hk
  obtain ⟨hi, htype, hcopy⟩ := hk'.facts h.store.cache
  obtain ⟨addrs, haddrs⟩ := h.fields
  have hsize : (g'.ino i).size = (g.ino i).size := by rw [haddrs]
  obtain ⟨hstart, hmax⟩ := hfits
  have hfits : Fits (g.ino i) off n := ⟨hstart, hmax⟩
  unfold grow
  refine wp_bind (wp_get ?_)
  rw [hcopy, hsize]
  refine wp_ite (fun hgrow => ?_) fun hgrow => ?_
  · -- the size is set, and the inode is written back
    have hword : (BitVec.ofNat 32 (off + n)).toNat = off + n := by
      rw [BitVec.toNat_ofNat, Nat.mod_eq_of_lt]
      unfold maxfile bsize at hmax
      omega
    obtain ⟨d, hd⟩ : ∃ d, d = { g'.ino i with size := BitVec.ofNat 32 (off + n) } := ⟨_, rfl⟩
    have hdtype : d.type = (g'.ino i).type := by rw [hd]
    have hdaddrs : d.addrs = (g'.ino i).addrs := by rw [hd]
    refine wp_bind (wp_setCopy ?_)
    rw [hcopy, ← hd]
    have hstore₁ : Store { s' with
        icache := update s'.icache k { s'.icache k with d := d } }
        { g' with ino := update g'.ino i d } :=
      h.store.setCopy hk' hdtype hdaddrs rfl rfl
    have hk₁ : Held { s' with
        icache := update s'.icache k { s'.icache k with d := d } } k i :=
      (held_iff_of_copy (s := s') rfl k i).mpr hk'
    obtain ⟨-, -, hcopy₁⟩ := hk₁.facts hstore₁.cache
    obtain ⟨-, hlt⟩ := iblock_range hi
    refine wp_iupdate_eq (by rw [hk₁.inum]; exact hi) ?_
    rw [hk₁.inum, hcopy₁]
    refine ⟨_, h.wrote hstore hk hfits (by rw [hd]) ?_ (hstore₁.writeBack hk₁ rfl rfl) ?_ rfl ?_
      (.inl ?_) rfl ?_⟩
    · rw [hd, hword]
      omega
    · intro b hb
      apply update_of_ne
      unfold nmeta at hb
      unfold bmapstart at hlt
      omega
    · intro j _ hji
      simp only [dinode_write, if_neg hji]
    · simp only [dinode_write, update_self, if_true]
    · intro x
      rw [List.mem_singleton]
      omega
  · have hle : off + n ≤ (g.ino i).size.toNat := by omega
    have hsame : update g'.ino i (g'.ino i) = g'.ino := update_eq_self i g'.ino
    have hstore' : Store s' { g' with ino := update g'.ino i (g'.ino i) } := by
      rw [hsame]
      exact h.store
    refine wp_pure ⟨_, h.wrote hstore hk hfits (d := g'.ino i) rfl ?_ hstore' (fun _ _ => rfl) ?_
      (fun _ _ _ => rfl) (.inr ⟨hle, rfl, rfl⟩) (l := []) ?_ ?_⟩
    · rw [hsize]
      omega
    · rw [← hcopy]
      exact (update_eq_self k s'.icache).symm
    · rw [append_nil]
    · intro x
      simp only [not_mem_nil, false_iff]
      omega

/-- Writing keeps a representation without holes. -/
theorem Wrote.rep (h : Wrote k i src off n s g s' g') (hrep : Rep s g none none) (hk : Held s k i)
    (hfits : Fits (g.ino i) off n) : Rep s' g' none none := by
  obtain ⟨hi, htype, -⟩ := hk.facts hrep.cache
  obtain ⟨hstart, hmax⟩ := hfits
  refine ⟨⟨h.store.owned, ?_⟩, ?_, h.store.cache⟩
  · intro j hj hjtype _ m hm hlt
    by_cases hji : j = i
    · subst j
      rw [h.size] at hlt
      by_cases ht : Touched off (off + n) m
      · exact h.touched m hm ht
      · have hold : m * bsize < (g.ino i).size.toNat := by
          unfold Touched bsize at *
          omega
        have hfull := hrep.blocks.full i hi htype nofun m hm hold
        rwa [h.kept m (by omega) hfull]
    · rw [h.other j hji] at hjtype hlt ⊢
      have hptr : ptr s'.disk (g.ino j) m = ptr s.disk (g.ino j) m := by
        refine ptr_congr (fun hne => ?_) m
        exact h.foreign _ _ _ ((hrep.blocks.owns j hj hjtype nofun).indirect hne) hji
      rw [hptr]
      exact hrep.blocks.full j hj hjtype nofun m hm hlt
  · intro j hj _
    by_cases hji : j = i
    · subst j
      obtain hback | ⟨hle, hsame, hstill⟩ := h.back
      · exact hback
      · rw [hsame, hrep.synced i hi nofun, hstill]
        intro m ht
        have hm : m < maxfile := by
          unfold Touched maxfile bsize at *
          omega
        refine hrep.blocks.full i hi htype nofun m hm ?_
        unfold Touched at ht
        omega
    · rw [h.inodes j hj hji, h.other j hji]
      exact hrep.synced j hj nofun

end

theorem Store.wp_writei (h : Store s g) (hk : Held s k i)
    {src : ℕ → BitVec 8} (hoff : off < 2 ^ 32) (hn : n < 2 ^ 32)
    (hE : E .outOfBlocks ∨ missing s.disk (g.ino i) (rangePos off n) ≤ freeBlocks s.disk) :
    wp (writei k src off n) E (fun r s' =>
      (Fits (g.ino i) off n ∧ r = n ∧ ∃ g', Wrote k i src off n s g s' g') ∨
      (¬ Fits (g.ino i) off n ∧ r = -1 ∧ s' = s)) s := by
  obtain ⟨-, -, hcopy⟩ := hk.facts h.cache
  unfold writei
  refine wp_bind (wp_get ?_)
  rw [hcopy]
  refine wp_ite (fun hout => ?_) fun hin => wp_ite (fun hout => ?_) fun hmax => ?_
  · refine wp_pure (.inr ⟨?_, rfl, rfl⟩)
    unfold Fits maxfile bsize
    omega
  · refine wp_pure (.inr ⟨?_, rfl, rfl⟩)
    unfold Fits
    omega
  · have hfits : Fits (g.ino i) off n := by
      unfold Fits
      omega
    have hstart : Writing k i src off s g off s g := Writing.start h hk off
    have hloop := wp_writeLoop hk (Nat.le_refl n) hstart hE (Nat.le_refl off) (.inr (.inl rfl))
      hfits.2
    rw [Nat.sub_self] at hloop
    refine wp_seq hloop ?_
    rintro - s' ⟨g', hwriting⟩
    refine wp_seq (hwriting.wp_grow h hk hfits) ?_
    rintro - s'' ⟨g'', hwrote⟩
    exact wp_pure (.inl ⟨hfits, rfl, g'', hwrote⟩)

theorem wp_writei (h : Rep s g none none) (hk : Held s k i)
    {src : ℕ → BitVec 8} (hoff : off < 2 ^ 32) (hn : n < 2 ^ 32)
    (hE : E .outOfBlocks ∨ missing s.disk (g.ino i) (rangePos off n) ≤ freeBlocks s.disk) :
    wp (writei k src off n) E (fun r s' =>
      (Fits (g.ino i) off n ∧ r = n ∧ ∃ g', Wrote k i src off n s g s' g' ∧ Rep s' g' none none) ∨
      (¬ Fits (g.ino i) off n ∧ r = -1 ∧ s' = s)) s := by
  refine wp_mono ((h.store nofun).wp_writei hk hoff hn hE) ?_
  rintro r s' (⟨hfits, hr, g', hwrote⟩ | hrefused)
  · exact .inl ⟨hfits, hr, g', hwrote, hwrote.rep h hk hfits⟩
  · exact .inr hrefused

end Xv6Draw.Fs
