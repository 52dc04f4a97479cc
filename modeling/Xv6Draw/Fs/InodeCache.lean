import Xv6Draw.Fs.ReadWrite

/-!
# The inode cache

Getting, locking and putting inodes on a state that represents a volume. An inode that
is not in the cache gets an entry whose copy is not read yet, and `ilock` reads it. The
last `iput` of an inode without links frees its blocks one after another and then the
inode. Every block that `bfree` gets has its bit set, since it has an owner.
-/

namespace Xv6Draw.Fs

open Function Hoare LittleEndian Option

variable {E : Panic → Prop} {s : State} {g : Ghost}

/-! ### Entries -/

variable {k : Fin ninode}

/-- An entry of the cache is replaced. -/
theorem Cache.set {icache : Fin ninode → Inode} {ino : ℕ → Dinode} (h : Cache icache ino) {e : Inode}
    (hunique : 0 < e.ref → ∀ j, j ≠ k → 0 < (icache j).ref → (icache j).inum ≠ e.inum)
    (hrange : 0 < e.ref → e.inum < ninodes) (hcopy : 0 < e.ref → e.valid = true → e.d = ino e.inum)
    (hlive : 0 < e.ref → e.valid = true → e.d.type ≠ 0) :
    Cache (update icache k e) ino := by
  refine ⟨?_, ?_, ?_, ?_⟩
  · rw [forall_update_iff icache fun j a => ∀ l, 0 < a.ref → 0 < (update icache k e l).ref →
      a.inum = (update icache k e l).inum → j = l]
    refine ⟨?_, fun j hj => ?_⟩
    · rw [forall_update_iff icache fun l a => 0 < e.ref → 0 < a.ref → e.inum = a.inum → k = l]
      exact ⟨fun _ _ _ => rfl, fun l hl href hrefl heq => absurd heq.symm (hunique href l hl hrefl)⟩
    · rw [forall_update_iff icache fun l a =>
        0 < (icache j).ref → 0 < a.ref → (icache j).inum = a.inum → j = l]
      exact ⟨fun hrefj href heq => absurd heq (hunique href j hj hrefj), fun l _ => h.unique j l⟩
  · rw [forall_update_iff icache fun _ a => 0 < a.ref → a.inum < ninodes]
    exact ⟨hrange, fun j _ => h.range j⟩
  · rw [forall_update_iff icache fun _ a => 0 < a.ref → a.valid = true → a.d = ino a.inum]
    exact ⟨hcopy, fun j _ => h.copy j⟩
  · rw [forall_update_iff icache fun _ a => 0 < a.ref → a.valid = true → a.d.type ≠ 0]
    exact ⟨hlive, fun j _ => h.live j⟩

/-- An entry in use is replaced by one for the same inode. -/
theorem Cache.set_same {icache : Fin ninode → Inode} {ino : ℕ → Dinode} (h : Cache icache ino)
    {e : Inode} (href : 0 < (icache k).ref) (hinum : e.inum = (icache k).inum)
    (hcopy : 0 < e.ref → e.valid = true → e.d = ino e.inum)
    (hlive : 0 < e.ref → e.valid = true → e.d.type ≠ 0) :
    Cache (update icache k e) ino := by
  refine h.set ?_ ?_ hcopy hlive
  · intro _ j hj hrefj heq
    exact hj (h.unique j k hrefj href (heq.trans hinum))
  · intro _
    rw [hinum]
    exact h.range k href

/-- A state with another entry of the cache. -/
def State.setEntry (s : State) (k : Fin ninode) (e : Inode) : State :=
  { s with icache := update s.icache k e }

@[simp] theorem State.setEntry_icache (s : State) (k : Fin ninode) (e : Inode) :
    (s.setEntry k e).icache = update s.icache k e := rfl

/-- All panics but that of `bfree` are allowed. -/
abbrev MayPanic (E : Panic → Prop) : Prop := ∀ e, e ≠ .freeingFreeBlock → E e

theorem wp_throw_or {α : Type} {P : Prop} {Q : α → State → Prop} {e : Panic}
    (hE : MayPanic E ∨ P) (hP : ¬ P) (he : e ≠ .freeingFreeBlock := by nofun) :
    wp (throw e : FsM α) E Q s :=
  wp_throw (hE.resolve_right hP e he)

/-- `ilock` reads the inode. -/
theorem wp_ilock (hE : MayPanic E ∨ (0 < (s.icache k).ref ∧ (s.icache k).locked = false ∧
      (g.ino (s.icache k).inum).type ≠ 0)) (h : Rep s g none none) {Q : Unit → State → Prop}
    (hQ : ∀ e : Inode, e = ⟨(s.icache k).inum, (s.icache k).ref, true, true, g.ino (s.icache k).inum⟩ →
      0 < e.ref → (s.icache k).locked = false → e.d.type ≠ 0 → Rep (s.setEntry k e) g none none →
      Q () (s.setEntry k e)) :
    wp (ilock k) E Q s := by
  unfold ilock
  refine wp_bind (wp_get ?_)
  refine wp_ite (fun hunused => wp_throw_or hE fun hk => absurd hk.1 (by omega)) fun href => ?_
  refine wp_ite (fun hlocked => wp_throw_or hE fun hk => ?_) fun hlocked => ?_
  · rw [hk.2.1] at hlocked
    exact nomatch hlocked
  have hpos : 0 < (s.icache k).ref := by omega
  have hdone : (g.ino (s.icache k).inum).type ≠ 0 →
      Q () (s.setEntry k ⟨(s.icache k).inum, (s.icache k).ref, true, true, g.ino (s.icache k).inum⟩) := by
    intro htype
    refine hQ _ rfl hpos (Bool.eq_false_of_not_eq_true hlocked) htype ⟨h.blocks, h.synced, ?_⟩
    exact h.cache.set_same hpos rfl (fun _ _ => rfl) fun _ _ => htype
  refine wp_ite (fun hvalid => ?_) fun _ => ?_
  · have hcopy := h.cache.copy k hpos hvalid
    have htype := h.cache.live k hpos hvalid
    refine wp_setInode ?_
    rw [hvalid, hcopy]
    rw [hcopy] at htype
    exact hdone htype
  · have hrange := h.cache.range k hpos
    obtain ⟨-, hlt⟩ := iblock_range hrange
    have hread : readDinode (s.disk (iblock (s.icache k).inum)) ((s.icache k).inum % ipb) =
        g.ino (s.icache k).inum :=
      h.synced _ hrange nofun
    refine wp_bind (wp_bread (by unfold bmapstart at hlt; unfold fsSize; omega) ?_)
    refine wp_bind (wp_setInode ?_)
    rw [hread]
    refine wp_ite (fun hfree => wp_throw_or hE fun hk => hk.2.2 hfree) fun htype => wp_pure ?_
    exact hdone htype

theorem wp_iunlock (hE : MayPanic E ∨ ((s.icache k).locked = true ∧ 0 < (s.icache k).ref))
    {ahead dying : Option ℕ} (h : Rep s g ahead dying) {Q : Unit → State → Prop}
    (hQ : Rep (s.setEntry k { s.icache k with locked := false }) g ahead dying →
      Q () (s.setEntry k { s.icache k with locked := false })) :
    wp (iunlock k) E Q s := by
  unfold iunlock
  refine wp_bind (wp_get ?_)
  refine wp_ite (fun hnot => wp_throw_or hE fun hk => ?_) fun hheld => wp_setInode ?_
  · rw [hk.1] at hnot
    exact hnot.elim nofun (by omega)
  have hpos : 0 < (s.icache k).ref := by omega
  exact hQ ⟨h.blocks, h.synced, h.cache.set_same hpos rfl (h.cache.copy k) (h.cache.live k)⟩

/-! ### `itrunc` -/

/-- Owners, without the positions of an inode below a bound. -/
def freed (owner : ℕ → Option (ℕ × ℕ)) (i t : ℕ) : ℕ → Option (ℕ × ℕ) := fun b =>
  match owner b with
  | some (j, n) => if j = i ∧ n < t then none else some (j, n)
  | none => none

/-- The owners that are left. -/
theorem freed_eq_some {owner : ℕ → Option (ℕ × ℕ)} {i t b j n : ℕ} :
    freed owner i t b = some (j, n) ↔ owner b = some (j, n) ∧ ¬ (j = i ∧ n < t) := by
  unfold freed
  cases howner : owner b with
  | none => simp
  | some p =>
    obtain ⟨j', n'⟩ := p
    simp only
    split_ifs with hp
    · simp only [false_iff, some.injEq, Prod.mk.injEq]
      rintro ⟨⟨rfl, rfl⟩, hnot⟩
      exact hnot hp
    · simp only [some.injEq, Prod.mk.injEq]
      constructor
      · rintro ⟨rfl, rfl⟩
        exact ⟨⟨rfl, rfl⟩, hp⟩
      · exact fun h => h.1

/-- An inode without its first blocks. -/
def cleared (d : Dinode) (m : ℕ) : Dinode := { d with addrs := fun j => if j < m then 0 else d.addrs j }

theorem addr_cleared (d : Dinode) (m n : ℕ) : (cleared d m).addr n = if n < m then 0 else d.addr n := by
  unfold Dinode.addr cleared
  by_cases hn : n < ndirect + 1
  · simp only [dif_pos hn]
    split_ifs <;> rfl
  · simp only [dif_neg hn, ite_self]

/-- A block that is not there need not be cleared. -/
theorem cleared_succ_of_eq_zero {d : Dinode} {m : ℕ} (h : d.addr m = 0) :
    cleared d (m + 1) = cleared d m := by
  refine Dinode.ext_addr rfl rfl rfl rfl rfl ?_
  intro n _
  rw [addr_cleared, addr_cleared]
  by_cases hn : n = m
  · rw [if_pos (by omega), if_neg (by omega), hn, h]
  · split_ifs <;> omega

theorem setAddr_cleared (d : Dinode) {m : ℕ} (hm : m ≤ ndirect) :
    (cleared d m).setAddr m 0 = cleared d (m + 1) := by
  refine Dinode.ext_addr rfl rfl rfl rfl rfl ?_
  intro n _
  rw [Dinode.addr_setAddr _ hm (by omega), addr_cleared, addr_cleared]
  split_ifs <;> omega

/-- `itrunc` of an inode has come to a position. -/
structure Truncating (k : Fin ninode) (i t : ℕ) (s₀ : State) (g : Ghost) (s : State) (d : Dinode) :
    Prop where
  /-- The blocks below the position are free. -/
  blocks : Blocks s.disk { g with owner := freed g.owner i t } (some i)
  data : ∀ b, b ≠ bmapstart → s.disk b = s₀.disk b
  /-- The cache differs in the copy of the inode. -/
  cache : s.icache = update s₀.icache k { s₀.icache k with d := d }

section

variable {k : Fin ninode} {i t : ℕ} {s₀ : State} {d : Dinode}

/-- Positions without a block are passed. -/
theorem Truncating.skip (h : Truncating k i t s₀ g s d) (hrep : Rep s₀ g none none) {u : ℕ}
    (hle : t ≤ u) (hzero : ∀ n, t ≤ n → n < u → ptr s₀.disk (g.ino i) n = 0) :
    Truncating k i u s₀ g s d := by
  have hsame : freed g.owner i u = freed g.owner i t := by
    funext b
    apply Option.ext
    rintro ⟨j, n⟩
    rw [freed_eq_some, freed_eq_some]
    refine and_congr_right fun howner => ?_
    have hne : ¬ (j = i ∧ t ≤ n ∧ n < u) := by
      rintro ⟨rfl, hlow, hhigh⟩
      obtain ⟨-, -, -, hptr, hmeta, -⟩ := hrep.blocks.sound _ _ _ howner
      rw [hzero n hlow hhigh] at hptr
      unfold nmeta at hmeta
      omega
    omega
  exact ⟨by rw [hsame]; exact h.blocks, h.data, h.cache⟩

variable {Q : Unit → State → Prop} {icache : Fin ninode → Inode}

/-- The block at the position is freed. -/
theorem Truncating.wp_bfree (h : Truncating k i t s₀ g s d) (hrep : Rep s₀ g none none)
    (hi : i < ninodes) (htype : (g.ino i).type ≠ 0) (ht : t ≤ maxfile)
    (hne : ptr s₀.disk (g.ino i) t ≠ 0) (hQ : ∀ s', Truncating k i (t + 1) s₀ g s' d → Q () s') :
    wp (bfree (ptr s₀.disk (g.ino i) t)) E Q s := by
  have howner := hrep.blocks.owns i hi htype nofun t ht hne
  obtain ⟨-, -, -, -, -, hb⟩ := hrep.blocks.sound _ _ _ howner
  have hleft : freed g.owner i t (ptr s₀.disk (g.ino i) t) = some (i, t) := by
    rw [freed_eq_some]
    exact ⟨howner, by omega⟩
  have hbit : bit s.disk (ptr s₀.disk (g.ino i) t) = true := by
    rw [h.blocks.bits _ hb]
    simp [hleft]
  have hmap := bblock_eq hb
  unfold bfree
  refine wp_bind (wp_bread (by rw [hmap]; decide) ?_)
  rw [if_neg (by simpa [bit] using hbit)]
  refine wp_logWrite (hQ _ ⟨?_, ?_, h.cache⟩)
  · have hfree := h.blocks.bfree hleft
    have hsame : update (freed g.owner i t) (ptr s₀.disk (g.ino i) t) none =
        freed g.owner i (t + 1) := by
      funext b
      by_cases hb : b = ptr s₀.disk (g.ino i) t
      · rw [hb, update_self]
        symm
        rw [Option.eq_none_iff_forall_ne_some]
        rintro ⟨j, n⟩ hsome
        rw [freed_eq_some, howner, some.injEq, Prod.mk.injEq] at hsome
        omega
      · rw [update_of_ne hb]
        apply Option.ext
        rintro ⟨j, n⟩
        rw [freed_eq_some, freed_eq_some]
        refine and_congr_right fun hother => ?_
        have hne : ¬ (j = i ∧ n = t) := by
          rintro ⟨rfl, rfl⟩
          obtain ⟨-, -, -, hptr, -⟩ := hrep.blocks.sound _ _ _ hother
          exact hb hptr.symm
        omega
    simp only [hsame] at hfree
    exact hfree
  · intro b hb
    simp only [hmap, update_of_ne hb]
    exact h.data b hb

theorem Truncating.wp_setCopy (h : Truncating k i t s₀ g s d) {f : Dinode → Dinode}
    (hQ : ∀ s', Truncating k i t s₀ g s' (f d) → Q () s') :
    wp (setCopy k f) E Q s := by
  refine Fs.wp_setCopy (hQ _ ⟨h.blocks, h.data, ?_⟩)
  rw [h.cache]
  simp

theorem Truncating.copy (h : Truncating k i t s₀ g s d) : (s.icache k).d = d := by
  rw [h.cache, update_self]

/-- The loop of `itrunc` over the direct blocks. -/
theorem wp_truncDirects (h : Rep s g none none) (hk : Held s k i) :
    wp ((List.range ndirect).forM (truncDirect k)) E
      (fun _ s' => Truncating k i ndirect s g s' (cleared (g.ino i) ndirect)) s := by
  obtain ⟨hi, htype, hcopy⟩ := hk.facts h.cache
  have hstart : Truncating k i 0 s g s (cleared (g.ino i) 0) := by
    have hnone : freed g.owner i 0 = g.owner := by
      funext b
      apply Option.ext
      rintro ⟨j, n⟩
      rw [freed_eq_some]
      simp
    have hfull : cleared (g.ino i) 0 = g.ino i := by
      refine Dinode.ext_addr rfl rfl rfl rfl rfl ?_
      intro n _
      rw [addr_cleared, if_neg (by omega)]
    refine ⟨?_, fun _ _ => rfl, ?_⟩
    · rw [hnone]
      exact ⟨⟨h.blocks.sound, fun j hj hlive _ => h.blocks.owns j hj hlive nofun,
        h.blocks.indirect, h.blocks.bits⟩, fun j hj hlive _ => h.blocks.full j hj hlive nofun⟩
    · rw [hfull, ← hcopy]
      exact (update_eq_self k s.icache).symm
  refine wp_forM_range (I := fun m t => Truncating k i m s g t (cleared (g.ino i) m)) ?_ hstart
  intro m hm t ht
  have hptr : ptr s.disk (g.ino i) m = (g.ino i).addr m := by
    rw [ptr, if_pos hm]
  have haddr : (cleared (g.ino i) m).addr m = (g.ino i).addr m := by
    rw [addr_cleared, if_neg (Nat.lt_irrefl m)]
  unfold truncDirect
  refine wp_bind (wp_get ?_)
  rw [ht.copy, haddr]
  refine wp_ite (fun hzero => wp_pure ?_) fun hne => ?_
  · rw [cleared_succ_of_eq_zero hzero]
    refine ht.skip h (Nat.le_succ m) fun n hlow hhigh => ?_
    obtain rfl : n = m := by omega
    rw [hptr, hzero]
  · rw [← hptr] at hne ⊢
    have hle : m ≤ maxfile := by
      unfold ndirect at hm
      unfold maxfile
      omega
    refine wp_bind (ht.wp_bfree h hi htype hle hne fun t' ht' => ?_)
    refine ht'.wp_setCopy fun t'' ht'' => ?_
    rw [setAddr_cleared _ (by omega)] at ht''
    exact ht''

/-- `itrunc` for the indirect block. -/
theorem wp_truncRest (hrep : Rep s₀ g none none) (hk : Held s₀ k i)
    (h : Truncating k i ndirect s₀ g s (cleared (g.ino i) ndirect)) : wp (truncRest k) E
      (fun _ s' => Truncating k i (maxfile + 1) s₀ g s' (cleared (g.ino i) (ndirect + 1))) s := by
  obtain ⟨hi, htype, -⟩ := hk.facts hrep.cache
  have haddr : (cleared (g.ino i) ndirect).addr ndirect = (g.ino i).addr ndirect := by
    rw [addr_cleared, if_neg (Nat.lt_irrefl _)]
  unfold truncRest
  refine wp_bind (wp_get ?_)
  rw [h.copy, haddr]
  refine wp_ite (fun hzero => wp_pure ?_) fun hne => ?_
  · rw [cleared_succ_of_eq_zero hzero]
    exact h.skip hrep (by decide) fun n hlow _ => ptr_eq_zero_of_addr hzero hlow
  · have howner := (hrep.blocks.owns i hi htype nofun).indirect hne
    obtain ⟨-, -, -, -, hlow, hlt⟩ := hrep.blocks.sound _ _ _ howner
    have hblock : s.disk ((g.ino i).addr ndirect) = s₀.disk ((g.ino i).addr ndirect) := by
      apply h.data
      unfold nmeta at hlow
      unfold bmapstart
      omega
    refine wp_bind (wp_bread hlt ?_)
    rw [hblock]
    refine wp_bind (wp_mono (wp_forM_range
      (I := fun m t => Truncating k i (ndirect + m) s₀ g t (cleared (g.ino i) ndirect)) ?_ h) ?_)
    · intro m hm t ht
      have hptr : ptr s₀.disk (g.ino i) (ndirect + m) =
          load (s₀.disk ((g.ino i).addr ndirect)) (4 * m) 4 := by
        rw [ptr_indirect _ _ (by omega) (by unfold ndirect nindirect maxfile at *; omega) hne,
          Nat.add_sub_cancel_left]
      unfold truncIndirect
      rw [← hptr]
      refine wp_ite (fun hzero => wp_pure ?_) fun hpos => ?_
      · refine ht.skip hrep (by omega) fun n hn hn' => ?_
        obtain rfl : n = ndirect + m := by omega
        exact hzero
      · exact ht.wp_bfree hrep hi htype (by unfold ndirect nindirect maxfile at *; omega) hpos
          fun t' ht' => ht'
    · intro _ t ht
      refine wp_bind (ht.wp_bfree hrep hi htype (Nat.le_refl _) hne fun t' ht' => ?_)
      refine ht'.wp_setCopy fun t'' ht'' => ?_
      rw [setAddr_cleared _ (Nat.le_refl _)] at ht''
      exact ht''

/-! ### `iput` -/

/-- An entry is given up, and its inode changes. -/
theorem Cache.drop {ino : ℕ → Dinode} (h : Cache icache ino)
    (href : 0 < (icache k).ref) {e : Inode} (hinum : e.inum = (icache k).inum) (hvalid : e.valid = false)
    (d : Dinode) :
    Cache (update icache k e) (update ino (icache k).inum d) := by
  have hset := h.set_same href hinum (e := e) (by simp [hvalid]) (by simp [hvalid])
  refine ⟨hset.unique, hset.range, ?_, hset.live⟩
  intro j hrefj hvalidj
  have hjk : j ≠ k := by
    rintro rfl
    rw [update_self, hvalid] at hvalidj
    contradiction
  rw [hset.copy j hrefj hvalidj]
  rw [update_of_ne hjk] at hrefj ⊢
  rw [update_of_ne fun heq => hjk (h.unique j k hrefj href heq)]

/-- An inode that `iput` has freed. -/
structure Freed (k : Fin ninode) (s : State) (g : Ghost) (s' : State) (g' : Ghost) : Prop where
  blocks : Blocks s'.disk g' none
  synced : Synced s'.disk g'.ino none
  ino : ∃ d, g'.ino = update g.ino (s.icache k).inum d
  /-- The inode is free, and the other files are the same. -/
  vol : vol s'.disk g' = update (vol s.disk g) (s.icache k).inum none
  cache : ∃ d, s'.icache = update s.icache k { s.icache k with d := d, valid := false }

/-- The inode is freed behind the last of its blocks. -/
theorem Truncating.freed (h : Truncating k i (maxfile + 1) s₀ g s d) (hrep : Rep s₀ g none none)
    (hk : Held s₀ k i) {s' : State} {e : Dinode} (htype : e.type = 0)
    (hdisk : ∀ b, b ≠ iblock i → s'.disk b = s.disk b)
    (hinodes : ∀ j, dinode s'.disk j = if j = i then e else dinode s.disk j)
    (hcache : ∃ c, s'.icache = update s₀.icache k { s₀.icache k with d := c, valid := false }) :
    Freed k s₀ g s' ⟨update g.ino i e, freed g.owner i (maxfile + 1)⟩ := by
  obtain ⟨hi, -, -⟩ := hk.facts hrep.cache
  obtain ⟨-, hlt⟩ := iblock_range hi
  have hmeta : ∀ b, nmeta ≤ b → s'.disk b = s.disk b := by
    intro b hb
    apply hdisk
    unfold nmeta at hb
    unfold bmapstart at hlt
    omega
  have hdata : ∀ b, nmeta ≤ b → s'.disk b = s₀.disk b := by
    intro b hb
    rw [hmeta b hb]
    apply h.data
    unfold nmeta at hb
    unfold bmapstart
    omega
  have hblocks : Blocks s'.disk { g with owner := Fs.freed g.owner i (maxfile + 1) } (some i) := by
    apply h.blocks.of_ptr
    · intro j hj hlive
      exact h.blocks.ptr_congr hj hlive (hmeta _)
    · intro b hb
      rw [bit_eq _ hb, bit_eq _ hb, hdisk]
      omega
  refine ⟨?_, ?_, ⟨e, by rw [hk.inum]⟩, ?_, hcache⟩
  · refine hblocks.setIno (fun j hj => (some.inj hj).symm) ?_ (absurd htype) (absurd htype)
    intro b n howner
    obtain ⟨hold, hnot⟩ := freed_eq_some.mp howner
    obtain ⟨-, -, hn, -⟩ := hrep.blocks.sound _ _ _ hold
    omega
  · intro j hj _
    rw [hinodes]
    by_cases hji : j = i
    · simp [hji]
    · simp only [if_neg hji, update_of_ne hji]
      rw [← hrep.synced j hj nofun]
      have hblock : s.disk (iblock j) = s₀.disk (iblock j) := by
        apply h.data
        have hrange := iblock_range hj
        omega
      rw [dinode, dinode, hblock]
  · rw [hk.inum]
    funext j
    by_cases hji : j = i
    · simp [Fs.vol, node, hji, htype]
    · rw [update_of_ne hji, Fs.vol, Fs.vol]
      split_ifs with hj
      · simp only [update_of_ne hji]
        apply hrep.blocks.node_congr hj nofun
        intro b l n howner _
        obtain ⟨-, -, -, -, hlow, -⟩ := hrep.blocks.sound _ _ _ howner
        exact hdata b hlow
      · rfl

/-- `iput` frees an inode. -/
theorem wp_ifree (h : Rep s g none none) (hk : Held s k i) :
    wp (ifree k) E (fun _ s' => ∃ g', Freed k s g s' g') s := by
  obtain ⟨hi, htype, hcopy⟩ := hk.facts h.cache
  unfold ifree itrunc
  refine wp_bind (wp_bind (wp_mono (wp_truncDirects h hk) fun _ s₁ h₁ => ?_))
  refine wp_bind (wp_mono (wp_truncRest h hk h₁) fun _ s₂ h₂ => ?_)
  refine wp_bind (h₂.wp_setCopy fun s₃ h₃ => ?_)
  have hinum : (s₃.icache k).inum = i := by
    rw [h₃.cache, update_self]
    exact hk.inum
  refine wp_iupdate_eq (by rwa [hinum]) (wp_bind (wp_setCopy ?_))
  refine wp_bind (wp_iupdate_eq (by simpa [hinum] using hi) (wp_setInode ?_))
  simp only [update_self, hinum, h₃.copy]
  refine ⟨_, h₃.freed h hk (e := { cleared (g.ino i) (ndirect + 1) with size := 0, type := 0 }) rfl
    ?_ ?_ ⟨{ cleared (g.ino i) (ndirect + 1) with size := 0, type := 0 }, ?_⟩⟩
  · intro b hb
    simp only [update_of_ne hb]
  · intro j
    have hfirst := dinode_write s₃.disk i j { cleared (g.ino i) (ndirect + 1) with size := 0 }
    have hsecond := dinode_write (update s₃.disk (iblock i) (writeDinode (s₃.disk (iblock i))
      (i % ipb) { cleared (g.ino i) (ndirect + 1) with size := 0 })) i j
      { cleared (g.ino i) (ndirect + 1) with size := 0, type := 0 }
    rw [update_self] at hsecond
    rw [hsecond, hfirst]
    split_ifs <;> rfl
  · rw [h₃.cache]
    simp [hk.inum]

/-- `iput` gives up a reference. The last one to an inode without links frees it. -/
theorem wp_iput (h : Rep s g none none) (href : 0 < (s.icache k).ref)
    (hdrop : ¬ ((s.icache k).ref = 1 ∧ (s.icache k).valid = true ∧ (s.icache k).d.nlink = 0) →
      Rep (s.setEntry k { s.icache k with ref := (s.icache k).ref - 1 }) g none none →
      Q () (s.setEntry k { s.icache k with ref := (s.icache k).ref - 1 }))
    (hfree : (s.icache k).ref = 1 → (s.icache k).valid = true → (s.icache k).d.nlink = 0 →
      ∀ s' g' d, Rep s' g' none none →
        vol s'.disk g' = update (vol s.disk g) (s.icache k).inum none →
        s'.icache = update s.icache k { s.icache k with d := d, valid := false, ref := 0 } →
        Q () s') :
    wp (iput k) E Q s := by
  unfold iput idrop
  refine wp_bind (wp_bind (wp_get ?_))
  refine wp_ite (fun hlast => ?_) fun hnot => wp_pure (wp_setInode (hdrop hnot ⟨h.blocks, h.synced, ?_⟩))
  · obtain ⟨hone, hvalid, hnlink⟩ := hlast
    refine wp_mono (wp_ifree h ⟨href, rfl, hvalid⟩) ?_
    rintro - s' ⟨g', hfreed⟩
    obtain ⟨d, hcache⟩ := hfreed.cache
    obtain ⟨e, hino⟩ := hfreed.ino
    refine wp_setInode (hfree hone hvalid hnlink _ g' d ⟨hfreed.blocks, hfreed.synced, ?_⟩ hfreed.vol ?_)
    · simp only [hcache, hino, update_self, update_idem]
      refine h.cache.drop href ?_ ?_ e <;> rfl
    · simp only [hcache, update_self, update_idem, hone]
  · refine h.cache.set_same href rfl ?_ ?_
    · intro _ hvalid
      exact h.cache.copy k href hvalid
    · intro _ hvalid
      exact h.cache.live k href hvalid

/-! ### `iget`, `idup` and `ialloc` -/

theorem cachedEntry_eq_some (h : cachedEntry icache i = some k) :
    0 < (icache k).ref ∧ (icache k).inum = i := by
  have hfound := List.find?_some h
  simpa using hfound

theorem cachedEntry_eq_none (h : cachedEntry icache i = none)
    (j : Fin ninode) (href : 0 < (icache j).ref) : (icache j).inum ≠ i := by
  unfold cachedEntry at h
  rw [List.find?_eq_none] at h
  have hj := h j (List.mem_finRange j)
  simpa [href] using hj

theorem emptyEntry_eq_some (h : emptyEntry icache = some k) :
    (icache k).ref = 0 := by
  have hfound := List.find?_some h
  simpa using hfound

/-- `iget` finds the entry of the inode or takes an empty one. -/
theorem wp_iget (hE : MayPanic E ∨
      ∃ k, (s.icache k).ref = 0 ∨ (0 < (s.icache k).ref ∧ (s.icache k).inum = i))
    (h : Rep s g none none) (hi : i < ninodes) {Q : Fin ninode → State → Prop}
    (hhit : ∀ k, 0 < (s.icache k).ref → (s.icache k).inum = i →
      Rep (s.setEntry k { s.icache k with ref := (s.icache k).ref + 1 }) g none none →
      Q k (s.setEntry k { s.icache k with ref := (s.icache k).ref + 1 }))
    (hmiss : ∀ k, (s.icache k).ref = 0 → (∀ j, 0 < (s.icache j).ref → (s.icache j).inum ≠ i) →
      Rep (s.setEntry k { s.icache k with inum := i, ref := 1, valid := false }) g none none →
      Q k (s.setEntry k { s.icache k with inum := i, ref := 1, valid := false })) :
    wp (iget i) E Q s := by
  unfold iget
  refine wp_bind (wp_get ?_)
  cases hcached : cachedEntry s.icache i with
  | some k =>
    obtain ⟨href, hinum⟩ := cachedEntry_eq_some hcached
    refine wp_bind (wp_setInode (wp_pure (hhit k href hinum ⟨h.blocks, h.synced, ?_⟩)))
    exact h.cache.set_same href rfl (fun _ => h.cache.copy k href) fun _ => h.cache.live k href
  | none =>
    have hnone := cachedEntry_eq_none hcached
    cases hempty : emptyEntry s.icache with
    | none =>
      refine wp_throw_or hE ?_
      rintro ⟨k, hunused | ⟨href, hinum⟩⟩
      · exact absurd hunused (by simpa using List.find?_eq_none.mp hempty k (List.mem_finRange k))
      · exact hnone k href hinum
    | some k =>
      refine wp_bind (wp_setInode (wp_pure (hmiss k (emptyEntry_eq_some hempty) hnone
        ⟨h.blocks, h.synced, ?_⟩)))
      exact h.cache.set (fun _ j _ hj => hnone j hj) (fun _ => hi) (by simp) (by simp)

theorem wp_idup (h : Rep s g none none) (href : 0 < (s.icache k).ref) {Q : Fin ninode → State → Prop}
    (hQ : Rep (s.setEntry k { s.icache k with ref := (s.icache k).ref + 1 }) g none none →
      Q k (s.setEntry k { s.icache k with ref := (s.icache k).ref + 1 })) :
    wp (idup k) E Q s := by
  unfold idup
  refine wp_bind (wp_setInode (wp_pure (hQ ⟨h.blocks, h.synced, ?_⟩)))
  exact h.cache.set_same href rfl (fun _ => h.cache.copy k href) fun _ => h.cache.live k href

theorem freeInode_eq_some {disk : ℕ → Block} (h : freeInode disk = some i) :
    0 < i ∧ i < ninodes ∧ (dinode disk i).type = 0 := by
  have hmem := List.mem_of_find?_eq_some h
  have hfound := List.find?_some h
  rw [List.mem_range'_1] at hmem
  exact ⟨by omega, by omega, by simpa using hfound⟩

/-- A new inode. -/
theorem Rep.alloc (h : Rep s g none none) (hi : i < ninodes) (hfree : (g.ino i).type = 0)
    {type : BitVec 16} {t : State} (hdisk : t.disk = update s.disk (iblock i)
      (writeDinode (s.disk (iblock i)) (i % ipb) { Dinode.zero with type := type }))
    (hcache : t.icache = s.icache) :
    Rep t { g with ino := update g.ino i { Dinode.zero with type := type } } none none ∧
      vol t.disk { g with ino := update g.ino i { Dinode.zero with type := type } } =
        update (vol s.disk g) i (node t.disk { Dinode.zero with type := type }) := by
  obtain ⟨-, hlt⟩ := iblock_range hi
  have hptr : ∀ n, ptr t.disk { Dinode.zero with type := type } n = 0 := by
    intro n
    have hsame : ptr t.disk { Dinode.zero with type := type } n = ptr t.disk Dinode.zero n :=
      ptr_of_addrs rfl t.disk n
    rw [hsame]
    simp [ptr]
  have hblocks : Blocks t.disk g none := by
    rw [hdisk]
    exact h.blocks.update_meta hlt _
  have hdata : ∀ b, nmeta ≤ b → t.disk b = s.disk b := by
    intro b hb
    rw [hdisk, update_of_ne]
    unfold nmeta at hb
    unfold bmapstart at hlt
    omega
  refine ⟨⟨?_, ?_, ?_⟩, ?_⟩
  · apply hblocks.setIno (by simp)
    · intro b n howner
      obtain ⟨-, hlive, -⟩ := h.blocks.sound b i n howner
      exact absurd hfree hlive
    · intro _ n _ hne
      exact absurd (hptr n) hne
    · intro _ n _ hsize
      simp [Dinode.zero] at hsize
  · intro j hj _
    rw [hdisk, dinode_write]
    by_cases hji : j = i
    · simp [hji]
    · simp only [if_neg hji, update_of_ne hji]
      exact h.synced j hj (by simp)
  · rw [hcache]
    refine ⟨h.cache.unique, h.cache.range, ?_, h.cache.live⟩
    intro j href hvalid
    have hcopy := h.cache.copy j href hvalid
    have hlive := h.cache.live j href hvalid
    rw [hcopy] at hlive ⊢
    have hne : (s.icache j).inum ≠ i := by
      intro heq
      rw [heq] at hlive
      exact hlive hfree
    simp only [update_of_ne hne]
  · funext j
    by_cases hji : j = i
    · subst j
      simp [vol, hi]
    · rw [update_of_ne hji, vol, vol]
      split_ifs with hj
      · simp only [update_of_ne hji]
        apply h.blocks.node_congr hj (by simp)
        intro b l n howner _
        obtain ⟨-, -, -, -, hlow, -⟩ := h.blocks.sound _ _ _ howner
        exact hdata b hlow
      · rfl

end

end Xv6Draw.Fs
