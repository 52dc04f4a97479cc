import Xv6Draw.Mkfs.Append

/-!
# The files of the image

What `mkfs` has written after some of the files: every inode is on the image with its
type and size, and holds the bytes of its file. The root directory holds its entries.
-/

namespace Xv6Draw.Mkfs

open Fs Function Hoare List LittleEndian

variable {E : Exit → Prop} {st st' : State} {g g' : Ghost} {cs : ℕ → List (BitVec 8)} {j : ℕ}

variable {l b : ℕ} {d : Dinode}

theorem iblock_succ_lt (hl : l < ninodes) : iblock (l + 1) < bmapstart := by
  unfold iblock ipb inodestart bmapstart
  unfold ninodes at hl
  omega

theorem wp_winode (hl : l < ninodes) {Q : Unit → State → Prop}
    (h : Q () { st with
      img := update st.img (iblock (l + 1))
        (writeDinode (st.img (iblock (l + 1))) ((l + 1) % ipb) d) }) :
    wp (winode (l + 1) d) E Q st := by
  have hlt := iblock_succ_lt hl
  unfold winode
  refine wp_bind (wp_rsect ?_ (wp_wsect h))
  unfold bmapstart at hlt
  unfold fsSize
  omega

theorem wp_rinode (hl : l < ninodes) {Q : Dinode → State → Prop}
    (h : Q (dinode st.img (l + 1)) st) : wp (rinode (l + 1)) E Q st := by
  have hlt := iblock_succ_lt hl
  unfold rinode
  refine wp_bind (wp_rsect ?_ (wp_pure h))
  unfold bmapstart at hlt
  unfold fsSize
  omega

theorem Layout.ptr_update_meta (h : Layout st g cs) (hb : b < bmapstart) (buf : Block)
    (hl : l + 1 < st.freeinode) (m : ℕ) :
    ptr (update (image st) b buf) (g.ino l) m = ptr (image st) (g.ino l) m := by
  obtain ⟨hlt, htype⟩ := h.lt hl
  exact h.owned.ptr_update_meta hb buf hlt htype m

/-- Contents do not change when an inode is written. -/
theorem Layout.holds_update_meta (h : Layout st g cs) (hb : b < bmapstart) (buf : Block)
    (hl : l + 1 < st.freeinode) (haddrs : d.addrs = (g.ino l).addrs) :
    Holds (update (image st) b buf) d (cs l) := by
  obtain ⟨hlt, htype⟩ := h.lt hl
  have hptr : ∀ m, ptr (update (image st) b buf) d m = ptr (image st) (g.ino l) m := by
    intro m
    rw [ptr_of_addrs haddrs]
    exact h.ptr_update_meta hb buf hl m
  refine (h.holds l hl).congr (fun m _ => hptr m) ?_
  intro m hm
  unfold blockAt
  rw [hptr]
  split_ifs with hzero
  · rfl
  · obtain ⟨-, -, -, -, hlow, -⟩ := h.owned.sound _ _ _ (h.owned.owns l hlt htype nofun m (by omega) hzero)
    apply update_of_ne
    unfold nmeta at hlow
    unfold bmapstart at hb
    omega

/-- An inode is written with other fields. -/
theorem Layout.setInode (h : Layout st g cs) (hj : j + 1 < st.freeinode)
    (htype : d.type = (g.ino j).type) (haddrs : d.addrs = (g.ino j).addrs)
    (hb : b < bmapstart) (buf : Block) :
    Layout { st with img := update st.img b buf }
      { g with ino := update g.ino j d } cs := by
  obtain ⟨hi, hlive⟩ := h.lt hj
  have himage : image { st with img := update st.img b buf } =
      update (image st) b buf := image_update st (by omega) buf
  have hlow := h.low
  refine ⟨?_, ?_, h.low, h.high, h.count, ?_, ?_⟩
  · rw [himage]
    exact (h.owned.update_meta hb buf).setFields hi hlive htype haddrs
  · intro c hc
    have hcb : c ≠ b := by
      simp only at hc
      unfold nmeta at hlow
      unfold bmapstart at hb
      omega
    simp only [update_of_ne hcb]
    exact h.blank c hc
  · intro l hl
    rw [← h.live l hl]
    by_cases hlj : l = j
    · subst l
      simp only [update_self, htype]
    · simp only [update_of_ne hlj]
  · intro l hl
    rw [himage]
    by_cases hlj : l = j
    · subst l
      simp only [update_self]
      exact h.holds_update_meta hb buf hj haddrs
    · simp only [update_of_ne hlj]
      exact h.holds_update_meta hb buf hl rfl

/-- The image between the calls of `main`: every inode is written. -/
structure Saved (st : State) (g : Ghost) (cs : ℕ → List (BitVec 8)) : Prop extends Layout st g cs where
  inodes : ∀ l < ninodes, dinode st.img (l + 1) = g.ino l
  size : ∀ l, l + 1 < st.freeinode → (g.ino l).size.toNat = (cs l).length
  type : ∀ l, l + 1 < st.freeinode → (g.ino l).type = if l = 0 then tDir else tFile

/-- `iappend`. -/
theorem wp_iappend (h : Saved st g cs) (hj : j + 1 < st.freeinode) {p : List (BitVec 8)}
    (hmax : (cs j).length + p.length ≤ maxfile * bsize)
    (hroom : st.freeblock + blocksOf ((cs j).length + p.length) ≤ fsSize + blocksOf (cs j).length) :
    wp (iappend (j + 1) p) E (fun _ st' => ∃ g', Saved st' g' (update cs j (cs j ++ p)) ∧
      st'.freeinode = st.freeinode ∧
      st'.freeblock + blocksOf (cs j).length ≤ st.freeblock + blocksOf ((cs j).length + p.length)) st := by
  obtain ⟨hi, -⟩ := h.lt hj
  unfold iappend
  refine wp_bind (wp_rinode hi ?_)
  rw [h.inodes j hi, h.size j hj]
  refine wp_seq (wp_appendLoop (Nat.le_refl _) h.toLayout hj hmax hroom) ?_
  rintro - st₁ ⟨g₁, rfl, hlayout, happ, hfree⟩
  obtain ⟨addrs, haddrs⟩ := happ.fields
  have hj₁ : j + 1 < st₁.freeinode := by rwa [happ.freeinode]
  obtain ⟨d, hd⟩ : ∃ d, d = { g₁.ino j with size := BitVec.ofNat 32 ((cs j).length + p.length) } :=
    ⟨_, rfl⟩
  have htype : d.type = (g₁.ino j).type := by rw [hd]
  have haddrs' : d.addrs = (g₁.ino j).addrs := by rw [hd]
  refine wp_winode hi ?_
  rw [← hd]
  refine ⟨_, ⟨hlayout.setInode hj₁ htype haddrs' (iblock_succ_lt hi) _, ?_, ?_, ?_⟩,
    happ.freeinode, hfree⟩
  · intro l hl
    simp only [dinode_write, Nat.add_right_cancel_iff]
    by_cases hlj : l = j
    · rw [if_pos hlj, hlj, update_self]
    · have hsame : dinode st₁.img (l + 1) = dinode st.img (l + 1) := by
        unfold dinode
        rw [happ.metas _ (iblock_succ_lt hl)]
      rw [if_neg hlj, update_of_ne hlj, hsame, h.inodes l hl, happ.other l hlj]
  · intro l hl
    simp only [happ.freeinode] at hl
    by_cases hlj : l = j
    · subst l
      simp only [update_self, hd, BitVec.toNat_ofNat, length_append]
      rw [Nat.mod_eq_of_lt]
      unfold maxfile bsize at hmax
      omega
    · simp only [update_of_ne hlj, happ.other l hlj]
      exact h.size l hl
  · intro l hl
    simp only [happ.freeinode] at hl
    rw [← h.type l hl]
    by_cases hlj : l = j
    · subst l
      simp only [update_self, htype, haddrs]
    · simp only [update_of_ne hlj, happ.other l hlj]

/-- An inode without blocks holds nothing. -/
theorem holds_nil {disk : ℕ → Block} (haddrs : d.addrs = Dinode.zero.addrs) :
    Holds disk d [] := by
  have hptr : ∀ m, ptr disk d m = 0 := by
    intro m
    rw [ptr_of_addrs haddrs, ptr]
    simp
  refine ⟨by simp, ?_, ?_⟩
  · intro m _
    rw [hptr]
    simp
  · intro x _
    rw [byteAt, blockAt, if_pos (hptr _)]
    rfl

theorem wp_ialloc (h : Saved st g cs) (hj : st.freeinode = j + 1) (hlt : j < ninodes)
    {type : BitVec 16} (htype : type = if j = 0 then tDir else tFile) {Q : ℕ → State → Prop}
    (hQ : ∀ st' g', Saved st' g' (update cs j []) → st'.freeinode = j + 2 →
      st'.freeblock = st.freeblock → Q (j + 1) st') : wp (ialloc type) E Q st := by
  have hpos : type ≠ 0 := by
    rw [htype]
    split_ifs <;> decide
  have hb := iblock_succ_lt hlt
  have hdead : ¬ (g.ino j).type ≠ 0 := by
    rw [h.live j hlt]
    omega
  unfold ialloc
  refine wp_bind (wp_get (wp_bind (wp_modify (wp_bind ?_))))
  rw [hj]
  refine wp_winode hlt (wp_pure ?_)
  obtain ⟨d, hd⟩ : ∃ d, d = { Dinode.zero with type := type, nlink := 1 } := ⟨_, rfl⟩
  rw [← hd]
  obtain ⟨buf, hbuf⟩ : ∃ buf, buf = writeDinode (st.img (iblock (j + 1))) ((j + 1) % ipb) d := ⟨_, rfl⟩
  have hdtype : d.type = type := by rw [hd]
  have hzero : d.addrs = Dinode.zero.addrs := by rw [hd]
  have himage : image ⟨update st.img (iblock (j + 1)) buf, j + 1 + 1, st.freeblock⟩ =
      update (image st) (iblock (j + 1)) buf := by
    unfold image
    rw [update_comm (by omega)]
  have hlow := h.low
  change Q (j + 1) ⟨update st.img (iblock (j + 1))
    (writeDinode (st.img (iblock (j + 1))) ((j + 1) % ipb) d), j + 1 + 1, st.freeblock⟩
  rw [← hbuf]
  refine hQ _ { g with ino := update g.ino j d } ⟨⟨?_, ?_, h.low, h.high, ?_, ?_, ?_⟩, ?_, ?_, ?_⟩
    rfl rfl
  · rw [himage]
    refine (h.owned.update_meta hb buf).setIno nofun ?_ ?_
    · intro b n howner
      obtain ⟨-, hlive, -⟩ := h.owned.sound b j n howner
      exact absurd hlive hdead
    · intro _ n _ hne
      rw [ptr_of_addrs hzero, ptr] at hne
      simp at hne
  · intro b hb'
    simp only at hb' ⊢
    rw [update_of_ne, h.blank b hb']
    unfold nmeta at hlow
    unfold bmapstart at hb
    omega
  · simp only
    omega
  · intro l hl
    have hold := h.live l hl
    by_cases hlj : l = j
    · subst l
      simp only [update_self, hdtype]
      exact iff_of_true hpos (by omega)
    · simp only [update_of_ne hlj]
      rw [hold]
      omega
  · intro l hl
    rw [himage]
    by_cases hlj : l = j
    · subst l
      simp only [update_self]
      exact holds_nil hzero
    · simp only [update_of_ne hlj] at hl ⊢
      exact h.holds_update_meta hb buf (by omega) rfl
  · intro l hl
    simp only [hbuf, dinode_write, Nat.add_right_cancel_iff]
    by_cases hlj : l = j
    · rw [if_pos hlj, hlj, update_self]
    · rw [if_neg hlj, update_of_ne hlj, h.inodes l hl]
  · intro l hl
    by_cases hlj : l = j
    · subst l
      simp [hd, Dinode.zero]
    · simp only [update_of_ne hlj] at hl ⊢
      exact h.size l (by omega)
  · intro l hl
    by_cases hlj : l = j
    · subst l
      simp only [update_self, hdtype, htype]
    · simp only [update_of_ne hlj] at hl ⊢
      exact h.type l (by omega)

/-- The loop that copies a file. -/
theorem wp_copyFile {fuel : ℕ} : ∀ {st : State} {g : Ghost} {cs : ℕ → List (BitVec 8)}
    {data : List (BitVec 8)}, data.length ≤ fuel → Saved st g cs → j + 1 < st.freeinode →
      (cs j).length + data.length ≤ maxfile * bsize →
      st.freeblock + blocksOf ((cs j).length + data.length) ≤ fsSize + blocksOf (cs j).length →
      wp (copyFile (j + 1) fuel data) E (fun _ st' => ∃ g',
        Saved st' g' (update cs j (cs j ++ data)) ∧ st'.freeinode = st.freeinode ∧
        st'.freeblock + blocksOf (cs j).length ≤
          st.freeblock + blocksOf ((cs j).length + data.length)) st := by
  induction fuel with
  | zero =>
    intro st g cs data hdata h _ _ _
    obtain rfl : data = [] := eq_nil_of_length_eq_zero (by omega)
    refine wp_pure ⟨g, ?_, rfl, Nat.le_refl _⟩
    rwa [append_nil, update_eq_self]
  | succ fuel ih =>
    intro st g cs data hdata h hj hmax hroom
    unfold copyFile
    refine wp_ite (fun hnil => ?_) fun hnil => ?_
    · subst hnil
      refine wp_pure ⟨g, ?_, rfl, Nat.le_refl _⟩
      rwa [append_nil, update_eq_self]
    · have hpos : 0 < data.length := length_pos_iff.mpr hnil
      have htake : (data.take bsize).length + (data.drop bsize).length = data.length := by
        rw [← length_append, take_append_drop]
      have hsome : 0 < (data.take bsize).length := by
        rw [length_take]
        unfold bsize
        omega
      have hmono : blocksOf ((cs j).length + (data.take bsize).length) ≤
          blocksOf ((cs j).length + data.length) := blocksOf_mono (by omega)
      refine wp_seq (wp_iappend h hj (by omega) (by omega)) ?_
      rintro - st₁ ⟨g₁, hsaved, hinode, hfree⟩
      have hlength : (update cs j (cs j ++ data.take bsize) j).length =
          (cs j).length + (data.take bsize).length := by
        rw [update_self, length_append]
      have hrest : (cs j).length + (data.take bsize).length + (data.drop bsize).length =
          (cs j).length + data.length := by omega
      refine wp_mono (ih (by omega) hsaved (by omega) (by rw [hlength, hrest]; exact hmax)
        (by rw [hlength, hrest]; omega)) ?_
      rw [hlength, hrest]
      rintro - st₂ ⟨g₂, hsaved₂, hinode₂, hfree₂⟩
      refine ⟨g₂, ?_, by rw [hinode₂, hinode], by omega⟩
      rwa [update_self, update_idem, append_assoc, take_append_drop] at hsaved₂

/-! ### `main` -/

/-- The entries of the root directory. -/
def rootEntries (files : List File) : List (ℕ × Name) :=
  (rootino, dot) :: (rootino, dotdot) :: files.mapIdx fun j f => (j + 2, skipUnderscore f.name)

/-- The bytes of the root directory. -/
def rootBytes (files : List File) : List (BitVec 8) :=
  (rootEntries files).flatMap fun e => direntBytes e.1 e.2

/-- The bytes of the inodes. -/
def contentsOf (files : List File) : ℕ → List (BitVec 8)
  | 0 => rootBytes files
  | j + 1 => (files[j]?.map File.data).getD []

/-- The number of blocks of all files. -/
def usedBlocks (files : List File) : ℕ :=
  blocksOf (direntSize * (files.length + 2)) + (files.map fun f => blocksOf f.data.length).sum

@[simp] theorem length_direntBytes (inum : ℕ) (name : Name) :
    (direntBytes inum name).length = direntSize := by
  rw [direntBytes, length_map, length_range]

@[simp] theorem length_rootEntries (files : List File) :
    (rootEntries files).length = files.length + 2 := by
  simp [rootEntries]

theorem length_rootBytes (files : List File) :
    (rootBytes files).length = direntSize * (files.length + 2) := by
  rw [rootBytes, length_flatMap]
  simp only [length_direntBytes, map_const', sum_replicate_nat, length_rootEntries]
  exact Nat.mul_comm _ _

theorem rootBytes_append (files : List File) (f : File) : rootBytes (files ++ [f]) =
    rootBytes files ++ direntBytes (files.length + 2) (skipUnderscore f.name) := by
  simp [rootBytes, rootEntries, mapIdx_concat, flatMap_append]

/-- What `mkfs` has written after some of the files. -/
def Built (files : List File) (st : State) : Prop :=
  ∃ g, Saved st g (contentsOf files) ∧ st.freeinode = files.length + 2 ∧
    st.freeblock ≤ nmeta + usedBlocks files

/-- The image is ready for its first inode behind the superblock. -/
theorem saved_superblock :
    Saved { blank with img := update blank.img 1 superblock } ⟨fun _ => Dinode.zero, fun _ => none⟩
      fun _ => [] := by
  have hinode : ∀ l < ninodes,
      dinode (update blank.img 1 superblock) (l + 1) = Dinode.zero := by
    intro l hl
    have hblock : update blank.img 1 superblock (iblock (l + 1)) = fun _ => 0 := by
      apply update_of_ne
      unfold iblock ipb inodestart
      omega
    have hload : ∀ o w, load (fun _ => 0#8) o w = 0 := fun _ _ => load_eq_zero fun _ _ => rfl
    simp [dinode, readDinode, hblock, hload, Dinode.zero]
  refine ⟨⟨⟨nofun, ?_, ?_, ?_⟩, ?_, Nat.le_refl _, by decide, by decide, ?_, ?_⟩, hinode, ?_, ?_⟩
  · intro i _ htype
    exact absurd rfl htype
  · intro i _ htype
    exact absurd rfl htype
  · intro b hb
    rw [bit_image _ hb]
    change decide (b < nmeta) = true ↔ _
    simp
  · intro b hb
    apply update_of_ne
    simp only [blank, nmeta] at hb
    omega
  · intro l _
    simp [blank, Dinode.zero]
  · intro l hl
    exact absurd hl (by simp [blank])
  · intro l hl
    exact absurd hl (by simp [blank])
  · intro l hl
    exact absurd hl (by simp [blank])

/-- `main` makes the root directory. -/
theorem wp_makeRoot : wp makeRoot E (fun _ => Built []) blank := by
  have hone : blocksOf direntSize = 1 := by decide
  have htwo : blocksOf (direntSize + direntSize) = 1 := by decide
  have hzero : blocksOf 0 = 0 := by decide
  unfold makeRoot
  refine wp_bind (wp_wsect (wp_bind (wp_ialloc saved_superblock rfl (by decide) rfl ?_)))
  intro st₁ g₁ hsaved₁ hinode₁ hblock₁
  have hstart : st₁.freeblock = nmeta := hblock₁
  have hmeta : nmeta + 1 ≤ fsSize := by decide
  have hsmall : direntSize + direntSize ≤ maxfile * bsize := by decide
  refine wp_ite (fun _ => ?_) fun hne => absurd rfl hne
  refine wp_seq (wp_iappend hsaved₁ (by omega) ?_ ?_) ?_
  · simp only [update_self, length_nil, length_direntBytes]
    omega
  · simp only [update_self, length_nil, length_direntBytes, Nat.zero_add, hone, hzero]
    omega
  rintro - st₂ ⟨g₂, hsaved₂, hinode₂, hblock₂⟩
  simp only [update_self, length_nil, length_direntBytes, Nat.zero_add, hone, hzero,
    nil_append, update_idem] at hblock₂ hsaved₂
  refine wp_mono (wp_iappend hsaved₂ (by omega) ?_ ?_) ?_
  · simp only [update_self, length_direntBytes]
    omega
  · simp only [update_self, length_direntBytes, hone, htwo]
    omega
  rintro - st₃ ⟨g₃, hsaved₃, hinode₃, hblock₃⟩
  simp only [update_self, length_direntBytes, hone, htwo, update_idem] at hblock₃ hsaved₃
  have hcontents : update (fun _ => []) 0 (direntBytes 1 dot ++ direntBytes 1 dotdot) =
      contentsOf [] := by
    funext l
    cases l with
    | zero => simp [contentsOf, rootBytes, rootEntries, rootino]
    | succ l => simp [contentsOf]
  rw [hcontents] at hsaved₃
  refine ⟨g₃, hsaved₃, ?_, ?_⟩
  · rw [hinode₃, hinode₂, hinode₁]
    rfl
  · have hused : usedBlocks [] = 1 := by decide
    rw [hused]
    omega

/-- A round of the loop of `main` over the files. -/
theorem wp_addFile {done : List File} {f : File} (h : Built done st) (hname : slash ∉ f.name)
    (hsmall : f.data.length ≤ maxfile * bsize) (hfew : (done ++ [f]).length < ninodes)
    (hroom : nmeta + usedBlocks (done ++ [f]) ≤ fsSize) :
    wp (addFile rootino f) E (fun _ => Built (done ++ [f])) st := by
  obtain ⟨g, hsaved, hinode, hblock⟩ := h
  have hzero : blocksOf 0 = 0 := by decide
  have hused : usedBlocks (done ++ [f]) = blocksOf (direntSize * (done.length + 3)) +
      ((done.map fun f => blocksOf f.data.length).sum + blocksOf f.data.length) := by
    simp [usedBlocks]
  rw [length_append, length_singleton] at hfew
  unfold usedBlocks at hblock
  have hroot : (contentsOf done 0).length = direntSize * (done.length + 2) := length_rootBytes done
  have hsum : direntSize * (done.length + 2) + direntSize = direntSize * (done.length + 3) := by
    unfold direntSize
    omega
  unfold addFile
  rw [if_neg hname]
  have hnew : contentsOf done (done.length + 1) = [] := by simp [contentsOf]
  refine wp_bind (wp_ialloc hsaved hinode (by omega) (by rw [if_neg (by omega)]) ?_)
  intro st₁ g₁ hsaved₁ hinode₁ hblock₁
  rw [← hnew, update_eq_self] at hsaved₁
  have hroot₁ : 0 + 1 < st₁.freeinode := by omega
  refine wp_seq (wp_iappend hsaved₁ hroot₁ ?_ ?_) ?_
  · rw [hroot, length_direntBytes, hsum]
    unfold direntSize maxfile bsize
    unfold ninodes at hfew
    omega
  · rw [hroot, length_direntBytes, hsum]
    omega
  rintro - st₂ ⟨g₂, hsaved₂, hinode₂, hblock₂⟩
  rw [hroot, length_direntBytes, hsum] at hblock₂
  have hempty : update (contentsOf done) 0
      (contentsOf done 0 ++ direntBytes (done.length + 1 + 1) (skipUnderscore f.name))
      (done.length + 1) = [] := by
    rw [update_of_ne (by omega), hnew]
  have hcopy := wp_copyFile (E := E) (j := done.length + 1) (Nat.le_refl f.data.length) hsaved₂
    (by omega) (by rw [hempty, length_nil]; omega)
    (by rw [hempty, length_nil, Nat.zero_add, hzero]; omega)
  rw [hempty, length_nil, Nat.zero_add, nil_append, hzero] at hcopy
  refine wp_mono hcopy ?_
  rintro - st₃ ⟨g₃, hsaved₃, hinode₃, hblock₃⟩
  have hcontents : update (update (contentsOf done) 0
      (contentsOf done 0 ++ direntBytes (done.length + 1 + 1) (skipUnderscore f.name)))
      (done.length + 1) f.data = contentsOf (done ++ [f]) := by
    funext l
    cases l with
    | zero =>
      rw [update_of_ne (by omega), update_self, contentsOf, contentsOf,
        rootBytes_append]
    | succ l =>
      by_cases hl : l = done.length
      · subst l
        simp [contentsOf]
      · rw [update_of_ne (by omega), update_of_ne (by omega), contentsOf, contentsOf]
        by_cases hlt : l < done.length
        · rw [List.getElem?_append_left hlt]
        · rw [List.getElem?_eq_none (by omega), List.getElem?_eq_none]
          rw [length_append, length_singleton]
          omega
  rw [hcontents] at hsaved₃
  refine ⟨g₃, hsaved₃, ?_, ?_⟩
  · rw [hinode₃, hinode₂, hinode₁, length_append, length_singleton]
  · rw [hused]
    omega

end Xv6Draw.Mkfs
