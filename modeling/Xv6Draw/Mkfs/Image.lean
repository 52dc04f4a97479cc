import Xv6Draw.Mkfs.Build

/-!
# The image

What the kernel finds on the image. The files are read back with `readi`, and the blocks
and the bitmap are as the kernel leaves them itself, with one exception: `main` rounds the
size of the root directory up to the next multiple of the block size above it, so when
the entries fill their last block, the directory gets a block that is not allocated. A
name is written without its leading underscore, so names that differ there only are one
name in the directory.
-/

namespace Xv6Draw.Mkfs

open Fs Function Hoare List LittleEndian Nat

/-- The files fit on the image. -/
structure FilesFit (files : List File) : Prop where
  /-- Names are strings without slashes. -/
  names : ∀ f ∈ files, slash ∉ f.name ∧ 0 ∉ f.name
  /-- They differ in their first `DIRSIZ` characters. -/
  distinct : files.Pairwise fun f f' => f.name.take dirsiz ≠ f'.name.take dirsiz
  /-- Each file has at most `MAXFILE` blocks. -/
  small : ∀ f ∈ files, f.data.length ≤ maxfile * bsize
  /-- All of them fit on the disk with the root directory. -/
  room : nmeta + usedBlocks files ≤ fsSize
  few : files.length < ninodes

/-- The names in the root directory differ in their first `DIRSIZ` characters. -/
def EntriesDiffer (files : List File) : Prop :=
  (rootEntries files).Pairwise fun e e' => e.2.take dirsiz ≠ e'.2.take dirsiz

/-- The kernel reads some bytes from an inode of the image. -/
def ReadsAs (img : ℕ → Block) (i : ℕ) (c : List (BitVec 8)) : Prop :=
  ∀ (s : Fs.State) (k : Fin ninode), s.disk = img → (s.icache k).d = dinode img i →
    ∀ off n, off < 2 ^ 32 → n < 2 ^ 32 → readi k off n s =
      .ok (if off ≤ c.length ∧ off + n < 2 ^ 32 then some ((c.drop off).take n) else none, s)

/-- An entry of a directory with some bytes. -/
def direntAt (c : List (BitVec 8)) (k : ℕ) : Dirent :=
  Dirent.read fun j => c.getD (direntSize * k + j) 0

/-- The inode that a directory with some bytes has for a name: that of the first entry in use
with this name. -/
def lookup (c : List (BitVec 8)) (name : Name) : Option ℕ :=
  (((range (c.length / direntSize)).map (direntAt c)).find? fun de =>
    de.inum ≠ 0 ∧ namecmp name de.name = 0).map Dirent.inum

/-- An inode of the image in use. -/
def InUse (img : ℕ → Block) (i : ℕ) : Prop := 1 ≤ i ∧ i ≤ ninodes ∧ (dinode img i).type ≠ 0

/-- A block is at a position of an inode in use. -/
def PointsTo (img : ℕ → Block) (i m b : ℕ) : Prop :=
  InUse img i ∧ m ≤ maxfile ∧ ptr img (dinode img i) m = b ∧ b ≠ 0

/-- The image is a file system with the files. -/
structure ImageOk (img : ℕ → Block) (files : List File) : Prop where
  /-- The inodes in use are those of the root directory and of the files. -/
  inodes : ∀ i, InUse img i ↔ 1 ≤ i ∧ i ≤ files.length + 1
  /-- The root directory has the names of the files, and those of itself. -/
  root : (dinode img rootino).type = tDir ∧ ∃ c, ReadsAs img rootino c ∧ ∀ name, 0 ∉ name → ∀ i,
    lookup c name = some i ↔ ∃ e ∈ rootEntries files, name.take dirsiz = e.2.take dirsiz ∧ i = e.1
  files : ∀ j (hj : j < files.length), (dinode img (j + 2)).type = tFile ∧
    ReadsAs img (j + 2) files[j].data
  /-- Every block below the size of an inode is allocated. -/
  filled : ∀ i, InUse img i → ∀ m, m * bsize < (dinode img i).size.toNat →
    m < maxfile ∧ ptr img (dinode img i) m ≠ 0
  /-- Blocks of inodes are data blocks. -/
  data : ∀ i m b, PointsTo img i m b → nmeta ≤ b ∧ b < fsSize
  once : ∀ i i' m m' b, PointsTo img i m b → PointsTo img i' m' b → i = i' ∧ m = m'
  /-- The bitmap marks the metadata and the blocks of inodes. -/
  bits : ∀ b < fsSize, bit img b = true ↔ b < nmeta ∨ ∃ i m, PointsTo img i m b

/-! ### The end of `main` -/

/-- What `mkfs` has written. -/
structure Written (files : List File) (img : ℕ → Block) (g : Ghost) : Prop where
  owned : Owned img g none
  inodes : ∀ l < ninodes, dinode img (l + 1) = g.ino l
  live : ∀ l < ninodes, (g.ino l).type ≠ 0 ↔ l ≤ files.length
  type : ∀ l ≤ files.length, (g.ino l).type = if l = 0 then tDir else tFile
  holds : ∀ l ≤ files.length, Holds img (g.ino l) (contentsOf files l)
  size : ∀ l ≤ files.length, l ≠ 0 → (g.ino l).size.toNat = (contentsOf files l).length
  rootSize : (g.ino 0).size.toNat = ((rootBytes files).length / bsize + 1) * bsize

variable {files : List File} {img : ℕ → Block} {g : Ghost}

variable {l m k : ℕ} {name : Name}

theorem dinode_image (st : State) (hl : l < ninodes) :
    dinode (image st) (l + 1) = dinode st.img (l + 1) := by
  have hlt := iblock_succ_lt hl
  unfold dinode
  rw [image_of_ne st (by omega)]

/-- `main` rounds the size of the root directory up and writes the bitmap. -/
theorem wp_finish {E : Exit → Prop} {st : State} (h : Built files st) (hfew : files.length < ninodes)
    (hroom : nmeta + usedBlocks files ≤ fsSize) :
    wp finish E (fun _ st' => ∃ g, Written files st'.img g) st := by
  obtain ⟨g, hsaved, hinode, hblock⟩ := h
  have hroot : 0 + 1 < st.freeinode := by omega
  have hzero : 0 < ninodes := by decide
  have hlength := length_rootBytes files
  have hsize : (g.ino 0).size.toNat = (rootBytes files).length := hsaved.size 0 hroot
  unfold finish
  refine wp_bind (wp_rinode hzero (wp_bind (wp_winode hzero (wp_bind (wp_get ?_)))))
  rw [hsaved.inodes 0 hzero, hsize]
  obtain ⟨d, hd⟩ : ∃ d, d = { g.ino 0 with
    size := BitVec.ofNat 32 (((rootBytes files).length / bsize + 1) * bsize) } := ⟨_, rfl⟩
  rw [← hd]
  have htype : d.type = (g.ino 0).type := by rw [hd]
  have haddrs : d.addrs = (g.ino 0).addrs := by rw [hd]
  have hlayout := hsaved.setInode hroot htype haddrs (iblock_succ_lt hzero)
    (writeDinode (st.img (iblock (0 + 1))) ((0 + 1) % ipb) d)
  unfold balloc
  refine wp_ite (fun _ => wp_wsect ?_) fun hused => ?_
  · refine ⟨_, hlayout.owned, ?_, ?_, ?_, ?_, ?_, ?_⟩
    · intro l hl
      have himage := dinode_image { st with
        img := update st.img (iblock (0 + 1))
          (writeDinode (st.img (iblock (0 + 1))) ((0 + 1) % ipb) d) } hl
      refine himage.trans ?_
      change dinode (update st.img (iblock (0 + 1))
        (writeDinode (st.img (iblock (0 + 1))) ((0 + 1) % ipb) d)) (l + 1) = update g.ino 0 d l
      rw [dinode_write]
      by_cases hl0 : l = 0
      · rw [if_pos (by omega), hl0, update_self]
      · rw [if_neg (by omega), update_of_ne hl0, hsaved.inodes l hl]
    · intro l hl
      rw [hlayout.live l hl]
      change l + 1 < st.freeinode ↔ _
      omega
    · intro l hl
      rw [← hsaved.type l (by omega)]
      by_cases hl0 : l = 0
      · subst l
        simp only [update_self, htype]
      · simp only [update_of_ne hl0]
    · intro l hl
      refine hlayout.holds l ?_
      change l + 1 < st.freeinode
      omega
    · intro l hl hl0
      simp only [update_of_ne hl0]
      exact hsaved.size l (by omega)
    · simp only [update_self, hd, BitVec.toNat_ofNat]
      rw [mod_eq_of_lt]
      rw [hlength]
      unfold direntSize bsize
      unfold ninodes at hfew
      omega
  · refine absurd ?_ hused
    change st.freeblock < bsize * 8
    unfold fsSize at hroom
    unfold bsize
    omega

/-- `mkfs` writes the image. -/
theorem FilesFit.written (h : FilesFit files) : ∃ img g, mkfs files = .ok img ∧ Written files img g := by
  have hmain : wp (main files) (fun _ => False) (fun _ st' => ∃ g, Written files st'.img g) blank := by
    unfold main
    refine wp_seq wp_makeRoot fun _ st₁ hbuilt => ?_
    refine wp_seq (wp_forM (I := fun rest st => ∃ done, done ++ rest = files ∧ Built done st) ?_
      ⟨[], rfl, hbuilt⟩) ?_
    · rintro f rest st ⟨done, rfl, hdone⟩
      have hmem : f ∈ done ++ f :: rest := by simp
      have hle : usedBlocks (done ++ [f]) ≤ usedBlocks (done ++ f :: rest) := by
        have hroot : blocksOf (direntSize * (done.length + 1 + 2)) ≤
            blocksOf (direntSize * (done.length + (rest.length + 1) + 2)) :=
          blocksOf_mono (Nat.mul_le_mul_left _ (by omega))
        simp only [usedBlocks, length_append, length_cons, length_nil, Nat.zero_add,
          map_append, map_cons, map_nil, List.sum_append, sum_cons, sum_nil]
        omega
      have hlength : (done ++ [f]).length ≤ (done ++ f :: rest).length := by simp
      have hroom := h.room
      have hfew := h.few
      refine wp_mono (wp_addFile hdone (h.names f hmem).1 (h.small f hmem) (by omega) (by omega)) ?_
      intro _ st' hbuilt'
      exact ⟨done ++ [f], by simp, hbuilt'⟩
    · rintro - st₂ ⟨done, hdone, hbuilt₂⟩
      rw [append_nil] at hdone
      subst hdone
      exact wp_finish hbuilt₂ h.few h.room
  obtain ⟨r, st', hrun, g, hwritten⟩ := exists_ok_of_wp hmain
  refine ⟨st'.img, g, ?_, hwritten⟩
  unfold mkfs
  rw [hrun]
  rfl

/-! ### Blocks -/

/-- An inode in use. -/
theorem Written.inUse_iff (h : Written files img g) (hfew : files.length < ninodes) (i : ℕ) :
    InUse img i ↔ 1 ≤ i ∧ i ≤ files.length + 1 := by
  unfold InUse
  cases i with
  | zero => simp
  | succ l =>
    constructor
    · rintro ⟨-, hle, hlive⟩
      rw [h.inodes l (by omega), h.live l (by omega)] at hlive
      omega
    · rintro ⟨-, hle⟩
      have hl : l < ninodes := by omega
      rw [h.inodes l hl, h.live l hl]
      omega

/-- Blocks of inodes have them as owners. -/
theorem Written.pointsTo_iff (h : Written files img g) {b : ℕ} :
    PointsTo img (l + 1) m b ↔ g.owner b = some (l, m) := by
  constructor
  · rintro ⟨⟨-, hle, hlive⟩, hm, hptr, hpos⟩
    have hl : l < ninodes := by omega
    rw [h.inodes l hl] at hlive hptr
    rw [← hptr] at hpos ⊢
    exact h.owned.owns l hl hlive nofun m hm hpos
  · intro howner
    obtain ⟨hl, hlive, hm, hptr, hlow, -⟩ := h.owned.sound b l m howner
    rw [← h.inodes l hl] at hlive hptr
    refine ⟨⟨by omega, by omega, hlive⟩, hm, hptr, ?_⟩
    unfold nmeta at hlow
    omega

theorem PointsTo.exists_succ {i b : ℕ} (h : PointsTo img i m b) : ∃ l, i = l + 1 :=
  ⟨i - 1, by have := h.1.1; omega⟩

/-- Every block below the size of a file is allocated, and below that of the root directory
when its entries do not fill their last block. -/
theorem Written.filled (h : Written files img g) (hfree : (files.length + 2) % 32 ≠ 0)
    (hl : l ≤ files.length)
    (hm : m * bsize < (g.ino l).size.toNat) : m < maxfile ∧ ptr img (g.ino l) m ≠ 0 := by
  have hholds := h.holds l hl
  have hfits := hholds.fits
  have hlow : m * bsize < (contentsOf files l).length := by
    by_cases hl0 : l = 0
    · subst l
      rw [h.rootSize, length_rootBytes] at hm
      rw [contentsOf, length_rootBytes]
      unfold direntSize bsize at *
      omega
    · rwa [h.size l hl hl0] at hm
  have hmax : m < maxfile := by
    unfold bsize at *
    omega
  exact ⟨hmax, (hholds.blocks m hmax).mpr hlow⟩

/-! ### What the kernel reads -/

/-- The bytes of a file with zeros up to its size. -/
theorem Holds.map_fileByte {disk : ℕ → Block} {d : Dinode} {c : List (BitVec 8)} (h : Holds disk d c)
    (hsize : c.length ≤ d.size.toNat) (hmax : d.size.toNat ≤ maxfile * bsize) :
    (range d.size.toNat).map (fileByte disk d) =
      c ++ replicate (d.size.toNat - c.length) 0 := by
  apply ext_getElem
  · simp
    omega
  · intro x hx _
    rw [length_map, length_range] at hx
    rw [getElem_map, getElem_range, fileByte_eq hx (by omega), h.bytes x (by omega)]
    by_cases hlow : x < c.length
    · rw [getElem_append_left hlow, getD_eq_getElem _ _ hlow]
    · rw [getElem_append_right (by omega), getElem_replicate,
        getD_eq_default _ _ (by omega)]

theorem Written.size_le (h : Written files img g) (hfew : files.length < ninodes)
    (hl : l ≤ files.length) : (contentsOf files l).length ≤ (g.ino l).size.toNat ∧
      (g.ino l).size.toNat ≤ maxfile * bsize := by
  by_cases hl0 : l = 0
  · subst l
    rw [h.rootSize, contentsOf, length_rootBytes]
    unfold direntSize maxfile bsize
    unfold ninodes at hfew
    omega
  · rw [h.size l hl hl0]
    exact ⟨Nat.le_refl _, (h.holds l hl).fits⟩

/-- The kernel reads the bytes of the files. -/
theorem Written.readsAs (h : Written files img g) (hfew : files.length < ninodes)
    (hfree : (files.length + 2) % 32 ≠ 0) (hl : l ≤ files.length) :
    ReadsAs img (l + 1) (contentsOf files l ++
      replicate ((g.ino l).size.toNat - (contentsOf files l).length) 0) := by
  intro s k hdisk hcopy off n _ hn
  have hlt : l < ninodes := by omega
  have hlive := (h.live l hlt).mpr hl
  obtain ⟨hsize, hmax⟩ := h.size_le hfew hl
  rw [h.inodes l hlt] at hcopy
  subst hdisk
  have hfull : ∀ m < maxfile, m * bsize < (g.ino l).size.toNat →
      ptr s.disk (g.ino l) m ≠ 0 ∧ ptr s.disk (g.ino l) m < fsSize := by
    intro m hm hlow
    obtain ⟨-, hne⟩ := h.filled hfree hl hlow
    obtain ⟨-, -, -, -, -, hblock⟩ :=
      h.owned.sound _ _ _ (h.owned.owns l hlt hlive nofun m (by omega) hne)
    exact ⟨hne, hblock⟩
  have hread : wp (readi k off n) (fun _ => False)
      (fun r t => r = readResult s.disk (g.ino l) off n ∧ t = s) s :=
    wp_readi_present hcopy (h.owned.indirect_lt hlt hlive) hmax hfull hn ⟨rfl, rfl⟩
  obtain ⟨r, t, hrun, rfl, rfl⟩ := exists_ok_of_wp hread
  rw [hrun, readResult_eq ((h.holds l hl).map_fileByte hsize hmax).symm]

/-! ### The root directory -/

/-- A name as it is in an entry. -/
def padded (name : List ℕ) (n : ℕ) : List ℕ := (range n).map fun j => name.getD j 0

/-- `strncmp` with a name in an entry compares the first characters. -/
theorem strncmp_padded {p q : List ℕ} (hp : 0 ∉ p) (hq : 0 ∉ q) (n : ℕ) :
    strncmp p (padded q n) n = 0 ↔ p.take n = q.take n := by
  induction n generalizing p q with
  | zero => simp [strncmp]
  | succ n ih =>
    have hpad : padded q (n + 1) = q.headD 0 :: padded q.tail n := by
      unfold padded
      rw [range_succ_eq_map, map_cons, map_map]
      cases q <;> rfl
    rw [hpad, strncmp]
    cases p with
    | nil =>
      cases q with
      | nil => simp
      | cons b q =>
        have hb : b ≠ 0 := fun hzero => hq (by simp [hzero])
        simp [hb]
    | cons a p =>
      have ha : a ≠ 0 := fun hzero => hp (by simp [hzero])
      have hp' : 0 ∉ p := fun hzero => hp (by simp [hzero])
      cases q with
      | nil => simp [ha]
      | cons b q =>
        have hq' : 0 ∉ q := fun hzero => hq (by simp [hzero])
        by_cases hab : a = b
        · subst b
          simpa [ha] using ih hp' hq'
        · have hsub : (a : ℤ) - b ≠ 0 := by omega
          simp [hab, hsub]

/-- An entry that is read from the bytes of an entry. -/
theorem read_direntBytes {inum : ℕ} (hinum : inum < 2 ^ 16) (hname : 0 ∉ name) :
    Dirent.read (Dirent.bytes inum name) =
      ⟨inum, (range dirsiz).map fun j => name.getD j 0⟩ := by
  have htake : name.takeWhile (· ≠ 0) = name := by
    rw [takeWhile_eq_self_iff]
    intro c hc
    simp only [decide_eq_true_eq]
    rintro rfl
    exact hname hc
  have hload : load (Dirent.bytes inum name) 0 2 = inum % 256 ^ 2 := by
    apply load_of_digits
    intro i hi
    rw [Nat.zero_add, Dirent.bytes, if_pos hi]
  unfold Dirent.read
  congr 1
  · rw [hload, mod_eq_of_lt (by omega)]
  · apply map_congr_left
    intro j _
    rw [Dirent.bytes, if_neg (by omega), htake, Nat.add_sub_cancel_left]

/-- A byte of an entry in the bytes of all entries. -/
theorem getD_flatMap_direntBytes {es : List (ℕ × Name)} (r : ℕ) {j : ℕ} (hk : k < es.length)
    (hj : j < direntSize) :
    ((es.flatMap fun e : ℕ × Name => direntBytes e.1 e.2) ++ replicate r 0).getD (direntSize * k + j) 0 =
      Dirent.bytes es[k].1 es[k].2 j := by
  induction es generalizing k with
  | nil => exact absurd hk (Nat.not_lt_zero k)
  | cons e es ih =>
    rw [flatMap_cons, append_assoc]
    cases k with
    | zero =>
      rw [Nat.mul_zero, Nat.zero_add, getD_append _ _ _ _ (by simpa using hj), direntBytes,
        getD_eq_getElem _ _ (by simpa using hj)]
      simp
    | succ k =>
      have hlow : (direntBytes e.1 e.2).length ≤ direntSize * (k + 1) + j := by
        rw [length_direntBytes, mul_succ]
        omega
      have hindex : direntSize * (k + 1) + j - direntSize = direntSize * k + j := by
        rw [mul_succ]
        omega
      rw [getD_append_right _ _ _ _ hlow, length_direntBytes, hindex, ih (lt_of_succ_lt_succ hk)]
      rfl

/-- The names and numbers of the entries of the root directory. -/
theorem FilesFit.entry (h : FilesFit files) {e : ℕ × Name} (he : e ∈ rootEntries files) :
    e.1 ≠ 0 ∧ e.1 < 2 ^ 16 ∧ 0 ∉ e.2 := by
  have hfew := h.few
  unfold ninodes at hfew
  simp only [rootEntries, mem_cons, mem_mapIdx] at he
  obtain rfl | rfl | ⟨j, hj, rfl⟩ := he
  · decide
  · decide
  · refine ⟨by simp, by simp only; omega, fun hzero => ?_⟩
    obtain ⟨-, hname⟩ := h.names files[j] (getElem_mem hj)
    revert hname hzero
    generalize files[j].name = name
    cases name with
    | nil => simp [skipUnderscore]
    | cons c cs =>
      intro hzero hname
      simp only [skipUnderscore] at hzero
      split_ifs at hzero
      · exact hname (mem_cons_of_mem c hzero)
      · exact hname hzero

/-- The entries that are in the bytes of the root directory. -/
theorem FilesFit.direntAt_rootBytes (h : FilesFit files) (r : ℕ) (hk : k < (rootEntries files).length) :
    direntAt (rootBytes files ++ replicate r 0) k = ⟨(rootEntries files)[k].1,
        (range dirsiz).map fun j => (rootEntries files)[k].2.getD j 0⟩ := by
  obtain ⟨-, hinum, hname⟩ := h.entry (getElem_mem hk)
  rw [← read_direntBytes hinum hname]
  apply Dirent.read_congr
  intro j hj
  exact getD_flatMap_direntBytes r hk hj

theorem inum_direntAt_zero (r : ℕ) (hk : files.length + 2 ≤ k) :
    (direntAt (rootBytes files ++ replicate r 0) k).inum = 0 := by
  apply load_eq_zero
  intro i _
  have hlength := length_rootBytes files
  have hmul : direntSize * (files.length + 2) ≤ direntSize * k := Nat.mul_le_mul_left _ hk
  rw [getD_append_right _ _ _ _ (by omega)]
  by_cases hlt : direntSize * k + (0 + i) - (rootBytes files).length < r
  · rw [getD_eq_getElem _ _ (by simpa using hlt), getElem_replicate]
  · rw [getD_eq_default]
    simpa using hlt

/-- An entry in use has a name when it is one of those that were written with it. -/
theorem FilesFit.matches_iff (h : FilesFit files) (r : ℕ) (hname : 0 ∉ name) (k : ℕ) :
    ((direntAt (rootBytes files ++ replicate r 0) k).inum ≠ 0 ∧
      namecmp name (direntAt (rootBytes files ++ replicate r 0) k).name = 0) ↔
    ∃ hk : k < (rootEntries files).length, name.take dirsiz = (rootEntries files)[k].2.take dirsiz ∧
      (direntAt (rootBytes files ++ replicate r 0) k).inum = (rootEntries files)[k].1 := by
  have hzero : ∀ x : Name, 0 ∉ x → 0 ∉ x.map BitVec.toNat := by
    intro x hx hmem
    obtain ⟨c, hc, hc0⟩ := mem_map.mp hmem
    obtain rfl : c = 0 := BitVec.eq_of_toNat_eq hc0
    exact hx hc
  by_cases hk : k < (rootEntries files).length
  · obtain ⟨hpos, -, hentry⟩ := h.entry (getElem_mem hk)
    rw [h.direntAt_rootBytes r hk]
    have hpad : ((range dirsiz).map fun j => (rootEntries files)[k].2.getD j 0).map BitVec.toNat =
        padded ((rootEntries files)[k].2.map BitVec.toNat) dirsiz := by
      unfold padded
      rw [map_map]
      apply map_congr_left
      intro j _
      simp only [Function.comp_apply, getD_eq_getElem?_getD, List.getElem?_map]
      cases (rootEntries files)[k].2[j]? <;> rfl
    have hinj : Function.Injective (List.map (BitVec.toNat (w := 8))) :=
      map_injective_iff.mpr fun x y => BitVec.eq_of_toNat_eq
    simp only [namecmp, hpad, strncmp_padded (hzero _ hname) (hzero _ hentry), ← map_take,
      hinj.eq_iff, ne_eq, hpos, not_false_eq_true, true_and, hk, exists_true_left, and_true]
  · rw [length_rootEntries] at hk
    rw [inum_direntAt_zero r (by omega)]
    refine iff_of_false (fun hmatch => hmatch.1 rfl) ?_
    rintro ⟨hlt, -⟩
    rw [length_rootEntries] at hlt
    exact hk hlt

/-- What is found in the root directory. -/
theorem FilesFit.lookup_iff (h : FilesFit files) (hdiffer : EntriesDiffer files) {r : ℕ}
    (hname : 0 ∉ name) (i : ℕ) : lookup (rootBytes files ++ replicate r 0) name = some i ↔
      ∃ e ∈ rootEntries files, name.take dirsiz = e.2.take dirsiz ∧ i = e.1 := by
  obtain ⟨c, hc⟩ : ∃ c, c = rootBytes files ++ replicate r 0 := ⟨_, rfl⟩
  have hmatch := h.matches_iff r hname
  rw [← hc] at hmatch ⊢
  have hfound : ∀ {de : Dirent}, ((range (c.length / direntSize)).map (direntAt c)).find? (fun de =>
      de.inum ≠ 0 ∧ namecmp name de.name = 0) = some de →
      ∃ k, ∃ hk : k < (rootEntries files).length,
        name.take dirsiz = (rootEntries files)[k].2.take dirsiz ∧ de.inum = (rootEntries files)[k].1 := by
    intro de hde
    obtain ⟨k, -, rfl⟩ := mem_map.mp (mem_of_find?_eq_some hde)
    have hsome := List.find?_some hde
    rw [decide_eq_true_eq, hmatch k] at hsome
    obtain ⟨hk, hsame, hinum⟩ := hsome
    exact ⟨k, hk, hsame, hinum⟩
  unfold lookup
  rw [Option.map_eq_some_iff]
  constructor
  · rintro ⟨de, hde, rfl⟩
    obtain ⟨k, hk, hsame, hinum⟩ := hfound hde
    exact ⟨_, getElem_mem hk, hsame, hinum⟩
  · rintro ⟨e, he, hsame, rfl⟩
    obtain ⟨k, hk, rfl⟩ := getElem_of_mem he
    have hrange : k < c.length / direntSize := by
      rw [hc, length_append, length_rootBytes]
      rw [length_rootEntries] at hk
      unfold direntSize
      omega
    have hmem : direntAt c k ∈ (range (c.length / direntSize)).map (direntAt c) :=
      mem_map_of_mem (mem_range.mpr hrange)
    have hdir : (direntAt c k).inum = (rootEntries files)[k].1 := by
      rw [hc, h.direntAt_rootBytes r hk]
    have hsome := (hmatch k).mpr ⟨hk, hsame, hdir⟩
    obtain ⟨de, hde⟩ : ∃ de, ((range (c.length / direntSize)).map (direntAt c)).find? (fun de =>
        de.inum ≠ 0 ∧ namecmp name de.name = 0) = some de := by
      rw [← Option.isSome_iff_exists, List.find?_isSome]
      exact ⟨_, hmem, by simpa using hsome⟩
    obtain ⟨k', hk', hsame', hinum⟩ := hfound hde
    refine ⟨de, hde, ?_⟩
    -- no two entries have this name
    have hkk : k = k' := by
      by_contra hne
      obtain hlt | hlt := Nat.lt_or_gt_of_ne hne
      · exact pairwise_iff_getElem.mp hdiffer k k' hk hk' hlt (hsame.symm.trans hsame')
      · exact pairwise_iff_getElem.mp hdiffer k' k hk' hk hlt (hsame'.symm.trans hsame)
    subst hkk
    exact hinum

/-! ### The image is a file system -/

/-- With different names and a root directory that does not fill its last block, the image is
a file system with the files. -/
theorem Written.imageOk (h : Written files img g) (hfit : FilesFit files)
    (hfree : (files.length + 2) % 32 ≠ 0) (hdiffer : EntriesDiffer files) : ImageOk img files := by
  have hfew := hfit.few
  have hzero : 0 < ninodes := by decide
  refine ⟨h.inUse_iff hfew, ⟨?_, ?_⟩, ?_, ?_, ?_, ?_, ?_⟩
  · rw [rootino, h.inodes 0 hzero, h.type 0 (Nat.zero_le _), if_pos rfl]
  · refine ⟨_, h.readsAs hfew hfree (Nat.zero_le _), ?_⟩
    intro name hname i
    exact hfit.lookup_iff hdiffer hname i
  · intro j hj
    have hj' : j + 1 < ninodes := by omega
    have hcontents : contentsOf files (j + 1) = files[j].data := by
      rw [contentsOf, List.getElem?_eq_getElem hj]
      rfl
    have hsize := h.size (j + 1) hj (succ_ne_zero j)
    have hreads := h.readsAs hfew hfree (l := j + 1) hj
    rw [hsize, hcontents, Nat.sub_self, replicate_zero, append_nil] at hreads
    refine ⟨?_, hreads⟩
    rw [h.inodes (j + 1) hj', h.type (j + 1) hj, if_neg (succ_ne_zero j)]
  · intro i hi m hm
    obtain ⟨hpos, hle⟩ := (h.inUse_iff hfew i).mp hi
    obtain ⟨l, rfl⟩ : ∃ l, i = l + 1 := ⟨i - 1, by omega⟩
    rw [h.inodes l (by omega)] at hm ⊢
    exact h.filled hfree (by omega) hm
  · intro i m b hptr
    obtain ⟨l, rfl⟩ := hptr.exists_succ
    obtain ⟨-, -, -, -, hlow, hlt⟩ := h.owned.sound b l m (h.pointsTo_iff.mp hptr)
    exact ⟨hlow, hlt⟩
  · intro i i' m m' b hptr hptr'
    obtain ⟨l, rfl⟩ := hptr.exists_succ
    obtain ⟨l', rfl⟩ := hptr'.exists_succ
    have howner := h.pointsTo_iff.mp hptr
    rw [h.pointsTo_iff.mp hptr', Option.some.injEq, Prod.mk.injEq] at howner
    omega
  · intro b hb
    rw [h.owned.bits b hb, Option.isSome_iff_exists]
    refine or_congr_right ⟨?_, ?_⟩
    · rintro ⟨⟨l, m⟩, howner⟩
      exact ⟨l + 1, m, h.pointsTo_iff.mpr howner⟩
    · rintro ⟨i, m, hptr⟩
      obtain ⟨l, rfl⟩ := hptr.exists_succ
      exact ⟨(l, m), h.pointsTo_iff.mp hptr⟩

/-- A root directory that fills its last block gets another one that is not allocated. -/
theorem Written.root_hole (h : Written files img g) (hfew : files.length < ninodes)
    (hfull : (files.length + 2) % 32 = 0) :
    (files.length + 2) / 32 * bsize < (dinode img rootino).size.toNat ∧
      ptr img (dinode img rootino) ((files.length + 2) / 32) = 0 := by
  have hzero : 0 < ninodes := by decide
  have hholds := h.holds 0 (Nat.zero_le _)
  have hlength : (contentsOf files 0).length = direntSize * (files.length + 2) := length_rootBytes files
  have hmax : (files.length + 2) / 32 < maxfile := by
    unfold maxfile
    unfold ninodes at hfew
    omega
  rw [rootino, h.inodes 0 hzero, h.rootSize, length_rootBytes]
  constructor
  · unfold direntSize bsize
    omega
  · have hblock := hholds.blocks _ hmax
    rw [hlength] at hblock
    by_contra hne
    have hlt := hblock.mp hne
    unfold direntSize bsize at hlt
    omega

theorem Written.not_imageOk (h : Written files img g) (hfew : files.length < ninodes)
    (hfull : (files.length + 2) % 32 = 0) : ¬ ImageOk img files := by
  intro hok
  obtain ⟨hlow, hnone⟩ := h.root_hole hfew hfull
  have hroot : InUse img rootino := (hok.inodes rootino).mpr ⟨Nat.le_refl _, by simp [rootino]⟩
  obtain ⟨-, hne⟩ := hok.filled rootino hroot _ hlow
  exact hne hnone

theorem rootEntries_inum (hk : k < (rootEntries files).length) :
    (rootEntries files)[k].1 = max 1 k := by
  match k with
  | 0 => rfl
  | 1 => rfl
  | k + 2 => simp [rootEntries]

/-- Entries of a file system have different names. -/
theorem ImageOk.entriesDiffer (h : ImageOk img files) (hfit : FilesFit files) : EntriesDiffer files := by
  obtain ⟨-, c, -, hlookup⟩ := h.root
  refine pairwise_iff_getElem.mpr fun k k' hk hk' hlt hsame => ?_
  obtain ⟨-, -, hname⟩ := hfit.entry (getElem_mem hk)
  have hfirst := (hlookup _ hname _).mpr ⟨_, getElem_mem hk, rfl, rfl⟩
  have hsecond := (hlookup _ hname _).mpr ⟨_, getElem_mem hk', hsame, rfl⟩
  -- one name leads to one inode, so these are the entries of the directory itself
  have hinum := Option.some.inj (hfirst.symm.trans hsecond)
  rw [rootEntries_inum hk, rootEntries_inum hk'] at hinum
  obtain ⟨rfl, rfl⟩ : k = 0 ∧ k' = 1 := by omega
  exact absurd hsame (by simp only [rootEntries, getElem_cons_zero, getElem_cons_succ]; decide)

/-- The image that `mkfs` writes is a file system with the files when the root directory does not
fill its last block and has different names. -/
theorem mkfs_image_ok_iff (h : FilesFit files) : ∃ img, mkfs files = .ok img ∧
    (ImageOk img files ↔ (files.length + 2) % 32 ≠ 0 ∧ EntriesDiffer files) := by
  obtain ⟨img, g, hrun, hwritten⟩ := h.written
  refine ⟨img, hrun, ?_, ?_⟩
  · intro hok
    exact ⟨fun hfull => hwritten.not_imageOk h.few hfull hok, hok.entriesDiffer h⟩
  · rintro ⟨hfree, hdiffer⟩
    exact hwritten.imageOk h hfree hdiffer

instance (files : List File) : Decidable (EntriesDiffer files) :=
  inferInstanceAs (Decidable (List.Pairwise _ _))

/-- Two files. -/
def twoFiles : List File := [⟨[0x5f, 0x73, 0x68], [1, 2, 3]⟩, ⟨[0x72], replicate 600 7⟩]

/-- Two files give a file system. -/
theorem two_files_image_ok : ∃ img, mkfs twoFiles = .ok img ∧ ImageOk img twoFiles := by
  have hfit : FilesFit twoFiles := by
    refine ⟨?_, ?_, ?_, ?_, ?_⟩ <;> decide +kernel
  obtain ⟨img, hrun, hiff⟩ := mkfs_image_ok_iff hfit
  exact ⟨img, hrun, hiff.mpr ⟨by decide, by decide +kernel⟩⟩

/-- Thirty empty files, with a letter as their name. -/
def thirtyFiles : List File := (range 30).map fun j => ⟨[BitVec.ofNat 8 (j + 65)], []⟩

/-- With thirty files the root directory fills a block, and its size is two. The second block is
not allocated. -/
theorem thirty_files_leave_hole : FilesFit thirtyFiles ∧ EntriesDiffer thirtyFiles ∧
    ∃ img, mkfs thirtyFiles = .ok img ∧ bsize < (dinode img rootino).size.toNat ∧
      ptr img (dinode img rootino) 1 = 0 ∧ ¬ ImageOk img thirtyFiles := by
  have hfit : FilesFit thirtyFiles := by
    refine ⟨?_, ?_, ?_, ?_, ?_⟩ <;> decide +kernel
  have hdiffer : EntriesDiffer thirtyFiles := by decide +kernel
  obtain ⟨img, g, hrun, hwritten⟩ := hfit.written
  obtain ⟨hlow, hnone⟩ := hwritten.root_hole hfit.few (by decide)
  have hone : (thirtyFiles.length + 2) / 32 = 1 := by decide
  rw [hone] at hlow hnone
  exact ⟨hfit, hdiffer, img, hrun, hlow, hnone, hwritten.not_imageOk hfit.few (by decide)⟩

end Xv6Draw.Mkfs
