import Xv6Draw.Fs.Directory
import Xv6Draw.Fs.InodeCache

/-!
# The view of the users of the file system

What the functions on inodes do, as their callers see it: the files, and for each
entry of the inode cache its inode, its references and whether its copy is valid. The
blocks, the bitmap and the copies themselves are hidden here, behind the fact that a
state is good: it represents some volume.
-/

namespace Xv6Draw.Fs

open Function Hoare LittleEndian Option

/-- The files and the inode cache. -/
structure View where
  /-- The files. -/
  vol : ℕ → Option Node
  ref : Fin ninode → ℕ
  inum : Fin ninode → ℕ
  valid : Fin ninode → Bool

/-- The files on a disk. -/
def diskVol (disk : ℕ → Block) (i : ℕ) : Option Node :=
  if i < ninodes then node disk (dinode disk i) else none

/-- The view of a state. -/
def view (s : State) : View :=
  ⟨diskVol s.disk, fun k => (s.icache k).ref, fun k => (s.icache k).inum, fun k => (s.icache k).valid⟩

/-- A state represents a volume. -/
def Good (s : State) : Prop := ∃ g, Rep s g none none

variable {s : State}

/-- The volume that a state represents is on the disk. -/
theorem Rep.vol_eq {g : Ghost} (h : Rep s g none none) : vol s.disk g = diskVol s.disk := by
  funext i
  unfold vol diskVol
  split_ifs with hi
  · rw [h.synced i hi nofun]
  · rfl

/-! ### Changes -/

/-- An entry becomes valid. -/
def View.lock (v : View) (k : Fin ninode) : View := { v with valid := update v.valid k true }

/-- An entry gets a reference. -/
def View.hit (v : View) (k : Fin ninode) : View :=
  { v with ref := update v.ref k (v.ref k + 1) }

/-- An entry is taken for an inode. -/
def View.miss (v : View) (k : Fin ninode) (i : ℕ) : View :=
  { v with
    ref := update v.ref k 1
    inum := update v.inum k i
    valid := update v.valid k false }

/-- An entry loses a reference. -/
def View.drop (v : View) (k : Fin ninode) : View :=
  { v with ref := update v.ref k (v.ref k - 1) }

/-- An entry is given up together with its inode. -/
def View.free (v : View) (k : Fin ninode) : View :=
  { v with
    vol := update v.vol (v.inum k) none
    ref := update v.ref k 0
    valid := update v.valid k false }

/-- A file is changed. -/
def View.mapNode (v : View) (i : ℕ) (f : Node → Node) : View :=
  { v with vol := update v.vol i ((v.vol i).map f) }

theorem View.mapNode_vol_self (v : View) (i : ℕ) (f : Node → Node) :
    (v.mapNode i f).vol i = (v.vol i).map f :=
  update_self _ _ _

theorem View.mapNode_vol_of_ne (v : View) {i j : ℕ} (hj : j ≠ i) (f : Node → Node) :
    (v.mapNode i f).vol j = v.vol j :=
  update_of_ne hj _ _

/-- No inode has two entries, and valid entries are of files. -/
structure View.Sound (v : View) : Prop where
  unique : ∀ j k, 0 < v.ref j → 0 < v.ref k → v.inum j = v.inum k → j = k
  live : ∀ k, 0 < v.ref k → v.valid k = true → (v.vol (v.inum k)).isSome = true

theorem Good.sound (h : Good s) : (view s).Sound := by
  obtain ⟨g, hrep⟩ := h
  refine ⟨hrep.cache.unique, ?_⟩
  intro k href hvalid
  have hlive := hrep.cache.live k href hvalid
  have hrange := hrep.cache.range k href
  rw [hrep.cache.copy k href hvalid, ← hrep.synced _ hrange nofun] at hlive
  change (diskVol s.disk (s.icache k).inum).isSome = true
  rw [diskVol, if_pos hrange, node, if_neg hlive]
  rfl

/-- The file that an allocated inode describes. -/
def fileOf (disk : ℕ → Block) (d : Dinode) : Node :=
  ⟨d.type, d.major, d.minor, d.nlink, d.size.toNat, fileByte disk d⟩

/-- The copy of a valid entry describes its file. -/
theorem Good.copy (h : Good s) {k : Fin ninode} (href : 0 < (view s).ref k)
    (hvalid : (view s).valid k = true) :
    (view s).vol ((view s).inum k) = some (fileOf s.disk (s.icache k).d) := by
  obtain ⟨g, hrep⟩ := h
  have hcopy := hrep.cache.copy k href hvalid
  have hlive := hrep.cache.live k href hvalid
  have hrange := hrep.cache.range k href
  change diskVol s.disk (s.icache k).inum = _
  rw [diskVol, if_pos hrange, hrep.synced _ hrange nofun, ← hcopy, node, if_neg hlive]
  rfl

/-- An entry of the inode cache for a file, in use and read. -/
structure At (s : State) (k : Fin ninode) (nd : Node) : Prop where
  good : Good s
  ref : 0 < (view s).ref k
  valid : (view s).valid k = true
  node : (view s).vol ((view s).inum k) = some nd

section

variable {s s' : State} {k : Fin ninode} {nd nd' : Node}

theorem Good.at (h : Good s) (hpos : 0 < (view s).ref k) (hvalid : (view s).valid k = true) :
    At s k (fileOf s.disk (s.icache k).d) :=
  ⟨h, hpos, hvalid, h.copy hpos hvalid⟩

theorem At.unique (h : At s k nd) (h' : At s k nd') : nd = nd' :=
  some.inj (h.node.symm.trans h'.node)

theorem At.fileOf_eq (h : At s k nd) : fileOf s.disk (s.icache k).d = nd :=
  (h.good.at h.ref h.valid).unique h

theorem At.rep (h : At s k nd) : ∃ g, Rep s g none none ∧ Held s k ((view s).inum k) ∧
    (view s).inum k < ninodes ∧ (g.ino ((view s).inum k)).type ≠ 0 ∧
    (s.icache k).d = g.ino ((view s).inum k) := by
  obtain ⟨g, hrep⟩ := h.good
  have hk : Held s k ((view s).inum k) := ⟨h.ref, rfl, h.valid⟩
  exact ⟨g, hrep, hk, hk.facts hrep.cache⟩

theorem At.mapNode (h : At s k nd) (hg : Good s') {f : Node → Node}
    (hview : view s' = (view s).mapNode ((view s).inum k) f) : At s' k (f nd) := by
  refine ⟨hg, hview ▸ h.ref, hview ▸ h.valid, ?_⟩
  rw [hview]
  change ((view s).mapNode ((view s).inum k) f).vol ((view s).inum k) = _
  rw [View.mapNode_vol_self, h.node, map_some]

end

/-! ### Steps -/

/-- `iget` has found the entry of an inode, or has taken one for it. -/
def Got (v : View) (i : ℕ) (k : Fin ninode) (w : View) : Prop :=
  (0 < v.ref k ∧ v.inum k = i ∧ w = v.hit k) ∨
  (v.ref k = 0 ∧ (∀ j, 0 < v.ref j → v.inum j ≠ i) ∧ w = v.miss k i)

/-- `iput` has given up a reference, with the inode when it was the last one and the inode
has no links. -/
def Put (v : View) (k : Fin ninode) (w : View) : Prop :=
  0 < v.ref k ∧
  (((v.ref k = 1 → v.valid k = true → ∀ nd, v.vol (v.inum k) = some nd → nd.nlink ≠ 0) ∧
      w = v.drop k) ∨
    (v.ref k = 1 ∧ v.valid k = true ∧ (∃ nd, v.vol (v.inum k) = some nd ∧ nd.nlink = 0) ∧
      w = v.free k))

section

variable {r : Fin ninode → ℕ} {v w : View} {k : Fin ninode} {i : ℕ}

theorem update_add_one (f : Fin ninode → ℕ) (k : Fin ninode) :
    update f k (f k + 1) = f + Pi.single k 1 := by
  funext j
  by_cases hj : j = k
  · subst j
    simp
  · simp [hj]

theorem update_sub_one {f : Fin ninode → ℕ} (h : 0 < f k) :
    update f k (f k - 1) + Pi.single k 1 = f := by
  funext j
  by_cases hj : j = k
  · subst j
    simp only [Pi.add_apply, update_self, Pi.single_eq_same]
    omega
  · simp [hj]

theorem Got.ref (h : Got v i k w) : w.ref = v.ref + Pi.single k 1 := by
  obtain ⟨-, -, rfl⟩ | ⟨hunused, -, rfl⟩ := h
  · exact update_add_one v.ref k
  · rw [← update_add_one, hunused]
    rfl

theorem Got.inum (h : Got v i k w) : w.inum k = i := by
  obtain ⟨-, hinum, rfl⟩ | ⟨-, -, rfl⟩ := h
  · exact hinum
  · simp [View.miss]

theorem Got.vol (h : Got v i k w) : w.vol = v.vol := by
  obtain ⟨-, -, rfl⟩ | ⟨-, -, rfl⟩ := h
  · rfl
  · rfl

theorem Put.ref (h : Put v k w) : w.ref + Pi.single k 1 = v.ref := by
  obtain ⟨hpos, ⟨-, rfl⟩ | ⟨hone, -, -, rfl⟩⟩ := h
  · exact update_sub_one hpos
  · have hzero : (v.free k).ref = update v.ref k (v.ref k - 1) := by
      rw [hone]
      rfl
    rw [hzero]
    exact update_sub_one hpos

end

/-! ### The functions on inodes -/

section

variable {E : Panic → Prop} {s : State} {k : Fin ninode} {i : ℕ} {nd : Node}

variable {s' : State} {Q : Unit → State → Prop} {off : ℕ}

/-- The view of a state with another entry of the cache. -/
theorem view_of_icache {e : Inode} (h : s'.icache = update s.icache k e) :
    view s' = ⟨diskVol s'.disk, update (view s).ref k e.ref,
      update (view s).inum k e.inum, update (view s).valid k e.valid⟩ := by
  unfold view
  rw [h]
  congr 1
  · exact funext (apply_update (fun _ => Inode.ref) _ _ _)
  · exact funext (apply_update (fun _ => Inode.inum) _ _ _)
  · exact funext (apply_update (fun _ => Inode.valid) _ _ _)

theorem locks_of_icache {e : Inode} (h : s'.icache = update s.icache k e) :
    locks s' = update (locks s) k e.locked := by
  unfold locks
  rw [h]
  exact funext (apply_update (fun _ => Inode.locked) _ _ _)

@[simp] theorem update_view_ref (s : State) (k : Fin ninode) :
    update (view s).ref k (s.icache k).ref = (view s).ref :=
  update_eq_self k _

@[simp] theorem update_view_inum (s : State) (k : Fin ninode) :
    update (view s).inum k (s.icache k).inum = (view s).inum :=
  update_eq_self k _

@[simp] theorem update_view_valid (s : State) (k : Fin ninode) :
    update (view s).valid k (s.icache k).valid = (view s).valid :=
  update_eq_self k _

@[simp] theorem update_locks (s : State) (k : Fin ninode) :
    update (locks s) k (s.icache k).locked = locks s :=
  update_eq_self k _

theorem Rep.isSome_vol {g : Ghost} (h : Rep s g none none) (hi : i < ninodes) :
    ((view s).vol i).isSome = true ↔ (g.ino i).type ≠ 0 := by
  change (diskVol s.disk i).isSome = true ↔ _
  rw [diskVol, if_pos hi, h.synced i hi (by simp), node]
  split_ifs with htype
  · exact iff_of_false (by simp) (not_not_intro htype)
  · exact iff_of_true rfl htype

theorem Good.wp_ilock (h : Good s) (hE : MayPanic E ∨ (0 < (view s).ref k ∧ locks s k = false ∧
      ((view s).vol ((view s).inum k)).isSome = true))
    (hQ : ∀ s', Good s' → view s' = (view s).lock k → locks s' = update (locks s) k true →
      0 < (view s).ref k → locks s k = false →
      ((view s).vol ((view s).inum k)).isSome = true → Q () s') :
    wp (ilock k) E Q s := by
  obtain ⟨g, hrep⟩ := h
  have hlive : 0 < (s.icache k).ref → (((view s).vol ((view s).inum k)).isSome = true ↔
      (g.ino (s.icache k).inum).type ≠ 0) :=
    fun hpos => hrep.isSome_vol (hrep.cache.range k hpos)
  refine Fs.wp_ilock (hE.imp_right ?_) hrep fun e he hpos hlocked htype hrep' => ?_
  · rintro ⟨hpos, hlocked, hsome⟩
    exact ⟨hpos, hlocked, (hlive hpos).mp hsome⟩
  · subst he
    refine hQ _ ⟨g, hrep'⟩ ?_ (locks_of_icache (State.setEntry_icache s k _)) hpos hlocked
      ((hlive hpos).mpr htype)
    rw [view_of_icache (State.setEntry_icache s k _), update_view_ref, update_view_inum]
    rfl

theorem Good.wp_iunlock (h : Good s) (hE : MayPanic E ∨ (locks s k = true ∧ 0 < (view s).ref k))
    (hQ : ∀ s', Good s' → view s' = view s → locks s' = update (locks s) k false → Q () s') :
    wp (iunlock k) E Q s := by
  obtain ⟨g, hrep⟩ := h
  refine Fs.wp_iunlock hE hrep fun hrep' =>
    hQ _ ⟨g, hrep'⟩ ?_ (locks_of_icache (State.setEntry_icache s k _))
  rw [view_of_icache (State.setEntry_icache s k _), update_view_ref, update_view_inum,
    update_view_valid]
  rfl

theorem Good.wp_iget (h : Good s)
    (hE : MayPanic E ∨ ∃ k, (view s).ref k = 0 ∨ (0 < (view s).ref k ∧ (view s).inum k = i))
    (hi : i < ninodes) {Q : Fin ninode → State → Prop}
    (hQ : ∀ k s', Good s' → Got (view s) i k (view s') → locks s' = locks s → Q k s') :
    wp (iget i) E Q s := by
  obtain ⟨g, hrep⟩ := h
  refine Fs.wp_iget hE hrep hi ?_ ?_
  · intro k hpos hinum hrep'
    have hlocks := locks_of_icache (State.setEntry_icache s k { s.icache k with ref := (s.icache k).ref + 1 })
    rw [update_locks] at hlocks
    refine hQ k _ ⟨g, hrep'⟩ (.inl ⟨hpos, hinum, ?_⟩) hlocks
    rw [view_of_icache (State.setEntry_icache s k _), update_view_inum, update_view_valid]
    rfl
  · intro k hunused hnew hrep'
    have hlocks := locks_of_icache
      (State.setEntry_icache s k { s.icache k with inum := i, ref := 1, valid := false })
    rw [update_locks] at hlocks
    refine hQ k _ ⟨g, hrep'⟩ (.inr ⟨hunused, hnew, ?_⟩) hlocks
    rw [view_of_icache (State.setEntry_icache s k _)]
    rfl

theorem Good.wp_idup (h : Good s) (hpos : 0 < (view s).ref k) {Q : Fin ninode → State → Prop}
    (hQ : ∀ s', Good s' → view s' = (view s).hit k → locks s' = locks s → Q k s') :
    wp (idup k) E Q s := by
  obtain ⟨g, hrep⟩ := h
  have hlocks := locks_of_icache (State.setEntry_icache s k { s.icache k with ref := (s.icache k).ref + 1 })
  rw [update_locks] at hlocks
  refine Fs.wp_idup hrep hpos fun hrep' => hQ _ ⟨g, hrep'⟩ ?_ hlocks
  rw [view_of_icache (State.setEntry_icache s k _), update_view_inum, update_view_valid]
  rfl

theorem Good.wp_iput (h : Good s) (hpos : 0 < (view s).ref k)
    (hQ : ∀ s', Good s' → Put (view s) k (view s') → locks s' = locks s → Q () s') :
    wp (iput k) E Q s := by
  have hcopy := fun hvalid => h.copy hpos (k := k) hvalid
  obtain ⟨g, hrep⟩ := h
  refine Fs.wp_iput hrep hpos ?_ ?_
  · intro hnot hrep'
    have hlocks := locks_of_icache (State.setEntry_icache s k { s.icache k with ref := (s.icache k).ref - 1 })
    rw [update_locks] at hlocks
    refine hQ _ ⟨g, hrep'⟩ ⟨hpos, .inl ⟨?_, ?_⟩⟩ hlocks
    · intro hone hvalid nd hnode hnlink
      rw [hcopy hvalid, some.injEq] at hnode
      rw [← hnode] at hnlink
      exact hnot ⟨hone, hvalid, hnlink⟩
    · rw [view_of_icache (State.setEntry_icache s k _), update_view_inum, update_view_valid]
      rfl
  · intro hone hvalid hnlink s' g' d hrep' hvol hcache
    have hlocks := locks_of_icache hcache
    rw [update_locks] at hlocks
    refine hQ _ ⟨g', hrep'⟩ ⟨hpos, .inr ⟨hone, hvalid, ⟨_, hcopy hvalid, hnlink⟩, ?_⟩⟩ hlocks
    rw [view_of_icache hcache, ← hrep'.vol_eq, hvol, hrep.vol_eq, update_view_inum]
    rfl

theorem Good.wp_iunlockput (h : Good s) (hE : MayPanic E ∨ locks s k = true) (hpos : 0 < (view s).ref k)
    (hQ : ∀ s', Good s' → Put (view s) k (view s') → locks s' = update (locks s) k false → Q () s') :
    wp (iunlockput k) E Q s := by
  unfold iunlockput
  refine wp_bind (h.wp_iunlock (hE.imp_right (⟨·, hpos⟩)) fun s₁ h₁ hview hlocks => ?_)
  rw [← hview] at hpos hQ
  rw [← hlocks] at hQ
  exact h₁.wp_iput hpos hQ

theorem view_of_copy {d : Dinode}
    (h : s'.icache = update s.icache k { s.icache k with d := d }) :
    view s' = ⟨diskVol s'.disk, (view s).ref, (view s).inum, (view s).valid⟩ := by
  rw [view_of_icache h, update_view_ref, update_view_inum, update_view_valid]

/-- A change to the link count or the device numbers of an inode, with `iupdate`. -/
theorem At.wp_change (h : At s k nd) {f : Dinode → Dinode} {F : Node → Node}
    (htype : ∀ d, (f d).type = d.type) (haddrs : ∀ d, (f d).addrs = d.addrs)
    (hsize : ∀ d, (f d).size = d.size) (hF : ∀ disk d, fileOf disk (f d) = F (fileOf disk d))
    {α : Type} {rest : Unit → FsM α} {Q : α → State → Prop}
    (hQ : ∀ s', Good s' → view s' = (view s).mapNode ((view s).inum k) F → wp (rest ()) E Q s') :
    wp (setCopy k f >>= fun _ => iupdate k >>= rest) E Q s := by
  obtain ⟨g, hrep, hk, hi, hlive, hd⟩ := h.rep
  refine wp_bind (wp_setField hrep nofun hk (htype _) (haddrs _) ?_ ?_)
  · intro n hn hlt
    rw [hsize] at hlt
    rw [ptr_of_addrs (haddrs _)]
    exact hrep.blocks.full _ hi hlive nofun n hn hlt
  intro s₁ hrep₁ hk₁ hdisk₁ hcache₁ hlogged₁
  refine wp_bind (wp_iupdate hrep₁ (fun j hj => (some.inj hj).symm) hk₁ ?_)
  intro s₂ hrep₂ hdisk₂ hcache₂ hlogged₂
  refine hQ s₂ ⟨_, hrep₂⟩ ?_
  have hvol := hrep₁.blocks.vol_congr hdisk₂
  rw [hrep₂.vol_eq, hdisk₁] at hvol
  rw [hcache₁] at hcache₂
  rw [view_of_copy hcache₂, hvol, View.mapNode, h.node, ← h.fileOf_eq]
  congr 1
  funext j
  by_cases hj : j = (view s).inum k
  · subst j
    rw [update_self, vol, if_pos hi]
    simp only [update_self]
    rw [Fs.node, if_neg (by rwa [htype]), map_some, ← hF, hd]
    rfl
  · rw [update_of_ne hj, vol]
    simp only [update_of_ne hj]
    have hsame := congrFun hrep.vol_eq j
    rw [vol] at hsame
    rw [hsame]
    rfl

theorem At.wp_writei (h : At s k nd) {src : ℕ → BitVec 8} {n : ℕ} (hoff : off < 2 ^ 32)
    (hn : n < 2 ^ 32)
    (hE : MayPanic E ∨ missing s.disk (s.icache k).d (rangePos off n) ≤ freeBlocks s.disk)
    {Q : ℤ → State → Prop} (hwrite : ∀ s', Good s' → off ≤ nd.size → off + n ≤ maxfile * bsize →
      view s' = (view s).mapNode ((view s).inum k) (fun nd => nd.write src off n) → Q n s')
    (hrefuse : ¬ (off ≤ nd.size ∧ off + n ≤ maxfile * bsize) → Q (-1) s) :
    wp (writei k src off n) E Q s := by
  obtain rfl := h.fileOf_eq
  obtain ⟨g, hrep, hk, -, -, hd⟩ := h.rep
  rw [hd] at hE
  refine wp_mono (Fs.wp_writei hrep hk hoff hn (hE.imp_left (· _ nofun))) ?_
  rw [← hd]
  rintro r s' (⟨hfits, rfl, g', hwrote, hrep'⟩ | ⟨hfits, rfl, rfl⟩)
  · refine hwrite s' ⟨g', hrep'⟩ hfits.1 hfits.2 ?_
    have hvol := hwrote.vol
    rw [hrep'.vol_eq, hrep.vol_eq] at hvol
    rw [view_of_copy hwrote.cache, hvol]
    rfl
  · exact hrefuse hfits

theorem At.missing_eq_zero (h : At s k nd) {n : ℕ} (hle : off + n ≤ nd.size) :
    missing s.disk (s.icache k).d (rangePos off n) = 0 := by
  obtain rfl := h.fileOf_eq
  obtain ⟨g, hrep, hk, -, -, hd⟩ := h.rep
  change off + n ≤ (s.icache k).d.size.toNat at hle
  rw [hd] at hle ⊢
  exact missing_rangePos (hrep.full hk _ (by omega))

/-- An entry of a directory. -/
def Node.dirent (nd : Node) (off : ℕ) : Dirent := Dirent.read fun j => nd.data (off + j)

/-- `readi` of an entry. -/
theorem At.wp_readDirent (h : At s k nd)
    (hE : MayPanic E ∨ (off + direntSize ≤ nd.size ∧ nd.size ≤ maxfile * bsize))
    {e : Panic} (he : e ≠ .freeingFreeBlock) {Q : Dirent → State → Prop}
    (hQ : off + direntSize ≤ nd.size → Q (nd.dirent off) s) :
    wp (readDirent k off e) E Q s := by
  obtain rfl := h.fileOf_eq
  obtain ⟨g, hrep, hk, -, -, hd⟩ := h.rep
  have hsize : (fileOf s.disk (s.icache k).d).size = (g.ino ((view s).inum k)).size.toNat := by
    rw [fileOf, hd]
  rw [hsize] at hE hQ
  have hsmall : direntSize < 2 ^ 32 := by decide
  unfold readDirent
  refine wp_bind (wp_readi hrep hk (hE.imp (· _ nofun) And.right) hsmall ?_)
  unfold readResult
  split_ifs with hin
  · simp only
    refine wp_ite (fun hlen => wp_pure ?_) fun hlen => wp_throw_or hE (fun hfits => hlen ?_) he
    · rw [List.length_map, List.length_range'] at hlen
      have hsame : Dirent.read (fun j => ((List.range' off (min direntSize
          ((g.ino ((view s).inum k)).size.toNat - off))).map
            (fileByte s.disk (g.ino ((view s).inum k)))).getD j 0) =
          (fileOf s.disk (s.icache k).d).dirent off := by
        apply Dirent.read_congr
        intro j hj
        rw [hlen, List.getD_eq_getElem?_getD, List.getElem?_map, List.getElem?_range' hj]
        simp only [map_some, getD_some, Nat.one_mul, fileOf, hd]
      rw [hsame]
      exact hQ (by unfold direntSize at hlen ⊢; omega)
    · rw [List.length_map, List.length_range']
      omega
  · exact wp_throw_or hE (fun hfits => hin ⟨by omega, by omega⟩) he

end

end Xv6Draw.Fs
