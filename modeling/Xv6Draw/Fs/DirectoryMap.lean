import Xv6Draw.Fs.FailedCalls

/-!
# Directories as maps

A directory stands for a map from the first `DIRSIZ` bytes of names to inode numbers. `dirlookup`
reads the map, `dirlink` adds a key that is not there, and the zeroing of an entry by `sys_unlink`
takes the key of the entry away. In a directory that only these calls have written, no key
occurs twice, which is what makes the first entry with a name the only one.
-/

namespace Xv6Draw.Fs

open Function Hoare List LittleEndian Option

/-! ### Keys -/

/-- The part of a name that counts: its first bytes, up to a NUL. -/
def key (name : Name) : Name := (name.takeWhile (· ≠ 0)).take dirsiz

theorem namecmp_eq_zero_iff {s t : Name} : namecmp s t = 0 ↔ key s = key t := by
  have hkey : ∀ u : Name, (untilNul (u.map BitVec.toNat)).take dirsiz = (key u).map BitVec.toNat := by
    intro u
    have hzero : ((fun c : ℕ => decide (c ≠ 0)) ∘ BitVec.toNat) = fun c : BitVec 8 => decide (c ≠ 0) := by
      funext c
      simp [BitVec.toNat_eq]
    rw [untilNul, takeWhile_map, hzero, key, map_take]
  rw [namecmp, strncmp_eq_zero_iff_take, hkey, hkey]
  exact List.map_inj_right fun _ _ => BitVec.eq_of_toNat_eq

/-- `strncpy` keeps the key. -/
theorem key_dirent_bytes (i : ℕ) (name : Name) : key (Dirent.read (Dirent.bytes i name)).name = key name := by
  set w := name.takeWhile (· ≠ 0) with hw
  have harray : (Dirent.read (Dirent.bytes i name)).name =
      w.take dirsiz ++ replicate (dirsiz - w.length) 0 := by
    apply ext_getElem?
    intro j
    by_cases hj : j < dirsiz
    · have hbyte : (Dirent.read (Dirent.bytes i name)).name[j]? = some (w.getD j 0) := by
        simp only [Dirent.read, List.getElem?_map, List.getElem?_range hj, Option.map_some, Dirent.bytes]
        rw [if_neg (by omega), Nat.add_sub_cancel_left]
      rw [hbyte]
      by_cases hjw : j < w.length
      · rw [List.getElem?_append_left (by simp; omega), List.getElem?_take_of_lt hj]
        simp [hjw]
      · rw [List.getElem?_append_right (by simp; omega), List.getElem?_replicate_of_lt (by simp; omega)]
        simp [hjw]
    · rw [List.getElem?_eq_none (by simp [Dirent.read]; omega), List.getElem?_eq_none (by simp; omega)]
  have hfull : ∀ c ∈ w.take dirsiz, decide (c ≠ 0) = true := by
    intro c hc
    exact mem_takeWhile_imp (p := fun b => decide (b ≠ 0)) (mem_of_mem_take hc)
  have hstop : ∀ m, (replicate m (0 : BitVec 8)).takeWhile (· ≠ 0) = [] := by
    intro m
    cases m with
    | zero => rfl
    | succ m => simp [replicate_succ]
  rw [harray, key, takeWhile_append_of_pos hfull, hstop, append_nil, take_take, Nat.min_self, key]

theorem inum_dirent_bytes {i : ℕ} (hi : i < ninodes) (name : Name) :
    (Dirent.read (Dirent.bytes i name)).inum = i := by
  have hload : load (Dirent.bytes i name) 0 2 = i % 256 ^ 2 := by
    apply load_of_digits
    intro j hj
    simp [Dirent.bytes, hj]
  unfold ninodes at hi
  change load (Dirent.bytes i name) 0 2 = i
  rw [hload]
  omega

/-! ### The map -/

/-- The map that a directory stands for: the inode of the first entry with a key. -/
def Node.map (nd : Node) (κ : Name) : Option ℕ :=
  (offsets 0 nd.size).findSome? fun off =>
    if (nd.dirent off).inum = 0 then none
    else if key (nd.dirent off).name = κ then some (nd.dirent off).inum
    else none

theorem Node.map_key (nd : Node) (name : Name) : (nd.lookup name).map Prod.fst = nd.map (key name) := by
  unfold lookup map
  rw [map_findSome?]
  congr 1
  funext off
  simp only [comp_apply, namecmp_eq_zero_iff, eq_comm (a := key name)]
  split_ifs <;> rfl

/-- A directory in which no key occurs twice. -/
structure Node.Proper (nd : Node) : Prop where
  dir : nd.type = tDir
  /-- It consists of whole entries. -/
  whole : nd.Whole
  once : ∀ {off off' j j'}, nd.Names off j → nd.Names off' j' →
    key (nd.dirent off).name = key (nd.dirent off').name → off = off'
  /-- The entries are for inodes of the disk. -/
  range : ∀ {off j}, nd.Names off j → j < ninodes

section

variable {nd : Node} {κ name : Name} {off o i j : ℕ} {src : ℕ → BitVec 8}

theorem Node.Whole.mem_offsets (h : nd.Whole) :
    off ∈ offsets 0 nd.size ↔ direntSize ∣ off ∧ off + direntSize ≤ nd.size := by
  refine ⟨fun hoff => ⟨dvd_of_mem_offsets hoff, h.within (Nat.dvd_zero _) hoff⟩, ?_⟩
  rintro ⟨⟨m, rfl⟩, hle⟩
  unfold offsets
  rw [mem_range']
  refine ⟨m, ?_, by omega⟩
  unfold direntSize at *
  omega

/-- What a key is mapped to stands in an entry. -/
theorem Node.Proper.map_eq_some (h : nd.Proper) :
    nd.map κ = some j ↔ ∃ off, nd.Names off j ∧ key (nd.dirent off).name = κ := by
  constructor
  · intro hmap
    obtain ⟨off, hoff, hentry⟩ := exists_of_findSome?_eq_some hmap
    obtain ⟨haligned, hwithin⟩ := h.whole.mem_offsets.mp hoff
    split_ifs at hentry with hzero hname
    obtain rfl := some.inj hentry
    exact ⟨off, ⟨h.dir, haligned, hwithin, rfl, hzero⟩, hname⟩
  · rintro ⟨off, hnames, hname⟩
    have hoff := h.whole.mem_offsets.mpr ⟨hnames.aligned, hnames.within⟩
    have hentry : ((if (nd.dirent off).inum = 0 then none else if key (nd.dirent off).name = κ then
        some (nd.dirent off).inum else none) : Option ℕ) = some j := by
      rw [if_neg (hnames.inum ▸ hnames.used), if_pos hname, hnames.inum]
    cases hmap : nd.map κ with
    | none =>
      have hnone := List.findSome?_eq_none_iff.mp hmap off hoff
      exact nomatch hnone.symm.trans hentry
    | some j' =>
      -- the entry that was found first has the same key, so it is this one
      obtain ⟨off', hoff', hentry'⟩ := exists_of_findSome?_eq_some hmap
      obtain ⟨haligned, hwithin⟩ := h.whole.mem_offsets.mp hoff'
      split_ifs at hentry' with hzero hname'
      obtain rfl := h.once ⟨h.dir, haligned, hwithin, rfl, hzero⟩ hnames (hname'.trans hname.symm)
      rw [← hentry', ← hnames.inum]

/-- The entries of a directory in which one has been written. -/
theorem Node.dirent_write (hoff : direntSize ∣ off) (ho : direntSize ∣ o) :
    (nd.write src o direntSize).dirent off = if off = o then Dirent.read src else nd.dirent off := by
  unfold dirent write
  split_ifs with heq
  · subst heq
    apply Dirent.read_congr
    intro j hj
    simp only
    rw [if_pos ⟨by omega, by omega⟩, Nat.add_sub_cancel_left]
  · apply Dirent.read_congr
    intro j hj
    apply if_neg
    obtain ⟨m, rfl⟩ := hoff
    obtain ⟨l, rfl⟩ := ho
    unfold direntSize at *
    omega

/-- The entries in use of a directory in which one has been written. -/
theorem Node.Proper.names_write (h : nd.Proper) (ho : direntSize ∣ o) (hle : o ≤ nd.size) :
    (nd.write src o direntSize).Names off j ↔
      if off = o then (Dirent.read src).inum = j ∧ j ≠ 0 else nd.Names off j := by
  obtain ⟨m, hm⟩ := h.whole.dvd
  have hsize : (nd.write src o direntSize).size = max nd.size (o + direntSize) := rfl
  constructor
  · rintro ⟨-, haligned, hwithin, hinum, hused⟩
    rw [Node.dirent_write haligned ho] at hinum
    split_ifs at hinum ⊢ with heq
    · exact ⟨hinum, hused⟩
    · refine ⟨h.dir, haligned, ?_, hinum, hused⟩
      obtain ⟨l, rfl⟩ := haligned
      obtain ⟨l', rfl⟩ := ho
      unfold direntSize at *
      omega
  · intro hnames
    split_ifs at hnames with heq
    · subst heq
      refine ⟨h.dir, ho, hsize ▸ Nat.le_max_right _ _, ?_, hnames.2⟩
      rw [Node.dirent_write ho ho, if_pos rfl, hnames.1]
    · refine ⟨h.dir, hnames.aligned, hnames.within.trans (Nat.le_max_left _ _), ?_, hnames.used⟩
      rw [Node.dirent_write hnames.aligned ho, if_neg heq, hnames.inum]

/-- A directory with whole entries in which one has been written. -/
theorem Node.Whole.write (h : nd.Whole) (ho : direntSize ∣ o) (hmax : o + direntSize ≤ maxfile * bsize) :
    (nd.write src o direntSize).Whole := by
  refine ⟨?_, max_le h.le hmax⟩
  change direntSize ∣ max nd.size (o + direntSize)
  rcases max_choice nd.size (o + direntSize) with hmax | hmax
  · rw [hmax]
    exact h.dvd
  · rw [hmax]
    exact Nat.dvd_add ho (dvd_refl _)

/-- What the keys are mapped to when an entry has been written, if its key is new. -/
theorem Node.Proper.write (h : nd.Proper) (src : ℕ → BitVec 8) (ho : direntSize ∣ o) (hle : o ≤ nd.size)
    (hmax : o + direntSize ≤ maxfile * bsize) (hrange : (Dirent.read src).inum < ninodes)
    (hnew : (Dirent.read src).inum ≠ 0 → ∀ off j, off ≠ o → nd.Names off j →
      key (nd.dirent off).name ≠ key (Dirent.read src).name) :
    (nd.write src o direntSize).Proper ∧ ∀ κ j, (nd.write src o direntSize).map κ = some j ↔
      ((Dirent.read src).inum = j ∧ j ≠ 0 ∧ key (Dirent.read src).name = κ) ∨
        ∃ off, off ≠ o ∧ nd.Names off j ∧ key (nd.dirent off).name = κ := by
  -- an entry in use is the one that was written or one that was there
  have hcases : ∀ {off j}, (nd.write src o direntSize).Names off j →
      (off = o ∧ (nd.write src o direntSize).dirent off = Dirent.read src ∧
        (Dirent.read src).inum = j ∧ j ≠ 0) ∨
      (off ≠ o ∧ (nd.write src o direntSize).dirent off = nd.dirent off ∧ nd.Names off j) := by
    intro off j hnames
    have hdirent : (nd.write src o direntSize).dirent off = _ := Node.dirent_write hnames.aligned ho
    rw [h.names_write ho hle] at hnames
    split_ifs at hnames hdirent with heq
    · exact .inl ⟨heq, hdirent, hnames⟩
    · exact .inr ⟨heq, hdirent, hnames⟩
  have hproper : (nd.write src o direntSize).Proper := by
    refine ⟨h.dir, h.whole.write ho hmax, ?_, ?_⟩
    · intro off off' j j' hj hj' hkey
      obtain ⟨heq, hde, hinum, hused⟩ | ⟨hne, hde, hold⟩ := hcases hj
      · obtain ⟨heq', -⟩ | ⟨hne', hde', hold'⟩ := hcases hj'
        · exact heq.trans heq'.symm
        · rw [hde, hde'] at hkey
          exact absurd hkey.symm (hnew (hinum ▸ hused) _ _ hne' hold')
      · obtain ⟨-, hde', hinum, hused⟩ | ⟨-, hde', hold'⟩ := hcases hj'
        · rw [hde, hde'] at hkey
          exact absurd hkey (hnew (hinum ▸ hused) _ _ hne hold)
        · rw [hde, hde'] at hkey
          exact h.once hold hold' hkey
    · intro off j hj
      obtain ⟨-, -, rfl, -⟩ | ⟨-, -, hj⟩ := hcases hj
      · exact hrange
      · exact h.range hj
  refine ⟨hproper, fun κ j => ?_⟩
  rw [hproper.map_eq_some]
  constructor
  · rintro ⟨off, hj, hkey⟩
    obtain ⟨-, hde, hinum, hused⟩ | ⟨hne, hde, hj⟩ := hcases hj
    · exact .inl ⟨hinum, hused, hde ▸ hkey⟩
    · exact .inr ⟨off, hne, hj, hde ▸ hkey⟩
  · rintro (⟨hinum, hused, hkey⟩ | ⟨off, hne, hj, hkey⟩)
    · refine ⟨o, (h.names_write ho hle).mpr ?_, ?_⟩
      · rw [if_pos rfl]
        exact ⟨hinum, hused⟩
      · rw [Node.dirent_write ho ho, if_pos rfl, hkey]
    · refine ⟨off, (h.names_write ho hle).mpr ?_, ?_⟩
      · rwa [if_neg hne]
      · rw [Node.dirent_write hj.aligned ho, if_neg hne, hkey]

/-- A new entry adds its key to the map. -/
theorem Node.Proper.link (h : nd.Proper) (hnone : nd.map (key name) = none) (hi : 0 < i)
    (hlt : i < ninodes) (hmax : nd.room + direntSize ≤ maxfile * bsize) :
    (nd.write (Dirent.bytes i name) nd.room direntSize).Proper ∧
      (nd.write (Dirent.bytes i name) nd.room direntSize).map = update nd.map (key name) (some i) := by
  have hinum := inum_dirent_bytes hlt name
  have hkey := key_dirent_bytes i name
  -- the key of the name is in no entry, and no entry in use is at the place of the new one
  have hfresh : ∀ {off j}, nd.Names off j → key (nd.dirent off).name ≠ key name := by
    intro off j hj heq
    exact nomatch hnone.symm.trans (h.map_eq_some.mpr ⟨off, hj, heq⟩)
  have hroom : direntSize ∣ nd.room ∧ ∀ {off j}, nd.Names off j → off ≠ nd.room := by
    obtain ⟨hmem, hzero⟩ | ⟨hend, -⟩ := h.whole.room_cases
    · refine ⟨dvd_of_mem_offsets hmem, fun hj heq => hj.used ?_⟩
      rw [← hj.inum, heq, hzero]
    · rw [hend]
      refine ⟨h.whole.dvd, fun hj heq => ?_⟩
      have hwithin := hj.within
      unfold direntSize at hwithin
      omega
  obtain ⟨hproper, hmap⟩ := h.write (Dirent.bytes i name) hroom.1 h.whole.room_le hmax
    (by rwa [hinum]) fun _ off j _ hj => by rw [hkey]; exact hfresh hj
  refine ⟨hproper, funext fun κ => Option.ext fun j => ?_⟩
  rw [hmap, hinum, hkey]
  by_cases hκ : κ = key name
  · subst hκ
    rw [update_self, some.injEq]
    constructor
    · rintro (⟨rfl, -, -⟩ | ⟨off, -, hj, heq⟩)
      · rfl
      · exact absurd heq (hfresh hj)
    · rintro rfl
      exact .inl ⟨rfl, hi.ne', rfl⟩
  · rw [update_of_ne hκ, h.map_eq_some]
    constructor
    · rintro (⟨-, -, heq⟩ | ⟨off, -, hj, heq⟩)
      · exact absurd heq.symm hκ
      · exact ⟨off, hj, heq⟩
    · rintro ⟨off, hj, heq⟩
      exact .inr ⟨off, hroom.2 hj, hj, heq⟩

/-- Zeroing an entry takes its key from the map. -/
theorem Node.Proper.unlink (h : nd.Proper) (hj : nd.Names off j) :
    (nd.write (fun _ => 0) off direntSize).Proper ∧
      (nd.write (fun _ => 0) off direntSize).map = update nd.map (key (nd.dirent off).name) none := by
  have hzero : (Dirent.read fun _ => 0).inum = 0 := rfl
  have hwithin := hj.within
  obtain ⟨hproper, hmap⟩ := h.write (fun _ => 0) hj.aligned (by omega)
    (hwithin.trans h.whole.le) (by rw [hzero]; decide) fun hne => absurd hzero hne
  refine ⟨hproper, funext fun κ => Option.ext fun l => ?_⟩
  rw [hmap, hzero]
  by_cases hκ : κ = key (nd.dirent off).name
  · subst hκ
    rw [update_self]
    refine iff_of_false ?_ nofun
    rintro (⟨rfl, hused, -⟩ | ⟨off', hne, hl, heq⟩)
    · exact hused rfl
    · exact hne (h.once hl hj heq)
  · rw [update_of_ne hκ, h.map_eq_some]
    constructor
    · rintro (⟨rfl, hused, -⟩ | ⟨off', -, hl, heq⟩)
      · exact absurd rfl hused
      · exact ⟨off', hl, heq⟩
    · rintro ⟨off', hl, heq⟩
      refine .inr ⟨off', ?_, hl, heq⟩
      rintro rfl
      exact hκ heq.symm

end

/-! ### The calls -/

/-- `dirlookup` answers with an inode, or with none. It returns when the inode finds a place in the
inode cache. -/
def Answers (s : State) (dp : Fin ninode) (name : Name) (a : Option ℕ) : Prop :=
  Yields (dirlookup dp name) (∀ j, a = some j → (view s).Available j)
    (fun r s' => r.map (fun p => (view s').inum p.1) = a) s

section

variable {s s' : State} {k dp : Fin ninode} {nd nd' : Node} {name : Name} {i off : ℕ} {E : Panic → Prop}

theorem At.answers (h : At s dp nd) (hnd : nd.Proper) (name : Name) :
    Answers s dp name (nd.map (key name)) := by
  refine yields_of_wp fun E hE => ?_
  rw [← nd.map_key] at hE ⊢
  refine h.wp_dirlookup (hE.imp (fun hall e _ => hall e) fun hplace =>
    ⟨hnd.dir, hnd.whole, fun j off hj => hplace j (by rw [hj]; rfl)⟩) (fun _ _ => hnd.range) ?_ ?_
  · intro _ hmiss
    rw [hmiss]
    rfl
  · intro j off k s' hfound _ _ hgot _
    rw [hfound]
    exact congrArg some hgot.inum

/-- `dirlookup` has found an entry. -/
theorem At.found (h : At s dp nd) (hnd : nd.Proper) {ip : Fin ninode}
    (hrun : dirlookup dp name s = .ok (some (ip, off), s')) :
    (∃ j, nd.Names off j) ∧ key (nd.dirent off).name = key name := by
  have hspec : wp (dirlookup dp name) (fun _ => True) (fun r _ => ∀ p, r = some p →
      (∃ j, nd.Names p.2 j) ∧ key (nd.dirent p.2).name = key name) s := by
    refine h.wp_dirlookup any_panic (fun _ _ => hnd.range) (fun _ _ => nofun) ?_
    rintro j off k s' hfound hnames - - - p hp
    obtain rfl := some.inj hp
    obtain ⟨off', -, hentry⟩ := exists_of_findSome?_eq_some hfound
    split_ifs at hentry with hzero hname
    obtain ⟨-, rfl⟩ := Prod.mk.inj (some.inj hentry)
    exact ⟨⟨j, hnames⟩, (namecmp_eq_zero_iff.mp hname).symm⟩
  exact wp_ok hspec hrun _ rfl

end

end Xv6Draw.Fs
