import Xv6Draw.Fs.WriteBudget

/-!
# Inodes as byte arrays

The contents of an inode are a list of bytes. `writei` replaces a part of the list or
extends it, and `readi` returns a part of it. All that is needed is that every block is
free, metadata or pointed to once, and that there are enough free blocks: files may
have holes, which read as zeros. The invariant is stated for the state alone, and the
owners of the blocks are recovered from the pointers.
-/

namespace Xv6Draw.Fs

open Hoare List Option

variable {s s' : State} {g g' : Ghost} {k : Fin ninode} {i : ℕ}

/-- The entry of the cache that has a valid copy of an inode. -/
def heldEntry (s : State) (i : ℕ) : Option (Fin ninode) :=
  (finRange ninode).find? fun k =>
    0 < (s.icache k).ref ∧ (s.icache k).inum = i ∧ (s.icache k).valid = true

/-- An inode: the valid copy in the cache, or else what is on the disk. -/
def inodeOf (s : State) (i : ℕ) : Dinode :=
  match heldEntry s i with
  | some k => (s.icache k).d
  | none => dinode s.disk i

/-- A block is at a position of an allocated inode. -/
structure PointsTo (s : State) (i n b : ℕ) : Prop where
  inode : i < ninodes
  live : (inodeOf s i).type ≠ 0
  /-- The position is a data block or the indirect block. -/
  position : n ≤ maxfile
  ptr : ptr s.disk (inodeOf s i) n = b
  pos : b ≠ 0

/-- Every block is owned: pointers name data blocks, no two of them the same, and the bitmap
marks the metadata and the blocks with a pointer to them. -/
structure BlocksOwned (s : State) : Prop where
  data : ∀ i n b, PointsTo s i n b → nmeta ≤ b ∧ b < fsSize
  /-- There is one pointer to a block. -/
  once : ∀ i j m n b, PointsTo s i m b → PointsTo s j n b → i = j ∧ m = n
  bits : ∀ b < fsSize, bit s.disk b = true ↔ b < nmeta ∨ ∃ i n, PointsTo s i n b
  unique : ∀ j k, 0 < (s.icache j).ref → 0 < (s.icache k).ref →
    (s.icache j).inum = (s.icache k).inum → j = k
  range : ∀ k, 0 < (s.icache k).ref → (s.icache k).inum < ninodes
  /-- Valid copies are of allocated inodes. -/
  live : ∀ k, 0 < (s.icache k).ref → (s.icache k).valid = true → (s.icache k).d.type ≠ 0

/-- The bytes of a file that is not larger than files can be. -/
def Node.bytes (nd : Node) : Option (List (BitVec 8)) :=
  if nd.size ≤ maxfile * bsize then some ((range nd.size).map nd.data) else none

/-- The contents of an allocated inode. -/
def contents (s : State) (i : ℕ) : Option (List (BitVec 8)) :=
  (node s.disk (inodeOf s i)).bind Node.bytes

/-! ### Owners -/

theorem held_of_heldEntry (h : heldEntry s i = some k) : Held s k i := by
  have hfound := List.find?_some h
  simp only [decide_eq_true_eq] at hfound
  exact ⟨hfound.1, hfound.2.1, hfound.2.2⟩

theorem not_held_of_heldEntry (h : heldEntry s i = none) (k : Fin ninode) : ¬ Held s k i := by
  intro hk
  unfold heldEntry at h
  rw [List.find?_eq_none] at h
  exact h k (mem_finRange k) (by simpa using ⟨hk.ref, hk.inum, hk.valid⟩)

/-- The inodes of a state are those that it stores. -/
theorem Store.inodeOf_eq (h : Store s g) (hi : i < ninodes) : inodeOf s i = g.ino i := by
  unfold inodeOf
  cases hentry : heldEntry s i with
  | some k =>
    obtain ⟨-, -, hcopy⟩ := (held_of_heldEntry hentry).facts h.cache
    exact hcopy
  | none => exact h.uncached i hi (not_held_of_heldEntry hentry)

variable {n off : ℕ} {c : List (BitVec 8)} {src : ℕ → BitVec 8}

/-- Pointers are the positions that own blocks. -/
theorem Store.pointsTo_iff (h : Store s g) {b : ℕ} : PointsTo s i n b ↔ g.owner b = some (i, n) :=
    by
  constructor
  · rintro ⟨hi, hlive, hn, hptr, hpos⟩
    rw [h.inodeOf_eq hi] at hlive hptr
    rw [← hptr] at hpos ⊢
    exact h.owned.owns i hi hlive nofun n hn hpos
  · intro howner
    obtain ⟨hi, hlive, hn, hptr, hlow, -⟩ := h.owned.sound b i n howner
    rw [← h.inodeOf_eq hi] at hlive hptr
    refine ⟨hi, hlive, hn, hptr, ?_⟩
    unfold nmeta at hlow
    omega

/-- The blocks of a state that stores a ghost are owned. -/
theorem Store.blocksOwned (h : Store s g) : BlocksOwned s := by
  refine ⟨?_, ?_, ?_, h.cache.unique, h.cache.range, h.cache.live⟩
  · intro i n b hptr
    obtain ⟨-, -, -, -, hlow, hlt⟩ := h.owned.sound b i n (h.pointsTo_iff.mp hptr)
    exact ⟨hlow, hlt⟩
  · intro i j m n b hi hj
    have howner := h.pointsTo_iff.mp hi
    rw [h.pointsTo_iff.mp hj, some.injEq, Prod.mk.injEq] at howner
    exact ⟨howner.1.symm, howner.2.symm⟩
  · intro b hb
    rw [h.owned.bits b hb]
    refine or_congr_right ?_
    rw [isSome_iff_exists]
    constructor
    · rintro ⟨⟨i, n⟩, howner⟩
      exact ⟨i, n, h.pointsTo_iff.mpr howner⟩
    · rintro ⟨i, n, hptr⟩
      exact ⟨(i, n), h.pointsTo_iff.mp hptr⟩

/-- The owner of a block can be told from the pointers. -/
theorem BlocksOwned.exists_owner (h : BlocksOwned s) :
    ∃ owner : ℕ → Option (ℕ × ℕ), ∀ b i n, owner b = some (i, n) ↔ PointsTo s i n b := by
  classical
  refine ⟨fun b => if hb : ∃ p : ℕ × ℕ, PointsTo s p.1 p.2 b then some hb.choose else none, ?_⟩
  intro b i n
  dsimp only
  split_ifs with hb
  · rw [some.injEq]
    constructor
    · intro heq
      have hspec := hb.choose_spec
      rwa [heq] at hspec
    · intro hptr
      obtain ⟨hi, hn⟩ := h.once _ _ _ _ _ hb.choose_spec hptr
      exact Prod.ext hi hn
  · refine iff_of_false nofun fun hptr => hb ⟨(i, n), hptr⟩

/-- A state whose blocks are owned stores its inodes. -/
theorem BlocksOwned.store (h : BlocksOwned s) : ∃ g, Store s g := by
  obtain ⟨owner, howner⟩ := h.exists_owner
  refine ⟨⟨inodeOf s, owner⟩, ⟨?_, ?_, ?_, ?_⟩, ?_, ?_⟩
  · intro b i n hb
    have hptr := (howner b i n).mp hb
    obtain ⟨hlow, hlt⟩ := h.data i n b hptr
    exact ⟨hptr.inode, hptr.live, hptr.position, hptr.ptr, hlow, hlt⟩
  · intro i hi hlive _ n hn hne
    exact (howner _ i n).mpr ⟨hi, hlive, hn, rfl, hne⟩
  · intro i hi hlive hne
    have hptr : PointsTo s i maxfile ((inodeOf s i).addr ndirect) :=
      ⟨hi, hlive, Nat.le_refl _, ptr_maxfile _ _, hne⟩
    exact (h.data _ _ _ hptr).1
  · intro b hb
    rw [h.bits b hb]
    refine or_congr_right ?_
    rw [isSome_iff_exists]
    constructor
    · rintro ⟨i, n, hptr⟩
      exact ⟨(i, n), (howner b i n).mpr hptr⟩
    · rintro ⟨⟨i, n⟩, hb⟩
      exact ⟨i, n, (howner b i n).mp hb⟩
  · intro i _ hnone
    change dinode s.disk i = inodeOf s i
    unfold inodeOf
    cases hentry : heldEntry s i with
    | some k => exact absurd (held_of_heldEntry hentry) (hnone k)
    | none => rfl
  · refine ⟨h.unique, h.range, ?_, h.live⟩
    intro k href hvalid
    change (s.icache k).d = inodeOf s (s.icache k).inum
    unfold inodeOf
    cases hentry : heldEntry s (s.icache k).inum with
    | some j =>
      -- the entry that is found is the only one with this inode
      have hj := held_of_heldEntry hentry
      change (s.icache k).d = (s.icache j).d
      rw [h.unique k j href hj.ref hj.inum.symm]
    | none => exact absurd ⟨href, rfl, hvalid⟩ (not_held_of_heldEntry hentry k)

/-! ### Contents -/

theorem Store.contents_eq (h : Store s g) (hi : i < ninodes) :
    contents s i = (vol s.disk g i).bind Node.bytes := by
  rw [contents, vol, if_pos hi, h.inodeOf_eq hi]

/-- The contents of an allocated inode have its size. -/
theorem Store.contents_eq_some (h : Store s g) (hi : i < ninodes)
    (hc : contents s i = some c) : (g.ino i).size.toNat ≤ maxfile * bsize ∧
      c = (range (g.ino i).size.toNat).map (fileByte s.disk (g.ino i)) := by
  rw [contents, h.inodeOf_eq hi, node] at hc
  split_ifs at hc with hlive
  · cases hc
  · rw [bind_some, Node.bytes] at hc
    split_ifs at hc with hmax
    exact ⟨hmax, (some.inj hc).symm⟩

/-- Writing to a file is writing to its bytes. -/
theorem Node.bytes_write {nd : Node} (hc : nd.bytes = some c) (hoff : off ≤ c.length)
    (hmax : off + n ≤ maxfile * bsize) : (nd.write src off n).bytes =
      some (c.take off ++ (range n).map src ++ c.drop (off + n)) := by
  unfold bytes at hc
  split_ifs at hc with hsize
  obtain rfl := some.inj hc
  rw [length_map, length_range] at hoff
  have hsize' : (nd.write src off n).size = max nd.size (off + n) := rfl
  rw [bytes, hsize', if_pos (by omega), some.injEq]
  apply ext_getElem
  · simp
    omega
  · intro x hx _
    rw [getElem_map, getElem_range, write]
    simp only
    split_ifs with hin
    · rw [getElem_append_left (by simp; omega), getElem_append_right (by simp; omega)]
      simp [Nat.min_eq_left hoff]
    · by_cases hlow : x < off
      · rw [getElem_append_left (by simp; omega), getElem_append_left (by simp; omega)]
        simp
      · rw [getElem_append_right (by simp; omega)]
        simp only [length_append, length_take, length_map, length_range,
          Nat.min_eq_left hoff, getElem_drop, getElem_map, getElem_range]
        congr 1
        omega

theorem Grows.contents_eq (h : Grows k i s g s' g') (hstore : Store s g) (hstore' : Store s' g')
    {j : ℕ} (hj : j < ninodes) : contents s' j = contents s j := by
  rw [hstore.contents_eq hj, hstore'.contents_eq hj, h.vol hstore.owned]

theorem Wrote.contents_eq (h : Wrote k i src off n s g s' g')
    (hstore : Store s g) (hi : i < ninodes) (hc : contents s i = some c)
    (hoff : off ≤ c.length) (hmax : off + n ≤ maxfile * bsize) :
    contents s' i = some (c.take off ++ (range n).map src ++ c.drop (off + n)) := by
  rw [hstore.contents_eq hi] at hc
  obtain ⟨nd, hnd, hbytes⟩ := bind_eq_some_iff.mp hc
  rw [h.store.contents_eq hi, h.vol, Function.update_self, hnd]
  exact Node.bytes_write hbytes hoff hmax

end Xv6Draw.Fs
