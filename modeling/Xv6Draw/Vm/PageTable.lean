import Xv6Draw.Vm.Machine

/-!
# Page tables

The functions of `vm.c` on page tables of four levels. A pointer to an entry is the frame
of its table with an index. The four levels of `walkpgdir` and of `freevm` are one
definition each for a level.
-/

namespace Xv6Draw.Vm

open BitVec Nat Ownership

/-! ### `mmu.h` -/

/-- `PTE_P`. -/
def pteP : Word := 0x001

/-- `PTE_W`. -/
def pteW : Word := 0x002

/-- `PTE_U`. -/
def pteU : Word := 0x004

/-- `PTE_PS`. -/
def ptePS : Word := 0x080

/-- `PTE_ADDR`. -/
def pteAddr (pte : Word) : Word := pte &&& ~~~0xFFF

/-- `PTE_FLAGS`. -/
def pteFlags (pte : Word) : Word := pte &&& 0xFFF

/-- `PGROUNDDOWN`. -/
def pgrounddown (a : Word) : Word := a &&& ~~~(pgsize - 1)

/-- `PGROUNDUP`. -/
def pgroundup (sz : Word) : Word := (sz + (pgsize - 1)) &&& ~~~(pgsize - 1)

/-- The index of an address at a level of the page table. -/
def px (shift : ℕ) (va : Word) : Index := ((va >>> shift) &&& 0x1FF).setWidth 9

/-- `PMX`. -/
def pmx : Word → Index := px 39

/-- `PDPX`. -/
def pdpx : Word → Index := px 30

/-- `PDX`. -/
def pdx : Word → Index := px 21

/-- `PTX`. -/
def ptx : Word → Index := px 12

/-! ### `vm.c` -/

/-- `setupkvm`, with the table of the kernel's half. -/
def setupkvm (kpdpt : Frame) : Kernel (Option Frame) := do
  let some pml4 ← kalloc | fail .nullPointer
  clear pml4
  store pml4 256 (v2p kpdpt ||| pteP ||| pteW)
  return some pml4

/-- A level of `walkpgdir`: the table that an entry leads to. -/
def nextTable (table : Frame) (i : Index) (alloc : Bool) : Kernel (Option Frame) := do
  let entry ← load table i
  if entry &&& pteP ≠ 0 then return some (p2v (pteAddr entry))
  else if !alloc then return none
  else
    let some next ← kalloc | return none
    clear next
    store table i (v2p next ||| pteP ||| pteW ||| pteU)
    return some next

/-- `walkpgdir`. -/
def walkpgdir (pml4 : Frame) (va : Word) (alloc : Bool) : Kernel (Option (Frame × Index)) := do
  let some pdp ← nextTable pml4 (pmx va) alloc | return none
  let some pd ← nextTable pdp (pdpx va) alloc | return none
  let some pgtab ← nextTable pd (pdx va) alloc | return none
  return some (pgtab, ptx va)

/-- The loop of `mappages`, with the number of pages it can still map. -/
def mapLoop (pgdir : Frame) (last : Word) (perm : BitVec 32) : ℕ → Word → Word → Kernel ℤ
  | 0, _, _ => return 0
  | n + 1, a, pa => do
    let some (table, i) ← walkpgdir pgdir a true | return -1
    let pte ← load table i
    if pte &&& pteP ≠ 0 then fail .remap
    else
      store table i (pa ||| perm.signExtend 64 ||| pteP)
      if a = last then return 0
      else mapLoop pgdir last perm n (a + pgsize) (pa + pgsize)

/-- `mappages`. -/
def mappages (pgdir : Frame) (va size pa : Word) (perm : BitVec 32) : Kernel ℤ :=
  let a := pgrounddown va
  let last := pgrounddown (va + size - 1)
  mapLoop pgdir last perm (((last - a) / pgsize).toNat + 1) a pa

/-- `inituvm`. -/
def inituvm (pgdir : Frame) (init : List (BitVec 8)) : Kernel Unit :=
  if 4096 ≤ init.length then fail .initTooLarge
  else do
    let some mem ← kalloc | fail .nullPointer
    clear mem
    let _ ← mappages pgdir pgsize pgsize (v2p mem) ((pteW ||| pteU).setWidth 32)
    update mem fun page => writeBytes page 0 init

/-- The first indices of a table. -/
def indices (n : ℕ) : List Index := (List.range n).map (BitVec.ofNat 9)

/-- A level of `freevm`: the pages below an entry. -/
def freeTable : ℕ → Frame → Kernel Unit
  | 0, v => kfree v
  | level + 1, table => do
    (indices 512).forM fun i => do
      let entry ← load table i
      if entry &&& pteP ≠ 0 then freeTable level (p2v (pteAddr entry))
    kfree table

/-- `freevm` of a page table. -/
def freevm (pml4 : Frame) : Kernel Unit := do
  (indices 256).forM fun i => do
    let entry ← load pml4 i
    if entry &&& pteP ≠ 0 then freeTable 3 (p2v (pteAddr entry))
  kfree pml4

/-- The addresses that a loop over the pages from `a` below `e` goes through. -/
def pages (a e : Word) : List Word :=
  (List.range ((e.toNat - a.toNat + 4095) / 4096)).map fun k => a + pgsize * BitVec.ofNat 64 k

/-- The loop of `copyuvm`. -/
def copyLoop (pgdir d : Frame) : List Word → Kernel Bool
  | [] => return true
  | i :: rest => do
    let some (table, x) ← walkpgdir pgdir i false | fail .pteShouldExist
    let pte ← load table x
    if pte &&& pteP = 0 then fail .pageNotPresent
    else
      let pa := pteAddr pte
      let flags := pteFlags pte
      let some mem ← kalloc | return false
      copyPage mem (p2v pa)
      if (← mappages d i pgsize (v2p mem) (flags.setWidth 32)) < 0 then return false
      else copyLoop pgdir d rest

/-- `copyuvm`. -/
def copyuvm (kpdpt pgdir : Frame) (sz : BitVec 32) : Kernel (Option Frame) := do
  let some d ← setupkvm kpdpt | return none
  if ← copyLoop pgdir d (pages pgsize (sz.setWidth 64)) then return some d
  else
    freevm d
    return none

/-! ### Arithmetic of entries -/

theorem p2v_pteAddr (w : Word) : p2v (pteAddr w) = p2v w := by
  have hmask : ∀ i : Fin 52, (18446744073709547520#64).getLsbD (12 + i.val) = true := by decide
  ext i hi
  simp [p2v, pteAddr, hmask ⟨i, hi⟩]

theorem pteFlags_toNat (w : Word) : (pteFlags w).toNat = w.toNat % 4096 := by
  rw [pteFlags, toNat_and]
  exact and_two_pow_sub_one_eq_mod w.toNat 12

theorem pteAddr_toNat (w : Word) : (pteAddr w).toNat = w.toNat / 4096 * 4096 := by
  have hframe := congrArg BitVec.toNat (p2v_pteAddr w)
  have hflags : pteFlags (pteAddr w) = 0 := by
    rw [pteFlags, pteAddr, BitVec.and_assoc]
    simp
  have hzero := pteFlags_toNat (pteAddr w)
  rw [hflags] at hzero
  rw [p2v_toNat, p2v_toNat] at hframe
  simp only [ofNat_eq_ofNat, toNat_ofNat] at hzero
  omega

theorem v2p_or_toNat (f : Frame) {w : Word} (hw : w.toNat < 4096) :
    (v2p f ||| w).toNat = f.toNat * 4096 + w.toNat := by
  have hor := shiftLeft_add_eq_or_of_lt (i := 12) hw f.toNat
  rw [Nat.shiftLeft_eq] at hor
  rw [toNat_or, v2p_toNat]
  exact hor.symm

theorem and_pteP_ne_zero (w : Word) : w &&& pteP ≠ 0 ↔ w.toNat % 2 = 1 := by
  have hand : (w &&& pteP).toNat = w.toNat % 2 := by
    rw [pteP, toNat_and]
    exact and_one_is_mod w.toNat
  rw [ne_eq, ← toNat_inj, hand]
  simp

theorem or_pteP_mod (w : Word) : (w ||| pteP).toNat % 2 = 1 := by
  rw [← and_pteP_ne_zero]
  intro hzero
  have hbit : ((w ||| pteP) &&& pteP).getLsbD 0 = true := by simp [pteP]
  simp [hzero] at hbit

theorem or_pteP_lt {w : Word} (hw : w.toNat < 4096) : (w ||| pteP).toNat < 4096 := by
  rw [toNat_or]
  exact or_lt_two_pow (n := 12) hw (by decide)

theorem or_pteP_of_present {w : Word} (hw : w &&& pteP ≠ 0) : w ||| pteP = w := by
  have hbit : w.getLsbD 0 = true := by
    by_contra hfalse
    apply hw
    ext i hi
    rcases i with _ | i
    · simpa [pteP] using hfalse
    · simp [pteP]
  ext i hi
  rcases i with _ | i
  · simpa [pteP] using hbit
  · simp [pteP]

theorem signExtend_toNat {perm : BitVec 32} (hperm : perm.toNat < 4096) :
    (perm.signExtend 64).toNat = perm.toNat := by
  have hmsb : perm.msb = false := by
    rw [msb_eq_false_iff_two_mul_lt]
    omega
  rw [toNat_signExtend, hmsb, toNat_setWidth]
  simp only [Bool.false_eq_true, ↓reduceIte]
  omega

theorem px_toNat (shift : ℕ) (va : Word) : (px shift va).toNat = va.toNat / 2 ^ shift % 512 := by
  have hmask : (0x1FF : Word).toNat = 2 ^ 9 - 1 := rfl
  rw [px, toNat_setWidth, toNat_and, toNat_ushiftRight,
    shiftRight_eq_div_pow, hmask, and_two_pow_sub_one_eq_mod]
  exact mod_mod _ _

theorem pgrounddown_toNat (a : Word) : (pgrounddown a).toNat = a.toNat / 4096 * 4096 :=
  pteAddr_toNat a

theorem pgroundup_toNat {a : Word} (ha : a.toNat < 2 ^ 63) :
    (pgroundup a).toNat = (a.toNat + 4095) / 4096 * 4096 := by
  have hround := pteAddr_toNat (a + (pgsize - 1))
  rw [toNat_add, show (pgsize - 1).toNat = 4095 from rfl, mod_eq_of_lt (by omega)] at hround
  exact hround

section Pages

variable {a s : Word} {k : ℕ} (hs : s.toNat % 4096 = 0) (hk : s.toNat + 4096 * k < 2 ^ 64)

include hk

theorem nth_page_toNat {j : ℕ} (hj : j < k) :
    (s + pgsize * BitVec.ofNat 64 j).toNat = s.toNat + 4096 * j := by
  simp only [pgsize, toNat_add, toNat_mul, ofNat_eq_ofNat, toNat_ofNat]
  omega

theorem nodup_pageRange : ((List.range k).map fun j => s + pgsize * BitVec.ofNat 64 j).Nodup := by
  refine List.Nodup.map_on ?_ List.nodup_range
  intro i hi j hj heq
  rw [List.mem_range] at hi hj
  have hnat := congrArg BitVec.toNat heq
  rw [nth_page_toNat hk hi, nth_page_toNat hk hj] at hnat
  omega

include hs

theorem mem_pageRange : (a ∈ (List.range k).map fun j => s + pgsize * BitVec.ofNat 64 j) ↔
    a.toNat % 4096 = 0 ∧ s.toNat ≤ a.toNat ∧ a.toNat < s.toNat + 4096 * k := by
  rw [List.mem_map]
  constructor
  · rintro ⟨j, hj, rfl⟩
    rw [List.mem_range] at hj
    rw [nth_page_toNat hk hj]
    omega
  · rintro ⟨haligned, hlow, hhigh⟩
    refine ⟨(a.toNat - s.toNat) / 4096, by rw [List.mem_range]; omega, eq_of_toNat_eq ?_⟩
    rw [nth_page_toNat hk (by omega)]
    omega

end Pages

end Xv6Draw.Vm
