import Xv6Draw.Lib.Ownership
import Mathlib

/-!
# Physical memory and the page allocator

Physical pages with `kalloc` and `kfree` of `kalloc.c`. The free pages are linked through
their first words. The kernel reaches all of physical memory at a fixed distance, so a
kernel pointer to the start of a page is the number of its frame here.

`kalloc` panics when there is no page, so it never returns 0; its callers look at the
result all the same.
-/

namespace Xv6Draw.Vm

open BitVec Function List Ownership

/-- `addr_t`, and the entries of page tables. -/
abbrev Word := BitVec 64

/-- The number of a physical page. -/
abbrev Frame := BitVec 52

/-- An index of a page table. -/
abbrev Index := BitVec 9

/-- The content of a physical page. -/
abbrev Page := Index → Word

/-- `PGSIZE`. -/
def pgsize : Word := 4096

/-- `KERNBASE`. -/
def kernbase : Word := 0xFFFF800000000000

/-- `PHYSTOP`, as the number of a page. -/
def phystop : Frame := 0xE000

/-- `V2P` of a pointer to a page. -/
def v2p (v : Frame) : Word := v ++ 0#12

/-- `P2V` of the address of a page. -/
def p2v (pa : Word) : Frame := pa.extractLsb' 12 52

/-- The byte of a page at an address. -/
def byteOf (page : Page) (va : Word) : BitVec 8 :=
  (page (va.extractLsb' 3 9)).extractLsb' (8 * (va.toNat % 8)) 8

/-- The byte of a page at an address is set. -/
def setByte (page : Page) (va : Word) (b : BitVec 8) : Page :=
  let shift := 8 * (va.toNat % 8)
  Function.update page (va.extractLsb' 3 9)
    ((page (va.extractLsb' 3 9) &&& ~~~(0xFF#64 <<< shift)) ||| (b.setWidth 64 <<< shift))

/-- Bytes that are written into a page. -/
def writeBytes (page : Page) : ℕ → List (BitVec 8) → Page
  | _, [] => page
  | off, b :: bs => writeBytes (setByte page (BitVec.ofNat 64 off) b) (off + 1) bs

/-- The panics of `kalloc.c`, `vm.c` and `userinit`. -/
inductive Panic where
  /-- `kalloc`: "Out of memory!" -/
  | outOfMemory
  /-- `kfree`, `deallocuvm`: "kfree" -/
  | kfree
  /-- `mappages`: "remap" -/
  | remap
  /-- `copyuvm`: "copyuvm: pte should exist" -/
  | pteShouldExist
  /-- `copyuvm`: "copyuvm: page not present" -/
  | pageNotPresent
  /-- `inituvm`: "inituvm: more than a page" -/
  | initTooLarge
  /-- `userinit`: "userinit: out of memory?" -/
  | userinit
  /-- A null pointer is used. -/
  | nullPointer
  deriving DecidableEq, Repr

/-- Programs of the kernel that use memory. -/
abbrev Kernel := Prog Frame Page Panic

/-- The memory of the machine with `kmem.freelist`. -/
structure Machine where
  mem : Frame → Page
  freelist : Option Frame

/-- A pointer to a page as it is stored in memory. -/
def ptr : Option Frame → Word
  | none => 0
  | some f => kernbase + v2p f

/-- The pointer that is stored in a word. -/
def unptr (w : Word) : Option Frame := if w = 0 then none else some (p2v (w - kernbase))

/-- `kalloc`. -/
def Machine.kalloc (m : Machine) : Except Panic (Frame × Machine) :=
  match m.freelist with
  | none => .error .outOfMemory
  | some r => .ok (r, { m with freelist := unptr (m.mem r 0) })

/-- `memset` with ones. -/
def junk : Page := fun _ => 0x0101010101010101

/-- `kfree`, with the first page behind the kernel. -/
def Machine.kfree (kend v : Frame) (m : Machine) : Except Panic Machine :=
  if v < kend ∨ phystop ≤ v then .error .kfree
  else
    .ok { mem := Function.update m.mem v (Function.update junk 0 (ptr m.freelist)), freelist := some v }

/-- A change to a page. -/
def Machine.update (f : Frame) (g : Page → Page) (m : Machine) : Machine :=
  { m with mem := Function.update m.mem f (g (m.mem f)) }

/-- The memory that programs of the kernel run on. -/
def memory (kend : Frame) : Memory Machine Frame Page Panic where
  get := Machine.mem
  update := Machine.update
  alloc := Machine.kalloc
  free := Machine.kfree kend

/-! ### The programs -/

/-- `kalloc` in a program. -/
def kalloc : Kernel (Option Frame) := do
  let r ← alloc
  return some r

/-- `kfree` in a program. -/
def kfree (v : Frame) : Kernel Unit := free v

/-- A word of a page. -/
def load (f : Frame) (i : Index) : Kernel Word := do
  let page ← read f
  return page i

/-- A word of a page is set. -/
def store (f : Frame) (i : Index) (w : Word) : Kernel Unit :=
  update f fun page => Function.update page i w

/-- `memset` of a page with zeros. -/
def clear (f : Frame) : Kernel Unit := update f fun _ _ => 0

/-- `memmove` of a page. -/
def copyPage (dst src : Frame) : Kernel Unit := do
  let page ← read src
  update dst fun _ => page

/-- The pages from one up to another. -/
def framesFrom (start stop : Frame) : List Frame :=
  (range (stop.toNat - start.toNat)).map fun i => start + BitVec.ofNat 52 i

/-- `freerange`. -/
def freerange (start stop : Frame) : Kernel Unit := (framesFrom start stop).forM kfree

section Specs

variable {A : Allocator Frame Panic} {E : Panic → Prop} {h : Heap Frame Page} {n : ℕ}

theorem wp_kalloc {Q : Option Frame → Heap Frame Page → ℕ → Prop} (hzero : n = 0 → E A.exhausted)
    (hsucc : ∀ f page m, n = m + 1 → A.managed f → h f = none →
      Q (some f) (update h f (some page)) m) : wp A E Q kalloc h n := by
  refine wp_bind (wp_alloc hzero ?_)
  intro f page m hm hf hnone
  exact wp_pure (hsucc f page m hm hf hnone)

variable {f : Frame} {page : Page} {Q : Unit → Heap Frame Page → ℕ → Prop}

theorem wp_load {i : Index} {Q : Word → Heap Frame Page → ℕ → Prop}
    (hf : h f = some page) (hQ : Q (page i) h n) : wp A E Q (load f i) h n :=
  wp_bind (wp_read hf (wp_pure hQ))

theorem wp_store {i : Index} {w : Word} (hf : h f = some page)
    (hQ : Q () (update h f (some (update page i w))) n) : wp A E Q (store f i w) h n :=
  wp_update hf hQ

theorem wp_clear
    (hf : h f = some page) (hQ : Q () (update h f (some fun _ => 0)) n) :
    wp A E Q (clear f) h n :=
  wp_update hf hQ

theorem wp_copyPage {dst src : Frame} {old : Page} (hdst : h dst = some old) (hsrc : h src = some page)
    (hQ : Q () (update h dst (some page)) n) : wp A E Q (copyPage dst src) h n :=
  wp_bind (wp_read hsrc (wp_update hdst hQ))

theorem wp_kfree (hmanaged : A.managed f) (hf : h f = some page) (hQ : Q () (update h f none) (n + 1)) :
    wp A E Q (kfree f) h n :=
  wp_free hmanaged hf hQ

/-- Pages are freed one after the other. -/
theorem wp_forM_kfree {fs : List Frame} (hnodup : fs.Nodup) (hfs : ∀ f ∈ fs, A.managed f ∧ h f ≠ none)
    (hQ : Q () (fun f => if f ∈ fs then none else h f) (n + fs.length)) :
    wp A E Q (fs.forM kfree) h n := by
  induction fs generalizing h n with
  | nil => exact wp_pure (by simpa using hQ)
  | cons f fs ih =>
    obtain ⟨hnotin, hnodup⟩ := nodup_cons.mp hnodup
    obtain ⟨hmanaged, hf⟩ := hfs f mem_cons_self
    obtain ⟨page, hpage⟩ := Option.ne_none_iff_exists'.mp hf
    refine wp_bind (wp_kfree hmanaged hpage ?_)
    refine ih hnodup ?_ ?_
    · intro g hg
      have hgf : g ≠ f := by
        rintro rfl
        exact hnotin hg
      rw [update_of_ne hgf]
      exact hfs g (mem_cons_of_mem f hg)
    · have hheap : (fun g => if g ∈ fs then none else update h f none g) =
          fun g => if g ∈ f :: fs then none else h g := by
        funext g
        by_cases hgf : g = f
        · subst g
          simp
        · simp [hgf]
      rw [hheap, Nat.add_assoc, Nat.add_comm 1, ← length_cons]
      exact hQ

end Specs

/-! ### The allocator is correct -/

/-- The pages that the allocator manages. -/
def Managed (kend f : Frame) : Prop := kend ≤ f ∧ f < phystop

instance (kend f : Frame) : Decidable (Managed kend f) := inferInstanceAs (Decidable (_ ∧ _))

/-- What the allocator does. -/
def kmem (kend : Frame) : Allocator Frame Panic := ⟨Managed kend, .outOfMemory⟩

/-- The pages of a linked list. -/
def Chain (mem : Frame → Page) : Option Frame → List Frame → Prop
  | r, [] => r = none
  | r, f :: fs => r = some f ∧ Chain mem (unptr (mem f 0)) fs

/-- The free pages. -/
structure Machine.Free (kend : Frame) (m : Machine) (fs : List Frame) : Prop where
  chain : Chain m.mem m.freelist fs
  nodup : fs.Nodup
  managed : ∀ f ∈ fs, Managed kend f

theorem v2p_toNat (f : Frame) : (v2p f).toNat = f.toNat * 4096 := by
  rw [v2p, toNat_append]
  simp [Nat.shiftLeft_eq]

theorem p2v_toNat (w : Word) : (p2v w).toNat = w.toNat / 4096 := by
  rw [p2v, BitVec.extractLsb'_toNat, Nat.shiftRight_eq_div_pow]
  omega

/-- A stored pointer is read back. -/
theorem unptr_ptr {kend : Frame} {r : Option Frame} (hr : ∀ f, r = some f → Managed kend f) :
    unptr (ptr r) = r := by
  cases r with
  | none => rfl
  | some f =>
    have hf : f.toNat < 0xE000 := (hr f rfl).2
    have haddr := v2p_toNat f
    have hne : kernbase + v2p f ≠ 0 := by
      intro hzero
      have hnat := congrArg BitVec.toNat hzero
      simp only [kernbase, toNat_add, ofNat_eq_ofNat, toNat_ofNat] at hnat
      omega
    have hback : p2v (kernbase + v2p f - kernbase) = f := by
      apply eq_of_toNat_eq
      rw [p2v_toNat, BitVec.add_comm, BitVec.add_sub_cancel, haddr]
      omega
    rw [ptr, unptr, if_neg hne, hback]

/-- A page outside of the list does not matter for it. -/
theorem Chain.update {mem : Frame → Page} {r : Option Frame} {fs : List Frame} {f : Frame}
    (hchain : Chain mem r fs) (hf : f ∉ fs) (page : Page) :
    Chain (update mem f page) r fs := by
  induction fs generalizing r with
  | nil => exact hchain
  | cons g fs ih =>
    obtain ⟨hr, hrest⟩ := hchain
    have hne : g ≠ f := fun heq => hf (heq ▸ mem_cons_self)
    refine ⟨hr, ?_⟩
    rw [update_of_ne hne]
    exact ih hrest fun hin => hf (mem_cons_of_mem g hin)

/-- `kalloc` and `kfree` keep the list of the free pages. -/
theorem memory_correct (kend : Frame) : Correct (kmem kend) (memory kend) (Machine.Free kend) where
  nodup hfree := hfree.nodup
  managed hfree hf := hfree.managed _ hf
  update g hfree hf := by
    refine ⟨⟨?_, hfree.nodup, hfree.managed⟩, rfl⟩
    exact hfree.chain.update hf _
  alloc_nil := by
    intro m hfree
    have hnone : m.freelist = none := hfree.chain
    simp only [memory, Machine.kalloc, hnone, kmem]
  alloc_cons := by
    intro m f fs hfree
    obtain ⟨hsome, hrest⟩ := hfree.chain
    refine ⟨{ m with freelist := unptr (m.mem f 0) }, ?_, ?_, rfl⟩
    · simp only [memory, Machine.kalloc, hsome]
    · exact ⟨hrest, (nodup_cons.mp hfree.nodup).2, fun g hg => hfree.managed g (mem_cons_of_mem f hg)⟩
  free := by
    intro m fs f hfree hmanaged hf
    have hcheck : ¬ (f < kend ∨ phystop ≤ f) := by
      rintro (hlow | hhigh)
      · exact BitVec.not_lt.mpr hmanaged.1 hlow
      · exact BitVec.not_lt.mpr hhigh hmanaged.2
    have hhead : ∀ g, m.freelist = some g → Managed kend g := by
      intro g hg
      cases fs with
      | nil => simp [show m.freelist = none from hfree.chain] at hg
      | cons g' fs =>
        have hg' : g = g' := by simpa [hfree.chain.1] using hg.symm
        exact hg' ▸ hfree.managed g' mem_cons_self
    refine ⟨_, if_neg hcheck, ⟨⟨rfl, ?_⟩, ?_, ?_⟩, ?_⟩
    · simp only [update_self, unptr_ptr hhead]
      exact hfree.chain.update hf _
    · exact nodup_cons.mpr ⟨hf, hfree.nodup⟩
    · intro g hg
      rcases mem_cons.mp hg with rfl | hg
      · exact hmanaged
      · exact hfree.managed g hg
    · intro g hg
      exact update_of_ne hg _ _

variable {start stop : Frame}

/-- The pages of a range. -/
theorem mem_framesFrom {f : Frame} :
    f ∈ framesFrom start stop ↔ start ≤ f ∧ f < stop := by
  rw [framesFrom, mem_map]
  constructor
  · rintro ⟨i, hi, rfl⟩
    rw [mem_range] at hi
    have hnat : (start + BitVec.ofNat 52 i).toNat = start.toNat + i := by
      rw [toNat_add, toNat_ofNat]
      omega
    constructor
    · change start.toNat ≤ _
      omega
    · change _ < stop.toNat
      omega
  · rintro ⟨hlow, hhigh⟩
    have hlow' : start.toNat ≤ f.toNat := hlow
    have hhigh' : f.toNat < stop.toNat := hhigh
    refine ⟨f.toNat - start.toNat, by rw [mem_range]; omega, ?_⟩
    apply eq_of_toNat_eq
    rw [toNat_add, toNat_ofNat]
    omega

theorem nodup_framesFrom : (framesFrom start stop).Nodup := by
  refine List.Nodup.map_on ?_ nodup_range
  intro i hi j hj heq
  rw [mem_range] at hi hj
  have hnat := congrArg BitVec.toNat heq
  rw [toNat_add, toNat_add, toNat_ofNat, toNat_ofNat] at hnat
  omega

/-- `kinit1`: the pages behind the kernel are free. -/
theorem run_freerange {kend : Frame} (mem : Frame → Page) (hstart : kend ≤ start)
    (hstop : stop ≤ phystop) :
    ∃ m free, run (memory kend) (freerange start stop) ⟨mem, none⟩ = .ok ((), m) ∧ m.Free kend free ∧
      free.length = stop.toNat - start.toNat := by
  have hwp : wp (kmem kend) (fun _ => False)
      (fun _ _ n => n = stop.toNat - start.toNat)
      (freerange start stop) (fun f => some (mem f)) ([] : List Frame).length := by
    refine wp_forM_kfree nodup_framesFrom ?_ ?_
    · intro f hf
      obtain ⟨hlow, hhigh⟩ := mem_framesFrom.mp hf
      exact ⟨⟨BitVec.le_trans hstart hlow, Nat.lt_of_lt_of_le hhigh hstop⟩, by simp⟩
    · simp [framesFrom]
  have hholds : Holds (memory kend) (Machine.Free kend) ⟨mem, none⟩ (fun f => some (mem f)) [] :=
    ⟨⟨rfl, nodup_nil, nofun⟩, fun hf => Option.some.inj hf, nofun⟩
  rcases run_of_wp (memory_correct kend) hwp hholds with
    ⟨_, m, _, free, hrun, hm, hlength⟩ | ⟨e, -, hfalse⟩
  · exact ⟨m, free, hrun, hm.free, hlength⟩
  · exact hfalse.elim

end Xv6Draw.Vm
