import Xv6Draw.Vm.Isolation
import Xv6Draw.Proc.Table

/-!
# The address spaces of parent and child

`fork` with `copyuvm`, the new kernel stack and the trap frame on it. The child gets the
memory of its parent, and from then on neither sees what the other one writes.
-/

namespace Xv6Draw.Vm

open Function Option Ownership Ptable

/-- The addresses that are fixed when the kernel is linked and booted. -/
structure Link where
  /-- The first page behind the kernel. -/
  kend : Frame
  kpdpt : Frame
  forkret : Word
  syscallTrapret : Word

/-- The memory of a process, as in `struct proc`. -/
structure Space where
  sz : Word
  pgdir : Option Frame
  kstack : Option Frame

/-- The memory of the machine and the processes. -/
structure System where
  machine : Machine
  table : Table
  space : Fin nproc → Space

/-- The kernel stack that `allocproc` sets up: from its top a trap frame of 22 words, the
address to return to, and a context of 7 words that ends with `rip`. -/
def newStack (k : Link) : Kernel (Option Frame) := do
  let some kstack ← kalloc | return none
  update kstack fun page i =>
    if i = 489 then k.syscallTrapret
    else if i = 488 then k.forkret
    else if 482 ≤ i ∧ i < 488 then 0
    else page i
  return some kstack

/-- `*np->tf = *proc->tf` and `np->tf->rax = 0`. -/
def copyTrapframe (dst src : Frame) : Kernel Unit := do
  let tf ← read src
  update dst fun page i => if 490 ≤ i then tf i else page i
  store dst 490 0

/-- What `fork` does to the memory: the kernel stack and the page table of the child, or 0
where there is none. -/
def forkMemory (k : Link) (pgdir kstack : Frame) (sz : BitVec 32) :
    Kernel (Option (Frame × Option Frame)) := do
  let some npkstack ← newStack k | return none
  match ← copyuvm k.kpdpt pgdir sz with
  | none =>
    kfree npkstack
    return some (npkstack, none)
  | some nppgdir =>
    copyTrapframe npkstack kstack
    return some (npkstack, some nppgdir)

/-- The end of `fork`, by what it did to the memory. -/
def forkEnd (s : System) (p np : Fin nproc) (table : Table) (machine : Machine) :
    Option (Frame × Option Frame) → ℤ × System
  | none =>
    (-1, ⟨machine, table.set np { table.proc np with state := .unused },
      update s.space np { s.space np with kstack := none }⟩)
  | some (_, none) =>
    (-1, ⟨machine, table.set np { table.proc np with state := .unused },
      update s.space np { s.space np with pgdir := none, kstack := none }⟩)
  | some (npkstack, some nppgdir) =>
    ((table.proc np).pid.toInt,
      ⟨machine, table.set np { table.proc np with parent := some p, state := .runnable },
        update s.space np ⟨(s.space p).sz, some nppgdir, some npkstack⟩⟩)

/-- `fork`. The open files and the current directory are left out. -/
def fork (k : Link) (p : Fin nproc) (s : System) : Except Panic (ℤ × System) :=
  match allocproc s.table, (s.space p).pgdir, (s.space p).kstack with
  | none, _, _ => .ok (-1, s)
  | some (np, table), some pgdir, some kstack => do
    let (memory, machine) ←
      run (memory k.kend) (forkMemory k pgdir kstack ((s.space p).sz.setWidth 32)) s.machine
    return forkEnd s p np table machine memory
  | some _, _, _ => .error .nullPointer

/-- What `userinit` does to the memory: the kernel stack with the trap frame, and the page
table of the first process. -/
def userinitMemory (k : Link) (init : List (BitVec 8)) : Kernel (Frame × Frame) := do
  let some kstack ← newStack k | fail .nullPointer
  let some pgdir ← setupkvm k.kpdpt | fail .userinit
  inituvm pgdir init
  -- `r11`, `rsp` and `rcx` in the trap frame
  update kstack fun page i =>
    if i = 500 then 0x200
    else if i = 510 then pgsize * 2
    else if i = 492 then pgsize
    else if 490 ≤ i then 0
    else page i
  return (kstack, pgdir)

/-- `userinit`. -/
def userinit (k : Link) (init : List (BitVec 8)) (s : System) : Except Panic System :=
  match allocproc s.table with
  | none => .error .nullPointer
  | some (p, table) => do
    let ((kstack, pgdir), machine) ← run (memory k.kend) (userinitMemory k init) s.machine
    return ⟨machine, { table.set p { table.proc p with state := .runnable } with initproc := p },
      update s.space p ⟨pgsize * 2, some pgdir, some kstack⟩⟩

/-! ### The memory that `fork` makes -/

/-- A page table holds a copy of the pages of a process, and nothing of the process
itself. -/
structure CopyOf (mem : Frame → Page) (pgdir : Frame) (sz : Word) (mem' : Frame → Page) (d : Frame) :
    Prop where
  /-- The pages have the same contents and the same flags. -/
  page : ∀ a : Word, a.toNat % 4096 = 0 → 4096 ≤ a.toNat → a.toNat < sz.toNat →
    lookup mem' d a &&& pteP ≠ 0 ∧ pteFlags (lookup mem' d a) = pteFlags (lookup mem pgdir a) ∧
      mem' (p2v (pteAddr (lookup mem' d a))) = mem (p2v (pteAddr (lookup mem pgdir a)))
  only : ∀ a : Word, a.toNat % 4096 = 0 → a.toNat < 2 ^ 47 →
    ¬ (4096 ≤ a.toNat ∧ a.toNat < sz.toNat) → lookup mem' d a &&& pteP = 0
  /-- The pages are not among those of the process. -/
  fresh : ∀ a : Word, a.toNat < 2 ^ 47 → lookup mem' d a &&& pteP ≠ 0 → ∀ p, InUser p →
    reach mem pgdir p ≠ some (p2v (pteAddr (lookup mem' d a)))
  /-- The image of the process has not changed. -/
  parent : ∀ p f, InUser p → reach mem pgdir p = some f → mem' f = mem f

variable {kend kpdpt pgdir d : Frame} {mem mem' : Frame → Page} {h₁ h : Heap Frame Page} {T : Tree}
  {E : List Index → Word} {sz : Word}

/-- The pages of a process are there. -/
def Present (mem : Frame → Page) (pgdir : Frame) (sz : Word) : Prop :=
  ∀ a : Word, a.toNat % 4096 = 0 → 4096 ≤ a.toNat → a.toNat < sz.toNat →
    lookup mem pgdir a &&& pteP ≠ 0

theorem setWidth_toNat (hsz : sz.toNat < 2 ^ 32) : (sz.setWidth 32).toNat = sz.toNat := by
  rw [BitVec.toNat_setWidth]
  omega

/-- The memory of a process has been copied, and what belongs to the process and to the
copy lies in memory. -/
structure Forked (kend kpdpt pgdir : Frame) (mem : Frame → Page) (sz : Word) (h₁ : Heap Frame Page)
    (d : Frame) (h : Heap Frame Page) (T : Tree) (E : List Index → Word) (mem' : Frame → Page) : Prop where
  image : ProcessImage kend kpdpt mem pgdir
  size : sz.toNat < 2 ^ 32
  present : Present mem pgdir sz
  before : ∀ {p f}, InUser p → reach mem pgdir p = some f → h₁ f = some (mem f)
  copied : Copied kend kpdpt h₁ (entriesOf mem pgdir) d (pages pgsize ((sz.setWidth 32).setWidth 64)) h T E
  parent : ∀ {p f}, InUser p → reach mem pgdir p = some f → mem' f = mem f
  after : ∀ {f page}, Owned T E f → h f = some page → mem' f = page

namespace Forked

variable (hforked : Forked kend kpdpt pgdir mem sz h₁ d h T E mem')

include hforked

/-- The image of the child lies in memory. -/
theorem exists_image : ∃ h', Image kend kpdpt h' d T E ∧ ∀ {f page}, h' f = some page → mem' f = page := by
  classical
  refine ⟨fun f => if Owned T E f then h f else none, hforked.copied.image.congr ?_ ?_, ?_⟩
  · intro p f hf
    exact if_pos (.inl ⟨p, hf⟩)
  · intro q f hf
    have howned : Owned T E f := .inr ⟨q, hf⟩
    rw [if_pos howned]
    exact hforked.copied.image.page hf
  · intro f page hf
    by_cases howned : Owned T E f
    · simp only [if_pos howned] at hf
      exact hforked.after howned hf
    · simp [howned] at hf

theorem lookup_child {a : Word} (ha : a.toNat < 2 ^ 47) : lookup mem' d a = E (path a) := by
  obtain ⟨h', himage, hmem⟩ := hforked.exists_image
  exact himage.toTables.lookup_eq hmem (user_path ha)

theorem lookup_parent {a : Word} (ha : a.toNat < 2 ^ 47) :
    lookup mem pgdir a = entriesOf mem pgdir (path a) :=
  hforked.image.lookup_eq (user_path ha)

/-- What belongs to the child does not belong to the parent. -/
theorem not_parent {f : Frame} {p : List Index} (hf : Owned T E f) (hp : InUser p) :
    reach mem pgdir p ≠ some f := by
  intro hreach
  have hfresh := hforked.copied.fresh hf
  rw [hforked.before hp hreach] at hfresh
  simp at hfresh

theorem copyOf : CopyOf mem pgdir sz mem' d where
  page := by
    intro a haligned hlow hhigh
    have hsize := hforked.size
    have huser : a.toNat < 2 ^ 47 := by omega
    have hmem : a ∈ pages pgsize ((sz.setWidth 32).setWidth 64) := by
      rw [mem_pages, setWidth_toNat hsize]
      exact ⟨haligned, hlow, hhigh⟩
    obtain ⟨f, page, hentry, hchild, hpage, hsource⟩ := hforked.copied.copy a hmem
    have hpresent := hforked.present a haligned hlow hhigh
    rw [hforked.lookup_parent huser] at hpresent ⊢
    rw [hforked.lookup_child huser]
    have hframe := child_eq_some.mp hchild
    have hflags := pteFlags_toNat (entriesOf mem pgdir (path a))
    refine ⟨hframe.1, ?_, ?_⟩
    · rw [hentry]
      exact pteFlags_v2p_or f (by omega)
    · have hreach := (child_entriesOf (child_eq_some.mpr ⟨hpresent, rfl⟩))
      rw [hforked.before hreach.1 hreach.2.2] at hsource
      rw [hframe.2, hforked.after (.inr ⟨path a, hchild⟩) hpage]
      exact (some.inj hsource).symm
  only := by
    intro a haligned huser hout
    rw [hforked.lookup_child huser]
    by_contra hpresent
    have hmapped : child (E (path a)) ≠ none := by
      rw [child_eq_some.mpr ⟨hpresent, rfl⟩]
      simp
    obtain ⟨b, hb, hpath⟩ := (hforked.copied.mapped _).mp hmapped
    have hsize := hforked.size
    rw [mem_pages, setWidth_toNat hsize] at hb
    have hab := path_inj haligned hb.1 (by omega) (by omega) hpath
    exact hout (hab ▸ hb.2)
  fresh := by
    intro a huser hpresent p hp
    rw [hforked.lookup_child huser] at hpresent ⊢
    exact hforked.not_parent (.inr ⟨path a, child_eq_some.mpr ⟨hpresent, rfl⟩⟩) hp
  parent := fun p f hp hf => hforked.parent hp hf

/-- Neither process sees what the other one writes. -/
theorem isolated : Isolated mem' pgdir d ∧ Isolated mem' d pgdir := by
  obtain ⟨h', himage, hmem⟩ := hforked.exists_image
  have hsame : SameTables mem mem' pgdir := fun hlength huser hf => hforked.parent ⟨by omega, huser⟩ hf
  have hparent := hsame.processImage hforked.image
  have hchild := himage.processImage hmem
  have hapart : ∀ {p q f}, InUser p → InUser q → reach mem' pgdir p = some f → reach mem' d q ≠ some f := by
    intro p q f hp hq hpf hqf
    rw [hsame.reach_eq hp] at hpf
    exact hforked.not_parent (himage.owned_of_reach hmem hq hqf) hp hpf
  exact ⟨isolated_of_apart hparent hchild hapart,
    isolated_of_apart hchild hparent fun hp hq hpf hqf => hapart hq hp hqf hpf⟩

end Forked

/-! ### Runs of `copyuvm` and `fork` -/

/-- A process with its memory, and the free pages. -/
structure Process (k : Link) (s : System) (p : Fin nproc) (free : List Frame) (pgdir kstack : Frame) :
    Prop where
  used : (s.table.proc p).state ≠ .unused
  space_pgdir : (s.space p).pgdir = some pgdir
  space_kstack : (s.space p).kstack = some kstack
  allocator : s.machine.Free k.kend free
  image : ProcessImage k.kend k.kpdpt s.machine.mem pgdir
  image_used : ∀ {q f}, InUser q → reach s.machine.mem pgdir q = some f → f ∉ free
  kstack_used : kstack ∉ free

/-- The pages that are not free. -/
def Machine.used (m : Machine) (free : List Frame) : Heap Frame Page := fun f =>
  if f ∈ free then none else some (m.mem f)

variable {m : Machine} {free : List Frame} {k : Link} {n : ℕ} {Err : Panic → Prop} {table : Table}

theorem Machine.used_of_not_mem {f : Frame} (hf : f ∉ free) :
    m.used free f = some (m.mem f) := if_neg hf

theorem Machine.holds_used (hfree : m.Free kend free) :
    Holds (memory kend) (Machine.Free kend) m (m.used free) free where
  free := hfree
  get := by
    intro f page hf
    by_cases hmem : f ∈ free
    · simp [used, hmem] at hf
    · rw [used_of_not_mem hmem] at hf
      exact some.inj hf
  disjoint hf := if_pos hf

/-- The pages of a process can be copied. -/
theorem source_of_present (himage : ProcessImage kend kpdpt mem pgdir) (hsz : sz.toNat < 2 ^ 32)
    (hpresent : Present mem pgdir sz)
    (hbefore : ∀ {p f}, InUser p → reach mem pgdir p = some f → h₁ f = some (mem f)) :
    ∀ a ∈ pages pgsize ((sz.setWidth 32).setWidth 64), Source h₁ (entriesOf mem pgdir) a := by
  intro a ha
  rw [mem_pages, setWidth_toNat hsz] at ha
  obtain ⟨haligned, hlow, hhigh⟩ := ha
  have huser : User (path a) := user_path (by omega)
  have hentry : entriesOf mem pgdir (path a) &&& pteP ≠ 0 := by
    rw [← himage.lookup_eq huser]
    exact hpresent a haligned hlow hhigh
  have hreach := child_entriesOf (child_eq_some.mpr ⟨hentry, rfl⟩)
  refine ⟨huser, haligned, hentry, ?_⟩
  simp [hbefore hreach.1 hreach.2.2]

/-- `copyuvm` with enough pages, and without. -/
theorem run_copyuvm (hfree : m.Free kend free) (himage : ProcessImage kend kpdpt m.mem pgdir)
    (hused : ∀ {q f}, InUser q → reach m.mem pgdir q = some f → f ∉ free) (hsz : sz.toNat < 2 ^ 32)
    (hpresent : Present m.mem pgdir sz) : (copyCost (sz.setWidth 32) ≤ free.length ∧ ∃ d m',
      run (memory kend) (copyuvm kpdpt pgdir (sz.setWidth 32)) m = .ok (some d, m') ∧
        CopyOf m.mem pgdir sz m'.mem d) ∨ (free.length < copyCost (sz.setWidth 32) ∧
      run (memory kend) (copyuvm kpdpt pgdir (sz.setWidth 32)) m = .error .outOfMemory) := by
  have hbefore : ∀ {p f}, InUser p → reach m.mem pgdir p = some f → m.used free f = some (m.mem f) :=
    fun hp hf => Machine.used_of_not_mem (hused hp hf)
  have hcost := cost_pages (sz.setWidth 32)
  have hwp : wp (kmem kend) (fun e => e = .outOfMemory ∧ free.length < copyCost (sz.setWidth 32))
      (fun r h n => ∃ d T E, r = some d ∧ free.length = n + copyCost (sz.setWidth 32) ∧
        Copied kend kpdpt (m.used free) (entriesOf m.mem pgdir) d
          (pages pgsize ((sz.setWidth 32).setWidth 64)) h T E)
      (copyuvm kpdpt pgdir (sz.setWidth 32)) (m.used free) free.length := by
    refine wp_copyuvm (himage.image hbefore).toTables
      (source_of_present himage hsz hpresent hbefore) (nodup_pages _) ?_ ?_
    · intro hn
      exact ⟨rfl, by rw [copyCost]; omega⟩
    · intro d h T E n hcopied hn
      exact ⟨d, T, E, rfl, by rw [copyCost]; omega, hcopied⟩
  rcases run_of_wp (memory_correct kend) hwp (Machine.holds_used hfree) with
    ⟨r, m', h, free', hrun, hholds, d, T, E, rfl, hcount, hcopied⟩ | ⟨e, hrun, rfl, hshort⟩
  · have hforked : Forked kend kpdpt pgdir m.mem sz (m.used free) d h T E m'.mem :=
      ⟨himage, hsz, hpresent, hbefore, hcopied, fun hp hf => hholds.get (hcopied.old (hbefore hp hf)),
        fun _ hf => hholds.get hf⟩
    exact .inl ⟨by omega, d, m', hrun, hforked.copyOf⟩
  · exact .inr ⟨hshort, hrun⟩

theorem wp_newStack {Q : Option Frame → Heap Frame Page → ℕ → Prop} (hmemory : n = 0 → Err .outOfMemory)
    (hQ : ∀ ks page m, n = m + 1 → Managed kend ks → h ks = none →
      Q (some ks) (update h ks (some page)) m) :
    wp (kmem kend) Err Q (newStack k) h n := by
  refine wp_bind (wp_kalloc hmemory ?_)
  intro ks old m hm hmanaged hks
  refine wp_bind (wp_update (update_self ..) ?_)
  rw [update_idem]
  exact wp_pure (hQ ks _ m hm hmanaged hks)

theorem wp_copyTrapframe {dst src : Frame} {old tf : Page}
    {Q : Unit → Heap Frame Page → ℕ → Prop} (hdst : h dst = some old) (hsrc : h src = some tf)
    (hQ : ∀ page, Q () (update h dst (some page)) n) :
    wp (kmem kend) Err Q (copyTrapframe dst src) h n := by
  refine wp_bind (wp_read hsrc ?_)
  refine wp_bind (wp_update hdst ?_)
  refine wp_store (update_self ..) ?_
  rw [update_idem]
  exact hQ _

/-- The memory that `fork` makes. -/
theorem wp_forkMemory {kstack : Frame} {Q : Option (Frame × Option Frame) → Heap Frame Page → ℕ → Prop}
    (himage : ProcessImage k.kend k.kpdpt m.mem pgdir)
    (hused : ∀ {q f}, InUser q → reach m.mem pgdir q = some f → f ∉ free) (hkstack : kstack ∉ free)
    (hsz : sz.toNat < 2 ^ 32) (hpresent : Present m.mem pgdir sz)
    (hmemory : n < copyCost (sz.setWidth 32) + 1 → Err .outOfMemory)
    (hQ : ∀ ks d h₁ h page T E n', n = n' + (copyCost (sz.setWidth 32) + 1) →
      (∀ {f page}, m.used free f = some page → h₁ f = some page ∧ f ≠ ks) → h₁ ks ≠ none →
      Copied k.kend k.kpdpt h₁ (entriesOf m.mem pgdir) d (pages pgsize ((sz.setWidth 32).setWidth 64)) h T E →
      Q (some (ks, some d)) (update h ks (some page)) n') :
    wp (kmem k.kend) Err Q (forkMemory k pgdir kstack (sz.setWidth 32)) (m.used free) n := by
  have hcost := cost_pages (sz.setWidth 32)
  refine wp_bind (wp_newStack ?_ ?_)
  · intro hn
    exact hmemory (by omega)
  intro ks page n₁ hn₁ hmanaged hks
  have hold : ∀ {f page'}, m.used free f = some page' →
      update (m.used free) ks (some page) f = some page' ∧ f ≠ ks := by
    intro f page' hf
    have hne : f ≠ ks := by
      rintro rfl
      simp [hks] at hf
    exact ⟨by rw [update_of_ne hne, hf], hne⟩
  have hbefore : ∀ {p f}, InUser p → reach m.mem pgdir p = some f →
      update (m.used free) ks (some page) f = some (m.mem f) :=
    fun hp hf => (hold (Machine.used_of_not_mem (hused hp hf))).1
  refine wp_bind (wp_copyuvm (himage.image hbefore).toTables
    (source_of_present himage hsz hpresent hbefore) (nodup_pages _) ?_ ?_)
  · intro hn
    refine hmemory ?_
    rw [copyCost]
    omega
  intro d h T E n₂ hcopied hn₂
  have hstack : h ks = some page := hcopied.old (update_self ..)
  refine wp_bind (wp_copyTrapframe hstack (hcopied.old (hold (Machine.used_of_not_mem hkstack)).1) ?_)
  intro page'
  refine wp_pure (hQ ks d _ h page' T E n₂ ?_ hold (by simp) hcopied)
  rw [copyCost]
  omega

/-- A slot that `allocproc` takes is not in use. -/
theorem allocproc_unused {t : Table} {np : Fin nproc} (halloc : allocproc t = some (np, table)) :
    (t.proc np).state = .unused := by
  unfold allocproc at halloc
  split at halloc
  · simp at halloc
  next np' hslot =>
    obtain ⟨rfl, -⟩ := Prod.mk.inj (some.inj halloc)
    exact unusedSlot_eq_some hslot

/-- `fork` with enough pages, and without. -/
theorem run_fork {s : System} {p np : Fin nproc} {kstack : Frame}
    (hprocess : Process k s p free pgdir kstack) (hsz : (s.space p).sz.toNat < 2 ^ 32)
    (hpresent : Present s.machine.mem pgdir (s.space p).sz)
    (halloc : allocproc s.table = some (np, table)) :
    (copyCost ((s.space p).sz.setWidth 32) + 1 ≤ free.length ∧ ∃ d s',
      fork k p s = .ok ((table.proc np).pid.toInt, s') ∧ s'.space p = s.space p ∧
        (s'.space np).sz = (s.space p).sz ∧ (s'.space np).pgdir = some d ∧
        CopyOf s.machine.mem pgdir (s.space p).sz s'.machine.mem d ∧
        Isolated s'.machine.mem pgdir d ∧ Isolated s'.machine.mem d pgdir) ∨
    (free.length < copyCost ((s.space p).sz.setWidth 32) + 1 ∧ fork k p s = .error .outOfMemory) := by
  have hne : p ≠ np := by
    rintro rfl
    exact hprocess.used (allocproc_unused halloc)
  have hfork : fork k p s = (run (memory k.kend)
      (forkMemory k pgdir kstack ((s.space p).sz.setWidth 32)) s.machine >>= fun r =>
        pure (forkEnd s p np table r.2 r.1)) := by
    rw [fork, halloc, hprocess.space_pgdir, hprocess.space_kstack]
  have hwp : wp (kmem k.kend)
      (fun e => e = .outOfMemory ∧ free.length < copyCost ((s.space p).sz.setWidth 32) + 1)
      (fun r h' n => ∃ ks d h₁ h page T E, r = some (ks, some d) ∧
        h' = update h ks (some page) ∧
        free.length = n + (copyCost ((s.space p).sz.setWidth 32) + 1) ∧
        (∀ {f page}, s.machine.used free f = some page → h₁ f = some page ∧ f ≠ ks) ∧ h₁ ks ≠ none ∧
        Copied k.kend k.kpdpt h₁ (entriesOf s.machine.mem pgdir) d
          (pages pgsize (((s.space p).sz.setWidth 32).setWidth 64)) h T E)
      (forkMemory k pgdir kstack ((s.space p).sz.setWidth 32)) (s.machine.used free) free.length := by
    refine wp_forkMemory hprocess.image hprocess.image_used hprocess.kstack_used hsz hpresent ?_ ?_
    · intro hn
      exact ⟨rfl, hn⟩
    · intro ks d h₁ h page T E n hn hold hks hcopied
      exact ⟨ks, d, h₁, h, page, T, E, rfl, rfl, hn, hold, hks, hcopied⟩
  rcases run_of_wp (memory_correct k.kend) hwp (Machine.holds_used hprocess.allocator) with
    ⟨r, m', h', free', hrun, hholds, ks, d, h₁, h, page, T, E, rfl, rfl, hcount, hold, hks, hcopied⟩ |
      ⟨e, hrun, rfl, hshort⟩
  · have hbefore : ∀ {q f}, InUser q → reach s.machine.mem pgdir q = some f →
        h₁ f = some (s.machine.mem f) ∧ f ≠ ks :=
      fun hq hf => hold (Machine.used_of_not_mem (hprocess.image_used hq hf))
    have hget : ∀ {f page}, f ≠ ks → h f = some page → m'.mem f = page := by
      intro f page hf hpage
      exact hholds.get ((update_of_ne hf _ _).trans hpage)
    have hforked : Forked k.kend k.kpdpt pgdir s.machine.mem (s.space p).sz h₁ d h T E m'.mem := by
      refine ⟨hprocess.image, hsz, hpresent, fun hq hf => (hbefore hq hf).1, hcopied, ?_, ?_⟩
      · intro q f hq hf
        exact hget (hbefore hq hf).2 (hcopied.old (hbefore hq hf).1)
      · intro f page' hf hpage
        refine hget ?_ hpage
        rintro rfl
        exact hks (hcopied.fresh hf)
    rw [hrun] at hfork
    refine .inl ⟨by omega, d, _, hfork, ?_, ?_, ?_, hforked.copyOf, hforked.isolated⟩
    · exact update_of_ne hne _ _
    · simp
    · simp
  · rw [hrun] at hfork
    exact .inr ⟨hshort, hfork⟩

/-- `userinit` makes a process. -/
theorem userinit_process {init : List (BitVec 8)} {s : System} {p : Fin nproc}
    (hfree : s.machine.Free k.kend free) (hmemory : 6 ≤ free.length)
    (hinit : init.length < 4096) (halloc : allocproc s.table = some (p, table)) :
    ∃ s' free' pgdir kstack, userinit k init s = .ok s' ∧ free'.length + 6 = free.length ∧
      Process k s' p free' pgdir kstack ∧ (s'.space p).sz = pgsize * 2 ∧
      Present s'.machine.mem pgdir (pgsize * 2) ∧
      s'.table = { table.set p { table.proc p with state := .runnable } with initproc := p } := by
  have hwp : wp (kmem k.kend) (fun _ => False)
      (fun r h n => n + 6 = free.length ∧ h r.1 ≠ none ∧ ∃ f T E,
        Image k.kend k.kpdpt h r.2 T E ∧ child (E (path pgsize)) = some f)
      (userinitMemory k init) (s.machine.used free) free.length := by
    refine wp_bind (wp_newStack (fun hn => by omega) ?_)
    intro ks page n₁ hn₁ _ hks
    refine wp_bind (wp_setupkvm (fun hn => by omega) ?_)
    intro d page' n₂ hn₂ hd himage
    have hne : ks ≠ d := by
      rintro rfl
      simp at hd
    refine wp_bind (wp_inituvm himage hinit (fun hn => by omega) ?_)
    intro f h' T E n₃ hn₃ hkeep hfresh himage' hchild
    have hold : update (update (s.machine.used free) ks (some page)) d (some page') ks =
        some page := by
      rw [update_of_ne hne, update_self]
    have hstack : h' ks = some page := by rw [hkeep (by simp [hold]) hne, hold]
    have hfks : ¬ Owned T E ks := by
      intro howned
      rcases hfresh howned with heq | hnone
      · exact hne heq
      · simp [hold] at hnone
    refine wp_bind (wp_update hstack ?_)
    refine wp_pure ⟨by omega, by simp, f, T, E, himage'.congr ?_ ?_, hchild⟩
    · intro q g hg
      refine update_of_ne ?_ _ _
      rintro rfl
      exact hfks (.inl ⟨q, hg⟩)
    · intro q g hg
      rw [update_of_ne]
      · exact himage'.page hg
      · rintro rfl
        exact hfks (.inr ⟨q, hg⟩)
  rcases run_of_wp (memory_correct k.kend) hwp (Machine.holds_used hfree) with
    ⟨⟨kstack, pgdir⟩, m', h, free', hrun, hholds, hcount, hstack, f, T, E, himage, hchild⟩ | ⟨e, -, hfalse⟩
  · have hnotFree : ∀ {g}, h g ≠ none → g ∉ free' := fun hg hmem => hg (hholds.disjoint hmem)
    have hpresent : Present m'.mem pgdir (pgsize * 2) := by
      intro a haligned hlow hhigh
      have ha : a = pgsize := by
        apply BitVec.eq_of_toNat_eq
        have hsize : (pgsize * 2).toNat = 8192 := rfl
        have hpage : pgsize.toNat = 4096 := rfl
        omega
      have hlookup : lookup m'.mem pgdir pgsize = E (path pgsize) :=
        himage.toTables.lookup_eq hholds.get (by decide)
      rw [ha, hlookup]
      exact (child_eq_some.mp hchild).1
    refine ⟨⟨m', { table.set p { table.proc p with state := .runnable } with initproc := p },
      update s.space p ⟨pgsize * 2, some pgdir, some kstack⟩⟩, free', pgdir, kstack, ?_, hcount,
      ⟨?_, ?_, ?_, hholds.free, ?_, ?_, ?_⟩, ?_, hpresent, rfl⟩
    · rw [userinit, halloc]
      simp only [hrun]
      rfl
    · simp [Table.set]
    · simp
    · simp
    · exact himage.processImage hholds.get
    · intro q g hq hg
      exact hnotFree (himage.owned_ne_none (himage.owned_of_reach hholds.get hq hg))
    · exact hnotFree hstack
    · simp
  · exact hfalse.elim

/-- With enough free pages `copyuvm` copies every page of a process with its flags into
pages of a new address space, and `fork` gives it to the child, after which neither process
sees what the other one writes. Without enough pages both panic. -/
theorem fork_copies_memory {k : Link} {s : System} {p : Fin nproc} {free : List Frame}
    {pgdir kstack : Frame} (hprocess : Process k s p free pgdir kstack)
    (hsz : (s.space p).sz.toNat < 2 ^ 32) (hpresent : Present s.machine.mem pgdir (s.space p).sz) :
    (copyCost ((s.space p).sz.setWidth 32) ≤ free.length → ∃ d m',
      run (memory k.kend) (copyuvm k.kpdpt pgdir ((s.space p).sz.setWidth 32)) s.machine = .ok (some d, m') ∧
        CopyOf s.machine.mem pgdir (s.space p).sz m'.mem d) ∧
    (free.length < copyCost ((s.space p).sz.setWidth 32) →
      run (memory k.kend) (copyuvm k.kpdpt pgdir ((s.space p).sz.setWidth 32)) s.machine =
        .error .outOfMemory) ∧ ∀ np table, allocproc s.table = some (np, table) →
      (copyCost ((s.space p).sz.setWidth 32) + 1 ≤ free.length → ∃ d s',
        fork k p s = .ok ((table.proc np).pid.toInt, s') ∧ s'.space p = s.space p ∧
          (s'.space np).sz = (s.space p).sz ∧ (s'.space np).pgdir = some d ∧
          CopyOf s.machine.mem pgdir (s.space p).sz s'.machine.mem d ∧
          Isolated s'.machine.mem pgdir d ∧ Isolated s'.machine.mem d pgdir) ∧
      (free.length < copyCost ((s.space p).sz.setWidth 32) + 1 → fork k p s = .error .outOfMemory) := by
  have hcopy := run_copyuvm hprocess.allocator hprocess.image hprocess.image_used hsz hpresent
  refine ⟨?_, ?_, ?_⟩
  · intro hmemory
    rcases hcopy with ⟨-, hcopy⟩ | ⟨hshort, -⟩
    · exact hcopy
    · omega
  · intro hshort
    rcases hcopy with ⟨hmemory, -⟩ | ⟨-, hpanic⟩
    · omega
    · exact hpanic
  · intro np table halloc
    rcases run_fork hprocess hsz hpresent halloc with ⟨hmemory, hfork⟩ | ⟨hshort, hpanic⟩
    · exact ⟨fun _ => hfork, fun hshort => by omega⟩
    · exact ⟨fun hmemory => by omega, fun _ => hpanic⟩

/-- The kernel of a small machine. -/
def smallKernel : Link := ⟨256, 255, 0, 0⟩

/-- The process table before `userinit`. -/
def blankTable : Table := { boot with proc := fun _ => blank, nextpid := 1 }

/-- The first process of a machine with 16 pages forks. -/
theorem fork_copies_memory_init : ∃ s free pgdir kstack d s',
    Process smallKernel s 0 free pgdir kstack ∧ free.length = 10 ∧ (s.space 0).sz.toNat = 8192 ∧
      Present s.machine.mem pgdir (s.space 0).sz ∧ fork smallKernel 0 s = .ok (2, s') ∧
      CopyOf s.machine.mem pgdir (s.space 0).sz s'.machine.mem d ∧
      Isolated s'.machine.mem pgdir d ∧ Isolated s'.machine.mem d pgdir := by
  obtain ⟨m, free, -, hfree, hlength⟩ := run_freerange (fun _ _ => 0)
    (by decide : (256 : Frame) ≤ 256) (by decide : (272 : Frame) ≤ phystop)
  have hlength : free.length = 16 := hlength
  have hslot : unusedSlot blankTable.proc = some 0 := by decide
  have halloc : allocproc blankTable = some (0, { blankTable.set 0
      { blankTable.proc 0 with state := .embryo, pid := blankTable.nextpid } with nextpid := 2 }) := by
    rw [allocproc, hslot]
    rfl
  obtain ⟨s, free', pgdir, kstack, -, hcount, hprocess, hsize, hpresent, htable⟩ :=
    userinit_process (k := smallKernel) (s := ⟨m, blankTable, fun _ => ⟨0, none, none⟩⟩) hfree (by omega)
      (by decide : ([] : List (BitVec 8)).length < 4096) halloc
  have hslot' : unusedSlot s.table.proc = some 1 := by
    rw [htable]
    decide
  have halloc' : allocproc s.table = some (1, { s.table.set 1
      { s.table.proc 1 with state := .embryo, pid := s.table.nextpid } with
        nextpid := s.table.nextpid + 1 }) := by
    rw [allocproc, hslot']
  have hnat : (s.space 0).sz.toNat = 8192 := by
    rw [hsize]
    decide
  have hcost : copyCost ((s.space 0).sz.setWidth 32) = 5 := by
    rw [hsize]
    decide
  rw [← hsize] at hpresent
  obtain ⟨-, -, hfork⟩ := fork_copies_memory hprocess (by omega) hpresent
  obtain ⟨d, s', hrun, -, -, -, hcopy, hisolated⟩ := (hfork _ _ halloc').1 (by omega)
  have hpid : (({ s.table.set 1 { s.table.proc 1 with state := .embryo, pid := s.table.nextpid } with
      nextpid := s.table.nextpid + 1 } : Table).proc 1).pid.toInt = 2 := by
    rw [htable]
    decide
  rw [hpid] at hrun
  exact ⟨s, free', pgdir, kstack, d, s', hprocess, by omega, hnat, hpresent, hrun, hcopy, hisolated⟩

end Xv6Draw.Vm
