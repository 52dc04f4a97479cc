import Xv6Draw.Vm.Tables

/-!
# Images of processes

A page table whose tables and pages are all different and are managed by the allocator.
`setupkvm` makes an empty one, and a page is added with `mappages`.
-/

namespace Xv6Draw.Vm

open Function Option Ownership

/-- The pages that belong to a page table: its tables and the pages that it maps. -/
def Owned (T : Tree) (E : List Index → Word) (f : Frame) : Prop :=
  (∃ p, T p = some f) ∨ ∃ q, child (E q) = some f

/-- The entries of the kernel's half, as `setupkvm` makes them. -/
def kernelEntry (kpdpt : Frame) (i : Index) : Word :=
  if i = 256 then v2p kpdpt ||| pteP ||| pteW else 0

/-- A page table with its own tables and pages. -/
structure Image (kend kpdpt : Frame) (h : Heap Frame Page) (pml4 : Frame) (T : Tree)
    (E : List Index → Word) : Prop extends Tables h pml4 T E where
  managed : ∀ {f}, Owned T E f → Managed kend f
  page : ∀ {q f}, child (E q) = some f → h f ≠ none
  page_inj : ∀ {q q' f}, child (E q) = some f → child (E q') = some f → q = q'
  page_table : ∀ {p q f}, child (E q) = some f → T p ≠ some f
  plain : Plain h T
  kernel : ∀ i, 256 ≤ i → (h pml4).map (· i) = some (kernelEntry kpdpt i)

variable {kend kpdpt pml4 f : Frame} {h h' : Heap Frame Page} {T T' : Tree}
  {E : List Index → Word} {q : List Index} {n n' : ℕ} {Err : Panic → Prop}

theorem Image.owned_ne_none (himage : Image kend kpdpt h pml4 T E) (hf : Owned T E f) :
    h f ≠ none := by
  rcases hf with ⟨p, hp⟩ | ⟨q, hq⟩
  · exact himage.page_ne_none hp
  · exact himage.page hq

/-- An image depends on its tables, and on that its pages are there. -/
theorem Image.congr (himage : Image kend kpdpt h pml4 T E) (htable : ∀ {p f}, T p = some f → h' f = h f)
    (hpage : ∀ {q f}, child (E q) = some f → h' f ≠ none) : Image kend kpdpt h' pml4 T E := by
  refine ⟨⟨himage.root, himage.parent, himage.depth, himage.user, himage.inj, ?_, himage.absent,
    himage.short⟩, himage.managed, hpage, himage.page_inj, himage.page_table, ?_, ?_⟩
  · intro p f hf
    rw [htable hf]
    exact himage.node hf
  · intro p f i c hf hc
    rw [htable hf]
    exact himage.plain p f i c hf hc
  · intro i hi
    rw [htable himage.root]
    exact himage.kernel i hi

/-- A tree that has grown does not take a page that is in use. -/
theorem Grown.not_table (hgrown : Grown kend h T h' T') (hf : h f ≠ none) (hout : ∀ p, T p ≠ some f)
    (p : List Index) : T' p ≠ some f := by
  intro hp
  rcases hgrown.fresh hp with hold | ⟨hnone, -⟩
  · exact hout p hold
  · exact hf hnone

/-- A page has been mapped. -/
structure Mapped (kend kpdpt pml4 : Frame) (va w : Word) (f : Frame) (page : Page)
    (h : Heap Frame Page) (T : Tree) (E : List Index → Word) (n : ℕ) (h' : Heap Frame Page) (T' : Tree)
    (n' : ℕ) : Prop where
  image : Image kend kpdpt h' pml4 T' (update E (path va) w)
  content : h' f = some page
  mono : ∀ {p g}, T p = some g → T' p = some g
  fresh : ∀ {p g}, T' p = some g → T p = some g ∨ h g = none
  keeps : ∀ {g}, g ≠ f → (∀ p, T' p ≠ some g) → h' g = h g
  eq_none : ∀ p, T' p = none ↔ T p = none ∧ ¬ p <:+ dir va
  count : n = n' + missing T (dir va)

variable {va w : Word} {page : Page}

/-- A page that is not in use is mapped. -/
theorem Image.mapped (himage : Image kend kpdpt h pml4 T E)
    (hf : h f = none) (hmanaged : Managed kend f) (hw : child w = some f)
    (hwalk : Walked kend pml4 (update E (path va) w) (dir va) (update h f (some page)) T n h' T' n') :
    Mapped kend kpdpt pml4 va w f page h T E n h' T' n' := by
  have hchild : ∀ {q g}, child (update E (path va) w q) = some g →
      (q = path va ∧ g = f) ∨ (q ≠ path va ∧ child (E q) = some g) := by
    intro q g hg
    by_cases hq : q = path va
    · rw [hq, update_self, hw] at hg
      exact .inl ⟨hq, (some.inj hg).symm⟩
    · rw [update_of_ne hq] at hg
      exact .inr ⟨hq, hg⟩
  have hfT : ∀ p, T p ≠ some f := fun p hp => himage.page_ne_none hp hf
  have hfT' := hwalk.grown.not_table (f := f) (by simp) hfT
  have hcontent : h' f = some page := by rw [hwalk.grown.keeps hfT', update_self]
  have hkeep : ∀ {g}, g ≠ f → (∀ p, T' p ≠ some g) → h' g = h g := by
    intro g hg hout
    rw [hwalk.grown.keeps hout, update_of_ne hg]
  have hold : ∀ {q g}, child (E q) = some g → g ≠ f ∧ ∀ p, T' p ≠ some g := by
    intro q g hg
    have hgf : g ≠ f := by
      rintro rfl
      exact himage.page hg hf
    refine ⟨hgf, hwalk.grown.not_table ?_ fun p => himage.page_table hg⟩
    rw [update_of_ne hgf]
    exact himage.page hg
  refine ⟨⟨hwalk.tables, ?_, ?_, ?_, ?_, ?_, ?_⟩, hcontent, hwalk.grown.mono, ?_, hkeep, hwalk.eq_none,
    hwalk.count⟩
  · rintro g (⟨q, hq⟩ | ⟨q, hq⟩)
    · rcases hwalk.grown.fresh hq with hq | ⟨-, hmanaged⟩
      · exact himage.managed (.inl ⟨q, hq⟩)
      · exact hmanaged
    · rcases hchild hq with ⟨-, rfl⟩ | ⟨-, hq⟩
      · exact hmanaged
      · exact himage.managed (.inr ⟨q, hq⟩)
  · intro q g hg
    rcases hchild hg with ⟨-, rfl⟩ | ⟨-, hg⟩
    · simp [hcontent]
    · rw [hkeep (hold hg).1 (hold hg).2]
      exact himage.page hg
  · intro q q' g hg hg'
    rcases hchild hg with ⟨rfl, rfl⟩ | ⟨-, hg⟩
    · rcases hchild hg' with ⟨rfl, -⟩ | ⟨-, hg'⟩
      · rfl
      · exact absurd rfl (hold hg').1
    · rcases hchild hg' with ⟨-, rfl⟩ | ⟨-, hg'⟩
      · exact absurd rfl (hold hg).1
      · exact himage.page_inj hg hg'
  · intro p q g hg
    rcases hchild hg with ⟨-, rfl⟩ | ⟨-, hg⟩
    · exact hfT' p
    · exact (hold hg).2 p
  · refine hwalk.plain ?_
    intro q g j c hg hc
    have hgf : g ≠ f := by
      rintro rfl
      exact hfT q hg
    rw [update_of_ne hgf]
    exact himage.plain q g j c hg hc
  · intro j hj
    have hroot : pml4 ≠ f := by
      rintro rfl
      exact hfT [] himage.root
    rw [hwalk.kernel j hj, update_of_ne hroot]
    exact himage.kernel j hj
  · intro p g hp
    rcases hwalk.grown.fresh hp with hp | ⟨hnone, -⟩
    · exact .inl hp
    · have hgf : g ≠ f := by
        rintro rfl
        simp at hnone
      rw [update_of_ne hgf] at hnone
      exact .inr hnone

theorem Mapped.owned {g : Frame}
    (hmap : Mapped kend kpdpt pml4 va w f page h T E n h' T' n') (habsent : child (E (path va)) = none)
    (hg : Owned T E g) : Owned T' (update E (path va) w) g := by
  rcases hg with ⟨p, hp⟩ | ⟨q, hq⟩
  · exact .inl ⟨p, hmap.mono hp⟩
  · have hne : q ≠ path va := by
      rintro rfl
      simp [habsent] at hq
    exact .inr ⟨q, by rw [update_of_ne hne, hq]⟩

/-- The page table gets the page and some tables. -/
theorem Mapped.owned_cases {g : Frame}
    (hmap : Mapped kend kpdpt pml4 va w f page h T E n h' T' n') (hw : child w = some f)
    (hg : Owned T' (update E (path va) w) g) : Owned T E g ∨ g = f ∨ h g = none := by
  rcases hg with ⟨p, hp⟩ | ⟨q, hq⟩
  · rcases hmap.fresh hp with hp | hnone
    · exact .inl (.inl ⟨p, hp⟩)
    · exact .inr (.inr hnone)
  · by_cases hqva : q = path va
    · rw [hqva, update_self, hw] at hq
      exact .inr (.inl (some.inj hq).symm)
    · rw [update_of_ne hqva] at hq
      exact .inl (.inr ⟨q, hq⟩)

/-- The entry that `mappages` makes. -/
def newEntry (f : Frame) (perm : BitVec 32) : Word := v2p f ||| perm.signExtend 64 ||| pteP

theorem child_newEntry (f : Frame) {perm : BitVec 32} (hperm : perm.toNat < 4096) :
    child (newEntry f perm) = some f := by
  have hlt := or_pteP_lt (by rwa [signExtend_toNat hperm] : (perm.signExtend 64).toNat < 4096)
  rw [newEntry, BitVec.or_assoc]
  exact child_v2p_or f hlt (or_pteP_mod _)

/-- `mappages` of a page that has been allocated. -/
theorem Image.wp_mappages {perm : BitVec 32}
    {Q : ℤ → Heap Frame Page → ℕ → Prop} (himage : Image kend kpdpt h pml4 T E) (hf : h f = none)
    (hmanaged : Managed kend f) (hperm : perm.toNat < 4096) (hva : User (path va))
    (haligned : va.toNat % 4096 = 0) (habsent : child (E (path va)) = none)
    (hmemory : n < missing T (dir va) → Err .outOfMemory)
    (hQ : ∀ h' T' n', Mapped kend kpdpt pml4 va (newEntry f perm) f page h T E n h' T' n' → Q 0 h' n') :
    wp (kmem kend) Err Q (mappages pml4 va pgsize (v2p f) perm) (update h f (some page)) n := by
  have hT : Tables (update h f (some page)) pml4 T E := by
    refine himage.toTables.mono ?_
    intro g page' hg
    have hgf : g ≠ f := by
      rintro rfl
      simp [hf] at hg
    rw [update_of_ne hgf, hg]
  refine hT.wp_mappages hva haligned habsent hmemory ?_
  intro h' T' n' hwalk
  exact hQ h' T' n' (himage.mapped hf hmanaged (child_newEntry f hperm) hwalk)

/-! ### The empty page table -/

/-- The tree of an empty page table. -/
def emptyTree (pml4 : Frame) : Tree := fun p => if p = [] then some pml4 else none

theorem emptyTree_eq_some {p : List Index} (hp : emptyTree pml4 p = some f) : p = [] ∧ f = pml4 := by
  unfold emptyTree at hp
  split_ifs at hp with hnil
  exact ⟨hnil, (some.inj hp).symm⟩

/-- The page map that `setupkvm` makes. -/
theorem image_empty (hpage : h pml4 = some page) (hmanaged : Managed kend pml4)
    (hentry : ∀ i, page i = kernelEntry kpdpt i) :
    Image kend kpdpt h pml4 (emptyTree pml4) fun _ => 0 := by
  have hzero : ∀ f, child 0 ≠ some f := by simp
  refine ⟨⟨rfl, ?_, ?_, ?_, ?_, ?_, fun _ _ => rfl, fun _ => rfl⟩, ?_, ?_, ?_, ?_, ?_, ?_⟩
  · intro i p f hf
    exact absurd (emptyTree_eq_some hf).1 (List.cons_ne_nil i p)
  · intro p f hf
    simp [(emptyTree_eq_some hf).1]
  · intro p f hf
    rw [(emptyTree_eq_some hf).1]
    intro i hi
    simp at hi
  · intro p q f hp hq
    rw [(emptyTree_eq_some hp).1, (emptyTree_eq_some hq).1]
  · intro p f hf
    obtain ⟨rfl, rfl⟩ := emptyTree_eq_some hf
    refine ⟨page, hpage, ?_, ?_⟩
    · intro _ i hi
      have hlow : i < 256 := hi i rfl
      have hne : i ≠ 256 := by
        rintro rfl
        exact absurd hlow (by decide)
      rw [hentry, kernelEntry, if_neg hne]
      exact child_zero
    · simp
  · rintro f (⟨p, hp⟩ | ⟨q, hq⟩)
    · rwa [(emptyTree_eq_some hp).2]
    · exact absurd hq (hzero f)
  · intro q f hq
    exact absurd hq (hzero f)
  · intro q q' f hq
    exact absurd hq (hzero f)
  · intro p q f hq
    exact absurd hq (hzero f)
  · intro p f i c _ hc
    exact absurd (emptyTree_eq_some hc).1 (List.cons_ne_nil i p)
  · intro i _
    simp [hpage, hentry]

theorem wp_setupkvm {Q : Option Frame → Heap Frame Page → ℕ → Prop} (hmemory : n = 0 → Err .outOfMemory)
    (hQ : ∀ d page m, n = m + 1 → h d = none →
      Image kend kpdpt (update h d (some page)) d (emptyTree d) (fun _ => 0) →
        Q (some d) (update h d (some page)) m) :
    wp (kmem kend) Err Q (setupkvm kpdpt) h n := by
  refine wp_bind (wp_kalloc hmemory ?_)
  intro d old m hm hmanaged hd
  refine wp_bind (wp_clear (update_self ..) ?_)
  rw [update_idem]
  refine wp_bind (wp_store (update_self ..) ?_)
  rw [update_idem]
  refine wp_pure (hQ d _ m hm hd ?_)
  refine image_empty (update_self ..) hmanaged ?_
  intro i
  by_cases hi : i = 256
  · subst i
    rw [update_self, kernelEntry, if_pos rfl]
  · rw [update_of_ne hi, kernelEntry, if_neg hi]

/-- `inituvm` of an empty page table. -/
theorem wp_inituvm {init : List (BitVec 8)} {Q : Unit → Heap Frame Page → ℕ → Prop}
    (himage : Image kend kpdpt h pml4 (emptyTree pml4) fun _ => 0) (hinit : init.length < 4096)
    (hmemory : n < 4 → Err .outOfMemory)
    (hQ : ∀ f h' T E n', n = n' + 4 → (∀ {g}, h g ≠ none → g ≠ pml4 → h' g = h g) →
      (∀ {g}, Owned T E g → g = pml4 ∨ h g = none) → Image kend kpdpt h' pml4 T E →
        child (E (path pgsize)) = some f → Q () h' n') :
    wp (kmem kend) Err Q (inituvm pml4 init) h n := by
  have hmissing : missing (emptyTree pml4) (dir pgsize) = 3 := rfl
  rw [inituvm, if_neg (by omega)]
  refine wp_bind (wp_kalloc ?_ ?_)
  · intro hn
    exact hmemory (by omega)
  intro f old m hm hmanaged hf
  refine wp_bind (wp_clear (update_self ..) ?_)
  rw [update_idem]
  refine wp_bind (himage.wp_mappages hf hmanaged (by decide) (by decide) (by decide) child_zero ?_ ?_)
  · intro hn
    exact hmemory (by omega)
  intro h' T' n' hmap
  have hcount := hmap.count
  have hchild : child (newEntry f ((pteW ||| pteU).setWidth 32)) = some f :=
    child_newEntry f (by decide)
  refine wp_update hmap.content ?_
  -- the page is written where it is mapped, and no table is changed
  refine hQ f _ T' _ n' (by omega) ?_ ?_ (hmap.image.congr ?_ ?_) (by rw [update_self, hchild])
  · intro g hg hroot
    have hgf : g ≠ f := by
      rintro rfl
      exact hg hf
    rw [update_of_ne hgf]
    refine hmap.keeps hgf ?_
    intro p hp
    rcases hmap.fresh hp with hp | hnone
    · exact hroot (emptyTree_eq_some hp).2
    · exact hg hnone
  · intro g hg
    rcases hmap.owned_cases hchild hg with (⟨p, hp⟩ | ⟨q, hq⟩) | rfl | hnone
    · exact .inl (emptyTree_eq_some hp).2
    · simp at hq
    · exact .inr hf
    · exact .inr hnone
  · intro p g hg
    have hgf : g ≠ f := by
      rintro rfl
      exact hmap.image.page_table (by rw [update_self, hchild]) hg
    rw [update_of_ne hgf]
  · intro q g hg
    by_cases hgf : g = f
    · simp [hgf]
    · rw [update_of_ne hgf]
      exact hmap.image.page hg

end Xv6Draw.Vm
