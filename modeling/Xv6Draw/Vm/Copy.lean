import Xv6Draw.Vm.Image

/-!
# The copy of an address space

`copyuvm` makes a page table of its own, with a new page for every page of the process.
Nothing that is in memory before changes.
-/

namespace Xv6Draw.Vm

open BitVec Function List Ownership

variable {kend kpdpt pgdir d : Frame} {h₀ h : Heap Frame Page} {T₀ T : Tree}
  {E₀ E : List Index → Word} {done rest : List Word} {a : Word} {n : ℕ} {Err : Panic → Prop}

/-- Some pages have been copied into a new page table. -/
structure Copied (kend kpdpt : Frame) (h₀ : Heap Frame Page) (E₀ : List Index → Word) (d : Frame)
    (done : List Word) (h : Heap Frame Page) (T : Tree) (E : List Index → Word) : Prop where
  image : Image kend kpdpt h d T E
  old : ∀ {f page}, h₀ f = some page → h f = some page
  fresh : ∀ {f}, Owned T E f → h₀ f = none
  only : ∀ {f}, h f ≠ none → h₀ f ≠ none ∨ Owned T E f
  mapped : ∀ q, child (E q) ≠ none ↔ ∃ a ∈ done, q = path a
  copy : ∀ a ∈ done, ∃ f page, E (path a) = v2p f ||| pteFlags (E₀ (path a)) ∧
    child (E (path a)) = some f ∧ h f = some page ∧ h₀ (p2v (pteAddr (E₀ (path a)))) = some page
  tree : ∀ p, T p = none ↔ p ≠ [] ∧ ∀ a ∈ done, ¬ p <:+ dir a

/-- The number of tables on a path that no page has needed yet. -/
def newTables (done : List Word) : List Index → ℕ
  | [] => 0
  | i :: p => (if ∀ a ∈ done, ¬ (i :: p) <:+ dir a then 1 else 0) + newTables done p

/-- The number of pages that it takes to copy the rest. -/
def cost (done : List Word) : List Word → ℕ
  | [] => 0
  | a :: rest => 1 + newTables done (dir a) + cost (done ++ [a]) rest

/-- The tables that are missing are those that no page has needed. -/
theorem Copied.missing_eq (hcopied : Copied kend kpdpt h₀ E₀ d done h T E) (p : List Index) :
    missing T p = newTables done p := by
  induction p with
  | nil => rfl
  | cons i p ih =>
    have hcons : T (i :: p) = none ↔ ∀ a ∈ done, ¬ (i :: p) <:+ dir a := by
      rw [hcopied.tree]
      simp
    simp only [missing, newTables, hcons, ih]

/-- The entry of a copy has the flags of the page. -/
theorem newEntry_flags {f : Frame} {pte : Word} (hpresent : pte &&& pteP ≠ 0) :
    newEntry f ((pteFlags pte).setWidth 32) = v2p f ||| pteFlags pte := by
  have hflags := pteFlags_toNat pte
  have hperm : ((pteFlags pte).setWidth 32).toNat = (pteFlags pte).toNat := by
    rw [toNat_setWidth]
    omega
  have hword : ((pteFlags pte).setWidth 32).signExtend 64 = pteFlags pte := by
    apply eq_of_toNat_eq
    rw [signExtend_toNat (by omega), hperm]
  have hP : pteFlags pte &&& pteP ≠ 0 := by
    rw [and_pteP_ne_zero] at hpresent ⊢
    omega
  rw [newEntry, hword, BitVec.or_assoc, or_pteP_of_present hP]

/-- A page is copied and mapped. -/
theorem Copied.snoc {f : Frame} {page : Page} {h' : Heap Frame Page} {T' : Tree} {m m' : ℕ}
    (hcopied : Copied kend kpdpt h₀ E₀ d done h T E) (hf : h f = none)
    (hsource : h₀ (p2v (pteAddr (E₀ (path a)))) = some page) (hnew : ∀ b ∈ done, path b ≠ path a)
    (hpresent : E₀ (path a) &&& pteP ≠ 0)
    (hmap : Mapped kend kpdpt d a (v2p f ||| pteFlags (E₀ (path a))) f page h T E m h' T' m') :
    Copied kend kpdpt h₀ E₀ d (done ++ [a]) h' T'
      (update E (path a) (v2p f ||| pteFlags (E₀ (path a)))) := by
  have hchild : child (v2p f ||| pteFlags (E₀ (path a))) = some f := by
    have hflags := pteFlags_toNat (E₀ (path a))
    rw [and_pteP_ne_zero] at hpresent
    exact child_v2p_or f (by omega) (by omega)
  have habsent : child (E (path a)) = none := by
    by_contra hmapped
    obtain ⟨b, hb, hpath⟩ := (hcopied.mapped _).mp hmapped
    exact hnew b hb hpath.symm
  have hnone : ∀ {g}, h g = none → h₀ g = none := by
    intro g hg
    cases hg₀ : h₀ g with
    | none => rfl
    | some page' => simp [hcopied.old hg₀] at hg
  -- a page that was in use is neither the new page nor a new table
  have hkept : ∀ {g page'}, h g = some page' → (∀ p, T p ≠ some g) → h' g = some page' := by
    intro g page' hg hout
    have hgf : g ≠ f := by
      rintro rfl
      simp [hg] at hf
    rw [hmap.keeps hgf, hg]
    intro p hp
    rcases hmap.fresh hp with hp | hnone
    · exact hout p hp
    · simp [hg] at hnone
  refine ⟨hmap.image, ?_, ?_, ?_, ?_, ?_, ?_⟩
  · intro g page' hg
    refine hkept (hcopied.old hg) ?_
    intro p hp
    simp [hcopied.fresh (.inl ⟨p, hp⟩)] at hg
  · intro g hg
    rcases hmap.owned_cases hchild hg with hg | rfl | hg
    · exact hcopied.fresh hg
    · exact hnone hf
    · exact hnone hg
  · intro g hg
    by_cases hgf : g = f
    · subst g
      exact .inr (.inr ⟨path a, by rw [update_self, hchild]⟩)
    · by_cases hout : ∃ p, T' p = some g
      · exact .inr (.inl hout)
      · rw [hmap.keeps hgf (not_exists.mp hout)] at hg
        exact (hcopied.only hg).imp_right (hmap.owned habsent)
  · intro q
    by_cases hq : q = path a
    · subst q
      simp [hchild]
    · rw [update_of_ne hq, hcopied.mapped]
      simp [hq]
  · intro b hb
    rcases mem_append.mp hb with hb | hb
    · obtain ⟨g, page', hentry, hmapped, hg, hsrc⟩ := hcopied.copy b hb
      rw [update_of_ne (hnew b hb)]
      exact ⟨g, page', hentry, hmapped, hkept hg fun p => hcopied.image.page_table hmapped, hsrc⟩
    · obtain rfl := mem_singleton.mp hb
      rw [update_self]
      exact ⟨f, page, rfl, hchild, hmap.content, hsource⟩
  · intro p
    rw [hmap.eq_none, hcopied.tree]
    constructor
    · rintro ⟨⟨hp, hdone⟩, ha⟩
      refine ⟨hp, ?_⟩
      intro b hb
      rcases mem_append.mp hb with hb | hb
      · exact hdone b hb
      · obtain rfl := mem_singleton.mp hb
        exact ha
    · rintro ⟨hp, hall⟩
      exact ⟨⟨hp, fun b hb => hall b (mem_append_left _ hb)⟩, hall a (by simp)⟩

/-- A page of the parent that can be copied. -/
structure Source (h₀ : Heap Frame Page) (E₀ : List Index → Word) (a : Word) : Prop where
  user : User (path a)
  aligned : a.toNat % 4096 = 0
  present : E₀ (path a) &&& pteP ≠ 0
  page : h₀ (p2v (pteAddr (E₀ (path a)))) ≠ none

/-- The loop of `copyuvm`. -/
theorem Copied.wp_copyLoop {Q : Bool → Heap Frame Page → ℕ → Prop}
    (hparent : Tables h₀ pgdir T₀ E₀) (hcopied : Copied kend kpdpt h₀ E₀ d done h T E)
    (hsource : ∀ a ∈ rest, Source h₀ E₀ a) (hdistinct : ((done ++ rest).map path).Nodup)
    (hmemory : n < cost done rest → Err .outOfMemory)
    (hQ : ∀ h' T' E' n', Copied kend kpdpt h₀ E₀ d (done ++ rest) h' T' E' →
      n = n' + cost done rest → Q true h' n') :
    wp (kmem kend) Err Q (copyLoop pgdir d rest) h n := by
  induction rest generalizing done h T E n with
  | nil =>
    refine wp_pure (hQ h T E n ?_ rfl)
    rwa [append_nil]
  | cons a rest ih =>
    obtain ⟨huser, haligned, hpresent, hpage⟩ := hsource a mem_cons_self
    obtain ⟨page, hpage⟩ := Option.ne_none_iff_exists'.mp hpage
    -- the entry of the parent
    have hmapped : child (E₀ (path a)) ≠ none := by
      rw [child, if_pos hpresent]
      simp
    obtain ⟨i, p, t, hpath, ht, hlength⟩ := hparent.table_of_child hmapped
    obtain ⟨rfl, rfl⟩ := List.cons.inj hpath
    obtain ⟨table, htable, -, hleaf⟩ := hparent.node ht
    have hentry : table (ptx a) = E₀ (path a) := (hleaf hlength (ptx a)).symm
    have hnew : ∀ b ∈ done, path b ≠ path a := by
      intro b hb hpath
      rw [map_append, map_cons] at hdistinct
      have hdisjoint := (nodup_append.mp hdistinct).2.2
      exact hdisjoint (path b) (mem_map_of_mem hb) (path a) mem_cons_self hpath
    have habsent : child (E (path a)) = none := by
      by_contra hmapped
      obtain ⟨b, hb, hpath⟩ := (hcopied.mapped _).mp hmapped
      exact hnew b hb hpath.symm
    rw [copyLoop]
    refine wp_bind ((hparent.mono fun f page hf => hcopied.old hf).wp_walkpgdir_false huser ?_)
    rw [ht]
    refine wp_bind (wp_load (hcopied.old htable) ?_)
    rw [hentry]
    refine wp_ite (fun habsent => absurd habsent hpresent) fun _ => ?_
    refine wp_bind (wp_kalloc ?_ ?_)
    · intro hn
      refine hmemory ?_
      rw [cost]
      omega
    intro f old m hm hmanaged hf
    have hsrcf : p2v (pteAddr (E₀ (path a))) ≠ f := by
      rintro rfl
      simp [hcopied.old hpage] at hf
    refine wp_bind (wp_copyPage (update_self ..)
      ((update_of_ne hsrcf _ _).trans (hcopied.old hpage)) ?_)
    rw [update_idem]
    have hperm : ((pteFlags (E₀ (path a))).setWidth 32).toNat < 4096 := by
      have hflags := pteFlags_toNat (E₀ (path a))
      rw [toNat_setWidth]
      omega
    refine wp_bind (hcopied.image.wp_mappages hf hmanaged hperm huser haligned habsent ?_ ?_)
    · intro hn
      refine hmemory ?_
      rw [hcopied.missing_eq] at hn
      rw [cost]
      omega
    intro h' T' n' hmap
    rw [newEntry_flags hpresent] at hmap
    have hsnoc := hcopied.snoc hf hpage hnew hpresent hmap
    have hcount := hmap.count
    rw [hcopied.missing_eq] at hcount
    refine wp_ite (fun hneg => absurd hneg (by decide)) fun _ => ?_
    refine ih hsnoc (fun b hb => hsource b (mem_cons_of_mem a hb)) ?_ ?_ ?_
    · rwa [List.append_assoc, singleton_append]
    · intro hn
      refine hmemory ?_
      rw [cost]
      omega
    · intro h'' T'' E'' n'' hall hn
      rw [List.append_assoc, singleton_append] at hall
      refine hQ h'' T'' E'' n'' hall ?_
      rw [cost]
      omega

/-- An empty page table is a copy of nothing. -/
theorem copied_nil {page : Page} (hd : h₀ d = none)
    (himage : Image kend kpdpt (update h₀ d (some page)) d (emptyTree d) fun _ => 0) :
    Copied kend kpdpt h₀ E₀ d [] (update h₀ d (some page)) (emptyTree d) fun _ => 0 := by
  refine ⟨himage, ?_, ?_, ?_, ?_, ?_, ?_⟩
  · intro f page' hf
    have hne : f ≠ d := by
      rintro rfl
      simp [hd] at hf
    rw [update_of_ne hne, hf]
  · rintro f (⟨p, hp⟩ | ⟨q, hq⟩)
    · rw [(emptyTree_eq_some hp).2, hd]
    · simp at hq
  · intro f hf
    by_cases hfd : f = d
    · subst f
      exact .inr (.inl ⟨[], rfl⟩)
    · rw [update_of_ne hfd] at hf
      exact .inl hf
  · simp
  · simp
  · intro p
    simp [emptyTree]

/-- `copyuvm` copies the pages below the size. -/
theorem wp_copyuvm {sz : BitVec 32} {Q : Option Frame → Heap Frame Page → ℕ → Prop}
    (hparent : Tables h₀ pgdir T₀ E₀) (hsource : ∀ a ∈ pages pgsize (sz.setWidth 64), Source h₀ E₀ a)
    (hdistinct : ((pages pgsize (sz.setWidth 64)).map path).Nodup)
    (hmemory : n < 1 + cost [] (pages pgsize (sz.setWidth 64)) → Err .outOfMemory)
    (hQ : ∀ d h T E n', Copied kend kpdpt h₀ E₀ d (pages pgsize (sz.setWidth 64)) h T E →
      n = n' + 1 + cost [] (pages pgsize (sz.setWidth 64)) → Q (some d) h n') :
    wp (kmem kend) Err Q (copyuvm kpdpt pgdir sz) h₀ n := by
  refine wp_bind (wp_setupkvm ?_ ?_)
  · intro hn
    exact hmemory (by omega)
  intro d page m hm hd himage
  rw [← nil_append (pages pgsize (sz.setWidth 64))] at hdistinct
  refine wp_bind ((copied_nil hd himage).wp_copyLoop hparent hsource hdistinct ?_ ?_)
  · intro hn
    exact hmemory (by omega)
  intro h T E n' hcopied hn
  rw [nil_append] at hcopied
  exact wp_pure (hQ d h T E n' hcopied (by omega))

/-! ### How many pages it takes -/

/-- The address of a page, counted from the first that a process uses. -/
def pageAddr (k : ℕ) : Word := pgsize + pgsize * BitVec.ofNat 64 k

theorem pageAddr_toNat {k : ℕ} (hk : k < 2 ^ 20) : (pageAddr k).toNat = 4096 * (k + 1) := by
  simp only [pageAddr, pgsize, toNat_add, toNat_mul, ofNat_eq_ofNat, toNat_ofNat]
  omega

theorem path_inj {a b : Word} (ha : a.toNat % 4096 = 0) (hb : b.toNat % 4096 = 0)
    (ha' : a.toNat < 2 ^ 48) (hb' : b.toNat < 2 ^ 48) (hpath : path a = path b) : a = b := by
  simp only [path, dir, List.cons.injEq, and_true] at hpath
  obtain ⟨hptx, hpdx, hpdpx, hpmx⟩ := hpath
  have h₁ := congrArg BitVec.toNat hptx
  have h₂ := congrArg BitVec.toNat hpdx
  have h₃ := congrArg BitVec.toNat hpdpx
  have h₄ := congrArg BitVec.toNat hpmx
  simp only [ptx, pdx, pdpx, pmx, px_toNat] at h₁ h₂ h₃ h₄
  apply eq_of_toNat_eq
  omega

/-- The lower half of the addresses is the user's. -/
theorem user_path {a : Word} (ha : a.toNat < 2 ^ 47) : User (path a) := by
  intro i hi
  have hpmx : i = pmx a := by simpa [path, dir] using hi.symm
  have hnat : (pmx a).toNat < 256 := by
    rw [pmx, px_toNat]
    omega
  rw [hpmx]
  exact hnat

/-- The number of pages of a process. -/
def npages (sz : BitVec 32) : ℕ := (sz.toNat - 4096 + 4095) / 4096

theorem npages_lt (sz : BitVec 32) : npages sz < 2 ^ 20 := by
  unfold npages
  omega

theorem pages_eq (sz : BitVec 32) :
    pages pgsize (sz.setWidth 64) = (range (npages sz)).map pageAddr := by
  have hsz : (sz.setWidth 64).toNat = sz.toNat := by
    rw [toNat_setWidth]
    omega
  rw [pages, hsz]
  rfl

/-- The pages that `copyuvm` goes through. -/
theorem mem_pages {sz : BitVec 32} {a : Word} :
    a ∈ pages pgsize (sz.setWidth 64) ↔ a.toNat % 4096 = 0 ∧ 4096 ≤ a.toNat ∧ a.toNat < sz.toNat := by
  rw [pages_eq, npages]
  refine (mem_pageRange rfl ?_).trans ?_
  · rw [show pgsize.toNat = 4096 from rfl]
    omega
  · rw [show pgsize.toNat = 4096 from rfl]
    omega

theorem nodup_pages (sz : BitVec 32) : ((pages pgsize (sz.setWidth 64)).map path).Nodup := by
  have hle := npages_lt sz
  rw [pages_eq, map_map]
  refine List.Nodup.map_on ?_ nodup_range
  intro j hj k hk hpath
  rw [mem_range] at hj hk
  have hj' := pageAddr_toNat (by omega : j < 2 ^ 20)
  have hk' := pageAddr_toNat (by omega : k < 2 ^ 20)
  have heq := path_inj (by omega) (by omega) (by omega) (by omega) hpath
  rw [heq] at hj'
  omega

theorem suffix_dir₁ {i : Index} {a : Word} : [i] <:+ dir a ↔ i = pmx a := by
  simp [dir, suffix_cons_iff]

theorem suffix_dir₂ {i j : Index} {a : Word} : [j, i] <:+ dir a ↔ j = pdpx a ∧ i = pmx a := by
  simp [dir, suffix_cons_iff]

theorem suffix_dir₃ {i j l : Index} {a : Word} :
    [l, j, i] <:+ dir a ↔ l = pdx a ∧ j = pdpx a ∧ i = pmx a := by
  simp [dir, suffix_cons_iff]

/-- The number of pages and tables for the first pages of a process. -/
def pageCost (k : ℕ) : ℕ := k + if k = 0 then 0 else (k + 512) / 512 + (k + 262144) / 262144 + 1

/-- The first page needs three tables; behind it there is a new one at the start of every
2 MB, and one more at the start of every 1 GB. -/
theorem newTables_pages {k : ℕ} (hk : k < 2 ^ 20) :
    newTables ((range k).map pageAddr) (dir (pageAddr k)) =
      (if k = 0 ∨ (k + 1) % 512 = 0 then 1 else 0) +
        ((if k = 0 ∨ (k + 1) % 262144 = 0 then 1 else 0) + if k = 0 then 1 else 0) := by
  have hb := pageAddr_toNat hk
  have hpmx : ∀ j < k, pmx (pageAddr k) = pmx (pageAddr j) := by
    intro j hj
    have ha := pageAddr_toNat (by omega : j < 2 ^ 20)
    apply eq_of_toNat_eq
    rw [pmx, px_toNat, px_toNat]
    omega
  have hpdpx : ∀ j < k, pdpx (pageAddr k) = pdpx (pageAddr j) ↔ (k + 1) / 262144 = (j + 1) / 262144 := by
    intro j hj
    have ha := pageAddr_toNat (by omega : j < 2 ^ 20)
    rw [← toNat_inj, pdpx, px_toNat, px_toNat]
    omega
  have hpdx : ∀ j < k, pdx (pageAddr k) = pdx (pageAddr j) ↔ (k + 1) / 512 % 512 = (j + 1) / 512 % 512 := by
    intro j hj
    have ha := pageAddr_toNat (by omega : j < 2 ^ 20)
    rw [← toNat_inj, pdx, px_toNat, px_toNat]
    omega
  have hall : ∀ p : List Index, (∀ a ∈ (range k).map pageAddr, ¬ p <:+ dir a) ↔
      ∀ j < k, ¬ p <:+ dir (pageAddr j) := by
    simp
  have hlevel₁ : (∀ a ∈ (range k).map pageAddr, ¬ [pmx (pageAddr k)] <:+ dir a) ↔ k = 0 := by
    rw [hall]
    simp only [suffix_dir₁]
    constructor
    · intro hnone
      by_contra hk0
      exact hnone 0 (by omega) (hpmx 0 (by omega))
    · rintro rfl j hj
      omega
  have hlevel₂ : (∀ a ∈ (range k).map pageAddr, ¬ [pdpx (pageAddr k), pmx (pageAddr k)] <:+ dir a) ↔
      k = 0 ∨ (k + 1) % 262144 = 0 := by
    rw [hall]
    simp only [suffix_dir₂]
    constructor
    · intro hnone
      by_contra hk0
      exact hnone (k - 1) (by omega) ⟨(hpdpx _ (by omega)).mpr (by omega), hpmx _ (by omega)⟩
    · rintro hk0 j hj ⟨hpdp, -⟩
      rw [hpdpx j hj] at hpdp
      omega
  have hlevel₃ : (∀ a ∈ (range k).map pageAddr,
      ¬ [pdx (pageAddr k), pdpx (pageAddr k), pmx (pageAddr k)] <:+ dir a) ↔
      k = 0 ∨ (k + 1) % 512 = 0 := by
    rw [hall]
    simp only [suffix_dir₃]
    constructor
    · intro hnone
      by_contra hk0
      exact hnone (k - 1) (by omega) ⟨(hpdx _ (by omega)).mpr (by omega),
        (hpdpx _ (by omega)).mpr (by omega), hpmx _ (by omega)⟩
    · rintro hk0 j hj ⟨hpd, hpdp, -⟩
      rw [hpdx j hj] at hpd
      rw [hpdpx j hj] at hpdp
      omega
  rw [dir]
  simp only [newTables, hlevel₁, hlevel₂, hlevel₃, Nat.add_zero]

theorem pageCost_succ {k : ℕ} (hk : k < 2 ^ 20) :
    pageCost (k + 1) = pageCost k + 1 + newTables ((range k).map pageAddr) (dir (pageAddr k)) := by
  rw [newTables_pages hk, pageCost, pageCost, if_neg (Nat.succ_ne_zero k)]
  by_cases hk0 : k = 0
  · subst hk0
    rfl
  · simp only [hk0, false_or, if_false]
    split_ifs <;> omega

/-- The rest of the pages costs what is left of the whole. -/
theorem pageCost_add_cost {k m : ℕ} (hkm : k + m ≤ 2 ^ 20) :
    pageCost k + cost ((range k).map pageAddr) ((range' k m).map pageAddr) =
      pageCost (k + m) := by
  induction m generalizing k with
  | zero => rfl
  | succ m ih =>
    have hsnoc : (range k).map pageAddr ++ [pageAddr k] = (range (k + 1)).map pageAddr := by
      rw [range_succ, map_append]
      rfl
    have hrest := ih (by omega : k + 1 + m ≤ 2 ^ 20)
    have hstep : pageCost (k + 1) = pageCost k + 1 +
        newTables ((range k).map pageAddr) (dir (pageAddr k)) := by
      exact pageCost_succ (by omega)
    rw [List.range'_succ, map_cons, cost, hsnoc]
    have hkm' : k + 1 + m = k + (m + 1) := by omega
    rw [hkm'] at hrest
    omega

/-- The number of pages that `copyuvm` allocates. -/
def copyCost (sz : BitVec 32) : ℕ := 1 + pageCost (npages sz)

theorem cost_pages (sz : BitVec 32) : cost [] (pages pgsize (sz.setWidth 64)) = pageCost (npages sz) := by
  have hlt := npages_lt sz
  have hcost := pageCost_add_cost (by omega : 0 + npages sz ≤ 2 ^ 20)
  rw [range_zero, map_nil, ← range_eq_range', ← pages_eq, Nat.zero_add] at hcost
  have hzero : pageCost 0 = 0 := rfl
  omega

end Xv6Draw.Vm
