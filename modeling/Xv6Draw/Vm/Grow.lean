import Xv6Draw.Vm.MapRange

/-!
# The size of a process

`growproc` with `allocuvm` and `deallocuvm`. A process has the pages from the second one up to its
size. `deallocuvm` returns the new size, which `growproc` takes for an error if it is 0.
-/

namespace Xv6Draw.Vm

open Function List Option Ownership Ptable

/-- A round of the loop of `deallocuvm`. -/
def deallocPage (pgdir : Frame) (a : Word) : Kernel Unit := do
  let some (table, i) ← walkpgdir pgdir a false | return
  let pte ← load table i
  if pte &&& pteP ≠ 0 then
    let pa := pteAddr pte
    if pa = 0 then fail .kfree
    else
      kfree (p2v pa)
      store table i 0

/-- `deallocuvm`. -/
def deallocuvm (pgdir : Frame) (oldsz newsz : Word) : Kernel Word :=
  if newsz ≥ oldsz then return oldsz
  else do
    (pages (pgroundup newsz) oldsz).forM (deallocPage pgdir)
    return newsz

/-- The loop of `allocuvm`. -/
def allocLoop (pgdir : Frame) (oldsz newsz : Word) : List Word → Kernel Word
  | [] => return newsz
  | a :: rest => do
    let some mem ← kalloc | do
      let _ ← deallocuvm pgdir newsz oldsz
      return 0
    clear mem
    if (← mappages pgdir a pgsize (v2p mem) ((pteW ||| pteU).setWidth 32)) < 0 then
      let _ ← deallocuvm pgdir newsz oldsz
      kfree mem
      return 0
    else allocLoop pgdir oldsz newsz rest

/-- `allocuvm`. -/
def allocuvm (pgdir : Frame) (oldsz newsz : Word) : Kernel Word :=
  if newsz ≥ kernbase then return 0
  else if newsz < oldsz then return oldsz
  else allocLoop pgdir oldsz newsz (pages (pgroundup oldsz) newsz)

/-- What `growproc` does to the memory: the new size, or 0 on an error. -/
def growMemory (pgdir : Frame) (sz n : Word) : Kernel Word :=
  if 0 < n.toInt then allocuvm pgdir sz (sz + n)
  else if n.toInt < 0 then deallocuvm pgdir sz (sz + n)
  else return sz

/-- The end of `growproc`. -/
def growEnd (s : System) (p : Fin nproc) (n sz : Word) (machine : Machine) : ℤ × System :=
  if n ≠ 0 ∧ sz = 0 then (-1, { s with machine })
  else (0, { s with machine, space := update s.space p { s.space p with sz } })

/-- `growproc`, without `switchuvm`. -/
def growproc (k : Link) (n : Word) (p : Fin nproc) (s : System) : Except Panic (ℤ × System) :=
  match (s.space p).pgdir with
  | none => .error .nullPointer
  | some pgdir => do
    let (sz, machine) ← run (memory k.kend) (growMemory pgdir (s.space p).sz n) s.machine
    return growEnd s p n sz machine

/-! ### What it should do -/

/-- The flags and the content of the page that an entry leads to. -/
def pageIn (h : Heap Frame Page) (w : Word) : Option (Word × Page) :=
  (child w).bind fun f => (h f).map fun page => (pteFlags w, page)

/-- The flags and the content of the page at an address of a process. -/
def pageAt (s : System) (pgdir : Frame) (a : Word) : Option (Word × Page) :=
  pageIn (fun f => some (s.machine.mem f)) (lookup s.machine.mem pgdir a)

/-- A page of zeros that the process may write. -/
def zeroPage : Option (Word × Page) := some (pteW ||| pteU ||| pteP, fun _ => 0)

/-- A process has the pages from the second one up to its size. -/
def Spans (s : System) (p : Fin nproc) (pgdir : Frame) : Prop :=
  ∀ a : Word, a.toNat % 4096 = 0 → a.toNat < 2 ^ 47 →
    (pageAt s pgdir a ≠ none ↔ 4096 ≤ a.toNat ∧ a.toNat < (s.space p).sz.toNat)

/-- The process has got a size: it has exactly the pages from the second one up to it. Those that
it had before are as they were, and the new ones are zero. -/
structure Resized (s s' : System) (p : Fin nproc) (pgdir : Frame) (size : ℤ) : Prop where
  sz : ((s'.space p).sz.toNat : ℤ) = size
  pages : ∀ a : Word, a.toNat % 4096 = 0 → a.toNat < 2 ^ 47 → pageAt s' pgdir a =
    if 4096 ≤ a.toNat ∧ a.toNat < size then
      if a.toNat < (s.space p).sz.toNat then pageAt s pgdir a else zeroPage
    else none

theorem Spans.eq_none {s : System} {p : Fin nproc} {pgdir : Frame} {a : Word} (hspans : Spans s p pgdir)
    (ha : a.toNat % 4096 = 0) (halt : a.toNat < 2 ^ 47)
    (hout : ¬ (4096 ≤ a.toNat ∧ a.toNat < (s.space p).sz.toNat)) : pageAt s pgdir a = none :=
  not_not.mp fun hmapped => hout ((hspans a ha halt).mp hmapped)

/-! ### Pages that are mapped and unmapped -/

/-- The pages at some addresses have been replaced. -/
structure Remapped (kend kpdpt pgdir : Frame) (x : Option (Word × Page)) (l : List Word)
    (h : Heap Frame Page) (E : List Index → Word) (h' : Heap Frame Page) (T' : Tree)
    (E' : List Index → Word) : Prop where
  image : Image kend kpdpt h' pgdir T' E'
  pages : ∀ b : Word, b.toNat % 4096 = 0 → b.toNat < 2 ^ 47 →
    pageIn h' (E' (path b)) = if b ∈ l then x else pageIn h (E (path b))

variable {kend kpdpt pgdir t f : Frame} {h h₁ h' : Heap Frame Page} {T T₁ T' : Tree}
  {E E₁ E' : List Index → Word} {x : Option (Word × Page)} {l : List Word} {a oldsz newsz : Word} {n n' : ℕ}
  {Err : Panic → Prop}

theorem Remapped.cons (hstep : Remapped kend kpdpt pgdir x [a] h E h₁ T₁ E₁)
    (hrest : Remapped kend kpdpt pgdir x l h₁ E₁ h' T' E') :
    Remapped kend kpdpt pgdir x (a :: l) h E h' T' E' := by
  refine ⟨hrest.image, ?_⟩
  intro b hb hlt
  rw [hrest.pages b hb hlt, hstep.pages b hb hlt]
  by_cases hba : b = a <;> by_cases hbl : b ∈ l <;> simp [hba, hbl]

theorem Image.nil_remapped (himage : Image kend kpdpt h pgdir T E) :
    Remapped kend kpdpt pgdir x [] h E h T E := ⟨himage, fun _ _ _ => rfl⟩

theorem pageIn_congr {w : Word} (heq : ∀ {g}, child w = some g → h' g = h g) : pageIn h' w = pageIn h w := by
  rw [pageIn, pageIn]
  cases hw : child w with
  | none => rfl
  | some g => rw [bind_some, bind_some, heq hw]

theorem Image.pageIn_eq_none {q : List Index} (himage : Image kend kpdpt h pgdir T E) :
    pageIn h (E q) = none ↔ child (E q) = none := by
  rw [pageIn]
  cases hq : child (E q) with
  | none => simp
  | some f => simp [himage.page hq]

/-- A page has been mapped. -/
theorem Mapped.remapped {page : Page} {w : Word} (hmap : Mapped kend kpdpt pgdir a w f page h T E n h' T' n')
    (himage : Image kend kpdpt h pgdir T E) (hf : h f = none) (hw : child w = some f)
    (ha : a.toNat % 4096 = 0) (halt : a.toNat < 2 ^ 47) :
    Remapped kend kpdpt pgdir (some (pteFlags w, page)) [a] h E h' T' (update E (path a) w) := by
  refine ⟨hmap.image, ?_⟩
  intro b hb hlt
  rw [update_path ha hb halt hlt]
  by_cases hba : b = a
  · rw [if_pos hba, if_pos (mem_singleton.mpr hba), pageIn, hw, bind_some, hmap.content]
    rfl
  · rw [if_neg hba, if_neg (mem_singleton.not.mpr hba)]
    refine pageIn_congr fun {g} hg => hmap.keeps ?_ ?_
    · rintro rfl
      exact himage.page hg hf
    · intro p
      refine hmap.image.page_table (q := path b) ?_
      rw [update_path ha hb halt hlt, if_neg hba, hg]

/-- A page is freed and its entry cleared. -/
theorem Image.unmap {page : Page} (himage : Image kend kpdpt h pgdir T E) (ht : T (dir a) = some t)
    (hpage : h t = some page) (hf : child (E (path a)) = some f) :
    Image kend kpdpt (update (update h f none) t (some (update page (ptx a) 0))) pgdir T
      (update E (path a) 0) := by
  have hwalk : Walked kend pgdir (update E (path a) 0) (dir a) h T 0
      (update h t (some (update page (ptx a) 0))) T 0 :=
    (himage.toTables.walked ht).set rfl ht hpage _ _
  have hchild : ∀ {q g}, child (update E (path a) 0 q) = some g → q ≠ path a ∧ child (E q) = some g := by
    intro q g hg
    have hq : q ≠ path a := by
      rintro rfl
      simp at hg
    exact ⟨hq, by rwa [update_of_ne hq] at hg⟩
  have hcleared : Image kend kpdpt (update h t (some (update page (ptx a) 0))) pgdir T
      (update E (path a) 0) := by
    refine ⟨hwalk.tables, ?_, ?_, fun hg hg' => himage.page_inj (hchild hg).2 (hchild hg').2,
      fun hg => himage.page_table (hchild hg).2, hwalk.plain himage.plain,
      fun i hi => (hwalk.kernel i hi).trans (himage.kernel i hi)⟩
    · exact fun hg => himage.managed (hg.imp_right fun ⟨q, hq⟩ => ⟨q, (hchild hq).2⟩)
    · intro q g hg
      have hgt : g ≠ t := by
        rintro rfl
        exact himage.page_table (hchild hg).2 ht
      rw [update_of_ne hgt]
      exact himage.page (hchild hg).2
  have hft : f ≠ t := by
    rintro rfl
    exact himage.page_table hf ht
  rw [update_comm hft]
  refine hcleared.congr ?_ ?_
  · intro p g hg
    refine update_of_ne ?_ _ _
    rintro rfl
    exact himage.page_table hf hg
  · intro q g hg
    have hgf : g ≠ f := by
      rintro rfl
      exact (hchild hg).1 (himage.page_inj (hchild hg).2 hf)
    rw [update_of_ne hgf]
    exact hcleared.page hg

/-- A round of the loop of `deallocuvm`. -/
theorem Image.wp_deallocPage {Q : Unit → Heap Frame Page → ℕ → Prop}
    (himage : Image kend kpdpt h pgdir T E) (hkend : 0 < kend)
    (ha : a.toNat % 4096 = 0 ∧ a.toNat < 2 ^ 47)
    (hQ : ∀ h' E' n', Remapped kend kpdpt pgdir none [a] h E h' T E' → Q () h' n') :
    wp (kmem kend) Err Q (deallocPage pgdir a) h n := by
  have hsame : child (E (path a)) = none → Remapped kend kpdpt pgdir none [a] h E h T E := by
    intro hnone
    refine ⟨himage, ?_⟩
    intro b hb hlt
    split_ifs with hba
    · rw [mem_singleton.mp hba, pageIn, hnone, bind_none]
    · rfl
  rw [deallocPage]
  refine wp_bind (himage.toTables.wp_walkpgdir_false (user_path ha.2) ?_)
  cases ht : T (dir a) with
  | none => exact wp_pure (hQ h E n (hsame (by rw [path, himage.absent ht]; exact child_zero)))
  | some t =>
    obtain ⟨page, hpage, -, hleaf⟩ := himage.node ht
    refine wp_bind (wp_load hpage ?_)
    rw [← hleaf rfl]
    refine wp_ite ?_ fun habsent => wp_pure (hQ h E n (hsame (if_neg habsent)))
    intro hpresent
    have hf : child (E (path a)) = some (p2v (pteAddr (E (path a)))) := if_pos hpresent
    have hmanaged := himage.managed (.inr ⟨_, hf⟩)
    obtain ⟨old, hold⟩ := ne_none_iff_exists'.mp (himage.page hf)
    refine wp_ite ?_ fun _ => wp_bind (wp_kfree hmanaged hold ?_)
    · intro hzero
      rw [path] at hmanaged
      rw [hzero] at hmanaged
      exact absurd hmanaged.1 (BitVec.not_le.mpr hkend)
    have htf : t ≠ p2v (pteAddr (E (path a))) := by
      intro heq
      exact himage.page_table hf (heq ▸ ht)
    refine wp_store ((update_of_ne htf _ _).trans hpage) (hQ _ _ _ ⟨himage.unmap ht hpage hf, ?_⟩)
    intro b hb hlt
    rw [update_path ha.1 hb ha.2 hlt]
    by_cases hba : b = a
    · rw [if_pos hba, if_pos (mem_singleton.mpr hba)]
      rfl
    · rw [if_neg hba, if_neg (mem_singleton.not.mpr hba)]
      refine pageIn_congr fun {g} hg => ?_
      have hgt : g ≠ t := by
        rintro rfl
        exact himage.page_table hg ht
      rw [update_of_ne hgt, update_of_ne]
      rintro rfl
      exact hba (path_inj hb ha.1 (by omega) (by omega) (himage.page_inj hg hf))

/-- The loop of `deallocuvm`. -/
theorem Image.wp_deallocPages {Q : Unit → Heap Frame Page → ℕ → Prop}
    (himage : Image kend kpdpt h pgdir T E) (hkend : 0 < kend)
    (hl : ∀ a ∈ l, a.toNat % 4096 = 0 ∧ a.toNat < 2 ^ 47)
    (hQ : ∀ h' E' n', Remapped kend kpdpt pgdir none l h E h' T E' → Q () h' n') :
    wp (kmem kend) Err Q (l.forM (deallocPage pgdir)) h n := by
  induction l generalizing h E n with
  | nil => exact wp_pure (hQ h E n himage.nil_remapped)
  | cons a l ih =>
    rw [forall_mem_cons] at hl
    refine wp_bind (himage.wp_deallocPage hkend hl.1 ?_)
    intro h₁ E₁ n₁ hstep
    exact ih hstep.image hl.2 fun h' E' n' hrest => hQ h' E' n' (hstep.cons hrest)

/-- The loop of `allocuvm`. It takes a page at least in each round, so it runs out of memory before
it comes to an address that is not the user's. -/
theorem Image.wp_allocLoop {Q : Word → Heap Frame Page → ℕ → Prop}
    (himage : Image kend kpdpt h pgdir T E) (hnodup : l.Nodup)
    (hl : ∀ a ∈ l.take n, a.toNat % 4096 = 0 ∧ a.toNat < 2 ^ 47 ∧ pageIn h (E (path a)) = none)
    (hmemory : n < 4 * l.length → Err .outOfMemory)
    (hQ : ∀ h' T' E' n', Remapped kend kpdpt pgdir zeroPage l h E h' T' E' → Q newsz h' n') :
    wp (kmem kend) Err Q (allocLoop pgdir oldsz newsz l) h n := by
  induction l generalizing h T E n with
  | nil => exact wp_pure (hQ h T E n himage.nil_remapped)
  | cons a l ih =>
    rw [length_cons] at hmemory
    obtain ⟨hal, hnodup⟩ := nodup_cons.mp hnodup
    refine wp_bind (wp_kalloc (fun hn => hmemory (by omega)) ?_)
    rintro f old m rfl hmanaged hf
    rw [take_succ_cons, forall_mem_cons] at hl
    obtain ⟨⟨ha, halt, habsent⟩, hl⟩ := hl
    refine wp_bind (wp_clear (update_self ..) ?_)
    rw [update_idem]
    have hmissing := missing_le T (dir a)
    have hlength : (dir a).length = 3 := rfl
    refine wp_bind (himage.wp_mappages hf hmanaged (by decide) (user_path halt) ha
      (himage.pageIn_eq_none.mp habsent) (fun hn => hmemory (by omega)) ?_)
    intro h₁ T₁ n₁ hmap
    have hcount := hmap.count
    have hentry := pteAddr_newEntry f (by decide : ((pteW ||| pteU).setWidth 32).toNat < 4096)
    have hstep := hmap.remapped himage hf (child_newEntry f (by decide)) ha halt
    rw [hentry.2] at hstep
    refine wp_ite (fun hneg => absurd hneg (by decide)) fun _ => ih hstep.image hnodup ?_
      (fun hn => hmemory (by omega)) fun h' T' E' n' hrest => hQ h' T' E' n' (hstep.cons hrest)
    intro b hb
    obtain ⟨hb', hblt, hbabsent⟩ := hl b (take_subset_take_left l (by omega) hb)
    have hba : b ≠ a := by
      rintro rfl
      exact hal (mem_of_mem_take hb)
    rw [hstep.pages b hb' hblt, if_neg (mem_singleton.not.mpr hba)]
    exact ⟨hb', hblt, hbabsent⟩

/-- The pages in memory are those of the image. -/
theorem Image.pageAt_eq {s : System} (himage : Image kend kpdpt h pgdir T E)
    (hmem : ∀ {f page}, h f = some page → s.machine.mem f = page) (ha : a.toNat < 2 ^ 47) :
    pageAt s pgdir a = pageIn h (E (path a)) := by
  rw [pageAt, himage.toTables.lookup_eq hmem (user_path ha)]
  refine pageIn_congr fun {g} hg => ?_
  obtain ⟨page, hpage⟩ := ne_none_iff_exists'.mp (himage.page hg)
  rw [hpage, hmem hpage]

/-- There are not more pages than the allocator manages. -/
theorem length_le_of_managed {fs : List Frame} (hnodup : fs.Nodup) (hmanaged : ∀ f ∈ fs, f < phystop) :
    fs.length ≤ 0xE000 := by
  have hle := (hnodup.subperm fun f hf => mem_framesFrom.mpr
    ⟨show 0#52 ≤ f from Nat.zero_le _, hmanaged f hf⟩).length_le
  rwa [framesFrom, length_map, length_range] at hle

/-- The program returns a size and brings the pages of a process to it. -/
def Brings (k : Link) (s : System) (p : Fin nproc) (free : List Frame) (pgdir : Frame) (Err : Panic → Prop)
    (prog : Kernel Word) (newsz : Word) : Prop :=
  wp (kmem k.kend) Err (fun r h _ => r = newsz ∧ ∃ T E, Image k.kend k.kpdpt h pgdir T E ∧
    ∀ a : Word, a.toNat % 4096 = 0 → a.toNat < 2 ^ 47 → pageIn h (E (path a)) =
      if a.toNat < newsz.toNat then
        if a.toNat < (s.space p).sz.toNat then pageAt s pgdir a else zeroPage
      else none) prog (s.machine.used free) free.length

section Process

variable {k : Link} {s : System} {p : Fin nproc} {free : List Frame} {kstack : Frame}
  (hprocess : Process k s p free pgdir kstack) (hspans : Spans s p pgdir)

include hprocess

theorem Process.toImage : Image k.kend k.kpdpt (s.machine.used free) pgdir
    (treeOf s.machine.mem pgdir) (entriesOf s.machine.mem pgdir) :=
  hprocess.image.image fun hp hf => Machine.used_of_not_mem (hprocess.image_used hp hf)

theorem Process.pageAt_eq (ha : a.toNat < 2 ^ 47) :
    pageAt s pgdir a = pageIn (s.machine.used free) (entriesOf s.machine.mem pgdir (path a)) :=
  hprocess.toImage.pageAt_eq (Machine.holds_used hprocess.allocator).get ha

include hspans

/-- A process is not larger than the memory. -/
theorem Process.size_le : (s.space p).sz.toNat ≤ 0xE001000 := by
  by_contra hlarge
  have hpage : ∀ a ∈ (range 0xE001).map fun j => pgsize + pgsize * BitVec.ofNat 64 j,
      a.toNat % 4096 = 0 ∧ a.toNat < 2 ^ 47 ∧
        ∃ f, child (entriesOf s.machine.mem pgdir (path a)) = some f := by
    intro a ha
    rw [mem_pageRange rfl (by decide), show pgsize.toNat = 4096 from rfl] at ha
    have hmapped := (hspans a ha.1 (by omega)).mpr (by omega)
    rw [hprocess.pageAt_eq (by omega), ne_eq, hprocess.toImage.pageIn_eq_none] at hmapped
    exact ⟨ha.1, by omega, ne_none_iff_exists'.mp hmapped⟩
  have hnodup : (((range 0xE001).map fun j => pgsize + pgsize * BitVec.ofNat 64 j).map fun a =>
      p2v (pteAddr (entriesOf s.machine.mem pgdir (path a)))).Nodup := by
    refine List.Nodup.map_on ?_ (nodup_pageRange (by decide))
    intro a ha b hb heq
    obtain ⟨ha', halt, f, hf⟩ := hpage a ha
    obtain ⟨hb', hblt, g, hg⟩ := hpage b hb
    rw [(child_eq_some.mp hf).2, (child_eq_some.mp hg).2] at heq
    exact path_inj ha' hb' (by omega) (by omega) (hprocess.toImage.page_inj hf (heq ▸ hg))
  have hle := length_le_of_managed hnodup ?_
  · rw [length_map, length_map, length_range] at hle
    omega
  · intro f hf
    obtain ⟨a, ha, rfl⟩ := List.mem_map.mp hf
    obtain ⟨-, -, f, hf⟩ := hpage a ha
    rw [(child_eq_some.mp hf).2]
    exact (hprocess.toImage.managed (.inr ⟨_, hf⟩)).2

/-- `allocuvm` of a process, where it is called by `growproc`. -/
theorem Process.wp_allocuvm (hle : (s.space p).sz.toNat ≤ newsz.toNat) (hlt : newsz.toNat < kernbase.toNat)
    (hmemory : free.length < 4 * ((newsz.toNat - (s.space p).sz.toNat) / 4096 + 1) → Err .outOfMemory) :
    Brings k s p free pgdir Err (allocuvm pgdir (s.space p).sz newsz) newsz := by
  have hsz := hprocess.size_le hspans
  have hround := pgroundup_toNat (by omega : (s.space p).sz.toNat < 2 ^ 63)
  have hfree := length_le_of_managed hprocess.allocator.nodup fun f hf => (hprocess.allocator.managed f hf).2
  have hnat : kernbase.toNat = 0xFFFF800000000000 := rfl
  rw [Brings, allocuvm, if_neg (BitVec.not_le.mpr hlt), if_neg (BitVec.not_lt.mpr hle)]
  refine hprocess.toImage.wp_allocLoop (nodup_pageRange (by omega)) ?_ ?_ ?_
  · intro a ha
    rw [pages, ← map_take, take_range, mem_pageRange (by omega) (by omega)] at ha
    have halt : a.toNat < 2 ^ 47 := by omega
    rw [← hprocess.pageAt_eq halt]
    exact ⟨ha.1, halt, hspans.eq_none ha.1 halt (by omega)⟩
  · intro hn
    rw [pages, length_map, length_range] at hn
    exact hmemory (by omega)
  · intro h' T' E' n' hpages
    refine ⟨rfl, T', E', hpages.image, ?_⟩
    intro a ha halt
    have hnone := hspans.eq_none ha halt
    rw [hpages.pages a ha halt, ← hprocess.pageAt_eq halt, pages,
      if_congr (mem_pageRange (by omega) (by omega)) rfl rfl]
    split_ifs <;> first | rfl | exact hnone (by omega) | omega

/-- `deallocuvm` of a process. -/
theorem Process.wp_deallocuvm (hkend : 0 < k.kend) (hlt : newsz.toNat < (s.space p).sz.toNat) :
    Brings k s p free pgdir Err (deallocuvm pgdir (s.space p).sz newsz) newsz := by
  have hsz := hprocess.size_le hspans
  have hround := pgroundup_toNat (by omega : newsz.toNat < 2 ^ 63)
  rw [Brings, deallocuvm, if_neg (BitVec.not_le.mpr hlt)]
  refine wp_bind (hprocess.toImage.wp_deallocPages hkend ?_ ?_)
  · intro a ha
    rw [pages, mem_pageRange (by omega) (by omega)] at ha
    exact ⟨ha.1, by omega⟩
  · intro h' E' n' hpages
    refine wp_pure ⟨rfl, _, E', hpages.image, ?_⟩
    intro a ha halt
    have hnone := hspans.eq_none ha halt
    rw [hpages.pages a ha halt, ← hprocess.pageAt_eq halt, pages,
      if_congr (mem_pageRange (by omega) (by omega)) rfl rfl]
    split_ifs <;> first | rfl | exact hnone (by omega) | omega

/-- `growproc` brings the pages to the new size, if that is not below 0. -/
theorem Process.wp_growMemory (hkend : 0 < k.kend) (n : Word) : ∃ newsz : Word,
    (newsz.toNat : ℤ) = (if (s.space p).sz.toNat + n.toInt < 0 then ((s.space p).sz.toNat : ℤ)
      else (s.space p).sz.toNat + n.toInt) ∧
    Brings k s p free pgdir
      (fun e => e = .outOfMemory ∧ 0 < n.toInt ∧ free.length < 4 * (n.toNat / 4096 + 1))
      (growMemory pgdir (s.space p).sz n) newsz := by
  have hsz := hprocess.size_le hspans
  have hn := n.toInt_eq_toNat_cond
  have hsum := BitVec.toNat_add (s.space p).sz n
  have hnat : kernbase.toNat = 0xFFFF800000000000 := rfl
  by_cases hpos : 0 < n.toInt
  · refine ⟨(s.space p).sz + n, by omega, ?_⟩
    rw [growMemory, if_pos hpos]
    exact hprocess.wp_allocuvm hspans (by omega) (by omega) fun hshort => ⟨rfl, hpos, by omega⟩
  by_cases hsmall : ((s.space p).sz + n).toNat < (s.space p).sz.toNat
  · refine ⟨(s.space p).sz + n, by omega, ?_⟩
    rw [growMemory, if_neg hpos, if_pos (by omega)]
    exact hprocess.wp_deallocuvm hspans hkend hsmall
  · -- `n` is 0, or the sum is below 0 and has wrapped around
    refine ⟨(s.space p).sz, by omega, ?_⟩
    rw [growMemory, if_neg hpos, deallocuvm, if_pos (BitVec.not_lt.mp hsmall), ite_self]
    refine wp_pure ⟨rfl, _, _, hprocess.toImage, ?_⟩
    intro a ha halt
    have hnone := hspans.eq_none ha halt
    rw [← hprocess.pageAt_eq halt]
    split_ifs <;> first | rfl | exact hnone (by omega)

end Process

/-- **Sizes.** `growproc` with enough free pages returns 0 with the new size and exactly its pages,
or -1 with the process as it was, unless it grows from 0, shrinks to 0 and had pages, or shrinks
below 0. -/
theorem growproc_resizes_iff {k : Link} {s : System} {p : Fin nproc} {free : List Frame}
    {kstack : Frame} (hprocess : Process k s p free pgdir kstack) (hkend : 0 < k.kend)
    (hspans : Spans s p pgdir) (n : Word) :
    (growproc k n p s = .error .outOfMemory ∧ 0 < n.toInt ∧ free.length < 4 * (n.toNat / 4096 + 1)) ∨
    ∃ r s', growproc k n p s = .ok (r, s') ∧
      ((r = 0 ∧ Resized s s' p pgdir ((s.space p).sz.toNat + n.toInt) ∨
          r = -1 ∧ Resized s s' p pgdir (s.space p).sz.toNat) ↔
        n.toInt = 0 ∨ 0 < n.toInt ∧ (s.space p).sz.toNat ≠ 0 ∨
          n.toInt < 0 ∧ (0 < (s.space p).sz.toNat + n.toInt ∨ (s.space p).sz.toNat = 0 ∨
            (s.space p).sz.toNat + n.toInt = 0 ∧ (s.space p).sz.toNat ≤ 4096)) := by
  obtain ⟨_, hsize, hwp⟩ := hprocess.wp_growMemory hspans hkend n
  rw [growproc, hprocess.space_pgdir]
  obtain ⟨size, m, h, free', hrun, hholds, rfl, T, E, himage, hpages⟩ | ⟨_, hrun, rfl, hshort⟩ :=
    run_of_wp (memory_correct k.kend) hwp (Machine.holds_used hprocess.allocator)
  · simp only [hrun]
    change _ ∨ ∃ r s', Except.ok (growEnd s p n size m) = .ok (r, s') ∧ _
    have hn : n = 0 ↔ n.toInt = 0 := BitVec.toInt_inj.symm
    have hzero : size = 0 ↔ size.toNat = 0 := BitVec.toNat_inj.symm
    have hafter : ∀ {space}, ∀ a : Word, a.toNat % 4096 = 0 → a.toNat < 2 ^ 47 →
        pageAt { s with machine := m, space } pgdir a = _ :=
      fun a ha halt => (himage.pageAt_eq hholds.get halt).trans (hpages a ha halt)
    simp only [growEnd, ne_eq, hn, hzero]
    split_ifs with hend
    · -- nothing is left
      have hpgsize : pgsize.toNat = 4096 := rfl
      refine .inr ⟨_, _, rfl, ?_, ?_⟩
      · rintro (⟨hfalse, -⟩ | ⟨-, hresized⟩)
        · exact absurd hfalse (by decide)
        · by_contra hcond
          have hsecond := (hafter pgsize rfl (by decide)).symm.trans (hresized.pages pgsize rfl (by decide))
          rw [if_neg (by omega), if_pos (by omega), if_pos (by omega)] at hsecond
          exact (hspans pgsize rfl (by decide)).mpr (by omega) hsecond.symm
      · intro hcond
        refine .inr ⟨rfl, rfl, ?_⟩
        intro a ha halt
        rw [hafter a ha halt, if_neg (by omega), if_neg (by omega)]
    · refine .inr ⟨_, _, rfl, ?_, ?_⟩
      · rintro (⟨-, hresized⟩ | ⟨hfalse, -⟩)
        · by_contra hcond
          have hsz := hresized.sz
          have hfirst := (hafter 0 rfl (by decide)).symm.trans (hresized.pages 0 rfl (by decide))
          rw [if_pos (by simp; omega), if_neg (by simp; omega), if_neg (by simp)] at hfirst
          exact nomatch hfirst
        · exact absurd hfalse (by decide)
      · intro hcond
        refine .inl ⟨rfl, by simp; omega, ?_⟩
        intro a ha halt
        have hnone := hspans.eq_none ha halt
        rw [hafter a ha halt]
        split_ifs <;> first | rfl | exact hnone (by omega) | omega
  · exact .inl ⟨by simp only [hrun]; rfl, hshort⟩

/-- A process without pages. Its page table is at frame 260, and four pages are free. -/
def fewPages : System where
  machine :=
    { mem := fun f i => if f = 260 then kernelEntry 255 i else
        if i = 0 ∧ 256 ≤ f ∧ f < 259 then ptr (some (f + 1)) else 0
      freelist := some 256 }
  table := boot
  space := fun _ => ⟨pgsize, some 260, some 261⟩

/-- The process grows by a byte. -/
theorem growproc_resizes_fewPages : ∃ r s', growproc smallKernel 1 0 fewPages = .ok (r, s') ∧
    (r = 0 ∧ Resized fewPages s' 0 260 4097 ∨ r = -1 ∧ Resized fewPages s' 0 260 4096) := by
  have himage : Image 256 255 (fun f => some (fewPages.machine.mem f)) 260 (emptyTree 260) fun _ => 0 :=
    image_empty rfl (by decide) fun _ => rfl
  have hfree : fewPages.machine.Free 256 [256, 257, 258, 259] :=
    ⟨⟨rfl, by decide, by decide, by decide, show unptr _ = none by decide⟩, by decide +kernel,
      by simp [Managed, phystop]⟩
  have hprocess : Process smallKernel fewPages 0 [256, 257, 258, 259] 260 261 := by
    refine ⟨by decide, rfl, rfl, hfree, himage.processImage fun hf => some.inj hf, ?_, by decide⟩
    intro q f hq hf
    rcases himage.owned_of_reach (fun hf => some.inj hf) hq hf with ⟨p, hp⟩ | ⟨q, hq⟩
    · rw [(emptyTree_eq_some hp).2]
      decide
    · simp at hq
  have hspans : Spans fewPages 0 260 := by
    intro a ha halt
    rw [himage.pageAt_eq (fun hf => some.inj hf) halt]
    change none ≠ none ↔ 4096 ≤ a.toNat ∧ a.toNat < 4096
    exact ⟨fun hne => absurd rfl hne, fun hin => by omega⟩
  obtain ⟨-, -, hshort⟩ | ⟨r, s', hrun, hiff⟩ := growproc_resizes_iff hprocess (by decide) hspans 1
  · exact absurd hshort (by decide)
  · exact ⟨r, s', hrun, hiff.mpr (by decide)⟩

/-- When it has grown by a page, it loses the page in the attempt to give all its memory back. -/
theorem growproc_to_zero_loses_page : ∃ s₁ s₂, growproc smallKernel 0x1000 0 fewPages = .ok (0, s₁) ∧
    (s₁.space 0).sz = 0x2000 ∧ (pageAt s₁ 260 pgsize).isSome ∧
    growproc smallKernel (-0x2000) 0 s₁ = .ok (-1, s₂) ∧ (s₂.space 0).sz = 0x2000 ∧
    (pageAt s₂ 260 pgsize).isNone := by
  refine ⟨_, _, rfl, rfl, ?_, rfl, rfl, ?_⟩ <;> decide +kernel

end Xv6Draw.Vm
