import Xv6Draw.Vm.Image

/-!
# Address spaces in memory

A page table as it lies in memory: the tables and pages that its entries lead to, and the
images of processes. The processor translates the addresses of a process with it.
-/

namespace Xv6Draw.Vm

open Option Ownership

/-- The table or page that a path leads to. -/
def reach (mem : Frame → Page) (pml4 : Frame) : Tree
  | [] => some pml4
  | i :: p => (reach mem pml4 p).bind fun f => child (mem f i)

/-- The entry of an address. -/
def lookup (mem : Frame → Page) (pml4 : Frame) (va : Word) : Word :=
  match reach mem pml4 (dir va) with
  | none => 0
  | some t => mem t (ptx va)

/-- The path leads to a table or page in the user's half. -/
def InUser (p : List Index) : Prop := p.length ≤ 4 ∧ User p

instance (p : List Index) : Decidable (InUser p) := inferInstanceAs (Decidable (_ ∧ _))

/-- The image of a process: all tables and pages are different and belong to the
allocator, the entries that lead to tables are as `walkpgdir` makes them, and those of the
kernel's half as `setupkvm` does. -/
structure ProcessImage (kend kpdpt : Frame) (mem : Frame → Page) (pml4 : Frame) : Prop where
  tree : ∀ {p q f}, InUser p → InUser q → reach mem pml4 p = some f → reach mem pml4 q = some f → p = q
  managed : ∀ {p f}, InUser p → reach mem pml4 p = some f → Managed kend f
  plain : ∀ {p f c i}, p.length < 3 → User (i :: p) → reach mem pml4 p = some f →
    child (mem f i) = some c → mem f i = v2p c ||| pteP ||| pteW ||| pteU
  kernel : ∀ i, 256 ≤ i → mem pml4 i = kernelEntry kpdpt i

variable {kend kpdpt pml4 f : Frame} {h : Heap Frame Page} {T : Tree} {E : List Index → Word}
  {mem : Frame → Page} {i : Index} {p q : List Index}

theorem reach_cons_eq_none (hp : reach mem pml4 p = none) : reach mem pml4 (i :: p) = none := by
  rw [reach, hp, bind_none]

theorem User.tail (hp : User (i :: p)) : User p := by
  cases p with
  | nil => simp [User]
  | cons j p => exact hp

section OfTables

variable (hT : Tables h pml4 T E) (hmem : ∀ {f page}, h f = some page → mem f = page)

include hT hmem

theorem Tables.reach_eq (hp : User p) (hlength : p.length ≤ 3) : reach mem pml4 p = T p := by
  induction p with
  | nil => exact hT.root.symm
  | cons i p ih =>
    rw [List.length_cons] at hlength
    rw [reach, ih hp.tail (by omega)]
    cases hf : T p with
    | none => exact (hT.cons_eq_none hf).symm
    | some f =>
      obtain ⟨page, hpage, hchild, -⟩ := hT.node hf
      rw [bind_some, hmem hpage]
      exact hchild (by omega) i hp

/-- The pages of a page table in memory. -/
theorem Tables.reach_page (hq : User q) (hlength : q.length = 4) : reach mem pml4 q = child (E q) := by
  cases q with
  | nil => simp at hlength
  | cons i p =>
    rw [List.length_cons] at hlength
    rw [reach, hT.reach_eq hmem hq.tail (by omega)]
    cases hf : T p with
    | none =>
      rw [hT.absent hf]
      simp
    | some f =>
      obtain ⟨page, hpage, -, hleaf⟩ := hT.node hf
      rw [bind_some, hmem hpage, hleaf (by omega)]

theorem Tables.lookup_eq {va : Word} (hva : User (path va)) : lookup mem pml4 va = E (path va) := by
  rw [lookup, hT.reach_eq hmem hva.tail (by simp [dir])]
  cases hf : T (dir va) with
  | none => exact (hT.absent hf (ptx va)).symm
  | some f =>
    obtain ⟨page, hpage, -, hleaf⟩ := hT.node hf
    rw [path, hleaf (by simp [dir]), ← hmem hpage]

end OfTables

/-- What belongs to an image is what its paths lead to. -/
theorem Image.owned_of_reach (himage : Image kend kpdpt h pml4 T E)
    (hmem : ∀ {f page}, h f = some page → mem f = page) (hp : InUser p)
    (hf : reach mem pml4 p = some f) : Owned T E f := by
  by_cases hlength : p.length = 4
  · rw [himage.toTables.reach_page hmem hp.2 hlength] at hf
    exact .inr ⟨p, hf⟩
  · have hle := hp.1
    rw [himage.toTables.reach_eq hmem hp.2 (by omega)] at hf
    exact .inl ⟨p, hf⟩

/-- An image that lies in memory. -/
theorem Image.processImage (himage : Image kend kpdpt h pml4 T E)
    (hmem : ∀ {f page}, h f = some page → mem f = page) : ProcessImage kend kpdpt mem pml4 where
  tree := by
    intro p q f hp hq hpf hqf
    have hple := hp.1
    have hqle := hq.1
    by_cases hplength : p.length = 4
    · rw [himage.toTables.reach_page hmem hp.2 hplength] at hpf
      by_cases hqlength : q.length = 4
      · rw [himage.toTables.reach_page hmem hq.2 hqlength] at hqf
        exact himage.page_inj hpf hqf
      · rw [himage.toTables.reach_eq hmem hq.2 (by omega)] at hqf
        exact absurd hqf (himage.page_table hpf)
    · rw [himage.toTables.reach_eq hmem hp.2 (by omega)] at hpf
      by_cases hqlength : q.length = 4
      · rw [himage.toTables.reach_page hmem hq.2 hqlength] at hqf
        exact absurd hpf (himage.page_table hqf)
      · rw [himage.toTables.reach_eq hmem hq.2 (by omega)] at hqf
        exact himage.inj hpf hqf
  managed hp hf := himage.managed (himage.owned_of_reach hmem hp hf)
  plain := by
    intro p f c i hlength hi hf hc
    rw [himage.toTables.reach_eq hmem hi.tail (by omega)] at hf
    obtain ⟨page, hpage, hchild, -⟩ := himage.node hf
    rw [hmem hpage] at hc ⊢
    rw [hchild hlength i hi] at hc
    have hplain := himage.plain p f i c hf hc
    rw [hpage] at hplain
    simpa using hplain
  kernel := by
    intro i hi
    obtain ⟨page, hpage, -⟩ := himage.node himage.root
    have hkernel := himage.kernel i hi
    rw [hpage] at hkernel
    rw [hmem hpage]
    simpa using hkernel

/-! ### The image of a process as tables and pages -/

/-- The tables of a page table in memory. -/
def treeOf (mem : Frame → Page) (pml4 : Frame) : Tree := fun p =>
  if p.length ≤ 3 ∧ User p then reach mem pml4 p else none

/-- The entries of a page table in memory. -/
def entriesOf (mem : Frame → Page) (pml4 : Frame) : List Index → Word
  | [] => 0
  | i :: p =>
    match treeOf mem pml4 p with
    | none => 0
    | some t => if p.length = 3 then mem t i else 0

theorem treeOf_eq_some (hp : treeOf mem pml4 p = some f) :
    p.length ≤ 3 ∧ User p ∧ reach mem pml4 p = some f := by
  unfold treeOf at hp
  split_ifs at hp with hshort
  exact ⟨hshort.1, hshort.2, hp⟩

theorem child_entriesOf (hq : child (entriesOf mem pml4 q) = some f) :
    InUser q ∧ q.length = 4 ∧ reach mem pml4 q = some f := by
  cases q with
  | nil => simp [entriesOf] at hq
  | cons i p =>
    rw [entriesOf] at hq
    cases ht : treeOf mem pml4 p with
    | none => simp [ht] at hq
    | some t =>
      obtain ⟨-, huser, hreach⟩ := treeOf_eq_some ht
      by_cases hlength : p.length = 3
      · simp only [ht, hlength, if_true] at hq
        have hlength' : (i :: p).length = 4 := by rw [List.length_cons, hlength]
        have huser' : User (i :: p) := by
          cases p with
          | nil => simp at hlength
          | cons j p => exact huser
        exact ⟨⟨Nat.le_of_eq hlength', huser'⟩, hlength', by rw [reach, hreach, bind_some, hq]⟩
      · simp [ht, hlength] at hq

/-- The tables of a page table are a tree: no table is reached in two ways. -/
def TableTree (mem : Frame → Page) (pml4 : Frame) : Prop :=
  ∀ p q f, treeOf mem pml4 p = some f → treeOf mem pml4 q = some f → p = q

/-- A page table in memory whose tables are a tree. -/
theorem TableTree.tables (htree : TableTree mem pml4)
    (hh : ∀ {p f}, treeOf mem pml4 p = some f → h f = some (mem f)) :
    Tables h pml4 (treeOf mem pml4) (entriesOf mem pml4) := by
  refine ⟨if_pos ⟨by simp, by simp [User]⟩, ?_, ?_, ?_, fun {p q f} => htree p q f, ?_, ?_, ?_⟩
  · intro i p f hf
    obtain ⟨hlength, huser, hreach⟩ := treeOf_eq_some hf
    rw [List.length_cons] at hlength
    obtain ⟨g, hg, -⟩ := bind_eq_some_iff.mp hreach
    exact ⟨g, (if_pos ⟨by omega, huser.tail⟩).trans hg⟩
  · intro p f hf
    exact (treeOf_eq_some hf).1
  · intro p f hf
    exact (treeOf_eq_some hf).2.1
  · intro p f hf
    obtain ⟨-, -, hreach⟩ := treeOf_eq_some hf
    refine ⟨mem f, hh hf, ?_, ?_⟩
    · intro hlength i hi
      have hcons : treeOf mem pml4 (i :: p) = reach mem pml4 (i :: p) :=
        if_pos ⟨by rw [List.length_cons]; omega, hi⟩
      rw [hcons, reach, hreach, bind_some]
    · intro hlength i
      rw [entriesOf, hf]
      exact if_pos hlength
  · intro p hp i
    rw [entriesOf, hp]
  · intro q hlength
    cases q with
    | nil => rfl
    | cons i p =>
      rw [List.length_cons] at hlength
      rw [entriesOf]
      cases treeOf mem pml4 p with
      | none => rfl
      | some t => exact if_neg (by omega)

/-- The image of a process as tables and pages. -/
theorem ProcessImage.image (himage : ProcessImage kend kpdpt mem pml4)
    (hh : ∀ {p f}, InUser p → reach mem pml4 p = some f → h f = some (mem f)) :
    Image kend kpdpt h pml4 (treeOf mem pml4) (entriesOf mem pml4) := by
  have hin : ∀ {p f}, treeOf mem pml4 p = some f → InUser p ∧ reach mem pml4 p = some f := by
    intro p f hf
    obtain ⟨hlength, huser, hreach⟩ := treeOf_eq_some hf
    exact ⟨⟨by omega, huser⟩, hreach⟩
  have htree : TableTree mem pml4 := by
    intro p q f hp hq
    exact himage.tree (hin hp).1 (hin hq).1 (hin hp).2 (hin hq).2
  refine ⟨htree.tables fun hf => hh (hin hf).1 (hin hf).2, ?_, ?_, ?_, ?_, ?_, ?_⟩
  · rintro f (⟨p, hp⟩ | ⟨q, hq⟩)
    · exact himage.managed (hin hp).1 (hin hp).2
    · obtain ⟨hin, -, hreach⟩ := child_entriesOf hq
      exact himage.managed hin hreach
  · intro q f hq
    obtain ⟨hin, -, hreach⟩ := child_entriesOf hq
    simp [hh hin hreach]
  · intro q q' f hq hq'
    obtain ⟨hin, -, hreach⟩ := child_entriesOf hq
    obtain ⟨hin', -, hreach'⟩ := child_entriesOf hq'
    exact himage.tree hin hin' hreach hreach'
  · intro p q f hq hp
    obtain ⟨hinq, hlength, hreach⟩ := child_entriesOf hq
    have heq := himage.tree (hin hp).1 hinq (hin hp).2 hreach
    have hdepth := (treeOf_eq_some hp).1
    rw [heq] at hdepth
    omega
  · intro p f i c hf hc
    obtain ⟨hp, hreach⟩ := hin hf
    obtain ⟨hlength, huser, hreachc⟩ := treeOf_eq_some hc
    rw [List.length_cons] at hlength
    rw [reach, hreach, bind_some] at hreachc
    rw [hh hp hreach, map_some, himage.plain (by omega) huser hreach hreachc]
  · intro i hi
    have hpml4 : h pml4 = some (mem pml4) := hh (p := []) ⟨by simp, by simp [User]⟩ rfl
    rw [hpml4, map_some, himage.kernel i hi]

theorem ProcessImage.lookup_eq (himage : ProcessImage kend kpdpt mem pml4) {va : Word}
    (hva : User (path va)) : lookup mem pml4 va = entriesOf mem pml4 (path va) := by
  have hall : Image kend kpdpt (fun f => some (mem f)) pml4 (treeOf mem pml4) (entriesOf mem pml4) :=
    himage.image fun _ _ => rfl
  exact hall.toTables.lookup_eq (fun hf => some.inj hf) hva

end Xv6Draw.Vm
