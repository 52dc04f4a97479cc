import Xv6Draw.Vm.PageTable

/-!
# Page tables as trees

A page table is a tree of tables and a map from pages to entries. A table is named by the
indices that lead to it, the last one first, so the page map level 4 is `[]`. The walk
with allocation grows the tree along a path; the other entries, and all other pages,
stay as they are.
-/

namespace Xv6Draw.Vm

open BitVec Function List Option Ownership

/-- The page that an entry leads to. -/
def child (w : Word) : Option Frame := if w &&& pteP ≠ 0 then some (p2v (pteAddr w)) else none

@[simp] theorem child_zero : child 0#64 = none := by decide

variable {w va pa : Word}

theorem child_eq_some {f : Frame} :
    child w = some f ↔ w &&& pteP ≠ 0 ∧ p2v (pteAddr w) = f := by
  rw [child]
  split_ifs with hpresent
  · exact ⟨fun hf => ⟨hpresent, some.inj hf⟩, fun hf => congrArg some hf.2⟩
  · exact ⟨nofun, fun hf => absurd hf.1 hpresent⟩

theorem child_v2p_or (f : Frame) (hw : w.toNat < 4096) (hP : w.toNat % 2 = 1) :
    child (v2p f ||| w) = some f := by
  have hentry := v2p_or_toNat f hw
  have hpresent : (v2p f ||| w) &&& pteP ≠ 0 := by
    rw [and_pteP_ne_zero]
    omega
  have hframe : p2v (pteAddr (v2p f ||| w)) = f := by
    apply eq_of_toNat_eq
    rw [p2v_pteAddr, p2v_toNat]
    omega
  rw [child, if_pos hpresent, hframe]

/-- The path to the table with the entry of an address. -/
def dir (va : Word) : List Index := [pdx va, pdpx va, pmx va]

/-- The path to the entry of an address. -/
def path (va : Word) : List Index := ptx va :: dir va

/-- The path is in the user's half. -/
def User (p : List Index) : Prop := ∀ i ∈ p.getLast?, i < 256

instance (p : List Index) : Decidable (User p) :=
  inferInstanceAs (Decidable (∀ i ∈ p.getLast?, i < 256))

/-- The tables of a page table, by their paths. -/
abbrev Tree := List Index → Option Frame

/-- A page table with its tables and its entries in the user's half. -/
structure Tables (h : Heap Frame Page) (pml4 : Frame) (T : Tree) (E : List Index → Word) : Prop where
  root : T [] = some pml4
  parent : ∀ {i p f}, T (i :: p) = some f → ∃ g, T p = some g
  depth : ∀ {p f}, T p = some f → p.length ≤ 3
  user : ∀ {p f}, T p = some f → User p
  inj : ∀ {p q f}, T p = some f → T q = some f → p = q
  node : ∀ {p f}, T p = some f → ∃ page, h f = some page ∧
    (p.length < 3 → ∀ i, User (i :: p) → child (page i) = T (i :: p)) ∧
    (p.length = 3 → ∀ i, E (i :: p) = page i)
  absent : ∀ {p}, T p = none → ∀ i, E (i :: p) = 0
  short : ∀ {q}, q.length ≠ 4 → E q = 0

/-- The entries that lead to tables are as `walkpgdir` makes them. -/
def Plain (h : Heap Frame Page) (T : Tree) : Prop :=
  ∀ p f i c, T p = some f → T (i :: p) = some c →
    (h f).map (· i) = some (v2p c ||| pteP ||| pteW ||| pteU)

/-- Tables have been added to a tree; pages outside of it have stayed. -/
structure Grown (kend : Frame) (h : Heap Frame Page) (T : Tree) (h' : Heap Frame Page) (T' : Tree) :
    Prop where
  mono : ∀ {p f}, T p = some f → T' p = some f
  fresh : ∀ {p f}, T' p = some f → T p = some f ∨ (h f = none ∧ Managed kend f)
  keeps : ∀ {f}, (∀ p, T' p ≠ some f) → h' f = h f

variable {kend pml4 f : Frame} {h h' h'' : Heap Frame Page} {T T' T'' : Tree}
  {E : List Index → Word} {i : Index} {p : List Index}

/-- A table of a tree to which one has been added. -/
theorem update_eq_some {c g : Frame} {q : List Index} (hg : update T p (some c) q = some g) :
    (q = p ∧ g = c) ∨ (q ≠ p ∧ T q = some g) := by
  rw [update_apply] at hg
  split_ifs at hg with hq
  · exact .inl ⟨hq, (some.inj hg).symm⟩
  · exact .inr ⟨hq, hg⟩

theorem Grown.refl : Grown kend h T h T where
  mono := id
  fresh := .inl
  keeps _ := rfl

theorem Grown.trans (h₁ : Grown kend h T h' T') (h₂ : Grown kend h' T' h'' T'')
    (hnode : ∀ p f, T' p = some f → h' f ≠ none) : Grown kend h T h'' T'' where
  mono hf := h₂.mono (h₁.mono hf)
  fresh := by
    intro p f hf
    rcases h₂.fresh hf with hold | ⟨hnone, hmanaged⟩
    · exact h₁.fresh hold
    · have hout : ∀ q, T' q ≠ some f := fun q hq => hnode q f hq hnone
      rw [h₁.keeps hout] at hnone
      exact .inr ⟨hnone, hmanaged⟩
  keeps := by
    intro f hout
    have hout' : ∀ q, T' q ≠ some f := fun q hq => hout q (h₂.mono hq)
    rw [h₂.keeps hout, h₁.keeps hout']

namespace Tables

variable (hT : Tables h pml4 T E)

include hT

theorem mono (hle : ∀ f page, h f = some page → h' f = some page) : Tables h' pml4 T E where
  root := hT.root
  parent := hT.parent
  depth := hT.depth
  user := hT.user
  inj := hT.inj
  node := by
    intro p f hf
    obtain ⟨page, hpage, hrest⟩ := hT.node hf
    exact ⟨page, hle f page hpage, hrest⟩
  absent := hT.absent
  short := hT.short

theorem page_ne_none (hf : T p = some f) : h f ≠ none := by
  obtain ⟨page, hpage, -⟩ := hT.node hf
  simp [hpage]

theorem cons_eq_none (hp : T p = none) : T (i :: p) = none := by
  cases hcons : T (i :: p) with
  | none => rfl
  | some g =>
    obtain ⟨g', hg'⟩ := hT.parent hcons
    simp [hp] at hg'

/-- A table is added. -/
theorem add {c : Frame} {page : Page} (hf : T p = some f) (hpage : h f = some page)
    (hp : p.length < 3) (hi : User (i :: p)) (hnone : T (i :: p) = none) (hc : h c = none)
    (hw : child w = some c) :
    Tables (update (update h c (some fun _ => 0)) f
      (some (update page i w))) pml4 (update T (i :: p) (some c)) E := by
  have hcf : f ≠ c := by
    rintro rfl
    simp [hc] at hpage
  have hold : ∀ {q g}, T q = some g → g ≠ c := by
    rintro q g hg rfl
    exact hT.page_ne_none hg hc
  have hne : ∀ {q g}, T q = some g → q ≠ i :: p := by
    rintro q g hg rfl
    simp [hnone] at hg
  refine ⟨?_, ?_, ?_, ?_, ?_, ?_, ?_, hT.short⟩
  · rw [update_of_ne (cons_ne_nil i p).symm]
    exact hT.root
  · intro j q g hg
    have hq : ∃ g, T q = some g := by
      obtain ⟨hjq, -⟩ | ⟨-, hg⟩ := update_eq_some hg
      · obtain ⟨-, rfl⟩ := List.cons.inj hjq
        exact ⟨f, hf⟩
      · exact hT.parent hg
    obtain ⟨g', hg'⟩ := hq
    exact ⟨g', by rw [update_of_ne (hne hg'), hg']⟩
  · intro q g hg
    obtain ⟨rfl, -⟩ | ⟨-, hg⟩ := update_eq_some hg
    · exact hp
    · exact hT.depth hg
  · intro q g hg
    obtain ⟨rfl, -⟩ | ⟨-, hg⟩ := update_eq_some hg
    · exact hi
    · exact hT.user hg
  · intro q q' g hg hg'
    obtain ⟨rfl, rfl⟩ | ⟨-, hg⟩ := update_eq_some hg <;>
      obtain ⟨rfl, hgc⟩ | ⟨-, hg'⟩ := update_eq_some hg'
    · rfl
    · exact absurd rfl (hold hg')
    · exact absurd hgc (hold hg)
    · exact hT.inj hg hg'
  · intro q g hg
    obtain ⟨rfl, rfl⟩ | ⟨-, hq⟩ := update_eq_some hg
    · -- the new table is empty
      refine ⟨fun _ => 0, ?_, ?_, ?_⟩
      · rw [update_of_ne hcf.symm, update_self]
      · intro _ j _
        rw [update_of_ne (by simp), hT.cons_eq_none hnone]
        exact child_zero
      · intro _ j
        exact hT.absent hnone j
    · obtain ⟨page', hpage', hchild, hleaf⟩ := hT.node hq
      by_cases hgf : g = f
      · -- the table with the new entry
        subst g
        obtain rfl := hT.inj hq hf
        obtain rfl := some.inj (hpage.symm.trans hpage')
        refine ⟨update page i w, update_self .., ?_, ?_⟩
        · intro hlength j hj
          by_cases hji : j = i
          · subst j
            rw [update_self, update_self, hw]
          · rw [update_of_ne hji, update_of_ne (by simp [hji])]
            exact hchild hlength j hj
        · intro hlength
          omega
      · refine ⟨page', ?_, ?_, hleaf⟩
        · rw [update_of_ne hgf, update_of_ne (hold hq), hpage']
        · intro hlength j hj
          have hqp : q ≠ p := by
            rintro rfl
            exact hgf (some.inj (hq.symm.trans hf))
          rw [update_of_ne (by simp [hqp])]
          exact hchild hlength j hj
  · intro q hq j
    by_cases hqi : q = i :: p
    · simp [hqi] at hq
    · rw [update_of_ne hqi] at hq
      exact hT.absent hq j

/-- An entry is set. -/
theorem set {page : Page} (hf : T p = some f) (hpage : h f = some page) (hp : p.length = 3) (w : Word) :
    Tables (update h f (some (update page i w))) pml4 T
      (update E (i :: p) w) := by
  refine ⟨hT.root, hT.parent, hT.depth, hT.user, hT.inj, ?_, ?_, ?_⟩
  · intro q g hg
    obtain ⟨page', hpage', hchild, hleaf⟩ := hT.node hg
    by_cases hgf : g = f
    · subst g
      obtain rfl := hT.inj hg hf
      obtain rfl := some.inj (hpage.symm.trans hpage')
      refine ⟨update page i w, update_self .., ?_, ?_⟩
      · intro hlength
        omega
      · intro hlength j
        by_cases hji : j = i
        · subst j
          rw [update_self, update_self]
        · rw [update_of_ne hji, update_of_ne (by simp [hji])]
          exact hleaf hlength j
    · refine ⟨page', ?_, hchild, ?_⟩
      · rw [update_of_ne hgf, hpage']
      · intro hlength j
        have hqp : q ≠ p := by
          rintro rfl
          exact hgf (some.inj (hg.symm.trans hf))
        rw [update_of_ne (by simp [hqp])]
        exact hleaf hlength j
  · intro q hq j
    have hqp : q ≠ p := by
      rintro rfl
      simp [hf] at hq
    rw [update_of_ne (by simp [hqp])]
    exact hT.absent hq j
  · intro q hlength
    have hqi : q ≠ i :: p := by
      rintro rfl
      simp [hp] at hlength
    rw [update_of_ne hqi]
    exact hT.short hlength

/-- The table with the entry of a page. -/
theorem table_of_child {q : List Index} (hq : child (E q) ≠ none) :
    ∃ i p f, q = i :: p ∧ T p = some f ∧ p.length = 3 := by
  have hlength : q.length = 4 := by
    by_contra hshort
    rw [hT.short hshort] at hq
    exact hq child_zero
  cases q with
  | nil => simp at hlength
  | cons i p =>
    cases hp : T p with
    | none =>
      rw [hT.absent hp] at hq
      exact absurd child_zero hq
    | some f => exact ⟨i, p, f, rfl, hp, by simpa using hlength⟩

end Tables

/-! ### Walks -/

/-- The number of tables that are missing on a path. -/
def missing (T : Tree) : List Index → ℕ
  | [] => 0
  | i :: p => (if T (i :: p) = none then 1 else 0) + missing T p

/-- The tree has been grown along a path. -/
structure Walked (kend pml4 : Frame) (E : List Index → Word) (q : List Index) (h : Heap Frame Page)
    (T : Tree) (n : ℕ) (h' : Heap Frame Page) (T' : Tree) (n' : ℕ) : Prop where
  tables : Tables h' pml4 T' E
  grown : Grown kend h T h' T'
  eq_none : ∀ p, T' p = none ↔ T p = none ∧ ¬ p <:+ q
  count : n = n' + missing T q
  kernel : ∀ i, 256 ≤ i → (h' pml4).map (· i) = (h pml4).map (· i)
  plain : Plain h T → Plain h' T'

variable {q : List Index} {n n' n'' : ℕ}

theorem Tables.missing_eq_zero (hT : Tables h pml4 T E) (hf : T p = some f) : missing T p = 0 := by
  induction p generalizing f with
  | nil => rfl
  | cons i p ih =>
    obtain ⟨g, hg⟩ := hT.parent hf
    simp [missing, hf, ih hg]

theorem Tables.suffix_ne_none (hT : Tables h pml4 T E) (hf : T p = some f) (hq : q <:+ p) :
    T q ≠ none := by
  induction p generalizing f with
  | nil =>
    obtain rfl := suffix_nil.mp hq
    simp [hf]
  | cons i p ih =>
    rcases suffix_cons_iff.mp hq with rfl | hq
    · simp [hf]
    · obtain ⟨g, hg⟩ := hT.parent hf
      exact ih hg hq

/-- A walk along tables that are there. -/
theorem Tables.walked (hT : Tables h pml4 T E) (hf : T p = some f) :
    Walked kend pml4 E p h T n h T n := by
  refine ⟨hT, Grown.refl, ?_, by rw [hT.missing_eq_zero hf, Nat.add_zero], fun _ _ => rfl, id⟩
  intro q
  have hq : q <:+ p → T q ≠ none := hT.suffix_ne_none hf
  tauto

/-- The entry at the end of a walk is set. -/
theorem Walked.set {page : Page} (hwalk : Walked kend pml4 E p h T n h' T' n') (hp : p.length = 3)
    (hf : T' p = some f) (hpage : h' f = some page) (i : Index) (w : Word) :
    Walked kend pml4 (update E (i :: p) w) p h T n (update h' f (some (update page i w))) T' n' := by
  refine ⟨hwalk.tables.set hf hpage hp w, ⟨hwalk.grown.mono, hwalk.grown.fresh, ?_⟩, hwalk.eq_none,
    hwalk.count, ?_, ?_⟩
  · intro g hout
    have hgf : g ≠ f := by
      rintro rfl
      exact hout p hf
    rw [update_of_ne hgf]
    exact hwalk.grown.keeps hout
  · intro j hj
    have hroot : pml4 ≠ f := by
      rintro rfl
      simp [hwalk.tables.inj hf hwalk.tables.root] at hp
    rw [update_of_ne hroot]
    exact hwalk.kernel j hj
  · intro hplain q g j c hg hc
    have hgf : g ≠ f := by
      rintro rfl
      obtain rfl := hwalk.tables.inj hg hf
      have hlength := hwalk.tables.depth hc
      rw [length_cons] at hlength
      omega
    rw [update_of_ne hgf]
    exact hwalk.plain hplain q g j c hg hc

/-- What is missing behind a walk. -/
theorem Walked.missing_cons (hwalk : Walked kend pml4 E p h T n h' T' n') (i : Index) :
    missing T (i :: p) = missing T p + missing T' (i :: p) := by
  have hp : T' p ≠ none := fun hnone => ((hwalk.eq_none p).mp hnone).2 suffix_rfl
  obtain ⟨f, hf⟩ := ne_none_iff_exists'.mp hp
  have hlong : ¬ (i :: p) <:+ p := by
    intro hsuffix
    have hlength := hsuffix.length_le
    rw [length_cons] at hlength
    omega
  have hcons : T' (i :: p) = none ↔ T (i :: p) = none := by
    rw [hwalk.eq_none]
    tauto
  simp only [missing, hwalk.tables.missing_eq_zero hf, hcons]
  omega

/-- A walk that goes on. -/
theorem Walked.trans (h₁ : Walked kend pml4 E p h T n h' T' n')
    (h₂ : Walked kend pml4 E (i :: p) h' T' n' h'' T'' n'') :
    Walked kend pml4 E (i :: p) h T n h'' T'' n'' where
  tables := h₂.tables
  grown := h₁.grown.trans h₂.grown fun _ _ hf => h₁.tables.page_ne_none hf
  eq_none q := by
    have hsuffix : q <:+ p → q <:+ i :: p := fun hq => hq.trans (suffix_cons i p)
    rw [h₂.eq_none, h₁.eq_none]
    tauto
  count := by
    have hmissing := h₁.missing_cons i
    have hcount₁ := h₁.count
    have hcount₂ := h₂.count
    omega
  kernel i hi := (h₂.kernel i hi).trans (h₁.kernel i hi)
  plain := h₂.plain ∘ h₁.plain

namespace Tables

variable {Err : Panic → Prop} (hT : Tables h pml4 T E)

include hT

/-- A level of a walk that allocates nothing. -/
theorem wp_nextTable_false {Q : Option Frame → Heap Frame Page → ℕ → Prop} (hf : T p = some f)
    (hp : p.length < 3) (hi : User (i :: p)) (hQ : Q (T (i :: p)) h n) :
    wp (kmem kend) Err Q (nextTable f i false) h n := by
  obtain ⟨page, hpage, hchild, -⟩ := hT.node hf
  have hentry := hchild hp i hi
  refine wp_bind (wp_load hpage ?_)
  refine wp_ite ?_ ?_
  · intro hpresent
    rw [child, if_pos hpresent] at hentry
    rw [← hentry] at hQ
    exact wp_pure hQ
  · intro habsent
    rw [child, if_neg habsent] at hentry
    rw [← hentry] at hQ
    exact wp_pure hQ

/-- A level of a walk that allocates. -/
theorem wp_nextTable_true {Q : Option Frame → Heap Frame Page → ℕ → Prop} (hf : T p = some f)
    (hp : p.length < 3) (hi : User (i :: p)) (hmemory : n < missing T (i :: p) → Err .outOfMemory)
    (hQ : ∀ c h' T' n', T' (i :: p) = some c → Walked kend pml4 E (i :: p) h T n h' T' n' →
      Q (some c) h' n') :
    wp (kmem kend) Err Q (nextTable f i true) h n := by
  obtain ⟨page, hpage, hchild, -⟩ := hT.node hf
  have hentry := hchild hp i hi
  have hmissing : missing T (i :: p) = if T (i :: p) = none then 1 else 0 := by
    rw [missing, hT.missing_eq_zero hf, Nat.add_zero]
  refine wp_bind (wp_load hpage ?_)
  refine wp_ite ?_ ?_
  · intro hpresent
    rw [child, if_pos hpresent] at hentry
    exact wp_pure (hQ _ h T n hentry.symm (hT.walked hentry.symm))
  · intro habsent
    rw [child, if_neg habsent] at hentry
    rw [← hentry] at hmissing
    refine wp_ite (fun hfalse => absurd hfalse (by decide)) fun _ => ?_
    refine wp_bind (wp_kalloc ?_ ?_)
    · intro hn
      exact hmemory (by simp [hn, hmissing])
    · intro c old m hm hmanaged hc
      have hfc : f ≠ c := by
        rintro rfl
        simp [hc] at hpage
      refine wp_bind (wp_clear (update_self ..) ?_)
      rw [update_idem]
      refine wp_bind (wp_store ((update_of_ne hfc _ _).trans hpage) ?_)
      have hw : child (v2p c ||| pteP ||| pteW ||| pteU) = some c := by
        rw [BitVec.or_assoc, BitVec.or_assoc]
        exact child_v2p_or c (by decide) (by decide)
      have hadd := hT.add hf hpage hp hi hentry.symm hc hw
      refine wp_pure (hQ c _ _ m (update_self ..) ⟨hadd, ⟨?_, ?_, ?_⟩, ?_, ?_, ?_, ?_⟩)
      · intro q g hg
        have hq : q ≠ i :: p := by
          rintro rfl
          simp [← hentry] at hg
        rw [update_of_ne hq, hg]
      · intro q g hg
        obtain ⟨-, rfl⟩ | ⟨-, hg⟩ := update_eq_some hg
        · exact .inr ⟨hc, hmanaged⟩
        · exact .inl hg
      · intro g hout
        have hgf : g ≠ f := by
          rintro rfl
          refine hout p ?_
          rw [update_of_ne (cons_ne_self i p).symm, hf]
        have hgc : g ≠ c := by
          rintro rfl
          exact hout (i :: p) (update_self ..)
        rw [update_of_ne hgf, update_of_ne hgc]
      · intro q
        by_cases hq : q = i :: p
        · subst q
          simp
        · have hsuffix : q <:+ p → T q ≠ none := hT.suffix_ne_none hf
          rw [update_of_ne hq, suffix_cons_iff]
          tauto
      · simp [hmissing, hm]
      · intro j hj
        obtain ⟨top, htop, -⟩ := hT.node hT.root
        by_cases hroot : pml4 = f
        · -- the new entry is in the user's half of the root
          have hpnil : p = [] := hT.inj hf (hroot ▸ hT.root)
          subst hpnil
          have hji : j ≠ i := by
            rintro rfl
            exact BitVec.not_lt.mpr hj (hi j rfl)
          rw [hroot, update_self, hpage]
          simp [update_of_ne hji]
        · have hrootc : pml4 ≠ c := by
            rintro rfl
            simp [hc] at htop
          rw [update_of_ne hroot, update_of_ne hrootc]
      · intro hplain q g j c' hg hc'
        obtain ⟨hjq, rfl⟩ | ⟨hjq, hc'⟩ := update_eq_some hc'
        · -- the new entry
          obtain ⟨rfl, rfl⟩ := List.cons.inj hjq
          rw [update_of_ne (cons_ne_self j q).symm, hf] at hg
          obtain rfl := some.inj hg
          simp
        · have hq : q ≠ i :: p := by
            rintro rfl
            simp [hT.cons_eq_none hentry.symm] at hc'
          rw [update_of_ne hq] at hg
          have hold := hplain q g j c' hg hc'
          by_cases hgf : g = f
          · subst g
            obtain rfl := hT.inj hg hf
            have hji : j ≠ i := fun heq => hjq (by rw [heq])
            rw [hpage] at hold
            simpa [update_of_ne hji] using hold
          · have hgc : g ≠ c := by
              rintro rfl
              exact hT.page_ne_none hg hc
            rw [update_of_ne hgf, update_of_ne hgc, hold]

variable {Q : Option (Frame × Index) → Heap Frame Page → ℕ → Prop}

/-- `walkpgdir` without allocation finds the entry when its table is there. -/
theorem wp_walkpgdir_false
    (hva : User (path va)) (hQ : Q ((T (dir va)).map fun t => (t, ptx va)) h n) :
    wp (kmem kend) Err Q (walkpgdir pml4 va false) h n := by
  rw [dir] at hQ
  refine wp_bind (hT.wp_nextTable_false hT.root (by simp) hva ?_)
  cases hpdp : T [pmx va] with
  | none =>
    rw [hT.cons_eq_none (hT.cons_eq_none hpdp)] at hQ
    exact wp_pure hQ
  | some pdp =>
    refine wp_bind (hT.wp_nextTable_false hpdp (by simp) hva ?_)
    cases hpd : T [pdpx va, pmx va] with
    | none =>
      rw [hT.cons_eq_none hpd] at hQ
      exact wp_pure hQ
    | some pd =>
      refine wp_bind (hT.wp_nextTable_false hpd (by simp) hva ?_)
      cases hpgtab : T [pdx va, pdpx va, pmx va] with
      | none =>
        rw [hpgtab] at hQ
        exact wp_pure hQ
      | some pgtab =>
        rw [hpgtab] at hQ
        exact wp_pure hQ

/-- `walkpgdir` with allocation grows the tree to the entry. -/
theorem wp_walkpgdir_true (hva : User (path va)) (hmemory : n < missing T (dir va) → Err .outOfMemory)
    (hQ : ∀ t h' T' n', T' (dir va) = some t → Walked kend pml4 E (dir va) h T n h' T' n' →
      Q (some (t, ptx va)) h' n') :
    wp (kmem kend) Err Q (walkpgdir pml4 va true) h n := by
  refine wp_bind (hT.wp_nextTable_true hT.root (by simp) hva ?_ ?_)
  · intro hn
    refine hmemory ?_
    simp only [dir, missing] at hn ⊢
    omega
  intro pdp h₁ T₁ n₁ hpdp hwalk₁
  have hmissing₁ := hwalk₁.missing_cons (pdpx va)
  have hcount₁ := hwalk₁.count
  refine wp_bind (hwalk₁.tables.wp_nextTable_true hpdp (by simp) hva ?_ ?_)
  · intro hn
    refine hmemory ?_
    rw [dir, missing]
    omega
  intro pd h₂ T₂ n₂ hpd hwalk
  have hwalk₂ := hwalk₁.trans hwalk
  have hmissing₂ := hwalk₂.missing_cons (pdx va)
  have hcount₂ := hwalk₂.count
  refine wp_bind (hwalk₂.tables.wp_nextTable_true hpd (by simp) hva ?_ ?_)
  · intro hn
    refine hmemory ?_
    rw [dir]
    omega
  intro pgtab h₃ T₃ n₃ hpgtab hwalk
  exact wp_pure (hQ pgtab h₃ T₃ n₃ hpgtab (hwalk₂.trans hwalk))

/-- A round of the loop of `mappages`, for a page that is not mapped. -/
theorem wp_mapLoop_succ {a last : Word} {perm : BitVec 32} {k : ℕ} {Q : ℤ → Heap Frame Page → ℕ → Prop}
    (ha : User (path a)) (habsent : child (E (path a)) = none)
    (hmemory : n < missing T (dir a) → Err .outOfMemory) (hQ : ∀ h' T' n',
      Walked kend pml4 (update E (path a) (pa ||| perm.signExtend 64 ||| pteP)) (dir a) h T n h' T' n' →
        wp (kmem kend) Err Q (if a = last then return 0
          else mapLoop pml4 last perm k (a + pgsize) (pa + pgsize)) h' n') :
    wp (kmem kend) Err Q (mapLoop pml4 last perm (k + 1) a pa) h n := by
  rw [mapLoop]
  refine wp_bind (hT.wp_walkpgdir_true ha hmemory ?_)
  intro t h' T' n' ht hwalk
  obtain ⟨page, hpage, -, hleaf⟩ := hwalk.tables.node ht
  have hentry := hleaf rfl (ptx a)
  refine wp_bind (wp_load hpage ?_)
  refine wp_ite ?_ ?_
  · intro hpresent
    rw [path, hentry, child, if_pos hpresent] at habsent
    simp at habsent
  · intro _
    exact wp_bind (wp_store hpage (hQ _ T' n' (hwalk.set rfl ht hpage _ _)))

/-- `mappages` of a page that is not mapped. -/
theorem wp_mappages {perm : BitVec 32} {Q : ℤ → Heap Frame Page → ℕ → Prop}
    (hva : User (path va)) (haligned : va.toNat % 4096 = 0) (habsent : child (E (path va)) = none)
    (hmemory : n < missing T (dir va) → Err .outOfMemory) (hQ : ∀ h' T' n',
      Walked kend pml4 (update E (path va) (pa ||| perm.signExtend 64 ||| pteP)) (dir va)
        h T n h' T' n' → Q 0 h' n') :
    wp (kmem kend) Err Q (mappages pml4 va pgsize pa perm) h n := by
  have hfirst : pgrounddown va = va := by
    apply eq_of_toNat_eq
    rw [pgrounddown_toNat]
    omega
  have hlast : pgrounddown (va + pgsize - 1) = va := by
    have hva := va.isLt
    apply eq_of_toNat_eq
    rw [pgrounddown_toNat]
    simp only [pgsize, toNat_sub, toNat_add, ofNat_eq_ofNat, toNat_ofNat]
    omega
  have hcount : ((va - va) / pgsize).toNat + 1 = 1 := by
    simp
  rw [mappages, hfirst, hlast]
  simp only [hcount]
  refine hT.wp_mapLoop_succ hva habsent hmemory ?_
  intro h' T' n' hwalk
  rw [if_pos rfl]
  exact wp_pure (hQ h' T' n' hwalk)

end Tables

end Xv6Draw.Vm
