import Xv6Draw.Vm.Fork

/-!
# Ranges of pages

`mappages` of a range of addresses in the user's half, which need not start or end with a page. The
page table is seen as `walkpgdir` sees it: the entries of the pages of the range are set, the
others stay, and the tables that it takes are new ones.
-/

namespace Xv6Draw.Vm

open BitVec Function Option Ownership

variable {kend pml4 f : Frame} {h : Heap Frame Page} {T : Tree} {E : List Index → Word} {n : ℕ}
  {Err : Panic → Prop} {m : Machine} {free : List Frame} {a b last va size pa : Word}

/-- The entry that `walkpgdir` finds for an address, zero without a table for it. -/
def entryAt (pml4 : Frame) (va : Word) : Kernel Word := do
  let some (table, i) ← walkpgdir pml4 va false | return 0
  load table i

/-- The walk finds the entry that is in memory. -/
theorem run_entryAt (kend : Frame) (m : Machine) (va : Word) :
    run (memory kend) (entryAt pml4 va) m = .ok (lookup m.mem pml4 va, m) := by
  have hnext : ∀ f i, run (memory kend) (nextTable f i false) m = .ok (child (m.mem f i), m) := by
    intro f i
    change run (memory kend) (if m.mem f i &&& pteP ≠ 0 then return some (p2v (pteAddr (m.mem f i)))
      else return none) m = _
    rw [child]
    split_ifs <;> rfl
  have hwalk : run (memory kend) (walkpgdir pml4 va false) m =
      .ok ((reach m.mem pml4 (dir va)).map fun t => (t, ptx va), m) := by
    rw [walkpgdir, run_bind (hnext _ _), dir, reach, reach, reach, reach, bind_some]
    cases child (m.mem pml4 (pmx va)) with
    | none => rfl
    | some pdp =>
      rw [run_bind (hnext _ _), bind_some]
      cases child (m.mem pdp (pdpx va)) with
      | none => rfl
      | some pd =>
        rw [run_bind (hnext _ _), bind_some]
        cases child (m.mem pd (pdx va)) <;> rfl
  rw [entryAt, run_bind hwalk, lookup]
  cases reach m.mem pml4 (dir va) <;> rfl

/-- The address is on a page of a range. -/
def Covered (va size b : Word) : Prop :=
  va.toNat / 4096 ≤ b.toNat / 4096 ∧ b.toNat / 4096 ≤ (va.toNat + size.toNat - 1) / 4096

instance (va size b : Word) : Decidable (Covered va size b) := inferInstanceAs (Decidable (_ ∧ _))

theorem missing_le (T : Tree) (p : List Index) : missing T p ≤ p.length := by
  induction p with
  | nil => exact Nat.le_refl 0
  | cons i p ih =>
    rw [missing, List.length_cons]
    split_ifs <;> omega

theorem path_pgrounddown (b : Word) : path (pgrounddown b) = path b := by
  have hpx : ∀ shift, 12 ≤ shift → px shift (pgrounddown b) = px shift b := by
    intro shift hshift
    have hpow : 2 ^ shift = 4096 * 2 ^ (shift - 12) := by
      rw [show 4096 = 2 ^ 12 from rfl, ← Nat.pow_add, Nat.add_sub_cancel' hshift]
    apply eq_of_toNat_eq
    rw [px_toNat, px_toNat, pgrounddown_toNat, hpow, ← Nat.div_div_eq_div_mul,
      Nat.mul_div_cancel _ (by decide), Nat.div_div_eq_div_mul]
  simp only [path, dir, ptx, pdx, pdpx, pmx]
  rw [hpx 12 (by decide), hpx 21 (by decide), hpx 30 (by decide), hpx 39 (by decide)]

theorem pteAddr_newEntry (f : Frame) {perm : BitVec 32} (hperm : perm.toNat < 4096) :
    pteAddr (newEntry f perm) = v2p f ∧ pteFlags (newEntry f perm) = perm.signExtend 64 ||| pteP := by
  have hlt := or_pteP_lt (by rwa [signExtend_toNat hperm] : (perm.signExtend 64).toNat < 4096)
  rw [newEntry, BitVec.or_assoc]
  refine ⟨?_, pteFlags_v2p_or f hlt⟩
  apply eq_of_toNat_eq
  rw [pteAddr_toNat, v2p_or_toNat f hlt, v2p_toNat]
  omega

/-- What the loop of `mappages` has done to the pages from `a` to `last`. -/
structure MappedRange (kend pml4 : Frame) (perm : BitVec 32) (a last pa : Word) (h : Heap Frame Page)
    (T : Tree) (E : List Index → Word) (h' : Heap Frame Page) (T' : Tree) (E' : List Index → Word) :
    Prop where
  tables : Tables h' pml4 T' E'
  grown : Grown kend h T h' T'
  entries : ∀ b : Word, b.toNat % 4096 = 0 → b.toNat < 2 ^ 47 → E' (path b) =
    if a.toNat ≤ b.toNat ∧ b.toNat ≤ last.toNat then pa + (b - a) ||| perm.signExtend 64 ||| pteP
    else E (path b)

theorem update_path {w : Word} (ha : a.toNat % 4096 = 0) (hb : b.toNat % 4096 = 0)
    (halt : a.toNat < 2 ^ 47) (hblt : b.toNat < 2 ^ 47) :
    update E (path a) w (path b) = if b = a then w else E (path b) := by
  split_ifs with hba
  · rw [hba, update_self]
  · exact update_of_ne (fun hpath => hba (path_inj hb ha (by omega) (by omega) hpath)) _ _

/-- The loop of `mappages`. -/
theorem Tables.wp_mapLoop {perm : BitVec 32} {k : ℕ} {Q : ℤ → Heap Frame Page → ℕ → Prop}
    (hT : Tables h pml4 T E) (haligned : a.toNat % 4096 = 0) (hlast : last.toNat = a.toNat + 4096 * k)
    (hlt : last.toNat < 2 ^ 47)
    (habsent : ∀ b : Word, b.toNat % 4096 = 0 → a.toNat ≤ b.toNat → b.toNat ≤ last.toNat →
      child (E (path b)) = none) (hmemory : n < 3 * (k + 1) → Err .outOfMemory)
    (hQ : ∀ h' T' E' n', MappedRange kend pml4 perm a last pa h T E h' T' E' → Q 0 h' n') :
    wp (kmem kend) Err Q (mapLoop pml4 last perm (k + 1) a pa) h n := by
  induction k generalizing a pa h T E n with
  | zero =>
    have hmissing := missing_le T (dir a)
    refine hT.wp_mapLoop_succ (user_path (by omega)) (habsent a haligned (Nat.le_refl _) (by omega))
      (fun hn => hmemory (Nat.lt_of_lt_of_le hn hmissing)) ?_
    intro h' T' n' hwalk
    obtain rfl : a = last := eq_of_toNat_eq (by omega)
    rw [if_pos rfl]
    refine wp_pure (hQ h' T' _ n' ⟨hwalk.tables, hwalk.grown, ?_⟩)
    intro b hb hblt
    rw [update_path haligned hb hlt hblt]
    by_cases hba : b = a
    · subst b
      rw [if_pos rfl, if_pos ⟨Nat.le_refl _, Nat.le_refl _⟩, BitVec.sub_self, BitVec.add_zero]
    · have hne : b.toNat ≠ a.toNat := fun heq => hba (eq_of_toNat_eq heq)
      rw [if_neg hba, if_neg (by omega)]
  | succ k ih =>
    have hnext : (a + pgsize).toNat = a.toNat + 4096 := by
      simp only [pgsize, toNat_add, ofNat_eq_ofNat, toNat_ofNat]
      omega
    have hmissing := missing_le T (dir a)
    have hlength : (dir a).length = 3 := rfl
    refine hT.wp_mapLoop_succ (user_path (by omega)) (habsent a haligned (Nat.le_refl _) (by omega))
      (fun hn => hmemory (by omega)) ?_
    intro h₁ T₁ n₁ hwalk
    have hcount := hwalk.count
    have hal : a ≠ last := by
      rintro rfl
      omega
    rw [if_neg hal]
    refine ih hwalk.tables (by omega) (by omega) ?_ (fun hn => hmemory (by omega)) ?_
    · intro b hb hlow hhigh
      have hba : b ≠ a := by
        rintro rfl
        omega
      rw [update_path haligned hb (by omega) (by omega), if_neg hba]
      exact habsent b hb (by omega) hhigh
    · intro h₂ T₂ E₂ n₂ hrest
      refine hQ h₂ T₂ E₂ n₂ ⟨hrest.tables,
        hwalk.grown.trans hrest.grown fun _ _ hf => hwalk.tables.page_ne_none hf, ?_⟩
      intro b hb hblt
      rw [hrest.entries b hb hblt, update_path haligned hb (by omega) hblt, hnext]
      have hdistance : pa + pgsize + (b - (a + pgsize)) = pa + (b - a) := by
        bv_omega
      by_cases hba : b = a
      · subst b
        rw [if_neg (by omega), if_pos rfl, if_pos (by omega), BitVec.sub_self, BitVec.add_zero]
      · have hne : b.toNat ≠ a.toNat := fun heq => hba (eq_of_toNat_eq heq)
        have hiff : (a.toNat + 4096 ≤ b.toNat ∧ b.toNat ≤ last.toNat) ↔
            (a.toNat ≤ b.toNat ∧ b.toNat ≤ last.toNat) := by
          omega
        rw [if_neg hba, hdistance, if_congr hiff rfl rfl]

/-- The tables of a page table lie in memory, and none of them is free. -/
theorem Tables.of_holds (hT : Tables h pml4 T E)
    (hm : Holds (memory kend) (Machine.Free kend) m h free) :
    TableTree m.mem pml4 ∧ (∀ {p f}, treeOf m.mem pml4 p = some f → f ∉ free) ∧
      ∀ b : Word, b.toNat < 2 ^ 47 → lookup m.mem pml4 b = E (path b) := by
  have hmem : ∀ {f page}, h f = some page → m.mem f = page := fun hf => hm.get hf
  have htree : ∀ {p f}, treeOf m.mem pml4 p = some f → T p = some f := by
    intro p f hf
    obtain ⟨hlength, huser, hreach⟩ := treeOf_eq_some hf
    rwa [hT.reach_eq hmem huser hlength] at hreach
  refine ⟨fun p q f hp hq => hT.inj (htree hp) (htree hq), ?_, fun b hb => hT.lookup_eq hmem (user_path hb)⟩
  intro p f hf hin
  exact hT.page_ne_none (htree hf) (hm.disjoint hin)

/-- **Ranges.** `mappages` of a range that is not mapped returns 0, if it does not run out of memory,
and there is enough with three free pages for each page. The tables are still a tree. `walkpgdir`
finds the new entries for the addresses on the pages of the range and for others what it did. -/
theorem mappages_maps_range (hfree : m.Free kend free) (htree : TableTree m.mem pml4)
    (hused : ∀ {p f}, treeOf m.mem pml4 p = some f → f ∉ free) {perm : BitVec 32} (hsize : size ≠ 0)
    (hrange : va.toNat + size.toNat ≤ 2 ^ 47) (hpa : pa.toNat % 4096 = 0) (hperm : perm.toNat < 4096)
    (habsent : ∀ b, Covered va size b → lookup m.mem pml4 b &&& pteP = 0) :
    (∃ m' free', run (memory kend) (mappages pml4 va size pa perm) m = .ok (0, m') ∧
      m'.Free kend free' ∧ TableTree m'.mem pml4 ∧
      (∀ {p f}, treeOf m'.mem pml4 p = some f → f ∉ free') ∧
      ∀ b : Word, b.toNat < 2 ^ 47 → ∃ w, run (memory kend) (entryAt pml4 b) m' = .ok (w, m') ∧
        if Covered va size b then
          pteAddr w = pa + (pgrounddown b - pgrounddown va) ∧ pteFlags w = perm.signExtend 64 ||| pteP
        else run (memory kend) (entryAt pml4 b) m = .ok (w, m)) ∨
    (run (memory kend) (mappages pml4 va size pa perm) m = .error .outOfMemory ∧
      free.length < 3 * ((va.toNat + size.toNat - 1) / 4096 - va.toNat / 4096 + 1)) := by
  have hpos : size.toNat ≠ 0 := fun hzero => hsize (eq_of_toNat_eq hzero)
  have hend : (va + size - 1).toNat = va.toNat + size.toNat - 1 := by
    simp only [toNat_sub, toNat_add, ofNat_eq_ofNat, toNat_ofNat]
    omega
  have hfirst := pgrounddown_toNat va
  have hlast := pgrounddown_toNat (va + size - 1)
  have hcount : ((pgrounddown (va + size - 1) - pgrounddown va) / pgsize).toNat =
      (va.toNat + size.toNat - 1) / 4096 - va.toNat / 4096 := by
    rw [toNat_udiv, toNat_sub, hfirst, hlast, show pgsize.toNat = 4096 from rfl]
    omega
  have hholds := Machine.holds_used hfree
  have hT : Tables (m.used free) pml4 (treeOf m.mem pml4) (entriesOf m.mem pml4) :=
    htree.tables fun hf => Machine.used_of_not_mem (hused hf)
  obtain ⟨-, -, hbefore⟩ := hT.of_holds hholds
  have hwp : wp (kmem kend) (fun e => e = .outOfMemory ∧
        free.length < 3 * ((va.toNat + size.toNat - 1) / 4096 - va.toNat / 4096 + 1))
      (fun r h _ => r = 0 ∧ ∃ T E, MappedRange kend pml4 perm (pgrounddown va)
        (pgrounddown (va + size - 1)) pa (m.used free) (treeOf m.mem pml4) (entriesOf m.mem pml4) h T E)
      (mappages pml4 va size pa perm) (m.used free) free.length := by
    rw [mappages]
    simp only [hcount]
    refine hT.wp_mapLoop (by omega) (by omega) (by omega) ?_ (fun hn => ⟨rfl, hn⟩)
      fun h' T' E' _ hrange => ⟨rfl, T', E', hrange⟩
    intro b hb hlow hhigh
    have hzero := habsent b (by unfold Covered; omega)
    rw [hbefore b (by omega)] at hzero
    exact if_neg (not_not.mpr hzero)
  obtain ⟨_, m', h', free', hrun, hm', rfl, T', E', hmapped⟩ | ⟨_, hrun, rfl, hshort⟩ :=
    run_of_wp (memory_correct kend) hwp hholds
  · obtain ⟨htree', hused', hafter⟩ := hmapped.tables.of_holds hm'
    refine .inl ⟨m', free', hrun, hm'.free, htree', hused', ?_⟩
    intro b hb
    have hround := pgrounddown_toNat b
    refine ⟨E' (path b), by rw [run_entryAt, hafter b hb], ?_⟩
    rw [← path_pgrounddown b, hmapped.entries _ (by omega) (by omega)]
    have hiff : Covered va size b ↔ (pgrounddown va).toNat ≤ (pgrounddown b).toNat ∧
        (pgrounddown b).toNat ≤ (pgrounddown (va + size - 1)).toNat := by
      unfold Covered
      omega
    by_cases hcovered : Covered va size b
    · rw [if_pos hcovered, if_pos (hiff.mp hcovered)]
      -- the entry is that of the frame at the distance
      have hframe : v2p (p2v (pa + (pgrounddown b - pgrounddown va))) =
          pa + (pgrounddown b - pgrounddown va) := by
        have hdistance : (pgrounddown b - pgrounddown va).toNat =
            (pgrounddown b).toNat - (pgrounddown va).toNat := by
          rw [toNat_sub]
          have hle := (hiff.mp hcovered).1
          omega
        apply eq_of_toNat_eq
        rw [v2p_toNat, p2v_toNat, toNat_add, hdistance]
        omega
      have hentry := pteAddr_newEntry (p2v (pa + (pgrounddown b - pgrounddown va))) hperm
      rw [newEntry, hframe] at hentry
      exact hentry
    · rw [if_neg hcovered, if_neg fun hin => hcovered (hiff.mpr hin), path_pgrounddown,
        run_entryAt, hbefore b hb]
  · exact .inr ⟨hrun, hshort⟩

/-- A machine with three free pages. The first frame is an empty page table. -/
def threePages : Machine where
  mem f i := if i = 0 then if f = 256 then ptr (some 257) else if f = 257 then ptr (some 258) else 0 else 0
  freelist := some 256

/-- A page of the empty page table is mapped. -/
theorem one_page_mapped : ∃ m' w, run (memory 256) (mappages 0 0x1000 1 0x5000 6) threePages = .ok (0, m') ∧
    run (memory 256) (entryAt 0 0x1ABC) m' = .ok (w, m') ∧ pteAddr w = 0x5000 ∧ pteFlags w = 7 := by
  have hempty : ∀ i p, reach threePages.mem 0 (i :: p) = none := by
    intro i p
    induction p generalizing i with
    | nil =>
      have hzero : threePages.mem 0 i = 0 := ite_self _
      rw [reach, reach, bind_some, hzero]
      exact child_zero
    | cons j p ih => rw [reach, ih, bind_none]
  have hroot : ∀ {p f}, treeOf threePages.mem 0 p = some f → p = [] ∧ f = 0 := by
    intro p f hf
    obtain ⟨-, -, hreach⟩ := treeOf_eq_some hf
    cases p with
    | nil => exact ⟨rfl, (some.inj hreach).symm⟩
    | cons i p => cases (hempty i p).symm.trans hreach
  have hfree : threePages.Free 256 [256, 257, 258] :=
    ⟨⟨rfl, by decide, by decide, show unptr _ = none by decide⟩, by decide +kernel, by simp [Managed, phystop]⟩
  have habsent : ∀ b, Covered 0x1000 1 b → lookup threePages.mem 0 b &&& pteP = 0 := by
    intro b _
    rw [lookup, dir, hempty]
    exact zero_and
  have hpa : (0x5000 : Word).toNat % 4096 = 0 := by decide
  have hperm : (6 : BitVec 32).toNat < 4096 := by decide
  obtain ⟨m', free', hrun, -, -, -, hentries⟩ | ⟨-, hshort⟩ :=
    mappages_maps_range hfree (fun p q f hp hq => (hroot hp).1.trans (hroot hq).1.symm)
      (fun hf => (hroot hf).2 ▸ by decide) (by decide) (by decide) hpa hperm habsent
  · obtain ⟨w, hw, haddr⟩ := hentries 0x1ABC (by decide)
    exact ⟨m', w, hrun, hw, haddr⟩
  · exact absurd hshort (by decide)

end Xv6Draw.Vm
