import Xv6Draw.Vm.Address
import Xv6Draw.Vm.Copy

/-!
# Accesses of processes to memory

What a process reads and writes, through the page table that the processor walks. Two
processes with different tables and pages do not see each other's writes.

The marks for accessed and changed pages that the processor sets are left out, and large
pages, which no image has.
-/

namespace Xv6Draw.Vm

open Function Option

/-- The page that an entry lets a process access. -/
def access (write : Bool) (w : Word) : Option Frame :=
  if w &&& pteP ≠ 0 ∧ w &&& pteU ≠ 0 ∧ (write = true → w &&& pteW ≠ 0) then
    some (p2v (pteAddr w))
  else none

/-- The table that an entry lets a process use. -/
def accessTable (write : Bool) (w : Word) : Option Frame :=
  if w &&& ptePS = 0 then access write w else none

/-- An address that the processor takes. -/
def Canonical (va : Word) : Prop := va.toNat < 2 ^ 47 ∨ 2 ^ 64 - 2 ^ 47 ≤ va.toNat

instance (va : Word) : Decidable (Canonical va) := inferInstanceAs (Decidable (_ ∨ _))

/-- The page at an address of a process. Without one there is a page fault. -/
def translate (mem : Frame → Page) (pml4 : Frame) (write : Bool) (va : Word) : Option Frame :=
  if Canonical va then do
    let pdp ← accessTable write (mem pml4 (pmx va))
    let pd ← accessTable write (mem pdp (pdpx va))
    let pgtab ← accessTable write (mem pd (pdx va))
    access write (mem pgtab (ptx va))
  else none

/-- A process reads a byte. -/
def userRead (mem : Frame → Page) (pml4 : Frame) (va : Word) : Option (BitVec 8) :=
  (translate mem pml4 false va).map fun f => byteOf (mem f) va

/-- A process writes a byte. -/
def userWrite (pml4 : Frame) (mem : Frame → Page) (write : Word × BitVec 8) : Frame → Page :=
  match translate mem pml4 true write.1 with
  | none => mem
  | some f => update mem f (setByte (mem f) write.1 write.2)

/-- The processes of two page tables do not see each other's writes. -/
def Isolated (mem : Frame → Page) (a b : Frame) : Prop :=
  ∀ (writes : List (Word × BitVec 8)) (va : Word),
    userRead (writes.foldl (userWrite a) mem) b va = userRead mem b va

/-! ### Translation -/

variable {kend kpdpt pml4 a b c f : Frame} {mem mem' : Frame → Page} {va : Word} {write : Bool}

theorem and_flag {m : Word} (w : Word) (hm : 0xFFF &&& m = m) : w &&& m = pteFlags w &&& m := by
  rw [pteFlags, BitVec.and_assoc, hm]

theorem pteFlags_v2p_or (f : Frame) {w : Word} (hw : w.toNat < 4096) : pteFlags (v2p f ||| w) = w := by
  have hentry := v2p_or_toNat f hw
  apply BitVec.eq_of_toNat_eq
  rw [pteFlags_toNat]
  omega

theorem access_zero : access write 0 = none := if_neg (by simp)

/-- An entry of `walkpgdir` lets a process use the table. -/
theorem accessTable_plain (write : Bool) (c : Frame) :
    accessTable write (v2p c ||| pteP ||| pteW ||| pteU) = some c := by
  rw [BitVec.or_assoc, BitVec.or_assoc]
  have hflags : pteFlags (v2p c ||| (pteP ||| (pteW ||| pteU))) = pteP ||| (pteW ||| pteU) :=
    pteFlags_v2p_or c (by decide)
  have hchild := child_v2p_or c (w := pteP ||| (pteW ||| pteU)) (by decide) (by decide)
  rw [accessTable, access]
  rw [and_flag _ (by decide : (0xFFF : Word) &&& ptePS = ptePS), hflags, if_pos (by decide),
    and_flag _ (by decide : (0xFFF : Word) &&& pteP = pteP),
    and_flag _ (by decide : (0xFFF : Word) &&& pteU = pteU),
    and_flag _ (by decide : (0xFFF : Word) &&& pteW = pteW), hflags, if_pos ⟨by decide, by decide, fun _ => by decide⟩]
  rw [child] at hchild
  split_ifs at hchild
  exact hchild

theorem access_of_child_eq_none {w : Word} (hw : child w = none) : access write w = none := by
  rw [child] at hw
  split_ifs at hw with hpresent
  exact if_neg fun hall => hpresent hall.1

theorem child_of_access {w : Word} (hf : access write w = some f) : child w = some f := by
  rw [access] at hf
  split_ifs at hf with hall
  rw [child, if_pos hall.1, hf]

theorem access_kernelEntry (i : Index) : access write (kernelEntry kpdpt i) = none := by
  have hflag : kernelEntry kpdpt i &&& pteU = 0 := by
    rw [kernelEntry]
    split_ifs with hi
    · have hflags : pteFlags (v2p kpdpt ||| (pteP ||| pteW)) = pteP ||| pteW :=
        pteFlags_v2p_or kpdpt (by decide)
      rw [BitVec.or_assoc, and_flag _ (by decide : (0xFFF : Word) &&& pteU = pteU), hflags]
      decide
    · simp
  exact if_neg fun hall => hall.2.1 hflag

namespace ProcessImage

variable (himage : ProcessImage kend kpdpt mem pml4)

include himage

theorem accessTable_eq {p : List Index} {i : Index} (hlength : p.length < 3) (hi : User (i :: p))
    (hf : reach mem pml4 p = some f) : accessTable write (mem f i) = reach mem pml4 (i :: p) := by
  rw [reach, hf, bind_some]
  cases hc : child (mem f i) with
  | none =>
    rw [accessTable, access_of_child_eq_none hc]
    simp
  | some c => rw [himage.plain hlength hi hf hc, accessTable_plain]

/-- The processor finds the entry in the lower half, and nothing in the upper half. -/
theorem translate_eq (write : Bool) (va : Word) :
    translate mem pml4 write va = if va.toNat < 2 ^ 47 then access write (lookup mem pml4 va) else none := by
  by_cases hva : va.toNat < 2 ^ 47
  · have huser : User (path va) := user_path hva
    have huser₁ : User [pmx va] := huser
    have huser₂ : User [pdpx va, pmx va] := huser
    have huser₃ : User [pdx va, pdpx va, pmx va] := huser
    have hcanonical : Canonical va := .inl hva
    have hlookup : lookup mem pml4 va = match reach mem pml4 [pdx va, pdpx va, pmx va] with
      | none => 0
      | some t => mem t (ptx va) := rfl
    rw [if_pos hva, translate, if_pos hcanonical, hlookup, himage.accessTable_eq (by simp) huser₁ rfl]
    cases hpdp : reach mem pml4 [pmx va] with
    | none =>
      rw [reach_cons_eq_none (reach_cons_eq_none hpdp)]
      exact access_zero.symm
    | some pdp =>
      change (accessTable write (mem pdp (pdpx va)) >>= _) = _
      rw [himage.accessTable_eq (by simp) huser₂ hpdp]
      cases hpd : reach mem pml4 [pdpx va, pmx va] with
      | none =>
        rw [reach_cons_eq_none hpd]
        exact access_zero.symm
      | some pd =>
        change (accessTable write (mem pd (pdx va)) >>= _) = _
        rw [himage.accessTable_eq (by simp) huser₃ hpd]
        cases hpgtab : reach mem pml4 [pdx va, pdpx va, pmx va] with
        | none => exact access_zero.symm
        | some pgtab => rfl
  · rw [if_neg hva, translate]
    split_ifs with hcanonical
    · -- the entries of the kernel's half are not for processes
      have hkernel : 256 ≤ pmx va := by
        have hhigh : 2 ^ 64 - 2 ^ 47 ≤ va.toNat := hcanonical.resolve_left hva
        have hindex : 256 ≤ (pmx va).toNat := by
          rw [pmx, px_toNat]
          omega
        exact hindex
      have hnone : accessTable write (mem pml4 (pmx va)) = none := by
        rw [himage.kernel _ hkernel, accessTable, access_kernelEntry]
        simp
      rw [hnone]
      rfl
    · rfl

/-- The page that the processor finds is one of the image. -/
theorem reach_of_translate (hf : translate mem pml4 write va = some f) :
    InUser (path va) ∧ reach mem pml4 (path va) = some f := by
  rw [himage.translate_eq] at hf
  split_ifs at hf with hva
  have hchild := child_of_access hf
  refine ⟨⟨by simp [path, dir], user_path hva⟩, ?_⟩
  rw [path, reach]
  rw [lookup] at hchild
  cases ht : reach mem pml4 (dir va) with
  | none => simp [ht] at hchild
  | some t =>
    rw [ht] at hchild
    rw [bind_some]
    exact hchild

end ProcessImage

/-! ### Changes to pages -/

/-- The tables of an image have not changed. -/
def SameTables (mem mem' : Frame → Page) (pml4 : Frame) : Prop :=
  ∀ {p f}, p.length ≤ 3 → User p → reach mem pml4 p = some f → mem' f = mem f

section Same

variable (hsame : SameTables mem mem' pml4)

include hsame

theorem SameTables.reach_eq {p : List Index} (hp : InUser p) : reach mem' pml4 p = reach mem pml4 p := by
  induction p with
  | nil => rfl
  | cons i p ih =>
    obtain ⟨hlength, huser⟩ := hp
    rw [List.length_cons] at hlength
    rw [reach, reach, ih ⟨by omega, huser.tail⟩]
    cases hf : reach mem pml4 p with
    | none => rfl
    | some f => rw [bind_some, bind_some, hsame (by omega) huser.tail hf]

theorem SameTables.processImage (himage : ProcessImage kend kpdpt mem pml4) :
    ProcessImage kend kpdpt mem' pml4 where
  tree := by
    intro p q f hp hq hpf hqf
    rw [hsame.reach_eq hp] at hpf
    rw [hsame.reach_eq hq] at hqf
    exact himage.tree hp hq hpf hqf
  managed := by
    intro p f hp hf
    rw [hsame.reach_eq hp] at hf
    exact himage.managed hp hf
  plain := by
    intro p f c i hlength hi hf hc
    rw [hsame.reach_eq ⟨by omega, hi.tail⟩] at hf
    rw [hsame (by omega) hi.tail hf] at hc ⊢
    exact himage.plain hlength hi hf hc
  kernel := by
    intro i hi
    rw [hsame (p := []) (by simp) (by simp [User]) rfl]
    exact himage.kernel i hi

theorem SameTables.translate_eq (himage : ProcessImage kend kpdpt mem pml4) :
    translate mem' pml4 write va = translate mem pml4 write va := by
  have huser : va.toNat < 2 ^ 47 → InUser (dir va) := fun hva => ⟨by simp [dir], (user_path hva).tail⟩
  rw [himage.translate_eq, (hsame.processImage himage).translate_eq]
  split_ifs with hva
  · rw [lookup, lookup, hsame.reach_eq (huser hva)]
    cases ht : reach mem pml4 (dir va) with
    | none => rfl
    | some t => simp only [hsame (by simp [dir]) (huser hva).2 ht]
  · rfl

end Same

/-- Two page tables have no table and no page in common. -/
def Apart (mem : Frame → Page) (a b : Frame) : Prop :=
  ∀ {p q f}, InUser p → InUser q → reach mem a p = some f → reach mem b q ≠ some f

/-- What a process writes is not in a table, and not in an image apart from its own. -/
theorem userWrite_apart {w : Word × BitVec 8} (ha : ProcessImage kend kpdpt mem a)
    (hapart : Apart mem a b) : SameTables mem (userWrite a mem w) a ∧
      ∀ {p f}, InUser p → reach mem b p = some f → userWrite a mem w f = mem f := by
  rw [userWrite]
  cases hg : translate mem a true w.1 with
  | none => exact ⟨fun _ _ _ => rfl, fun _ _ => rfl⟩
  | some g =>
    obtain ⟨hpath, hreach⟩ := ha.reach_of_translate hg
    constructor
    · intro p f hlength huser hf
      refine update_of_ne ?_ _ _
      rintro rfl
      have hp := ha.tree ⟨by omega, huser⟩ hpath hf hreach
      rw [hp] at hlength
      simp [path, dir] at hlength
    · intro p f hp hf
      refine update_of_ne ?_ _ _
      rintro rfl
      exact hapart hpath hp hreach hf

/-- Processes with nothing in common do not see each other's writes. -/
theorem isolated_of_apart (ha : ProcessImage kend kpdpt mem a) (hb : ProcessImage kend kpdpt mem b)
    (hapart : Apart mem a b) : Isolated mem a b := by
  intro writes va
  induction writes generalizing mem with
  | nil => rfl
  | cons w writes ih =>
    obtain ⟨hsame, hkeep⟩ := userWrite_apart (w := w) ha hapart
    have hsameb : SameTables mem (userWrite a mem w) b :=
      fun hlength huser hf => hkeep ⟨by omega, huser⟩ hf
    rw [List.foldl_cons, ih (hsame.processImage ha) (hsameb.processImage hb)]
    · rw [userRead, userRead, hsameb.translate_eq hb]
      cases hf : translate mem b false va with
      | none => rfl
      | some f =>
        obtain ⟨hpath, hreach⟩ := hb.reach_of_translate hf
        rw [map_some, map_some, hkeep hpath hreach]
    · intro p q f hp hq hpf hqf
      rw [hsame.reach_eq hp] at hpf
      rw [hsameb.reach_eq hq] at hqf
      exact hapart hp hq hpf hqf

end Xv6Draw.Vm
