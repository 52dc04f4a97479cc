import Mathlib.Tactic.Common

/-!
# Programs that own cells of a memory

A program allocates, frees, reads and changes cells. It is reasoned about over the cells
that it owns and the number of cells that are free: it may not touch a cell that it does
not own, an allocated cell is one that it did not own, and what else is in the memory
makes no difference. It is run on a memory with an allocator, which has to keep a list of
its free cells.
-/

namespace Ownership

variable {L C ε α β M : Type}

/-- A program over cells `C` at locations `L` that may fail with `ε`. -/
inductive Prog (L C ε α : Type) : Type where
  | ret (a : α)
  | fail (e : ε)
  | alloc (k : L → Prog L C ε α)
  | free (l : L) (k : Prog L C ε α)
  | read (l : L) (k : C → Prog L C ε α)
  | update (l : L) (g : C → C) (k : Prog L C ε α)

/-- One program behind another. -/
def Prog.bind : Prog L C ε α → (α → Prog L C ε β) → Prog L C ε β
  | .ret a, f => f a
  | .fail e, _ => .fail e
  | .alloc k, f => .alloc fun l => (k l).bind f
  | .free l k, f => .free l (k.bind f)
  | .read l k, f => .read l fun c => (k c).bind f
  | .update l g k, f => .update l g (k.bind f)

instance : Monad (Prog L C ε) where
  pure := .ret
  bind := .bind

/-- The program that fails. -/
def fail (e : ε) : Prog L C ε α := .fail e

/-- The program that allocates a cell. -/
def alloc : Prog L C ε L := .alloc .ret

/-- The program that frees a cell. -/
def free (l : L) : Prog L C ε Unit := .free l (.ret ())

/-- The program that reads a cell. -/
def read (l : L) : Prog L C ε C := .read l .ret

/-- The program that changes a cell. -/
def update (l : L) (g : C → C) : Prog L C ε Unit := .update l g (.ret ())

/-! ### What a program does to the cells it owns -/

/-- The cells that a program owns. -/
abbrev Heap (L C : Type) := L → Option C

/-- The locations that an allocator gives out, and how it fails without a free one. -/
structure Allocator (L ε : Type) where
  /-- The locations. -/
  managed : L → Prop
  /-- The failure. -/
  exhausted : ε

variable {Q : α → Heap L C → ℕ → Prop} {x : Prog L C ε α}

section Wp

variable [DecidableEq L]

/-- Started with the cells of a heap, and with a number of free cells, the program returns
with `Q` or fails with `E`. -/
def wp (A : Allocator L ε) (E : ε → Prop) (Q : α → Heap L C → ℕ → Prop) :
    Prog L C ε α → Heap L C → ℕ → Prop
  | .ret a, h, n => Q a h n
  | .fail e, _, _ => E e
  | .alloc _, _, 0 => E A.exhausted
  | .alloc k, h, n + 1 =>
    ∀ l c, A.managed l → h l = none → wp A E Q (k l) (Function.update h l (some c)) n
  | .free l k, h, n =>
    A.managed l ∧ (∃ c, h l = some c) ∧ wp A E Q k (Function.update h l none) (n + 1)
  | .read l k, h, n => ∃ c, h l = some c ∧ wp A E Q (k c) h n
  | .update l g k, h, n =>
    ∃ c, h l = some c ∧ wp A E Q k (Function.update h l (some (g c))) n

variable {A : Allocator L ε} {E : ε → Prop} {h : Heap L C} {n : ℕ}

theorem wp_pure {a : α} (hQ : Q a h n) :
    wp A E Q (pure a : Prog L C ε α) h n := hQ

theorem wp_bind {f : α → Prog L C ε β} {R : β → Heap L C → ℕ → Prop}
    (hx : wp A E (fun a h n => wp A E R (f a) h n) x h n) : wp A E R (x >>= f) h n := by
  change wp A E R (x.bind f) h n
  induction x generalizing h n with
  | ret a => exact hx
  | fail e => exact hx
  | alloc k ih =>
    cases n with
    | zero => exact hx
    | succ n =>
      intro l c hl hnone
      exact ih l (hx l c hl hnone)
  | free l k ih =>
    obtain ⟨hl, hc, hk⟩ := hx
    exact ⟨hl, hc, ih hk⟩
  | read l k ih =>
    obtain ⟨c, hc, hk⟩ := hx
    exact ⟨c, hc, ih c hk⟩
  | update l g k ih =>
    obtain ⟨c, hc, hk⟩ := hx
    exact ⟨c, hc, ih hk⟩

theorem wp_ite {c : Prop} [Decidable c] {y : Prog L C ε α}
    (hx : c → wp A E Q x h n) (hy : ¬ c → wp A E Q y h n) :
    wp A E Q (if c then x else y) h n := by
  split_ifs with hc
  · exact hx hc
  · exact hy hc

theorem wp_alloc {Q : L → Heap L C → ℕ → Prop} (hzero : n = 0 → E A.exhausted)
    (hsucc : ∀ l c m, n = m + 1 → A.managed l → h l = none → Q l (Function.update h l (some c)) m) :
    wp A E Q alloc h n := by
  cases n with
  | zero => exact hzero rfl
  | succ n =>
    intro l c hl hnone
    exact hsucc l c n rfl hl hnone

theorem wp_free {l : L} {c : C} {Q : Unit → Heap L C → ℕ → Prop} (hl : A.managed l)
    (hc : h l = some c) (hQ : Q () (Function.update h l none) (n + 1)) : wp A E Q (free l) h n :=
  ⟨hl, ⟨c, hc⟩, hQ⟩

theorem wp_read {l : L} {c : C} {Q : C → Heap L C → ℕ → Prop} (hc : h l = some c)
    (hQ : Q c h n) : wp A E Q (read l) h n :=
  ⟨c, hc, hQ⟩

theorem wp_update {l : L} {g : C → C} {c : C} {Q : Unit → Heap L C → ℕ → Prop}
    (hc : h l = some c) (hQ : Q () (Function.update h l (some (g c))) n) : wp A E Q (update l g) h n :=
  ⟨c, hc, hQ⟩

end Wp

/-! ### Runs -/

/-- A memory with an allocator. -/
structure Memory (M L C ε : Type) where
  get : M → L → C
  update : L → (C → C) → M → M
  /-- The allocator gives out a cell. -/
  alloc : M → Except ε (L × M)
  /-- The allocator takes a cell back. -/
  free : L → M → Except ε M

/-- The run of a program on a memory. -/
def run (I : Memory M L C ε) : Prog L C ε α → M → Except ε (α × M)
  | .ret a, m => .ok (a, m)
  | .fail e, _ => .error e
  | .alloc k, m =>
    match I.alloc m with
    | .error e => .error e
    | .ok (l, m) => run I (k l) m
  | .free l k, m =>
    match I.free l m with
    | .error e => .error e
    | .ok m => run I k m
  | .read l k, m => run I (k (I.get m l)) m
  | .update l g k, m => run I k (I.update l g m)

/-- A run that returns goes on behind it. -/
theorem run_bind {I : Memory M L C ε} {a : α} {m m' : M} (hx : run I x m = .ok (a, m'))
    (f : α → Prog L C ε β) : run I (x >>= f) m = run I (f a) m' := by
  change run I (x.bind f) m = _
  induction x generalizing m with
  | ret b =>
    obtain ⟨rfl, rfl⟩ := Prod.mk.inj (Except.ok.inj hx)
    rfl
  | fail e => exact nomatch hx
  | alloc k ih =>
    rw [run] at hx
    rw [Prog.bind, run]
    cases halloc : I.alloc m with
    | error e => simp [halloc] at hx
    | ok r => exact ih _ (by simpa only [halloc] using hx)
  | free l k ih =>
    rw [run] at hx
    rw [Prog.bind, run]
    cases hfree : I.free l m with
    | error e => simp [hfree] at hx
    | ok r => exact ih (by simpa only [hfree] using hx)
  | read l k ih => exact ih _ hx
  | update l g k ih => exact ih hx

section Adequacy

variable [DecidableEq L]

/-- The allocator keeps a list of its free cells. -/
structure Correct (A : Allocator L ε) (I : Memory M L C ε) (Free : M → List L → Prop) : Prop where
  nodup : ∀ {m ls}, Free m ls → ls.Nodup
  managed : ∀ {m ls l}, Free m ls → l ∈ ls → A.managed l
  update : ∀ {m ls l} (g : C → C), Free m ls → l ∉ ls →
    Free (I.update l g m) ls ∧ I.get (I.update l g m) = Function.update (I.get m) l (g (I.get m l))
  alloc_nil : ∀ {m}, Free m [] → I.alloc m = .error A.exhausted
  alloc_cons : ∀ {m l ls}, Free m (l :: ls) →
    ∃ m', I.alloc m = .ok (l, m') ∧ Free m' ls ∧ I.get m' = I.get m
  free : ∀ {m ls l}, Free m ls → A.managed l → l ∉ ls →
    ∃ m', I.free l m = .ok m' ∧ Free m' (l :: ls) ∧ ∀ l' ≠ l, I.get m' l' = I.get m l'

/-- A memory with the cells of a heap, and with the free cells of a list. -/
structure Holds (I : Memory M L C ε) (Free : M → List L → Prop) (m : M) (h : Heap L C)
    (ls : List L) : Prop where
  free : Free m ls
  get : ∀ {l c}, h l = some c → I.get m l = c
  disjoint : ∀ {l}, l ∈ ls → h l = none

variable {A : Allocator L ε} {I : Memory M L C ε} {Free : M → List L → Prop} {E : ε → Prop}
  {h : Heap L C} {m : M} {ls : List L}

/-- A run does what has been shown of the program. -/
theorem run_of_wp (hI : Correct A I Free) (hx : wp A E Q x h ls.length) (hm : Holds I Free m h ls) :
    (∃ a m' h' ls', run I x m = .ok (a, m') ∧ Holds I Free m' h' ls' ∧ Q a h' ls'.length) ∨
      ∃ e, run I x m = .error e ∧ E e := by
  induction x generalizing h ls m with
  | ret a => exact .inl ⟨a, m, h, ls, rfl, hm, hx⟩
  | fail e => exact .inr ⟨e, rfl, hx⟩
  | alloc k ih =>
    cases ls with
    | nil => exact .inr ⟨A.exhausted, by rw [run, hI.alloc_nil hm.free], hx⟩
    | cons l ls =>
      obtain ⟨m', halloc, hfree, hget⟩ := hI.alloc_cons hm.free
      have hl : A.managed l := hI.managed hm.free List.mem_cons_self
      have hm' : Holds I Free m' (Function.update h l (some (I.get m l))) ls := by
        refine ⟨hfree, ?_, ?_⟩
        · intro l' c hc
          rw [hget]
          by_cases hl' : l' = l
          · subst l'
            simpa using hc
          · rw [Function.update_of_ne hl'] at hc
            exact hm.get hc
        · intro l' hl'
          have hne : l' ≠ l := by
            rintro rfl
            exact (List.nodup_cons.mp (hI.nodup hm.free)).1 hl'
          rw [Function.update_of_ne hne]
          exact hm.disjoint (List.mem_cons_of_mem l hl')
      have hrun := ih l (hx l (I.get m l) hl (hm.disjoint List.mem_cons_self)) hm'
      simpa only [run, halloc] using hrun
  | free l k ih =>
    obtain ⟨hl, ⟨c, hc⟩, hk⟩ := hx
    have hmem : l ∉ ls := fun hin => by simp [hm.disjoint hin] at hc
    obtain ⟨m', hfreed, hfree, hget⟩ := hI.free hm.free hl hmem
    have hm' : Holds I Free m' (Function.update h l none) (l :: ls) := by
      refine ⟨hfree, ?_, ?_⟩
      · intro l' c' hc'
        by_cases hl' : l' = l
        · subst l'
          simp at hc'
        · rw [Function.update_of_ne hl'] at hc'
          rw [hget l' hl']
          exact hm.get hc'
      · intro l' hl'
        by_cases hne : l' = l
        · subst l'
          exact Function.update_self l none h
        · rw [Function.update_of_ne hne]
          exact hm.disjoint (List.mem_of_ne_of_mem hne hl')
    have hrun := ih hk hm'
    simpa only [run, hfreed] using hrun
  | read l k ih =>
    obtain ⟨c, hc, hk⟩ := hx
    have hget := hm.get hc
    subst hget
    exact ih _ hk hm
  | update l g k ih =>
    obtain ⟨c, hc, hk⟩ := hx
    have hmem : l ∉ ls := fun hin => by simp [hm.disjoint hin] at hc
    have hget := hm.get hc
    subst hget
    obtain ⟨hfree, hupdate⟩ := hI.update g hm.free hmem
    refine ih hk ⟨hfree, ?_, ?_⟩
    · intro l' c' hc'
      rw [hupdate]
      by_cases hl' : l' = l
      · subst l'
        simpa using hc'
      · rw [Function.update_of_ne hl'] at hc' ⊢
        exact hm.get hc'
    · intro l' hl'
      have hne : l' ≠ l := by
        rintro rfl
        exact hmem hl'
      rw [Function.update_of_ne hne]
      exact hm.disjoint hl'

end Adequacy

end Ownership
