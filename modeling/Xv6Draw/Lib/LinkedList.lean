import Mathlib.Data.List.Nodup
import Mathlib.Data.Option.Basic

/-!
# Circular doubly linked lists

A list whose nodes point to their neighbours, closed to a cycle by a head node. The
pointers are two functions on nodes, and the operations assign to them one after the
other as a program does. A list of elements says what the pointers represent.
-/

namespace LinkedList

open Function List

variable {α : Type*}

/-- The pointers of the nodes. The head is `none`. -/
structure Links (α : Type*) where
  next : Option α → Option α
  prev : Option α → Option α

/-- The list seen from its end. -/
def Links.flip (l : Links α) : Links α := ⟨l.prev, l.next⟩

/-- A part of a list: the nodes between two nodes. -/
def Seg (l : Links α) (a : Option α) : List α → Option α → Prop
  | [], c => l.next a = c ∧ l.prev c = a
  | x :: xs, c => l.next a = some x ∧ l.prev (some x) = a ∧ Seg l (some x) xs c

/-- The pointers form a single cycle through the head and the elements of a list, without
repetition. -/
structure Lists (l : Links α) (xs : List α) : Prop where
  /-- The cycle. -/
  seg : Seg l none xs none
  /-- No element comes twice. -/
  nodup : xs.Nodup

/-- The search for an element from a node on, with a bound on the number of nodes: `none` when the
bound is reached, `some none` at the head. -/
def find (next : Option α → Option α) (P : α → Bool) : ℕ → Option α → Option (Option α)
  | 0, _ => none
  | _ + 1, none => some none
  | n + 1, some x => if P x then some (some x) else find next P n (next (some x))

/-! ### Parts of a list -/

variable {l l' : Links α} {a c : Option α} {b x : α} {xs ys : List α}

theorem seg_append : Seg l a (xs ++ b :: ys) c ↔ Seg l a xs (some b) ∧ Seg l (some b) ys c := by
  induction xs generalizing a with
  | nil => simp only [nil_append, Seg, and_assoc]
  | cons x xs ih => simp only [cons_append, Seg, ih, and_assoc]

theorem Seg.flip (h : Seg l a xs c) : Seg l.flip c xs.reverse a := by
  induction xs generalizing a with
  | nil => exact ⟨h.2, h.1⟩
  | cons x xs ih =>
    obtain ⟨hnext, hprev, hrest⟩ := h
    rw [reverse_cons, seg_append]
    exact ⟨ih hrest, hprev, hnext⟩

/-- A part depends on the pointers of its nodes only. -/
theorem Seg.congr (h : Seg l a xs c) (hnext : ∀ n ∈ a :: xs.map some, l'.next n = l.next n)
    (hprev : ∀ n ∈ c :: xs.map some, l'.prev n = l.prev n) : Seg l' a xs c := by
  induction xs generalizing a with
  | nil => exact ⟨(hnext a (by simp)).trans h.1, (hprev c (by simp)).trans h.2⟩
  | cons x xs ih =>
    obtain ⟨hx, hback, hrest⟩ := h
    refine ⟨(hnext a (by simp)).trans hx, (hprev (some x) (by simp)).trans hback, ih hrest ?_ ?_⟩
    · intro n hn
      exact hnext n (mem_cons_of_mem _ (by simpa using hn))
    · intro n hn
      apply hprev n
      simp only [mem_cons, map_cons] at hn ⊢
      tauto

theorem Seg.prev_next (h : Seg l a xs c) {n : Option α} (hn : n ∈ a :: xs.map some) :
    l.prev (l.next n) = n := by
  induction xs generalizing a with
  | nil =>
    obtain rfl : n = a := by simpa using hn
    rw [h.1, h.2]
  | cons x xs ih =>
    obtain ⟨hx, hback, hrest⟩ := h
    obtain rfl | hn := mem_cons.mp hn
    · rw [hx, hback]
    · exact ih hrest (by simpa using hn)

theorem Seg.next_mem (h : Seg l a xs c) : l.next a ∈ c :: xs.map some := by
  cases xs with
  | nil => simp [h.1]
  | cons x xs => simp [h.1]

theorem Seg.prev_mem (h : Seg l a xs c) : l.prev c ∈ a :: xs.map some := by
  have hmem := h.flip.next_mem
  rw [map_reverse, mem_cons, mem_reverse] at hmem
  exact mem_cons.mpr hmem

theorem Lists.flip (h : Lists l xs) : Lists l.flip xs.reverse :=
  ⟨h.seg.flip, nodup_reverse.mpr h.nodup⟩

/-- The two pointers are inverse to each other when every node is in the list. -/
theorem Lists.inverse (h : Lists l xs) (hall : ∀ x, x ∈ xs) (n : Option α) :
    l.prev (l.next n) = n ∧ l.next (l.prev n) = n := by
  have hmem : n ∈ none :: xs.map some := by
    cases n with
    | none => exact mem_cons_self
    | some x => simpa using hall x
  refine ⟨h.seg.prev_next hmem, h.flip.seg.prev_next ?_⟩
  simpa using hmem

/-! ### Search -/

/-- A search finds the first element. -/
theorem Seg.find_eq (h : Seg l a xs none) (P : α → Bool) {n : ℕ} (hn : xs.length < n) :
    find l.next P n (l.next a) = some (xs.find? P) := by
  induction xs generalizing a n with
  | nil =>
    obtain ⟨m, rfl⟩ : ∃ m, n = m + 1 := ⟨n - 1, by simp at hn; omega⟩
    rw [h.1]
    rfl
  | cons x xs ih =>
    obtain ⟨hx, -, hrest⟩ := h
    rw [length_cons] at hn
    obtain ⟨m, rfl⟩ : ∃ m, n = m + 1 := ⟨n - 1, by omega⟩
    rw [hx, find, List.find?_cons]
    cases P x with
    | true => rfl
    | false => exact ih hrest (by omega)

/-- What a search finds is what it looks for. -/
theorem of_find_eq_some {next : Option α → Option α} {P : α → Bool} {n : ℕ}
    (h : find next P n a = some (some x)) : P x = true := by
  induction n generalizing a with
  | zero => exact absurd h nofun
  | succ n ih =>
    cases a with
    | none => exact absurd h nofun
    | some y =>
      rw [find] at h
      split_ifs at h with hy
      · obtain rfl : y = x := by simpa using h
        exact hy
      · exact ih h

theorem Lists.find_next (h : Lists l xs) (P : α → Bool) {n : ℕ} (hn : xs.length < n) :
    find l.next P n (l.next none) = some (xs.find? P) :=
  h.seg.find_eq P hn

theorem Lists.find_prev (h : Lists l xs) (P : α → Bool) {n : ℕ} (hn : xs.length < n) :
    find l.prev P n (l.prev none) = some (xs.reverse.find? P) :=
  h.flip.seg.find_eq P (by simpa using hn)

/-! ### Insertion and removal -/

section
variable [DecidableEq α]

/-- An assignment to the pointer to the next node. -/
def Links.setNext (l : Links α) (a c : Option α) : Links α :=
  { l with next := update l.next a c }

/-- An assignment to the pointer to the node before. -/
def Links.setPrev (l : Links α) (a c : Option α) : Links α :=
  { l with prev := update l.prev a c }

/-- An element is put behind the head. -/
def Links.insertFront (l : Links α) (b : α) : Links α :=
  let l := l.setNext (some b) (l.next none)
  let l := l.setPrev (some b) none
  let l := l.setPrev (l.next none) (some b)
  l.setNext none (some b)

/-- An element is taken out. -/
def Links.unlink (l : Links α) (b : α) : Links α :=
  let l := l.setPrev (l.next (some b)) (l.prev (some b))
  l.setNext (l.prev (some b)) (l.next (some b))

theorem Links.insertFront_next (l : Links α) (b : α) : (l.insertFront b).next =
    update (update l.next (some b) (l.next none)) none (some b) := rfl

theorem Links.insertFront_prev (l : Links α) (b : α) : (l.insertFront b).prev =
    update (update l.prev (some b) none) (l.next none) (some b) := by
  have hhead : update l.next (some b) (l.next none) none = l.next none :=
    update_of_ne (Option.some_ne_none b).symm _ _
  simp only [insertFront, setNext, setPrev, hhead]

/-- An element is put in front of the others. -/
theorem Lists.insertFront (h : Lists l xs) (hb : b ∉ xs) : Lists (l.insertFront b) (b :: xs) := by
  refine ⟨?_, nodup_cons.mpr ⟨hb, h.nodup⟩⟩
  have hfirst : l.next none ≠ some b := by
    intro heq
    have hmem := h.seg.next_mem
    rw [heq] at hmem
    exact hb (by simpa using hmem)
  have hnext : (l.insertFront b).next (some b) = l.next none := by
    rw [Links.insertFront_next, update_of_ne (Option.some_ne_none b), update_self]
  have hprev : (l.insertFront b).prev (l.next none) = some b := by
    rw [Links.insertFront_prev, update_self]
  refine ⟨?_, ?_, ?_⟩
  · rw [Links.insertFront_next, update_self]
  · rw [Links.insertFront_prev, update_of_ne (Ne.symm hfirst), update_self]
  · cases xs with
    | nil =>
      rw [h.seg.1] at hnext hprev
      exact ⟨hnext, hprev⟩
    | cons x xs =>
      obtain ⟨hx, -, hrest⟩ := h.seg
      obtain ⟨hxs, -⟩ := nodup_cons.mp h.nodup
      rw [hx] at hnext hprev
      refine ⟨hnext, hprev, hrest.congr ?_ ?_⟩
      · intro n hn
        have hne : n ≠ none ∧ n ≠ some b := by
          refine ⟨?_, ?_⟩
          · rintro rfl
            simp at hn
          · rintro rfl
            exact hb (by simpa using hn)
        rw [Links.insertFront_next, update_of_ne hne.1, update_of_ne hne.2]
      · intro n hn
        have hne : n ≠ some x ∧ n ≠ some b := by
          refine ⟨?_, ?_⟩
          · rintro rfl
            exact hxs (by simpa using hn)
          · rintro rfl
            exact hb (mem_cons_of_mem _ (by simpa using hn))
        rw [Links.insertFront_prev, hx, update_of_ne hne.1, update_of_ne hne.2]

/-- Elements are put in front one after the other. -/
theorem Lists.foldl_insertFront (h : Lists l xs) (hnodup : (ys.reverse ++ xs).Nodup) :
    Lists (ys.foldl Links.insertFront l) (ys.reverse ++ xs) := by
  induction ys generalizing l xs with
  | nil => exact h
  | cons y ys ih =>
    rw [reverse_cons, append_assoc, singleton_append] at hnodup ⊢
    rw [foldl_cons]
    have hy : (y :: xs).Nodup := (nodup_append.mp hnodup).2.1
    exact ih (h.insertFront (nodup_cons.mp hy).1) hnodup

/-- An element is taken out of a part. -/
theorem Seg.unlink (hfront : Seg l a xs (some b)) (hback : Seg l (some b) ys none)
    (hnodup : (a :: (xs ++ b :: ys).map some).Nodup) : Seg (l.unlink b) a (xs ++ ys) none := by
  have hself : l.next (some b) ≠ some b := by
    intro heq
    have hmem := hback.next_mem
    rw [heq] at hmem
    have hb := (nodup_append.mp (nodup_cons.mp hnodup).2.of_map).2.1
    exact (nodup_cons.mp hb).1 (by simpa using hmem)
  have hprev : (l.unlink b).prev = update l.prev (l.next (some b)) (l.prev (some b)) := rfl
  have hnext : (l.unlink b).next = update l.next (l.prev (some b)) (l.next (some b)) := by
    simp only [Links.unlink, Links.setNext, Links.setPrev, update_of_ne (Ne.symm hself)]
  induction xs generalizing a with
  | nil =>
    obtain ⟨ha, hb⟩ := hfront
    rw [hb] at hnext hprev
    cases ys with
    | nil =>
      obtain ⟨hend, -⟩ := hback
      rw [hend] at hnext hprev
      exact ⟨by rw [hnext, update_self], by rw [hprev, update_self]⟩
    | cons y ys =>
      obtain ⟨hy, -, hrest⟩ := hback
      rw [hy] at hnext hprev
      refine ⟨by rw [hnext, update_self], by rw [hprev, update_self],
        hrest.congr ?_ ?_⟩
      · intro n hn
        rw [hnext, update_of_ne]
        rintro rfl
        have hnot := (nodup_cons.mp hnodup).1
        tauto
      · intro n hn
        rw [hprev, update_of_ne]
        rintro rfl
        have htail := (nodup_cons.mp (nodup_cons.mp hnodup).2).2
        simp only [map_cons, nodup_cons] at htail
        exact htail.1 (by simpa using hn)
  | cons x xs ih =>
    obtain ⟨hx, hxa, hrest⟩ := hfront
    obtain ⟨hnot, htail⟩ := nodup_cons.mp hnodup
    refine ⟨?_, ?_, ih hrest htail⟩
    · -- the last node in front of the element is another one
      rw [hnext, update_of_ne, hx]
      rintro rfl
      have hmem := hrest.prev_mem
      simp only [map_cons, map_append, cons_append, mem_cons, mem_append]
        at hnot hmem
      tauto
    · rw [hprev, update_of_ne, hxa]
      intro heq
      have hmem := hback.next_mem
      rw [← heq] at hmem
      simp only [map_cons, map_append, cons_append, nodup_cons, mem_append,
        mem_cons, reduceCtorEq, false_or] at htail hmem
      tauto

theorem Lists.unlink (h : Lists l (xs ++ b :: ys)) : Lists (l.unlink b) (xs ++ ys) := by
  obtain ⟨hfront, hback⟩ := seg_append.mp h.seg
  refine ⟨hfront.unlink hback ?_, ?_⟩
  · refine nodup_cons.mpr ⟨by simp, h.nodup.map (Option.some_injective α)⟩
  · exact h.nodup.sublist (List.Sublist.append_left (sublist_cons_self b ys) xs)

end

end LinkedList
