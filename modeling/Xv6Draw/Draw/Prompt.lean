import Xv6Draw.Ai.System
import Xv6Draw.Draw.Aidraw
import Xv6Draw.Memory

/-!
# The prompt buffer of aidraw

`join_prompt` joins the arguments of `aidraw` in an array of `AI_PROMPT_MAX` bytes. Here it
stores into memory, at the address of the array. Lengths do not wrap: memory ends at `PHYSTOP`,
far below `2 ^ 31`.
-/

namespace Xv6Draw.Buffer

open Function List

/-- `AI_PROMPT_MAX` of `aidraw.c`. -/
def promptMax : ℕ := 512

/-- The inner loop of `join_prompt`: characters are stored one behind the other. -/
def storeWord (mem : Mem) (a : ℕ) : List ℕ → Mem
  | [] => mem
  | c :: cs => storeWord (update mem a c) (a + 1) cs

/-- The loop of `join_prompt` from the argument `i` on: the memory, and `len` if it ends. -/
def joinLoop (mem : Mem) (prompt : ℕ) : ℕ → ℕ → List (List ℕ) → Mem × Option ℕ
  | _, len, [] => (mem, some len)
  | i, len, word :: words =>
    if 1 < i ∧ promptMax ≤ len + 1 then (mem, none)
    else
      let (mem, len) := if 1 < i then (update mem (prompt + len) 32, len + 1) else (mem, len)
      if promptMax ≤ len + word.length then (mem, none)
      else joinLoop (storeWord mem (prompt + len) word) prompt (i + 1) (len + word.length) words

/-- `join_prompt`. -/
def joinPrompt (mem : Mem) (prompt : ℕ) (argv : List (List ℕ)) : Mem × ℤ :=
  match joinLoop (update mem prompt 0) prompt 1 0 argv.tail with
  | (mem, some len) => (update mem (prompt + len) 0, 0)
  | (mem, none) => (mem, -1)

/-- The words and the spaces in front of them, but for the first. -/
def pieces (first : Bool) : List (List ℕ) → List ℕ
  | [] => []
  | word :: words => (if first then [] else [32]) ++ (word ++ pieces false words)

/-- The words joined by spaces. -/
theorem pieces_true (words : List (List ℕ)) : pieces true words = intercalate [32] words := by
  have hrest : ∀ (words : List (List ℕ)) (word : List ℕ),
      word ++ pieces false words = intercalate [32] (word :: words) := by
    intro words
    induction words with
    | nil => simp [pieces, intercalate]
    | cons next words ih =>
      intro word
      rw [pieces, ih next]
      simp [intercalate]
  cases words with
  | nil => rfl
  | cons word words => exact hrest words word

theorem storeWord_append (mem : Mem) (a : ℕ) (cs ds : List ℕ) :
    storeWord mem a (cs ++ ds) = storeWord (storeWord mem a cs) (a + cs.length) ds := by
  induction cs generalizing mem a with
  | nil => rfl
  | cons c cs ih =>
    rw [cons_append, storeWord, ih, storeWord, length_cons, Nat.add_right_comm, Nat.add_assoc]

theorem storeWord_apply (mem : Mem) (a : ℕ) (cs : List ℕ) (b : ℕ) : storeWord mem a cs b =
    if a ≤ b ∧ b < a + cs.length then cs.getD (b - a) 0 else mem b := by
  induction cs generalizing mem a with
  | nil => rw [storeWord, if_neg (by simp)]
  | cons c cs ih =>
    rw [storeWord, ih, length_cons]
    by_cases hb : b = a
    · subst b
      rw [if_neg (by omega), if_pos (by omega), update_self, Nat.sub_self, getD_cons_zero]
    · by_cases hin : a + 1 ≤ b ∧ b < a + 1 + cs.length
      · rw [if_pos hin, if_pos (by omega), show b - a = b - (a + 1) + 1 by omega, getD_cons_succ]
      · rw [if_neg hin, if_neg (by omega), update_of_ne hb]

/-- The loop writes as much of the pieces as passes its checks, and ends if all of them do. -/
theorem joinLoop_spec (mem : Mem) (prompt : ℕ) {i len : ℕ} (hi : 1 ≤ i) (hlen : len < promptMax)
    {first : Bool} (hfirst : first = !decide (1 < i)) (words : List (List ℕ)) :
    ∃ text, (joinLoop mem prompt i len words).1 = storeWord mem (prompt + len) text ∧
      len + text.length < promptMax ∧
      (joinLoop mem prompt i len words).2 = (if len + (pieces first words).length < promptMax then
        some (len + (pieces first words).length) else none) ∧
      (len + (pieces first words).length < promptMax → text = pieces first words) := by
  induction words generalizing mem i len first with
  | nil => exact ⟨[], rfl, hlen, (if_pos hlen).symm, fun _ => rfl⟩
  | cons word words ih =>
    -- the space in front of the word is one more character of the text
    obtain ⟨front, hfront, hstart, hcheck⟩ : ∃ front : List ℕ,
        (if first then [] else [32]) = front ∧
        (if 1 < i then (update mem (prompt + len) 32, len + 1) else (mem, len)) =
          (storeWord mem (prompt + len) front, len + front.length) ∧
        ((1 < i ∧ promptMax ≤ len + 1) ↔ promptMax ≤ len + front.length) := by
      by_cases hspace : 1 < i
      · exact ⟨[32], by simp [hfirst, hspace], if_pos hspace, and_iff_right hspace⟩
      · exact ⟨[], by simp [hfirst, hspace], if_neg hspace, by simp [hspace, hlen]⟩
    rw [joinLoop, pieces, hfront, hstart, length_append, length_append]
    simp only [hcheck]
    by_cases hspace : promptMax ≤ len + front.length
    · rw [if_pos hspace, if_neg (by omega)]
      exact ⟨[], rfl, hlen, rfl, fun h => by omega⟩
    · rw [if_neg hspace]
      by_cases hword : promptMax ≤ len + front.length + word.length
      · rw [if_pos hword, if_neg (by omega)]
        exact ⟨front, rfl, not_le.mp hspace, rfl, fun h => by omega⟩
      · obtain ⟨text, hmem, htext, hresult, hall⟩ :=
          ih (storeWord (storeWord mem (prompt + len) front) (prompt + (len + front.length)) word)
            (Nat.le_add_left 1 i) (not_le.mp hword) (show false = !decide (1 < i + 1) by simp; omega)
        rw [if_neg hword, hmem, hresult]
        refine ⟨front ++ (word ++ text), ?_, by simp; omega, ?_, ?_⟩
        · simp only [storeWord_append, Nat.add_assoc]
        · simp only [Nat.add_assoc]
        · intro h
          rw [hall (by omega)]

/-- **The prompt.** `join_prompt` writes to its array only. It returns 0 if the joined arguments are
shorter than the array, which then holds them and a NUL, and `aiquery` accepts their length.
Otherwise it returns -1. -/
theorem join_prompt_spec (mem : Mem) (prompt : ℕ) (argv : List (List ℕ)) :
    let joined := intercalate [32] argv.tail
    let r := joinPrompt mem prompt argv
    (∀ a, a < prompt ∨ prompt + promptMax ≤ a → r.1 a = mem a) ∧
    r.2 = (if joined.length < promptMax then 0 else -1) ∧
    (joined.length < promptMax →
      (∀ j < joined.length, r.1 (prompt + j) = joined.getD j 0) ∧ r.1 (prompt + joined.length) = 0 ∧
      ∀ (s : AiSystem.State) (maxlen : ℤ), 0 < maxlen → s.ai.busy = false →
        AiSystem.admits s joined.length maxlen = true) := by
  intro joined r
  have hmax : 0 < promptMax := by decide
  obtain ⟨text, hmem, htext, hresult, hall⟩ :=
    joinLoop_spec (update mem prompt 0) prompt le_rfl hmax rfl argv.tail
  rw [show (!decide (1 < 1)) = true from rfl, pieces_true, Nat.zero_add] at hresult hall
  have houtside : ∀ a, a < prompt ∨ prompt + promptMax ≤ a →
      storeWord (update mem prompt 0) (prompt + 0) text a = mem a := by
    intro a ha
    rw [storeWord_apply, if_neg (by omega), update_of_ne (by omega)]
  have hr : r = if joined.length < promptMax then
      (update (storeWord (update mem prompt 0) (prompt + 0) text) (prompt + joined.length) 0, 0)
      else (storeWord (update mem prompt 0) (prompt + 0) text, -1) := by
    change joinPrompt mem prompt argv = _
    rw [joinPrompt, ← hmem]
    split_ifs at hresult ⊢ with hfits
    · rw [← Prod.eta (joinLoop _ _ _ _ _), hresult]
    · rw [← Prod.eta (joinLoop _ _ _ _ _), hresult]
  rw [hr]
  split_ifs with hfits
  · refine ⟨fun a ha => ?_, rfl, fun _ => ⟨fun j hj => ?_, update_self _ _ _, ?_⟩⟩
    · rw [← houtside a ha]
      exact update_of_ne (by omega) _ _
    · have hjoined : text = joined := hall hfits
      dsimp only
      rw [update_of_ne (by omega), storeWord_apply, hjoined, if_pos (by omega), Nat.add_zero,
        Nat.add_sub_cancel_left]
    · intro s maxlen hpos hbusy
      have hlength : joined.length ≤ aiPromptMax := hfits.le
      simp only [AiSystem.admits, hbusy, Bool.not_false, Bool.and_true, decide_eq_true_eq]
      omega
  · exact ⟨houtside, rfl, fun h => absurd h hfits⟩

end Xv6Draw.Buffer
