import Mathlib.Tactic.Common

/-!
# UTF-8 with lenient decoding

Encoding of code points, and decoding of a byte stream that drops ill-formed
input, as decoders do in their "ignore" mode. The decoder is a state machine over bytes: it holds the part of a
multi-byte character that it has read, together with the range that the next
byte must lie in. A byte outside the range drops that part and is looked at
afresh, so an ASCII byte always stands for itself. Bytes and code points are
natural numbers.
-/

namespace Utf8

/-- A character of which some bytes have been read. -/
structure Pending where
  bits : ℕ
  /-- How many bytes follow the next one. -/
  more : ℕ
  /-- The smallest admissible next byte. -/
  low : ℕ
  /-- The largest admissible next byte. -/
  high : ℕ
  /-- Continuation bytes are not ASCII. -/
  low_ge : 0x80 ≤ low

/-- A first byte: an ASCII character, the start of a longer character, or
dropped. The ranges exclude overlong forms, surrogates and numbers past the last
code point. -/
def lead (b : ℕ) : List ℕ × Option Pending :=
  if b < 0x80 then ([b], none)
  else if b < 0xC2 then ([], none)
  else if b < 0xE0 then ([], some ⟨b - 0xC0, 0, 0x80, 0xBF, by decide⟩)
  else if b = 0xE0 then ([], some ⟨0, 1, 0xA0, 0xBF, by decide⟩)
  else if b = 0xED then ([], some ⟨0xD, 1, 0x80, 0x9F, by decide⟩)
  else if b < 0xF0 then ([], some ⟨b - 0xE0, 1, 0x80, 0xBF, by decide⟩)
  else if b = 0xF0 then ([], some ⟨0, 2, 0x90, 0xBF, by decide⟩)
  else if b < 0xF4 then ([], some ⟨b - 0xF0, 2, 0x80, 0xBF, by decide⟩)
  else if b = 0xF4 then ([], some ⟨4, 2, 0x80, 0x8F, by decide⟩)
  else ([], none)

/-- The characters that a byte completes, and the part that is then pending. -/
def step : Option Pending → ℕ → List ℕ × Option Pending
  | none, b => lead b
  | some p, b =>
    if p.low ≤ b ∧ b ≤ p.high then
      match p.more with
      | 0 => ([p.bits * 64 + (b - 0x80)], none)
      | k + 1 => ([], some ⟨p.bits * 64 + (b - 0x80), k, 0x80, 0xBF, by decide⟩)
    else lead b

/-- Decoding from a state; what is pending at the end is dropped. -/
def decodeFrom (s : Option Pending) : List ℕ → List ℕ
  | [] => []
  | b :: bs => (step s b).1 ++ decodeFrom (step s b).2 bs

/-- Decoding of a whole stream. -/
def decode (bs : List ℕ) : List ℕ := decodeFrom none bs

/-- The bytes of a code point; surrogates and numbers past the last code point have
none. -/
def encodeChar (c : ℕ) : Option (List ℕ) :=
  if c < 0x80 then some [c]
  else if c < 0x800 then some [0xC0 + c / 64, 0x80 + c % 64]
  else if 0xD800 ≤ c ∧ c ≤ 0xDFFF then none
  else if c < 0x10000 then some [0xE0 + c / 4096, 0x80 + c / 64 % 64, 0x80 + c % 64]
  else if c < 0x110000 then
    some [0xF0 + c / 262144, 0x80 + c / 4096 % 64, 0x80 + c / 64 % 64, 0x80 + c % 64]
  else none

/-- Encoding of a text; `none` when a character has no encoding. -/
def encode (cs : List ℕ) : Option (List ℕ) := (cs.mapM encodeChar).map List.flatten

theorem encode_of_ascii {cs : List ℕ} (hcs : ∀ c ∈ cs, c < 0x80) : encode cs = some cs := by
  have hchars : cs.mapM encodeChar = some (cs.map fun c => [c]) := by
    induction cs with
    | nil => rfl
    | cons c cs ih =>
      have hc : encodeChar c = some [c] := if_pos (hcs c (by simp))
      rw [List.mapM_cons, hc, ih fun d hd => hcs d (by simp [hd])]
      rfl
  rw [encode, hchars, Option.map_some, ← List.flatMap_def, List.flatMap_singleton']

/-- An ASCII byte stands for itself in every state. -/
theorem step_ascii {b : ℕ} (hb : b < 0x80) (s : Option Pending) : step s b = ([b], none) := by
  cases s with
  | none => simp [step, lead, hb]
  | some p =>
    have hlow := p.low_ge
    have hout : ¬ (p.low ≤ b ∧ b ≤ p.high) := by omega
    simp [step, hout, lead, hb]

theorem decodeFrom_append_ascii {b : ℕ} (hb : b < 0x80) (s : Option Pending) (as bs : List ℕ) :
    decodeFrom s (as ++ b :: bs) = decodeFrom s as ++ b :: decode bs := by
  induction as generalizing s with
  | nil => simp [decodeFrom, step_ascii hb, decode]
  | cons a as ih => simp [decodeFrom, ih]

theorem decode_append_ascii {b : ℕ} (hb : b < 0x80) (as bs : List ℕ) :
    decode (as ++ b :: bs) = decode as ++ b :: decode bs :=
  decodeFrom_append_ascii hb none as bs

theorem decode_of_ascii {bs : List ℕ} (hbs : ∀ b ∈ bs, b < 0x80) : decode bs = bs := by
  induction bs with
  | nil => rfl
  | cons b bs ih =>
    have hsplit := decode_append_ascii (hbs b (by simp)) [] bs
    rw [List.nil_append] at hsplit
    rw [hsplit, ih (fun c hc => hbs c (by simp [hc]))]
    rfl

/-- ASCII text behind other bytes stays what it is. -/
theorem decode_append_of_ascii {bs : List ℕ} (hbs : ∀ b ∈ bs, b < 0x80) (as : List ℕ) :
    decode (as ++ bs) = decode as ++ bs := by
  cases bs with
  | nil => simp
  | cons b bs =>
    have htail : decode bs = bs := decode_of_ascii fun c hc => hbs c (by simp [hc])
    rw [decode_append_ascii (hbs b (by simp)), htail]

end Utf8
