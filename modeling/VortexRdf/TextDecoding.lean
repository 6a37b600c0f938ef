/-
Bytes decoded as UTF-8, a replacement character for what is none.

* `decode` — the decoder, a byte at a time;
* `decode_utf8` — the bytes of a text are decoded to it.
-/
import VortexRdf.Utf16

namespace Utf8

open Utf16 (utf8 utf8_cons)

/-! ### The decoder -/

/-- Between two bytes: the bits of the character so far, the bytes it still needs, and the
bounds of the next one. -/
structure Decoder where
  point : ℕ
  needed : ℕ
  lower : ℕ
  upper : ℕ

def Decoder.start : Decoder := ⟨0, 0, 0x80, 0xbf⟩

def REPLACEMENT : Char := Char.ofNat 0xfffd

/-- A byte between characters. -/
def firstByte (b : ℕ) : List Char × Decoder :=
  if b ≤ 0x7f then ([Char.ofNat b], .start)
  else if 0xc2 ≤ b ∧ b ≤ 0xdf then ([], ⟨b - 0xc0, 1, 0x80, 0xbf⟩)
  else if 0xe0 ≤ b ∧ b ≤ 0xef then
    ([], ⟨b - 0xe0, 2, if b = 0xe0 then 0xa0 else 0x80, if b = 0xed then 0x9f else 0xbf⟩)
  else if 0xf0 ≤ b ∧ b ≤ 0xf4 then
    ([], ⟨b - 0xf0, 3, if b = 0xf0 then 0x90 else 0x80, if b = 0xf4 then 0x8f else 0xbf⟩)
  else ([REPLACEMENT], .start)

/-- A byte: the characters it ends, and what is between it and the next. One that cannot go on
the character before it is a first byte again. -/
def step (d : Decoder) (b : ℕ) : List Char × Decoder :=
  if d.needed = 0 then firstByte b
  else if d.lower ≤ b ∧ b ≤ d.upper then
    let point := d.point * 64 + (b - 0x80)
    if d.needed = 1 then ([Char.ofNat point], .start)
    else ([], ⟨point, d.needed - 1, 0x80, 0xbf⟩)
  else (REPLACEMENT :: (firstByte b).1, (firstByte b).2)

def decodeFrom : Decoder → List UInt8 → List Char
  | d, [] => if d.needed = 0 then [] else [REPLACEMENT]
  | d, b :: rest => (step d b.toNat).1 ++ decodeFrom (step d b.toNat).2 rest

def decode (bytes : List UInt8) : List Char := decodeFrom .start bytes

/-! ### A text's bytes -/

section Text

variable {b n point lower upper : ℕ}

theorem toNat_ofNat8 (h : n < 0x100) : (UInt8.ofNat n).toNat = n := UInt8.toNat_ofNat_of_lt' h

theorem decodeFrom_cons (d : Decoder) (h : b < 0x100) (rest : List UInt8) :
    decodeFrom d (UInt8.ofNat b :: rest) = (step d b).1 ++ decodeFrom (step d b).2 rest := by
  rw [decodeFrom, toNat_ofNat8 h]

/-- A byte that goes on a character, with more to come. -/
theorem step_more (hlower : lower ≤ b) (hupper : b ≤ upper) :
    step ⟨point, n + 2, lower, upper⟩ b = ([], ⟨point * 64 + (b - 0x80), n + 1, 0x80, 0xbf⟩) := by
  rw [step, if_neg (Nat.succ_ne_zero _), if_pos ⟨hlower, hupper⟩]
  dsimp only
  rw [if_neg (by omega)]
  rfl

/-- A byte that ends a character. -/
theorem step_last (hlower : lower ≤ b) (hupper : b ≤ upper) :
    step ⟨point, 1, lower, upper⟩ b = ([Char.ofNat (point * 64 + (b - 0x80))], .start) := by
  rw [step, if_neg Nat.one_ne_zero, if_pos ⟨hlower, hupper⟩]
  dsimp only
  rw [if_pos rfl]

theorem step_start (b : ℕ) : step .start b = firstByte b := by
  have hneeded : Decoder.start.needed = 0 := rfl
  rw [step, if_pos hneeded]

theorem firstByte_one (h : b ≤ 0x7f) : firstByte b = ([Char.ofNat b], .start) := by
  rw [firstByte, if_pos h]

theorem firstByte_two (hlower : 0xc2 ≤ b) (hupper : b ≤ 0xdf) :
    firstByte b = ([], ⟨b - 0xc0, 1, 0x80, 0xbf⟩) := by
  rw [firstByte, if_neg (by omega), if_pos ⟨hlower, hupper⟩]

theorem firstByte_three (hlower : 0xe0 ≤ b) (hupper : b ≤ 0xef) : firstByte b =
    ([], ⟨b - 0xe0, 2, if b = 0xe0 then 0xa0 else 0x80, if b = 0xed then 0x9f else 0xbf⟩) := by
  rw [firstByte, if_neg (by omega), if_neg (by omega), if_pos ⟨hlower, hupper⟩]

theorem firstByte_four (hlower : 0xf0 ≤ b) (hupper : b ≤ 0xf4) : firstByte b =
    ([], ⟨b - 0xf0, 3, if b = 0xf0 then 0x90 else 0x80, if b = 0xf4 then 0x8f else 0xbf⟩) := by
  rw [firstByte, if_neg (by omega), if_neg (by omega), if_neg (by omega), if_pos ⟨hlower, hupper⟩]

/-- A character's bytes are decoded to it, in each of the four lengths. -/
theorem decodeFrom_char (c : Char) (rest : List UInt8) :
    decodeFrom .start (String.utf8EncodeChar c ++ rest) = c :: decodeFrom .start rest := by
  have hrange := Utf16.char_range c
  have hchar : ∀ n, n = c.toNat → Char.ofNat n = c := by
    rintro n rfl
    exact Char.ofNat_toNat c
  unfold String.utf8EncodeChar
  rw [Char.toNat] at hrange hchar
  generalize c.val.toNat = v at hrange hchar
  dsimp only
  split_ifs with hone htwo hthree
  · rw [List.singleton_append, decodeFrom_cons _ (by omega), step_start, firstByte_one hone, hchar _ rfl]
    rfl
  · rw [List.cons_append, List.singleton_append, decodeFrom_cons _ (by omega), step_start,
      firstByte_two (by omega) (by omega), decodeFrom_cons _ (by omega), step_last (by omega) (by omega),
      hchar _ (by omega)]
    rfl
  · have hlower : (if v / 4096 % 0x10 + 0xe0 = 0xe0 then 0xa0 else 0x80) ≤ v / 64 % 0x40 + 0x80 := by
      split_ifs <;> omega
    have hupper : v / 64 % 0x40 + 0x80 ≤ if v / 4096 % 0x10 + 0xe0 = 0xed then 0x9f else 0xbf := by
      split_ifs <;> omega
    rw [List.cons_append, List.cons_append, List.singleton_append, decodeFrom_cons _ (by omega), step_start,
      firstByte_three (by omega) (by omega), decodeFrom_cons _ (by omega), step_more hlower hupper,
      decodeFrom_cons _ (by omega), step_last (by omega) (by omega), hchar _ (by omega)]
    rfl
  · have hlower : (if v / 262144 % 0x08 + 0xf0 = 0xf0 then 0x90 else 0x80) ≤ v / 4096 % 0x40 + 0x80 := by
      split_ifs <;> omega
    have hupper : v / 4096 % 0x40 + 0x80 ≤ if v / 262144 % 0x08 + 0xf0 = 0xf4 then 0x8f else 0xbf := by
      split_ifs <;> omega
    rw [List.cons_append, List.cons_append, List.cons_append, List.singleton_append,
      decodeFrom_cons _ (by omega), step_start, firstByte_four (by omega) (by omega),
      decodeFrom_cons _ (by omega), step_more hlower hupper, decodeFrom_cons _ (by omega),
      step_more (by omega) (by omega), decodeFrom_cons _ (by omega), step_last (by omega) (by omega),
      hchar _ (by omega)]
    rfl

theorem decode_utf8 (text : List Char) : decode (utf8 text) = text := by
  induction text with
  | nil => rfl
  | cons c text ih =>
    rw [decode, utf8_cons, decodeFrom_char]
    exact congrArg (c :: ·) ih

end Text

/-- A byte that starts no character is replaced, and the text goes on after it. -/
example : decode [0x61, 0xff, 0xe2, 0x82, 0xac] = ['a', REPLACEMENT, '€'] := by
  decide

end Utf8
