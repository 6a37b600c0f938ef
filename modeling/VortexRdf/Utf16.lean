/-
Strings of UTF-16 units, the texts they hold and the bytes those are written as.

Any units make a string; a surrogate without its other half stands for U+FFFD wherever the
string is read as a text.

* `chars`, `utf16` — the text of some units, and the units of a text;
* `chars_utf16` — a text's units read back;
* `chars_ascii` — units whose text is ASCII are its characters;
* `length_utf8_chars` — at most three bytes a unit;
* `encodeInto` — the bytes of a text that fit, whole characters only;
* `fromUtf8` — bytes that are a text, validated.
-/
import Mathlib.Tactic

namespace Utf16

/-! ### Units -/

def isHigh (u : UInt16) : Bool := 0xd800 ≤ u && u ≤ 0xdbff

def isLow (u : UInt16) : Bool := 0xdc00 ≤ u && u ≤ 0xdfff

def isSurrogate (u : UInt16) : Bool := 0xd800 ≤ u && u ≤ 0xdfff

/-- A unit by itself. -/
def lone (u : UInt16) : Char := if isSurrogate u then Char.ofNat 0xfffd else Char.ofNat u.toNat

/-- A surrogate and its other half. -/
def pair (high low : UInt16) : Char :=
  Char.ofNat (0x10000 + (high.toNat - 0xd800) * 0x400 + (low.toNat - 0xdc00))

/-- The text some units are. -/
def chars : List UInt16 → List Char
  | [] => []
  | [u] => [lone u]
  | u :: v :: units =>
    if isHigh u && isLow v then pair u v :: chars units else lone u :: chars (v :: units)

theorem chars_singleton (u : UInt16) : chars [u] = [lone u] := by rw [chars]

def utf16Char (c : Char) : List UInt16 :=
  if c.toNat < 0x10000 then [UInt16.ofNat c.toNat]
  else
    [UInt16.ofNat (0xd800 + (c.toNat - 0x10000) / 0x400),
      UInt16.ofNat (0xdc00 + (c.toNat - 0x10000) % 0x400)]

def utf16 (text : List Char) : List UInt16 := text.flatMap utf16Char

/-! ### A text's units -/

theorem toNat_ofNat16 {n : ℕ} (h : n < 0x10000) : (UInt16.ofNat n).toNat = n :=
  UInt16.toNat_ofNat_of_lt' h

theorem isHigh_iff (u : UInt16) : isHigh u = true ↔ 0xd800 ≤ u.toNat ∧ u.toNat ≤ 0xdbff := by
  rw [isHigh, Bool.and_eq_true, decide_eq_true_eq, decide_eq_true_eq, UInt16.le_iff_toNat_le,
    UInt16.le_iff_toNat_le]
  rfl

theorem isLow_iff (u : UInt16) : isLow u = true ↔ 0xdc00 ≤ u.toNat ∧ u.toNat ≤ 0xdfff := by
  rw [isLow, Bool.and_eq_true, decide_eq_true_eq, decide_eq_true_eq, UInt16.le_iff_toNat_le,
    UInt16.le_iff_toNat_le]
  rfl

theorem isSurrogate_iff (u : UInt16) :
    isSurrogate u = true ↔ 0xd800 ≤ u.toNat ∧ u.toNat ≤ 0xdfff := by
  rw [isSurrogate, Bool.and_eq_true, decide_eq_true_eq, decide_eq_true_eq, UInt16.le_iff_toNat_le,
    UInt16.le_iff_toNat_le]
  rfl

theorem char_range (c : Char) : c.toNat < 0xd800 ∨ 0xdfff < c.toNat ∧ c.toNat < 0x110000 := c.valid

theorem toNat_ofNat_char {n : ℕ} (h : n < 0xd800 ∨ 0xdfff < n ∧ n < 0x110000) :
    (Char.ofNat n).toNat = n := by
  rw [Char.ofNat, dif_pos h]
  rfl

/-- A unit that is no surrogate, before any others. -/
theorem chars_lone {u : UInt16} (h : isSurrogate u = false) (units : List UInt16) :
    chars (u :: units) = Char.ofNat u.toNat :: chars units := by
  have hlone : lone u = Char.ofNat u.toNat := by rw [lone, h, if_neg Bool.false_ne_true]
  cases units with
  | nil =>
    rw [chars_singleton, hlone]
    rfl
  | cons v units =>
    have hhigh : isHigh u = false := by
      rw [← Bool.not_eq_true, isHigh_iff]
      rw [← Bool.not_eq_true, isSurrogate_iff] at h
      omega
    rw [chars, hhigh, Bool.false_and, if_neg Bool.false_ne_true, hlone]

theorem chars_utf16Char (c : Char) (units : List UInt16) :
    chars (utf16Char c ++ units) = c :: chars units := by
  have hrange := char_range c
  rw [utf16Char]
  split_ifs with hplane
  · have hunit : (UInt16.ofNat c.toNat).toNat = c.toNat := toNat_ofNat16 hplane
    have hscalar : isSurrogate (UInt16.ofNat c.toNat) = false := by
      rw [← Bool.not_eq_true, isSurrogate_iff, hunit]
      omega
    rw [List.singleton_append, chars_lone hscalar, hunit, Char.ofNat_toNat]
  · -- past the first plane: two surrogates, which are one character again
    have hhigh : (UInt16.ofNat (0xd800 + (c.toNat - 0x10000) / 0x400)).toNat =
        0xd800 + (c.toNat - 0x10000) / 0x400 := toNat_ofNat16 (by omega)
    have hlow : (UInt16.ofNat (0xdc00 + (c.toNat - 0x10000) % 0x400)).toNat =
        0xdc00 + (c.toNat - 0x10000) % 0x400 := toNat_ofNat16 (by omega)
    have hisHigh := (isHigh_iff (UInt16.ofNat (0xd800 + (c.toNat - 0x10000) / 0x400))).mpr
      (by rw [hhigh]; omega)
    have hisLow := (isLow_iff (UInt16.ofNat (0xdc00 + (c.toNat - 0x10000) % 0x400))).mpr
      (by rw [hlow]; omega)
    have hpair : 0x10000 + (0xd800 + (c.toNat - 0x10000) / 0x400 - 0xd800) * 0x400 +
        (0xdc00 + (c.toNat - 0x10000) % 0x400 - 0xdc00) = c.toNat := by omega
    rw [List.cons_append, List.singleton_append, chars, hisHigh, hisLow, Bool.true_and, if_pos rfl,
      pair, hhigh, hlow, hpair, Char.ofNat_toNat]

/-- A text's units are read back to it. -/
theorem chars_utf16_append (text : List Char) (units : List UInt16) :
    chars (utf16 text ++ units) = text ++ chars units := by
  induction text with
  | nil => rfl
  | cons c text ih =>
    rw [utf16, List.flatMap_cons, List.append_assoc, chars_utf16Char, ← utf16, ih, List.cons_append]

theorem chars_utf16 (text : List Char) : chars (utf16 text) = text := by
  have happend := chars_utf16_append text []
  rwa [List.append_nil, chars, List.append_nil] at happend

/-- Units whose text is ASCII are its characters, one by one. -/
theorem chars_ascii {units : List UInt16} {text : List Char} (h : chars units = text)
    (hascii : ∀ c ∈ text, c.toNat < 0x80) : units = utf16 text := by
  have hlone : ∀ u : UInt16, (lone u).toNat < 0x80 → [u] = utf16Char (lone u) := by
    intro u hu
    by_cases hsurrogate : isSurrogate u = true
    · rw [lone, if_pos hsurrogate] at hu
      exact absurd hu (by decide)
    · have hscalar : u.toNat < 0xd800 ∨ 0xdfff < u.toNat ∧ u.toNat < 0x110000 := by
        rw [isSurrogate_iff] at hsurrogate
        have hlt := u.toNat_lt
        omega
      have hchar : (lone u).toNat = u.toNat := by
        rw [lone, if_neg hsurrogate, toNat_ofNat_char hscalar]
      rw [utf16Char, hchar, if_pos (by omega), UInt16.ofNat_toNat]
  induction units using chars.induct generalizing text with
  | case1 =>
    rw [← h]
    rfl
  | case2 u =>
    rw [← h]
    show [u] = utf16Char (lone u) ++ []
    rw [List.append_nil]
    exact hlone u (hascii (lone u) (h ▸ List.mem_singleton_self _))
  | case3 u v units hpair ih =>
    rw [chars, if_pos hpair] at h
    rw [Bool.and_eq_true, isHigh_iff, isLow_iff] at hpair
    have hwide := hascii (pair u v) (h ▸ List.mem_cons_self)
    rw [pair, toNat_ofNat_char (by omega)] at hwide
    omega
  | case4 u v units hpair ih =>
    rw [chars, if_neg hpair] at h
    have hfirst := hlone u (hascii (lone u) (h ▸ List.mem_cons_self))
    have hrest := ih rfl fun c hc => hascii c (h ▸ List.mem_cons_of_mem _ hc)
    rw [← h, utf16, List.flatMap_cons, ← utf16, ← hrest, ← hfirst]
    rfl

/-! ### Bytes -/

def utf8 (text : List Char) : List UInt8 := text.flatMap String.utf8EncodeChar

theorem utf8_cons (c : Char) (text : List Char) :
    utf8 (c :: text) = String.utf8EncodeChar c ++ utf8 text := rfl

/-- A unit by itself takes three bytes at most. -/
theorem utf8Size_lone (u : UInt16) : (lone u).utf8Size ≤ 3 := by
  have hplane : (lone u).val ≤ 0xffff := by
    rw [UInt32.le_iff_toNat_le]
    show (lone u).toNat ≤ 0xffff
    rw [lone]
    split_ifs with hsurrogate
    · decide
    · have hlt := u.toNat_lt
      rw [isSurrogate_iff] at hsurrogate
      rw [toNat_ofNat_char (by omega)]
      omega
  rw [Char.utf8Size]
  split_ifs with hone htwo hthree
  · decide
  · decide
  · decide
  · exact absurd hplane hthree

theorem length_utf8_chars (units : List UInt16) : (utf8 (chars units)).length ≤ 3 * units.length := by
  induction units using chars.induct with
  | case1 => exact Nat.zero_le _
  | case2 u =>
    have hsize := utf8Size_lone u
    rw [← String.length_utf8EncodeChar] at hsize
    show (String.utf8EncodeChar (lone u) ++ []).length ≤ 3
    rwa [List.append_nil]
  | case3 u v units hpair ih =>
    have hsize := Char.utf8Size_le_four (pair u v)
    rw [← String.length_utf8EncodeChar] at hsize
    rw [chars, if_pos hpair, utf8_cons, List.length_append, List.length_cons, List.length_cons]
    omega
  | case4 u v units hpair ih =>
    have hsize := utf8Size_lone u
    rw [← String.length_utf8EncodeChar] at hsize
    rw [List.length_cons] at ih
    rw [chars, if_neg hpair, utf8_cons, List.length_append, List.length_cons, List.length_cons]
    omega

/-- The bytes of a text that fit so much room, whole characters only. -/
def encodeInto : List Char → ℕ → List UInt8
  | [], _ => []
  | c :: text, room =>
    if (String.utf8EncodeChar c).length ≤ room then
      String.utf8EncodeChar c ++ encodeInto text (room - (String.utf8EncodeChar c).length)
    else []

theorem encodeInto_eq {text : List Char} {room : ℕ} (h : (utf8 text).length ≤ room) :
    encodeInto text room = utf8 text := by
  induction text generalizing room with
  | nil => rfl
  | cons c text ih =>
    rw [utf8_cons, List.length_append] at h
    rw [encodeInto, if_pos (by omega), ih (by omega), utf8_cons]

/-- The bytes, where they are a text. -/
def fromUtf8 (bytes : List UInt8) : Option (List UInt8) :=
  if bytes.toByteArray.validateUTF8 then some bytes else none

theorem fromUtf8_utf8 (text : List Char) : fromUtf8 (utf8 text) = some (utf8 text) := by
  have hvalid : (utf8 text).toByteArray.validateUTF8 = true := by
    rw [ByteArray.validateUTF8_eq_true_iff]
    exact ByteArray.isValidUTF8_utf8Encode
  rw [fromUtf8, if_pos hvalid]

end Utf16
