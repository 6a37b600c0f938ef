/-
The JS parser reads a stored spelling as the term it spells.

* `UnitForm`, `unescapeLoop_form` — a character's escape in UTF-16 units, undone;
* `unescape_body` — the escaped value of a literal, read back;
* `ownParts` — a term's own parts;
* `parseNt_own` — the spelling of a stored term is parsed to them.
-/
import VortexRdf.LazyTerms

namespace LazyRdf

open Dictionary Programs Store Terms
open Utf16 (utf16 utf16Char)

/-! ### Units of a text -/

/-- The units of bytes that are a text. -/
def jsString (s : Str) : Units := utf16 (Utf8.decode s)

theorem jsString_utf8 (text : List Char) : jsString (utf8 text) = utf16 text := by
  rw [jsString]
  exact congrArg utf16 (Utf8.decode_utf8 text)

theorem utf16_cons (c : Char) (text : List Char) : utf16 (c :: text) = utf16Char c ++ utf16 text := rfl

theorem utf16_append (text text' : List Char) : utf16 (text ++ text') = utf16 text ++ utf16 text' :=
  List.flatMap_append

theorem utf16_inj {text text' : List Char} (h : utf16 text = utf16 text') : text = text' := by
  rw [← Utf16.chars_utf16 text, h, Utf16.chars_utf16]

/-- An ASCII unit of a character is the whole of it. -/
theorem char_of_unit {c : Char} {u : UInt16} (h : u ∈ utf16Char c) (hu : u.toNat < 0x80) :
    c.toNat = u.toNat := by
  rw [utf16Char] at h
  split_ifs at h with hplane
  · rw [List.mem_singleton.mp h, Utf16.toNat_ofNat16 hplane]
  · have hrange := Utf16.char_range c
    simp only [List.mem_cons, List.not_mem_nil, or_false] at h
    rcases h with rfl | rfl
    · rw [Utf16.toNat_ofNat16 (by omega)] at hu
      omega
    · rw [Utf16.toNat_ofNat16 (by omega)] at hu
      omega

theorem unit_notMem {text : List Char} {u : UInt16} (hu : u.toNat < 0x80)
    (h : ∀ c ∈ text, c.toNat ≠ u.toNat) : u ∉ utf16 text := by
  intro hmem
  obtain ⟨c, hc, hunit⟩ := List.mem_flatMap.mp hmem
  exact h c hc (char_of_unit hunit hu)

theorem utf16Char_ascii {c : Char} (h : c.toNat < 0x80) : utf16Char c = [UInt16.ofNat c.toNat] := by
  rw [utf16Char, if_pos (by omega)]

/-- A text without a byte, which is ASCII, has not its unit. -/
theorem unit_notMem_utf8 {text : List Char} {b : UInt8} {u : UInt16} (hb : b < 0x80)
    (hu : u.toNat = b.toNat) (h : b ∉ utf8 text) : u ∉ utf16 text := by
  have hb' : b.toNat < 0x80 := UInt8.lt_iff_toNat_lt.mp hb
  refine unit_notMem (hu.trans_lt hb') fun c hc heq => h ?_
  refine List.mem_flatMap.mpr ⟨c, hc, ?_⟩
  rw [utf8EncodeChar_of_ascii (by omega), List.mem_singleton, heq, hu, UInt8.ofNat_toNat]

/-! ### String functions -/

section Strings

variable {body rest : Units} {u v : UInt16}

theorem findIdx?_reverse (h : u ∉ rest) :
    (body ++ u :: rest).reverse.findIdx? (· == u) = some rest.length := by
  rw [List.reverse_append, List.reverse_cons, List.append_assoc, List.singleton_append,
    List.findIdx?_append]
  have hnone : rest.reverse.findIdx? (· == u) = none := by
    rw [List.findIdx?_eq_none_iff]
    intro w hw
    rw [beq_eq_false_iff_ne]
    rintro rfl
    exact h (List.mem_reverse.mp hw)
  rw [hnone, Option.none_or, List.findIdx?_cons, beq_self_eq_true, if_pos rfl, Option.map_some,
    List.length_reverse, Nat.zero_add]

/-- The last place of a unit that is not in what follows it. -/
theorem lastIndexOf_eq (h : u ∉ rest) : lastIndexOf (body ++ u :: rest) u = body.length := by
  rw [lastIndexOf, findIdx?_reverse h]
  simp only [List.length_append, List.length_cons]
  push_cast
  ring

theorem clampIndex_of_le {len n : ℕ} (h : n ≤ len) : clampIndex len n = n := by
  rw [clampIndex, if_neg (by omega), Int.toNat_natCast, Nat.min_eq_left h]

theorem clampIndex_one {len : ℕ} (h : 1 ≤ len) : clampIndex len 1 = 1 := by
  rw [← Nat.cast_one]
  exact clampIndex_of_le h

theorem slice_between : slice (v :: body ++ u :: rest) 1 (v :: body).length = body := by
  have hone : clampIndex (v :: body ++ u :: rest).length 1 = 1 :=
    clampIndex_one (by rw [List.length_append, List.length_cons]; omega)
  rw [slice, hone, clampIndex_of_le (by rw [List.length_append]; omega), List.take_left]
  rfl

theorem sliceFrom_after : sliceFrom (body ++ u :: rest) ((body.length : ℤ) + 1) = rest := by
  have hcast : ((body.length : ℤ) + 1) = ((body.length + 1 : ℕ) : ℤ) := by push_cast; rfl
  rw [sliceFrom, hcast, clampIndex_of_le (by rw [List.length_append, List.length_cons]; omega),
    ← List.drop_drop, List.drop_left]
  rfl

/-- All but the first units and the last one. -/
theorem slice_enclosed {front : Units} : slice (front ++ body ++ [u]) front.length (-1) = body := by
  have hstop : clampIndex (front ++ body ++ [u]).length (-1) = (front ++ body).length := by
    rw [clampIndex, if_pos (by omega), List.length_append, List.length_singleton]
    omega
  have hstart : clampIndex (front ++ body ++ [u]).length front.length = front.length :=
    clampIndex_of_le (by rw [List.length_append, List.length_append]; omega)
  rw [slice, hstop, hstart, List.take_left, List.drop_left]

theorem sliceFrom_front {front : Units} : sliceFrom (front ++ rest) front.length = rest := by
  rw [sliceFrom, clampIndex_of_le (by rw [List.length_append]; omega), List.drop_left]

end Strings

/-! ### Hexadecimal numbers -/

section Numbers

variable {digits : Units}

theorem notWhite : ∀ u ∈ WHITE, hexDigit u = none := by
  simp [WHITE, hexDigit, toDigit]

/-- Units that are all hexadecimal digits are the number they write. -/
theorem parseHex_digits (hne : digits ≠ []) (h : ∀ u ∈ digits, (hexDigit u).isSome = true) :
    parseHex digits = some ((digitsValue digits : ℕ) : ℤ) := by
  obtain ⟨u, rest, rfl⟩ := List.exists_cons_of_ne_nil hne
  have hu := h u List.mem_cons_self
  -- a hexadecimal digit is no white space, sign or `x`
  have hnot : ∀ w : UInt16, hexDigit w = none → u ≠ w := by
    rintro w hw rfl
    rw [hw] at hu
    cases hu
  have hwhite : WHITE.elem u = false := by
    rw [← Bool.not_eq_true]
    intro hmem
    exact hnot u (notWhite u (List.elem_iff.mp hmem)) rfl
  have hdrop : (u :: rest).dropWhile (WHITE.elem ·) = u :: rest := by
    rw [List.dropWhile_cons, hwhite]
    rfl
  have hminus : ¬(u :: rest).head? = some 0x2d := fun heq => hnot 0x2d (by decide) (Option.some.inj heq)
  have hplus : ¬(u :: rest).head? = some 0x2b := fun heq => hnot 0x2b (by decide) (Option.some.inj heq)
  have hunsigned : unsigned (u :: rest) = u :: rest := by
    rw [unsigned, if_neg (not_or.mpr ⟨hminus, hplus⟩)]
  have hunprefixed : unprefixed (u :: rest) = u :: rest := by
    rw [unprefixed, if_neg]
    have hx : ∀ w : UInt16, hexDigit w = none → (u :: rest).take 2 ≠ [0x30, w] := by
      intro w hw heq
      have hmem : w ∈ (u :: rest).take 2 := heq ▸ List.mem_cons_of_mem _ List.mem_cons_self
      have hsome := h w (List.mem_of_mem_take hmem)
      rw [hw] at hsome
      cases hsome
    exact not_or.mpr ⟨hx 0x78 (by decide), hx 0x58 (by decide)⟩
  have hall : (u :: rest).takeWhile (fun u => (hexDigit u).isSome) = u :: rest :=
    List.takeWhile_eq_self_iff.mpr h
  rw [parseHex]
  simp only [hdrop, hunsigned, hunprefixed, hall]
  rw [if_neg hne, if_neg hminus]

theorem hexDigit_byte {b : UInt8} (h : (toDigit b).isSome = true) :
    hexDigit (UInt16.ofNat b.toNat) = toDigit b := by
  have hb : b.toNat < 0x80 := UInt8.lt_iff_toNat_lt.mp (toDigit_ascii h)
  have hu : (UInt16.ofNat b.toNat).toNat = b.toNat := Utf16.toNat_ofNat16 (by omega)
  have hlt : UInt16.ofNat b.toNat < 0x80 := by
    rw [UInt16.lt_iff_toNat_lt, hu]
    exact hb
  rw [hexDigit, if_pos hlt]
  congr 1
  rw [← UInt8.toNat_inj, UInt16.toNat_toUInt8, hu]
  omega

/-- The digits a number was written in, as units. -/
def digitUnits (digits : Str) : Units := digits.map fun b => UInt16.ofNat b.toNat

theorem digitUnits_some {digits : Str} (h : ∀ b ∈ digits, (toDigit b).isSome = true) :
    ∀ u ∈ digitUnits digits, (hexDigit u).isSome = true := by
  intro u hu
  obtain ⟨b, hb, rfl⟩ := List.mem_map.mp hu
  rw [hexDigit_byte (h b hb)]
  exact h b hb

theorem foldl_digits {digits : Str} {value n : ℕ}
    (h : digits.foldlM (fun value d => (toDigit d).map fun digit => value * 16 + digit) value = some n) :
    (digitUnits digits).foldl (fun value u => value * 16 + (hexDigit u).getD 0) value = n := by
  induction digits generalizing value with
  | nil => exact Option.some.inj h
  | cons b digits ih =>
    have hsome := toDigit_of_mem h b List.mem_cons_self
    rw [List.foldlM_cons] at h
    obtain ⟨value', hvalue, hrest⟩ := Option.bind_eq_some_iff.mp h
    obtain ⟨digit, hdigit, rfl⟩ := Option.map_eq_some_iff.mp hvalue
    rw [digitUnits, List.map_cons, List.foldl_cons, hexDigit_byte hsome, hdigit, Option.getD_some]
    exact ih hrest

theorem parseHex_hexValue {digits : Str} {n : ℕ} (hne : digits ≠ []) (h : hexValue digits = some n) :
    parseHex (digitUnits digits) = some (n : ℤ) := by
  have hne' : digitUnits digits ≠ [] := fun hnil => hne (List.map_eq_nil_iff.mp hnil)
  rw [parseHex_digits hne' (digitUnits_some (toDigit_of_mem h)), digitsValue, foldl_digits h]

theorem digitUnits_utf16 {digits : Str} (h : ∀ b ∈ digits, b < 0x80) :
    ∃ text, digits = utf8 text ∧ utf16 text = digitUnits digits := by
  refine ⟨digits.map fun b => Char.ofNat b.toNat, ?_, ?_⟩
  · induction digits with
    | nil => rfl
    | cons b digits ih =>
      have hb : b.toNat < 0x80 := UInt8.lt_iff_toNat_lt.mp (h b List.mem_cons_self)
      have hc : (Char.ofNat b.toNat).toNat = b.toNat := Utf16.toNat_ofNat_char (Or.inl (by omega))
      rw [List.map_cons, utf8_cons, utf8EncodeChar_of_ascii (hc.trans_lt hb), hc, UInt8.ofNat_toNat,
        ← ih fun d hd => h d (List.mem_cons_of_mem _ hd)]
      rfl
  · rw [utf16, List.flatMap_map, digitUnits, ← List.flatMap_pure_eq_map]
    refine List.flatMap_congr fun b hb => ?_
    have hb' : b.toNat < 0x80 := UInt8.lt_iff_toNat_lt.mp (h b hb)
    have hc : (Char.ofNat b.toNat).toNat = b.toNat := Utf16.toNat_ofNat_char (Or.inl (by omega))
    rw [utf16Char_ascii (hc.trans_lt hb'), hc]
    rfl

end Numbers

/-! ### Escapes undone -/

/-- The units a character may take inside a quoted literal. -/
inductive UnitForm (c : Char) : Units → Prop
  | plain (hslash : BACKSLASH_UNIT ∉ utf16Char c) : UnitForm c (utf16Char c)
  | letter (n : UInt16) (hu : n ≠ 0x75) (hU : n ≠ 0x55) (h : [letterEscape n] = utf16Char c) :
      UnitForm c [BACKSLASH_UNIT, n]
  | short (digits : Str) (hlen : digits.length = 4) (h : hexValue digits = some c.toNat) :
      UnitForm c (BACKSLASH_UNIT :: 0x75 :: digitUnits digits)
  | long (digits : Str) (hlen : digits.length = 8) (h : hexValue digits = some c.toNat) :
      UnitForm c (BACKSLASH_UNIT :: 0x55 :: digitUnits digits)

/-- The escaped units of a text. -/
inductive Body : List Char → Units → Prop
  | nil : Body [] []
  | cons {c : Char} {text : List Char} {piece rest : Units} (hpiece : UnitForm c piece)
      (hrest : Body text rest) : Body (c :: text) (piece ++ rest)

section Escapes

variable {c : Char} {fuel : ℕ} {rest : Units}

theorem map_map_ok {e : Except JsError Units} (front front' : Units) :
    (e.map (front' ++ ·)).map (front ++ ·) = e.map ((front ++ front') ++ ·) := by
  cases e with
  | error error => rfl
  | ok s => exact congrArg Except.ok (List.append_assoc _ _ _).symm

theorem unescapeLoop_unit {u : UInt16} (h : u ≠ BACKSLASH_UNIT) :
    unescapeLoop (fuel + 1) (u :: rest) = (unescapeLoop fuel rest).map (u :: ·) := by
  cases rest <;> rw [unescapeLoop, if_pos h]

/-- Units without a backslash stay as they are. -/
theorem unescapeLoop_plain {front : Units} (h : BACKSLASH_UNIT ∉ front)
    (hfuel : (front ++ rest).length < fuel) : ∃ fuel', rest.length < fuel' ∧
      unescapeLoop fuel (front ++ rest) = (unescapeLoop fuel' rest).map (front ++ ·) := by
  induction front generalizing fuel with
  | nil =>
    refine ⟨fuel, hfuel, ?_⟩
    rw [List.nil_append]
    cases unescapeLoop fuel rest <;> rfl
  | cons u front ih =>
    rw [List.mem_cons, not_or] at h
    rw [List.cons_append, List.length_cons] at hfuel
    obtain ⟨fuel, rfl⟩ : ∃ n, fuel = n + 1 := ⟨fuel - 1, by omega⟩
    obtain ⟨fuel', hfuel', hloop⟩ := @ih fuel h.2 (by omega)
    refine ⟨fuel', hfuel', ?_⟩
    rw [List.cons_append, unescapeLoop_unit (Ne.symm h.1), hloop]
    exact map_map_ok [u] front

theorem fromCharCode_nat {n : ℕ} (h : n < 0x10000) : fromCharCode (some (n : ℤ)) = [UInt16.ofNat n] := by
  have hmod : (n : ℤ) % 65536 = n := Int.emod_eq_of_lt (by omega) (by omega)
  rw [fromCharCode, Option.getD_some, hmod, Int.toNat_natCast]

theorem fromCodePoint_char (c : Char) : fromCodePoint (some (c.toNat : ℤ)) = .ok (utf16Char c) := by
  have hrange := Utf16.char_range c
  have hvalid : ¬((c.toNat : ℤ) < 0 ∨ 0x10ffff < (c.toNat : ℤ)) := by omega
  rw [fromCodePoint, if_neg hvalid, utf16Char, Int.toNat_natCast]
  by_cases hplane : c.toNat < 0x10000
  · rw [if_pos (by omega), if_pos hplane]
  · rw [if_neg (by omega), if_neg hplane]

theorem foldl_lt {digits : Units} {value : ℕ} (h : ∀ u ∈ digits, (hexDigit u).getD 0 < 16) :
    digits.foldl (fun value u => value * 16 + (hexDigit u).getD 0) value <
      (value + 1) * 16 ^ digits.length := by
  induction digits generalizing value with
  | nil => exact (Nat.lt_succ_self value).trans_eq (Nat.mul_one _).symm
  | cons u digits ih =>
    have hu := h u List.mem_cons_self
    have hrest := @ih (value * 16 + (hexDigit u).getD 0) fun w hw => h w (List.mem_cons_of_mem _ hw)
    rw [List.foldl_cons, List.length_cons, Nat.pow_succ, Nat.mul_comm (16 ^ digits.length), ← Nat.mul_assoc]
    exact hrest.trans_le (Nat.mul_le_mul_right _ (by omega))

/-- Four digits write a unit. -/
theorem short_lt {digits : Str} {n : ℕ} (hlen : digits.length = 4) (h : hexValue digits = some n) :
    n < 0x10000 := by
  have hdigit : ∀ b : UInt8, (toDigit b).getD 0 < 16 := by
    intro b
    rw [toDigit]
    split_ifs with h₁ h₂ h₃
    · have hle := UInt8.le_iff_toNat_le.mp h₁.2
      have hlow := UInt8.le_iff_toNat_le.mp h₁.1
      simp at hle hlow ⊢
      omega
    · have hle := UInt8.le_iff_toNat_le.mp h₂.2
      have hlow := UInt8.le_iff_toNat_le.mp h₂.1
      simp at hle hlow ⊢
      omega
    · have hle := UInt8.le_iff_toNat_le.mp h₃.2
      have hlow := UInt8.le_iff_toNat_le.mp h₃.1
      simp at hle hlow ⊢
      omega
    · exact Nat.succ_pos 15
  have hunits : ∀ u ∈ digitUnits digits, (hexDigit u).getD 0 < 16 := by
    intro u hu
    obtain ⟨b, hb, rfl⟩ := List.mem_map.mp hu
    rw [hexDigit_byte (toDigit_of_mem h b hb)]
    exact hdigit b
  have hlt := @foldl_lt (digitUnits digits) 0 hunits
  rw [foldl_digits h, digitUnits, List.length_map, hlen] at hlt
  omega

/-- A character's escape, in whatever form, is undone. -/
theorem unescapeLoop_form {piece : Units} (h : UnitForm c piece)
    (hfuel : (piece ++ rest).length < fuel) : ∃ fuel', rest.length < fuel' ∧
      unescapeLoop fuel (piece ++ rest) = (unescapeLoop fuel' rest).map (utf16Char c ++ ·) := by
  cases h with
  | plain hslash => exact unescapeLoop_plain hslash hfuel
  | letter n hu hU h =>
    rw [List.length_append, List.length_cons, List.length_singleton] at hfuel
    obtain ⟨fuel, rfl⟩ : ∃ n, fuel = n + 1 := ⟨fuel - 1, by omega⟩
    refine ⟨fuel, by omega, ?_⟩
    rw [List.cons_append, List.singleton_append, unescapeLoop, if_neg (not_not.mpr rfl)]
    rw [if_neg hu, if_neg hU, ← h]
    rfl
  | short digits hlen h =>
    have hdigits : (digitUnits digits).length = 4 := (List.length_map _).trans hlen
    rw [List.length_append, List.length_cons, List.length_cons, hdigits] at hfuel
    obtain ⟨fuel, rfl⟩ : ∃ n, fuel = n + 1 := ⟨fuel - 1, by omega⟩
    -- four digits of one unit
    have hne : digits ≠ [] := List.ne_nil_of_length_pos (by omega)
    have hlt := short_lt hlen h
    refine ⟨fuel, by omega, ?_⟩
    rw [List.cons_append, List.cons_append, unescapeLoop, if_neg (not_not.mpr rfl)]
    rw [if_pos rfl, ← hdigits, List.take_left, List.drop_left, parseHex_hexValue hne h,
      fromCharCode_nat hlt, utf16Char, if_pos hlt]
  | long digits hlen h =>
    have hdigits : (digitUnits digits).length = 8 := (List.length_map _).trans hlen
    have hU : ¬(0x55 : UInt16) = 0x75 := by decide
    rw [List.length_append, List.length_cons, List.length_cons, hdigits] at hfuel
    obtain ⟨fuel, rfl⟩ : ∃ n, fuel = n + 1 := ⟨fuel - 1, by omega⟩
    have hne : digits ≠ [] := List.ne_nil_of_length_pos (by omega)
    refine ⟨fuel, by omega, ?_⟩
    rw [List.cons_append, List.cons_append, unescapeLoop, if_neg (not_not.mpr rfl)]
    rw [if_neg hU, if_pos rfl, ← hdigits, List.take_left, List.drop_left, parseHex_hexValue hne h,
      fromCodePoint_char]
    rfl

theorem unescapeLoop_body {text : List Char} {body : Units} (h : Body text body)
    (hfuel : body.length < fuel) : unescapeLoop fuel body = .ok (utf16 text) := by
  induction h generalizing fuel with
  | nil =>
    obtain ⟨fuel, rfl⟩ : ∃ n, fuel = n + 1 := ⟨fuel - 1, by omega⟩
    rfl
  | cons hpiece hrest ih =>
    obtain ⟨fuel', hfuel', hloop⟩ := unescapeLoop_form hpiece hfuel
    rw [hloop, ih hfuel']
    rfl

theorem unescape_body {text : List Char} {body : Units} (h : Body text body) :
    unescape body = .ok (utf16 text) := by
  have hloop := unescapeLoop_body h (Nat.lt_succ_self body.length)
  rw [unescape]
  split_ifs with hslash
  · exact hloop
  · -- nothing is escaped, and the loop would copy it
    have hfuel : (body ++ []).length < body.length + 1 := by
      rw [List.append_nil]
      exact Nat.lt_succ_self _
    obtain ⟨fuel', hfuel', hplain⟩ := unescapeLoop_plain hslash hfuel
    obtain ⟨fuel'', rfl⟩ : ∃ n, fuel' = n + 1 := ⟨fuel' - 1, by omega⟩
    rw [List.append_nil] at hplain
    rw [← hloop, hplain]
    exact congrArg Except.ok (List.append_nil body).symm

end Escapes

/-! ### A literal's units -/

section Literals

variable {ox : Oxrdf}

theorem slash_notMem {c : Char} (h : c ≠ '\x5c') : BACKSLASH_UNIT ∉ utf16Char c := by
  intro hmem
  have htoNat := char_of_unit hmem (by decide)
  exact h (Char.toNat_inj.mp (htoNat.trans (by decide)))

theorem letter_form {l c : Char} (h : (l, c) ∈ ECHARS) : UnitForm c (utf16 ['\x5c', l]) := by
  simp only [ECHARS, List.mem_cons, Prod.mk.injEq, List.not_mem_nil, or_false] at h
  rcases h with ⟨rfl, rfl⟩ | ⟨rfl, rfl⟩ | ⟨rfl, rfl⟩ | ⟨rfl, rfl⟩ | ⟨rfl, rfl⟩ | ⟨rfl, rfl⟩ |
    ⟨rfl, rfl⟩ | ⟨rfl, rfl⟩ <;> exact .letter _ (by decide) (by decide) (by decide)

/-- A character's escape is a text, of units that are undone to it. -/
theorem escapeForm_units {c : Char} {e : Str} (h : EscapeForm c e) :
    ∃ text, e = utf8 text ∧ UnitForm c (utf16 text) := by
  cases h with
  | plain hquote hslash =>
    refine ⟨[c], rfl, ?_⟩
    rw [utf16_cons, show utf16 [] = [] from rfl, List.append_nil]
    exact .plain (slash_notMem hslash)
  | letter l h => exact ⟨_, rfl, letter_form h⟩
  | short digits hlen h =>
    obtain ⟨text, htext, hunits⟩ := digitUnits_utf16 fun b hb => toDigit_ascii (toDigit_of_mem h b hb)
    refine ⟨['\x5c', 'u'] ++ text, ?_, ?_⟩
    · rw [utf8_append, ← htext]
    · rw [utf16_append, hunits]
      exact .short digits hlen h
  | long digits hlen h =>
    obtain ⟨text, htext, hunits⟩ := digitUnits_utf16 fun b hb => toDigit_ascii (toDigit_of_mem h b hb)
    refine ⟨['\x5c', 'U'] ++ text, ?_, ?_⟩
    · rw [utf8_append, ← htext]
    · rw [utf16_append, hunits]
      exact .long digits hlen h

theorem escape_body (ox : Oxrdf) (text : List Char) :
    ∃ chars, text.flatMap ox.escape = utf8 chars ∧ Body text (utf16 chars) := by
  induction text with
  | nil => exact ⟨[], rfl, .nil⟩
  | cons c text ih =>
    obtain ⟨chars, hchars, hbody⟩ := ih
    obtain ⟨piece, hpiece, hform⟩ := escapeForm_units (ox.escape_form c)
    refine ⟨piece ++ chars, ?_, ?_⟩
    · rw [List.flatMap_cons, hpiece, hchars, utf8_append]
    · rw [utf16_append]
      exact .cons hform hbody

/-- A quoted value as a text. -/
theorem quoted_text (ox : Oxrdf) (text : List Char) : ∃ chars,
    ox.quoted (utf8 text) = utf8 ('\x22' :: chars ++ ['\x22']) ∧ Body text (utf16 chars) := by
  obtain ⟨chars, hchars, hbody⟩ := escape_body ox text
  refine ⟨chars, ?_, hbody⟩
  rw [ox.quoted_utf8, hchars, utf8_append, utf8_cons]
  rfl

/-- A literal is parsed by its last quote, as nothing behind it holds one. -/
theorem parseNt_literal {text chars suffix : List Char} (hbody : Body text (utf16 chars))
    (hsuffix : QUOTE_UNIT ∉ utf16 suffix) :
    parseNt (utf16 ('\x22' :: chars ++ ['\x22'] ++ suffix)) =
      .ok (literalParts (utf16 text) (utf16 suffix)) := by
  have hunits : utf16 ('\x22' :: chars ++ ['\x22'] ++ suffix) =
      QUOTE_UNIT :: utf16 chars ++ QUOTE_UNIT :: utf16 suffix := by
    rw [List.append_assoc, utf16_append, utf16_cons, List.singleton_append, utf16_cons]
    rfl
  have hlast := @lastIndexOf_eq (QUOTE_UNIT :: utf16 chars) (utf16 suffix) QUOTE_UNIT hsuffix
  have hnot : ¬QUOTE_UNIT = 0x3c ∧ ¬QUOTE_UNIT = 0x5f := by decide
  rw [hunits, parseNt]
  simp only [List.cons_append, List.head?_cons]
  rw [if_neg hnot.1, if_neg hnot.2, ← List.cons_append, hlast, slice_between, unescape_body hbody,
    sliceFrom_after]
  rfl

end Literals

/-! ### A term's parts -/

/-- A Rust string: its bytes are a text. -/
def IsText (s : Str) : Prop := ∃ text, s = utf8 text

def Texts : Term → Prop
  | .namedNode n => IsText n.iri
  | .blankNode b => IsText b.id
  | .literal (.simple value) => IsText value
  | .literal (.languageTagged value language) => IsText value ∧ IsText language
  | .literal (.typed value datatype) => IsText value ∧ IsText datatype.iri

/-- What a column holds: a term, or the default graph. -/
abbrev Stored : Type := Option Term

def spelling (ox : Oxrdf) : Stored → Str
  | none => []
  | some t => t.toStr ox

/-- A stored term is one the library accepts, of strings that are texts. -/
def Valid (ox : Oxrdf) (t : Stored) : Prop := ∀ t' ∈ t, t'.Accepted ox ∧ Texts t'

/-- No IRI the library accepts holds a quote, nor does a language tag, which is not empty. -/
structure QuoteFree (ox : Oxrdf) : Prop where
  iri : ∀ iri, ox.iriError iri = none → QUOTE ∉ iri
  language : ∀ tag tag', ox.languageTag tag = .ok tag' → QUOTE ∉ tag' ∧ tag' ≠ []

def literalOwn : Literal → Parsed
  | .simple value => ⟨.literal, jsString value, some [], some XSD_STRING_UNITS⟩
  | .languageTagged value language =>
    ⟨.literal, jsString value, some (jsString language), some RDF_LANG_STRING_UNITS⟩
  | .typed value datatype => ⟨.literal, jsString value, some [], some (jsString datatype.iri)⟩

/-- A term's own parts. -/
def ownParts : Stored → Parsed
  | none => ⟨.defaultGraph, [], none, none⟩
  | some (.namedNode n) => ⟨.namedNode, jsString n.iri, none, none⟩
  | some (.blankNode b) => ⟨.blankNode, jsString b.id, none, none⟩
  | some (.literal l) => literalOwn l

section Parts

variable {ox : Oxrdf} {t u : Stored}

theorem quote_notMem {text : List Char} (h : QUOTE ∉ utf8 text) : QUOTE_UNIT ∉ utf16 text :=
  unit_notMem_utf8 (by decide) rfl h

/-- The spelling of a literal is a text that is parsed to its parts. -/
theorem parseNt_literalOwn (hox : QuoteFree ox) {l : Literal} (hl : l.Accepted ox)
    (htexts : Texts (.literal l)) :
    ∃ text, l.toStr ox = utf8 text ∧ parseNt (utf16 text) = .ok (literalOwn l) := by
  cases l with
  | simple value =>
    obtain ⟨text, rfl⟩ := htexts
    obtain ⟨chars, hchars, hbody⟩ := quoted_text ox text
    refine ⟨'\x22' :: chars ++ ['\x22'] ++ [], ?_, ?_⟩
    · rw [List.append_nil]
      exact hchars
    · rw [parseNt_literal hbody List.not_mem_nil, literalOwn, jsString_utf8]
      rfl
  | languageTagged value language =>
    obtain ⟨⟨text, rfl⟩, ⟨lang, rfl⟩⟩ := htexts
    obtain ⟨chars, hchars, hbody⟩ := quoted_text ox text
    have hquote := quote_notMem (hox.language _ _ hl.2).1
    have hsuffix : QUOTE_UNIT ∉ utf16 ('@' :: lang) := by
      rw [utf16_cons, List.mem_append, not_or]
      exact ⟨by decide, hquote⟩
    refine ⟨'\x22' :: chars ++ ['\x22'] ++ '@' :: lang, ?_, ?_⟩
    · rw [utf8_append, utf8_cons, ← hchars]
      rfl
    · -- the tag is what follows the `@`
      have hslice : sliceFrom (utf16 ('@' :: lang)) 1 = utf16 lang :=
        @sliceFrom_front (utf16 lang) [0x40]
      have hhead : (utf16 ('@' :: lang)).head? = some 0x40 := rfl
      rw [parseNt_literal hbody hsuffix, literalParts, if_pos hhead, literalOwn, hslice, jsString_utf8,
        jsString_utf8]
  | typed value datatype =>
    obtain ⟨iri⟩ := datatype
    obtain ⟨⟨text, rfl⟩, ⟨iri, rfl⟩⟩ := htexts
    obtain ⟨chars, hchars, hbody⟩ := quoted_text ox text
    have hquote := quote_notMem (hox.iri _ hl.2.1)
    have hunits : utf16 (['^', '^', '<'] ++ iri ++ ['>']) = [0x5e, 0x5e, 0x3c] ++ utf16 iri ++ [0x3e] := by
      rw [utf16_append, utf16_append]
      rfl
    have hsuffix : QUOTE_UNIT ∉ utf16 (['^', '^', '<'] ++ iri ++ ['>']) := by
      rw [hunits, List.mem_append, List.mem_append, not_or, not_or]
      exact ⟨⟨by decide, hquote⟩, by decide⟩
    refine ⟨'\x22' :: chars ++ ['\x22'] ++ (['^', '^', '<'] ++ iri ++ ['>']), ?_, ?_⟩
    · rw [utf8_append, ← hchars, utf8_append, utf8_append, Literal.toStr, namedNodeString,
        List.append_assoc]
      rfl
    · -- the datatype is what stands between `^^<` and the last unit
      have hslice : slice ([0x5e, 0x5e, 0x3c] ++ utf16 iri ++ [0x3e]) 3 (-1) = utf16 iri :=
        @slice_enclosed (utf16 iri) 0x3e [0x5e, 0x5e, 0x3c]
      have hprefix : (units "^^<").isPrefixOf ([0x5e, 0x5e, 0x3c] ++ utf16 iri ++ [0x3e]) = true := by
        rw [List.isPrefixOf_iff_prefix, List.append_assoc]
        exact List.prefix_append _ _
      have hhead : ¬([0x5e, 0x5e, 0x3c] ++ utf16 iri ++ [0x3e]).head? = some 0x40 := by
        rw [List.append_assoc, List.cons_append, List.head?_cons]
        decide
      rw [parseNt_literal hbody hsuffix, hunits, literalParts, if_neg hhead, if_pos hprefix, literalOwn,
        hslice, jsString_utf8, jsString_utf8]

/-- The spelling of a stored term is a text that is parsed to its parts. -/
theorem parseNt_own (hox : QuoteFree ox) (ht : Valid ox t) :
    ∃ text, spelling ox t = utf8 text ∧ parseNt (utf16 text) = .ok (ownParts t) := by
  cases t with
  | none => exact ⟨[], rfl, rfl⟩
  | some t =>
    obtain ⟨haccepted, htexts⟩ := ht t rfl
    cases t with
    | namedNode n =>
      obtain ⟨iri⟩ := n
      obtain ⟨iri, rfl⟩ := htexts
      have hunits : utf16 (['<'] ++ iri ++ ['>']) = [0x3c] ++ utf16 iri ++ [0x3e] := by
        rw [utf16_append, utf16_append]
        rfl
      refine ⟨['<'] ++ iri ++ ['>'], ?_, ?_⟩
      · rw [utf8_append, utf8_append]
        rfl
      · have hslice : slice ([0x3c] ++ utf16 iri ++ [0x3e]) 1 (-1) = utf16 iri :=
          @slice_enclosed (utf16 iri) 0x3e [0x3c]
        rw [hunits, parseNt, ownParts, jsString_utf8]
        simp only [List.cons_append, List.nil_append, List.head?_cons, if_pos] at hslice ⊢
        rw [hslice]
    | blankNode b =>
      obtain ⟨id⟩ := b
      obtain ⟨id, rfl⟩ := htexts
      have hunits : utf16 (['_', ':'] ++ id) = [0x5f, 0x3a] ++ utf16 id := by
        rw [utf16_append]
        rfl
      have hne : ¬(0x5f : UInt16) = 0x3c := by decide
      refine ⟨['_', ':'] ++ id, ?_, ?_⟩
      · rw [utf8_append]
        rfl
      · have hslice : sliceFrom ([0x5f, 0x3a] ++ utf16 id) 2 = utf16 id :=
          @sliceFrom_front (utf16 id) [0x5f, 0x3a]
        rw [hunits, parseNt, ownParts, jsString_utf8]
        simp only [List.cons_append, List.nil_append, List.head?_cons] at hslice ⊢
        rw [if_neg hne, if_pos trivial, hslice]
    | literal l => exact parseNt_literalOwn hox haccepted htexts

end Parts

end LazyRdf
