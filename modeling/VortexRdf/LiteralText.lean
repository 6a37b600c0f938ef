/-
Literals between quotes: where they end, and what their escapes say.

* `findQuote_eq` — the word-wise search finds the first quote;
* `EscapedBody` — text in which every quote is escaped; `closingQuote_eq`: the
  closing quote is the one right behind it;
* `splitLiteral_simple`, `splitLiteral_language`, `splitLiteral_typed` — the
  three literal shapes split back into value and suffix;
* `escapedBody_of_text`, `unescape_of_text` — a text written in any of the forms
  of N-Triples is such a body, and decodes to the text.
-/
import VortexRdf.Terms

namespace Terms

open Swar

/-! ### The first quote -/

theorem asChunks_spec : ∀ {count : ℕ} {b : Str}, 8 * count ≤ b.length →
    (asChunks count b).1.flatten ++ (asChunks count b).2 = b ∧
      (∀ word ∈ (asChunks count b).1, word.length = 8) ∧ (asChunks count b).1.length = count
  | 0, b, _ => ⟨rfl, by simp [asChunks], rfl⟩
  | count + 1, b, h => by
    obtain ⟨hjoin, hwords, hlen⟩ :=
      asChunks_spec (show 8 * count ≤ (b.drop 8).length by rw [List.length_drop]; omega)
    refine ⟨?_, ?_, by simp [asChunks, hlen]⟩
    · simp only [asChunks, List.flatten_cons, List.append_assoc, hjoin, List.take_append_drop]
    · intro word hword
      rcases List.mem_cons.mp hword with rfl | hword
      · rw [List.length_take]
        omega
      · exact hwords word hword

theorem findInWords_eq {words : List Str} (h : ∀ word ∈ words, word.length = 8) (i : ℕ) :
    findInWords words i = (words.flatten.findIdx? (· == QUOTE)).map fun k => i * 8 + k := by
  induction words generalizing i with
  | nil => rfl
  | cons word words ih =>
    have hlen := h word List.mem_cons_self
    have hfirst := firstEqual_eq hlen QUOTE
    have hrest := ih (fun w hw => h w (List.mem_cons_of_mem _ hw)) (i + 1)
    rw [List.flatten_cons, List.findIdx?_append, ← hfirst]
    simp only [findInWords]
    split_ifs with hzeros
    · rfl
    · rw [hrest, Option.none_or, Option.map_map]
      congr 1
      funext k
      rw [Function.comp_apply, hlen]
      omega

theorem findQuote_eq (b : Str) : findQuote b = b.findIdx? (· == QUOTE) := by
  obtain ⟨hjoin, hwords, hlen⟩ := asChunks_spec (show 8 * (b.length / 8) ≤ b.length by omega)
  have hflat : (asChunks (b.length / 8) b).1.flatten.length = (b.length / 8) * 8 := by
    rw [List.length_flatten, List.map_eq_replicate_iff.mpr hwords, List.sum_replicate, hlen,
      smul_eq_mul]
  conv_rhs => rw [← hjoin]
  rw [List.findIdx?_append, findQuote]
  simp only [findInWords_eq hwords, Nat.zero_mul, Nat.zero_add, Option.map_id', hflat, hlen]
  cases List.findIdx? (· == QUOTE) (asChunks (b.length / 8) b).1.flatten with
  | some place => rfl
  | none =>
    rw [Option.none_or]
    exact Option.map_congr fun k _ => Nat.add_comm _ _

/-! ### The closing quote -/

/-- Whether the backslashes at the end of `l` are odd in number. -/
def afterSlash (l : Str) : Bool := l.foldl (fun odd b => b == BACKSLASH && !odd) false

theorem afterSlash_append_one (l : Str) (b : UInt8) :
    afterSlash (l ++ [b]) = (b == BACKSLASH && !afterSlash l) := by
  rw [afterSlash, List.foldl_append]
  rfl

theorem runStart_le (b : Str) (place : ℕ) : runStart b place ≤ place := by
  induction place with
  | zero => exact le_rfl
  | succ place ih =>
    rw [runStart]
    split_ifs
    · omega
    · exact le_rfl

/-- The parity of the backslash run the scan counts. -/
theorem runStart_parity {b : Str} (hhead : b.head? ≠ some BACKSLASH) {place : ℕ}
    (hplace : place ≤ b.length) :
    (place - runStart b place) % 2 = 1 ↔ afterSlash (b.take place) = true := by
  induction place with
  | zero => simp [runStart, afterSlash]
  | succ place ih =>
    have hlt : place < b.length := hplace
    have htake : b.take (place + 1) = b.take place ++ [b[place]] := by
      rw [List.take_add_one, List.getElem?_eq_getElem hlt]
      rfl
    have hle := runStart_le b place
    have ih' := ih hlt.le
    rw [htake, afterSlash_append_one, runStart]
    by_cases hslash : b[place]? = some BACKSLASH
    · have hbyte : b[place] = BACKSLASH := by
        rwa [List.getElem?_eq_getElem hlt, Option.some_inj] at hslash
      have hpos : 1 < place + 1 := by
        by_contra hzero
        obtain rfl : place = 0 := by omega
        exact hhead (by rw [List.head?_eq_getElem?, hslash])
      rw [if_pos ⟨hpos, hslash⟩, hbyte, Nat.succ_sub hle]
      cases hodd : afterSlash (b.take place) with
      | true =>
        have := ih'.mpr hodd
        simp
        omega
      | false =>
        have : ¬ (place - runStart b place) % 2 = 1 := fun h => by simp [ih'.mp h] at hodd
        simp
        omega
    · have hbyte : b[place] ≠ BACKSLASH := fun h =>
        hslash (by rw [List.getElem?_eq_getElem hlt, h])
      rw [if_neg (fun h => hslash h.2), Nat.sub_self]
      simp [hbyte]

theorem closingQuoteLoop_eq {b : Str} (hhead : b.head? ≠ some BACKSLASH) {stop : ℕ}
    (hstop : b[stop]? = some QUOTE) (heven : afterSlash (b.take stop) = false) :
    ∀ {fuel start : ℕ}, start ≤ stop → stop < start + fuel →
      (∀ j, start ≤ j → j < stop → b[j]? = some QUOTE → afterSlash (b.take j) = true) →
      closingQuoteLoop b fuel start = some stop := by
  intro fuel
  have hlen : stop < b.length := (List.getElem?_eq_some_iff.mp hstop).1
  induction fuel with
  | zero => omega
  | succ fuel ih =>
    intro start hle hfuel hodd
    have hmem : (b.drop start)[stop - start]? = some QUOTE := by
      rw [List.getElem?_drop, Nat.add_sub_cancel' hle, hstop]
    rw [closingQuoteLoop, findQuote_eq]
    cases hfind : (b.drop start).findIdx? (· == QUOTE) with
    | none =>
      have hnone := List.findIdx?_eq_none_iff.mp hfind QUOTE (List.mem_of_getElem? hmem)
      simp at hnone
    | some offset =>
      obtain ⟨hoff, hquote, hbefore⟩ := List.findIdx?_eq_some_iff_getElem.mp hfind
      have hoffLe : offset ≤ stop - start := by
        by_contra hlt
        have hlt' : stop - start < offset := by omega
        have hne := hbefore (stop - start) hlt'
        rw [List.getElem?_eq_getElem (by omega), Option.some_inj] at hmem
        exact hne (by rw [hmem]; exact beq_self_eq_true _)
      have hat : b[start + offset]? = some QUOTE := by
        rw [← List.getElem?_drop, List.getElem?_eq_getElem hoff, beq_iff_eq.mp hquote]
      simp only
      have hparity := @runStart_parity b hhead (start + offset) (by omega)
      by_cases heq : start + offset = stop
      · rw [heq] at hparity ⊢
        rw [if_pos]
        have : ¬ (stop - runStart b stop) % 2 = 1 := fun h => by simp [hparity.mp h] at heven
        omega
      · have hskip := hparity.mpr (hodd (start + offset) (by omega) (by omega) hat)
        rw [if_neg (by omega)]
        exact ih (by omega) (by omega) fun j hj hjs hq => hodd j (by omega) hjs hq

/-- Text between quotes in which a backslash takes the byte behind it along, and
no other byte is a quote. -/
inductive EscapedBody : Str → Prop
  | nil : EscapedBody []
  | byte {b : UInt8} {rest : Str} (hquote : b ≠ QUOTE) (hslash : b ≠ BACKSLASH) :
      EscapedBody rest → EscapedBody (b :: rest)
  | pair {b : UInt8} {rest : Str} : EscapedBody rest → EscapedBody (BACKSLASH :: b :: rest)

theorem EscapedBody.append {a b : Str} (ha : EscapedBody a) (hb : EscapedBody b) :
    EscapedBody (a ++ b) := by
  induction ha with
  | nil => exact hb
  | byte hquote hslash _ ih => exact .byte hquote hslash ih
  | pair _ ih => exact .pair ih

theorem afterSlash_cons_of_ne {b : UInt8} (hb : b ≠ BACKSLASH) (l : Str) :
    afterSlash (b :: l) = afterSlash l := by
  simp [afterSlash, beq_eq_false_iff_ne.mpr hb]

theorem afterSlash_pair (b : UInt8) (l : Str) :
    afterSlash (BACKSLASH :: b :: l) = afterSlash l := by
  simp [afterSlash]

variable {e : Str}

/-- No backslash at the end of a body is left over. -/
theorem EscapedBody.even (h : EscapedBody e) : afterSlash e = false := by
  induction h with
  | nil => rfl
  | byte _ hslash _ ih => rw [afterSlash_cons_of_ne hslash, ih]
  | pair _ ih => rw [afterSlash_pair, ih]

/-- A quote inside a body is escaped. -/
theorem EscapedBody.odd (h : EscapedBody e) {before after : Str}
    (he : e = before ++ QUOTE :: after) : afterSlash before = true := by
  induction h generalizing before with
  | nil => simp at he
  | byte hquote hslash _ ih =>
    rcases before with _ | ⟨b, before⟩
    · exact absurd (List.cons.inj he).1 hquote
    · obtain ⟨rfl, htail⟩ := List.cons.inj he
      rw [afterSlash_cons_of_ne hslash, ih htail]
  | pair _ ih =>
    rcases before with _ | ⟨b, _ | ⟨c, before⟩⟩
    · exact absurd (List.cons.inj he).1 (by decide)
    · obtain ⟨rfl, -⟩ := List.cons.inj he
      rfl
    · obtain ⟨hb, htail⟩ := List.cons.inj he
      obtain ⟨-, htail⟩ := List.cons.inj htail
      rw [← hb, afterSlash_pair, ih htail]

theorem closingQuote_eq (he : EscapedBody e) (rest : Str) :
    closingQuote (QUOTE :: e ++ QUOTE :: rest) = some (e.length + 1) := by
  have htake : ∀ j, j ≤ e.length →
      (QUOTE :: e ++ QUOTE :: rest).take (j + 1) = QUOTE :: e.take j := by
    intro j hj
    rw [List.cons_append, List.take_succ_cons, List.take_append_of_le_length hj]
  have hquote : QUOTE ≠ BACKSLASH := by decide
  rw [closingQuote, if_pos (show (QUOTE :: e ++ QUOTE :: rest).head? = some QUOTE from rfl)]
  refine closingQuoteLoop_eq (by simp [hquote]) (by simp) ?_ (by omega) (by simp; omega) ?_
  · rw [htake _ le_rfl, List.take_length, afterSlash_cons_of_ne hquote, he.even]
  · intro j hj hjs hq
    obtain ⟨j, rfl⟩ := Nat.exists_eq_add_of_le' hj
    have hlt : j < e.length := by omega
    rw [htake j hlt.le, afterSlash_cons_of_ne hquote]
    have hat : e[j] = QUOTE := by
      simpa [List.getElem?_append_left, hlt] using hq
    have hsplit : e = e.take j ++ QUOTE :: e.drop (j + 1) := by
      rw [← hat, ← List.drop_eq_getElem_cons hlt, List.take_append_drop]
    exact he.odd hsplit

/-! ### Value and suffix -/

theorem splitLiteral_of_closing (he : EscapedBody e) (rest : Str) :
    splitLiteral (QUOTE :: e ++ QUOTE :: rest) = suffixForm e rest := by
  have hvalue : ((QUOTE :: e ++ QUOTE :: rest).drop 1).take (e.length + 1 - 1) = e := by
    rw [Nat.add_sub_cancel, List.cons_append, List.drop_one, List.tail_cons, List.take_left]
  have hrest : (QUOTE :: e ++ QUOTE :: rest).drop (e.length + 1 + 1) = rest := by
    rw [List.cons_append, List.drop_succ_cons, ← List.drop_drop, List.drop_left, List.drop_one,
      List.tail_cons]
  simp only [splitLiteral, closingQuote_eq he, hvalue, hrest]

theorem splitLiteral_simple (he : EscapedBody e) :
    splitLiteral (QUOTE :: e ++ [QUOTE]) = some (.simple e) := by
  rw [splitLiteral_of_closing he, suffixForm, if_pos rfl]

theorem splitLiteral_language (he : EscapedBody e) (lang : Str) :
    splitLiteral (QUOTE :: e ++ QUOTE :: 0x40 :: lang) = some (.language e lang) := by
  rw [splitLiteral_of_closing he, suffixForm, if_neg (List.cons_ne_nil _ _)]
  rfl

theorem splitLiteral_typed (he : EscapedBody e) (datatype : Str) :
    splitLiteral (QUOTE :: e ++ QUOTE :: 0x5e :: 0x5e :: datatype) =
      some (.typed e datatype) := by
  rw [splitLiteral_of_closing he, suffixForm, if_neg (List.cons_ne_nil _ _)]
  rfl

/-! ### Decoding -/

variable {c : Char}

theorem two_le_of_decodeEscape {rest : Str} {width : ℕ}
    (h : decodeEscape rest = some (c, width)) : 2 ≤ width := by
  cases rest with
  | nil => cases h
  | cons b rest =>
    rw [decodeEscape] at h
    split_ifs at h
    all_goals first
      | (obtain ⟨-, rfl⟩ := Prod.mk.inj (Option.some_inj.mp h); exact le_rfl)
      | (obtain ⟨d, -, hd⟩ := Option.map_eq_some_iff.mp h
         obtain ⟨-, rfl⟩ := Prod.mk.inj hd
         norm_num)

theorem text_cons {b : UInt8} (hb : b ≠ BACKSLASH) (s : Str) :
    (b :: s).takeWhile (· != BACKSLASH) = b :: s.takeWhile (· != BACKSLASH) := by
  simp [hb]

theorem unescapeLoop_text (escapes : Escapes) (fuel : ℕ) {b : UInt8} (hb : b ≠ BACKSLASH)
    (s : Str) : unescapeLoop escapes (fuel + 1) (b :: s) =
      (unescapeLoop escapes fuel (s.drop (s.takeWhile (· != BACKSLASH)).length)).map fun out =>
        b :: (s.takeWhile (· != BACKSLASH) ++ out) := by
  simp only [unescapeLoop, ne_eq, hb, not_false_eq_true, if_true, text_cons hb, List.length_cons,
    List.drop_succ_cons, List.cons_append]

theorem unescapeLoop_escape (escapes : Escapes) (fuel : ℕ) {rest : Str} {width : ℕ}
    (h : decodeEscape rest = some (c, width)) :
    unescapeLoop escapes (fuel + 1) (BACKSLASH :: rest) =
      (unescapeLoop escapes fuel ((BACKSLASH :: rest).drop width)).map fun out =>
        utf8 [c] ++ out := by
  simp only [unescapeLoop, ne_eq, not_true_eq_false, if_false, h]

theorem unescapeLoop_fuel (escapes : Escapes) {s : Str} : ∀ {fuel fuel' : ℕ},
    s.length < fuel → s.length < fuel' →
      unescapeLoop escapes fuel s = unescapeLoop escapes fuel' s := by
  induction hn : s.length using Nat.strong_induction_on generalizing s with
  | _ n ih =>
    intro fuel fuel' hfuel hfuel'
    obtain ⟨fuel, rfl⟩ := Nat.exists_eq_succ_of_ne_zero (by omega : fuel ≠ 0)
    obtain ⟨fuel', rfl⟩ := Nat.exists_eq_succ_of_ne_zero (by omega : fuel' ≠ 0)
    cases s with
    | nil => rfl
    | cons b rest =>
      rw [List.length_cons] at hn
      -- every turn leaves something shorter
      have hdrop : ∀ k, 0 < k → unescapeLoop escapes fuel ((b :: rest).drop k) =
          unescapeLoop escapes fuel' ((b :: rest).drop k) := by
        intro k hk
        have hlen : ((b :: rest).drop k).length < n := by
          rw [List.length_drop, List.length_cons]
          omega
        exact ih _ hlen rfl (by omega) (by omega)
      by_cases hb : b = BACKSLASH
      · subst hb
        cases hdec : decodeEscape rest with
        | some escape =>
          obtain ⟨c, width⟩ := escape
          have hwidth := two_le_of_decodeEscape hdec
          rw [unescapeLoop_escape _ _ hdec, unescapeLoop_escape _ _ hdec, hdrop width (by omega)]
        | none =>
          simp only [unescapeLoop, ne_eq, not_true_eq_false, if_false, hdec]
          cases escapes with
          | lenient => exact congrArg (Option.map fun out => BACKSLASH :: out) (hdrop 1 one_pos)
          | strict => rfl
      · rw [unescapeLoop_text _ _ hb, unescapeLoop_text _ _ hb, ← List.drop_succ_cons,
          hdrop _ (Nat.succ_pos _)]

/-- The decoding of a value, whatever it holds. -/
def decoded (escapes : Escapes) (s : Str) : Option Str := unescapeLoop escapes (s.length + 1) s

theorem decoded_nil (escapes : Escapes) : decoded escapes [] = some [] := rfl

/-- A byte that starts no escape is copied. -/
theorem decoded_byte (escapes : Escapes) {b : UInt8} (hb : b ≠ BACKSLASH) (s : Str) :
    decoded escapes (b :: s) = (decoded escapes s).map fun out => b :: out := by
  rw [decoded, unescapeLoop_text _ _ hb, List.length_cons]
  cases s with
  | nil => rfl
  | cons c s =>
    by_cases hc : c = BACKSLASH
    · subst hc
      rw [show (BACKSLASH :: s).takeWhile (· != BACKSLASH) = [] by simp]
      rfl
    · -- the text run goes on: one turn takes what two turns from `c` on would
      have hlen : (s.drop (s.takeWhile (· != BACKSLASH)).length).length ≤ s.length := by
        rw [List.length_drop]
        omega
      rw [decoded, unescapeLoop_text _ _ hc, text_cons hc, Option.map_map, List.length_cons,
        List.length_cons, List.drop_succ_cons,
        unescapeLoop_fuel escapes (Nat.lt_succ_of_le (Nat.le_succ_of_le hlen))
          (Nat.lt_succ_of_le hlen)]
      rfl

theorem decoded_bytes (escapes : Escapes) {bytes : Str} (h : ∀ b ∈ bytes, b ≠ BACKSLASH) (s : Str) :
    decoded escapes (bytes ++ s) = (decoded escapes s).map fun out => bytes ++ out := by
  induction bytes with
  | nil => simp
  | cons b bytes ih =>
    rw [List.cons_append, decoded_byte escapes (h b List.mem_cons_self),
      ih fun c hc => h c (List.mem_cons_of_mem _ hc), Option.map_map]
    rfl

/-- An escape gives its character. -/
theorem decoded_escape (escapes : Escapes) {rest : Str} {width : ℕ}
    (h : decodeEscape rest = some (c, width)) :
    decoded escapes (BACKSLASH :: rest) =
      (decoded escapes ((BACKSLASH :: rest).drop width)).map fun out => utf8 [c] ++ out := by
  have hwidth := two_le_of_decodeEscape h
  have hlen : ((BACKSLASH :: rest).drop width).length < rest.length + 1 := by
    rw [List.length_drop, List.length_cons]
    omega
  rw [decoded, unescapeLoop_escape _ _ h, decoded, List.length_cons,
    unescapeLoop_fuel escapes hlen (Nat.lt_succ_self _)]

theorem unescape_eq (escapes : Escapes) (s : Str) : unescape s escapes = decoded escapes s := by
  unfold unescape
  split_ifs with hmem
  · rfl
  · have h := decoded_bytes escapes (fun b hb => fun hbs => hmem (hbs ▸ hb) : ∀ b ∈ s, b ≠ BACKSLASH) []
    rw [List.append_nil, decoded_nil] at h
    rw [h, Option.map_some, List.append_nil]

/-! ### Texts in the forms of N-Triples -/

theorem charFromU32_toNat (c : Char) : charFromU32 c.toNat = some c := by
  rw [charFromU32, if_pos (show c.toNat.isValidChar from c.valid), Char.ofNat_toNat]

theorem hexEscape_append {digits : Str} (h : hexValue digits = some c.toNat) (s : Str) :
    hexEscape (digits ++ s) digits.length = some c := by
  rw [hexEscape, if_pos (by simp), List.take_left, h, Option.bind_some, charFromU32_toNat]

theorem plain_bytes (hquote : c ≠ '\x22') (hslash : c ≠ '\x5c') :
    ∀ b ∈ utf8 [c], b ≠ QUOTE ∧ b ≠ BACKSLASH := by
  intro b hb
  rw [utf8_cons, utf8_nil, List.append_nil] at hb
  constructor
  · rintro rfl
    have := char_of_ascii hb (by decide)
    exact hquote (Char.toNat_inj.mp (by rw [this]; rfl))
  · rintro rfl
    have := char_of_ascii hb (by decide)
    exact hslash (Char.toNat_inj.mp (by rw [this]; rfl))

theorem escapedBody_of_bytes {bytes : Str} (h : ∀ b ∈ bytes, b ≠ QUOTE ∧ b ≠ BACKSLASH) :
    EscapedBody bytes := by
  induction bytes with
  | nil => exact .nil
  | cons b bytes ih =>
    obtain ⟨hq, hs⟩ := h b List.mem_cons_self
    exact .byte hq hs (ih fun c hc => h c (List.mem_cons_of_mem _ hc))

theorem toDigit_of_mem {digits : Str} {value n : ℕ}
    (h : digits.foldlM (fun value d => (toDigit d).map fun digit => value * 16 + digit) value =
      some n) : ∀ d ∈ digits, (toDigit d).isSome = true := by
  induction digits generalizing value with
  | nil => simp
  | cons d digits ih =>
    intro e he
    rw [List.foldlM_cons] at h
    obtain ⟨value', hd, hrest⟩ := Option.bind_eq_some_iff.mp h
    rcases List.mem_cons.mp he with rfl | he
    · obtain ⟨digit, hdigit, -⟩ := Option.map_eq_some_iff.mp hd
      rw [hdigit]
      rfl
    · exact ih hrest e he

theorem digit_bytes {digits : Str} {n : ℕ} (h : hexValue digits = some n) :
    ∀ b ∈ digits, b ≠ QUOTE ∧ b ≠ BACKSLASH := by
  intro b hb
  have hsome := toDigit_of_mem h b hb
  constructor <;> rintro rfl <;> exact absurd hsome (by decide)

/-- A one-letter escape is a backslash and a byte that gives its character. -/
theorem letter_bytes {l : Char} (h : (l, c) ∈ ECHARS) :
    ∃ b, utf8 ['\x5c', l] = [BACKSLASH, b] ∧ ∀ rest, decodeEscape (b :: rest) = some (c, 2) := by
  simp only [ECHARS, List.mem_cons, Prod.mk.injEq, List.not_mem_nil, or_false] at h
  rcases h with ⟨rfl, rfl⟩ | ⟨rfl, rfl⟩ | ⟨rfl, rfl⟩ | ⟨rfl, rfl⟩ | ⟨rfl, rfl⟩ | ⟨rfl, rfl⟩ |
    ⟨rfl, rfl⟩ | ⟨rfl, rfl⟩ <;> exact ⟨_, rfl, fun _ => rfl⟩

theorem EscapeForm.escapedBody (h : EscapeForm c e) : EscapedBody e := by
  cases h with
  | plain hquote hslash => exact escapedBody_of_bytes (plain_bytes hquote hslash)
  | letter l h =>
    obtain ⟨b, hb, -⟩ := letter_bytes h
    rw [hb]
    exact .pair .nil
  | short digits _ h => exact .pair (escapedBody_of_bytes (digit_bytes h))
  | long digits _ h => exact .pair (escapedBody_of_bytes (digit_bytes h))

theorem EscapeForm.decoded (h : EscapeForm c e) (escapes : Escapes) (s : Str) :
    decoded escapes (e ++ s) = (Terms.decoded escapes s).map fun out => utf8 [c] ++ out := by
  cases h with
  | plain hquote hslash =>
    exact decoded_bytes escapes (fun b hb => (plain_bytes hquote hslash b hb).2) s
  | letter l h =>
    obtain ⟨b, hb, hdec⟩ := letter_bytes h
    rw [hb]
    exact decoded_escape escapes (hdec s)
  | short digits hlen h =>
    have hhex := hexEscape_append h s
    rw [hlen] at hhex
    have hdec : decodeEscape (0x75 :: (digits ++ s)) = some (c, 6) := by
      change (hexEscape (digits ++ s) 4).map _ = _
      rw [hhex]
      rfl
    have hdrop : (BACKSLASH :: 0x75 :: (digits ++ s)).drop 6 = s := by
      rw [List.drop_succ_cons, List.drop_succ_cons, ← hlen, List.drop_left]
    have hescape := decoded_escape escapes hdec
    rw [hdrop] at hescape
    exact hescape
  | long digits hlen h =>
    have hhex := hexEscape_append h s
    rw [hlen] at hhex
    have hdec : decodeEscape (0x55 :: (digits ++ s)) = some (c, 10) := by
      change (hexEscape (digits ++ s) 8).map _ = _
      rw [hhex]
      rfl
    have hdrop : (BACKSLASH :: 0x55 :: (digits ++ s)).drop 10 = s := by
      rw [List.drop_succ_cons, List.drop_succ_cons, ← hlen, List.drop_left]
    have hescape := decoded_escape escapes hdec
    rw [hdrop] at hescape
    exact hescape

variable {escape : Char → Str} (hescape : ∀ c, EscapeForm c (escape c))
include hescape

theorem escapedBody_of_text (text : List Char) : EscapedBody (text.flatMap escape) := by
  induction text with
  | nil => exact .nil
  | cons c text ih => exact (hescape c).escapedBody.append ih

theorem unescape_of_text (escapes : Escapes) (text : List Char) :
    unescape (text.flatMap escape) escapes = some (utf8 text) := by
  rw [unescape_eq]
  induction text with
  | nil => exact decoded_nil escapes
  | cons c text ih =>
    rw [List.flatMap_cons, (hescape c).decoded, ih, Option.map_some, ← utf8_append]
    rfl

end Terms
