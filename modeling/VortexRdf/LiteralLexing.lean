/-
Literals read exactly: the quote that closes one, the value and the suffix it
splits into, and the text its escapes stand for.

* `Closes`, `closingQuote_iff` — the scan stops at the first quote behind an even
  run of backslashes, on any bytes;
* `findQuote_iff` — the word-wise search from any start against a search byte by
  byte;
* `suffixForm_iff` — the three shapes, told apart by what follows the quote;
* `decoded_malformed`, `unescape_lenient_isSome` — a backslash that starts no
  escape;
* `literal_reads_exactly` — all of it, for every way a text may be escaped.
-/
import VortexRdf.LiteralText

namespace Terms

/-! ### The closing quote of any bytes -/

/-- How many backslashes end `l`. -/
def slashRun (l : Str) : ℕ := (l.reverse.takeWhile (· == BACKSLASH)).length

theorem slashRun_append_one (l : Str) (b : UInt8) :
    slashRun (l ++ [b]) = if b = BACKSLASH then slashRun l + 1 else 0 := by
  rw [slashRun, List.reverse_append, List.reverse_singleton, List.singleton_append]
  split_ifs with hb
  · rw [List.takeWhile_cons_of_pos (by simp [hb]), List.length_cons, slashRun]
  · rw [List.takeWhile_cons_of_neg (by simp [hb]), List.length_nil]

theorem afterSlash_iff (l : Str) : afterSlash l = true ↔ ¬ Even (slashRun l) := by
  induction l using List.reverseRecOn with
  | nil => simp [afterSlash, slashRun]
  | append_singleton l b ih =>
    rw [afterSlash_append_one, slashRun_append_one]
    split_ifs with hb
    · rw [Nat.even_add_one, not_not]
      cases hodd : afterSlash l with
      | true => simpa using ih.mp hodd
      | false => simpa [hb, hodd] using ih
    · simp [hb]

/-- A quote behind the opening one with an even number of backslashes directly
before it. -/
structure Closes (s : Str) (k : ℕ) : Prop where
  pos : 0 < k
  quote : s[k]? = some QUOTE
  even : Even (slashRun (s.take k))

theorem findQuote_iff (b : Str) (start k : ℕ) :
    (findQuote (b.drop start)).map (start + ·) = some k ↔
      start ≤ k ∧ b[k]? = some QUOTE ∧ ∀ j, start ≤ j → j < k → b[j]? ≠ some QUOTE := by
  rw [findQuote_eq, Option.map_eq_some_iff]
  constructor
  · rintro ⟨offset, hfind, rfl⟩
    obtain ⟨hoff, hquote, hbefore⟩ := List.findIdx?_eq_some_iff_getElem.mp hfind
    refine ⟨Nat.le_add_right _ _, ?_, ?_⟩
    · rw [← List.getElem?_drop, List.getElem?_eq_getElem hoff, beq_iff_eq.mp hquote]
    · intro j hj hjk hat
      obtain ⟨i, rfl⟩ := Nat.exists_eq_add_of_le hj
      have hi : i < offset := by omega
      rw [← List.getElem?_drop, List.getElem?_eq_getElem (by omega), Option.some_inj] at hat
      exact hbefore i hi (beq_iff_eq.mpr hat)
  · rintro ⟨hle, hquote, hbefore⟩
    obtain ⟨offset, rfl⟩ := Nat.exists_eq_add_of_le hle
    refine ⟨offset, ?_, rfl⟩
    rw [← List.getElem?_drop] at hquote
    obtain ⟨hoff, hquote⟩ := List.getElem?_eq_some_iff.mp hquote
    refine List.findIdx?_eq_some_iff_getElem.mpr ⟨hoff, beq_iff_eq.mpr hquote, ?_⟩
    intro i hi hat
    refine hbefore (start + i) (Nat.le_add_right _ _) (by omega) ?_
    rw [← List.getElem?_drop, List.getElem?_eq_getElem (by omega), beq_iff_eq.mp hat]

/-- What the scan returns closes, and nothing before it does. -/
theorem closingQuoteLoop_sound {b : Str} (hhead : b.head? ≠ some BACKSLASH) {k : ℕ} :
    ∀ {fuel start : ℕ}, 0 < start → closingQuoteLoop b fuel start = some k →
      start ≤ k ∧ Closes b k ∧ ∀ j, start ≤ j → j < k → ¬ Closes b j := by
  intro fuel
  induction fuel with
  | zero =>
    intro start _ h
    cases h
  | succ fuel ih =>
    intro start hpos h
    rw [closingQuoteLoop] at h
    cases hfind : findQuote (b.drop start) with
    | none =>
      rw [hfind] at h
      cases h
    | some offset =>
      rw [hfind] at h
      obtain ⟨hle, hquote, hbefore⟩ :=
        (findQuote_iff b start (start + offset)).mp (by rw [hfind]; rfl)
      have hlen : start + offset < b.length := (List.getElem?_eq_some_iff.mp hquote).1
      have hparity := runStart_parity hhead hlen.le
      rw [afterSlash_iff] at hparity
      dsimp only at h
      split_ifs at h with heven
      · obtain rfl := Option.some_inj.mp h
        refine ⟨hle, ⟨by omega, hquote, ?_⟩, fun j hj hjk hcl => hbefore j hj hjk hcl.quote⟩
        by_contra hodd
        have := hparity.mpr hodd
        omega
      · obtain ⟨hk, hcloses, hnone⟩ := ih (by omega) h
        refine ⟨by omega, hcloses, fun j hj hjk hcl => ?_⟩
        -- a quote of an odd run is skipped, and only that one
        rcases Nat.lt_trichotomy j (start + offset) with hlt | rfl | hgt
        · exact hbefore j hj hlt hcl.quote
        · exact hparity.mp (by omega) hcl.even
        · exact hnone j hgt hjk hcl

theorem closingQuote_iff (s : Str) (k : ℕ) :
    closingQuote s = some k ↔
      s.head? = some QUOTE ∧ Closes s k ∧ ∀ j, j < k → ¬ Closes s j := by
  rw [closingQuote]
  split_ifs with hquote
  · have hhead : s.head? ≠ some BACKSLASH := by
      rw [hquote]
      decide
    constructor
    · intro h
      obtain ⟨-, hcloses, hnone⟩ := closingQuoteLoop_sound hhead one_pos h
      exact ⟨hquote, hcloses, fun j hjk hcl => hnone j hcl.pos hjk hcl⟩
    · rintro ⟨-, hcloses, hnone⟩
      have hlen : k < s.length := (List.getElem?_eq_some_iff.mp hcloses.quote).1
      refine closingQuoteLoop_eq hhead hcloses.quote ?_ hcloses.pos (by omega) ?_
      · rw [Bool.eq_false_iff]
        intro hodd
        exact (afterSlash_iff _).mp hodd hcloses.even
      · intro j hj hjk hq
        rw [afterSlash_iff]
        intro heven
        exact hnone j hjk ⟨hj, hq, heven⟩
  · constructor
    · intro h
      cases h
    · rintro ⟨h, -, -⟩
      exact absurd h hquote

/-! ### Value and suffix of any literal -/

def LiteralForm.value : LiteralForm → Str
  | simple value => value
  | language value _ => value
  | typed value _ => value

/-- What follows the closing quote: nothing, `@` and the tag, or `^^` and the
datatype. -/
def LiteralForm.suffix : LiteralForm → Str
  | simple _ => []
  | language _ lang => 0x40 :: lang
  | typed _ datatype => 0x5e :: 0x5e :: datatype

theorem stripPrefix_eq_some {pat s rest : Str} :
    stripPrefix pat s = some rest ↔ s = pat ++ rest := by
  rw [stripPrefix]
  split_ifs with h
  · obtain ⟨tail, rfl⟩ := List.isPrefixOf_iff_prefix.mp h
    rw [List.drop_left, Option.some_inj]
    exact List.append_cancel_left_eq _ _ _ ▸ Iff.rfl
  · constructor
    · intro hnone
      cases hnone
    · rintro rfl
      exact absurd (List.isPrefixOf_iff_prefix.mpr (List.prefix_append _ _)) h

theorem suffixForm_iff (value rest : Str) (form : LiteralForm) :
    suffixForm value rest = some form ↔ value = form.value ∧ rest = form.suffix := by
  rw [suffixForm]
  split_ifs with hnil
  · subst hnil
    cases form <;> simp [LiteralForm.value, LiteralForm.suffix]
  · cases htyped : stripPrefix [0x5e, 0x5e] rest with
    | some datatype =>
      have hrest := stripPrefix_eq_some.mp htyped
      subst hrest
      cases form <;> simp [LiteralForm.value, LiteralForm.suffix]
    | none =>
      cases hlang : stripPrefix [0x40] rest with
      | some lang =>
        have hrest := stripPrefix_eq_some.mp hlang
        subst hrest
        cases form <;> simp [LiteralForm.value, LiteralForm.suffix]
      | none =>
        -- none of the shapes has this text behind its quote
        have htyped' : ∀ datatype, rest ≠ [0x5e, 0x5e] ++ datatype := fun datatype h => by
          rw [stripPrefix_eq_some.mpr h] at htyped
          cases htyped
        have hlang' : ∀ lang, rest ≠ [0x40] ++ lang := fun lang h => by
          rw [stripPrefix_eq_some.mpr h] at hlang
          cases hlang
        refine iff_of_false (by simp) ?_
        rintro ⟨-, hsuffix⟩
        cases form with
        | simple value => exact hnil hsuffix
        | language value lang => exact hlang' lang hsuffix
        | typed value datatype => exact htyped' datatype hsuffix

/-! ### Escapes of every form, and of none -/

section

variable {text : List Char} {pieces : List Str} (h : List.Forall₂ EscapeForm text pieces)
include h

theorem escapedBody_of_pieces : EscapedBody pieces.flatten := by
  induction h with
  | nil => exact .nil
  | cons hform _ ih => exact hform.escapedBody.append ih

theorem decoded_of_pieces (escapes : Escapes) (tail : Str) :
    decoded escapes (pieces.flatten ++ tail) =
      (decoded escapes tail).map fun out => utf8 text ++ out := by
  induction h with
  | nil => simp [utf8_nil]
  | @cons c piece text pieces hform _ ih =>
    rw [List.flatten_cons, List.append_assoc, hform.decoded, ih, Option.map_map]
    congr 1
    funext out
    rw [Function.comp_apply, ← List.append_assoc, ← utf8_append, List.singleton_append]

end

/-- A backslash that starts no escape ends the strict reading and is kept by the
lenient one, which goes on behind it. -/
theorem decoded_malformed {rest : Str} (h : decodeEscape rest = none) :
    decoded .strict (BACKSLASH :: rest) = none ∧
      decoded .lenient (BACKSLASH :: rest) =
        (decoded .lenient rest).map fun out => BACKSLASH :: out := by
  constructor
  · simp only [decoded, unescapeLoop, ne_eq, not_true_eq_false, if_false, h]
  · simp only [decoded, unescapeLoop, ne_eq, not_true_eq_false, if_false, h, List.length_cons]

theorem unescape_lenient_isSome (s : Str) : (unescape s .lenient).isSome = true := by
  rw [unescape_eq]
  induction hn : s.length using Nat.strong_induction_on generalizing s with
  | _ n ih =>
    cases s with
    | nil => rfl
    | cons b rest =>
      rw [List.length_cons] at hn
      by_cases hb : b = BACKSLASH
      · subst hb
        cases hdec : decodeEscape rest with
        | some escape =>
          obtain ⟨c, width⟩ := escape
          have hwidth := two_le_of_decodeEscape hdec
          rw [decoded_escape _ hdec, Option.isSome_map]
          exact ih _ (by rw [List.length_drop, List.length_cons]; omega) _ rfl
        | none =>
          rw [(decoded_malformed hdec).2, Option.isSome_map]
          exact ih _ (by omega) _ rfl
      · rw [decoded_byte _ hb, Option.isSome_map]
        exact ih _ (by omega) _ rfl

/-- **Literals read exactly.** Whatever form each character of a text takes between the
quotes, the literal ends at the quote behind them, splits into the escaped value and the suffix,
and the value decodes to the text under both policies; a backslash behind it that starts no escape
is refused or kept, never taken with what follows. The library's rendering is one such spelling.
The two searches meet their specifications on any bytes. -/
theorem literal_reads_exactly (text : List Char) (suffix : Str) :
    (∀ ox : Oxrdf, ∃ pieces, List.Forall₂ EscapeForm text pieces ∧
      ox.quoted (utf8 text) = QUOTE :: pieces.flatten ++ [QUOTE]) ∧
    (∀ pieces, List.Forall₂ EscapeForm text pieces →
      closingQuote (QUOTE :: pieces.flatten ++ QUOTE :: suffix) = some (pieces.flatten.length + 1) ∧
      (∀ form, splitLiteral (QUOTE :: pieces.flatten ++ QUOTE :: suffix) = some form ↔
        pieces.flatten = form.value ∧ suffix = form.suffix) ∧
      (∀ escapes, unescape pieces.flatten escapes = some (utf8 text)) ∧
      ∀ tail, decodeEscape tail = none →
        unescape (pieces.flatten ++ BACKSLASH :: tail) .strict = none ∧
        unescape (pieces.flatten ++ BACKSLASH :: tail) .lenient =
          (unescape tail .lenient).map fun out => utf8 text ++ BACKSLASH :: out) ∧
    (∀ s, (unescape s .lenient).isSome = true) ∧
    (∀ s k, closingQuote s = some k ↔
      s.head? = some QUOTE ∧ Closes s k ∧ ∀ j, j < k → ¬ Closes s j) ∧
    ∀ (b : Str) (start k : ℕ), (findQuote (b.drop start)).map (start + ·) = some k ↔
      start ≤ k ∧ b[k]? = some QUOTE ∧ ∀ j, start ≤ j → j < k → b[j]? ≠ some QUOTE := by
  refine ⟨fun ox => ?_, fun pieces h => ?_, unescape_lenient_isSome, closingQuote_iff,
    findQuote_iff⟩
  · refine ⟨text.map ox.escape, ?_, ox.quoted_utf8 text⟩
    rw [List.forall₂_map_right_iff]
    exact List.forall₂_same.mpr fun c _ => ox.escape_form c
  · have hbody := escapedBody_of_pieces h
    refine ⟨closingQuote_eq hbody suffix, fun form => ?_, fun escapes => ?_, fun tail htail => ?_⟩
    · rw [splitLiteral_of_closing hbody, suffixForm_iff]
    · have hdecoded := decoded_of_pieces h escapes []
      rw [List.append_nil, decoded_nil, Option.map_some, List.append_nil] at hdecoded
      rw [unescape_eq, hdecoded]
    · simp only [unescape_eq, decoded_of_pieces h, (decoded_malformed htail).1,
        (decoded_malformed htail).2, Option.map_map, Option.map_none, true_and]
      rfl

/-- `"\u0061"@en` -/
theorem literal_reads_exactly_letter :
    splitLiteral (QUOTE :: [0x5c, 0x75, 0x30, 0x30, 0x36, 0x31] ++ QUOTE :: [0x40, 0x65, 0x6e]) =
        some (.language [0x5c, 0x75, 0x30, 0x30, 0x36, 0x31] [0x65, 0x6e]) ∧
      unescape [0x5c, 0x75, 0x30, 0x30, 0x36, 0x31] .strict = some [0x61] := by
  have hform : EscapeForm 'a' [0x5c, 0x75, 0x30, 0x30, 0x36, 0x31] :=
    .short [0x30, 0x30, 0x36, 0x31] rfl rfl
  obtain ⟨-, hpieces, -⟩ := literal_reads_exactly ['a'] [0x40, 0x65, 0x6e]
  obtain ⟨-, hsplit, hunescape, -⟩ := hpieces _ (.cons hform .nil)
  exact ⟨(hsplit (.language _ [0x65, 0x6e])).mpr ⟨rfl, rfl⟩, hunescape .strict⟩

end Terms
