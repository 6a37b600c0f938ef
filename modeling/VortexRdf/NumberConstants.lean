/-
Numeric constants, parsed and written.

A constant is an N-Triples numeric literal, or a bare number typed by its syntax; it is
written as a literal of its model's datatype, which parses back to it.

* `trim` — a text without the white space at both ends;
* `Number.parse`, `Number.canonical` — the parser and the writer;
* `splitSign_append`, `splitDecimal_append` — a form taken apart as it was put together;
* `digitsValue_eq` — the value of digits, none exactly past `i128`;
* `parse_canonical` — an integer or decimal constant is read back as it is written.
-/
import VortexRdf.DecimalDigits
import VortexRdf.LiteralLexing
import VortexRdf.Numbers
import Mathlib.Data.List.TakeWhile

namespace Dictionary

open Terms

/-! ### Parsing and writing -/

/-- The characters of white space, in their bytes. -/
def WHITE_SPACE : List Str :=
  ([0x09, 0x0a, 0x0b, 0x0c, 0x0d, 0x20, 0x85, 0xa0, 0x1680] ++ List.range' 0x2000 11 ++
    [0x2028, 0x2029, 0x202f, 0x205f, 0x3000]).map fun n => utf8 [Char.ofNat n]

/-- A text without the pieces it starts with, at most one a byte. -/
def dropPieces (pieces : List Str) : ℕ → Str → Str
  | 0, s => s
  | fuel + 1, s =>
    match pieces.find? fun piece => piece.isPrefixOf s with
    | some piece => dropPieces pieces fuel (s.drop piece.length)
    | none => s

/-- `str::trim` -/
def trim (s : Str) : Str :=
  let rest := dropPieces WHITE_SPACE s.length s
  (dropPieces (WHITE_SPACE.map List.reverse) rest.length rest.reverse).reverse

section Constants

variable {fl : Floats}

/-- The lexical form a constant's argument gives, and the kind of number it is. -/
def constantForm (arg : Str) : Option (Str × NumKind) :=
  if arg.head? = some QUOTE then do
    let lit ← LiteralView.parse arg
    let kind ← numericKind (← lit.datatype)
    return (← lit.lexical, kind)
  else if 0x65 ∈ arg ∨ 0x45 ∈ arg then some (arg, .double)
  else if 0x2e ∈ arg then some (arg, .decimal)
  else some (arg, .int none none)

def Number.parse (arg : Str) : Option (Number fl) := do
  let (lexical, kind) ← constantForm (trim arg)
  match parseNumber lexical kind with
  | .value value => some ⟨value⟩
  | .unheld => none
  | .illTyped => none

def signOf (i : ℤ) : Str := if i < 0 then [0x2d] else []

/-- `i128::to_string` -/
def intToString (i : ℤ) : Str := signOf i ++ Decimal.ofNat i.natAbs

/-- A decimal's lexical form, its point set by the scale. -/
def decimalToString (mantissa : ℤ) (scale : ℕ) : Str :=
  let digits := Decimal.ofNat mantissa.natAbs
  if scale = 0 then signOf mantissa ++ digits
  else if scale < digits.length then
    signOf mantissa ++ digits.take (digits.length - scale) ++
      0x2e :: digits.drop (digits.length - scale)
  else signOf mantissa ++ [0x30] ++ 0x2e :: (List.replicate (scale - digits.length) 0x30 ++ digits)

/-- A literal of an XSD datatype. -/
def xsdLiteral (lexical : Str) (name : String) : Str :=
  QUOTE :: lexical ++ QUOTE :: ([0x5e, 0x5e, 0x3c] ++ XSD ++ utf8 name.toList ++ [0x3e])

/-- The constant as a literal of its model's datatype; floats in their `Debug` form. -/
def Number.canonical (debug32 : fl.F32 → Str) (debug64 : fl.F64 → Str) (number : Number fl) : Str :=
  match number.value with
  | .int i => xsdLiteral (intToString i) "integer"
  | .dec mantissa scale => xsdLiteral (decimalToString mantissa scale) "decimal"
  | .float f => xsdLiteral (debug32 f) "float"
  | .double f => xsdLiteral (debug64 f) "double"

/-! ### Forms taken apart -/

/-- An optional sign, `true` for `-`. -/
inductive Sign : Str → Bool → Prop where
  | none : Sign [] false
  | plus : Sign [0x2b] false
  | minus : Sign [0x2d] true

theorem sign_signOf (i : ℤ) : Sign (signOf i) (decide (i < 0)) := by
  unfold signOf
  by_cases h : i < 0
  · rw [if_pos h, decide_eq_true h]
    exact .minus
  · rw [if_neg h, decide_eq_false h]
    exact .none

theorem splitSign_append {sign body : Str} {neg : Bool} (hsign : Sign sign neg)
    (hbody : ∀ b ∈ body.head?, b ≠ 0x2b ∧ b ≠ 0x2d) : splitSign (sign ++ body) = (neg, body) := by
  cases hsign with
  | plus => simp [splitSign, stripPrefix]
  | minus => simp [splitSign, stripPrefix]
  | none =>
    cases body with
    | nil => rfl
    | cons b body =>
      obtain ⟨hplus, hminus⟩ := hbody b rfl
      simp [splitSign, stripPrefix, List.isPrefixOf, hplus.symm, hminus.symm]

theorem splitSign_spec (lexical : Str) :
    ∃ sign, Sign sign (splitSign lexical).1 ∧ lexical = sign ++ (splitSign lexical).2 := by
  unfold splitSign
  cases hminus : stripPrefix [0x2d] lexical with
  | some rest => exact ⟨[0x2d], .minus, stripPrefix_eq_some.mp hminus⟩
  | none =>
    cases hplus : stripPrefix [0x2b] lexical with
    | some rest => exact ⟨[0x2b], .plus, stripPrefix_eq_some.mp hplus⟩
    | none => exact ⟨[], .none, rfl⟩

theorem splitOnce_append {b : UInt8} {before : Str} (h : b ∉ before) (after : Str) :
    splitOnce b (before ++ b :: after) = some (before, after) := by
  have hfirst : before.findIdx? (· == b) = none := by
    rw [List.findIdx?_eq_none_iff]
    intro x hx
    exact beq_eq_false_iff_ne.mpr fun heq => h (heq ▸ hx)
  have hplace : (before ++ b :: after).findIdx? (· == b) = some before.length := by
    rw [List.findIdx?_append, hfirst, List.findIdx?_cons, beq_self_eq_true]
    simp
  rw [splitOnce, hplace, Option.map_some, List.take_left]
  simp

variable {s : Str}

theorem splitOnce_eq_none {b : UInt8} (h : b ∉ s) : splitOnce b s = none := by
  have hnone : s.findIdx? (· == b) = none := by
    rw [List.findIdx?_eq_none_iff]
    intro x hx
    exact beq_eq_false_iff_ne.mpr fun heq => h (heq ▸ hx)
  rw [splitOnce, hnone]
  rfl

theorem splitOnce_eq_some {b : UInt8} {before after : Str}
    (h : splitOnce b s = some (before, after)) : s = before ++ b :: after := by
  obtain ⟨i, hi, heq⟩ := Option.map_eq_some_iff.mp h
  obtain ⟨hlt, hb, -⟩ := List.findIdx?_eq_some_iff_getElem.mp hi
  obtain ⟨rfl, rfl⟩ := Prod.mk.inj heq
  rw [← beq_iff_eq.mp hb, List.getElem_cons_drop, List.take_append_drop]

theorem allDigits_iff : allDigits s = true ↔ Decimal.IsDigits s := by
  simp [allDigits, isAsciiDigit, Decimal.IsDigits]

theorem point_not_mem (h : Decimal.IsDigits s) : (0x2e : UInt8) ∉ s := by
  intro hmem
  exact absurd (h _ hmem) (by decide)

theorem head_of_digits (h : Decimal.IsDigits s) :
    ∀ b ∈ s.head?, b ≠ 0x2b ∧ b ≠ 0x2d := by
  intro b hb
  have hdigit := h b (List.mem_of_head? hb)
  constructor
  · rintro rfl
    exact absurd hdigit (by decide)
  · rintro rfl
    exact absurd hdigit (by decide)

theorem splitDecimal_digits {digits : Str} (h : Decimal.IsDigits digits) (hne : digits ≠ []) :
    splitDecimal digits = some (digits, []) := by
  have hdigits : allDigits digits = true := allDigits_iff.mpr h
  have hnil : allDigits [] = true := rfl
  rw [splitDecimal, splitOnce_eq_none (point_not_mem h)]
  simp only [Option.getD_none, hdigits, hnil]
  simp [hne]

theorem splitDecimal_append {intPart fracPart : Str} (hint : Decimal.IsDigits intPart)
    (hfrac : Decimal.IsDigits fracPart) (hne : intPart ≠ [] ∨ fracPart ≠ []) :
    splitDecimal (intPart ++ 0x2e :: fracPart) = some (intPart, fracPart) := by
  rw [splitDecimal, splitOnce_append (point_not_mem hint)]
  have hsome : ¬(intPart = [] ∧ fracPart = []) := by
    rintro ⟨h1, h2⟩
    exact hne.elim (fun h => h h1) fun h => h h2
  simp [allDigits_iff.mpr hint, allDigits_iff.mpr hfrac]
  simpa using hsome

/-- A body the grammar accepts is digits, or digits around a point. -/
theorem splitDecimal_eq_some {body intPart fracPart : Str}
    (h : splitDecimal body = some (intPart, fracPart)) :
    Decimal.IsDigits intPart ∧ Decimal.IsDigits fracPart ∧
      ((body = intPart ∧ fracPart = [] ∧ intPart ≠ []) ∨
        body = intPart ++ 0x2e :: fracPart ∧ (intPart ≠ [] ∨ fracPart ≠ [])) := by
  unfold splitDecimal at h
  cases hsplit : splitOnce 0x2e body with
  | none =>
    rw [hsplit] at h
    simp only [Option.getD_none] at h
    split at h
    case isFalse => cases h
    rename_i haccepted
    cases h
    simp only [Bool.and_eq_true, allDigits_iff] at haccepted
    obtain ⟨⟨hne, hint⟩, hfrac⟩ := haccepted
    exact ⟨hint, hfrac, .inl ⟨rfl, rfl, by simpa using hne⟩⟩
  | some parts =>
    obtain ⟨before, after⟩ := parts
    rw [hsplit] at h
    simp only [Option.getD_some] at h
    split at h
    case isFalse => cases h
    rename_i haccepted
    cases h
    simp only [Bool.and_eq_true, allDigits_iff] at haccepted
    obtain ⟨⟨hne, hint⟩, hfrac⟩ := haccepted
    refine ⟨hint, hfrac, .inr ⟨splitOnce_eq_some hsplit, ?_⟩⟩
    by_contra hboth
    push Not at hboth
    simp [hboth.1, hboth.2] at hne

/-! ### Values of digits -/

theorem checked128_natCast (n : ℕ) :
    checked128 (n : ℤ) = if (n : ℤ) ≤ I128_MAX then some (n : ℤ) else none := by
  have hlow : -I128_MAX - 1 ≤ (n : ℤ) := by
    have hmax : -I128_MAX - 1 ≤ 0 := by decide
    exact hmax.trans (Int.natCast_nonneg n)
  rw [checked128]
  by_cases h : (n : ℤ) ≤ I128_MAX
  · rw [if_pos ⟨hlow, h⟩, if_pos h]
  · rw [if_neg fun hboth => h hboth.2, if_neg h]

theorem checked128_of_le {n : ℕ} (h : (n : ℤ) ≤ I128_MAX) : checked128 (n : ℤ) = some (n : ℤ) := by
  rw [checked128_natCast, if_pos h]

theorem checked128_of_lt {n : ℕ} (h : I128_MAX < (n : ℤ)) : checked128 (n : ℤ) = none := by
  rw [checked128_natCast, if_neg (not_le.mpr h)]

theorem digitsValue_foldlM (s : Str) : ∀ {v : ℕ}, (v : ℤ) ≤ I128_MAX →
    s.foldlM (fun v digit => (checked128 (v * 10)).bind fun v =>
      checked128 (v + ((digit - 0x30).toNat : ℤ))) (v : ℤ) =
      checked128 ((v * 10 ^ s.length + Decimal.value s : ℕ) : ℤ) := by
  induction s with
  | nil =>
    intro v hv
    rw [List.foldlM_nil, List.length_nil, pow_zero, mul_one]
    exact (checked128_of_le hv).symm
  | cons b s ih =>
    intro v hv
    obtain ⟨next, hnext⟩ : ∃ next, next = v * 10 + (b - 0x30).toNat := ⟨_, rfl⟩
    have hvalue : v * 10 ^ (b :: s).length + Decimal.value (b :: s) =
        next * 10 ^ s.length + Decimal.value s := by
      have hcons := Decimal.value_append [b] s
      rw [List.singleton_append, Decimal.value_singleton] at hcons
      rw [hcons, hnext, List.length_cons]
      ring
    have hcast : ((v * 10 : ℕ) : ℤ) = (v : ℤ) * 10 := by push_cast; rfl
    have hadd : ((v * 10 + (b - 0x30).toNat : ℕ) : ℤ) =
        ((v * 10 : ℕ) : ℤ) + ((b - 0x30).toNat : ℤ) := by push_cast; rfl
    rw [List.foldlM_cons, hvalue, ← hcast]
    by_cases hfits : (next : ℤ) ≤ I128_MAX
    · -- both steps fit, for the sum does
      have htens : ((v * 10 : ℕ) : ℤ) ≤ I128_MAX := by omega
      rw [checked128_of_le htens, Option.bind_some, ← hadd, ← hnext, checked128_of_le hfits]
      exact ih hfits
    · -- one of them overflows, and so does the whole
      have hwhole : I128_MAX < ((next * 10 ^ s.length + Decimal.value s : ℕ) : ℤ) := by
        have hle : next ≤ next * 10 ^ s.length + Decimal.value s :=
          (Nat.le_mul_of_pos_right next (by positivity)).trans (Nat.le_add_right _ _)
        exact lt_of_lt_of_le (not_le.mp hfits) (Int.ofNat_le.mpr hle)
      rw [checked128_of_lt hwhole]
      by_cases htens : ((v * 10 : ℕ) : ℤ) ≤ I128_MAX
      · rw [checked128_of_le htens, Option.bind_some, ← hadd, ← hnext,
          checked128_of_lt (not_le.mp hfits)]
        rfl
      · rw [checked128_of_lt (not_le.mp htens)]
        rfl

/-- The digits' value, none exactly where it is past `i128`. -/
theorem digitsValue_eq (s : Str) : digitsValue s = checked128 (Decimal.value s : ℤ) := by
  have h := digitsValue_foldlM s (v := 0) (by decide)
  rw [zero_mul, zero_add] at h
  exact h

/-! ### What is written parses back -/

theorem dropPieces_eq {pieces : List Str} {b : UInt8}
    (h : ∀ piece ∈ pieces, piece.head? ≠ some b ∧ piece ≠ []) (fuel : ℕ) (s : Str) :
    dropPieces pieces fuel (b :: s) = b :: s := by
  cases fuel with
  | zero => rfl
  | succ fuel =>
    have hnone : pieces.find? (fun piece => piece.isPrefixOf (b :: s)) = none := by
      rw [List.find?_eq_none]
      intro piece hpiece hstarts
      obtain ⟨hhead, hne⟩ := h piece hpiece
      cases piece with
      | nil => exact hne rfl
      | cons b' piece =>
        obtain ⟨rest, hrest⟩ := List.isPrefixOf_iff_prefix.mp hstarts
        obtain ⟨rfl, -⟩ := List.cons.inj hrest
        exact hhead rfl
    rw [dropPieces, hnone]

theorem whiteSpace_starts : ∀ piece ∈ WHITE_SPACE, piece.head? ≠ some QUOTE ∧ piece ≠ [] := by
  decide

theorem whiteSpace_ends :
    ∀ piece ∈ WHITE_SPACE.map List.reverse, piece.head? ≠ some 0x3e ∧ piece ≠ [] := by
  decide

/-- A text between a quote and an angle bracket has nothing to trim. -/
theorem trim_between (s : Str) : trim (QUOTE :: s ++ [0x3e]) = QUOTE :: s ++ [0x3e] := by
  have hback : (QUOTE :: s ++ [0x3e]).reverse = 0x3e :: (QUOTE :: s).reverse := by
    rw [List.reverse_append]
    rfl
  rw [trim, List.cons_append, dropPieces_eq whiteSpace_starts, ← List.cons_append, hback,
    dropPieces_eq whiteSpace_ends, ← hback, List.reverse_reverse]

/-- A form that needs no escape. -/
def Plain (lexical : Str) : Prop := ∀ b ∈ lexical, b ≠ QUOTE ∧ b ≠ BACKSLASH

variable {lexical : Str}

theorem constantForm_xsdLiteral (h : Plain lexical) {name : String} {kind : NumKind}
    (hkind : numericKind (XSD ++ utf8 name.toList) = some kind) :
    constantForm (trim (xsdLiteral lexical name)) = some (lexical, kind) := by
  have hshape : xsdLiteral lexical name =
      QUOTE :: (lexical ++ QUOTE :: ([0x5e, 0x5e, 0x3c] ++ XSD ++ utf8 name.toList)) ++ [0x3e] := by
    simp [xsdLiteral]
  have hsplit : splitLiteral (xsdLiteral lexical name) =
      some (.typed lexical (0x3c :: (XSD ++ utf8 name.toList) ++ [0x3e])) := by
    rw [← splitLiteral_typed (escapedBody_of_bytes h)]
    simp [xsdLiteral]
  have hview : LiteralView.parse (xsdLiteral lexical name) =
      some ⟨lexical, none, some (XSD ++ utf8 name.toList)⟩ := by
    have hopen : stripPrefix [0x3c] (0x3c :: (XSD ++ utf8 name.toList) ++ [0x3e]) =
        some (XSD ++ utf8 name.toList ++ [0x3e]) := stripPrefix_eq_some.mpr rfl
    have hclose : stripSuffix [0x3e] (XSD ++ utf8 name.toList ++ [0x3e]) =
        some (XSD ++ utf8 name.toList) := by
      rw [stripSuffix, if_pos (List.isSuffixOf_iff_suffix.mpr (List.suffix_append _ _)),
        List.length_append, List.length_singleton, Nat.add_sub_cancel, List.take_left]
    simp only [LiteralView.parse, hsplit, hopen, Option.bind_some, hclose, Option.map_some]
  have hlexical : LiteralView.lexical ⟨lexical, none, some (XSD ++ utf8 name.toList)⟩ =
      some lexical := if_neg fun hmem => (h _ hmem).2 rfl
  have hhead : (xsdLiteral lexical name).head? = some QUOTE := rfl
  rw [hshape, trim_between, ← hshape, constantForm, if_pos hhead, hview]
  simp only [Option.bind_eq_bind, Option.bind_some, hkind, hlexical]
  rfl

theorem plain_of_digits (h : Decimal.IsDigits s) : Plain s := by
  intro b hb
  have hdigit := h b hb
  constructor
  · rintro rfl
    exact absurd hdigit (by decide)
  · rintro rfl
    exact absurd hdigit (by decide)

theorem plain_append {t : Str} (hs : Plain s) (ht : Plain t) : Plain (s ++ t) :=
  List.forall_mem_append.mpr ⟨hs, ht⟩

theorem plain_signOf (i : ℤ) : Plain (signOf i) := by
  unfold signOf
  split
  · intro b hb
    rw [List.mem_singleton.mp hb]
    decide
  · intro b hb
    cases hb

theorem signed_natAbs (i : ℤ) : (if decide (i < 0) = true then -(i.natAbs : ℤ) else i.natAbs) = i := by
  by_cases h : i < 0
  · rw [decide_eq_true h, if_pos rfl]
    omega
  · rw [decide_eq_false h, if_neg Bool.false_ne_true]
    omega

theorem digitsValue_of_natAbs {i : ℤ} (h : (i.natAbs : ℤ) ≤ I128_MAX) {digits : Str}
    (hvalue : Decimal.value digits = i.natAbs) : digitsValue digits = some (i.natAbs : ℤ) := by
  rw [digitsValue_eq, hvalue, checked128_of_le h]

theorem parseInteger_intToString {i : ℤ} (h : (i.natAbs : ℤ) ≤ I128_MAX) :
    (parseInteger (intToString i) : Parsed fl) = .value (.int i) := by
  have hdigits := Decimal.isDigits_ofNat i.natAbs
  have hsplit := splitSign_append (sign_signOf i) (head_of_digits hdigits)
  have hfine : ((Decimal.ofNat i.natAbs).isEmpty || !allDigits (Decimal.ofNat i.natAbs)) = false := by
    rw [allDigits_iff.mpr hdigits, Bool.not_true, Bool.or_false, List.isEmpty_eq_false_iff]
    exact Decimal.ofNat_ne_nil i.natAbs
  simp only [parseInteger, intToString, hsplit, hfine,
    digitsValue_of_natAbs h (Decimal.value_ofNat i.natAbs)]
  rw [signed_natAbs]
  rfl

theorem head_of_point {intPart : Str} (h : Decimal.IsDigits intPart) (fracPart : Str) :
    ∀ b ∈ (intPart ++ 0x2e :: fracPart).head?, b ≠ 0x2b ∧ b ≠ 0x2d := by
  cases intPart with
  | nil =>
    intro b hb
    cases hb
    decide
  | cons b' intPart => exact fun x hx => head_of_digits h x hx

/-- A decimal form whose fraction ends in no zero is read with all of it. -/
theorem parseDecimal_point {m : ℤ} (h : (m.natAbs : ℤ) ≤ I128_MAX) {intPart front : Str} {b : UInt8}
    (hint : Decimal.IsDigits intPart) (hfrac : Decimal.IsDigits (front ++ [b])) (hb : b ≠ 0x30)
    (hvalue : Decimal.value (intPart ++ (front ++ [b])) = m.natAbs)
    {scale : ℕ} (hlen : (front ++ [b]).length = scale) (hscale : scale < 2 ^ 32) :
    (parseDecimal (signOf m ++ (intPart ++ 0x2e :: (front ++ [b]))) : Parsed fl) =
      .value (.dec m scale) := by
  have hsplit := splitSign_append (sign_signOf m) (head_of_point hint (front ++ [b]))
  have hparts := splitDecimal_append hint hfrac (.inr (by simp))
  have htrim : ((front ++ [b]).reverse.dropWhile (· == 0x30)).reverse = front ++ [b] := by
    simp [hb]
  simp only [parseDecimal, hsplit, hparts, htrim, digitsValue_of_natAbs h hvalue, hlen,
    if_pos hscale]
  rw [signed_natAbs]

theorem parseDecimal_decimalToString {m : ℤ} {scale : ℕ} (h : (m.natAbs : ℤ) ≤ I128_MAX)
    (hscale : scale < 2 ^ 32) (hlast : scale = 0 ∨ m.natAbs % 10 ≠ 0) :
    (parseDecimal (decimalToString m scale) : Parsed fl) = .value (.dec m scale) := by
  have hdigits := Decimal.isDigits_ofNat m.natAbs
  have hvalue := Decimal.value_ofNat m.natAbs
  unfold decimalToString
  dsimp only
  by_cases hzero : scale = 0
  · rw [if_pos hzero, hzero]
    -- no digit stands behind the point, so none is written
    have hsplit := splitSign_append (sign_signOf m) (head_of_digits hdigits)
    have hparts := splitDecimal_digits hdigits (Decimal.ofNat_ne_nil m.natAbs)
    simp only [parseDecimal, hsplit, hparts, List.reverse_nil, List.dropWhile_nil, List.append_nil,
      digitsValue_of_natAbs h hvalue, List.length_nil]
    rw [signed_natAbs, if_pos (by decide)]
  rw [if_neg hzero]
  obtain ⟨front, b, hends, hb⟩ := Decimal.ofNat_getLast (hlast.resolve_left hzero)
  rw [hends] at hdigits hvalue ⊢
  obtain ⟨hfront, hone⟩ := Decimal.isDigits_append.mp hdigits
  by_cases hlong : scale < (front ++ [b]).length
  · -- the point falls among the digits
    rw [if_pos hlong, List.append_assoc]
    obtain ⟨k, hk⟩ : ∃ k, k = (front ++ [b]).length - scale := ⟨_, rfl⟩
    rw [List.length_append, List.length_singleton] at hk hlong
    have hle : k ≤ front.length := by omega
    have hdrop : (front ++ [b]).drop k = front.drop k ++ [b] := List.drop_append_of_le_length hle
    have htake : (front ++ [b]).take k = front.take k := List.take_append_of_le_length hle
    have hlen : (front.drop k ++ [b]).length = scale := by
      rw [List.length_append, List.length_drop, List.length_singleton]
      omega
    have hfrac : Decimal.IsDigits (front.drop k ++ [b]) :=
      Decimal.isDigits_append.mpr ⟨fun x hx => hfront x (List.mem_of_mem_drop hx), hone⟩
    rw [List.length_append, List.length_singleton, ← hk, hdrop, htake]
    have hint : Decimal.IsDigits (front.take k) := fun x hx => hfront x (List.mem_of_mem_take hx)
    have hvalue' : Decimal.value (front.take k ++ (front.drop k ++ [b])) = m.natAbs := by
      rw [← List.append_assoc, List.take_append_drop, hvalue]
    exact parseDecimal_point h hint hfrac hb hvalue' hlen hscale
  · -- zeros stand between the point and the digits
    rw [if_neg hlong, List.append_assoc]
    obtain ⟨k, hk⟩ : ∃ k, k = scale - (front ++ [b]).length := ⟨_, rfl⟩
    rw [← hk, ← List.append_assoc (List.replicate k 0x30) front [b]]
    have hlen : (List.replicate k 0x30 ++ front ++ [b]).length = scale := by
      rw [List.length_append, List.length_singleton] at hk hlong
      rw [List.length_append, List.length_append, List.length_replicate, List.length_singleton]
      omega
    have hfrac : Decimal.IsDigits (List.replicate k 0x30 ++ front ++ [b]) :=
      Decimal.isDigits_append.mpr ⟨Decimal.isDigits_append.mpr
        ⟨Decimal.isDigits_replicate_zero k, hfront⟩, hone⟩
    have hvalue' : Decimal.value ([0x30] ++ (List.replicate k 0x30 ++ front ++ [b])) = m.natAbs := by
      rw [List.append_assoc, Decimal.value_append, Decimal.value_append,
        Decimal.value_replicate_zero, hvalue]
      show 0 * _ + (0 * _ + m.natAbs) = m.natAbs
      omega
    exact parseDecimal_point h (Decimal.isDigits_replicate_zero 1) hfrac hb hvalue' hlen hscale

/-! ### Values as the parser leaves them -/

/-- An integer or a mantissa whose magnitude an `i128` holds, the mantissa without trailing
fractional zeros. -/
def Num.Normal : Num fl → Prop
  | .int i => (i.natAbs : ℤ) ≤ I128_MAX
  | .dec mantissa scale =>
    (mantissa.natAbs : ℤ) ≤ I128_MAX ∧ scale < 2 ^ 32 ∧ (scale = 0 ∨ mantissa.natAbs % 10 ≠ 0)
  | .float _ => True
  | .double _ => True

def signedInt (neg : Bool) (v : ℤ) : ℤ := if neg then -v else v

theorem natAbs_signedInt (neg : Bool) (n : ℕ) : (signedInt neg n).natAbs = n := by
  unfold signedInt
  cases neg <;> simp

/-- A fraction without its trailing zeros. -/
structure Trimmed (fracPart front : Str) : Prop where
  zeros : ∃ k, fracPart = front ++ List.replicate k 0x30
  last : front = [] ∨ ∃ rest b, front = rest ++ [b] ∧ b ≠ 0x30

theorem trimmed_dropWhile (s : Str) : Trimmed s (s.reverse.dropWhile (· == 0x30)).reverse := by
  obtain ⟨zeros, hzeros⟩ : ∃ zeros, zeros = s.reverse.takeWhile (· == 0x30) := ⟨_, rfl⟩
  obtain ⟨rest, hrest⟩ : ∃ rest, rest = s.reverse.dropWhile (· == 0x30) := ⟨_, rfl⟩
  have hsplit : zeros ++ rest = s.reverse := by
    rw [hzeros, hrest, List.takeWhile_append_dropWhile]
  rw [← hrest]
  constructor
  · refine ⟨zeros.length, ?_⟩
    have hall : zeros = List.replicate zeros.length 0x30 := by
      refine List.eq_replicate_iff.mpr ⟨rfl, fun b hb => ?_⟩
      rw [hzeros] at hb
      have hzero := List.mem_takeWhile_imp hb
      exact beq_iff_eq.mp hzero
    rw [← List.reverse_reverse s, ← hsplit, List.reverse_append, ← List.reverse_replicate, ← hall]
  · cases hcons : rest with
    | nil => exact .inl rfl
    | cons b tail =>
      refine .inr ⟨tail.reverse, b, List.reverse_cons, ?_⟩
      have hhead := List.head?_dropWhile_not (· == 0x30) s.reverse
      rw [← hrest, hcons] at hhead
      simpa using hhead

theorem Trimmed.isDigits {fracPart front : Str} (h : Trimmed fracPart front)
    (hdigits : Decimal.IsDigits fracPart) : Decimal.IsDigits front := by
  obtain ⟨k, hk⟩ := h.zeros
  rw [hk] at hdigits
  exact (Decimal.isDigits_append.mp hdigits).1

/-- The digits before a fraction's trailing zeros end in no zero. -/
theorem Trimmed.value_mod {fracPart front : Str} (h : Trimmed fracPart front) (intPart : Str)
    (hdigits : Decimal.IsDigits fracPart) :
    front.length = 0 ∨ Decimal.value (intPart ++ front) % 10 ≠ 0 := by
  have hfront := h.isDigits hdigits
  rcases h.last with hnil | ⟨rest, b, rfl, hb⟩
  · exact .inl (List.length_eq_zero_iff.mpr hnil)
  · right
    have hdigit := hfront b (by simp)
    rw [← List.append_assoc, Decimal.value_append, Decimal.value_singleton, List.length_singleton,
      pow_one]
    have hlow := UInt8.le_iff_toNat_le.mp hdigit.1
    have hhigh := UInt8.le_iff_toNat_le.mp hdigit.2
    have hne : b.toNat ≠ 0x30 := fun heq => hb (UInt8.toNat_inj.mp heq)
    have hsub : (b - 0x30).toNat = b.toNat - 0x30 := UInt8.toNat_sub_of_le _ _ hdigit.1
    have h30 : (0x30 : UInt8).toNat = 0x30 := rfl
    have h39 : (0x39 : UInt8).toNat = 0x39 := rfl
    omega

/-- An integer form's value, where an `i128` holds its magnitude. -/
theorem parseInteger_form {sign digits : Str} {neg : Bool} (hsign : Sign sign neg)
    (hdigits : Decimal.IsDigits digits) (hne : digits ≠ []) :
    (parseInteger (sign ++ digits) : Parsed fl) =
      if (Decimal.value digits : ℤ) ≤ I128_MAX then
        .value (.int (signedInt neg (Decimal.value digits)))
      else .unheld := by
  have hsplit := splitSign_append hsign (head_of_digits hdigits)
  have hfine : (digits.isEmpty || !allDigits digits) = false := by
    rw [allDigits_iff.mpr hdigits, Bool.not_true, Bool.or_false, List.isEmpty_eq_false_iff]
    exact hne
  simp only [parseInteger, hsplit, hfine, digitsValue_eq, checked128_natCast]
  by_cases hfits : (Decimal.value digits : ℤ) ≤ I128_MAX
  · simp only [if_pos hfits]
    rfl
  · simp only [if_neg hfits]
    rfl

/-- A decimal form's value, where an `i128` holds its trimmed mantissa's magnitude. -/
theorem parseDecimal_form {sign body intPart fracPart : Str} {neg : Bool} (hsign : Sign sign neg)
    (hhead : ∀ b ∈ body.head?, b ≠ 0x2b ∧ b ≠ 0x2d)
    (hparts : splitDecimal body = some (intPart, fracPart)) :
    ∃ front, Trimmed fracPart front ∧ (parseDecimal (sign ++ body) : Parsed fl) =
      if (Decimal.value (intPart ++ front) : ℤ) ≤ I128_MAX ∧ front.length < 2 ^ 32 then
        .value (.dec (signedInt neg (Decimal.value (intPart ++ front))) front.length)
      else .unheld := by
  have hsplit := splitSign_append hsign hhead
  refine ⟨_, trimmed_dropWhile fracPart, ?_⟩
  obtain ⟨front, hfront⟩ : ∃ front, front = (fracPart.reverse.dropWhile (· == 0x30)).reverse :=
    ⟨_, rfl⟩
  simp only [parseDecimal, hsplit, hparts, ← hfront, digitsValue_eq, checked128_natCast]
  by_cases hfits : (Decimal.value (intPart ++ front) : ℤ) ≤ I128_MAX
  · by_cases hlen : front.length < 2 ^ 32
    · simp only [if_pos hfits, if_pos hlen, if_pos (And.intro hfits hlen)]
      rfl
    · have hnot : ¬((Decimal.value (intPart ++ front) : ℤ) ≤ I128_MAX ∧ front.length < 2 ^ 32) :=
        fun hboth => hlen hboth.2
      simp only [if_pos hfits, if_neg hlen, if_neg hnot]
  · have hnot : ¬((Decimal.value (intPart ++ front) : ℤ) ≤ I128_MAX ∧ front.length < 2 ^ 32) :=
      fun hboth => hfits hboth.1
    simp only [if_neg hfits, if_neg hnot]

/-- A form the integers' grammar does not reject has its shape. -/
theorem integerForm_of_parse (h : (parseInteger lexical : Parsed fl) ≠ .illTyped) :
    ∃ sign neg digits, Sign sign neg ∧ Decimal.IsDigits digits ∧ digits ≠ [] ∧
      lexical = sign ++ digits := by
  obtain ⟨sign, hsign, hlexical⟩ := splitSign_spec lexical
  refine ⟨sign, _, _, hsign, ?_, ?_, hlexical⟩
  · by_contra hnot
    refine h ?_
    rw [← allDigits_iff, Bool.not_eq_true] at hnot
    simp [parseInteger, hnot]
  · intro hnil
    exact h (by simp [parseInteger, hnil])

theorem decimalForm_of_parse (h : (parseDecimal lexical : Parsed fl) ≠ .illTyped) :
    ∃ sign neg body intPart fracPart, Sign sign neg ∧ lexical = sign ++ body ∧
      splitDecimal body = some (intPart, fracPart) := by
  obtain ⟨sign, hsign, hlexical⟩ := splitSign_spec lexical
  cases hparts : splitDecimal (splitSign lexical).2 with
  | none => exact absurd (by simp only [parseDecimal, hparts]) h
  | some parts => exact ⟨sign, _, _, parts.1, parts.2, hsign, hlexical, hparts⟩

/-- A body the decimals' grammar accepts starts with no sign. -/
theorem head_of_splitDecimal {body intPart fracPart : Str}
    (h : splitDecimal body = some (intPart, fracPart)) :
    ∀ b ∈ body.head?, b ≠ 0x2b ∧ b ≠ 0x2d := by
  obtain ⟨hint, -, ⟨rfl, -, -⟩ | ⟨rfl, -⟩⟩ := splitDecimal_eq_some h
  · exact head_of_digits hint
  · exact head_of_point hint fracPart

theorem parseInteger_normal {n : Num fl} (h : parseInteger lexical = .value n) :
    n.Normal := by
  have hform : (parseInteger lexical : Parsed fl) ≠ .illTyped := by
    intro hill
    rw [hill] at h
    cases h
  obtain ⟨sign, neg, digits, hsign, hdigits, hne, rfl⟩ := integerForm_of_parse hform
  rw [parseInteger_form hsign hdigits hne] at h
  split at h
  case isFalse => cases h
  rename_i hfits
  cases h
  show (Int.natAbs _ : ℤ) ≤ I128_MAX
  rwa [natAbs_signedInt]

theorem parseDecimal_normal {n : Num fl} (h : parseDecimal lexical = .value n) :
    n.Normal := by
  have hform : (parseDecimal lexical : Parsed fl) ≠ .illTyped := by
    intro hill
    rw [hill] at h
    cases h
  obtain ⟨sign, neg, body, intPart, fracPart, hsign, rfl, hparts⟩ := decimalForm_of_parse hform
  obtain ⟨hint, hfrac, -⟩ := splitDecimal_eq_some hparts
  obtain ⟨front, htrimmed, hparse⟩ := parseDecimal_form hsign (head_of_splitDecimal hparts) hparts
  rw [hparse] at h
  split at h
  case isFalse => cases h
  rename_i hfits
  cases h
  show (Int.natAbs _ : ℤ) ≤ I128_MAX ∧ _ ∧ (_ ∨ Int.natAbs _ % 10 ≠ 0)
  rw [natAbs_signedInt]
  exact ⟨hfits.1, hfits.2, htrimmed.value_mod intPart hfrac⟩

theorem parseFloat_value {parse : Str → Option (Num fl)} {n : Num fl}
    (h : parseFloat lexical parse = .value n) : parse lexical = some n := by
  unfold parseFloat at h
  dsimp only at h
  cases hparse : parse lexical with
  | none =>
    rw [hparse] at h
    split_ifs at h
  | some value =>
    rw [hparse] at h
    dsimp only at h
    split_ifs at h
    cases h
    rfl

/-- What the parser reads is as it leaves values. -/
theorem parseNumber_normal {kind : NumKind} {n : Num fl}
    (h : parseNumber lexical kind = .value n) : n.Normal := by
  cases kind with
  | int lo hi =>
    simp only [parseNumber] at h
    split at h
    · rename_i v hv
      split at h
      · cases h
      · cases h
        exact parseInteger_normal hv
    · exact parseInteger_normal h
  | decimal => exact parseDecimal_normal h
  | float =>
    rw [parseNumber] at h
    obtain ⟨f, -, rfl⟩ := Option.map_eq_some_iff.mp (parseFloat_value h)
    trivial
  | double =>
    rw [parseNumber] at h
    obtain ⟨f, -, rfl⟩ := Option.map_eq_some_iff.mp (parseFloat_value h)
    trivial

/-! ### The round trip -/

theorem plain_decimalToString (m : ℤ) (scale : ℕ) : Plain (decimalToString m scale) := by
  have hdigits := plain_of_digits (Decimal.isDigits_ofNat m.natAbs)
  have hpoint : Plain [0x2e] := by
    intro b hb
    rw [List.mem_singleton.mp hb]
    decide
  have hzeros : ∀ k, Plain (List.replicate k 0x30) := fun k =>
    plain_of_digits (Decimal.isDigits_replicate_zero k)
  unfold decimalToString
  dsimp only
  split
  · exact plain_append (plain_signOf m) hdigits
  split
  · refine plain_append (plain_append (plain_signOf m) fun b hb => hdigits b ?_)
      (plain_append hpoint fun b hb => hdigits b ?_)
    · exact List.mem_of_mem_take hb
    · exact List.mem_of_mem_drop hb
  · exact plain_append (plain_append (plain_signOf m) (hzeros 1))
      (plain_append hpoint (plain_append (hzeros _) hdigits))

/-- An integer or a decimal the parser leaves is written as it is parsed. -/
theorem parse_canonical {number : Number fl} {x : ℚ} (h : number.value.Normal)
    (hexact : number.value.exact = some x) (debug32 : fl.F32 → Str) (debug64 : fl.F64 → Str) :
    Number.parse (number.canonical debug32 debug64) = some number := by
  obtain ⟨value⟩ := number
  cases value with
  | float f => cases hexact
  | double f => cases hexact
  | int i =>
    have hplain : Plain (intToString i) :=
      plain_append (plain_signOf i) (plain_of_digits (Decimal.isDigits_ofNat i.natAbs))
    have hkind : numericKind (XSD ++ utf8 "integer".toList) = some (.int none none) := by
      rw [numericKind, stripPrefix_eq_some.mpr rfl]
      rfl
    have hform := constantForm_xsdLiteral hplain hkind
    have hparse : (parseNumber (intToString i) (.int none none) : Parsed fl) = .value (.int i) := by
      simp only [parseNumber, parseInteger_intToString h]
      rfl
    simp only [Number.canonical, Number.parse, hform, Option.bind_eq_bind, Option.bind_some, hparse]
  | dec m scale =>
    obtain ⟨hfits, hscale, hlast⟩ := h
    have hkind : numericKind (XSD ++ utf8 "decimal".toList) = some .decimal := by
      rw [numericKind, stripPrefix_eq_some.mpr rfl]
      rfl
    have hform := constantForm_xsdLiteral (plain_decimalToString m scale) hkind
    have hparse : (parseNumber (decimalToString m scale) .decimal : Parsed fl) =
        .value (.dec m scale) := parseDecimal_decimalToString hfits hscale hlast
    simp only [Number.canonical, Number.parse, hform, Option.bind_eq_bind, Option.bind_some, hparse]

end Constants

end Dictionary
