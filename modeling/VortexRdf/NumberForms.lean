/-
Integer and decimal literals compared as the rationals they spell.

A lexical form in the grammar of its datatype spells a rational.  A form the model decides
is an integer of 64 bits in its type's bounds, or a decimal that is a multiple of `10^-18`
whose factor's magnitude an `i128` holds; any other form is left to the engine.

* `Spells` — the grammar of integers and decimals, with what a form spells;
* `DecidedValue` — the values the model decides;
* `parseNumber_spells`, `spells_of_parse` — a form is read as the value it spells, or is
  known not to be decided;
* `comparisons_of_integers_and_decimals_are_exact` — the verdicts.
-/
import VortexRdf.CodeFilters
import VortexRdf.NumberConstants

namespace Dictionary

open Terms

/-! ### What a form spells -/

/-- The integer types and `xsd:decimal`. -/
def NumKind.IsExact : NumKind → Prop
  | .int _ _ => True
  | .decimal => True
  | .float => False
  | .double => False

def signed (neg : Bool) (x : ℚ) : ℚ := if neg then -x else x

/-- The grammars `[+-]?[0-9]+` and `[+-]?([0-9]+(\.[0-9]*)?|\.[0-9]+)`, with the rational a form
spells. -/
inductive Spells : NumKind → Str → ℚ → Prop where
  | integer {lo hi : Option ℤ} {sign digits : Str} {neg : Bool} (hsign : Sign sign neg)
      (hdigits : Decimal.IsDigits digits) (hne : digits ≠ []) :
      Spells (.int lo hi) (sign ++ digits) (signed neg (Decimal.value digits))
  | whole {sign digits : Str} {neg : Bool} (hsign : Sign sign neg)
      (hdigits : Decimal.IsDigits digits) (hne : digits ≠ []) :
      Spells .decimal (sign ++ digits) (signed neg (Decimal.value digits))
  | point {sign intPart fracPart : Str} {neg : Bool} (hsign : Sign sign neg)
      (hint : Decimal.IsDigits intPart) (hfrac : Decimal.IsDigits fracPart)
      (hne : intPart ≠ [] ∨ fracPart ≠ []) :
      Spells .decimal (sign ++ (intPart ++ 0x2e :: fracPart))
        (signed neg (Decimal.value (intPart ++ fracPart) / 10 ^ fracPart.length))

/-- The values the model decides for a kind. -/
def DecidedValue : NumKind → ℚ → Prop
  | .int lo hi, x => ∃ i : ℤ, x = i ∧ -(2 ^ 63) ≤ i ∧ i < 2 ^ 63 ∧ (∀ l ∈ lo, l ≤ i) ∧
      ∀ h ∈ hi, i ≤ h
  | .decimal, x => ∃ m : ℤ, x = m / 10 ^ MAX_DECIDED_SCALE ∧ -I128_MAX ≤ m ∧ m ≤ I128_MAX
  | .float, _ => False
  | .double, _ => False

section Forms

variable {fl : Floats}

theorem cast_signedInt (neg : Bool) (n : ℕ) : ((signedInt neg n : ℤ) : ℚ) = signed neg n := by
  unfold signedInt signed
  cases neg <;> simp

theorem signed_div (neg : Bool) (x y : ℚ) : signed neg x / y = signed neg (x / y) := by
  unfold signed
  cases neg
  · rfl
  · exact neg_div y x

/-- Trailing zeros change no value. -/
theorem Trimmed.value_eq {fracPart front : Str} (h : Trimmed fracPart front) (intPart : Str) :
    (Decimal.value (intPart ++ fracPart) : ℚ) / 10 ^ fracPart.length =
      Decimal.value (intPart ++ front) / 10 ^ front.length := by
  obtain ⟨k, rfl⟩ := h.zeros
  rw [← List.append_assoc, Decimal.value_append, Decimal.value_replicate_zero, List.length_append,
    List.length_replicate, pow_add]
  push_cast
  field_simp
  ring

theorem decidedValue_int {lo hi : Option ℤ} {i : ℤ} :
    DecidedValue (.int lo hi) i ↔
      -(2 ^ 63) ≤ i ∧ i < 2 ^ 63 ∧ (∀ l ∈ lo, l ≤ i) ∧ ∀ h ∈ hi, i ≤ h := by
  constructor
  · rintro ⟨j, hj, hbounds⟩
    obtain rfl : i = j := by exact_mod_cast hj
    exact hbounds
  · intro hbounds
    exact ⟨i, rfl, hbounds⟩

/-- A trimmed decimal is decided when it has at most 18 fractional digits and its factor of
`10^-18` fits. -/
theorem decidedValue_decimal {m : ℤ} {scale : ℕ} (hlast : scale = 0 ∨ m.natAbs % 10 ≠ 0) :
    DecidedValue .decimal (m / 10 ^ scale) ↔
      scale ≤ MAX_DECIDED_SCALE ∧ ((m * 10 ^ (MAX_DECIDED_SCALE - scale)).natAbs : ℤ) ≤ I128_MAX := by
  constructor
  · rintro ⟨factor, hfactor, hlow, hhigh⟩
    have hcross : m * 10 ^ MAX_DECIDED_SCALE = factor * 10 ^ scale := by
      rw [div_eq_div_iff (by positivity) (by positivity)] at hfactor
      exact_mod_cast hfactor
    have hscale : scale ≤ MAX_DECIDED_SCALE := by
      by_contra hlong
      -- then ten divides the mantissa
      obtain ⟨k, hk⟩ : ∃ k, scale = MAX_DECIDED_SCALE + (k + 1) :=
        ⟨scale - MAX_DECIDED_SCALE - 1, by omega⟩
      rw [hk, pow_add, mul_left_comm, mul_comm m, pow_succ] at hcross
      have hm : m = factor * (10 ^ k * 10) := mul_left_cancel₀ (by positivity) hcross
      rcases hlast with hzero | hten
      · omega
      · rw [← mul_assoc] at hm
        omega
    refine ⟨hscale, ?_⟩
    obtain ⟨k, hk⟩ : ∃ k, MAX_DECIDED_SCALE = scale + k := ⟨MAX_DECIDED_SCALE - scale, by omega⟩
    rw [hk, pow_add, ← mul_assoc, mul_right_comm] at hcross
    have hm : m * 10 ^ k = factor := mul_right_cancel₀ (by positivity) hcross
    rw [hk, Nat.add_sub_cancel_left, hm]
    omega
  · rintro ⟨hscale, hfits⟩
    refine ⟨m * 10 ^ (MAX_DECIDED_SCALE - scale), ?_, by omega, by omega⟩
    have hpow : (10 : ℚ) ^ MAX_DECIDED_SCALE = 10 ^ (MAX_DECIDED_SCALE - scale) * 10 ^ scale := by
      rw [← pow_add, Nat.sub_add_cancel hscale]
    rw [hpow]
    push_cast
    field_simp

/-- So the model says of a decimal as the parser leaves it. -/
theorem decided_dec_iff {m : ℤ} {scale : ℕ} (h : (Num.dec m scale : Num fl).Normal) :
    (Num.dec m scale : Num fl).decided = true ↔ DecidedValue .decimal (m / 10 ^ scale) := by
  obtain ⟨hfits, -, hlast⟩ := h
  rw [decidedValue_decimal hlast, Num.decided, Bool.and_eq_true, decide_eq_true_eq]
  refine and_congr_right fun hscale => ?_
  rw [checked128]
  constructor
  · intro hsome
    split at hsome
    case isFalse => cases hsome
    rename_i hrange
    -- the least `i128` is no multiple of ten, and no mantissa
    by_contra hout
    have hleast : m * 10 ^ (MAX_DECIDED_SCALE - scale) = -I128_MAX - 1 := by omega
    cases hk : MAX_DECIDED_SCALE - scale with
    | zero =>
      rw [hk, pow_zero, mul_one] at hleast
      omega
    | succ k =>
      rw [hk, pow_succ, ← mul_assoc] at hleast
      have hmax : I128_MAX = 0x7fffffffffffffffffffffffffffffff := rfl
      omega
  · intro hsmall
    have hrange : -I128_MAX - 1 ≤ m * 10 ^ (MAX_DECIDED_SCALE - scale) ∧
        m * 10 ^ (MAX_DECIDED_SCALE - scale) ≤ I128_MAX := by omega
    rw [if_pos hrange]
    rfl

/-- Reading `lexical` gives a value that is `x`, decided where `x` is; or `x` is not decided. -/
def ReadsAs (fl : Floats) (kind : NumKind) (lexical : Str) (x : ℚ) : Prop :=
  (∃ n : Num fl, parseNumber lexical kind = .value n ∧ n.exact = some x ∧
    (n.decided = true ↔ DecidedValue kind x)) ∨
  (parseNumber lexical kind = (.unheld : Parsed fl) ∧ ¬DecidedValue kind x)

theorem reads_integer {lo hi : Option ℤ} {sign digits : Str} {neg : Bool} (hsign : Sign sign neg)
    (hdigits : Decimal.IsDigits digits) (hne : digits ≠ []) :
    ReadsAs fl (.int lo hi) (sign ++ digits) (signed neg (Decimal.value digits)) := by
  rw [← cast_signedInt]
  have hparse : (parseInteger (sign ++ digits) : Parsed fl) = _ :=
    parseInteger_form hsign hdigits hne
  have habs := natAbs_signedInt neg (Decimal.value digits)
  obtain ⟨v, hv⟩ : ∃ v, v = signedInt neg (Decimal.value digits) := ⟨_, rfl⟩
  rw [← hv] at hparse habs ⊢
  by_cases hfits : (Decimal.value digits : ℤ) ≤ I128_MAX
  · rw [if_pos hfits] at hparse
    by_cases hbounds : (lo.any (v < ·) || hi.any (· < v)) = true
    · right
      refine ⟨by simp only [parseNumber, hparse, hbounds, if_true], ?_⟩
      rw [decidedValue_int]
      rintro ⟨-, -, hlo, hhi⟩
      rw [Bool.or_eq_true, Option.any_eq_true, Option.any_eq_true] at hbounds
      rcases hbounds with ⟨l, hl, hlt⟩ | ⟨h, hh, hlt⟩
      · exact absurd (hlo l hl) (not_le.mpr (of_decide_eq_true hlt))
      · exact absurd (hhi h hh) (not_le.mpr (of_decide_eq_true hlt))
    · left
      refine ⟨.int v, by simp only [parseNumber, hparse, hbounds]; rfl, rfl, ?_⟩
      rw [decidedValue_int, Num.decided, Bool.and_eq_true, decide_eq_true_eq, decide_eq_true_eq]
      rw [Bool.not_eq_true, Bool.or_eq_false_iff, Option.any_eq_false, Option.any_eq_false] at hbounds
      refine and_congr_right fun _ => ⟨fun hlt => ⟨hlt, fun l hl => ?_, fun h hh => ?_⟩, And.left⟩
      · exact not_lt.mp (of_decide_eq_false (by simpa using hbounds.1 l hl))
      · exact not_lt.mp (of_decide_eq_false (by simpa using hbounds.2 h hh))
  · rw [if_neg hfits] at hparse
    right
    refine ⟨by simp only [parseNumber, hparse], ?_⟩
    rw [decidedValue_int]
    rintro ⟨hlow, hhigh, -⟩
    have hmax : I128_MAX = 0x7fffffffffffffffffffffffffffffff := rfl
    omega

/-- A decimal body's value does not change when its fraction is trimmed. -/
theorem reads_decimal {sign body intPart fracPart : Str} {neg : Bool} (hsign : Sign sign neg)
    (hparts : splitDecimal body = some (intPart, fracPart)) :
    ReadsAs fl .decimal (sign ++ body)
      (signed neg (Decimal.value (intPart ++ fracPart) / 10 ^ fracPart.length)) := by
  obtain ⟨hint, hfrac, -⟩ := splitDecimal_eq_some hparts
  obtain ⟨front, htrimmed, hparse⟩ :=
    @parseDecimal_form fl _ _ _ _ _ hsign (head_of_splitDecimal hparts) hparts
  rw [htrimmed.value_eq, ← signed_div, ← cast_signedInt]
  have habs := natAbs_signedInt neg (Decimal.value (intPart ++ front))
  have hlast := htrimmed.value_mod intPart hfrac
  obtain ⟨m, hm⟩ : ∃ m, m = signedInt neg (Decimal.value (intPart ++ front)) := ⟨_, rfl⟩
  rw [← hm] at hparse habs ⊢
  rw [← habs] at hparse hlast
  by_cases hheld : (m.natAbs : ℤ) ≤ I128_MAX ∧ front.length < 2 ^ 32
  · rw [if_pos hheld] at hparse
    left
    exact ⟨.dec m front.length, hparse, rfl, decided_dec_iff ⟨hheld.1, hheld.2, hlast⟩⟩
  · rw [if_neg hheld] at hparse
    right
    refine ⟨hparse, ?_⟩
    rw [decidedValue_decimal hlast]
    rintro ⟨hscale, hfactor⟩
    -- the mantissa is no larger than the factor, so both would be held
    refine hheld ⟨?_, by rw [MAX_DECIDED_SCALE] at hscale; omega⟩
    rw [Int.natAbs_mul, Int.natAbs_pow] at hfactor
    have hle : m.natAbs ≤ m.natAbs * Int.natAbs 10 ^ (MAX_DECIDED_SCALE - front.length) :=
      Nat.le_mul_of_pos_right m.natAbs (by positivity)
    exact (Int.ofNat_le.mpr hle).trans hfactor

variable {kind : NumKind} {lexical : Str}

/-- A form is read as what it spells, or is not decided. -/
theorem parseNumber_spells {x : ℚ} (h : Spells kind lexical x) :
    ReadsAs fl kind lexical x := by
  cases h with
  | integer hsign hdigits hne => exact reads_integer hsign hdigits hne
  | whole hsign hdigits hne =>
    have hreads : ReadsAs fl .decimal _ _ := reads_decimal hsign (splitDecimal_digits hdigits hne)
    rwa [List.append_nil, List.length_nil, pow_zero, div_one] at hreads
  | point hsign hint hfrac hne => exact reads_decimal hsign (splitDecimal_append hint hfrac hne)

/-- A form that is not rejected spells a value. -/
theorem spells_of_parse (hkind : kind.IsExact)
    (h : (parseNumber lexical kind : Parsed fl) ≠ .illTyped) : ∃ x, Spells kind lexical x := by
  cases kind with
  | float => exact hkind.elim
  | double => exact hkind.elim
  | int lo hi =>
    have hparse : (parseInteger lexical : Parsed fl) ≠ .illTyped := by
      intro hill
      exact h (by simp only [parseNumber, hill])
    obtain ⟨sign, neg, digits, hsign, hdigits, hne, rfl⟩ := integerForm_of_parse hparse
    exact ⟨_, .integer hsign hdigits hne⟩
  | decimal =>
    obtain ⟨sign, neg, body, intPart, fracPart, hsign, rfl, hparts⟩ := decimalForm_of_parse h
    obtain ⟨hint, hfrac, ⟨rfl, -, hne⟩ | ⟨rfl, hne⟩⟩ := splitDecimal_eq_some hparts
    · exact ⟨_, .whole hsign hint hne⟩
    · exact ⟨_, .point hsign hint hfrac hne⟩

theorem parseNumber_ne_illTyped {x : ℚ}
    (h : Spells kind lexical x) : (parseNumber lexical kind : Parsed fl) ≠ .illTyped := by
  intro hill
  have hreads : ReadsAs fl kind lexical x := parseNumber_spells h
  rcases hreads with ⟨n, hn, -⟩ | ⟨hunheld, -⟩
  · rw [hill] at hn
    cases hn
  · rw [hill] at hunheld
    cases hunheld

/-! ### Verdicts -/

/-- No numeric datatype's name holds a backslash. -/
theorem backslash_not_mem {datatype : Str} (h : numericKind datatype = some kind) :
    BACKSLASH ∉ datatype := by
  obtain ⟨name, hname, hfound⟩ := Option.bind_eq_some_iff.mp h
  obtain ⟨entry, hentry, -⟩ := Option.map_eq_some_iff.mp hfound
  have hmem := List.mem_of_find?_eq_some hentry
  have heq := List.find?_some hentry
  rw [stripPrefix_eq_some.mp hname, ← beq_iff_eq.mp heq, List.mem_append, not_or]
  have hnames : ∀ name ∈ NUMERIC_TYPES.map Prod.fst, BACKSLASH ∉ utf8 name.toList := by decide
  exact ⟨by decide, hnames entry.1 (List.mem_map_of_mem hmem)⟩

/-- A literal in its datatype's grammar is a number where its value is decided, and left to the
engine where it is not. -/
theorem operand_of_spells {lit : LiteralView} {datatype : Str} {x : ℚ}
    (hdatatype : lit.datatype = some datatype) (hkind : numericKind datatype = some kind)
    (hlexical : lit.lexical = some lexical) (h : Spells kind lexical x) :
    (DecidedValue kind x ∧ ∃ n : Num fl, operand lit = .number n ∧ n.exact = some x ∧
      n.decided = true) ∨ (¬DecidedValue kind x ∧ (operand lit : Operand fl) = .undecided) := by
  have hreads : ReadsAs fl kind lexical x := parseNumber_spells h
  rcases hreads with ⟨n, hn, hexact, hdecided⟩ | ⟨hunheld, hnot⟩
  · have hoperand : operand lit = if n.decided then .number n else .undecided := by
      simp only [operand, hdatatype, if_neg (backslash_not_mem hkind), hkind, hlexical, hn]
    by_cases hvalue : DecidedValue kind x
    · have hyes := hdecided.mpr hvalue
      exact .inl ⟨hvalue, n, by rw [hoperand]; exact if_pos hyes, hexact, hyes⟩
    · refine .inr ⟨hvalue, ?_⟩
      rw [hoperand]
      exact if_neg fun hyes => hvalue (hdecided.mp hyes)
  · refine .inr ⟨hnot, ?_⟩
    simp only [operand, hdatatype, if_neg (backslash_not_mem hkind), hkind, hlexical, hunheld]

/-- Two decided numbers have one ordering, that of their rationals. -/
theorem compareNums_exact {a b : Num fl} {x y : ℚ} (ha : a.decided = true) (hb : b.decided = true)
    (hx : a.exact = some x) (hy : b.exact = some y) :
    compareNums a b = some (compare x y, compare x y) := by
  have hexact := compareExact_eq ha hb hx hy
  have hboth : (!a.decided || !b.decided) = false := by rw [ha, hb]; rfl
  unfold compareNums
  rw [hboth]
  -- floats are no exact numbers
  cases a with
  | float f => cases hx
  | double f => cases hx
  | int i =>
    cases b with
    | float f => cases hy
    | double f => cases hy
    | int j => simp only [hexact]; rfl
    | dec m s => simp only [hexact]; rfl
  | dec m s =>
    cases b with
    | float f => cases hy
    | double f => cases hy
    | int j => simp only [hexact]; rfl
    | dec m' s' => simp only [hexact]; rfl

theorem compareNums_undecided {a b : Num fl} (hb : b.decided = false) :
    compareNums a b = none := by
  unfold compareNums
  rw [hb, Bool.not_false, Bool.or_true]
  rfl

/-- The value of a constant is the one its form spells. -/
theorem parse_spells {arg : Str} {number : Number fl} {form : Str × NumKind} {y : ℚ}
    (hparse : Number.parse arg = some number) (hform : constantForm (trim arg) = some form)
    (h : Spells form.2 form.1 y) :
    number.value.exact = some y ∧ (number.value.decided = true ↔ DecidedValue form.2 y) := by
  have hreads : ReadsAs fl form.2 form.1 y := parseNumber_spells h
  simp only [Number.parse, hform, Option.bind_eq_bind, Option.bind_some] at hparse
  rcases hreads with ⟨n, hn, hexact, hdecided⟩ | ⟨hunheld, -⟩
  · rw [hn] at hparse
    cases hparse
    exact ⟨hexact, hdecided⟩
  · rw [hunheld] at hparse
    cases hparse

theorem parse_normal {arg : Str} {number : Number fl} (hparse : Number.parse arg = some number) :
    number.value.Normal := by
  unfold Number.parse at hparse
  cases hform : constantForm (trim arg) with
  | none =>
    rw [hform] at hparse
    cases hparse
  | some form =>
    simp only [hform, Option.bind_eq_bind, Option.bind_some] at hparse
    cases hvalue : (parseNumber form.1 form.2 : Parsed fl) with
    | value n =>
      rw [hvalue] at hparse
      cases hparse
      exact parseNumber_normal hvalue
    | unheld =>
      rw [hvalue] at hparse
      cases hparse
    | illTyped =>
      rw [hvalue] at hparse
      cases hparse

/-- The verdict of an accepted literal against an integer or decimal constant. -/
theorem compare_of_spells {lit : LiteralView} {datatype : Str} {x y : ℚ}
    (hdatatype : lit.datatype = some datatype) (hkind : numericKind datatype = some kind)
    (hlexical : lit.lexical = some lexical) (h : Spells kind lexical x) {number : Number fl}
    (hexact : number.value.exact = some y) (op : NumOp) :
    (DecidedValue kind x ∧ number.value.decided = true →
      number.compare op lit = op.apply (compare x y)) ∧
    (¬(DecidedValue kind x ∧ number.value.decided = true) → number.compare op lit = .unknown) := by
  rcases @operand_of_spells fl _ _ _ _ _ hdatatype hkind hlexical h with
    ⟨hvalue, n, hoperand, hx, hn⟩ | ⟨hnot, hoperand⟩
  · constructor
    · rintro ⟨-, hdecided⟩
      simp only [Number.compare, hoperand, compareNums_exact hn hdecided hx hexact, if_true]
    · intro hnot
      have hundecided : number.value.decided = false := by
        rw [← Bool.not_eq_true]
        exact fun hdecided => hnot ⟨hvalue, hdecided⟩
      simp only [Number.compare, hoperand, compareNums_undecided hundecided]
  · constructor
    · rintro ⟨hvalue, -⟩
      exact absurd hvalue hnot
    · intro _
      simp only [Number.compare, hoperand]

theorem digitsValue_negates {digits : Str} {v : ℤ} (h : digitsValue digits = some v) :
    v = Decimal.value digits ∧ checked128 (-v) = some (-v) := by
  rw [digitsValue_eq, checked128_natCast] at h
  split at h
  case isFalse => cases h
  rename_i hfits
  cases h
  refine ⟨rfl, checked128_eq_some ⟨by omega, ?_⟩⟩
  have hmax : 0 ≤ I128_MAX := by decide
  omega

end Forms

/-- **Integers and decimals compare exactly**: a form is accepted just when it is in its
datatype's grammar; the verdict against a constant is the comparison of the rationals the two
forms spell where both are decided, and unknown otherwise; nothing overflows on the way; and a
constant is read back as it is written. -/
theorem comparisons_of_integers_and_decimals_are_exact (fl : Floats) :
    (∀ kind : NumKind, kind.IsExact → ∀ lexical,
      (parseNumber lexical kind : Parsed fl) ≠ .illTyped ↔ ∃ x, Spells kind lexical x) ∧
    (∀ (lit : LiteralView) datatype kind lexical x, lit.datatype = some datatype →
      numericKind datatype = some kind → lit.lexical = some lexical → Spells kind lexical x →
      ∀ arg (number : Number fl) form y, Number.parse arg = some number →
        constantForm (trim arg) = some form → Spells form.2 form.1 y → ∀ op,
          (DecidedValue kind x ∧ DecidedValue form.2 y →
            number.compare op lit = op.apply (compare x y)) ∧
          (¬(DecidedValue kind x ∧ DecidedValue form.2 y) →
            number.compare op lit = .unknown)) ∧
    (∀ digits v, digitsValue digits = some v →
      v = Decimal.value digits ∧ checked128 (-v) = some (-v)) ∧
    (∀ scale ≤ MAX_DECIDED_SCALE, checked128 ((10 : ℤ) ^ (MAX_DECIDED_SCALE - scale)) =
      some (10 ^ (MAX_DECIDED_SCALE - scale))) ∧
    (∀ (a b : Num fl) x y, a.decided = true → b.decided = true → a.exact = some x →
      b.exact = some y → compareExact a b = some (compare x y)) ∧
    (∀ arg (number : Number fl) x, Number.parse arg = some number →
      number.value.exact = some x → ∀ debug32 debug64,
        Number.parse (number.canonical debug32 debug64) = some number) := by
  refine ⟨?_, ?_, ?_, ?_, ?_, ?_⟩
  · intro kind hkind lexical
    constructor
    · intro h
      exact spells_of_parse hkind h
    · rintro ⟨x, h⟩
      exact parseNumber_ne_illTyped h
  · intro lit datatype kind lexical x hdatatype hkind hlexical h arg number form y hparse hform hy op
    obtain ⟨hexact, hdecided⟩ := parse_spells hparse hform hy
    rw [← hdecided]
    exact compare_of_spells hdatatype hkind hlexical h hexact op
  · intro digits v h
    exact digitsValue_negates h
  · intro scale _
    exact checked128_pow (Nat.sub_le MAX_DECIDED_SCALE scale)
  · intro a b x y ha hb hx hy
    exact compareExact_eq ha hb hx hy
  · intro arg number x hparse hexact debug32 debug64
    exact parse_canonical (parse_normal hparse) hexact debug32 debug64

/-- The literal `"1.50"` of type `xsd:decimal`. -/
def oneAndAHalf : LiteralView := ⟨utf8 "1.50".toList, none, some (XSD ++ utf8 "decimal".toList)⟩

theorem oneAndAHalf_spells : Spells .decimal (utf8 "1.50".toList) (3 / 2) := by
  have h : Spells .decimal ([] ++ (utf8 "1".toList ++ 0x2e :: utf8 "50".toList)) _ :=
    .point .none (by decide) (by decide) (.inl (by decide))
  have hvalue : Decimal.value (utf8 "1".toList ++ utf8 "50".toList) = 150 := by rfl
  have hlength : (utf8 "50".toList).length = 2 := by rfl
  rw [hvalue, hlength] at h
  have hx : signed false ((150 : ℕ) / 10 ^ 2) = 3 / 2 := by
    norm_num [signed]
  rwa [hx] at h

theorem two_spells : Spells (.int none none) (utf8 "2".toList) 2 := by
  have h : Spells (.int none none) ([] ++ utf8 "2".toList) _ :=
    .integer .none (by decide) (by decide)
  have hvalue : Decimal.value (utf8 "2".toList) = 2 := by rfl
  rw [hvalue] at h
  have hx : signed false (2 : ℕ) = 2 := by
    norm_num [signed]
  rwa [hx] at h

theorem numericKind_decimal : numericKind (XSD ++ utf8 "decimal".toList) = some .decimal := by
  rw [numericKind, stripPrefix_eq_some.mpr rfl]
  rfl

theorem comparisons_of_integers_and_decimals_are_exact_sample :
    (⟨.int 2⟩ : Number leanFloats).compare .lt oneAndAHalf = .true := by
  have hhalf : DecidedValue .decimal (3 / 2) :=
    ⟨1500000000000000000, by norm_num [MAX_DECIDED_SCALE], by decide, by decide⟩
  have htwo : DecidedValue (.int none none) 2 :=
    ⟨2, by norm_num, by decide, by decide, by simp, by simp⟩
  have hverdict := ((comparisons_of_integers_and_decimals_are_exact leanFloats).2.1 oneAndAHalf _
    .decimal _ (3 / 2) rfl numericKind_decimal rfl oneAndAHalf_spells (utf8 "2".toList) ⟨.int 2⟩
    (utf8 "2".toList, .int none none) 2 rfl rfl two_spells .lt).1 ⟨hhalf, htwo⟩
  have horder : compare (3 / 2 : ℚ) 2 = .lt := compare_lt_iff_lt.mpr (by norm_num)
  rwa [horder] at hverdict

/-- The digits of `2 ^ 127`, its last 18 behind the point, under a minus. -/
def leastDecimal : Str :=
  [0x2d] ++ (utf8 "170141183460469231731".toList ++ 0x2e :: utf8 "687303715884105728".toList)

/-- A decimal of 18 fractional digits whose multiple of `10^-18` an `i128` holds, yet left to the
engine: its digits are read without the sign. -/
theorem leastDecimal_is_left_to_the_engine :
    ∃ (lit : LiteralView) (m : ℤ) (number : Number leanFloats),
      lit.datatype = some (XSD ++ utf8 "decimal".toList) ∧ lit.lexical = some leastDecimal ∧
      Spells .decimal leastDecimal (m / 10 ^ 18) ∧ checked128 m = some m ∧
      Number.parse (utf8 "2".toList) = some number ∧ DecidedValue (.int none none) 2 ∧
      number.compare .lt lit = .unknown ∧ NumOp.lt.apply (compare ((m : ℚ) / 10 ^ 18) 2) = .true := by
  have hspells : Spells .decimal leastDecimal ((-2 ^ 127 : ℤ) / 10 ^ 18) := by
    have h : Spells .decimal leastDecimal _ :=
      .point .minus (by decide) (by decide) (.inl (by decide))
    have hvalue : Decimal.value (utf8 "170141183460469231731".toList ++
        utf8 "687303715884105728".toList) = 2 ^ 127 := by rfl
    have hlength : (utf8 "687303715884105728".toList).length = 18 := by rfl
    rw [hvalue, hlength] at h
    have hx : signed true ((2 ^ 127 : ℕ) / 10 ^ 18) = (-2 ^ 127 : ℤ) / 10 ^ 18 := by
      norm_num [signed]
    rwa [hx] at h
  have hnot : ¬DecidedValue .decimal ((-2 ^ 127 : ℤ) / 10 ^ 18) := by
    rintro ⟨m, hm, hlow, -⟩
    rw [MAX_DECIDED_SCALE, div_left_inj' (by positivity)] at hm
    have hleast : (-2 ^ 127 : ℤ) = m := by exact_mod_cast hm
    rw [← hleast] at hlow
    exact absurd hlow (by decide)
  refine ⟨⟨leastDecimal, none, some (XSD ++ utf8 "decimal".toList)⟩, -2 ^ 127, ⟨.int 2⟩, rfl, rfl,
    hspells, by rfl, rfl, ⟨2, by norm_num, by decide, by decide, by simp, by simp⟩, ?_, ?_⟩
  · refine (compare_of_spells (y := 2) rfl numericKind_decimal rfl hspells rfl .lt).2 ?_
    rintro ⟨hvalue, -⟩
    exact hnot hvalue
  · have horder : compare (((-2 ^ 127 : ℤ) : ℚ) / 10 ^ 18) 2 = .lt :=
      compare_lt_iff_lt.mpr (by norm_num)
    rw [horder]
    rfl

end Dictionary
