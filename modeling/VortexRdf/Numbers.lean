/-
The numeric value model behind the numeric predicates.

A literal's lexical form is read into the model and classified: a number the model
decides, no numeric value, or a value left to the engine.  Two numbers compare after
one is promoted to the other's type.

* `Floats` — single and double precision, as the language has them;
* `parseNumber`, `operand` — a lexical form read, and what a literal is to a comparison;
* `compareExact`, `promoteToDouble`, `promoteToFloat`, `compareNums` — the comparisons;
* `Number.compare` — the verdict of a literal against a constant;
* `compareExact_eq` — decided integers and decimals compare as the rationals they are.
-/
import VortexRdf.LiteralViews

namespace Dictionary

open Terms

/-! ### Numbers -/

/-- The floating-point types and what is done with them. -/
structure Floats where
  F32 : Type
  F64 : Type
  parse32 : Str → Option F32
  parse64 : Str → Option F64
  isFinite32 : F32 → Bool
  isFinite64 : F64 → Bool
  partialCmp32 : F32 → F32 → Option Ordering
  partialCmp64 : F64 → F64 → Option Ordering
  /-- `f64::from` -/
  widen : F32 → F64
  /-- `as f32` -/
  narrow : F64 → F32
  /-- `as f64` -/
  ofInt : ℤ → F64
  add : F64 → F64 → F64
  div : F64 → F64 → F64
  nextUp : F32 → F32
  nextDown : F32 → F32

/-- `i128::MAX` -/
def I128_MAX : ℤ := 0x7fffffffffffffffffffffffffffffff

/-- An `i128` result, none on an overflow. -/
def checked128 (x : ℤ) : Option ℤ := if -I128_MAX - 1 ≤ x ∧ x ≤ I128_MAX then some x else none

inductive Num (fl : Floats) where
  | int (i : ℤ)
  /-- `mantissa / 10 ^ scale` -/
  | dec (mantissa : ℤ) (scale : ℕ)
  | float (f : fl.F32)
  | double (f : fl.F64)

inductive NumKind where
  | int (lo hi : Option ℤ)
  | decimal
  | float
  | double

def NUMERIC_TYPES : List (String × NumKind) :=
  [("integer", .int none none), ("nonPositiveInteger", .int none (some 0)),
    ("negativeInteger", .int none (some (-1))), ("nonNegativeInteger", .int (some 0) none),
    ("positiveInteger", .int (some 1) none),
    ("long", .int (some (-(2 ^ 63))) (some (2 ^ 63 - 1))),
    ("int", .int (some (-(2 ^ 31))) (some (2 ^ 31 - 1))),
    ("short", .int (some (-(2 ^ 15))) (some (2 ^ 15 - 1))),
    ("byte", .int (some (-(2 ^ 7))) (some (2 ^ 7 - 1))),
    ("unsignedLong", .int (some 0) (some (2 ^ 64 - 1))),
    ("unsignedInt", .int (some 0) (some (2 ^ 32 - 1))),
    ("unsignedShort", .int (some 0) (some (2 ^ 16 - 1))),
    ("unsignedByte", .int (some 0) (some (2 ^ 8 - 1))), ("decimal", .decimal), ("float", .float),
    ("double", .double)]

def numericKind (datatype : Str) : Option NumKind :=
  (stripPrefix XSD datatype).bind fun name =>
    (NUMERIC_TYPES.find? fun entry => utf8 entry.1.toList == name).map (·.2)

/-- A lexical form read under a numeric datatype. -/
inductive Parsed (fl : Floats) where
  | value (n : Num fl)
  /-- No value of the model, though an engine may give it one. -/
  | unheld
  | illTyped

/-- The sign, `true` for `-`, and the rest. -/
def splitSign (lexical : Str) : Bool × Str :=
  match stripPrefix [0x2d] lexical with
  | some rest => (true, rest)
  | none => (false, (stripPrefix [0x2b] lexical).getD lexical)

def allDigits (s : Str) : Bool := s.all isAsciiDigit

/-- The value of decimal digits, the most significant first. -/
def digitsValue (digits : Str) : Option ℤ :=
  digits.foldlM (fun v digit => (checked128 (v * 10)).bind fun v =>
    checked128 (v + ((digit - 0x30).toNat : ℤ))) 0

/-- `split_once` at a byte. -/
def splitOnce (b : UInt8) (s : Str) : Option (Str × Str) :=
  (s.findIdx? (· == b)).map fun i => (s.take i, s.drop (i + 1))

def splitDecimal (body : Str) : Option (Str × Str) :=
  let (intPart, fracPart) := (splitOnce 0x2e body).getD (body, [])
  if !(intPart.isEmpty && fracPart.isEmpty) && allDigits intPart && allDigits fracPart then
    some (intPart, fracPart)
  else none

def eqIgnoreAsciiCase (a b : Str) : Bool := a.map toAsciiLowercase == b.map toAsciiLowercase

section Parsing

variable {fl : Floats}

def parseInteger (lexical : Str) : Parsed fl :=
  let (neg, digits) := splitSign lexical
  if digits.isEmpty || !allDigits digits then .illTyped
  else
    match digitsValue digits with
    | some v => .value (.int (if neg then -v else v))
    | none => .unheld

def parseDecimal (lexical : Str) : Parsed fl :=
  let (neg, body) := splitSign lexical
  match splitDecimal body with
  | none => .illTyped
  | some (intPart, fracPart) =>
    let fracPart := (fracPart.reverse.dropWhile (· == 0x30)).reverse
    match digitsValue (intPart ++ fracPart) with
    | some mantissa =>
      if fracPart.length < 2 ^ 32 then
        .value (.dec (if neg then -mantissa else mantissa) fracPart.length)
      else .unheld
    | none => .unheld

def Num.isFinite : Num fl → Bool
  | .float f => fl.isFinite32 f
  | .double f => fl.isFinite64 f
  | .int _ => true
  | .dec _ _ => true

/-- The text before an exponent, and the exponent. -/
def splitExponent (body : Str) : Str × Option Str :=
  match body.findIdx? fun b => b == 0x65 || b == 0x45 with
  | some i => (body.take i, some (body.drop (i + 1)))
  | none => (body, none)

def parseFloat (lexical : Str) (parse : Str → Option (Num fl)) : Parsed fl :=
  let body := (splitSign lexical).2
  if ["inf", "infinity", "nan"].any fun special => eqIgnoreAsciiCase body (utf8 special.toList) then
    .unheld
  else
    let (mantissa, exponent) := splitExponent body
    let exponentOk := exponent.all fun exp =>
      let digits := (splitSign exp).2
      !digits.isEmpty && allDigits digits
    if (splitDecimal mantissa).isNone || !exponentOk then .illTyped
    else
      match parse lexical with
      | some value => if value.isFinite then .value value else .unheld
      | none => .unheld

/-- An XSD lexical form read into the model. -/
def parseNumber (lexical : Str) : NumKind → Parsed fl
  | .int lo hi =>
    match parseInteger lexical with
    | .value (.int v) =>
      if lo.any (v < ·) || hi.any (· < v) then .unheld else .value (.int v)
    | parsed => parsed
  | .decimal => parseDecimal lexical
  | .float => parseFloat lexical fun s => (fl.parse32 s).map .float
  | .double => parseFloat lexical fun s => (fl.parse64 s).map .double

/-! ### Comparisons -/

def F64_EXACT_INT : ℕ := 1 <<< 53

def F64_EXACT_MANTISSA : ℕ := 10 ^ 15

def MAX_DECIDED_SCALE : ℕ := 18

/-- The engines hold the value as the specification does. -/
def Num.decided : Num fl → Bool
  | .int i => decide (-(2 ^ 63) ≤ i) && decide (i < 2 ^ 63)
  | .dec mantissa scale =>
    decide (scale ≤ MAX_DECIDED_SCALE) &&
      (checked128 (mantissa * 10 ^ (MAX_DECIDED_SCALE - scale))).isSome
  | .float _ => true
  | .double _ => true

def Num.scaled : Num fl → Option (ℤ × ℕ)
  | .int i => some (i, 0)
  | .dec mantissa scale => some (mantissa, scale)
  | .float _ => none
  | .double _ => none

/-- Two integers or decimals, exactly, at the larger scale. -/
def compareExact (a b : Num fl) : Option Ordering := do
  let (ma, sa) ← a.scaled
  let (mb, sb) ← b.scaled
  let scale := max sa sb
  let xa ← checked128 (ma * (← checked128 (10 ^ (scale - sa))))
  let xb ← checked128 (mb * (← checked128 (10 ^ (scale - sb))))
  return compare xa xb

def intToDouble (i : ℤ) : Option fl.F64 :=
  if i.natAbs < F64_EXACT_INT then some (fl.ofInt i) else none

/-- The double an integer or a decimal promotes to. -/
def promoteToDouble : Num fl → Option fl.F64
  | .int i => intToDouble i
  | .dec mantissa 0 => intToDouble mantissa
  | .dec mantissa scale =>
    if scale ≤ MAX_DECIDED_SCALE ∧ mantissa.natAbs < F64_EXACT_MANTISSA then
      some (fl.div (fl.ofInt mantissa) (fl.ofInt (10 ^ scale)))
    else none
  | .float _ => none
  | .double _ => none

/-- Halfway between two adjacent floats. -/
def halfwayBetweenFloats (fl : Floats) (x : fl.F64) : Bool :=
  let near := fl.narrow x
  let far := if fl.partialCmp64 (fl.widen near) x = some .lt then fl.nextUp near else fl.nextDown near
  fl.partialCmp64 (fl.widen near) x != some .eq &&
    fl.partialCmp64 (fl.div (fl.add (fl.widen near) (fl.widen far)) (fl.ofInt 2)) x == some .eq

/-- The two floats an integer or a decimal may promote to. -/
def promoteToFloat (n : Num fl) : Option (fl.F32 × fl.F32) := do
  let double ← promoteToDouble n
  let twice := fl.narrow double
  match n with
  | .dec mantissa scale =>
    if 0 < scale ∧ halfwayBetweenFloats fl double then
      let once ← fl.parse32 (utf8 (toString mantissa ++ "e-" ++ toString scale).toList)
      return (once, twice)
    else return (twice, twice)
  | _ => return (twice, twice)

/-- The orderings of an exact number against a float or a double. -/
def comparePromoted (a b : Num fl) : Option (Ordering × Ordering) :=
  match b with
  | .float y => do
    let (p, q) ← promoteToFloat a
    return (← fl.partialCmp32 p y, ← fl.partialCmp32 q y)
  | .double y => do
    let ord ← fl.partialCmp64 (← promoteToDouble a) y
    return (ord, ord)
  | _ => none

/-- The orderings `a` may take against `b`; none where the engine decides. -/
def compareNums (a b : Num fl) : Option (Ordering × Ordering) :=
  let once := fun ord : Ordering => (ord, ord)
  if !a.decided || !b.decided then none
  else
    match a, b with
    | .float x, .float y => (fl.partialCmp32 x y).map once
    | .double x, .double y => (fl.partialCmp64 x y).map once
    | .float x, .double y => (fl.partialCmp64 (fl.widen x) y).map once
    | .double x, .float y => (fl.partialCmp64 x (fl.widen y)).map once
    | .float x, b => (comparePromoted b (.float x)).map fun (p, q) => (p.swap, q.swap)
    | .double x, b => (comparePromoted b (.double x)).map fun (p, q) => (p.swap, q.swap)
    | a, .float y => comparePromoted a (.float y)
    | a, .double y => comparePromoted a (.double y)
    | a, b => (compareExact a b).map once

/-- The rational an integer or a decimal is. -/
def Num.exact : Num fl → Option ℚ
  | .int i => some i
  | .dec mantissa scale => some (mantissa / 10 ^ scale)
  | .float _ => none
  | .double _ => none

theorem Num.exact_eq_some {n : Num fl} {x : ℚ} (h : n.exact = some x) :
    ∃ m s, n.scaled = some (m, s) ∧ x = (m : ℚ) / 10 ^ s := by
  cases n with
  | int i => exact ⟨i, 0, rfl, by rw [← Option.some.inj h]; simp⟩
  | dec mantissa scale => exact ⟨mantissa, scale, rfl, (Option.some.inj h).symm⟩
  | float f => cases h
  | double f => cases h

theorem checked128_eq_some {x : ℤ} (h : -I128_MAX - 1 ≤ x ∧ x ≤ I128_MAX) :
    checked128 x = some x := by
  rw [checked128, if_pos h]

/-- A decided number's mantissa keeps in range at the largest scale. -/
theorem Num.decided_fits {n : Num fl} (h : n.decided = true) {m : ℤ} {s : ℕ}
    (hscaled : n.scaled = some (m, s)) :
    s ≤ MAX_DECIDED_SCALE ∧ -I128_MAX - 1 ≤ m * 10 ^ (MAX_DECIDED_SCALE - s) ∧
      m * 10 ^ (MAX_DECIDED_SCALE - s) ≤ I128_MAX := by
  cases n with
  | int i =>
    obtain ⟨rfl, rfl⟩ : i = m ∧ 0 = s := by simpa [Num.scaled] using hscaled
    rw [Num.decided, Bool.and_eq_true, decide_eq_true_eq, decide_eq_true_eq] at h
    refine ⟨Nat.zero_le _, ?_⟩
    change -I128_MAX - 1 ≤ i * 10 ^ 18 ∧ i * 10 ^ 18 ≤ I128_MAX
    rw [I128_MAX]
    omega
  | dec mantissa scale =>
    obtain ⟨rfl, rfl⟩ : mantissa = m ∧ scale = s := by simpa [Num.scaled] using hscaled
    rw [Num.decided, Bool.and_eq_true, decide_eq_true_eq, checked128] at h
    refine ⟨h.1, ?_⟩
    by_contra hout
    rw [if_neg hout] at h
    exact absurd h.2 (by simp)
  | float f => cases hscaled
  | double f => cases hscaled

/-- It does at any scale up to that one. -/
theorem checked128_scaled {m : ℤ} {scale s : ℕ} (hscale : scale ≤ MAX_DECIDED_SCALE)
    (h : -I128_MAX - 1 ≤ m * 10 ^ (MAX_DECIDED_SCALE - s) ∧
      m * 10 ^ (MAX_DECIDED_SCALE - s) ≤ I128_MAX) :
    checked128 (m * 10 ^ (scale - s)) = some (m * 10 ^ (scale - s)) := by
  obtain ⟨j, hj⟩ : ∃ j, MAX_DECIDED_SCALE - s = scale - s + j :=
    ⟨MAX_DECIDED_SCALE - scale - (s - scale), by omega⟩
  have hone : (1 : ℤ) ≤ 10 ^ j := one_le_pow₀ (by norm_num)
  have hmax : 0 ≤ I128_MAX := by decide
  rw [hj, pow_add, ← mul_assoc] at h
  obtain ⟨z, hz⟩ : ∃ z, z = m * 10 ^ (scale - s) := ⟨_, rfl⟩
  rw [← hz] at h ⊢
  refine checked128_eq_some ⟨?_, ?_⟩
  · nlinarith
  · nlinarith

theorem checked128_pow {k : ℕ} (h : k ≤ MAX_DECIDED_SCALE) :
    checked128 ((10 : ℤ) ^ k) = some (10 ^ k) := by
  have hle : (10 : ℤ) ^ k ≤ 10 ^ 18 := pow_le_pow_right₀ (by norm_num) h
  have hpos : (0 : ℤ) < 10 ^ k := by positivity
  refine checked128_eq_some ⟨?_, hle.trans ?_⟩
  · have hmax : -I128_MAX - 1 ≤ 0 := by decide
    exact hmax.trans hpos.le
  · rw [I128_MAX]
    norm_num

/-- At a common scale the mantissas compare as the rationals. -/
theorem compare_scaled {ma mb : ℤ} {sa sb scale : ℕ} (ha : sa ≤ scale) (hb : sb ≤ scale) :
    compare (ma * 10 ^ (scale - sa)) (mb * 10 ^ (scale - sb)) =
      compare ((ma : ℚ) / 10 ^ sa) ((mb : ℚ) / 10 ^ sb) := by
  have hscaled : ∀ {m : ℤ} {s : ℕ}, s ≤ scale →
      ((m * 10 ^ (scale - s) : ℤ) : ℚ) = (m : ℚ) / 10 ^ s * 10 ^ scale := by
    intro m s hs
    have hsplit : (10 : ℚ) ^ scale = 10 ^ (scale - s) * 10 ^ s := by
      rw [← pow_add, Nat.sub_add_cancel hs]
    rw [hsplit]
    push_cast
    field_simp
  have hpos : (0 : ℚ) < 10 ^ scale := by positivity
  have ha' := @hscaled ma sa ha
  have hb' := @hscaled mb sb hb
  rcases lt_trichotomy ((ma : ℚ) / 10 ^ sa) ((mb : ℚ) / 10 ^ sb) with hlt | heq | hgt
  · rw [compare_lt_iff_lt.mpr hlt, compare_lt_iff_lt]
    have := mul_lt_mul_of_pos_right hlt hpos
    rw [← ha', ← hb'] at this
    exact_mod_cast this
  · rw [compare_eq_iff_eq.mpr heq, compare_eq_iff_eq]
    rw [heq, ← hb'] at ha'
    exact_mod_cast ha'
  · rw [compare_gt_iff_gt.mpr hgt, compare_gt_iff_gt]
    have := mul_lt_mul_of_pos_right hgt hpos
    rw [← ha', ← hb'] at this
    exact_mod_cast this

/-- Decided integers and decimals compare as the rationals they are. -/
theorem compareExact_eq {a b : Num fl} (ha : a.decided = true) (hb : b.decided = true) {x y : ℚ}
    (hx : a.exact = some x) (hy : b.exact = some y) : compareExact a b = some (compare x y) := by
  obtain ⟨ma, sa, hsa, rfl⟩ := Num.exact_eq_some hx
  obtain ⟨mb, sb, hsb, rfl⟩ := Num.exact_eq_some hy
  obtain ⟨hla, hma⟩ := Num.decided_fits ha hsa
  obtain ⟨hlb, hmb⟩ := Num.decided_fits hb hsb
  have hmax : max sa sb ≤ MAX_DECIDED_SCALE := max_le hla hlb
  have hpow : ∀ s, checked128 ((10 : ℤ) ^ (max sa sb - s)) = some (10 ^ (max sa sb - s)) :=
    fun s => checked128_pow ((Nat.sub_le _ s).trans hmax)
  rw [compareExact, hsa, hsb]
  simp only [Option.bind_eq_bind, Option.bind_some, hpow, checked128_scaled hmax hma,
    checked128_scaled hmax hmb, compare_scaled (le_max_left sa sb) (le_max_right sa sb)]
  rfl

/-! ### Literals against a constant -/

inductive Operand (fl : Floats) where
  | number (n : Num fl)
  | noValue
  | undecided

def operand (lit : LiteralView) : Operand fl :=
  match lit.datatype with
  | none => .noValue
  | some datatype =>
    if BACKSLASH ∈ datatype then .undecided
    else
      match numericKind datatype with
      | none => .noValue
      | some kind =>
        match lit.lexical with
        | none => .undecided
        | some lexical =>
          match parseNumber lexical kind with
          | .value value => if value.decided then .number value else .undecided
          | .unheld => .undecided
          | .illTyped => .noValue

end Parsing

structure Number (fl : Floats) where
  value : Num fl

/-- `lit op constant`. -/
def Number.compare {fl : Floats} (number : Number fl) (op : NumOp) (lit : LiteralView) : Verdict :=
  match operand lit with
  | .number value =>
    match compareNums value number.value with
    | some (p, q) => if op.apply p = op.apply q then op.apply p else .unknown
    | none => .unknown
  | .noValue => if op = .ne then .unknown else .false
  | .undecided => .unknown

end Dictionary
