/-
Numbers in decimal digits, over ASCII bytes.

* `Decimal.IsDigits` — a string of digits;
* `Decimal.value` — the number it spells, by the rule of Horner;
* `Decimal.value_append`, `Decimal.value_replicate_zero` — digits one behind the other;
* `Decimal.ofNat` — a number's digits, and `value_ofNat`, `ofNat_getLast` on what they spell
  and end in.
-/
import Mathlib.Data.Nat.Digits.Defs
import Mathlib.Tactic

namespace Decimal

/-- Digits only. -/
def IsDigits (s : List UInt8) : Prop := ∀ b ∈ s, 0x30 ≤ b ∧ b ≤ 0x39

instance (s : List UInt8) : Decidable (IsDigits s) :=
  List.decidableBAll _ s

/-- The number digits spell, the most significant first. -/
def value (s : List UInt8) : ℕ := s.foldl (fun v b => v * 10 + (b - 0x30).toNat) 0

theorem foldl_value (s : List UInt8) (v : ℕ) :
    s.foldl (fun v b => v * 10 + (b - 0x30).toNat) v = v * 10 ^ s.length + value s := by
  unfold value
  induction s generalizing v with
  | nil => simp
  | cons b s ih =>
    rw [List.foldl_cons, List.foldl_cons, ih, ih (0 * 10 + (b - 0x30).toNat), List.length_cons]
    ring

theorem value_append (s t : List UInt8) : value (s ++ t) = value s * 10 ^ t.length + value t := by
  rw [value, List.foldl_append, foldl_value]
  rfl

theorem value_singleton (b : UInt8) : value [b] = (b - 0x30).toNat := by
  simp [value]

theorem value_replicate_zero (n : ℕ) : value (List.replicate n 0x30) = 0 := by
  induction n with
  | zero => rfl
  | succ n ih =>
    rw [List.replicate_succ', value_append, ih, value_singleton]
    simp

theorem isDigits_append {s t : List UInt8} : IsDigits (s ++ t) ↔ IsDigits s ∧ IsDigits t :=
  List.forall_mem_append

theorem isDigits_replicate_zero (n : ℕ) : IsDigits (List.replicate n 0x30) := by
  intro b hb
  rw [(List.mem_replicate.mp hb).2]
  decide

/-- A digit's byte. -/
def digit (d : ℕ) : UInt8 := 0x30 + UInt8.ofNat d

theorem digit_sub {d : ℕ} (h : d < 10) : (digit d - 0x30).toNat = d := by
  interval_cases d <;> rfl

theorem isDigit_digit {d : ℕ} (h : d < 10) : 0x30 ≤ digit d ∧ digit d ≤ 0x39 := by
  interval_cases d <;> decide

theorem digit_eq_zero {d : ℕ} (h : d < 10) : digit d = 0x30 ↔ d = 0 := by
  interval_cases d <;> decide

/-- The digits of a number, without leading zeros. -/
def ofNat (n : ℕ) : List UInt8 := if n = 0 then [0x30] else ((Nat.digits 10 n).map digit).reverse

theorem ofNat_eq {n : ℕ} (h : n ≠ 0) :
    ofNat n = ((Nat.digits 10 (n / 10)).map digit).reverse ++ [digit (n % 10)] := by
  rw [ofNat, if_neg h, Nat.digits_def' (by norm_num) (Nat.pos_of_ne_zero h), List.map_cons,
    List.reverse_cons]

theorem isDigits_ofNat (n : ℕ) : IsDigits (ofNat n) := by
  intro b hb
  unfold ofNat at hb
  split at hb
  case isTrue =>
    rw [List.mem_singleton.mp hb]
    decide
  case isFalse =>
    rw [List.mem_reverse, List.mem_map] at hb
    obtain ⟨d, hd, rfl⟩ := hb
    exact isDigit_digit (Nat.digits_lt_base (by norm_num) hd)

theorem ofNat_ne_nil (n : ℕ) : ofNat n ≠ [] := by
  unfold ofNat
  split
  case isTrue => simp
  case isFalse h => simpa [Nat.digits_eq_nil_iff_eq_zero] using h

theorem value_ofNat (n : ℕ) : value (ofNat n) = n := by
  induction n using Nat.strong_induction_on with
  | _ n ih =>
    by_cases hn : n = 0
    · subst hn
      rfl
    have hlt : n % 10 < 10 := Nat.mod_lt n (by norm_num)
    rw [ofNat_eq hn, value_append, value_singleton, digit_sub hlt]
    by_cases hdiv : n / 10 = 0
    · rw [hdiv, Nat.digits_zero]
      show 0 * 10 ^ 1 + n % 10 = n
      omega
    · -- the digits before the last spell the quotient
      have hrest := ih (n / 10) (by omega)
      rw [ofNat, if_neg hdiv] at hrest
      rw [hrest]
      show n / 10 * 10 ^ 1 + n % 10 = n
      omega

/-- A number no multiple of ten does not end in a zero. -/
theorem ofNat_getLast {n : ℕ} (h : n % 10 ≠ 0) :
    ∃ front b, ofNat n = front ++ [b] ∧ b ≠ 0x30 := by
  have hn : n ≠ 0 := by
    rintro rfl
    exact h rfl
  refine ⟨_, _, ofNat_eq hn, ?_⟩
  rwa [Ne, digit_eq_zero (Nat.mod_lt n (by norm_num))]

end Decimal
