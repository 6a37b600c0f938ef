/-
Bytes of a machine word searched at once.

Eight bytes read as one little-endian word are tested for a zero byte by one
subtraction: the lowest byte the test flags is a real zero, since a borrow only
reaches bytes above one.

* `leWord` — bytes as a little-endian number, bit by bit;
* `zeroFlags` — the test, with its flags in the high bit of every byte;
* `firstZero_eq` — the lowest flag is the first zero byte;
* `firstEqual_eq` — the first byte equal to another, by a zero in the word's
  difference from eight copies of it.
-/
import Mathlib.Tactic

namespace Swar

/-- Bytes as a little-endian number. -/
def leWord : List UInt8 → ℕ
  | [] => 0
  | b :: bytes => 2 ^ 8 * leWord bytes + b.toNat

/-- Eight copies of one byte. -/
def splat (b : UInt8) : BitVec 64 := BitVec.ofNat 64 (leWord (List.replicate 8 b))

/-- The high bit of each byte that the subtraction takes below zero and that was
not set before. -/
def zeroFlags (x : BitVec 64) : BitVec 64 := (x - splat 0x01) &&& ~~~x &&& splat 0x80

/-- `trailing_zeros`: the position of the lowest set bit, or the width. -/
def trailingZeros (x : BitVec 64) : ℕ := (List.range 64).findIdx fun i => x.getLsbD i

/-! ### Bits of a word -/

theorem leWord_lt (bytes : List UInt8) : leWord bytes < 2 ^ (8 * bytes.length) := by
  induction bytes with
  | nil => exact Nat.one_pos
  | cons b bytes ih =>
    have hb := b.toNat_lt
    rw [leWord, List.length_cons, Nat.mul_succ, Nat.pow_add, Nat.mul_comm (2 ^ (8 * _))]
    omega

theorem testBit_leWord {bytes : List UInt8} {i j : ℕ} (hj : j < 8) :
    (leWord bytes).testBit (8 * i + j) = (bytes.getD i 0).toNat.testBit j := by
  induction bytes generalizing i with
  | nil => simp [leWord]
  | cons b bytes ih =>
    rw [leWord, Nat.testBit_two_pow_mul_add _ b.toNat_lt]
    cases i with
    | zero => simp [hj]
    | succ i =>
      rw [if_neg (by omega), show 8 * (i + 1) + j - 8 = 8 * i + j by omega, ih]
      rfl

theorem leWord_xor (xs ys : List UInt8) (h : xs.length = ys.length) :
    leWord xs ^^^ leWord ys = leWord (xs.zipWith (· ^^^ ·) ys) := by
  refine Nat.eq_of_testBit_eq fun k => ?_
  have hj : k % 8 < 8 := Nat.mod_lt _ (by norm_num)
  rw [← Nat.div_add_mod k 8, Nat.testBit_xor, testBit_leWord hj, testBit_leWord hj,
    testBit_leWord hj]
  by_cases hlt : k / 8 < xs.length
  · have hlt' : k / 8 < ys.length := h ▸ hlt
    simp [hlt, hlt', ← Nat.testBit_xor]
  · have hge' : ys.length ≤ k / 8 := by omega
    simp [not_lt.mp hlt, hge']

/-! ### The subtraction, byte by byte -/

/-- The word with one subtracted from every byte, borrows included. -/
def decremented (bytes : List UInt8) : ℕ :=
  (leWord bytes + 2 ^ (8 * bytes.length) - leWord (List.replicate bytes.length 1)) %
    2 ^ (8 * bytes.length)

theorem mod_scaled (m n c : ℕ) (hc : c < 2 ^ 8) :
    (2 ^ 8 * m + c) % (2 ^ 8 * n) = 2 ^ 8 * (m % n) + c := by
  rw [Nat.mod_mul, Nat.mul_add_mod, Nat.mod_eq_of_lt hc, Nat.mul_add_div (by norm_num),
    Nat.div_eq_of_lt hc, Nat.add_zero, Nat.add_comm]

/-- A byte that is not zero borrows nothing from those above it. -/
theorem decremented_cons_of_ne {b : UInt8} {bytes : List UInt8} (hb : b.toNat ≠ 0) :
    decremented (b :: bytes) = 2 ^ 8 * decremented bytes + (b.toNat - 1) := by
  have hones := leWord_lt (List.replicate bytes.length 1)
  have hlt := b.toNat_lt
  rw [List.length_replicate] at hones
  rw [decremented, decremented, List.length_cons, List.replicate_succ, leWord, leWord,
    Nat.mul_succ, Nat.pow_add, Nat.mul_comm (2 ^ (8 * _)) (2 ^ 8),
    ← mod_scaled _ _ _ (show b.toNat - 1 < 2 ^ 8 by omega)]
  congr 1
  rw [show (1 : UInt8).toNat = 1 from rfl]
  omega

/-- A zero byte turns into ones. -/
theorem decremented_cons_zero (bytes : List UInt8) :
    ∃ rest, decremented (0 :: bytes) = 2 ^ 8 * rest + 255 := by
  have hones := leWord_lt (List.replicate bytes.length 1)
  rw [List.length_replicate] at hones
  refine ⟨(leWord bytes + 2 ^ (8 * bytes.length) -
    leWord (List.replicate bytes.length 1) - 1) % 2 ^ (8 * bytes.length), ?_⟩
  rw [decremented, List.length_cons, List.replicate_succ, leWord, leWord, Nat.mul_succ,
    Nat.pow_add, Nat.mul_comm (2 ^ (8 * _)) (2 ^ 8), ← mod_scaled _ _ _ (by norm_num)]
  congr 1
  rw [show (1 : UInt8).toNat = 1 from rfl, show (0 : UInt8).toNat = 0 from rfl]
  omega

theorem testBit_seven {m : ℕ} (hm : m < 2 ^ 8) : m.testBit 7 = decide (2 ^ 7 ≤ m) := by
  rw [Nat.testBit_eq_decide_div_mod_eq]
  congr 1
  rw [eq_iff_iff]
  omega

/-- Up to the first zero byte, the high bit of a byte comes up exactly when the
byte is zero. -/
theorem flag_iff {bytes : List UInt8} {k : ℕ} (hk : k < bytes.length)
    (hbefore : ∀ i, i < k → bytes.getD i 0 ≠ 0) :
    ((decremented bytes).testBit (8 * k + 7) = true ∧
      (leWord bytes).testBit (8 * k + 7) = false) ↔ bytes.getD k 0 = 0 := by
  induction bytes generalizing k with
  | nil => exact absurd hk (Nat.not_lt_zero k)
  | cons b bytes ih =>
    have hlt := b.toNat_lt
    cases k with
    | zero =>
      rw [Nat.mul_zero, Nat.zero_add, leWord, Nat.testBit_two_pow_mul_add _ hlt, if_pos (by norm_num),
        testBit_seven hlt, List.getD_cons_zero]
      by_cases hb : b = 0
      · subst hb
        obtain ⟨rest, hrest⟩ := decremented_cons_zero bytes
        rw [hrest, Nat.testBit_two_pow_mul_add _ (by norm_num), if_pos (by norm_num),
          testBit_seven (by norm_num)]
        simp
      · have hb' : b.toNat ≠ 0 := fun h => hb (UInt8.toNat_inj.mp h)
        rw [decremented_cons_of_ne hb',
          Nat.testBit_two_pow_mul_add _ (show b.toNat - 1 < 2 ^ 8 by omega), if_pos (by norm_num),
          testBit_seven (by omega)]
        simp only [decide_eq_true_eq, decide_eq_false_iff_not, hb, iff_false]
        omega
    | succ k =>
      have hb : b.toNat ≠ 0 := fun h => hbefore 0 (by omega) (UInt8.toNat_inj.mp h)
      rw [decremented_cons_of_ne hb, leWord,
        Nat.testBit_two_pow_mul_add _ (show b.toNat - 1 < 2 ^ 8 by omega),
        Nat.testBit_two_pow_mul_add _ hlt, if_neg (by omega), if_neg (by omega),
        show 8 * (k + 1) + 7 - 8 = 8 * k + 7 by omega, List.getD_cons_succ]
      exact ih (Nat.lt_of_succ_lt_succ hk) fun i hi => hbefore (i + 1) (by omega)

/-! ### The zero-byte test -/

theorem splplacetoNat (b : UInt8) : (splat b).toNat = leWord (List.replicate 8 b) := by
  rw [splat, BitVec.toNat_ofNat, Nat.mod_eq_of_lt]
  exact leWord_lt (List.replicate 8 b)

theorem splplacegetLsbD (b : UInt8) {k : ℕ} (hk : k < 64) :
    (splat b).getLsbD k = b.toNat.testBit (k % 8) := by
  have hj : k % 8 < 8 := Nat.mod_lt _ (by norm_num)
  rw [← BitVec.testBit_toNat, splplacetoNat]
  conv_lhs => rw [← Nat.div_add_mod k 8]
  rw [testBit_leWord hj]
  have hget : (List.replicate 8 b).getD (k / 8) 0 = b := by
    rw [List.getD_eq_getElem?_getD, List.getElem?_replicate_of_lt (by omega), Option.getD_some]
  rw [hget]

variable {bytes : List UInt8}

theorem word_toNat (hlen : bytes.length = 8) :
    (BitVec.ofNat 64 (leWord bytes)).toNat = leWord bytes := by
  rw [BitVec.toNat_ofNat, Nat.mod_eq_of_lt]
  simpa [hlen] using leWord_lt bytes

theorem zeroFlags_getLsbD (hlen : bytes.length = 8) {k : ℕ} (hk : k < 64) :
    (zeroFlags (BitVec.ofNat 64 (leWord bytes))).getLsbD k = true ↔
      k % 8 = 7 ∧ (decremented bytes).testBit k = true ∧ (leWord bytes).testBit k = false := by
  have hsub : (BitVec.ofNat 64 (leWord bytes) - splat 1).toNat = decremented bytes := by
    have hones := leWord_lt (List.replicate 8 1)
    rw [List.length_replicate] at hones
    rw [BitVec.toNat_sub, word_toNat hlen, splplacetoNat, decremented, hlen, Nat.add_comm (leWord bytes),
      Nat.sub_add_comm hones.le]
  have hhigh : (0x80 : UInt8).toNat.testBit (k % 8) = decide (k % 8 = 7) := by
    have hj : k % 8 < 8 := Nat.mod_lt _ (by norm_num)
    interval_cases k % 8 <;> rfl
  rw [zeroFlags, BitVec.getLsbD_and, BitVec.getLsbD_and, BitVec.getLsbD_not, splplacegetLsbD _ hk,
    hhigh, ← BitVec.testBit_toNat, hsub, ← BitVec.testBit_toNat, word_toNat hlen]
  simp [hk, and_comm]

/-- The test finds the first zero byte of a word. -/
theorem firstZero_eq (hlen : bytes.length = 8) :
    (if zeroFlags (BitVec.ofNat 64 (leWord bytes)) ≠ 0#64 then
      some (trailingZeros (zeroFlags (BitVec.ofNat 64 (leWord bytes))) / 8) else none) =
      bytes.findIdx? (· == 0) := by
  set flags := zeroFlags (BitVec.ofNat 64 (leWord bytes)) with hflags
  cases hfind : bytes.findIdx? (· == 0) with
  | none =>
    have hne : ∀ i, i < bytes.length → bytes.getD i 0 ≠ 0 := by
      intro i hi
      have := List.findIdx?_eq_none_iff.mp hfind bytes[i] (List.getElem_mem hi)
      simpa [hi] using this
    have hzero : flags = 0#64 := by
      refine BitVec.eq_of_getLsbD_eq fun k hk => ?_
      rw [BitVec.getLsbD_zero, Bool.eq_false_iff]
      intro hbit
      obtain ⟨hmod, hdec, hword⟩ := (zeroFlags_getLsbD hlen hk).mp hbit
      have hk8 : k / 8 < bytes.length := by omega
      rw [← Nat.div_add_mod k 8, hmod] at hdec hword
      exact hne (k / 8) hk8
        ((flag_iff hk8 fun i hi => hne i (by omega)).mp ⟨hdec, hword⟩)
    rw [if_neg (not_not.mpr hzero)]
  | some place =>
    obtain ⟨hat, hzero, hbefore⟩ := List.findIdx?_eq_some_iff_getElem.mp hfind
    have hne : ∀ i, i < place → bytes.getD i 0 ≠ 0 := by
      intro i hi
      have hi' : i < bytes.length := by omega
      simpa [hi'] using hbefore i hi
    have hset : flags.getLsbD (8 * place + 7) = true := by
      have hflag := (flag_iff hat hne).mpr (by simpa [hat] using hzero)
      exact (zeroFlags_getLsbD hlen (by omega)).mpr ⟨by omega, hflag⟩
    -- a flag below the first zero byte would be a zero byte before it
    have hclear : ∀ k, k < 8 * place + 7 → flags.getLsbD k = false := by
      intro k hk
      rw [Bool.eq_false_iff]
      intro hbit
      obtain ⟨hmod, hdec, hword⟩ := (zeroFlags_getLsbD hlen (by omega)).mp hbit
      have hi : k / 8 < place := by omega
      rw [← Nat.div_add_mod k 8, hmod] at hdec hword
      exact hne (k / 8) hi
        ((flag_iff (by omega) fun i hi' => hne i (by omega)).mp ⟨hdec, hword⟩)
    have htrail : trailingZeros flags = 8 * place + 7 := by
      rw [trailingZeros, List.findIdx_eq (by simp; omega)]
      refine ⟨by simpa using hset, fun k hk => ?_⟩
      simpa using hclear k hk
    have hne0 : flags ≠ 0#64 := by
      intro h0
      rw [h0, BitVec.getLsbD_zero] at hset
      exact Bool.false_ne_true hset
    rw [if_pos hne0, htrail]
    congr 1
    omega

/-- The test applied to the difference from eight copies of a byte finds the first
occurrence of it. -/
theorem firstEqual_eq (hlen : bytes.length = 8) (b : UInt8) :
    (if zeroFlags (BitVec.ofNat 64 (leWord bytes) ^^^ splat b) ≠ 0#64 then
      some (trailingZeros (zeroFlags (BitVec.ofNat 64 (leWord bytes) ^^^ splat b)) / 8) else none) =
      bytes.findIdx? (· == b) := by
  have hxor : BitVec.ofNat 64 (leWord bytes) ^^^ splat b =
      BitVec.ofNat 64 (leWord (bytes.map (· ^^^ b))) := by
    rw [splat, ← BitVec.ofNat_xor, leWord_xor _ _ (by simp [hlen])]
    congr 2
    rw [← hlen]
    clear hlen
    induction bytes with
    | nil => rfl
    | cons a bytes ih => simp [List.replicate_succ, ih]
  rw [hxor, firstZero_eq (by simp [hlen]), List.findIdx?_map]
  congr 1
  funext a
  rw [Function.comp_apply, Bool.eq_iff_iff, beq_iff_eq, beq_iff_eq]
  exact UInt8.xor_eq_zero_iff

end Swar
