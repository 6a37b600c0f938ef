/-
The set bits of a word, lowest first, and a bitmap read back in order.

A word is read by taking its lowest set bit and clearing it until nothing is left; a
bitmap is words side by side, bit `b` of the map the bit `b % w` of word `b / w`.  Read
back word by word, a bitmap lists what was set in it in ascending order.

* `testBit_clearLowest` — clearing the lowest set bit clears that one alone;
* `setBits_eq` — the loop lists the set bits;
* `bitAt_setAll` — the bits of a bitmap after some are set;
* `listed_eq` — the bitmap read back.
-/
import Mathlib.Data.List.GetD
import Mathlib.Data.List.Sort
import Mathlib.Tactic

namespace Bits

/-! ### One word -/

/-- The place of the lowest set bit of a word of `w` bits, or the width. -/
def trailingZeros (w word : ℕ) : ℕ := (List.range w).findIdx word.testBit

/-- The word without its lowest set bit. -/
def clearLowest (word : ℕ) : ℕ := word &&& (word - 1)

theorem testBit_clearLowest {word t : ℕ} (ht : word.testBit t = true)
    (hlow : ∀ i, i < t → word.testBit i = false) (i : ℕ) :
    (clearLowest word).testBit i = (word.testBit i && decide (i ≠ t)) := by
  have hmod : word % 2 ^ t = 0 := by
    refine Nat.eq_of_testBit_eq fun i => ?_
    rw [Nat.testBit_mod_two_pow, Nat.zero_testBit]
    by_cases hi : i < t
    · rw [hlow i hi, Bool.and_false]
    · rw [decide_eq_false hi, Bool.false_and]
  have hword : word = 2 ^ t * (word / 2 ^ t) + 0 := by
    have := Nat.div_add_mod word (2 ^ t)
    omega
  have hpow := Nat.two_pow_pos t
  -- above its lowest set bit, a word and its predecessor agree
  have hodd : (word / 2 ^ t) % 2 = 1 := by
    have := ht
    rw [Nat.testBit_eq_decide_div_mod_eq, decide_eq_true_eq] at this
    exact this
  obtain ⟨q, hq⟩ : ∃ q, word / 2 ^ t = 2 * q + 1 := ⟨word / 2 ^ t / 2, by omega⟩
  have hpred : word - 1 = 2 ^ t * (2 * q) + (2 ^ t - 1) := by
    rw [hword, hq, Nat.mul_add, Nat.mul_one]
    omega
  rw [clearLowest, Nat.testBit_and]
  by_cases hi : i < t
  · rw [hlow i hi, Bool.false_and, Bool.false_and]
  · have hw : word.testBit i = (2 * q + 1).testBit (i - t) := by
      rw [hword, hq, Nat.testBit_two_pow_mul_add _ hpow, if_neg hi]
    have hp : (word - 1).testBit i = (2 * q).testBit (i - t) := by
      rw [hpred, Nat.testBit_two_pow_mul_add _ (by omega), if_neg hi]
    rw [hw, hp]
    rcases Nat.eq_or_lt_of_le (Nat.le_of_not_lt hi) with rfl | hlt
    · simp [Nat.testBit_zero]
    · obtain ⟨k, hk⟩ := Nat.exists_eq_succ_of_ne_zero (Nat.sub_ne_zero_of_lt hlt)
      rw [hk, Nat.testBit_succ, Nat.testBit_succ, decide_eq_true hlt.ne', Bool.and_true,
        show (2 * q + 1) / 2 = q by omega, show 2 * q / 2 = q by omega, Bool.and_self]

/-- The set bits of a word, each cleared as it is taken. -/
def setBits (w : ℕ) : ℕ → ℕ → List ℕ
  | 0, _ => []
  | fuel + 1, word =>
    if word = 0 then [] else trailingZeros w word :: setBits w fuel (clearLowest word)

theorem lowest_spec {w word : ℕ} (hword : word ≠ 0) (hw : ∀ i, word.testBit i = true → i < w) :
    word.testBit (trailingZeros w word) = true ∧ trailingZeros w word < w ∧
      ∀ i, i < trailingZeros w word → word.testBit i = false := by
  obtain ⟨k, hk⟩ := Nat.exists_testBit_of_ne_zero hword
  have hfind := @List.findIdx_lt_length_of_exists ℕ word.testBit (List.range w)
    ⟨k, List.mem_range.mpr (hw k hk), hk⟩
  have hset := List.findIdx_getElem (w := hfind)
  rw [List.getElem_range] at hset
  refine ⟨hset, by rwa [List.length_range] at hfind, fun i hi => ?_⟩
  have hnot := List.not_of_lt_findIdx hi
  rw [List.getElem_range] at hnot
  simpa using hnot

theorem sortedLT_setRange (w word : ℕ) : ((List.range w).filter word.testBit).SortedLT :=
  (List.sortedLT_range w).pairwise.sublist List.filter_sublist |>.sortedLT

theorem mem_setRange {w word i : ℕ} :
    i ∈ (List.range w).filter word.testBit ↔ i < w ∧ word.testBit i = true := by
  rw [List.mem_filter, List.mem_range]

theorem setBits_eq {w : ℕ} : ∀ {fuel word : ℕ}, (∀ i, word.testBit i = true → i < w) →
    ((List.range w).filter word.testBit).length ≤ fuel →
      setBits w fuel word = (List.range w).filter word.testBit
  | 0, word, _, hfuel => (List.length_eq_zero_iff.mp (Nat.le_zero.mp hfuel)).symm
  | fuel + 1, word, hw, hfuel => by
    rw [setBits]
    split_ifs with hzero
    · refine (List.filter_eq_nil_iff.mpr fun i _ => ?_).symm
      rw [hzero, Nat.zero_testBit]
      exact Bool.false_ne_true
    obtain ⟨hset, hlt, hlow⟩ := lowest_spec hzero hw
    have hclear := testBit_clearLowest hset hlow
    have hrest : ∀ i, (clearLowest word).testBit i = true ↔
        word.testBit i = true ∧ i ≠ trailingZeros w word := by
      intro i
      rw [hclear, Bool.and_eq_true, decide_eq_true_eq]
    -- the set bits are the lowest and those of the word without it
    have hcons : (List.range w).filter word.testBit =
        trailingZeros w word :: (List.range w).filter (clearLowest word).testBit := by
      refine (sortedLT_setRange w word).eq_of_mem_iff ?_ fun i => ?_
      · refine List.Pairwise.sortedLT (List.pairwise_cons.mpr
          ⟨fun i hi => ?_, (sortedLT_setRange w _).pairwise⟩)
        have hi := (hrest i).mp (mem_setRange.mp hi).2
        by_contra hle
        have hlower := hlow i (lt_of_le_of_ne (Nat.le_of_not_lt hle) hi.2)
        rw [hi.1] at hlower
        cases hlower
      · rw [List.mem_cons, mem_setRange, mem_setRange, hrest]
        constructor
        · rintro ⟨hi, hbit⟩
          by_cases heq : i = trailingZeros w word
          · exact .inl heq
          · exact .inr ⟨hi, hbit, heq⟩
        · rintro (rfl | ⟨hi, hbit, -⟩)
          · exact ⟨hlt, hset⟩
          · exact ⟨hi, hbit⟩
    rw [hcons, List.length_cons] at hfuel
    rw [hcons, setBits_eq (fun i hi => hw i ((hrest i).mp hi).1) (Nat.le_of_succ_le_succ hfuel)]

/-! ### A bitmap -/

/-- Bit `b` of a bitmap of `w`-bit words. -/
def bitAt (w : ℕ) (words : List ℕ) (b : ℕ) : Bool := (words.getD (b / w) 0).testBit (b % w)

/-- A bitmap with some bits set. -/
def setAll (w : ℕ) (words bits : List ℕ) : List ℕ :=
  bits.foldl (fun words b => words.modify (b / w) (· ||| 1 <<< (b % w))) words

/-- The set bits of a bitmap, word by word. -/
def listed (w : ℕ) (words : List ℕ) : List ℕ :=
  words.zipIdx.flatMap fun place => (setBits w w place.1).map (place.2 * w + ·)

/-- Every word of a bitmap is of `w` bits. -/
def Fits (w : ℕ) (words : List ℕ) : Prop := ∀ word ∈ words, ∀ i, word.testBit i = true → i < w

theorem testBit_or_shift (word k i : ℕ) :
    (word ||| 1 <<< k).testBit i = (word.testBit i || decide (i = k)) := by
  rw [Nat.testBit_or, Nat.one_shiftLeft, Nat.testBit_two_pow,
    decide_eq_decide.mpr (eq_comm (a := k))]

theorem length_setAll (w : ℕ) (words bits : List ℕ) : (setAll w words bits).length = words.length := by
  induction bits generalizing words with
  | nil => rfl
  | cons b bits ih =>
    rw [setAll, List.foldl_cons, ← setAll, ih, List.length_modify]

theorem fits_setAll {w : ℕ} (hw : 0 < w) {words : List ℕ} (h : Fits w words) (bits : List ℕ) :
    Fits w (setAll w words bits) := by
  induction bits generalizing words with
  | nil => exact h
  | cons b bits ih =>
    refine ih fun word hword i hi => ?_
    obtain ⟨k, hk⟩ := List.mem_iff_getElem?.mp hword
    rw [List.getElem?_modify] at hk
    obtain ⟨old, hold, rfl⟩ := Option.map_eq_some_iff.mp hk
    have hfits := h old (List.mem_of_getElem? hold)
    split_ifs at hi with hplace
    · rw [testBit_or_shift, Bool.or_eq_true, decide_eq_true_eq] at hi
      rcases hi with hi | rfl
      · exact hfits i hi
      · exact Nat.mod_lt b hw
    · exact hfits i hi

theorem bitAt_setAll {w : ℕ} {words : List ℕ} (bits : List ℕ) {b : ℕ}
    (hb : b / w < words.length) :
    bitAt w (setAll w words bits) b = (bitAt w words b || decide (b ∈ bits)) := by
  induction bits generalizing words with
  | nil => simp [setAll]
  | cons a bits ih =>
    have hlen : b / w < (words.modify (a / w) (· ||| 1 <<< (a % w))).length := by
      rwa [List.length_modify]
    have hstep : bitAt w (words.modify (a / w) (· ||| 1 <<< (a % w))) b =
        (bitAt w words b || decide (b = a)) := by
      rw [bitAt, bitAt, List.getD_eq_getElem _ _ hlen, List.getD_eq_getElem _ _ hb,
        List.getElem_modify]
      by_cases hplace : a / w = b / w
      · rw [if_pos hplace, testBit_or_shift]
        refine congrArg _ (decide_eq_decide.mpr ⟨fun hmod => ?_, fun heq => by rw [heq]⟩)
        rw [← Nat.div_add_mod b w, ← Nat.div_add_mod a w, hplace, hmod]
      · rw [if_neg hplace, decide_eq_false fun heq : b = a => hplace (by rw [heq]), Bool.or_false]
    rw [setAll, List.foldl_cons, ← setAll, ih hlen, hstep, Bool.or_assoc, ← Bool.decide_or]
    simp only [List.mem_cons]

theorem range_mul (n w : ℕ) :
    List.range (n * w) = (List.range n).flatMap fun k => (List.range w).map (k * w + ·) := by
  induction n with
  | zero => simp
  | succ n ih =>
    rw [Nat.succ_mul, List.range_add, ih, List.range_succ, List.flatMap_append,
      List.flatMap_singleton]

/-- A bitmap read back lists its set bits in order. -/
theorem listed_eq {w : ℕ} {words : List ℕ} (h : Fits w words) :
    listed w words = (List.range (words.length * w)).filter (bitAt w words) := by
  have hwords : words.zipIdx = (List.range words.length).map fun k => (words.getD k 0, k) := by
    refine List.ext_getElem (by simp) fun i hi _ => ?_
    rw [List.length_zipIdx] at hi
    rw [List.getElem_zipIdx, List.getElem_map, List.getElem_range, List.getD_eq_getElem _ _ hi,
      Nat.zero_add]
  rw [listed, hwords, List.flatMap_map, range_mul, List.filter_flatMap]
  refine List.flatMap_congr fun k hk => ?_
  have hmem : words.getD k 0 ∈ words := by
    rw [List.getD_eq_getElem _ _ (List.mem_range.mp hk)]
    exact List.getElem_mem _
  have hlen : ((List.range w).filter (words.getD k 0).testBit).length ≤ w :=
    (List.length_filter_le _ _).trans (List.length_range).le
  rw [setBits_eq (h _ hmem) hlen, List.filter_map]
  refine congrArg _ (List.filter_congr fun i hi => ?_)
  have hi := List.mem_range.mp hi
  show _ = bitAt w words (k * w + i)
  rw [bitAt, Nat.mul_comm, Nat.mul_add_div (by omega), Nat.div_eq_of_lt hi, Nat.add_zero,
    Nat.mul_add_mod, Nat.mod_eq_of_lt hi]

end Bits
