/-
Words written as bytes, least byte first, and records of one width read back.

* `leBytes`, `ofLe`, `ofLe_leBytes` — a word as bytes, and the word bytes spell;
* `readRecord`, `readRecord_append` — the next record of a file, if the file has one.
-/
import Mathlib.Tactic

namespace Records

/-- The `k` low bytes of a number, the least first. -/
def leBytes : ℕ → ℕ → List UInt8
  | 0, _ => []
  | k + 1, n => UInt8.ofNat n :: leBytes k (n / 256)

/-- The number some bytes spell. -/
def ofLe : List UInt8 → ℕ
  | [] => 0
  | b :: bytes => b.toNat + 256 * ofLe bytes

@[simp] theorem length_leBytes (k n : ℕ) : (leBytes k n).length = k := by
  induction k generalizing n with
  | zero => rfl
  | succ k ih => rw [leBytes, List.length_cons, ih]

theorem ofLe_leBytes {k n : ℕ} (h : n < 256 ^ k) : ofLe (leBytes k n) = n := by
  induction k generalizing n with
  | zero =>
    rw [pow_zero] at h
    exact (Nat.lt_one_iff.mp h).symm
  | succ k ih =>
    have hhigh : n / 256 < 256 ^ k := by
      rw [pow_succ] at h
      exact Nat.div_lt_of_lt_mul (by rwa [mul_comm] at h)
    have hlow : (UInt8.ofNat n).toNat = n % 256 := rfl
    rw [leBytes, ofLe, ih hhigh, hlow]
    omega

/-- The next `width` bytes, or none at the end of the file; `cut` is a file that ends
partway through a record. -/
def readRecord {ε : Type} (cut : ε) (width : ℕ) (bytes : List UInt8) :
    Except ε (Option (List UInt8 × List UInt8)) :=
  if bytes = [] then .ok none
  else if bytes.length < width then .error cut
  else .ok (some (bytes.take width, bytes.drop width))

theorem readRecord_nil {ε : Type} (cut : ε) (width : ℕ) : readRecord cut width [] = .ok none := by
  rw [readRecord, if_pos rfl]

theorem readRecord_append {ε : Type} (cut : ε) {width : ℕ} (hpos : 0 < width) {record : List UInt8}
    (h : record.length = width) (rest : List UInt8) :
    readRecord cut width (record ++ rest) = .ok (some (record, rest)) := by
  have hne : record ++ rest ≠ [] := fun hnil => by
    rw [(List.append_eq_nil_iff.mp hnil).1] at h
    simp only [List.length_nil] at h
    omega
  rw [readRecord, if_neg hne, if_neg (by rw [List.length_append]; omega), List.take_left' h,
    List.drop_left' h]

theorem length_of_readRecord {ε : Type} {cut : ε} {width : ℕ} (hpos : 0 < width)
    {bytes record rest : List UInt8} (h : readRecord cut width bytes = .ok (some (record, rest))) :
    rest.length < bytes.length := by
  rw [readRecord] at h
  split_ifs at h with hnil hshort
  · cases h
  · obtain ⟨-, rfl⟩ := Prod.mk.inj (Option.some.inj (Except.ok.inj h))
    have hlen : bytes.length ≠ 0 := fun hzero => hnil (List.length_eq_zero_iff.mp hzero)
    rw [List.length_drop]
    omega

end Records
