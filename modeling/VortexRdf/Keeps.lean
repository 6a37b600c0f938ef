/-
Keeps: the term codes a view is narrowed to, and their compiled test.

A keep admits a set of codes or a half-open range of them.  A row loop compiles it first:
a set of a narrow span becomes a bitmap, one too sparse for its rows stays sorted.

* `Keep`, `Keep.admits` — which codes a keep admits;
* `Keep.setOf`, `Keep.ofBuffer`, `Keep.rangeOf` — the keeps of some codes, and of a range;
* `Keep.test` — the keep compiled for a loop over some rows;
* `test_admits` — the compiled test admits what the keep does, for any number of rows.
-/
import VortexRdf.DistinctSort
import VortexRdf.RowSelection
import VortexRdf.SetBits
import VortexRdf.TermChunks

namespace Store

open Dictionary

/-- Which term codes a keep admits in a column. -/
inductive Keep where
  /-- Any of these codes. -/
  | set (codes : List TermCode) (ascending : codes.SortedLT)
  /-- Any code in the half-open range `lo..hi`. -/
  | range (lo hi : TermCode)

/-- A keep as a test of one row's code. -/
inductive KeepTest where
  | range (lo hi : TermCode)
  | bitmap (lo hi : TermCode) (bits : List ℕ)
  | sorted (codes : List TermCode)

/-- The widest code span a set's test takes as a bitmap whatever the set's size. -/
def BITMAP_SPAN_FLOOR : ℕ := 8388608

/-- The codes of span a set's bitmap may cover per row it tests. -/
def BITMAP_SPAN_PER_ROW : ℕ := 256

def bitmapSpanCap (rows : ℕ) : ℕ := min (min (rows * BITMAP_SPAN_PER_ROW) usizeMax) BITMAP_SPAN_FLOOR

namespace Keep

/-- The keep admitting exactly some codes, in any order, repeats folded. -/
def setOf (codes : List TermCode) : Keep :=
  .set (DistinctSort.distinctSort codes) (DistinctSort.sortedLT_distinctSort codes)

/-- A buffer that ascends already becomes the set as it stands. -/
def ofBuffer (codes : List TermCode) : Keep :=
  if h : codes.IsChain (· < ·) then .set codes h.pairwise.sortedLT else setOf codes

def rangeOf (lo hi : TermCode) : Keep := .range lo (max hi lo)

def isEmpty : Keep → Bool
  | set codes _ => codes.isEmpty
  | range lo hi => decide (hi ≤ lo)

def admits (code : TermCode) : Keep → Bool
  | set codes _ => codes.contains code
  | range lo hi => decide (lo ≤ code) && decide (code < hi)

/-- The keep compiled for a row loop over at most `rows` rows. -/
def test (rows : ℕ) : Keep → KeepTest
  | range lo hi => .range lo hi
  | set codes _ =>
    match codes.head?, codes.getLast? with
    | some lo, some hi =>
      let widest := max (min (codes.length * 8) usizeMax) (bitmapSpanCap rows)
      let span := hi - lo
      -- a span wider than a `usize` takes the sorted test, not a wrapped bitmap
      if span ≤ usizeMax ∧ span < widest then
        .bitmap lo hi (Bits.setAll 64 (List.replicate (divCeil (span + 1) 64) 0) (codes.map (· - lo)))
      else .sorted codes
    | _, _ => .range 0 0

end Keep

def KeepTest.admits (code : TermCode) : KeepTest → Bool
  | range lo hi => decide (lo ≤ code) && decide (code < hi)
  | bitmap lo hi bits =>
    if code < lo ∨ hi < code then false else Bits.bitAt 64 bits (code - lo)
  | sorted codes => codes.contains code

theorem setOf_admits (codes : List TermCode) (code : TermCode) :
    (Keep.setOf codes).admits code = true ↔ code ∈ codes := by
  rw [Keep.setOf, Keep.admits, List.contains_iff_mem, DistinctSort.mem_distinctSort]

theorem ofBuffer_admits (codes : List TermCode) (code : TermCode) :
    (Keep.ofBuffer codes).admits code = true ↔ code ∈ codes := by
  unfold Keep.ofBuffer
  split_ifs
  · exact List.contains_iff_mem
  · exact setOf_admits codes code

theorem rangeOf_admits (lo hi code : TermCode) :
    (Keep.rangeOf lo hi).admits code = true ↔ lo ≤ code ∧ code < hi := by
  rw [Keep.rangeOf, Keep.admits, Bool.and_eq_true, decide_eq_true_iff, decide_eq_true_iff]
  constructor
  · rintro ⟨hlo, hhi⟩
    exact ⟨hlo, (lt_max_iff.mp hhi).resolve_right (not_lt.mpr hlo)⟩
  · rintro ⟨hlo, hhi⟩
    exact ⟨hlo, lt_max_of_lt_left hhi⟩

/-- An empty keep admits no code. -/
theorem admits_of_isEmpty {keep : Keep} (h : keep.isEmpty = true) (code : TermCode) :
    keep.admits code = false := by
  cases keep with
  | set codes ascending =>
    obtain rfl := List.isEmpty_iff.mp h
    rfl
  | range lo hi =>
    have hle : hi ≤ lo := of_decide_eq_true h
    rw [Keep.admits, Bool.and_eq_false_iff, decide_eq_false_iff_not, decide_eq_false_iff_not]
    by_cases hlo : lo ≤ code
    · exact .inr (Nat.not_lt_of_le (Nat.le_trans hle hlo))
    · exact .inl hlo

/-- Every code of an ascending set lies between its first and its last. -/
theorem between_ends {codes : List TermCode} (h : codes.SortedLT) {lo hi : TermCode}
    (hlo : codes.head? = some lo) (hhi : codes.getLast? = some hi) :
    ∀ code ∈ codes, lo ≤ code ∧ code ≤ hi := by
  intro code hcode
  constructor
  · cases codes with
    | nil => cases hcode
    | cons a codes =>
      obtain rfl := Option.some.inj hlo
      rcases List.mem_cons.mp hcode with rfl | hrest
      · exact le_rfl
      · exact ((List.pairwise_cons.mp h.pairwise).1 code hrest).le
  · obtain ⟨front, rfl⟩ := List.getLast?_eq_some_iff.mp hhi
    rcases List.mem_append.mp hcode with hfront | hlast
    · exact ((List.pairwise_append.mp h.pairwise).2.2 code hfront hi (List.mem_singleton.mpr rfl)).le
    · exact (List.mem_singleton.mp hlast).le

/-- A code's bit of a set's bitmap is whether the set holds it. -/
theorem bitmap_admits {codes : List ℕ} {lo hi code : ℕ}
    (hends : ∀ code ∈ codes, lo ≤ code ∧ code ≤ hi) (hlo : lo ≤ code) (hhi : code ≤ hi) :
    Bits.bitAt 64 (Bits.setAll 64 (List.replicate (divCeil (hi - lo + 1) 64) 0)
      (codes.map (· - lo))) (code - lo) = codes.contains code := by
  have hplace : (code - lo) / 64 < divCeil (hi - lo + 1) 64 := by
    rw [divCeil]
    omega
  rw [Bits.bitAt_setAll _ (by rwa [List.length_replicate]), Bits.bitAt,
    List.getD_replicate _ hplace, Nat.zero_testBit, Bool.false_or, Bool.eq_iff_iff,
    decide_eq_true_eq, List.contains_iff_mem, List.mem_map]
  constructor
  · rintro ⟨other, hother, heq⟩
    rw [← Nat.sub_add_cancel (hends other hother).1, heq, Nat.sub_add_cancel hlo] at hother
    exact hother
  · exact fun hmem => ⟨code, hmem, rfl⟩

/-- However many rows a keep is compiled for, its test admits the same codes. -/
theorem test_admits (keep : Keep) (rows : ℕ) (code : TermCode) :
    (keep.test rows).admits code = keep.admits code := by
  cases keep with
  | range lo hi => rfl
  | set codes ascending =>
    rw [Keep.test, Keep.admits]
    cases hlo : codes.head? with
    | none =>
      rw [List.head?_eq_none_iff] at hlo
      subst hlo
      rw [KeepTest.admits, List.contains_nil, Bool.and_eq_false_iff, decide_eq_false_iff_not,
        decide_eq_false_iff_not]
      exact .inr (Nat.not_lt_zero code)
    | some lo =>
      cases hhi : codes.getLast? with
      | none =>
        rw [List.getLast?_eq_none_iff] at hhi
        subst hhi
        cases hlo
      | some hi =>
        dsimp only
        have hends := between_ends ascending hlo hhi
        split_ifs with hspan
        · rw [KeepTest.admits]
          split_ifs with houtside
          · rw [eq_comm, ← Bool.not_eq_true, List.contains_iff_mem]
            intro hmem
            have hbetween := hends code hmem
            exact houtside.elim (Nat.not_lt_of_le hbetween.1) (Nat.not_lt_of_le hbetween.2)
          · rw [not_or, not_lt, not_lt] at houtside
            exact bitmap_admits hends houtside.1 houtside.2
        · rfl

end Store
