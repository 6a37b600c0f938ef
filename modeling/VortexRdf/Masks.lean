/-
Masks: one bit per row.

The bit masks of the array library, by what they document: a length, a bit per
position, constructors from runs and from positions, negation, slices, the
number of set bits, and the set positions with the two uniform masks told
apart.

* `MaskOps`, `LawfulMask` — the operations and what they answer;
* `MaskUnion`, `LawfulUnion` — the union of two masks of one length;
* `setBits` — the positions of a mask's set bits, ascending;
* `BitMask` — a mask that is its list of bits.
-/
import VortexRdf.AscendingLists

namespace Masks

/-- The set positions of a mask, with the uniform masks told apart. -/
inductive AllOr where
  | all
  | none
  | some (indices : List ℕ)

class MaskOps (M : Type*) where
  len : M → ℕ
  value : M → ℕ → Bool
  newTrue : ℕ → M
  newFalse : ℕ → M
  fromSlices : ℕ → List (ℕ × ℕ) → M
  fromIndices : ℕ → List ℕ → M
  not : M → M
  slice : M → ℕ → ℕ → M
  trueCount : M → ℕ
  indices : M → AllOr

variable {M : Type*} [MaskOps M]

open MaskOps

def setBits (m : M) : List ℕ := (List.range (len m)).filter (value m)

class LawfulMask (M : Type*) [MaskOps M] : Prop where
  len_newTrue : ∀ n, len (newTrue n : M) = n
  value_newTrue : ∀ n i, i < n → value (newTrue n : M) i = true
  len_newFalse : ∀ n, len (newFalse n : M) = n
  value_newFalse : ∀ n i, i < n → value (newFalse n : M) i = false
  len_fromSlices : ∀ n (runs : List (ℕ × ℕ)), len (fromSlices n runs : M) = n
  value_fromSlices : ∀ n (runs : List (ℕ × ℕ)) i, (∀ run ∈ runs, run.1 < run.2 ∧ run.2 ≤ n) →
    runs.Pairwise (fun a b => a.2 ≤ b.1) → i < n →
    value (fromSlices n runs : M) i = runs.any fun run => decide (run.1 ≤ i) && decide (i < run.2)
  len_fromIndices : ∀ n (places : List ℕ), len (fromIndices n places : M) = n
  value_fromIndices : ∀ n (places : List ℕ) i, (∀ k ∈ places, k < n) → places.SortedLT → i < n →
    value (fromIndices n places : M) i = decide (i ∈ places)
  len_not : ∀ m : M, len (not m) = len m
  value_not : ∀ (m : M) i, i < len m → value (not m) i = !value m i
  len_slice : ∀ (m : M) lo hi, lo ≤ hi → hi ≤ len m → len (slice m lo hi) = hi - lo
  value_slice : ∀ (m : M) lo hi i, lo ≤ hi → hi ≤ len m → i < hi - lo →
    value (slice m lo hi) i = value m (lo + i)
  trueCount_eq : ∀ m : M, trueCount m = (setBits m).length
  indices_all : ∀ m : M, indices m = .all → ∀ i, i < len m → value m i = true
  indices_none : ∀ m : M, indices m = .none → ∀ i, i < len m → value m i = false
  indices_some : ∀ (m : M) places, indices m = .some places → places = setBits m

class MaskUnion (M : Type*) where
  union : M → M → M

open MaskUnion in
class LawfulUnion (M : Type*) [MaskOps M] [MaskUnion M] : Prop where
  len_union : ∀ a b : M, len a = len b → len (union a b) = len a
  value_union : ∀ (a b : M) i, len a = len b → i < len a →
    value (union a b) i = (value a i || value b i)

theorem mem_setBits {m : M} {i : ℕ} : i ∈ setBits m ↔ i < len m ∧ value m i = true := by
  simp [setBits]

theorem setBits_sortedLT (m : M) : (setBits m).SortedLT :=
  Ascending.filter (List.sortedLT_range _) _

/-! ### A mask that is its bits -/

/-- A mask as the list of its bits. -/
structure BitMask where
  bits : List Bool
  deriving DecidableEq, Repr

namespace BitMask

/-- The mask of length `n` whose bit `i` is `f i`. -/
def ofFn (n : ℕ) (f : ℕ → Bool) : BitMask := ⟨(List.range n).map f⟩

def get (m : BitMask) (i : ℕ) : Bool := m.bits.getD i false

def places (m : BitMask) : List ℕ := (List.range m.bits.length).filter m.get

@[simp] theorem length_ofFn (n : ℕ) (f : ℕ → Bool) : (ofFn n f).bits.length = n := by
  simp [ofFn]

theorem get_ofFn {n i : ℕ} (f : ℕ → Bool) (h : i < n) : (ofFn n f).get i = f i := by
  simp [ofFn, get, h]

instance : MaskOps BitMask where
  len m := m.bits.length
  value := get
  newTrue n := ofFn n fun _ => true
  newFalse n := ofFn n fun _ => false
  fromSlices n runs := ofFn n fun i => runs.any fun run => decide (run.1 ≤ i) && decide (i < run.2)
  fromIndices n places := ofFn n fun i => decide (i ∈ places)
  not m := ofFn m.bits.length fun i => !m.get i
  slice m lo hi := ofFn (hi - lo) fun i => m.get (lo + i)
  trueCount m := m.places.length
  indices m :=
    if m.places.length = m.bits.length then .all
    else if m.places = [] then .none
    else .some m.places

instance : LawfulMask BitMask where
  len_newTrue n := length_ofFn n _
  value_newTrue _ _ h := get_ofFn _ h
  len_newFalse n := length_ofFn n _
  value_newFalse _ _ h := get_ofFn _ h
  len_fromSlices n _ := length_ofFn n _
  value_fromSlices _ _ _ _ _ h := get_ofFn _ h
  len_fromIndices n _ := length_ofFn n _
  value_fromIndices _ _ _ _ _ h := get_ofFn _ h
  len_not m := length_ofFn _ _
  value_not _ _ h := get_ofFn _ h
  len_slice _ _ _ _ _ := length_ofFn _ _
  value_slice _ _ _ _ _ _ h := get_ofFn _ h
  trueCount_eq _ := rfl
  indices_all m h i hi := by
    by_cases hall : m.places.length = m.bits.length
    · have hself : m.places = List.range m.bits.length :=
        List.filter_sublist.eq_of_length (by rw [List.length_range]; exact hall)
      have hmem : i ∈ m.places := by
        rw [hself]
        exact List.mem_range.mpr hi
      exact (List.mem_filter.mp hmem).2
    · have h' : (if m.places = [] then AllOr.none else .some m.places) = .all := by
        simpa [indices, hall] using h
      split_ifs at h'
  indices_none m h i hi := by
    have hnil : m.places = [] := by
      by_contra hne
      have h' : (if m.places.length = m.bits.length then AllOr.all else .some m.places) = .none := by
        simpa [indices, hne] using h
      split_ifs at h'
    exact Bool.eq_false_iff.mpr (List.filter_eq_nil_iff.mp hnil i (List.mem_range.mpr hi))
  indices_some m places h := by
    have h' : (if m.places.length = m.bits.length then AllOr.all
        else if m.places = [] then .none else .some m.places) = .some places := h
    split_ifs at h'
    injection h' with h'
    exact h'.symm

instance : MaskUnion BitMask where
  union a b := ofFn a.bits.length fun i => a.get i || b.get i

instance : LawfulUnion BitMask where
  len_union _ _ _ := length_ofFn _ _
  value_union _ _ _ _ h := get_ofFn _ h

end BitMask

end Masks
