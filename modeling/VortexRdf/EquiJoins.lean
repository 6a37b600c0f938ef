/-
The nested-loop equi-join of two columns.

* `positions` — where a column holds a value, ascending;
* `joinPairs`, `mem_joinPairs` — the pairs of equal rows, the left row outermost;
* `joinPairs_append` — the join of a column is those of its slices in turn;
* `length_joinPairs` — how many pairs there are;
* `positions_append` — a column grows at its end.
-/
import Mathlib

namespace EquiJoins

variable {α : Type*} [DecidableEq α]

/-- The places of `a` in a column. -/
def positions (right : List α) (a : α) : List ℕ :=
  (List.range right.length).filter fun j => decide (right[j]? = some a)

/-- The pairs of equal rows of a left column, its rows counted from `start`, and a
right one. -/
def joinPairs (start : ℕ) (left right : List α) : List (ℕ × ℕ) :=
  (left.zipIdx start).flatMap fun (a, i) => (positions right a).map fun j => (i, j)

variable {left right : List α} {a : α}

/-! ### Places of a value -/

theorem mem_positions {j : ℕ} : j ∈ positions right a ↔ right[j]? = some a := by
  rw [positions, List.mem_filter, List.mem_range, decide_eq_true_eq]
  exact ⟨fun h => h.2, fun h => ⟨List.getElem?_eq_some_iff.mp h |>.1, h⟩⟩

theorem sortedLT_positions (right : List α) (a : α) : (positions right a).SortedLT :=
  (List.sortedLT_range right.length).pairwise.filter _ |>.sortedLT

theorem positions_eq_iff {l : List ℕ} (h : l.SortedLT) :
    positions right a = l ↔ ∀ j, right[j]? = some a ↔ j ∈ l := by
  constructor
  · rintro rfl j
    exact mem_positions.symm
  · intro hmem
    refine (sortedLT_positions right a).eq_of_mem_iff h fun j => ?_
    rw [mem_positions, hmem]

@[simp] theorem positions_nil (a : α) : positions [] a = [] := rfl

/-- A value added at the end is at the place past the others. -/
theorem positions_append (right : List α) (a b : α) :
    positions (right ++ [b]) a =
      if b = a then positions right a ++ [right.length] else positions right a := by
  have hpre : (List.range right.length).filter (fun j => decide ((right ++ [b])[j]? = some a)) =
      positions right a := by
    refine List.filter_congr fun j hj => ?_
    rw [List.getElem?_append_left (List.mem_range.mp hj)]
  rw [positions, List.length_append, List.length_singleton, List.range_succ, List.filter_append,
    hpre]
  by_cases hba : b = a
  · rw [if_pos hba, List.filter_singleton]
    simp [hba]
  · rw [if_neg hba, List.filter_singleton]
    simp [hba]

theorem length_positions (right : List α) (a : α) : (positions right a).length = right.count a := by
  induction right using List.reverseRecOn with
  | nil => rfl
  | append_singleton right b ih =>
    rw [positions_append, List.count_append, List.count_singleton]
    by_cases hba : b = a
    · simp [hba, ih]
    · simp [hba, ih]

/-! ### Pairs -/

@[simp] theorem joinPairs_nil (start : ℕ) (right : List α) : joinPairs start [] right = [] := rfl

theorem joinPairs_cons (start : ℕ) (a : α) (left right : List α) :
    joinPairs start (a :: left) right =
      ((positions right a).map fun j => (start, j)) ++ joinPairs (start + 1) left right := by
  rw [joinPairs, List.zipIdx_cons, List.flatMap_cons]
  rfl

theorem joinPairs_append (start : ℕ) (left left' right : List α) :
    joinPairs start (left ++ left') right =
      joinPairs start left right ++ joinPairs (start + left.length) left' right := by
  rw [joinPairs, List.zipIdx_append, List.flatMap_append]
  rfl

theorem mem_joinPairs {i j start : ℕ} : (i, j) ∈ joinPairs start left right ↔
    ∃ a, start ≤ i ∧ left[i - start]? = some a ∧ right[j]? = some a := by
  simp only [joinPairs, List.mem_flatMap, List.mem_map, Prod.mk.injEq, Prod.exists, mem_positions,
    List.mk_mem_zipIdx_iff_le_and_getElem?_sub]
  constructor
  · rintro ⟨a, i', ⟨hle, hleft⟩, j', hright, rfl, rfl⟩
    exact ⟨a, hle, hleft, hright⟩
  · rintro ⟨a, hle, hleft, hright⟩
    exact ⟨a, i, ⟨hle, hleft⟩, j, hright, rfl, rfl⟩

/-- Counting the left rows from elsewhere moves their indices. -/
theorem joinPairs_start (start : ℕ) (left right : List α) :
    joinPairs start left right = (joinPairs 0 left right).map fun (i, j) => (start + i, j) := by
  induction left generalizing start with
  | nil => rfl
  | cons a left ih =>
    rw [joinPairs_cons, joinPairs_cons, ih (start + 1), Nat.zero_add, ih 1, List.map_append,
      List.map_map, List.map_map]
    congr 1
    refine List.map_congr_left fun p _ => ?_
    simp [Nat.add_assoc]

theorem length_joinPairs (start : ℕ) (left right : List α) :
    (joinPairs start left right).length = (left.map fun a => right.count a).sum := by
  induction left generalizing start with
  | nil => rfl
  | cons a left ih =>
    rw [joinPairs_cons, List.length_append, List.length_map, length_positions, ih, List.map_cons,
      List.sum_cons]

theorem length_joinPairs_le (start : ℕ) (left right : List α) :
    (joinPairs start left right).length ≤ left.length * right.length := by
  rw [length_joinPairs]
  induction left with
  | nil => simp
  | cons a left ih =>
    rw [List.map_cons, List.sum_cons, List.length_cons, Nat.succ_mul]
    have := @List.count_le_length _ _ a right
    omega

/-- A left row without a match adds nothing. -/
theorem joinPairs_cons_of_no_match {start : ℕ} (h : ∀ j : ℕ, right[j]? ≠ some a) :
    joinPairs start (a :: left) right = joinPairs (start + 1) left right := by
  have hnone : positions right a = [] := by
    refine (positions_eq_iff List.Pairwise.nil.sortedLT).mpr fun j => ?_
    simp [h j]
  rw [joinPairs_cons, hnone, List.map_nil, List.nil_append]

/-- Left rows that all match the same right rows. -/
theorem joinPairs_replicate (start n : ℕ) (a : α) (right : List α) :
    joinPairs start (List.replicate n a) right = (List.range' start n).flatMap fun i =>
      (positions right a).map fun j => (i, j) := by
  induction n generalizing start with
  | zero => rfl
  | succ n ih =>
    rw [List.replicate_succ, joinPairs_cons, ih, List.range'_succ, List.flatMap_cons]

end EquiJoins
