/-
Strictly ascending lists as finite sets.

A strictly ascending list is the one listing of the set of its members, so two
such lists are compared by membership and a slice of one between two bounds is a
filter.

* `partitionPoint` — the length of the prefix a predicate holds of;
* `takeWhile_eq_filter`, `dropWhile_eq_filter` — on an ascending list, a
  predicate closed downwards splits the list into what it keeps and the rest;
* `slice_between` — the slice from the first member not below `a` to the first
  one not below `b` is the members in `[a, b)`;
* `sort_toFinset`, `sort_filter` — an ascending list is the sorted listing of
  its set, and filtering commutes with listing.
-/
import Mathlib.Data.Finset.Sort
import Mathlib.Tactic

namespace Ascending

section Prefixes

variable {α : Type*}

/-- The length of the longest prefix of `l` that `p` holds of. -/
def partitionPoint (p : α → Bool) (l : List α) : ℕ := (l.takeWhile p).length

theorem partitionPoint_le (p : α → Bool) (l : List α) : partitionPoint p l ≤ l.length :=
  (List.takeWhile_prefix p).length_le

theorem take_partitionPoint (p : α → Bool) (l : List α) :
    l.take (partitionPoint p l) = l.takeWhile p :=
  (List.prefix_iff_eq_take.mp (List.takeWhile_prefix p)).symm

theorem drop_partitionPoint (p : α → Bool) (l : List α) :
    l.drop (partitionPoint p l) = l.dropWhile p := by
  have h : l.takeWhile p ++ l.drop (partitionPoint p l) = l.takeWhile p ++ l.dropWhile p := by
    rw [← take_partitionPoint, List.take_append_drop, take_partitionPoint,
      List.takeWhile_append_dropWhile]
  exact List.append_cancel_left h

/-- The predicate holds of every member of the prefix. -/
theorem holds_before_partitionPoint {p : α → Bool} {l : List α} {i : ℕ}
    (h : i < partitionPoint p l) : ∃ a, l[i]? = some a ∧ p a = true := by
  have hmem := List.getElem_mem h
  refine ⟨_, ?_, List.all_eq_true.mp List.all_takeWhile _ hmem⟩
  rw [← List.getElem?_eq_getElem h, ← take_partitionPoint, List.getElem?_take_of_lt h]

/-- It fails of the first member past it. -/
theorem fails_at_partitionPoint {p : α → Bool} {l : List α} {a : α}
    (h : l[partitionPoint p l]? = some a) : p a = false := by
  induction l with
  | nil => cases h
  | cons b l ih =>
    by_cases hb : p b = true
    · rw [partitionPoint, List.takeWhile_cons_of_pos hb] at h
      exact ih h
    · rw [partitionPoint, List.takeWhile_cons_of_neg hb, List.length_nil, List.getElem?_cons_zero,
        Option.some.injEq] at h
      rw [← h]
      simpa using hb

end Prefixes

variable {α : Type*} [LinearOrder α] {l : List α}

theorem sublist {l' : List α} (h : l.SortedLT) (hsub : l'.Sublist l) : l'.SortedLT :=
  (h.pairwise.sublist hsub).sortedLT

theorem filter (h : l.SortedLT) (p : α → Bool) : (l.filter p).SortedLT :=
  sublist h List.filter_sublist

theorem tail {a : α} (h : (a :: l).SortedLT) : l.SortedLT :=
  sublist h (List.sublist_cons_self a l)

theorem head_lt {a b : α} (h : (a :: l).SortedLT) (hb : b ∈ l) : a < b :=
  List.rel_of_pairwise_cons h.pairwise hb

/-! ### Prefixes of an ascending list -/

theorem takeWhile_eq_filter {p : α → Bool} (h : l.SortedLT)
    (hp : ∀ a b, a ≤ b → p b = true → p a = true) : l.takeWhile p = l.filter p := by
  induction l with
  | nil => rfl
  | cons a l ih =>
    by_cases ha : p a = true
    · rw [List.takeWhile_cons_of_pos ha, List.filter_cons_of_pos ha, ih (tail h)]
    · have hrest : ∀ b ∈ l, ¬ p b = true := fun b hb hpb => ha (hp a b (head_lt h hb).le hpb)
      rw [List.takeWhile_cons_of_neg ha, List.filter_cons_of_neg ha, List.filter_eq_nil_iff.mpr hrest]

theorem dropWhile_eq_filter {p : α → Bool} (h : l.SortedLT)
    (hp : ∀ a b, a ≤ b → p b = true → p a = true) :
    l.dropWhile p = l.filter fun a => !p a := by
  induction l with
  | nil => rfl
  | cons a l ih =>
    by_cases ha : p a = true
    · rw [List.dropWhile_cons_of_pos ha, List.filter_cons_of_neg (by simp [ha]), ih (tail h)]
    · have hall : ∀ b ∈ a :: l, (!p b) = true := by
        intro b hb
        rcases List.mem_cons.mp hb with rfl | hb
        · simpa using ha
        · simpa using fun hpb => ha (hp a b (head_lt h hb).le hpb)
      rw [List.dropWhile_cons_of_neg ha, List.filter_eq_self.mpr hall]

theorem takeWhile_lt (h : l.SortedLT) (b : α) :
    l.takeWhile (fun x => decide (x < b)) = l.filter fun x => decide (x < b) :=
  takeWhile_eq_filter h fun x y hxy hy => by simpa using lt_of_le_of_lt hxy (by simpa using hy)

theorem dropWhile_lt (h : l.SortedLT) (b : α) :
    l.dropWhile (fun x => decide (x < b)) = l.filter fun x => decide (b ≤ x) := by
  rw [dropWhile_eq_filter h fun x y hxy hy => by
    simpa using lt_of_le_of_lt hxy (by simpa using hy)]
  refine List.filter_congr fun x _ => ?_
  simp [← not_lt]

theorem partitionPoint_mono (h : l.SortedLT) {a b : α} (hab : a ≤ b) :
    partitionPoint (fun x => decide (x < a)) l ≤ partitionPoint (fun x => decide (x < b)) l := by
  unfold partitionPoint
  rw [takeWhile_lt h, takeWhile_lt h]
  refine (List.monotone_filter_right l fun x hx => ?_).length_le
  simpa using lt_of_lt_of_le (by simpa using hx) hab

/-- The members in `[a, b)` are a slice of the list. -/
theorem slice_between (h : l.SortedLT) (a b : α) :
    (l.drop (partitionPoint (fun x => decide (x < a)) l)).take
        (partitionPoint (fun x => decide (x < b)) l - partitionPoint (fun x => decide (x < a)) l) =
      l.filter fun x => decide (a ≤ x) && decide (x < b) := by
  rw [← List.drop_take, take_partitionPoint, takeWhile_lt h]
  rcases le_total a b with hab | hba
  · -- the prefix below `a` is the same whether the list is cut at `b` first
    have hpp : partitionPoint (fun x => decide (x < a)) l =
        partitionPoint (fun x => decide (x < a)) (l.filter fun x => decide (x < b)) := by
      unfold partitionPoint
      rw [takeWhile_lt h, takeWhile_lt (filter h _), List.filter_filter]
      congr 1
      refine List.filter_congr fun x _ => ?_
      by_cases hx : x < a
      · simp [hx, lt_of_lt_of_le hx hab]
      · simp [hx]
    rw [hpp, drop_partitionPoint, dropWhile_lt (filter h _), List.filter_filter]
  · have hle : (l.filter fun x => decide (x < b)).length ≤
        partitionPoint (fun x => decide (x < a)) l := by
      have := partitionPoint_mono h hba
      unfold partitionPoint at this ⊢
      rwa [takeWhile_lt h] at this
    rw [List.drop_eq_nil_iff.mpr hle, eq_comm, List.filter_eq_nil_iff]
    intro x _ hx
    simp only [Bool.and_eq_true, decide_eq_true_eq] at hx
    exact absurd (lt_of_le_of_lt (le_trans hba hx.1) hx.2) (lt_irrefl _)

/-- The first member not below `a` is `a` exactly when the list holds `a`. -/
theorem head?_dropWhile_lt (h : l.SortedLT) (a : α) :
    (l.dropWhile fun x => decide (x < a)).head? = some a ↔ a ∈ l := by
  rw [dropWhile_lt h]
  constructor
  · intro hh
    exact (List.mem_filter.mp (List.mem_of_head? hh)).1
  · intro ha
    cases hf : l.filter fun x => decide (a ≤ x) with
    | nil => exact absurd (by simp : decide (a ≤ a) = true) (List.filter_eq_nil_iff.mp hf a ha)
    | cons b rest =>
      have hmem : a ∈ b :: rest := hf ▸ List.mem_filter.mpr ⟨ha, by simp⟩
      have hb : a ≤ b := by
        have : b ∈ l.filter fun x => decide (a ≤ x) := hf ▸ List.mem_cons_self
        simpa using (List.mem_filter.mp this).2
      rcases List.mem_cons.mp hmem with rfl | hrest
      · rfl
      · have hlt := head_lt (hf ▸ filter h _) hrest
        exact absurd (lt_of_le_of_lt hb hlt) (lt_irrefl _)

/-! ### Listings of finite sets -/

theorem sort_toFinset (h : l.SortedLT) : l.toFinset.sort (· ≤ ·) = l :=
  (List.toFinset_sort (· ≤ ·) h.nodup).mpr h.sortedLE.pairwise

theorem card_toFinset (h : l.SortedLT) : l.toFinset.card = l.length :=
  List.toFinset_card_of_nodup h.nodup

theorem sort_filter (s : Finset α) (p : α → Prop) [DecidablePred p] :
    (s.filter p).sort (· ≤ ·) = (s.sort (· ≤ ·)).filter fun a => decide (p a) := by
  refine (s.filter p).sortedLT_sort.eq_of_mem_iff (filter s.sortedLT_sort _) fun a => ?_
  simp

theorem sort_Ico (a b : ℕ) : (Finset.Ico a b).sort (· ≤ ·) = List.range' a (b - a) := by
  refine (Finset.sortedLT_sort _).eq_of_mem_iff (List.sortedLT_range' _ _ one_ne_zero) fun x => ?_
  rw [Finset.mem_sort, Finset.mem_Ico, List.mem_range'_1]
  omega

end Ascending
