/-
Lists sorted, each value kept once.

A list is sorted by a key and equal neighbours are dropped; when the key tells the values
apart, what is left is the one listing of the values whose keys ascend strictly.

* `dedup` — equal neighbours dropped, the first one kept;
* `sortBy`, `distinctSortBy`, `distinctSort` — the sorts;
* `distinctSortBy_ascends`, `mem_distinctSortBy` — the keys ascend strictly and no value is lost;
* `distinctSort_congr` — two such listings of the same values are equal;
* `map_distinctSort` — sorting commutes with a strictly monotone map.
-/
import Mathlib.Data.List.Sort
import Mathlib.Tactic

namespace DistinctSort

/-! ### Neighbours -/

section Dedup

variable {β : Type*} [DecidableEq β]

def dedup : List β → List β
  | [] => []
  | [a] => [a]
  | a :: b :: rest => if a = b then dedup (b :: rest) else a :: dedup (b :: rest)

theorem mem_dedup {l : List β} {x : β} : x ∈ dedup l ↔ x ∈ l := by
  induction l with
  | nil => exact Iff.rfl
  | cons a rest ih =>
    cases rest with
    | nil => exact Iff.rfl
    | cons b rest =>
      rw [dedup]
      split_ifs with hab
      · rw [ih, hab]
        simp
      · simp only [List.mem_cons, ih]

/-- Equal neighbours dropped from a sorted list, its keys ascend strictly. -/
theorem dedup_ascends {α : Type*} [LinearOrder α] {k : β → α} {l : List β}
    (hinj : ∀ a ∈ l, ∀ b ∈ l, k a = k b → a = b) (h : (l.map k).SortedLE) :
    ((dedup l).map k).SortedLT := by
  refine List.Pairwise.sortedLT ?_
  induction l with
  | nil => exact List.Pairwise.nil
  | cons a rest ih =>
    cases rest with
    | nil => exact List.pairwise_singleton _ _
    | cons b rest =>
      have hpair := List.pairwise_cons.mp h.pairwise
      have hrest := ih (fun c hc d hd => hinj c (List.mem_cons_of_mem a hc) d (List.mem_cons_of_mem a hd))
        hpair.2.sortedLE
      rw [dedup]
      split_ifs with hab
      · exact hrest
      · refine List.pairwise_cons.mpr ⟨fun y hy => ?_, hrest⟩
        obtain ⟨c, hc, rfl⟩ := List.mem_map.mp hy
        rw [mem_dedup] at hc
        -- `a` is below `b`, and `b` is at most every later key
        have hle : k a ≤ k b := hpair.1 _ List.mem_cons_self
        have hlt : k a < k b := lt_of_le_of_ne hle fun heq =>
          hab (hinj a List.mem_cons_self b (List.mem_cons_of_mem a List.mem_cons_self) heq)
        rcases List.mem_cons.mp hc with rfl | hc
        · exact hlt
        · exact hlt.trans_le ((List.pairwise_cons.mp hpair.2).1 _ (List.mem_map_of_mem hc))

end Dedup

/-! ### Sorts -/

variable {α β : Type*} [LinearOrder α]

/-- The values by their keys; those of equal keys stay in order. -/
def sortBy (k : β → α) (l : List β) : List β := l.mergeSort fun a b => decide (k a ≤ k b)

theorem sortBy_perm (k : β → α) (l : List β) : (sortBy k l).Perm l := List.mergeSort_perm _ _

theorem mem_sortBy {k : β → α} {l : List β} {x : β} : x ∈ sortBy k l ↔ x ∈ l :=
  (sortBy_perm k l).mem_iff

theorem sortBy_ascends (k : β → α) (l : List β) : ((sortBy k l).map k).SortedLE := by
  refine List.Pairwise.sortedLE (List.pairwise_map.mpr ?_)
  have h := @List.pairwise_mergeSort β (fun a b => decide (k a ≤ k b))
    (fun a b c hab hbc => by
      rw [decide_eq_true_eq] at hab hbc ⊢
      exact hab.trans hbc)
    (fun a b => by
      rw [Bool.or_eq_true, decide_eq_true_eq, decide_eq_true_eq]
      exact le_total _ _) l
  exact h.imp fun hle => of_decide_eq_true hle

/-- A sorted listing of the same values is the sort, where the key tells them apart. -/
theorem sortBy_eq {k : β → α} {l l' : List β} (hinj : ∀ a ∈ l, ∀ b ∈ l, k a = k b → a = b)
    (hperm : l'.Perm l) (hsorted : (l'.map k).SortedLE) : sortBy k l = l' := by
  have hsort : (sortBy k l).Pairwise fun a b => k a ≤ k b :=
    List.pairwise_map.mp (sortBy_ascends k l).pairwise
  have hsort' : l'.Pairwise fun a b => k a ≤ k b := List.pairwise_map.mp hsorted.pairwise
  refine List.Perm.eq_of_pairwise (fun a b ha hb hab hba => ?_) hsort hsort'
    ((sortBy_perm k l).trans hperm.symm)
  exact hinj a (mem_sortBy.mp ha) b (hperm.mem_iff.mp hb) (le_antisymm hab hba)

/-- Sorting a mapped list is sorting it by the mapped key. -/
theorem sortBy_map {γ : Type*} (f : γ → β) (k : β → α) (l : List γ) :
    sortBy k (l.map f) = (sortBy (fun a => k (f a)) l).map f := by
  have hmap := @List.map_mergeSort γ β (fun a b => decide (k (f a) ≤ k (f b)))
    (fun a b => decide (k a ≤ k b)) f l fun a _ b _ => rfl
  exact hmap.symm

section Distinct

variable [DecidableEq β]

def distinctSortBy (k : β → α) (l : List β) : List β := dedup (sortBy k l)

/-- Sorted, then equal neighbours dropped. -/
def distinctSort (l : List α) : List α := distinctSortBy id l

theorem mem_distinctSortBy {k : β → α} {l : List β} {x : β} : x ∈ distinctSortBy k l ↔ x ∈ l := by
  rw [distinctSortBy, mem_dedup, mem_sortBy]

theorem distinctSortBy_ascends {k : β → α} {l : List β}
    (hinj : ∀ a ∈ l, ∀ b ∈ l, k a = k b → a = b) : ((distinctSortBy k l).map k).SortedLT :=
  dedup_ascends (fun a ha b hb => hinj a (mem_sortBy.mp ha) b (mem_sortBy.mp hb)) (sortBy_ascends k l)

variable {l : List α}

theorem mem_distinctSort {x : α} : x ∈ distinctSort l ↔ x ∈ l := mem_distinctSortBy

theorem sortedLT_distinctSort (l : List α) : (distinctSort l).SortedLT := by
  have h := @distinctSortBy_ascends α α _ _ id l fun _ _ _ _ h => h
  rwa [List.map_id] at h

/-- The one strictly ascending listing of the values. -/
theorem distinctSort_eq {l' : List α} (hsorted : l'.SortedLT) (hmem : ∀ x, x ∈ l' ↔ x ∈ l) :
    distinctSort l = l' :=
  (sortedLT_distinctSort l).eq_of_mem_iff hsorted fun x => by rw [mem_distinctSort, hmem]

theorem distinctSort_congr {l' : List α} (hmem : ∀ x, x ∈ l ↔ x ∈ l') :
    distinctSort l = distinctSort l' :=
  distinctSort_eq (sortedLT_distinctSort l') fun x => by rw [mem_distinctSort, hmem]

theorem distinctSort_of_sortedLT (h : l.SortedLT) : distinctSort l = l :=
  distinctSort_eq h fun _ => Iff.rfl

/-- Sorting commutes with a map that keeps the order of the values. -/
theorem map_distinctSort {γ : Type*} [LinearOrder γ] {f : α → γ}
    (hf : ∀ a ∈ l, ∀ b ∈ l, a < b → f a < f b) :
    (distinctSort l).map f = distinctSort (l.map f) := by
  refine (distinctSort_eq (List.Pairwise.sortedLT (List.pairwise_map.mpr ?_)) fun x => ?_).symm
  · refine (sortedLT_distinctSort l).pairwise.imp_of_mem fun ha hb hab => ?_
    exact hf _ (mem_distinctSort.mp ha) _ (mem_distinctSort.mp hb) hab
  · simp only [List.mem_map, mem_distinctSort]

/-- A value put between the smaller ones and the larger ones. -/
theorem sortedLT_insert (h : l.SortedLT) {x : α} (hx : x ∉ l) {below : α → Bool}
    (hbelow : ∀ a, below a = true ↔ a < x) :
    (l.takeWhile below ++ x :: l.dropWhile below).SortedLT := by
  refine List.Pairwise.sortedLT ?_
  have hl := h.pairwise
  clear h
  induction l with
  | nil => exact List.pairwise_singleton _ x
  | cons a l ih =>
    obtain ⟨hne, hx⟩ := List.ne_and_not_mem_of_not_mem_cons hx
    obtain ⟨ha, hl'⟩ := List.pairwise_cons.mp hl
    by_cases hlt : a < x
    · rw [List.takeWhile_cons_of_pos ((hbelow a).mpr hlt), List.dropWhile_cons_of_pos ((hbelow a).mpr hlt),
        List.cons_append, List.pairwise_cons]
      refine ⟨fun b hb => ?_, ih hx hl'⟩
      rcases List.mem_append.mp hb with htake | hdrop
      · exact ha b (List.takeWhile_subset _ htake)
      · rcases List.mem_cons.mp hdrop with rfl | hdrop
        · exact hlt
        · exact ha b (List.dropWhile_subset _ hdrop)
    · have hgt : x < a := lt_of_le_of_ne (not_lt.mp hlt) hne
      rw [List.takeWhile_cons_of_neg (mt (hbelow a).mp hlt), List.dropWhile_cons_of_neg (mt (hbelow a).mp hlt),
        List.nil_append, List.pairwise_cons]
      refine ⟨fun b hb => ?_, hl⟩
      rcases List.mem_cons.mp hb with rfl | hb
      · exact hgt
      · exact hgt.trans (ha b hb)

/-- What is left of a strictly ascending list after its least value. -/
theorem distinctSort_cons {l' : List α} {x : α} (hmem : ∀ y, y ∈ l ↔ y = x ∨ y ∈ l')
    (hleast : ∀ y ∈ l', x < y) : distinctSort l = x :: distinctSort l' := by
  refine distinctSort_eq (List.Pairwise.sortedLT (List.pairwise_cons.mpr
    ⟨fun y hy => hleast y (mem_distinctSort.mp hy), (sortedLT_distinctSort l').pairwise⟩)) fun y => ?_
  rw [List.mem_cons, mem_distinctSort, hmem]

end Distinct

end DistinctSort
