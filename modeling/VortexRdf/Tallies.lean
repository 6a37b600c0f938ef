/-
Tallies: keys with how often each was counted, in ascending order of the keys.

A tally lists a count function: each key counted at all with its count, once.

* `searchByKey` — the place of a key, or where it would go;
* `Lists` — what a tally says of a count function;
* `Lists.raise`, `Lists.insert` — counting a key more, or for the first time;
* `Lists.uncons`, `foldl_listed` — one tally counted into another;
* `ofRows`, `lists_ofRows`, `Lists.eq_of_rows` — the tally of a list of keys, which is
  the only one.
-/
import Mathlib.Data.Finset.Sort
import VortexRdf.AscendingLists

namespace Tallies

open Ascending

variable {α : Type*} [LinearOrder α]

/-- Binary search of an ascending tally: where the key is, or else where it goes. -/
def searchByKey (pairs : List (α × ℕ)) (key : α) : Except ℕ ℕ :=
  let place := partitionPoint (fun pair => pair.1 < key) pairs
  if pairs[place]?.map Prod.fst = some key then .ok place else .error place

/-- A count function with one key counted `n` times more. -/
def bump (f : α → ℕ) (key : α) (n : ℕ) : α → ℕ := fun v => f v + if v = key then n else 0

/-- The tally lists the keys counted, each once with its count. -/
structure Lists (pairs : List (α × ℕ)) (f : α → ℕ) : Prop where
  ascending : pairs.Pairwise fun a b => a.1 < b.1
  mem_iff : ∀ v n, (v, n) ∈ pairs ↔ 0 < n ∧ f v = n

theorem lists_nil : Lists ([] : List (α × ℕ)) fun _ => 0 where
  ascending := List.Pairwise.nil
  mem_iff v n := by
    rw [iff_false_left List.not_mem_nil]
    omega

variable {pairs low high : List (α × ℕ)} {f g : α → ℕ} {key : α} {n m : ℕ}

theorem Lists.mem_keys_iff (h : Lists pairs f) (v : α) : v ∈ pairs.map Prod.fst ↔ 0 < f v := by
  rw [List.mem_map]
  constructor
  · rintro ⟨⟨u, k⟩, hmem, rfl⟩
    obtain ⟨hpos, hf⟩ := (h.mem_iff u k).mp hmem
    show 0 < f u
    omega
  · intro hpos
    exact ⟨(v, f v), (h.mem_iff v (f v)).mpr ⟨hpos, rfl⟩, rfl⟩

theorem Lists.card_keys (h : Lists pairs f) :
    (pairs.map Prod.fst).toFinset.card = pairs.length := by
  have hkeys : (pairs.map Prod.fst).Nodup :=
    (List.pairwise_map.mpr h.ascending).imp fun hlt => ne_of_lt hlt
  rw [List.toFinset_card_of_nodup hkeys, List.length_map]

/-! ### Searching -/

/-- The keys on either side of where a search ends. -/
theorem searchByKey_split (h : pairs.Pairwise fun a b => a.1 < b.1) (key : α) :
    ∃ low high, pairs = low ++ high ∧ (∀ a ∈ low, a.1 < key) ∧
      ((∃ m rest, high = (key, m) :: rest ∧ searchByKey pairs key = .ok low.length) ∨
        (∀ a ∈ high, key < a.1) ∧ searchByKey pairs key = .error low.length) := by
  have hlow : ∀ a ∈ pairs.takeWhile fun pair => decide (pair.1 < key), a.1 < key := by
    intro a ha
    exact of_decide_eq_true (List.all_eq_true.mp List.all_takeWhile a ha)
  have hsplit := List.takeWhile_append_dropWhile (p := fun pair => decide (pair.1 < key)) (l := pairs)
  obtain ⟨low, hlows⟩ : ∃ low, low = pairs.takeWhile fun pair => decide (pair.1 < key) := ⟨_, rfl⟩
  obtain ⟨high, hhighs⟩ : ∃ high, high = pairs.dropWhile fun pair => decide (pair.1 < key) :=
    ⟨_, rfl⟩
  have hplace : partitionPoint (fun pair => decide (pair.1 < key)) pairs = low.length := by
    rw [partitionPoint, hlows]
  have hget : pairs[low.length]? = high.head? := by
    rw [← hsplit, ← hlows, ← hhighs, List.getElem?_append_right le_rfl, Nat.sub_self,
      List.head?_eq_getElem?]
  refine ⟨low, high, by rw [hlows, hhighs, hsplit], by rwa [hlows], ?_⟩
  rw [searchByKey, hplace, hget]
  cases hhead : high with
  | nil => exact Or.inr ⟨fun a ha => absurd ha List.not_mem_nil, rfl⟩
  | cons first rest =>
    obtain ⟨u, k⟩ := first
    have hge : ¬ u < key := by
      have hfirst := List.head_dropWhile_not (p := fun pair : α × ℕ => decide (pair.1 < key))
        (l := pairs) (by rw [← hhighs, hhead]; exact List.cons_ne_nil _ _)
      simpa [← hhighs, hhead] using hfirst
    by_cases hhit : u = key
    · refine Or.inl ⟨k, rest, by rw [hhit], ?_⟩
      rw [List.head?_cons, Option.map_some, if_pos (congrArg some hhit)]
    · refine Or.inr ⟨fun a ha => ?_, ?_⟩
      · have hfirst : key < u := lt_of_le_of_ne (not_lt.mp hge) (Ne.symm hhit)
        rcases List.mem_cons.mp ha with rfl | hrest
        · exact hfirst
        · rw [← hsplit, ← hlows, ← hhighs, hhead] at h
          have htail := (List.pairwise_append.mp h).2.1
          exact hfirst.trans (List.rel_of_pairwise_cons htail hrest)
      · rw [List.head?_cons, Option.map_some, if_neg fun heq => hhit (Option.some.inj heq)]

/-! ### Counting -/

theorem modify_middle {β : Type*} (low : List β) (b : β) (high : List β) (f : β → β) :
    (low ++ b :: high).modify low.length f = low ++ f b :: high := by
  induction low with
  | nil => rfl
  | cons a low ih => rw [List.cons_append, List.length_cons, List.modify_succ_cons, ih, List.cons_append]

theorem insertIdx_middle {β : Type*} (low high : List β) (b : β) :
    (low ++ high).insertIdx low.length b = low ++ b :: high := by
  induction low with
  | nil => rfl
  | cons a low ih =>
    rw [List.cons_append, List.length_cons, List.insertIdx_succ_cons, ih, List.cons_append]

theorem Lists.raise (h : Lists (low ++ (key, m) :: high) f) :
    Lists (low ++ (key, m + n) :: high) (bump f key n) := by
  have hkey : 0 < m ∧ f key = m := (h.mem_iff key m).mp (by simp)
  have hone : ∀ k, (key, k) ∈ low ++ high → False := by
    intro k hk
    have hpair := List.pairwise_append.mp h.ascending
    rcases List.mem_append.mp hk with hlow | hhigh
    · exact lt_irrefl key (hpair.2.2 _ hlow _ List.mem_cons_self)
    · exact lt_irrefl key (List.rel_of_pairwise_cons hpair.2.1 hhigh)
  constructor
  · have hpair := List.pairwise_append.mp h.ascending
    refine List.pairwise_append.mpr ⟨hpair.1, ?_, fun a ha b hb => ?_⟩
    · exact List.pairwise_cons.mpr (List.pairwise_cons.mp hpair.2.1)
    · rcases List.mem_cons.mp hb with rfl | hb
      · exact hpair.2.2 a ha (key, m) List.mem_cons_self
      · exact hpair.2.2 a ha b (List.mem_cons_of_mem _ hb)
  · intro v k
    have hold := h.mem_iff v k
    have hshape : ∀ c, (v, k) ∈ low ++ (key, c) :: high ↔
        (v = key ∧ k = c) ∨ (v, k) ∈ low ++ high := by
      intro c
      simp only [List.mem_append, List.mem_cons, Prod.mk.injEq]
      tauto
    rw [hshape] at hold ⊢
    rw [bump]
    by_cases hv : v = key
    · subst hv
      have hnone : ¬ (v, k) ∈ low ++ high := hone k
      simp only [hnone, or_false, true_and, if_true]
      omega
    · simp only [hv, false_and, false_or, if_false, Nat.add_zero] at hold ⊢
      exact hold

theorem Lists.insert (h : Lists (low ++ high) f) (hlow : ∀ a ∈ low, a.1 < key)
    (hhigh : ∀ a ∈ high, key < a.1) (hn : 0 < n) :
    f key = 0 ∧ Lists (low ++ (key, n) :: high) (bump f key n) := by
  have hnew : ∀ k, ¬ (key, k) ∈ low ++ high := by
    intro k hk
    rcases List.mem_append.mp hk with hin | hin
    · exact lt_irrefl key (hlow _ hin)
    · exact lt_irrefl key (hhigh _ hin)
  have hzero : f key = 0 := by
    by_contra hne
    exact hnew (f key) ((h.mem_iff key (f key)).mpr ⟨Nat.pos_of_ne_zero hne, rfl⟩)
  refine ⟨hzero, ?_, fun v k => ?_⟩
  · have hpair := List.pairwise_append.mp h.ascending
    refine List.pairwise_append.mpr ⟨hpair.1, List.pairwise_cons.mpr ⟨hhigh, hpair.2.1⟩, ?_⟩
    intro a ha b hb
    rcases List.mem_cons.mp hb with rfl | hb
    · exact hlow a ha
    · exact hpair.2.2 a ha b hb
  · have hold := h.mem_iff v k
    have hshape : (v, k) ∈ low ++ (key, n) :: high ↔ (v = key ∧ k = n) ∨ (v, k) ∈ low ++ high := by
      simp only [List.mem_append, List.mem_cons, Prod.mk.injEq]
      tauto
    rw [hshape, bump]
    by_cases hv : v = key
    · subst hv
      simp only [hnew k, or_false, true_and, if_true, hzero]
      omega
    · simp only [hv, false_and, false_or, if_false, Nat.add_zero]
      exact hold

/-- A tally's first key, and the tally of the rest. -/
theorem Lists.uncons (h : Lists ((key, n) :: pairs) f) :
    0 < n ∧ f key = n ∧ Lists pairs fun v => if v = key then 0 else f v := by
  obtain ⟨hpos, hkey⟩ := (h.mem_iff key n).mp List.mem_cons_self
  refine ⟨hpos, hkey, (List.pairwise_cons.mp h.ascending).2, fun v k => ?_⟩
  have hold := h.mem_iff v k
  rw [List.mem_cons, Prod.mk.injEq] at hold
  show (v, k) ∈ pairs ↔ 0 < k ∧ (if v = key then 0 else f v) = k
  by_cases hv : v = key
  · subst hv
    have hnone : ¬ (v, k) ∈ pairs := fun hin =>
      lt_irrefl v (List.rel_of_pairwise_cons h.ascending hin)
    rw [if_pos rfl, iff_false_left hnone]
    omega
  · simp only [hv, false_and, false_or, if_false] at hold ⊢
    exact hold

/-- A tally counted into a state key by key, each step keeping an invariant of the count
function. -/
theorem foldl_listed {σ : Type*} (P : σ → (α → ℕ) → Prop) (add : σ → α × ℕ → σ) {bound : ℕ}
    (hstep : ∀ s f v n, P s f → 0 < n → f v + n ≤ bound → P (add s (v, n)) (bump f v n))
    {s : σ} (hs : P s f) (h : Lists pairs g) (hbound : ∀ v, f v + g v ≤ bound) :
    P (pairs.foldl add s) fun v => f v + g v := by
  induction pairs generalizing s f g with
  | nil =>
    have hzero : (fun v => f v + g v) = f := by
      funext v
      have hnone : ¬ 0 < g v := fun hpos => List.not_mem_nil ((h.mem_iff v (g v)).mpr ⟨hpos, rfl⟩)
      show f v + g v = f v
      omega
    rw [hzero]
    exact hs
  | cons pair pairs ih =>
    obtain ⟨key, n⟩ := pair
    obtain ⟨hpos, hkey, hrest⟩ := h.uncons
    have hsum : ∀ v, bump f key n v + (if v = key then 0 else g v) = f v + g v := by
      intro v
      rw [bump]
      split_ifs with hv
      · rw [hv, hkey, Nat.add_zero]
      · rw [Nat.add_zero]
    have hnext := ih (hstep s f key n hs hpos (by rw [← hkey]; exact hbound key)) hrest
      fun v => by rw [hsum]; exact hbound v
    rw [List.foldl_cons]
    simpa only [hsum] using hnext

/-! ### The tally of a list -/

/-- The keys of a list with how often each is in it, ascending. -/
def ofRows (rows : List α) : List (α × ℕ) :=
  (rows.toFinset.sort (· ≤ ·)).map fun v => (v, rows.count v)

theorem Lists.keys_eq {rows : List α} (h : Lists pairs rows.count) :
    pairs.map Prod.fst = rows.toFinset.sort (· ≤ ·) := by
  have hkeys : (pairs.map Prod.fst).SortedLT := (List.pairwise_map.mpr h.ascending).sortedLT
  refine hkeys.eq_of_mem_iff (Finset.sortedLT_sort _) fun v => ?_
  rw [h.mem_keys_iff, Finset.mem_sort, List.mem_toFinset, List.count_pos_iff]

/-- The tally of a list is the only one that lists its counts. -/
theorem Lists.eq_of_rows {rows : List α} (h : Lists pairs rows.count) : pairs = ofRows rows := by
  rw [ofRows, ← h.keys_eq, List.map_map]
  have hself : pairs.map id = pairs.map ((fun v => (v, rows.count v)) ∘ Prod.fst) := by
    refine List.map_congr_left fun pair hpair => ?_
    obtain ⟨v, n⟩ := pair
    show (v, n) = (v, rows.count v)
    rw [((h.mem_iff v n).mp hpair).2]
  rwa [List.map_id] at hself

theorem lists_ofRows (rows : List α) : Lists (ofRows rows) rows.count where
  ascending := by
    rw [ofRows, List.pairwise_map]
    exact (Finset.sortedLT_sort rows.toFinset).pairwise
  mem_iff v n := by
    rw [ofRows, List.mem_map]
    constructor
    · rintro ⟨u, hu, heq⟩
      obtain ⟨rfl, rfl⟩ := Prod.mk.inj heq
      exact ⟨List.count_pos_iff.mpr (List.mem_toFinset.mp ((Finset.mem_sort _).mp hu)), rfl⟩
    · rintro ⟨hpos, rfl⟩
      exact ⟨v, (Finset.mem_sort _).mpr (List.mem_toFinset.mpr (List.count_pos_iff.mp hpos)), rfl⟩

theorem Lists.length_eq {rows : List α} (h : Lists pairs rows.count) :
    pairs.length = rows.toFinset.card := by
  rw [← List.length_map Prod.fst, h.keys_eq, Finset.length_sort]

end Tallies
