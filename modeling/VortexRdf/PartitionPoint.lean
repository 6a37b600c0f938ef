/-
Partition points of a virtual index range.

A sorted range is searched through a probe that may fail.  The answer of every
such search is a *partition point*: the index where a predicate that holds of a
prefix of the range stops holding.

* `IsPartitionPoint` — the point of a predicate on `[lo, hi)`, unique when it
  exists;
* `bisect` — bisection by a probe in `Option`, `none` as soon as a probe fails;
* `bisect_spec` — over a predicate closed downwards, with every probe in the
  range answering, bisection returns the partition point;
* `IsPartitionPoint.findIdx_eq` — the point is what a linear scan finds.

Nothing here knows what the indices address: a probe is any function of an
index.
-/
import Mathlib.Tactic

namespace Bisect

/-- `k` splits `[lo, hi)`: the predicate holds before it and fails from it on. -/
structure IsPartitionPoint (p : ℕ → Prop) (lo hi k : ℕ) : Prop where
  ge : lo ≤ k
  le : k ≤ hi
  before : ∀ i, lo ≤ i → i < k → p i
  after : ∀ i, k ≤ i → i < hi → ¬ p i

/-- The predicate holds of every index of `[lo, hi)` below one it holds of. -/
def DownClosedOn (p : ℕ → Prop) (lo hi : ℕ) : Prop :=
  ∀ i j, lo ≤ i → i ≤ j → j < hi → p j → p i

/-- `probe` answers on every index of `[lo, hi)`, with the value `f` gives. -/
def ReadsOn {α : Type*} (probe : ℕ → Option α) (f : ℕ → α) (lo hi : ℕ) : Prop :=
  ∀ i, lo ≤ i → i < hi → probe i = some (f i)

namespace IsPartitionPoint

variable {p q : ℕ → Prop} {lo hi k : ℕ}

theorem unique {k' : ℕ} (h : IsPartitionPoint p lo hi k)
    (h' : IsPartitionPoint p lo hi k') : k = k' := by
  rcases Nat.lt_trichotomy k k' with hlt | heq | hgt
  · exact absurd (h'.before k h.ge hlt) (h.after k le_rfl (lt_of_lt_of_le hlt h'.le))
  · exact heq
  · exact absurd (h.before k' h'.ge hgt) (h'.after k' le_rfl (lt_of_lt_of_le hgt h.le))

theorem congr (h : IsPartitionPoint p lo hi k)
    (hpq : ∀ i, lo ≤ i → i < hi → (p i ↔ q i)) : IsPartitionPoint q lo hi k where
  ge := h.ge
  le := h.le
  before i hi' hik := (hpq i hi' (lt_of_lt_of_le hik h.le)).mp (h.before i hi' hik)
  after i hik hi' hq := h.after i hik hi' ((hpq i (le_trans h.ge hik) hi').mpr hq)

theorem lt_iff (h : IsPartitionPoint p lo hi k) {i : ℕ} (hlo : lo ≤ i) (hhi : i < hi) :
    i < k ↔ p i := by
  constructor
  · exact h.before i hlo
  · intro hp
    by_contra hik
    exact h.after i (Nat.le_of_not_lt hik) hhi hp

/-- A point of the shifted predicate is the point of the range it is shifted
from. -/
theorem shift {a n : ℕ} (h : IsPartitionPoint (fun i => p (a + i)) 0 n k) :
    IsPartitionPoint p a (a + n) (a + k) where
  ge := Nat.le_add_right a k
  le := Nat.add_le_add_left h.le a
  before i hai hik := by
    obtain ⟨j, rfl⟩ : ∃ j, i = a + j := ⟨i - a, by omega⟩
    exact h.before j (Nat.zero_le j) (by omega)
  after i hik hin := by
    obtain ⟨j, rfl⟩ : ∃ j, i = a + j := ⟨i - a, by omega⟩
    exact h.after j (by omega) (by omega)

/-- A point of a part of the range is the point of the whole, when the
predicate holds before the part and fails behind it. -/
theorem widen {lo' hi' : ℕ} (h : IsPartitionPoint p lo hi k) (hlo : lo' ≤ lo)
    (hhi : hi ≤ hi') (hbefore : ∀ i, lo' ≤ i → i < lo → p i)
    (hafter : ∀ i, hi ≤ i → i < hi' → ¬ p i) : IsPartitionPoint p lo' hi' k where
  ge := le_trans hlo h.ge
  le := le_trans h.le hhi
  before i hi₁ hik := by
    by_cases hlt : i < lo
    · exact hbefore i hi₁ hlt
    · exact h.before i (Nat.le_of_not_lt hlt) hik
  after i hik hi₂ := by
    by_cases hlt : i < hi
    · exact h.after i hik hlt
    · exact hafter i (Nat.le_of_not_lt hlt) hi₂

/-- The point of the range is the point of a part that encloses it. -/
theorem narrow {lo' hi' : ℕ} (h : IsPartitionPoint p lo hi k) (hlo : lo ≤ lo') (hhi : hi' ≤ hi)
    (hge : lo' ≤ k) (hle : k ≤ hi') : IsPartitionPoint p lo' hi' k where
  ge := hge
  le := hle
  before i hi₁ hik := h.before i (le_trans hlo hi₁) hik
  after i hik hi₂ := h.after i hik (lt_of_lt_of_le hi₂ hhi)

/-- A point of a range is, less the range's offset, the point of the shifted
predicate. -/
theorem unshift {a m n : ℕ} (h : IsPartitionPoint p (a + m) (a + n) (a + k)) :
    IsPartitionPoint (fun i => p (a + i)) m n k where
  ge := Nat.le_of_add_le_add_left h.ge
  le := Nat.le_of_add_le_add_left h.le
  before i hmi hik := h.before (a + i) (Nat.add_le_add_left hmi a) (Nat.add_lt_add_left hik a)
  after i hik hin := h.after (a + i) (Nat.add_le_add_left hik a) (Nat.add_lt_add_left hin a)

/-- The point of `[0, n)` is where a linear scan of the values first finds one
the predicate fails of. -/
theorem findIdx_eq {α : Type*} {f : ℕ → α} {r : α → Bool} {n : ℕ}
    (h : IsPartitionPoint (fun i => r (f i) = false) 0 n k) :
    ((List.range n).map f).findIdx r = k := by
  have hlen : ((List.range n).map f).length = n := by simp
  rcases Nat.lt_or_ge k n with hk | hk
  · rw [List.findIdx_eq (by rwa [hlen])]
    constructor
    · simpa using h.after k le_rfl hk
    · intro j hj
      simpa using h.before j (Nat.zero_le j) hj
  · have hkn : k = n := le_antisymm h.le hk
    subst hkn
    rw [List.findIdx_eq_length.mpr ?_, hlen]
    intro x hx
    obtain ⟨i, hi, rfl⟩ := List.mem_map.mp hx
    exact h.before i (Nat.zero_le i) (List.mem_range.mp hi)

/-- The point of `[0, n)` counts the indices the predicate holds of. -/
theorem countP_eq [DecidablePred p] {n : ℕ} (h : IsPartitionPoint p 0 n k) :
    (List.range n).countP (fun i => decide (p i)) = k := by
  obtain ⟨m, rfl⟩ : ∃ m, n = k + m := ⟨n - k, by have := h.le; omega⟩
  rw [List.range_add, List.countP_append]
  have hbefore : (List.range k).countP (fun i => decide (p i)) = k := by
    rw [List.countP_eq_length.mpr, List.length_range]
    intro i hi
    exact decide_eq_true (h.before i (Nat.zero_le i) (List.mem_range.mp hi))
  have hafter : ((List.range m).map (k + ·)).countP (fun i => decide (p i)) = 0 := by
    rw [List.countP_eq_zero]
    intro i hi
    obtain ⟨j, hj, rfl⟩ := List.mem_map.mp hi
    have hj' := List.mem_range.mp hj
    simpa using h.after (k + j) (by omega) (by omega)
  rw [hbefore, hafter, Nat.add_zero]

/-- Indices grouped by `g`: the point of the groups is the point of the indices,
at the index where the groups behind it begin. -/
theorem pullback {g : ℕ → ℕ} {n s : ℕ} (h : IsPartitionPoint q lo hi k) (hs : s ≤ n)
    (hg : ∀ i, i < n → lo ≤ g i ∧ g i < hi) (hpq : ∀ i, i < n → (p i ↔ q (g i)))
    (hcut : ∀ i, i < n → (i < s ↔ g i < k)) : IsPartitionPoint p 0 n s where
  ge := Nat.zero_le s
  le := hs
  before i _ his := by
    have hi' := lt_of_lt_of_le his hs
    exact (hpq i hi').mpr (h.before _ (hg i hi').1 ((hcut i hi').mp his))
  after i hsi hi' hp := by
    have hk : k ≤ g i := Nat.le_of_not_lt fun hlt => Nat.not_lt_of_le hsi ((hcut i hi').mpr hlt)
    exact h.after _ hk (hg i hi').2 ((hpq i hi').mp hp)

/-- The segment an index lies in, among segments bounded by `b`. -/
theorem segment {b : ℕ → ℕ} {n i : ℕ} (h : IsPartitionPoint (fun c => b c ≤ i) 0 n k)
    (h₀ : b 0 ≤ i) (hn : i < b n) : 0 < k ∧ b (k - 1) ≤ i ∧ i < b k := by
  have hpos : 0 < k := by
    by_contra hk
    obtain rfl : k = 0 := by omega
    have hn₀ : 0 < n := Nat.pos_of_ne_zero fun hz => by subst hz; omega
    exact h.after 0 le_rfl hn₀ h₀
  refine ⟨hpos, h.before (k - 1) (Nat.zero_le _) (by omega), ?_⟩
  rcases Nat.lt_or_eq_of_le h.le with hlt | rfl
  · exact Nat.lt_of_not_le (h.after k le_rfl hlt)
  · exact hn

theorem empty (p : ℕ → Prop) (lo : ℕ) : IsPartitionPoint p lo lo lo where
  ge := le_rfl
  le := le_rfl
  before _ h₁ h₂ := absurd h₂ (Nat.not_lt_of_le h₁)
  after _ h₁ h₂ := absurd h₂ (Nat.not_lt_of_le h₁)

/-- The end of the range is its point when the predicate holds throughout. -/
theorem atEnd (hle : lo ≤ hi) (h : ∀ i, lo ≤ i → i < hi → p i) :
    IsPartitionPoint p lo hi hi where
  ge := hle
  le := le_rfl
  before := h
  after _ h₁ h₂ := absurd h₂ (Nat.not_lt_of_le h₁)

/-- The start of the range is its point when the predicate fails throughout. -/
theorem atStart (hle : lo ≤ hi) (h : ∀ i, lo ≤ i → i < hi → ¬ p i) :
    IsPartitionPoint p lo hi lo where
  ge := le_rfl
  le := hle
  before _ h₁ h₂ := absurd h₂ (Nat.not_lt_of_le h₁)
  after := h

end IsPartitionPoint

/-! ### Bisection -/

/-- Bisection of `[lo, hi)`, at most `fuel` splits. -/
def bisectLoop (below : ℕ → Option Bool) : ℕ → ℕ → ℕ → Option ℕ
  | 0, lo, _ => some lo
  | fuel + 1, lo, hi =>
    if lo < hi then do
      if ← below (lo + (hi - lo) / 2) then
        bisectLoop below fuel (lo + (hi - lo) / 2 + 1) hi
      else
        bisectLoop below fuel lo (lo + (hi - lo) / 2)
    else some lo

/-- The bisection of `[lo, hi)` by `below`: each split drops an index, so as
many splits as the range is long are enough. -/
def bisect (below : ℕ → Option Bool) (lo hi : ℕ) : Option ℕ :=
  bisectLoop below (hi - lo) lo hi

variable {below : ℕ → Option Bool}

theorem bisectLoop_spec {p : ℕ → Prop} [DecidablePred p] :
    ∀ {fuel lo hi : ℕ}, lo ≤ hi → hi - lo ≤ fuel →
      ReadsOn below (fun i => decide (p i)) lo hi → DownClosedOn p lo hi →
      ∃ k, bisectLoop below fuel lo hi = some k ∧ IsPartitionPoint p lo hi k := by
  intro fuel
  induction fuel with
  | zero =>
    intro lo hi hle hfuel _ _
    obtain rfl : lo = hi := by omega
    exact ⟨lo, rfl, .empty p lo⟩
  | succ fuel ih =>
    intro lo hi hle hfuel hread hdown
    rw [bisectLoop]
    by_cases hlt : lo < hi
    · rw [if_pos hlt]
      have hmid : lo + (hi - lo) / 2 < hi := by omega
      rw [hread _ (Nat.le_add_right _ _) hmid]
      by_cases hp : p (lo + (hi - lo) / 2)
      · simp only [hp, decide_true, Option.bind_eq_bind, Option.bind_some, if_true]
        obtain ⟨k, hk, hpoint⟩ := @ih (lo + (hi - lo) / 2 + 1) hi
          (by omega) (by omega) (fun i h₁ h₂ => hread i (by omega) h₂)
          (fun i j h₁ => hdown i j (by omega))
        refine ⟨k, hk, hpoint.widen (by omega) le_rfl (fun i h₁ h₂ => ?_) (fun i h₁ h₂ => ?_)⟩
        · exact hdown i _ h₁ (by omega) hmid hp
        · exact absurd h₂ (Nat.not_lt_of_le h₁)
      · simp only [hp, decide_false, Option.bind_eq_bind, Option.bind_some, Bool.false_eq_true,
          if_false]
        obtain ⟨k, hk, hpoint⟩ := @ih lo (lo + (hi - lo) / 2)
          (by omega) (by omega) (fun i h₁ h₂ => hread i h₁ (by omega))
          (fun i j h₁ h₂ h₃ => hdown i j h₁ h₂ (by omega))
        refine ⟨k, hk, hpoint.widen le_rfl (by omega) (fun i h₁ h₂ => ?_) (fun i h₁ h₂ hpi => ?_)⟩
        · exact absurd h₂ (Nat.not_lt_of_le h₁)
        · exact hp (hdown _ i (by omega) h₁ h₂ hpi)
    · rw [if_neg hlt]
      obtain rfl : lo = hi := by omega
      exact ⟨lo, rfl, .empty p lo⟩

/-- **Bisection finds the partition point** of a predicate closed downwards,
whenever every probe in the range answers. -/
theorem bisect_spec {p : ℕ → Prop} [DecidablePred p] {lo hi : ℕ}
    (hle : lo ≤ hi) (hread : ReadsOn below (fun i => decide (p i)) lo hi)
    (hdown : DownClosedOn p lo hi) :
    ∃ k, bisect below lo hi = some k ∧ IsPartitionPoint p lo hi k :=
  bisectLoop_spec hle le_rfl hread hdown

/-- Any probe that answers in the range is bisected to an index of it. -/
theorem bisectLoop_total {p : ℕ → Bool} : ∀ {fuel lo hi : ℕ}, lo ≤ hi →
    hi - lo ≤ fuel → ReadsOn below p lo hi → ∃ k, bisectLoop below fuel lo hi = some k ∧ lo ≤ k ∧ k ≤ hi := by
  intro fuel
  induction fuel with
  | zero =>
    intro lo hi hle _ _
    exact ⟨lo, rfl, le_rfl, hle⟩
  | succ fuel ih =>
    intro lo hi hle hfuel hread
    rw [bisectLoop]
    split_ifs with hlt
    · have hmid : lo + (hi - lo) / 2 < hi := by omega
      rw [hread _ (Nat.le_add_right _ _) hmid]
      cases p (lo + (hi - lo) / 2) with
      | true =>
        obtain ⟨k, hk, hge, hle'⟩ := @ih (lo + (hi - lo) / 2 + 1) hi (by omega) (by omega)
          (fun i h₁ h₂ => hread i (by omega) h₂)
        exact ⟨k, hk, by omega, hle'⟩
      | false =>
        obtain ⟨k, hk, hge, hle'⟩ := @ih lo (lo + (hi - lo) / 2) (by omega) (by omega)
          (fun i h₁ h₂ => hread i h₁ (by omega))
        exact ⟨k, hk, hge, by omega⟩
    · exact ⟨lo, rfl, le_rfl, hle⟩

/-- A predicate closed downwards has a partition point. -/
theorem exists_isPartitionPoint {p : ℕ → Prop} {lo hi : ℕ} (hle : lo ≤ hi)
    (hdown : DownClosedOn p lo hi) : ∃ k, IsPartitionPoint p lo hi k := by
  classical
  have hread : ReadsOn (fun i => some (decide (p i))) (fun i => decide (p i)) lo hi :=
    fun _ _ _ => rfl
  obtain ⟨k, -, hk⟩ := bisect_spec hle hread hdown
  exact ⟨k, hk⟩

/-- Bisection returns the known partition point of its range. -/
theorem bisect_eq {p : ℕ → Prop} [DecidablePred p] {lo hi k : ℕ}
    (hread : ReadsOn below (fun i => decide (p i)) lo hi)
    (hdown : DownClosedOn p lo hi) (hk : IsPartitionPoint p lo hi k) :
    bisect below lo hi = some k := by
  obtain ⟨k', h', hk'⟩ := bisect_spec (le_trans hk.ge hk.le) hread hdown
  rw [h', hk'.unique hk]

/-! ### Values ascending in a range -/

/-- The values of `[lo, hi)` ascend, repeats allowed. -/
def AscendingOn {α : Type*} [LE α] (f : ℕ → α) (lo hi : ℕ) : Prop :=
  ∀ i j, lo ≤ i → i ≤ j → j < hi → f i ≤ f j

/-- The values of `[lo, hi)` strictly ascend. -/
def StrictAscendingOn {α : Type*} [LT α] (f : ℕ → α) (lo hi : ℕ) : Prop :=
  ∀ i j, lo ≤ i → i < j → j < hi → f i < f j

variable {α : Type*} {f : ℕ → α}

theorem StrictAscendingOn.ascendingOn [Preorder α] {lo hi : ℕ}
    (h : StrictAscendingOn f lo hi) : AscendingOn f lo hi := by
  intro i j hi' hij hj
  rcases Nat.lt_or_eq_of_le hij with hlt | rfl
  · exact le_of_lt (h i j hi' hlt hj)
  · exact le_refl _

/-- Values that ascend from each index to the next ascend. -/
theorem StrictAscendingOn.of_succ [Preorder α] {lo hi : ℕ}
    (h : ∀ i, lo ≤ i → i + 1 < hi → f i < f (i + 1)) : StrictAscendingOn f lo hi := by
  intro i j hi' hij hj
  induction j with
  | zero => exact absurd hij (Nat.not_lt_zero i)
  | succ j ih =>
    rcases Nat.lt_or_eq_of_le (Nat.le_of_lt_succ hij) with hlt | rfl
    · exact lt_trans (ih hlt (by omega)) (h j (by omega) hj)
    · exact h i hi' hj

theorem AscendingOn.mono [LE α] {lo hi lo' hi' : ℕ}
    (h : AscendingOn f lo hi) (hlo : lo ≤ lo') (hhi : hi' ≤ hi) : AscendingOn f lo' hi' :=
  fun i j h₁ h₂ h₃ => h i j (by omega) h₂ (by omega)

theorem AscendingOn.shift [LE α] {a n : ℕ}
    (h : AscendingOn f a (a + n)) : AscendingOn (fun i => f (a + i)) 0 n :=
  fun i j _ h₂ h₃ => h (a + i) (a + j) (by omega) (by omega) (by omega)

theorem AscendingOn.downClosedOn_lt [Preorder α] {lo hi : ℕ}
    (h : AscendingOn f lo hi) (x : α) : DownClosedOn (fun i => f i < x) lo hi :=
  fun i j h₁ h₂ h₃ hj => lt_of_le_of_lt (h i j h₁ h₂ h₃) hj

theorem AscendingOn.downClosedOn_le [Preorder α] {lo hi : ℕ}
    (h : AscendingOn f lo hi) (x : α) : DownClosedOn (fun i => f i ≤ x) lo hi :=
  fun i j h₁ h₂ h₃ hj => le_trans (h i j h₁ h₂ h₃) hj

end Bisect
