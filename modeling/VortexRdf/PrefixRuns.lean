/-
Runs of a sorted column, and the runs of a second key inside them.

A column ascends over a window; the places holding one value are a run of it, between
the partition points of the value.  Rows sorted by a pair ascend in its first part, and
inside a run of the first part in the second.

* `IsRun` — the places of a window where something holds are those between two places;
* `IsRun.of_points` — the partition points of a value bound its run;
* `IsRun.inside` — a run found inside a run;
* `partitionPoint_point` — the partition point of a list, as one of its places;
* `NestedOn` — columns each sorted within every run of the ones before it;
* `AscendingOn.fst`, `AscendingOn.snd` — the parts of an ascending column of pairs.
-/
import VortexRdf.AscendingLists
import VortexRdf.PartitionPoint
import Mathlib.Data.List.GetD
import Mathlib.Data.Prod.Lex

namespace Bisect

/-- Within `lo..hi`, `p` holds of the places `a..b` and of no other. -/
structure IsRun (p : ℕ → Prop) (lo hi a b : ℕ) : Prop where
  start_le : lo ≤ a
  le : a ≤ b
  le_stop : b ≤ hi
  holds_iff : ∀ i, lo ≤ i → i < hi → (p i ↔ a ≤ i ∧ i < b)

namespace IsRun

variable {p q : ℕ → Prop} {lo hi a b : ℕ}

theorem holds (h : IsRun p lo hi a b) {i : ℕ} (ha : a ≤ i) (hb : i < b) : p i :=
  (h.holds_iff i (h.start_le.trans ha) (lt_of_lt_of_le hb h.le_stop)).mpr ⟨ha, hb⟩

theorem congr (h : IsRun p lo hi a b) (heq : ∀ i, lo ≤ i → i < hi → (p i ↔ q i)) :
    IsRun q lo hi a b :=
  ⟨h.start_le, h.le, h.le_stop, fun i hlo hhi => (heq i hlo hhi).symm.trans (h.holds_iff i hlo hhi)⟩

/-- Everything within a window is a run of it. -/
theorem whole (h : lo ≤ hi) : IsRun (fun _ => True) lo hi lo hi :=
  ⟨le_rfl, h, le_rfl, fun _ hlo hhi => ⟨fun _ => ⟨hlo, hhi⟩, fun _ => trivial⟩⟩

/-- The partition points of a value bound the run holding it. -/
theorem of_points {α : Type*} [LinearOrder α] {f : ℕ → α} {v : α}
    (ha : IsPartitionPoint (fun i => f i < v) lo hi a)
    (hb : IsPartitionPoint (fun i => f i ≤ v) lo hi b) : IsRun (fun i => f i = v) lo hi a b := by
  have hle : a ≤ b := by
    by_contra hba
    have hlt : b < a := Nat.lt_of_not_le hba
    -- the place `b` would hold a value below `v` that is not at most `v`
    have hbelow := ha.before b hb.ge hlt
    exact hb.after b le_rfl (lt_of_lt_of_le hlt ha.le) hbelow.le
  refine ⟨ha.ge, hle, hb.le, fun i hlo hhi => ?_⟩
  have hnot : ¬ f i < v ↔ a ≤ i := by
    rw [← ha.lt_iff hlo hhi, not_lt]
  rw [← hnot, hb.lt_iff hlo hhi, not_lt, and_comm]
  exact le_antisymm_iff

/-- A run of a window's own places, as places of the whole. -/
theorem shift {n x y : ℕ} (h : IsRun (fun i => p (lo + i)) 0 n x y) :
    IsRun p lo (lo + n) (lo + x) (lo + y) where
  start_le := Nat.le_add_right lo x
  le := Nat.add_le_add_left h.le lo
  le_stop := Nat.add_le_add_left h.le_stop lo
  holds_iff i hlo hhi := by
    obtain ⟨k, rfl⟩ := Nat.exists_eq_add_of_le hlo
    rw [h.holds_iff k (Nat.zero_le k) (by omega)]
    omega

/-- A run found inside a run is where both hold. -/
theorem inside (h : IsRun p lo hi a b) {a' b' : ℕ} (hq : IsRun q a b a' b') :
    IsRun (fun i => p i ∧ q i) lo hi a' b' where
  start_le := h.start_le.trans hq.start_le
  le := hq.le
  le_stop := hq.le_stop.trans h.le_stop
  holds_iff i hlo hhi := by
    constructor
    · rintro ⟨hp, hqi⟩
      obtain ⟨ha, hb⟩ := (h.holds_iff i hlo hhi).mp hp
      exact (hq.holds_iff i ha hb).mp hqi
    · rintro ⟨ha, hb⟩
      have ha' : a ≤ i := hq.start_le.trans ha
      have hb' : i < b := lt_of_lt_of_le hb hq.le_stop
      exact ⟨h.holds ha' hb', (hq.holds_iff i ha' hb').mpr ⟨ha, hb⟩⟩

end IsRun

/-- The places of a list where something closed downwards holds end at its partition
point. -/
theorem partitionPoint_point {α : Type*} {p : α → Bool} {l : List α} {d : α}
    (hdown : DownClosedOn (fun i => p (l.getD i d) = true) 0 l.length) :
    IsPartitionPoint (fun i => p (l.getD i d) = true) 0 l.length (Ascending.partitionPoint p l) where
  ge := Nat.zero_le _
  le := Ascending.partitionPoint_le p l
  before i _ hi := by
    obtain ⟨a, ha, hp⟩ := Ascending.holds_before_partitionPoint hi
    rw [List.getD_eq_getElem?_getD, ha]
    exact hp
  after i hi hlen hp := by
    have hk : Ascending.partitionPoint p l < l.length := lt_of_le_of_lt hi hlen
    have hfail := Ascending.fails_at_partitionPoint (List.getElem?_eq_getElem hk)
    rw [← List.getD_eq_getElem _ d hk] at hfail
    have hheld : p (l.getD (Ascending.partitionPoint p l) d) = true :=
      hdown _ i (Nat.zero_le _) hi hlen hp
    rw [hfail] at hheld
    exact absurd hheld Bool.false_ne_true

section Pairs

variable {α β : Type*} [LinearOrder α] [LinearOrder β] {f : ℕ → α ×ₗ β} {lo hi : ℕ}

theorem AscendingOn.fst (h : AscendingOn f lo hi) : AscendingOn (fun i => (ofLex (f i)).1) lo hi := by
  intro i j hlo hij hhi
  have hle := Prod.Lex.le_iff.mp (h i j hlo hij hhi)
  exact hle.elim le_of_lt fun heq => heq.1.le

/-- Where the first part is one value, the second ascends. -/
theorem AscendingOn.snd (h : AscendingOn f lo hi) {v : α}
    (hfst : ∀ i, lo ≤ i → i < hi → (ofLex (f i)).1 = v) :
    AscendingOn (fun i => (ofLex (f i)).2) lo hi := by
  intro i j hlo hij hhi
  rcases Prod.Lex.le_iff.mp (h i j hlo hij hhi) with hlt | ⟨-, hle⟩
  · rw [hfst i hlo (lt_of_le_of_lt hij hhi), hfst j (hlo.trans hij) hhi] at hlt
    exact absurd hlt (lt_irrefl v)
  · exact hle

end Pairs

/-! ### Columns sorted one inside another -/

/-- The first column ascends over a window and, within each run of one of its values, the
rest are nested in turn. -/
def NestedOn {α : Type*} [LinearOrder α] : List (ℕ → α) → ℕ → ℕ → Prop
  | [], _, _ => True
  | f :: fs, lo, hi => AscendingOn f lo hi ∧
    ∀ v a b, IsRun (fun i => f i = v) lo hi a b → NestedOn fs a b

/-- Rows sorted by a pair: the first part, and what the second part's order nests. -/
theorem nestedOn_cons {α β : Type*} [LinearOrder α] [LinearOrder β] {f : ℕ → α ×ₗ β}
    {fs : List (ℕ → α)} {lo hi : ℕ} (h : AscendingOn f lo hi)
    (hrest : ∀ a b, AscendingOn (fun i => (ofLex (f i)).2) a b → NestedOn fs a b) :
    NestedOn ((fun i => (ofLex (f i)).1) :: fs) lo hi := by
  refine ⟨h.fst, fun v a b hrun => hrest a b ?_⟩
  exact (h.mono hrun.start_le hrun.le_stop).snd fun i ha hb => hrun.holds ha hb

theorem nestedOn_singleton {α : Type*} [LinearOrder α] {f : ℕ → α} {lo hi : ℕ}
    (h : AscendingOn f lo hi) : NestedOn [f] lo hi := ⟨h, fun _ _ _ _ => trivial⟩

/-- The leading columns of nested ones are nested. -/
theorem NestedOn.left {α : Type*} [LinearOrder α] {fs gs : List (ℕ → α)} {lo hi : ℕ}
    (h : NestedOn (fs ++ gs) lo hi) : NestedOn fs lo hi := by
  induction fs generalizing lo hi with
  | nil => trivial
  | cons f fs ih => exact ⟨h.1, fun v a b hrun => ih (h.2 v a b hrun)⟩

/-- A sorted list ascends from place to place. -/
theorem ascendingOn_getD {α : Type*} [Preorder α] {l : List α} (h : l.SortedLE) (d : α) :
    AscendingOn (fun i => l.getD i d) 0 l.length := by
  intro i j _ hij hj
  show l.getD i d ≤ l.getD j d
  rw [List.getD_eq_getElem l d hj, List.getD_eq_getElem l d (lt_of_le_of_lt hij hj)]
  exact h.getElem_le_getElem_of_le hij

end Bisect
