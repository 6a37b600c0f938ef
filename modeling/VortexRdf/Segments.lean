/-
Sorted search over a range cut into segments.

Segment `c` of a range spans `b c` to `b (c + 1)`.  A search that first picks a
segment by its last value, then searches inside it, finds the partition point of
the range: of the whole of it, or of a window that begins inside one segment and
ends inside another.

* `lasts_ascending` — the last values of a window's segments ascend as its
  values do;
* `point_of_segment` — the point inside the segment picked is the point of the
  window;
* `point_of_range`, `point_past_range` — the same for the whole range, where no
  segment may reach the needle.
-/
import VortexRdf.PartitionPoint

namespace Bisect

/-- The bounds of `n` segments, none of them empty, from 0 on. -/
structure Segments (b : ℕ → ℕ) (n : ℕ) : Prop where
  first : b 0 = 0
  ascending : StrictAscendingOn b 0 (n + 1)

namespace Segments

variable {α : Type*} [LinearOrder α] {b : ℕ → ℕ} {n : ℕ}

theorem lt (h : Segments b n) {c d : ℕ} (hcd : c < d) (hd : d ≤ n) : b c < b d :=
  h.ascending c d (Nat.zero_le c) hcd (Nat.lt_succ_of_le hd)

theorem le (h : Segments b n) {c d : ℕ} (hcd : c ≤ d) (hd : d ≤ n) : b c ≤ b d :=
  h.ascending.ascendingOn c d (Nat.zero_le c) hcd (Nat.lt_succ_of_le hd)

theorem downClosed (h : Segments b n) (i : ℕ) : DownClosedOn (fun c => b c ≤ i) 0 n :=
  (h.ascending.ascendingOn.mono le_rfl (Nat.le_succ n)).downClosedOn_le i

/-- Every index is in a segment. -/
theorem exists_segment (h : Segments b n) {i : ℕ} (hi : i < b n) :
    ∃ c, c < n ∧ b c ≤ i ∧ i < b (c + 1) := by
  obtain ⟨k, hk⟩ := exists_isPartitionPoint (Nat.zero_le n) (h.downClosed i)
  obtain ⟨hpos, hlo, hhi⟩ := hk.segment (by rw [h.first]; exact Nat.zero_le i) hi
  have hle := hk.le
  refine ⟨k - 1, by omega, hlo, ?_⟩
  rwa [Nat.sub_add_cancel hpos]

/-- The segment of an index is where the bounds pass it. -/
theorem point (h : Segments b n) {c i : ℕ} (hc : c < n) (hlo : b c ≤ i) (hhi : i < b (c + 1)) :
    IsPartitionPoint (fun r => b r ≤ i) 0 n (c + 1) where
  ge := Nat.zero_le _
  le := hc
  before _ _ hr := le_trans (h.le (Nat.le_of_lt_succ hr) (by omega)) hlo
  after _ hr hrn := Nat.not_le_of_lt (lt_of_lt_of_le hhi (h.le hr (by omega)))

/-- The segment of an index is where the ends pass it. -/
theorem end_point (h : Segments b n) {c i : ℕ} (hc : c < n) (hlo : b c ≤ i)
    (hhi : i < b (c + 1)) : IsPartitionPoint (fun r => b (r + 1) ≤ i) 0 n c where
  ge := Nat.zero_le _
  le := Nat.le_of_lt hc
  before _ _ hr := le_trans (h.le (Nat.succ_le_of_lt hr) (by omega)) hlo
  after _ hr hrn := Nat.not_le_of_lt (lt_of_lt_of_le hhi (h.le (by omega) (by omega)))

/-- A window that begins in segment `first` and ends in segment `last`. -/
structure Spans (b : ℕ → ℕ) (n lo hi first last : ℕ) : Prop where
  le : first ≤ last
  last_lt : last < n
  first_le : b first ≤ lo
  lt_first : lo < b (first + 1)
  last_le : b last < hi
  le_last : hi ≤ b (last + 1)

section Window

variable {lo hi first last : ℕ} {f : ℕ → α} {needle : α}

/-- The segments a window begins and ends in. -/
theorem spans (h : Segments b n) (hlt : lo < hi) (hf : first < n) (hf₁ : b first ≤ lo)
    (hf₂ : lo < b (first + 1)) (hl : last < n) (hl₁ : b last ≤ hi - 1)
    (hl₂ : hi - 1 < b (last + 1)) : Spans b n lo hi first last := by
  refine ⟨?_, hl, hf₁, hf₂, by omega, by omega⟩
  by_contra hle
  have := h.le (show last + 1 ≤ first by omega) (by omega)
  omega

/-- The last values of a window's segments ascend as its values do. -/
theorem lasts_ascending (h : Segments b n) (hs : Spans b n lo hi first last)
    (hasc : AscendingOn f lo hi) : AscendingOn (fun c => f (b (c + 1) - 1)) first last := by
  intro c d hc hcd hd
  have hlast := hs.last_lt
  rcases Nat.eq_or_lt_of_le hcd with rfl | hlt
  · exact le_rfl
  · have := h.le (show first + 1 ≤ c + 1 by omega) (by omega)
    have := h.lt (show c + 1 < d + 1 by omega) (by omega)
    have := h.le (show d + 1 ≤ last by omega) (by omega)
    have := hs.lt_first
    have := hs.last_le
    exact hasc _ _ (by omega) (by omega) (by omega)

/-- A window searched segment by segment: the first segment whose last value
reaches the needle holds the window's point. -/
theorem point_of_segment (h : Segments b n) (hs : Spans b n lo hi first last)
    (hasc : AscendingOn f lo hi) {c k : ℕ}
    (hc : IsPartitionPoint (fun c => f (b (c + 1) - 1) < needle) first last c)
    (hk : IsPartitionPoint (fun i => f i < needle) (max lo (b c)) (min hi (b (c + 1))) k) :
    IsPartitionPoint (fun i => f i < needle) lo hi k := by
  have hlast := hs.last_lt
  have hge := hc.ge
  have hle := hc.le
  have hfirst := hs.first_le
  have hltfirst := hs.lt_first
  have hlastle := hs.last_le
  have hlelast := hs.le_last
  refine hk.widen (le_max_left _ _) (min_le_left _ _) (fun i hlo hi' => ?_) fun i hi' hhi => ?_
  · -- Rows of the segments before `c` lie below the last value of the one before it.
    have hbc : i < b c := by omega
    have hpos : first < c := by
      by_contra hpos
      have := h.le (show c ≤ first by omega) (by omega)
      omega
    have hbefore := hc.before (c - 1) (by omega) (by omega)
    rw [Nat.sub_add_cancel (by omega : 1 ≤ c)] at hbefore
    have := h.le hle (by omega)
    exact lt_of_le_of_lt (hasc i _ hlo (by omega) (by omega)) hbefore
  · -- Rows behind segment `c` lie above its last value, which reaches the needle.
    have hbc : b (c + 1) ≤ i := by omega
    have hclast : c < last := by
      by_contra hclast
      have := h.le (show last + 1 ≤ c + 1 by omega) (by omega)
      omega
    have hafter := hc.after c le_rfl hclast
    have := h.le (show first + 1 ≤ c + 1 by omega) (by omega)
    exact fun hlt => hafter (lt_of_le_of_lt (hasc _ i (by omega) (by omega) hhi) hlt)

end Window

section Range

variable {f : ℕ → α} {needle : α}

/-- The whole of a range spans its segments. -/
theorem spans_range (h : Segments b n) (hn : 0 < n) : Spans b n 0 (b n) 0 (n - 1) := by
  obtain ⟨m, rfl⟩ : ∃ m, n = m + 1 := ⟨n - 1, by omega⟩
  have hlast := h.lt (Nat.lt_succ_self m) le_rfl
  have hfirst := h.lt Nat.one_pos (by omega : 1 ≤ m + 1)
  exact ⟨Nat.zero_le _, Nat.lt_succ_self m, le_of_eq h.first,
    lt_of_le_of_lt (Nat.zero_le _) hfirst, hlast, le_rfl⟩

theorem range_lasts_ascending (h : Segments b n) (hasc : AscendingOn f 0 (b n)) :
    AscendingOn (fun c => f (b (c + 1) - 1)) 0 n := by
  intro c d _ hcd hd
  have := h.le (show c + 1 ≤ d + 1 by omega) (by omega)
  have := h.lt (show d < d + 1 by omega) (by omega)
  have := h.le (show d + 1 ≤ n by omega) le_rfl
  exact hasc _ _ (Nat.zero_le _) (by omega) (by omega)

theorem point_of_range (h : Segments b n) (hasc : AscendingOn f 0 (b n)) {c k : ℕ}
    (hc : IsPartitionPoint (fun c => f (b (c + 1) - 1) < needle) 0 n c) (hlt : c < n)
    (hk : IsPartitionPoint (fun i => f i < needle) (b c) (b (c + 1)) k) :
    IsPartitionPoint (fun i => f i < needle) 0 (b n) k := by
  have hcn : IsPartitionPoint (fun c => f (b (c + 1) - 1) < needle) 0 (n - 1) c :=
    ⟨hc.ge, by omega, hc.before, fun i h₁ h₂ => hc.after i h₁ (by omega)⟩
  refine h.point_of_segment (h.spans_range (by omega)) hasc hcn ?_
  rwa [Nat.max_eq_right (Nat.zero_le _), Nat.min_eq_right (h.le hlt le_rfl)]

/-- Where no segment reaches the needle, nothing does. -/
theorem point_past_range (h : Segments b n) (hasc : AscendingOn f 0 (b n))
    (hc : IsPartitionPoint (fun c => f (b (c + 1) - 1) < needle) 0 n n) :
    IsPartitionPoint (fun i => f i < needle) 0 (b n) (b n) := by
  refine .atEnd (Nat.zero_le _) fun i _ hi => ?_
  have hn : 0 < n := Nat.pos_of_ne_zero fun hz => by subst hz; rw [h.first] at hi; omega
  have hlast := hc.before (n - 1) (Nat.zero_le _) (by omega)
  rw [Nat.sub_add_cancel hn] at hlast
  exact lt_of_le_of_lt (hasc i _ (Nat.zero_le i) (by omega) (by omega)) hlast

end Range

end Segments

end Bisect
