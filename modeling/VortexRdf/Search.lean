/-
The searches every probe node runs (`encoded-search/src/search.rs`).

Values and needles are `u64`s, modelled by natural numbers below `2 ^ 64`;
positions are `usize`s of a 64-bit target.  A failing step of the source (an
index out of range, an underflow, a division by zero, a failed assertion) is
`none`, so a search that returns `some` is one that cannot panic.

* `partition` — bisection of a virtual index range;
* `searchAscendingCapped` — bisect until a probe has landed on each side of the
  needle, interpolate for a few splits, bisect the rest; beside the answer, the
  first position a probe found past the needle;
* `EqSink` — what an equality search gathers: a count, or the offsets.
-/
import VortexRdf.PartitionPoint

open Bisect

namespace EncodedSearch

/-- `u64::MAX`. -/
def u64Max : ℕ := 2 ^ 64 - 1

/-- `a - b`, failing on underflow. -/
def checkedSub (a b : ℕ) : Option ℕ := if b ≤ a then some (a - b) else none

/-- `u64::checked_add(1)`. -/
def checkedSucc (a : ℕ) : Option ℕ := if a < u64Max then some (a + 1) else none

/-- `a / b`, failing on a zero divisor. -/
def checkedDiv (a b : ℕ) : Option ℕ := if b = 0 then none else some (a / b)

/-- `x.clamp(lo, hi)`, failing where the bounds are crossed. -/
def checkedClamp (x lo hi : ℕ) : Option ℕ := if lo ≤ hi then some (max lo (min x hi)) else none

theorem checkedSub_of_le {a b : ℕ} (h : b ≤ a) : checkedSub a b = some (a - b) := if_pos h

theorem checkedDiv_of_ne {a b : ℕ} (h : b ≠ 0) : checkedDiv a b = some (a / b) := if_neg h

theorem checkedClamp_of_le {x lo hi : ℕ} (h : lo ≤ hi) :
    checkedClamp x lo hi = some (max lo (min x hi)) := if_pos h

/-- Split points `searchAscending` may place by interpolation. -/
def INTERPOLATION_STEPS : ℕ := 4

/-- Windows up to this many values are split at their middle. -/
def INTERPOLATION_MIN : ℕ := 16

/-- `partition_point` over a virtual index range, probing through a closure. -/
def partition (n : ℕ) (below : ℕ → Option Bool) : Option ℕ := bisect below 0 n

/-- `v < needle`, of a value read by a probe. -/
def below (value : ℕ → Option ℕ) (needle : ℕ) (i : ℕ) : Option Bool :=
  (value i).map fun v => decide (v < needle)

/-- `v <= needle`, of a value read by a probe. -/
def atMost (value : ℕ → Option ℕ) (needle : ℕ) (i : ℕ) : Option Bool :=
  (value i).map fun v => decide (v ≤ needle)

/-- The state of an ascending search: the answer is in `[lo, hi]`; `past` is
the first position a probe found holding a value above the needle; `belowValue`
and `atValue` are the values at `lo - 1` and `hi`, once a probe has read them. -/
structure Window where
  lo : ℕ
  hi : ℕ
  past : ℕ
  belowValue : Option ℕ
  atValue : Option ℕ
  deriving DecidableEq, Repr

/-- `past` after a probe of position `i` that read `v`. -/
def notePast (needle i v past : ℕ) : ℕ := if needle < v ∧ i < past then i else past

/-- One split of the window at `mid`, which holds `v`. -/
def Window.split (w : Window) (needle mid v : ℕ) : Window :=
  if v < needle then
    { w with lo := mid + 1, past := notePast needle mid v w.past, belowValue := some v }
  else
    { w with hi := mid, past := notePast needle mid v w.past, atValue := some v }

/-- Bisect until a probe has landed on each side of the needle. -/
def bracket (value : ℕ → Option ℕ) (needle : ℕ) : ℕ → Window → Option Window
  | 0, w => some w
  | fuel + 1, w =>
    if w.lo < w.hi ∧ (w.belowValue = none ∨ w.atValue = none) then do
      let mid := w.lo + (w.hi - w.lo) / 2
      let v ← value mid
      bracket value needle fuel (w.split needle mid v)
    else some w

/-- Interpolate between the two bracketing values while the window is wide and
its values are spread. -/
def interpolate (value : ℕ → Option ℕ) (needle : ℕ) : ℕ → Window → Option Window
  | 0, w => some w
  | steps + 1, w =>
    match w.belowValue, w.atValue with
    | some b, some a => do
      let width := w.hi - w.lo
      let gap ← checkedSub a b
      if width ≤ INTERPOLATION_MIN ∨ gap < width / 4 then some w
      else
        -- Between positions `lo - 1` and `hi`, which hold `b` and `a`.
        let above ← checkedSub needle b
        let ahead ← checkedDiv (above * (width + 1)) gap
        let before ← checkedSub w.lo 1
        let last ← checkedSub w.hi 1
        let place ← checkedClamp (before + ahead % 2 ^ 64) w.lo last
        let v ← value place
        interpolate value needle steps (w.split needle place v)
    | _, _ => some w

/-- Bisect what is left. -/
def finish (value : ℕ → Option ℕ) (needle : ℕ) : ℕ → Window → Option Window
  | 0, w => some w
  | fuel + 1, w =>
    if w.lo < w.hi then do
      let mid := w.lo + (w.hi - w.lo) / 2
      let v ← value mid
      finish value needle fuel (w.split needle mid v)
    else some w

/-- The first index of `0..n` whose value is `>= needle`, over ascending
values, with the first position its probes found holding a value above the
needle (`n` when none did). -/
def searchAscendingCapped (n : ℕ) (value : ℕ → Option ℕ) (needle : ℕ) : Option (ℕ × ℕ) := do
  let w ← bracket value needle n ⟨0, n, n, none, none⟩
  let w ← interpolate value needle INTERPOLATION_STEPS w
  let w ← finish value needle (w.hi - w.lo) w
  some (w.lo, w.past)

/-- `searchAscendingCapped`, the answer alone. -/
def searchAscending (n : ℕ) (value : ℕ → Option ℕ) (needle : ℕ) : Option ℕ :=
  (searchAscendingCapped n value needle).map Prod.fst

/-! ### What one split preserves -/

/-- The part of the search's invariant that needs no order: the window lies in
`[0, n]`, the capped position behind it, and the bracketing values are on their
own sides of the needle. -/
structure Window.Bounded (f : ℕ → ℕ) (n needle : ℕ) (w : Window) : Prop where
  lo_le : w.lo ≤ w.hi
  hi_le : w.hi ≤ w.past
  past_le : w.past ≤ n
  capped : w.past = n ∨ needle < f w.past
  belowValue_lt : ∀ b, w.belowValue = some b → 0 < w.lo ∧ b < needle
  atValue_ge : ∀ a, w.atValue = some a → needle ≤ a

/-- The answer is in the window: every value before it is below the needle,
and none from its end on. -/
structure Window.Splits (f : ℕ → ℕ) (n needle : ℕ) (w : Window) : Prop where
  before : ∀ i, i < w.lo → f i < needle
  after : ∀ i, w.hi ≤ i → i < n → needle ≤ f i

variable {value : ℕ → Option ℕ} {f : ℕ → ℕ} {n : ℕ} {needle : ℕ}

theorem Window.Bounded.split {w : Window} (h : w.Bounded f n needle) {mid : ℕ}
    (hlo : w.lo ≤ mid) (hhi : mid < w.hi) : (w.split needle mid (f mid)).Bounded f n needle := by
  have hpast : mid < w.past := lt_of_lt_of_le hhi h.hi_le
  unfold Window.split
  by_cases hv : f mid < needle
  · have hnote : notePast needle mid (f mid) w.past = w.past :=
      if_neg fun hc => by omega
    rw [if_pos hv, hnote]
    exact ⟨hhi, h.hi_le, h.past_le, h.capped,
      fun b hb => ⟨Nat.succ_pos mid, by simp only [Option.some_inj] at hb; omega⟩, h.atValue_ge⟩
  · rw [if_neg hv]
    have hat : ∀ a, some (f mid) = some a → needle ≤ a := fun a ha => by
      rw [Option.some_inj] at ha; omega
    by_cases heq : needle < f mid
    · have hnote : notePast needle mid (f mid) w.past = mid := if_pos ⟨heq, hpast⟩
      rw [hnote]
      exact ⟨hlo, le_rfl, le_trans (le_of_lt hpast) h.past_le, .inr heq, h.belowValue_lt, hat⟩
    · have hnote : notePast needle mid (f mid) w.past = w.past := if_neg fun hc => heq hc.1
      rw [hnote]
      exact ⟨hlo, le_of_lt hpast, h.past_le, h.capped, h.belowValue_lt, hat⟩

theorem Window.Splits.split {w : Window} (h : w.Splits f n needle) (hasc : AscendingOn f 0 n)
    {mid : ℕ} (hn : mid < n) : (w.split needle mid (f mid)).Splits f n needle := by
  unfold Window.split
  by_cases hv : f mid < needle
  · rw [if_pos hv]
    exact ⟨fun i hi => lt_of_le_of_lt (hasc i mid (Nat.zero_le i) (Nat.le_of_lt_succ hi) hn) hv,
      h.after⟩
  · rw [if_neg hv]
    exact ⟨h.before, fun i hi hin =>
      le_trans (Nat.le_of_not_lt hv) (hasc mid i (Nat.zero_le mid) hi hin)⟩

/-- A search's window after some splits inside it, starting from `w`. -/
inductive Window.Reaches (f : ℕ → ℕ) (needle : ℕ) : Window → Window → Prop
  | refl (w : Window) : Window.Reaches f needle w w
  | split {w w' : Window} {mid : ℕ} (hlo : w.lo ≤ mid) (hhi : mid < w.hi)
      (h : Window.Reaches f needle (w.split needle mid (f mid)) w') :
      Window.Reaches f needle w w'

theorem Window.Reaches.bounded {w w' : Window} (hr : Window.Reaches f needle w w')
    (h : w.Bounded f n needle) : w'.Bounded f n needle := by
  induction hr with
  | refl w => exact h
  | split hlo hhi _ ih => exact ih (h.split hlo hhi)

theorem Window.Reaches.splits {w w' : Window} (hr : Window.Reaches f needle w w')
    (hb : w.Bounded f n needle) (h : w.Splits f n needle) (hasc : AscendingOn f 0 n) :
    w'.Splits f n needle := by
  induction hr with
  | refl w => exact h
  | split hlo hhi _ ih =>
    have hn := lt_of_lt_of_le hhi (le_trans hb.hi_le hb.past_le)
    exact ih (hb.split hlo hhi) (h.split hasc hn)

/-! ### Every loop of the search splits its window, inside the range -/

theorem bracket_reaches (hread : ReadsOn value f 0 n) : ∀ (fuel : ℕ) {w : Window},
    w.Bounded f n needle →
    ∃ w', bracket value needle fuel w = some w' ∧ Window.Reaches f needle w w' := by
  intro fuel
  induction fuel with
  | zero => exact fun {w} _ => ⟨w, rfl, .refl w⟩
  | succ fuel ih =>
    intro w hb
    rw [bracket]
    split_ifs with hc
    · have hlo : w.lo ≤ w.lo + (w.hi - w.lo) / 2 := Nat.le_add_right _ _
      have hhi : w.lo + (w.hi - w.lo) / 2 < w.hi := by omega
      have hn := lt_of_lt_of_le hhi (le_trans hb.hi_le hb.past_le)
      obtain ⟨w', hw', hr⟩ := ih (hb.split hlo hhi)
      refine ⟨w', ?_, .split hlo hhi hr⟩
      simpa only [hread _ (Nat.zero_le _) hn, Option.bind_eq_bind, Option.bind_some] using hw'
    · exact ⟨w, rfl, .refl w⟩

theorem split_width {mid : ℕ} {w : Window} (hlo : w.lo ≤ mid) (hhi : mid < w.hi) (v : ℕ) :
    (w.split needle mid v).hi - (w.split needle mid v).lo < w.hi - w.lo := by
  unfold Window.split
  split_ifs
  · dsimp only
    omega
  · dsimp only
    omega

/-- Given a split for each position of the window, the bracketing loop stops by its own
condition. -/
theorem bracket_ends (hread : ReadsOn value f 0 n) : ∀ {fuel : ℕ} {w w' : Window},
    w.Bounded f n needle → w.hi - w.lo ≤ fuel → bracket value needle fuel w = some w' →
    ¬ (w'.lo < w'.hi ∧ (w'.belowValue = none ∨ w'.atValue = none)) := by
  intro fuel
  induction fuel with
  | zero =>
    intro w w' _ hfuel hw' hc
    obtain rfl := Option.some.inj hw'
    omega
  | succ fuel ih =>
    intro w w' hb hfuel hw'
    rw [bracket] at hw'
    split_ifs at hw' with hc
    · have hlo : w.lo ≤ w.lo + (w.hi - w.lo) / 2 := Nat.le_add_right _ _
      have hhi : w.lo + (w.hi - w.lo) / 2 < w.hi := by omega
      have hn := lt_of_lt_of_le hhi (le_trans hb.hi_le hb.past_le)
      have hwidth := @split_width needle _ w hlo hhi (f (w.lo + (w.hi - w.lo) / 2))
      simp only [hread _ (Nat.zero_le _) hn, Option.bind_eq_bind, Option.bind_some] at hw'
      exact ih (hb.split hlo hhi) (by omega) hw'
    · obtain rfl := Option.some.inj hw'
      exact hc

/-- Between its bracketing values the needle falls at a place of the window, so the sum
that places it stays inside the range. -/
theorem Window.Bounded.place_le {w : Window} (h : w.Bounded f n needle) {b a : ℕ}
    (hbelow : w.belowValue = some b) (hat : w.atValue = some a) :
    w.lo - 1 + (needle - b) * (w.hi - w.lo + 1) / (a - b) ≤ n := by
  obtain ⟨hpos, hlt⟩ := h.belowValue_lt b hbelow
  have hge := h.atValue_ge a hat
  have hahead : (needle - b) * (w.hi - w.lo + 1) / (a - b) ≤ w.hi - w.lo + 1 := by
    refine Nat.div_le_of_le_mul ?_
    exact Nat.mul_le_mul_right _ (by omega)
  have hle := h.lo_le
  have hin := le_trans h.hi_le h.past_le
  omega

/-- A window wide enough to interpolate has a place inside it to split. -/
theorem interpolate_reaches (hread : ReadsOn value f 0 n) : ∀ (steps : ℕ) {w : Window},
    w.Bounded f n needle →
    ∃ w', interpolate value needle steps w = some w' ∧ Window.Reaches f needle w w' := by
  intro steps
  induction steps with
  | zero => exact fun {w} _ => ⟨w, rfl, .refl w⟩
  | succ steps ih =>
    intro w hb
    rw [interpolate]
    rcases hu : w.belowValue with _ | b
    · exact ⟨w, rfl, .refl w⟩
    rcases ho : w.atValue with _ | a
    · exact ⟨w, rfl, .refl w⟩
    obtain ⟨hpos, hbn⟩ := hb.belowValue_lt b hu
    have han := hb.atValue_ge a ho
    simp only [checkedSub_of_le (show b ≤ a by omega), Option.bind_eq_bind, Option.bind_some]
    by_cases hc : w.hi - w.lo ≤ INTERPOLATION_MIN ∨ a - b < (w.hi - w.lo) / 4
    · exact ⟨w, if_pos hc, .refl w⟩
    · rw [if_neg hc]
      simp only [INTERPOLATION_MIN] at hc
      have hgap : a - b ≠ 0 := by omega
      have hlast : w.lo ≤ w.hi - 1 := by omega
      simp only [checkedSub_of_le (show b ≤ needle by omega), checkedDiv_of_ne hgap,
        checkedSub_of_le (show 1 ≤ w.lo by omega), checkedSub_of_le (show 1 ≤ w.hi by omega),
        checkedClamp_of_le hlast, Option.bind_some]
      set place := max w.lo (min
        (w.lo - 1 + (needle - b) * (w.hi - w.lo + 1) / (a - b) % 2 ^ 64) (w.hi - 1)) with hplace
      have hlo : w.lo ≤ place := le_max_left _ _
      have hhi : place < w.hi := by omega
      have hn := lt_of_lt_of_le hhi (le_trans hb.hi_le hb.past_le)
      obtain ⟨w', hw', hr⟩ := ih (hb.split hlo hhi)
      refine ⟨w', ?_, .split hlo hhi hr⟩
      simpa only [hread _ (Nat.zero_le _) hn, Option.bind_some] using hw'

theorem finish_reaches (hread : ReadsOn value f 0 n) : ∀ {fuel : ℕ} {w : Window},
    w.Bounded f n needle → w.hi - w.lo ≤ fuel →
    ∃ w', finish value needle fuel w = some w' ∧ Window.Reaches f needle w w' ∧ w'.lo = w'.hi := by
  intro fuel
  induction fuel with
  | zero =>
    intro w hb hfuel
    exact ⟨w, rfl, .refl w, by have := hb.lo_le; omega⟩
  | succ fuel ih =>
    intro w hb hfuel
    rw [finish]
    split_ifs with hc
    · have hlo : w.lo ≤ w.lo + (w.hi - w.lo) / 2 := Nat.le_add_right _ _
      have hhi : w.lo + (w.hi - w.lo) / 2 < w.hi := by omega
      have hn := lt_of_lt_of_le hhi (le_trans hb.hi_le hb.past_le)
      have hnarrow := @split_width needle _ w hlo hhi (f (w.lo + (w.hi - w.lo) / 2))
      obtain ⟨w', hw', hr, hend⟩ := ih (hb.split hlo hhi) (by omega)
      refine ⟨w', ?_, .split hlo hhi hr, hend⟩
      simpa only [hread _ (Nat.zero_le _) hn, Option.bind_eq_bind, Option.bind_some] using hw'
    · exact ⟨w, rfl, .refl w, by have := hb.lo_le; omega⟩

theorem Window.Reaches.trans {w₁ w₂ w₃ : Window} (h : Window.Reaches f needle w₁ w₂)
    (h' : Window.Reaches f needle w₂ w₃) : Window.Reaches f needle w₁ w₃ := by
  induction h with
  | refl w => exact h'
  | split hlo hhi _ ih => exact .split hlo hhi (ih h')

/-- The run of a whole search: from the full range to an empty window. -/
theorem searchAscendingCapped_reaches (hread : ReadsOn value f 0 n) (needle : ℕ) :
    ∃ w, searchAscendingCapped n value needle = some (w.lo, w.past) ∧ w.lo = w.hi ∧
      Window.Reaches f needle ⟨0, n, n, none, none⟩ w := by
  have h₀ : Window.Bounded f n needle ⟨0, n, n, none, none⟩ :=
    ⟨Nat.zero_le n, le_rfl, le_rfl, .inl rfl, fun _ h => absurd h (by simp),
      fun _ h => absurd h (by simp)⟩
  obtain ⟨w₁, h₁, r₁⟩ := bracket_reaches hread n h₀
  obtain ⟨w₂, h₂, r₂⟩ := interpolate_reaches hread INTERPOLATION_STEPS (r₁.bounded h₀)
  have r₁₂ := r₁.trans r₂
  obtain ⟨w₃, h₃, r₃, hend⟩ := finish_reaches hread (r₁₂.bounded h₀) le_rfl
  refine ⟨w₃, ?_, hend, r₁₂.trans r₃⟩
  simp only [searchAscendingCapped, h₁, h₂, h₃, Option.bind_eq_bind, Option.bind_some]

/-- **The ascending search finds the partition point of the needle**, and its
cap is a position behind the point that no row of the needle reaches. -/
theorem searchAscendingCapped_spec (hread : ReadsOn value f 0 n) (hasc : AscendingOn f 0 n)
    (needle : ℕ) :
    ∃ lo past, searchAscendingCapped n value needle = some (lo, past) ∧
      IsPartitionPoint (fun i => f i < needle) 0 n lo ∧ lo ≤ past ∧ past ≤ n ∧
      (past = n ∨ needle < f past) := by
  have h₀ : Window.Bounded f n needle ⟨0, n, n, none, none⟩ :=
    ⟨Nat.zero_le n, le_rfl, le_rfl, .inl rfl, fun _ h => absurd h (by simp),
      fun _ h => absurd h (by simp)⟩
  have s₀ : Window.Splits f n needle ⟨0, n, n, none, none⟩ :=
    ⟨fun i hi => absurd hi (Nat.not_lt_zero i), fun i h₁ h₂ => absurd h₂ (Nat.not_lt_of_le h₁)⟩
  obtain ⟨w, hw, hend, hr⟩ := searchAscendingCapped_reaches hread needle
  have hb := hr.bounded h₀
  have hs := hr.splits h₀ s₀ hasc
  have hn := le_trans hb.hi_le hb.past_le
  refine ⟨w.lo, w.past, hw, ⟨Nat.zero_le _, by omega, fun i _ hi => hs.before i hi, ?_⟩,
    by have := hb.hi_le; omega, hb.past_le, hb.capped⟩
  exact fun i hi hin => Nat.not_lt_of_le (hs.after i (by omega) hin)

theorem searchAscending_spec (hread : ReadsOn value f 0 n) (hasc : AscendingOn f 0 n)
    (needle : ℕ) :
    ∃ lo, searchAscending n value needle = some lo ∧
      IsPartitionPoint (fun i => f i < needle) 0 n lo := by
  obtain ⟨lo, past, h, hlo, -⟩ := searchAscendingCapped_spec hread hasc needle
  exact ⟨lo, by rw [searchAscending, h]; rfl, hlo⟩

theorem below_reads (hread : ReadsOn value f 0 n) :
    ReadsOn (below value needle) (fun i => decide (f i < needle)) 0 n :=
  fun i h₁ h₂ => by rw [below, hread i h₁ h₂, Option.map_some]

theorem atMost_reads (hread : ReadsOn value f 0 n) :
    ReadsOn (atMost value needle) (fun i => decide (f i ≤ needle)) 0 n :=
  fun i h₁ h₂ => by rw [atMost, hread i h₁ h₂, Option.map_some]

theorem partition_below_spec (hread : ReadsOn value f 0 n) (hasc : AscendingOn f 0 n)
    (needle : ℕ) :
    ∃ k, partition n (below value needle) = some k ∧
      IsPartitionPoint (fun i => f i < needle) 0 n k :=
  bisect_spec (Nat.zero_le n) (below_reads hread) (hasc.downClosedOn_lt needle)

theorem partition_atMost_spec (hread : ReadsOn value f 0 n) (hasc : AscendingOn f 0 n)
    (needle : ℕ) :
    ∃ k, partition n (atMost value needle) = some k ∧
      IsPartitionPoint (fun i => f i ≤ needle) 0 n k :=
  bisect_spec (Nat.zero_le n) (atMost_reads hread) (hasc.downClosedOn_le needle)

end EncodedSearch
