/-
The resolved probe over one encoded column (`SortedProbe` in
`encoded-search/src/lib.rs`).

* bounds of a node: `upperBound_spec`, `bounds_spec`, and of any window by its
  point reads, `boundsIn_spec`;
* `windowSearches_agree` — reads, counts and offsets of a window against its
  point reads;
* `sortedSearch_is_partitionPoint` — every bound over ascending values is where
  a scan of them stops;
* `cappedSearch_total` — the capped search over any values at all.
-/
import Mathlib.Data.List.GetD
import VortexRdf.NodeReads

open Bisect Buffers

namespace EncodedSearch

namespace SortedProbe

variable (fl : FastLanes) (root : Node)

/-- Exact value at `index`. -/
def valueAt (index : ℕ) : Option ℕ := if index < root.len then root.valueAt fl index else none

/-- The bounds restricted to `lo..hi`, in absolute indices: every probe
point-reads. -/
def boundsIn (lo hi needle : ℕ) : Option (ℕ × ℕ) :=
  if hi ≤ root.len then do
    let (a, b) ← cappedBounds (hi - lo) (fun i => valueAt fl root (lo + i)) needle
    some (lo + a, lo + b)
  else none

/-- `start + len <= self.len()`, in `usize`s. -/
def inBounds (start len : ℕ) : Prop := start + len ≤ u64Max ∧ start + len ≤ root.len

instance (start len : ℕ) : Decidable (inBounds root start len) :=
  inferInstanceAs (Decidable (_ ∧ _))

/-- The exact values at `start..start + out.len()`, into `out`. -/
def readInto (start : ℕ) (out : List ℕ) : Option (List ℕ) :=
  if inBounds root start out.length then root.readInto fl start out else none

/-- How many of the values at `start..start + len` equal `needle`. -/
def countEq (start len needle : ℕ) : Option ℕ :=
  if inBounds root start len then
    (root.eqInto fl start len needle 0 (Count.mk 0)).map Count.total
  else none

/-- The offsets `k` in `0..len` whose value at `start + k` equals `needle`,
appended to `out`. -/
def eqOffsets (start len needle : ℕ) (out : List ℕ) : Option (List ℕ) :=
  if inBounds root start len then
    (root.eqInto fl start len needle 0 (Offsets.mk out)).map Offsets.out
  else none

end SortedProbe

variable {fl : FastLanes}

/-! ### Both bounds of a node -/

variable {needle : ℕ}

/-- Values ascending, the bound above a needle is the bound of its successor;
above `u64::MAX` there is nothing. -/
theorem upperBound_spec {n : Node} (hs : n.Sound fl)
    (hasc : AscendingOn (n.value fl) 0 n.len) (hneedle : needle ≤ u64Max) :
    ∃ k, n.upperBound fl needle = some k ∧
      IsPartitionPoint (fun i => n.value fl i ≤ needle) 0 n.len k := by
  rw [Node.upperBound, checkedSucc]
  split_ifs with hlt
  · obtain ⟨k, hk, hpoint⟩ := hs.lower hasc (needle + 1)
    exact ⟨k, hk, hpoint.congr fun i _ _ => Nat.lt_succ_iff⟩
  · refine ⟨n.len, rfl, .atEnd (Nat.zero_le _) fun i _ hi => ?_⟩
    have := hs.value_le i hi
    omega

section Bounds

variable {value : ℕ → Option ℕ} {f : ℕ → ℕ} {n : ℕ}

/-- Searched once, with the upper bound below the lower bound's cap. -/
theorem cappedBounds_spec (hread : ReadsOn value f 0 n) (hasc : AscendingOn f 0 n)
    (needle : ℕ) :
    ∃ lo hi, cappedBounds n value needle = some (lo, hi) ∧
      IsPartitionPoint (fun i => f i < needle) 0 n lo ∧
      IsPartitionPoint (fun i => f i ≤ needle) 0 n hi := by
  obtain ⟨lo, past, hsearch, hpoint, hle, hn, hcap⟩ := searchAscendingCapped_spec hread hasc needle
  have hread' : ReadsOn (fun i => value (lo + i)) (fun i => f (lo + i)) 0 (past - lo) :=
    fun i _ hi => hread (lo + i) (Nat.zero_le _) (by omega)
  have hasc' : AscendingOn (fun i => f (lo + i)) 0 (past - lo) :=
    fun i j _ hij hj => hasc (lo + i) (lo + j) (Nat.zero_le _) (by omega) (by omega)
  obtain ⟨k, hk, hkpoint⟩ := partition_atMost_spec hread' hasc' needle
  refine ⟨lo, lo + k, ?_, hpoint, ?_⟩
  · simp only [cappedBounds, hsearch, checkedSub_of_le hle, hk, Option.bind_eq_bind,
      Option.bind_some]
  · have hshift : IsPartitionPoint (fun i => f i ≤ needle) lo (lo + (past - lo)) (lo + k) :=
      hkpoint.shift
    rw [Nat.add_sub_cancel' hle] at hshift
    refine hshift.widen (Nat.zero_le _) hn
      (fun i h₀ hi => Nat.le_of_lt (hpoint.before i h₀ hi)) fun i hi hin => ?_
    -- No row of the needle lies past the cap.
    rcases hcap with rfl | hcap
    · omega
    · have := hasc past i (Nat.zero_le _) hi hin
      omega

/-- The run past the needle's, adjacent runs repeating its value or not. -/
theorem runPast_spec (hread : ReadsOn value f 0 n) (hasc : AscendingOn f 0 n) {needle k : ℕ}
    (hk : IsPartitionPoint (fun i => f i < needle) 0 n k) :
    ∃ p, runPast n value k needle = some p ∧
      IsPartitionPoint (fun i => f i ≤ needle) 0 n p := by
  have hbefore : ∀ i, 0 ≤ i → i < k → f i ≤ needle :=
    fun i h₀ hi => Nat.le_of_lt (hk.before i h₀ hi)
  rw [runPast]
  by_cases hend : k = n
  · rw [if_pos hend]
    exact ⟨k, rfl, by rw [hend] at hbefore ⊢; exact .atEnd (Nat.zero_le _) hbefore⟩
  have hkn : k < n := lt_of_le_of_ne hk.le hend
  have hge := Nat.le_of_not_lt (hk.after k le_rfl hkn)
  rw [if_neg hend, hread k (Nat.zero_le _) hkn]
  simp only [Option.bind_eq_bind, Option.bind_some]
  by_cases heq : f k = needle
  · rw [if_neg (not_not_intro heq)]
    have hbefore' : ∀ i, 0 ≤ i → i < k + 1 → f i ≤ needle := by
      intro i _ hi
      have := hasc i k (Nat.zero_le _) (Nat.le_of_lt_succ hi) hkn
      omega
    by_cases hlast : k + 1 = n
    · rw [if_pos hlast]
      exact ⟨k + 1, rfl, by rw [hlast] at hbefore' ⊢; exact .atEnd (Nat.zero_le _) hbefore'⟩
    rw [if_neg hlast, hread (k + 1) (Nat.zero_le _) (by omega)]
    simp only [Option.bind_some]
    by_cases hnext : needle < f (k + 1)
    · rw [if_pos hnext]
      refine ⟨k + 1, rfl, Nat.zero_le _, by omega, hbefore', fun i hi hin => ?_⟩
      have := hasc (k + 1) i (Nat.zero_le _) hi hin
      omega
    · rw [if_neg hnext]
      have hread' : ReadsOn (fun j => value (k + 1 + j)) (fun j => f (k + 1 + j)) 0 (n - k - 1) :=
        fun j _ hj => hread (k + 1 + j) (Nat.zero_le _) (by omega)
      have hasc' : AscendingOn (fun j => f (k + 1 + j)) 0 (n - k - 1) :=
        fun i j _ hij hj => hasc _ _ (Nat.zero_le _) (by omega) (by omega)
      obtain ⟨j, hj, hpoint⟩ := partition_atMost_spec hread' hasc' needle
      have hshift : IsPartitionPoint (fun i => f i ≤ needle) (k + 1) (k + 1 + (n - k - 1))
          (k + 1 + j) := hpoint.shift
      rw [show k + 1 + (n - k - 1) = n by omega] at hshift
      refine ⟨k + 1 + j, by rw [hj]; rfl, ?_⟩
      exact hshift.widen (Nat.zero_le _) le_rfl hbefore' fun i hi hin => absurd hin (by omega)
  · rw [if_pos heq]
    refine ⟨k, rfl, Nat.zero_le _, hk.le, hbefore, fun i hi hin => ?_⟩
    have := hasc k i (Nat.zero_le _) hi hin
    omega

theorem runendBounds_spec {endAt valueAt : ℕ → Option ℕ} {ends values : ℕ → ℕ}
    {runs offset len : ℕ} (h : RunsCover ends runs offset len) (hread : ReadsOn endAt ends 0 runs)
    (hvalues : ReadsOn valueAt values 0 runs)
    (hasc : AscendingOn (fun i => values (runOf ends runs (i + offset))) 0 len) (needle : ℕ) :
    ∃ lo hi, runendBounds runs endAt valueAt offset len needle = some (lo, hi) ∧
      IsPartitionPoint (fun i => values (runOf ends runs (i + offset)) < needle) 0 len lo ∧
      IsPartitionPoint (fun i => values (runOf ends runs (i + offset)) ≤ needle) 0 len hi := by
  rcases Nat.eq_zero_or_pos len with rfl | hlen
  · exact ⟨0, 0, rfl, .empty _ 0, .empty _ 0⟩
  obtain ⟨span, hw, hspan⟩ := windowRuns_eq h hread hlen
  have hlast := @RunsCover.runOf_lt _ _ _ _ h (len - 1) (by omega)
  rw [show len - 1 + offset = offset + len - 1 by omega] at hlast
  have hreads : ReadsOn (fun k => valueAt (runOf ends runs offset + k))
      (fun k => values (runOf ends runs offset + k)) 0 span :=
    fun k _ hk => hvalues _ (Nat.zero_le _) (by omega)
  have hruns := h.runs_ascending hlen hspan hasc
  obtain ⟨k, hk, hpoint⟩ := searchAscending_spec hreads hruns needle
  obtain ⟨p, hp, hpast⟩ := runPast_spec hreads hruns hpoint
  have hkle := hpoint.le
  have hple := hpast.le
  refine ⟨_, _, ?_, @RunsCover.point_of_runs _ _ _ _ h values (· < needle) _ _ hlen hspan hpoint,
    @RunsCover.point_of_runs _ _ _ _ h values (· ≤ needle) _ _ hlen hspan hpast⟩
  simp only [runendBounds, hw, Option.bind_eq_bind, Option.bind_some, hk, hp]
  rw [runStart_eq hread (by omega), runStart_eq hread (by omega)]
  rfl

end Bounds

/-- A node's bounds, each searched on its own. -/
theorem separateBounds_spec {n : Node} (hs : n.Sound fl)
    (hasc : AscendingOn (n.value fl) 0 n.len) (hneedle : needle ≤ u64Max)
    (h : n.bounds fl needle = do
      let lo ← n.lowerBound fl needle
      let hi ← n.upperBound fl needle
      some (lo, hi)) :
    ∃ lo hi, n.bounds fl needle = some (lo, hi) ∧
      IsPartitionPoint (fun i => n.value fl i < needle) 0 n.len lo ∧
      IsPartitionPoint (fun i => n.value fl i ≤ needle) 0 n.len hi := by
  obtain ⟨lo, hlo, hlopoint⟩ := hs.lower hasc needle
  obtain ⟨hi, hhi, hhipoint⟩ := upperBound_spec hs hasc hneedle
  exact ⟨lo, hi, by rw [h, hlo, hhi]; rfl, hlopoint, hhipoint⟩

/-- Over ascending values, both bounds of a node are partition points. -/
theorem bounds_spec {n : Node} (h : n.WellFormed fl) (hasc : AscendingOn (n.value fl) 0 n.len)
    (hneedle : needle ≤ u64Max) :
    ∃ lo hi, n.bounds fl needle = some (lo, hi) ∧
      IsPartitionPoint (fun i => n.value fl i < needle) 0 n.len lo ∧
      IsPartitionPoint (fun i => n.value fl i ≤ needle) 0 n.len hi := by
  have hs := wellFormed_sound h
  induction n generalizing needle with
  | runEnd ends values offset len =>
    obtain ⟨he, hv, hpair, hruns⟩ := h
    have hev := wellFormed_sound he
    have hvv := wellFormed_sound hv
    have heq : ∀ i, i < len → (Node.runEnd ends values offset len).value fl i =
        values.value fl (runOf (ends.value fl) ends.len (i + offset)) :=
      fun i hi => Node.value_of_valueAt (runEnd_valueAt hev hvv hpair hruns hi)
    have hasc' : AscendingOn (fun i => values.value fl (runOf (ends.value fl) ends.len (i + offset)))
        0 len := fun i j h₁ h₂ h₃ => by
      simp only [← heq i (by omega), ← heq j h₃]
      exact hasc i j h₁ h₂ h₃
    obtain ⟨lo, hi, hb, hlo, hhi⟩ := runendBounds_spec hruns hev.reads
      (fun k h₁ h₂ => hvv.reads k h₁ (by omega)) hasc' needle
    exact ⟨lo, hi, hb, hlo.congr fun i _ hi => by rw [heq i hi],
      hhi.congr fun i _ hi => by rw [heq i hi]⟩
  | foR reference child ih =>
    have hc := wellFormed_sound h.1
    have heq : ∀ i, i < child.len → (Node.foR reference child).value fl i =
        reference + child.value fl i :=
      fun i hi => Node.value_of_valueAt (foR_valueAt hc h.2 hi)
    rw [Node.bounds]
    split_ifs with hle
    · -- the needle less the reference is searched for in the child
      have hchild : AscendingOn (child.value fl) 0 child.len := fun i j h₁ h₂ h₃ => by
        have := hasc i j h₁ h₂ h₃
        rw [heq i (by omega), heq j h₃] at this
        omega
      obtain ⟨lo, hi, hb, hlo, hhi⟩ := ih h.1 hchild (show needle - reference ≤ u64Max by omega) hc
      exact ⟨lo, hi, hb, hlo.congr fun i _ hi => by rw [heq i hi]; omega,
        hhi.congr fun i _ hi => by rw [heq i hi]; omega⟩
    · exact ⟨0, 0, rfl, .atStart (Nat.zero_le _) fun i _ hi => by rw [heq i hi]; omega,
        .atStart (Nat.zero_le _) fun i _ hi => by rw [heq i hi]; omega⟩
  | bitPacked p => exact cappedBounds_spec hs.reads hasc needle
  | patched p indices values offset => exact cappedBounds_spec hs.reads hasc needle
  | primitive w => exact separateBounds_spec hs hasc hneedle rfl
  | constant value len => exact separateBounds_spec hs hasc hneedle rfl
  | sequence base multiplier len => exact separateBounds_spec hs hasc hneedle rfl
  | chunkedFoR references offset child => exact separateBounds_spec hs hasc hneedle rfl
  | slice child start len => exact separateBounds_spec hs hasc hneedle rfl
  | chunked count start node len => exact separateBounds_spec hs hasc hneedle rfl
  | dict codes values => exact separateBounds_spec hs hasc hneedle rfl
  | delta bases deltas width offset len => exact separateBounds_spec hs hasc hneedle rfl
  | sparse fill indices values offset len => exact separateBounds_spec hs hasc hneedle rfl
  | rle values indices offsets base offset len => exact separateBounds_spec hs hasc hneedle rfl

/-- A window's bounds are its partition points. -/
theorem boundsIn_spec {n : Node} (hs : n.Sound fl) {lo hi : ℕ} (hlo : lo ≤ hi) (hhi : hi ≤ n.len)
    (hasc : AscendingOn (n.value fl) lo hi) (needle : ℕ) :
    ∃ a b, SortedProbe.boundsIn fl n lo hi needle = some (a, b) ∧
      IsPartitionPoint (fun i => n.value fl i < needle) lo hi a ∧
      IsPartitionPoint (fun i => n.value fl i ≤ needle) lo hi b := by
  obtain ⟨m, rfl⟩ : ∃ m, hi = lo + m := ⟨hi - lo, by omega⟩
  have hread : ReadsOn (fun i => SortedProbe.valueAt fl n (lo + i))
      (fun i => n.value fl (lo + i)) 0 m := fun i _ hi' => by
    simp only [SortedProbe.valueAt, if_pos (show lo + i < n.len by omega)]
    exact hs.reads _ (Nat.zero_le _) (by omega)
  obtain ⟨a, b, hb, ha, hbpoint⟩ := cappedBounds_spec hread hasc.shift needle
  have ha' : IsPartitionPoint (fun i => n.value fl i < needle) lo (lo + m) (lo + a) := ha.shift
  have hb' : IsPartitionPoint (fun i => n.value fl i ≤ needle) lo (lo + m) (lo + b) :=
    hbpoint.shift
  refine ⟨lo + a, lo + b, ?_, ha', hb'⟩
  rw [SortedProbe.boundsIn, if_pos hhi, Nat.add_sub_cancel_left, hb]
  rfl

/-! ### A column of two chunks -/

namespace SampleColumn

/-- Run ends 2 and 5 over the values 4 and 9. -/
def runs : Node :=
  .runEnd (.primitive ⟨.u8, [2, 5], by decide⟩) (.primitive ⟨.u8, [4, 9], by decide⟩) 0 5

/-- Frame of reference 3 over 6 and 8. -/
def framed : Node := .foR 3 (.primitive ⟨.u8, [6, 8], by decide⟩)

/-- 4, 4, 9, 9, 9 and 9, 11. -/
def column : Node :=
  .chunked 2 (fun c => if c = 0 then 0 else 5) (fun c => if c = 0 then runs else framed) 7

theorem runs_wellFormed : runs.WellFormed .ofZeros := by
  refine ⟨show 2 ≤ u64Max by decide, show 2 ≤ u64Max by decide, rfl, ?_, fun _ => by decide,
    by decide⟩
  refine .of_succ fun i _ hi => ?_
  have hi' : i < 2 := Nat.lt_of_succ_lt_succ hi
  interval_cases i <;> decide

theorem column_wellFormed : column.WellFormed .ofZeros := by
  refine ⟨fun c => ?_, rfl, by decide, by decide, by decide⟩
  fin_cases c
  · exact runs_wellFormed
  · exact ⟨show 2 ≤ u64Max by decide, by decide⟩

end SampleColumn

/-! ### Searches of a window -/

theorem mapM_valueAt_window {n : Node} (hs : n.Sound fl) {lo hi : ℕ} (hhi : hi ≤ n.len) :
    (List.range' lo (hi - lo)).mapM (SortedProbe.valueAt fl n) =
      some (valuesFrom (n.value fl) lo (hi - lo)) := by
  have hread : ∀ i ∈ List.range' lo (hi - lo), SortedProbe.valueAt fl n i = some (n.value fl i) := by
    intro i hi'
    have := List.mem_range'_1.mp hi'
    rw [SortedProbe.valueAt, if_pos (by omega), hs.reads i (Nat.zero_le i) (by omega)]
  rw [mapM_some hread, List.range'_eq_map_range, List.map_map]
  rfl

/-- A probe's bulk read, count and offsets, by its column. -/
theorem readInto_eq {n : Node} (h : n.WellFormed fl) {start : ℕ} {out : List ℕ}
    (hle : start + out.length ≤ n.len) :
    SortedProbe.readInto fl n start out = some (valuesFrom (n.value fl) start out.length) := by
  have := h.len_le
  rw [SortedProbe.readInto, if_pos ⟨by omega, hle⟩, wellFormed_readsWindows h start out hle]

theorem countEq_eq {n : Node} (h : n.WellFormed fl) {start len : ℕ} (hle : start + len ≤ n.len)
    (needle : ℕ) : SortedProbe.countEq fl n start len needle =
      some ((valuesFrom (n.value fl) start len).count needle) := by
  have := h.len_le
  rw [SortedProbe.countEq, if_pos ⟨by omega, hle⟩,
    wellFormed_gathersMatches h Count start len needle 0 _ hle, gather_count, Option.map_some,
    Nat.zero_add]

theorem eqOffsets_eq {n : Node} (h : n.WellFormed fl) {start len : ℕ} (hle : start + len ≤ n.len)
    (needle : ℕ) (out : List ℕ) : SortedProbe.eqOffsets fl n start len needle out =
      some (out ++ matchesFrom (n.value fl) needle start len 0) := by
  have := h.len_le
  rw [SortedProbe.eqOffsets, if_pos ⟨by omega, hle⟩,
    wellFormed_gathersMatches h Offsets start len needle 0 _ hle, gather_offsets, Option.map_some]

/-- **A window of a well-formed tree reads, counts and reports what its point
reads hold**: the bulk read yields the point reads in order, the count is how
many of them equal the needle, and the offsets are those of the needle,
strictly ascending. -/
theorem windowSearches_agree (fl : FastLanes) {n : Node} (h : n.WellFormed fl) {lo hi : ℕ}
    (hlo : lo ≤ hi) (hhi : hi ≤ n.len) (needle : ℕ) :
    ∃ values offsets : List ℕ,
      (List.range' lo (hi - lo)).mapM (SortedProbe.valueAt fl n) = some values ∧
      (∀ out : List ℕ, out.length = hi - lo → SortedProbe.readInto fl n lo out = some values) ∧
      SortedProbe.countEq fl n lo (hi - lo) needle = some (values.count needle) ∧
      (∀ out, SortedProbe.eqOffsets fl n lo (hi - lo) needle out = some (out ++ offsets)) ∧
      offsets.Pairwise (· < ·) ∧
      ∀ i, (∃ k ∈ offsets, lo + k = i) ↔
        lo ≤ i ∧ i < hi ∧ SortedProbe.valueAt fl n i = some needle := by
  have hs := wellFormed_sound h
  have hle : lo + (hi - lo) ≤ n.len := by omega
  refine ⟨valuesFrom (n.value fl) lo (hi - lo), matchesFrom (n.value fl) needle lo (hi - lo) 0,
    mapM_valueAt_window hs hhi, fun out hout => ?_, countEq_eq h hle needle,
    fun out => eqOffsets_eq h hle needle out, matchesFrom_pairwise _ _ _ _ _, fun i => ?_⟩
  · rw [readInto_eq h (by omega), hout]
  · have hvalue : ∀ i, i < hi → SortedProbe.valueAt fl n i = some (n.value fl i) := fun i hi' => by
      rw [SortedProbe.valueAt, if_pos (by omega), hs.reads i (Nat.zero_le i) (by omega)]
    constructor
    · rintro ⟨k, hk, rfl⟩
      obtain ⟨j, hj, hneedle, rfl⟩ := mem_matchesFrom.mp hk
      rw [Nat.zero_add, hvalue _ (by omega), hneedle]
      exact ⟨by omega, by omega, rfl⟩
    · rintro ⟨hloi, hihi, hi'⟩
      rw [hvalue i hihi, Option.some_inj] at hi'
      refine ⟨i - lo, mem_matchesFrom.mpr ⟨i - lo, by omega, ?_, by omega⟩, by omega⟩
      rwa [Nat.add_sub_cancel' hloi]

/-- From inside the first run to inside the second chunk. -/
theorem windowSearches_agree_column : ∃ values offsets : List ℕ,
    (List.range' 1 (6 - 1)).mapM (SortedProbe.valueAt .ofZeros SampleColumn.column) = some values ∧
    (∀ out : List ℕ, out.length = 6 - 1 →
      SortedProbe.readInto .ofZeros SampleColumn.column 1 out = some values) ∧
    SortedProbe.countEq .ofZeros SampleColumn.column 1 (6 - 1) 9 = some (values.count 9) ∧
    (∀ out, SortedProbe.eqOffsets .ofZeros SampleColumn.column 1 (6 - 1) 9 out =
      some (out ++ offsets)) ∧
    offsets.Pairwise (· < ·) ∧
    ∀ i, (∃ k ∈ offsets, 1 + k = i) ↔
      1 ≤ i ∧ i < 6 ∧ SortedProbe.valueAt .ofZeros SampleColumn.column i = some 9 :=
  windowSearches_agree .ofZeros SampleColumn.column_wellFormed (by decide) (by decide) 9

/-! ### Sorted searches -/

variable {f : ℕ → ℕ}

/-- A partition point of a column is where a scan of its values stops. -/
theorem findIdx_ge_eq {lo len k : ℕ}
    (h : IsPartitionPoint (fun i => f (lo + i) < needle) 0 len k) :
    (valuesFrom f lo len).findIdx (fun v => decide (needle ≤ v)) = k := by
  apply IsPartitionPoint.findIdx_eq
  exact h.congr fun i _ _ => by simp

theorem findIdx_gt_eq {lo len k : ℕ}
    (h : IsPartitionPoint (fun i => f (lo + i) ≤ needle) 0 len k) :
    (valuesFrom f lo len).findIdx (fun v => decide (needle < v)) = k := by
  apply IsPartitionPoint.findIdx_eq
  exact h.congr fun i _ _ => by simp

theorem findIdx_window_ge {lo hi k : ℕ}
    (h : IsPartitionPoint (fun i => f i < needle) lo hi k) :
    lo + (valuesFrom f lo (hi - lo)).findIdx (fun v => decide (needle ≤ v)) = k := by
  have hge := h.ge
  have hle := h.le
  have hk : IsPartitionPoint (fun i => f (lo + i) < needle) 0 (hi - lo) (k - lo) :=
    ⟨Nat.zero_le _, by omega, fun i _ hi' => h.before _ (by omega) (by omega),
      fun i hi' hlt => h.after _ (by omega) (by omega)⟩
  rw [findIdx_ge_eq hk]
  omega

theorem findIdx_window_gt {lo hi k : ℕ}
    (h : IsPartitionPoint (fun i => f i ≤ needle) lo hi k) :
    lo + (valuesFrom f lo (hi - lo)).findIdx (fun v => decide (needle < v)) = k := by
  have hge := h.ge
  have hle := h.le
  have hk : IsPartitionPoint (fun i => f (lo + i) ≤ needle) 0 (hi - lo) (k - lo) :=
    ⟨Nat.zero_le _, by omega, fun i _ hi' => h.before _ (by omega) (by omega),
      fun i hi' hlt => h.after _ (by omega) (by omega)⟩
  rw [findIdx_gt_eq hk]
  omega

theorem ascendingOn_of_pairwise {lo len : ℕ}
    (h : (valuesFrom f lo len).Pairwise (· ≤ ·)) : AscendingOn (fun i => f (lo + i)) 0 len := by
  intro i j _ hij hj
  rcases Nat.eq_or_lt_of_le hij with rfl | hlt
  · exact le_rfl
  · rw [List.pairwise_iff_getElem] at h
    have := h i j (by rw [valuesFrom_length]; omega) (by rwa [valuesFrom_length]) hlt
    simpa [valuesFrom] using this

/-- Over ascending values, a node's lower bound, upper bound and bounds are where
a scan of its values stops. -/
theorem nodeBounds_eq {n : Node} (h : n.WellFormed fl)
    (hasc : AscendingOn (n.value fl) 0 n.len) (hneedle : needle ≤ u64Max) :
    let values := valuesFrom (n.value fl) 0 n.len
    let lo := values.findIdx fun v => decide (needle ≤ v)
    let hi := values.findIdx fun v => decide (needle < v)
    n.lowerBound fl needle = some lo ∧ n.upperBound fl needle = some hi ∧
      n.bounds fl needle = some (lo, hi) := by
  have hs := wellFormed_sound h
  have hge : ∀ {k}, IsPartitionPoint (fun i => n.value fl i < needle) 0 n.len k →
      (valuesFrom (n.value fl) 0 n.len).findIdx (fun v => decide (needle ≤ v)) = k :=
    fun hk => findIdx_ge_eq (hk.congr fun i _ _ => by rw [Nat.zero_add])
  have hgt : ∀ {k}, IsPartitionPoint (fun i => n.value fl i ≤ needle) 0 n.len k →
      (valuesFrom (n.value fl) 0 n.len).findIdx (fun v => decide (needle < v)) = k :=
    fun hk => findIdx_gt_eq (hk.congr fun i _ _ => by rw [Nat.zero_add])
  obtain ⟨lo, hlo, hlopoint⟩ := hs.lower hasc needle
  obtain ⟨hi, hhi, hhipoint⟩ := upperBound_spec hs hasc hneedle
  obtain ⟨lo', hi', hb, hlo', hhi'⟩ := bounds_spec h hasc hneedle
  refine ⟨?_, ?_, ?_⟩
  · rw [hlo, hge hlopoint]
  · rw [hhi, hgt hhipoint]
  · rw [hb, hge hlo', hgt hhi']

/-- **Every bound over ascending values is where a scan of them stops**: of the
window of a column by its point reads, of the node that slices the window, and
of a node that is the window, whatever its children hold outside it. -/
theorem sortedSearch_is_partitionPoint (fl : FastLanes) {n : Node} (h : n.WellFormed fl)
    {lo hi : ℕ} (hlo : lo ≤ hi) (hhi : hi ≤ n.len) {values : List ℕ}
    (hvalues : (List.range' lo (hi - lo)).mapM (SortedProbe.valueAt fl n) = some values)
    (hasc : values.Pairwise (· ≤ ·)) {needle : ℕ} (hneedle : needle ≤ u64Max) :
    let a := values.findIdx fun v => decide (needle ≤ v)
    let b := values.findIdx fun v => decide (needle < v)
    SortedProbe.boundsIn fl n lo hi needle = some (lo + a, lo + b) ∧
      (Node.slice n lo (hi - lo)).lowerBound fl needle = some a ∧
      (Node.slice n lo (hi - lo)).upperBound fl needle = some b ∧
      (Node.slice n lo (hi - lo)).bounds fl needle = some (a, b) ∧
      (lo = 0 → hi = n.len → n.lowerBound fl needle = some a ∧
        n.upperBound fl needle = some b ∧ n.bounds fl needle = some (a, b)) := by
  have hs := wellFormed_sound h
  rw [mapM_valueAt_window hs hhi, Option.some_inj] at hvalues
  subst hvalues
  have hwin := ascendingOn_of_pairwise hasc
  have hslice : (Node.slice n lo (hi - lo)).WellFormed fl := ⟨h, by omega⟩
  have hsv : ∀ i, i < hi - lo →
      (Node.slice n lo (hi - lo)).value fl i = n.value fl (lo + i) := fun i hi' =>
    Node.value_of_valueAt (slice_valueAt hs (show lo + (hi - lo) ≤ n.len by omega) hi')
  have hsasc : AscendingOn ((Node.slice n lo (hi - lo)).value fl) 0 (hi - lo) := by
    intro i j h₁ h₂ h₃
    rw [hsv i (by omega), hsv j h₃]
    exact hwin i j h₁ h₂ h₃
  have hsvalues : valuesFrom ((Node.slice n lo (hi - lo)).value fl) 0 (hi - lo) =
      valuesFrom (n.value fl) lo (hi - lo) :=
    valuesFrom_congr fun k hk => by rw [Nat.zero_add, hsv k hk]
  have hsbounds := nodeBounds_eq hslice hsasc hneedle
  simp only [Node.len, hsvalues] at hsbounds
  refine ⟨?_, hsbounds.1, hsbounds.2.1, hsbounds.2.2, ?_⟩
  · have hasc' : AscendingOn (n.value fl) lo hi := fun i j h₁ h₂ h₃ => by
      have := hwin (i - lo) (j - lo) (Nat.zero_le _) (by omega) (by omega)
      simpa only [Nat.add_sub_cancel' h₁, Nat.add_sub_cancel' (le_trans h₁ h₂)] using this
    obtain ⟨a, b, hb, ha, hbpoint⟩ := boundsIn_spec hs hlo hhi hasc' needle
    rw [hb, findIdx_window_ge ha, findIdx_window_gt hbpoint]
  · rintro rfl rfl
    exact nodeBounds_eq h (fun i j h₁ h₂ h₃ => by
      simpa only [Nat.zero_add] using hwin i j h₁ h₂ h₃) hneedle

/-- A run of 9 across the border of the chunks. -/
theorem sortedSearch_is_partitionPoint_column :
    let a := [4, 9, 9, 9, 9].findIdx fun v => decide (9 ≤ v)
    let b := [4, 9, 9, 9, 9].findIdx fun v => decide (9 < v)
    SortedProbe.boundsIn .ofZeros SampleColumn.column 1 6 9 = some (1 + a, 1 + b) ∧
      (Node.slice SampleColumn.column 1 (6 - 1)).lowerBound .ofZeros 9 = some a ∧
      (Node.slice SampleColumn.column 1 (6 - 1)).upperBound .ofZeros 9 = some b ∧
      (Node.slice SampleColumn.column 1 (6 - 1)).bounds .ofZeros 9 = some (a, b) ∧
      (1 = 0 → 6 = SampleColumn.column.len → SampleColumn.column.lowerBound .ofZeros 9 = some a ∧
        SampleColumn.column.upperBound .ofZeros 9 = some b ∧
        SampleColumn.column.bounds .ofZeros 9 = some (a, b)) :=
  sortedSearch_is_partitionPoint .ofZeros SampleColumn.column_wellFormed (by decide) (by decide)
    (by decide) (by decide) (by decide)

/-! ### Values in any order -/

theorem countP_eq_point {values : List ℕ} {p : ℕ → Prop} [DecidablePred p] {k : ℕ}
    (h : IsPartitionPoint (fun i => p (values.getD i 0)) 0 values.length k) :
    values.countP (fun v => decide (p v)) = k := by
  have hvalues : (List.range values.length).map (fun i => values.getD i 0) = values := by
    refine List.ext_getElem (by simp) fun i hi hi' => ?_
    rw [List.getElem_map, List.getElem_range, List.getD_eq_getElem _ _ hi']
  rw [← h.countP_eq]
  conv_lhs => rw [← hvalues]
  rw [List.countP_map]
  rfl

/-- **The capped search over values in any order** reads inside them only, ends each loop by
its own condition, and returns bounds in order; no step of it underflows, and where it places a
split no sum leaves the range. Over ascending values the bounds count the values below the
needle and cap those not above it, which the search behind it finds. -/
theorem cappedSearch_total (values : List ℕ) (needle : ℕ) :
    let value := fun i => values[i]?
    let start : Window := ⟨0, values.length, values.length, none, none⟩
    ∃ lo past hi, searchAscendingCapped values.length value needle = some (lo, past) ∧
      cappedBounds values.length value needle = some (lo, hi) ∧
      lo ≤ hi ∧ hi ≤ past ∧ past ≤ values.length ∧
      (∃ w₁ w₂ w₃, bracket value needle values.length start = some w₁ ∧
        ¬ (w₁.lo < w₁.hi ∧ (w₁.belowValue = none ∨ w₁.atValue = none)) ∧
        interpolate value needle INTERPOLATION_STEPS w₁ = some w₂ ∧
        finish value needle (w₂.hi - w₂.lo) w₂ = some w₃ ∧ ¬ w₃.lo < w₃.hi) ∧
      (∀ w, Window.Reaches (fun i => values.getD i 0) needle start w →
        ∀ b a, w.belowValue = some b → w.atValue = some a →
          w.lo - 1 + (needle - b) * (w.hi - w.lo + 1) / (a - b) ≤ values.length) ∧
      (values.SortedLE →
        lo = values.countP (· < needle) ∧ hi = values.countP (· ≤ needle) ∧
        (past < values.length → needle < values.getD past 0)) := by
  intro value start
  have hread : ReadsOn value (fun i => values.getD i 0) 0 values.length := by
    intro i _ hi
    change values[i]? = some (values.getD i 0)
    rw [List.getD_eq_getElem _ _ hi]
    exact List.getElem?_eq_getElem hi
  have hstart : start.Bounded (fun i => values.getD i 0) values.length needle :=
    ⟨Nat.zero_le _, le_rfl, le_rfl, .inl rfl, fun _ h => absurd h (by simp [start]),
      fun _ h => absurd h (by simp [start])⟩
  obtain ⟨w₁, h₁, r₁⟩ := bracket_reaches hread values.length hstart
  obtain ⟨w₂, h₂, r₂⟩ := interpolate_reaches hread INTERPOLATION_STEPS (r₁.bounded hstart)
  obtain ⟨w₃, h₃, r₃, hend⟩ := finish_reaches hread ((r₁.trans r₂).bounded hstart) le_rfl
  have hb := ((r₁.trans r₂).trans r₃).bounded hstart
  -- the three stages, each from the window the last one left
  have hsearch : searchAscendingCapped values.length value needle = some (w₃.lo, w₃.past) := by
    simp only [searchAscendingCapped, start] at h₁ h₂ h₃ ⊢
    simp only [h₁, h₂, h₃, Option.bind_eq_bind, Option.bind_some]
  have hlo : w₃.lo ≤ w₃.past := by
    have := hb.hi_le
    omega
  have hpast := hb.past_le
  have hwindow : ReadsOn (atMost (fun i => value (w₃.lo + i)) needle)
      (fun i => decide (values.getD (w₃.lo + i) 0 ≤ needle)) 0 (w₃.past - w₃.lo) := by
    refine atMost_reads fun i _ hi => hread _ (Nat.zero_le _) ?_
    omega
  obtain ⟨k, hk, -, hle⟩ := bisectLoop_total (Nat.zero_le _) le_rfl hwindow
  have hbounds : cappedBounds values.length value needle = some (w₃.lo, w₃.lo + k) := by
    simp only [cappedBounds, hsearch, checkedSub_of_le hlo, Option.bind_eq_bind, Option.bind_some]
    rw [partition, bisect, hk]
    rfl
  refine ⟨w₃.lo, w₃.past, w₃.lo + k, hsearch, hbounds, Nat.le_add_right _ _, by omega, hpast,
    ⟨w₁, w₂, w₃, h₁, bracket_ends hread hstart le_rfl h₁, h₂, h₃, by omega⟩, ?_, ?_⟩
  · exact fun w hw b a => (hw.bounded hstart).place_le
  · intro hsorted
    have hasc : AscendingOn (fun i => values.getD i 0) 0 values.length := by
      intro i j _ hij hj
      dsimp only
      rw [List.getD_eq_getElem _ _ hj, List.getD_eq_getElem _ _ (lt_of_le_of_lt hij hj)]
      exact hsorted.getElem_le_getElem_of_le hij
    obtain ⟨lo, hi, hbounds', hpoint, hpoint'⟩ := cappedBounds_spec hread hasc needle
    obtain ⟨rfl, rfl⟩ : w₃.lo = lo ∧ w₃.lo + k = hi := by
      rw [hbounds, Option.some_inj, Prod.mk.injEq] at hbounds'
      exact hbounds'
    refine ⟨(@countP_eq_point values (· < needle) _ _ hpoint).symm,
      (@countP_eq_point values (· ≤ needle) _ _ hpoint').symm, fun hlt => ?_⟩
    exact hb.capped.resolve_left hlt.ne

/-- Among three values in order, two equal the needle. -/
theorem cappedSearch_total_three : ∃ lo past hi,
    searchAscendingCapped 3 (fun i => [4, 9, 9][i]?) 9 = some (lo, past) ∧
    cappedBounds 3 (fun i => [4, 9, 9][i]?) 9 = some (lo, hi) ∧
    lo = [4, 9, 9].countP (· < 9) ∧ hi = [4, 9, 9].countP (· ≤ 9) := by
  obtain ⟨lo, past, hi, hsearch, hbounds, -, -, -, -, -, hsorted⟩ := cappedSearch_total [4, 9, 9] 9
  obtain ⟨hlo, hhi, -⟩ := hsorted (List.Pairwise.sortedLE (by decide))
  exact ⟨lo, past, hi, hsearch, hbounds, hlo, hhi⟩

end EncodedSearch
