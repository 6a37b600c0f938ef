/-
Cuts of a selection: pieces, windows, and masks over its rows.

* `SplitInto`, `split_spec` — a split is a contiguous cut of the listing;
* `page`, `window_selects` — a window is a page of the live rows in order;
* `toMask_value`, `liveMask_value`, `liveLen_eq` — masks over the base and over
  the selection's own rows;
* `refine_selects` — a mask over the selection's own rows keeps the rows at its
  set positions.
-/
import VortexRdf.SelectionRows

namespace Store

open Masks MaskOps Buffers Ascending

variable {baseLen : ℕ}

/-! ### Cuts -/

/-- `limit` entries after the first `offset`. -/
def page {α : Type*} (offset limit : ℕ) (l : List α) : List α := (l.drop offset).take limit

theorem page_sublist {α : Type*} (offset limit : ℕ) (l : List α) :
    (page offset limit l).Sublist l :=
  (List.take_sublist _ _).trans (List.drop_sublist _ _)

theorem rangeOrEmpty_selects {r : RowRange} (hr : r.Within baseLen) :
    Selects baseLen (some (.rangeOrEmpty r)) r.rows := by
  unfold RowSelection.rangeOrEmpty
  split_ifs with hempty
  · exact selects_empty (Finset.Ico_eq_empty (not_lt.mpr hempty))
  · exact ⟨_, rfl, hr, rfl⟩

variable {n : ℕ}

/-- A sum that saturates is cut at an end that does not. -/
theorem min_saturatingAdd {a b : ℕ} (hb : b ≤ usizeMax) :
    min (saturatingAdd a n) b = min (a + n) b := by
  unfold saturatingAdd
  omega

theorem IdsWithin.length_le {l : List RowId} (h : IdsWithin baseLen l) : l.length ≤ baseLen := by
  rw [← card_toFinset h.ascending, ← Finset.card_range baseLen]
  exact Finset.card_le_card fun id hid =>
    Finset.mem_range.mpr (h.inBase id (List.mem_toFinset.mp hid))

/-! ### Splits -/

variable {per : ℕ}

theorem divCeil_add (hper : 0 < per) : divCeil (n + per) per = divCeil n per + 1 := by
  rw [divCeil, divCeil, show n + per + per - 1 = n + per - 1 + per by omega,
    Nat.add_div_right _ hper]

theorem divCeil_of_le (hn : 0 < n) (hle : n ≤ per) : divCeil n per = 1 := by
  rw [divCeil, Nat.div_eq_iff (by omega)]
  omega

/-- Consecutive pieces of `per` rows, the last one cut at the end, are the whole
stretch. -/
theorem steps_flatMap (hper : 0 < per) (start n : ℕ) :
    (List.range' start (divCeil n per) per).flatMap
        (fun a => List.range' a (min (a + per) (start + n) - a)) = List.range' start n := by
  induction n using Nat.strong_induction_on generalizing start with
  | _ n ih =>
    rcases Nat.eq_zero_or_pos n with rfl | hn
    · rw [show divCeil 0 per = 0 from Nat.div_eq_of_lt (by omega)]
      rfl
    · rcases le_total n per with hle | hle
      · rw [divCeil_of_le hn hle, List.range'_one, List.flatMap_singleton]
        congr 1
        omega
      · obtain ⟨m, rfl⟩ := Nat.exists_eq_add_of_le' hle
        have hrest := ih m (by omega) (start + per)
        rw [show start + per + m = start + (m + per) by omega] at hrest
        rw [divCeil_add hper, List.range'_succ, List.flatMap_cons, hrest,
          show min (start + per) (start + (m + per)) - start = per by omega,
          List.range'_append_1, Nat.add_comm per m]

theorem divCeil_pos (hn : 0 < n) (hper : 0 < per) : 0 < divCeil n per :=
  Nat.div_pos (by omega) hper

theorem divCeil_le_iff {k : ℕ} (hper : 0 < per) : divCeil n per ≤ k ↔ n ≤ k * per := by
  rw [divCeil, ← Nat.lt_succ_iff, Nat.div_lt_iff_lt_mul hper, Nat.succ_mul]
  omega

/-- Pieces of `n.div_ceil(k)` rows are at most `k`. -/
theorem divCeil_divCeil_le {k : ℕ} (hn : 0 < n) (hk : 0 < k) : divCeil n (divCeil n k) ≤ k := by
  rw [divCeil_le_iff (divCeil_pos hn hk), Nat.mul_comm, ← divCeil_le_iff hk]

/-- A piece begins before the end. -/
theorem lt_of_mem_steps {start a : ℕ} (hper : 0 < per)
    (ha : a ∈ List.range' start (divCeil n per) per) : start ≤ a ∧ a < start + n := by
  obtain ⟨i, hi, rfl⟩ := List.mem_range'.mp ha
  have hlt : ¬ n ≤ i * per := fun h => absurd hi (not_lt.mpr ((divCeil_le_iff hper).mpr h))
  rw [Nat.mul_comm per i]
  omega

/-- What a split makes of a selection: few non-empty pieces that list it one
after another. -/
structure SplitInto (baseLen n : ℕ) (s : RowSelection) (pieces : List RowSelection) : Prop where
  few : pieces.length ≤ max n 1
  within : ∀ piece ∈ pieces, piece.Within baseLen
  nonempty : ∀ piece ∈ pieces, (piece.rows baseLen).Nonempty
  joined : (pieces.flatMap fun piece => piece.listing baseLen) = s.listing baseLen

theorem splitRange_spec {r : RowRange} (hr : r.Within baseLen) (hbase : baseLen ≤ usizeMax)
    {s : RowSelection} (hlisting : s.listing baseLen = r.toList) (n : ℕ) :
    SplitInto baseLen n s (RowSelection.splitRange r (max n 1)) := by
  obtain ⟨hle, hin⟩ := hr
  have hn : 0 < max n 1 := by omega
  obtain ⟨len, hlen⟩ := Nat.exists_eq_add_of_le hle
  have hdiff : r.stop - r.start = len := by omega
  rcases Nat.eq_zero_or_pos len with hzero | hpos
  · have hnil : RowSelection.splitRange r (max n 1) = [] := by
      simp only [RowSelection.splitRange, hdiff, if_pos hzero]
    rw [hnil]
    refine ⟨Nat.zero_le _, by simp, by simp, ?_⟩
    rw [hlisting, RowRange.toList, hdiff, hzero]
    rfl
  · set per := divCeil len (max n 1) with hper
    have hperPos : 0 < per := divCeil_pos hpos hn
    have hperLe : per ≤ len := (divCeil_le_iff hn).mpr (Nat.le_mul_of_pos_right _ hn)
    have hpieces : RowSelection.splitRange r (max n 1) =
        (List.range' r.start (divCeil len per) per).map fun start =>
          .range ⟨start, min (start + per) r.stop⟩ := by
      have husize : usizeFrom per = per := by
        unfold usizeFrom
        omega
      simp only [RowSelection.splitRange, hdiff, if_neg hpos.ne', RowRange.stepBy, ← hper, husize,
        min_saturatingAdd (le_trans hin hbase)]
    rw [hpieces]
    refine ⟨?_, ?_, ?_, ?_⟩
    · rw [List.length_map, List.length_range']
      exact divCeil_divCeil_le hpos hn
    · intro piece hpiece
      obtain ⟨start, hstart, rfl⟩ := List.mem_map.mp hpiece
      have hlt := lt_of_mem_steps hperPos hstart
      exact ⟨by simp only; omega, le_trans (min_le_right _ _) hin⟩
    · intro piece hpiece
      obtain ⟨start, hstart, rfl⟩ := List.mem_map.mp hpiece
      have hlt := lt_of_mem_steps hperPos hstart
      exact ⟨start, RowRange.mem_rows.mpr ⟨le_rfl, by simp only; omega⟩⟩
    · have hsteps := steps_flatMap hperPos r.start len
      rw [← hlen] at hsteps
      rw [hlisting, RowRange.toList, hdiff, ← hsteps, List.flatMap_map]
      refine List.flatMap_congr fun start _ => ?_
      rw [RowSelection.listing, RowSelection.rows, RowRange.sort_rows, RowRange.toList]

theorem slice_eq_map {l : List ℕ} {start : ℕ} (h : start + n ≤ l.length) :
    (l.drop start).take n = (List.range' start n).map fun i => l.getD i 0 := by
  refine List.ext_getElem (by simp; omega) fun i hi hi' => ?_
  have hlt : start + i < l.length := by
    rw [List.length_map, List.length_range'] at hi'
    omega
  simp [hlt]

theorem splitIds_spec {l : List RowId} (hl : IdsWithin baseLen l) {s : RowSelection}
    (hlisting : s.listing baseLen = l) (n : ℕ) :
    ∃ pieces, RowSelection.splitIds l (max n 1) = some pieces ∧ SplitInto baseLen n s pieces := by
  have hn : 0 < max n 1 := by omega
  rcases Nat.eq_zero_or_pos l.length with hzero | hpos
  · refine ⟨[], by simp only [RowSelection.splitIds, if_pos hzero], Nat.zero_le _, by simp,
      by simp, ?_⟩
    rw [hlisting, List.length_eq_zero_iff.mp hzero]
    rfl
  · set per := divCeil l.length (max n 1) with hper
    have hperPos : 0 < per := divCeil_pos hpos hn
    set starts := List.range' 0 (divCeil l.length per) per with hstarts
    have hbounds : ∀ start ∈ starts, start < l.length := by
      intro start hstart
      have := (lt_of_mem_steps hperPos hstart).2
      omega
    let piece (start : ℕ) := (l.drop start).take (min (start + per) l.length - start)
    have hpieces : RowSelection.splitIds l (max n 1) =
        some (starts.map fun start => .ids (piece start)) := by
      simp only [RowSelection.splitIds, if_neg hpos.ne', ← hper]
      refine mapM_some fun start hstart => ?_
      have := hbounds start hstart
      rw [sliceOf_eq (by omega) (by omega)]
      rfl
    refine ⟨_, hpieces, ?_, ?_, ?_, ?_⟩
    · rw [List.length_map, List.length_range']
      exact divCeil_divCeil_le hpos hn
    · intro p hp
      obtain ⟨start, -, rfl⟩ := List.mem_map.mp hp
      exact hl.of_sublist (page_sublist _ _ _)
    · intro p hp
      obtain ⟨start, hstart, rfl⟩ := List.mem_map.mp hp
      have hlt := hbounds start hstart
      have hlen : 0 < (piece start).length := by
        rw [List.length_take, List.length_drop]
        omega
      obtain ⟨id, hid⟩ := List.exists_mem_of_length_pos hlen
      exact ⟨id, List.mem_toFinset.mpr hid⟩
    · -- the steps cover the ids, so the pieces put together are the list
      have hsteps := steps_flatMap hperPos 0 l.length
      rw [Nat.zero_add] at hsteps
      have hself : l = (List.range' 0 l.length).map fun i => l.getD i 0 := by
        rw [← slice_eq_map (by omega), List.drop_zero, List.take_length]
      rw [hlisting]
      conv_rhs => rw [hself, ← hsteps, List.map_flatMap]
      rw [List.flatMap_map]
      refine List.flatMap_congr fun start hstart => ?_
      have hlt := hbounds start hstart
      rw [RowSelection.listing, RowSelection.rows,
        (hl.of_sublist (page_sublist _ _ _) : IdsWithin baseLen (piece start)).sort]
      exact slice_eq_map (by omega)

theorem split_spec (hbase : baseLen ≤ usizeMax) {s : RowSelection} (hs : s.Within baseLen)
    (n : ℕ) : ∃ pieces, s.split n baseLen = some pieces ∧ SplitInto baseLen n s pieces := by
  unfold RowSelection.split
  cases h : s.asRows baseLen with
  | run r =>
    exact ⟨_, rfl, splitRange_spec (asRows_run hbase hs h).1 hbase (listing_run hbase hs h) n⟩
  | ids l => exact splitIds_spec (asRows_ids hs h).1 (listing_ids hs h) n

/-! ### Windows -/

section Deleted

variable {M : Type*} [MaskOps M]

/-- Rows the tombstones leave live. -/
def live (deleted : Option M) (row : ℕ) : Bool := deleted.all fun d => !value d row

def RowSelection.liveListing (s : RowSelection) (deleted : Option M) (baseLen : ℕ) : List ℕ :=
  (s.listing baseLen).filter (live deleted)

variable {s : RowSelection}

theorem window_selects (hbase : baseLen ≤ usizeMax) (hs : s.Within baseLen)
    (offset limit : ℕ) (deleted : Option M) :
    Selects baseLen (s.window offset limit deleted baseLen)
      (page offset limit (s.liveListing deleted baseLen)).toFinset := by
  have hlisting := listing_idsWithin hs
  cases deleted with
  | some d =>
    -- deleted rows leave ids to page, whatever the selection was
    have hwindow : s.window offset limit (some d) baseLen =
        some (.fromIds (page offset limit (s.liveListing (some d) baseLen))) := by
      unfold RowSelection.window
      cases h : s.asRows baseLen with
      | run r => simp only [RowSelection.liveListing, listing_run hbase hs h]; rfl
      | ids l => simp only [RowSelection.liveListing, listing_ids hs h]; rfl
    rw [hwindow]
    exact fromIds_selects
      (hlisting.of_sublist ((page_sublist _ _ _).trans List.filter_sublist))
  | none =>
    have hlive : s.liveListing (none : Option M) baseLen = s.listing baseLen :=
      List.filter_eq_self.mpr fun _ _ => rfl
    rw [hlive]
    unfold RowSelection.window
    cases h : s.asRows baseLen with
    | run r =>
      obtain ⟨⟨hle, hin⟩, -⟩ := asRows_run hbase hs h
      simp only [min_saturatingAdd (le_trans hin hbase)]
      obtain ⟨start, hstart⟩ : ∃ start, start = min (r.start + offset) r.stop := ⟨_, rfl⟩
      obtain ⟨stop, hstop⟩ : ∃ stop, stop = min (start + limit) r.stop := ⟨_, rfl⟩
      rw [← hstart, ← hstop]
      -- a run pages to a run, its ends clamped
      have hrows : (page offset limit (s.listing baseLen)).toFinset =
          (⟨start, stop⟩ : RowRange).rows := by
        rw [listing_run hbase hs h, page, RowRange.toList, List.drop_range']
        ext row
        rw [List.mem_toFinset, RowRange.mem_rows]
        rcases le_total limit (r.stop - r.start - offset) with hlim | hlim
        · rw [List.take_range'_of_length_ge hlim, List.mem_range'_1]
          simp only
          omega
        · rw [List.take_range'_of_length_le hlim, List.mem_range'_1]
          simp only
          omega
      have hordered : start ≤ stop := by omega
      have hinBase : stop ≤ baseLen := by omega
      rw [hrows]
      exact rangeOrEmpty_selects ⟨hordered, hinBase⟩
    | ids l =>
      have hlen : l.length ≤ baseLen := (asRows_ids hs h).1.length_le
      rw [listing_ids hs h] at hlisting ⊢
      simp only [min_saturatingAdd (le_trans hlen hbase)]
      obtain ⟨start, hstart⟩ : ∃ start, start = min offset l.length := ⟨_, rfl⟩
      obtain ⟨stop, hstop⟩ : ∃ stop, stop = min (start + limit) l.length := ⟨_, rfl⟩
      rw [← hstart, ← hstop]
      -- ids page to a slice of them
      have hslice : page offset limit l = (l.drop start).take (stop - start) := by
        rw [page]
        rcases le_total offset l.length with hoff | hoff
        · obtain rfl : start = offset := by omega
          rcases le_total (start + limit) l.length with hlim | hlim
          · congr 1
            omega
          · rw [List.take_of_length_le (by rw [List.length_drop]; omega),
              List.take_of_length_le (by rw [List.length_drop]; omega)]
        · rw [List.drop_eq_nil_of_le hoff, List.drop_eq_nil_of_le (by omega), List.take_nil,
            List.take_nil]
      rw [hslice]
      split_ifs with heq
      · exact selects_empty (by rw [heq, Nat.sub_self, List.take_zero, List.toFinset_nil])
      · rw [sliceOf_eq (by omega) (by omega), Option.map_some, ← hslice]
        exact selects_ids (hlisting.of_sublist (page_sublist _ _ _))

/-! ### Masks -/

/-- The set bits of a mask over a selection's own rows are the positions of the
rows a test on the rows admits. -/
theorem setBits_own {rows : Finset ℕ} {m : M} (hlen : len m = rows.card) {p : ℕ → Bool}
    (hvalue : ∀ i row, (rows.sort (· ≤ ·))[i]? = some row → value m i = p row) :
    (setBits m).length = (rows.filter fun row => p row = true).card := by
  rw [← Finset.length_sort (· ≤ ·), sort_filter, setBits, hlen, ← Finset.length_sort (· ≤ ·)]
  generalize rows.sort (· ≤ ·) = l at hvalue
  have hself : l = (List.range l.length).map fun i => l.getD i 0 := by
    rw [List.range_eq_range', ← slice_eq_map (by omega), List.drop_zero, List.take_length]
  conv_rhs => rw [hself, List.filter_map, List.length_map]
  congr 1
  refine List.filter_congr fun i hi => ?_
  have hlt := List.mem_range.mp hi
  rw [hvalue i l[i] (List.getElem?_eq_getElem hlt)]
  simp [hlt]

/-- Positions of a selection mapped back to the rows there. -/
theorem positions_selects (hs : s.Within baseLen) {keep : M}
    (hlen : len keep = (s.rows baseLen).card) :
    Selects baseLen
      (((setBits keep).mapM fun place => (s.listing baseLen)[place]?).map .ids)
      ((s.rows baseLen).filter fun row => value keep (rank (s.rows baseLen) row) = true) := by
  have hsorted := (listing_idsWithin hs).ascending
  have hlength : (s.listing baseLen).length = (s.rows baseLen).card := Finset.length_sort _
  have hplace : ∀ i ∈ setBits keep, i < (s.listing baseLen).length := by
    intro i hi
    rw [hlength, ← hlen]
    exact (mem_setBits.mp hi).1
  have hget : ∀ i ∈ setBits keep,
      (s.listing baseLen)[i]? = some ((s.listing baseLen).getD i 0) := by
    intro i hi
    simp [hplace i hi]
  have hrows : ∀ row, row ∈ (setBits keep).map (fun i => (s.listing baseLen).getD i 0) ↔
      row ∈ s.rows baseLen ∧ value keep (rank (s.rows baseLen) row) = true := by
    intro row
    rw [List.mem_map]
    constructor
    · rintro ⟨i, hi, rfl⟩
      obtain ⟨hmem, hrank⟩ := sort_getElem?_iff.mp (hget i hi)
      exact ⟨hmem, by rw [hrank]; exact (mem_setBits.mp hi).2⟩
    · rintro ⟨hmem, hkeep⟩
      have hi : rank (s.rows baseLen) row ∈ setBits keep :=
        mem_setBits.mpr ⟨by rw [hlen]; exact rank_lt hmem, hkeep⟩
      have hrow : (s.listing baseLen)[rank (s.rows baseLen) row]? = some row :=
        sort_getElem?_iff.mpr ⟨hmem, rfl⟩
      exact ⟨_, hi, Option.some_inj.mp ((hget _ hi).symm.trans hrow)⟩
  rw [mapM_some hget, Option.map_some]
  refine ⟨_, rfl, ⟨?_, fun id hid => rows_lt hs ((hrows id).mp hid).1⟩, ?_⟩
  · refine List.Pairwise.sortedLT (List.pairwise_map.mpr ?_)
    refine (setBits_sortedLT keep).pairwise.imp_of_mem fun {i j} hi hj hij => ?_
    have hi' := hplace i hi
    have hj' := hplace j hj
    have hlt : (s.listing baseLen)[i] < (s.listing baseLen)[j] :=
      hsorted.getElem_lt_getElem_iff.mpr hij
    simpa [hi', hj'] using hlt
  · ext row
    rw [RowSelection.rows, List.mem_toFinset, hrows, Finset.mem_filter]

variable [LawfulMask M]

theorem toMask_len : len (s.toMask baseLen : M) = baseLen := by
  cases s with
  | all => exact LawfulMask.len_newTrue _
  | range r =>
    simp only [RowSelection.toMask]
    split_ifs
    · exact LawfulMask.len_newFalse _
    · exact LawfulMask.len_fromSlices _ _
  | ids l => exact LawfulMask.len_fromIndices _ _

theorem toMask_value (hbase : baseLen ≤ usizeMax) (hs : s.Within baseLen)
    {row : ℕ} (hrow : row < baseLen) :
    value (s.toMask baseLen : M) row = decide (row ∈ s.rows baseLen) := by
  cases s with
  | all =>
    rw [RowSelection.toMask, LawfulMask.value_newTrue _ _ hrow]
    simp [RowSelection.rows, hrow]
  | range r =>
    simp only [RowSelection.toMask, clamped_eq hbase hs, RowSelection.rows, RowRange.mem_rows]
    split_ifs with hempty
    · rw [LawfulMask.value_newFalse _ _ hrow, eq_comm, decide_eq_false_iff_not]
      omega
    · rw [LawfulMask.value_fromSlices _ _ _ (by simpa using ⟨not_le.mp hempty, hs.inBase⟩)
        (List.pairwise_singleton _ _) hrow]
      simp
  | ids l =>
    rw [RowSelection.toMask, LawfulMask.value_fromIndices _ _ _ (IdsWithin.inBase hs)
      (IdsWithin.ascending hs) hrow]
    simp [RowSelection.rows]

theorem getElem?_listing_run {r : RowRange} {i row : ℕ} (h : r.toList[i]? = some row) :
    row = r.start + i ∧ i < r.stop - r.start := by
  obtain ⟨hi, hrow⟩ := List.getElem?_eq_some_iff.mp h
  rw [RowRange.toList, List.length_range'] at hi
  exact ⟨by simpa [RowRange.toList] using hrow.symm, hi⟩

theorem liveMask_len (hbase : baseLen ≤ usizeMax) (hs : s.Within baseLen)
    {deleted : M} (hd : len deleted = baseLen) :
    len (s.liveMask deleted baseLen) = (s.rows baseLen).card := by
  rw [← len_eq_card hbase hs]
  cases s with
  | all =>
    rw [RowSelection.liveMask, LawfulMask.len_not]
    exact hd
  | range r =>
    have hle := hs.ordered
    have hin := hs.inBase
    simp only [RowSelection.liveMask, clamped_eq hbase hs, LawfulMask.len_not]
    rw [LawfulMask.len_slice _ _ _ hle (by omega), RowSelection.len, usizeFrom]
    omega
  | ids l => exact LawfulMask.len_fromIndices _ _

theorem places_ascending (l : List RowId) (p : ℕ × ℕ → Bool) :
    ((l.zipIdx.filter p).map fun place => place.2).SortedLT := by
  have hsub : ((l.zipIdx.filter p).map Prod.snd).Sublist (l.zipIdx.map Prod.snd) :=
    List.filter_sublist.map _
  rw [List.zipIdx_map_snd] at hsub
  exact sublist (List.sortedLT_range' _ _ one_ne_zero) hsub

theorem liveMask_value (hbase : baseLen ≤ usizeMax) (hs : s.Within baseLen)
    {deleted : M} (hd : len deleted = baseLen) {i row : ℕ}
    (hrow : (s.listing baseLen)[i]? = some row) :
    value (s.liveMask deleted baseLen) i = !value deleted row := by
  cases s with
  | all =>
    rw [listing_run hbase hs rfl] at hrow
    obtain ⟨rfl, hi⟩ := getElem?_listing_run hrow
    have hi' : i < baseLen - 0 := hi
    rw [Nat.zero_add, RowSelection.liveMask, LawfulMask.value_not _ _ (by omega)]
  | range r =>
    have hle := hs.ordered
    have hin := hs.inBase
    rw [listing_run hbase hs rfl, clamped_eq hbase hs] at hrow
    obtain ⟨rfl, hi⟩ := getElem?_listing_run hrow
    simp only [RowSelection.liveMask, clamped_eq hbase hs]
    rw [LawfulMask.value_not _ _ (by rw [LawfulMask.len_slice _ _ _ hle (by omega)]; exact hi),
      LawfulMask.value_slice _ _ _ _ hle (by omega) hi]
  | ids l =>
    rw [listing_ids hs rfl] at hrow
    obtain ⟨hi, -⟩ := List.getElem?_eq_some_iff.mp hrow
    have hmem : ∀ j, j ∈ ((l.zipIdx.filter fun place => !value deleted place.1).map
        fun place => place.2) ↔ ∃ id, l[j]? = some id ∧ value deleted id = false := by
      intro j
      simp [List.mem_map, List.mem_filter, List.mk_mem_zipIdx_iff_getElem?]
    rw [RowSelection.liveMask, LawfulMask.value_fromIndices _ _ _ ?_ (places_ascending _ _) hi]
    · rw [← Bool.coe_iff_coe, decide_eq_true_iff, hmem]
      simp [hrow]
    · intro j hj
      obtain ⟨id, hid, -⟩ := (hmem j).mp hj
      exact (List.getElem?_eq_some_iff.mp hid).1

theorem liveLen_eq (hbase : baseLen ≤ usizeMax) (hs : s.Within baseLen)
    {deleted : Option M} (hd : ∀ d ∈ deleted, len d = baseLen) :
    s.liveLen deleted baseLen =
      ((s.rows baseLen).filter fun row => live deleted row = true).card := by
  cases deleted with
  | none =>
    rw [RowSelection.liveLen, len_eq_card hbase hs]
    simp [live]
  | some d =>
    rw [RowSelection.liveLen, LawfulMask.trueCount_eq]
    exact setBits_own (liveMask_len hbase hs (hd d rfl))
      fun i row hrow => liveMask_value hbase hs (hd d rfl) hrow

theorem refine_selects (hbase : baseLen ≤ usizeMax) (hs : s.Within baseLen)
    {keep : M} (hlen : len keep = s.len baseLen) :
    Selects baseLen (s.refine keep)
      ((s.rows baseLen).filter fun row => value keep (rank (s.rows baseLen) row) = true) := by
  rw [len_eq_card hbase hs] at hlen
  unfold RowSelection.refine
  cases h : indices keep with
  | all =>
    refine ⟨s, rfl, hs, (Finset.filter_true_of_mem fun row hrow => ?_).symm⟩
    exact LawfulMask.indices_all _ h _ (by rw [hlen]; exact rank_lt hrow)
  | none =>
    refine selects_empty (Finset.filter_false_of_mem fun row hrow => ?_)
    rw [LawfulMask.indices_none _ h _ (by rw [hlen]; exact rank_lt hrow)]
    exact Bool.false_ne_true
  | some places =>
    obtain rfl := LawfulMask.indices_some _ _ h
    have hpositions := positions_selects hs hlen
    -- a mask position is an offset into every row or into a range
    have hplaces : ∀ r, s.asRows baseLen = .run r →
        (setBits keep).mapM (fun place => (s.listing baseLen)[place]?) =
          some ((setBits keep).map fun place => r.start + place) := by
      intro r hr
      refine mapM_some fun place hplace => ?_
      have hlt := (mem_setBits.mp hplace).1
      rw [hlen, ← Finset.length_sort (· ≤ ·)] at hlt
      obtain ⟨row, hget⟩ : ∃ row, (s.listing baseLen)[place]? = some row :=
        ⟨_, List.getElem?_eq_getElem hlt⟩
      have hrow := getElem?_listing_run (listing_run hbase hs hr ▸ hget)
      rw [hget, hrow.1]
    cases s with
    | all =>
      rw [hplaces _ rfl] at hpositions
      simpa using hpositions
    | range r =>
      have hr : (RowSelection.range r).asRows baseLen = .run r := by
        rw [RowSelection.asRows, clamped_eq hbase hs]
      rw [hplaces r hr] at hpositions
      exact hpositions
    | ids l =>
      rw [listing_ids hs rfl] at hpositions
      exact hpositions

end Deleted

end Store
