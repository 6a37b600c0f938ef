/-
The set of base rows a selection names.

A selection within a base is read as the finite set of base rows it names, and
its operations as operations on that set.

* `RowSelection.rows`, `RowSelection.Within` — the set, and the shapes the code
  keeps: ranges in bounds, id lists strictly ascending;
* `rank` — the position of a row among a selection's own rows, the coordinate
  of the masks over them;
* `intersectRange_selects`, `intersectIds_selects`, `intersectRuns_selects` —
  the narrowings by a range, by ids and by runs are intersections;
* `len_eq_card`, `contains_iff`, `filterRows_eq`, `narrowToIds_selects` — what
  the other questions answer about the set.
-/
import VortexRdf.RowSelection

namespace Store

open Masks MaskOps Buffers Ascending

/-! ### The set a selection names -/

/-- A range of base rows, in bounds. -/
structure RowRange.Within (baseLen : ℕ) (r : RowRange) : Prop where
  ordered : r.start ≤ r.stop
  inBase : r.stop ≤ baseLen

/-- An id list as the code keeps them: strictly ascending, of base rows. -/
structure IdsWithin (baseLen : ℕ) (l : List RowId) : Prop where
  ascending : l.SortedLT
  inBase : ∀ id ∈ l, id < baseLen

/-- Ascending disjoint runs, empty ones included. -/
structure RunsWithin (baseLen : ℕ) (runs : List RowRange) : Prop where
  within : ∀ run ∈ runs, run.Within baseLen
  ascending : runs.Pairwise fun a b => a.stop ≤ b.start

def RowRange.rows (r : RowRange) : Finset ℕ := Finset.Ico r.start r.stop

def runRows (runs : List RowRange) : Finset ℕ := (runs.flatMap RowRange.toList).toFinset

namespace RowSelection

def Within (baseLen : ℕ) : RowSelection → Prop
  | all => True
  | range r => r.Within baseLen
  | ids l => IdsWithin baseLen l

def rows (baseLen : ℕ) : RowSelection → Finset ℕ
  | all => Finset.range baseLen
  | range r => r.rows
  | ids l => l.toFinset

/-- The rows of a selection in base row order. -/
def listing (s : RowSelection) (baseLen : ℕ) : List ℕ := (s.rows baseLen).sort (· ≤ ·)

end RowSelection

/-- `o` is a selection within the base that names exactly `rows`. -/
def Selects (baseLen : ℕ) (o : Option RowSelection) (rows : Finset ℕ) : Prop :=
  ∃ s, o = some s ∧ s.Within baseLen ∧ s.rows baseLen = rows

/-- The position of `row` in the ascending listing of `rows`. -/
def rank (rows : Finset ℕ) (row : ℕ) : ℕ := (rows.filter (· < row)).card

variable {baseLen : ℕ}

variable {row : ℕ} {r : RowRange}

@[simp] theorem RowRange.mem_toList :
    row ∈ r.toList ↔ r.start ≤ row ∧ row < r.stop := by
  rw [toList, List.mem_range'_1]
  omega

@[simp] theorem RowRange.mem_rows :
    row ∈ r.rows ↔ r.start ≤ row ∧ row < r.stop := Finset.mem_Ico

theorem RowRange.sortedLT_toList (r : RowRange) : r.toList.SortedLT :=
  List.sortedLT_range' _ _ one_ne_zero

theorem RowRange.sort_rows (r : RowRange) : r.rows.sort (· ≤ ·) = r.toList := sort_Ico _ _

variable {runs : List RowRange}

theorem mem_runRows :
    row ∈ runRows runs ↔ ∃ run ∈ runs, run.start ≤ row ∧ row < run.stop := by
  simp [runRows]

theorem RowRange.contains_iff :
    r.contains row = true ↔ row ∈ r.rows := by
  simp [contains]

variable {l : List RowId}

theorem IdsWithin.sort (h : IdsWithin baseLen l) : l.toFinset.sort (· ≤ ·) = l :=
  sort_toFinset h.ascending

theorem IdsWithin.of_sublist {l' : List RowId} (h : IdsWithin baseLen l) (hsub : l'.Sublist l) :
    IdsWithin baseLen l' :=
  ⟨sublist h.ascending hsub, fun id hid => h.inBase id (hsub.subset hid)⟩

theorem clamped_eq (hbase : baseLen ≤ usizeMax) (hr : r.Within baseLen) :
    clamped r baseLen = r := by
  obtain ⟨hle, hin⟩ := hr
  have hstart : min (usizeFrom r.start) baseLen = r.start := by
    unfold usizeFrom
    omega
  have hstop : min (usizeFrom r.stop) baseLen = r.stop := by
    unfold usizeFrom
    omega
  simp only [clamped, hstart, hstop, Nat.max_eq_left hle]

variable {s : RowSelection}

theorem asRows_run (hbase : baseLen ≤ usizeMax)
    (hs : s.Within baseLen) (h : s.asRows baseLen = .run r) :
    r.Within baseLen ∧ s.rows baseLen = r.rows := by
  cases s with
  | all =>
    injection h with h
    subst h
    refine ⟨⟨Nat.zero_le _, le_rfl⟩, ?_⟩
    simp [RowSelection.rows, RowRange.rows]
  | range q =>
    injection h with h
    rw [clamped_eq hbase hs] at h
    subst h
    exact ⟨hs, rfl⟩
  | ids l => cases h

theorem asRows_ids (hs : s.Within baseLen)
    (h : s.asRows baseLen = .ids l) : IdsWithin baseLen l ∧ s.rows baseLen = l.toFinset := by
  cases s with
  | all => cases h
  | range q => cases h
  | ids l' =>
    injection h with h
    subst h
    exact ⟨hs, rfl⟩

theorem rows_lt (hs : s.Within baseLen)
    (hrow : row ∈ s.rows baseLen) : row < baseLen := by
  cases s with
  | all => exact Finset.mem_range.mp hrow
  | range r => exact lt_of_lt_of_le (RowRange.mem_rows.mp hrow).2 hs.inBase
  | ids l => exact hs.inBase row (List.mem_toFinset.mp hrow)

theorem within_empty : RowSelection.empty.Within baseLen := ⟨le_rfl, Nat.zero_le _⟩

@[simp] theorem rows_empty : RowSelection.empty.rows baseLen = ∅ := Finset.Ico_self 0

theorem selects_ids (h : IdsWithin baseLen l) :
    Selects baseLen (some (.ids l)) l.toFinset := ⟨.ids l, rfl, h, rfl⟩

theorem selects_empty {rows : Finset ℕ} (h : rows = ∅) :
    Selects baseLen (some .empty) rows := ⟨_, rfl, within_empty, by rw [rows_empty, h]⟩

theorem fromIds_selects (h : IdsWithin baseLen l) :
    Selects baseLen (some (.fromIds l)) l.toFinset := by
  unfold RowSelection.fromIds
  split_ifs with hnil
  · exact selects_empty (by rw [hnil, List.toFinset_nil])
  · exact selects_ids h

/-! ### Positions among a selection's own rows -/

theorem sort_getElem?_iff {rows : Finset ℕ} {i : ℕ} :
    (rows.sort (· ≤ ·))[i]? = some row ↔ row ∈ rows ∧ rank rows row = i := by
  have hrank : ∀ i row, (rows.sort (· ≤ ·))[i]? = some row → rank rows row = i := by
    intro i row h
    obtain ⟨hi, hrow⟩ := List.getElem?_eq_some_iff.mp h
    -- the rows below the one at `i` are the `i` rows listed before it
    have hbelow : (rows.sort (· ≤ ·)).filter (fun a => decide (a < row)) =
        (rows.sort (· ≤ ·)).take i := by
      refine (filter rows.sortedLT_sort _).eq_of_mem_iff
        (sublist rows.sortedLT_sort (List.take_sublist _ _)) fun a => ?_
      rw [List.mem_filter, List.mem_take_iff_getElem]
      constructor
      · rintro ⟨hmem, hlt⟩
        obtain ⟨j, hj, rfl⟩ := List.getElem_of_mem hmem
        have hlt' : (rows.sort (· ≤ ·))[j] < (rows.sort (· ≤ ·))[i] := by simpa [hrow] using hlt
        have hji := rows.sortedLT_sort.getElem_lt_getElem_iff.mp hlt'
        exact ⟨j, by omega, rfl⟩
      · rintro ⟨j, hj, rfl⟩
        refine ⟨List.getElem_mem _, ?_⟩
        have hji : (rows.sort (· ≤ ·))[j] < (rows.sort (· ≤ ·))[i] :=
          rows.sortedLT_sort.getElem_lt_getElem_iff.mpr (by omega)
        simpa [hrow] using hji
    unfold rank
    rw [← Finset.length_sort (· ≤ ·), sort_filter, hbelow, List.length_take]
    omega
  constructor
  · intro h
    exact ⟨(Finset.mem_sort _).mp (List.mem_of_getElem? h), hrank i row h⟩
  · rintro ⟨hmem, rfl⟩
    obtain ⟨j, hj⟩ := List.getElem?_of_mem ((Finset.mem_sort (· ≤ ·)).mpr hmem)
    rw [hrank j row hj]
    exact hj

theorem rank_lt {rows : Finset ℕ} (h : row ∈ rows) : rank rows row < rows.card := by
  have hget := sort_getElem?_iff.mpr ⟨h, rfl⟩
  obtain ⟨hlt, -⟩ := List.getElem?_eq_some_iff.mp hget
  rwa [Finset.length_sort] at hlt

/-! ### Intersections -/

theorem restrictIds_eq (hl : l.SortedLT)
    (hr : r.start ≤ r.stop) : restrictIds l r = some (l.filter r.contains) := by
  rw [restrictIds, sliceOf_eq (partitionPoint_mono hl hr) (partitionPoint_le _ _),
    slice_between hl]
  rfl

theorem gallopIds_eq {short rest : List RowId} (hs : short.SortedLT) (hr : rest.SortedLT) :
    gallopIds short rest = short.filter fun id => decide (id ∈ rest) := by
  induction short generalizing rest with
  | nil => rfl
  | cons id short ih =>
    -- what the search skips lies below `id`, so below every later id
    have hlater : ∀ x ∈ short, (x ∈ rest.dropWhile fun other => decide (other < id)) ↔ x ∈ rest := by
      intro x hx
      rw [dropWhile_lt hr, List.mem_filter]
      simp [(head_lt hs hx).le]
    have hrest : (rest.dropWhile fun other => decide (other < id)).SortedLT :=
      sublist hr (List.dropWhile_sublist _)
    have htail : gallopIds short (rest.dropWhile fun other => decide (other < id)) =
        short.filter fun x => decide (x ∈ rest) := by
      rw [ih (Ascending.tail hs) hrest]
      exact List.filter_congr fun x hx => by simp only [hlater x hx]
    simp only [gallopIds, drop_partitionPoint, head?_dropWhile_lt hr, htail]
    by_cases hid : id ∈ rest
    · rw [if_pos hid, List.filter_cons_of_pos (by simpa using hid)]
    · rw [if_neg hid, List.filter_cons_of_neg (by simpa using hid)]

theorem mergeIds_eq {left right : List RowId} (hl : left.SortedLT) (hr : right.SortedLT) :
    mergeIds left right = left.filter fun id => decide (id ∈ right) := by
  induction left, right using mergeIds.induct with
  | case1 right => simp [mergeIds]
  | case2 a left => simp [mergeIds]
  | case3 a left b right hab ih =>
    have ha : a ∉ b :: right := by
      intro hmem
      rcases List.mem_cons.mp hmem with rfl | hmem
      · exact lt_irrefl _ hab
      · exact lt_asymm hab (head_lt hr hmem)
    rw [mergeIds, if_pos hab, ih (Ascending.tail hl) hr,
      List.filter_cons_of_neg (by simpa using ha)]
  | case4 a left b right hab hba ih =>
    -- `b` is below `a`, so below every id of the left list
    have hb : ∀ x ∈ a :: left, x ∈ b :: right ↔ x ∈ right := by
      intro x hx
      have hbx : b < x := by
        rcases List.mem_cons.mp hx with rfl | hx
        · exact hba
        · exact lt_trans hba (head_lt hl hx)
      simp [hbx.ne']
    rw [mergeIds, if_neg hab, if_pos hba, ih hl (Ascending.tail hr)]
    exact List.filter_congr fun x hx => by simp only [hb x hx]
  | case5 a left b right hab hba ih =>
    obtain rfl : a = b := le_antisymm (not_lt.mp hba) (not_lt.mp hab)
    have hrest : ∀ x ∈ left, x ∈ a :: right ↔ x ∈ right := by
      intro x hx
      simp [(head_lt hl hx).ne']
    rw [mergeIds, if_neg hab, if_neg hba, ih (Ascending.tail hl) (Ascending.tail hr),
      List.filter_cons_of_pos (by simp)]
    congr 1
    exact List.filter_congr fun x hx => by simp only [hrest x hx]

theorem intersectSortedIds_spec {left right : List RowId} (hl : left.SortedLT)
    (hr : right.SortedLT) : (intersectSortedIds left right).SortedLT ∧
      (intersectSortedIds left right).toFinset = left.toFinset ∩ right.toFinset := by
  -- each of the two ways keeps the ids of one list that the other holds
  have hkept : ∀ {a b : List RowId}, a.SortedLT →
      (a.filter fun id => decide (id ∈ b)).SortedLT ∧
        (a.filter fun id => decide (id ∈ b)).toFinset = a.toFinset ∩ b.toFinset := by
    intro a b ha
    refine ⟨Ascending.filter ha _, ?_⟩
    ext row
    simp
  unfold intersectSortedIds
  by_cases hlen : left.length ≤ right.length
  · simp only [if_pos hlen]
    split_ifs with hgallop
    · rw [gallopIds_eq hl hr]
      exact hkept hl
    · rw [mergeIds_eq hl hr]
      exact hkept hl
  · simp only [if_neg hlen]
    split_ifs with hgallop
    · rw [gallopIds_eq hr hl, Finset.inter_comm]
      exact hkept hr
    · rw [mergeIds_eq hl hr]
      exact hkept hl

theorem restrictIds_selects (hl : IdsWithin baseLen l)
    (hr : r.Within baseLen) :
    Selects baseLen ((restrictIds l r).map .ids) (l.toFinset ∩ r.rows) := by
  rw [restrictIds_eq hl.ascending hr.ordered]
  refine ⟨_, rfl, hl.of_sublist List.filter_sublist, ?_⟩
  ext row
  simp only [RowSelection.rows, List.mem_toFinset, List.mem_filter, Finset.mem_inter,
    RowRange.contains_iff]

theorem intersectRange_selects (hs : s.Within baseLen)
    (hr : r.Within baseLen) :
    Selects baseLen (s.intersectRange r) (s.rows baseLen ∩ r.rows) := by
  cases s with
  | all =>
    refine ⟨.range r, rfl, hr, ?_⟩
    ext row
    have := hr.inBase
    simp only [RowSelection.rows, Finset.mem_inter, Finset.mem_range, RowRange.mem_rows]
    omega
  | range current =>
    obtain ⟨hle, hin⟩ := hr
    obtain ⟨hle', hin'⟩ := (show current.Within baseLen from hs)
    refine ⟨_, rfl, ⟨le_max_right _ _, by simp only; omega⟩, ?_⟩
    ext row
    simp only [RowSelection.rows, Finset.mem_inter, RowRange.mem_rows]
    omega
  | ids l => exact restrictIds_selects hs hr

theorem intersectIds_selects (hs : s.Within baseLen)
    (hl : IdsWithin baseLen l) :
    Selects baseLen (s.intersectIds l) (s.rows baseLen ∩ l.toFinset) := by
  cases s with
  | all =>
    refine ⟨.ids l, rfl, hl, ?_⟩
    refine (Finset.inter_eq_right.mpr ?_).symm
    intro row hrow
    exact Finset.mem_range.mpr (hl.inBase row (List.mem_toFinset.mp hrow))
  | range r =>
    rw [Finset.inter_comm]
    exact restrictIds_selects hl hs
  | ids current =>
    obtain ⟨hsorted, hrows⟩ :=
      intersectSortedIds_spec (IdsWithin.ascending hs) hl.ascending
    refine ⟨_, rfl, ⟨hsorted, fun id hid => ?_⟩, hrows⟩
    have hmem := List.mem_toFinset.mpr hid
    rw [hrows, Finset.mem_inter] at hmem
    exact hl.inBase id (List.mem_toFinset.mp hmem.2)

/-! ### Runs -/

theorem RunsWithin.tail {run : RowRange}
    (h : RunsWithin baseLen (run :: runs)) : RunsWithin baseLen runs :=
  ⟨fun r hr => h.within r (List.mem_cons_of_mem _ hr), h.ascending.of_cons⟩

/-- The later runs begin where `run` ends or after it. -/
theorem RunsWithin.le_of_mem {run : RowRange}
    (h : RunsWithin baseLen (run :: runs)) (hrow : row ∈ runRows runs) : run.stop ≤ row := by
  obtain ⟨r, hr, hle, -⟩ := mem_runRows.mp hrow
  exact le_trans (List.rel_of_pairwise_cons h.ascending hr) hle

theorem RunsWithin.idsWithin (h : RunsWithin baseLen runs) :
    IdsWithin baseLen (runs.flatMap RowRange.toList) := by
  constructor
  · induction runs with
    | nil => exact List.Pairwise.nil.sortedLT
    | cons run runs ih =>
      rw [List.flatMap_cons]
      refine List.Pairwise.sortedLT (List.pairwise_append.mpr
        ⟨run.sortedLT_toList.pairwise, (ih h.tail).pairwise, fun a ha b hb => ?_⟩)
      exact lt_of_lt_of_le (RowRange.mem_toList.mp ha).2
        (h.le_of_mem (List.mem_toFinset.mpr hb))
  · intro id hid
    obtain ⟨run, hrun, hid⟩ := List.mem_flatMap.mp hid
    exact lt_of_lt_of_le (RowRange.mem_toList.mp hid).2 (h.within run hrun).inBase

theorem mem_runRows_cons {run : RowRange} :
    row ∈ runRows (run :: runs) ↔ row ∈ run.rows ∨ row ∈ runRows runs := by
  simp [mem_runRows]

/-- The windows of the ids cut from `start` on hold the ids there that some run
covers. -/
theorem idWindows_spec {slice : List RowId} (hslice : slice.SortedLT)
    (hruns : RunsWithin baseLen runs) (start : ℕ) :
    ∃ parts, (idWindows slice start runs).mapM (fun w => sliceOf slice w.start w.stop) =
        some parts ∧
      parts.flatten = (slice.drop start).filter fun id => decide (id ∈ runRows runs) := by
  induction runs generalizing start with
  | nil => exact ⟨[], rfl, by simp [runRows]⟩
  | cons run runs ih =>
    have hord := (hruns.within run List.mem_cons_self).ordered
    set rest := slice.drop start with hrest
    have hsorted : rest.SortedLT := sublist hslice (List.drop_sublist _ _)
    set lo := start + partitionPoint (fun id => decide (id < run.start)) rest with hlo
    have hdropLo : slice.drop lo = rest.filter fun id => decide (run.start ≤ id) := by
      rw [hlo, ← List.drop_drop, ← hrest, drop_partitionPoint, dropWhile_lt hsorted]
    set hi := lo + partitionPoint (fun id => decide (id < run.stop)) (slice.drop lo) with hhi
    have hsortedLo : (slice.drop lo).SortedLT := sublist hslice (List.drop_sublist _ _)
    have hdropHi : slice.drop hi = rest.filter fun id => decide (run.stop ≤ id) := by
      rw [hhi, ← List.drop_drop, drop_partitionPoint, dropWhile_lt hsortedLo, hdropLo,
        List.filter_filter]
      refine List.filter_congr fun id _ => ?_
      by_cases hid : run.stop ≤ id
      · simp [hid, le_trans hord hid]
      · simp [hid]
    have hwindow : (slice.drop lo).take (hi - lo) = rest.filter run.contains := by
      rw [hhi, Nat.add_sub_cancel_left, take_partitionPoint, takeWhile_lt hsortedLo, hdropLo,
        List.filter_filter]
      refine List.filter_congr fun id _ => ?_
      rw [RowRange.contains, Bool.and_comm]
    obtain ⟨parts, hparts, hflat⟩ := ih hruns.tail hi
    -- the ids of `run` come before those of the later runs
    have hsplit : rest.filter (fun id => decide (id ∈ runRows (run :: runs))) =
        rest.filter run.contains ++ parts.flatten := by
      rw [hflat, hdropHi, List.filter_filter]
      refine (Ascending.filter hsorted _).eq_of_mem_iff (List.Pairwise.sortedLT
        (List.pairwise_append.mpr ⟨(Ascending.filter hsorted _).pairwise,
          (Ascending.filter hsorted _).pairwise, fun a ha b hb => ?_⟩)) fun id => ?_
      · have ha' := (List.mem_filter.mp ha).2
        have hb' := (List.mem_filter.mp hb).2
        rw [RowRange.contains_iff, RowRange.mem_rows] at ha'
        simp only [Bool.and_eq_true, decide_eq_true_eq] at hb'
        exact lt_of_lt_of_le ha'.2 hb'.2
      · simp only [List.mem_append, List.mem_filter, decide_eq_true_eq, mem_runRows_cons,
          RowRange.contains_iff, Bool.and_eq_true]
        have hle : id ∈ runRows runs → run.stop ≤ id := hruns.le_of_mem
        tauto
    by_cases hlt : lo < hi
    · refine ⟨rest.filter run.contains :: parts, ?_, ?_⟩
      · have hle : hi ≤ slice.length := by
          have := partitionPoint_le (fun id => decide (id < run.stop)) (slice.drop lo)
          have hlen : (slice.drop lo).length = slice.length - lo := List.length_drop
          omega
        simp only [idWindows, ← hrest, ← hlo, ← hhi, if_pos hlt, List.mapM_cons,
          sliceOf_eq hlt.le hle, hwindow, hparts]
        rfl
      · rw [List.flatten_cons, hsplit]
    · refine ⟨parts, ?_, ?_⟩
      · simp only [idWindows, ← hrest, ← hlo, ← hhi, if_neg hlt, hparts]
      · have hnil : rest.filter run.contains = [] := by
          rw [← hwindow, Nat.sub_eq_zero_of_le (not_lt.mp hlt), List.take_zero]
        rw [hsplit, hnil, List.nil_append]

theorem clip_spec (w : RowRange) (h : RunsWithin baseLen runs) :
    RunsWithin baseLen (clip w runs) ∧ (∀ run ∈ clip w runs, run.start < run.stop) ∧
      runRows (clip w runs) = runRows runs ∩ w.rows := by
  have hmem : ∀ run, run ∈ clip w runs ↔
      (∃ r ∈ runs, (⟨max r.start w.start, min r.stop w.stop⟩ : RowRange) = run) ∧
        run.start < run.stop := by
    intro run
    simp [clip]
  refine ⟨⟨?_, ?_⟩, fun run hrun => ((hmem run).mp hrun).2, ?_⟩
  · intro run hrun
    obtain ⟨⟨r, hr, rfl⟩, hlt⟩ := (hmem run).mp hrun
    exact ⟨hlt.le, le_trans (min_le_left _ _) (h.within r hr).inBase⟩
  · refine List.Pairwise.filter _ (List.pairwise_map.mpr (h.ascending.imp fun hab => ?_))
    exact le_trans (min_le_left _ _) (le_trans hab (le_max_left _ _))
  · ext row
    simp only [Finset.mem_inter, mem_runRows, RowRange.mem_rows]
    constructor
    · rintro ⟨run, hrun, hrow⟩
      obtain ⟨⟨r, hr, rfl⟩, -⟩ := (hmem run).mp hrun
      obtain ⟨hlo, hhi⟩ := hrow
      exact ⟨⟨r, hr, le_trans (le_max_left _ _) hlo, lt_of_lt_of_le hhi (min_le_left _ _)⟩,
        le_trans (le_max_right _ _) hlo, lt_of_lt_of_le hhi (min_le_right _ _)⟩
    · rintro ⟨⟨r, hr, hlo, hhi⟩, hwlo, hwhi⟩
      have hlo' : max r.start w.start ≤ row := max_le hlo hwlo
      have hhi' : row < min r.stop w.stop := lt_min hhi hwhi
      exact ⟨_, (hmem _).mpr ⟨⟨r, hr, rfl⟩, lt_of_le_of_lt hlo' hhi'⟩, hlo', hhi'⟩

theorem clipRuns_spec (hbase : baseLen ≤ usizeMax) (hs : s.Within baseLen)
    {clipped : List RowRange} (h : RunsWithin baseLen runs)
    (hclip : s.clipRuns runs = some clipped) :
    RunsWithin baseLen clipped ∧ (∀ run ∈ clipped, run.start < run.stop) ∧
      runRows clipped = s.rows baseLen ∩ runRows runs := by
  cases s with
  | all =>
    injection hclip with hclip
    subst hclip
    obtain ⟨hwithin, hlt, hrows⟩ := clip_spec ⟨0, usizeMax⟩ h
    refine ⟨hwithin, hlt, ?_⟩
    rw [hrows, Finset.inter_comm]
    ext row
    simp only [Finset.mem_inter, RowRange.mem_rows, RowSelection.rows, Finset.mem_range]
    constructor
    · rintro ⟨-, hrow⟩
      obtain ⟨run, hrun, -, hhi⟩ := mem_runRows.mp hrow
      exact ⟨lt_of_lt_of_le hhi (h.within run hrun).inBase, hrow⟩
    · rintro ⟨hlt', hrow⟩
      exact ⟨⟨Nat.zero_le _, lt_of_lt_of_le hlt' hbase⟩, hrow⟩
  | range r =>
    injection hclip with hclip
    subst hclip
    obtain ⟨hwithin, hlt, hrows⟩ := clip_spec r h
    exact ⟨hwithin, hlt, by rw [hrows, Finset.inter_comm]; rfl⟩
  | ids l => cases hclip

theorem fromClipped_selects {clipped : List RowRange} (h : RunsWithin baseLen clipped) :
    Selects baseLen (some (.fromClipped clipped)) (runRows clipped) := by
  rcases clipped with _ | ⟨run, _ | ⟨run', clipped⟩⟩
  · exact selects_empty rfl
  · refine ⟨_, rfl, h.within run List.mem_cons_self, ?_⟩
    ext row
    simp [RowSelection.fromClipped, RowSelection.rows, mem_runRows]
  · exact selects_ids h.idsWithin

theorem intersectRuns_selects (hbase : baseLen ≤ usizeMax)
    (hs : s.Within baseLen) (h : RunsWithin baseLen runs) :
    Selects baseLen (s.intersectRuns runs) (s.rows baseLen ∩ runRows runs) := by
  cases hclip : s.clipRuns runs with
  | some clipped =>
    obtain ⟨hwithin, -, hrows⟩ := clipRuns_spec hbase hs h hclip
    have hruns : s.intersectRuns runs = some (.fromClipped clipped) := by
      cases s with
      | ids l => cases hclip
      | all => simp only [RowSelection.intersectRuns, hclip, Option.map_some]
      | range r => simp only [RowSelection.intersectRuns, hclip, Option.map_some]
    rw [hruns, ← hrows]
    exact fromClipped_selects hwithin
  | none =>
    cases s with
    | all => cases hclip
    | range r => cases hclip
    | ids l =>
      obtain ⟨parts, hparts, hflat⟩ := idWindows_spec (IdsWithin.ascending hs) h 0
      have hrows : parts.flatten.toFinset = (RowSelection.ids l).rows baseLen ∩ runRows runs := by
        rw [hflat, List.drop_zero]
        ext row
        simp [RowSelection.rows]
      have hids : IdsWithin baseLen parts.flatten := by
        rw [hflat, List.drop_zero]
        exact IdsWithin.of_sublist hs List.filter_sublist
      rw [← hrows]
      rcases hw : idWindows l 0 runs with _ | ⟨w, _ | ⟨w', windows⟩⟩
      · rw [hw] at hparts
        injection hparts with hparts
        simp only [RowSelection.intersectRuns, hw, ← hparts]
        exact selects_empty rfl
      · rw [hw] at hparts
        obtain ⟨part, hpart, hone⟩ := Option.bind_eq_some_iff.mp hparts
        obtain rfl : [part] = parts := Option.some_inj.mp hone
        rw [List.flatten_singleton] at hids ⊢
        simp only [RowSelection.intersectRuns, hw, hpart, Option.map_some]
        exact selects_ids hids
      · rw [hw] at hparts
        simp only [RowSelection.intersectRuns, hw, hparts, Option.map_some]
        exact selects_ids hids

/-! ### Membership and cardinality -/

theorem len_eq_card (hbase : baseLen ≤ usizeMax) (hs : s.Within baseLen) :
    s.len baseLen = (s.rows baseLen).card := by
  cases s with
  | all => exact (Finset.card_range _).symm
  | range r =>
    have := hs.inBase
    rw [RowSelection.rows, RowRange.rows, Nat.card_Ico, RowSelection.len, usizeFrom]
    omega
  | ids l => exact (card_toFinset (IdsWithin.ascending hs)).symm

theorem contains_iff (hs : s.Within baseLen) (hrow : row < baseLen) :
    s.contains row = true ↔ row ∈ s.rows baseLen := by
  cases s with
  | all => simp [RowSelection.contains, RowSelection.rows, hrow]
  | range r => exact RowRange.contains_iff
  | ids l =>
    have hl := IdsWithin.ascending hs
    rw [RowSelection.contains, drop_partitionPoint, beq_iff_eq, head?_dropWhile_lt hl]
    exact List.mem_toFinset.symm

/-! ### Filters -/

theorem listing_run (hbase : baseLen ≤ usizeMax)
    (hs : s.Within baseLen) (h : s.asRows baseLen = .run r) : s.listing baseLen = r.toList := by
  rw [RowSelection.listing, (asRows_run hbase hs h).2, RowRange.sort_rows]

theorem listing_ids (hs : s.Within baseLen)
    (h : s.asRows baseLen = .ids l) : s.listing baseLen = l := by
  rw [RowSelection.listing, (asRows_ids hs h).2, (asRows_ids hs h).1.sort]

theorem listing_idsWithin (hs : s.Within baseLen) :
    IdsWithin baseLen (s.listing baseLen) :=
  ⟨Finset.sortedLT_sort _, fun _ hid => rows_lt hs ((Finset.mem_sort _).mp hid)⟩

@[simp] theorem listing_toFinset (s : RowSelection) :
    (s.listing baseLen).toFinset = s.rows baseLen := Finset.sort_toFinset _ _

theorem filterRows_eq (hbase : baseLen ≤ usizeMax) (hs : s.Within baseLen)
    (keep : ℕ → Bool) : s.filterRows baseLen keep = (s.listing baseLen).filter keep := by
  unfold RowSelection.filterRows
  cases h : s.asRows baseLen with
  | run r => rw [listing_run hbase hs h]
  | ids l => rw [listing_ids hs h]

theorem ids_bounds (hl : l.SortedLT) {first last : ℕ}
    (hfirst : l.head? = some first) (hlast : l.getLast? = some last) {id : ℕ} (hid : id ∈ l) :
    first ≤ id ∧ id ≤ last := by
  constructor
  · obtain ⟨rest, rfl⟩ := List.head?_eq_some_iff.mp hfirst
    rcases List.mem_cons.mp hid with rfl | hid
    · exact le_rfl
    · exact (head_lt hl hid).le
  · obtain ⟨rest, rfl⟩ := List.getLast?_eq_some_iff.mp hlast
    rcases List.mem_append.mp hid with hid | hid
    · exact ((List.pairwise_append.mp hl.pairwise).2.2 id hid last List.mem_cons_self).le
    · exact (List.mem_singleton.mp hid).le

/-- Ids with as many members as their span are the whole span. -/
theorem contiguous_rows (hl : l.SortedLT) {first last : ℕ}
    (hfirst : l.head? = some first) (hlast : l.getLast? = some last)
    (hspan : last - first + 1 = l.length) :
    (⟨first, last + 1⟩ : RowRange).rows = l.toFinset := by
  symm
  have hle := (ids_bounds hl hfirst hlast (List.mem_of_getLast? hlast)).1
  refine Finset.eq_of_subset_of_card_le (fun id hid => ?_) ?_
  · have hid' := ids_bounds hl hfirst hlast (List.mem_toFinset.mp hid)
    exact RowRange.mem_rows.mpr ⟨hid'.1, Nat.lt_succ_of_le hid'.2⟩
  · rw [card_toFinset hl, RowRange.rows, Nat.card_Ico]
    simp only
    omega

theorem narrowToIds_selects (hbase : baseLen ≤ usizeMax)
    (hs : s.Within baseLen) (hl : l.SortedLT)
    (hsub : l.toFinset ⊆ s.rows baseLen) :
    Selects baseLen (some (s.narrowToIds l (s.len baseLen))) l.toFinset := by
  have hids : IdsWithin baseLen l :=
    ⟨hl, fun id hid => rows_lt hs (hsub (List.mem_toFinset.mpr hid))⟩
  unfold RowSelection.narrowToIds
  cases hfirst : l.head? with
  | none =>
    rw [List.head?_eq_none_iff] at hfirst
    exact selects_empty (by rw [hfirst, List.toFinset_nil])
  | some first =>
    cases hlast : l.getLast? with
    | none =>
      rw [List.getLast?_eq_none_iff] at hlast
      exact selects_empty (by rw [hlast, List.toFinset_nil])
    | some last =>
      simp only
      by_cases hlen : l.length = s.len baseLen
      · rw [if_pos hlen]
        refine ⟨s, rfl, hs, (Finset.eq_of_subset_of_card_le hsub ?_).symm⟩
        rw [card_toFinset hl, hlen, len_eq_card hbase hs]
      · rw [if_neg hlen]
        have hstretch : last - first + 1 = l.length →
            Selects baseLen (some (.range ⟨first, last + 1⟩)) l.toFinset := by
          intro hspan
          have hle := (ids_bounds hl hfirst hlast (List.mem_of_getLast? hlast)).1
          exact ⟨_, rfl, ⟨Nat.le_succ_of_le hle, hids.inBase last (List.mem_of_getLast? hlast)⟩,
            contiguous_rows hl hfirst hlast hspan⟩
        by_cases hspan : last - first + 1 = l.length
        · cases s with
          | all => simpa [hspan] using hstretch hspan
          | range r => simpa [hspan] using hstretch hspan
          | ids l' => simpa [hspan] using selects_ids hids
        · cases s with
          | all => simpa [hspan] using selects_ids hids
          | range r => simpa [hspan] using selects_ids hids
          | ids l' => simpa [hspan] using selects_ids hids

end Store
