/-
The row ids of an index resolution, computed by the first reader that needs them.

A resolution hands back the run of its component beside the row ids it holds, in the
component's order; a reader that needs base order sorts them once.  A run checked
against its graph counts and finds its matches on demand.

* `sortUniqueIds` — ids left as they are, compared, or set in a bitmap and read back;
* `ComponentRun`, `CheckedRun`, `LazyRowIds` — the recipes, with what they have computed
  so far;
* `LazyRowIds.Holds` — what a recipe has kept is right;
* `materialized_spec`, `count_spec`, `countCapped_spec`, `window_spec` — each answer is
  that of the run's ids, whatever was asked before.

`none` stands for a panic or an error of the array library.
-/
import VortexRdf.GraphChecks
import VortexRdf.SetBits

namespace Indexes

open Ascending Buffers Builds Masks MaskOps Terms
open EncodedSearch (FastLanes)
open Store hiding Row

/-! ### Sorting unique ids -/

inductive SortPath where
  | ascending
  | compared
  | bitmap
deriving DecidableEq

def BITMAP_BITS_PER_ID : ℕ := 64

/-- Unique row ids sorted, and how: left as they are when they ascend, set as bits of a
bitmap over their span when that is under a word an id, compared otherwise. -/
def sortUniqueIds (ids : List RowId) : SortPath × Option (List RowId) :=
  if ids.SortedLE then (.ascending, some ids)
  else
    let span := ids.foldl (fun span id => (min span.1 id, max span.2 id)) (ROW_ID_MAX, 0)
    let reach := span.2 - span.1
    if ids.length ≤ reach / BITMAP_BITS_PER_ID then (.compared, some (ids.mergeSort (· ≤ ·)))
    else
      let words := Bits.setAll 64 (List.replicate (reach / 64 + 1) 0) (ids.map (· - span.1))
      -- the bits read back overwrite the ids from the first on
      (.bitmap, writeAt ids 0 ((Bits.listed 64 words).map (span.1 + ·)))

/-- The ids in base order. -/
def inOrder (ids : List RowId) : List RowId := ids.mergeSort (· ≤ ·)

theorem inOrder_perm (ids : List RowId) : (inOrder ids).Perm ids := List.mergeSort_perm ids _

theorem inOrder_sorted {ids : List RowId} (h : ids.Nodup) : (inOrder ids).SortedLT :=
  List.sortedLE_mergeSort.sortedLT_of_nodup ((inOrder_perm ids).nodup_iff.mpr h)

theorem inOrder_eq {ids l : List RowId} (hperm : ids.Perm l) (hl : l.SortedLT) : inOrder ids = l :=
  mergeSort_eq_of_perm hperm hl

theorem inOrder_of_sorted {ids : List RowId} (h : ids.SortedLT) : inOrder ids = ids :=
  inOrder_eq (List.Perm.refl ids) h

/-- The span of some ids, folded, holds them all. -/
theorem span_spec {ids : List RowId} {span : ℕ × ℕ} :
    (ids.foldl (fun span id => (min span.1 id, max span.2 id)) span).1 ≤ span.1 ∧
    span.2 ≤ (ids.foldl (fun span id => (min span.1 id, max span.2 id)) span).2 ∧
    ∀ id ∈ ids, (ids.foldl (fun span id => (min span.1 id, max span.2 id)) span).1 ≤ id ∧
      id ≤ (ids.foldl (fun span id => (min span.1 id, max span.2 id)) span).2 := by
  induction ids generalizing span with
  | nil => exact ⟨le_rfl, le_rfl, fun id hid => absurd hid List.not_mem_nil⟩
  | cons a ids ih =>
    rw [List.foldl_cons]
    obtain ⟨hlo, hhi, hall⟩ := @ih (min span.1 a, max span.2 a)
    dsimp only at hlo hhi
    refine ⟨hlo.trans (min_le_left _ _), (le_max_left _ _).trans hhi, fun id hid => ?_⟩
    rcases List.mem_cons.mp hid with rfl | hid
    · exact ⟨hlo.trans (min_le_right _ _), (le_max_right _ _).trans hhi⟩
    · exact hall id hid

/-- Ids within a span, set in a bitmap over it and read back. -/
theorem bitmap_spec {ids : List RowId} (hnodup : ids.Nodup) {lo reach : ℕ}
    (hspan : ∀ id ∈ ids, lo ≤ id ∧ id ≤ lo + reach) :
    (Bits.listed 64 (Bits.setAll 64 (List.replicate (reach / 64 + 1) 0) (ids.map (· - lo)))).map
      (lo + ·) = inOrder ids := by
  have hzero : Bits.Fits 64 (List.replicate (reach / 64 + 1) 0) := by
    intro word hword i hi
    rw [List.eq_of_mem_replicate hword, Nat.zero_testBit] at hi
    cases hi
  rw [Bits.listed_eq (Bits.fits_setAll (by decide) hzero _), Bits.length_setAll,
    List.length_replicate]
  have hbit : ∀ b ∈ List.range ((reach / 64 + 1) * 64),
      Bits.bitAt 64 (Bits.setAll 64 (List.replicate (reach / 64 + 1) 0) (ids.map (· - lo))) b =
        decide (b ∈ ids.map (· - lo)) := by
    intro b hb
    have hplace : b / 64 < reach / 64 + 1 := by
      have := List.mem_range.mp hb
      omega
    rw [Bits.bitAt_setAll _ (by rwa [List.length_replicate]), Bits.bitAt,
      List.getD_replicate _ hplace, Nat.zero_testBit, Bool.false_or]
  rw [List.filter_congr hbit]
  refine (inOrder_eq ?_ ?_).symm
  · refine (List.perm_ext_iff_of_nodup hnodup ?_).mpr fun id => ?_
    · exact (List.nodup_range.filter _).map fun a b h => Nat.add_left_cancel h
    · simp only [List.mem_map, List.mem_filter, List.mem_range, decide_eq_true_eq]
      constructor
      · intro hid
        have hle := hspan id hid
        have hreach : reach < (reach / 64 + 1) * 64 := by omega
        have hbit : id - lo ≤ reach := Nat.sub_le_iff_le_add'.mpr hle.2
        exact ⟨id - lo, ⟨lt_of_le_of_lt hbit hreach, id, hid, rfl⟩, Nat.add_sub_cancel' hle.1⟩
      · rintro ⟨b, ⟨-, id', hid', rfl⟩, rfl⟩
        have hle := hspan id' hid'
        rwa [Nat.add_sub_cancel' hle.1]
  · have hsorted := (List.sortedLT_range ((reach / 64 + 1) * 64)).pairwise.sublist
      (@List.filter_sublist _ (fun b => decide (b ∈ ids.map (· - lo))) _)
    exact (List.pairwise_map.mpr (hsorted.imp fun h => Nat.add_lt_add_left h lo)).sortedLT

/-- Unique ids come back in base order whichever way they are sorted. -/
theorem sortUniqueIds_eq {ids : List RowId} (hnodup : ids.Nodup) :
    (sortUniqueIds ids).2 = some (inOrder ids) := by
  rw [sortUniqueIds]
  split_ifs with hsorted
  · exact congrArg some (inOrder_of_sorted (hsorted.sortedLT_of_nodup hnodup)).symm
  · obtain ⟨-, -, hall⟩ := @span_spec ids (ROW_ID_MAX, 0)
    dsimp only
    generalize ids.foldl (fun span id => (min span.1 id, max span.2 id)) (ROW_ID_MAX, 0) = span at hall ⊢
    split_ifs
    · rfl
    · have hspan : ∀ id ∈ ids, span.1 ≤ id ∧ id ≤ span.1 + (span.2 - span.1) := by
        intro id hid
        have hle := hall id hid
        rw [Nat.add_sub_cancel' (hle.1.trans hle.2)]
        exact hle
      dsimp only
      have hlen := (inOrder_perm ids).length_eq
      rw [bitmap_spec hnodup hspan, writeAt, if_pos (by rw [hlen, Nat.zero_add]), hlen,
        List.take_zero, List.nil_append, Nat.zero_add, List.drop_length, List.append_nil]

/-! ### Recipes -/

/-- The base rows a row id column names, in the column's order. -/
def runOrderRowIds (rids : List RowId) : List RowId := rids.map baseRow

/-- The base rows a row id column names, in base order. -/
def sortedRowIds (rids : List RowId) : Option (List RowId) :=
  if rids.isEmpty then some [] else (sortUniqueIds (rids.map baseRow)).2

def sortedCopy (ids : List RowId) : Option (List RowId) := (sortUniqueIds ids).2

/-- The rows of a window of a run, clamped to it; none when it holds no row. -/
def windowRows (offset limit width : ℕ) : Option RowRange :=
  let start := min offset width
  let stop := min (saturatingAdd offset limit) width
  if start < stop then some ⟨start, stop⟩ else none

/-- A component's run of row ids, with the ids it has decoded so far. -/
structure ComponentRun where
  rids : List RowId
  ascending : Bool
  sorted : Option (List RowId)
  runOrder : Option (List RowId)

namespace ComponentRun

def new (rids : List RowId) (ascending : Bool) : ComponentRun := ⟨rids, ascending, none, none⟩

/-- The run's ids in the component's order, decoded once. -/
def runOrderIds (run : ComponentRun) : List RowId × ComponentRun :=
  match run.runOrder with
  | some ids => (ids, run)
  | none => (runOrderRowIds run.rids, { run with runOrder := some (runOrderRowIds run.rids) })

/-- The run's ids in base order, from the decoded ones where there are any. -/
def sortedIds (run : ComponentRun) : Option (List RowId) :=
  match run.runOrder with
  | some ids => sortedCopy ids
  | none => sortedRowIds run.rids

end ComponentRun

/-- A component's run that keeps the rows of its graph, with what it has found so far. -/
structure CheckedRun where
  rids : List RowId
  ascending : Bool
  check : GraphCheck
  count : Option ℕ
  runOrder : Option (List RowId)
  sorted : Option (List RowId)

namespace CheckedRun

variable (fl : FastLanes) (M : Type*) [MaskOps M]

def new (rids : List RowId) (ascending : Bool) (check : GraphCheck) : CheckedRun :=
  ⟨rids, ascending, check, none, none, none⟩

/-- How many rows match, when known without counting. -/
def knownLen (run : CheckedRun) : Option ℕ :=
  run.count <|> (run.sorted <|> run.runOrder).map List.length

def counted (run : CheckedRun) : Option (ℕ × CheckedRun) :=
  match run.knownLen with
  | some known => some (known, run)
  | none => (run.check.count fl M).map fun count => (count, { run with count := some count })

def countCapped (run : CheckedRun) (limit : ℕ) : Option ℕ :=
  (match run.knownLen with
    | some known => some known
    | none => run.check.countCapped fl M limit).map (min · limit)

/-- The matches' ids in the component's order, found once. -/
def runOrderIds (run : CheckedRun) : Option (List RowId × CheckedRun) :=
  match run.runOrder with
  | some ids => some (ids, run)
  | none => (run.check.ids fl M run.rids).map fun ids => (ids, { run with runOrder := some ids })

/-- A window of the matches of a run whose ids ascend. -/
def window (run : CheckedRun) (offset limit : ℕ) : Option (List RowId × Live) :=
  match run.sorted <|> run.runOrder with
  | some ids =>
    let rows := (windowRows offset limit ids.length).getD ⟨0, 0⟩
    (sliceOf ids rows.start rows.stop).map fun page => (page, .exact ids.length)
  | none => run.check.window fl M run.rids offset limit

end CheckedRun

/-- The row ids of an index resolution in memory. -/
inductive LazyRowIds where
  | component (run : ComponentRun)
  | checked (run : CheckedRun)
  /-- A narrowed served view's live rows, in any order. -/
  | unsorted (ids : List RowId) (sorted : Option (List RowId))

namespace LazyRowIds

variable (fl : FastLanes) (M : Type*) [MaskOps M]

def fromUnsortedIds (ids : List RowId) : LazyRowIds := .unsorted ids none

/-- The ids in base order, computed on the first call. -/
def materialized : LazyRowIds → Option (List RowId × LazyRowIds)
  | component run =>
    match run.sorted with
    | some ids => some (ids, component run)
    | none =>
      run.sortedIds.map fun ids => (ids, component { run with sorted := some ids })
  | checked run =>
    match run.sorted with
    | some ids => some (ids, checked run)
    | none =>
      (run.runOrderIds fl M).bind fun found =>
        (if run.ascending || found.1.SortedLE then some found.1 else sortedCopy found.1).map
          fun ids => (ids, checked { found.2 with sorted := some ids })
  | unsorted ids sorted =>
    match sorted with
    | some sorted => some (sorted, unsorted ids (some sorted))
    | none => (sortedCopy ids).map fun sorted => (sorted, unsorted ids (some sorted))

/-- How many rows the ids cover, when known without counting. -/
def lenIfKnown : LazyRowIds → Option ℕ
  | component run => some run.rids.length
  | checked run => run.knownLen
  | unsorted ids _ => some ids.length

def count : LazyRowIds → Option (Option ℕ × LazyRowIds)
  | checked run => (run.counted fl M).map fun counted => (some counted.1, checked counted.2)
  | ids => some (ids.lenIfKnown, ids)

/-- The count of a checked run up to a limit; none for other ids. -/
def countCapped (limit : ℕ) : LazyRowIds → Option (Option ℕ)
  | checked run => (run.countCapped fl M limit).map some
  | _ => some none

/-- The ids of a window of a run whose ids ascend, in base order; none for other ids. -/
def window (offset limit : ℕ) : LazyRowIds → Option (Option (List RowId))
  | component run =>
    if run.ascending then
      match windowRows offset limit run.rids.length with
      | some rows =>
        ((sliceOf run.rids rows.start rows.stop).bind sortedRowIds).map some
      | none => some (some [])
    else some none
  | checked run =>
    if run.ascending then (run.window fl M offset limit).map fun found => some found.1 else some none
  | unsorted _ _ => some none

/-- A window beside the rows the ids cover as far as they are known. -/
def windowWithLive (offset limit : ℕ) : LazyRowIds → Option (Option (List RowId × Live))
  | checked run => if run.ascending then (run.window fl M offset limit).map some else some none
  | ids =>
    match ids.lenIfKnown with
    | none => some none
    | some live => (ids.window fl M offset limit).map fun found =>
        found.map fun page => (page, .exact live)

/-- How many of the ids a mask leaves live, never sorted; a narrowed view's all are. -/
def liveLenWithoutIo (deleted : M) : LazyRowIds → Option (Option ℕ × LazyRowIds)
  | unsorted ids sorted => some (some ids.length, unsorted ids sorted)
  | component run =>
    let found := match run.sorted with
      | some ids => (ids, run)
      | none => run.runOrderIds
    some (some (found.1.filter fun id => !value deleted id).length, component found.2)
  | checked run =>
    (match run.sorted with
      | some ids => some (ids, run)
      | none => run.runOrderIds fl M).map fun found : List RowId × CheckedRun =>
        (some (found.1.filter fun id => !value deleted id).length, checked found.2)

end LazyRowIds

/-! ### What a recipe has kept -/

/-- What a cell holds, if anything, is `v`. -/
def Kept {α : Type} (cell : Option α) (v : α) : Prop := ∀ x, cell = some x → x = v

theorem kept_none {α : Type} (v : α) : Kept none v := by
  intro x h
  cases h

theorem kept_some {α : Type} (v : α) : Kept (some v) v := fun _ h => (Option.some.inj h).symm

structure ComponentRun.Holds (ids : List RowId) (run : ComponentRun) : Prop where
  rids_eq : run.rids = ids
  ascends : run.ascending = true → ids.SortedLT
  sorted : Kept run.sorted (inOrder ids)
  runOrder : Kept run.runOrder ids

/-- A checked run over the run of a component whose kept rows have the ids. -/
structure CheckedRun.Holds (fl : FastLanes) (M : Type*) [MaskOps M] (ids : List RowId)
    (run : CheckedRun) : Prop where
  checks : ∃ (n : ℕ) (range : RowRange) (p : ℕ → Bool), run.check.Checks fl M n range p ∧
    run.rids.length = range.stop - range.start ∧
    ids = (range.toList.filter p).map fun i => run.rids.getD (i - range.start) 0
  ascends : run.ascending = true → ids.SortedLT
  count : Kept run.count ids.length
  runOrder : Kept run.runOrder ids
  sorted : Kept run.sorted (inOrder ids)

/-- A recipe of some ids, in its run's order. -/
def LazyRowIds.Holds (fl : FastLanes) (M : Type*) [MaskOps M] (ids : List RowId) :
    LazyRowIds → Prop
  | .component run => run.Holds ids
  | .checked run => run.Holds fl M ids
  | .unsorted ids' sorted => ids' = ids ∧ Kept sorted (inOrder ids)

/-! ### What a recipe answers -/

theorem runOrderRowIds_eq (rids : List RowId) : runOrderRowIds rids = rids := List.map_id rids

theorem sortedRowIds_eq {rids : List RowId} (h : rids.Nodup) :
    sortedRowIds rids = some (inOrder rids) := by
  rw [sortedRowIds]
  split_ifs with hempty
  · rw [List.isEmpty_iff] at hempty
    rw [hempty, inOrder, List.mergeSort_nil]
  · rw [show rids.map baseRow = rids from List.map_id rids]
    exact sortUniqueIds_eq h

/-- A window that holds rows cuts its page. -/
theorem windowRows_some {α : Type*} {offset limit : ℕ} {l : List α} (hlen : l.length ≤ usizeMax)
    {rows : RowRange} (h : windowRows offset limit l.length = some rows) :
    rows.Within l.length ∧ (l.drop rows.start).take (rows.stop - rows.start) = page offset limit l := by
  rw [windowRows, Store.saturatingAdd] at h
  split_ifs at h with hlt
  obtain rfl := Option.some.inj h
  refine ⟨⟨hlt.le, min_le_right _ _⟩, ?_⟩
  dsimp only
  rw [show min offset l.length = offset by omega, page, List.take_eq_take_iff, List.length_drop]
  omega

theorem windowRows_none {α : Type*} {offset limit : ℕ} {l : List α} (hlen : l.length ≤ usizeMax)
    (h : windowRows offset limit l.length = none) : page offset limit l = [] := by
  rw [windowRows, Store.saturatingAdd] at h
  split_ifs at h with hlt
  refine List.eq_nil_of_length_eq_zero ?_
  rw [page, List.length_take, List.length_drop]
  omega

theorem sliceOf_window {α : Type*} {offset limit : ℕ} {l : List α} (hlen : l.length ≤ usizeMax)
    {rows : RowRange} (h : windowRows offset limit l.length = some rows) :
    sliceOf l rows.start rows.stop = some (page offset limit l) := by
  obtain ⟨hwithin, hpage⟩ := windowRows_some hlen h
  rw [sliceOf_eq hwithin.ordered hwithin.inBase, hpage]

theorem ComponentRun.Holds.runOrderIds_spec {ids : List RowId} {run : ComponentRun}
    (h : run.Holds ids) : run.runOrderIds.1 = ids ∧ run.runOrderIds.2.Holds ids ∧
      run.runOrderIds.2.sorted = run.sorted := by
  rw [ComponentRun.runOrderIds]
  cases hcell : run.runOrder with
  | some found => exact ⟨h.runOrder found hcell, h, rfl⟩
  | none =>
    have hids : runOrderRowIds run.rids = ids := (runOrderRowIds_eq _).trans h.rids_eq
    exact ⟨hids, ⟨h.rids_eq, h.ascends, h.sorted, by rw [hids]; exact kept_some ids⟩, rfl⟩

section Checked

variable {fl : FastLanes} {M : Type*} [MaskOps M] {ids : List RowId} {run : CheckedRun}

theorem CheckedRun.Holds.knownLen_eq (h : run.Holds fl M ids) : Kept run.knownLen ids.length := by
  intro known hknown
  rw [CheckedRun.knownLen] at hknown
  cases hcount : run.count with
  | some count =>
    rw [hcount] at hknown
    rw [← Option.some.inj hknown]
    exact h.count count hcount
  | none =>
    rw [hcount] at hknown
    have hknown : (run.sorted <|> run.runOrder).map List.length = some known := hknown
    cases hsorted : run.sorted with
    | some sorted =>
      rw [hsorted] at hknown
      rw [← Option.some.inj hknown, h.sorted sorted hsorted, (inOrder_perm ids).length_eq]
    | none =>
      rw [hsorted] at hknown
      obtain ⟨found, hfound, rfl⟩ := Option.map_eq_some_iff.mp hknown
      rw [h.runOrder found hfound]

variable [LawfulMask M]

theorem CheckedRun.Holds.counted_spec (h : run.Holds fl M ids) : ∃ run',
    run.counted fl M = some (ids.length, run') ∧ run'.Holds fl M ids := by
  rw [CheckedRun.counted]
  cases hknown : run.knownLen with
  | some known => exact ⟨run, by rw [h.knownLen_eq known hknown], h⟩
  | none =>
    obtain ⟨n, range, p, hchecks, hlen, hids⟩ := h.checks
    have hcount : (range.toList.filter p).length = ids.length := by rw [hids, List.length_map]
    dsimp only
    rw [hchecks.count_spec, hcount, Option.map_some]
    exact ⟨_, rfl, ⟨n, range, p, hchecks, hlen, hids⟩, h.ascends, kept_some _, h.runOrder, h.sorted⟩

theorem CheckedRun.Holds.countCapped_spec (h : run.Holds fl M ids) (limit : ℕ) :
    run.countCapped fl M limit = some (min ids.length limit) := by
  rw [CheckedRun.countCapped]
  cases hknown : run.knownLen with
  | some known =>
    dsimp only
    rw [h.knownLen_eq known hknown, Option.map_some]
  | none =>
    obtain ⟨n, range, p, hchecks, hlen, hids⟩ := h.checks
    obtain ⟨found, hfound, hmin⟩ := hchecks.countCapped_spec limit
    dsimp only
    rw [hfound, Option.map_some, hmin, hids, List.length_map]

theorem CheckedRun.Holds.runOrderIds_spec (h : run.Holds fl M ids) : ∃ run',
    run.runOrderIds fl M = some (ids, run') ∧ run'.Holds fl M ids ∧ run'.sorted = run.sorted ∧
      run'.ascending = run.ascending := by
  rw [CheckedRun.runOrderIds]
  cases hcell : run.runOrder with
  | some found => exact ⟨run, by rw [h.runOrder found hcell], h, rfl, rfl⟩
  | none =>
    obtain ⟨n, range, p, hchecks, hlen, hids⟩ := h.checks
    dsimp only
    rw [hchecks.ids_spec hlen, ← hids, Option.map_some]
    exact ⟨_, rfl, ⟨⟨n, range, p, hchecks, hlen, hids⟩, h.ascends, h.count, kept_some ids, h.sorted⟩,
      rfl, rfl⟩

/-- A window of an ascending checked run is that of its ids. -/
theorem CheckedRun.Holds.window_spec (h : run.Holds fl M ids) (hsmall : ids.length ≤ usizeMax)
    (hascending : run.ascending = true) (offset limit : ℕ) : ∃ live,
    run.window fl M offset limit = some (page offset limit ids, live) ∧ Live.Of ids.length live := by
  have hsorted := inOrder_of_sorted (h.ascends hascending)
  have hkept : ∀ found, (run.sorted <|> run.runOrder) = some found → found = ids := by
    intro found hfound
    cases hcell : run.sorted with
    | some sorted =>
      rw [hcell] at hfound
      rw [← Option.some.inj hfound, h.sorted sorted hcell, hsorted]
    | none =>
      rw [hcell] at hfound
      exact h.runOrder found hfound
  rw [CheckedRun.window]
  cases hcells : (run.sorted <|> run.runOrder) with
  | some found =>
    obtain rfl := hkept found hcells
    dsimp only
    cases hrows : windowRows offset limit found.length with
    | some rows =>
      rw [Option.getD_some, sliceOf_window hsmall hrows]
      exact ⟨_, rfl, rfl⟩
    | none =>
      rw [Option.getD_none, windowRows_none hsmall hrows, sliceOf_eq le_rfl (Nat.zero_le _)]
      exact ⟨_, rfl, rfl⟩
  | none =>
    obtain ⟨n, range, p, hchecks, hlen, hids⟩ := h.checks
    obtain ⟨live, hwindow, hlive⟩ := hchecks.window_spec hlen offset limit
    have hpage : (page offset limit (range.toList.filter p)).map
        (fun i => run.rids.getD (i - range.start) 0) = page offset limit ids := by
      rw [hids, page, page, List.map_take, List.map_drop]
    refine ⟨live, by rw [← hpage]; exact hwindow, ?_⟩
    rwa [hids, List.length_map]

end Checked

theorem ComponentRun.Holds.sortedIds_eq {ids : List RowId} {run : ComponentRun}
    (h : run.Holds ids) (hnodup : ids.Nodup) : run.sortedIds = some (inOrder ids) := by
  rw [ComponentRun.sortedIds]
  cases hcell : run.runOrder with
  | some found =>
    rw [h.runOrder found hcell]
    exact sortUniqueIds_eq hnodup
  | none =>
    dsimp only
    rw [h.rids_eq]
    exact sortedRowIds_eq hnodup

namespace LazyRowIds.Holds

variable {fl : FastLanes} {M : Type*} [MaskOps M] {ids : List RowId} {lazy : LazyRowIds}

theorem lenIfKnown_eq (h : lazy.Holds fl M ids) : Kept lazy.lenIfKnown ids.length := by
  cases lazy with
  | component run =>
    have h : run.Holds ids := h
    intro known hknown
    rw [← Option.some.inj hknown, h.rids_eq]
  | checked run => exact CheckedRun.Holds.knownLen_eq h
  | unsorted ids' sorted =>
    obtain ⟨rfl, -⟩ := h
    exact kept_some _

variable [LawfulMask M]

/-- The ids materialized are those of the run in base order. -/
theorem materialized_spec (hnodup : ids.Nodup) (h : lazy.Holds fl M ids) : ∃ kept,
    lazy.materialized fl M = some (inOrder ids, kept) ∧ kept.Holds fl M ids := by
  cases lazy with
  | component run =>
    have h : run.Holds ids := h
    rw [LazyRowIds.materialized]
    cases hcell : run.sorted with
    | some sorted =>
      rw [h.sorted sorted hcell]
      exact ⟨_, rfl, h⟩
    | none =>
      dsimp only
      rw [h.sortedIds_eq hnodup, Option.map_some]
      exact ⟨_, rfl, h.rids_eq, h.ascends, kept_some _, h.runOrder⟩
  | checked run =>
    have h : run.Holds fl M ids := h
    rw [LazyRowIds.materialized]
    cases hcell : run.sorted with
    | some sorted =>
      rw [h.sorted sorted hcell]
      exact ⟨_, rfl, h⟩
    | none =>
      obtain ⟨run', hfound, hrun', -, hascending⟩ := h.runOrderIds_spec
      have hsorts : (if run.ascending || decide ids.SortedLE then some ids else sortedCopy ids) =
          some (inOrder ids) := by
        split_ifs with hasc
        · have hsorted : ids.SortedLT := by
            rw [Bool.or_eq_true, decide_eq_true_eq] at hasc
            exact hasc.elim h.ascends fun hle => hle.sortedLT_of_nodup hnodup
          rw [inOrder_of_sorted hsorted]
        · exact sortUniqueIds_eq hnodup
      dsimp only
      rw [hfound, Option.bind_some, hsorts, Option.map_some]
      exact ⟨_, rfl, hrun'.checks, hrun'.ascends, hrun'.count, hrun'.runOrder, kept_some _⟩
  | unsorted ids' sorted =>
    obtain ⟨rfl, hkept⟩ := h
    cases sorted with
    | some sorted =>
      rw [LazyRowIds.materialized, hkept sorted rfl]
      exact ⟨_, rfl, rfl, kept_some _⟩
    | none =>
      rw [LazyRowIds.materialized]
      rw [show sortedCopy ids' = some (inOrder ids') from sortUniqueIds_eq hnodup, Option.map_some]
      exact ⟨_, rfl, rfl, kept_some _⟩

/-- In memory the ids are always counted, as many as they are. -/
theorem count_spec (h : lazy.Holds fl M ids) : ∃ kept,
    lazy.count fl M = some (some ids.length, kept) ∧ kept.Holds fl M ids := by
  cases lazy with
  | component run =>
    have h : run.Holds ids := h
    refine ⟨.component run, ?_, h⟩
    show some (some run.rids.length, LazyRowIds.component run) = _
    rw [h.rids_eq]
  | checked run =>
    obtain ⟨run', hcount, hrun'⟩ := CheckedRun.Holds.counted_spec h
    exact ⟨.checked run', by rw [LazyRowIds.count, hcount, Option.map_some], hrun'⟩
  | unsorted ids' sorted =>
    obtain ⟨rfl, hkept⟩ := h
    exact ⟨_, rfl, rfl, hkept⟩

/-- A count up to a limit is the count, cut there. -/
theorem countCapped_spec (h : lazy.Holds fl M ids) (limit : ℕ) : ∃ counted,
    lazy.countCapped fl M limit = some counted ∧ Kept counted (min ids.length limit) := by
  cases lazy with
  | component run => exact ⟨none, rfl, kept_none _⟩
  | checked run =>
    refine ⟨_, ?_, kept_some _⟩
    rw [LazyRowIds.countCapped, CheckedRun.Holds.countCapped_spec h, Option.map_some]
  | unsorted ids' sorted => exact ⟨none, rfl, kept_none _⟩

/-- A window that is cut before base order is that of the ids in base order. -/
theorem window_spec (hsmall : ids.length ≤ usizeMax) (h : lazy.Holds fl M ids)
    (offset limit : ℕ) : ∃ found, lazy.window fl M offset limit = some found ∧
      Kept found (page offset limit (inOrder ids)) := by
  cases lazy with
  | component run =>
    have h : run.Holds ids := h
    rw [LazyRowIds.window]
    split_ifs with hascending
    · have hsorted := inOrder_of_sorted (h.ascends hascending)
      rw [h.rids_eq, hsorted]
      cases hrows : windowRows offset limit ids.length with
      | some rows =>
        have hpage : (page offset limit ids).SortedLT :=
          ((h.ascends hascending).pairwise.sublist (page_sublist offset limit ids)).sortedLT
        dsimp only
        rw [sliceOf_window hsmall hrows, Option.bind_some, sortedRowIds_eq hpage.nodup,
          Option.map_some, inOrder_of_sorted hpage]
        exact ⟨_, rfl, kept_some _⟩
      | none =>
        rw [windowRows_none hsmall hrows]
        exact ⟨_, rfl, kept_some _⟩
    · exact ⟨none, rfl, kept_none _⟩
  | checked run =>
    have h : run.Holds fl M ids := h
    rw [LazyRowIds.window]
    split_ifs with hascending
    · obtain ⟨live, hwindow, -⟩ := h.window_spec hsmall hascending offset limit
      rw [hwindow, Option.map_some, inOrder_of_sorted (h.ascends hascending)]
      exact ⟨_, rfl, kept_some _⟩
    · exact ⟨none, rfl, kept_none _⟩
  | unsorted ids' sorted => exact ⟨none, rfl, kept_none _⟩

/-- Beside a window, what is known of the rows the ids cover is so. -/
theorem windowWithLive_spec (hsmall : ids.length ≤ usizeMax) (h : lazy.Holds fl M ids)
    (offset limit : ℕ) : ∃ found, lazy.windowWithLive fl M offset limit = some found ∧
      ∀ known, found = some known → known.1 = page offset limit (inOrder ids) ∧
        Live.Of ids.length known.2 := by
  have hplain : ∀ live, lazy.lenIfKnown = some live → ∃ found,
      ((lazy.window fl M offset limit).map fun found =>
        found.map fun page => (page, Live.exact live)) = some found ∧
      ∀ known, found = some known → known.1 = page offset limit (inOrder ids) ∧
        Live.Of ids.length known.2 := by
    intro live hlive
    obtain ⟨found, hfound, hkept⟩ := h.window_spec hsmall offset limit
    refine ⟨_, by rw [hfound, Option.map_some], fun known hknown => ?_⟩
    obtain ⟨page, hpage, rfl⟩ := Option.map_eq_some_iff.mp hknown
    exact ⟨hkept page hpage, h.lenIfKnown_eq live hlive⟩
  cases lazy with
  | component run => exact hplain _ rfl
  | checked run =>
    have h : run.Holds fl M ids := h
    rw [LazyRowIds.windowWithLive]
    split_ifs with hascending
    · obtain ⟨live, hwindow, hlive⟩ := h.window_spec hsmall hascending offset limit
      refine ⟨_, by rw [hwindow, Option.map_some], fun known hknown => ?_⟩
      rw [← Option.some.inj hknown]
      exact ⟨by rw [inOrder_of_sorted (h.ascends hascending)], hlive⟩
    · refine ⟨none, rfl, fun known hknown => ?_⟩
      cases hknown
  | unsorted ids' sorted => exact hplain _ rfl

/-- The live ids are counted by the mask, or are all of a narrowed view's. -/
theorem liveLen_spec (h : lazy.Holds fl M ids) {deleted : M}
    (hnarrowed : ∀ ids' sorted, lazy = .unsorted ids' sorted → ∀ id ∈ ids', value deleted id = false) :
    ∃ kept, lazy.liveLenWithoutIo fl M deleted =
      some (some (ids.filter fun id => !value deleted id).length, kept) ∧ kept.Holds fl M ids := by
  have hperm : ((inOrder ids).filter fun id => !value deleted id).length =
      (ids.filter fun id => !value deleted id).length :=
    ((inOrder_perm ids).filter _).length_eq
  cases lazy with
  | component run =>
    have h : run.Holds ids := h
    rw [LazyRowIds.liveLenWithoutIo]
    cases hcell : run.sorted with
    | some sorted =>
      dsimp only
      rw [h.sorted sorted hcell, hperm]
      exact ⟨_, rfl, h⟩
    | none =>
      dsimp only
      obtain ⟨hids, hkept, -⟩ := h.runOrderIds_spec
      rw [hids]
      exact ⟨_, rfl, hkept⟩
  | checked run =>
    have h : run.Holds fl M ids := h
    rw [LazyRowIds.liveLenWithoutIo]
    cases hcell : run.sorted with
    | some sorted =>
      dsimp only
      rw [Option.map_some, h.sorted sorted hcell, hperm]
      exact ⟨_, rfl, h⟩
    | none =>
      obtain ⟨run', hfound, hrun', -⟩ := h.runOrderIds_spec
      dsimp only
      rw [hfound, Option.map_some]
      exact ⟨_, rfl, hrun'⟩
  | unsorted ids' sorted =>
    obtain ⟨rfl, hkept⟩ := h
    refine ⟨.unsorted ids' sorted, ?_, rfl, hkept⟩
    rw [LazyRowIds.liveLenWithoutIo, List.filter_eq_self.mpr fun id hid => by
      rw [hnarrowed ids' sorted rfl id hid, Bool.not_false]]

end LazyRowIds.Holds

end Indexes
