/-
What a filter answers of a whole file, put together from its splits.

* `countMatchingRowsCapped`, `countMatchingRows`, `matchingFileRows` — the counts, and the
  base-wide mask, of the rows a filter keeps;
* `Grouped`, `idsBySplit_spec` — ids grouped by split: each in the group of its own split;
* `matchingFileRows_spec` — the splits' masks together are the mask of the conjunction;
* `split_filtering_is_whole` — the masks, the first matches, the counts and the groups.
-/
import VortexRdf.FileFilterFolds

namespace Store

open Dictionary Terms Masks MaskOps Buffers Ascending

/-! ### Counts and masks of a file -/

section Answers

variable {M : Type} [MaskOps M] [MaskMeet M] [MaskUnion M]

/-- One more mask counted, and whether more matches are wanted. -/
def countStep (cap : ℕ) (count : ℕ) (mask : M) (_ : ℕ × RowRange) : ℕ × Bool :=
  let count := count + trueCount mask
  (count, decide (count < cap))

/-- How many rows pass a filter inside a selection, counted up to a cap. -/
def countMatchingRowsCapped (file : QuadFile M) (filter : PushedFilter) (selection : RowSelection)
    (deleted : Option M) (cap : ℕ) : Option ℕ :=
  if cap = 0 then some 0
  else
    (foldFilterSplitsOrdered file filter selection deleted cap (countStep cap) 0).map (min · cap)

/-- A filter's mask of every split a selection touches, mapped, in the order the splits'
tasks finish in. -/
def mapFilterSplits {T : Type} (file : QuadFile M) (filter : PushedFilter) (selection : RowSelection)
    (deleted : Option M) (finished : List RowRange) (map : M → RowRange → T) : Option (List T) :=
  finished.mapM fun range =>
    (evaluateFilterSplit file filter range
      (splitStartMask (selectionSplitRanges file selection).1 deleted range)).map (map · range)

def countMatchingRows (file : QuadFile M) (filter : PushedFilter) (selection : RowSelection)
    (deleted : Option M) (finished : List RowRange) : Option ℕ :=
  (mapFilterSplits file filter selection deleted finished fun mask _ => trueCount mask).map List.sum

/-- The base-wide mask of the rows a filter keeps of a selection, of all of it without a
filter; tombstones are not applied. -/
def matchingFileRows (file : QuadFile M) (filter : Option PushedFilter) (selection : RowSelection)
    (finished : List RowRange) : Option M :=
  match filter with
  | none => some (selection.toMask file.rowCount)
  | some filter =>
    (mapFilterSplits file filter selection none finished keptIds).map fun ids =>
      fromIndices file.rowCount (ids.flatten.mergeSort (· ≤ ·))

end Answers

/-- What the splits keep, in whatever order they finish, is the matches. -/
theorem kept_perm {M : Type} [MaskOps M] {file : QuadFile M} {rows : List (ColumnName → Scalar)}
    {selection : RowSelection} {deleted : Option M} (filter : PushedFilter) (h : file.Reads rows)
    (hs : selection.Within rows.length)
    {finished : List RowRange} (hfinished : finished.Perm (selectionSplitRanges file selection).2) :
    (finished.flatMap fun range =>
      (matchingRows rows filter selection deleted).filter range.contains).Perm
        (matchingRows rows filter selection deleted) := by
  refine (hfinished.flatMap_right _).trans (List.Perm.of_eq ?_)
  rw [(selectionSplitRanges_tile h hs).flatMap_filter matchingRows_sorted]
  exact matchingRows_between hs

section Whole

variable {M : Type} [MaskOps M] [LawfulMask M] [MaskMeet M] [LawfulMeet M] [MaskUnion M]
  [LawfulUnion M] {file : QuadFile M} {rows : List (ColumnName → Scalar)}
  {selection : RowSelection} {deleted : Option M}

/-- A count up to a cap is that of the matches, cut there. -/
theorem countMatchingRowsCapped_spec (filter : PushedFilter) (h : file.Reads rows)
    (hs : selection.Within rows.length) (hdeleted : ∀ d ∈ deleted, len d = rows.length) (cap : ℕ) :
    countMatchingRowsCapped file filter selection deleted cap =
      some (min (matchingRows rows filter selection deleted).length cap) := by
  rw [countMatchingRowsCapped]
  split_ifs with hcap
  · rw [hcap, Nat.min_zero]
  obtain ⟨taken, rest, count, hpieces, hfold, hcount, hdone⟩ :=
    foldFilterSplitsOrdered_spec filter cap (countStep cap)
      (fun before count => count = (foundIn rows filter selection deleted before).length)
      (fun count => cap ≤ count) 0 h hs hdeleted rfl
      (fun before piece after count mask hpieces hmarks hcount => by
        refine ⟨?_, fun hstop => Nat.le_of_not_lt (of_decide_eq_false hstop)⟩
        show count + trueCount mask = _
        rw [hcount, MaskOf.trueCount_keptIds hmarks,
          hmarks.keptIds_eq (piece_inside h hs hpieces).1, foundIn_append, List.length_append]
        exact congrArg (_ + ·) (congrArg List.length (List.flatMap_singleton _ _).symm))
  rw [hfold, Option.map_some, ← foundIn_taken h hs hpieces, List.length_append]
  refine congrArg some ?_
  rcases hdone with rfl | hdone
  · rw [hcount]
    rfl
  · omega

/-- Every split's mask, in whatever order the splits finish. -/
theorem mapFilterSplits_spec {T : Type} (filter : PushedFilter) (h : file.Reads rows)
    (hs : selection.Within rows.length) (hdeleted : ∀ d ∈ deleted, len d = rows.length)
    {finished : List RowRange} (hfinished : finished.Perm (selectionSplitRanges file selection).2)
    {map : M → RowRange → T} {whole : RowRange → T}
    (hmap : ∀ (range : RowRange) mask, range.Inside (boundsOf selection rows.length) →
      Marks rows filter selection deleted (mask, range) → map mask range = whole range) :
    mapFilterSplits file filter selection deleted finished map = some (finished.map whole) := by
  refine mapM_some fun range hrange => ?_
  have hin := (selectionSplitRanges_tile h hs).inside range (hfinished.mem_iff.mp hrange)
  have hwithin : range.Within rows.length :=
    ⟨hin.ordered, hin.stops.trans (boundsOf_within hs).inBase⟩
  obtain ⟨mask, hmask, hmarks⟩ := pieceMask_spec filter h hs hdeleted hwithin
  have hmask : evaluateFilterSplit file filter range
      (splitStartMask (selectionSplitRanges file selection).1 deleted range) = some mask := hmask
  rw [hmask, Option.map_some, hmap range mask hin hmarks]

theorem countMatchingRows_spec (filter : PushedFilter) (h : file.Reads rows)
    (hs : selection.Within rows.length) (hdeleted : ∀ d ∈ deleted, len d = rows.length)
    {finished : List RowRange} (hfinished : finished.Perm (selectionSplitRanges file selection).2) :
    countMatchingRows file filter selection deleted finished =
      some (matchingRows rows filter selection deleted).length := by
  rw [countMatchingRows, mapFilterSplits_spec filter h hs hdeleted hfinished
    (fun range mask hin hmarks => (MaskOf.trueCount_keptIds hmarks).trans
      (congrArg List.length (hmarks.keptIds_eq hin))), Option.map_some,
    ← (kept_perm filter h hs hfinished).length_eq, List.length_flatMap]

/-- The masks of the splits, put back together, are the mask over the whole file of the
rows of the selection that pass every condition. -/
theorem matchingFileRows_spec (filter : PushedFilter) (h : file.Reads rows)
    (hs : selection.Within rows.length) {finished : List RowRange}
    (hfinished : finished.Perm (selectionSplitRanges file selection).2) :
    ∃ mask, matchingFileRows file (some filter) selection finished = some mask ∧
      MaskOf rows.length (fun row => decide (row ∈ selection.rows rows.length) &&
        filter.admits (cellsAt rows row)) mask := by
  have hnone : ∀ d ∈ (none : Option M), len d = rows.length := fun d hd => by cases hd
  have hids := mapFilterSplits_spec filter h hs hnone hfinished
    fun range mask hin hmarks => hmarks.keptIds_eq hin
  have hsorted : (finished.map fun range =>
      (matchingRows rows filter selection (none : Option M)).filter range.contains).flatten.mergeSort
        (· ≤ ·) = matchingRows rows filter selection (none : Option M) := by
    rw [← List.flatMap_def]
    exact mergeSort_eq_of_perm (kept_perm filter h hs hfinished) matchingRows_sorted
  refine ⟨_, by rw [matchingFileRows, hids, Option.map_some, hsorted, h.rowCount], ?_⟩
  have hwithin : IdsWithin rows.length (matchingRows rows filter selection (none : Option M)) :=
    matchingRows_within hs
  refine (maskOf_fromIndices hwithin.ascending hwithin.inBase).congr fun row _ => ?_
  rw [Bool.eq_iff_iff, decide_eq_true_iff, Bool.and_eq_true, decide_eq_true_iff, mem_matchingRows]
  exact ⟨fun hrow => ⟨hrow.1, hrow.2.2⟩, fun hrow => ⟨hrow.1, rfl, hrow.2⟩⟩

end Whole

/-! ### Ids by split -/

/-- Ids grouped by the splits that hold them, in order: a group holds all the ids of its
split, the last one those past the splits. -/
structure Grouped (splits : List RowRange) (stop : ℕ) (ids : List ℕ)
    (groups : List (Option RowRange × List ℕ)) : Prop where
  ids_eq : groups.flatMap Prod.snd = ids
  some_ids : ∀ group ∈ groups, group.2 ≠ []
  in_order : (groups.filterMap Prod.fst).Sublist splits
  held : ∀ split ids', (some split, ids') ∈ groups → ids' = ids.filter split.contains
  past : ∀ ids', (none, ids') ∈ groups → ids' = ids.filter fun id => decide (stop ≤ id)
  last : ∀ front ids' back, groups = front ++ (none, ids') :: back → back = []

variable {splits : List RowRange}

/-- The splits from the one that holds a row on. -/
theorem Tiles.dropWhile {lo stop row : ℕ} (h : Tiles lo splits stop)
    (hlo : lo ≤ row) : ∃ lo', lo' ≤ row ∧
      Tiles lo' (splits.dropWhile fun split => decide (split.stop ≤ row)) stop := by
  induction splits generalizing lo with
  | nil => exact ⟨lo, hlo, h⟩
  | cons split splits ih =>
    obtain ⟨hstart, hle, hrest⟩ := h
    rw [List.dropWhile_cons]
    split_ifs with hbefore
    · exact ih hrest (of_decide_eq_true hbefore)
    · exact ⟨lo, hlo, hstart, hle, hrest⟩

theorem grouped_nil (splits : List RowRange) (stop : ℕ) : Grouped splits stop [] [] := by
  refine ⟨rfl, fun _ h => absurd h List.not_mem_nil, List.nil_sublist _,
    fun _ _ h => absurd h List.not_mem_nil, fun _ h => absurd h List.not_mem_nil,
    fun front ids' back h => ?_⟩
  exact absurd h.symm (List.append_ne_nil_of_right_ne_nil front (List.cons_ne_nil _ _))

/-- Where the splits are over, what is left lies past them in one group. -/
theorem grouped_past {stop : ℕ} {ids : List ℕ} (hne : ids ≠ [])
    (hpast : ∀ id ∈ ids, stop ≤ id) : Grouped splits stop ids [(none, ids)] := by
  refine ⟨by simp, fun group hgroup => ?_, List.nil_sublist _, fun split ids' h => ?_,
    fun ids' h => ?_, fun front ids' back h => ?_⟩
  · rw [List.mem_singleton.mp hgroup]
    exact hne
  · exact absurd (congrArg Prod.fst (List.mem_singleton.mp h)) (by simp)
  · have hall : ids' = ids := congrArg Prod.snd (List.mem_singleton.mp h)
    rw [hall]
    exact (List.filter_eq_self.mpr fun id hid => decide_eq_true (hpast id hid)).symm
  · cases front with
    | nil => exact (List.cons.inj h).2.symm
    | cons _ front =>
      exact absurd (List.cons.inj h).2.symm
        (List.append_ne_nil_of_right_ne_nil front (List.cons_ne_nil _ _))

/-- The ids below a split's end before the groups of the ids from it on. -/
theorem Grouped.cons {split : RowRange} {splits' : List RowRange} {stop : ℕ} {ids : List ℕ}
    {groups : List (Option RowRange × List ℕ)} (hsorted : ids.SortedLT)
    (hlater : Tiles split.stop splits stop) (hsub : (split :: splits).Sublist splits')
    (hstart : ∀ id ∈ ids, split.start ≤ id) (hholds : ∃ id ∈ ids, id < split.stop)
    (h : Grouped splits stop (ids.filter fun id => decide (split.stop ≤ id)) groups) :
    Grouped splits' stop ids ((some split, ids.filter fun id => decide (id < split.stop)) :: groups) := by
  -- no id of a later group lies before the end of this split
  have hlaterFilter : ∀ p : ℕ → Bool, (∀ id, p id = true → split.stop ≤ id) →
      (ids.filter fun id => decide (split.stop ≤ id)).filter p = ids.filter p := by
    intro p hp
    rw [List.filter_filter]
    refine List.filter_congr fun id _ => ?_
    rw [Bool.and_eq_left_iff_imp]
    exact fun hpid => decide_eq_true (hp id hpid)
  refine ⟨?_, fun group hgroup => ?_, (h.in_order.cons_cons split).trans hsub,
    fun split' ids' hgroup => ?_, fun ids' hgroup => ?_, fun front ids' back hgroups => ?_⟩
  · rw [List.flatMap_cons, h.ids_eq, ← takeWhile_lt hsorted, ← dropWhile_lt hsorted]
    exact List.takeWhile_append_dropWhile
  · rcases List.mem_cons.mp hgroup with rfl | hgroup
    · obtain ⟨id, hid, hlt⟩ := hholds
      exact List.ne_nil_of_mem (List.mem_filter.mpr ⟨hid, decide_eq_true hlt⟩)
    · exact h.some_ids group hgroup
  · rcases List.mem_cons.mp hgroup with hgroup | hgroup
    · obtain rfl : split' = split := Option.some.inj (congrArg Prod.fst hgroup)
      obtain rfl : ids' = _ := congrArg Prod.snd hgroup
      refine List.filter_congr fun id hid => ?_
      rw [RowRange.contains, decide_eq_true (hstart id hid), Bool.true_and]
    · have hin : split' ∈ splits := h.in_order.subset (List.mem_filterMap.mpr ⟨_, hgroup, rfl⟩)
      have hafter := (hlater.inside split' hin).starts
      rw [h.held split' ids' hgroup]
      refine hlaterFilter _ fun id hid => ?_
      rw [RowRange.contains, Bool.and_eq_true, decide_eq_true_iff] at hid
      exact hafter.trans hid.1
  · rcases List.mem_cons.mp hgroup with hgroup | hgroup
    · exact absurd (congrArg Prod.fst hgroup) (by simp)
    · rw [h.past ids' hgroup]
      exact hlaterFilter _ fun id hid => hlater.le.trans (of_decide_eq_true hid)
  · cases front with
    | nil => exact absurd (congrArg Prod.fst (List.cons.inj hgroups).1) (by simp)
    | cons _ front => exact h.last front ids' back (List.cons.inj hgroups).2

theorem idsBySplit_nil (splits : List RowRange) (fuel index : ℕ) : idsBySplit splits fuel [] index = [] := by
  cases fuel <;> rfl

theorem idsBySplit_grouped {stop : ℕ} : ∀ {fuel : ℕ} {ids : List ℕ}
    {index lo : ℕ}, ids.SortedLT → (∀ id ∈ ids, lo ≤ id) → Tiles lo (splits.drop index) stop →
      ids.length ≤ fuel → Grouped (splits.drop index) stop ids (idsBySplit splits fuel ids index)
  | fuel, [], index, lo, _, _, _, _ => by
    rw [idsBySplit_nil]
    exact grouped_nil _ _
  | 0, first :: ids, _, _, _, _, _, hfuel => absurd hfuel (by simp)
  | fuel + 1, first :: ids, index, lo, hsorted, hlo, htiles, hfuel => by
    have hfirst := hlo first List.mem_cons_self
    have hleast : ∀ id ∈ first :: ids, first ≤ id := by
      intro id hid
      rcases List.mem_cons.mp hid with rfl | hid
      · exact le_rfl
      · exact (head_lt hsorted hid).le
    obtain ⟨lo', hlo', htiles'⟩ := htiles.dropWhile hfirst
    have hdrop := drop_partitionPoint (fun split : RowRange => decide (split.stop ≤ first))
      (splits.drop index)
    rw [List.drop_drop] at hdrop
    rw [← hdrop] at htiles'
    rw [idsBySplit]
    generalize index + partitionPoint (fun split : RowRange => decide (split.stop ≤ first))
      (splits.drop index) = here at hdrop htiles' ⊢
    cases hsplit : splits[here]? with
    | none =>
      have hnil : splits.drop here = [] := List.drop_eq_nil_of_le (List.getElem?_eq_none_iff.mp hsplit)
      rw [hnil] at htiles'
      obtain rfl : lo' = stop := htiles'
      dsimp only
      rw [List.drop_length, idsBySplit_nil, List.take_length]
      exact grouped_past (List.cons_ne_nil _ _) fun id hid => hlo'.trans (hleast id hid)
    | some split =>
      have hlt := (List.getElem?_eq_some_iff.mp hsplit).1
      have hcons : splits.drop here = split :: splits.drop (here + 1) := by
        rw [List.drop_eq_getElem_cons hlt, (List.getElem?_eq_some_iff.mp hsplit).2]
      have hsub : (split :: splits.drop (here + 1)).Sublist (splits.drop index) := by
        rw [← hcons, hdrop]
        exact List.dropWhile_sublist _
      rw [hcons] at htiles' hdrop
      obtain ⟨hstart, hle, hlater⟩ := htiles'
      have hholds : first < split.stop := by
        by_contra hpast
        have hhead := List.head?_dropWhile_not (fun split : RowRange => decide (split.stop ≤ first))
          (splits.drop index)
        rw [← hdrop] at hhead
        exact absurd (decide_eq_true (Nat.le_of_not_lt hpast)) (by simpa using hhead)
      dsimp only
      rw [take_partitionPoint, drop_partitionPoint, takeWhile_lt hsorted, dropWhile_lt hsorted]
      have hmore : ∀ id ∈ (first :: ids).filter (fun id => decide (split.stop ≤ id)), split.stop ≤ id :=
        fun id hid => of_decide_eq_true (List.mem_filter.mp hid).2
      have hshorter : ((first :: ids).filter fun id => decide (split.stop ≤ id)).length ≤ fuel := by
        rw [List.filter_cons_of_neg (by simpa using hholds)]
        rw [List.length_cons] at hfuel
        exact (List.length_filter_le _ _).trans (by omega)
      have hgroups := idsBySplit_grouped (Ascending.filter hsorted fun id => decide (split.stop ≤ id))
        hmore hlater hshorter
      exact hgroups.cons hsorted hlater hsub (fun id hid => (hstart.le.trans hlo').trans (hleast id hid))
        ⟨first, List.mem_cons_self, hholds⟩

/-- Ascending ids are grouped by the splits that hold them, those past the splits last. -/
theorem idsBySplit_spec {stop : ℕ} (h : Tiles 0 splits stop) {ids : List ℕ}
    (hids : ids.SortedLT) : Grouped splits stop ids (idsBySplit splits ids.length ids 0) := by
  have htiles : Tiles 0 (splits.drop 0) stop := by rwa [List.drop_zero]
  have hgroups := idsBySplit_grouped hids (fun id _ => Nat.zero_le id) htiles le_rfl
  rwa [List.drop_zero] at hgroups

/-! ### The whole file -/

/-- Whatever the tiling, the order the conjuncts run in and the splits the zones prune: the
splits' masks together are the mask of the conjunction over the file, what they keep is its
live matches, the first rows and the capped count are those cut at the cap, and no id is
lost, repeated or misplaced when ids are grouped by split. -/
theorem split_filtering_is_whole {M : Type} [MaskOps M] [LawfulMask M] [MaskMeet M] [LawfulMeet M]
    [MaskUnion M] [LawfulUnion M] {file : QuadFile M} {rows : List (ColumnName → Scalar)}
    {selection : RowSelection} {deleted : Option M} (filter : PushedFilter) (h : file.Reads rows)
    (hs : selection.Within rows.length) (hdeleted : ∀ d ∈ deleted, len d = rows.length)
    {finished : List RowRange} (hfinished : finished.Perm (selectionSplitRanges file selection).2) :
    (∃ mask, matchingFileRows file (some filter) selection finished = some mask ∧
      MaskOf rows.length (fun row => decide (row ∈ selection.rows rows.length) &&
        filter.admits (cellsAt rows row)) mask) ∧
    (∃ masks, splitMasks file filter selection deleted = some masks ∧
      masks.Keeps (matchingRows rows filter selection deleted)) ∧
    (∀ want, ∃ masks found rest, splitMasksUntil file filter selection deleted want = some masks ∧
      masks.Keeps found ∧ found ++ rest = matchingRows rows filter selection deleted ∧
      (rest = [] ∨ want ≤ found.length)) ∧
    (∀ want, firstMatchingRows file filter selection deleted want =
      some ((matchingRows rows filter selection deleted).take want)) ∧
    (∀ cap, countMatchingRowsCapped file filter selection deleted cap =
      some (min (matchingRows rows filter selection deleted).length cap)) ∧
    countMatchingRows file filter selection deleted finished =
      some (matchingRows rows filter selection deleted).length ∧
    ∀ ids : List RowId, ids.SortedLT →
      Grouped file.splits rows.length ids (idsBySplit file.splits ids.length ids 0) :=
  ⟨matchingFileRows_spec filter h hs hfinished, splitMasks_spec h hs hdeleted,
    fun want => splitMasksUntil_spec filter h hs hdeleted want,
    fun want => firstMatchingRows_spec h hs hdeleted want,
    fun cap => countMatchingRowsCapped_spec filter h hs hdeleted cap,
    countMatchingRows_spec filter h hs hdeleted hfinished,
    fun _ hids => idsBySplit_spec h.tiles hids⟩

open Masks.BitMask in
/-- A file over some rows whose statistics know of each range whether any row of it
passes. -/
def tableFile (rows : List (ColumnName → Scalar)) (splits : List RowRange) (zones : QuadZones) :
    QuadFile BitMask where
  rowCount := rows.length
  splits := splits
  pruningEvaluation range conjunct mask := some (ofFn mask.bits.length fun _ =>
    (List.range mask.bits.length).any fun i => conjunct.admits (cellsAt rows (range.start + i)))
  filterEvaluation range conjunct mask := some (ofFn mask.bits.length fun i =>
    mask.get i && conjunct.admits (cellsAt rows (range.start + i)))
  zonesEnabled := true
  zones := zones
  columnChunks _ := none
  observed range := [(range.start, 1), (range.start, 0)]
  keepsLess a b := decide (a.2 < b.2)

open Masks.BitMask in
theorem tableFile_reads {rows : List (ColumnName → Scalar)}
    {zones : QuadZones} (hsmall : rows.length ≤ usizeMax) (h : Tiles 0 splits rows.length)
    (hzones : zones.Describe (fun name i => cellsAt rows i name) rows.length) :
    (tableFile rows splits zones).Reads rows := by
  refine ⟨rfl, hsmall, h, fun range conjunct mask _ _ => ?_, fun range conjunct mask _ _ => ?_, hzones⟩
  · refine ⟨_, rfl, length_ofFn _ _, fun i hi _ hpass => ?_⟩
    refine (get_ofFn _ hi).trans (List.any_eq_true.mpr ⟨i, List.mem_range.mpr hi, hpass⟩)
  · exact ⟨_, rfl, length_ofFn _ _, fun i hi => get_ofFn _ hi⟩

namespace SplitSample

def codes (i : ℕ) : ℕ := if i = 3 then 2 else 1

/-- Five rows of one code each. -/
def rows : List (ColumnName → Scalar) := (List.range 5).map fun i _ => .num (codes i)

/-- The predicates in zones of two rows: the first and the last hold one code each. -/
def predicateZones : ColumnZones where
  mins := [1, 1, 1]
  maxes := [1, 2, 1]
  recorded := none
  zoneLen := 2
  rowCount := 5
  paired := rfl
  zoned := Nat.zero_lt_two
  covered := rfl

def zones : QuadZones := fun slot => if slot = .p then some predicateZones else none

theorem zones_describe : zones.Describe (fun name i => cellsAt rows i name) 5 := by
  intro slot columnZones hslot
  obtain ⟨rfl, rfl⟩ : slot = .p ∧ predicateZones = columnZones := by
    simpa [zones] using hslot
  refine ⟨codes, fun i hi => ?_, rfl, fun zone i hi => ?_, fun _ _ _ h => by cases h⟩
  · have hrow : rows[i]? = some fun _ => .num (codes i) := by
      rw [rows, List.getElem?_map, List.getElem?_range hi]
      rfl
    show rows.getD i (fun _ => .null) .p = _
    rw [List.getD_eq_getElem?_getD, hrow, Option.getD_some]
  · have hzone := RowRange.mem_rows.mp hi
    have hlt : zone * 2 ≤ i ∧ i < min ((zone + 1) * 2) 5 := hzone
    have hcodes : ∀ i < 5, (predicateZones.zoneBounds (i / 2)).1 ≤ codes i ∧
        codes i ≤ (predicateZones.zoneBounds (i / 2)).2 := by decide
    obtain rfl : i / 2 = zone := by omega
    exact hcodes i (by omega)

def file : QuadFile BitMask := tableFile rows [⟨0, 3⟩, ⟨3, 3⟩, ⟨3, 5⟩] zones

theorem file_reads : file.Reads rows :=
  tableFile_reads (by decide) ⟨rfl, by decide, rfl, by decide, rfl, by decide, rfl⟩ zones_describe

/-- An equality, which a zone may settle, and one beside a test of another shape. -/
def filters : List PushedFilter :=
  [⟨[.eq (.p, .num 1)]⟩, ⟨[.eq (.p, .num 1), .test fun row => row .o != .null]⟩]

/-- The second row is tombstoned. -/
def deleted : Option BitMask := some ⟨[false, true, false, false, false]⟩

end SplitSample

open SplitSample in
theorem split_filtering_is_whole_five : file.Reads rows ∧ ∀ filter ∈ filters,
    (∃ mask, matchingFileRows file (some filter) .all [⟨3, 5⟩, ⟨0, 3⟩] = some mask ∧
      MaskOf rows.length (fun row => decide (row ∈ RowSelection.all.rows rows.length) &&
        filter.admits (cellsAt rows row)) mask) ∧
    (∃ masks, splitMasks file filter .all deleted = some masks ∧
      masks.Keeps (matchingRows rows filter .all deleted)) ∧
    (∀ want, ∃ masks found rest, splitMasksUntil file filter .all deleted want = some masks ∧
      masks.Keeps found ∧ found ++ rest = matchingRows rows filter .all deleted ∧
      (rest = [] ∨ want ≤ found.length)) ∧
    (∀ want, firstMatchingRows file filter .all deleted want =
      some ((matchingRows rows filter .all deleted).take want)) ∧
    (∀ cap, countMatchingRowsCapped file filter .all deleted cap =
      some (min (matchingRows rows filter .all deleted).length cap)) ∧
    countMatchingRows file filter .all deleted [⟨3, 5⟩, ⟨0, 3⟩] =
      some (matchingRows rows filter .all deleted).length ∧
    ∀ ids : List RowId, ids.SortedLT →
      Grouped file.splits rows.length ids (idsBySplit file.splits ids.length ids 0) := by
  refine ⟨file_reads, fun filter _ => ?_⟩
  have hall : RowSelection.all.Within rows.length := trivial
  refine split_filtering_is_whole filter file_reads hall ?_ (List.Perm.swap _ _ [])
  rintro _ ⟨⟩
  rfl

end Store
