/-
The folds of a filter over a file's splits collect the selection's live rows that pass it.

* `matchingRows` — the live rows of a selection that pass a filter, in file order;
* `selectionSplitRanges_tile`, `growingPiecesFrom_tile` — the splits of a selection, and
  their pieces, run through its bounds;
* `foldPieces_spec` — a fold stops after some of the pieces, with what these gave it;
* `SplitMasks.Keeps` — masks that keep some rows, which their ids and counts are read off;
* `firstMatchingRows_spec`, `splitMasksUntil_spec` — the first matches, and the masks of as
  many splits as hold them.
-/
import VortexRdf.FileFilterEvals

namespace Store

open Dictionary Terms Masks MaskOps Buffers Ascending

/-! ### The rows of a selection that pass -/

/-- The live rows of a selection that pass a filter, in file order. -/
def matchingRows {M : Type} [MaskOps M] (rows : List (ColumnName → Scalar)) (filter : PushedFilter)
    (selection : RowSelection) (deleted : Option M) : List ℕ :=
  (selection.liveListing deleted rows.length).filter fun row => filter.admits (cellsAt rows row)

/-! ### The splits of a selection -/

theorem Tiles.append {a b c : ℕ} {runs runs' : List RowRange} (h : Tiles a runs b)
    (h' : Tiles b runs' c) : Tiles a (runs ++ runs') c := by
  induction runs generalizing a with
  | nil =>
    obtain rfl : a = b := h
    exact h'
  | cons run runs ih => exact ⟨h.1, h.2.1, ih h.2.2⟩

theorem Tiles.split {a c : ℕ} {runs runs' : List RowRange} (h : Tiles a (runs ++ runs') c) :
    ∃ b, Tiles a runs b ∧ Tiles b runs' c := by
  induction runs generalizing a with
  | nil => exact ⟨a, rfl, h⟩
  | cons run runs ih =>
    obtain ⟨b, hb, hrest⟩ := ih h.2.2
    exact ⟨b, ⟨h.1, h.2.1, hb⟩, hrest⟩

/-- Ranges side by side, clipped to a range they run past, run through it. -/
theorem clip_tile {lo hi : ℕ} (hle : lo ≤ hi) {runs : List RowRange} {start stop : ℕ}
    (h : Tiles start runs stop) (hstop : hi ≤ stop) :
    Tiles (min (max start lo) hi) (clip ⟨lo, hi⟩ runs) hi := by
  induction runs generalizing start with
  | nil =>
    obtain rfl : start = stop := h
    exact (by omega : min (max start lo) hi = hi)
  | cons run runs ih =>
    obtain ⟨hstart, hrun, hrest⟩ := h
    have hlater := ih hrest
    rw [clip, List.map_cons, List.filter_cons]
    split_ifs with hsome
    · have hlt : max run.start lo < min run.stop hi := of_decide_eq_true hsome
      refine ⟨?_, ?_, ?_⟩
      · dsimp only
        omega
      · dsimp only
        omega
      · rw [show min (max run.stop lo) hi = min run.stop hi by omega] at hlater
        exact hlater
    · have hge : ¬ max run.start lo < min run.stop hi := fun hlt => hsome (decide_eq_true hlt)
      rw [show min (max run.stop lo) hi = min (max start lo) hi by omega] at hlater
      exact hlater

section Files

variable {M : Type} [MaskOps M] {file : QuadFile M} {rows : List (ColumnName → Scalar)}
  {selection : RowSelection}

/-- The bounds of a selection. -/
def boundsOf (selection : RowSelection) (n : ℕ) : RowRange := (splitBounds selection n).2

theorem boundsOf_within (hs : selection.Within rows.length) :
    (boundsOf selection rows.length).Within rows.length := by
  cases selection with
  | all => exact ⟨Nat.zero_le _, le_rfl⟩
  | range part => exact hs
  | ids ids => exact ⟨Nat.zero_le _, le_rfl⟩

/-- The splits a selection touches run through its bounds. -/
theorem selectionSplitRanges_tile (h : file.Reads rows) (hs : selection.Within rows.length) :
    Tiles (boundsOf selection rows.length).start (selectionSplitRanges file selection).2
      (boundsOf selection rows.length).stop := by
  have hwithin := boundsOf_within hs
  have hclip := clip_tile hwithin.ordered h.tiles hwithin.inBase
  have hordered := hwithin.ordered
  rw [show min (max 0 (boundsOf selection rows.length).start) (boundsOf selection rows.length).stop =
    (boundsOf selection rows.length).start by omega] at hclip
  rw [selectionSplitRanges, h.rowCount]
  exact hclip

theorem cutGrowing_eq : ∀ (fuel : ℕ) (rest : RowRange) (size : ℕ),
    (cutGrowing fuel rest size).1 = growingPiecesLoop fuel rest size
  | 0, _, _ => rfl
  | fuel + 1, rest, size => by
    rw [cutGrowing, growingPiecesLoop]
    split_ifs
    · exact congrArg (_ :: ·) (cutGrowing_eq fuel _ _)
    · rfl

theorem cutGrowing_pos : ∀ (fuel : ℕ) (rest : RowRange) {size : ℕ}, 0 < size →
    0 < (cutGrowing fuel rest size).2
  | 0, _, _, hsize => hsize
  | fuel + 1, rest, size, hsize => by
    rw [cutGrowing]
    split_ifs
    · refine cutGrowing_pos fuel _ (lt_min (Nat.mul_pos hsize (by decide)) (by decide))
    · exact hsize

/-- The growing pieces of some ranges run through them. -/
theorem growingPiecesFrom_tile {ranges : List RowRange} {start stop index size : ℕ}
    (h : Tiles start ranges stop) (hstop : stop ≤ usizeMax) (hsize : 0 < size) :
    Tiles start ((growingPiecesFrom ranges index size).map Prod.snd) stop := by
  induction ranges generalizing start index size with
  | nil => exact h
  | cons range ranges ih =>
    obtain ⟨hstart, hle, hrest⟩ := h
    obtain rfl := hstart
    have hfirst := growingPiecesLoop_tile hsize le_rfl hle (hrest.le.trans hstop)
    rw [growingPiecesFrom, List.map_append, List.map_map, cutGrowing_eq]
    refine Tiles.append ?_ (ih hrest (cutGrowing_pos _ _ hsize))
    rw [show Prod.snd ∘ (fun piece : RowRange => (index, piece)) = id from rfl, List.map_id]
    exact hfirst

/-- The pieces a fold takes the splits of a selection in. -/
def piecesOf (file : QuadFile M) (selection : RowSelection) (want : ℕ) : List (ℕ × RowRange) :=
  if cutIntoPieces want then
    growingPiecesFrom (selectionSplitRanges file selection).2 0 FIRST_PIECE_ROWS
  else (selectionSplitRanges file selection).2.zipIdx.map fun place => (place.2, place.1)

theorem piecesOf_tile (h : file.Reads rows) (hs : selection.Within rows.length) (want : ℕ) :
    Tiles (boundsOf selection rows.length).start ((piecesOf file selection want).map Prod.snd)
      (boundsOf selection rows.length).stop := by
  have htiles := selectionSplitRanges_tile h hs
  rw [piecesOf]
  split_ifs
  · exact growingPiecesFrom_tile htiles ((boundsOf_within hs).inBase.trans h.small) (by decide)
  · rw [List.map_map]
    have hsame : (selectionSplitRanges file selection).2.zipIdx.map
        (Prod.snd ∘ fun place : RowRange × ℕ => (place.2, place.1)) =
          (selectionSplitRanges file selection).2 := List.zipIdx_map_fst _ _
    rwa [hsame]

/-- A piece of a selection's splits lies in its bounds. -/
theorem piece_inside (h : file.Reads rows) (hs : selection.Within rows.length) {want : ℕ}
    {before after : List (ℕ × RowRange)} {piece : ℕ × RowRange}
    (hpieces : before ++ piece :: after = piecesOf file selection want) :
    piece.2.Inside (boundsOf selection rows.length) ∧ piece.2.Within rows.length := by
  have hin := (piecesOf_tile h hs want).inside piece.2
    (List.mem_map_of_mem (hpieces ▸ List.mem_append_right _ List.mem_cons_self))
  exact ⟨hin, hin.ordered, hin.stops.trans (boundsOf_within hs).inBase⟩

end Files

/-! ### The matches of a piece -/

section Matches

variable {M : Type} [MaskOps M] {rows : List (ColumnName → Scalar)} {filter : PushedFilter}
  {selection : RowSelection} {deleted : Option M}

theorem matchingRows_sorted : (matchingRows rows filter selection deleted).SortedLT :=
  Ascending.filter (Ascending.filter (Finset.sortedLT_sort _) _) _

theorem mem_matchingRows {row : ℕ} : row ∈ matchingRows rows filter selection deleted ↔
    row ∈ selection.rows rows.length ∧ live deleted row = true ∧
      filter.admits (cellsAt rows row) = true := by
  rw [matchingRows, RowSelection.liveListing, RowSelection.listing, List.mem_filter, List.mem_filter,
    Finset.mem_sort, and_assoc]

theorem matchingRows_within (hs : selection.Within rows.length) :
    IdsWithin rows.length (matchingRows rows filter selection deleted) :=
  (listing_idsWithin hs).of_sublist (List.filter_sublist.trans List.filter_sublist)

/-- Whether a row a split holds is selected, live and passes. -/
def isMatch (rows : List (ColumnName → Scalar)) (filter : PushedFilter) (selection : RowSelection)
    (deleted : Option M) (row : ℕ) : Bool :=
  ((splitBounds selection rows.length).1.all fun ids => decide (row ∈ ids)) && live deleted row &&
    filter.admits (cellsAt rows row)

/-- Within a selection's bounds, the rows that match are its matches. -/
theorem matches_between {a b : ℕ} (ha : (boundsOf selection rows.length).start ≤ a)
    (hb : b ≤ (boundsOf selection rows.length).stop) :
    (RowRange.toList ⟨a, b⟩).filter (isMatch rows filter selection deleted) =
      (matchingRows rows filter selection deleted).filter (RowRange.contains ⟨a, b⟩) := by
  refine (Ascending.filter (RowRange.sortedLT_toList _) _).eq_of_mem_iff
    (Ascending.filter matchingRows_sorted _) fun row => ?_
  rw [List.mem_filter, List.mem_filter, RowRange.mem_toList, mem_matchingRows, RowRange.contains_iff,
    RowRange.mem_rows, isMatch, Bool.and_eq_true, Bool.and_eq_true]
  dsimp only
  have hrow : a ≤ row → row < b →
      (((splitBounds selection rows.length).1.all fun ids => decide (row ∈ ids)) = true ↔
        row ∈ selection.rows rows.length) := by
    intro hlo hhi
    cases selection with
    | all =>
      have hlt : row < rows.length := lt_of_lt_of_le hhi hb
      exact ⟨fun _ => Finset.mem_range.mpr hlt, fun _ => rfl⟩
    | range part =>
      exact ⟨fun _ => RowRange.mem_rows.mpr ⟨ha.trans hlo, lt_of_lt_of_le hhi hb⟩, fun _ => rfl⟩
    | ids ids =>
      rw [splitBounds, Option.all_some, decide_eq_true_iff]
      exact List.mem_toFinset.symm
  constructor
  · rintro ⟨⟨hlo, hhi⟩, ⟨hin, hlive⟩, hpass⟩
    exact ⟨⟨(hrow hlo hhi).mp hin, hlive, hpass⟩, hlo, hhi⟩
  · rintro ⟨⟨hin, hlive, hpass⟩, hlo, hhi⟩
    exact ⟨⟨hlo, hhi⟩, ⟨(hrow hlo hhi).mpr hin, hlive⟩, hpass⟩

/-- The matches of some pieces, in turn. -/
def foundIn (rows : List (ColumnName → Scalar)) (filter : PushedFilter) (selection : RowSelection)
    (deleted : Option M) (pieces : List (ℕ × RowRange)) : List ℕ :=
  pieces.flatMap fun piece => (matchingRows rows filter selection deleted).filter piece.2.contains

theorem foundIn_tile {pieces : List (ℕ × RowRange)} {a b : ℕ} (h : Tiles a (pieces.map Prod.snd) b) :
    foundIn rows filter selection deleted pieces =
      (matchingRows rows filter selection deleted).filter (RowRange.contains ⟨a, b⟩) := by
  rw [foundIn, ← h.flatMap_filter matchingRows_sorted, List.flatMap_map]

theorem matchingRows_between (hs : selection.Within rows.length) :
    (matchingRows rows filter selection deleted).filter
        (RowRange.contains (boundsOf selection rows.length)) =
      matchingRows rows filter selection deleted := by
  refine List.filter_eq_self.mpr fun row hrow => RowRange.contains_iff.mpr (RowRange.mem_rows.mpr ?_)
  have hin := (mem_matchingRows.mp hrow).1
  cases selection with
  | all => exact ⟨Nat.zero_le _, Finset.mem_range.mp hin⟩
  | range part => exact RowRange.mem_rows.mp hin
  | ids ids => exact ⟨Nat.zero_le _, hs.inBase row (List.mem_toFinset.mp hin)⟩

theorem foundIn_append (before after : List (ℕ × RowRange)) :
    foundIn rows filter selection deleted (before ++ after) =
      foundIn rows filter selection deleted before ++ foundIn rows filter selection deleted after :=
  List.flatMap_append

/-- The matches of the first pieces are the first matches. -/
theorem foundIn_taken {file : QuadFile M} (h : file.Reads rows) (hs : selection.Within rows.length) {want : ℕ}
    {taken rest : List (ℕ × RowRange)} (hpieces : taken ++ rest = piecesOf file selection want) :
    foundIn rows filter selection deleted taken ++ foundIn rows filter selection deleted rest =
      matchingRows rows filter selection deleted := by
  rw [← foundIn_append, hpieces, foundIn_tile (piecesOf_tile h hs want)]
  exact matchingRows_between hs

end Matches

/-! ### One piece -/

section Piece

variable {M : Type} [MaskOps M] [LawfulMask M] [MaskMeet M] [LawfulMeet M] [MaskUnion M]
  [LawfulUnion M] {file : QuadFile M} {rows : List (ColumnName → Scalar)} {filter : PushedFilter}
  {selection : RowSelection} {deleted : Option M} {range : RowRange}

/-- A mask over a range keeps just the rows that match. -/
def Marks (rows : List (ColumnName → Scalar)) (filter : PushedFilter) (selection : RowSelection)
    (deleted : Option M) (split : M × RowRange) : Prop :=
  MaskOf (split.2.stop - split.2.start) (fun i =>
    isMatch rows filter selection deleted (split.2.start + i)) split.1

/-- The mask a fold evaluates of a piece. -/
def pieceMask (file : QuadFile M) (filter : PushedFilter) (selection : RowSelection)
    (deleted : Option M) (range : RowRange) : Option M :=
  evaluateFilterSplit file filter range
    (splitStartMask (selectionSplitRanges file selection).1 deleted range)

theorem pieceMask_spec (filter : PushedFilter) (h : file.Reads rows) (hs : selection.Within rows.length)
    (hdeleted : ∀ d ∈ deleted, len d = rows.length) (hrange : range.Within rows.length) :
    ∃ mask, pieceMask file filter selection deleted range = some mask ∧
      Marks rows filter selection deleted (mask, range) := by
  have hids : ∀ l ∈ (selectionSplitRanges file selection).1, IdsWithin rows.length l := by
    intro l hl
    cases selection with
    | all => cases hl
    | range part => cases hl
    | ids ids =>
      obtain rfl : ids = l := Option.mem_some_iff.mp hl
      exact hs
  have hstart := splitStartMask_spec hids hrange hdeleted
  obtain ⟨mask, hmask, hof⟩ := evaluateFilterSplit_spec filter h hrange hstart
  refine ⟨mask, hmask, hof.congr fun i _ => ?_⟩
  rw [isMatch, ← h.rowCount]
  rfl

end Piece

/-- What a mask keeps inside a selection's bounds is the matches there. -/
theorem Marks.keptIds_eq {M : Type} [MaskOps M] [LawfulMask M] {rows : List (ColumnName → Scalar)}
    {filter : PushedFilter} {selection : RowSelection} {deleted : Option M} {range : RowRange}
    {mask : M} (h : Marks rows filter selection deleted (mask, range))
    (hin : range.Inside (boundsOf selection rows.length)) :
    keptIds mask range = (matchingRows rows filter selection deleted).filter range.contains := by
  rw [MaskOf.keptIds_eq h, ← matches_between hin.starts hin.stops]
  refine List.filter_congr fun row hrow => ?_
  rw [Nat.add_sub_cancel' (RowRange.mem_toList.mp hrow).1]

theorem MaskOf.trueCount_keptIds {M : Type} [MaskOps M] [LawfulMask M] {range : RowRange}
    {p : ℕ → Bool} {mask : M} (h : MaskOf (range.stop - range.start) p mask) :
    trueCount mask = (keptIds mask range).length := by
  have hrange : range.toList = (List.range (range.stop - range.start)).map fun i =>
      range.start + i := List.range'_eq_map_range
  rw [h.keptIds_eq, h.trueCount_eq, hrange, List.filter_map, List.length_map]
  refine congrArg List.length (List.filter_congr fun i _ => ?_)
  rw [Function.comp_apply, Nat.add_sub_cancel_left]

/-! ### The folds -/

/-- A fold over pieces stops after some of them, with what these led to. -/
theorem foldPieces_spec {M S : Type} (evaluate : RowRange → Option M)
    {step : S → M → ℕ × RowRange → S × Bool} {I : List (ℕ × RowRange) → S → Prop}
    {Done : S → Prop} {pieces : List (ℕ × RowRange)}
    (hstep : ∀ before piece after state, before ++ piece :: after = pieces → I before state →
      ∃ mask, evaluate piece.2 = some mask ∧ I (before ++ [piece]) (step state mask piece).1 ∧
        ((step state mask piece).2 = false → Done (step state mask piece).1)) :
    ∀ (later before : List (ℕ × RowRange)) (state : S), before ++ later = pieces → I before state →
      ∃ taken rest last, taken ++ rest = pieces ∧ foldPieces evaluate step later state = some last ∧
        I taken last ∧ (rest = [] ∨ Done last)
  | [], before, state, hpieces, hstate =>
    ⟨before, [], state, hpieces, rfl, hstate, Or.inl rfl⟩
  | piece :: later, before, state, hpieces, hstate => by
    obtain ⟨mask, hmask, hnext, hdone⟩ := hstep before piece later state hpieces hstate
    have hjoin : (before ++ [piece]) ++ later = pieces := by
      rw [List.append_assoc, List.singleton_append, hpieces]
    rw [foldPieces, hmask, Option.bind_some]
    cases hgo : (step state mask piece).2 with
    | false =>
      exact ⟨before ++ [piece], later, _, hjoin, if_neg (by simp [hgo]), hnext, Or.inr (hdone hgo)⟩
    | true =>
      obtain ⟨taken, rest, last, htaken, hfold, hlast⟩ :=
        foldPieces_spec evaluate hstep later (before ++ [piece]) _ hjoin hnext
      exact ⟨taken, rest, last, htaken, (if_pos hgo).trans hfold, hlast⟩

section Folds

variable {M : Type} [MaskOps M] [LawfulMask M] [MaskMeet M] [LawfulMeet M] [MaskUnion M]
  [LawfulUnion M] {file : QuadFile M} {rows : List (ColumnName → Scalar)} {filter : PushedFilter}
  {selection : RowSelection} {deleted : Option M}

/-- The fold over the splits finds the matches of some of the first pieces. -/
theorem foldFilterSplitsOrdered_spec {S : Type} (filter : PushedFilter) (want : ℕ)
    (step : S → M → ℕ × RowRange → S × Bool) (I : List (ℕ × RowRange) → S → Prop) (Done : S → Prop)
    (state : S) (h : file.Reads rows) (hs : selection.Within rows.length)
    (hdeleted : ∀ d ∈ deleted, len d = rows.length) (hstart : I [] state)
    (hstep : ∀ before piece after state mask, before ++ piece :: after = piecesOf file selection want →
      Marks rows filter selection deleted (mask, piece.2) → I before state →
      I (before ++ [piece]) (step state mask piece).1 ∧
        ((step state mask piece).2 = false → Done (step state mask piece).1)) :
    ∃ taken rest last, taken ++ rest = piecesOf file selection want ∧
      foldFilterSplitsOrdered file filter selection deleted want step state = some last ∧
      I taken last ∧ (rest = [] ∨ Done last) := by
  refine foldPieces_spec (pieceMask file filter selection deleted) ?_
    (piecesOf file selection want) [] state rfl hstart
  intro before piece after state hpieces hstate
  obtain ⟨mask, hmask, hmarks⟩ :=
    pieceMask_spec filter h hs hdeleted (piece_inside h hs hpieces).2
  exact ⟨mask, hmask, hstep before piece after state mask hpieces hmarks hstate⟩

/-- The first rows that pass are the first of the matches. -/
theorem firstMatchingRows_spec (h : file.Reads rows) (hs : selection.Within rows.length)
    (hdeleted : ∀ d ∈ deleted, len d = rows.length) (want : ℕ) :
    firstMatchingRows file filter selection deleted want =
      some ((matchingRows rows filter selection deleted).take want) := by
  rw [firstMatchingRows]
  split_ifs with hwant
  · rw [hwant, List.take_zero]
  obtain ⟨taken, rest, ids, hpieces, hfold, hids, hdone⟩ :=
    foldFilterSplitsOrdered_spec filter want (idsStep want)
      (fun before ids => ids = foundIn rows filter selection deleted before)
      (fun ids => want ≤ ids.length) [] h hs hdeleted rfl
      (fun before piece after ids mask hpieces hmarks hids => by
        refine ⟨?_, fun hstop => Nat.le_of_not_lt (of_decide_eq_false hstop)⟩
        rw [idsStep, hids, hmarks.keptIds_eq (piece_inside h hs hpieces).1, foundIn_append]
        exact congrArg _ (List.flatMap_singleton _ _).symm)
  rw [hfold, Option.map_some, ← foundIn_taken h hs hpieces, hids]
  refine congrArg some ?_
  rcases hdone with rfl | hdone
  · rw [show foundIn rows filter selection deleted [] = [] from rfl, List.append_nil]
  · rw [List.take_append_of_le_length (hids ▸ hdone)]

end Folds

/-! ### Masks of splits -/

section SplitMasks

variable {M : Type} [MaskOps M]

/-- The masks of some splits keep some rows, in order. -/
structure SplitMasks.Keeps (masks : SplitMasks M) (found : List ℕ) : Prop where
  ids : masks.flatMap (fun split => keptIds split.1 split.2) = found
  counts : ∀ split ∈ masks, trueCount split.1 = (keptIds split.1 split.2).length

/-- Of masks of other splits, in the order they are kept in. -/
theorem SplitMasks.Keeps.append {masks masks' : SplitMasks M} {found found' : List ℕ}
    (h : masks.Keeps found) (h' : masks'.Keeps found') :
    SplitMasks.Keeps (masks ++ masks') (found ++ found') := by
  refine ⟨?_, fun split hsplit => ?_⟩
  · rw [List.flatMap_append, h.ids, h'.ids]
  · exact (List.mem_append.mp hsplit).elim (h.counts split) (h'.counts split)

theorem SplitMasks.keeps_nil : SplitMasks.Keeps ([] : SplitMasks M) [] :=
  ⟨rfl, fun _ h => (List.not_mem_nil h).elim⟩

end SplitMasks

/-! ### Masks of a filter -/

section MaskFolds

variable {M : Type} [MaskOps M]
  {rows : List (ColumnName → Scalar)} {filter : PushedFilter} {selection : RowSelection}
  {deleted : Option M}

/-- A fold to masks holds the masks of some splits side by side, from a row on, and how
many rows they keep, counted up to the largest index. -/
structure MaskFold.Holds (rows : List (ColumnName → Scalar)) (filter : PushedFilter)
    (selection : RowSelection) (deleted : Option M) (first last : ℕ) (fold : MaskFold M) : Prop where
  tiles : Tiles first (fold.masks.map Prod.snd) last
  marks : ∀ split ∈ fold.masks, Marks rows filter selection deleted split
  found : fold.found = min ((matchingRows rows filter selection deleted).filter
    (RowRange.contains ⟨first, last⟩)).length usizeMax

/-- The masks of some side by side runs keep the matches there. -/
theorem MaskFold.Holds.keeps [LawfulMask M] {first last : ℕ} {fold : MaskFold M}
    (h : fold.Holds rows filter selection deleted first last)
    (hfirst : (boundsOf selection rows.length).start ≤ first)
    (hlast : last ≤ (boundsOf selection rows.length).stop) :
    fold.masks.Keeps ((matchingRows rows filter selection deleted).filter
      (RowRange.contains ⟨first, last⟩)) := by
  refine ⟨?_, fun split hsplit => MaskOf.trueCount_keptIds (h.marks split hsplit)⟩
  rw [← h.tiles.flatMap_filter matchingRows_sorted, List.flatMap_map]
  refine List.flatMap_congr fun split hsplit => ?_
  have hin := h.tiles.inside split.2 (List.mem_map_of_mem hsplit)
  exact Marks.keptIds_eq (h.marks split hsplit)
    ⟨hfirst.trans hin.starts, hin.ordered, hin.stops.trans hlast⟩

variable [MaskMeet M] [LawfulMeet M]

/-- The masks of two ranges side by side keep what they kept. -/
theorem Marks.collect {mask mask' : M} {a b c : ℕ} (hab : a ≤ b) (hbc : b ≤ c)
    (h : Marks rows filter selection deleted (mask, ⟨a, b⟩))
    (h' : Marks rows filter selection deleted (mask', ⟨b, c⟩)) :
    Marks rows filter selection deleted (MaskMeet.collect mask mask', ⟨a, c⟩) := by
  have hjoined := MaskOf.collect h h'
  dsimp only at hjoined
  rw [show b - a + (c - b) = c - a by omega] at hjoined
  refine hjoined.congr fun i _ => ?_
  dsimp only
  split_ifs with hlt
  · rfl
  · rw [show b + (i - (b - a)) = a + i by omega]

variable [LawfulMask M]

/-- A mask more is held behind the last ones, or as one with the last. -/
theorem MaskFold.Holds.push {first last : ℕ} {fold : MaskFold M} {mask : M} {piece : ℕ × RowRange}
    (h : fold.Holds rows filter selection deleted first last)
    (hstart : piece.2.start = last) (hin : piece.2.Inside (boundsOf selection rows.length))
    (hmarks : Marks rows filter selection deleted (mask, piece.2)) :
    (fold.push mask piece).Holds rows filter selection deleted first piece.2.stop := by
  obtain ⟨index, start, stop⟩ := piece
  obtain rfl : start = last := hstart
  have hfound : saturatingAdd fold.found (trueCount mask) =
      min ((matchingRows rows filter selection deleted).filter
        (RowRange.contains ⟨first, stop⟩)).length usizeMax := by
    have hsplit := filter_between_append matchingRows_sorted h.tiles.le hin.ordered
      (l := matchingRows rows filter selection deleted)
    rw [← hsplit, List.length_append, h.found, MaskOf.trueCount_keptIds hmarks, hmarks.keptIds_eq hin,
      saturatingAdd]
    dsimp only
    omega
  have hbehind : MaskFold.Holds rows filter selection deleted first stop
      (⟨fold.masks ++ [(mask, ⟨start, stop⟩)], some index,
        saturatingAdd fold.found (trueCount mask)⟩ : MaskFold M) := by
    refine ⟨?_, ?_, hfound⟩
    · rw [List.map_append]
      exact h.tiles.append ⟨rfl, hin.ordered, rfl⟩
    · intro split hsplit
      rcases List.mem_append.mp hsplit with hold | hnew
      · exact h.marks split hold
      · obtain rfl := List.mem_singleton.mp hnew
        exact hmarks
  rw [MaskFold.push]
  cases hlast : fold.masks.getLast? with
  | none => exact hbehind
  | some held =>
    cases decide (fold.lastSplit = some index) with
    | false => exact hbehind
    | true =>
      -- the last mask ends where the piece starts, so the two are one run
      have hmasks : fold.masks = fold.masks.dropLast ++ [held] :=
        (List.dropLast_append_getLast? held hlast).symm
      have htiles := h.tiles
      rw [hmasks, List.map_append] at htiles
      obtain ⟨mid, hbefore, hheld⟩ := htiles.split
      obtain ⟨hmid, hle, hend⟩ := hheld
      have hmarked := h.marks held (List.mem_of_getLast? hlast)
      obtain ⟨heldMask, heldStart, heldStop⟩ := held
      obtain rfl : heldStart = mid := hmid
      obtain rfl : heldStop = start := hend
      refine ⟨?_, ?_, hfound⟩
      · rw [List.map_append]
        exact hbefore.append ⟨rfl, hle.trans hin.ordered, rfl⟩
      · intro split hsplit
        rcases List.mem_append.mp hsplit with hold | hnew
        · exact h.marks split (List.dropLast_subset _ hold)
        · obtain rfl := List.mem_singleton.mp hnew
          exact hmarked.collect hle hin.ordered hmarks

variable [MaskUnion M] [LawfulUnion M] {file : QuadFile M}

/-- A filter's masks, up to the split that brings the matches to `want`, keep the first
matches, all of them where there are fewer. -/
theorem splitMasksUntil_spec (filter : PushedFilter) (h : file.Reads rows) (hs : selection.Within rows.length)
    (hdeleted : ∀ d ∈ deleted, len d = rows.length) (want : ℕ) :
    ∃ masks found rest, splitMasksUntil file filter selection deleted want = some masks ∧
      masks.Keeps found ∧ found ++ rest = matchingRows rows filter selection deleted ∧
      (rest = [] ∨ want ≤ found.length) := by
  rw [splitMasksUntil]
  split_ifs with hwant
  · exact ⟨[], [], _, rfl, SplitMasks.keeps_nil, List.nil_append _, Or.inr hwant.le⟩
  have htiles := piecesOf_tile h hs want
  obtain ⟨taken, rest, fold, hpieces, hfold, hholds, hdone⟩ :=
    foldFilterSplitsOrdered_spec filter want (maskStep want)
      (fun before fold => ∀ last,
        Tiles (boundsOf selection rows.length).start (before.map Prod.snd) last →
        fold.Holds rows filter selection deleted (boundsOf selection rows.length).start last)
      (fun fold => want ≤ fold.found) ⟨[], none, 0⟩ h hs hdeleted
      (fun last hlast => by
        obtain rfl : (boundsOf selection rows.length).start = last := hlast
        refine ⟨rfl, fun _ hnone => (List.not_mem_nil hnone).elim, ?_⟩
        have hnone : Tiles (boundsOf selection rows.length).start []
          (boundsOf selection rows.length).start := rfl
        rw [← hnone.flatMap_filter matchingRows_sorted]
        rfl)
      (fun before piece after fold mask hpieces hmarks hheld => by
        refine ⟨fun last hlast => ?_, fun hstop => Nat.le_of_not_lt (of_decide_eq_false hstop)⟩
        rw [List.map_append] at hlast
        obtain ⟨mid, hmid, hstart, -, hend⟩ := hlast.split
        obtain rfl : piece.2.stop = last := hend
        exact (hheld mid hmid).push hstart (piece_inside h hs hpieces).1 hmarks)
  rw [hfold]
  rw [← hpieces, List.map_append] at htiles
  obtain ⟨last, hlast, hrest⟩ := htiles.split
  have hfold' := hholds last hlast
  have hfound : foundIn rows filter selection deleted taken =
      (matchingRows rows filter selection deleted).filter
        (RowRange.contains ⟨(boundsOf selection rows.length).start, last⟩) := foundIn_tile hlast
  refine ⟨fold.masks, foundIn rows filter selection deleted taken,
    foundIn rows filter selection deleted rest, rfl, ?_, foundIn_taken h hs hpieces, ?_⟩
  · rw [hfound]
    exact hfold'.keeps le_rfl hrest.le
  · rcases hdone with rfl | hdone
    · exact Or.inl rfl
    · refine Or.inr (hdone.trans ?_)
      rw [hfold'.found, hfound]
      exact min_le_left _ _

theorem splitMasks_spec (h : file.Reads rows) (hs : selection.Within rows.length)
    (hdeleted : ∀ d ∈ deleted, len d = rows.length) :
    ∃ masks, splitMasks file filter selection deleted = some masks ∧
      masks.Keeps (matchingRows rows filter selection deleted) := by
  obtain ⟨masks, found, rest, hmasks, hkeeps, hall, hdone⟩ :=
    splitMasksUntil_spec filter h hs hdeleted usizeMax
  refine ⟨masks, hmasks, ?_⟩
  -- a file has no more rows than an index reaches, so none is left out
  have hlen : (matchingRows rows filter selection deleted).length ≤ rows.length :=
    (matchingRows_within hs).length_le
  obtain rfl : rest = [] := by
    rcases hdone with hnone | hmany
    · exact hnone
    · have htotal := congrArg List.length hall
      rw [List.length_append] at htotal
      have := h.small
      exact List.length_eq_zero_iff.mp (by omega)
  rwa [← hall, List.append_nil]

end MaskFolds

end Store
