/-
A filter evaluated over a file split by split.

A match pushes the pattern components no index resolved down to a file's reads.  A split's
rows start from the selection and the tombstones; the zones where every row passes are
taken unevaluated, the statistics prune what they can, and each conjunct is evaluated over
what is left, in whatever order the evaluation has come to test them.

* `PushedFilter`, `CodeEqs` — the filter, and the code equalities it may be;
* `QuadFile` — a file's quad table, with what the array library answers of it;
* `evaluateFilterSplit` — one split's mask;
* `foldFilterSplitsOrdered` — the splits in file order, up to where a fold stops;
* `SplitMasks`, `splitMasksUntil`, `firstMatchingRows` — what the folds collect.

`none` stands for a panic or an error of the array library.
-/
import VortexRdf.ColumnChunks
import VortexRdf.Gather
import VortexRdf.Residuals
import VortexRdf.TermChunks

namespace Store

open Dictionary Terms Masks MaskOps Buffers Ascending
open EncodedSearch (ColumnChunks)

/-! ### Masks of splits -/

/-- The rows two masks both keep, and the rows of two masks one behind the other. -/
class MaskMeet (M : Type*) where
  bitand : M → M → M
  collect : M → M → M

open MaskMeet in
class LawfulMeet (M : Type*) [MaskOps M] [MaskMeet M] : Prop where
  len_bitand : ∀ a b : M, len a = len b → len (bitand a b) = len a
  value_bitand : ∀ (a b : M) i, len a = len b → i < len a →
    value (bitand a b) i = (value a i && value b i)
  len_collect : ∀ a b : M, len (collect a b) = len a + len b
  value_collect : ∀ (a b : M) i, i < len a + len b →
    value (collect a b) i = if i < len a then value a i else value b (i - len a)

open Masks.BitMask in
instance : MaskMeet BitMask where
  bitand a b := ofFn a.bits.length fun i => a.get i && b.get i
  collect a b := ofFn (a.bits.length + b.bits.length) fun i =>
    if i < a.bits.length then a.get i else b.get (i - a.bits.length)

open Masks.BitMask in
instance : LawfulMeet BitMask where
  len_bitand _ _ _ := length_ofFn _ _
  value_bitand _ _ _ _ h := get_ofFn _ h
  len_collect _ _ := length_ofFn _ _
  value_collect _ _ _ h := get_ofFn _ h

/-- Whether a mask keeps no row. -/
def allFalse {M : Type*} [MaskOps M] (m : M) : Bool := decide (trueCount m = 0)

/-! ### Pushed filters -/

/-- A top-level condition of a filter: the literal no row passes, a column held to a value,
or a test of any other shape. -/
inductive Conjunct where
  | litFalse
  | eq (eq : Equality)
  | test (passes : (ColumnName → Scalar) → Bool)

/-- Whether a row passes; a comparison with a null does not hold. -/
def Conjunct.admits (row : ColumnName → Scalar) : Conjunct → Bool
  | litFalse => false
  | eq (name, value) => row name == value && value != .null
  | test passes => passes row

/-- The column and code a conjunct holds to each other, if it does. -/
def Conjunct.codeEq : Conjunct → Option (ColumnName × TermCode)
  | litFalse => none
  | eq (name, value) => (unsignedValue value).map fun code => (name, code)
  | test _ => none

/-- The codes columns are pinned to, in the filter's order. -/
abbrev CodeEqs := List (ColumnName × TermCode)

/-- A filter a match pushed down to a file view. -/
structure PushedFilter where
  conjuncts : List Conjunct

namespace PushedFilter

def admits (filter : PushedFilter) (row : ColumnName → Scalar) : Bool :=
  filter.conjuncts.all (Conjunct.admits row)

/-- The code equalities the filter is, none for one of another shape. -/
def eqs (filter : PushedFilter) : Option CodeEqs :=
  filter.conjuncts.mapM Conjunct.codeEq

end PushedFilter

/-! ### The quad table of a file -/

/-- A file's quad table: its natural splits, its zone maps and chunk probes, and what the
layout reader answers of a conjunct over a range, given the mask of the rows still in
question.  What the splits have reported when one starts depends on how they ran. -/
structure QuadFile (M : Type) where
  rowCount : ℕ
  splits : List RowRange
  pruningEvaluation : RowRange → Conjunct → M → Option M
  filterEvaluation : RowRange → Conjunct → M → Option M
  zonesEnabled : Bool
  zones : QuadZones
  columnChunks : ColumnName → Option ColumnChunks
  /-- The rows tested and the rows kept of each conjunct, when a split starts. -/
  observed : RowRange → List (ℕ × ℕ)
  /-- How the kept shares of the rows tested compare, in floating point. -/
  keepsLess : ℕ × ℕ → ℕ × ℕ → Bool

/-- The rank of a filter column in the order before any conjunct was tested. -/
def columnRank : ColumnName → ℕ
  | .s => 0
  | .o => 1
  | .oValue => 1
  | .p => 2
  | .g => 3
  | _ => 4

/-- The conjuncts' order before any was tested: by column where they are code equalities. -/
def priorOrder (filter : PushedFilter) : List ℕ :=
  let prior := List.range filter.conjuncts.length
  match filter.eqs with
  | none => prior
  | some eqs =>
    let rank (i : ℕ) : ℕ := (eqs[i]?.map fun eq => columnRank eq.1).getD 0
    prior.mergeSort fun a b => rank a ≤ rank b

/-- The order a split tests the conjuncts in: the prior one until every conjunct was
tested by some split, then by the share of rows each kept. -/
def sequence {M : Type} (file : QuadFile M) (filter : PushedFilter) (range : RowRange) : List ℕ :=
  let observed := file.observed range
  if observed.any fun seen => seen.1 == 0 then priorOrder filter
  else (priorOrder filter).mergeSort fun a b =>
    file.keepsLess (observed.getD a (0, 0)) (observed.getD b (0, 0))

section Splits

variable {M : Type} [MaskOps M] [MaskMeet M] [MaskUnion M]

open MaskMeet MaskUnion

/-- The rows of a split an id list covers, every one without a list. -/
def selectedMask (ids : Option (List RowId)) (range : RowRange) : M :=
  match ids with
  | none => newTrue (range.stop - range.start)
  | some ids =>
    fromIndices (range.stop - range.start) ((ids.filter range.contains).map (· - range.start))

/-- The rows a split starts with, less the tombstones. -/
def splitStartMask (ids : Option (List RowId)) (deleted : Option M) (range : RowRange) : M :=
  match deleted with
  | none => selectedMask ids range
  | some deleted =>
    bitand (selectedMask ids range) (MaskOps.not (slice deleted range.start range.stop))

/-- What the statistics leave of a mask, conjunct by conjunct until nothing is left. -/
def pruneMask (file : QuadFile M) (range : RowRange) : List Conjunct → M → Option M
  | [], mask => some mask
  | conjunct :: conjuncts, mask =>
    if allFalse mask then some mask
    else (file.pruningEvaluation range conjunct mask).bind fun pruned =>
      pruneMask file range conjuncts (bitand mask pruned)

/-- What the conjuncts leave of a mask, evaluated over what each one before it left. -/
def evaluateMask (file : QuadFile M) (range : RowRange) : List Conjunct → M → Option M
  | [], mask => some mask
  | conjunct :: conjuncts, mask =>
    if allFalse mask then some mask
    else (file.filterEvaluation range conjunct mask).bind (evaluateMask file range conjuncts)

def evaluateConjuncts (file : QuadFile M) (filter : PushedFilter) (range : RowRange) (start : M) :
    Option M :=
  ((sequence file filter range).mapM fun i => filter.conjuncts[i]?).bind fun conjuncts =>
    (pruneMask file range conjuncts start).bind (evaluateMask file range conjuncts)

/-- The quad column and code of each equality of a filter a zone can be taken whole for. -/
def everyRowStep (file : QuadFile M) (filter : PushedFilter) : Option (List (QuadColumn × TermCode)) :=
  if !file.zonesEnabled then none
  else
    match filter.eqs.bind fun eqs => eqs.mapM fun eq =>
        (primarySlot eq.1).map fun slot => (slot, eq.2) with
    | none => none
    | some columns => if columns = [] then none else some columns

/-- The equalities' zone checks; none where a column has no zone map. -/
def everyRowSet (file : QuadFile M) (columns : List (QuadColumn × TermCode)) : Option ZoneSet :=
  match columns.zipIdx.mapM fun column =>
      (file.zones column.1.1).map fun zones => (⟨column.2, column.1.2, zones⟩ : ZoneCheck) with
  | none => none
  | some checks => ZoneSet.new checks 0

/-- Runs side by side as one. -/
def pushSlice (slices : List (ℕ × ℕ)) (run : ℕ × ℕ) : List (ℕ × ℕ) :=
  match slices.getLast? with
  | some last =>
    if last.2 = run.1 then slices.dropLast ++ [(last.1, run.2)] else slices ++ [run]
  | none => slices ++ [run]

/-- The rows of a split in zones where every row holds every code, beside the rest. -/
def everyRowZones (file : QuadFile M) (filter : PushedFilter) (range : RowRange) (start : M) :
    Option M × M :=
  match (everyRowStep file filter).bind (everyRowSet file) with
  | none => (none, start)
  | some set =>
    if range.stop ≤ range.start ∨ allFalse start then (none, start)
    else
      let slices := ((set.parts range).filter fun part => set.classOf part.zone == .all).foldl
        (fun slices part =>
          pushSlice slices (part.rows.start - range.start, part.rows.stop - range.start)) []
      if slices = [] then (none, start)
      else
        let all := bitand start (fromSlices (len start) slices)
        if allFalse all then (none, start) else (some all, bitand start (MaskOps.not all))

/-- The rows of a split that pass a filter, of those a mask starts with. -/
def evaluateFilterSplit (file : QuadFile M) (filter : PushedFilter) (range : RowRange) (start : M) :
    Option M :=
  let zones := everyRowZones file filter range start
  (evaluateConjuncts file filter range zones.2).map fun found =>
    match zones.1 with
    | some all => union found all
    | none => found

/-! ### Folds over the splits -/

/-- The ids that narrow each split's mask, and the bounds the splits are clamped to. -/
def splitBounds (selection : RowSelection) (rowCount : ℕ) : Option (List RowId) × RowRange :=
  match selection with
  | .all => (none, ⟨0, rowCount⟩)
  | .range part => (none, part)
  | .ids ids => (some ids, ⟨0, rowCount⟩)

/-- The natural splits a selection touches, each clamped to its bounds. -/
def selectionSplitRanges (file : QuadFile M) (selection : RowSelection) :
    Option (List RowId) × List RowRange :=
  let bounds := splitBounds selection file.rowCount
  (bounds.1, clip bounds.2 file.splits)

/-- A range cut into growing pieces, beside the size the next piece has. -/
def cutGrowing : ℕ → RowRange → ℕ → List RowRange × ℕ
  | 0, _, size => ([], size)
  | fuel + 1, rest, size =>
    if rest.start < rest.stop then
      let stop := min (saturatingAdd rest.start size) rest.stop
      let later := cutGrowing fuel ⟨stop, rest.stop⟩ (min (size * PIECE_GROWTH) usizeMax)
      (⟨rest.start, stop⟩ :: later.1, later.2)
    else ([], size)

/-- Ranges cut into growing pieces, the growth carried from range to range, each piece
beside the index of its range. -/
def growingPiecesFrom : List RowRange → ℕ → ℕ → List (ℕ × RowRange)
  | [], _, _ => []
  | range :: ranges, index, size =>
    let pieces := cutGrowing (range.stop - range.start) range size
    pieces.1.map (fun piece => (index, piece)) ++ growingPiecesFrom ranges (index + 1) pieces.2

/-- Whether a fold that stops at so many matches cuts the splits into pieces. -/
def cutIntoPieces (want : ℕ) : Bool := decide (want < FIRST_PIECE_ROWS)

/-- The masks of some pieces in file order, each fed to a step beside the index of its
split, until the step is done. -/
def foldPieces {S : Type} (evaluate : RowRange → Option M) (step : S → M → ℕ × RowRange → S × Bool) :
    List (ℕ × RowRange) → S → Option S
  | [], state => some state
  | piece :: pieces, state =>
    (evaluate piece.2).bind fun mask =>
      let next := step state mask piece
      if next.2 then foldPieces evaluate step pieces next.1 else some next.1

def foldFilterSplitsOrdered {S : Type} (file : QuadFile M) (filter : PushedFilter)
    (selection : RowSelection) (deleted : Option M) (want : ℕ)
    (step : S → M → ℕ × RowRange → S × Bool) (state : S) : Option S :=
  let ranges := selectionSplitRanges file selection
  let pieces := if cutIntoPieces want then growingPiecesFrom ranges.2 0 FIRST_PIECE_ROWS
    else ranges.2.zipIdx.map fun place => (place.2, place.1)
  foldPieces (fun range =>
    evaluateFilterSplit file filter range (splitStartMask ranges.1 deleted range)) step pieces state

/-- The row ids a mask keeps over a range. -/
def keptIds (mask : M) (range : RowRange) : List RowId :=
  match indices mask with
  | .all => range.toList
  | .none => []
  | .some places => places.map fun place => range.start + place

/-- A filter's evaluation over a selection: each split's mask beside its range. -/
abbrev SplitMasks (M : Type) := List (M × RowRange)

/-- What a fold to masks holds: the masks, the split of the last, the matches counted. -/
structure MaskFold (M : Type) where
  masks : SplitMasks M
  lastSplit : Option ℕ
  found : ℕ

/-- A split's mask, joined to the last where that holds the split's first rows. -/
def MaskFold.push (fold : MaskFold M) (mask : M) (piece : ℕ × RowRange) : MaskFold M :=
  let found := saturatingAdd fold.found (trueCount mask)
  match fold.masks.getLast?, decide (fold.lastSplit = some piece.1) with
  | some last, true =>
    ⟨fold.masks.dropLast ++ [(collect last.1 mask, ⟨last.2.start, piece.2.stop⟩)], some piece.1, found⟩
  | _, _ => ⟨fold.masks ++ [(mask, piece.2)], some piece.1, found⟩

/-- One more mask of a fold to masks, and whether more matches are wanted. -/
def maskStep (want : ℕ) (fold : MaskFold M) (mask : M) (piece : ℕ × RowRange) : MaskFold M × Bool :=
  let next := fold.push mask piece
  (next, decide (next.found < want))

/-- A filter's masks in file order, up to the split that brings the matches to `want`. -/
def splitMasksUntil (file : QuadFile M) (filter : PushedFilter) (selection : RowSelection)
    (deleted : Option M) (want : ℕ) : Option (SplitMasks M) :=
  if want = 0 then some []
  else
    (foldFilterSplitsOrdered file filter selection deleted want (maskStep want) ⟨[], none, 0⟩).map
      MaskFold.masks

def splitMasks (file : QuadFile M) (filter : PushedFilter) (selection : RowSelection)
    (deleted : Option M) : Option (SplitMasks M) :=
  splitMasksUntil file filter selection deleted usizeMax

/-- The rows one more mask keeps, and whether more matches are wanted. -/
def idsStep (want : ℕ) (ids : List RowId) (mask : M) (piece : ℕ × RowRange) : List RowId × Bool :=
  let ids := ids ++ keptIds mask piece.2
  (ids, decide (ids.length < want))

/-- The first rows that pass a filter inside a selection, in file order. -/
def firstMatchingRows (file : QuadFile M) (filter : PushedFilter) (selection : RowSelection)
    (deleted : Option M) (want : ℕ) : Option (List RowId) :=
  if want = 0 then some []
  else
    (foldFilterSplitsOrdered file filter selection deleted want (idsStep want) []).map fun ids =>
      ids.take want

end Splits

/-! ### How exact rows are read -/

/-- Whether the reads by id can check a filter on the columns they read. -/
def pointReadable {M : Type} (file : QuadFile M) (columns : List ColumnName)
    (filter : Option PushedFilter) : Bool :=
  (filter.all fun filter => filter.eqs.isSome) && columns.all fun name => (file.columnChunks name).isSome

/-- Ids grouped by the split that holds them, those past the last split as one group; a
turn for each id at most. -/
def idsBySplit (splits : List RowRange) : ℕ → List RowId → ℕ → List (Option RowRange × List RowId)
  | 0, _, _ => []
  | fuel + 1, ids, index =>
    match ids with
    | [] => []
    | first :: _ =>
      let index := index + partitionPoint (fun split => decide (split.stop ≤ first)) (splits.drop index)
      let held := match splits[index]? with
        | some split => partitionPoint (fun id => decide (id < split.stop)) ids
        | none => ids.length
      (splits[index]?, ids.take held) :: idsBySplit splits fuel (ids.drop held) (index + 1)

/-- How many ids, how many splits hold them, and how many rows those have. -/
structure Footprint where
  ids : ℕ
  splits : ℕ
  rows : ℕ

namespace Footprint

def of (ids : List RowId) (splits : List RowRange) : Footprint :=
  let held := ((idsBySplit splits ids.length ids 0).map Prod.fst).takeWhile Option.isSome
  ⟨ids.length, held.length, (held.filterMap fun split => split.map fun s => s.stop - s.start).sum⟩

def POINT_IDS_PER_SPLIT : ℕ := 16

def TAKE_ROWS : ℕ := 16

def saturatingMul (a b : ℕ) : ℕ := min (a * b) usizeMax

/-- Whether the ids fit point reads. -/
def pointsFit (footprint : Footprint) : Bool :=
  pointSized footprint.ids ||
    decide (footprint.ids ≤ saturatingMul POINT_IDS_PER_SPLIT footprint.splits)

/-- Whether the ids fit a take. -/
def takeFits (footprint : Footprint) : Bool :=
  decide (saturatingMul footprint.ids TAKE_ROWS ≤ footprint.rows)

end Footprint

/-- Which read the rows of an exact selection are given. -/
inductive ReadKind where
  | points
  | take
  | masks
  | scan
deriving DecidableEq

namespace ReadKind

def of {M : Type} (file : QuadFile M) (columns : List ColumnName) (filter : Option PushedFilter)
    (selection : RowSelection) : ReadKind :=
  let pointable := pointReadable file columns filter
  let rest : ReadKind := if pointable && filter.isSome then .masks else .scan
  if pointable && selection.isPointSized then .points
  else
    match selection with
    | .ids ids =>
      let footprint := Footprint.of ids file.splits
      if pointable && footprint.pointsFit then .points
      else if filter.isNone && footprint.takeFits then .take
      else rest
    | _ => rest

end ReadKind

end Store
