/-
Reads of the row ids of a file's index child.

A located run's ids are read point by point through the chunk probes of the child's row id
column when the run is small, else, or when a chunk declines, by a scan of those rows; the
ids under some equalities by a scan that filters.

* `ridPointReads`, `scanIndexRowIds`, `scanLocatedRowIds`, `readLocatedRids` — the reads;
* `RidTable`, `ChildReader.ReadsRids` — the child's row ids, and what its reader answers;
* `readLocatedRids_spec`, `scanIndexRowIds_spec` — each read gives its rows' ids in base order;
* `ChildReader.Reads.readsRids` — a reader of a copy's entries reads their row ids.

`none` stands for a panic or an error of the array library.
-/
import VortexRdf.FilePlanReads

namespace Indexes

open Ascending Buffers Builds Dictionary Masks MaskOps Terms
open EncodedSearch (ColumnChunks FastLanes)
open Store hiding Row

/-! ### The reads -/

/-- The row ids of a scan read whole, in base order. -/
def readScannedRowIds (read : Option ChildChunk) : Option (List RowId) :=
  read.bind fun chunk =>
    if chunk.len = 0 then some [] else (chunk.codes COL_RID).bind sortedRowIds

/-- The ids of a located run read point by point; none when the column's chunks decline. -/
def ridPointReads (fl : FastLanes) (child : ChildReader) (range : RowRange) :
    Option (Option (List RowId)) :=
  match child.columnChunks COL_RID with
  | none => some none
  | some chunks =>
    (chunks.valuesAt fl range.toList).map fun values =>
      values.map fun values => inOrder (values.map baseRow)

/-- The ids of the child's rows where every equality holds. -/
def scanIndexRowIds (child : ChildReader) (constraints : List Equality) : Option (List RowId) :=
  -- a scan under no equality would give every row, which no resolution asks for
  if constraints = [] then some []
  else readScannedRowIds (child.readAllRows ⟨select [COL_RID], none, none, some constraints, none⟩)

def scanLocatedRowIds (child : ChildReader) (range : RowRange) : Option (List RowId) :=
  readScannedRowIds (child.readAllRows ⟨select [COL_RID], some range, none, none, none⟩)

/-- The ids of a located run, or of a window of one, in base order; an empty one is never
asked for. -/
def readLocatedRids (fl : FastLanes) (child : ChildReader) (range : RowRange) :
    Option (List RowId) :=
  if range.stop ≤ range.start then none
  else if pointSized (range.stop - range.start) then
    (ridPointReads fl child range).bind fun read =>
      match read with
      | some ids => some ids
      | none => scanLocatedRowIds child range
  else scanLocatedRowIds child range

/-! ### What a child holds -/

/-- The rows of an index child: their row ids, what its other columns hold, and the
equalities a scan of it takes. -/
structure RidTable where
  rids : List RowId
  cell : ℕ → ColumnName → Scalar
  asks : Equality → Prop

namespace RidTable

variable (table : RidTable)

def holds (eqs : List Equality) (i : ℕ) : Bool := eqs.all fun eq => table.cell i eq.1 == eq.2

/-- The rows where some equalities hold. -/
def holdingRows (eqs : List Equality) : List ℕ :=
  (List.range table.rids.length).filter (table.holds eqs)

/-- The row ids of some rows, in the child's order. -/
def ridsAt (places : List ℕ) : List RowId := places.map (ColumnChunks.column table.rids)

/-- The row id column of some rows. -/
def ridChunk (places : List ℕ) : ChildChunk where
  len := places.length
  columns := [(COL_RID, (table.ridsAt places).map .num)]

theorem ridChunk_codes (places : List ℕ) :
    (table.ridChunk places).codes COL_RID = some (table.ridsAt places) := by
  rw [ChildChunk.codes, show (table.ridChunk places).column COL_RID =
    some ((table.ridsAt places).map .num) from rfl, Option.bind_some, List.mapM_map]
  exact (mapM_some fun _ _ => rfl).trans (congrArg some (List.map_id _))

end RidTable

/-- The scans of a child's row ids give those of the table, and its chunk probes read them. -/
structure ChildReader.ReadsRids (fl : FastLanes) (child : ChildReader) (table : RidTable) :
    Prop where
  ranged : ∀ range : RowRange, range.Within table.rids.length →
    child.readAllRows ⟨select [COL_RID], some range, none, none, none⟩ =
      some (table.ridChunk range.toList)
  filtered : ∀ eqs : List Equality, eqs ≠ [] → (∀ eq ∈ eqs, table.asks eq) →
    child.readAllRows ⟨select [COL_RID], none, none, some eqs, none⟩ =
      some (table.ridChunk (table.holdingRows eqs))
  probed : ∀ handle, child.columnChunks COL_RID = some handle → handle.Cut fl ∧
    handle.rowCount = table.rids.length ∧ handle.concat fl = table.rids.map some

/-! ### What the reads give -/

section Spec

variable {fl : FastLanes} {child : ChildReader} {table : RidTable} {range : RowRange}

theorem readScannedRowIds_spec {places : List ℕ} (hnodup : (table.ridsAt places).Nodup) :
    readScannedRowIds (some (table.ridChunk places)) = some (inOrder (table.ridsAt places)) := by
  rw [readScannedRowIds, Option.bind_some, table.ridChunk_codes, Option.bind_some,
    sortedRowIds_eq hnodup]
  split_ifs with hempty
  · obtain rfl : places = [] := List.eq_nil_of_length_eq_zero hempty
    rw [RidTable.ridsAt, List.map_nil, inOrder, List.mergeSort_nil]
  · rfl

theorem ridPointReads_spec (h : child.ReadsRids fl table) (hrange : range.Within table.rids.length) :
    ∃ found, ridPointReads fl child range = some found ∧
      Kept found (inOrder (table.ridsAt range.toList)) := by
  rw [ridPointReads]
  cases hhandle : child.columnChunks COL_RID with
  | none => exact ⟨none, rfl, kept_none _⟩
  | some handle =>
    obtain ⟨hcut, hcount, hconcat⟩ := h.probed handle hhandle
    have hrows : ∀ row ∈ range.toList, row < handle.rowCount := by
      intro row hrow
      rw [hcount]
      exact lt_of_lt_of_le (RowRange.mem_toList.mp hrow).2 hrange.inBase
    dsimp only
    rcases ColumnChunks.valuesAt_answers hcut hconcat hrows with ⟨values, hvalues, rfl⟩ | ⟨hvalues, -⟩
    · rw [hvalues, Option.map_some, Option.map_some, show List.map baseRow _ = _ from List.map_id _]
      exact ⟨_, rfl, kept_some _⟩
    · rw [hvalues]
      exact ⟨none, rfl, kept_none _⟩

/-- The ids of a located run come back in base order, whichever way they are read. -/
theorem readLocatedRids_spec (h : child.ReadsRids fl table) (hrange : range.Within table.rids.length)
    (hsome : range.start < range.stop) (hnodup : (table.ridsAt range.toList).Nodup) :
    readLocatedRids fl child range = some (inOrder (table.ridsAt range.toList)) := by
  have hscan : scanLocatedRowIds child range = some (inOrder (table.ridsAt range.toList)) := by
    rw [scanLocatedRowIds, h.ranged range hrange]
    exact readScannedRowIds_spec hnodup
  rw [readLocatedRids, if_neg (Nat.not_le.mpr hsome)]
  split_ifs
  · obtain ⟨found, hfound, hkept⟩ := ridPointReads_spec h hrange
    rw [hfound, Option.bind_some]
    cases found with
    | none => exact hscan
    | some ids => rw [hkept ids rfl]
  · exact hscan

/-- The ids under some equalities come back in base order. -/
theorem scanIndexRowIds_spec (h : child.ReadsRids fl table) {eqs : List Equality} (hne : eqs ≠ [])
    (hasks : ∀ eq ∈ eqs, table.asks eq) (hnodup : (table.ridsAt (table.holdingRows eqs)).Nodup) :
    scanIndexRowIds child eqs = some (inOrder (table.ridsAt (table.holdingRows eqs))) := by
  rw [scanIndexRowIds, if_neg hne, h.filtered eqs hne hasks]
  exact readScannedRowIds_spec hnodup

end Spec

/-! ### A copy's row ids -/

section Copy

variable {V : Type} [LinearOrder V] [TermColumn V] [Inhabited V]

/-- The row ids of a copy of some rows, beside the terms it holds. -/
def copyTable (family : CopyFamily) (rows : List (Row V)) : RidTable where
  rids := ((IndexChild.copy family).entries rows).map Prod.snd
  cell i name := childScalar (entryAt family rows i) (columnText name)
  asks := TermEquality V

/-- A row id of the copy, by its place. -/
theorem copyTable_rid {family : CopyFamily} {rows : List (Row V)} {i : ℕ} (hi : i < rows.length) :
    (copyTable family rows).rids[i]? = some ((IndexChild.copy family).ridAt rows i) := by
  have hentries : i < ((IndexChild.copy family).entries rows).length := by
    rwa [IndexChild.length_entries]
  rw [copyTable, List.getElem?_map, List.getElem?_eq_getElem hentries, Option.map_some,
    IndexChild.ridAt, List.getD_eq_getElem _ _ hentries]

theorem copyTable_length (family : CopyFamily) (rows : List (Row V)) :
    (copyTable family rows).rids.length = rows.length := by
  rw [copyTable, List.length_map, IndexChild.length_entries]

/-- A scan of a copy's row ids is the chunk of its rows' ids. -/
theorem copyTable_chunk {family : CopyFamily} {rows : List (Row V)} {scan : ChildScan}
    (hselect : scan.projection = select [COL_RID]) {places : List ℕ}
    (hplaces : scan.places family rows = places) (hin : ∀ i ∈ places, i < rows.length) :
    scan.chunk family rows = (copyTable family rows).ridChunk places := by
  rw [chunk_select hselect hplaces, chunkOf, RidTable.ridChunk, RidTable.ridsAt, List.map_map]
  have hcells : places.map (fun i => childScalar (entryAt family rows i) COL_RID) =
      places.map (Scalar.num ∘ ColumnChunks.column (copyTable family rows).rids) := by
    refine List.map_congr_left fun i hi => ?_
    rw [Function.comp_apply, ColumnChunks.column_of_getElem? (copyTable_rid (hin i hi))]
    rfl
  exact congrArg (ChildChunk.mk places.length) (congrArg (fun cells => [(COL_RID, cells)]) hcells)

/-- A reader of a copy's entries reads their row ids. -/
theorem ChildReader.Reads.readsRids {fl : FastLanes} {child : ChildReader} {family : CopyFamily}
    {rows : List (Row V)} (h : child.Reads family rows fl) :
    child.ReadsRids fl (copyTable family rows) where
  ranged range hrange := by
    rw [copyTable_length] at hrange
    rw [h.scans _ (valid_range rid_mem hrange fun n hn => by cases hn)]
    refine congrArg some (copyTable_chunk rfl (places_range hrange) fun i hi => ?_)
    exact lt_of_lt_of_le (RowRange.mem_toList.mp hi).2 hrange.inBase
  filtered eqs hne hasks := by
    have hcolumns : ∀ column ∈ select [COL_RID], ∀ name, column.2 = .column name →
        name ∈ CHILD_COLUMNS := select_columns rid_mem
    have hholding : (copyTable family rows).holdingRows eqs = holdingPlaces family rows eqs := by
      rw [RidTable.holdingRows, copyTable_length]
      rfl
    rw [h.scans _ (valid_filter hcolumns hne hasks), hholding]
    refine congrArg some (copyTable_chunk rfl places_filter fun i hi => ?_)
    exact List.mem_range.mp (List.mem_of_mem_filter hi)
  probed handle hhandle := by
    obtain ⟨hcut, hcount, values, hconcat, hvalues⟩ := h.probed COL_RID handle hhandle
    refine ⟨hcut, by rw [hcount, copyTable_length], ?_⟩
    have hrids : (copyTable family rows).rids = values := by
      refine List.ext_getElem? fun i => ?_
      have hlen : values.length = rows.length := by
        rw [← List.length_map (f := Scalar.num), ← hvalues, List.length_map, List.length_range]
      by_cases hi : i < rows.length
      · have hat := congrArg (·[i]?) hvalues
        simp only [List.getElem?_map, List.getElem?_range hi, Option.map_some] at hat
        obtain ⟨v, hv, hsame⟩ := Option.map_eq_some_iff.mp hat.symm
        rw [hv, copyTable_rid hi, Scalar.num.inj hsame]
        rfl
      · rw [List.getElem?_eq_none (by rw [copyTable_length]; omega),
          List.getElem?_eq_none (by omega)]
    rw [hrids, hconcat]

end Copy

end Indexes
