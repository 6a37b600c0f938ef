/-
The serve plan of an in-memory index: a view's quads read off the copy that answered it.

The rows a match resolved are a contiguous run of the copy; a plan covers the run, a part
of it a window cut, or the rows of it a keep or a chained match kept.  Tombstones name
base rows, so a range drops its tombstoned rows as it is read, through their row ids.

* `ServeDecode` — the layout a copy decodes through, and the order its reads follow;
* `ServedRows`, `ServedSpan`, `LiveRows` — rows of a copy, each beside its base row id;
* `InMemoryServePlan` — the plan;
* `keptRows`, `rowsWhere`, `live` — its live rows, those a test admits, and those some
  equalities hold of.

`none` stands for a panic or an error of the array library.
-/
import VortexRdf.LazyIds

namespace Indexes

open Ascending Buffers Builds Masks MaskOps Terms
open EncodedSearch (FastLanes Node)
open Store hiding Row

/-- A sort order of quad rows, by the columns compared first to last. -/
inductive SortOrder where
  | spog
  | posg
  | ospg
deriving DecidableEq

/-- How a plan's columns decode, and the order its reads follow. -/
structure ServeDecode where
  decodeLayout : LayoutStrategy
  order : SortOrder
deriving DecidableEq

/-- Rows of a copy, each beside the base row id it mirrors. -/
structure ServedRows where
  positions : List ℕ
  rids : List RowId
deriving DecidableEq

/-- The rows of its copy a served view covers, in the copy's order. -/
inductive ServedSpan where
  /-- A run of the copy, tombstoned rows among them. -/
  | range (range : RowRange)
  /-- Rows kept of it, each live. -/
  | kept (rows : ServedRows)
deriving DecidableEq

/-- A copy's serving plan for an in-memory view. -/
structure InMemoryServePlan (V : Type) where
  decode : ServeDecode
  component : IndexComponent V
  /-- The rows of the component the match resolved. -/
  run : RowRange
  span : ServedSpan
  /-- Whether a window, keep, partition or chained match cut the view's rows. -/
  narrowed : Bool
  ids : ComponentRun

namespace InMemoryServePlan

variable {V : Type}

def new (decode : ServeDecode) (component : IndexComponent V) (run : RowRange)
    (ids : ComponentRun) : InMemoryServePlan V :=
  ⟨decode, component, run, .range run, false, ids⟩

/-- This plan over what a narrowing left of the view's rows. -/
def withSpan (plan : InMemoryServePlan V) (span : ServedSpan) : InMemoryServePlan V :=
  { plan with span := span, narrowed := true }

def spanLen (plan : InMemoryServePlan V) : ℕ :=
  match plan.span with
  | .range range => range.stop - range.start
  | .kept rows => rows.rids.length

end InMemoryServePlan

/-! ### Served rows -/

namespace ServedRows

def ofPairs (rows : List (ℕ × RowId)) : ServedRows := ⟨rows.map Prod.fst, rows.map Prod.snd⟩

/-- Each row's position beside its base row id, in order. -/
def positionsAndRids (rows : ServedRows) : List (ℕ × RowId) := rows.positions.zip rows.rids

def collectPairs {α : Type} (keep : α → Option (Option (ℕ × RowId))) :
    List α → Option (List (ℕ × RowId))
  | [] => some []
  | row :: rows => (keep row).bind fun kept =>
      (collectPairs keep rows).map fun rest => kept.toList ++ rest

/-- The rows `keep` keeps of those offered, in order. -/
def collect {α : Type} (rows : List α) (keep : α → Option (Option (ℕ × RowId))) :
    Option ServedRows :=
  (collectPairs keep rows).map ofPairs

/-- Rows of these, from place to place. -/
def slice (rows : ServedRows) (piece : RowRange) : Option ServedRows :=
  (sliceOf rows.positions piece.start piece.stop).bind fun positions =>
    (sliceOf rows.rids piece.start piece.stop).map fun rids => ⟨positions, rids⟩

end ServedRows

/-- A served view's live rows in its copy's order. -/
inductive LiveRows where
  /-- A range with nothing tombstoned. -/
  | range (range : RowRange)
  /-- A range's live rows under tombstones, listed. -/
  | spanned (rows : ServedRows)
  /-- Kept rows, each live. -/
  | kept (rows : ServedRows)
deriving DecidableEq

namespace LiveRows

def len : LiveRows → ℕ
  | range rows => rows.stop - rows.start
  | spanned rows | kept rows => rows.rids.length

/-- A piece of these rows, in their order. -/
def slice (piece : RowRange) : LiveRows → Option LiveRows
  | range rows => some (.range ⟨rows.start + piece.start, rows.start + piece.stop⟩)
  | spanned rows => (rows.slice piece).map .spanned
  | kept rows => (rows.slice piece).map .kept

/-- The span a plan narrowed to these rows covers, beside their ids: a tombstoned range's
listed rows span from the first to the last. -/
def intoSpan (rangeIds : RowRange → Option LazyRowIds) : LiveRows → Option (ServedSpan × LazyRowIds)
  | range rows => (rangeIds rows).map fun ids => (.range rows, ids)
  | spanned rows =>
    match rows.positions.head?, rows.positions.getLast? with
    | some first, some last =>
      some (.range ⟨first, last + 1⟩, LazyRowIds.fromUnsortedIds rows.rids)
    | _, _ => none
  | kept rows => some (.kept rows, LazyRowIds.fromUnsortedIds rows.rids)

end LiveRows

/-! ### The rows of a plan -/

namespace InMemoryServePlan

variable {V : Type} {M : Type*} [MaskOps M]

/-- Where component rows sit in the run. -/
def slots (plan : InMemoryServePlan V) (range : RowRange) : RowRange :=
  ⟨range.start - plan.run.start, range.stop - plan.run.start⟩

/-- The base row ids of a part of the run, in its order. -/
def rangeRids (plan : InMemoryServePlan V) (range : RowRange) : Option (List RowId) :=
  sliceOf plan.ids.runOrderIds.1 (plan.slots range).start (plan.slots range).stop

/-- The view's live rows a test admits, each offered beside its base row id. -/
def keptRows (plan : InMemoryServePlan V) (deleted : Option M)
    (admits : ℕ → RowId → Option Bool) : Option ServedRows :=
  match plan.span with
  -- kept rows are live
  | .kept kept => ServedRows.collect kept.positionsAndRids fun row =>
      (admits row.1 row.2).map fun admitted => if admitted then some row else none
  | .range range =>
    (plan.rangeRids range).bind fun rids =>
      ServedRows.collect (range.toList.zip rids) fun row =>
        match deleted with
        | none => (admits row.1 row.2).map fun admitted => if admitted then some row else none
        | some deleted =>
          if value deleted row.2 then some none
          else (admits row.1 row.2).map fun admitted => if admitted then some row else none

/-- The live rows of the view in the component's order. -/
def live (plan : InMemoryServePlan V) (deleted : Option M) : Option LiveRows :=
  match plan.span, deleted with
  | .kept kept, _ => some (.kept kept)
  | .range range, none => some (.range range)
  | .range _, some deleted =>
    (plan.keptRows (some deleted) fun _ _ => some true).map LiveRows.spanned

/-- The base row ids of the view's rows in the component's order, less the tombstones. -/
def liveRids (plan : InMemoryServePlan V) (deleted : Option M) : Option (List RowId) :=
  match plan.span with
  | .kept kept => some kept.rids
  | .range range =>
    (plan.rangeRids range).map fun rids =>
      match deleted with
      | none => rids
      | some deleted => rids.filter fun rid => !value deleted rid

section Chained

variable [LinearOrder V] [TermColumn V]

/-- The view's live rows some equalities hold of: their columns compared over every row
the view covers, then the rows kept in one pass. -/
def rowsWhere (plan : InMemoryServePlan V) (deleted : Option M) (eqs : List Equality) :
    Option ServedRows :=
  let table := plan.component.table
  let covered := match plan.span with
    | .kept kept => kept.positions
    | .range range => range.toList
  (covered.mapM fun position => table.rows[position]?).bind fun read =>
    (table.maskFor read eqs).bind fun bits =>
      let holding : M := boolArrayToMask bits
      match plan.span with
      | .kept kept => ServedRows.collect kept.positionsAndRids.zipIdx fun row =>
          some (if value holding row.2 then some row.1 else none)
      | .range range =>
        plan.keptRows deleted fun position _ => some (value holding (position - range.start))

end Chained

end InMemoryServePlan

end Indexes
