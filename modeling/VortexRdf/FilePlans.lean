/-
The serve plan of a file's index: a view's quads read off the index child that answered it.

A located run is read point by point through the child's cached chunk probes when it is
small, else by a scan of its rows; an unlocated one is scanned under the plan's term
equalities, and located once, for the first narrowing and every one after it.

* `ChildScan`, `ChildReader` — a scan of a child, and what reads the child;
* `ChildChunk` — the columns a read gives;
* `FileServePlan` — the plan;
* `locatedSpan` — what a narrowing cuts, located on the first call;
* `liveRows`, `live`, `keptRows`, `rowsWhere`, `codeColumns` — its reads.

`none` stands for a panic or an error of the array library.
-/
import VortexRdf.KeepPaths
import VortexRdf.ServedViews

namespace Indexes

open Ascending Bisect Buffers Builds Dictionary Masks MaskOps Terms
open EncodedSearch (ColumnChunks FastLanes Node)
open Store hiding Row

/-! ### The reads of a child -/

/-- What a scan projects: each row's place in the child, or one of its columns. -/
inductive Projected where
  | rowIdx
  | column (name : String)
deriving DecidableEq

/-- A scan of a child: what it projects under which names, the rows it is restricted to,
the conjunction they pass, and how many rows a split of it carries. -/
structure ChildScan where
  projection : List (String × Projected)
  rowRange : Option RowRange
  rowIndices : Option (List ℕ)
  filter : Option (List Equality)
  splitRows : Option ℕ

/-- Some columns under their own names. -/
def select (columns : List String) : List (String × Projected) :=
  columns.map fun name => (name, .column name)

/-- A chunk of a child: named columns of one length. -/
structure ChildChunk where
  len : ℕ
  columns : List (String × List Scalar)

/-- A child of a file: the library's scans of it, each read whole, the chunk probes cached
for its columns, the columns of a type that point reads give, and the bit a comparison
with a null leaves. -/
structure ChildReader where
  name : String
  readAllRows : ChildScan → Option ChildChunk
  columnChunks : String → Option ColumnChunks
  primitive : String → Bool
  nullBit : ColumnName → ℕ → Bool

namespace ChildChunk

def column (chunk : ChildChunk) (name : String) : Option (List Scalar) := chunk.columns.lookup name

def codes (chunk : ChildChunk) (name : String) : Option (List TermCode) :=
  (chunk.column name).bind fun values => values.mapM unsignedValue

/-- The codes of some columns, one buffer each. -/
def extractCodes (chunk : ChildChunk) (names : List String) : Option (List (List TermCode)) :=
  names.mapM chunk.codes

def scalarAt (chunk : ChildChunk) (i : ℕ) (name : ColumnName) : Scalar :=
  match (chunk.column (columnText name)).bind (·[i]?) with
  | some value => value
  | none => .null

end ChildChunk

namespace ChildReader

variable (fl : FastLanes) (child : ChildReader)

/-- The values of some columns at some rows, through their chunk probes; none declines. -/
def pointValues (rows : List ℕ) : List ColumnChunks → Option (Option (List (List ℕ)))
  | [] => some (some [])
  | handle :: handles =>
    match handle.valuesAt fl rows with
    | none => none
    | some none => some none
    | some (some values) =>
      (pointValues rows handles).map fun rest => rest.map fun rest => values :: rest

/-- The values of some columns at some rows, a value column each; none declines. -/
def componentPointValues (columns : List String) (positions : List ℕ) :
    Option (Option (List (List ℕ))) :=
  match columns.mapM child.columnChunks with
  | none => some none
  | some handles => pointValues fl positions handles

/-- The values of some columns at some rows as one chunk; none declines. -/
def componentPointRows (columns : List String) (positions : List ℕ) : Option (Option ChildChunk) :=
  (child.componentPointValues fl columns positions).map fun values =>
    values.bind fun values =>
      if columns.all child.primitive then
        some ⟨positions.length, columns.zip (values.map fun column => column.map .num)⟩
      else none

end ChildReader

/-! ### The plan -/

/-- A serving plan for a view of a file: the rows of the child where every equality holds. -/
structure FileServePlan where
  decode : ServeDecode
  child : ChildReader
  constraints : List Equality
  /-- The child rows of the match's run, when the resolution located them. -/
  run : Option RowRange
  /-- The rows of the run a narrowing left the view. -/
  narrowed : Option ServedSpan

/-- How a plan reads the view's rows. -/
inductive PlanRead where
  | points (positions : List ℕ)
  | scan (scan : ChildScan)

def SERVE_SPLIT_MIN_ROWS : ℕ := 1024

/-- The rows a split of a located run carries. -/
def runSplitRows (range : RowRange) (workers : ℕ) : ℕ :=
  max (divCeil (range.stop - range.start) (2 * workers)) SERVE_SPLIT_MIN_ROWS

/-- The child's place beside the base row id it mirrors, over a range. -/
def childRows (range : RowRange) (rids : List ℕ) : List (ℕ × RowId) :=
  range.toList.zip (rids.map baseRow)

namespace FileServePlan

def new (decode : ServeDecode) (child : ChildReader) (constraints : List Equality)
    (rowRange : Option RowRange) : FileServePlan :=
  ⟨decode, child, constraints, rowRange, none⟩

/-- The child rows the view covers, when known without reading. -/
def span (plan : FileServePlan) : Option ServedSpan := plan.narrowed <|> plan.run.map .range

def isNarrowed (plan : FileServePlan) : Bool := plan.narrowed.isSome

def withSpan (plan : FileServePlan) (span : ServedSpan) : FileServePlan :=
  { plan with narrowed := some span }

/-- The plan's filter; a plan that constrains no column has none, which panics. -/
def filter (plan : FileServePlan) : Option (List Equality) :=
  if plan.constraints = [] then none else some plan.constraints

/-- The rows of an unlocated run, each place beside its row id. -/
def readRunRows (plan : FileServePlan) : Option (List ℕ × List ℕ) :=
  plan.filter.bind fun filter =>
    (plan.child.readAllRows ⟨[("position", .rowIdx), ("rid", .column COL_RID)], none, none,
      some filter, none⟩).bind fun rows =>
      (rows.codes "position").bind fun positions =>
        (rows.codes "rid").map fun rids => (positions, rids)

/-- The rows from the first of some positions to the last. -/
def spanOf (positions : List ℕ) : RowRange :=
  match positions.head?, positions.getLast? with
  | some first, some last => ⟨first, last + 1⟩
  | _, _ => ⟨0, 0⟩

/-- The child's columns at some rows, in ascending order: through the chunk probes, or by a
scan of those rows bounded to their span. -/
def columnsAt (fl : FastLanes) (plan : FileServePlan) (columns : List String)
    (positions : List ℕ) : Option ChildChunk :=
  (plan.child.componentPointRows fl columns positions).bind fun points =>
    match points with
    | some rows => some rows
    | none =>
      -- the selection of a scan's rows is of ascending ones alone
      if positions.SortedLT then
        plan.child.readAllRows ⟨select columns, some (spanOf positions), some positions, none, none⟩
      else none

/-- The child's columns over a range of its rows. -/
def rangeRead (fl : FastLanes) (plan : FileServePlan) (range : RowRange)
    (columns : List String) : Option ChildChunk :=
  if pointSized (range.stop - range.start) then plan.columnsAt fl columns range.toList
  else plan.child.readAllRows ⟨select columns, some range, none, none, none⟩

def rangeColumns (fl : FastLanes) (plan : FileServePlan) (range : RowRange)
    (columns : List String) : Option (List (List ℕ)) :=
  if range.stop ≤ range.start then some (columns.map fun _ => [])
  else (plan.rangeRead fl range columns).bind fun chunk => chunk.extractCodes columns

section Live

variable {M : Type} [MaskOps M] (fl : FastLanes) (plan : FileServePlan) (deleted : Option M)

/-- The rows offered that are live, in order. -/
def collectLive (rows : List (ℕ × RowId)) : Option ServedRows :=
  ServedRows.collect rows fun row => some (if liveRid deleted row.2 then some row else none)

/-- The range some positions span, when they are every row of it. -/
def contiguous (positions : List ℕ) : Option RowRange :=
  match positions.head?, positions.getLast? with
  | some first, some last =>
    if last - first + 1 = positions.length then some ⟨first, last + 1⟩ else none
  | _, _ => none

/-- What a narrowing cuts, beside the run as located: an unlocated run is read once, the
range its rows span when they are contiguous, else its live rows. -/
def locatedSpan (located : Option ServedSpan) : Option (ServedSpan × Option ServedSpan) :=
  match plan.span <|> located with
  | some span => some (span, located)
  | none =>
    plan.readRunRows.bind fun run =>
      match contiguous run.1 with
      | some range => some (.range range, some (.range range))
      | none =>
        (collectLive deleted (run.1.zip (run.2.map baseRow))).map fun rows =>
          (.kept rows, some (.kept rows))

/-- A range's rows beside their base row ids, less the tombstones. -/
def rangeRows (range : RowRange) : Option ServedRows :=
  (plan.rangeColumns fl range [COL_RID]).bind fun columns =>
    match columns with
    | [rids] => collectLive deleted (childRows range rids)
    | _ => none

/-- The view's live rows in the child's order. -/
def liveRows (located : Option ServedSpan) : Option (ServedRows × Option ServedSpan) :=
  (plan.locatedSpan deleted located).bind fun found =>
    match found.1 with
    | .kept rows => some (rows, found.2)
    | .range range => (plan.rangeRows fl deleted range).map (·, found.2)

/-- The view's live rows, unlisted where nothing is tombstoned. -/
def live (located : Option ServedSpan) : Option (LiveRows × Option ServedSpan) :=
  (plan.locatedSpan deleted located).bind fun found =>
    match found.1, deleted with
    | .kept rows, _ => some (.kept rows, found.2)
    | .range range, none => some (.range range, found.2)
    | .range range, some _ =>
      (plan.rangeRows fl deleted range).map fun rows => (.spanned rows, found.2)

/-- The view's live rows whose code of a column a test admits. -/
def keptRows (located : Option ServedSpan) (column : String) (admits : TermCode → Bool) :
    Option (ServedRows × Option ServedSpan) :=
  (plan.locatedSpan deleted located).bind fun found =>
    match found.1 with
    | .kept kept =>
      (plan.columnsAt fl [column] kept.positions).bind fun read =>
        (read.codes column).bind fun codes =>
          (ServedRows.collect (kept.positionsAndRids.zip codes) fun row =>
            some (if admits row.2 then some row.1 else none)).map (·, found.2)
    | .range range =>
      (plan.rangeColumns fl range [column, COL_RID]).bind fun columns =>
        match columns with
        | [codes, rids] =>
          (ServedRows.collect ((childRows range rids).zip codes) fun row =>
            some (if admits row.2 && liveRid deleted row.1.2 then some row.1 else none)).map (·, found.2)
        | _ => none

variable (V : Type) [LinearOrder V] [TermColumn V]

/-- What a compare of a chunk's columns reads. -/
def chunkTable (chunk : ChildChunk) : ResidualTable where
  columns name := (chunk.column (columnText name)).map fun _ => TermColumn.type V
  rows := (List.range chunk.len).map chunk.scalarAt
  probes _ := none
  component := true
  primitive _ _ := false
  resolves _ := false
  views _ := false
  nullBit := plan.child.nullBit

/-- The rows of a chunk some equalities hold of, as a mask. -/
def holding (M : Type) [MaskOps M] (chunk : ChildChunk) (eqs : List Equality) : Option M :=
  ((plan.chunkTable V chunk).maskFor (plan.chunkTable V chunk).rows eqs).map boolArrayToMask

/-- The view's live rows some equalities hold of: their columns compared over every row
the view covers. -/
def rowsWhere (located : Option ServedSpan) (eqs : List Equality) :
    Option (ServedRows × Option ServedSpan) :=
  (plan.locatedSpan deleted located).bind fun found =>
    let names := eqs.map fun eq => columnText eq.1
    match found.1 with
    | .kept kept =>
      (plan.columnsAt fl names kept.positions).bind fun read =>
        (plan.holding V M read eqs).bind fun holding =>
          (ServedRows.collect kept.positionsAndRids.zipIdx fun row =>
            some (if value holding row.2 then some row.1 else none)).map (·, found.2)
    | .range range =>
      (plan.rangeRead fl range (names ++ [COL_RID])).bind fun read =>
        (plan.holding V M read eqs).bind fun holding =>
          (read.codes COL_RID).bind fun rids =>
            (ServedRows.collect (childRows range rids).zipIdx fun row =>
              some (if value holding row.2 && liveRid deleted row.1.2 then some row.1 else none)).map
              (·, found.2)

end Live

/-! ### Codes -/

/-- How the plan reads the view's rows, beside the tombstones the read still drops. -/
def read {M : Type} (workers : ℕ) (plan : FileServePlan) (deleted : Option M) :
    Option (PlanRead × Option M) :=
  match plan.span with
  | some (.kept kept) => some (.points kept.positions, none)
  | some (.range range) =>
    if pointSized (range.stop - range.start) then some (.points range.toList, deleted)
    else some (.scan ⟨select CHILD_COLUMNS, some range, none, none,
      some (runSplitRows range workers)⟩, deleted)
  | none => plan.filter.map fun filter =>
      (.scan ⟨select CHILD_COLUMNS, none, none, some filter, none⟩, deleted)

/-- Each quad column's code where the plan's terms pin it; none where a term is no code. -/
def pinned : List Equality → (QuadColumn → Option TermCode) → Option (QuadColumn → Option TermCode)
  | [], pins => some pins
  | eq :: eqs, pins =>
    match primarySlot eq.1 with
    | none => pinned eqs pins
    | some role =>
      match unsignedValue eq.2 with
      | none => none
      | some code => pinned eqs (Function.update pins role (some code))

/-- The four columns: the pinned ones filled with their codes, the others kept of the
columns read, in turn. -/
def fillPinned (pins : QuadColumn → Option TermCode) (rows : ℕ) (kept : List ℕ → List ℕ) :
    List QuadColumn → List (List ℕ) → Option (List (List TermCode))
  | [], _ => some []
  | role :: roles, values =>
    match pins role, values with
    | some code, values =>
      (fillPinned pins rows kept roles values).map fun rest => List.replicate rows code :: rest
    | none, column :: values =>
      (fillPinned pins rows kept roles values).map fun rest => kept column :: rest
    | none, [] => none

section Codes

variable {M : Type} [MaskOps M] (fl : FastLanes) (plan : FileServePlan)

/-- The code columns of some child rows read through the chunk probes, a pinned one filled
and not read, and the row id read under tombstones alone; none declines. -/
def pointCodes (positions : List ℕ) (deleted : Option M) : Option (Option (List (List TermCode))) :=
  match pinned plan.constraints fun _ => none with
  | none => some none
  | some pins =>
    let read := (QuadColumn.ALL.filter fun role => (pins role).isNone).map roleColumn
    match deleted with
    | none =>
      (plan.child.componentPointValues fl read positions).bind fun values =>
        match values with
        | none => some none
        | some values =>
          (fillPinned pins positions.length id QuadColumn.ALL values).map some
    | some deleted =>
      (plan.child.componentPointValues fl (read ++ [COL_RID]) positions).bind fun values =>
        match values with
        | none => some none
        | some values =>
          match values.getLast? with
          | none => none
          | some rids =>
            let live := rids.map fun rid => !value deleted (baseRow rid)
            let rows := (live.filter id).length
            (fillPinned pins rows (fun column => ((column.zip live).filter Prod.snd).map Prod.fst)
              QuadColumn.ALL values.dropLast).map some

variable (V : Type) [LinearOrder V] [TermColumn V]

/-- A chunk's quad columns as rows. -/
def chunkQuads (chunk : ChildChunk) : Option (List (Row V)) :=
  let typed (name : String) : Option (List V) :=
    (chunk.column name).bind fun values => values.mapM TermColumn.ofScalar
  (typed COL_S).bind fun s => (typed COL_P).bind fun p => (typed COL_O).bind fun o =>
    (typed COL_G).map fun g => zipRows s p o g

/-- A chunk's live rows as quads: the quad columns, then the tombstoned rows dropped. -/
def chunkRows (probed : ChildChunk → Bool) (chunk : ChildChunk) (deleted : Option M) :
    Option (List (Row V)) :=
  (chunkQuads V chunk).bind fun quads =>
    (gatherByPointReads quads (.range ⟨0, chunk.len⟩) (none : Option M) (probed chunk)).bind
      fun canonical =>
        let rows := canonical.getD quads
        match deleted with
        | none => some rows
        | some deleted =>
          (chunk.codes COL_RID).map fun rids =>
            let places := (List.range chunk.len).filter fun place =>
              rids[place]?.any fun rid => !value deleted (baseRow rid)
            let live : M := fromIndices chunk.len places
            if trueCount live = len live then rows else filterBy rows live

/-- A chunk's live rows as four code columns. -/
def chunkCodeColumns (probed : ChildChunk → Bool) (chunk : ChildChunk) (deleted : Option M) :
    Option (List (List TermCode)) :=
  (chunkRows V probed chunk deleted).bind fun rows =>
    QuadColumn.ALL.mapM fun role =>
      rows.mapM fun row => unsignedValue (TermColumn.scalar (roleValue row role))

/-- The code columns of some child rows: through the chunk probes, else off their chunk. -/
def codesAt (probed : ChildChunk → Bool) (positions : List ℕ) (deleted : Option M) :
    Option (List (List TermCode)) :=
  (plan.pointCodes fl positions deleted).bind fun codes =>
    match codes with
    | some codes => some codes
    | none =>
      (plan.columnsAt fl CHILD_COLUMNS positions).bind fun chunk =>
        chunkCodeColumns V probed chunk deleted

/-- The served rows' four code columns, in the child's order. -/
def codeColumns (probed : ChildChunk → Bool) (workers : ℕ) (deleted : Option M) :
    Option (List (List TermCode)) :=
  (plan.read workers deleted).bind fun read =>
    match read.1 with
    | .points positions => plan.codesAt fl V probed positions read.2
    | .scan scan =>
      (plan.child.readAllRows scan).bind fun chunk => chunkCodeColumns V probed chunk read.2

end Codes

end FileServePlan

end Indexes
