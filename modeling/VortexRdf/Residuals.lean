/-
The residual compare over an in-memory table, as the scan module computes it.

The equalities no prefix search or index answered, over a selection of a table's
rows: zone by zone where the zones are classed, in growing pieces where they are
not.

* `ResidualTable` — a table's columns, and what the array library leaves open about
  them;
* `compared`, `componentCompared` — the rows of a selection that hold some
  equalities, by the typed loop, the mask scan or a column's encoding;
* `ResidualCompare` — the walk: `count`, `window`, `rows`;
* `askStatistics`, `unaskedClasses` — what the zone maps settle first;
* `PendingResidual` — a compare left pending, its matches kept once known;
* `WindowCursor`, `Live` — a window over matches found part by part.

`none` stands for a panic or an error of the array library.
-/
import VortexRdf.ZoneMaps
import VortexRdf.TailKeys
import VortexRdf.Probe

namespace Store

open Terms Masks MaskOps Buffers Ascending EncodedSearch

/-! ### Tables -/

inductive ColumnType where
  | code
  | kind
  | text
  | nullableText
  deriving DecidableEq

def ColumnType.isUnsignedInt : ColumnType → Bool
  | code => true
  | kind => true
  | _ => false

/-- A value as the type of a column. -/
def ColumnType.cast : ColumnType → Scalar → Option Scalar
  | code, .num n => some (.num n)
  | kind, .num n => if n < 2 ^ 8 then some (.num n) else none
  | text, .str s => some (.str s)
  | nullableText, .str s => some (.str s)
  | nullableText, .null => some .null
  | _, _ => none

/-- The table a residual compares: its rows, and the encoded-search probes resolved for
them. -/
structure ResidualTable where
  columns : ColumnName → Option ColumnType
  rows : List (ColumnName → Scalar)
  probes : ColumnName → Option Node
  /-- Whether the rows are an index component's. -/
  component : Bool
  /-- Whether a column's codes are there decoded, or are when the flag asks for it. -/
  primitive : ColumnName → Bool → Bool
  /-- Whether the encoding of a column without a cached probe resolves one. -/
  resolves : ColumnName → Bool
  /-- Whether a column is a canonical array of strings. -/
  views : ColumnName → Bool
  /-- The bit a comparison with a null leaves. -/
  nullBit : ColumnName → ℕ → Bool

namespace ResidualTable

variable (t : ResidualTable)

def len : ℕ := t.rows.length

def cell (name : ColumnName) (i : ℕ) : Scalar :=
  match t.rows[i]? with
  | some row => row name
  | none => .null

/-! ### The typed loop -/

def TYPED_EQ_MAX_ROWS : ℕ := 4096

def TYPED_PROBE_MAX_ROWS : ℕ := 256

/-- How a column is read by the typed loop. -/
inductive Bound where
  | code
  | codeProbe
  | str
  deriving DecidableEq

def bindCol (eq : Equality) (canonicalize : Bool) : Option Bound :=
  match t.columns eq.1 with
  | none => none
  | some .nullableText => none
  | some type =>
    match eq.2 with
    | .num _ =>
      if !type.isUnsignedInt then none
      else if t.primitive eq.1 canonicalize then some .code
      else if (t.probes eq.1).isSome || t.resolves eq.1 then some .codeProbe
      else none
    | .str _ => if type = .text ∧ t.views eq.1 then some .str else none
    | .null => none

/-- The rows of a selection that hold some equalities, where every column is bound and
the selection is not too wide for them; `work` rows are read in all. -/
def typedResidualIds (selection : RowSelection) (eqs : List Equality) (work : ℕ) :
    Option (List RowId) :=
  let selected := selection.len t.len
  if eqs = [] then none
  else if eqs.length < 2 ∧ TYPED_EQ_MAX_ROWS < selected then none
  else
    let canonicalize := decide (t.len ≤ min (max work selected * eqs.length) usizeMax)
    match eqs.mapM fun eq => t.bindCol eq canonicalize with
    | none => none
    | some cols =>
      if TYPED_PROBE_MAX_ROWS < selected ∧ cols.any (· == .codeProbe) then none
      else some (selection.filterRows t.len (passes t.cell eqs))

/-! ### The mask scan -/

/-- The bits of a column of some rows compared with a value. -/
def eqBits (rows : List (ColumnName → Scalar)) (name : ColumnName) (value : Scalar) : List Bool :=
  rows.zipIdx.map fun place =>
    if place.1 name = .null ∨ value = .null then t.nullBit name place.2
    else place.1 name == value

def maskLoop (rows : List (ColumnName → Scalar)) :
    List Equality → Option (List Bool) → Option (Option (List Bool))
  | [], mask => some mask
  | eq :: eqs, mask =>
    match (t.columns eq.1).bind fun type => type.cast eq.2 with
    | none => none
    | some value =>
      let bits := t.eqBits rows eq.1 value
      match mask with
      | some prev => maskLoop rows eqs (some (prev.zipWith (· && ·) bits))
      | none => maskLoop rows eqs (some bits)

def maskFor (rows : List (ColumnName → Scalar)) (eqs : List Equality) : Option (List Bool) :=
  (t.maskLoop rows eqs none).map fun mask => mask.getD (List.replicate rows.length true)

/-! ### The compares -/

def compared (M : Type*) [MaskOps M] (selection : RowSelection) (eqs : List Equality)
    (work : ℕ) : Option RowSelection :=
  match t.typedResidualIds selection eqs work with
  | some ids => some (.ids ids)
  | none =>
    match selection.apply t.rows with
    | none => none
    | some applied =>
      (t.maskFor applied eqs).bind fun bits => selection.refine (boolArrayToMask bits : M)

variable (fl : FastLanes)

/-- The offsets within a run of the rows of a component holding a code, on its column's
encoding or decoded. -/
def offsetsOf (field : ColumnName) (run : RowRange) (code : ℕ) : Option (List ℕ) :=
  match t.probes field with
  | some column => SortedProbe.eqOffsets fl column run.start (run.stop - run.start) code []
  | none =>
    if t.columns field = some .code then
      (sliceOf t.rows run.start run.stop).map fun rows =>
        (rows.zipIdx.filter fun place => place.1 field == .num code).map Prod.snd
    else none

def componentCompared (M : Type*) [MaskOps M] (selection : RowSelection) (eqs : List Equality) :
    Option RowSelection :=
  match selection.asRows t.len, eqs with
  | .run run, [(field, .num code)] =>
    (t.offsetsOf fl field run code).map fun offsets =>
      .fromIds (offsets.map fun offset => run.start + offset)
  | _, eqs => t.compared M selection eqs t.len

end ResidualTable

/-! ### Windows over matches found part by part -/

/-- The live matches a walk counted: every one, or at least so many. -/
inductive Live where
  | exact (n : ℕ)
  | atLeast (n : ℕ)
  deriving DecidableEq

structure WindowCursor where
  offset : ℕ
  limit : Option ℕ
  seen : ℕ
  rows : List RowId

namespace WindowCursor

def new (offset : ℕ) (limit : Option ℕ) : WindowCursor := ⟨offset, limit, 0, []⟩

variable (cursor : WindowCursor)

/-- Whether a part of so many matches ends before the window, so the walk skips it. -/
def endsBefore (count : ℕ) : Bool := decide (saturatingAdd cursor.seen count ≤ cursor.offset)

def skip (count : ℕ) : WindowCursor := { cursor with seen := cursor.seen + count }

/-- A part's matches, in order: those in the window kept, all counted. -/
def take (found : List RowId) : WindowCursor :=
  let start := min (cursor.offset - cursor.seen) found.length
  let room :=
    match cursor.limit with
    | some limit => limit - cursor.rows.length
    | none => usizeMax
  let stop := min (saturatingAdd start room) found.length
  { cursor with
    rows := cursor.rows ++ (found.drop start).take (stop - start)
    seen := cursor.seen + found.length }

def isFull : Bool := cursor.limit.any fun limit => decide (limit ≤ cursor.rows.length)

def finish (ended : Bool) : List RowId × Live :=
  (cursor.rows, if ended then .exact cursor.seen else .atLeast cursor.seen)

end WindowCursor

/-! ### Parts of a selection -/

/-- How a residual's selection is walked. -/
inductive Classes where
  | zoned (set : ZoneSet)
  | pieces (bounds : Option ZoneSet)

def FIRST_PIECE_ROWS : ℕ := ZONE_ROWS

def PIECE_GROWTH : ℕ := 4

/-- A range cut into pieces, each so many times the one before; a turn for each row at
most. -/
def growingPiecesLoop : ℕ → RowRange → ℕ → List RowRange
  | 0, _, _ => []
  | fuel + 1, rest, size =>
    if rest.start < rest.stop then
      let stop := min (saturatingAdd rest.start size) rest.stop
      ⟨rest.start, stop⟩ ::
        growingPiecesLoop fuel ⟨stop, rest.stop⟩ (min (size * PIECE_GROWTH) usizeMax)
    else []

def growingPieces (range : RowRange) (first : ℕ) : List RowRange :=
  growingPiecesLoop (range.stop - range.start) range (max first 1)

/-- The rows from a selection's first to its last. -/
def span : SelectedRows → Option RowRange
  | .run run => if run.start < run.stop then some run else none
  | .ids ids =>
    match ids.head?, ids.getLast? with
    | some first, some last => some ⟨first, last + 1⟩
    | _, _ => none

/-- The selected rows within a run, as a selection of their own. -/
def partOf (rows : SelectedRows) (run : RowRange) : Option RowSelection :=
  match rows with
  | .run _ => some (.range run)
  | .ids ids => (restrictIds ids run).map .ids

/-- The selected rows at some places in the selection's order. -/
def rowsAtPlaces (rows : SelectedRows) (places : RowRange) : Option RowSelection :=
  match rows with
  | .run run => some (.range ⟨run.start + places.start, run.start + places.stop⟩)
  | .ids ids => (sliceOf ids places.start places.stop).map .ids

/-- The rows of a selection, in order. -/
def extendRows (selection : RowSelection) (baseLen : ℕ) : List RowId :=
  match selection.asRows baseLen with
  | .run run => run.toList
  | .ids rows => rows

section Masked

variable {M : Type*} [MaskOps M]

/-- How many rows of a selection are tombstoned. -/
def tombstoned (selection : RowSelection) (deleted : M) (baseLen : ℕ) : ℕ :=
  match selection.asRows baseLen with
  | .run run => trueCount (slice deleted run.start run.stop)
  | .ids ids => (ids.filter (value deleted)).length

def liveIds (selection : RowSelection) (deleted : Option M) (baseLen : ℕ) : List RowId :=
  match deleted with
  | none => extendRows selection baseLen
  | some deleted => (extendRows selection baseLen).filter fun id => !value deleted id

def liveRowCount (selection : RowSelection) (deleted : Option M) (baseLen : ℕ) : ℕ :=
  selection.len baseLen - (deleted.map fun d => tombstoned selection d baseLen).getD 0

end Masked

/-- One bit for each of so many equalities. -/
def everyEq (eqs : ℕ) : ℕ := if 32 ≤ eqs then 2 ^ 32 - 1 else 2 ^ eqs - 1

def countOnes (bits : ℕ) : ℕ := (List.range 32).countP bits.testBit

def trailingZeros (bits : ℕ) : ℕ := (List.range 32).findIdx bits.testBit

/-- Whether a residual over so many rows asks the statistics first. -/
def asksStatistics (rows : ℕ) : Bool := decide (ZONE_ROWS < rows)

/-- A part of a selection read as one. -/
inductive Part where
  | zone (set : ZoneSet) (zone : ZonePart) (selected : RowSelection) (standing : ZoneClass)
  | piece (bounds : Option ZoneSet) (selected : RowSelection)

/-- A step of a walk over a whole selection; `C` is how a mixed zone is counted
unread. -/
inductive Step (C : Type) where
  | skip
  | take
  | unread (plan : C)
  | compare (bits : ℕ)

/-- Two steps of zones side by side that are one. -/
def Step.joins {C : Type} : Step C → Step C → Bool
  | skip, skip => true
  | take, take => true
  | compare bits, compare other => bits == other
  | _, _ => false

def Step.isTake {C : Type} : Step C → Bool
  | take => true
  | _ => false

def Step.isCompare {C : Type} : Step C → Bool
  | compare _ => true
  | _ => false

/-- How a mixed zone's matches are counted without reading them. -/
inductive Unread where
  | recorded (rows found : ℕ)
  | encoded (column : Node) (code : ℕ) (run : RowRange)

def unreadCount (fl : FastLanes) : Unread → Option ℕ
  | .recorded _ found => some found
  | .encoded column code run => SortedProbe.countEq fl column run.start (run.stop - run.start) code

/-- Whether the compares among some steps are one compare of the whole selection. -/
def comparesWhole {C : Type} (rows : SelectedRows) (steps : List (RowRange × Step C))
    (selected len : ℕ) : Option Bool :=
  let compares := steps.filter fun step => step.2.isCompare
  (compares.mapM fun step => (partOf rows step.1).map fun part => part.len len).map fun lens =>
    decide (1 < lens.length) && decide (selected < min (lens.sum * 2) usizeMax)

/-! ### The walk -/

/-- The rows of a selection where every equality holds, the tombstoned rows left out of
the live counts and windows. -/
structure ResidualCompare (M : Type*) where
  table : ResidualTable
  selection : RowSelection
  eqs : List Equality
  classes : Classes
  deleted : Option M

namespace ResidualCompare

variable {M : Type*} [MaskOps M] (fl : FastLanes) (c : ResidualCompare M)

def len : ℕ := c.table.len

def selectedRows : SelectedRows := c.selection.asRows c.len

/-- How many rows the selection holds. -/
def work : ℕ := c.selection.len c.len

/-- How many matches are live. -/
def live (found : RowSelection) : ℕ := liveRowCount found c.deleted c.len

/-- The rows of a selection where the equalities the bits name hold, compared. -/
def compare (selection : RowSelection) (bits : ℕ) : Option RowSelection :=
  let eqs := picked c.eqs bits
  if c.table.component then c.table.componentCompared fl M selection eqs
  else c.table.compared M selection eqs c.work

/-- The zones of a range that hold selected rows, with their classes. -/
def zoneParts (set : ZoneSet) (range : RowRange) : List (Option Part) :=
  (set.parts range).filterMap fun zone =>
    match partOf c.selectedRows zone.rows with
    | none => some none
    | some selected =>
      if selected.isEmpty c.len then none
      else some (some (.zone set zone selected (set.classOf zone.zone)))

/-- The parts of the selection, in order; a walk for `want` rows that cannot stop short
takes one piece. -/
def parts (range : RowRange) (want : ℕ) : List (Option Part) :=
  match c.classes with
  | .zoned set => c.zoneParts set range
  | .pieces bounds =>
    let total := c.work
    let first := if total ≤ want then total else FIRST_PIECE_ROWS
    (growingPieces ⟨0, total⟩ first).map fun places =>
      (rowsAtPlaces c.selectedRows places).map (.piece bounds)

/-- The step of a zone of some class, `mixed` choosing a mixed zone's. -/
def stepOf {C : Type} (mixed : ℕ → Option (Step C)) : ZoneClass → Option (Step C)
  | .none => some .skip
  | .all => some .take
  | .mixed unsettled => mixed unsettled

/-- A zone's step behind the steps so far, the last one first: joined to it where the two
are one. -/
def pushStep {C : Type} (zone : RowRange) (step : Step C) :
    List (RowRange × Step C) → List (RowRange × Step C)
  | (run, last) :: earlier =>
    if run.stop = zone.start ∧ last.joins step then (⟨run.start, zone.stop⟩, last) :: earlier
    else (zone, step) :: (run, last) :: earlier
  | [] => [(zone, step)]

/-- The last step run on across a zone of no selected row. -/
def passZone {C : Type} (zone : RowRange) :
    List (RowRange × Step C) → List (RowRange × Step C)
  | (run, step) :: earlier => (⟨run.start, zone.stop⟩, step) :: earlier
  | [] => []

/-- The steps of a walk zone by zone, behind the steps so far. -/
def stepsLoop {C : Type} (set : ZoneSet) (rows : SelectedRows)
    (mixed : ZonePart → RowSelection → ℕ → Option (Step C)) :
    List ZonePart → List (RowRange × Step C) → Option (List (RowRange × Step C))
  | [], steps => some steps.reverse
  | zone :: zones, steps =>
    match partOf rows zone.rows with
    | none => none
    | some selected =>
      if selected.isEmpty c.len then stepsLoop set rows mixed zones (passZone zone.rows steps)
      else
        match stepOf (mixed zone selected) (set.classOf zone.zone) with
        | none => none
        | some step => stepsLoop set rows mixed zones (pushStep zone.rows step steps)

def steps {C : Type} (set : ZoneSet) (rows : SelectedRows) (range : RowRange)
    (mixed : ZonePart → RowSelection → ℕ → Option (Step C)) :
    Option (List (RowRange × Step C)) :=
  c.stepsLoop set rows mixed (set.parts range) []

/-- How a mixed zone's selected rows are counted unread: from the zone's record when the
selection holds the whole zone, else on the column's encoding when they are contiguous.
The outer `none` is a panic. -/
def unreadPlan (set : ZoneSet) (zone : ZonePart) (part : RowSelection) (bits : ℕ) :
    Option (Option Unread) :=
  if countOnes bits ≠ 1 ∨ c.deleted.any (fun d => decide (0 < tombstoned part d c.len)) then
    some none
  else
    match c.eqs[trailingZeros bits]? with
    | none => none
    | some (field, .num code) =>
      let whole := set.zoneRows zone.zone
      let rows := whole.stop - whole.start
      match if part.len c.len = rows then set.recordedIn (trailingZeros bits) ⟨zone.zone, whole⟩
        else none with
      | some found => some (some (.recorded rows found))
      | none =>
        match part.asRows c.len with
        | .ids _ => some none
        | .run run => some ((c.table.probes field).map fun column => .encoded column code run)
    | some _ => some none

/-- A part's matches counted unread, where they can be. -/
def unread : Part → Option (Option ℕ)
  | .zone set zone selected standing =>
    match standing with
    | .none => some (some 0)
    | .all => some (some (c.live selected))
    | .mixed unsettled =>
      match c.unreadPlan set zone selected unsettled with
      | none => none
      | some none => some none
      | some (some plan) => (unreadCount fl plan).map some
  | .piece _ _ => some none

/-- The rows of the parts of a selection, taken or compared by their steps. -/
def stepRows (rows : SelectedRows) : List (RowRange × Step Empty) → Option (List RowId)
  | [] => some []
  | (run, step) :: steps =>
    match partOf rows run with
    | none => none
    | some part =>
      let found :=
        match step with
        | .skip => some []
        | .take => some (extendRows part c.len)
        | .unread never => nomatch never
        | .compare bits => (c.compare fl part bits).map fun kept => extendRows kept c.len
      match found, stepRows rows steps with
      | some found, some rest => some (found ++ rest)
      | _, _ => none

/-- The matches of a selection, zone by zone by a set's classes. -/
def rowsBy (set : ZoneSet) (selection : RowSelection) : Option RowSelection :=
  let rows := selection.asRows c.len
  match span rows with
  | none => some selection
  | some range =>
    match c.steps set rows range fun _ _ bits => some (.compare bits) with
    | none => none
    | some steps =>
      if steps.all fun step => step.2.isTake then some selection
      else
        match comparesWhole rows steps (selection.len c.len) c.len with
        | none => none
        | some true => c.compare fl selection (everyEq c.eqs.length)
        | some false => (c.stepRows fl rows steps).map .fromIds

/-- The matches of a piece, or of the whole selection, on every equality. -/
def piecesCompared (bounds : Option ZoneSet) (selection : RowSelection) : Option RowSelection :=
  match bounds with
  | some set =>
    if asksStatistics (selection.len c.len) then c.rowsBy fl set selection
    else c.compare fl selection (everyEq c.eqs.length)
  | none => c.compare fl selection (everyEq c.eqs.length)

/-- Every match, tombstoned rows among them. -/
def rows : Option RowSelection :=
  match c.classes with
  | .zoned set => c.rowsBy fl set c.selection
  | .pieces bounds => c.piecesCompared fl bounds c.selection

/-- A part's matches, read. -/
def matched : Part → Option RowSelection
  | .zone _ _ selected standing =>
    match standing with
    | .none => some .empty
    | .all => some selected
    | .mixed unsettled => c.compare fl selected unsettled
  | .piece bounds selected => c.piecesCompared fl bounds selected

/-- The live matches the steps of a count hold. -/
def stepCount (rows : SelectedRows) : List (RowRange × Step Unread) → Option ℕ
  | [] => some 0
  | (run, step) :: steps =>
    let count :=
      match step with
      | .skip => some 0
      | .take => (partOf rows run).map c.live
      | .unread plan => unreadCount fl plan
      | .compare bits => ((partOf rows run).bind fun part => c.compare fl part bits).map c.live
    match count, stepCount rows steps with
    | some count, some rest => some (count + rest)
    | _, _ => none

/-- A mixed zone's step in a count: unread where it can be. -/
def countStep (set : ZoneSet) (zone : ZonePart) (selected : RowSelection) (bits : ℕ) :
    Option (Step Unread) :=
  match c.unreadPlan set zone selected bits with
  | none => none
  | some (some plan) => some (.unread plan)
  | some none => some (.compare bits)

/-- The count of every match by zones. -/
def fullCount (set : ZoneSet) (range : RowRange) : Option ℕ :=
  let rows := c.selectedRows
  match c.steps set rows range (c.countStep set) with
  | none => none
  | some steps =>
    match comparesWhole rows steps c.work c.len with
    | none => none
    | some true => (c.compare fl c.selection (everyEq c.eqs.length)).map c.live
    | some false => c.stepCount fl rows steps

/-- The walk of a capped count, part by part until the cap is met. -/
def countLoop (cap : ℕ) : List (Option Part) → ℕ → Option ℕ
  | [], count => some count
  | part :: parts, count =>
    if cap ≤ count then some count
    else
      match part with
      | none => none
      | some part =>
        match c.unread fl part with
        | none => none
        | some (some found) => countLoop cap parts (count + found)
        | some none =>
          match c.matched fl part with
          | none => none
          | some found => countLoop cap parts (count + c.live found)

/-- How many live rows match: the count, or at least the cap and never more than the
count. -/
def count (cap : Option ℕ) : Option ℕ :=
  match span c.selectedRows with
  | none => some 0
  | some range =>
    match cap, c.classes with
    | none, .zoned set => c.fullCount fl set range
    | none, .pieces _ => (c.rows fl).map c.live
    | some cap, _ => c.countLoop fl cap (c.parts range cap) 0

/-- The walk of a window, part by part until it is full; whether it reached the last
part. -/
def windowLoop : List (Option Part) → WindowCursor → Option (WindowCursor × Bool)
  | [], cursor => some (cursor, true)
  | part :: parts, cursor =>
    if cursor.isFull then some (cursor, false)
    else
      match part with
      | none => none
      | some part =>
        match c.unread fl part with
        | none => none
        | some counted =>
          if counted = some 0 then windowLoop parts cursor
          else
            match counted.filter cursor.endsBefore with
            | some found => windowLoop parts (cursor.skip found)
            | none =>
              match c.matched fl part with
              | none => none
              | some found => windowLoop parts (cursor.take (liveIds found c.deleted c.len))

/-- The live matches of a window, in order, beside the live matches as far as they are
known. -/
def window (offset limit : ℕ) : Option (List RowId × Live) :=
  match span c.selectedRows with
  | none => some ([], .exact 0)
  | some range =>
    (c.windowLoop fl (c.parts range (saturatingAdd offset limit))
      (.new offset (some limit))).map fun ended => ended.1.finish ended.2

end ResidualCompare

/-! ### What the statistics settle first -/

/-- The zone check of an equality, the `bit`th of a residual's. -/
def zoneCheck (zones : QuadZones) (bit : ℕ) (eq : Equality) : Option ZoneCheck :=
  if bit < 32 then
    match unsignedValue eq.2, (primarySlot eq.1).bind zones with
    | some code, some columnZones => some ⟨bit, code, columnZones⟩
    | _, _ => none
  else none

/-- The bits of the equalities no check speaks for. -/
def unzonedBits (eqs : ℕ) (checks : List ZoneCheck) : ℕ :=
  checks.foldl (fun bits check => bits &&& (2 ^ 32 - 1 - 1 <<< check.bit)) (everyEq eqs)

/-- What the statistics settle of a residual before its rows are compared. -/
inductive Asked where
  | nothing
  | everything
  | openEqs (eqs : List Equality) (classes : Classes)

/-- Growing pieces, whose compares skip the zones the bounds rule out. -/
def unaskedClasses (zones : QuadZones) (eqs : List Equality) : Classes :=
  let checks := eqs.zipIdx.filterMap fun place => zoneCheck zones place.2 place.1
  .pieces ((ZoneSet.new checks (unzonedBits eqs.length checks)).map ZoneSet.byBounds)

/-- The checks of a residual's equalities, where zones are walked for them. -/
def Classes.zonedBy (zoned : List ZoneCheck) (eqs : ℕ) (selection : RowSelection) (baseLen : ℕ) :
    Option Classes :=
  match span (selection.asRows baseLen) with
  | none => none
  | some _ =>
    if 32 < eqs then none
    else (ZoneSet.new zoned (unzonedBits eqs zoned)).map .zoned

/-- The equalities the columns' bounds leave, beside their checks; `none` where a column
holds no row of its code. -/
def askLoop (zones : QuadZones) : List Equality → List Equality → List ZoneCheck →
    Option (List Equality × List ZoneCheck)
  | [], left, zoned => some (left, zoned)
  | eq :: eqs, left, zoned =>
    match zoneCheck zones left.length eq with
    | none => askLoop zones eqs (left ++ [eq]) zoned
    | some check =>
      match check.zones.columnBounds.bind fun bounds =>
          eqOnBounds bounds.1 bounds.2 check.code with
      | some false => none
      | some true => askLoop zones eqs left zoned
      | none => askLoop zones eqs (left ++ [eq]) (zoned ++ [check])

/-- The statistics a residual over a selection of a base asks once. -/
def askStatistics (zones : QuadZones) (baseLen : ℕ) (selection : RowSelection)
    (eqs : List Equality) : Asked :=
  match askLoop zones eqs [] [] with
  | none => .nothing
  | some (left, zoned) =>
    if left = [] then .everything
    else
      .openEqs left
        ((Classes.zonedBy zoned left.length selection baseLen).getD (unaskedClasses zones left))

/-! ### A residual left pending -/

/-- A compare whose matches are kept once every one is known. -/
structure PendingResidual where
  table : ResidualTable
  selection : RowSelection
  eqs : List Equality
  classes : Classes
  ids : Option (List RowId)

namespace PendingResidual

section Masked

variable {M : Type*} [MaskOps M]

def liveIds (ids : List RowId) (deleted : Option M) : List RowId :=
  match deleted with
  | none => ids
  | some deleted => ids.filter fun id => !value deleted id

def countLive (ids : List RowId) (deleted : Option M) : ℕ :=
  match deleted with
  | none => ids.length
  | some deleted => (ids.filter fun id => !value deleted id).length

end Masked

variable (M : Type*) [MaskOps M] (fl : FastLanes) (pending : PendingResidual)

/-- The walk of the compare. -/
def compare (deleted : Option M) : ResidualCompare M :=
  ⟨pending.table, pending.selection, pending.eqs, pending.classes, deleted⟩

/-- Whether a walk for `want` rows in pieces reaches every selected row. -/
def reachesEveryRow (want : ℕ) : Bool :=
  match pending.classes with
  | .zoned _ => false
  | .pieces _ => decide (pending.selection.len pending.table.len ≤ want)

/-- Every match, and the compare with the matches kept. -/
def materialized : Option (List RowId × PendingResidual) :=
  match pending.ids with
  | some ids => some (ids, pending)
  | none =>
    ((pending.compare M none).rows fl).map fun matched =>
      let ids := extendRows matched pending.table.len
      (ids, { pending with ids := some ids })

def isZoned : Classes → Bool
  | .zoned _ => true
  | .pieces _ => false

variable {M}

def count (deleted : Option M) : Option (ℕ × PendingResidual) :=
  if pending.ids = none ∧ isZoned pending.classes then
    ((pending.compare M deleted).count fl none).map fun count => (count, pending)
  else
    (pending.materialized M fl).map fun kept => (countLive kept.1 deleted, kept.2)

def lenIfKnown : Option ℕ := pending.ids.map List.length

def countCapped (limit : ℕ) (deleted : Option M) : Option (ℕ × PendingResidual) :=
  if pending.ids = none ∧ !pending.reachesEveryRow limit then
    ((pending.compare M deleted).count fl (some limit)).map fun count => (min count limit, pending)
  else
    (pending.materialized M fl).map fun kept => (min (countLive kept.1 deleted) limit, kept.2)

def window (offset limit : ℕ) (deleted : Option M) :
    Option ((List RowId × Live) × PendingResidual) :=
  if pending.ids = none ∧ !pending.reachesEveryRow (saturatingAdd offset limit) then
    ((pending.compare M deleted).window fl offset limit).map fun window => (window, pending)
  else
    (pending.materialized M fl).map fun kept =>
      let live := liveIds kept.1 deleted
      let start := min offset live.length
      let stop := min (saturatingAdd offset limit) live.length
      (((if start < stop then (live.drop start).take (stop - start) else []), .exact live.length),
        kept.2)

end PendingResidual

end Store
