/-
What the reads of a file's serve plan give.

* `ChildReader.Reads` — the scans and the chunk probes of a child read a copy's entries;
* `columnsAt_spec`, `rangeRead_spec` — columns at some rows, however they are read;
* `FileServePlan.Covers` — the places of the child a plan covers;
* `locatedSpan_spec` — a narrowing cuts a span over those places, located or not;
* `liveRows_spec`, `live_spec`, `keptRows_spec`, `rowsWhere_spec`, `codeColumns_spec` — each
  read gives the rows at those places.
-/
import VortexRdf.FilePlans
import VortexRdf.ServedAnswers

namespace Indexes

open Ascending Bisect Buffers Builds Dictionary Masks MaskOps Terms
open EncodedSearch (ColumnChunks FastLanes Node)
open Store hiding Row

/-! ### What a child holds -/

section Child

variable {V : Type} [LinearOrder V] [TermColumn V] [Inhabited V]

/-- What a copy child holds of an entry under a column's name. -/
def childScalar (entry : Row V × RowId) (name : String) : Scalar :=
  if name = COL_S then TermColumn.scalar entry.1.s
  else if name = COL_P then TermColumn.scalar entry.1.p
  else if name = COL_O then TermColumn.scalar entry.1.o
  else if name = COL_G then TermColumn.scalar entry.1.g
  else if name = COL_RID then .num entry.2
  else .null

/-- An equality asks a quad column for a term's value. -/
def TermEquality (V : Type) [LinearOrder V] [TermColumn V] (eq : Equality) : Prop :=
  ∃ (role : QuadColumn) (v : V), eq = (role.name, TermColumn.scalar v)

variable (family : CopyFamily) (rows : List (Row V))

def projectedScalar (i : ℕ) : Projected → Scalar
  | .rowIdx => .num i
  | .column name => childScalar (entryAt family rows i) name

/-- Whether the entry at a place holds some equalities. -/
def childHolds (eqs : List Equality) (i : ℕ) : Bool :=
  eqs.all fun eq => childScalar (entryAt family rows i) (columnText eq.1) == eq.2

/-- The places of the child where some equalities hold. -/
def holdingPlaces (eqs : List Equality) : List ℕ :=
  (List.range rows.length).filter (childHolds family rows eqs)

namespace ChildScan

/-- A scan the library takes: rows within the child, chosen ones ascending in the range, a
conjunction of term equalities, splits of some rows. -/
structure Valid (V : Type) [LinearOrder V] [TermColumn V] (n : ℕ) (scan : ChildScan) : Prop where
  columns : ∀ column ∈ scan.projection, ∀ name, column.2 = .column name → name ∈ CHILD_COLUMNS
  range : ∀ range ∈ scan.rowRange, range.Within n
  indices : ∀ chosen ∈ scan.rowIndices, chosen.SortedLT ∧
    ∃ range ∈ scan.rowRange, ∀ i ∈ chosen, range.start ≤ i ∧ i < range.stop
  filter : ∀ eqs ∈ scan.filter, eqs ≠ [] ∧ ∀ eq ∈ eqs, TermEquality V eq
  splits : ∀ n ∈ scan.splitRows, 0 < n

/-- The rows of the child a scan gives. -/
def places (scan : ChildScan) : List ℕ :=
  (List.range rows.length).filter fun i =>
    (scan.rowRange.all fun range => decide (range.start ≤ i ∧ i < range.stop)) &&
      (scan.rowIndices.all fun chosen => decide (i ∈ chosen)) &&
      scan.filter.all fun eqs => childHolds family rows eqs i

/-- The chunk of a scan read whole. -/
def chunk (scan : ChildScan) : ChildChunk where
  len := (scan.places family rows).length
  columns := scan.projection.map fun column =>
    (column.1, (scan.places family rows).map fun i => projectedScalar family rows i column.2)

end ChildScan

/-- The scans of a child give the entries of a copy of some rows, and its chunk probes read
its columns. -/
structure ChildReader.Reads (fl : FastLanes) (child : ChildReader) : Prop where
  scans : ∀ scan : ChildScan, scan.Valid V rows.length →
    child.readAllRows scan = some (scan.chunk family rows)
  probed : ∀ name handle, child.columnChunks name = some handle → handle.Cut fl ∧
    handle.rowCount = rows.length ∧ ∃ values : List ℕ, handle.concat fl = values.map some ∧
      (List.range rows.length).map (fun i => childScalar (entryAt family rows i) name) =
        values.map .num

/-- Some columns of the child at some of its places. -/
def chunkOf (columns : List String) (places : List ℕ) : ChildChunk where
  len := places.length
  columns := columns.map fun name =>
    (name, places.map fun i => childScalar (entryAt family rows i) name)

end Child

/-! ### Columns of a chunk -/

section Chunk

variable {V : Type} [LinearOrder V] [TermColumn V]

theorem childScalar_role (entry : Row V × RowId) (role : QuadColumn) :
    childScalar entry (roleColumn role) = TermColumn.scalar (roleValue entry.1 role) := by
  cases role <;> rfl

variable [Inhabited V] {family : CopyFamily} {rows : List (Row V)} {columns : List String}
  {places : List ℕ}

theorem roleColumn_mem (role : QuadColumn) : roleColumn role ∈ CHILD_COLUMNS := by
  cases role <;> decide

theorem columnText_role (role : QuadColumn) : columnText role.name = roleColumn role := by
  cases role <;> rfl

theorem lookup_map_snd {α β : Type} {f : α → β} {name : String} (l : List (String × α)) :
    (l.map fun column => (column.1, f column.2)).lookup name = (l.lookup name).map f := by
  induction l with
  | nil => rfl
  | cons first l ih =>
    obtain ⟨known, a⟩ := first
    rw [List.map_cons, List.lookup_cons, List.lookup_cons, ih]
    cases name == known <;> rfl

theorem lookup_named {α : Type} {f : String → α} {name : String} (h : name ∈ columns) :
    (columns.map fun name => (name, f name)).lookup name = some (f name) := by
  induction columns with
  | nil => exact absurd h List.not_mem_nil
  | cons first columns ih =>
    rw [List.map_cons, List.lookup_cons]
    by_cases hsame : name = first
    · rw [hsame, beq_self_eq_true]
    · rw [beq_false_of_ne hsame]
      exact ih ((List.mem_cons.mp h).resolve_left hsame)

theorem ChildScan.chunk_column (scan : ChildScan) (name : String) :
    (scan.chunk family rows).column name = (scan.projection.lookup name).map fun p =>
      (scan.places family rows).map fun i => projectedScalar family rows i p :=
  @lookup_map_snd _ _ (fun p => (scan.places family rows).map fun i => projectedScalar family rows i p)
    name scan.projection

theorem chunkOf_column {name : String} (h : name ∈ columns) :
    (chunkOf family rows columns places).column name =
      some (places.map fun i => childScalar (entryAt family rows i) name) := lookup_named h

theorem chunkOf_codes {name : String} (h : name ∈ columns) {f : ℕ → TermCode}
    (hcodes : ∀ i ∈ places, childScalar (entryAt family rows i) name = .num (f i)) :
    (chunkOf family rows columns places).codes name = some (places.map f) := by
  rw [ChildChunk.codes, chunkOf_column h, Option.bind_some, List.mapM_map]
  refine mapM_some fun i hi => ?_
  rw [Function.comp_apply, hcodes i hi]
  rfl

theorem chunkOf_rids (h : COL_RID ∈ columns) : (chunkOf family rows columns places).codes COL_RID =
    some (places.map ((IndexChild.copy family).ridAt rows)) :=
  chunkOf_codes h fun _ _ => rfl

end Chunk

/-! ### Columns at some rows -/

section Scans

variable {V : Type} [LinearOrder V] [TermColumn V] {columns : List String} {places : List ℕ}

theorem select_columns (hcolumns : ∀ name ∈ columns, name ∈ CHILD_COLUMNS) :
    ∀ column ∈ select columns, ∀ name, column.2 = .column name → name ∈ CHILD_COLUMNS := by
  intro column hcolumn name hname
  obtain ⟨known, hknown, rfl⟩ := List.mem_map.mp hcolumn
  rw [← Projected.column.inj hname]
  exact hcolumns known hknown

theorem valid_chosen {n : ℕ} {range : RowRange} (hcolumns : ∀ name ∈ columns, name ∈ CHILD_COLUMNS)
    (hsorted : places.SortedLT) (hrange : range.Within n)
    (hin : ∀ i ∈ places, range.start ≤ i ∧ i < range.stop) :
    ChildScan.Valid V n ⟨select columns, some range, some places, none, none⟩ where
  columns := select_columns hcolumns
  range r hr := Option.some.inj hr ▸ hrange
  indices chosen hchosen := by
    obtain rfl := Option.some.inj hchosen
    exact ⟨hsorted, range, rfl, hin⟩
  filter eqs heqs := by cases heqs
  splits n hn := by cases hn

theorem valid_range {n : ℕ} {range : RowRange} {splits : Option ℕ}
    (hcolumns : ∀ name ∈ columns, name ∈ CHILD_COLUMNS) (hrange : range.Within n)
    (hsplits : ∀ n ∈ splits, 0 < n) :
    ChildScan.Valid V n ⟨select columns, some range, none, none, splits⟩ where
  columns := select_columns hcolumns
  range r hr := Option.some.inj hr ▸ hrange
  indices chosen hchosen := by cases hchosen
  filter eqs heqs := by cases heqs
  splits := hsplits

theorem valid_filter {n : ℕ} {projection : List (String × Projected)} {eqs : List Equality}
    (hprojection : ∀ column ∈ projection, ∀ name, column.2 = .column name → name ∈ CHILD_COLUMNS)
    (hne : eqs ≠ []) (hterms : ∀ eq ∈ eqs, TermEquality V eq) :
    ChildScan.Valid V n ⟨projection, none, none, some eqs, none⟩ where
  columns := hprojection
  range r hr := by cases hr
  indices chosen hchosen := by cases hchosen
  filter found hfound := Option.some.inj hfound ▸ ⟨hne, hterms⟩
  splits n hn := by cases hn

theorem termEquality_named {eq : Equality} (h : TermEquality V eq) :
    ∃ (role : QuadColumn) (v : V), columnText eq.1 = roleColumn role ∧ eq.2 = TermColumn.scalar v := by
  obtain ⟨role, v, rfl⟩ := h
  exact ⟨role, v, columnText_role role, rfl⟩

theorem termEquality_columns {eqs : List Equality}
    (h : ∀ eq ∈ eqs, TermEquality V eq) :
    ∀ name ∈ eqs.map fun eq => columnText eq.1, name ∈ CHILD_COLUMNS := by
  intro name hname
  obtain ⟨eq, heq, rfl⟩ := List.mem_map.mp hname
  obtain ⟨role, v, hrole, -⟩ := termEquality_named (h eq heq)
  rw [hrole]
  exact roleColumn_mem role

end Scans

section Columns

variable {V : Type} [LinearOrder V] [TermColumn V] [Inhabited V] {family : CopyFamily}
  {rows : List (Row V)} {fl : FastLanes} {child : ChildReader} {columns : List String}
  {places : List ℕ}

theorem chunk_select {scan : ChildScan} (hselect : scan.projection = select columns)
    (hplaces : scan.places family rows = places) :
    scan.chunk family rows = chunkOf family rows columns places := by
  rw [ChildScan.chunk, hselect, hplaces, chunkOf, select, List.map_map]
  rfl

/-- A column's values at some rows, through its chunk probes. -/
theorem valuesAt_spec (h : child.Reads family rows fl) (hin : ∀ i ∈ places, i < rows.length)
    {name : String} {handle : ColumnChunks} (hhandle : child.columnChunks name = some handle) :
    ∃ found, handle.valuesAt fl places = some found ∧ ∀ values ∈ found,
      values.map Scalar.num = places.map fun i => childScalar (entryAt family rows i) name := by
  obtain ⟨hcut, hcount, values, hconcat, hvalues⟩ := h.probed name handle hhandle
  have hrange : ∀ row ∈ places, row < handle.rowCount := by rwa [hcount]
  rcases ColumnChunks.valuesAt_answers hcut hconcat hrange with ⟨found, hfound, rfl⟩ | ⟨hfound, -⟩
  · refine ⟨_, hfound, fun values' hvalues' => ?_⟩
    obtain rfl := Option.some.inj hvalues'
    rw [List.map_map]
    refine List.map_congr_left fun i hi => ?_
    have hat := congrArg (·[i]?) hvalues
    simp only [List.getElem?_map, List.getElem?_range (hin i hi), Option.map_some] at hat
    obtain ⟨v, hv, hsame⟩ := Option.map_eq_some_iff.mp hat.symm
    rw [Function.comp_apply, ColumnChunks.column_of_getElem? hv, ← hsame]
  · exact ⟨none, hfound, fun values' hvalues' => by cases hvalues'⟩

theorem pointValues_spec (h : child.Reads family rows fl) (hin : ∀ i ∈ places, i < rows.length) :
    ∀ {columns : List String} {handles : List ColumnChunks},
      columns.mapM child.columnChunks = some handles →
      ∃ found, ChildReader.pointValues fl places handles = some found ∧ ∀ values ∈ found,
        values.map (List.map Scalar.num) =
          columns.map fun name => places.map fun i => childScalar (entryAt family rows i) name := by
  intro columns
  induction columns with
  | nil =>
    intro handles hhandles
    obtain rfl : [] = handles := Option.some.inj hhandles
    refine ⟨some [], rfl, fun values hvalues => ?_⟩
    obtain rfl := Option.some.inj hvalues
    rfl
  | cons name columns ih =>
    intro handles hhandles
    rw [List.mapM_cons] at hhandles
    simp only [Option.bind_eq_bind, Option.bind_eq_some_iff, Option.pure_def, Option.some.injEq] at hhandles
    obtain ⟨handle, hhandle, rest, hrest, rfl⟩ := hhandles
    obtain ⟨first, hfirst, hread⟩ := valuesAt_spec h hin hhandle
    obtain ⟨others, hothers, hall⟩ := ih hrest
    cases first with
    | none => exact ⟨none, by rw [ChildReader.pointValues, hfirst], fun values hvalues => by cases hvalues⟩
    | some first =>
      refine ⟨others.map fun rest => first :: rest, ?_, fun values hvalues => ?_⟩
      · rw [ChildReader.pointValues, hfirst]
        dsimp only
        rw [hothers, Option.map_some]
      · obtain ⟨rest, hrest, rfl⟩ := Option.map_eq_some_iff.mp hvalues
        rw [List.map_cons, List.map_cons, hread first rfl, hall rest hrest]

/-- Point reads of some columns give their values, a value column each, or decline. -/
theorem componentPointValues_spec (h : child.Reads family rows fl)
    (hin : ∀ i ∈ places, i < rows.length) (columns : List String) :
    ∃ found, child.componentPointValues fl columns places = some found ∧ ∀ values ∈ found,
      values.map (List.map Scalar.num) =
        columns.map fun name => places.map fun i => childScalar (entryAt family rows i) name := by
  rw [ChildReader.componentPointValues]
  cases hhandles : columns.mapM child.columnChunks with
  | none => exact ⟨none, rfl, fun values hvalues => by cases hvalues⟩
  | some handles => exact pointValues_spec h hin hhandles

theorem componentPointRows_spec (h : child.Reads family rows fl)
    (hin : ∀ i ∈ places, i < rows.length) (columns : List String) :
    ∃ found, child.componentPointRows fl columns places = some found ∧ ∀ chunk ∈ found,
      chunk = chunkOf family rows columns places := by
  obtain ⟨found, hfound, hvalues⟩ := componentPointValues_spec h hin columns
  rw [ChildReader.componentPointRows, hfound, Option.map_some]
  refine ⟨_, rfl, fun chunk hchunk => ?_⟩
  obtain ⟨values, hsome, hbuilt⟩ := Option.bind_eq_some_iff.mp hchunk
  split_ifs at hbuilt
  rw [← Option.some.inj hbuilt, hvalues values hsome, chunkOf, zip_map_self]

variable {plan : FileServePlan}

variable {projection : List (String × Projected)}

/-- The rows a scan chooses of its range are those it gives. -/
theorem places_chosen {range : RowRange}
    (hsorted : places.SortedLT) (hin : ∀ i ∈ places, i < rows.length)
    (hrange : ∀ i ∈ places, range.start ≤ i ∧ i < range.stop) :
    ChildScan.places family rows ⟨projection, some range, some places, none, none⟩ = places := by
  rw [ChildScan.places]
  refine ((List.sortedLT_range _).pairwise.sublist List.filter_sublist).sortedLT.eq_of_mem_iff hsorted
    fun i => ?_
  rw [List.mem_filter, List.mem_range]
  simp only [Option.all_some, Option.all_none, Bool.and_true, Bool.and_eq_true, decide_eq_true_eq]
  exact ⟨fun hi => hi.2.2, fun hi => ⟨hin i hi, hrange i hi, hi⟩⟩

theorem places_range {range : RowRange} {splits : Option ℕ}
    (hrange : range.Within rows.length) :
    ChildScan.places family rows ⟨projection, some range, none, none, splits⟩ = range.toList := by
  rw [ChildScan.places]
  refine ((List.sortedLT_range _).pairwise.sublist List.filter_sublist).sortedLT.eq_of_mem_iff
    range.sortedLT_toList fun i => ?_
  rw [List.mem_filter, List.mem_range, RowRange.mem_toList]
  simp only [Option.all_some, Option.all_none, Bool.and_true, decide_eq_true_eq]
  exact ⟨fun hi => hi.2, fun hi => ⟨lt_of_lt_of_le hi.2 hrange.inBase, hi⟩⟩

theorem places_filter {eqs : List Equality} :
    ChildScan.places family rows ⟨projection, none, none, some eqs, none⟩ =
      holdingPlaces family rows eqs := by
  rw [ChildScan.places, holdingPlaces]
  rfl

/-- The span of ascending rows holds them. -/
theorem spanOf_spec {n : ℕ} (hsorted : places.SortedLT) (hin : ∀ i ∈ places, i < n) :
    (FileServePlan.spanOf places).Within n ∧
      ∀ i ∈ places, (FileServePlan.spanOf places).start ≤ i ∧ i < (FileServePlan.spanOf places).stop := by
  cases places with
  | nil => exact ⟨⟨le_rfl, Nat.zero_le _⟩, fun i hi => absurd hi List.not_mem_nil⟩
  | cons first rest =>
    have hbounds := le_getLastD hsorted
    have hlast := @List.getLastD_mem_cons _ rest first
    have hspan : FileServePlan.spanOf (first :: rest) = ⟨first, rest.getLastD first + 1⟩ := by
      rw [FileServePlan.spanOf, List.head?_cons, List.getLast?_cons, List.getLastD_eq_getLast?]
    rw [hspan]
    exact ⟨⟨Nat.le_succ_of_le (hbounds _ hlast).1, hin _ hlast⟩,
      fun i hi => ⟨(hbounds i hi).1, Nat.lt_succ_of_le (hbounds i hi).2⟩⟩

/-- The child's columns at some rows, through the chunk probes or by a scan. -/
theorem columnsAt_spec (h : plan.child.Reads family rows fl)
    (hcolumns : ∀ name ∈ columns, name ∈ CHILD_COLUMNS) (hsorted : places.SortedLT)
    (hin : ∀ i ∈ places, i < rows.length) :
    plan.columnsAt fl columns places = some (chunkOf family rows columns places) := by
  obtain ⟨found, hfound, hchunk⟩ := componentPointRows_spec h hin columns
  rw [FileServePlan.columnsAt, hfound, Option.bind_some]
  cases found with
  | some chunk => rw [hchunk chunk rfl]
  | none =>
    dsimp only
    rw [if_pos hsorted]
    obtain ⟨hwithin, hinSpan⟩ := spanOf_spec hsorted hin
    rw [h.scans _ (valid_chosen hcolumns hsorted hwithin hinSpan)]
    exact congrArg some (chunk_select rfl (places_chosen hsorted hin hinSpan))

theorem rangeRead_spec (h : plan.child.Reads family rows fl)
    (hcolumns : ∀ name ∈ columns, name ∈ CHILD_COLUMNS) {range : RowRange}
    (hrange : range.Within rows.length) :
    plan.rangeRead fl range columns = some (chunkOf family rows columns range.toList) := by
  rw [FileServePlan.rangeRead]
  split_ifs
  · exact columnsAt_spec h hcolumns range.sortedLT_toList
      fun i hi => lt_of_lt_of_le (RowRange.mem_toList.mp hi).2 hrange.inBase
  · rw [h.scans _ (valid_range hcolumns hrange fun n hn => (by cases hn))]
    exact congrArg some (chunk_select rfl (places_range hrange))

end Columns

/-! ### What a span covers -/

section Spans

variable {V : Type} [LinearOrder V] [Inhabited V] {M : Type} [MaskOps M]

/-- A span of the child covers some live places. -/
def ServedSpan.Spans (family : CopyFamily) (rows : List (Row V)) (deleted : Option M)
    (places : List ℕ) (span : ServedSpan) : Prop :=
  span.Covers (.copy family) rows deleted ⟨0, rows.length⟩ places

variable {family : CopyFamily} {rows : List (Row V)} {deleted : Option M} {places : List ℕ}

theorem ServedSpan.Spans.within {range : RowRange}
    (h : (ServedSpan.range range).Spans family rows deleted places) : range.Within rows.length ∧
      places = range.toList.filter fun i => liveRid deleted ((IndexChild.copy family).ridAt rows i) :=
  ⟨⟨h.2.1, h.2.2.1⟩, h.2.2.2⟩

theorem kept_positions {listed : ServedRows}
    (h : (ServedSpan.kept listed).Spans family rows deleted places) : listed.positions = places :=
  (ServedSpan.Covers.kept h).1

theorem kept_pairs {listed : ServedRows}
    (h : (ServedSpan.kept listed).Spans family rows deleted places) :
    listed.positionsAndRids = places.map ((IndexChild.copy family).pairAt rows) := by
  obtain rfl : listed = ServedRows.ofPairs (places.map ((IndexChild.copy family).pairAt rows)) := h
  exact positionsAndRids_ofPairs _

theorem childRows_eq_pairs (range : RowRange) :
    childRows range (range.toList.map ((IndexChild.copy family).ridAt rows)) =
      range.toList.map ((IndexChild.copy family).pairAt rows) := by
  rw [childRows, show ∀ rids : List ℕ, rids.map baseRow = rids from List.map_id, zip_map_self]
  rfl

/-- The live rows of those at some places. -/
theorem collectLive_spec (positions : List ℕ) :
    FileServePlan.collectLive deleted (positions.map ((IndexChild.copy family).pairAt rows)) =
      some (ServedRows.ofPairs ((positions.filter fun i =>
        liveRid deleted ((IndexChild.copy family).ridAt rows i)).map
          ((IndexChild.copy family).pairAt rows))) := by
  rw [FileServePlan.collectLive, collect_eq (p := fun row => liveRid deleted row.2) (f := id),
    List.map_id, List.filter_map]
  · rfl
  · exact fun _ _ => rfl

end Spans

/-! ### What a plan covers -/

section Plans

variable {V : Type} [LinearOrder V] [TermColumn V] [Inhabited V] {M : Type} [MaskOps M]

/-- The live places of the child where some equalities hold. -/
def livePlaces (family : CopyFamily) (rows : List (Row V)) (deleted : Option M)
    (eqs : List Equality) : List ℕ :=
  (holdingPlaces family rows eqs).filter fun i =>
    liveRid deleted ((IndexChild.copy family).ridAt rows i)

/-- A run located for a plan's equalities, if it was, covers the live places they hold at. -/
def RunLocated (family : CopyFamily) (rows : List (Row V)) (deleted : Option M)
    (eqs : List Equality) (located : Option ServedSpan) : Prop :=
  ∀ span ∈ located, span.Spans family rows deleted (livePlaces family rows deleted eqs)

/-- A plan over a copy child covers some of the live places its equalities hold at. -/
structure FileServePlan.Covers (fl : FastLanes) (family : CopyFamily) (rows : List (Row V))
    (deleted : Option M) (places : List ℕ) (plan : FileServePlan) : Prop where
  reads : plan.child.Reads family rows fl
  constrained : plan.constraints ≠ []
  terms : ∀ eq ∈ plan.constraints, TermEquality V eq
  spanned : ∀ span ∈ plan.span, span.Spans family rows deleted places
  unspanned : plan.span = none → places = livePlaces family rows deleted plan.constraints
  listed : places.Sublist (livePlaces family rows deleted plan.constraints)

variable {fl : FastLanes} {family : CopyFamily} {rows : List (Row V)} {deleted : Option M}
  {places : List ℕ} {plan : FileServePlan} {located : Option ServedSpan} {eqs : List Equality}

theorem sortedLT_holdingPlaces : (holdingPlaces family rows eqs).SortedLT :=
  ((List.sortedLT_range _).pairwise.sublist List.filter_sublist).sortedLT

theorem mem_livePlaces {i : ℕ} : i ∈ livePlaces family rows deleted eqs ↔
    (i < rows.length ∧ childHolds family rows eqs i = true) ∧
      liveRid deleted ((IndexChild.copy family).ridAt rows i) = true := by
  rw [livePlaces, List.mem_filter, holdingPlaces, List.mem_filter, List.mem_range]

theorem sortedLT_livePlaces : (livePlaces family rows deleted eqs).SortedLT :=
  (sortedLT_holdingPlaces.pairwise.sublist List.filter_sublist).sortedLT

namespace FileServePlan.Covers

variable (h : plan.Covers fl family rows deleted places)
include h

theorem ascending : places.SortedLT := (sortedLT_livePlaces.pairwise.sublist h.listed).sortedLT

theorem inBase : ∀ i ∈ places, i < rows.length := fun _ hi =>
  (mem_livePlaces.mp (h.listed.subset hi)).1.1

theorem holds : ∀ i ∈ places, childHolds family rows plan.constraints i = true := fun _ hi =>
  (mem_livePlaces.mp (h.listed.subset hi)).1.2

theorem live : ∀ i ∈ places, liveRid deleted ((IndexChild.copy family).ridAt rows i) = true :=
  fun _ hi => (mem_livePlaces.mp (h.listed.subset hi)).2

end FileServePlan.Covers

/-! ### The run as located -/

/-- Ascending positions that fill their span are its rows. -/
theorem contiguous_spec {positions : List ℕ} (hsorted : positions.SortedLT) {range : RowRange}
    (hrange : FileServePlan.contiguous positions = some range) :
    range.start < range.stop ∧ range.toList = positions := by
  cases positions with
  | nil => cases hrange
  | cons first rest =>
    have hbounds := le_getLastD hsorted
    have hlast := @List.getLastD_mem_cons _ rest first
    rw [FileServePlan.contiguous, List.head?_cons, List.getLast?_cons, ← List.getLastD_eq_getLast?]
      at hrange
    dsimp only at hrange
    split_ifs at hrange with hlen
    obtain rfl := Option.some.inj hrange
    -- as many positions as the span has rows
    have hsub : (first :: rest).toFinset ⊆ Finset.Icc first (rest.getLastD first) := by
      intro i hi
      exact Finset.mem_Icc.mpr (hbounds i (List.mem_toFinset.mp hi))
    have hcard : (Finset.Icc first (rest.getLastD first)).card ≤ (first :: rest).toFinset.card := by
      rw [List.toFinset_card_of_nodup hsorted.nodup, Nat.card_Icc]
      have := (hbounds _ hlast).1
      omega
    have hall := Finset.eq_of_subset_of_card_le hsub hcard
    refine ⟨Nat.lt_succ_of_le (hbounds _ hlast).1,
      (RowRange.sortedLT_toList _).eq_of_mem_iff hsorted fun i => ?_⟩
    rw [RowRange.mem_toList, ← List.mem_toFinset, hall, Finset.mem_Icc, Nat.lt_succ_iff]

/-- The whole run read by row index. -/
theorem readRunRows_spec (h : plan.child.Reads family rows fl) (hne : plan.constraints ≠ [])
    (hterms : ∀ eq ∈ plan.constraints, TermEquality V eq) :
    plan.readRunRows = some (holdingPlaces family rows plan.constraints,
      (holdingPlaces family rows plan.constraints).map ((IndexChild.copy family).ridAt rows)) := by
  have hprojection : ∀ column ∈ [("position", Projected.rowIdx), ("rid", .column COL_RID)],
      ∀ name, column.2 = .column name → name ∈ CHILD_COLUMNS := by
    intro column hcolumn name hname
    rcases List.mem_cons.mp hcolumn with rfl | hcolumn
    · cases hname
    · obtain rfl := List.mem_singleton.mp hcolumn
      rw [← Projected.column.inj hname]
      exact List.mem_of_getLast? rfl
  rw [FileServePlan.readRunRows, FileServePlan.filter, if_neg hne, Option.bind_some,
    h.scans _ (valid_filter hprojection hne hterms), Option.bind_some]
  have hcodes : ∀ (name : String) (f : ℕ → ℕ) (p : Projected),
      [("position", Projected.rowIdx), ("rid", .column COL_RID)].lookup name = some p →
      (∀ i, projectedScalar family rows i p = .num (f i)) →
      (ChildScan.chunk family rows ⟨[("position", .rowIdx), ("rid", .column COL_RID)], none, none,
        some plan.constraints, none⟩).codes name =
          some ((holdingPlaces family rows plan.constraints).map f) := by
    intro name f p hp hf
    have hcolumn : (ChildScan.chunk family rows ⟨[("position", .rowIdx), ("rid", .column COL_RID)],
        none, none, some plan.constraints, none⟩).column name =
          some ((holdingPlaces family rows plan.constraints).map fun i => .num (f i)) := by
      rw [ChildScan.chunk_column, hp, Option.map_some, funext hf, places_filter]
    rw [ChildChunk.codes, hcolumn, Option.bind_some, List.mapM_map]
    exact mapM_some fun _ _ => rfl
  rw [hcodes "position" id .rowIdx rfl fun _ => rfl, Option.bind_some, List.map_id,
    hcodes "rid" ((IndexChild.copy family).ridAt rows) (.column COL_RID) rfl fun _ => rfl,
    Option.map_some]

/-- What a narrowing cuts covers the view's rows, and the run stays located as it was read. -/
theorem locatedSpan_spec (h : plan.Covers fl family rows deleted places)
    (hlocated : RunLocated family rows deleted plan.constraints located) :
    ∃ span located', plan.locatedSpan deleted located = some (span, located') ∧
      span.Spans family rows deleted places ∧
      RunLocated family rows deleted plan.constraints located' := by
  rw [FileServePlan.locatedSpan]
  cases hspan : plan.span with
  | some span => exact ⟨span, located, rfl, h.spanned span hspan, hlocated⟩
  | none =>
    have hplaces := h.unspanned hspan
    cases hfound : located with
    | some span =>
      refine ⟨span, some span, rfl, ?_, hfound ▸ hlocated⟩
      rw [hplaces]
      exact hlocated span hfound
    | none =>
      -- read once, for this narrowing and every one after it
      have hread : ∀ span : ServedSpan,
          span.Spans family rows deleted (livePlaces family rows deleted plan.constraints) →
          span.Spans family rows deleted places ∧
            RunLocated family rows deleted plan.constraints (some span) := by
        intro span hspans
        refine ⟨by rwa [hplaces], fun found hfound => ?_⟩
        rwa [← Option.some.inj hfound]
      rw [readRunRows_spec h.reads h.constrained h.terms]
      simp only [Option.orElse_eq_orElse, Option.orElse_none, Option.bind_some]
      cases hcontiguous : FileServePlan.contiguous (holdingPlaces family rows plan.constraints) with
      | some range =>
        obtain ⟨hlt, hrows⟩ := contiguous_spec sortedLT_holdingPlaces hcontiguous
        have hlast : range.stop - 1 ∈ holdingPlaces family rows plan.constraints := by
          rw [← hrows, RowRange.mem_toList]
          omega
        have hstop := List.mem_range.mp (List.mem_filter.mp hlast).1
        refine ⟨_, _, rfl, hread _ ⟨Nat.zero_le _, hlt.le, ?_, ?_⟩⟩
        · dsimp only
          omega
        · rw [hrows]
          rfl
      | none =>
        have hpairs : (holdingPlaces family rows plan.constraints).zip
            (((holdingPlaces family rows plan.constraints).map
              ((IndexChild.copy family).ridAt rows)).map baseRow) =
            (holdingPlaces family rows plan.constraints).map ((IndexChild.copy family).pairAt rows) := by
          rw [show ∀ rids : List ℕ, rids.map baseRow = rids from List.map_id, zip_map_self]
          rfl
        refine ⟨.kept _, _, ?_, hread _ rfl⟩
        dsimp only
        rw [hpairs, collectLive_spec]
        rfl

/-! ### The rows read -/

theorem extractCodes_spec {columns : List String} {f : String → ℕ → TermCode}
    (hcodes : ∀ name ∈ columns, ∀ i ∈ places, childScalar (entryAt family rows i) name = .num (f name i)) :
    (chunkOf family rows columns places).extractCodes columns =
      some (columns.map fun name => places.map (f name)) := by
  rw [ChildChunk.extractCodes]
  exact mapM_some fun name hname => chunkOf_codes hname (hcodes name hname)

/-- Code columns over a range. -/
theorem rangeColumns_spec (h : plan.child.Reads family rows fl) {columns : List String}
    (hcolumns : ∀ name ∈ columns, name ∈ CHILD_COLUMNS) {range : RowRange}
    (hrange : range.Within rows.length) {f : String → ℕ → TermCode}
    (hcodes : ∀ name ∈ columns, ∀ i ∈ range.toList,
      childScalar (entryAt family rows i) name = .num (f name i)) :
    plan.rangeColumns fl range columns = some (columns.map fun name => range.toList.map (f name)) := by
  rw [FileServePlan.rangeColumns]
  split_ifs with hempty
  · have hnone : range.toList = [] := by
      rw [RowRange.toList, Nat.sub_eq_zero_of_le hempty, List.range'_zero]
    rw [hnone]
    rfl
  · rw [rangeRead_spec h hcolumns hrange, Option.bind_some, extractCodes_spec hcodes]

theorem rid_mem : ∀ name ∈ [COL_RID], name ∈ CHILD_COLUMNS := by
  intro name hname
  rw [List.mem_singleton.mp hname]
  exact List.mem_of_getLast? rfl

theorem rangeRows_spec (h : plan.child.Reads family rows fl) {range : RowRange}
    (hrange : range.Within rows.length) : plan.rangeRows fl deleted range =
      some (ServedRows.ofPairs ((range.toList.filter fun i =>
        liveRid deleted ((IndexChild.copy family).ridAt rows i)).map
          ((IndexChild.copy family).pairAt rows))) := by
  rw [FileServePlan.rangeRows, rangeColumns_spec h rid_mem hrange
    (f := fun _ => (IndexChild.copy family).ridAt rows), Option.bind_some]
  · show FileServePlan.collectLive deleted (childRows range (range.toList.map _)) = _
    rw [childRows_eq_pairs, collectLive_spec]
  · intro name hname i hi
    rw [List.mem_singleton.mp hname]
    rfl

/-- The live rows are those at the places covered. -/
theorem liveRows_spec (h : plan.Covers fl family rows deleted places)
    (hlocated : RunLocated family rows deleted plan.constraints located) :
    ∃ located', plan.liveRows fl deleted located =
        some (ServedRows.ofPairs (places.map ((IndexChild.copy family).pairAt rows)), located') ∧
      RunLocated family rows deleted plan.constraints located' := by
  obtain ⟨span, located', hspan, hspans, hkept⟩ := locatedSpan_spec h hlocated
  refine ⟨located', ?_, hkept⟩
  rw [FileServePlan.liveRows, hspan, Option.bind_some]
  cases span with
  | kept listed =>
    obtain rfl : listed = _ := hspans
    rfl
  | range range =>
    obtain ⟨hrange, hplaces⟩ := hspans.within
    dsimp only
    rw [rangeRows_spec h.reads hrange, Option.map_some, hplaces]

/-- What a narrowing cuts lists the places covered. -/
theorem live_spec (h : plan.Covers fl family rows deleted places)
    (hlocated : RunLocated family rows deleted plan.constraints located) :
    ∃ live located', plan.live fl deleted located = some (live, located') ∧
      live.Lists (.copy family) rows deleted ⟨0, rows.length⟩ places ∧
      RunLocated family rows deleted plan.constraints located' := by
  obtain ⟨span, located', hspan, hspans, hkept⟩ := locatedSpan_spec h hlocated
  rw [FileServePlan.live, hspan, Option.bind_some]
  cases span with
  | kept listed => exact ⟨.kept listed, located', by cases deleted <;> rfl, hspans, hkept⟩
  | range range =>
    obtain ⟨hrange, hplaces⟩ := hspans.within
    cases deleted with
    | none =>
      refine ⟨.range range, located', rfl, ⟨Nat.zero_le _, hrange.ordered, hrange.inBase, ?_⟩, hkept⟩
      rw [hplaces, filter_liveRid_none]
    | some mask =>
      dsimp only
      rw [rangeRows_spec h.reads hrange, Option.map_some]
      refine ⟨_, located', rfl, ⟨by rw [hplaces], fun a ha b hb i hai hib hlive => ?_⟩, hkept⟩
      rw [hplaces] at ha hb ⊢
      have ha' := RowRange.mem_toList.mp (List.mem_filter.mp ha).1
      have hb' := RowRange.mem_toList.mp (List.mem_filter.mp hb).1
      exact List.mem_filter.mpr ⟨RowRange.mem_toList.mpr ⟨by omega, by omega⟩, hlive⟩

/-- Whether a test admits a term column's value, by its code. -/
def admitsValue (admits : TermCode → Bool) (v : V) : Bool :=
  (unsignedValue (TermColumn.scalar v)).any admits

/-- The code a column of a row holds. -/
def codeAt (family : CopyFamily) (rows : List (Row V)) (role : QuadColumn) (i : ℕ) : TermCode :=
  (unsignedValue (TermColumn.scalar (roleValue ((IndexChild.copy family).rowAt rows i) role))).getD 0

theorem childScalar_code (hcoded : ∀ v : V, ∃ code, TermColumn.scalar v = .num code)
    (role : QuadColumn) (i : ℕ) :
    childScalar (entryAt family rows i) (roleColumn role) = .num (codeAt family rows role i) := by
  obtain ⟨code, hcode⟩ := hcoded (roleValue ((IndexChild.copy family).rowAt rows i) role)
  rw [childScalar_role, entryAt, codeAt, hcode]
  rfl

theorem admits_codeAt (hcoded : ∀ v : V, ∃ code, TermColumn.scalar v = .num code)
    (admits : TermCode → Bool) (role : QuadColumn) (i : ℕ) :
    admits (codeAt family rows role i) =
      admitsValue admits (roleValue ((IndexChild.copy family).rowAt rows i) role) := by
  obtain ⟨code, hcode⟩ := hcoded (roleValue ((IndexChild.copy family).rowAt rows i) role)
  rw [codeAt, admitsValue, hcode]
  rfl

theorem zip_map_map {α β γ : Type} (f : α → β) (g : α → γ) (l : List α) :
    (l.map f).zip (l.map g) = l.map fun a => (f a, g a) := List.zip_map'

/-- A keep's rows are those of the places whose code it admits. -/
theorem keptRows_spec (h : plan.Covers fl family rows deleted places)
    (hlocated : RunLocated family rows deleted plan.constraints located)
    (hcoded : ∀ v : V, ∃ code, TermColumn.scalar v = .num code) (role : QuadColumn)
    (admits : TermCode → Bool) :
    ∃ located', plan.keptRows fl deleted located (roleColumn role) admits =
        some (ServedRows.ofPairs ((places.filter fun i =>
          admitsValue admits (roleValue ((IndexChild.copy family).rowAt rows i) role)).map
            ((IndexChild.copy family).pairAt rows)), located') ∧
      RunLocated family rows deleted plan.constraints located' := by
  obtain ⟨span, located', hspan, hspans, hkept⟩ := locatedSpan_spec h hlocated
  refine ⟨located', ?_, hkept⟩
  rw [FileServePlan.keptRows, hspan, Option.bind_some]
  have hcode := fun i => @childScalar_code V _ _ _ family rows hcoded role i
  have hadmits := fun i => @admits_codeAt V _ _ _ family rows hcoded admits role i
  cases span with
  | kept listed =>
    dsimp only
    have hcolumn : ∀ name ∈ [roleColumn role], name ∈ CHILD_COLUMNS := by
      intro name hname
      rw [List.mem_singleton.mp hname]
      exact roleColumn_mem role
    rw [kept_positions hspans, columnsAt_spec h.reads hcolumn h.ascending h.inBase, Option.bind_some,
      chunkOf_codes (List.mem_singleton_self _) fun i _ => hcode i, Option.bind_some,
      kept_pairs hspans, zip_map_map, collect_eq (p := fun row => admits row.2) (f := Prod.fst),
      Option.map_some, List.filter_map, List.map_map]
    · simp only [Function.comp_def, hadmits]
    · exact fun _ _ => rfl
  | range range =>
    obtain ⟨hrange, hplaces⟩ := hspans.within
    have hcolumns : ∀ name ∈ [roleColumn role, COL_RID], name ∈ CHILD_COLUMNS := by
      intro name hname
      rcases List.mem_cons.mp hname with rfl | hname
      · exact roleColumn_mem role
      · exact rid_mem name hname
    have hne : roleColumn role ≠ COL_RID := by cases role <;> decide
    dsimp only
    rw [rangeColumns_spec h.reads hcolumns hrange (f := fun name i =>
      if name = COL_RID then (IndexChild.copy family).ridAt rows i else codeAt family rows role i),
      Option.bind_some]
    · simp only [List.map_cons, List.map_nil, if_neg hne, if_true]
      rw [childRows_eq_pairs, zip_map_map, collect_eq (p := fun row =>
        admits row.2 && liveRid deleted row.1.2) (f := Prod.fst), Option.map_some, List.filter_map,
        List.map_map, hplaces, List.filter_filter]
      · simp only [Function.comp_def, hadmits]
        rfl
      · exact fun _ _ => rfl
    · intro name hname i _
      rcases List.mem_cons.mp hname with rfl | hname
      · rw [if_neg hne, hcode]
      · rw [List.mem_singleton.mp hname, if_pos rfl]
        rfl

/-! ### Codes -/

theorem pinned_spec {role : QuadColumn} {code : TermCode} : ∀ {eqs : List Equality}
    {start pins : QuadColumn → Option TermCode}, FileServePlan.pinned eqs start = some pins →
      pins role = some code → start role = some code ∨ ∃ eq ∈ eqs, primarySlot eq.1 = some role ∧
        eq.2 = .num code
  | [], start, pins, hpins, hcode => by
    obtain rfl : start = pins := Option.some.inj hpins
    exact .inl hcode
  | eq :: eqs, start, pins, hpins, hcode => by
    rw [FileServePlan.pinned] at hpins
    cases hslot : primarySlot eq.1 with
    | none =>
      rw [hslot] at hpins
      exact (pinned_spec hpins hcode).imp_right fun ⟨other, hother, hwhy⟩ =>
        ⟨other, List.mem_cons_of_mem _ hother, hwhy⟩
    | some known =>
      rw [hslot] at hpins
      cases hvalue : unsignedValue eq.2 with
      | none =>
        rw [hvalue] at hpins
        cases hpins
      | some found =>
        rw [hvalue] at hpins
        rcases pinned_spec hpins hcode with hstart | ⟨other, hother, hwhy⟩
        · by_cases hsame : role = known
          · rw [hsame, Function.update_self] at hstart
            refine .inr ⟨eq, List.mem_cons_self, by rw [hslot, hsame], ?_⟩
            rw [unsignedValue_eq hvalue, Option.some.inj hstart]
          · rw [Function.update_of_ne hsame] at hstart
            exact .inl hstart
        · exact .inr ⟨other, List.mem_cons_of_mem _ hother, hwhy⟩

theorem columnText_slot {name : ColumnName} {role : QuadColumn} (h : primarySlot name = some role) :
    columnText name = roleColumn role := by
  cases name <;> first | (obtain rfl := Option.some.inj h; rfl) | cases h

/-- A pinned column's code is that of every row the equalities hold of. -/
theorem pinned_code {pins : QuadColumn → Option TermCode} {role : QuadColumn} {code : TermCode}
    (hpins : FileServePlan.pinned eqs (fun _ => none) = some pins) (hcode : pins role = some code)
    {i : ℕ} (hi : childHolds family rows eqs i = true) :
    TermColumn.scalar (roleValue ((IndexChild.copy family).rowAt rows i) role) = .num code := by
  rcases pinned_spec hpins hcode with hstart | ⟨eq, heq, hslot, hvalue⟩
  · cases hstart
  · have hholds := beq_iff_eq.mp (List.all_eq_true.mp hi eq heq)
    rw [columnText_slot hslot, childScalar_role, hvalue] at hholds
    exact hholds

/-- What a term column of the rows at some places holds. -/
def columnScalars (family : CopyFamily) (rows : List (Row V)) (places : List ℕ) (role : QuadColumn) :
    List Scalar :=
  places.map fun i => TermColumn.scalar (roleValue ((IndexChild.copy family).rowAt rows i) role)

/-- The columns filled in are those of the places kept: each pinned one its code as often,
each other one the rows kept of those read. -/
theorem fillPinned_spec {pins : QuadColumn → Option TermCode} {kept : List ℕ → List ℕ}
    {positions : List ℕ}
    (hpinned : ∀ role code, pins role = some code → ∀ i ∈ places,
      TermColumn.scalar (roleValue ((IndexChild.copy family).rowAt rows i) role) = .num code)
    (hkept : ∀ role column, column.map Scalar.num = columnScalars family rows positions role →
      (kept column).map Scalar.num = columnScalars family rows places role) :
    ∀ (roles : List QuadColumn) {values : List (List ℕ)},
      values.map (List.map Scalar.num) =
        (roles.filter fun role => (pins role).isNone).map (columnScalars family rows positions) →
      ∃ columns, FileServePlan.fillPinned pins places.length kept roles values = some columns ∧
        columns.map (List.map Scalar.num) = roles.map (columnScalars family rows places)
  | [], values, _ => ⟨[], rfl, rfl⟩
  | role :: roles, values, hvalues => by
    cases hpin : pins role with
    | some code =>
      rw [List.filter_cons_of_neg (by rw [hpin]; exact Bool.false_ne_true)] at hvalues
      obtain ⟨columns, hcolumns, hall⟩ := fillPinned_spec hpinned hkept roles hvalues
      refine ⟨List.replicate places.length code :: columns, ?_, ?_⟩
      · simp only [FileServePlan.fillPinned, hpin, hcolumns, Option.map_some]
      · rw [List.map_cons, List.map_cons, hall, List.map_replicate, columnScalars,
          List.map_congr_left (hpinned role code hpin), List.map_const']
    | none =>
      rw [List.filter_cons_of_pos (by rw [hpin]; rfl), List.map_cons] at hvalues
      cases values with
      | nil => cases hvalues
      | cons column values =>
        rw [List.map_cons] at hvalues
        obtain ⟨hcolumn, hrest⟩ := List.cons.inj hvalues
        obtain ⟨columns, hcolumns, hall⟩ := fillPinned_spec hpinned hkept roles hrest
        refine ⟨kept column :: columns, ?_, ?_⟩
        · simp only [FileServePlan.fillPinned, hpin, hcolumns, Option.map_some]
        · rw [List.map_cons, List.map_cons, hall, hkept role column hcolumn]

theorem columnScalars_eq (positions : List ℕ) (role : QuadColumn) :
    (positions.map fun i => childScalar (entryAt family rows i) (roleColumn role)) =
      columnScalars family rows positions role :=
  List.map_congr_left fun _ _ => childScalar_role _ role

theorem num_injective : Function.Injective Scalar.num := fun _ _ h => Scalar.num.inj h

/-- The values kept of a column beside the rows that are live. -/
theorem map_num_keep {s : ℕ → Scalar} {live : ℕ → Bool} : ∀ {column positions : List ℕ},
    column.map Scalar.num = positions.map s →
      (((column.zip (positions.map live)).filter Prod.snd).map Prod.fst).map Scalar.num =
        (positions.filter live).map s
  | [], [], _ => rfl
  | [], _ :: _, h => by cases h
  | _ :: _, [], h => by cases h
  | value :: column, position :: positions, h => by
    obtain ⟨hvalue, hrest⟩ := List.cons.inj h
    have hkept := @map_num_keep s live column positions hrest
    rw [List.map_cons, List.zip_cons_cons]
    cases hlive : live position with
    | true =>
      rw [List.filter_cons_of_pos rfl, List.filter_cons_of_pos hlive, List.map_cons, List.map_cons,
        List.map_cons, hkept]
      exact congrArg (· :: _) hvalue
    | false =>
      rw [List.filter_cons_of_neg Bool.false_ne_true,
        List.filter_cons_of_neg (by rw [hlive]; exact Bool.false_ne_true), hkept]

/-- The live codes read point by point, the pinned columns filled in. -/
theorem pointCodes_spec (h : plan.child.Reads family rows fl) {positions : List ℕ}
    (hin : ∀ i ∈ positions, i < rows.length)
    (hholds : ∀ i ∈ positions.filter fun i => liveRid deleted ((IndexChild.copy family).ridAt rows i),
      childHolds family rows plan.constraints i = true) :
    ∃ found, plan.pointCodes fl positions deleted = some found ∧ ∀ columns ∈ found,
      columns.map (List.map Scalar.num) = QuadColumn.ALL.map (columnScalars family rows
        (positions.filter fun i => liveRid deleted ((IndexChild.copy family).ridAt rows i))) := by
  have hdeclines : ∃ found : Option (List (List TermCode)), some (none : Option (List (List TermCode))) =
      some found ∧ ∀ columns ∈ found, columns.map (List.map Scalar.num) = QuadColumn.ALL.map
        (columnScalars family rows (positions.filter fun i =>
          liveRid deleted ((IndexChild.copy family).ridAt rows i))) :=
    ⟨none, rfl, fun columns hcolumns => by cases hcolumns⟩
  rw [FileServePlan.pointCodes]
  cases hpins : FileServePlan.pinned plan.constraints fun _ => none with
  | none => exact hdeclines
  | some pins =>
    have hpinned : ∀ role code, pins role = some code → ∀ i ∈ positions.filter fun i =>
        liveRid deleted ((IndexChild.copy family).ridAt rows i),
        TermColumn.scalar (roleValue ((IndexChild.copy family).rowAt rows i) role) = .num code :=
      fun role code hcode i hi => pinned_code hpins hcode (hholds i hi)
    set read := QuadColumn.ALL.filter fun role => (pins role).isNone with hread
    -- the unpinned columns are read at every position
    have hreads : ((read.map roleColumn).map fun name =>
        positions.map fun i => childScalar (entryAt family rows i) name) =
          read.map (columnScalars family rows positions) := by
      rw [List.map_map]
      exact List.map_congr_left fun role _ => columnScalars_eq positions role
    cases hdeleted : deleted with
    | none =>
      obtain ⟨found, hfound, hvalues⟩ := componentPointValues_spec h hin (read.map roleColumn)
      dsimp only
      rw [hfound, Option.bind_some]
      cases found with
      | none => exact hdeleted ▸ hdeclines
      | some values =>
        have hall : (positions.filter fun i => liveRid (none : Option M)
            ((IndexChild.copy family).ridAt rows i)) = positions := filter_liveRid_none _ _
        rw [hdeleted, hall] at hpinned
        obtain ⟨columns, hcolumns, hsame⟩ := @fillPinned_spec V _ _ _ family rows positions pins id
          positions hpinned (fun _ _ hcolumn => hcolumn) QuadColumn.ALL values
          ((hvalues values rfl).trans hreads)
        refine ⟨some columns, by dsimp only; rw [hcolumns, Option.map_some], fun found hfound => ?_⟩
        rw [← Option.some.inj hfound, hall, hsame]
    | some mask =>
      obtain ⟨found, hfound, hvalues⟩ :=
        componentPointValues_spec h hin (read.map roleColumn ++ [COL_RID])
      dsimp only
      rw [hfound, Option.bind_some]
      cases found with
      | none => exact hdeleted ▸ hdeclines
      | some values =>
        have hsplit := hvalues values rfl
        rw [List.map_append, hreads, List.map_singleton] at hsplit
        -- the row ids come last
        obtain ⟨front, last, rfl, hfront, hlast⟩ := List.map_eq_append_iff.mp hsplit
        obtain ⟨rids, rfl, hrids⟩ := List.map_eq_singleton_iff.mp hlast
        have hids : rids = positions.map ((IndexChild.copy family).ridAt rows) := by
          refine List.map_injective_iff.mpr num_injective ?_
          rw [hrids, List.map_map]
          rfl
        set live : ℕ → Bool := fun i => !value mask ((IndexChild.copy family).ridAt rows i) with hlive
        have hbits : (rids.map fun rid => !value mask (baseRow rid)) = positions.map live := by
          rw [hids, List.map_map]
          rfl
        have hcount : ((positions.map live).filter id).length = (positions.filter live).length := by
          rw [List.filter_map, List.length_map]
          rfl
        have hplaces : (positions.filter fun i => liveRid (some mask)
            ((IndexChild.copy family).ridAt rows i)) = positions.filter live := rfl
        rw [hdeleted, hplaces] at hpinned
        obtain ⟨columns, hcolumns, hsame⟩ := @fillPinned_spec V _ _ _ family rows
          (positions.filter live) pins
          (fun column => ((column.zip (positions.map live)).filter Prod.snd).map Prod.fst)
          positions hpinned (fun _ _ hcolumn => map_num_keep hcolumn) QuadColumn.ALL front hfront
        refine ⟨some columns, ?_, fun found hfound => ?_⟩
        · dsimp only
          rw [List.getLast?_concat]
          dsimp only
          rw [hbits, hcount, List.dropLast_concat, hcolumns, Option.map_some]
        · rw [← Option.some.inj hfound, hplaces, hsame]

/-! ### The rows some equalities hold of -/

variable [LawfulMask M] {columns : List String}

theorem chunkOf_scalarAt {k i : ℕ} (hk : places[k]? = some i) {name : ColumnName}
    (hname : columnText name ∈ columns) : (chunkOf family rows columns places).scalarAt k name =
      childScalar (entryAt family rows i) (columnText name) := by
  rw [ChildChunk.scalarAt, chunkOf_column hname, Option.bind_some, List.getElem?_map, hk]
  rfl

/-- The mask of a chunk's rows that some equalities hold of. -/
theorem holding_spec (heqs : ∀ eq ∈ eqs, TermEquality V eq)
    (hcolumns : ∀ eq ∈ eqs, columnText eq.1 ∈ columns) :
    ∃ holding : M, plan.holding V M (chunkOf family rows columns places) eqs = some holding ∧
      ∀ k i, places[k]? = some i → value holding k = childHolds family rows eqs i := by
  set table := plan.chunkTable V (chunkOf family rows columns places) with htable
  have hrows : table.rows =
      (List.range places.length).map (chunkOf family rows columns places).scalarAt := rfl
  have hlen : table.rows.length = places.length := by rw [hrows, List.length_map, List.length_range]
  have hcomparable : table.Comparable eqs := by
    constructor
    · intro eq heq
      obtain ⟨role, v, -, hv⟩ := termEquality_named (heqs eq heq)
      refine ⟨TermColumn.type V, ?_, by rw [hv]; exact TermColumn.cast_scalar v⟩
      show ((chunkOf family rows columns places).column (columnText eq.1)).map _ = _
      rw [chunkOf_column (hcolumns eq heq), Option.map_some]
    · intro eq heq
      obtain ⟨role, v, -, hv⟩ := termEquality_named (heqs eq heq)
      rw [hv]
      exact TermColumn.nonnull v
    · intro row hrow eq heq hnull
      obtain ⟨role, v, hrole, -⟩ := termEquality_named (heqs eq heq)
      rw [hrows] at hrow
      obtain ⟨k, hk, rfl⟩ := List.mem_map.mp hrow
      have hat := List.getElem?_eq_getElem (List.mem_range.mp hk)
      rw [chunkOf_scalarAt hat (hcolumns eq heq), hrole, childScalar_role] at hnull
      exact absurd hnull (TermColumn.nonnull _)
  rw [FileServePlan.holding, ← htable, ResidualTable.maskFor_eq hcomparable fun row hrow => hrow,
    hlen, Option.map_some, boolArrayToMask_map]
  refine ⟨_, rfl, fun k i hk => ?_⟩
  obtain ⟨hklt, -⟩ := List.getElem?_eq_some_iff.mp hk
  have hholds : ResidualTable.holdsAt table.rows eqs k = childHolds family rows eqs i := by
    rw [ResidualTable.holdsAt, hrows, List.getElem?_map, List.getElem?_range hklt, Option.map_some,
      Option.any_some, ResidualTable.holds, childHolds, Bool.eq_iff_iff, List.all_eq_true,
      List.all_eq_true]
    exact forall₂_congr fun eq heq => by rw [chunkOf_scalarAt hk (hcolumns eq heq)]
  rw [LawfulMask.value_fromIndices _ _ _ _ _ hklt, ← hholds, Bool.eq_iff_iff, decide_eq_true_eq,
    List.mem_filter, List.mem_range]
  · exact and_iff_right hklt
  · exact fun k hk => List.mem_range.mp (List.mem_filter.mp hk).1
  · exact ((List.sortedLT_range _).pairwise.sublist List.filter_sublist).sortedLT

/-- Rows kept beside their places in a list, by a test that reads those places. -/
theorem collect_zipIdx {l : List (ℕ × RowId)} {p : (ℕ × RowId) × ℕ → Bool} {q : ℕ × RowId → Bool}
    (hp : ∀ k a, l[k]? = some a → p (a, k) = q a) :
    ServedRows.collect l.zipIdx (fun row => some (if p row then some row.1 else none)) =
      some (ServedRows.ofPairs (l.filter q)) := by
  have hpq : ∀ row ∈ l.zipIdx, p row = (q ∘ Prod.fst) row :=
    fun row hrow => hp row.2 row.1 (List.mem_zipIdx_iff_getElem?.mp hrow)
  have hfilter : (l.zipIdx.filter p).map Prod.fst = l.filter q := by
    rw [List.filter_congr hpq, ← List.filter_map, List.zipIdx_map_fst]
  rw [collect_eq (p := p) (f := Prod.fst) fun _ _ => rfl, hfilter]

/-- The rows some equalities hold of are those of the places where they hold. -/
theorem rowsWhere_spec (h : plan.Covers fl family rows deleted places)
    (hlocated : RunLocated family rows deleted plan.constraints located)
    (heqs : ∀ eq ∈ eqs, TermEquality V eq) :
    ∃ located', plan.rowsWhere fl deleted V located eqs =
        some (ServedRows.ofPairs ((places.filter (childHolds family rows eqs)).map
          ((IndexChild.copy family).pairAt rows)), located') ∧
      RunLocated family rows deleted plan.constraints located' := by
  obtain ⟨span, located', hspan, hspans, hkept⟩ := locatedSpan_spec h hlocated
  refine ⟨located', ?_, hkept⟩
  rw [FileServePlan.rowsWhere, hspan, Option.bind_some]
  have hnames := termEquality_columns heqs
  cases span with
  | kept listed =>
    obtain ⟨holding, hholding, hbits⟩ := @holding_spec V _ _ _ M _ family rows places plan eqs _
      (eqs.map fun eq => columnText eq.1) heqs fun eq heq => List.mem_map_of_mem heq
    dsimp only
    rw [kept_positions hspans, columnsAt_spec h.reads hnames h.ascending h.inBase, Option.bind_some,
      hholding, Option.bind_some, kept_pairs hspans, collect_zipIdx
        (q := fun pair => childHolds family rows eqs pair.1), Option.map_some, List.filter_map]
    · rfl
    · intro k pair hk
      rw [List.getElem?_map] at hk
      obtain ⟨i, hi, rfl⟩ := Option.map_eq_some_iff.mp hk
      exact hbits k i hi
  | range range =>
    obtain ⟨hrange, hplaces⟩ := hspans.within
    have hcolumns : ∀ name ∈ (eqs.map fun eq => columnText eq.1) ++ [COL_RID], name ∈ CHILD_COLUMNS := by
      intro name hname
      exact (List.mem_append.mp hname).elim (hnames name) (rid_mem name)
    obtain ⟨holding, hholding, hbits⟩ := @holding_spec V _ _ _ M _ family rows range.toList plan eqs _
      ((eqs.map fun eq => columnText eq.1) ++ [COL_RID]) heqs
      fun eq heq => List.mem_append_left _ (List.mem_map_of_mem heq)
    dsimp only
    rw [rangeRead_spec h.reads hcolumns hrange, Option.bind_some, hholding, Option.bind_some,
      chunkOf_rids (List.mem_append_right _ (List.mem_singleton_self _)), Option.bind_some,
      childRows_eq_pairs, collect_zipIdx (q := fun pair =>
        childHolds family rows eqs pair.1 && liveRid deleted pair.2), Option.map_some,
      List.filter_map, hplaces, List.filter_filter]
    · rfl
    · intro k pair hk
      rw [List.getElem?_map] at hk
      obtain ⟨i, hi, rfl⟩ := Option.map_eq_some_iff.mp hk
      rw [hbits k i hi]
      rfl

section Chunks

theorem chunkQuads_spec (positions : List ℕ) :
    FileServePlan.chunkQuads V (chunkOf family rows CHILD_COLUMNS positions) =
      some (positions.map ((IndexChild.copy family).rowAt rows)) := by
  have htyped : ∀ role : QuadColumn,
      (((chunkOf family rows CHILD_COLUMNS positions).column (roleColumn role)).bind fun values =>
        values.mapM (TermColumn.ofScalar (V := V))) =
          some (positions.map fun i => roleValue ((IndexChild.copy family).rowAt rows i) role) := by
    intro role
    rw [chunkOf_column (roleColumn_mem role), Option.bind_some, columnScalars_eq, columnScalars,
      List.mapM_map]
    exact mapM_some fun i _ => TermColumn.ofScalar_scalar _
  have hs := htyped .s
  have hp := htyped .p
  have ho := htyped .o
  have hg := htyped .g
  simp only [roleColumn] at hs hp ho hg
  rw [FileServePlan.chunkQuads]
  dsimp only
  rw [hs, Option.bind_some, hp, Option.bind_some, ho, Option.bind_some, hg, Option.map_some]
  exact congrArg some (zipRows_map ((IndexChild.copy family).rowAt rows) positions)

/-- A chunk's live rows are those of its places. -/
theorem chunkRows_spec {positions : List ℕ} (hsmall : positions.length ≤ usizeMax)
    (probed : ChildChunk → Bool) (deleted : Option M) :
    FileServePlan.chunkRows V probed (chunkOf family rows CHILD_COLUMNS positions) deleted =
      some ((positions.filter fun i => liveRid deleted ((IndexChild.copy family).ridAt rows i)).map
        ((IndexChild.copy family).rowAt rows)) := by
  have hentries := @map_fst_entryAt V _ _ rows family positions
  have hlen : (chunkOf family rows CHILD_COLUMNS positions).len =
      (positions.map ((IndexChild.copy family).rowAt rows)).length := by
    rw [List.length_map]
    rfl
  -- the chunk decodes as one of an in-memory copy does
  have hsame : FileServePlan.chunkRows V probed (chunkOf family rows CHILD_COLUMNS positions) deleted =
      chunkRows ⟨fun _ => none, none, fun _ => probed (chunkOf family rows CHILD_COLUMNS positions)⟩
        (positions.map (entryAt family rows)) deleted := by
    rw [FileServePlan.chunkRows, chunkQuads_spec, Option.bind_some, hlen, chunkRows, hentries,
      Option.map_eq_bind]
    refine congrArg _ (funext fun canonical => ?_)
    cases deleted with
    | none => rfl
    | some mask =>
      dsimp only [Function.comp_apply]
      rw [chunkOf_rids (List.mem_of_getLast? rfl), Option.map_some]
      simp only [List.getElem?_map, List.length_map, Option.any_map]
      rfl
  rw [hsame, chunkRows_eq (by rwa [List.length_map]), List.filter_map, List.map_map]
  rfl

/-- A chunk's live codes are those of its places. -/
theorem chunkCodeColumns_spec (hcoded : ∀ v : V, ∃ code, TermColumn.scalar v = .num code)
    {positions : List ℕ} (hsmall : positions.length ≤ usizeMax) (probed : ChildChunk → Bool)
    (deleted : Option M) : ∃ columns,
      FileServePlan.chunkCodeColumns V probed (chunkOf family rows CHILD_COLUMNS positions) deleted =
        some columns ∧
      columns.map (List.map Scalar.num) = QuadColumn.ALL.map (columnScalars family rows
        (positions.filter fun i => liveRid deleted ((IndexChild.copy family).ridAt rows i))) := by
  set live := positions.filter fun i => liveRid deleted ((IndexChild.copy family).ridAt rows i) with hlive
  have hcode : ∀ role i, TermColumn.scalar (roleValue ((IndexChild.copy family).rowAt rows i) role) =
      .num (codeAt family rows role i) := by
    intro role i
    rw [← childScalar_code hcoded role i, childScalar_role]
    rfl
  have hread : ∀ role ∈ QuadColumn.ALL, ((live.map ((IndexChild.copy family).rowAt rows)).mapM
      fun row => unsignedValue (TermColumn.scalar (roleValue row role))) =
        some (live.map (codeAt family rows role)) := by
    intro role _
    rw [List.mapM_map]
    refine mapM_some fun i _ => ?_
    rw [Function.comp_apply, hcode]
    rfl
  refine ⟨QuadColumn.ALL.map fun role => live.map (codeAt family rows role), ?_, ?_⟩
  · rw [FileServePlan.chunkCodeColumns, chunkRows_spec hsmall, Option.bind_some, mapM_some hread]
  · rw [List.map_map]
    refine List.map_congr_left fun role _ => ?_
    rw [Function.comp_apply, List.map_map, columnScalars]
    exact List.map_congr_left fun i _ => (hcode role i).symm

/-- The live codes at some rows, read point by point or off their chunk. -/
theorem codesAt_spec (h : plan.child.Reads family rows fl)
    (hcoded : ∀ v : V, ∃ code, TermColumn.scalar v = .num code) {positions : List ℕ}
    (hsorted : positions.SortedLT) (hin : ∀ i ∈ positions, i < rows.length)
    (hsmall : rows.length ≤ usizeMax) (probed : ChildChunk → Bool) (deleted : Option M)
    (hholds : ∀ i ∈ positions.filter fun i => liveRid deleted ((IndexChild.copy family).ridAt rows i),
      childHolds family rows plan.constraints i = true) : ∃ columns,
      plan.codesAt fl V probed positions deleted = some columns ∧
      columns.map (List.map Scalar.num) = QuadColumn.ALL.map (columnScalars family rows
        (positions.filter fun i => liveRid deleted ((IndexChild.copy family).ridAt rows i))) := by
  obtain ⟨found, hfound, hcodes⟩ := pointCodes_spec h hin hholds
  rw [FileServePlan.codesAt, hfound, Option.bind_some]
  cases found with
  | some columns => exact ⟨columns, rfl, hcodes columns rfl⟩
  | none =>
    dsimp only
    rw [columnsAt_spec h (fun name hname => hname) hsorted hin, Option.bind_some]
    exact chunkCodeColumns_spec hcoded ((IdsWithin.length_le ⟨hsorted, hin⟩).trans hsmall) probed deleted

/-- The code columns are those of the places covered, in the child's order. -/
theorem codeColumns_spec (h : plan.Covers fl family rows deleted places)
    (hcoded : ∀ v : V, ∃ code, TermColumn.scalar v = .num code) (hsmall : rows.length ≤ usizeMax)
    (probed : ChildChunk → Bool) (workers : ℕ) : ∃ columns,
      plan.codeColumns fl V probed workers deleted = some columns ∧
      columns.map (List.map Scalar.num) = QuadColumn.ALL.map (columnScalars family rows places) := by
  have hall : (places.filter fun i => liveRid (none : Option M) ((IndexChild.copy family).ridAt rows i)) =
      places := filter_liveRid_none _ _
  have hplacesLive : (places.filter fun i => liveRid deleted ((IndexChild.copy family).ridAt rows i)) =
      places := List.filter_eq_self.mpr h.live
  rw [FileServePlan.codeColumns, FileServePlan.read]
  cases hspan : plan.span with
  | some span =>
    have hspans := h.spanned span hspan
    cases span with
    | kept listed =>
      -- kept rows are live: no tombstone is looked up
      obtain ⟨columns, hcolumns, hsame⟩ := codesAt_spec h.reads hcoded h.ascending h.inBase hsmall
        probed (none : Option M) (by rw [hall]; exact h.holds)
      refine ⟨columns, ?_, by rw [hsame, hall]⟩
      dsimp only
      rw [Option.bind_some, kept_positions hspans]
      exact hcolumns
    | range range =>
      obtain ⟨hrange, hplaces⟩ := hspans.within
      have hin : ∀ i ∈ range.toList, i < rows.length := fun i hi =>
        lt_of_lt_of_le (RowRange.mem_toList.mp hi).2 hrange.inBase
      dsimp only
      split_ifs with hpoints
      · obtain ⟨columns, hcolumns, hsame⟩ := codesAt_spec h.reads hcoded range.sortedLT_toList hin
          hsmall probed deleted (by rw [← hplaces]; exact h.holds)
        exact ⟨columns, by rw [Option.bind_some]; exact hcolumns, by rw [hsame, ← hplaces]⟩
      · have hsplits : 0 < runSplitRows range workers :=
          lt_of_lt_of_le (by decide) (le_max_right _ SERVE_SPLIT_MIN_ROWS)
        have hvalid := @valid_range V _ _ CHILD_COLUMNS rows.length range
          (some (runSplitRows range workers)) (fun name hname => hname) hrange
          fun n hn => Option.some.inj hn ▸ hsplits
        obtain ⟨columns, hcolumns, hsame⟩ := @chunkCodeColumns_spec V _ _ _ M _ family rows _ hcoded
          range.toList ((IdsWithin.length_le ⟨range.sortedLT_toList, hin⟩).trans hsmall) probed deleted
        refine ⟨columns, ?_, by rw [hsame, ← hplaces]⟩
        rw [Option.bind_some]
        dsimp only
        have hchunk : ChildScan.chunk family rows ⟨select CHILD_COLUMNS, some range, none, none,
            some (runSplitRows range workers)⟩ = chunkOf family rows CHILD_COLUMNS range.toList :=
          chunk_select rfl (places_range hrange)
        rw [h.reads.scans _ hvalid, hchunk, Option.bind_some]
        exact hcolumns
  | none =>
    have hplaces := h.unspanned hspan
    have hin : ∀ i ∈ holdingPlaces family rows plan.constraints, i < rows.length := fun i hi =>
      List.mem_range.mp (List.mem_filter.mp hi).1
    obtain ⟨columns, hcolumns, hsame⟩ := @chunkCodeColumns_spec V _ _ _ M _ family rows _ hcoded
      (holdingPlaces family rows plan.constraints)
      ((IdsWithin.length_le ⟨sortedLT_holdingPlaces, hin⟩).trans hsmall) probed deleted
    refine ⟨columns, ?_, by rw [hsame, hplaces, livePlaces]⟩
    dsimp only
    rw [FileServePlan.filter, if_neg h.constrained, Option.map_some, Option.bind_some]
    dsimp only
    have hchunk : ChildScan.chunk family rows ⟨select CHILD_COLUMNS, none, none,
        some plan.constraints, none⟩ =
          chunkOf family rows CHILD_COLUMNS (holdingPlaces family rows plan.constraints) :=
      chunk_select rfl places_filter
    rw [h.reads.scans _ (valid_filter (select_columns fun name hname => hname) h.constrained h.terms),
      hchunk, Option.bind_some]
    exact hcolumns

end Chunks

end Plans

end Indexes
