/-
The reads of a served view: its rows off the copy, whole or a chunk at a time.

A small run is read point by point through the component's cached probes, a wider one
sliced out of it, kept rows taken at their positions; a range's tombstoned rows are
dropped as it is read, through the row id column.

* `ServedBase` — what the base and the array library hold beside a plan;
* `readRows`, `decodeWindows`, `windowRows` — the reads;
* `Covers` — the places of a component a plan covers;
* `readRows_spec`, `decodeWindows_spec` — each read gives the rows at those places.

`none` stands for a panic or an error of the array library.
-/
import VortexRdf.IndexAnswers
import VortexRdf.PointReads

namespace Indexes

open Ascending Bisect Buffers Builds Dictionary Masks MaskOps Terms
open EncodedSearch (FastLanes Node)
open Store hiding Row

/-! ### The rows of a component -/

/-- The rows of four quad columns, up to the end of the shortest. -/
def zipRows {V : Type} (s p o g : List V) : List (Row V) :=
  ((s.zip p).zip (o.zip g)).map fun row => ⟨row.1.1, row.1.2, row.2.1, row.2.2⟩

theorem zipRows_map {V α : Type} (f : α → Row V) (l : List α) :
    zipRows (l.map fun a => (f a).s) (l.map fun a => (f a).p) (l.map fun a => (f a).o)
      (l.map fun a => (f a).g) = l.map f := by
  rw [zipRows, List.zip_map', List.zip_map', List.zip_map', List.map_map]
  rfl

/-- A component's rows in child schema: a quad beside its row id. -/
def IndexComponent.childRows {V : Type} (c : IndexComponent V) : Option (List (Row V × RowId)) := do
  let s ← c.column COL_S
  let p ← c.column COL_P
  let o ← c.column COL_O
  let g ← c.column COL_G
  some ((zipRows s p o g).zip c.rids)

/-- What the base and the array library hold beside a plan: the base's cached codes of a
column, the probe of the component's row id column, and whether a chunk's quad columns
each resolve a probe. -/
structure ServedBase (V : Type) where
  cache : QuadColumn → Option (List TermCode)
  ridProbe : Option Node
  probed : List (Row V × RowId) → Bool

/-! ### Reads -/

/-- A chunk's live rows as quads: the quad columns, then the tombstoned rows dropped. -/
def chunkRows {V : Type} {M : Type*} [MaskOps M] (base : ServedBase V) (chunk : List (Row V × RowId))
    (deleted : Option M) : Option (List (Row V)) :=
  let quads := chunk.map Prod.fst
  (gatherByPointReads quads (.range ⟨0, quads.length⟩) (none : Option M) (base.probed chunk)).map
    fun canonical =>
      let rows := canonical.getD quads
      match deleted with
      | none => rows
      | some deleted =>
        let places := (List.range chunk.length).filter fun place =>
          chunk[place]?.any fun row => !value deleted (baseRow row.2)
        let live : M := fromIndices chunk.length places
        if trueCount live = len live then rows else filterBy rows live

/-- The windows of at most `batchRows` of `len` rows. -/
def batchRanges (len batchRows : ℕ) : List RowRange :=
  (List.range' 0 (divCeil len batchRows) batchRows).map fun start =>
    ⟨start, min (saturatingAdd start batchRows) len⟩

/-- The rows a point read of a view takes. -/
inductive PointRows where
  /-- A range, every row of it live. -/
  | range (range : RowRange)
  /-- Live rows' positions. -/
  | listed (positions : List ℕ)

namespace InMemoryServePlan

variable {V : Type} {M : Type*} [MaskOps M] (fl : FastLanes) (base : ServedBase V)

/-- The rows a point read of the view takes; none declines. -/
def pointRows (plan : InMemoryServePlan V) (deleted : Option M) : Option (Option PointRows) :=
  match plan.span with
  | .kept kept =>
    some (if pointSized kept.rids.length then some (.listed kept.positions) else none)
  | .range range =>
    if pointSized (range.stop - range.start) then
      match deleted, base.ridProbe with
      | none, _ => some (some (.range range))
      | some _, none => some none
      | some deleted, some rid =>
        let width := range.stop - range.start
        (EncodedSearch.SortedProbe.readInto fl rid range.start (List.replicate width 0)).map fun rids =>
          some (.listed (((range.toList.zip rids).filter fun row =>
            !value deleted (baseRow row.2)).map Prod.fst))
    else some none

section Columns

variable [LinearOrder V] [TermColumn V]

/-- A probe read at the rows of a point read. -/
def readPoints (probe : Node) : PointRows → Option (List ℕ)
  | .range part =>
    EncodedSearch.SortedProbe.readInto fl probe part.start (List.replicate (part.stop - part.start) 0)
  | .listed positions =>
    EncodedSearch.SortedProbe.readAt fl probe positions (List.replicate positions.length 0)

/-- One column of a point read, as the codes its probe reads; none declines. -/
def pointColumn (c : IndexComponent V) (name : String) (rows : PointRows) : Option (Option (List V)) :=
  match c.encoding.probes name with
  | none => some none
  | some probe =>
    (readPoints fl probe rows).bind fun codes =>
      (codes.mapM fun code => TermColumn.ofScalar (.num code)).map some

/-- A small view's live rows read at their positions through the cached probes. -/
def livePointRows (plan : InMemoryServePlan V) (deleted : Option M) : Option (Option (List (Row V))) :=
  (plan.pointRows fl base deleted).bind fun point =>
    match point with
    | none => some none
    | some rows =>
      (pointColumn fl plan.component COL_S rows).bind fun s =>
        (pointColumn fl plan.component COL_P rows).bind fun p =>
          (pointColumn fl plan.component COL_O rows).bind fun o =>
            (pointColumn fl plan.component COL_G rows).map fun g => do
              let s ← s
              let p ← p
              let o ← o
              let g ← g
              some (zipRows s p o g)

/-- The component's rows in a window of those the view covers, beside the tombstones their
decode still drops: a slice of the range, or one take at kept rows, which are live. -/
def coveredRows (plan : InMemoryServePlan V) (deleted : Option M) (window : RowRange) :
    Option (List (Row V × RowId) × Option M) :=
  plan.component.childRows.bind fun rows =>
    match plan.span with
    | .range range =>
      (sliceOf rows (range.start + window.start) (range.start + window.stop)).map (·, deleted)
    | .kept kept =>
      (sliceOf kept.positions window.start window.stop).bind fun positions =>
        (positions.mapM fun position => rows[position]?).map (·, none)

/-- The served rows, in the component's order: what a decode and the code columns read. -/
def readRows (plan : InMemoryServePlan V) (deleted : Option M) : Option (List (Row V)) :=
  (plan.livePointRows fl base deleted).bind fun point =>
    match point with
    | some rows => some rows
    | none =>
      (plan.coveredRows deleted ⟨0, plan.spanLen⟩).bind fun covered =>
        chunkRows base covered.1 covered.2

/-- The served rows a chunk at a time: one chunk when they fit it. -/
def decodeWindows (plan : InMemoryServePlan V) (deleted : Option M) (chunkLen : ℕ) :
    Option (List (List (Row V))) :=
  (batchRanges plan.spanLen chunkLen).mapM fun window =>
    if plan.spanLen ≤ chunkLen then plan.readRows fl base deleted
    else (plan.coveredRows deleted window).bind fun covered => chunkRows base covered.1 covered.2

/-- A window of the live rows off the component: a slice, or one take at their positions. -/
def windowRows (M : Type*) [MaskOps M] (plan : InMemoryServePlan V) (rows : LiveRows)
    (window : RowRange) : Option (List (Row V)) :=
  (plan.component.childRows.bind fun all =>
    match rows with
    | .range range => sliceOf all (range.start + window.start) (range.start + window.stop)
    | .spanned rows | .kept rows =>
      (sliceOf rows.positions window.start window.stop).bind fun positions =>
        positions.mapM fun position => all[position]?).bind fun chunk =>
    chunkRows base chunk (none : Option M)

end Columns

end InMemoryServePlan

/-! ### What a plan covers -/

section Covers

variable {V : Type} [LinearOrder V] [Inhabited V] {M : Type*} [MaskOps M]

/-- Whether a base row is not tombstoned. -/
def liveRid (deleted : Option M) (rid : RowId) : Bool := deleted.all fun deleted => !value deleted rid

theorem filter_liveRid_none {α : Type*} (f : α → RowId) (l : List α) :
    (l.filter fun a => liveRid (none : Option M) (f a)) = l :=
  List.filter_eq_self.mpr fun _ _ => rfl

/-- A place of a child beside the base row it came from. -/
def IndexChild.pairAt (child : IndexChild) (rows : List (Row V)) (i : ℕ) : ℕ × RowId :=
  (i, child.ridAt rows i)

/-- Everything between two of some places that a test admits is one of them. -/
def Fills (admits : ℕ → Bool) (places : List ℕ) : Prop :=
  ∀ a ∈ places, ∀ b ∈ places, ∀ i, a ≤ i → i ≤ b → admits i = true → i ∈ places

/-- A span covers some places of a run: a range's live ones, or the rows kept. -/
def ServedSpan.Covers (child : IndexChild) (rows : List (Row V)) (deleted : Option M) (run : RowRange)
    (places : List ℕ) : ServedSpan → Prop
  | .range part => run.start ≤ part.start ∧ part.start ≤ part.stop ∧ part.stop ≤ run.stop ∧
      places = part.toList.filter fun i => liveRid deleted (child.ridAt rows i)
  | .kept listed => listed = ServedRows.ofPairs (places.map (child.pairAt rows))

theorem ServedSpan.Covers.kept {child : IndexChild} {rows : List (Row V)} {deleted : Option M}
    {run : RowRange} {places : List ℕ} {listed : ServedRows}
    (h : (ServedSpan.kept listed).Covers child rows deleted run places) :
    listed.positions = places ∧ listed.rids = places.map (child.ridAt rows) := by
  obtain rfl : listed = ServedRows.ofPairs (places.map (child.pairAt rows)) := h
  constructor
  · show (places.map (child.pairAt rows)).map Prod.fst = places
    rw [List.map_map]
    exact List.map_id' places
  · show (places.map (child.pairAt rows)).map Prod.snd = places.map (child.ridAt rows)
    rw [List.map_map]
    rfl

variable [TermColumn V]

/-- A plan over a copy of some rows covers some places of its run, each live. -/
structure InMemoryServePlan.Covers (fl : FastLanes) (rows : List (Row V)) (family : CopyFamily)
    (deleted : Option M) (places : List ℕ) (plan : InMemoryServePlan V) : Prop where
  built : plan.component.BuiltFrom fl rows (.copy family)
  within : plan.run.Within rows.length
  ids : plan.ids.Holds (plan.run.toList.map ((IndexChild.copy family).ridAt rows))
  span : plan.span.Covers (.copy family) rows deleted plan.run places
  ascending : places.SortedLT
  inRun : ∀ i ∈ places, plan.run.start ≤ i ∧ i < plan.run.stop
  live : ∀ i ∈ places, liveRid deleted ((IndexChild.copy family).ridAt rows i) = true

/-- What the base and the array library hold is right. -/
structure ServedBase.Sound (fl : FastLanes) (rows : List (Row V)) (c : IndexComponent V)
    (base : ServedBase V) : Prop where
  cached : ∀ (column : QuadColumn) (codes : List TermCode), base.cache column = some codes →
    ∀ (i : ℕ) (row : Row V), rows[i]? = some row → ∃ code, codes[i]? = some code ∧ TermColumn.scalar (roleValue row column) = .num code
  rids : ∀ probe, base.ridProbe = some probe → probe.WellFormed fl ∧ probe.len = c.len ∧
    ∀ i, i < c.len → probe.value fl i = c.rids.getD i 0

end Covers

/-! ### A chunk's rows -/

section Chunks

variable {V : Type} {M : Type*} [MaskOps M] {base : ServedBase V} {chunk : List (Row V × RowId)}

/-- A read of a whole chunk point by point gives its quads. -/
theorem gatherByPointReads_whole {α : Type*} {rows : List α} (hlen : rows.length ≤ usizeMax)
    (probed : Bool) : (gatherByPointReads rows (.range ⟨0, rows.length⟩) (none : Option M) probed).map
      (fun canonical => canonical.getD rows) = some rows := by
  have hwithin : (RowSelection.range ⟨0, rows.length⟩).Within rows.length := ⟨Nat.zero_le _, le_rfl⟩
  have hlisting : (RowSelection.range ⟨0, rows.length⟩).listing rows.length =
      RowRange.toList ⟨0, rows.length⟩ := RowRange.sort_rows _
  have hwhole : rowsAt rows (RowRange.toList ⟨0, rows.length⟩) = rows := by
    rw [RowRange.toList, Nat.sub_zero, rowsAt_range' _ (Nat.zero_add _).le, List.drop_zero,
      List.take_length]
  have hfilter : ((RowSelection.range ⟨0, rows.length⟩).filterRows rows.length
      fun id => (none : Option M).all fun d => !value d id) = RowRange.toList ⟨0, rows.length⟩ := by
    rw [filterRows_eq hlen hwithin, hlisting]
    exact List.filter_eq_self.mpr fun _ _ => rfl
  unfold gatherByPointReads RowSelection.pointSizedLiveRows
  rw [hfilter]
  cases (RowSelection.range ⟨0, rows.length⟩).isPointSized with
  | false => rfl
  | true =>
    cases probed with
    | false => rfl
    | true =>
      have hin : ∀ id ∈ RowRange.toList ⟨0, rows.length⟩, id < rows.length :=
        fun id hid => (RowRange.mem_toList.mp hid).2
      rw [if_pos rfl]
      dsimp only
      rw [if_pos rfl, mapM_rowsAt hin, hwhole]
      rfl

theorem filterBy_chunk {keep : M} {p : Row V × RowId → Bool}
    (hkeep : ∀ i row, chunk[i]? = some row → value keep i = p row) :
    filterBy (chunk.map Prod.fst) keep = (chunk.filter p).map Prod.fst := by
  have hplaces : ∀ place ∈ chunk.zipIdx, value keep place.2 = p place.1 :=
    fun place hplace => hkeep place.2 place.1 (List.mem_zipIdx_iff_getElem?.mp hplace)
  rw [filterBy, List.zipIdx_map, List.filter_map, List.map_map]
  have hcongr := List.filter_congr hplaces
  calc ((chunk.zipIdx.filter ((fun place => value keep place.2) ∘ Prod.map Prod.fst id)).map
        (Prod.fst ∘ Prod.map Prod.fst id))
      = (chunk.zipIdx.filter fun place => p place.1).map (Prod.fst ∘ Prod.fst) := by
        rw [← hcongr]
        rfl
    _ = (((chunk.zipIdx.map Prod.fst).filter p).map Prod.fst) := by
        rw [List.filter_map, List.map_map]
        rfl
    _ = (chunk.filter p).map Prod.fst := by rw [List.zipIdx_map_fst]

variable [LawfulMask M]

/-- A chunk's quads, those of tombstoned base rows dropped. -/
theorem chunkRows_eq (hlen : chunk.length ≤ usizeMax) (deleted : Option M) :
    chunkRows base chunk deleted =
      some ((chunk.filter fun row => liveRid deleted row.2).map Prod.fst) := by
  have hread := @gatherByPointReads_whole M _ _ (chunk.map Prod.fst) (by rwa [List.length_map])
    (base.probed chunk)
  obtain ⟨found, hfound, hquads⟩ := Option.map_eq_some_iff.mp hread
  rw [chunkRows]
  dsimp only
  rw [hfound, Option.map_some, hquads]
  refine congrArg some ?_
  cases deleted with
  | none =>
    rw [filter_liveRid_none]
  | some deleted =>
    dsimp only
    set live : M := fromIndices chunk.length ((List.range chunk.length).filter fun place =>
      chunk[place]?.any fun row => !value deleted (baseRow row.2)) with hlive
    have hvalue : ∀ i row, chunk[i]? = some row → value live i = liveRid (some deleted) row.2 := by
      intro i row hrow
      obtain ⟨hi, -⟩ := List.getElem?_eq_some_iff.mp hrow
      rw [hlive, LawfulMask.value_fromIndices _ _ _ _ _ hi, Bool.eq_iff_iff, decide_eq_true_eq,
        List.mem_filter, List.mem_range, hrow, Option.any_some]
      · exact ⟨fun h => h.2, fun h => ⟨hi, h⟩⟩
      · exact fun k hk => List.mem_range.mp (List.mem_filter.mp hk).1
      · exact ((List.sortedLT_range _).pairwise.sublist List.filter_sublist).sortedLT
    split_ifs with hall
    · -- every bit is set: no row of the chunk is tombstoned
      have hwidth : len live = chunk.length := LawfulMask.len_fromIndices _ _
      rw [LawfulMask.trueCount_eq, hwidth] at hall
      have hset : ∀ i, i < chunk.length → value live i = true := by
        intro i hi
        have hsub : (Masks.setBits live).Sublist (List.range chunk.length) := by
          rw [Masks.setBits, hwidth]
          exact List.filter_sublist
        have hmem : i ∈ Masks.setBits live := by
          rw [hsub.eq_of_length (by rw [hall, List.length_range])]
          exact List.mem_range.mpr hi
        exact (List.mem_filter.mp hmem).2
      rw [List.filter_eq_self.mpr fun row hrow => ?_]
      obtain ⟨i, hi⟩ := List.mem_iff_getElem?.mp hrow
      rw [← hvalue i row hi]
      exact hset i (List.getElem?_eq_some_iff.mp hi).1
    · exact filterBy_chunk hvalue

end Chunks

/-! ### The places a span covers -/

/-- The places a span covers, tombstoned ones in a range included. -/
def ServedSpan.covered : ServedSpan → List ℕ
  | .range part => part.toList
  | .kept listed => listed.positions

section Entries

variable {V : Type} [LinearOrder V] [TermColumn V] {fl : FastLanes} {rows : List (Row V)}
  {family : CopyFamily} {c : IndexComponent V}

/-- The name of a role's column. -/
def roleColumn : QuadColumn → String
  | .s => COL_S
  | .p => COL_P
  | .o => COL_O
  | .g => COL_G

theorem column_role (hc : c.BuiltFrom fl rows (.copy family)) (role : QuadColumn) :
    c.column (roleColumn role) =
      some (((IndexChild.copy family).entries rows).map fun entry => roleValue entry.1 role) := by
  rw [IndexComponent.column, hc.columns_eq]
  cases role <;> rfl

/-- The quads of a copy, each beside its row id. -/
theorem childRows_eq (hc : c.BuiltFrom fl rows (.copy family)) :
    c.childRows = some ((IndexChild.copy family).entries rows) := by
  have hs := column_role hc .s
  have hp := column_role hc .p
  have ho := column_role hc .o
  have hg := column_role hc .g
  simp only [roleColumn, roleValue] at hs hp ho hg
  simp only [IndexComponent.childRows, hs, hp, ho, hg, Option.bind_eq_bind, Option.bind_some,
    hc.rids_eq]
  rw [zipRows_map, List.zip_map', List.map_id']

/-- A place of a copy: its quad beside its row id. -/
def entryAt [Inhabited V] (family : CopyFamily) (rows : List (Row V)) (i : ℕ) : Row V × RowId :=
  ((IndexChild.copy family).rowAt rows i, (IndexChild.copy family).ridAt rows i)

end Entries

section Reads

variable {V : Type} [LinearOrder V] [TermColumn V] [Inhabited V] {M : Type*} [MaskOps M]
  {fl : FastLanes} {rows : List (Row V)} {family : CopyFamily} {c : IndexComponent V}
  {plan : InMemoryServePlan V} {deleted : Option M} {places : List ℕ} {base : ServedBase V}

namespace InMemoryServePlan.Covers

variable (h : plan.Covers fl rows family deleted places)
include h

theorem places_lt : ∀ i ∈ places, i < rows.length :=
  fun i hi => lt_of_lt_of_le (h.inRun i hi).2 h.within.inBase

theorem length_le : places.length ≤ rows.length := by
  rw [← @List.length_range rows.length]
  exact (List.subperm_of_subset h.ascending.nodup fun i hi =>
    List.mem_range.mpr (h.places_lt i hi)).length_le

theorem places_eq : places = plan.span.covered.filter fun i =>
    liveRid deleted ((IndexChild.copy family).ridAt rows i) := by
  have hspan := h.span
  have hlive := h.live
  cases hcase : plan.span with
  | range part =>
    rw [hcase] at hspan
    exact hspan.2.2.2
  | kept listed =>
    rw [hcase] at hspan
    rw [ServedSpan.covered, hspan.kept.1, List.filter_eq_self.mpr hlive]

theorem length_covered : plan.span.covered.length = plan.spanLen := by
  have hspan := h.span
  rw [InMemoryServePlan.spanLen]
  cases hcase : plan.span with
  | range part =>
    dsimp only
    rw [ServedSpan.covered, RowRange.toList, List.length_range']
  | kept listed =>
    rw [hcase] at hspan
    dsimp only
    rw [ServedSpan.covered, hspan.kept.1, hspan.kept.2, List.length_map]

theorem covered_lt : ∀ i ∈ plan.span.covered, i < rows.length := by
  have hspan := h.span
  have hlt := h.places_lt
  cases hcase : plan.span with
  | range part =>
    rw [hcase] at hspan
    intro i hi
    have hi' := RowRange.mem_toList.mp hi
    exact lt_of_lt_of_le (lt_of_lt_of_le hi'.2 hspan.2.2.1) h.within.inBase
  | kept listed =>
    rw [hcase] at hspan
    intro i hi
    refine hlt i ?_
    rwa [ServedSpan.covered, hspan.kept.1] at hi

theorem spanLen_le : plan.spanLen ≤ rows.length := by
  have hspan := h.span
  have hle := h.within.inBase
  rw [InMemoryServePlan.spanLen]
  cases hcase : plan.span with
  | range part =>
    rw [hcase] at hspan
    have := hspan.2.2.1
    dsimp only
    omega
  | kept listed =>
    rw [hcase] at hspan
    dsimp only
    rw [hspan.kept.2, List.length_map]
    exact h.length_le

/-- A window of the rows covered, beside tombstones that tell the same rows live. -/
theorem coveredRows_spec {window : RowRange} (hwindow : window.Within plan.spanLen) :
    ∃ chunk left, plan.coveredRows deleted window = some (chunk, left) ∧
      chunk = ((plan.span.covered.drop window.start).take (window.stop - window.start)).map
        (entryAt family rows) ∧
      ∀ row ∈ chunk, liveRid left row.2 = liveRid deleted row.2 := by
  have hlen := h.length_covered
  have hlt := h.covered_lt
  have hspan := h.span
  have hlive := h.live
  have hentries := (IndexChild.copy family).length_entries rows
  obtain ⟨horder, hstop⟩ := hwindow
  rw [InMemoryServePlan.coveredRows, childRows_eq h.built, Option.bind_some]
  cases hcase : plan.span with
  | range part =>
    rw [hcase] at hspan hlen hlt
    obtain ⟨hstart, hordered, hend, -⟩ := hspan
    rw [ServedSpan.covered, RowRange.toList, List.length_range'] at hlen
    have hinBase := h.within.inBase
    dsimp only
    rw [sliceOf_getD default (by omega) (by omega), Option.map_some]
    refine ⟨_, _, rfl, ?_, fun _ _ => rfl⟩
    rw [ServedSpan.covered, RowRange.toList, List.drop_range', List.take_range'_of_length_ge (by omega),
      Nat.mul_one, Nat.add_sub_add_left]
    rfl
  | kept listed =>
    rw [hcase] at hspan hlen hlt
    have hpositions := hspan.kept.1
    rw [ServedSpan.covered, hpositions] at hlen hlt
    dsimp only
    rw [hpositions, sliceOf_eq horder (by omega), Option.bind_some]
    have hsub : ((places.drop window.start).take (window.stop - window.start)).Sublist places :=
      (List.take_sublist _ _).trans (List.drop_sublist _ _)
    have hread : ∀ i ∈ (places.drop window.start).take (window.stop - window.start),
        ((IndexChild.copy family).entries rows)[i]? = some (entryAt family rows i) := by
      intro i hi
      rw [getD_of_lt (by rw [hentries]; exact hlt i (hsub.subset hi))]
      rfl
    rw [mapM_some hread, Option.map_some]
    refine ⟨_, _, rfl, by rw [ServedSpan.covered, hpositions], fun row hrow => ?_⟩
    obtain ⟨i, hi, rfl⟩ := List.mem_map.mp hrow
    exact (hlive i (hsub.subset hi)).symm

/-- A chunk of a window of the rows covered holds its live ones. -/
theorem chunk_spec [LawfulMask M] (hsmall : rows.length ≤ usizeMax) {window : RowRange}
    (hwindow : window.Within plan.spanLen) :
    ((plan.coveredRows deleted window).bind fun covered => chunkRows base covered.1 covered.2) =
      some ((((plan.span.covered.drop window.start).take (window.stop - window.start)).filter
        fun i => liveRid deleted ((IndexChild.copy family).ridAt rows i)).map
          ((IndexChild.copy family).rowAt rows)) := by
  obtain ⟨chunk, left, hread, hchunk, hleft⟩ := h.coveredRows_spec hwindow
  have hlen : chunk.length ≤ usizeMax := by
    have hle := h.spanLen_le
    have hwidth := hwindow.inBase
    rw [hchunk, List.length_map, List.length_take, List.length_drop, h.length_covered]
    omega
  rw [hread, Option.bind_some, chunkRows_eq hlen, List.filter_congr hleft, hchunk, List.filter_map,
    List.map_map]
  rfl

/-- The whole of the rows covered, its tombstoned rows dropped. -/
theorem covered_spec [LawfulMask M] (hsmall : rows.length ≤ usizeMax) :
    ((plan.coveredRows deleted ⟨0, plan.spanLen⟩).bind fun covered =>
      chunkRows base covered.1 covered.2) =
        some (places.map ((IndexChild.copy family).rowAt rows)) := by
  have hwhole : ((⟨0, plan.spanLen⟩ : RowRange)).Within plan.spanLen := ⟨Nat.zero_le _, le_rfl⟩
  rw [h.chunk_spec hsmall hwhole, Nat.sub_zero, List.drop_zero, ← h.length_covered, List.take_length,
    ← h.places_eq]

end InMemoryServePlan.Covers

/-! ### Point reads -/

def PointRows.taken : PointRows → List ℕ
  | range part => part.toList
  | listed positions => positions

theorem valuesFrom_toList {α : Type*} (f : ℕ → α) {part : RowRange} :
    valuesFrom f part.start (part.stop - part.start) = part.toList.map f := by
  rw [RowRange.toList, List.range'_eq_map_range, List.map_map]
  rfl

theorem readInto_spec {probe : Node} (hprobe : probe.WellFormed fl) {part : RowRange}
    (hpart : part.Within probe.len) : EncodedSearch.SortedProbe.readInto fl probe part.start
      (List.replicate (part.stop - part.start) 0) = some (part.toList.map (probe.value fl)) := by
  obtain ⟨horder, hstop⟩ := hpart
  have hbound := hprobe.len_le
  have hlen := @List.length_replicate _ (part.stop - part.start) 0
  rw [EncodedSearch.SortedProbe.readInto, if_pos ⟨by omega, by omega⟩,
    EncodedSearch.wellFormed_readsWindows hprobe _ _ (by omega), hlen, valuesFrom_toList]

/-- A probe read at the rows of a point read. -/
theorem readPoints_spec {probe : Node} (hprobe : probe.WellFormed fl) {point : PointRows}
    (hin : ∀ i ∈ point.taken, i < probe.len)
    (hpart : ∀ part, point = .range part → part.Within probe.len) :
    InMemoryServePlan.readPoints fl probe point = some (point.taken.map (probe.value fl)) := by
  cases point with
  | range part => exact readInto_spec hprobe (hpart part rfl)
  | listed positions =>
    exact EncodedSearch.readAt_spec hprobe (by rw [List.length_replicate]) hin

/-- A column of a point read, when its probe resolves, holds the rows' values in a role. -/
theorem pointColumn_spec (hc : c.BuiltFrom fl rows (.copy family)) {point : PointRows}
    (hin : ∀ i ∈ point.taken, i < rows.length)
    (hpart : ∀ part, point = .range part → part.Within rows.length) (role : QuadColumn) :
    ∃ column, InMemoryServePlan.pointColumn fl c (roleColumn role) point = some column ∧
      ∀ values ∈ column, values = point.taken.map fun i =>
        roleValue ((IndexChild.copy family).rowAt rows i) role := by
  rw [InMemoryServePlan.pointColumn]
  cases hprobe : c.encoding.probes (roleColumn role) with
  | none => exact ⟨none, rfl, fun values h => by cases h⟩
  | some probe =>
    obtain ⟨column, hcolumn, henc⟩ := hc.probed _ probe hprobe
    have hlen := hc.length_column hcolumn
    have hprobeLen : probe.len = rows.length := henc.len_eq.trans hlen
    rw [column_role hc] at hcolumn
    have hvalue : ∀ i, i < rows.length → TermColumn.ofScalar (V := V) (.num (probe.value fl i)) =
        some (roleValue ((IndexChild.copy family).rowAt rows i) role) := by
      intro i hi
      have hat := @IndexChild.getD_roleColumn V _ (.copy family) rows _ role i
      rw [Option.some.inj hcolumn] at hat
      have hread := henc.reads i _ (getD_of_lt (by rwa [hlen]))
      rw [hat] at hread
      rw [← hread, TermColumn.ofScalar_scalar]
    dsimp only
    rw [readPoints_spec henc.wellFormed (fun i hi => by rw [hprobeLen]; exact hin i hi)
      (fun part heq => by rw [hprobeLen]; exact hpart part heq), Option.bind_some, List.mapM_map]
    have hcodes : ∀ i ∈ point.taken, TermColumn.ofScalar (V := V) (.num (probe.value fl i)) =
        some (roleValue ((IndexChild.copy family).rowAt rows i) role) := fun i hi => hvalue i (hin i hi)
    have hmap := mapM_some hcodes
    refine ⟨some _, by rw [← Option.map_some, ← hmap]; rfl, fun values h => (Option.some.inj h).symm⟩

/-- Windows of a list, one behind another, are the list. -/
theorem batchRanges_cut {α : Type*} {l : List α} (hl : l.length ≤ usizeMax) {per : ℕ} (hper : 0 < per) :
    ((batchRanges l.length per).flatMap fun window =>
      (l.drop window.start).take (window.stop - window.start)) = l := by
  have hslice : ∀ start ∈ List.range' 0 (divCeil l.length per) per,
      (l.drop start).take (min (saturatingAdd start per) l.length - start) =
        rowsAt l (List.range' start (min (start + per) (0 + l.length) - start)) := by
    intro start hstart
    obtain ⟨-, hlt⟩ := lt_of_mem_steps hper hstart
    rw [min_saturatingAdd hl, Nat.zero_add, rowsAt_range' l (by omega)]
  have hall : rowsAt l (List.range' 0 l.length) = l := by
    rw [rowsAt_range' l (Nat.zero_add _).le, List.drop_zero, List.take_length]
  rw [batchRanges, List.flatMap_map, List.flatMap_congr hslice]
  unfold rowsAt at hall ⊢
  rw [← List.filterMap_flatMap, steps_flatMap hper, hall]

theorem zip_map_self {α β : Type*} (f : α → β) (l : List α) :
    l.zip (l.map f) = l.map fun a => (a, f a) := by
  calc l.zip (l.map f) = (l.map id).zip (l.map f) := by rw [List.map_id]
    _ = l.map fun a => (a, f a) := List.zip_map'

namespace InMemoryServePlan.Covers

variable (h : plan.Covers fl rows family deleted places)
include h

/-- The row ids of a part of the run. -/
theorem rangeRids_spec {part : RowRange} (hstart : plan.run.start ≤ part.start)
    (horder : part.start ≤ part.stop) (hstop : part.stop ≤ plan.run.stop) :
    plan.rangeRids part = some (part.toList.map ((IndexChild.copy family).ridAt rows)) := by
  obtain ⟨hids, -, -⟩ := h.ids.runOrderIds_spec
  have hlen : (plan.run.toList.map ((IndexChild.copy family).ridAt rows)).length =
      plan.run.stop - plan.run.start := by
    rw [List.length_map, RowRange.toList, List.length_range']
  rw [InMemoryServePlan.rangeRids, hids, InMemoryServePlan.slots]
  dsimp only
  rw [sliceOf_eq (by omega) (by rw [hlen]; omega), ← List.map_drop, ← List.map_take, RowRange.toList,
    List.drop_range', List.take_range'_of_length_ge (by omega)]
  refine congrArg some (congrArg (List.map _) ?_)
  rw [RowRange.toList]
  congr 1 <;> omega

/-- The rows of a point read are the live ones, when there is one. -/
theorem pointRows_spec (hbase : base.Sound fl rows plan.component) :
    ∃ point, plan.pointRows fl base deleted = some point ∧ ∀ taken ∈ point,
      taken.taken = places ∧ ∀ part, taken = .range part → part.Within rows.length := by
  have hspan := h.span
  rw [InMemoryServePlan.pointRows]
  cases hcase : plan.span with
  | kept listed =>
    rw [hcase] at hspan
    refine ⟨_, rfl, fun taken htaken => ?_⟩
    split_ifs at htaken with hsized
    · obtain rfl := Option.some.inj htaken
      exact ⟨hspan.kept.1, fun part heq => by cases heq⟩
    · cases htaken
  | range part =>
    rw [hcase] at hspan
    obtain ⟨hstart, horder, hstop, hplaces⟩ := hspan
    have hwithin : part.Within rows.length := ⟨horder, hstop.trans h.within.inBase⟩
    dsimp only
    split_ifs with hsized
    · cases deleted with
      | none =>
        refine ⟨_, rfl, fun taken htaken => ?_⟩
        obtain rfl := Option.some.inj htaken
        refine ⟨?_, fun other heq => ?_⟩
        · rw [hplaces, PointRows.taken]
          exact (List.filter_eq_self.mpr fun _ _ => rfl).symm
        · rw [← PointRows.range.inj heq]
          exact hwithin
      | some deleted =>
        cases hrid : base.ridProbe with
        | none => exact ⟨none, rfl, fun taken htaken => by cases htaken⟩
        | some rid =>
          obtain ⟨hwell, hlen, hvalue⟩ := hbase.rids rid hrid
          rw [h.built.len_eq] at hlen hvalue
          have hread := readInto_spec hwell (show part.Within rid.len by rwa [hlen])
          dsimp only
          rw [hread, Option.map_some]
          refine ⟨_, rfl, fun taken htaken => ?_⟩
          obtain rfl := Option.some.inj htaken
          refine ⟨?_, fun other heq => by cases heq⟩
          -- the row id at a place is the one the probe reads
          have hrids : part.toList.map (rid.value fl) =
              part.toList.map ((IndexChild.copy family).ridAt rows) := by
            refine List.map_congr_left fun i hi => ?_
            rw [hvalue i (lt_of_lt_of_le (RowRange.mem_toList.mp hi).2 hwithin.inBase), h.built.rids_eq]
            exact @List.getD_map _ _ ((IndexChild.copy family).entries rows) default i Prod.snd
          rw [hplaces, PointRows.taken, hrids, zip_map_self, List.filter_map, List.map_map]
          exact List.map_id' _
    · exact ⟨none, rfl, fun taken htaken => by cases htaken⟩

/-- A point read gives the live rows. -/
theorem livePointRows_spec (hbase : base.Sound fl rows plan.component) :
    ∃ found, plan.livePointRows fl base deleted = some found ∧
      ∀ quads ∈ found, quads = places.map ((IndexChild.copy family).rowAt rows) := by
  obtain ⟨point, hpoint, htaken⟩ := h.pointRows_spec hbase
  rw [InMemoryServePlan.livePointRows, hpoint, Option.bind_some]
  cases point with
  | none => exact ⟨none, rfl, fun quads hquads => by cases hquads⟩
  | some taken =>
    obtain ⟨hplaces, hpart⟩ := htaken taken rfl
    have hin : ∀ i ∈ taken.taken, i < rows.length := by
      rw [hplaces]
      exact h.places_lt
    obtain ⟨s, hs, hsv⟩ := pointColumn_spec h.built hin hpart .s
    obtain ⟨p, hp, hpv⟩ := pointColumn_spec h.built hin hpart .p
    obtain ⟨o, ho, hov⟩ := pointColumn_spec h.built hin hpart .o
    obtain ⟨g, hg, hgv⟩ := pointColumn_spec h.built hin hpart .g
    simp only [roleColumn] at hs hp ho hg
    dsimp only
    rw [hs, Option.bind_some, hp, Option.bind_some, ho, Option.bind_some, hg, Option.map_some]
    refine ⟨_, rfl, fun quads hquads => ?_⟩
    simp only [Option.bind_eq_bind, Option.mem_def, Option.bind_eq_some_iff, Option.some.injEq] at hquads
    obtain ⟨s', rfl, p', rfl, o', rfl, g', rfl, rfl⟩ := hquads
    rw [hsv s' rfl, hpv p' rfl, hov o' rfl, hgv g' rfl, hplaces]
    exact zipRows_map ((IndexChild.copy family).rowAt rows) places

variable [LawfulMask M]

/-- **A served view reads its live rows in the component's order.** -/
theorem readRows_spec (hsmall : rows.length ≤ usizeMax) (hbase : base.Sound fl rows plan.component) :
    plan.readRows fl base deleted = some (places.map ((IndexChild.copy family).rowAt rows)) := by
  obtain ⟨found, hfound, hquads⟩ := h.livePointRows_spec hbase
  rw [InMemoryServePlan.readRows, hfound, Option.bind_some]
  cases found with
  | some quads => rw [hquads quads rfl]
  | none => exact h.covered_spec hsmall

/-- A decode a chunk at a time gives the live rows, chunk after chunk. -/
theorem decodeWindows_spec (hsmall : rows.length ≤ usizeMax)
    (hbase : base.Sound fl rows plan.component) {chunkLen : ℕ} (hchunk : 0 < chunkLen) :
    ∃ chunks, plan.decodeWindows fl base deleted chunkLen = some chunks ∧
      chunks.flatten = places.map ((IndexChild.copy family).rowAt rows) := by
  have hlen := h.length_covered
  have hle := h.spanLen_le
  rw [InMemoryServePlan.decodeWindows]
  by_cases hfits : plan.spanLen ≤ chunkLen
  · simp only [if_pos hfits, h.readRows_spec hsmall hbase]
    rw [batchRanges]
    rcases Nat.eq_zero_or_pos plan.spanLen with hzero | hpos
    · -- an empty span has no chunk
      rw [hzero, show divCeil 0 chunkLen = 0 from Nat.div_eq_of_lt (by omega)]
      refine ⟨[], rfl, ?_⟩
      rw [hzero, List.length_eq_zero_iff] at hlen
      rw [h.places_eq, hlen]
      rfl
    · rw [divCeil_of_le hpos hfits]
      exact ⟨[_], rfl, List.append_nil _⟩
  · simp only [if_neg hfits]
    have hread : ∀ window ∈ batchRanges plan.spanLen chunkLen,
        ((plan.coveredRows deleted window).bind fun covered => chunkRows base covered.1 covered.2) =
          some ((((plan.span.covered.drop window.start).take (window.stop - window.start)).filter
            fun i => liveRid deleted ((IndexChild.copy family).ridAt rows i)).map
              ((IndexChild.copy family).rowAt rows)) := by
      intro window hwindow
      obtain ⟨start, hstart, rfl⟩ := List.mem_map.mp hwindow
      obtain ⟨-, hlt⟩ := lt_of_mem_steps hchunk hstart
      refine h.chunk_spec hsmall ⟨?_, min_le_right _ _⟩
      dsimp only
      rw [saturatingAdd]
      omega
    rw [mapM_some hread]
    refine ⟨_, rfl, ?_⟩
    have hcut := batchRanges_cut (l := plan.span.covered) (by omega) hchunk
    rw [hlen] at hcut
    rw [← List.flatMap_def, ← List.map_flatMap, ← List.filter_flatMap, hcut, ← h.places_eq]

end InMemoryServePlan.Covers

end Reads

end Indexes
