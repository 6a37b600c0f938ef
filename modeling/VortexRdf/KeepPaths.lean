/-
Keeps of a base in memory: the rows of a selection whose code is admitted.

A keep narrows a selection by binary search where its rows are a run of the sorted base
that the column orders, else by one pass over the column: read in place, a piece of a
chunk at a time, or decoded for the selected rows alone.

* `locatedRuns`, `keepSortedRun` — the keep by binary search, declined where a pass costs
  less;
* `keepByPieces`, `keepByPass`, `keepInMemory` — the passes, and the whole keep;
* `KeepsRows` — what each leaves: the selected rows the keep admits, in order;
* `none` stands for a panic or an error: a read or a slice out of bounds.
-/
import VortexRdf.Joins
import VortexRdf.Keeps
import VortexRdf.Probe
import VortexRdf.Patterns
import VortexRdf.Gather
import VortexRdf.SelectionAlgebra
import VortexRdf.Lexicographic

namespace Store

open Masks MaskOps Buffers Ascending Bisect EncodedSearch Dictionary
open Columns (saturatingMul)

/-! ### The base a keep reads -/

namespace QuadColumn

/-- The columns in the order the base is sorted by. -/
def ALL : List QuadColumn := [.s, .p, .o, .g]

def index : QuadColumn → ℕ
  | .s => 0
  | .p => 1
  | .o => 2
  | .g => 3

def earlier (column : QuadColumn) : List QuadColumn := ALL.take column.index

end QuadColumn

/-- A base of quads as a keep reads it: each column's chunks, its codes where a canonical
primitive is materialized, its probe where it has one, and the stamp of the sorted order. -/
structure KeptBase where
  rows : ℕ
  chunks : QuadColumn → List (List TermCode)
  cache : QuadColumn → Option (List TermCode)
  probes : QuadColumn → Option Node
  sorted : Bool

namespace KeptBase

def codes (base : KeptBase) (column : QuadColumn) : List TermCode := (base.chunks column).flatten

def code (base : KeptBase) (column : QuadColumn) (row : ℕ) : TermCode :=
  (base.codes column).getD row 0

/-- A row's codes in the order the base is sorted by. -/
def key (base : KeptBase) (row : ℕ) : List TermCode :=
  QuadColumn.ALL.map fun column => base.code column row

end KeptBase

/-! ### By binary search -/

def KEEP_PIECE_ROWS : ℕ := 65536

def KEEP_POINT_IDS_PER_PIECE : ℕ := 16

def KEEP_DECODE_ROWS_PER_ID : ℕ := 16

section Searches

variable (fl : FastLanes)

def pushedRun (lo hi : ℕ) : List RowRange := if lo < hi then [⟨lo, hi⟩] else []

/-- The runs of a set's codes from a row of the window on, one search a code. -/
def setRuns (probe : Node) (stop : ℕ) : ℕ → List TermCode → Option (List RowRange)
  | _, [] => some []
  | start, code :: codes => do
    let (lo, hi) ← SortedProbe.boundsIn fl probe start stop code
    if stop ≤ hi then some (pushedRun lo hi)
    else
      let runs ← setRuns probe stop hi codes
      some (pushedRun lo hi ++ runs)

/-- The rows of a window whose code a keep admits, as runs; the inner `none` declines. -/
def locatedRuns (probe : Node) (window : RowRange) (keep : Keep) (selected : ℕ) :
    Option (Option (List RowRange)) :=
  match keep with
  | .range lo hi => do
    let (start, _) ← SortedProbe.boundsIn fl probe window.start window.stop lo
    let (stop, _) ← SortedProbe.boundsIn fl probe start window.stop hi
    some (some [⟨start, stop⟩])
  | .set codes _ =>
    let searches := saturatingMul codes.length (Nat.log2 (max (window.stop - window.start) 1) + 1)
    let pass := if pointSized selected then selected else selected / KEEP_DECODE_ROWS_PER_ID
    if pass ≤ searches then some none
    else (setRuns fl probe window.stop window.start codes).map some

/-- Every one of the columns has a probe and the same code at both ends of the run. -/
def constantEnds (base : KeptBase) (run : RowRange) : List QuadColumn → Option Bool
  | [] => some true
  | column :: columns =>
    match base.probes column with
    | none => some false
    | some probe => do
      let first ← SortedProbe.valueAt fl probe run.start
      let last ← SortedProbe.valueAt fl probe (run.stop - 1)
      if first ≠ last then some false else constantEnds base run columns

/-- The runs located in a window, intersected with the selection. -/
def searchedRuns (base : KeptBase) (selection : RowSelection) (column : QuadColumn) (keep : Keep)
    (window : RowRange) (selected : ℕ) : Option (Option RowSelection) :=
  match base.probes column with
  | none => some none
  | some probe => do
    match ← locatedRuns fl probe window keep selected with
    | none => some none
    | some runs => (selection.intersectRuns runs).map some

/-- The keep by binary search; the inner `none` declines to the row pass. -/
def keepSortedRun (base : KeptBase) (selection : RowSelection) (column : QuadColumn)
    (keep : Keep) : Option (Option RowSelection) :=
  if base.sorted = false then some none
  else
    match selection.asRows base.rows with
    | .run run =>
      if run.stop ≤ run.start then some none
      else do
        if ← constantEnds fl base run column.earlier then
          searchedRuns fl base selection column keep run (run.stop - run.start)
        else some none
    | .ids ids =>
      if column = .s then searchedRuns fl base selection column keep ⟨0, base.rows⟩ ids.length
      else some none

end Searches

/-! ### By a pass -/

/-- The rows whose code a test admits; none where a read is out of bounds. -/
def admittedRows (test : KeepTest) (code : ℕ → Option TermCode) : List RowId → Option (List RowId)
  | [] => some []
  | row :: rows => do
    let value ← code row
    let kept ← admittedRows test code rows
    some (if test.admits value then row :: kept else kept)

/-- `filter_rows` by a test of each row's code. -/
def RowSelection.admitted (s : RowSelection) (baseLen : ℕ) (test : KeepTest)
    (code : ℕ → Option TermCode) : Option (List RowId) :=
  match s.asRows baseLen with
  | .run run => admittedRows test code run.toList
  | .ids l => admittedRows test code l

/-- The selection a pass leaves when it keeps some rows of one, ascending. -/
def survivors (selection : RowSelection) (baseLen : ℕ) (kept : List RowId) : RowSelection :=
  if kept ≠ [] ∧ kept.length = selection.len baseLen then selection else .fromIds kept

/-- The positions of some codes a test admits, as a mask over them. -/
def keepMask (M : Type*) [MaskOps M] (codes : List TermCode) (test : KeepTest) : M :=
  fromIndices codes.length
    ((codes.zipIdx.filter fun place => test.admits place.1).map fun place => place.2)

/-- Whether a piece is decoded and compared rather than read row by row. -/
def decodesPiece (selected span : ℕ) : Bool :=
  decide (KEEP_POINT_IDS_PER_PIECE < selected) &&
    decide (span ≤ saturatingMul selected KEEP_DECODE_ROWS_PER_ID)

/-- One piece's selected rows: every row of a stretch, or ids of the selection's list. -/
inductive PieceRows where
  | stretch (rows : RowRange)
  | ids (ids : List RowId)

namespace PieceRows

def selected : PieceRows → ℕ
  | stretch rows => rows.stop - rows.start
  | ids l => l.length

/-- The rows from the first selected to the last. -/
def span : PieceRows → RowRange
  | stretch rows => rows
  | ids l =>
    match l.head?, l.getLast? with
    | some first, some last => ⟨first, last + 1⟩
    | _, _ => ⟨0, 0⟩

/-- The selected rows a test admits, their codes decoded from `first` on. -/
def admitDecoded (test : KeepTest) (codes : List TermCode) (first : ℕ) :
    PieceRows → Option (List RowId)
  | stretch _ => some ((codes.zipIdx.filter fun place => test.admits place.1).map
      fun place => first + place.2)
  | ids l => admittedRows test (fun id => (checkedSub id first).bind fun i => codes[i]?) l

/-- The selected rows a test admits, read row by row through the probe. -/
def admitProbed (fl : FastLanes) (test : KeepTest) (probe : Node) : PieceRows → Option (List RowId)
  | stretch rows => admittedRows test (SortedProbe.valueAt fl probe) rows.toList
  | ids l => admittedRows test (SortedProbe.valueAt fl probe) l

end PieceRows

/-- A column's chunks, each beside the base row it starts at. -/
def codeChunks : ℕ → List (List TermCode) → List (ℕ × List TermCode)
  | _, [] => []
  | start, chunk :: chunks => (start, chunk) :: codeChunks (start + chunk.length) chunks

/-- A piece of a chunk: at most so many of its rows. -/
structure KeepPiece where
  chunkStart : ℕ
  chunk : List TermCode
  rows : RowRange

def chunkPieces (pieceRows : ℕ) (chunk : ℕ × List TermCode) : List KeepPiece :=
  let chunkEnd := chunk.1 + chunk.2.length
  (RowRange.stepBy ⟨chunk.1, chunkEnd⟩ pieceRows).map fun start =>
    ⟨chunk.1, chunk.2, ⟨start, min chunkEnd (saturatingAdd start pieceRows)⟩⟩

/-- A piece's share of the stretch, or of the listed ids from the next one on. -/
def KeepPiece.takes (piece : KeepPiece) (stretch : RowRange) (listed : Option (List RowId))
    (next : ℕ) : Option (PieceRows × ℕ) :=
  match listed with
  | none =>
    some (.stretch ⟨max stretch.start piece.rows.start, min stretch.stop piece.rows.stop⟩, next)
  | some ids => do
    let rest ← sliceOf ids next ids.length
    let taken := partitionPoint (fun id => decide (id < piece.rows.stop)) rest
    let taking ← sliceOf ids next (next + taken)
    some (.ids taking, next + taken)

/-- A piece's selected rows the test admits, decoded or probed. -/
def KeepPiece.admits (fl : FastLanes) (probe : Node) (test : KeepTest) (piece : KeepPiece)
    (rows : PieceRows) : Option (List RowId) :=
  let span := rows.span
  if decodesPiece rows.selected (span.stop - span.start) then do
    let lo ← checkedSub span.start piece.chunkStart
    let hi ← checkedSub span.stop piece.chunkStart
    let codes ← sliceOf piece.chunk lo hi
    rows.admitDecoded test codes span.start
  else rows.admitProbed fl test probe

/-- The pieces taken in turn, until one begins past the stretch or no id is left. -/
def piecesLoop (fl : FastLanes) (probe : Node) (test : KeepTest) (stretch : RowRange)
    (listed : Option (List RowId)) : List KeepPiece → ℕ → List RowId → Option (List RowId)
  | [], _, kept => some kept
  | piece :: pieces, next, kept =>
    if stretch.stop ≤ piece.rows.start ∨ listed.any (fun ids => next == ids.length) then some kept
    else do
      let (rows, next) ← piece.takes stretch listed next
      if rows.span.stop ≤ rows.span.start then
        piecesLoop fl probe test stretch listed pieces next kept
      else
        let more ← piece.admits fl probe test rows
        piecesLoop fl probe test stretch listed pieces next (kept ++ more)

/-- The pass over a column with a probe and no canonical primitive. -/
def keepByPieces (fl : FastLanes) (chunks : List (List TermCode)) (probe : Node)
    (selection : RowSelection) (test : KeepTest) (baseLen pieceRows : ℕ) : Option RowSelection :=
  if selection.isPointSized then
    (selection.admitted baseLen test (SortedProbe.valueAt fl probe)).map
      (survivors selection baseLen)
  else
    let (stretch, listed) :=
      match selection.asRows baseLen with
      | .run run => (run, none)
      | .ids ids => (⟨0, baseLen⟩, some ids)
    -- stepping by no rows panics
    if pieceRows = 0 then none
    else
      (piecesLoop fl probe test stretch listed
        ((codeChunks 0 chunks).flatMap (chunkPieces pieceRows)) 0 []).map
        (survivors selection baseLen)

section Keeping

variable (M : Type*) [MaskOps M] (fl : FastLanes)

/-- The keep by one pass over the selected rows of a column. -/
def keepByPass (base : KeptBase) (selection : RowSelection) (column : QuadColumn) (keep : Keep) :
    Option RowSelection :=
  let test := keep.test (selection.len base.rows)
  match base.cache column, base.probes column with
  | some codes, _ =>
    (selection.admitted base.rows test fun row => codes[row]?).map (survivors selection base.rows)
  | none, some probe =>
    keepByPieces fl (base.chunks column) probe selection test base.rows KEEP_PIECE_ROWS
  | none, none =>
    (selection.apply (base.codes column)).bind fun codes =>
      selection.refine (keepMask M codes test)

/-- A keep of a view in memory; a view it leaves no row of is the empty one. -/
def keepInMemory (base : KeptBase) (selection : RowSelection) (column : QuadColumn) (keep : Keep) :
    Option RowSelection :=
  if keep.isEmpty then some .empty
  else if selection.isEmpty base.rows then some .empty
  else do
    let narrowed ←
      match ← keepSortedRun fl base selection column keep with
      | some narrowed => some narrowed
      | none => keepByPass M fl base selection column keep
    if narrowed.isEmpty base.rows then some .empty else some narrowed

end Keeping

/-! ### Rows read one by one -/

section Passes

variable {baseLen : ℕ} {test : KeepTest} {code : ℕ → Option TermCode} {f : ℕ → TermCode}
  {s : RowSelection}

theorem admittedRows_eq {rows : List RowId} (hread : ∀ row ∈ rows, code row = some (f row)) :
    admittedRows test code rows = some (rows.filter fun row => test.admits (f row)) := by
  induction rows with
  | nil => rfl
  | cons row rows ih =>
    have hrest := ih fun row' hrow => hread row' (List.mem_cons_of_mem row hrow)
    rw [admittedRows, hread row List.mem_cons_self, hrest, List.filter_cons]
    rfl

theorem admitted_eq (hbase : baseLen ≤ usizeMax) (hs : s.Within baseLen)
    (hread : ∀ row, row < baseLen → code row = some (f row)) :
    s.admitted baseLen test code =
      some ((s.listing baseLen).filter fun row => test.admits (f row)) := by
  have hlisted : ∀ row ∈ s.listing baseLen, code row = some (f row) := fun row hrow =>
    hread row ((listing_idsWithin hs).inBase row hrow)
  unfold RowSelection.admitted
  cases h : s.asRows baseLen with
  | run r =>
    rw [listing_run hbase hs h] at hlisted ⊢
    exact admittedRows_eq hlisted
  | ids l =>
    rw [listing_ids hs h] at hlisted ⊢
    exact admittedRows_eq hlisted

theorem filter_toFinset (s : RowSelection) (keep : ℕ → Bool) :
    ((s.listing baseLen).filter keep).toFinset =
      (s.rows baseLen).filter fun row => keep row = true := by
  rw [List.toFinset_filter, listing_toFinset]

theorem survivors_selects (hbase : baseLen ≤ usizeMax) (hs : s.Within baseLen)
    (keep : ℕ → Bool) :
    Selects baseLen (some (survivors s baseLen ((s.listing baseLen).filter keep)))
      ((s.rows baseLen).filter fun row => keep row = true) := by
  unfold survivors
  split_ifs with hall
  · -- as many rows are kept as there are: every one is
    have hlen : ((s.listing baseLen).filter keep).length = (s.listing baseLen).length := by
      rw [hall.2, len_eq_card hbase hs, RowSelection.listing, Finset.length_sort]
    have hfilter := List.length_filter_eq_length_iff.mp hlen
    refine ⟨s, rfl, hs, (Finset.filter_true_of_mem fun row hrow => ?_).symm⟩
    exact hfilter row ((Finset.mem_sort _).mpr hrow)
  · rw [← filter_toFinset s]
    exact fromIds_selects ((listing_idsWithin hs).of_sublist List.filter_sublist)

end Passes

/-! ### The selected rows decoded once -/

section Decoded

variable {M : Type*} [MaskOps M] [LawfulMask M] {test : KeepTest}

theorem mem_places {codes : List TermCode} {i : ℕ} :
    i ∈ (codes.zipIdx.filter fun place => test.admits place.1).map (fun place => place.2) ↔
      ∃ value, codes[i]? = some value ∧ test.admits value = true := by
  rw [List.mem_map]
  constructor
  · rintro ⟨⟨value, j⟩, hplace, rfl⟩
    obtain ⟨hmem, hadmits⟩ := List.mem_filter.mp hplace
    exact ⟨value, List.mem_zipIdx_iff_getElem?.mp hmem, hadmits⟩
  · rintro ⟨value, hget, hadmits⟩
    exact ⟨(value, i), List.mem_filter.mpr ⟨List.mem_zipIdx_iff_getElem?.mpr hget, hadmits⟩, rfl⟩

theorem keepMask_len (codes : List TermCode) :
    len (keepMask M codes test) = codes.length := LawfulMask.len_fromIndices _ _

theorem keepMask_value {codes : List TermCode} {i : ℕ} {value : TermCode}
    (hget : codes[i]? = some value) :
    MaskOps.value (keepMask M codes test) i = test.admits value := by
  have hlt : ∀ {j}, (∃ value, codes[j]? = some value ∧ test.admits value = true) →
      j < codes.length := by
    rintro j ⟨value, hj, -⟩
    exact (List.getElem?_eq_some_iff.mp hj).1
  rw [keepMask, LawfulMask.value_fromIndices _ _ _ (fun j hj => hlt (mem_places.mp hj))
    (places_ascending codes _) (List.getElem?_eq_some_iff.mp hget).1, Bool.eq_iff_iff,
    decide_eq_true_iff, mem_places]
  constructor
  · rintro ⟨other, hother, hadmits⟩
    obtain rfl : value = other := Option.some.inj (hget.symm.trans hother)
    exact hadmits
  · exact fun hadmits => ⟨value, hget, hadmits⟩

/-- A selection narrowed by a mask over its decoded codes. -/
theorem refine_keepMask {column : List TermCode} (hbase : column.length ≤ usizeMax)
    {s : RowSelection} (hs : s.Within column.length) :
    Selects column.length
      ((s.apply column).bind fun codes => s.refine (keepMask M codes test))
      ((s.rows column.length).filter fun row => test.admits (column.getD row 0) = true) := by
  have hin := (listing_idsWithin hs).inBase
  have hlen : len (keepMask M (rowsAt column (s.listing column.length)) test) =
      s.len column.length := by
    rw [keepMask_len, length_rowsAt hin, len_eq_card hbase hs, RowSelection.listing,
      Finset.length_sort]
  have hrefine := refine_selects hbase hs hlen
  rw [apply_eq hbase hs, Option.bind_some]
  have hrows : ∀ row ∈ s.rows column.length,
      MaskOps.value (keepMask M (rowsAt column (s.listing column.length)) test)
        (rank (s.rows column.length) row) = test.admits (column.getD row 0) := by
    intro row hrow
    have hget := sort_getElem?_iff.mpr ⟨hrow, rfl⟩
    refine keepMask_value ?_
    rw [getElem?_rowsAt hin, RowSelection.listing, hget, Option.bind_some,
      List.getElem?_eq_getElem (rows_lt hs hrow), List.getD_eq_getElem?_getD,
      List.getElem?_eq_getElem (rows_lt hs hrow), Option.getD_some]
  rwa [Finset.filter_congr fun row hrow => by rw [hrows row hrow]] at hrefine

end Decoded

/-! ### The pieces of a column -/

section Pieces

variable {f : ℕ → TermCode}

/-- A piece lies within its chunk, whose codes are those of the column from its start on. -/
structure KeepPiece.Of (f : ℕ → TermCode) (piece : KeepPiece) : Prop where
  nonempty : piece.rows.start < piece.rows.stop
  start : piece.chunkStart ≤ piece.rows.start
  stop : piece.rows.stop ≤ piece.chunkStart + piece.chunk.length
  chunk : piece.chunk = valuesFrom f piece.chunkStart piece.chunk.length

/-- Pieces one behind another up to a row. -/
def PiecesTo (stop p : ℕ) (pieces : List KeepPiece) : Prop :=
  Tiling (fun piece : KeepPiece => piece.rows.start)
    (fun piece : KeepPiece => piece.rows.stop - piece.rows.start) stop p pieces

theorem PiecesTo.append {mid stop p : ℕ} {before after : List KeepPiece}
    (hbefore : PiecesTo mid p before) (hafter : PiecesTo stop mid after) :
    PiecesTo stop p (before ++ after) := by
  induction hbefore with
  | nil => exact hafter
  | cons _ ih => exact .cons ih

/-- The steps of a chunk, each up to the next one or the chunk's end. -/
theorem chunkPieces_steps {pieceRows start : ℕ} {chunk : List TermCode} (hend : start + chunk.length ≤ usizeMax) :
    chunkPieces pieceRows (start, chunk) =
      (List.range' start (divCeil chunk.length pieceRows) pieceRows).map fun a =>
        ⟨start, chunk, ⟨a, min (a + pieceRows) (start + chunk.length)⟩⟩ := by
  simp only [chunkPieces, RowRange.stepBy, Nat.add_sub_cancel_left]
  refine List.map_congr_left fun a _ => ?_
  have hmin : min (start + chunk.length) (saturatingAdd a pieceRows) =
      min (a + pieceRows) (start + chunk.length) := by
    rw [Nat.min_comm, min_saturatingAdd hend]
  rw [hmin]

theorem steps_tile {pieceRows : ℕ} (hrows : 0 < pieceRows) (chunkStart : ℕ)
    (chunk : List TermCode) (start n : ℕ) :
    PiecesTo (start + n) start
      ((List.range' start (divCeil n pieceRows) pieceRows).map fun a =>
        ⟨chunkStart, chunk, ⟨a, min (a + pieceRows) (start + n)⟩⟩) := by
  induction n using Nat.strong_induction_on generalizing start with
  | _ n ih =>
    rcases Nat.eq_zero_or_pos n with rfl | hn
    · rw [show divCeil 0 pieceRows = 0 from Nat.div_eq_of_lt (by omega)]
      exact .nil
    · rcases le_total n pieceRows with hle | hle
      · rw [divCeil_of_le hn hle, List.range'_one]
        refine Tiling.cons_of_eq rfl ?_
        have hstop : start + (min (start + pieceRows) (start + n) - start) = start + n := by omega
        simp only [hstop]
        exact .nil
      · obtain ⟨m, rfl⟩ := Nat.exists_eq_add_of_le' hle
        have hrest := ih m (by omega) (start + pieceRows)
        rw [show start + pieceRows + m = start + (m + pieceRows) by omega] at hrest
        rw [divCeil_add hrows, List.range'_succ, List.map_cons]
        refine Tiling.cons_of_eq rfl ?_
        have hstop : start + (min (start + pieceRows) (start + (m + pieceRows)) - start) =
            start + pieceRows := by omega
        simp only [hstop]
        exact hrest

theorem chunkPieces_of {pieceRows : ℕ} (hrows : 0 < pieceRows) {start : ℕ}
    {chunk : List TermCode} (hend : start + chunk.length ≤ usizeMax)
    (hchunk : chunk = valuesFrom f start chunk.length) :
    ∀ piece ∈ chunkPieces pieceRows (start, chunk), piece.Of f := by
  intro piece hpiece
  rw [chunkPieces_steps hend] at hpiece
  obtain ⟨a, ha, rfl⟩ := List.mem_map.mp hpiece
  have hlt := lt_of_mem_steps hrows ha
  exact ⟨by simp only; omega, hlt.1, min_le_right _ _, hchunk⟩

/-- The chunks that list a column from a row on, cut into pieces of it. -/
theorem codeChunks_pieces {pieceRows : ℕ} (hrows : 0 < pieceRows) {chunks : List (List TermCode)}
    {start : ℕ} (hend : start + chunks.flatten.length ≤ usizeMax)
    (hcodes : chunks.flatten = valuesFrom f start chunks.flatten.length) :
    PiecesTo (start + chunks.flatten.length) start
        ((codeChunks start chunks).flatMap (chunkPieces pieceRows)) ∧
      ∀ piece ∈ (codeChunks start chunks).flatMap (chunkPieces pieceRows), piece.Of f := by
  induction chunks generalizing start with
  | nil => exact ⟨.nil, fun piece hpiece => absurd hpiece List.not_mem_nil⟩
  | cons chunk chunks ih =>
    rw [List.flatten_cons, List.length_append] at hend hcodes ⊢
    rw [valuesFrom_add] at hcodes
    obtain ⟨hchunk, hrest⟩ := List.append_inj hcodes (valuesFrom_length f start _).symm
    obtain ⟨htile, hof⟩ := ih (by omega) hrest
    have hpieces := chunkPieces_of hrows (by omega) hchunk
    rw [codeChunks, List.flatMap_cons]
    constructor
    · have hsteps := steps_tile hrows start chunk start chunk.length
      rw [← chunkPieces_steps (by omega)] at hsteps
      rw [← Nat.add_assoc]
      exact hsteps.append htile
    · intro piece hpiece
      rcases List.mem_append.mp hpiece with hin | hin
      · exact hpieces piece hin
      · exact hof piece hin

end Pieces

/-! ### What a piece takes -/

section Shares

variable {f : ℕ → TermCode} {baseLen : ℕ} {test : KeepTest}

/-- The rows of a piece's share. -/
def PieceRows.list : PieceRows → List ℕ
  | .stretch rows => rows.toList
  | .ids l => l

/-- Where the pieces taken so far leave a listing: its rows from `p` on are to be taken. -/
inductive Left (baseLen : ℕ) (l : List RowId) (p : ℕ) : RowRange → Option (List RowId) → ℕ → Prop
  | run (r : RowRange) (next : ℕ) (h : l = r.toList) : Left baseLen l p r none next
  | ids (next : ℕ) (hle : next ≤ l.length)
      (hdrop : l.drop next = l.filter fun row => decide (p ≤ row)) :
      Left baseLen l p ⟨0, baseLen⟩ (some l) next

variable {listed : Option (List RowId)}

theorem left_done {l : List ℕ} (hl : IdsWithin baseLen l) {p next : ℕ} {stretch : RowRange}
    (h : Left baseLen l p stretch listed next)
    (hstop : stretch.stop ≤ p ∨ listed.any (fun ids => next == ids.length) = true) :
    (l.filter fun row => decide (p ≤ row)) = [] := by
  have hpast : ∀ stop, (∀ row ∈ l, row < stop) → stop ≤ p →
      (l.filter fun row => decide (p ≤ row)) = [] := by
    intro stop hrows hle
    refine List.filter_eq_nil_iff.mpr fun row hrow => ?_
    have hlt := hrows row hrow
    simp only [decide_eq_true_eq]
    omega
  cases h with
  | run _ _ h =>
    rcases hstop with hle | hnone
    · exact hpast stretch.stop (fun row hrow => (RowRange.mem_toList.mp (h ▸ hrow)).2) hle
    · cases hnone
  | ids next hnext hdrop =>
    rcases hstop with hle | hall
    · exact hpast baseLen hl.inBase hle
    · rw [Option.any_some, beq_iff_eq] at hall
      rw [← hdrop, hall, List.drop_length]

/-- A piece takes the rows of the listing within it, and leaves those past it. -/
theorem takes_spec {l : List ℕ} (hl : IdsWithin baseLen l) {piece : KeepPiece} {next : ℕ}
    {stretch : RowRange}
    (hle : piece.rows.start ≤ piece.rows.stop)
    (h : Left baseLen l piece.rows.start stretch listed next) :
    ∃ rows next', piece.takes stretch listed next = some (rows, next') ∧
      rows.list = (l.filter fun row => decide (piece.rows.start ≤ row)).filter
        (fun row => decide (row < piece.rows.stop)) ∧
      Left baseLen l piece.rows.stop stretch listed next' := by
  cases h with
  | run _ _ h =>
    refine ⟨_, _, rfl, ?_, .run stretch next h⟩
    refine (RowRange.sortedLT_toList _).eq_of_mem_iff
      (filter (filter hl.ascending _) _) fun row => ?_
    subst h
    simp only [RowRange.mem_toList, List.mem_filter, decide_eq_true_eq]
    omega
  | ids next hnext hdrop =>
    set rest := l.drop next with hrest
    have hsorted : rest.SortedLT := sublist hl.ascending (List.drop_sublist _ _)
    set taken := partitionPoint (fun id => decide (id < piece.rows.stop)) rest with htaken
    have htake : taken ≤ rest.length := partitionPoint_le _ _
    rw [hrest, List.length_drop] at htake
    have hslice : sliceOf l next (next + taken) = some (rest.take taken) := by
      rw [sliceOf_eq (Nat.le_add_right _ _) (by omega), Nat.add_sub_cancel_left]
    have hall : sliceOf l next l.length = some rest := by
      rw [sliceOf_eq hnext le_rfl, ← List.length_drop, List.take_length]
    refine ⟨.ids (rest.take taken), next + taken, ?_, ?_, .ids _ (by omega) ?_⟩
    · rw [KeepPiece.takes, hall]
      show (sliceOf l next (next + taken)).bind _ = _
      rw [hslice]
      rfl
    · rw [PieceRows.list, htaken, take_partitionPoint, takeWhile_lt hsorted, hdrop]
    · rw [← List.drop_drop, ← hrest, htaken, drop_partitionPoint, dropWhile_lt hsorted, hdrop,
        List.filter_filter]
      refine List.filter_congr fun row _ => ?_
      rw [← Bool.decide_and, decide_eq_decide]
      omega

theorem span_of_ids {l : List RowId} :
    (l = [] ∧ (PieceRows.ids l).span = ⟨0, 0⟩) ∨
      ∃ first ∈ l, ∃ last ∈ l, (PieceRows.ids l).span = ⟨first, last + 1⟩ ∧
        l.head? = some first ∧ l.getLast? = some last := by
  cases hhead : l.head? with
  | none =>
    rw [List.head?_eq_none_iff] at hhead
    subst hhead
    exact .inl ⟨rfl, rfl⟩
  | some first =>
    cases hlast : l.getLast? with
    | none =>
      rw [List.getLast?_eq_none_iff] at hlast
      subst hlast
      cases hhead
    | some last =>
      refine .inr ⟨first, List.mem_of_head? hhead, last, List.mem_of_getLast? hlast, ?_, rfl, rfl⟩
      rw [PieceRows.span, hhead, hlast]

/-- An empty span has no selected row; any other begins and ends at one. -/
theorem span_spec {rows : PieceRows} (hsorted : rows.list.SortedLT) :
    (rows.span.stop ≤ rows.span.start ∧ rows.list = []) ∨
      (rows.span.start < rows.span.stop ∧ rows.span.start ∈ rows.list ∧
        rows.span.stop - 1 ∈ rows.list ∧
        ∀ row ∈ rows.list, rows.span.start ≤ row ∧ row < rows.span.stop) := by
  cases rows with
  | stretch r =>
    rw [PieceRows.span, PieceRows.list]
    rcases Nat.lt_or_ge r.start r.stop with hlt | hge
    · refine .inr ⟨hlt, ?_, ?_, fun row hrow => RowRange.mem_toList.mp hrow⟩
      · exact RowRange.mem_toList.mpr ⟨le_rfl, hlt⟩
      · exact RowRange.mem_toList.mpr ⟨by omega, by omega⟩
    · refine .inl ⟨hge, ?_⟩
      rw [RowRange.toList, show r.stop - r.start = 0 by omega, List.range'_zero]
  | ids l =>
    rcases @span_of_ids l with ⟨rfl, hspan⟩ | ⟨first, hfirst, last, hlast, hspan, hhead, hend⟩
    · exact .inl ⟨by rw [hspan], rfl⟩
    · have hbetween := between_ends hsorted hhead hend
      have hle := (hbetween last hlast).1
      rw [hspan]
      refine .inr ⟨Nat.lt_succ_of_le hle, hfirst, hlast, fun row hrow => ?_⟩
      exact ⟨(hbetween row hrow).1, Nat.lt_succ_of_le (hbetween row hrow).2⟩

/-- The places of a column's codes that pass a test, as the rows they are of. -/
theorem decoded_places (f : ℕ → TermCode) (start n : ℕ) :
    (((valuesFrom f start n).zipIdx.filter fun place => test.admits place.1).map
        fun place => start + place.2) =
      (List.range' start n).filter fun row => test.admits (f row) := by
  have hzip : (valuesFrom f start n).zipIdx =
      (List.range n).map fun k => (f (start + k), k) := by
    refine List.ext_getElem (by simp) fun i hi hi' => ?_
    simp [valuesFrom]
  rw [hzip, List.filter_map, List.map_map, List.range'_eq_map_range, List.filter_map]
  rfl

variable {fl : FastLanes} {probe : Node}

/-- A piece keeps the rows of its share the test admits, whichever way it reads them. -/
theorem admits_spec {piece : KeepPiece} (hof : piece.Of f) {rows : PieceRows}
    (hsorted : rows.list.SortedLT)
    (hin : ∀ row ∈ rows.list, piece.rows.start ≤ row ∧ row < piece.rows.stop)
    (hspan : rows.span.start < rows.span.stop)
    (hprobe : ∀ row ∈ rows.list, SortedProbe.valueAt fl probe row = some (f row)) :
    piece.admits fl probe test rows =
      some (rows.list.filter fun row => test.admits (f row)) := by
  obtain ⟨hempty, -⟩ | ⟨-, hfirst, hlast, hbetween⟩ := span_spec hsorted
  · omega
  have hstart : piece.rows.start ≤ rows.span.start := (hin _ hfirst).1
  have hstop : rows.span.stop - 1 < piece.rows.stop := (hin _ hlast).2
  have hchunkStart := hof.start
  have hchunkStop := hof.stop
  unfold KeepPiece.admits
  dsimp only
  split_ifs with hdecode
  · have hlo : checkedSub rows.span.start piece.chunkStart =
        some (rows.span.start - piece.chunkStart) := checkedSub_of_le (by omega)
    have hhi : checkedSub rows.span.stop piece.chunkStart =
        some (rows.span.stop - piece.chunkStart) := checkedSub_of_le (by omega)
    have hcodes : sliceOf piece.chunk (rows.span.start - piece.chunkStart)
        (rows.span.stop - piece.chunkStart) =
        some (valuesFrom f rows.span.start (rows.span.stop - rows.span.start)) := by
      rw [sliceOf_eq (by omega) (by omega), hof.chunk, Option.some_inj]
      refine List.ext_getElem (by simp; omega) fun i hi hi' => ?_
      simp only [valuesFrom, List.getElem_take, List.getElem_drop, List.getElem_map,
        List.getElem_range]
      congr 1
      omega
    simp only [hlo, hhi, hcodes, Option.bind_eq_bind, Option.bind_some]
    cases rows with
    | stretch r =>
      rw [PieceRows.admitDecoded, PieceRows.span, decoded_places]
      rfl
    | ids l =>
      rw [PieceRows.admitDecoded]
      refine admittedRows_eq fun (row : ℕ) hrow => ?_
      have hrow' : (PieceRows.ids l).span.start ≤ row ∧ row < (PieceRows.ids l).span.stop :=
        hbetween row hrow
      rw [checkedSub_of_le hrow'.1, Option.bind_some, valuesFrom_getElem? f _ (by omega),
        Nat.add_sub_cancel' hrow'.1]
  · cases rows with
    | stretch r => exact admittedRows_eq hprobe
    | ids l => exact admittedRows_eq hprobe

/-- The loop keeps the rows left of a listing the test admits. -/
theorem piecesLoop_eq {l : List ℕ} (hl : IdsWithin baseLen l)
    (hprobe : ∀ row, row < baseLen → SortedProbe.valueAt fl probe row = some (f row))
    {p : ℕ} {pieces : List KeepPiece} (htile : PiecesTo baseLen p pieces)
    (hof : ∀ piece ∈ pieces, piece.Of f) {stretch : RowRange}
    {next : ℕ} (hleft : Left baseLen l p stretch listed next) (kept : List RowId) :
    piecesLoop fl probe test stretch listed pieces next kept =
      some (kept ++ (l.filter fun row => decide (p ≤ row)).filter fun row => test.admits (f row)) := by
  induction htile generalizing next kept with
  | nil =>
    have hnone : (l.filter fun row => decide (baseLen ≤ row)) = [] :=
      List.filter_eq_nil_iff.mpr fun row hrow => by
        simpa using hl.inBase row hrow
    rw [piecesLoop, hnone, List.filter_nil, List.append_nil]
  | @cons piece pieces htile ih =>
    have hpiece := hof piece List.mem_cons_self
    have hplace : piece.rows.start + (piece.rows.stop - piece.rows.start) = piece.rows.stop :=
      Nat.add_sub_cancel' hpiece.nonempty.le
    rw [hplace] at ih
    rw [piecesLoop]
    split_ifs with hstop
    · rw [left_done hl hleft hstop, List.filter_nil, List.append_nil]
    · obtain ⟨rows, next', htakes, hlist, hleft'⟩ := takes_spec hl hpiece.nonempty.le hleft
      -- the rows in this piece, then those past it
      have hrest : (l.filter fun row => decide (piece.rows.start ≤ row)) =
          rows.list ++ l.filter fun row => decide (piece.rows.stop ≤ row) := by
        have hsplit := List.takeWhile_append_dropWhile
          (p := fun row => decide (row < piece.rows.stop))
          (l := l.filter fun row => decide (piece.rows.start ≤ row))
        have hsorted := filter hl.ascending fun row => decide (piece.rows.start ≤ row)
        rw [takeWhile_lt hsorted, dropWhile_lt hsorted, ← hlist, List.filter_filter] at hsplit
        rw [← hsplit]
        congr 1
        refine List.filter_congr fun row _ => ?_
        rw [← Bool.decide_and, decide_eq_decide]
        exact ⟨And.left, fun hstop => ⟨hstop, le_trans hpiece.nonempty.le hstop⟩⟩
      have hsub : ∀ row ∈ rows.list, row ∈ l ∧ piece.rows.start ≤ row ∧ row < piece.rows.stop := by
        intro row hrow
        rw [hlist, List.mem_filter, List.mem_filter, decide_eq_true_eq, decide_eq_true_eq] at hrow
        exact ⟨hrow.1.1, hrow.1.2, hrow.2⟩
      have hsorted : rows.list.SortedLT := hlist ▸ filter (filter hl.ascending _) _
      have hnexts := ih (fun piece hp => hof piece (List.mem_cons_of_mem _ hp)) hleft'
      rw [htakes]
      simp only [Option.bind_eq_bind, Option.bind_some]
      rw [hrest, List.filter_append, ← List.append_assoc]
      obtain ⟨hempty, hnil⟩ | ⟨hspan, -⟩ := span_spec hsorted
      · rw [if_pos hempty, hnexts, hnil, List.filter_nil, List.append_nil]
      · rw [if_neg (by omega), admits_spec hpiece hsorted (fun row hrow => (hsub row hrow).2) hspan
          fun row hrow => hprobe row (hl.inBase row (hsub row hrow).1), Option.bind_some, hnexts]

end Shares

/-! ### A sound base -/

variable {fl : FastLanes} {base : KeptBase}

/-- The columns of a base are full, what is cached of one is its codes, its probe reads
them, and the stamp is of rows sorted by subject, predicate, object and graph. -/
structure KeptBase.Sound (fl : FastLanes) (base : KeptBase) : Prop where
  small : base.rows ≤ usizeMax
  full : ∀ column, (base.codes column).length = base.rows
  cached : ∀ column codes, base.cache column = some codes → codes = base.codes column
  probed : ∀ column probe, base.probes column = some probe → probe.WellFormed fl ∧
    probe.len = base.rows ∧ ∀ row, row < base.rows → probe.value fl row = base.code column row
  ordered : base.sorted = true → ∀ i j, i ≤ j → j < base.rows → base.key i ≤ base.key j

theorem KeptBase.code_eq (h : base.Sound fl) {column : QuadColumn} {row : ℕ}
    (hrow : row < base.rows) : (base.codes column)[row]? = some (base.code column row) := by
  rw [← h.full column] at hrow
  rw [KeptBase.code, List.getD_eq_getElem?_getD, List.getElem?_eq_getElem hrow, Option.getD_some]

theorem KeptBase.probe_reads (h : base.Sound fl) {column : QuadColumn} {probe : Node}
    (hprobe : base.probes column = some probe) :
    ∀ row, row < base.rows → SortedProbe.valueAt fl probe row = some (base.code column row) := by
  intro row hrow
  obtain ⟨hwell, hlen, hvalue⟩ := h.probed column probe hprobe
  rw [SortedProbe.valueAt, if_pos (by omega), ← hvalue row hrow]
  exact (wellFormed_sound hwell).reads row (Nat.zero_le _) (by omega)

/-! ### The passes -/

/-- The selected rows whose code in a column a keep admits. -/
def keptRows (base : KeptBase) (selection : RowSelection) (column : QuadColumn) (keep : Keep) :
    Finset ℕ :=
  (selection.rows base.rows).filter fun row => keep.admits (base.code column row) = true

variable {selection : RowSelection}

/-- Whatever the size of a piece, the pass leaves the rows the test admits. -/
theorem keepByPieces_selects (h : base.Sound fl) {column : QuadColumn} {probe : Node}
    (hprobe : base.probes column = some probe)
    (hs : selection.Within base.rows) (test : KeepTest) {pieceRows : ℕ} (hrows : 0 < pieceRows) :
    Selects base.rows
      (keepByPieces fl (base.chunks column) probe selection test base.rows pieceRows)
      ((selection.rows base.rows).filter fun row =>
        test.admits (base.code column row) = true) := by
  have hreads := base.probe_reads h hprobe
  have hsurvive := survivors_selects h.small hs fun row => test.admits (base.code column row)
  unfold keepByPieces
  split_ifs with hpoint hzero
  · rw [admitted_eq h.small hs hreads]
    exact hsurvive
  · omega
  · have hlisted := listing_idsWithin hs
    have hlen : (base.chunks column).flatten.length = base.rows := h.full column
    have hcodes : (base.chunks column).flatten =
        valuesFrom (base.code column) 0 (base.chunks column).flatten.length :=
      eq_valuesFrom fun k hk => by
        rw [Nat.zero_add]
        exact base.code_eq h (by rwa [hlen] at hk)
    obtain ⟨htile, hof⟩ := codeChunks_pieces hrows (by rw [hlen, Nat.zero_add]; exact h.small) hcodes
    rw [Nat.zero_add, hlen] at htile
    have hloop := fun {stretch listed} hleft => @piecesLoop_eq (base.code column) base.rows test listed
      fl probe _ hlisted hreads 0 _ htile hof stretch 0 hleft []
    have hall : ((selection.listing base.rows).filter fun row => decide (0 ≤ row)) =
        selection.listing base.rows := List.filter_eq_self.mpr fun row _ => by simp
    rw [hall, List.nil_append] at hloop
    cases hshape : selection.asRows base.rows with
    | run r =>
      dsimp only
      rw [hloop (.run r 0 (listing_run h.small hs hshape))]
      exact hsurvive
    | ids l =>
      obtain rfl := listing_ids hs hshape
      dsimp only
      rw [hloop (.ids 0 (Nat.zero_le _) (by rw [List.drop_zero, hall]))]
      exact hsurvive

theorem test_rows (keep : Keep) (rows : ℕ) (selection : RowSelection) (column : QuadColumn) :
    ((selection.rows base.rows).filter fun row =>
        (keep.test rows).admits (base.code column row) = true) =
      keptRows base selection column keep := by
  simp only [test_admits, keptRows]

theorem keepByPass_selects (M : Type*) [MaskOps M] [LawfulMask M] (h : base.Sound fl)
    (hs : selection.Within base.rows) (column : QuadColumn)
    (keep : Keep) :
    Selects base.rows (keepByPass M fl base selection column keep)
      (keptRows base selection column keep) := by
  rw [← test_rows keep (selection.len base.rows)]
  unfold keepByPass
  cases hcache : base.cache column with
  | some codes =>
    obtain rfl := h.cached column codes hcache
    dsimp only
    rw [admitted_eq h.small hs fun row hrow => base.code_eq h hrow]
    exact survivors_selects h.small hs _
  | none =>
    cases hprobe : base.probes column with
    | some probe => exact keepByPieces_selects h hprobe hs _ (by decide)
    | none =>
      have hrefine := @refine_keepMask M _ _ (keep.test (selection.len base.rows))
        (base.codes column) (by rw [h.full]; exact h.small) selection (by rwa [h.full])
      rw [h.full] at hrefine
      exact hrefine

/-! ### The searches -/

section Located

variable {f : ℕ → TermCode} {probe : Node}

/-- What the searches find in a window: the rows whose code is wanted, as runs. -/
structure Located (baseLen : ℕ) (f : ℕ → TermCode) (start stop : ℕ) (wanted : TermCode → Bool)
    (runs : List RowRange) : Prop where
  within : RunsWithin baseLen runs
  after : ∀ run ∈ runs, start ≤ run.start
  rows : ∀ row, row ∈ runRows runs ↔ (start ≤ row ∧ row < stop) ∧ wanted (f row) = true

theorem runsWithin_nil (baseLen : ℕ) : RunsWithin baseLen [] where
  within _ h := absurd h List.not_mem_nil
  ascending := List.Pairwise.nil

variable {baseLen : ℕ}

theorem runsWithin_singleton {run : RowRange} (h : run.Within baseLen) :
    RunsWithin baseLen [run] where
  within _ hrun := List.mem_singleton.mp hrun ▸ h
  ascending := List.pairwise_singleton _ _

theorem mem_runRows_singleton {run : RowRange} {row : ℕ} :
    row ∈ runRows [run] ↔ run.start ≤ row ∧ row < run.stop := by
  simp [mem_runRows]

theorem pushedRun_within {start lo hi : ℕ} (hlo : start ≤ lo) (hhi : hi ≤ baseLen) :
    RunsWithin baseLen (pushedRun lo hi) ∧
      (∀ run ∈ pushedRun lo hi, start ≤ run.start ∧ run.stop ≤ hi) ∧
      ∀ row, row ∈ runRows (pushedRun lo hi) ↔ lo ≤ row ∧ row < hi := by
  unfold pushedRun
  split_ifs with hlt
  · refine ⟨runsWithin_singleton ⟨hlt.le, hhi⟩, fun run hrun => ?_,
      fun row => mem_runRows_singleton⟩
    rw [List.mem_singleton.mp hrun]
    exact ⟨hlo, le_rfl⟩
  · refine ⟨runsWithin_nil _, fun run h => absurd h List.not_mem_nil, fun row => ?_⟩
    rw [mem_runRows]
    constructor
    · rintro ⟨run, hrun, -⟩
      exact absurd hrun List.not_mem_nil
    · rintro ⟨h₁, h₂⟩
      exact absurd (lt_of_le_of_lt h₁ h₂) hlt

/-- The bounds of a code in a window over which the codes ascend. -/
theorem bounds_located (hs : probe.Sound fl) (hlen : probe.len = baseLen)
    (hvalue : ∀ row, row < baseLen → probe.value fl row = f row) {start stop : ℕ}
    (hle : start ≤ stop) (hstop : stop ≤ baseLen) (hasc : AscendingOn f start stop) (code : ℕ) :
    ∃ lo hi, SortedProbe.boundsIn fl probe start stop code = some (lo, hi) ∧
      IsPartitionPoint (fun row => f row < code) start stop lo ∧
      IsPartitionPoint (fun row => f row ≤ code) start stop hi := by
  have hprobeAsc : AscendingOn (probe.value fl) start stop := by
    intro i j hi hij hj
    rw [hvalue i (by omega), hvalue j (by omega)]
    exact hasc i j hi hij hj
  obtain ⟨lo, hi, hbounds, hlo, hhi⟩ := boundsIn_spec hs hle (hlen ▸ hstop) hprobeAsc code
  refine ⟨lo, hi, hbounds, hlo.congr fun row _ hrow => ?_, hhi.congr fun row _ hrow => ?_⟩
  · rw [hvalue row (by omega)]
  · rw [hvalue row (by omega)]

theorem setRuns_spec (hs : probe.Sound fl) (hlen : probe.len = baseLen)
    (hvalue : ∀ row, row < baseLen → probe.value fl row = f row) {codes : List TermCode}
    (hcodes : codes.SortedLT) {start stop : ℕ} (hle : start ≤ stop) (hstop : stop ≤ baseLen)
    (hasc : AscendingOn f start stop) :
    ∃ runs, setRuns fl probe stop start codes = some runs ∧
      Located baseLen f start stop codes.contains runs := by
  induction codes generalizing start with
  | nil =>
    refine ⟨[], rfl, runsWithin_nil _, fun run h => absurd h List.not_mem_nil, fun row => ?_⟩
    simp [mem_runRows]
  | cons code codes ih =>
    obtain ⟨lo, hi, hbounds, hlo, hhi⟩ := bounds_located hs hlen hvalue hle hstop hasc code
    obtain ⟨hwithin, hends, hrows⟩ := @pushedRun_within baseLen start lo hi hlo.ge
      (le_trans hhi.le hstop)
    -- the code's rows are those between its bounds; rows before its upper bound hold no later code
    have hmem : ∀ row, start ≤ row → row < stop → (f row = code ↔ lo ≤ row ∧ row < hi) := by
      intro row h₁ h₂
      rw [hhi.lt_iff h₁ h₂, ← not_lt, hlo.lt_iff h₁ h₂, not_lt]
      exact ⟨fun heq => ⟨heq.ge, heq.le⟩, fun h => le_antisymm h.2 h.1⟩
    have hbefore : ∀ row, start ≤ row → row < hi → f row ∉ codes := fun row h₁ h₂ hin =>
      absurd (head_lt hcodes hin) (not_lt.mpr (hhi.before row h₁ h₂))
    have hcontains : ∀ row, (code :: codes).contains (f row) = true ↔
        f row = code ∨ f row ∈ codes := fun row => by
      rw [List.contains_iff_mem, List.mem_cons]
    rw [setRuns, hbounds]
    simp only [Option.bind_eq_bind, Option.bind_some]
    split_ifs with hpast
    · -- the window is used up: no row of it holds a later code
      obtain rfl : hi = stop := le_antisymm hhi.le hpast
      refine ⟨_, rfl, hwithin, fun run hrun => (hends run hrun).1, fun row => ?_⟩
      rw [hrows, hcontains]
      constructor
      · rintro ⟨h₁, h₂⟩
        have hge := le_trans hlo.ge h₁
        exact ⟨⟨hge, h₂⟩, .inl ((hmem row hge h₂).mpr ⟨h₁, h₂⟩)⟩
      · rintro ⟨⟨h₁, h₂⟩, heq | hlater⟩
        · exact (hmem row h₁ h₂).mp heq
        · exact absurd hlater (hbefore row h₁ h₂)
    · have hge : start ≤ hi := hhi.ge
      obtain ⟨runs, hruns, hrest⟩ := ih (tail hcodes) (not_le.mp hpast).le (hasc.mono hge le_rfl)
      rw [hruns]
      refine ⟨_, rfl, ⟨?_, ?_⟩, ?_, fun row => ?_⟩
      · intro run hrun
        rcases List.mem_append.mp hrun with hrun | hrun
        · exact hwithin.within run hrun
        · exact hrest.within.within run hrun
      · refine List.pairwise_append.mpr ⟨hwithin.ascending, hrest.within.ascending, ?_⟩
        intro run hrun other hother
        exact le_trans (hends run hrun).2 (hrest.after other hother)
      · intro run hrun
        rcases List.mem_append.mp hrun with hrun | hrun
        · exact (hends run hrun).1
        · exact le_trans hge (hrest.after run hrun)
      · have hsplit : row ∈ runRows (pushedRun lo hi ++ runs) ↔
            row ∈ runRows (pushedRun lo hi) ∨ row ∈ runRows runs := by
          simp only [mem_runRows, List.mem_append, or_and_right, exists_or]
        rw [hsplit, hrows, hrest.rows, hcontains, List.contains_iff_mem]
        constructor
        · rintro (⟨h₁, h₂⟩ | ⟨hin, hlater⟩)
          · have h₃ := le_trans hlo.ge h₁
            have h₄ := lt_of_lt_of_le h₂ hhi.le
            exact ⟨⟨h₃, h₄⟩, .inl ((hmem row h₃ h₄).mpr ⟨h₁, h₂⟩)⟩
          · exact ⟨⟨le_trans hge hin.1, hin.2⟩, .inr hlater⟩
        · rintro ⟨hin, heq | hlater⟩
          · exact .inl ((hmem row hin.1 hin.2).mp heq)
          · refine .inr ⟨⟨?_, hin.2⟩, hlater⟩
            by_contra hlt
            exact hbefore row hin.1 (not_le.mp hlt) hlater

/-- The searches find the rows a keep admits, or decline. -/
theorem locatedRuns_spec (hs : probe.Sound fl) (hlen : probe.len = baseLen)
    (hvalue : ∀ row, row < baseLen → probe.value fl row = f row) {window : RowRange}
    (hwindow : window.Within baseLen) (hasc : AscendingOn f window.start window.stop)
    (keep : Keep) (selected : ℕ) :
    ∃ found, locatedRuns fl probe window keep selected = some found ∧
      ∀ runs ∈ found, Located baseLen f window.start window.stop keep.admits runs := by
  cases keep with
  | range lo hi =>
    obtain ⟨start, _, hfirst, hstart, -⟩ :=
      bounds_located hs hlen hvalue hwindow.ordered hwindow.inBase hasc lo
    obtain ⟨stop, _, hsecond, hstop, -⟩ :=
      bounds_located hs hlen hvalue hstart.le hwindow.inBase (hasc.mono hstart.ge le_rfl) hi
    refine ⟨some [⟨start, stop⟩], ?_, fun runs hruns => ?_⟩
    · rw [locatedRuns, hfirst]
      simp only [Option.bind_eq_bind, Option.bind_some, hsecond]
    · obtain rfl := Option.some.inj hruns
      refine ⟨runsWithin_singleton ⟨hstop.ge, le_trans hstop.le hwindow.inBase⟩, fun run hrun => ?_,
        fun row => ?_⟩
      · rw [List.mem_singleton.mp hrun]
        exact hstart.ge
      · rw [mem_runRows_singleton, Keep.admits, Bool.and_eq_true, decide_eq_true_iff,
          decide_eq_true_iff]
        constructor
        · rintro ⟨h₁, h₂⟩
          have h₃ := lt_of_lt_of_le h₂ hstop.le
          exact ⟨⟨le_trans hstart.ge h₁, h₃⟩,
            not_lt.mp (hstart.after row h₁ h₃), hstop.before row h₁ h₂⟩
        · rintro ⟨⟨h₁, h₂⟩, hlo, hhi⟩
          have h₃ : start ≤ row := not_lt.mp fun hlt =>
            absurd ((hstart.lt_iff h₁ h₂).mp hlt) (not_lt.mpr hlo)
          exact ⟨h₃, (hstop.lt_iff h₃ h₂).mpr hhi⟩
  | set codes ascending =>
    obtain ⟨runs, hruns, hlocated⟩ :=
      setRuns_spec hs hlen hvalue ascending hwindow.ordered hwindow.inBase hasc
    have hdeclined : ∃ found, some none = some found ∧ ∀ runs ∈ found,
        Located baseLen f window.start window.stop (Keep.set codes ascending).admits runs :=
      ⟨none, rfl, fun _ h => absurd h.symm (Option.some_ne_none _)⟩
    have hfound : ∃ found, some (some runs) = some found ∧ ∀ runs ∈ found,
        Located baseLen f window.start window.stop (Keep.set codes ascending).admits runs :=
      ⟨some runs, rfl, fun _ h => Option.some.inj h ▸ hlocated⟩
    rw [locatedRuns, hruns]
    split_ifs
    · exact hdeclined
    · exact hfound
    · exact hdeclined
    · exact hfound

end Located

/-! ### The sorted run -/

theorem QuadColumn.all_eq (column : QuadColumn) : ∃ later, QuadColumn.ALL =
    column.earlier ++ column :: later := by
  cases column with
  | s => exact ⟨[.p, .o, .g], rfl⟩
  | p => exact ⟨[.o, .g], rfl⟩
  | o => exact ⟨[.g], rfl⟩
  | g => exact ⟨[], rfl⟩

/-- Over a run of sorted rows whose earlier columns are the same at both ends, a column
ascends. -/
theorem ascending_between (h : base.Sound fl) (hsorted : base.sorted = true)
    {column : QuadColumn} {run : RowRange} (hstop : run.stop ≤ base.rows)
    (hends : ∀ other ∈ column.earlier, base.code other run.start = base.code other (run.stop - 1)) :
    AscendingOn (base.code column) run.start run.stop := by
  obtain ⟨later, hall⟩ := column.all_eq
  set start := column.earlier.map fun other => base.code other run.start with hstart
  have hkey : ∀ row, base.key row = (column.earlier.map fun other => base.code other row) ++
      base.code column row :: later.map fun other => base.code other row := by
    intro row
    rw [KeptBase.key, hall, List.map_append, List.map_cons]
  have hlast : (column.earlier.map fun other => base.code other (run.stop - 1)) = start :=
    List.map_congr_left fun other hother => (hends other hother).symm
  -- every row between begins as the two ends do
  have hbegins : ∀ row, run.start ≤ row → row < run.stop → base.key row =
      start ++ base.code column row :: later.map fun other => base.code other row := by
    intro row h₁ h₂
    have hlow := h.ordered hsorted run.start row h₁ (by omega)
    have hhigh := h.ordered hsorted row (run.stop - 1) (by omega) (by omega)
    rw [hkey run.start] at hlow
    rw [hkey (run.stop - 1), hlast] at hhigh
    obtain ⟨rest, hrest⟩ := Lexicographic.begins_of_le_of_le hlow hhigh
    rw [hkey row] at hrest
    have hsame := (List.append_inj hrest (by rw [List.length_map, List.length_map])).1
    rw [hkey row, hsame]
  intro i j hi hij hj
  have hle := h.ordered hsorted i j hij (by omega)
  rw [hbegins i hi (by omega), hbegins j (by omega) hj, Lexicographic.append_le_append_iff] at hle
  exact Lexicographic.head_le_of_cons_le hle

theorem constantEnds_spec (h : base.Sound fl) {run : RowRange} (hrun : run.start < run.stop)
    (hstop : run.stop ≤ base.rows) (columns : List QuadColumn) :
    ∃ constant, constantEnds fl base run columns = some constant ∧ (constant = true →
      ∀ column ∈ columns, base.code column run.start = base.code column (run.stop - 1)) := by
  induction columns with
  | nil => exact ⟨true, rfl, fun _ column hcolumn => absurd hcolumn List.not_mem_nil⟩
  | cons column columns ih =>
    obtain ⟨constant, hconstant, hsame⟩ := ih
    rw [constantEnds]
    cases hprobe : base.probes column with
    | none => exact ⟨false, rfl, fun hfalse => absurd hfalse Bool.false_ne_true⟩
    | some probe =>
      have hreads := base.probe_reads h hprobe
      dsimp only
      rw [hreads run.start (by omega), hreads (run.stop - 1) (by omega)]
      simp only [Option.bind_eq_bind, Option.bind_some]
      split_ifs with hends
      · exact ⟨false, rfl, fun hfalse => absurd hfalse Bool.false_ne_true⟩
      · refine ⟨constant, hconstant, fun htrue other hother => ?_⟩
        rcases List.mem_cons.mp hother with rfl | hother
        · exact not_not.mp hends
        · exact hsame htrue other hother

/-- What a keep by search answers: the rows it keeps, unless it declines. -/
def Searched (base : KeptBase) (selection : RowSelection) (column : QuadColumn) (keep : Keep)
    (o : Option (Option RowSelection)) : Prop :=
  ∃ found, o = some found ∧
    ∀ narrowed ∈ found, Selects base.rows (some narrowed) (keptRows base selection column keep)

theorem searched_declined {column : QuadColumn} {keep : Keep} :
    Searched base selection column keep (some none) :=
  ⟨none, rfl, fun _ h => absurd h.symm (Option.some_ne_none _)⟩

theorem searchedRuns_spec (h : base.Sound fl)
    (hs : selection.Within base.rows) (column : QuadColumn) (keep : Keep) {window : RowRange}
    (hwindow : window.Within base.rows) (hrows : selection.rows base.rows ⊆ window.rows)
    (hasc : AscendingOn (base.code column) window.start window.stop) (selected : ℕ) :
    Searched base selection column keep
      (searchedRuns fl base selection column keep window selected) := by
  unfold searchedRuns
  cases hprobe : base.probes column with
  | none => exact searched_declined
  | some probe =>
    obtain ⟨hwell, hlen, hvalue⟩ := h.probed column probe hprobe
    obtain ⟨found, hfound, hlocated⟩ :=
      locatedRuns_spec (wellFormed_sound hwell) hlen hvalue hwindow hasc keep selected
    dsimp only
    rw [hfound]
    cases found with
    | none => exact searched_declined
    | some runs =>
      obtain ⟨hwithin, -, hruns⟩ := hlocated runs rfl
      obtain ⟨narrowed, hnarrowed, hin, hnamed⟩ := intersectRuns_selects h.small hs hwithin
      refine ⟨some narrowed, ?_, fun _ hsame => ?_⟩
      · show (selection.intersectRuns runs).map some = _
        rw [hnarrowed, Option.map_some]
      · obtain rfl := Option.some.inj hsame
        refine ⟨narrowed, rfl, hin, ?_⟩
        rw [hnamed]
        ext row
        rw [Finset.mem_inter, hruns, keptRows, Finset.mem_filter]
        constructor
        · exact fun hboth => ⟨hboth.1, hboth.2.2⟩
        · exact fun hboth => ⟨hboth.1, RowRange.mem_rows.mp (hrows hboth.1), hboth.2⟩

theorem keepSortedRun_spec (h : base.Sound fl)
    (hs : selection.Within base.rows) (column : QuadColumn) (keep : Keep) :
    Searched base selection column keep (keepSortedRun fl base selection column keep) := by
  unfold keepSortedRun
  cases hsorted : base.sorted with
  | false => exact searched_declined
  | true =>
    have hstamped : ¬ true = false := fun h => Bool.noConfusion h
    rw [if_neg hstamped]
    cases hshape : selection.asRows base.rows with
    | run run =>
      obtain ⟨hwithin, hrows⟩ := asRows_run h.small hs hshape
      dsimp only
      split_ifs with hempty
      · exact searched_declined
      · obtain ⟨constant, hconstant, hends⟩ :=
          constantEnds_spec h (not_le.mp hempty) hwithin.inBase column.earlier
        rw [hconstant]
        cases constant with
        | false => exact searched_declined
        | true =>
          exact searchedRuns_spec h hs column keep hwithin hrows.subset
            (ascending_between h hsorted hwithin.inBase (hends rfl)) _
    | ids ids =>
      dsimp only
      split_ifs with hsubject
      · subst hsubject
        have hwhole : AscendingOn (base.code .s) 0 base.rows :=
          @ascending_between fl base h hsorted .s ⟨0, base.rows⟩ le_rfl
            fun other hother => absurd hother List.not_mem_nil
        refine searchedRuns_spec h hs .s keep ⟨Nat.zero_le _, le_rfl⟩ (fun row hrow => ?_) hwhole _
        exact RowRange.mem_rows.mpr ⟨Nat.zero_le _, rows_lt hs hrow⟩
      · exact searched_declined

/-! ### The whole keep -/

theorem rowless_iff (hbase : base.rows ≤ usizeMax) {s : RowSelection} (hs : s.Within base.rows) :
    s.isEmpty base.rows = true ↔ s.rows base.rows = ∅ := by
  rw [RowSelection.isEmpty, beq_iff_eq, len_eq_card hbase hs, Finset.card_eq_zero]

theorem emptied_selects {s : RowSelection} {rows : Finset ℕ} (hbase : base.rows ≤ usizeMax)
    (h : Selects base.rows (some s) rows) :
    Selects base.rows (if s.isEmpty base.rows then some .empty else some s) rows := by
  split_ifs with hempty
  · obtain ⟨_, hsame, hs, rfl⟩ := h
    obtain rfl := Option.some.inj hsame
    exact selects_empty ((rowless_iff hbase hs).mp hempty)
  · exact h

theorem keepInMemory_selects (M : Type*) [MaskOps M] [LawfulMask M] (h : base.Sound fl)
    (hs : selection.Within base.rows) (column : QuadColumn)
    (keep : Keep) :
    Selects base.rows (keepInMemory M fl base selection column keep)
      (keptRows base selection column keep) := by
  unfold keepInMemory
  split_ifs with hnone hempty
  · refine selects_empty (Finset.filter_false_of_mem fun row _ => ?_)
    rw [admits_of_isEmpty hnone]
    exact Bool.false_ne_true
  · refine selects_empty ?_
    rw [keptRows, (rowless_iff h.small hs).mp hempty, Finset.filter_empty]
  · obtain ⟨found, hfound, hsearched⟩ := keepSortedRun_spec h hs column keep
    rw [hfound]
    cases found with
    | some narrowed => exact emptied_selects h.small (hsearched narrowed rfl)
    | none =>
      have hpass := keepByPass_selects M h hs column keep
      obtain ⟨narrowed, hnarrowed, -, -⟩ := id hpass
      rw [hnarrowed] at hpass
      simp only [Option.bind_eq_bind, Option.bind_some, hnarrowed]
      exact emptied_selects h.small hpass

/-! ### A keep is the filter of the selected rows -/

/-- A selection of just the rows of another whose code a keep admits: whatever rows are live,
read in order and once each. -/
structure KeepsRows (base : KeptBase) (selection : RowSelection) (column : QuadColumn)
    (keep : Keep) (narrowed : RowSelection) : Prop where
  within : narrowed.Within base.rows
  rows : ∀ live : ℕ → Bool, narrowed.filterRows base.rows live =
    selection.filterRows base.rows fun row => live row && keep.admits (base.code column row)
  ascending : ∀ live : ℕ → Bool, (narrowed.filterRows base.rows live).SortedLT

theorem Selects.keepsRows (hbase : base.rows ≤ usizeMax)
    (hs : selection.Within base.rows) {column : QuadColumn} {keep : Keep}
    {o : Option RowSelection} (h : Selects base.rows o (keptRows base selection column keep)) :
    ∃ narrowed, o = some narrowed ∧ KeepsRows base selection column keep narrowed := by
  obtain ⟨narrowed, rfl, hwithin, hrows⟩ := h
  refine ⟨narrowed, rfl, hwithin, fun live => ?_, fun live => ?_⟩
  · have hlisting : narrowed.listing base.rows =
        (selection.listing base.rows).filter fun row => keep.admits (base.code column row) := by
      rw [RowSelection.listing, hrows, keptRows, sort_filter]
      simp [RowSelection.listing]
    rw [filterRows_eq hbase hwithin, filterRows_eq hbase hs, hlisting, List.filter_filter]
  · rw [filterRows_eq hbase hwithin]
    exact filter (listing_idsWithin hwithin).ascending live

theorem Located.rows_eq {f : ℕ → TermCode} {baseLen : ℕ} {window : RowRange}
    {wanted : TermCode → Bool} {runs : List RowRange}
    (h : Located baseLen f window.start window.stop wanted runs) :
    runs.flatMap RowRange.toList = window.toList.filter fun row => wanted (f row) := by
  refine h.within.idsWithin.ascending.eq_of_mem_iff (filter window.sortedLT_toList _) fun row => ?_
  rw [← List.mem_toFinset, ← runRows, h.rows, List.mem_filter, RowRange.mem_toList]

/-- A keep by every way of narrowing: its compiled test admits its codes, and the runs and
selections are of the rows whose code it admits. -/
structure KeepAgrees (M : Type*) [MaskOps M] (fl : FastLanes) (base : KeptBase)
    (selection : RowSelection) (column : QuadColumn) (keep : Keep) : Prop where
  test : ∀ rows code, (keep.test rows).admits code = keep.admits code
  located : ∀ probe, base.probes column = some probe → ∀ window : RowRange,
    window.Within base.rows → AscendingOn (base.code column) window.start window.stop →
    ∀ selected, ∃ found, locatedRuns fl probe window keep selected = some found ∧
      ∀ runs ∈ found, runs.flatMap RowRange.toList =
        window.toList.filter fun row => keep.admits (base.code column row)
  sortedRun : ∃ found, keepSortedRun fl base selection column keep = some found ∧
    ∀ narrowed ∈ found, KeepsRows base selection column keep narrowed
  byPieces : ∀ probe, base.probes column = some probe → ∀ rows pieceRows, 0 < pieceRows →
    ∃ narrowed, keepByPieces fl (base.chunks column) probe selection (keep.test rows) base.rows
      pieceRows = some narrowed ∧ KeepsRows base selection column keep narrowed
  byPass : ∃ narrowed, keepByPass M fl base selection column keep = some narrowed ∧
    KeepsRows base selection column keep narrowed
  inMemory : ∃ narrowed, keepInMemory M fl base selection column keep = some narrowed ∧
    KeepsRows base selection column keep narrowed

/-- Over a sound base, every keep of some codes or of a range, by every way of narrowing, is
the filter of the selected rows. -/
theorem keep_isFilter (M : Type*) [MaskOps M] [LawfulMask M] (h : base.Sound fl)
    {selection : RowSelection} (hs : selection.Within base.rows) (column : QuadColumn) :
    (∀ keep : Keep, KeepAgrees M fl base selection column keep) ∧
    (∀ (codes : List TermCode) (code : TermCode),
      ((Keep.setOf codes).admits code = true ↔ code ∈ codes) ∧
      ((Keep.ofBuffer codes).admits code = true ↔ code ∈ codes)) ∧
    ∀ lo hi code : TermCode, (Keep.rangeOf lo hi).admits code = true ↔ lo ≤ code ∧ code < hi := by
  refine ⟨fun keep => ?_, fun codes code => ⟨setOf_admits codes code, ofBuffer_admits codes code⟩,
    rangeOf_admits⟩
  exact {
    test := test_admits keep
    located := by
      intro probe hprobe window hwindow hasc selected
      obtain ⟨hwell, hlen, hvalue⟩ := h.probed column probe hprobe
      obtain ⟨found, hfound, hlocated⟩ :=
        locatedRuns_spec (wellFormed_sound hwell) hlen hvalue hwindow hasc keep selected
      exact ⟨found, hfound, fun runs hruns => (hlocated runs hruns).rows_eq⟩
    sortedRun := by
      obtain ⟨found, hfound, hsearched⟩ := keepSortedRun_spec h hs column keep
      refine ⟨found, hfound, fun narrowed hnarrowed => ?_⟩
      obtain ⟨_, hsame, hkeeps⟩ := (hsearched narrowed hnarrowed).keepsRows h.small hs
      exact Option.some.inj hsame ▸ hkeeps
    byPieces := by
      intro probe hprobe rows pieceRows hrows
      have hpieces := keepByPieces_selects h hprobe hs (keep.test rows) hrows
      rw [test_rows] at hpieces
      exact hpieces.keepsRows h.small hs
    byPass := (keepByPass_selects M h hs column keep).keepsRows h.small hs
    inMemory := (keepInMemory_selects M h hs column keep).keepsRows h.small hs }

/-- Four rows in two chunks, each with one code in every column. -/
def oddRows : KeptBase where
  rows := 4
  chunks _ := [[5, 7], [9, 11]]
  cache _ := none
  probes _ := some (.sequence 5 2 4)
  sorted := true

theorem oddRows_sound (fl : FastLanes) : oddRows.Sound fl where
  small := by decide
  full _ := rfl
  cached _ _ h := absurd h.symm (Option.some_ne_none _)
  probed column probe h := by
    obtain rfl := Option.some.inj h
    refine ⟨⟨by decide, by decide, fun i hi => ?_⟩, rfl, fun row hrow => ?_⟩
    · rw [u64Max]
      omega
    · have hrow' : row < 4 := hrow
      interval_cases row <;> rfl
  ordered _ i j hij hj := by
    have hj' : j < 4 := hj
    interval_cases j <;> interval_cases i <;> decide

theorem keep_isFilter_sample :
    (∀ keep : Keep, KeepAgrees BitMask FastLanes.ofZeros oddRows (.range ⟨1, 3⟩) .p keep) ∧
    (∀ (codes : List TermCode) (code : TermCode),
      ((Keep.setOf codes).admits code = true ↔ code ∈ codes) ∧
      ((Keep.ofBuffer codes).admits code = true ↔ code ∈ codes)) ∧
    ∀ lo hi code : TermCode, (Keep.rangeOf lo hi).admits code = true ↔ lo ≤ code ∧ code < hi :=
  keep_isFilter BitMask (oddRows_sound FastLanes.ofZeros)
    (show (RowSelection.range ⟨1, 3⟩).Within 4 from ⟨by decide, by decide⟩) .p

end Store
