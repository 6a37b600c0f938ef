/-
Decoded reads of a view held in memory, whole or a chunk at a time.

A view no plan serves is read off the base: a run of it sliced, any other selection gathered a
window of live ids at a time.  A served view is read off its plan's component, in its order.

* `rechunk`, `idWindows`, `liveIdWindows` — how rows and ids are cut;
* `inMemoryChunk`, `inMemoryChunks` — the reads;
* `quads_agree` — each gives the rows the view shows, in the order they read in;
* `quads_after_run` — so does each behind any run of narrowings.
-/
import VortexRdf.ViewAnswers

namespace Views

open Ascending Buffers Builds Dictionary Indexes Masks MaskOps Terms Transitions
open EncodedSearch (FastLanes)
open Store hiding Row

/-! ### Cuts -/

/-- Rows cut into slices: the array itself where it fits one. -/
def rechunk {α : Type} (rows : List α) (batchRows : ℕ) : Option (List (List α)) :=
  (batchRanges rows.length batchRows).mapM fun range =>
    if rows.length ≤ batchRows then some rows else sliceOf rows range.start range.stop

def idWindows (ids : List RowId) (batchRows : ℕ) : Option (List (List RowId)) :=
  (batchRanges ids.length batchRows).mapM fun window => sliceOf ids window.start window.stop

section Windows

variable {M : Type} [MaskOps M]

/-- The ids the tombstones leave live, a window collected as it is reached. -/
def filteredWindows (candidates : List RowId) (deleted : Option M) (batchRows : ℕ) :
    List (List RowId) :=
  chunks batchRows (candidates.filter (live deleted))

/-- The live ids of a selection in windows: an id list without tombstones is sliced. -/
def liveIdWindows (selection : RowSelection) (deleted : Option M) (baseLen batchRows : ℕ) :
    Option (List (List RowId)) :=
  match selection.asRows baseLen, deleted with
  | .ids ids, none => idWindows ids batchRows
  | .run run, deleted => some (filteredWindows run.toList deleted batchRows)
  | .ids ids, deleted => some (filteredWindows ids deleted batchRows)

end Windows

/-- The rows of a base at some ids: point by point where they are few, else by one take. -/
def gatherRowsAt {α : Type} (base : List α) (ids : List RowId) : Option (List α) :=
  ids.mapM fun id => base[id]?

/-- An unserved view's base rows, as its chunks are cut. -/
inductive MemoryRows where
  /-- A run of the base, none of it tombstoned. -/
  | run (run : RowRange)
  | windows (windows : List (List RowId))

/-! ### Reads -/

section Reads

variable {ox : Oxrdf} {V M : Type} [LinearOrder V] [TermColumn V] [MaskOps M] (fl : FastLanes)

/-- Whether every column of a base has a probe cached. -/
def BaseArray.probed (base : BaseArray V) : Bool :=
  QuadColumn.ALL.all fun column => (base.probes column).isSome

namespace VortexRdfStore

variable (store : VortexRdfStore ox V M)

/-- The live base rows in base order, over the exact selection. -/
def inMemoryBaseRows : Option (List (Row V)) :=
  (match store.quads.memory.serve, store.quads.selection with
    | some _, selection => selection.materialized fl M
    | none, .exact selection => some selection
    -- a pending selection without a plan is never read
    | none, _ => none).bind fun selection =>
      gatherLive store.quads.memory.base.rows selection store.quads.deleted
        store.quads.memory.base.probed

/-- How an unserved view's base rows are cut. -/
def memoryRows (batchRows : ℕ) : Option MemoryRows :=
  (store.quads.selection.materialized fl M).bind fun selection =>
    match store.quads.deleted, selection.asRows store.quads.baseLen with
    | none, .run run => some (.run run)
    | deleted, _ => (liveIdWindows selection deleted store.quads.baseLen batchRows).map .windows

/-- The base rows of an unserved view in chunks. -/
def baseChunks (batchRows : ℕ) : Option (List (List (Row V))) :=
  (store.memoryRows fl batchRows).bind fun rows =>
    match rows with
    | .windows windows => windows.mapM (gatherRowsAt store.quads.memory.base.rows)
    | .run _ => (store.inMemoryBaseRows fl).bind fun rows => rechunk rows batchRows

/-- The tail's live rows. -/
def tailRows : Option (List RawQuad) :=
  match store.tail with
  | none => some []
  | some tail => tail.liveRows

/-- The tail's live rows in chunks. -/
def tailChunks (batchRows : ℕ) : Option (List (List RawQuad)) :=
  store.tailRows.bind fun rows => rechunk rows batchRows

end VortexRdfStore

/-- What a row of a layout, and an appended row, decode into. -/
structure ChunkDecode (V β : Type) where
  decode : Row V → β
  fromStrings : RawQuad → β

namespace VortexRdfStore

variable (store : VortexRdfStore ox V M)

/-- The base rows a view decodes at once: those its plan covers, or those it gathers. -/
def decodedRows : Option (List (Row V)) :=
  match store.quads.memory.serve with
  | some plan => plan.readRows fl (store.quads.memory.base.served plan.component) store.quads.deleted
  | none => store.inMemoryBaseRows fl

/-- The base rows a view decodes a chunk at a time: windows of its plan's span, or its chunks. -/
def decodedWindows (chunkRows : ℕ) : Option (List (List (Row V))) :=
  match store.quads.memory.serve with
  | some plan => plan.decodeWindows fl (store.quads.memory.base.served plan.component)
      store.quads.deleted chunkRows
  | none => store.baseChunks fl chunkRows

variable {β : Type} (into : ChunkDecode V β)

/-- A view's rows as one decoded chunk, the tail's behind the base's. -/
def inMemoryChunk : Option (List β) :=
  (store.decodedRows fl).bind fun rows =>
    store.tailRows.map fun tail => rows.map into.decode ++ tail.map into.fromStrings

/-- A view's rows as decoded chunks, the tail's in chunks of their own. -/
def inMemoryChunks (chunkRows : ℕ) : Option (List (List β)) :=
  (store.decodedWindows fl chunkRows).bind fun base =>
    (store.tailChunks chunkRows).map fun tail =>
      base.map (List.map into.decode) ++ tail.map (List.map into.fromStrings)

end VortexRdfStore

end Reads

/-! ### What the cuts are -/

section Cuts

/-- A window of some rows is not empty, and inside them. -/
theorem mem_batchRanges {len per : ℕ} (hlen : len ≤ usizeMax) (hper : 0 < per) {window : RowRange}
    (h : window ∈ batchRanges len per) :
    window.start < window.stop ∧ window.stop ≤ len ∧ window.stop - window.start ≤ per ∧
      (len ≤ per → window = ⟨0, len⟩) := by
  obtain ⟨start, hstart, rfl⟩ := List.mem_map.mp h
  obtain ⟨-, hlt⟩ := lt_of_mem_steps hper hstart
  obtain ⟨i, -, rfl⟩ := List.mem_range'.mp hstart
  dsimp only
  rw [saturatingAdd]
  refine ⟨by omega, min_le_right _ _, by omega, fun hfits => ?_⟩
  have hfirst : i = 0 := by
    by_contra hi
    have := Nat.le_mul_of_pos_right per (Nat.pos_of_ne_zero hi)
    omega
  rw [hfirst]
  congr 1
  omega

variable {α : Type}

/-- The windows of a list, as values. -/
def windowsOf (l : List α) (per : ℕ) : List (List α) :=
  (batchRanges l.length per).map fun window => (l.drop window.start).take (window.stop - window.start)

theorem windowsOf_chunked {l : List α} (hl : l.length ≤ usizeMax) {per : ℕ} (hper : 0 < per) :
    Chunked per l (windowsOf l per) where
  flatten := by
    rw [windowsOf, ← List.flatMap_def]
    exact batchRanges_cut hl hper
  capped piece hpiece := by
    obtain ⟨window, hwindow, rfl⟩ := List.mem_map.mp hpiece
    obtain ⟨-, -, hle, -⟩ := mem_batchRanges hl hper hwindow
    exact (List.length_take_le _ _).trans hle
  nonempty piece hpiece := by
    obtain ⟨window, hwindow, rfl⟩ := List.mem_map.mp hpiece
    obtain ⟨hlt, hstop, -⟩ := mem_batchRanges hl hper hwindow
    rw [← List.length_pos_iff, List.length_take, List.length_drop]
    omega

/-- A slice of each window. -/
theorem sliceOf_windows {l : List α} (hl : l.length ≤ usizeMax) {per : ℕ} (hper : 0 < per) :
    ((batchRanges l.length per).mapM fun window => sliceOf l window.start window.stop) =
      some (windowsOf l per) := by
  refine mapM_some fun window hwindow => ?_
  obtain ⟨hlt, hstop, -⟩ := mem_batchRanges hl hper hwindow
  rw [sliceOf, if_pos ⟨hlt.le, hstop⟩]

theorem idWindows_spec {ids : List RowId} (hids : ids.length ≤ usizeMax) {batchRows : ℕ}
    (hbatch : 0 < batchRows) : ∃ windows, idWindows ids batchRows = some windows ∧
      Chunked batchRows ids windows :=
  ⟨_, sliceOf_windows hids hbatch, windowsOf_chunked hids hbatch⟩

theorem rechunk_spec {rows : List α} (hrows : rows.length ≤ usizeMax) {batchRows : ℕ}
    (hbatch : 0 < batchRows) : ∃ chunks, rechunk rows batchRows = some chunks ∧
      Chunked batchRows rows chunks := by
  refine ⟨_, ?_, windowsOf_chunked hrows hbatch⟩
  refine mapM_some fun window hwindow => ?_
  obtain ⟨hlt, hstop, -, hwhole⟩ := mem_batchRanges hrows hbatch hwindow
  split_ifs with hfits
  · -- the array fits its one window
    rw [hwhole hfits, List.drop_zero, Nat.sub_zero, List.take_length]
  · rw [sliceOf, if_pos ⟨hlt.le, hstop⟩]

theorem rowsAt_eq_map [Inhabited α] {base : List α} {ids : List RowId} (h : ∀ id ∈ ids, id < base.length) :
    rowsAt base ids = ids.map fun id => base.getD id default := by
  rw [rowsAt, ← List.filterMap_eq_map]
  refine List.filterMap_congr fun id hid => ?_
  rw [List.getElem?_eq_getElem (h id hid), Function.comp_apply, List.getD_eq_getElem _ _ (h id hid)]

/-- Windows of ids gathered are the rows at the ids, in chunks. -/
theorem gatherWindows_spec [Inhabited α] {base : List α} {ids : List RowId}
    (hids : ∀ id ∈ ids, id < base.length) {batchRows : ℕ} {windows : List (List RowId)}
    (h : Chunked batchRows ids windows) : ∃ chunks, windows.mapM (gatherRowsAt base) = some chunks ∧
      Chunked batchRows (rowsAt base ids) chunks := by
  refine ⟨windows.map (List.map fun id => base.getD id default), mapM_some fun window hwindow => ?_, ?_⟩
  · have hin : ∀ id ∈ window, id < base.length := fun id hid => hids id (h.mem hwindow hid)
    rw [gatherRowsAt, mapM_rowsAt hin, rowsAt_eq_map hin]
  · rw [rowsAt_eq_map hids]
    exact h.map _

end Cuts

/-! ### An unserved view's rows -/

section Selected

variable {M : Type} [MaskOps M] {n : ℕ}

/-- The rows of a run or of some ids. -/
def SelectedRows.toList : SelectedRows → List RowId
  | .run run => run.toList
  | .ids ids => ids

theorem listing_asRows (hn : n ≤ usizeMax) {s : RowSelection} (hs : s.Within n) :
    s.listing n = SelectedRows.toList (s.asRows n) := by
  cases hrows : s.asRows n with
  | run run =>
    rw [RowSelection.listing, (asRows_run hn hs hrows).2, RowRange.sort_rows]
    rfl
  | ids ids =>
    obtain ⟨hwithin, hlist⟩ := asRows_ids hs hrows
    rw [RowSelection.listing, hlist, hwithin.sort]
    rfl

/-- Windows of a selection's live ids. -/
theorem liveIdWindows_spec (hn : n ≤ usizeMax) {s : RowSelection} (hs : s.Within n)
    (deleted : Option M) {batchRows : ℕ} (hbatch : 0 < batchRows) :
    ∃ windows, liveIdWindows s deleted n batchRows = some windows ∧
      Chunked batchRows (s.liveListing deleted n) windows := by
  have hlisting := listing_asRows hn hs
  rw [liveIdWindows.eq_def, RowSelection.liveListing, hlisting]
  cases hrows : s.asRows n with
  | run run => exact ⟨_, rfl, chunked_chunks hbatch _⟩
  | ids ids =>
    cases deleted with
    | some d => exact ⟨_, rfl, chunked_chunks hbatch _⟩
    | none =>
      have hlen : ids.length ≤ usizeMax := (asRows_ids hs hrows).1.length_le.trans hn
      obtain ⟨windows, hwindows, hchunked⟩ := idWindows_spec hlen hbatch
      refine ⟨windows, hwindows, ?_⟩
      rw [filter_live_none]
      exact hchunked

end Selected

/-! ### What the base reads give -/

section Specs

variable {ox : Oxrdf} {V M : Type} [LinearOrder V] [TermColumn V] [Inhabited V] [MaskOps M]
  [LawfulMask M] {fl : FastLanes} {finish : Finish} {store : VortexRdfStore ox V M}
  {ids tailIds : List RowId}

omit [LawfulMask M] in
/-- A view that is read with no plan selects its rows exactly. -/
theorem QuadsSource.Reads.exact_selection {quads : QuadsSource V M} (h : quads.Reads fl ids)
    (hserve : quads.memory.serve = none) (hread : quads.isPendingWithoutPlan = false) :
    ∃ s, quads.selection = .exact s ∧ s.Within quads.baseLen ∧
      s.liveListing quads.deleted quads.baseLen = ids := by
  have hyields := h.plain hserve
  rw [QuadsSource.isPendingWithoutPlan, hserve, Option.isNone_none, Bool.and_true,
    Bool.not_eq_false'] at hread
  cases hselection : quads.selection with
  | exact s =>
    rw [hselection] at hyields
    exact ⟨s, rfl, hyields.1, hyields.2.symm⟩
  | pending lazy matched =>
    rw [hselection] at hread
    cases hread
  | residual compare =>
    rw [hselection] at hread
    cases hread

omit [LawfulMask M] in
theorem QuadsSource.Reads.lt_length {quads : QuadsSource V M} (h : quads.Reads fl ids) :
    ∀ id ∈ ids, id < quads.memory.base.rows.length := fun _ hid => h.inBase hid

omit [LawfulMask M] in
theorem VortexRdfStore.Shows.length_le (h : store.Shows fl finish ids tailIds) :
    ids.length ≤ usizeMax := by
  have hlen := h.base.reads.yields.within.length_le
  rw [(inOrder_perm ids).length_eq] at hlen
  exact hlen.trans h.sound.memory.base.small

/-- The live base rows in base order. -/
theorem inMemoryBaseRows_spec (h : store.Shows fl finish ids tailIds)
    (hread : store.quads.isPendingWithoutPlan = false) :
    store.inMemoryBaseRows fl = some (rowsAt store.quads.memory.base.rows (inOrder ids)) := by
  have hsmall : store.quads.memory.base.rows.length ≤ usizeMax := h.sound.memory.base.small
  have hgather : ∀ s : RowSelection, s.Within store.quads.baseLen →
      s.liveListing store.quads.deleted store.quads.baseLen = inOrder ids →
      gatherLive store.quads.memory.base.rows s store.quads.deleted store.quads.memory.base.probed =
        some (rowsAt store.quads.memory.base.rows (inOrder ids)) := fun s hs hlist => by
    rw [← hlist]
    exact gatherLive_eq hsmall hs h.sound.tombstones _
  rw [VortexRdfStore.inMemoryBaseRows]
  cases hserve : store.quads.memory.serve with
  | some plan =>
    obtain ⟨s, hs, hwithin, hlist⟩ := h.base.reads.yields.materialized_spec
    dsimp only
    rw [hs, Option.bind_some, hgather s hwithin hlist]
  | none =>
    obtain ⟨s, hs, hwithin, hlist⟩ := h.base.reads.exact_selection hserve hread
    rw [hs]
    exact hgather s hwithin (hlist.trans (h.base.reads.inOrder_eq hserve).symm)

/-- How an unserved view's rows are cut, against the rows it shows. -/
def MemoryRows.Of (batchRows : ℕ) (n : ℕ) (ids : List RowId) : MemoryRows → Prop
  | .run part => part.Within n ∧ ids = part.toList
  | .windows cut => Chunked batchRows ids cut

theorem memoryRows_spec (h : store.Shows fl finish ids tailIds)
    (hserve : store.quads.memory.serve = none) {batchRows : ℕ} (hbatch : 0 < batchRows) :
    ∃ rows, store.memoryRows fl batchRows = some rows ∧
      rows.Of batchRows store.quads.baseLen ids := by
  have hsmall : store.quads.baseLen ≤ usizeMax := h.sound.memory.base.small
  obtain ⟨s, hs, hwithin, hlist⟩ := (h.base.reads.plain hserve).materialized_spec
  have hwindows : ∃ rows, (liveIdWindows s store.quads.deleted store.quads.baseLen batchRows).map
      MemoryRows.windows = some rows ∧ rows.Of batchRows store.quads.baseLen ids := by
    obtain ⟨windows, hcut, hchunked⟩ := liveIdWindows_spec hsmall hwithin store.quads.deleted hbatch
    rw [hlist] at hchunked
    exact ⟨.windows windows, by rw [hcut]; rfl, hchunked⟩
  rw [VortexRdfStore.memoryRows.eq_def, hs, Option.bind_some]
  cases hdeleted : store.quads.deleted with
  | some d =>
    rw [hdeleted] at hwindows
    exact hwindows
  | none =>
    cases hrows : s.asRows store.quads.baseLen with
    | ids ids =>
      rw [hdeleted] at hwindows
      exact hwindows
    | run run =>
      refine ⟨.run run, rfl, (asRows_run hsmall hwithin hrows).1, ?_⟩
      rw [← hlist, hdeleted, liveListing_none, listing_asRows hsmall hwithin, hrows]
      rfl

/-- The chunks of an unserved view's base rows. -/
theorem baseChunks_spec (h : store.Shows fl finish ids tailIds)
    (hserve : store.quads.memory.serve = none) (hread : store.quads.isPendingWithoutPlan = false)
    {batchRows : ℕ} (hbatch : 0 < batchRows) : ∃ chunks, store.baseChunks fl batchRows = some chunks ∧
      Chunked batchRows (rowsAt store.quads.memory.base.rows ids) chunks := by
  obtain ⟨rows, hrows, hof⟩ := memoryRows_spec h hserve hbatch
  rw [VortexRdfStore.baseChunks, hrows, Option.bind_some]
  cases rows with
  | windows windows => exact gatherWindows_spec h.base.reads.lt_length hof
  | run run =>
    dsimp only
    rw [inMemoryBaseRows_spec h hread, Option.bind_some, h.base.reads.inOrder_eq hserve]
    refine rechunk_spec ?_ hbatch
    rw [length_rowsAt h.base.reads.lt_length]
    exact h.length_le

/-- The tail's live rows. -/
def VortexRdfStore.shownTailRows (store : VortexRdfStore ox V M) (tailIds : List RowId) :
    List RawQuad :=
  match store.tail with
  | some tail => rowsAt tail.rows tailIds
  | none => []

theorem tailRows_spec (h : store.Shows fl finish ids tailIds) :
    store.tailRows = some (store.shownTailRows tailIds) := by
  rw [VortexRdfStore.tailRows, VortexRdfStore.shownTailRows, ← h.tail]
  cases htail : store.tail with
  | none => rfl
  | some tail => exact (h.sound.kept tail htail).liveRows_eq

theorem tailChunks_spec (h : store.Shows fl finish ids tailIds) {batchRows : ℕ}
    (hbatch : 0 < batchRows) : ∃ chunks, store.tailChunks batchRows = some chunks ∧
      Chunked batchRows (store.shownTailRows tailIds) chunks := by
  rw [VortexRdfStore.tailChunks, tailRows_spec h, Option.bind_some]
  refine rechunk_spec ?_ hbatch
  rw [VortexRdfStore.shownTailRows]
  cases htail : store.tail with
  | none => exact Nat.zero_le _
  | some tail =>
    have hkept := h.sound.kept tail htail
    have hids : tailIds = tail.selection.liveListing tail.deleted tail.rows.length := by
      rw [← h.tail, htail]
      rfl
    have hin : ∀ id ∈ tailIds, id < tail.rows.length := by
      rw [hids]
      exact fun id hid => tailListing_lt hkept hid
    have hlen : (rowsAt tail.rows tailIds).length = tailIds.length := length_rowsAt hin
    refine hlen.le.trans ?_
    rw [hids]
    exact (List.length_filter_le _ _).trans
      ((listing_idsWithin hkept.selected).length_le.trans hkept.fits)

/-! ### What the reads of a served view give -/

omit [TermColumn V] [MaskOps M] [LawfulMask M] in
/-- The base rows at the ids of some places are the copy's rows there. -/
theorem rowsAt_ridAt {rows : List (Row V)} {family : CopyFamily} {places : List ℕ}
    (h : ∀ i ∈ places, i < rows.length) :
    rowsAt rows (places.map ((IndexChild.copy family).ridAt rows)) =
      places.map ((IndexChild.copy family).rowAt rows) := by
  rw [rowsAt, List.filterMap_map, ← List.filterMap_eq_map]
  exact List.filterMap_congr fun i hi => getElem?_ridAt (h i hi)

/-- What a served view's plan reads: the rows the view shows, whole and a chunk at a time. -/
structure PlanReads (fl : FastLanes) (store : VortexRdfStore ox V M) (plan : InMemoryServePlan V)
    (ids : List RowId) : Prop where
  rows : plan.readRows fl (store.quads.memory.base.served plan.component) store.quads.deleted =
    some (rowsAt store.quads.memory.base.rows ids)
  chunks : ∀ chunkRows, 0 < chunkRows → ∃ chunks,
    plan.decodeWindows fl (store.quads.memory.base.served plan.component) store.quads.deleted
      chunkRows = some chunks ∧
    chunks.flatten = rowsAt store.quads.memory.base.rows ids ∧
    ∀ chunk ∈ chunks, chunk.length ≤ chunkRows

/-- A plan decodes no more rows at once than it is asked for. -/
theorem decodeWindows_capped {rows : List (Row V)} {family : CopyFamily} {places : List ℕ}
    {plan : InMemoryServePlan V} {deleted : Option M} {base : ServedBase V}
    (h : plan.Covers fl rows family deleted places) (hsmall : rows.length ≤ usizeMax)
    (hbase : base.Sound fl rows plan.component) {chunkRows : ℕ} (hchunk : 0 < chunkRows)
    {chunks : List (List (Row V))}
    (hchunks : plan.decodeWindows fl base deleted chunkRows = some chunks) :
    ∀ chunk ∈ chunks, chunk.length ≤ chunkRows := by
  have hspan : plan.spanLen ≤ usizeMax := h.spanLen_le.trans hsmall
  rw [InMemoryServePlan.decodeWindows] at hchunks
  by_cases hfits : plan.spanLen ≤ chunkRows
  · simp only [if_pos hfits, h.readRows_spec hsmall hbase] at hchunks
    rw [mapM_some fun _ _ => rfl] at hchunks
    obtain rfl := Option.some.inj hchunks
    intro chunk hmem
    obtain ⟨window, -, rfl⟩ := List.mem_map.mp hmem
    rw [List.length_map, h.places_eq]
    exact (List.length_filter_le _ _).trans (h.length_covered.le.trans hfits)
  · simp only [if_neg hfits] at hchunks
    have hread : ∀ window ∈ batchRanges plan.spanLen chunkRows, window.Within plan.spanLen := by
      intro window hwindow
      obtain ⟨hlt, hstop, -⟩ := mem_batchRanges hspan hchunk hwindow
      exact ⟨hlt.le, hstop⟩
    rw [mapM_some fun window hwindow => h.chunk_spec hsmall (hread window hwindow)] at hchunks
    obtain rfl := Option.some.inj hchunks
    intro chunk hmem
    obtain ⟨window, hwindow, rfl⟩ := List.mem_map.mp hmem
    obtain ⟨-, -, hle, -⟩ := mem_batchRanges hspan hchunk hwindow
    rw [List.length_map]
    exact (List.length_filter_le _ _).trans ((List.length_take_le _ _).trans hle)

theorem planReads_spec (h : store.Shows fl finish ids tailIds) {plan : InMemoryServePlan V}
    (hserve : store.quads.memory.serve = some plan) : PlanReads fl store plan ids := by
  have hsmall : store.quads.memory.base.rows.length ≤ usizeMax := h.sound.memory.base.small
  obtain ⟨family, places, view, hview, rfl, hdeleted, hnames, rfl⟩ := h.base.reads.served hserve
  have hserved := h.sound.memory.base.served_sound (h.sound.memory.rids _ _ hnames.covers.built)
  obtain ⟨hrows, hchunks, -⟩ := hnames.reads hsmall hserved
  have hentries : (places.map (entryAt family store.quads.memory.base.rows)).map Prod.fst =
      rowsAt store.quads.memory.base.rows
        (places.map ((IndexChild.copy family).ridAt store.quads.memory.base.rows)) := by
    rw [map_fst_entryAt, rowsAt_ridAt hnames.covers.places_lt]
  rw [hdeleted, hentries] at hrows hchunks
  refine ⟨hrows, fun chunkRows hchunk => ?_⟩
  obtain ⟨chunks, hdecoded, hflatten⟩ := hchunks chunkRows hchunk
  have hcovers := hnames.covers
  rw [hdeleted] at hcovers
  exact ⟨chunks, hdecoded, hflatten, decodeWindows_capped hcovers hsmall hserved hchunk hdecoded⟩

/-! ### What is decoded -/

/-- The base rows a view decodes at once. -/
theorem decodedRows_spec (h : store.Shows fl finish ids tailIds)
    (hread : store.quads.isPendingWithoutPlan = false) :
    store.decodedRows fl = some (rowsAt store.quads.memory.base.rows ids) := by
  rw [VortexRdfStore.decodedRows]
  cases hserve : store.quads.memory.serve with
  | none =>
    dsimp only
    rw [inMemoryBaseRows_spec h hread, h.base.reads.inOrder_eq hserve]
  | some plan => exact (planReads_spec h hserve).rows

/-- The base rows a view decodes a chunk at a time. -/
theorem decodedWindows_spec (h : store.Shows fl finish ids tailIds)
    (hread : store.quads.isPendingWithoutPlan = false) {chunkRows : ℕ} (hchunk : 0 < chunkRows) :
    ∃ chunks, store.decodedWindows fl chunkRows = some chunks ∧
      chunks.flatten = rowsAt store.quads.memory.base.rows ids ∧
      ∀ chunk ∈ chunks, chunk.length ≤ chunkRows := by
  rw [VortexRdfStore.decodedWindows]
  cases hserve : store.quads.memory.serve with
  | none =>
    obtain ⟨chunks, hchunks, hchunked⟩ := baseChunks_spec h hserve hread hchunk
    exact ⟨chunks, hchunks, hchunked.flatten, hchunked.capped⟩
  | some plan => exact (planReads_spec h hserve).chunks chunkRows hchunk

/-- What the rows a view shows decode into. -/
def VortexRdfStore.decoded {β : Type} (store : VortexRdfStore ox V M) (into : ChunkDecode V β)
    (ids tailIds : List RowId) : List β :=
  (rowsAt store.quads.memory.base.rows ids).map into.decode ++
    (store.shownTailRows tailIds).map into.fromStrings

/-- **Decoded reads**: one chunk or a stream of them, a view decodes the rows it shows, in the
order they read in, the appended ones last. -/
theorem quads_agree {β : Type} (into : ChunkDecode V β) (h : store.Shows fl finish ids tailIds)
    (hread : store.quads.isPendingWithoutPlan = false) {chunkRows : ℕ} (hchunk : 0 < chunkRows) :
    store.inMemoryChunk fl into = some (store.decoded into ids tailIds) ∧
    ∃ chunks, store.inMemoryChunks fl into chunkRows = some chunks ∧
      chunks.flatten = store.decoded into ids tailIds ∧
      ∀ chunk ∈ chunks, chunk.length ≤ chunkRows := by
  refine ⟨?_, ?_⟩
  · rw [VortexRdfStore.inMemoryChunk, decodedRows_spec h hread, tailRows_spec h]
    rfl
  · obtain ⟨base, hbase, hflatten, hcapped⟩ := decodedWindows_spec h hread hchunk
    obtain ⟨tail, htail, hchunked⟩ := tailChunks_spec h hchunk
    refine ⟨_, by rw [VortexRdfStore.inMemoryChunks, hbase, htail]; rfl, ?_, fun chunk hmem => ?_⟩
    · rw [List.flatten_append, ← List.map_flatten, ← List.map_flatten, hflatten, hchunked.flatten]
      rfl
    · rcases List.mem_append.mp hmem with hmem | hmem <;>
        obtain ⟨rows, hrows, rfl⟩ := List.mem_map.mp hmem <;>
        rw [List.length_map]
      · exact hcapped rows hrows
      · exact hchunked.capped rows hrows

end Specs

/-! ### Behind any run -/

section Runs

variable {ox : Oxrdf} {V M : Type} [LinearOrder V] [TermColumn V] {store view : VortexRdfStore ox V M}

namespace VortexRdfStore

/-- The quad of a row of the base, with its codes. -/
def shownRow (store : VortexRdfStore ox V M) (row : Row V) : ShownQuad where
  terms role := store.layout.spelling (roleValue row role)
  codes role := unsignedValue (TermColumn.scalar (roleValue row role))

/-- The quad of an appended row. -/
def shownRaw (row : RawQuad) : ShownQuad := ⟨spelledRaw row, fun _ => none⟩

/-- A read of a view's quads. -/
def shown (store : VortexRdfStore ox V M) : ChunkDecode V ShownQuad := ⟨store.shownRow, shownRaw⟩

end VortexRdfStore

theorem map_rowsAt {α β : Type} {base : List α} {ids : List RowId} (h : ∀ id ∈ ids, id < base.length)
    {f : α → β} {g : RowId → β} (hfg : ∀ id row, base[id]? = some row → f row = g id) :
    (rowsAt base ids).map f = ids.map g := by
  rw [rowsAt, List.map_filterMap, ← List.filterMap_eq_map]
  refine List.filterMap_congr fun id hid => ?_
  have hrow := List.getElem?_eq_getElem (h id hid)
  rw [hrow, Option.map_some, hfg id _ hrow, Function.comp_apply]

theorem map_shownRow {ids : List RowId} (h : ∀ id ∈ ids, id < store.quads.memory.base.rows.length) :
    (rowsAt store.quads.memory.base.rows ids).map store.shownRow = ids.map store.shownBase := by
  refine map_rowsAt h fun id row hrow => congrArg₂ ShownQuad.mk ?_ ?_
  · funext role
    rw [VortexRdfStore.baseQuad, hrow]
    rfl
  · funext role
    rw [hrow]
    rfl

theorem map_shownRaw {tail : Tail M .default} (htail : store.tail = some tail) {ids : List RowId}
    (h : ∀ id ∈ ids, id < tail.rows.length) :
    (store.shownTailRows ids).map VortexRdfStore.shownRaw = ids.map store.shownTail := by
  rw [VortexRdfStore.shownTailRows, htail]
  refine map_rowsAt h fun id row hrow => congrArg₂ ShownQuad.mk ?_ rfl
  funext role
  rw [VortexRdfStore.tailQuad, htail, Option.bind_some]
  exact (congrArg (Option.bind · fun row => spelledRaw row role) hrow).symm

theorem exists_of_mem_mapM {α β : Type} {f : α → Option β} {l : List α} {out : List β}
    (h : l.mapM f = some out) {b : β} (hb : b ∈ out) : ∃ a ∈ l, f a = some b := by
  induction l generalizing out with
  | nil =>
    obtain rfl := Option.some.inj h
    cases hb
  | cons a l ih =>
    rw [List.mapM_cons] at h
    obtain ⟨first, hfirst, h⟩ := Option.bind_eq_some_iff.mp h
    obtain ⟨rest, hrest, h⟩ := Option.bind_eq_some_iff.mp h
    obtain rfl := Option.some.inj h
    rcases List.mem_cons.mp hb with rfl | hmem
    · exact ⟨a, List.mem_cons_self, hfirst⟩
    · obtain ⟨a', ha', hfound⟩ := ih hrest hmem
      exact ⟨a', List.mem_cons_of_mem a ha', hfound⟩

variable [Inhabited V] [MaskOps M] [LawfulMask M] {fl : FastLanes} {finish : Finish}
  {zonesEnabled : Bool} {shape : ArrayShape} {rows : Listing ShownQuad} {ids tailIds : List RowId}

omit [LawfulMask M] in
/-- The rows a view shows, as a read of its quads shows them. -/
theorem shown_eq (h : store.Shows fl finish ids tailIds) :
    (rowsAt store.quads.memory.base.rows ids).map store.shownRow = ids.map store.shownBase ∧
      (store.shownTailRows tailIds).map VortexRdfStore.shownRaw = tailIds.map store.shownTail := by
  refine ⟨map_shownRow h.base.reads.lt_length, ?_⟩
  obtain rfl := h.tail
  cases htail : store.tail with
  | none =>
    rw [VortexRdfStore.shownTailRows, htail]
    rfl
  | some tail => exact map_shownRaw htail fun id hid => tailListing_lt (h.sound.kept tail htail) hid

omit [Inhabited V] [LawfulMask M] in
/-- The pieces of a view are read as it is. -/
theorem partitions_read (hread : store.quads.isPendingWithoutPlan = false) {n : ℕ}
    {parts : List (VortexRdfStore ox V M)} (h : store.partitions fl n = some parts)
    (hview : view ∈ parts) : view.quads.isPendingWithoutPlan = false := by
  have hbase : ∀ {parts : List (VortexRdfStore ox V M)}, store.basePartitions fl n = some parts →
      view ∈ parts → view.quads.isPendingWithoutPlan = false := by
    intro parts h hview
    obtain ⟨selection, -, h⟩ := Option.bind_eq_some_iff.mp h
    obtain ⟨pieces, -, rfl⟩ := Option.map_eq_some_iff.mp h
    split_ifs at hview
    · obtain rfl := List.mem_singleton.mp hview
      exact hread
    · obtain ⟨piece, -, rfl⟩ := List.mem_map.mp hview
      rfl
  rw [VortexRdfStore.partitions] at h
  split_ifs at h
  · obtain rfl := Option.some.inj h
    obtain rfl := List.mem_singleton.mp hview
    exact hread
  · cases hserved : store.quads.served with
    | none =>
      rw [hserved] at h
      exact hbase h hview
    | some served =>
      rw [hserved] at h
      obtain ⟨live, -, h⟩ := Option.bind_eq_some_iff.mp h
      obtain ⟨cut, hcut, h⟩ := Option.bind_eq_some_iff.mp h
      cases cut with
      | none => exact hbase h hview
      | some views =>
        obtain rfl := Option.some.inj h
        rw [VortexRdfStore.servedPartitionsOf] at hcut
        dsimp only at hcut
        split_ifs at hcut
        · cases Option.some.inj hcut
        · obtain ⟨found, hfound, hviews⟩ := Option.map_eq_some_iff.mp hcut
          obtain rfl := Option.some.inj hviews
          obtain ⟨piece, -, hpiece⟩ := exists_of_mem_mapM hfound hview
          obtain ⟨narrowed, -, rfl⟩ := Option.map_eq_some_iff.mp hpiece
          exact store.quads.narrowedTo_served narrowed

/-- A narrowing of a view that can be read can be read. -/
theorem derives_read {step : ViewStep} (h : store.Denotes fl finish rows)
    (hread : store.quads.isPendingWithoutPlan = false)
    (hstep : Derives fl zonesEnabled finish shape store step view) :
    view.quads.isPendingWithoutPlan = false := by
  obtain ⟨ids, tailIds, hshows, hfits, rfl⟩ := h
  cases hstep with
  | @matching _ pattern hview =>
    obtain ⟨found, -, hfound, -, -, -, hrows⟩ :=
      matchPatternFor_spec hshows zonesEnabled shape pattern .rows
    obtain rfl := Except.ok.inj (Option.some.inj (hfound.symm.trans hview))
    exact hrows rfl
  | @keeping _ column keep hview =>
    obtain ⟨hrefused, hkept⟩ := keep_spec hshows column keep
    cases hcode : store.ensureCodeView "keep" with
    | error e => cases Option.some.inj ((hrefused e hcode).symm.trans hview)
    | ok =>
      obtain ⟨-, found, hfound, hrows⟩ := hkept hcode
      obtain rfl := Except.ok.inj (Option.some.inj (hfound.symm.trans hview))
      exact hrows.read
  | @windowing _ offset limit hview =>
    obtain ⟨found, hfound, -, -, hcut⟩ := window_spec hshows hfits offset limit
    obtain rfl := Option.some.inj (hfound.symm.trans hview)
    exact hcut
  | @partitioning _ n parts _ hparts hview => exact partitions_read hread hparts hview

/-- Behind a run of narrowings, the rows a view shows, and that it can be read. -/
theorem reads_run {steps : List ViewStep} (h : store.Denotes fl finish rows)
    (hread : store.quads.isPendingWithoutPlan = false)
    (hrun : Steps (Derives fl zonesEnabled finish shape) store steps view) :
    ∃ part, Steps (fun rows step part => ViewStep.Lists ox rows step part) rows steps part ∧
      SameData store view ∧ view.Denotes fl finish part ∧
      view.quads.isPendingWithoutPlan = false := by
  obtain ⟨part, hlists, hsame, hdenotes⟩ := runs_lists h hrun
  have hkept : (∃ part, view.Denotes fl finish part) ∧ view.quads.isPendingWithoutPlan = false := by
    refine hrun.keeps (I := fun view => (∃ part, VortexRdfStore.Denotes view fl finish part) ∧
      view.quads.isPendingWithoutPlan = false) ?_ ⟨⟨rows, h⟩, hread⟩
    rintro before step after ⟨⟨part, hpart⟩, hread⟩ hstep
    obtain ⟨-, part', -, hafter⟩ := derives_lists hpart hstep
    exact ⟨⟨part', hafter⟩, derives_read hpart hread hstep⟩
  exact ⟨part, hlists, hsame, hdenotes, hkept.2⟩

/-- **Decoded reads behind any run** of narrowings: at once, or a chunk at a time, the same
rows decode, in the order of the listing the run makes and the view denotes, no more than
`chunkRows` a chunk. -/
theorem quads_after_run {steps : List ViewStep} (h : store.Denotes fl finish rows)
    (hread : store.quads.isPendingWithoutPlan = false)
    (hrun : Steps (Derives fl zonesEnabled finish shape) store steps view) {chunkRows : ℕ}
    (hchunk : 0 < chunkRows) :
    (∀ {β : Type} (into : ChunkDecode V β), ∃ quads chunks, view.inMemoryChunk fl into = some quads ∧
      view.inMemoryChunks fl into chunkRows = some chunks ∧ chunks.flatten = quads ∧
      ∀ chunk ∈ chunks, chunk.length ≤ chunkRows) ∧
    ∃ part, Steps (fun rows step part => ViewStep.Lists ox rows step part) rows steps part ∧
      view.Denotes fl finish part ∧ view.inMemoryChunk fl view.shown = some part.read := by
  obtain ⟨part, hlists, -, hdenotes, hview⟩ := reads_run h hread hrun
  have hshown := hdenotes
  obtain ⟨ids, tailIds, hshows, -, rfl⟩ := hshown
  refine ⟨fun into => ?_, _, hlists, hdenotes, ?_⟩
  · obtain ⟨hwhole, chunks, hchunks, hflatten, hcapped⟩ := quads_agree into hshows hview hchunk
    exact ⟨_, chunks, hwhole, hchunks, hflatten, hcapped⟩
  · obtain ⟨hshownBase, hshownTail⟩ := shown_eq hshows
    rw [(quads_agree view.shown hshows hview hchunk).1, VortexRdfStore.decoded]
    exact congrArg some (congrArg₂ (· ++ ·) hshownBase hshownTail)

theorem quads_after_run_tailed : ∃ view, Steps (Derives .ofZeros true List.length allBound)
      ViewSample.tailed [.matching IndexSample.pattern, .windowing 0 1] view ∧
    (∀ {β : Type} (into : ChunkDecode TermCode β), ∃ quads chunks,
      view.inMemoryChunk .ofZeros into = some quads ∧
      view.inMemoryChunks .ofZeros into 2 = some chunks ∧ chunks.flatten = quads ∧
      ∀ chunk ∈ chunks, chunk.length ≤ 2) ∧
    ∃ part, Steps (fun rows step part => ViewStep.Lists ntriples rows step part) ViewSample.listing
        [.matching IndexSample.pattern, .windowing 0 1] part ∧
      view.Denotes .ofZeros List.length part ∧
      view.inMemoryChunk .ofZeros view.shown = some part.read := by
  obtain ⟨view, hrun⟩ := ViewSample.tailed_runs
  exact ⟨view, hrun, quads_after_run ViewSample.denotes rfl hrun (by decide)⟩

end Runs

end Views
