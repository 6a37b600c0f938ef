/-
Keeps of a view: its rows whose code in a column is in a set or a range.

A keep needs a view whose rows are addressed by code.  A view a plan serves is kept in its
index's order and stays served, where something reads the column's codes there; any other is
kept in base order, its exact selection narrowed.

* `VortexRdfStore.servedKeep`, `.keepInMemory`, `.keep`, `.keepMany` — the keeps;
* `VortexRdfStore.keepsRow` — whether a keep admits a base row;
* `keep_spec`, `keepMany_spec` — a keep refuses the view, or shows its rows it admits.
-/
import VortexRdf.ViewPartitions

namespace Views

open Ascending Buffers Builds Dictionary Indexes Masks MaskOps Terms
open EncodedSearch (FastLanes)
open Store hiding Row
open scoped Lexicographic

/-! ### Keeps -/

section Keeps

variable {ox : Oxrdf} {V M : Type} [LinearOrder V] [TermColumn V] [MaskOps M] (fl : FastLanes)

namespace VortexRdfStore

variable (store : VortexRdfStore ox V M)

/-- A keep of a view a plan serves, in its index's order; none for a view no plan serves, or
for a column nothing reads codes of. -/
def servedKeep (column : QuadColumn) (keep : Keep) : Option (Option (VortexRdfStore ox V M)) :=
  match store.quads.served with
  | none => some none
  | some view =>
    let rows := view.plan.spanLen
    if rows = 0 then some (some store.emptyView)
    else
      (view.admitted fl (store.quads.memory.base.served view.plan.component) column
        (keep.test rows)).bind fun kept =>
          match kept with
          | none => some none
          | some kept => (store.servedKept view kept).map some

/-- A keep of a view's exact selection, in base order. -/
def keepInMemory (column : QuadColumn) (keep : Keep) : Option (VortexRdfStore ox V M) :=
  (store.quads.selection.materialized fl M).bind fun selection =>
    if selection.isEmpty store.quads.baseLen then some store.emptyView
    else
      (Store.keepInMemory M fl store.quads.memory.base.kept selection column keep).map fun narrowed =>
        if narrowed.isEmpty store.quads.baseLen then store.emptyView
        else store.derived (store.quads.withSelection (.exact narrowed)) store.tail

/-- The view's rows whose code in a column a keep admits. -/
def keep (column : QuadColumn) (keep : Keep) : Attempt (VortexRdfStore ox V M) :=
  match store.ensureCodeView "keep" with
  | .error e => some (.error e)
  | .ok () =>
    if keep.isEmpty then some (.ok store.emptyView)
    else
      (store.servedKeep fl column keep).bind fun served =>
        match served with
        | some kept => some (.ok kept)
        | none => (store.keepInMemory fl column keep).map .ok

/-- The keeps of several columns, each over the one before. -/
def keepMany (store : VortexRdfStore ox V M) : List (QuadColumn × Keep) → Attempt (VortexRdfStore ox V M)
  | [] => some (.ok store)
  | (column, keep) :: keeps =>
    Attempt.andThen (store.keep fl column keep) fun view => view.keepMany keeps

/-- Whether a keep admits the code of a base row. -/
def keepsRow (column : QuadColumn) (keep : Keep) (id : RowId) : Bool :=
  store.quads.memory.base.rows[id]?.any fun row => keepHolds keep (roleValue row column)

/-- Whether some keeps admit a base row. -/
def keepsAll (keeps : List (QuadColumn × Keep)) (id : RowId) : Bool :=
  keeps.all fun kept => store.keepsRow kept.1 kept.2 id

end VortexRdfStore

end Keeps

/-! ### The rows kept -/

section Specs

variable {ox : Oxrdf} {V M : Type} [LinearOrder V] [TermColumn V] [Inhabited V] [MaskOps M]
  {fl : FastLanes} {finish : Finish} {store : VortexRdfStore ox V M} {ids tailIds : List RowId}

omit [Inhabited V] [MaskOps M] in
/-- A view addressed by code has the Dictionary layout, and no appended row. -/
theorem ensureCodeView_ok {operation : String} (h : store.ensureCodeView operation = .ok ()) :
    store.layout.strategy = .dictionary ∧ store.tailLen = 0 := by
  rw [VortexRdfStore.ensureCodeView] at h
  split_ifs at h with hlayout
  have hlayout := not_not.mp hlayout
  rw [VortexRdfStore.ensureNoDictionaryTail] at h
  split_ifs at h with htail
  exact ⟨hlayout, not_not.mp fun hlen => htail ⟨hlayout, hlen⟩⟩

omit [Inhabited V] in
/-- A view with no appended row shows none. -/
theorem tailListing_of_tailLen (h : store.Sound fl finish) (hnone : store.tailLen = 0) :
    tailListing store.tail = [] := by
  cases htail : store.tail with
  | none => rfl
  | some tail =>
    rw [VortexRdfStore.tailLen, htail] at hnone
    refine List.eq_nil_iff_forall_not_mem.mpr fun i hi => ?_
    have hlt := tailListing_lt (h.kept tail htail) hi
    exact absurd hlt (by rw [show tail.rows.length = 0 from hnone]; exact Nat.not_lt_zero i)

omit [Inhabited V] [MaskOps M] in
theorem SameData.tailLen {view : VortexRdfStore ox V M} (h : SameData store view) :
    view.tailLen = store.tailLen := by
  have hrows := congrArg (Option.map fun data => data.1.length) h.tail
  rw [Option.map_map, Option.map_map] at hrows
  exact congrArg (Option.getD · 0) hrows

omit [Inhabited V] [MaskOps M] in
/-- Views of the same data are addressed by code alike. -/
theorem SameData.ensureCodeView {view : VortexRdfStore ox V M} (h : SameData store view)
    (operation : String) : view.ensureCodeView operation = store.ensureCodeView operation := by
  rw [VortexRdfStore.ensureCodeView, VortexRdfStore.ensureCodeView,
    VortexRdfStore.ensureNoDictionaryTail, VortexRdfStore.ensureNoDictionaryTail, h.layout, h.tailLen]

omit [Inhabited V] [MaskOps M] in
theorem SameData.keepsRow {view : VortexRdfStore ox V M} (h : SameData store view) (column : QuadColumn)
    (keep : Keep) : view.keepsRow column keep = store.keepsRow column keep := by
  funext id
  rw [VortexRdfStore.keepsRow, VortexRdfStore.keepsRow, h.base]

omit [Inhabited V] [MaskOps M] in
/-- A keep that admits no code keeps no row. -/
theorem keepsRow_of_isEmpty {keep : Keep} (h : keep.isEmpty = true) (column : QuadColumn) (id : RowId) :
    store.keepsRow column keep id = false := by
  rw [VortexRdfStore.keepsRow]
  cases store.quads.memory.base.rows[id]? with
  | none => rfl
  | some row =>
    rw [Option.any_some, keepHolds]
    cases unsignedValue (TermColumn.scalar (roleValue row column)) with
    | none => rfl
    | some code =>
      rw [Option.any_some]
      exact admits_of_isEmpty h code

omit [MaskOps M] in
/-- The base row of a place is kept where the copy's row is. -/
theorem keepsRow_ridAt {family : CopyFamily} {i : ℕ} (hi : i < store.quads.memory.base.rows.length)
    (column : QuadColumn) (keep : Keep) :
    store.keepsRow column keep ((IndexChild.copy family).ridAt store.quads.memory.base.rows i) =
      keepHolds keep (roleValue ((IndexChild.copy family).rowAt store.quads.memory.base.rows i)
        column) := by
  rw [VortexRdfStore.keepsRow, getElem?_ridAt hi, Option.any_some]

/-- What a keep leaves of a view: the base rows it admits, over the same data, read off what
is built. -/
structure RowsKept (fl : FastLanes) (finish : Finish) (store : VortexRdfStore ox V M)
    (ids : List RowId) (p : RowId → Bool) (view : VortexRdfStore ox V M) : Prop where
  same : SameData store view
  shows : ∃ ids', view.Shows fl finish ids' [] ∧ inOrder ids' = (inOrder ids).filter p
  read : view.quads.isPendingWithoutPlan = false

/-- The empty view, where a keep admits no row. -/
theorem RowsKept.nothing (h : store.Sound fl finish) {p : RowId → Bool}
    (hnone : (inOrder ids).filter p = []) : RowsKept fl finish store ids p store.emptyView where
  same := h.emptyView.2
  shows := ⟨[], h.emptyView.1, by rw [hnone]; exact (inOrder_perm []).eq_nil⟩
  read := rfl

/-- A keep of a view a plan serves keeps its rows in its index's order. -/
theorem servedKeep_spec (h : store.Shows fl finish ids []) (hnone : store.tailLen = 0) {plan : InMemoryServePlan V}
    (hserve : store.quads.memory.serve = some plan) (column : QuadColumn) (keep : Keep) :
    ∃ served, store.servedKeep fl column keep = some served ∧
      ∀ view, served = some view →
        RowsKept fl finish store ids (store.keepsRow column keep) view := by
  obtain ⟨family, places, view, hview, rfl, hdeleted, hnames, rfl⟩ := h.base.reads.served hserve
  have hnodup := h.base.reads.nodup
  have hfilter : (inOrder (places.map ((IndexChild.copy family).ridAt
      store.quads.memory.base.rows))).filter (store.keepsRow column keep) =
        inOrder ((places.filter fun i => keepHolds keep (roleValue
          ((IndexChild.copy family).rowAt store.quads.memory.base.rows i) column)).map
            ((IndexChild.copy family).ridAt store.quads.memory.base.rows)) := by
    rw [← inOrder_filter hnodup, List.filter_map]
    refine congrArg inOrder (congrArg (List.map _) (List.filter_congr fun i hi => ?_))
    exact keepsRow_ridAt (hnames.covers.places_lt i hi) column keep
  rw [VortexRdfStore.servedKeep, hview]
  dsimp only
  split_ifs with hzero
  · refine ⟨_, rfl, fun found hfound => ?_⟩
    obtain rfl := Option.some.inj hfound
    have hplaces : places = [] := by
      have hcovered := hnames.covers.length_covered
      rw [hzero, List.length_eq_zero_iff] at hcovered
      rw [hnames.covers.places_eq, hcovered]
      rfl
    refine .nothing h.sound ?_
    rw [hfilter, hplaces]
    exact (inOrder_perm []).eq_nil
  · have hserved := h.sound.memory.base.served_sound (h.sound.memory.rids _ _ hnames.covers.built)
    rcases hnames.admitted_spec hserved column keep view.plan.spanLen with ⟨hunread, -⟩ | hkept
    · rw [hunread]
      exact ⟨none, rfl, fun _ hfound => (Option.some_ne_none _ hfound.symm).elim⟩
    · rw [hkept, Option.bind_some]
      obtain ⟨kept, hspec, hsound, hsame, hshows, hread⟩ := servedKept_shows h.sound hnames hdeleted
        (h.base.declared view.plan hserve) fun i => keepHolds keep (roleValue
          ((IndexChild.copy family).rowAt store.quads.memory.base.rows i) column)
      dsimp only
      rw [hspec, Option.map_some]
      refine ⟨_, rfl, fun found hfound => ?_⟩
      obtain rfl := Option.some.inj hfound
      have htail : tailListing kept.tail = [] :=
        tailListing_of_tailLen hsound (hsame.tailLen.trans hnone)
      exact ⟨hsame, ⟨_, ⟨hsound, hshows, htail⟩, hfilter.symm⟩, hread⟩

variable [LawfulMask M]

/-- A keep in base order keeps the rows its codes admit. -/
theorem keepInMemory_spec (h : store.Shows fl finish ids [])
    (hcodes : store.layout.strategy = .dictionary) (column : QuadColumn) (keep : Keep) :
    ∃ view, store.keepInMemory fl column keep = some view ∧
      RowsKept fl finish store ids (store.keepsRow column keep) view := by
  have hsmall : store.quads.baseLen ≤ usizeMax := h.sound.memory.base.small
  have hsound : store.quads.memory.base.Sound fl .dictionary := hcodes ▸ h.sound.memory.base
  obtain ⟨selection, hselection, hwithin, hlisting⟩ := h.base.reads.yields.materialized_spec
  have hrowless : ∀ s : RowSelection, s.Within store.quads.baseLen →
      s.isEmpty store.quads.baseLen = true →
        s.liveListing store.quads.deleted store.quads.baseLen = [] := by
    intro s hs hempty
    have hrows : s.rows store.quads.baseLen = ∅ := (@rowless_iff store.quads.memory.base.kept hsmall s
      hs).mp hempty
    rw [RowSelection.liveListing, RowSelection.listing, hrows, Finset.sort_empty]
    rfl
  rw [VortexRdfStore.keepInMemory, hselection, Option.bind_some]
  split_ifs with hempty
  · refine ⟨_, rfl, .nothing h.sound ?_⟩
    rw [← hlisting, hrowless selection hwithin hempty]
    rfl
  · obtain ⟨narrowed, hnarrowed, hnarrow, hkept⟩ :=
      keepInMemory_selects M hsound.kept_sound hwithin column keep
    have hlists : narrowed.listing store.quads.baseLen =
        (selection.listing store.quads.baseLen).filter (store.keepsRow column keep) := by
      refine listing_filter hwithin hnarrow fun row => ?_
      have hmem : row ∈ narrowed.rows store.quads.baseLen ↔
          row ∈ keptRows store.quads.memory.base.kept selection column keep := by
        rw [← hkept]
        rfl
      rw [hmem, keptRows, Finset.mem_filter]
      refine and_congr_right fun hrow => ?_
      have hlt : row < store.quads.memory.base.rows.length :=
        (listing_idsWithin hwithin).inBase row ((Finset.mem_sort _).mpr hrow)
      rw [VortexRdfStore.keepsRow, List.getElem?_eq_getElem hlt, Option.any_some,
        hsound.keepHolds_eq (List.getElem?_eq_getElem hlt)]
    have hlive : narrowed.liveListing store.quads.deleted store.quads.baseLen =
        (inOrder ids).filter (store.keepsRow column keep) := by
      rw [RowSelection.liveListing, hlists, List.filter_filter, ← hlisting, RowSelection.liveListing,
        List.filter_filter]
      exact List.filter_congr fun row _ => Bool.and_comm _ _
    rw [hnarrowed, Option.map_some]
    refine ⟨_, rfl, ?_⟩
    split_ifs with hnone
    · exact .nothing h.sound (hlive.symm.trans (hrowless narrowed hnarrow hnone))
    · obtain ⟨hcut, hsame⟩ := h.sound.cut (.exact hnarrow) (.whole h)
      refine ⟨hsame, ⟨_, hcut, ?_⟩, rfl⟩
      rw [hlive, ← inOrder_filter h.base.reads.nodup]
      exact inOrder_of_sorted (inOrder_sorted (h.base.reads.nodup.filter _))

/-- **A keep** of a view not addressed by code is refused; of any other it leaves the rows whose
codes it admits. -/
theorem keep_spec (h : store.Shows fl finish ids tailIds) (column : QuadColumn) (keep : Keep) :
    (∀ e, store.ensureCodeView "keep" = .error e → store.keep fl column keep = some (.error e)) ∧
    (store.ensureCodeView "keep" = .ok () → tailIds = [] ∧
      ∃ view, store.keep fl column keep = some (.ok view) ∧
        RowsKept fl finish store ids (store.keepsRow column keep) view) := by
  refine ⟨fun e he => by rw [VortexRdfStore.keep, he], fun hok => ?_⟩
  obtain ⟨hcodes, hnone⟩ := ensureCodeView_ok hok
  obtain rfl : tailIds = [] := h.tail.symm.trans (tailListing_of_tailLen h.sound hnone)
  refine ⟨rfl, ?_⟩
  rw [VortexRdfStore.keep, hok]
  dsimp only
  split_ifs with hempty
  · exact ⟨_, rfl, .nothing h.sound (List.filter_eq_nil_iff.mpr fun id _ => by
      rw [keepsRow_of_isEmpty hempty]; exact Bool.false_ne_true)⟩
  · obtain ⟨kept, hkept, hrows⟩ := keepInMemory_spec h hcodes column keep
    cases hserve : store.quads.memory.serve with
    | none =>
      have hserved : store.servedKeep fl column keep = some none := by
        rw [VortexRdfStore.servedKeep, QuadsSource.served, hserve]
      rw [hserved, Option.bind_some]
      dsimp only
      rw [hkept, Option.map_some]
      exact ⟨kept, rfl, hrows⟩
    | some plan =>
      obtain ⟨served, hserved, hspec⟩ := servedKeep_spec h hnone hserve column keep
      rw [hserved, Option.bind_some]
      cases served with
      | some view => exact ⟨view, rfl, hspec view rfl⟩
      | none =>
        dsimp only
        rw [hkept, Option.map_some]
        exact ⟨kept, rfl, hrows⟩

/-- Keeps in turn leave the rows that all of them admit. -/
theorem keepMany_spec : ∀ (keeps : List (QuadColumn × Keep)) {store : VortexRdfStore ox V M}
    {ids : List RowId}, store.Shows fl finish ids [] → store.ensureCodeView "keep" = .ok () →
      store.quads.isPendingWithoutPlan = false ∨ keeps ≠ [] →
      ∃ view, store.keepMany fl keeps = some (.ok view) ∧
        RowsKept fl finish store ids (store.keepsAll keeps) view
  | [], store, ids, h, _, hread => by
    refine ⟨store, rfl, .refl store, ⟨ids, h, ?_⟩, hread.resolve_right fun hne => hne rfl⟩
    exact (List.filter_eq_self.mpr fun _ _ => rfl).symm
  | (column, keep) :: keeps, store, ids, h, hok, _ => by
    obtain ⟨view, hview, hkept⟩ := ((keep_spec h column keep).2 hok).2
    obtain ⟨ids', hshows, hids⟩ := hkept.shows
    obtain ⟨last, hlast, hrest⟩ := keepMany_spec keeps hshows
      ((hkept.same.ensureCodeView "keep").trans hok) (.inl hkept.read)
    obtain ⟨lastIds, hlastShows, hlastIds⟩ := hrest.shows
    refine ⟨last, ?_, hkept.same.trans hrest.same, ⟨lastIds, hlastShows, ?_⟩, hrest.read⟩
    · rw [VortexRdfStore.keepMany, hview, Attempt.andThen_ok, hlast]
    · rw [hlastIds, hids, List.filter_filter]
      refine List.filter_congr fun id _ => ?_
      rw [VortexRdfStore.keepsAll, VortexRdfStore.keepsAll, List.all_cons, Bool.and_comm]
      simp only [hkept.same.keepsRow]

end Specs

end Views
