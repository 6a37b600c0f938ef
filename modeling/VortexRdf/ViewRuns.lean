/-
Runs of narrowings: what a view denotes after any matches, keeps, windows and partitions.

A view denotes a listing of quads: those of its base rows in the order they read in, and the
appended ones behind them.  Each narrowing of the view is one of the listing, so a run of
narrowings is a run of listings, whatever paths the store took.

* `Listing` — the quads of a view, and what a filter, a window and a cut make of them;
* `ViewStep`, `Derives` — the narrowings, and what each makes of a view;
* `ViewStep.Lists` — what each makes of a listing;
* `run_refines` — a run of narrowings denotes a run of listings;
* `counts_after_run` — so do the counts behind it;
* `filters_any_order` — matches and keeps show the same quads in any order of steps.
-/
import VortexRdf.Batches
import VortexRdf.Transitions

namespace Views

open Ascending Buffers Builds Dictionary Indexes Masks MaskOps Terms Transitions
open EncodedSearch (FastLanes)
open Store hiding Row
open scoped Lexicographic

/-! ### Listings -/

/-- Some rows: those of a base, in the order they read in, and the appended ones behind them. -/
@[ext] structure Listing (α : Type*) where
  base : List α
  tail : List α

namespace Listing

variable {α : Type*}

/-- The rows in the order they read in. -/
def read (rows : Listing α) : List α := rows.base ++ rows.tail

/-- The rows that pass a test, the base's in any order. -/
def Filters (p : α → Bool) (rows part : Listing α) : Prop :=
  part.base.Perm (rows.base.filter p) ∧ part.tail = rows.tail.filter p

/-- The rows after `offset`, at most `limit` of them: the base's, then of the appended ones what
they leave room for. -/
def paged (rows : Listing α) (offset limit : ℕ) : Listing α :=
  ⟨page offset limit rows.base, page (offset - rows.base.length)
    (limit - (page offset limit rows.base).length) rows.tail⟩

/-- Pieces that read, in turn, the rows. -/
def CutInto (rows : Listing α) (n : ℕ) (pieces : List (Listing α)) : Prop :=
  pieces.length ≤ n ∧ pieces.flatMap base = rows.base ∧ pieces.flatMap read = rows.read

theorem read_paged (rows : Listing α) (offset limit : ℕ) :
    (rows.paged offset limit).read = page offset limit rows.read :=
  (page_append offset limit rows.base rows.tail).symm

theorem Filters.trans {p q : α → Bool} {rows part part' : Listing α} (h : Filters p rows part)
    (h' : Filters q part part') : Filters (fun a => p a && q a) rows part' := by
  have hfilter : ∀ l : List α, (l.filter p).filter q = l.filter fun a => p a && q a := fun l => by
    rw [List.filter_filter]
    exact List.filter_congr fun a _ => Bool.and_comm _ _
  refine ⟨?_, ?_⟩
  · rw [← hfilter]
    exact h'.1.trans (h.1.filter q)
  · rw [← hfilter, h'.2, h.2]

theorem Filters.read {p : α → Bool} {rows part : Listing α} (h : rows.Filters p part) :
    part.read.Perm (rows.read.filter p) := by
  rw [Listing.read, Listing.read, List.filter_append, ← h.2]
  exact h.1.append_right part.tail

theorem page_page (offset limit offset' limit' : ℕ) (l : List α) :
    page offset' limit' (page offset limit l) =
      page (offset + offset') (min limit' (limit - offset')) l := by
  rw [page, page, page, List.drop_take, List.take_take, List.drop_drop]

/-- A window of a window is a window. -/
theorem paged_paged (rows : Listing α) (offset limit offset' limit' : ℕ) :
    (rows.paged offset limit).paged offset' limit' =
      rows.paged (offset + offset') (min limit' (limit - offset')) := by
  have hbase : ((rows.paged offset limit).paged offset' limit').base =
      (rows.paged (offset + offset') (min limit' (limit - offset'))).base :=
    page_page offset limit offset' limit' rows.base
  have hread : ((rows.paged offset limit).paged offset' limit').read =
      (rows.paged (offset + offset') (min limit' (limit - offset'))).read := by
    rw [read_paged, read_paged, read_paged, page_page]
  refine Listing.ext hbase ?_
  rw [read, read, hbase] at hread
  exact List.append_cancel_left hread

theorem paged_map (f g : RowId → α) (ids tailIds : List RowId) (offset limit : ℕ) :
    paged ⟨ids.map f, tailIds.map g⟩ offset limit =
      ⟨(page offset limit ids).map f,
        (page (offset - ids.length) (limit - (page offset limit ids).length) tailIds).map g⟩ := by
  simp only [paged, page, List.map_take, List.map_drop, List.length_map, List.length_take,
    List.length_drop]

/-- Pages one behind another are the rows up to the last page's end. -/
theorem pages_flatMap (limit : ℕ) (l : List α) (count : ℕ) :
    ((List.range count).flatMap fun k => page (k * limit) limit l) = l.take (count * limit) := by
  induction count with
  | zero => rw [List.range_zero, List.flatMap_nil, Nat.zero_mul, List.take_zero]
  | succ count ih =>
    rw [List.range_succ, List.flatMap_append, ih, List.flatMap_singleton, page, Nat.succ_mul,
      List.take_add]

end Listing

/-! ### Narrowings of a view -/

/-- A quad of a view: its terms as its columns spell them, and their codes where it has them. -/
structure ShownQuad where
  terms : Spelled
  codes : QuadColumn → Option TermCode

/-- A narrowing of a view. -/
inductive ViewStep where
  | matching (pattern : QuadPattern)
  | keeping (column : QuadColumn) (keep : Keep)
  | windowing (offset limit : ℕ)
  | partitioning (n : ℕ)

namespace ViewStep

/-- Whether a step keeps rows by a test of each. -/
def IsFilter : ViewStep → Prop
  | matching _ => True
  | keeping _ _ => True
  | _ => False

/-- Whether a match or a keep keeps a quad. -/
def passes (ox : Oxrdf) : ViewStep → ShownQuad → Bool
  | matching pattern, quad => admits ox pattern quad.terms
  | keeping column keep, quad => (quad.codes column).any fun code => keep.admits code
  | _, _ => true

/-- What a step makes of some rows. -/
inductive Lists (ox : Oxrdf) : Listing ShownQuad → ViewStep → Listing ShownQuad → Prop
  | filter {rows part : Listing ShownQuad} {step : ViewStep} (hstep : step.IsFilter)
      (h : rows.Filters (step.passes ox) part) : Lists ox rows step part
  | window {rows : Listing ShownQuad} {offset limit : ℕ} :
      Lists ox rows (.windowing offset limit) (rows.paged offset limit)
  | piece {rows part : Listing ShownQuad} {n : ℕ} {pieces : List (Listing ShownQuad)}
      (h : rows.CutInto n pieces) (hpart : part ∈ pieces) : Lists ox rows (.partitioning n) part

end ViewStep

section Runs

variable {ox : Oxrdf} {V M : Type} [LinearOrder V] [TermColumn V] [MaskOps M] (fl : FastLanes)
  (zonesEnabled : Bool) (finish : Finish) (shape : ArrayShape)

/-- What a narrowing makes of a view; of a cut, any piece. -/
inductive Derives : VortexRdfStore ox V M → ViewStep → VortexRdfStore ox V M → Prop
  | matching {store view : VortexRdfStore ox V M} {pattern : QuadPattern}
      (h : store.matchPattern fl zonesEnabled finish shape pattern = some (.ok view)) :
      Derives store (.matching pattern) view
  | keeping {store view : VortexRdfStore ox V M} {column : QuadColumn} {keep : Keep}
      (h : store.keep fl column keep = some (.ok view)) : Derives store (.keeping column keep) view
  | windowing {store view : VortexRdfStore ox V M} {offset limit : ℕ}
      (h : store.window fl offset limit = some view) : Derives store (.windowing offset limit) view
  | partitioning {store view : VortexRdfStore ox V M} {n : ℕ} {parts : List (VortexRdfStore ox V M)}
      (hn : 0 < n) (h : store.partitions fl n = some parts) (hview : view ∈ parts) :
      Derives store (.partitioning n) view

end Runs

/-! ### What a view denotes -/

section Denoted

variable {ox : Oxrdf} {V M : Type} [LinearOrder V] [TermColumn V]

namespace VortexRdfStore

variable (store : VortexRdfStore ox V M)

/-- The quad of a base row, with its codes. -/
def shownBase (id : RowId) : ShownQuad where
  terms := store.baseQuad id
  codes role := store.quads.memory.base.rows[id]?.bind fun row =>
    unsignedValue (TermColumn.scalar (roleValue row role))

/-- The quad of an appended row, which has no codes. -/
def shownTail (id : RowId) : ShownQuad := ⟨store.tailQuad id, fun _ => none⟩

/-- The quads a view shows, over sound data that fits one count. -/
def Denotes [Inhabited V] [MaskOps M] (fl : FastLanes) (finish : Finish) (rows : Listing ShownQuad) :
    Prop :=
  ∃ ids tailIds, store.Shows fl finish ids tailIds ∧ store.FitsUsize ∧
    rows = ⟨ids.map store.shownBase, tailIds.map store.shownTail⟩

end VortexRdfStore

variable {store view : VortexRdfStore ox V M}

theorem SameData.shownBase (h : SameData store view) : view.shownBase = store.shownBase := by
  funext id
  rw [VortexRdfStore.shownBase, VortexRdfStore.shownBase, h.baseQuad, h.base]

theorem SameData.shownTail (h : SameData store view) : view.shownTail = store.shownTail := by
  funext id
  rw [VortexRdfStore.shownTail, VortexRdfStore.shownTail, h.tailQuad]

theorem keepsRow_eq (column : QuadColumn) (keep : Keep) (id : RowId) :
    store.keepsRow column keep id =
      ((store.shownBase id).codes column).any fun code => keep.admits code := by
  rw [VortexRdfStore.keepsRow, VortexRdfStore.shownBase]
  cases store.quads.memory.base.rows[id]? with
  | none => rfl
  | some row => rfl

variable [Inhabited V] [MaskOps M] {fl : FastLanes} {finish : Finish} {ids tailIds : List RowId}

/-- A view of the same data denotes the quads of the rows it shows. -/
theorem SameData.denotes (h : SameData store view) (hfits : store.FitsUsize)
    (hshows : view.Shows fl finish ids tailIds) :
    view.Denotes fl finish ⟨ids.map store.shownBase, tailIds.map store.shownTail⟩ :=
  ⟨ids, tailIds, hshows, h.fitsUsize hfits, by rw [h.shownBase, h.shownTail]⟩

theorem perm_filter_map {α : Type*} {f : RowId → α} {p : RowId → Bool} {q : α → Bool}
    {ids ids' : List RowId} (h : inOrder ids' = (inOrder ids).filter p)
    (hpq : ∀ id ∈ ids, p id = q (f id)) : (ids'.map f).Perm ((ids.map f).filter q) := by
  have hfilter : ids.filter p = ids.filter (q ∘ f) := List.filter_congr hpq
  rw [List.filter_map, ← hfilter]
  refine List.Perm.map f ?_
  calc ids'.Perm (inOrder ids') := (inOrder_perm ids').symm
    _ = (inOrder ids).filter p := h
    List.Perm _ (ids.filter p) := (inOrder_perm ids).filter p

end Denoted

/-- The sample store denotes its two base rows and its appended one. -/
def ViewSample.listing : Listing ShownQuad :=
  ⟨[0, 1].map tailed.shownBase, [0].map tailed.shownTail⟩

theorem ViewSample.denotes : tailed.Denotes .ofZeros List.length listing :=
  ⟨[0, 1], [0], tailed_shows, by show 2 + 1 ≤ usizeMax; decide, rfl⟩

/-- The one with no tail denotes its two base rows. -/
def ViewSample.untailedListing : Listing ShownQuad := ⟨[0, 1].map untailed.shownBase, []⟩

theorem ViewSample.untailed_denotes : untailed.Denotes .ofZeros List.length untailedListing :=
  ⟨[0, 1], [], untailed_shows, by show 2 + 0 ≤ usizeMax; decide, rfl⟩

/-! ### Each narrowing is one of the listing -/

section Steps

variable {ox : Oxrdf} {V M : Type} [LinearOrder V] [TermColumn V] [Inhabited V] [MaskOps M]
  [LawfulMask M] {fl : FastLanes} {finish : Finish} {zonesEnabled : Bool} {shape : ArrayShape}
  {store view : VortexRdfStore ox V M} {rows : Listing ShownQuad}

theorem exists_of_mem_forall₂ {α β : Type*} {R : α → β → Prop} {l : List α} {l' : List β}
    (h : List.Forall₂ R l l') {a : α} (ha : a ∈ l) : ∃ b ∈ l', R a b := by
  induction h with
  | nil => cases ha
  | cons head _ ih =>
    rcases List.mem_cons.mp ha with rfl | hmem
    · exact ⟨_, List.mem_cons_self, head⟩
    · obtain ⟨b, hb, hR⟩ := ih hmem
      exact ⟨b, List.mem_cons_of_mem _ hb, hR⟩

omit [LawfulMask M] in
/-- The listings of tiles are a cut of the listing. -/
theorem Tiles.cutInto {ids tailIds : List RowId} {parts : List (VortexRdfStore ox V M)}
    {pieces : List (List RowId × List RowId)} (h : Tiles fl finish store ids tailIds parts pieces) {n : ℕ}
    (hfew : parts.length ≤ n) :
    Listing.CutInto ⟨ids.map store.shownBase, tailIds.map store.shownTail⟩ n
      (pieces.map fun piece => ⟨piece.1.map store.shownBase, piece.2.map store.shownTail⟩) := by
  refine ⟨?_, ?_, ?_⟩
  · rw [List.length_map, ← h.shows.length_eq]
    exact hfew
  · rw [List.flatMap_map, ← h.base, List.map_flatMap]
  · rw [List.flatMap_map]
    exact h.read store.shownBase store.shownTail

/-- A match denotes the quads that hold every bound term of its pattern. -/
theorem matchPattern_denotes (h : store.Denotes fl finish rows) (pattern : QuadPattern) :
    ∃ view part, store.matchPattern fl zonesEnabled finish shape pattern = some (.ok view) ∧
      SameData store view ∧ rows.Filters (fun quad => admits ox pattern quad.terms) part ∧
      view.Denotes fl finish part := by
  obtain ⟨ids, tailIds, hshows, hfits, rfl⟩ := h
  obtain ⟨view, ids', hview, hsame, hshows', hbase, -⟩ :=
    matchPatternFor_spec hshows zonesEnabled shape pattern .rows
  refine ⟨view, _, hview, hsame, ⟨?_, ?_⟩, hsame.denotes hfits hshows'⟩
  · exact perm_filter_map hbase fun _ _ => rfl
  · rw [List.filter_map]
    rfl

/-- A keep of a view addressed by code denotes the quads whose codes it admits; any other view
refuses it. -/
theorem keep_denotes (h : store.Denotes fl finish rows) (column : QuadColumn) (keep : Keep) :
    (∃ e, store.ensureCodeView "keep" = .error e ∧ store.keep fl column keep = some (.error e)) ∨
    (store.ensureCodeView "keep" = .ok () ∧
      ∃ view part, store.keep fl column keep = some (.ok view) ∧ SameData store view ∧
        rows.Filters ((ViewStep.keeping column keep).passes ox) part ∧ view.Denotes fl finish part) := by
  obtain ⟨ids, tailIds, hshows, hfits, rfl⟩ := h
  obtain ⟨hrefused, hkept⟩ := keep_spec hshows column keep
  cases hcode : store.ensureCodeView "keep" with
  | error e => exact .inl ⟨e, rfl, hrefused e hcode⟩
  | ok =>
    obtain ⟨rfl, view, hview, hrows⟩ := hkept hcode
    obtain ⟨ids', hshows', hbase⟩ := hrows.shows
    refine .inr ⟨rfl, view, _, hview, hrows.same, ⟨?_, rfl⟩, hrows.same.denotes hfits hshows'⟩
    exact perm_filter_map hbase fun id _ => keepsRow_eq column keep id

/-- A window denotes the page of the quads. -/
theorem window_denotes (h : store.Denotes fl finish rows) (offset limit : ℕ) :
    ∃ view, store.window fl offset limit = some view ∧ SameData store view ∧
      view.Denotes fl finish (rows.paged offset limit) := by
  obtain ⟨ids, tailIds, hshows, hfits, rfl⟩ := h
  obtain ⟨view, hview, hsame, hshows', -⟩ := window_spec hshows hfits offset limit
  rw [Listing.paged_map]
  exact ⟨view, hview, hsame, hsame.denotes hfits hshows'⟩

/-- The partitions denote a cut of the quads. -/
theorem partitions_denotes (h : store.Denotes fl finish rows) {n : ℕ} (hn : 0 < n) :
    ∃ parts pieces, store.partitions fl n = some parts ∧ rows.CutInto n pieces ∧
      List.Forall₂ (fun part piece => SameData store part ∧
        VortexRdfStore.Denotes part fl finish piece) parts pieces := by
  obtain ⟨ids, tailIds, hshows, hfits, rfl⟩ := h
  obtain ⟨parts, pieces, hparts, hfew, htiles⟩ := partitions_spec hshows hn
  refine ⟨parts, _, hparts, htiles.cutInto hfew, ?_⟩
  rw [List.forall₂_map_right_iff]
  exact htiles.shows.imp fun part piece hpart => ⟨hpart.1, hpart.1.denotes hfits hpart.2.1⟩

/-- A view a narrowing made of another denotes what the step makes of its listing. -/
theorem derives_lists {step : ViewStep} (h : store.Denotes fl finish rows)
    (hstep : Derives fl zonesEnabled finish shape store step view) :
    SameData store view ∧ ∃ part, step.Lists ox rows part ∧ view.Denotes fl finish part := by
  cases hstep with
  | @matching _ pattern hview =>
    obtain ⟨found, part, hfound, hsame, hfilters, hdenotes⟩ := matchPattern_denotes h pattern
    obtain rfl := Except.ok.inj (Option.some.inj (hfound.symm.trans hview))
    exact ⟨hsame, part, .filter trivial hfilters, hdenotes⟩
  | @keeping _ column keep hview =>
    obtain ⟨e, -, hrefused⟩ | ⟨-, found, part, hfound, hsame, hfilters, hdenotes⟩ :=
      keep_denotes h column keep
    · cases Option.some.inj (hrefused.symm.trans hview)
    · obtain rfl := Except.ok.inj (Option.some.inj (hfound.symm.trans hview))
      exact ⟨hsame, part, .filter trivial hfilters, hdenotes⟩
  | @windowing _ offset limit hview =>
    obtain ⟨found, hfound, hsame, hdenotes⟩ := window_denotes h offset limit
    obtain rfl := Option.some.inj (hfound.symm.trans hview)
    exact ⟨hsame, _, .window, hdenotes⟩
  | @partitioning _ n parts hn hparts hview =>
    obtain ⟨found, pieces, hfound, hcut, hpieces⟩ := partitions_denotes h hn
    obtain rfl := Option.some.inj (hfound.symm.trans hparts)
    obtain ⟨piece, hpiece, hsame, hdenotes⟩ := exists_of_mem_forall₂ hpieces hview
    exact ⟨hsame, piece, .piece hcut hpiece, hdenotes⟩

/-- What a view can always be asked for: any match, any window and any cut; and a keep, which it
refuses where its rows are not addressed by code. -/
structure Answers (fl : FastLanes) (zonesEnabled : Bool) (finish : Finish) (shape : ArrayShape)
    (root view : VortexRdfStore ox V M) : Prop where
  matching : ∀ pattern, ∃ found, view.matchPattern fl zonesEnabled finish shape pattern =
    some (.ok found)
  windowing : ∀ offset limit, ∃ found, view.window fl offset limit = some found
  partitioning : ∀ n, 0 < n → ∃ parts, view.partitions fl n = some parts
  keeping : ∀ column keep, (∃ found, view.keep fl column keep = some (.ok found)) ∧
      root.ensureCodeView "keep" = .ok () ∨
    ∃ e, root.ensureCodeView "keep" = .error e ∧ view.keep fl column keep = some (.error e)

theorem Answers.of_denotes (hsame : SameData store view) (h : view.Denotes fl finish rows) :
    Answers fl zonesEnabled finish shape store view where
  matching pattern := by
    obtain ⟨found, -, hfound, -⟩ := matchPattern_denotes h pattern
    exact ⟨found, hfound⟩
  windowing offset limit := by
    obtain ⟨found, hfound, -⟩ := window_denotes h offset limit
    exact ⟨found, hfound⟩
  partitioning n hn := by
    obtain ⟨parts, -, hparts, -⟩ := partitions_denotes h hn
    exact ⟨parts, hparts⟩
  keeping column keep := by
    rw [← hsame.ensureCodeView "keep"]
    obtain ⟨e, hcode, hrefused⟩ | ⟨hcode, found, -, hfound, -⟩ := keep_denotes h column keep
    · exact .inr ⟨e, hcode, hrefused⟩
    · exact .inl ⟨⟨found, hfound⟩, hcode⟩

variable {steps : List ViewStep}

/-- A run of narrowings denotes a run of listings. -/
theorem runs_lists (h : store.Denotes fl finish rows)
    (hrun : Steps (Derives fl zonesEnabled finish shape) store steps view) :
    ∃ part, Steps (fun rows step part => ViewStep.Lists ox rows step part) rows steps part ∧
      SameData store view ∧ view.Denotes fl finish part := by
  refine hrun.simulates (R := fun view part => SameData store view ∧ view.Denotes fl finish part)
    ?_ ⟨.refl store, h⟩
  rintro _ part step _ ⟨hsame, hpart⟩ hstep
  obtain ⟨hnext, part', hlists, hdenotes⟩ := derives_lists hpart hstep
  exact ⟨part', hlists, hsame.trans hnext, hdenotes⟩

/-- **Any run of narrowings** of a view reads the base it was made from and denotes what the
steps make, in turn, of the view's listing; behind it no further narrowing panics, and a keep
is refused just where the first view refuses one. -/
theorem run_refines {steps : List ViewStep} (h : store.Denotes fl finish rows)
    (hrun : Steps (Derives fl zonesEnabled finish shape) store steps view) :
    SameData store view ∧ Answers fl zonesEnabled finish shape store view ∧
      ∃ part, Steps (fun rows step part => ViewStep.Lists ox rows step part) rows steps part ∧
        view.Denotes fl finish part := by
  obtain ⟨part, hlists, hsame, hdenotes⟩ := runs_lists h hrun
  exact ⟨hsame, .of_denotes hsame hdenotes, part, hlists, hdenotes⟩

theorem ViewSample.tailed_runs : ∃ view, Steps (Derives .ofZeros true List.length allBound) tailed
    [.matching IndexSample.pattern, .windowing 0 1] view := by
  obtain ⟨matched, _, hmatched, -, -, hdenotes⟩ := matchPattern_denotes denotes IndexSample.pattern
  obtain ⟨cut, hcut, -⟩ := window_denotes hdenotes 0 1
  exact ⟨cut, .cons (.matching hmatched) (.cons (.windowing hcut) (.nil cut))⟩

theorem run_refines_tailed : ∃ view, Steps (Derives .ofZeros true List.length allBound)
      ViewSample.tailed [.matching IndexSample.pattern, .windowing 0 1] view ∧
    SameData ViewSample.tailed view ∧
    Answers .ofZeros true List.length allBound ViewSample.tailed view ∧
    ∃ part, Steps (fun rows step part => ViewStep.Lists ntriples rows step part) ViewSample.listing
        [.matching IndexSample.pattern, .windowing 0 1] part ∧
      view.Denotes .ofZeros List.length part := by
  obtain ⟨view, hrun⟩ := ViewSample.tailed_runs
  exact ⟨view, hrun, run_refines ViewSample.denotes hrun⟩

/-! ### What is counted without reading -/

/-- **Counts behind any run** of narrowings are those of the listing the view denotes, which the
run makes, in full, up to a limit, and as whether there is any, though no row is read. -/
theorem counts_after_run {steps : List ViewStep} (h : store.Denotes fl finish rows)
    (hrun : Steps (Derives fl zonesEnabled finish shape) store steps view) :
    ∃ part, Steps (fun rows step part => ViewStep.Lists ox rows step part) rows steps part ∧
      view.Denotes fl finish part ∧ view.size fl = some part.read.length ∧
      (∀ limit, view.sizeCapped fl limit = some (min part.read.length limit)) ∧
      view.existsAny fl = some (decide (part.read ≠ [])) := by
  obtain ⟨part, hlists, -, hdenotes⟩ := runs_lists h hrun
  refine ⟨part, hlists, hdenotes, ?_⟩
  obtain ⟨ids, tailIds, hshows, hfits, rfl⟩ := hdenotes
  have hlength : (Listing.read ⟨ids.map view.shownBase, tailIds.map view.shownTail⟩).length =
      ids.length + tailIds.length := by
    rw [Listing.read, List.length_append, List.length_map, List.length_map]
  refine ⟨?_, fun limit => ?_, ?_⟩
  · rw [hlength, size_spec hshows hfits]
  · rw [hlength, sizeCapped_spec hshows hfits]
  · rw [existsAny_spec hshows hfits, decide_eq_decide.mpr]
    rw [Listing.read, ne_eq, ne_eq, ne_eq, List.append_eq_nil_iff, List.map_eq_nil_iff,
      List.map_eq_nil_iff, not_and_or]

theorem counts_after_run_tailed : ∃ view part, Steps (Derives .ofZeros true List.length allBound)
      ViewSample.tailed [.matching IndexSample.pattern, .windowing 0 1] view ∧
    Steps (fun rows step part => ViewStep.Lists ntriples rows step part) ViewSample.listing
      [.matching IndexSample.pattern, .windowing 0 1] part ∧
    view.Denotes .ofZeros List.length part ∧ view.size .ofZeros = some part.read.length ∧
    (∀ limit, view.sizeCapped .ofZeros limit = some (min part.read.length limit)) ∧
    view.existsAny .ofZeros = some (decide (part.read ≠ [])) := by
  obtain ⟨view, hrun⟩ := ViewSample.tailed_runs
  obtain ⟨part, hpart⟩ := counts_after_run ViewSample.denotes hrun
  exact ⟨view, part, hrun, hpart⟩

/-! ### Matches and keeps in any order -/

omit [LinearOrder V] [TermColumn V] [Inhabited V] [MaskOps M] [LawfulMask M] in
/-- Matches and keeps in turn are one filter by all of them. -/
theorem lists_filters (hsteps : ∀ step ∈ steps, step.IsFilter)
    {part : Listing ShownQuad}
    (hrun : Steps (fun rows step part => ViewStep.Lists ox rows step part) rows steps part) :
    rows.Filters (fun quad => steps.all fun step => step.passes ox quad) part := by
  induction hrun with
  | nil rows =>
    refine ⟨?_, ?_⟩
    · rw [List.filter_eq_self.mpr fun _ _ => List.all_nil]
    · rw [List.filter_eq_self.mpr fun _ _ => List.all_nil]
  | @cons rows _ _ step steps head _ ih =>
    obtain ⟨hstep, hrest⟩ := List.forall_mem_cons.mp hsteps
    cases head with
    | filter _ hfilter => exact hfilter.trans (ih hrest)
    | window => cases hstep
    | piece => cases hstep

/-- Matches and keeps run in any order where no keep of them is refused. -/
theorem filters_run (h : store.Denotes fl finish rows)
    (hsteps : ∀ step ∈ steps, step.IsFilter)
    (hcode : ∀ column keep, .keeping column keep ∈ steps → store.ensureCodeView "keep" = .ok ()) :
    ∃ view, Steps (Derives fl zonesEnabled finish shape) store steps view := by
  induction steps generalizing store rows with
  | nil => exact ⟨store, .nil store⟩
  | cons step steps ih =>
    obtain ⟨hstep, hrest⟩ := List.forall_mem_cons.mp hsteps
    have hnext : ∃ view, Derives fl zonesEnabled finish shape store step view := by
      cases step with
      | matching pattern =>
        obtain ⟨view, -, hview, -⟩ := matchPattern_denotes h pattern
        exact ⟨view, .matching hview⟩
      | keeping column keep =>
        obtain ⟨e, hrefused, -⟩ | ⟨-, view, -, hview, -⟩ := keep_denotes h column keep
        · rw [hcode column keep List.mem_cons_self] at hrefused
          cases hrefused
        · exact ⟨view, .keeping hview⟩
      | windowing offset limit => cases hstep
      | partitioning n => cases hstep
    obtain ⟨view, hview⟩ := hnext
    obtain ⟨hsame, part, -, hdenotes⟩ := derives_lists h hview
    obtain ⟨last, hlast⟩ := ih hdenotes hrest fun column keep hmem =>
      (hsame.ensureCodeView "keep").trans (hcode column keep (List.mem_cons_of_mem step hmem))
    exact ⟨last, .cons hview hlast⟩

/-- A run with a keep is of a view addressed by code. -/
theorem ensureCodeView_of_run (h : store.Denotes fl finish rows)
    (hrun : Steps (Derives fl zonesEnabled finish shape) store steps view) {column : QuadColumn}
    {keep : Keep} (hmem : .keeping column keep ∈ steps) : store.ensureCodeView "keep" = .ok () := by
  induction hrun generalizing rows with
  | nil => cases hmem
  | @cons store _ _ step steps head _ ih =>
    obtain ⟨hsame, part, -, hdenotes⟩ := derives_lists h head
    rcases List.mem_cons.mp hmem with rfl | hmem
    · cases head with
      | keeping hview =>
        obtain ⟨e, -, hrefused⟩ | ⟨hcode, -⟩ := keep_denotes h column keep
        · cases Option.some.inj (hrefused.symm.trans hview)
        · exact hcode
    · rw [← hsame.ensureCodeView "keep"]
      exact ih hdenotes hmem

/-- The size of a view is that of the listing it denotes. -/
theorem size_denotes (h : store.Denotes fl finish rows) : store.size fl = some rows.read.length := by
  obtain ⟨ids, tailIds, hshows, hfits, rfl⟩ := h
  rw [size_spec hshows hfits, Listing.read, List.length_append, List.length_map, List.length_map]

/-- **Matches and keeps in any order** show the same quads: another order of the steps of a run
runs too, and shows the same base quads, the same appended quads, and as many. -/
theorem filters_any_order {steps steps' : List ViewStep} (h : store.Denotes fl finish rows)
    (hsteps : ∀ step ∈ steps, step.IsFilter) (hperm : steps.Perm steps')
    (hrun : Steps (Derives fl zonesEnabled finish shape) store steps view) :
    ∃ view' part part', Steps (Derives fl zonesEnabled finish shape) store steps' view' ∧
      view.Denotes fl finish part ∧ view'.Denotes fl finish part' ∧ part.base.Perm part'.base ∧
      part.tail = part'.tail ∧ view'.size fl = view.size fl := by
  have hsteps' : ∀ step ∈ steps', step.IsFilter := fun step hmem =>
    hsteps step (hperm.mem_iff.mpr hmem)
  obtain ⟨view', hrun'⟩ := filters_run h hsteps' fun column keep hmem =>
    ensureCodeView_of_run h hrun (hperm.mem_iff.mpr hmem)
  obtain ⟨part, hlists, -, hdenotes⟩ := runs_lists h hrun
  obtain ⟨part', hlists', -, hdenotes'⟩ := runs_lists h hrun'
  have hfilter := lists_filters hsteps hlists
  have hfilter' := lists_filters hsteps' hlists'
  have hpasses : (fun quad => steps'.all fun step => step.passes ox quad) =
      fun quad => steps.all fun step => step.passes ox quad := by
    funext quad
    exact (hperm.all_eq).symm
  rw [hpasses] at hfilter'
  have hbase := hfilter.1.trans hfilter'.1.symm
  have htail := hfilter.2.trans hfilter'.2.symm
  refine ⟨view', part, part', hrun', hdenotes, hdenotes', hbase, htail, ?_⟩
  rw [size_denotes hdenotes, size_denotes hdenotes', Listing.read, Listing.read, List.length_append,
    List.length_append, hbase.length_eq, htail]

/-- Two matches and a keep of codes, and the same ones in another order. -/
theorem filters_any_order_untailed :
    let first : ViewStep := .matching IndexSample.pattern
    let second : ViewStep := .matching ViewSample.objectPattern
    let third : ViewStep := .keeping .o (.range 0 3)
    ∃ view, Steps (Derives .ofZeros true List.length allBound) ViewSample.untailed
        [first, third, second] view ∧
      ∃ view' part part', Steps (Derives .ofZeros true List.length allBound) ViewSample.untailed
          [second, first, third] view' ∧
        view.Denotes .ofZeros List.length part ∧ view'.Denotes .ofZeros List.length part' ∧
        part.base.Perm part'.base ∧ part.tail = part'.tail ∧
        view'.size .ofZeros = view.size .ofZeros := by
  intro first second third
  have hfilters : ∀ step ∈ [first, third, second], step.IsFilter := by
    intro step hstep
    rw [List.mem_cons, List.mem_cons, List.mem_singleton] at hstep
    obtain rfl | rfl | rfl := hstep <;> trivial
  have hcode : ViewSample.untailed.ensureCodeView "keep" = .ok () := rfl
  obtain ⟨view, hrun⟩ := @filters_run _ _ _ _ _ _ _ _ .ofZeros List.length true allBound _ _ _
    ViewSample.untailed_denotes hfilters fun _ _ _ => hcode
  exact ⟨view, hrun, filters_any_order ViewSample.untailed_denotes hfilters
    (@List.perm_append_comm _ [first, third] [second]) hrun⟩

end Steps

end Views
