/-
What a view answers, by whatever way it is asked.

A view's quads are the same behind another layout, another index or a compaction; window by
window, cut into partitions, or probe by probe of a batch.

* `matches_agree` — stores of the same quads answer a run of matches alike;
* `windows_compose`, `paging_reads` — a window of a window, and paging by windows;
* `partitions_tile`, `partitions_match` — the partitions of a view, and a match of each;
* `Probe.passes`, `matchMany_denotes` — the quads a batch's probes show.
-/
import VortexRdf.ViewRuns

namespace Views

open Ascending Buffers Builds Dictionary Indexes Masks MaskOps Terms Transitions
open EncodedSearch (FastLanes)
open Store hiding Row
open scoped Lexicographic

section Asked

variable {ox : Oxrdf} {V M : Type} [LinearOrder V] [TermColumn V] [Inhabited V] [MaskOps M]
  [LawfulMask M] {fl : FastLanes} {finish : Finish} {zonesEnabled : Bool} {shape : ArrayShape}
  {store view : VortexRdfStore ox V M} {rows : Listing ShownQuad}

/-! ### The same quads behind other paths -/

/-- Some matches of a view that denotes some rows denote those that pass all of them. -/
theorem matches_denote (h : store.Denotes fl finish rows) (patterns : List QuadPattern) :
    ∃ view part, Steps (Derives fl zonesEnabled finish shape) store
        (patterns.map ViewStep.matching) view ∧
      rows.Filters (fun quad => patterns.all fun pattern => admits ox pattern quad.terms) part ∧
      view.Denotes fl finish part := by
  have hsteps : ∀ step ∈ patterns.map ViewStep.matching, step.IsFilter := fun step hstep => by
    obtain ⟨pattern, -, rfl⟩ := List.mem_map.mp hstep
    trivial
  obtain ⟨view, hrun⟩ : ∃ view, Steps (Derives fl zonesEnabled finish shape) store
      (patterns.map ViewStep.matching) view :=
    filters_run h hsteps fun column keep hmem => by
      obtain ⟨pattern, -, hkeep⟩ := List.mem_map.mp hmem
      cases hkeep
  obtain ⟨part, hlists, -, hdenotes⟩ := runs_lists h hrun
  refine ⟨view, part, hrun, ?_, hdenotes⟩
  have hfilter := lists_filters hsteps hlists
  simp only [List.all_map] at hfilter
  exact hfilter

/-- **Matches agree** between stores of the same quads: whichever of the two layouts each is under,
whatever the indexes, the encodings, the zone maps, the masks and the order of the two bases, and
whichever rows are still in the tails, a run of matches shows the same quads, as many times each. -/
theorem matches_agree {V' M' : Type} [LinearOrder V'] [TermColumn V'] [Inhabited V'] [MaskOps M']
    [LawfulMask M'] {fl' : FastLanes} {finish' : Finish} {zonesEnabled' : Bool} {shape' : ArrayShape}
    {store' : VortexRdfStore ox V' M'} {rows' : Listing ShownQuad}
    (h : store.Denotes fl finish rows) (h' : store'.Denotes fl' finish' rows')
    (hsame : (rows.read.map ShownQuad.terms).Perm (rows'.read.map ShownQuad.terms))
    (patterns : List QuadPattern) :
    ∃ view view' part part',
      Steps (Derives fl zonesEnabled finish shape) store (patterns.map .matching) view ∧
      Steps (Derives fl' zonesEnabled' finish' shape') store' (patterns.map .matching) view' ∧
      view.Denotes fl finish part ∧ view'.Denotes fl' finish' part' ∧
      (part.read.map ShownQuad.terms).Perm (part'.read.map ShownQuad.terms) ∧
      view.size fl = view'.size fl' := by
  obtain ⟨view, part, hrun, hfilter, hdenotes⟩ := matches_denote h patterns
  obtain ⟨view', part', hrun', hfilter', hdenotes'⟩ := matches_denote h' patterns
  have hterms : ∀ {rows part : Listing ShownQuad},
      rows.Filters (fun quad => patterns.all fun pattern => admits ox pattern quad.terms) part →
      (part.read.map ShownQuad.terms).Perm ((rows.read.map ShownQuad.terms).filter fun terms =>
        patterns.all fun pattern => admits ox pattern terms) := fun hpart => by
    rw [List.filter_map]
    exact hpart.read.map ShownQuad.terms
  have hquads := (hterms hfilter).trans ((hsame.filter _).trans (hterms hfilter').symm)
  refine ⟨view, view', part, part', hrun, hrun', hdenotes, hdenotes', hquads, ?_⟩
  have hlength := hquads.length_eq
  rw [List.length_map, List.length_map] at hlength
  rw [size_denotes hdenotes, size_denotes hdenotes', hlength]

/-! The quads of `ViewSample.tailed` under the Default layout, two of them in the base. -/

namespace ViewSample

def spelledBase : BaseArray Str where
  rows := [⟨[115], [112], [111], [103]⟩, ⟨[60, 97, 62], [60, 98, 62], [60, 98, 62], []⟩]
  subjectSorted := false
  probes _ := none
  subject := none
  chunks _ := []
  cache _ := none
  access := .encoded
  shared _ := none
  zones _ := none
  primitive _ _ := true
  resolves _ := false
  views _ := false
  nullBit _ _ := false
  ridProbe _ := none
  chunkProbed _ := false

def spelledTail : Tail BitMask .default :=
  ⟨[(⟨[60, 97, 62], [60, 98, 62], [60, 97, 62], []⟩ : RawQuad)], .all, none,
    ⟨keyColumns .default, [[(12, 0)]], 1⟩⟩

def spelled : VortexRdfStore ntriples Str BitMask where
  quads := ⟨.all, none, ⟨spelledBase, [], none⟩⟩
  layout := defaultRoles ntriples
  indexes := []
  tail := some spelledTail

theorem spelledTail_built : spelledTail.Built List.length := by
  refine .new spelledTail.rows spelledTail ?_ (by decide)
  have hrun : ((spelledTail.rows.map (rowKey List.length)).zipIdx 0).mergeSort keyLe = [(12, 0)] :=
    List.mergeSort_singleton _
  rw [Tail.new, TailKeys.of, TailKeys.extended, rowKeys_eq, Option.map_some, Option.map_some]
  dsimp only
  rw [hrun]
  rfl

theorem spelledBase_sound : spelledBase.Sound .ofZeros .default where
  small := by decide
  stamped h := by cases h
  probed _ _ h := by cases h
  subject _ h := by cases h
  chunked h := by cases h
  cached _ _ h := by cases h
  shared _ _ h := by cases h
  resident h := by cases h
  zoned _ _ h := by cases h

def spelledListing : Listing ShownQuad :=
  ⟨[0, 1].map spelled.shownBase, [0].map spelled.shownTail⟩

theorem spelled_denotes : spelled.Denotes .ofZeros List.length spelledListing := by
  have htail : tailListing spelled.tail = [0] := by
    show RowSelection.all.liveListing none 1 = [0]
    rw [liveListing_none]
    exact Finset.sort_range 1
  refine ⟨[0, 1], [0], ⟨⟨⟨spelledBase_sound, ?_, ?_⟩, ?_, ?_⟩, ?_, htail⟩, ?_, rfl⟩
  · rintro _ ⟨⟩
  · rintro _ _ - _ ⟨⟩
  · rintro _ ⟨⟩
  · rintro _ ⟨⟩
    exact spelledTail_built.kept
  · exact QuadsSource.unrestricted_shows spelled.layout spelled.quads
  · show 2 + 1 ≤ usizeMax
    decide

/-- Both stores hold the same quads. -/
theorem same_terms : (listing.read.map ShownQuad.terms).Perm (spelledListing.read.map ShownQuad.terms) := by
  have hfirst : (tailed.shownBase 0).terms = (spelled.shownTail 0).terms := by
    funext role
    cases role <;> rfl
  have hsecond : (tailed.shownBase 1).terms = (spelled.shownBase 1).terms := by
    funext role
    cases role <;> rfl
  have hthird : (tailed.shownTail 0).terms = (spelled.shownBase 0).terms := by
    funext role
    cases role <;> rfl
  show [(tailed.shownBase 0).terms, (tailed.shownBase 1).terms, (tailed.shownTail 0).terms].Perm
    [(spelled.shownBase 0).terms, (spelled.shownBase 1).terms, (spelled.shownTail 0).terms]
  rw [hfirst, hsecond, hthird]
  exact (List.reverse_perm _).symm

end ViewSample

/-- A match of the sample quads, coded and indexed, and of the same ones spelled out. -/
theorem matches_agree_layouts : ∃ view view' part part',
    Steps (Derives .ofZeros true List.length allBound) ViewSample.tailed
      [.matching IndexSample.pattern, .matching ViewSample.objectPattern] view ∧
    Steps (Derives .ofZeros false List.length noneBound) ViewSample.spelled
      [.matching IndexSample.pattern, .matching ViewSample.objectPattern] view' ∧
    view.Denotes .ofZeros List.length part ∧ view'.Denotes .ofZeros List.length part' ∧
    (part.read.map ShownQuad.terms).Perm (part'.read.map ShownQuad.terms) ∧
    view.size .ofZeros = view'.size .ofZeros :=
  matches_agree ViewSample.denotes ViewSample.spelled_denotes ViewSample.same_terms
    [IndexSample.pattern, ViewSample.objectPattern]

/-! ### Windows of windows -/

/-- **A window of a window** shows what one window shows, in the same order. -/
theorem windows_compose (h : store.Denotes fl finish rows) (offset limit offset' limit' : ℕ) :
    ∃ first second direct, store.window fl offset limit = some first ∧
      first.window fl offset' limit' = some second ∧
      store.window fl (offset + offset') (min limit' (limit - offset')) = some direct ∧
      ∃ part, second.Denotes fl finish part ∧ direct.Denotes fl finish part := by
  obtain ⟨first, hfirst, -, hdenotes⟩ := window_denotes h offset limit
  obtain ⟨second, hsecond, -, hdenotes'⟩ := window_denotes hdenotes offset' limit'
  obtain ⟨direct, hdirect, -, hone⟩ :=
    window_denotes h (offset + offset') (min limit' (limit - offset'))
  rw [Listing.paged_paged] at hdenotes'
  exact ⟨first, second, direct, hfirst, hsecond, hdirect, _, hdenotes', hone⟩

theorem windows_compose_tailed : ∃ first second direct,
    ViewSample.tailed.window .ofZeros 1 2 = some first ∧ first.window .ofZeros 1 1 = some second ∧
    ViewSample.tailed.window .ofZeros 2 1 = some direct ∧
    ∃ part, second.Denotes .ofZeros List.length part ∧ direct.Denotes .ofZeros List.length part :=
  windows_compose ViewSample.denotes 1 2 1 1

/-- **Paging by windows** reads each row of a view once, in order: pages of some rows, one
behind another until they cover the view, read in turn the view. -/
theorem paging_reads (h : store.Denotes fl finish rows) {limit count : ℕ}
    (hcovers : rows.read.length ≤ count * limit) :
    ∃ views parts, ((List.range count).mapM fun k => store.window fl (k * limit) limit) = some views ∧
      List.Forall₂ (fun view part => VortexRdfStore.Denotes view fl finish part) views parts ∧
      parts.flatMap Listing.read = rows.read := by
  obtain ⟨views, hviews, hall⟩ := mapM_forall₂ (l := List.range count)
    (f := fun k => store.window fl (k * limit) limit)
    (R := fun view k => view.Denotes fl finish (rows.paged (k * limit) limit)) fun k _ => by
      obtain ⟨view, hview, -, hdenotes⟩ := window_denotes h (k * limit) limit
      exact ⟨view, hview, hdenotes⟩
  refine ⟨views, (List.range count).map fun k => rows.paged (k * limit) limit, hviews, ?_, ?_⟩
  · rw [List.forall₂_map_right_iff]
    exact hall
  · rw [List.flatMap_map]
    simp only [Listing.read_paged]
    rw [Listing.pages_flatMap, List.take_of_length_le hcovers]

theorem paging_reads_tailed : ∃ views parts,
    ((List.range 2).mapM fun k => ViewSample.tailed.window .ofZeros (k * 2) 2) = some views ∧
    List.Forall₂ (fun view part => VortexRdfStore.Denotes view .ofZeros List.length part) views parts ∧
    parts.flatMap Listing.read = ViewSample.listing.read :=
  paging_reads ViewSample.denotes (by decide)

/-! ### Partitions and what is asked of them -/

/-- **The partitions of a view** are at most as many as asked for, read, in turn, the view, each
in its order, and their sizes sum to its size. -/
theorem partitions_tile (h : store.Denotes fl finish rows) {n : ℕ} (hn : 0 < n) :
    ∃ parts pieces, store.partitions fl n = some parts ∧ rows.CutInto n pieces ∧
      List.Forall₂ (fun part piece => VortexRdfStore.Denotes part fl finish piece ∧
        part.size fl = some piece.read.length ∧
        (rows.base ≠ [] → part.quads.readOrder = store.quads.readOrder)) parts pieces ∧
      store.size fl = some (pieces.map fun piece => piece.read.length).sum := by
  have hsize := size_denotes h
  obtain ⟨ids, tailIds, hshows, hfits, rfl⟩ := h
  obtain ⟨parts, pieces, hparts, hfew, htiles⟩ := partitions_spec hshows hn
  have hcut := htiles.cutInto hfew
  refine ⟨parts, _, hparts, hcut, ?_, ?_⟩
  · rw [List.forall₂_map_right_iff]
    refine htiles.shows.imp fun part piece hpart => ?_
    have hdenotes := hpart.1.denotes hfits hpart.2.1
    refine ⟨hdenotes, size_denotes hdenotes, fun hne => hpart.2.2 fun hnone => hne ?_⟩
    show ids.map store.shownBase = []
    rw [hnone, List.map_nil]
  · rw [hsize, ← hcut.2.2, List.length_flatMap]

theorem partitions_tile_tailed : ∃ parts pieces,
    ViewSample.tailed.partitions .ofZeros 2 = some parts ∧ ViewSample.listing.CutInto 2 pieces ∧
    List.Forall₂ (fun part piece => VortexRdfStore.Denotes part .ofZeros List.length piece ∧
      part.size .ofZeros = some piece.read.length ∧
      (ViewSample.listing.base ≠ [] → part.quads.readOrder = ViewSample.tailed.quads.readOrder))
        parts pieces ∧
    ViewSample.tailed.size .ofZeros = some (pieces.map fun piece => piece.read.length).sum :=
  partitions_tile ViewSample.denotes (by decide)

/-- The matches of some views, and what they denote. -/
theorem matches_mapM {views : List (VortexRdfStore ox V M)} {pieces : List (Listing ShownQuad)}
    (h : List.Forall₂ (fun view piece => VortexRdfStore.Denotes view fl finish piece) views pieces)
    (pattern : QuadPattern) : ∃ matched parts,
      List.Forall₂ (fun view found => view.matchPattern fl zonesEnabled finish shape pattern =
        some (.ok found)) views matched ∧
      List.Forall₂ (fun found part => VortexRdfStore.Denotes found fl finish part) matched parts ∧
      (parts.flatMap Listing.read).Perm
        ((pieces.flatMap Listing.read).filter fun quad => admits ox pattern quad.terms) := by
  induction h with
  | nil => exact ⟨[], [], .nil, .nil, .nil⟩
  | cons head _ ih =>
    obtain ⟨found, part, hfound, -, hfilter, hdenotes⟩ := matchPattern_denotes head pattern
    obtain ⟨matched, parts, hmatched, hparts, hread⟩ := ih
    refine ⟨found :: matched, part :: parts, .cons hfound hmatched, .cons hdenotes hparts, ?_⟩
    rw [List.flatMap_cons, List.flatMap_cons, List.filter_append]
    exact hfilter.read.append hread

/-- **A match of each partition** is the match of the view: the matches show, between them, the
quads the view's does, as many times each. -/
theorem partitions_match (h : store.Denotes fl finish rows) {n : ℕ} (hn : 0 < n)
    (pattern : QuadPattern) :
    ∃ parts matched whole pieces part, store.partitions fl n = some parts ∧
      List.Forall₂ (fun part found => VortexRdfStore.matchPattern fl zonesEnabled part finish shape
        pattern = some (.ok found)) parts matched ∧
      store.matchPattern fl zonesEnabled finish shape pattern = some (.ok whole) ∧
      List.Forall₂ (fun found piece => VortexRdfStore.Denotes found fl finish piece) matched pieces ∧
      whole.Denotes fl finish part ∧ (pieces.flatMap Listing.read).Perm part.read := by
  obtain ⟨parts, cut, hparts, hcut, hpieces⟩ := partitions_denotes h hn
  obtain ⟨matched, pieces, hmatched, hfound, hread⟩ :=
    matches_mapM (hpieces.imp fun _ _ hpart => hpart.2) pattern
  obtain ⟨whole, part, hwhole, -, hfilter, hdenotes⟩ := matchPattern_denotes h pattern
  rw [hcut.2.2] at hread
  exact ⟨parts, matched, whole, pieces, part, hparts, hmatched, hwhole, hfound, hdenotes,
    hread.trans hfilter.read.symm⟩

theorem partitions_match_tailed : ∃ parts matched whole pieces part,
    ViewSample.tailed.partitions .ofZeros 2 = some parts ∧
    List.Forall₂ (fun part found => VortexRdfStore.matchPattern .ofZeros true part List.length
      allBound IndexSample.pattern = some (.ok found)) parts matched ∧
    ViewSample.tailed.matchPattern .ofZeros true List.length allBound IndexSample.pattern =
      some (.ok whole) ∧
    List.Forall₂ (fun found piece => VortexRdfStore.Denotes found .ofZeros List.length piece)
      matched pieces ∧
    whole.Denotes .ofZeros List.length part ∧ (pieces.flatMap Listing.read).Perm part.read :=
  partitions_match ViewSample.denotes (by decide) IndexSample.pattern

/-! ### Batches -/

/-- Whether a quad holds every bound term of a probe's pattern, its codes in its keeps. -/
def Probe.passes (ox : Oxrdf) (probe : Probe) (quad : ShownQuad) : Bool :=
  admits ox probe.pattern quad.terms &&
    probe.keeps.all fun kept => (ViewStep.keeping kept.1 kept.2).passes ox quad

omit [Inhabited V] [MaskOps M] [LawfulMask M] in
theorem probes_eq (probe : Probe) (id : RowId) :
    store.probes probe id = probe.passes ox (store.shownBase id) := by
  rw [VortexRdfStore.probes, Probe.passes, VortexRdfStore.keepsAll]
  simp only [keepsRow_eq]
  rfl

/-- A view whose keeps are not refused shows no appended row beside them. -/
theorem tail_of_unrefused {ids tailIds : List RowId} (h : store.Shows fl finish ids tailIds)
    {probe : Probe} (hfree : ∀ e, ¬ store.refuses probe e) (hkeeps : probe.keeps ≠ []) :
    tailIds = [] := by
  cases hcode : store.ensureCodeView "keep" with
  | error e => exact absurd ⟨hkeeps, hcode⟩ (hfree e)
  | ok =>
    obtain ⟨kept, rest, -⟩ := List.exists_cons_of_ne_nil hkeeps
    exact ((keep_spec h kept.1 kept.2).2 hcode).1

/-- A probe denotes its window of the quads that pass it, in the order its match and keeps read
in, or its keeps refuse the view. -/
theorem runProbe_denotes (h : store.Denotes fl finish rows) (zonesEnabled : Bool) (shape : ArrayShape)
    (probe : Probe) :
    (∃ e, store.refuses probe e ∧
      store.runProbe fl zonesEnabled finish shape probe = some (.error e)) ∨
    (∀ e, ¬ store.refuses probe e) ∧ ∃ whole view part,
        store.runPatternAndKeeps fl zonesEnabled finish shape probe probe.need = some (.ok whole) ∧
        rows.Filters (probe.passes ox) part ∧ whole.Denotes fl finish part ∧
        store.runProbe fl zonesEnabled finish shape probe = some (.ok view) ∧
        view.Denotes fl finish (part.paged probe.offset probe.take) := by
  obtain ⟨ids, tailIds, hshows, hfits, rfl⟩ := h
  obtain hrefused | ⟨hfree, whole, view, found, hwhole, hwholeSame, hfound, hbase, hrun, hsame, hview⟩ :=
    runProbe_spec hshows hfits zonesEnabled shape probe
  · exact .inl hrefused
  · refine .inr ⟨hfree, whole, view, ⟨found.map store.shownBase, (tailIds.filter fun id =>
      admits ox probe.pattern (store.tailQuad id)).map store.shownTail⟩, hwhole, ⟨?_, ?_⟩,
      hwholeSame.denotes hfits hfound, hrun, ?_⟩
    · exact perm_filter_map hbase fun id _ => probes_eq probe id
    · by_cases hkeeps : probe.keeps = []
      · have hpasses : probe.passes ox = fun quad => admits ox probe.pattern quad.terms := by
          funext quad
          rw [Probe.passes, hkeeps, List.all_nil, Bool.and_true]
        rw [hpasses, List.filter_map]
        rfl
      · rw [tail_of_unrefused hshows hfree hkeeps]
        rfl
    · rw [Listing.paged_map]
      exact hsame.denotes hfits hview

/-- **A batch** denotes, probe by probe in input order, the window of the quads that pass the
probe, in the order the view its match and keeps make reads in; it is refused where the keeps of
one refuse the view. -/
theorem matchMany_denotes (h : store.Denotes fl finish rows) (probes : List Probe) :
    (∃ e, (∃ probe ∈ probes, store.refuses probe e) ∧
      store.matchMany fl zonesEnabled finish shape probes = some (.error e)) ∨
    (∀ probe ∈ probes, ∀ e, ¬ store.refuses probe e) ∧
      ∃ views, store.matchMany fl zonesEnabled finish shape probes = some (.ok views) ∧
        List.Forall₂ (fun view probe => ∃ whole part, store.runPatternAndKeeps fl zonesEnabled finish
            shape probe probe.need = some (.ok whole) ∧
          rows.Filters (Probe.passes ox probe) part ∧ whole.Denotes fl finish part ∧
          VortexRdfStore.Denotes view fl finish (part.paged probe.offset probe.take)) views probes := by
  induction probes with
  | nil => exact .inr ⟨fun _ hprobe => absurd hprobe List.not_mem_nil, [], rfl, .nil⟩
  | cons probe probes ih =>
    rw [VortexRdfStore.matchMany]
    obtain ⟨e, hrefused, hrun⟩ |
      ⟨hfree, whole, view, part, hwhole, hfilter, hbefore, hrun, hdenotes⟩ :=
        runProbe_denotes h zonesEnabled shape probe
    · rw [hrun]
      exact .inl ⟨e, ⟨probe, List.mem_cons_self, hrefused⟩, rfl⟩
    · rw [hrun, Attempt.andThen_ok]
      obtain ⟨e, ⟨later, hlater, hrefused⟩, hmany⟩ | ⟨hall, views, hmany, hviews⟩ := ih
      · rw [hmany]
        exact .inl ⟨e, ⟨later, List.mem_cons_of_mem probe hlater, hrefused⟩, rfl⟩
      · rw [hmany]
        exact .inr ⟨List.forall_mem_cons.mpr ⟨hfree, hall⟩, view :: views, rfl,
          .cons ⟨whole, part, hwhole, hfilter, hbefore, hdenotes⟩ hviews⟩

theorem matchMany_denotes_untailed : ∃ views,
    ViewSample.untailed.matchMany .ofZeros true List.length allBound ViewSample.probes =
      some (.ok views) ∧
    List.Forall₂ (fun view probe => ∃ whole part, ViewSample.untailed.runPatternAndKeeps .ofZeros true
        List.length allBound probe probe.need = some (.ok whole) ∧
      ViewSample.untailedListing.Filters (Probe.passes ntriples probe) part ∧
      whole.Denotes .ofZeros List.length part ∧
      VortexRdfStore.Denotes view .ofZeros List.length (part.paged probe.offset probe.take))
      views ViewSample.probes := by
  obtain ⟨e, ⟨probe, -, hrefused⟩, -⟩ | ⟨-, hviews⟩ := @matchMany_denotes _ _ _ _ _ _ _ _ .ofZeros
    List.length true allBound _ _ ViewSample.untailed_denotes ViewSample.probes
  · exact absurd hrefused (ViewSample.unrefused probe e)
  · exact hviews

end Asked

end Views
