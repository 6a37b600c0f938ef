/-
A view served from a copy stays in step with the base.

A match that an index answers alone is served by its plan.  Whatever windows, keeps,
chained matches and partitions narrow the view, its reads off the copy are the live
matching rows in the copy's order narrowed alike, and the base row ids it yields are
those of the same rows.

* `ServedView.ofResolution` — the view of a match its resolution serves;
* `windowRows_spec` — a window of the live rows, off the component;
* `ServedView.Reads` — every read of a view gives some rows;
* `resolveIndexes_serves` — the plan the indexes hand back serves what they resolved;
* `servedView_staysInStep` — after any run of narrowings every read gives their rows.
-/
import VortexRdf.ServedViews

namespace Indexes

open Ascending Bisect Buffers Builds Dictionary Masks MaskOps Terms
open EncodedSearch (FastLanes Node)
open Store hiding Row

/-! ### The view of a match -/

/-- The view of a match whose resolution leaves none of the pattern to the rows: served,
where the index handed its plan back. -/
def ServedView.ofResolution {V : Type} {M : Type} (pattern : QuadPattern) (deleted : Option M) :
    IndexResolution V → Option (ServedView V M)
  | .resolved ids roles (some plan) =>
    if (roles.clear pattern).boundRoles.isEmpty then some ⟨plan, ids, deleted⟩ else none
  | .resolved _ _ none => none
  | .declined => none
  | .empty => none

/-! ### Windows of the live rows -/

section Entries

variable {V : Type} [LinearOrder V] [Inhabited V] {rows : List (Row V)} {family : CopyFamily}

/-- One take of a copy at some of its places. -/
theorem take_entries {l : List ℕ} (hin : ∀ i ∈ l, i < rows.length) :
    (l.mapM fun position => ((IndexChild.copy family).entries rows)[position]?) =
      some (l.map (entryAt family rows)) := by
  refine mapM_some fun i hi => ?_
  rw [getD_of_lt (by rw [IndexChild.length_entries]; exact hin i hi)]
  rfl

theorem map_fst_entryAt (l : List ℕ) :
    (l.map (entryAt family rows)).map Prod.fst = l.map ((IndexChild.copy family).rowAt rows) := by
  rw [List.map_map]
  rfl

theorem map_snd_entryAt (l : List ℕ) :
    (l.map (entryAt family rows)).map Prod.snd = l.map ((IndexChild.copy family).ridAt rows) := by
  rw [List.map_map]
  rfl

/-- A copy's entries are those at its places. -/
theorem entries_eq : (IndexChild.copy family).entries rows =
    (List.range rows.length).map (entryAt family rows) := by
  have hlen := (IndexChild.copy family).length_entries rows
  refine List.ext_getElem (by rw [hlen, List.length_map, List.length_range]) fun i hi hi' => ?_
  rw [List.getElem_map, List.getElem_range, entryAt, IndexChild.rowAt, IndexChild.ridAt,
    List.getD_eq_getElem _ _ hi]

end Entries

section Windows

variable {V : Type} [LinearOrder V] [TermColumn V] [Inhabited V] {M : Type} [MaskOps M] [LawfulMask M]
  {fl : FastLanes} {rows : List (Row V)} {family : CopyFamily} {plan : InMemoryServePlan V}
  {deleted : Option M} {places : List ℕ} {base : ServedBase V}

/-- A window of the live rows, off the component. -/
theorem InMemoryServePlan.Covers.windowRows_spec (h : plan.Covers fl rows family deleted places)
    (hsmall : rows.length ≤ usizeMax) {live : LiveRows}
    (hlive : live.Lists (.copy family) rows deleted plan.run places) {window : RowRange}
    (hwindow : window.Within places.length) : plan.windowRows base M live window =
      some (((places.drop window.start).take (window.stop - window.start)).map
        ((IndexChild.copy family).rowAt rows)) := by
  have hlen := hlive.len_eq
  have hle := h.length_le
  have hinBase := h.within.inBase
  have hentries := (IndexChild.copy family).length_entries rows
  obtain ⟨horder, hstop⟩ := hwindow
  have hsub : ((places.drop window.start).take (window.stop - window.start)).Sublist places :=
    (List.take_sublist _ _).trans (List.drop_sublist _ _)
  have htake := @take_entries V _ _ rows family _
    fun i hi => h.places_lt i (hsub.subset hi)
  -- the chunk read holds the window's places
  have hchunk : ∀ chunk, chunk =
      ((places.drop window.start).take (window.stop - window.start)).map (entryAt family rows) →
      chunkRows base chunk (none : Option M) = some (((places.drop window.start).take
        (window.stop - window.start)).map ((IndexChild.copy family).rowAt rows)) := by
    rintro chunk rfl
    rw [chunkRows_eq (by rw [List.length_map]; exact hsub.length_le.trans (hle.trans hsmall)),
      filter_liveRid_none, map_fst_entryAt]
  have hlisted : ∀ listed, listed = ServedRows.ofPairs (places.map ((IndexChild.copy family).pairAt rows)) →
      ((sliceOf listed.positions window.start window.stop).bind fun positions =>
        positions.mapM fun position => ((IndexChild.copy family).entries rows)[position]?) =
          some (((places.drop window.start).take (window.stop - window.start)).map
            (entryAt family rows)) := by
    intro listed hlisted
    have hpositions : listed.positions = places := by
      rw [hlisted, ServedRows.ofPairs, List.map_map]
      exact List.map_id' places
    rw [hpositions, sliceOf_eq horder hstop, Option.bind_some, htake]
  rw [InMemoryServePlan.windowRows, childRows_eq h.built, Option.bind_some]
  cases live with
  | range part =>
    obtain ⟨hstart, hpart, hend, hplaces⟩ := hlive
    rw [hplaces, RowRange.toList, List.length_range'] at hstop
    dsimp only
    rw [sliceOf_getD default (by omega) (by omega), Option.bind_some]
    refine hchunk _ ?_
    rw [hplaces, RowRange.toList, List.drop_range', List.take_range'_of_length_ge (by omega),
      Nat.mul_one, Nat.add_sub_add_left]
    rfl
  | spanned listed =>
    dsimp only
    rw [hlisted listed hlive.1, Option.bind_some]
    exact hchunk _ rfl
  | kept listed =>
    dsimp only
    rw [hlisted listed hlive, Option.bind_some]
    exact hchunk _ rfl

end Windows

/-! ### The reads of a view -/

section Reads

variable {V : Type} [LinearOrder V] [TermColumn V] {M : Type} [MaskOps M]

/-- The rows of what a view was cut into. -/
def Narrowed.readRows (fl : FastLanes) (base : ServedBase V) : Narrowed V M → Option (List (Row V))
  | .served view => view.plan.readRows fl base view.deleted
  | .empty => some []
  | .unserved => none
  | .refused => none

/-- Every read of a served view gives some rows, each beside its base row id: whole, a
chunk at a time, a window, or cut into partitions; the base row ids it yields, in the
copy's order or in base order, name each of them once and no other. -/
structure ServedView.Reads (fl : FastLanes) (base : ServedBase V) (entries : List (Row V × RowId))
    (view : ServedView V M) : Prop where
  rows : view.plan.readRows fl base view.deleted = some (entries.map Prod.fst)
  chunks : ∀ chunkLen, 0 < chunkLen → ∃ chunks,
    view.plan.decodeWindows fl base view.deleted chunkLen = some chunks ∧
      chunks.flatten = entries.map Prod.fst
  windows : ∃ live, view.plan.live view.deleted = some live ∧ live.len = entries.length ∧
    ∀ window : RowRange, window.Within entries.length → view.plan.windowRows base M live window =
      some (((entries.drop window.start).take (window.stop - window.start)).map Prod.fst)
  partitions : ∀ n, 0 < n → ∃ parts pieces, view.partitions n = some parts ∧
    (parts.mapM fun part => part.readRows fl base) = some pieces ∧
      pieces.flatten = entries.map Prod.fst
  rids : view.plan.liveRids view.deleted = some (entries.map Prod.snd)
  once : (entries.map Prod.snd).Nodup
  ids : ∃ ids kept, view.ids.materialized fl M = some (ids, kept) ∧ ids.SortedLT ∧
    ids.filter (liveRid view.deleted) = inOrder (entries.map Prod.snd)

variable [LawfulMask M] [Inhabited V] {fl : FastLanes} {rows : List (Row V)} {family : CopyFamily}
  {base : ServedBase V} {places : List ℕ}

/-- The pieces of a view, each read in turn. -/
theorem readRows_parts (hsmall : rows.length ≤ usizeMax) {plan : InMemoryServePlan V}
    (hbase : base.Sound fl rows plan.component) {deleted : Option M} {whole : Prop}
    {parts : List (Narrowed V M)} {pieces : List (List ℕ)}
    (h : List.Forall₂ (fun (part : Narrowed V M) (piece : List ℕ) =>
      part.Names fl rows family plan deleted whole piece) parts pieces) :
    (parts.mapM fun part => part.readRows fl base) =
      some (pieces.map fun piece => piece.map ((IndexChild.copy family).rowAt rows)) := by
  induction h with
  | nil => rfl
  | @cons part piece parts pieces hpart _ ih =>
    have hread : part.readRows fl base = some (piece.map ((IndexChild.copy family).rowAt rows)) := by
      cases part with
      | served view =>
        obtain ⟨hcomponent, -, hnames, -⟩ := hpart
        exact hnames.covers.readRows_spec hsmall (by rwa [hcomponent])
      | empty =>
        obtain rfl : piece = [] := hpart
        rfl
      | unserved => exact absurd hpart id
      | refused => exact absurd hpart id
    rw [List.mapM_cons, hread, ih]
    rfl

/-- A view that names some places reads their rows. -/
theorem ServedView.Names.reads {view : ServedView V M} (h : view.Names fl rows family places)
    (hsmall : rows.length ≤ usizeMax) (hbase : base.Sound fl rows view.plan.component) :
    view.Reads fl base (places.map (entryAt family rows)) where
  rows := by rw [map_fst_entryAt, h.covers.readRows_spec hsmall hbase]
  chunks chunkLen hchunk := by
    rw [map_fst_entryAt]
    exact h.covers.decodeWindows_spec hsmall hbase hchunk
  windows := by
    obtain ⟨live, hlive, hlists⟩ := h.covers.live_spec
    refine ⟨live, hlive, by rw [hlists.len_eq, List.length_map], fun window hwindow => ?_⟩
    rw [List.length_map] at hwindow
    rw [h.covers.windowRows_spec hsmall hlists hwindow, ← List.map_drop, ← List.map_take,
      map_fst_entryAt]
  partitions n hn := by
    obtain ⟨parts, pieces, hparts, hnames, hflat, -⟩ := h.partitions_spec hsmall hn
    refine ⟨parts, _, hparts, readRows_parts hsmall hbase hnames, ?_⟩
    rw [map_fst_entryAt, ← hflat, List.map_flatten]
  rids := by rw [map_snd_entryAt, h.covers.liveRids_spec]
  once := by
    rw [map_snd_entryAt]
    exact nodup_ridAt h.covers.ascending.nodup h.covers.places_lt
  ids := by
    obtain ⟨ids, hids, hnodup, hlive⟩ := h.ids
    obtain ⟨kept, hkept, -⟩ := hids.materialized_spec hnodup
    refine ⟨_, kept, hkept, inOrder_sorted hnodup, ?_⟩
    rw [map_snd_entryAt, ← hlive]
    -- sorting the ids, then dropping the tombstoned, sorts the live ones
    refine (inOrder_eq ?_ ?_).symm
    · exact ((inOrder_perm ids).filter _).symm
    · exact ((inOrder_sorted hnodup).pairwise.sublist List.filter_sublist).sortedLT

end Reads

/-! ### The plan of a resolution -/

section Resolution

variable {ox : Oxrdf} {V : Type} [LinearOrder V] [TermColumn V] [Inhabited V] {fl : FastLanes}
  {layout : IndexedLayout ox V} {rows : List (Row V)} {components : List (IndexComponent V)}
  {pattern : QuadPattern} {codes : PatternCodes} {indexes : List IndexType} {ids : LazyRowIds}
  {roles : ResolvedRoles} {plan : InMemoryServePlan V}

/-- The plan the indexes hand back serves the rows they resolved. -/
theorem resolveIndexes_serves (M : Type*) [MaskOps M] (hsmall : rows.length ≤ usizeMax)
    (hbuilt : ∀ c ∈ components, ∃ child, c.BuiltFrom fl rows child)
    (hprobed : Probed layout codes pattern) {windowed zonesEnabled : Bool}
    (hresolve : resolveIndexesInMemory fl ox components layout.strategy pattern codes windowed
      zonesEnabled indexes = some (.ok (.resolved ids roles (some plan)))) :
    ∃ family, Serves fl M layout rows family
      (pattern.boundRoles.filter fun term => roles.has term.role) ids plan := by
  induction indexes with
  | nil => cases hresolve
  | cons index indexes ih =>
    rw [resolveIndexesInMemory] at hresolve
    cases hchoose : choose index pattern layout.strategy with
    | none =>
      rw [hchoose] at hresolve
      exact ih hresolve
    | some probe =>
      rw [hchoose] at hresolve
      dsimp only at hresolve
      cases hfind : IndexComponent.find components probe.identity.name with
      | none =>
        rw [resolveInMemory, hfind] at hresolve
        exact ih hresolve
      | some c =>
        obtain ⟨hmem, hname⟩ := find_spec hfind
        obtain ⟨child, hc⟩ := hbuilt c hmem
        rw [hc.identity_eq] at hname
        rcases resolveInMemory_spec M hc hfind hsmall (choose_spec hchoose hname) hprobed windowed
          zonesEnabled with ⟨hempty, -⟩ | ⟨ids', roles', serve, l, hresolved, -, -, -, hserves⟩
        · rw [hempty] at hresolve
          cases hresolve
        · rw [hresolved] at hresolve
          cases hresolve
          exact hserves plan rfl

/-- A bound pattern holds of a row when its resolved terms do, none left over. -/
theorem resolved_all (h : (roles.clear pattern).boundRoles = []) :
    (pattern.boundRoles.filter fun term => roles.has term.role) = pattern.boundRoles := by
  rw [boundRoles_clear, List.filter_eq_nil_iff] at h
  refine List.filter_eq_self.mpr fun term hterm => ?_
  have := h term hterm
  rwa [Bool.not_eq_true, Bool.not_eq_false'] at this

/-- The view an index's resolution serves names the live matching rows of its copy. -/
theorem names_of_resolution {M : Type} [MaskOps M] (hsmall : rows.length ≤ usizeMax)
    (hbuilt : ∀ c ∈ components, ∃ child, c.BuiltFrom fl rows child)
    (hprobed : Probed layout codes pattern) {windowed zonesEnabled : Bool}
    {resolution : IndexResolution V}
    (hresolve : resolveIndexesInMemory fl ox components layout.strategy pattern codes windowed
      zonesEnabled indexes = some (.ok resolution)) {deleted : Option M} {view : ServedView V M}
    (hview : ServedView.ofResolution pattern deleted resolution = some view) :
    ∃ family places, view.plan.component.BuiltFrom fl rows (.copy family) ∧
      view.Names fl rows family places ∧ places.map (entryAt family rows) =
        ((IndexChild.copy family).entries rows).filter fun entry =>
          pattern.boundRoles.all (layout.holds entry.1) && liveRid deleted entry.2 := by
  cases resolution with
  | declined => cases hview
  | empty => cases hview
  | resolved ids roles serve =>
    cases serve with
    | none => cases hview
    | some plan =>
      rw [ServedView.ofResolution] at hview
      split_ifs at hview with hwhole
      obtain rfl := Option.some.inj hview
      rw [List.isEmpty_iff] at hwhole
      obtain ⟨family, hserves⟩ := resolveIndexes_serves M hsmall hbuilt hprobed hresolve
      rw [resolved_all hwhole] at hserves
      have hsorted := RowRange.sortedLT_toList plan.run
      have hrun : ∀ i ∈ plan.run.toList, i < rows.length := fun i hi => ((hserves.holds_iff i).mp hi).1
      refine ⟨family, plan.run.toList.filter fun i => liveRid deleted ((IndexChild.copy family).ridAt rows i),
        hserves.built, ⟨⟨hserves.built, hserves.within, hserves.runIds, ?_, ?_, ?_, ?_⟩, ?_⟩, ?_⟩
      · rw [hserves.span_eq]
        exact ⟨le_rfl, hserves.within.ordered, le_rfl, rfl⟩
      · exact (hsorted.pairwise.sublist List.filter_sublist).sortedLT
      · exact fun i hi => RowRange.mem_toList.mp (List.mem_filter.mp hi).1
      · exact fun i hi => (List.mem_filter.mp hi).2
      · exact ⟨_, hserves.ids, nodup_ridAt hsorted.nodup hrun, List.filter_map⟩
      · -- the run is every place of the copy that holds the terms
        have hplaces : plan.run.toList = (List.range rows.length).filter fun i =>
            pattern.boundRoles.all (layout.holds ((IndexChild.copy family).rowAt rows i)) := by
          have hfilter := (List.sortedLT_range rows.length).pairwise.sublist (@List.filter_sublist _
            (fun i => pattern.boundRoles.all (layout.holds ((IndexChild.copy family).rowAt rows i))) _)
          refine List.Perm.eq_of_pairwise' hsorted.pairwise hfilter ?_
          refine (List.perm_ext_iff_of_nodup hsorted.nodup hfilter.sortedLT.nodup).mpr fun i => ?_
          rw [hserves.holds_iff, List.mem_filter, List.mem_range]
        rw [hplaces, List.filter_filter, entries_eq, List.filter_map]
        refine congrArg (List.map _) (List.filter_congr fun i _ => ?_)
        exact Bool.and_comm _ _

end Resolution

/-! ### One copy of two rows, served -/

namespace IndexSample

/-- `?s <b> ?o`. -/
def predicatePattern : QuadPattern := ⟨none, some ⟨[98]⟩, none, none⟩

/-- A base with the codes of its objects in the cache. -/
def base : ServedBase TermCode :=
  ⟨fun column => if column = .o then some (rows.map Row.o) else none, none, fun _ => false⟩

/-- The first row tombstoned. -/
def tombstones : BitMask := fromIndices 2 [0]

def narrowings : List Narrowing :=
  [.window 0 1, .keep .o (.range 2 3), .chain ⟨some (.namedNode ⟨[97]⟩), none, none, none⟩,
    .partition 2 Nat.zero_lt_two 0]

theorem base_sound : base.Sound .ofZeros rows component where
  cached column codes h i row hrow := by
    cases column <;> cases h
    exact ⟨row.o, by rw [List.getElem?_map, hrow, Option.map_some], rfl⟩
  rids probe h := by cases h

/-- The rows stand in the copy as they stand in the base. -/
theorem component_eq : component =
    { component with
      columns := (IndexChild.copy .posg).columns [(⟨1, 2, 1, 0⟩, 0), (⟨1, 2, 2, 0⟩, 1)]
      rids := [0, 1] } := by
  have hentries : (IndexChild.copy .posg).entries rows =
      [(⟨1, 2, 1, 0⟩, 0), (⟨1, 2, 2, 0⟩, 1)] := by
    rw [IndexChild.entries, DistinctSort.sortBy]
    exact List.mergeSort_of_pairwise (by decide)
  rw [component, hentries]
  rfl

end IndexSample

/-! ### Staying in step -/

section Step

variable {ox : Oxrdf} {V : Type} [LinearOrder V] [TermColumn V] {M : Type} [MaskOps M]

/-- What a run of narrowings makes of a served view answers with some rows: every read
gives them, or there are none; only a keep or a first chained match leaves the plan. -/
def Narrowed.Answers (fl : FastLanes) (base : ServedBase V) (layout : IndexedLayout ox V)
    (c : IndexComponent V) (narrowings : List Narrowing) (entries : List (Row V × RowId)) :
    Narrowed V M → Prop
  | .served view => view.Reads fl base entries
  | .empty => entries = []
  | .unserved => LeftBy base layout c True (.unserved : Narrowed V M) narrowings
  | .refused => LeftBy base layout c True (.refused : Narrowed V M) narrowings

variable [LawfulMask M] [Inhabited V]

/-- **A served view stays in step with the base**: whatever windows, keeps, chained matches
and partitions narrow it, under any tombstones, its reads off the copy are the live rows
matching the pattern, in the copy's order, narrowed alike, and the base row ids it yields
are those of the same rows. -/
theorem servedView_staysInStep (fl : FastLanes) (layout : IndexedLayout ox V) {rows : List (Row V)}
    (hsmall : rows.length ≤ usizeMax) {components : List (IndexComponent V)}
    (hbuilt : ∀ c ∈ components, ∃ child, c.BuiltFrom fl rows child) (pattern : QuadPattern)
    {codes : PatternCodes} (hcodes : layout.prepare pattern = .codes codes)
    (windowed zonesEnabled : Bool) (indexes : List IndexType) {resolution : IndexResolution V}
    (hresolve : resolveIndexesInMemory fl ox components layout.strategy pattern codes windowed
      zonesEnabled indexes = some (.ok resolution)) (deleted : Option M) {view : ServedView V M}
    (hview : ServedView.ofResolution pattern deleted resolution = some view) {base : ServedBase V}
    (hbase : base.Sound fl rows view.plan.component) (narrowings : List Narrowing) :
    ∃ family outcome, view.plan.component.BuiltFrom fl rows (.copy family) ∧
      view.run fl base layout narrowings = some (.ok outcome) ∧
      outcome.Answers fl base layout view.plan.component narrowings
        (narrowings.foldl (fun entries narrowing => narrowing.apply layout entries)
          (((IndexChild.copy family).entries rows).filter fun entry =>
            pattern.boundRoles.all (layout.holds entry.1) && liveRid deleted entry.2)) := by
  obtain ⟨family, places, hcopy, hnames, hentries⟩ :=
    names_of_resolution hsmall hbuilt (layout.prepared hcodes) hresolve hview
  obtain ⟨outcome, hrun, hcases⟩ := @run_spec ox V _ _ layout _ fl rows family M _ _ base hsmall
    narrowings view places hnames hbase
  refine ⟨family, outcome, hcopy, hrun, ?_⟩
  rw [← hentries]
  rcases hcases with ⟨part, hpart, hrows⟩ | hleft
  · rw [hrows]
    cases outcome with
    | served narrowed =>
      obtain ⟨hcomponent, -, hnarrowed, -⟩ := hpart
      exact hnarrowed.reads hsmall (by rwa [hcomponent])
    | empty =>
      obtain rfl : part = [] := hpart
      rfl
    | unserved => exact absurd hpart id
    | refused => exact absurd hpart id
  · cases outcome with
    | served narrowed =>
      rcases hleft with ⟨column, codes, -, ⟨h, -⟩ | ⟨h, -⟩⟩ | ⟨h, -⟩ <;> cases h
    | empty =>
      rcases hleft with ⟨column, codes, -, ⟨h, -⟩ | ⟨h, -⟩⟩ | ⟨h, -⟩ <;> cases h
    | unserved => exact hleft.imp_right fun h => ⟨h.1, trivial, h.2.2⟩
    | refused => exact hleft.imp_right fun h => ⟨h.1, trivial, h.2.2⟩

/-- The live row of the two, windowed, kept, matched again and cut, each time off the copy. -/
theorem servedView_staysInStep_sample : ∃ (view part : ServedView TermCode BitMask)
    (family : CopyFamily),
    ServedView.run .ofZeros IndexSample.base
      (dictionaryIndexed ntriples IndexSample.dict IndexSample.dict_sorted) view
        IndexSample.narrowings = some (.ok (.served part)) ∧
    part.Reads .ofZeros IndexSample.base
      (IndexSample.narrowings.foldl (fun entries narrowing =>
        narrowing.apply (dictionaryIndexed ntriples IndexSample.dict IndexSample.dict_sorted) entries)
        (((IndexChild.copy family).entries IndexSample.rows).filter fun entry =>
          IndexSample.predicatePattern.boundRoles.all ((dictionaryIndexed ntriples IndexSample.dict
            IndexSample.dict_sorted).holds entry.1) &&
            liveRid (some IndexSample.tombstones) entry.2)) := by
  have hbuilt : ∀ c ∈ [IndexSample.component], ∃ child, c.BuiltFrom .ofZeros IndexSample.rows child := by
    intro c hc
    rw [List.mem_singleton.mp hc]
    exact ⟨_, IndexSample.component_built⟩
  have hserved : ∃ codes resolution view part,
      (dictionaryIndexed ntriples IndexSample.dict IndexSample.dict_sorted).prepare
        IndexSample.predicatePattern = .codes codes ∧
      resolveIndexesInMemory .ofZeros ntriples [IndexSample.component] .dictionary
        IndexSample.predicatePattern codes false true [.secondaryByCopy] = some (.ok resolution) ∧
      ServedView.ofResolution IndexSample.predicatePattern (some IndexSample.tombstones) resolution =
        some view ∧ view.plan.component = IndexSample.component ∧
      ServedView.run .ofZeros IndexSample.base
        (dictionaryIndexed ntriples IndexSample.dict IndexSample.dict_sorted) view
          IndexSample.narrowings = some (.ok (.served part)) := by
    rw [IndexSample.component_eq]
    exact ⟨_, _, _, _, rfl, rfl, rfl, rfl, rfl⟩
  obtain ⟨codes, resolution, view, part, hcodes, hresolve, hview, hcomponent, hpart⟩ := hserved
  obtain ⟨family, outcome, -, hrun, hanswers⟩ := servedView_staysInStep .ofZeros
    (dictionaryIndexed ntriples IndexSample.dict IndexSample.dict_sorted) (by decide) hbuilt
    IndexSample.predicatePattern hcodes false true [.secondaryByCopy] hresolve
    (some IndexSample.tombstones) hview (by rw [hcomponent]; exact IndexSample.base_sound)
    IndexSample.narrowings
  obtain rfl := Except.ok.inj (Option.some.inj (hpart.symm.trans hrun))
  exact ⟨view, part, family, hpart, hanswers⟩

end Step

end Indexes
