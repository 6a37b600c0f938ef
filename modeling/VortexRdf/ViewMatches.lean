/-
A pattern matched over a view.

The base and the tail are matched apart.  A view whose base still holds the pending matches of
one pattern over every row is matched as one match of both patterns; a view a narrowing cut is
filtered in its index's order; any other is matched over its base.

* `QuadPattern.and` — two patterns at once;
* `VortexRdfStore.matchBase`, `matchTail_spec` — the match of the base, and of the tail;
* `VortexRdfStore.matchPatternFor` — the match of both;
* `admits`, `VortexRdfStore.baseQuad`, `.tailQuad` — the quad of a row, and whether it matches;
* `narrowedTo_shows` — a view a narrowing cut shows the places it names;
* `matchBoth_spec` — one match of two patterns is the match of one after the other;
* `matchPatternFor_spec` — whichever path it takes, the view of a match shows the rows whose
  quads hold its terms;
* `ViewSample.store` — two rows under the Dictionary layout, with an index of them and a tail.
-/
import VortexRdf.BaseMatches

namespace Store

open Terms Masks MaskOps Buffers Ascending

/-! ### Two patterns at once -/

/-- A role two patterns bind, or one; none where they bind it to different terms. -/
def both {T : Type} [DecidableEq T] (mine theirs : Option T) : Option (Option T) :=
  match mine, theirs with
  | some a, some b => if a ≠ b then none else some (some a)
  | a, b => some (a.or b)

/-- The pattern that binds what two do; none where they bind a role to different terms. -/
def QuadPattern.and (first other : QuadPattern) : Option QuadPattern :=
  (both first.subject other.subject).bind fun subject =>
    (both first.predicate other.predicate).bind fun predicate =>
      (both first.object other.object).bind fun object =>
        (both first.graph other.graph).map fun graph => ⟨subject, predicate, object, graph⟩

theorem both_eq_some {T : Type} [DecidableEq T] {mine theirs joined : Option T}
    (h : both mine theirs = some joined) (a : T) :
    joined = some a ↔ mine = some a ∨ theirs = some a := by
  rcases mine with _ | b <;> rcases theirs with _ | c
  · obtain rfl := Option.some.inj h
    exact (or_self_iff).symm
  · obtain rfl := Option.some.inj h
    exact ⟨.inr, fun h => h.resolve_left nofun⟩
  · obtain rfl := Option.some.inj h
    exact ⟨.inl, fun h => h.resolve_right nofun⟩
  · rw [both] at h
    split_ifs at h with hne
    obtain rfl := Option.some.inj h
    rw [ne_eq, not_not] at hne
    rw [hne, or_self_iff]

theorem QuadPattern.mem_boundRoles {pattern : QuadPattern} {term : TermRef} :
    term ∈ pattern.boundRoles ↔
      match term with
      | .subject s => pattern.subject = some s
      | .predicate p => pattern.predicate = some p
      | .object o => pattern.object = some o
      | .graph g => pattern.graph = some g := by
  rw [boundRoles, List.reduceOption_mem_iff]
  cases term <;> simp [eq_comm, Option.map_eq_some_iff]

/-- The joined pattern binds the terms of both. -/
theorem QuadPattern.mem_boundRoles_and {first other joined : QuadPattern}
    (h : first.and other = some joined) (term : TermRef) :
    term ∈ joined.boundRoles ↔ term ∈ first.boundRoles ∨ term ∈ other.boundRoles := by
  obtain ⟨subject, hsubject, h⟩ := Option.bind_eq_some_iff.mp h
  obtain ⟨predicate, hpredicate, h⟩ := Option.bind_eq_some_iff.mp h
  obtain ⟨object, hobject, h⟩ := Option.bind_eq_some_iff.mp h
  obtain ⟨graph, hgraph, rfl⟩ := Option.map_eq_some_iff.mp h
  rw [mem_boundRoles, mem_boundRoles, mem_boundRoles]
  cases term with
  | subject s => exact both_eq_some hsubject s
  | predicate p => exact both_eq_some hpredicate p
  | object o => exact both_eq_some hobject o
  | graph g => exact both_eq_some hgraph g

/-! ### The tail's match -/

section Tails

variable {layout : StringLayout} {finish : Finish} {M : Type*} [MaskOps M] [LawfulMask M]

/-- The match of a tail keeps its selected rows that hold the pattern's equalities, whether
the keys name them or not. -/
theorem matchTail_spec (ox : Oxrdf) {t : Tail M layout} (h : t.Kept finish) (shape : ArrayShape)
    (pattern : QuadPattern) :
    ∃ kept, t.matchTail finish ox shape pattern = some (t.withSelection kept) ∧
      kept.Within t.rows.length ∧ kept.rows t.rows.length =
        (t.selection.rows t.rows.length).filter fun row =>
          holdsAt t.rows (pattern.boundRoles.flatMap (stringEqualities ox layout)) row = true := by
  have hcompares : Compares layout _ := compares_terms ox pattern.boundRoles
  rw [Tail.matchTail]
  split_ifs with hempty
  · refine ⟨t.selection, rfl, h.selected, ?_⟩
    rw [RowSelection.isEmpty, len_eq_card h.fits h.selected, beq_iff_eq,
      Finset.card_eq_zero] at hempty
    rw [hempty, Finset.filter_empty]
  · rw [stringConstraints_eq]
    dsimp only
    split_ifs with hfree
    · -- nothing bound: every selected row matches
      refine ⟨t.selection, rfl, h.selected, (Finset.filter_true_of_mem fun row hrow => ?_).symm⟩
      rw [hfree, holdsAt, List.getElem?_eq_getElem (rows_lt h.selected hrow)]
      rfl
    · cases hkey : TailKeys.equalityKey finish (keyColumns layout)
          (pattern.boundRoles.flatMap (stringEqualities ox layout)) with
      | none =>
        have hnone : t.keys.candidates finish
            (pattern.boundRoles.flatMap (stringEqualities ox layout)) = none := by
          rw [TailKeys.candidates, h.keyed.columns, hkey, Option.map_none]
        obtain ⟨kept, hkept, hwithin, hrows⟩ :=
          @tailRowsHolding_selects _ M _ _ _ h.fits _ h.selected _ hcompares shape
        refine ⟨kept, ?_, hwithin, hrows⟩
        rw [hnone]
        dsimp only
        rw [hkept, Option.map_some]
      | some key =>
        obtain ⟨kept, hkept, hwithin, hrows⟩ := keyed_selects h shape hcompares hkey
        refine ⟨kept, ?_, hwithin, hrows⟩
        rw [candidates_eq h.keyed hkey]
        dsimp only
        rw [hkept, Option.map_some]

end Tails

end Store

namespace Views

open Ascending Buffers Builds Dictionary Indexes Masks MaskOps Terms
open EncodedSearch (FastLanes)
open Store hiding Row

/-! ### The match -/

/-- The narrowest pending run whose match names its pattern. -/
def CHAIN_MIN_ROWS : ℕ := 1024

section Match

variable {ox : Oxrdf} {V M : Type} [LinearOrder V] [TermColumn V] [MaskOps M] (fl : FastLanes)
  (zonesEnabled : Bool)

/-- This source under what is left of a view its plan serves. -/
def QuadsSource.narrowedTo (quads : QuadsSource V M) (view : ServedView V M) : QuadsSource V M :=
  quads.inMemoryWith (.pending view.ids none) (some view.plan)

namespace VortexRdfStore

variable (store : VortexRdfStore ox V M)

/-- The view narrowed to a keep's or a chained match's rows. -/
def servedKept (view : ServedView V M) (kept : ServedRows) : Option (VortexRdfStore ox V M) :=
  if kept.rids.length = 0 then some store.emptyView
  else (view.narrowed (.kept kept)).map fun narrowed =>
    store.derived (store.quads.narrowedTo narrowed) store.tail

/-- A pattern matched over the base of a view a narrowing cut, in its index's order. -/
def servedChain (view : ServedView V M) (pattern : QuadPattern) (codes : PatternCodes) :
    Attempt (VortexRdfStore ox V M) :=
  Attempt.andThen (some (ServedView.chainEqs ox codes pattern.boundRoles)) fun eqs =>
    match eqs with
    | none => some (.ok store.emptyView)
    | some [] => some (.ok store)
    | some (eq :: eqs) =>
      (view.plan.rowsWhere view.deleted (eq :: eqs)).bind fun kept =>
        (store.servedKept view kept).map .ok

/-- The view of a match over every row, its pattern named where the run is wide. -/
def naming (pattern : QuadPattern) : VortexRdfStore ox V M :=
  match store.quads.selection with
  | .pending ids _ =>
    if ids.lenIfKnown.all fun rows => CHAIN_MIN_ROWS ≤ rows then
      { store with quads := { store.quads with selection := .pending ids (some pattern) } }
    else store
  | _ => store

/-- The match of a pattern over the base alone, one view at a time. -/
def matchEach (pattern : QuadPattern) (need : IdsNeed) : Attempt (VortexRdfStore ox V M) :=
  match store.layout.prepare pattern with
  | .empty => some (.ok store.emptyView)
  | .codes codes =>
    match store.quads.served.filter fun view => view.plan.narrowed with
    | some view => store.servedChain view pattern codes
    | none =>
      Attempt.andThen (store.matchBaseInMemory fl zonesEnabled pattern codes need) fun matched =>
        if store.quads.isUnrefined && decide (need = .rows) then some (.ok (matched.naming pattern))
        else some (.ok matched)

/-- One match of two patterns over every base row. -/
def matchBoth (joined : QuadPattern) (need : IdsNeed) : Attempt (VortexRdfStore ox V M) :=
  -- the view over every row names no pattern, so it is matched on its own
  Attempt.andThen ((store.derived store.quads.unrestricted store.tail).matchEach fl zonesEnabled
    joined need) fun matched =>
      if need.countsOrWindows then some (.ok matched)
      else (matched.quads.selection.materialized fl M).map fun ids =>
        .ok (matched.derived (matched.quads.withSelection (.exact ids)) matched.tail)

/-- The match of a pattern over the base alone: with the pattern the view still names, where
it names one that agrees. -/
def matchBase (pattern : QuadPattern) (need : IdsNeed) : Attempt (VortexRdfStore ox V M) :=
  match store.quads.selection with
  | .pending _ (some first) =>
    match first.and pattern with
    | some joined => store.matchBoth fl zonesEnabled joined need
    | none => store.matchEach fl zonesEnabled pattern need
  | _ => store.matchEach fl zonesEnabled pattern need

variable (finish : Finish) (shape : ArrayShape)

/-- The match of a pattern: of the base, and of the tail whatever the base concluded. -/
def matchPatternFor (pattern : QuadPattern) (need : IdsNeed) : Attempt (VortexRdfStore ox V M) :=
  Attempt.andThen (store.matchBase fl zonesEnabled pattern need) fun matched =>
    match store.tail with
    | some tail => (tail.matchTail finish ox shape pattern).map fun tail =>
        .ok { matched with tail := some tail }
    | none => some (.ok matched)

def matchPattern (pattern : QuadPattern) : Attempt (VortexRdfStore ox V M) :=
  store.matchPatternFor fl zonesEnabled finish shape pattern .rows

end VortexRdfStore

end Match

/-! ### Views a narrowing cut -/

section Narrowed

variable {V M : Type} [LinearOrder V] [TermColumn V] [Inhabited V] [MaskOps M]
  {fl : FastLanes} {rows : List (Row V)} {family : CopyFamily} {places : List ℕ}
  {view : ServedView V M}

omit [LinearOrder V] [TermColumn V] [Inhabited V] [MaskOps M] in
/-- A narrowed view reads in the order the view did. -/
theorem narrowed_decode {live : LiveRows} {narrowed : ServedView V M}
    (h : view.narrowed live = some narrowed) : narrowed.plan.decode = view.plan.decode := by
  obtain ⟨⟨span, ids⟩, -, rfl⟩ := Option.map_eq_some_iff.mp h
  rfl

/-- A view narrowed to some of its live rows keeps their ids unsorted. -/
theorem narrowed_ids (h : view.Names fl rows family places) {part : List ℕ} {live : LiveRows}
    (hlive : live.Lists (.copy family) rows view.deleted view.plan.run part) {narrowed : ServedView V M}
    (hnarrowed : view.narrowed live = some narrowed) :
    narrowed.ids = .fromUnsortedIds (part.map ((IndexChild.copy family).ridAt rows)) := by
  have hrids : (ServedRows.ofPairs (part.map ((IndexChild.copy family).pairAt rows))).rids =
      part.map ((IndexChild.copy family).ridAt rows) := by
    show (part.map ((IndexChild.copy family).pairAt rows)).map Prod.snd = _
    rw [List.map_map]
    rfl
  obtain ⟨⟨span, ids⟩, hinto, rfl⟩ := Option.map_eq_some_iff.mp hnarrowed
  cases live with
  | range range =>
    obtain ⟨hstart, horder, hstop, rfl⟩ := hlive
    rw [LiveRows.intoSpan, h.covers.rangeRids_spec hstart horder hstop] at hinto
    exact (Prod.mk.inj (Option.some.inj hinto)).2.symm
  | spanned listed =>
    obtain ⟨rfl, -⟩ := hlive
    rw [LiveRows.intoSpan] at hinto
    split at hinto
    · rw [← (Prod.mk.inj (Option.some.inj hinto)).2, hrids]
    · cases hinto
  | kept listed =>
    obtain rfl : listed = _ := hlive
    rw [LiveRows.intoSpan] at hinto
    rw [← (Prod.mk.inj (Option.some.inj hinto)).2, hrids]

/-- A source under some named places whose ids are kept unsorted shows them, in the index's
order. -/
theorem QuadsSource.narrowedTo_shows {ox : Oxrdf} {layout : RoleLayout ox V} {quads : QuadsSource V M}
    (h : view.Names fl quads.memory.base.rows family places)
    (hids : view.ids = .fromUnsortedIds (places.map ((IndexChild.copy family).ridAt
      quads.memory.base.rows)))
    (hdeleted : view.deleted = quads.deleted)
    (hdeclared : view.plan.decode.Declares layout.strategy quads.memory.base.rows
      (places.map ((IndexChild.copy family).ridAt quads.memory.base.rows))) :
    (quads.narrowedTo view).Shows fl layout
      (places.map ((IndexChild.copy family).ridAt quads.memory.base.rows)) := by
  have hcovers := h.covers
  rw [hdeleted] at hcovers
  have hlive := filter_live_of_all hcovers.live
  refine ⟨⟨family, places, view.ids, none, _, rfl, hcovers, ⟨?_, ?_, ?_, ?_⟩, hlive, rfl⟩, ?_, ?_⟩
  · rw [hids]
    exact ⟨rfl, kept_none _⟩
  · exact nodup_ridAt hcovers.ascending.nodup hcovers.places_lt
  · intro id hid
    obtain ⟨i, hi, rfl⟩ := List.mem_map.mp hid
    exact (List.getElem?_eq_some_iff.mp (getElem?_ridAt (hcovers.places_lt i hi))).1
  · intro ids sorted hunsorted id hid
    rw [hids] at hunsorted
    cases hunsorted
    obtain ⟨i, hi, rfl⟩ := List.mem_map.mp hid
    exact hcovers.live i hi
  · intro plan hplan
    obtain rfl : view.plan = plan := Option.some.inj hplan
    exact hdeclared
  · intro lazy first hselection
    have hpending : ViewSelection.pending view.ids none = .pending lazy (some first) := hselection
    cases hpending

end Narrowed

/-! ### The base's match -/

section Bases

variable {ox : Oxrdf} {V M : Type} [LinearOrder V] [TermColumn V] [Inhabited V] [MaskOps M]
  {fl : FastLanes} {finish : Finish} {store : VortexRdfStore ox V M} {ids : List RowId}
  {codes : PatternCodes}

theorem inOrder_filter {l : List RowId} (h : l.Nodup) (p : RowId → Bool) :
    inOrder (l.filter p) = (inOrder l).filter p :=
  inOrder_eq ((inOrder_perm l).symm.filter p)
    ((inOrder_sorted h).pairwise.sublist List.filter_sublist).sortedLT

omit [Inhabited V] [MaskOps M] in
theorem SameData.refl (store : VortexRdfStore ox V M) : SameData store store := ⟨rfl, rfl, rfl, rfl⟩

omit [Inhabited V] [MaskOps M] in
theorem SameData.trans {store view view' : VortexRdfStore ox V M} (h : SameData store view)
    (h' : SameData view view') : SameData store view' :=
  ⟨h'.base.trans h.base, h'.deleted.trans h.deleted, h'.layout.trans h.layout, h'.tail.trans h.tail⟩

omit [Inhabited V] [MaskOps M] in
/-- Views of the same data match a row alike. -/
theorem SameData.matches {store view : VortexRdfStore ox V M} (h : SameData store view)
    (pattern : QuadPattern) : view.matches pattern = store.matches pattern := by
  funext i
  rw [VortexRdfStore.matches, VortexRdfStore.matches, h.base, h.layout]

variable {family : CopyFamily}

omit [MaskOps M] in
/-- The base row of a place holds a pattern's terms where the copy's row does. -/
theorem matches_ridAt {i : ℕ} (hi : i < store.quads.memory.base.rows.length)
    (pattern : QuadPattern) :
    store.matches pattern ((IndexChild.copy family).ridAt store.quads.memory.base.rows i) =
      pattern.boundRoles.all (store.layout.holds
        ((IndexChild.copy family).rowAt store.quads.memory.base.rows i)) :=
  matchesAt_row (getElem?_ridAt hi)

/-- A view narrowed to some of its live places shows their rows, in the order it read in. -/
theorem narrowed_shows {view : ServedView V M} {places : List ℕ}
    (hnames : view.Names fl store.quads.memory.base.rows family places)
    (hdeleted : view.deleted = store.quads.deleted)
    (hdeclared : view.plan.decode.Declares store.layout.strategy store.quads.memory.base.rows
      (places.map ((IndexChild.copy family).ridAt store.quads.memory.base.rows))) {part : List ℕ}
    (hpart : part.Sublist places) (hne : part ≠ []) {live : LiveRows}
    (hlists : live.Lists (.copy family) store.quads.memory.base.rows view.deleted view.plan.run part) :
    ∃ narrowed, view.narrowed live = some narrowed ∧
      (store.quads.narrowedTo narrowed).Shows fl store.layout
        (part.map ((IndexChild.copy family).ridAt store.quads.memory.base.rows)) ∧
      (store.quads.narrowedTo narrowed).readOrder = some view.plan.decode.order := by
  obtain ⟨narrowed, hnarrowed, -, hsame, hshown, -⟩ := hnames.narrowed_spec hpart hne hlists
  have hdecode := narrowed_decode hnarrowed
  refine ⟨narrowed, hnarrowed, QuadsSource.narrowedTo_shows hshown
    (narrowed_ids hnames hlists hnarrowed) (hsame.trans hdeleted) ?_, ?_⟩
  · rw [hdecode]
    exact hdeclared.sublist (hpart.map _)
  · rw [← hdecode]
    rfl

omit [LinearOrder V] [TermColumn V] [Inhabited V] [MaskOps M] in
/-- A view a plan serves is read off its plan. -/
theorem QuadsSource.narrowedTo_served (quads : QuadsSource V M) (view : ServedView V M) :
    (quads.narrowedTo view).isPendingWithoutPlan = false := by
  show (!(ViewSelection.pending view.ids none).isExact && (some view.plan).isNone) = false
  rw [Option.isNone_some, Bool.and_false]

/-- The places of a served view that pass a test, kept. -/
theorem servedKept_shows (h : store.Sound fl finish) {view : ServedView V M}
    {places : List ℕ} (hnames : view.Names fl store.quads.memory.base.rows family places)
    (hdeleted : view.deleted = store.quads.deleted)
    (hdeclared : view.plan.decode.Declares store.layout.strategy store.quads.memory.base.rows
      (places.map ((IndexChild.copy family).ridAt store.quads.memory.base.rows))) (q : ℕ → Bool) :
    ∃ kept, store.servedKept view (ServedRows.ofPairs ((places.filter q).map
        ((IndexChild.copy family).pairAt store.quads.memory.base.rows))) = some kept ∧
      kept.Sound fl finish ∧ SameData store kept ∧
      kept.quads.Shows fl kept.layout ((places.filter q).map
        ((IndexChild.copy family).ridAt store.quads.memory.base.rows)) ∧
      kept.quads.isPendingWithoutPlan = false := by
  have hlen : (ServedRows.ofPairs ((places.filter q).map
      ((IndexChild.copy family).pairAt store.quads.memory.base.rows))).rids.length =
        (places.filter q).length := by
    rw [ServedRows.ofPairs, List.length_map, List.length_map]
  rw [VortexRdfStore.servedKept, hlen]
  split_ifs with hnone
  · obtain ⟨hshows, hsame⟩ := h.emptyView
    rw [List.length_eq_zero_iff.mp hnone]
    exact ⟨_, rfl, hshows.sound, hsame, hshows.base, rfl⟩
  · have hne : places.filter q ≠ [] := fun hempty => hnone (by rw [hempty, List.length_nil])
    have hlists : (LiveRows.kept (ServedRows.ofPairs ((places.filter q).map
        ((IndexChild.copy family).pairAt store.quads.memory.base.rows)))).Lists (.copy family)
          store.quads.memory.base.rows view.deleted view.plan.run (places.filter q) := rfl
    obtain ⟨narrowed, hnarrowed, hpart, -⟩ :=
      narrowed_shows hnames hdeleted hdeclared List.filter_sublist hne hlists
    rw [hnarrowed]
    exact ⟨_, rfl, (h.selecting _ _).1, (h.selecting _ _).2, hpart, store.quads.narrowedTo_served narrowed⟩

variable [LawfulMask M]

variable {pattern : QuadPattern}

/-- A chained match of a view a narrowing cut keeps its rows that hold the pattern's terms, in
the order they read in. -/
theorem servedChain_spec (h : store.Sound fl finish)
    (hcodes : store.layout.prepare pattern = .codes codes) {view : ServedView V M}
    {places : List ℕ}
    (hnames : view.Names fl store.quads.memory.base.rows family places)
    (hdeleted : view.deleted = store.quads.deleted)
    (hids : ids = places.map ((IndexChild.copy family).ridAt store.quads.memory.base.rows))
    (hshows : store.quads.Shows fl store.layout ids)
    (hserve : store.quads.memory.serve = some view.plan) :
    ∃ kept, store.servedChain view pattern codes = some (.ok kept) ∧ kept.Sound fl finish ∧
      SameData store kept ∧
      kept.quads.Shows fl kept.layout (ids.filter (store.matches pattern)) ∧
      kept.quads.isPendingWithoutPlan = false := by
  have hprobed : Probed store.layout.toIndexedLayout codes pattern := store.layout.prepared hcodes
  obtain ⟨eqs, heqs, hasks⟩ := chainEqs_spec hprobed
  rw [VortexRdfStore.servedChain, heqs, Attempt.andThen_ok]
  cases eqs with
  | nil =>
    have hread : store.quads.isPendingWithoutPlan = false := by
      rw [QuadsSource.isPendingWithoutPlan, hserve, Option.isNone_some, Bool.and_false]
    refine ⟨store, rfl, h, .refl store, ?_, hread⟩
    have hall : ids.filter (store.matches pattern) = ids := by
      refine List.filter_eq_self.mpr fun id hid => ?_
      rw [VortexRdfStore.matches, List.forall₂_nil_right_iff.mp hasks]
      exact matchesAt_nil (hshows.reads.inBase hid)
    rwa [hall]
  | cons eq eqs =>
    have hfilter : ids.filter (store.matches pattern) = (places.filter fun i =>
        pattern.boundRoles.all (store.layout.holds
          ((IndexChild.copy family).rowAt store.quads.memory.base.rows i))).map
            ((IndexChild.copy family).ridAt store.quads.memory.base.rows) := by
      rw [hids, List.filter_map]
      refine congrArg (List.map _) (List.filter_congr fun i hi => ?_)
      exact matches_ridAt (hnames.covers.places_lt i hi) pattern
    have hdeclared := hshows.declared view.plan hserve
    rw [hids] at hdeclared
    obtain ⟨kept, hkept, hspec⟩ := servedKept_shows h hnames hdeleted hdeclared fun i =>
      pattern.boundRoles.all (store.layout.holds
        ((IndexChild.copy family).rowAt store.quads.memory.base.rows i))
    refine ⟨kept, ?_, by rwa [hfilter]⟩
    dsimp only
    rw [hnames.covers.rowsWhere_spec hasks, Option.bind_some, hkept, Option.map_some]

omit [LawfulMask M] in
/-- A view of every row names what a match over it left pending. -/
theorem BaseMatched.naming {need : IdsNeed} {view : VortexRdfStore ox V M}
    (h : BaseMatched fl finish store pattern need ids view)
    (hall : inOrder ids = (List.range store.quads.baseLen).filter (live store.quads.deleted)) :
    BaseMatched fl finish store pattern need ids (view.naming pattern) := by
  cases hselection : view.quads.selection with
  | exact s => rwa [VortexRdfStore.naming, hselection]
  | residual compare => rwa [VortexRdfStore.naming, hselection]
  | pending lazy matched =>
    simp only [VortexRdfStore.naming, hselection]
    split_ifs with hwide
    · obtain ⟨ids', hshows, horder⟩ := h.shows
      refine ⟨⟨h.sound.memory, h.sound.tombstones, h.sound.kept⟩,
        ⟨h.same.base, h.same.deleted, h.same.layout, h.same.tail⟩,
        ⟨ids', ⟨?_, hshows.declared, ?_⟩, horder⟩, ?_⟩
      · have hreads := hshows.reads
        rw [QuadsSource.Reads] at hreads ⊢
        dsimp only
        cases hserve : view.quads.memory.serve with
        | none =>
          rw [hserve, hselection] at hreads
          exact hreads
        | some plan =>
          rw [hserve] at hreads
          obtain ⟨family, places, lazy', _, l, hpending, hrest⟩ := hreads
          rw [hselection] at hpending
          cases hpending
          exact ⟨family, places, lazy, some pattern, l, rfl, hrest⟩
      · intro lazy' first hnamed
        cases hnamed
        dsimp only
        rw [horder, hall, h.same.base, h.same.deleted, h.same.layout, matchingRows_eq,
          List.filter_filter, List.filter_filter]
        exact List.filter_congr fun i _ => Bool.and_comm _ _
      · intro hneed
        have hread := h.read hneed
        rw [QuadsSource.isPendingWithoutPlan, hselection] at hread
        exact hread
    · exact h

omit [LawfulMask M] in
/-- A view of every row shows the live ones, in base order. -/
theorem QuadsSource.Reads.every_row {quads : QuadsSource V M} (h : quads.Reads fl ids)
    (hall : quads.isUnrefined = true) :
    inOrder ids = (List.range quads.baseLen).filter (live quads.deleted) := by
  have hyields := h.yields
  rw [QuadsSource.isUnrefined] at hall
  cases hselection : quads.selection with
  | exact s =>
    rw [hselection] at hyields hall
    cases s with
    | all =>
      rw [hyields.2, RowSelection.liveListing]
      exact congrArg (List.filter _) (Finset.sort_range _)
    | range run => cases hall
    | ids l => cases hall
  | pending lazy matched =>
    rw [hselection] at hall
    cases hall
  | residual compare =>
    rw [hselection] at hall
    cases hall

omit [LawfulMask M] in
theorem sortedLT_live (deleted : Option M) (n : ℕ) :
    ((List.range n).filter (live deleted)).SortedLT :=
  ((List.sortedLT_range n).pairwise.sublist List.filter_sublist).sortedLT

omit [LawfulMask M] in
/-- A view of every row shows the live ones. -/
theorem QuadsSource.unrestricted_shows (layout : RoleLayout ox V) (quads : QuadsSource V M) :
    quads.unrestricted.Shows fl layout ((List.range quads.baseLen).filter (live quads.deleted)) := by
  have hshows := @QuadsSource.Shows.exact ox V M _ _ _ _ fl quads layout .all trivial
  have hlisting : RowSelection.all.listing quads.baseLen = List.range quads.baseLen :=
    Finset.sort_range _
  rwa [RowSelection.liveListing, hlisting] at hshows

omit [Inhabited V] [MaskOps M] [LawfulMask M] in
/-- A row holds a joined pattern's terms where it holds those of both. -/
theorem matches_joined {layout : IndexedLayout ox V} {rows : List (Row V)}
    {first joined : QuadPattern} (h : first.and pattern = some joined) (i : ℕ) :
    matchesAt layout rows joined.boundRoles i =
      (matchesAt layout rows first.boundRoles i && matchesAt layout rows pattern.boundRoles i) := by
  rw [← matchesAt_append]
  refine matchesAt_congr (fun term => ?_) i
  rw [QuadPattern.mem_boundRoles_and h, List.mem_append]

/-- One match of a pattern over a view's base. -/
theorem matchEach_spec (h : store.Sound fl finish) (hshows : store.quads.Shows fl store.layout ids)
    (zonesEnabled : Bool) (pattern : QuadPattern) (need : IdsNeed) :
    ∃ view, store.matchEach fl zonesEnabled pattern need = some (.ok view) ∧
      BaseMatched fl finish store pattern need ids view := by
  have hreads := hshows.reads
  rw [VortexRdfStore.matchEach]
  cases hcodes : store.layout.prepare pattern with
  | empty =>
    obtain ⟨term, hterm, hunspelled⟩ := store.layout.refused hcodes
    refine ⟨_, rfl, .of_nothing h (List.filter_eq_nil_iff.mpr fun i hi hmatches => ?_)⟩
    have hlt : i < store.quads.memory.base.rows.length := hreads.yields.within.inBase i hi
    rw [VortexRdfStore.matches, matchesAt_row (List.getElem?_eq_getElem hlt)] at hmatches
    exact hunspelled _ (beq_iff_eq.mp (List.all_eq_true.mp hmatches term hterm))
  | codes codes =>
    dsimp only
    cases hcut : store.quads.served.filter fun view => view.plan.narrowed with
    | some view =>
      obtain ⟨hserved, hnarrowed⟩ := Option.filter_eq_some_iff.mp hcut
      cases hserve : store.quads.memory.serve with
      | none =>
        rw [QuadsSource.served, hserve] at hserved
        cases hserved
      | some plan =>
        obtain ⟨family, places, view', hview, hplan, hdeleted, hnames, hids⟩ := hreads.served hserve
        obtain rfl := Option.some.inj (hview.symm.trans hserved)
        obtain ⟨kept, hkept, hsound, hsame, hpart, hread⟩ :=
          servedChain_spec h hcodes hnames hdeleted hids hshows (hserve.trans (congrArg some hplan.symm))
        exact ⟨kept, hkept, hsound, hsame,
          ⟨_, hpart, inOrder_filter hreads.nodup _⟩, fun _ => hread⟩
    | none =>
      obtain ⟨view, hview, hmatched⟩ :=
        matchBaseInMemory_spec h hreads hcodes zonesEnabled need
      dsimp only
      rw [hview, Attempt.andThen_ok]
      split_ifs with hnames
      · rw [Bool.and_eq_true] at hnames
        exact ⟨_, rfl, hmatched.naming (hreads.every_row hnames.1)⟩
      · exact ⟨_, rfl, hmatched⟩

/-- One match of both patterns is the match of the second over the view the first left. -/
theorem matchBoth_spec (h : store.Sound fl finish) (hshows : store.quads.Shows fl store.layout ids)
    {lazy : LazyRowIds} {first joined : QuadPattern}
    (hselection : store.quads.selection = .pending lazy (some first))
    (hjoined : first.and pattern = some joined) (zonesEnabled : Bool) (need : IdsNeed) :
    ∃ view, store.matchBoth fl zonesEnabled joined need = some (.ok view) ∧
      BaseMatched fl finish store pattern need ids view := by
  have hevery : (store.derived store.quads.unrestricted store.tail).Sound fl finish ∧
      SameData store (store.derived store.quads.unrestricted store.tail) := h.selecting .all none
  obtain ⟨view, hview, hmatched⟩ := matchEach_spec hevery.1
    (QuadsSource.unrestricted_shows store.layout store.quads) zonesEnabled joined need
  obtain ⟨ids', hshows', horder⟩ := hmatched.shows
  have hsame : SameData store view := hevery.2.trans hmatched.same
  -- the rows of the first pattern that hold the second are those that hold both
  have hrows : inOrder ids' = (inOrder ids).filter (store.matches pattern) := by
    rw [horder, hshows.matched lazy first hselection, matchingRows_eq, hevery.2.matches,
      inOrder_of_sorted (sortedLT_live _ _), List.filter_filter, List.filter_filter,
      List.filter_filter]
    refine List.filter_congr fun i _ => ?_
    rw [VortexRdfStore.matches, matches_joined hjoined, Bool.and_assoc, Bool.and_comm]
    rfl
  rw [VortexRdfStore.matchBoth, hview, Attempt.andThen_ok]
  split_ifs with hcounts
  · refine ⟨view, rfl, hmatched.sound, hsame, ⟨ids', hshows', hrows⟩, ?_⟩
    rintro rfl
    cases hcounts
  · obtain ⟨s, hs, hwithin, hlisting⟩ := hshows'.reads.yields.materialized_spec
    rw [hs]
    refine ⟨_, rfl, (hmatched.sound.selecting _ none).1, hsame.trans (hmatched.sound.selecting _ none).2,
      ⟨_, .exact hwithin, ?_⟩, fun _ => rfl⟩
    rw [hlisting, hrows]
    exact inOrder_of_sorted ((inOrder_sorted hshows.reads.nodup).pairwise.sublist
      List.filter_sublist).sortedLT

/-- **The base's match**: whichever path it takes, the view shows the live rows of the view
matched that hold every term of the pattern. -/
theorem matchBase_spec (h : store.Sound fl finish) (hshows : store.quads.Shows fl store.layout ids)
    (zonesEnabled : Bool) (pattern : QuadPattern) (need : IdsNeed) :
    ∃ view, store.matchBase fl zonesEnabled pattern need = some (.ok view) ∧
      BaseMatched fl finish store pattern need ids view := by
  have heach := matchEach_spec h hshows zonesEnabled pattern need
  rw [VortexRdfStore.matchBase]
  cases hselection : store.quads.selection with
  | exact s => exact heach
  | residual compare => exact heach
  | pending lazy matched =>
    cases matched with
    | none => exact heach
    | some first =>
      dsimp only
      cases hjoined : first.and pattern with
      | none => exact heach
      | some joined => exact matchBoth_spec h hshows hselection hjoined zonesEnabled need

end Bases

/-! ### The quad of a row -/

/-- A quad as its columns spell it; none for a value that spells nothing. -/
abbrev Spelled : Type := QuadColumn → Option Str

/-- An appended row, as it spells its terms. -/
def spelledRaw (row : RawQuad) : Spelled
  | .s => some row.s
  | .p => some row.p
  | .o => some row.o
  | .g => some row.g

section Denoted

variable {ox : Oxrdf} {V M : Type} [LinearOrder V] [TermColumn V]

/-- Whether a quad holds every bound term of a pattern. -/
def admits (ox : Oxrdf) (pattern : QuadPattern) (quad : Spelled) : Bool :=
  pattern.boundRoles.all fun term => quad term.role == some (term.writeNt ox)

namespace VortexRdfStore

variable (store : VortexRdfStore ox V M)

/-- The quad of a base row. -/
def baseQuad (id : RowId) : Spelled := fun role =>
  store.quads.memory.base.rows[id]?.bind fun row => store.layout.spelling (roleValue row role)

/-- The quad of an appended row. -/
def tailQuad (id : RowId) : Spelled := fun role =>
  store.tail.bind fun tail => tail.rows[id]?.bind fun row => spelledRaw row role

end VortexRdfStore

variable {store view : VortexRdfStore ox V M}

theorem SameData.baseQuad (h : SameData store view) : view.baseQuad = store.baseQuad := by
  funext id role
  rw [VortexRdfStore.baseQuad, VortexRdfStore.baseQuad, h.base, h.layout]

theorem SameData.tailQuad (h : SameData store view) : view.tailQuad = store.tailQuad := by
  have hrows : view.tail.map (fun tail => tail.rows) = store.tail.map fun tail => tail.rows := by
    have hfst := congrArg (Option.map Prod.fst) h.tail
    rwa [Option.map_map, Option.map_map] at hfst
  have hquad : ∀ store : VortexRdfStore ox V M, store.tailQuad = fun id role =>
      (store.tail.map fun tail => tail.rows).bind fun rows =>
        rows[id]?.bind fun row => spelledRaw row role := by
    intro store
    funext id role
    rw [VortexRdfStore.tailQuad, Option.bind_map]
    rfl
  rw [hquad, hquad, hrows]

/-- A base row matches a pattern where its quad holds the terms. -/
theorem matches_eq {i : ℕ} (hi : i < store.quads.memory.base.rows.length) (pattern : QuadPattern) :
    store.matches pattern i = admits ox pattern (store.baseQuad i) := by
  have hrow := List.getElem?_eq_getElem hi
  rw [VortexRdfStore.matches, matchesAt_row hrow, admits]
  refine congrArg (List.all _) (funext fun term => ?_)
  rw [VortexRdfStore.baseQuad, hrow]
  rfl

/-- An appended row holds a pattern's equalities where its quad holds the terms. -/
theorem holdsAt_eq {tail : Tail M .default} (htail : store.tail = some tail) {i : ℕ}
    (hi : i < tail.rows.length) (pattern : QuadPattern) :
    holdsAt tail.rows (pattern.boundRoles.flatMap (stringEqualities ox .default)) i =
      admits ox pattern (store.tailQuad i) := by
  have hrow := List.getElem?_eq_getElem hi
  have hquad : store.tailQuad i = spelledRaw tail.rows[i] := by
    funext role
    rw [VortexRdfStore.tailQuad, htail, Option.bind_some, hrow, Option.bind_some]
  rw [holdsAt, hrow, Option.any_some, hquad, admits, Bool.eq_iff_iff, decide_eq_true_eq, Row.Holds,
    List.forall_mem_flatMap, List.all_eq_true]
  refine forall₂_congr fun term _ => ?_
  have hsingle : stringEqualities ox .default term = [(term.role.name, .str (term.writeNt ox))] := by
    cases term <;> rfl
  have hfield : Store.Row.field tail.rows[i] term.role.name = (spelledRaw tail.rows[i] term.role).elim
      .null .str := by
    cases term <;> rfl
  have hsome : ∃ text, spelledRaw tail.rows[i] term.role = some text := by
    cases term <;> exact ⟨_, rfl⟩
  obtain ⟨text, htext⟩ := hsome
  rw [hsingle, List.forall_mem_singleton, hfield, htext, beq_iff_eq, Option.some.injEq]
  exact ⟨Scalar.str.inj, congrArg Scalar.str⟩

/-- The live rows of a tail of fewer rows. -/
theorem tailListing_filter [MaskOps M] {finish : Finish} {tail : Tail M .default}
    (h : tail.Kept finish) {kept : RowSelection} (hkept : kept.Within tail.rows.length) {p : ℕ → Bool}
    (hrows : kept.rows tail.rows.length =
      (tail.selection.rows tail.rows.length).filter fun row => p row = true) :
    tailListing (some (tail.withSelection kept)) = (tailListing (some tail)).filter p := by
  have hlisting : kept.listing tail.rows.length = (tail.selection.listing tail.rows.length).filter p :=
    listing_filter h.selected hkept fun i => by rw [hrows, Finset.mem_filter]
  show (kept.listing tail.rows.length).filter (live tail.deleted) =
    ((tail.selection.listing tail.rows.length).filter (live tail.deleted)).filter p
  rw [hlisting, List.filter_filter, List.filter_filter]
  exact List.filter_congr fun i _ => Bool.and_comm _ _

theorem tailListing_lt [MaskOps M] {finish : Finish} {tail : Tail M .default} (h : tail.Kept finish)
    {i : RowId} (hi : i ∈ tailListing (some tail)) : i < tail.rows.length :=
  (listing_idsWithin h.selected).inBase i (List.mem_filter.mp hi).1

variable [Inhabited V] [MaskOps M] [LawfulMask M] {fl : FastLanes} {finish : Finish}
  {ids tailIds : List RowId}

/-- **A match**: over the same data, the view shows the base rows and the appended rows of the
view matched whose quads hold every term of the pattern; one built for its rows is never
pending without a plan. -/
theorem matchPatternFor_spec (h : store.Shows fl finish ids tailIds) (zonesEnabled : Bool)
    (shape : ArrayShape) (pattern : QuadPattern) (need : IdsNeed) :
    ∃ view ids', store.matchPatternFor fl zonesEnabled finish shape pattern need = some (.ok view) ∧
      SameData store view ∧
      view.Shows fl finish ids'
        (tailIds.filter fun id => admits ox pattern (store.tailQuad id)) ∧
      inOrder ids' = (inOrder ids).filter (fun id => admits ox pattern (store.baseQuad id)) ∧
      (need = .rows → view.quads.isPendingWithoutPlan = false) := by
  obtain ⟨view, hview, hmatched⟩ := matchBase_spec h.sound h.base zonesEnabled pattern need
  obtain ⟨ids', hshows, horder⟩ := hmatched.shows
  have hbase : inOrder ids' = (inOrder ids).filter fun id => admits ox pattern (store.baseQuad id) := by
    rw [horder]
    exact List.filter_congr fun id hid => matches_eq (h.base.reads.yields.within.inBase id hid) pattern
  rw [VortexRdfStore.matchPatternFor, hview, Attempt.andThen_ok, ← h.tail]
  cases htail : store.tail with
  | none =>
    have hnone : view.tail = none := by
      have hsame := hmatched.same.tail
      rw [htail, Option.map_none, Option.map_eq_none_iff] at hsame
      exact hsame
    refine ⟨view, ids', rfl, hmatched.same, ⟨hmatched.sound, hshows, ?_⟩, hbase, hmatched.read⟩
    rw [hnone]
    rfl
  | some tail =>
    have hkept := h.sound.kept tail htail
    obtain ⟨kept, hmatch, hwithin, hrows⟩ := matchTail_spec ox hkept shape pattern
    dsimp only
    rw [hmatch]
    refine ⟨_, ids', rfl, ⟨hmatched.same.base, hmatched.same.deleted, hmatched.same.layout, ?_⟩,
      ⟨⟨hmatched.sound.memory, hmatched.sound.tombstones, ?_⟩, hshows, ?_⟩, hbase, hmatched.read⟩
    · rw [htail]
      rfl
    · intro tail' htail'
      obtain rfl := Option.some.inj htail'
      exact Tail.Kept.withSelection hkept hwithin
    · show tailListing (some (tail.withSelection kept)) = _
      rw [tailListing_filter hkept hwithin hrows]
      exact List.filter_congr fun i hi => holdsAt_eq htail (tailListing_lt hkept hi) pattern

end Denoted

/-! ### Two base rows and an index of them -/

namespace ViewSample

def base : BaseArray TermCode where
  rows := IndexSample.rows
  subjectSorted := true
  probes column := if column = .s then some (.constant 1 2) else none
  subject := none
  chunks column := [IndexSample.rows.map fun row => roleValue row column]
  cache column := some (IndexSample.rows.map fun row => roleValue row column)
  access := .resident
  shared column := some (IndexSample.rows.map fun row => roleValue row column)
  zones _ := none
  primitive _ _ := true
  resolves _ := false
  views _ := false
  nullBit _ _ := false
  ridProbe _ := none
  chunkProbed _ := false

/-- The two rows, sorted, under the Dictionary layout with a copy index, and a tail. -/
def store (tail : Option (Tail BitMask .default)) : VortexRdfStore ntriples TermCode BitMask where
  quads := ⟨.all, none, base, [IndexSample.component], none⟩
  layout := dictionaryRoles ntriples IndexSample.dict IndexSample.dict_sorted
  indexes := [.secondaryByCopy]
  tail := tail

/-- The subject of both rows is the code 1. -/
theorem subjects_encoded :
    Encodes .ofZeros (.constant 1 2) (IndexSample.rows.map fun row => roleValue row .s) where
  wellFormed := by
    rw [EncodedSearch.Node.WellFormed]
    decide
  len_eq := rfl
  reads i v h := by
    have hone : ∀ code ∈ IndexSample.rows.map fun row => roleValue row .s, code = 1 := by decide
    rw [hone v (List.mem_of_getElem? h)]
    rfl

theorem base_sound (strategy : LayoutStrategy) : base.Sound .ofZeros strategy where
  small := by decide
  stamped _ := List.Pairwise.sortedLE (by decide)
  probed column node h := by
    cases column <;> cases h
    exact subjects_encoded
  subject _ h := by cases h
  chunked _ column := by cases column <;> rfl
  cached column codes h := by
    obtain rfl := Option.some.inj h
    cases column <;> rfl
  shared column codes h := by
    obtain rfl := Option.some.inj h
    cases column <;> rfl
  resident _ _ _ h := by cases h
  zoned _ _ h := by cases h

theorem sound {tail : Option (Tail BitMask .default)} (h : ∀ t ∈ tail, t.Kept List.length) :
    (store tail).Sound .ofZeros List.length where
  memory := {
    base := base_sound _
    built := by
      intro c hc
      rw [List.mem_singleton.mp hc]
      exact ⟨_, IndexSample.component_built⟩
    rids := fun _ _ _ _ hprobe => by cases hprobe }
  tombstones _ hd := by cases hd
  kept := h

theorem shows {tail : Option (Tail BitMask .default)} (h : ∀ t ∈ tail, t.Kept List.length) :
    (store tail).Shows .ofZeros List.length [0, 1] (tailListing tail) where
  sound := sound h
  base := QuadsSource.unrestricted_shows (store tail).layout (store tail).quads
  tail := rfl

/-- The two rows, and the one of a tail behind them. -/
def tailed : VortexRdfStore ntriples TermCode BitMask := store (some letterTail)

theorem tailed_shows : tailed.Shows .ofZeros List.length [0, 1] [0] := by
  have hshows : tailed.Shows .ofZeros List.length [0, 1] (tailListing (some letterTail)) := by
    refine shows ?_
    rintro _ ⟨⟩
    exact letterTail_built.kept
  have htail : tailListing (some letterTail) = [0] := by
    show RowSelection.all.liveListing none 1 = [0]
    rw [liveListing_none]
    exact Finset.sort_range 1
  rwa [htail] at hshows

/-- The two rows, with no tail. -/
def untailed : VortexRdfStore ntriples TermCode BitMask := store none

theorem untailed_shows : untailed.Shows .ofZeros List.length [0, 1] [] := by
  have hkept : ∀ t ∈ (none : Option (Tail BitMask .default)), t.Kept List.length := by rintro _ ⟨⟩
  exact shows hkept

/-- `?s ?p <b> ?g`. -/
def objectPattern : QuadPattern := ⟨none, none, some (.namedNode ⟨[98]⟩), none⟩

end ViewSample
end Views
