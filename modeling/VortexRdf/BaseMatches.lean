/-
A pattern matched over a base in memory.

A bound subject searches a sorted base for its run, and the roles behind it search that run;
the indexes resolve what they cover of the rest; what is left is compared over the rows still
selected.  Each stage narrows the selection and unbinds the roles it answered.

* `IdsNeed` — what the caller does with the view, hence what may stay pending;
* `prefixProbe`, `residualNarrow`, `matchBaseInMemory` — the stages, and the match;
* `Narrows` — a stage narrows a selection to the rows of the roles it unbinds;
* `prefixProbe_narrows`, `residualNarrow_spec` — the stages narrow;
* `resolveIndexes_resolves` — what the indexes resolve, as a view keeps it;
* `matchBaseInMemory_spec` — the view of a match shows the live rows that hold its terms.
-/
import VortexRdf.StoreViews
import VortexRdf.SubjectRuns

namespace Store

open Terms

/-! ### Patterns -/

namespace QuadPattern

variable (pattern : QuadPattern)

def anyBound : Bool :=
  pattern.subject.isSome || pattern.predicate.isSome || pattern.object.isSome || pattern.graph.isSome

variable {pattern}

theorem anyBound_eq_false : pattern.anyBound = false ↔ pattern.boundRoles = [] := by
  rcases pattern with ⟨_ | s, _ | p, _ | o, _ | g⟩ <;>
    simp [anyBound, boundRoles, List.reduceOption]

theorem mem_boundRoles_subject {subject : NamedOrBlankNode} (h : pattern.subject = some subject)
    {term : TermRef} : term ∈ pattern.boundRoles ↔
      term = .subject subject ∨ term ∈ ({ pattern with subject := none } : QuadPattern).boundRoles := by
  obtain ⟨subject', predicate, object, graph⟩ := pattern
  obtain rfl : subject' = some subject := h
  rcases predicate with _ | p <;> rcases object with _ | o <;> rcases graph with _ | g <;>
    simp [boundRoles, List.reduceOption]

end QuadPattern

end Store

namespace Views

open Ascending Bisect Buffers Builds Dictionary EncodedSearch Indexes Masks MaskOps Terms
open Store hiding Row
open scoped Lexicographic

/-! ### The need of a match -/

/-- What the caller of a match does with the view. -/
inductive IdsNeed where
  | rows
  /-- It counts, windows or keeps it, and needs its first `reach` rows at most. -/
  | countOrWindow (reach : ℕ)
  | count
  deriving DecidableEq

namespace IdsNeed

def countsOrWindows : IdsNeed → Bool
  | rows => false
  | countOrWindow _ => true
  | count => true

/-- Whether a compare over so many rows is left pending. -/
def defersResidual (need : IdsNeed) (rows : ℕ) : Bool :=
  (match need with
    | .rows => false
    | countOrWindow reach => decide (reach < rows)
    | count => true) && decide (FIRST_PIECE_ROWS < rows)

/-- Whether a window reaches its rows in base order. -/
def windowed : IdsNeed → Bool
  | countOrWindow reach => decide (reach < usizeMax)
  | _ => false

end IdsNeed

/-- The rows below which a view the subject narrowed asks no index. -/
def INDEX_ROUTING_MIN_ROWS : ℕ := 4096

/-! ### The stages -/

section Stages

variable {V : Type} [LinearOrder V] [TermColumn V] (fl : FastLanes) (ox : Oxrdf) (base : BaseArray V)

/-- The run of the roles behind the subject, each searched in the run of those before it,
and how many were. -/
def prefixLoop (codes : PatternCodes) : List TermRef → RowRange → ℕ → Attempt (RowRange × ℕ)
  | [], run, answered => some (.ok (run, answered))
  | term :: terms, run, answered =>
    match base.probes term.role with
    | none => some (.ok (run, answered))
    | some probe =>
      Attempt.andThen (some (codes.probeCode ox term)) fun needle =>
        match needle with
        | none => some (.ok (run, answered))
        | some needle =>
          (SortedProbe.boundsIn fl probe run.start run.stop needle).bind fun bounds =>
            if bounds.2 ≤ bounds.1 then some (.ok (⟨bounds.1, bounds.2⟩, answered + 1))
            else prefixLoop codes terms ⟨bounds.1, bounds.2⟩ (answered + 1)

/-- The run of a subject in a sorted base, on the probe of its column or not. -/
def subjectRun (v : V) : Option (ℕ × ℕ) :=
  match base.probes .s, unsignedValue (TermColumn.scalar v) with
  | some probe, some needle => probe.bounds fl needle
  | _, _ => IndexComponent.searchSortedBounds fl (base.rows.map Row.s) base.subject
      (TermColumn.scalar v) v

/-- The value a bound subject searches a sorted base for. -/
def subjectProbe (codes : PatternCodes) (pattern : QuadPattern) : Option V :=
  match pattern.subject with
  | none => none
  | some subject =>
    if base.subjectSorted then
      match codes.probeScalar ox (.subject subject) with
      | .ok (some native) => TermColumn.ofScalar native
      | _ => none
    else none

/-- A selection narrowed to the run of a pattern's bound prefix, with what is left of the
pattern, and whether a subject narrowed it. -/
def prefixProbe (codes : PatternCodes) (pattern : QuadPattern) (selection : RowSelection) :
    Attempt ((RowSelection × QuadPattern) × Bool) :=
  match subjectProbe ox base codes pattern with
  | none => some (.ok ((selection, pattern), false))
  | some v =>
    (subjectRun fl base v).bind fun bounds =>
      (selection.intersectRange ⟨bounds.1, bounds.2⟩).bind fun selection =>
        let left : QuadPattern := { pattern with subject := none }
        match selection with
        | .range range =>
          Attempt.andThen (prefixLoop fl ox base codes left.prefixBehindSubject range 0)
            fun found =>
              if 0 < found.2 then
                some (.ok ((.range found.1, left.clearPrefixBehindSubject found.2), true))
              else some (.ok ((selection, left), true))
        | selection => some (.ok ((selection, left), true))

/-- A selection's rows that hold some equalities, compared now or left pending. -/
def compareResidual (M : Type) [MaskOps M] (need : IdsNeed) (selection : RowSelection)
    (eqs : List Equality) (classes : Classes) : Option ViewSelection :=
  if need.defersResidual (selection.len base.len) then
    some (.residual ⟨base.table, selection, eqs, classes, none⟩)
  else
    ((⟨base.table, selection, eqs, classes, none⟩ : ResidualCompare M).rows fl).map .exact

/-- A selection narrowed to its rows that hold what is left of a pattern; none where the
layout rules them out. -/
def residualNarrow (M : Type) [MaskOps M] (zonesEnabled : Bool) (need : IdsNeed)
    (codes : PatternCodes) (pattern : QuadPattern) (selection : RowSelection) :
    Attempt (Option ViewSelection) :=
  Attempt.andThen (some (codes.constraints ox pattern)) fun constraints =>
    match constraints with
    | .alwaysFalse => some (.ok none)
    | .eq eqs =>
      let asked :=
        if asksStatistics (selection.len base.len) && zonesEnabled then
          askStatistics base.zones base.len selection eqs
        else .openEqs eqs (unaskedClasses base.zones eqs)
      match asked with
      | .nothing => some (.ok (some (.exact .empty)))
      | .everything => some (.ok (some (.exact selection)))
      | .openEqs eqs classes =>
        (compareResidual fl base M need selection eqs classes).map fun narrowed => .ok (some narrowed)

end Stages

/-! ### The match -/

section Match

variable {ox : Oxrdf} {V M : Type} [LinearOrder V] [TermColumn V] [MaskOps M] (fl : FastLanes)
  (store : VortexRdfStore ox V M) (zonesEnabled : Bool)

/-- A selection narrowed by an index's ids, left pending where they may be. -/
def foldRowIds (M : Type) [MaskOps M] (existing : RowSelection) (ids : LazyRowIds) (defer : Bool) :
    Option ViewSelection :=
  if defer then some (.pending ids none)
  else
    (ids.materialized fl M).bind fun found => (existing.intersectIds found.1).map .exact

namespace VortexRdfStore

/-- What is left of a match once the indexes have been asked. -/
def matchResidual (pattern : QuadPattern) (codes : PatternCodes) (need : IdsNeed)
    (serve : Option (InMemoryServePlan V)) :
    ViewSelection → Attempt (VortexRdfStore ox V M)
  | .exact exact =>
    if !exact.isEmpty store.quads.baseLen && pattern.anyBound then
      Attempt.andThen (residualNarrow fl ox store.quads.memory.base M zonesEnabled need codes pattern
        exact) fun narrowed =>
          match narrowed with
          | none => some (.ok store.emptyView)
          | some narrowed => some (.ok (store.derived (store.quads.withSelection narrowed) store.tail))
    else some (.ok (store.derived (store.quads.inMemoryWith (.exact exact) serve) store.tail))
  | selection => some (.ok (store.derived (store.quads.inMemoryWith selection serve) store.tail))

/-- The match of what the prefix left, its index's ids folded in; `alone` where nothing has
narrowed the view yet. -/
def matchResolved (pattern : QuadPattern) (codes : PatternCodes) (need : IdsNeed) (alone : Bool)
    (selection : RowSelection) (rowIds : Option LazyRowIds) (serve : Option (InMemoryServePlan V)) :
    Attempt (VortexRdfStore ox V M) :=
  (match rowIds with
    | some ids =>
      foldRowIds fl M selection ids
        (alone && !pattern.anyBound && (serve.isSome || need.countsOrWindows))
    | none => some (.exact selection)).bind fun selection =>
      store.matchResidual fl zonesEnabled pattern codes need (if alone then serve else none) selection

/-- A pattern matched over the base in memory. -/
def matchBaseInMemory (pattern : QuadPattern) (codes : PatternCodes) (need : IdsNeed) :
    Attempt (VortexRdfStore ox V M) :=
  let base := store.quads.memory.base
  (store.quads.selection.materialized fl M).bind fun selection =>
    let unrefined := decide (selection = .all)
    Attempt.andThen (prefixProbe fl ox base codes pattern selection) fun probed =>
      let selection := probed.1.1
      let pattern := probed.1.2
      let prefixNarrowed := probed.2
      let worthIndexing := !prefixNarrowed || decide (INDEX_ROUTING_MIN_ROWS ≤ selection.len base.len)
      let alone := unrefined && !prefixNarrowed
      if !selection.isEmpty base.len && pattern.anyBound && worthIndexing then
        Attempt.andThen (resolveIndexesInMemory fl ox store.quads.memory.components
          store.layout.strategy pattern codes need.windowed zonesEnabled store.indexes)
          fun resolution =>
            match resolution with
            | .empty => some (.ok store.emptyView)
            | .resolved ids roles serve =>
              store.matchResolved fl zonesEnabled (roles.clear pattern) codes need alone selection
                (some ids) serve
            | .declined =>
              store.matchResolved fl zonesEnabled pattern codes need alone selection none none
      else store.matchResolved fl zonesEnabled pattern codes need alone selection none none

end VortexRdfStore

end Match

/-! ### Narrowings -/

section Narrowings

variable {ox : Oxrdf} {V : Type} [LinearOrder V] [TermColumn V]

/-- A selection narrowed to its rows that hold the terms of the roles unbound. -/
structure Narrows (layout : IndexedLayout ox V) (rows : List (Row V)) (s : RowSelection)
    (pattern : QuadPattern) (s' : RowSelection) (left : QuadPattern) : Prop where
  within : s'.Within rows.length
  unbinds : ∀ term ∈ left.boundRoles, term ∈ pattern.boundRoles
  same : (s'.listing rows.length).filter (matchesAt layout rows left.boundRoles) =
    (s.listing rows.length).filter (matchesAt layout rows pattern.boundRoles)

variable {layout : IndexedLayout ox V} {rows : List (Row V)} {s s' : RowSelection}
  {pattern left : QuadPattern}

theorem Narrows.refl (hs : s.Within rows.length) : Narrows layout rows s pattern s pattern :=
  ⟨hs, fun _ h => h, rfl⟩

/-- The listing of a selection of fewer rows. -/
theorem listing_filter {n : ℕ} {p : ℕ → Bool} (hs : s.Within n) (hs' : s'.Within n)
    (h : ∀ i, i ∈ s'.rows n ↔ i ∈ s.rows n ∧ p i = true) :
    s'.listing n = (s.listing n).filter p := by
  refine List.SortedLT.eq_of_mem_iff (listing_idsWithin hs').ascending
    ((listing_idsWithin hs).of_sublist List.filter_sublist).ascending fun i => ?_
  rw [List.mem_filter, RowSelection.listing, RowSelection.listing, Finset.mem_sort, Finset.mem_sort, h]

/-- A selection whose rows hold the terms of the unbound roles. -/
theorem Narrows.of_rows {p : ℕ → Bool} (hs : s.Within rows.length) (hs' : s'.Within rows.length)
    (hrows : ∀ i, i ∈ s'.rows rows.length ↔ i ∈ s.rows rows.length ∧ p i = true)
    (hleft : ∀ term ∈ left.boundRoles, term ∈ pattern.boundRoles)
    (hp : ∀ i, i < rows.length → matchesAt layout rows pattern.boundRoles i =
      (p i && matchesAt layout rows left.boundRoles i)) :
    Narrows layout rows s pattern s' left := by
  refine ⟨hs', hleft, ?_⟩
  rw [listing_filter hs hs' hrows, List.filter_filter]
  refine List.filter_congr fun i hi => ?_
  rw [hp i ((listing_idsWithin hs).inBase i hi), Bool.and_comm]

theorem Narrows.trans {s'' : RowSelection} {left' : QuadPattern}
    (h : Narrows layout rows s pattern s' left) (h' : Narrows layout rows s' left s'' left') :
    Narrows layout rows s pattern s'' left' :=
  ⟨h'.within, fun term hterm => h.unbinds term (h'.unbinds term hterm), h'.same.trans h.same⟩

end Narrowings

/-! ### The prefix of a sorted base -/

section Prefix

variable {ox : Oxrdf} {V : Type} [LinearOrder V] [TermColumn V] [Inhabited V] {fl : FastLanes}
  {strategy : LayoutStrategy} {base : BaseArray V} {layout : IndexedLayout ox V}
  {codes : PatternCodes}

variable {rows : List (Row V)}

omit [LinearOrder V] [TermColumn V] in
theorem getD_map {i : ℕ} (hi : i < rows.length) (role : QuadColumn) :
    (rows.map fun row => roleValue row role).getD i default = roleValue (rows.getD i default) role := by
  rw [List.getD_eq_getElem _ _ (by rwa [List.length_map]), List.getElem_map,
    List.getD_eq_getElem _ _ hi]

omit [LinearOrder V] [TermColumn V] in
theorem getD_subject {i : ℕ} (hi : i < rows.length) :
    (rows.map Row.s).getD i default = roleValue (rows.getD i default) .s := getD_map hi .s

/-- A row holds a term where its column holds the term's value. -/
theorem matchesAt_singleton {term : TermRef} {v : V}
    (hv : layout.spelling v = some (term.writeNt ox)) {i : ℕ} (hi : i < rows.length) :
    matchesAt layout rows [term] i = true ↔ roleValue (rows.getD i default) term.role = v := by
  rw [matchesAt_row (List.getElem?_eq_getElem hi), List.all_cons, List.all_nil, Bool.and_true,
    IndexedLayout.holds_iff hv, List.getD_eq_getElem _ _ hi]

omit [Inhabited V] in
/-- A term is searched for by code where a column holds codes. -/
theorem probeCode_spec {term : TermRef} {v : V}
    (h : codes.probeScalar ox term = .ok (some (TermColumn.scalar v))) :
    codes.probeCode ox term = .ok none ∨
      ∃ needle, codes.probeCode ox term = .ok (some needle) ∧ TermColumn.scalar v = .num needle := by
  rw [PatternCodes.probeCode]
  rw [PatternCodes.probeScalar] at h
  split_ifs at h ⊢ with hstring
  · exact .inl rfl
  · right
    cases hcode : codes.code ox term with
    | error e =>
      rw [hcode] at h
      cases h
    | ok code =>
      rw [hcode] at h
      cases code with
      | none => cases Except.ok.inj h
      | some needle => exact ⟨needle, rfl, (Option.some.inj (Except.ok.inj h)).symm⟩

/-- A column's encoding finds a value's run in a window where the column is in order. -/
theorem encoded_run {column : List V} {node : Node} (h : Encodes fl node column) {v : V} {needle : ℕ}
    (hv : TermColumn.scalar v = .num needle) {run : RowRange} (hrun : run.Within column.length)
    (hasc : AscendingOn (fun i => column.getD i default) run.start run.stop) :
    ∃ a b, SortedProbe.boundsIn fl node run.start run.stop needle = some (a, b) ∧
      IsRun (fun i => column.getD i default = v) run.start run.stop a b := by
  obtain ⟨a, b, hbounds, ha, hb⟩ := boundsIn_spec (wellFormed_sound h.wellFormed) hrun.ordered
    (hrun.inBase.trans h.len_eq.ge) (h.ascending hasc hrun.inBase) needle
  exact ⟨a, b, hbounds, h.isRun hv hrun.inBase ha hb⟩

/-- The loop leaves the run of the terms it answered. -/
theorem prefixLoop_spec (hbase : base.Sound fl strategy) {terms : List TermRef}
    (hprobed : ∀ term ∈ terms, ∃ v, codes.probeScalar ox term = .ok (some (TermColumn.scalar v)) ∧
      layout.spelling v = some (term.writeNt ox)) {run : RowRange} (hrun : run.Within base.len)
    (hnested : NestedOn (terms.map fun term i => roleValue (base.rows.getD i default) term.role)
      run.start run.stop) (answered : ℕ) :
    ∃ found k, prefixLoop fl ox base codes terms run answered = some (.ok (found, answered + k)) ∧
      k ≤ terms.length ∧ IsRun (fun i => matchesAt layout base.rows (terms.take k) i = true)
        run.start run.stop found.start found.stop := by
  have hnothing : IsRun (fun i => matchesAt layout base.rows [] i = true) run.start run.stop
      run.start run.stop := (IsRun.whole hrun.ordered).congr fun i _ hi =>
    ⟨fun _ => matchesAt_nil (lt_of_lt_of_le hi hrun.inBase), fun _ => trivial⟩
  induction terms generalizing run answered with
  | nil => exact ⟨run, 0, rfl, le_rfl, hnothing⟩
  | cons term terms ih =>
    obtain ⟨⟨v, hscalar, hv⟩, hrest⟩ := List.forall_mem_cons.mp hprobed
    obtain ⟨hasc, hbehind⟩ := hnested
    rw [prefixLoop]
    cases hprobe : base.probes term.role with
    | none => exact ⟨run, 0, rfl, Nat.zero_le _, hnothing⟩
    | some probe =>
      dsimp only
      rcases probeCode_spec hscalar with hcode | ⟨needle, hcode, hneedle⟩
      · rw [hcode]
        exact ⟨run, 0, rfl, Nat.zero_le _, hnothing⟩
      rw [hcode, Attempt.andThen_ok]
      dsimp only
      have hencodes := hbase.probed term.role probe hprobe
      have hlen : run.Within (base.rows.map fun row => roleValue row term.role).length := by
        rw [List.length_map]
        exact hrun
      have hcolumn : ∀ i, i < run.stop →
          (base.rows.map fun row => roleValue row term.role).getD i default =
            roleValue (base.rows.getD i default) term.role := fun i hi =>
        getD_map (lt_of_lt_of_le hi hrun.inBase) term.role
      obtain ⟨a, b, hbounds, hholds⟩ := encoded_run hencodes hneedle hlen fun i j hlo hij hj => by
        dsimp only
        rw [hcolumn i (lt_of_le_of_lt hij hj), hcolumn j hj]
        exact hasc i j hlo hij hj
      have hvalue : IsRun (fun i => roleValue (base.rows.getD i default) term.role = v)
          run.start run.stop a b := hholds.congr fun i _ hi => by rw [hcolumn i hi]
      have hone : IsRun (fun i => matchesAt layout base.rows [term] i = true)
          run.start run.stop a b := hvalue.congr fun i _ hi =>
        (matchesAt_singleton hv (lt_of_lt_of_le hi hrun.inBase)).symm
      rw [hbounds, Option.bind_some]
      split_ifs with hempty
      · exact ⟨⟨a, b⟩, 1, rfl, Nat.succ_le_succ (Nat.zero_le _), hone⟩
      · have hwithin : RowRange.Within base.len ⟨a, b⟩ := ⟨hone.le, hone.le_stop.trans hrun.inBase⟩
        have hwhole : IsRun (fun i => matchesAt layout base.rows [] i = true) a b a b :=
          (IsRun.whole hone.le).congr fun i _ hi =>
            ⟨fun _ => matchesAt_nil (lt_of_lt_of_le hi hwithin.inBase), fun _ => trivial⟩
        obtain ⟨found, k, hloop, hk, hfound⟩ :=
          ih hrest hwithin (hbehind v a b hvalue) (answered + 1) hwhole
        refine ⟨found, k + 1, by rw [hloop, Nat.add_assoc, Nat.add_comm 1 k], Nat.succ_le_succ hk, ?_⟩
        refine (hone.inside hfound).congr fun i _ _ => ?_
        rw [List.take_succ_cons, show term :: terms.take k = [term] ++ terms.take k from rfl,
          matchesAt_append, Bool.and_eq_true]

omit [TermColumn V] in
/-- The subjects of sorted rows ascend. -/
theorem subjects_ascend (h : rows.SortedLE) :
    AscendingOn (fun i => (rows.map Row.s).getD i default) 0 (rows.map Row.s).length := by
  rw [List.length_map]
  intro i j hlo hij hj
  have hnested := (nested_roles h 0 le_rfl).1
  dsimp only
  rw [getD_subject (lt_of_le_of_lt hij hj), getD_subject hj]
  exact hnested i j hlo hij hj

/-- A subject's run in a sorted base. -/
theorem subjectRun_spec (hbase : base.Sound fl strategy) (hsorted : base.subjectSorted = true) {v : V}
    (hfits : ∀ n, TermColumn.scalar v = .num n → n ≤ u64Max) :
    ∃ lo hi, subjectRun fl base v = some (lo, hi) ∧
      IsRun (fun i => roleValue (base.rows.getD i default) .s = v) 0 base.len lo hi := by
  have hasc := subjects_ascend (hbase.stamped hsorted)
  have hcolumn : ∀ {lo hi : ℕ},
      IsRun (fun i => (base.rows.map Row.s).getD i default = v) 0 (base.rows.map Row.s).length lo hi →
      IsRun (fun i => roleValue (base.rows.getD i default) .s = v) 0 base.len lo hi := by
    intro lo hi h
    rw [List.length_map] at h
    exact h.congr fun i _ hi => by rw [getD_subject hi]
  have hsearched : ∃ lo hi, IndexComponent.searchSortedBounds fl (base.rows.map Row.s) base.subject
      (TermColumn.scalar v) v = some (lo, hi) ∧
      IsRun (fun i => roleValue (base.rows.getD i default) .s = v) 0 base.len lo hi := by
    obtain ⟨lo, hi, hsearch, hrun⟩ := searchSortedBounds_spec hasc hbase.subject hfits
    exact ⟨lo, hi, hsearch, hcolumn hrun⟩
  rw [subjectRun]
  cases hprobe : base.probes .s with
  | none => exact hsearched
  | some probe =>
    cases hneedle : unsignedValue (TermColumn.scalar v) with
    | none => exact hsearched
    | some needle =>
      have hscalar := unsignedValue_eq hneedle
      have hencodes : Encodes fl probe (base.rows.map Row.s) := hbase.probed .s probe hprobe
      have hwhole : AscendingOn (probe.value fl) 0 probe.len := by
        rw [hencodes.len_eq]
        exact hencodes.ascending hasc le_rfl
      obtain ⟨lo, hi, hbounds, ha, hb⟩ :=
        bounds_spec hencodes.wellFormed hwhole (hfits needle hscalar)
      rw [hencodes.len_eq] at ha hb
      exact ⟨lo, hi, hbounds, hcolumn (hencodes.isRun hscalar le_rfl ha hb)⟩

/-- The prefix probe narrows to the rows of the roles it answers. -/
theorem prefixProbe_narrows (hbase : base.Sound fl strategy) {pattern : QuadPattern}
    (hprobed : Probed layout codes pattern) {s : RowSelection} (hs : s.Within base.len) :
    ∃ s' left narrowed, prefixProbe fl ox base codes pattern s = some (.ok ((s', left), narrowed)) ∧
      Narrows layout base.rows s pattern s' left ∧
      (narrowed = false → s' = s ∧ left = pattern) := by
  rw [prefixProbe]
  cases hprobe : subjectProbe ox base codes pattern with
  | none => exact ⟨s, pattern, false, rfl, .refl hs, fun _ => ⟨rfl, rfl⟩⟩
  | some v =>
    -- the subject searched for, and its spelling
    obtain ⟨subject, hsubject, hsorted, hspelled⟩ : ∃ subject, pattern.subject = some subject ∧
        base.subjectSorted = true ∧ layout.spelling v = some ((TermRef.subject subject).writeNt ox) := by
      rw [subjectProbe] at hprobe
      cases hsubject : pattern.subject with
      | none =>
        rw [hsubject] at hprobe
        cases hprobe
      | some subject =>
        rw [hsubject] at hprobe
        dsimp only at hprobe
        obtain ⟨w, hscalar, hw⟩ := hprobed (.subject subject)
          ((QuadPattern.mem_boundRoles_subject hsubject).mpr (.inl rfl))
        split_ifs at hprobe with hsorted
        rw [hscalar] at hprobe
        dsimp only at hprobe
        rw [TermColumn.ofScalar_scalar] at hprobe
        obtain rfl := Option.some.inj hprobe
        exact ⟨subject, rfl, hsorted, hw⟩
    obtain ⟨lo, hi, hbounds, hrun⟩ := subjectRun_spec hbase hsorted fun n => layout.fits hspelled
    have hwithin : RowRange.Within base.len ⟨lo, hi⟩ := ⟨hrun.le, hrun.le_stop⟩
    obtain ⟨cut, hcut, hcutWithin, hrows⟩ := intersectRange_selects hs hwithin
    have hrows : cut.rows base.rows.length = s.rows base.rows.length ∩ (⟨lo, hi⟩ : RowRange).rows :=
      hrows
    have hmem : ∀ i, i < base.len → (i ∈ (⟨lo, hi⟩ : RowRange).rows ↔
        matchesAt layout base.rows [.subject subject] i = true) := fun i hi => by
      rw [matchesAt_singleton hspelled hi, RowRange.mem_rows]
      exact (hrun.holds_iff i (Nat.zero_le _) hi).symm
    have hleft : ∀ term ∈ ({ pattern with subject := none } : QuadPattern).boundRoles,
        term ∈ pattern.boundRoles := fun term hterm =>
      (QuadPattern.mem_boundRoles_subject hsubject).mpr (.inr hterm)
    have hsubjectNarrows : Narrows layout base.rows s pattern cut { pattern with subject := none } := by
      refine .of_rows (p := matchesAt layout base.rows [.subject subject]) hs hcutWithin (fun i => ?_)
        hleft fun i hi => ?_
      · rw [hrows, Finset.mem_inter]
        refine and_congr_right fun hi => hmem i (rows_lt hs hi)
      · rw [← matchesAt_append]
        exact matchesAt_congr (fun term => by
          rw [QuadPattern.mem_boundRoles_subject hsubject, List.singleton_append, List.mem_cons]) i
    dsimp only
    rw [hbounds, Option.bind_some, hcut, Option.bind_some]
    cases cut with
    | all => exact ⟨_, _, true, rfl, hsubjectNarrows, nofun⟩
    | ids l => exact ⟨_, _, true, rfl, hsubjectNarrows, nofun⟩
    | range range =>
      dsimp only
      -- the roles behind the subject are nested inside its run
      have hinside : ∀ i, range.start ≤ i → i < range.stop → lo ≤ i ∧ i < hi := fun i hlo hhi => by
        have hi : i ∈ (RowSelection.range range).rows base.rows.length :=
          RowRange.mem_rows.mpr ⟨hlo, hhi⟩
        rw [hrows, Finset.mem_inter] at hi
        exact RowRange.mem_rows.mp hi.2
      have hnested : NestedOn (({ pattern with subject := none } : QuadPattern).prefixBehindSubject.map
          fun term i => roleValue (base.rows.getD i default) term.role) range.start range.stop := by
        have hall := (nested_roles (hbase.stamped hsorted) range.start hcutWithin.inBase).2 v
          range.start range.stop ((IsRun.whole hcutWithin.ordered).congr fun i hlo hhi =>
            ⟨fun _ => hrun.holds (hinside i hlo hhi).1 (hinside i hlo hhi).2, fun _ => trivial⟩)
        obtain ⟨more, hmore⟩ := prefixBehindSubject_roles
          ({ pattern with subject := none } : QuadPattern)
        have hlist : rolesBehind.map
            (fun role i => roleValue (base.rows.getD i default) role) =
              ({ pattern with subject := none } : QuadPattern).prefixBehindSubject.map
                (fun term i => roleValue (base.rows.getD i default) term.role) ++
              more.map fun role i => roleValue (base.rows.getD i default) role := by
          rw [← hmore, List.map_append, List.map_map]
          rfl
        change NestedOn (rolesBehind.map
          fun role i => roleValue (base.rows.getD i default) role) _ _ at hall
        rw [hlist] at hall
        exact hall.left
      have hbehind : ∀ term ∈ ({ pattern with subject := none } : QuadPattern).prefixBehindSubject,
          term ∈ ({ pattern with subject := none } : QuadPattern).boundRoles := fun term hterm =>
        (boundRoles_cleared rfl le_rfl term).mpr (.inl (by rwa [List.take_length]))
      obtain ⟨found, k, hloop, hk, hfound⟩ := prefixLoop_spec hbase
        (fun term hterm => hprobed term (hleft term (hbehind term hterm))) hcutWithin hnested 0
      rw [hloop, Attempt.andThen_ok, Nat.zero_add]
      dsimp only
      split_ifs with hanswered
      · refine ⟨_, _, true, rfl, hsubjectNarrows.trans ?_, nofun⟩
        refine .of_rows (p := matchesAt layout base.rows
          (({ pattern with subject := none } : QuadPattern).prefixBehindSubject.take k))
          hcutWithin ⟨hfound.le, hfound.le_stop.trans hcutWithin.inBase⟩ (fun i => ?_)
          (fun term hterm => (boundRoles_cleared rfl hk term).mpr (.inr hterm)) fun i hi => ?_
        · show i ∈ found.rows ↔ i ∈ range.rows ∧ _
          rw [RowRange.mem_rows, RowRange.mem_rows]
          constructor
          · intro hi
            exact ⟨⟨hfound.start_le.trans hi.1, lt_of_lt_of_le hi.2 hfound.le_stop⟩,
              hfound.holds hi.1 hi.2⟩
          · intro hi
            exact (hfound.holds_iff i hi.1.1 hi.1.2).mp hi.2
        · rw [← matchesAt_append]
          exact matchesAt_congr (fun term => by
            rw [boundRoles_cleared rfl hk, List.mem_append]) i
      · exact ⟨_, _, true, rfl, hsubjectNarrows, nofun⟩

end Prefix

/-! ### The residual -/

section Residual

variable {ox : Oxrdf} {V M : Type} [LinearOrder V] [TermColumn V] [MaskOps M] [LawfulMask M]
  {fl : FastLanes} {base : BaseArray V} {layout : RoleLayout ox V} {codes : PatternCodes}
  {deleted : Option M}

/-- Rows that pass some equalities are those that hold their terms. -/
theorem filter_passes {terms : List TermRef} {eqs : List Equality}
    (h : List.Forall₂ (Asks layout.toIndexedLayout) terms eqs) {s : RowSelection}
    (hs : s.Within base.len) :
    (s.listing base.len).filter (passes base.table.cell eqs) =
      (s.listing base.len).filter (matchesAt layout.toIndexedLayout base.rows terms) :=
  List.filter_congr fun i hi => passes_asks h ((listing_idsWithin hs).inBase i hi)

/-- A selection narrowed to some rows: exact for a view read row by row. -/
structure Compared (fl : FastLanes) (deleted : Option M) (n : ℕ) (need : IdsNeed) (ids : List RowId)
    (selection : ViewSelection) : Prop where
  yields : selection.Yields fl deleted n ids
  exact : need = .rows → selection.isExact = true
  unserved : ∀ lazy matched, selection ≠ .pending lazy matched

omit [LawfulMask M] in
theorem Compared.of_exact {n : ℕ} {need : IdsNeed} {ids : List RowId} {s : RowSelection}
    (hs : s.Within n) (h : ids = s.liveListing deleted n) :
    Compared fl deleted n need ids (.exact s) :=
  ⟨⟨hs, h⟩, fun _ => rfl, fun _ _ => ViewSelection.noConfusion⟩

theorem compareResidual_spec (hbase : base.Sound fl layout.strategy) {s : RowSelection}
    (hs : s.Within base.len) {eqs : List Equality} {classes : Classes}
    (hclasses : classes.Describes eqs base.table.cell base.len)
    (hcomparable : base.table.Comparable eqs) (need : IdsNeed) (deleted : Option M) :
    ∃ narrowed, compareResidual fl base M need s eqs classes = some narrowed ∧
      Compared fl deleted base.len need
        (((s.listing base.len).filter (passes base.table.cell eqs)).filter (live deleted)) narrowed := by
  have hlen : base.table.len = base.len := BaseArray.table_len
  have htable := hbase.table_sound
  have hwithin : s.Within base.table.len := by rwa [hlen]
  have hdescribes : classes.Describes eqs base.table.cell base.table.len := by rwa [hlen]
  rw [compareResidual]
  split_ifs with hdefers
  · refine ⟨_, rfl, ⟨⟨htable, hcomparable, hwithin, hdescribes, nofun⟩, hlen, ?_⟩, ?_,
      fun _ _ => ViewSelection.noConfusion⟩
    · rw [PendingResidual.matching, hlen]
    · rintro rfl
      cases hdefers
  · have hsound : ResidualCompare.Sound fl (⟨base.table, s, eqs, classes, none⟩ : ResidualCompare M) :=
      ⟨htable, hcomparable, hwithin, hdescribes, nofun⟩
    obtain ⟨found, hfound, hfoundWithin, hlisting⟩ := ResidualCompare.rows_lists hsound
    rw [hfound]
    refine ⟨_, rfl, .of_exact (hlen ▸ hfoundWithin) ?_⟩
    have hfilter : found.listing base.len =
        (s.listing base.len).filter (passes base.table.cell eqs) := by
      rw [← hlen]
      exact hlisting
    rw [RowSelection.liveListing, hfilter]

/-- What the residual leaves yields the live rows that hold what was left of the pattern. -/
theorem residualNarrow_spec (hbase : base.Sound fl layout.strategy) {pattern left : QuadPattern}
    (hcodes : layout.prepare pattern = .codes codes)
    (hleft : ∀ term ∈ left.boundRoles, term ∈ pattern.boundRoles) {s : RowSelection}
    (hs : s.Within base.len) (zonesEnabled : Bool) (need : IdsNeed) (deleted : Option M) :
    ∃ narrowed, residualNarrow fl ox base M zonesEnabled need codes left s =
        some (.ok (some narrowed)) ∧
      Compared fl deleted base.len need (((s.listing base.len).filter
        (matchesAt layout.toIndexedLayout base.rows left.boundRoles)).filter (live deleted)) narrowed := by
  obtain ⟨eqs, heqs, hasks⟩ := constraints_asks hcodes hleft
  have hcomparable : base.table.Comparable eqs := table_comparable hasks
  have hbound := (listing_idsWithin hs).inBase
  rw [residualNarrow, heqs, Attempt.andThen_ok, ← filter_passes hasks hs]
  dsimp only
  by_cases hasked : (asksStatistics (s.len base.len) && zonesEnabled) = true
  · rw [if_pos hasked]
    have hsettled := askStatistics_sound hbase.zoned base.len s eqs
    cases hask : askStatistics base.zones base.len s eqs with
    | nothing =>
      rw [hask] at hsettled
      have hnone : (s.listing base.len).filter (passes base.table.cell eqs) = [] :=
        List.filter_eq_nil_iff.mpr fun i hi => by
          rw [hsettled i (hbound i hi)]
          exact Bool.false_ne_true
      rw [hnone]
      exact ⟨_, rfl, .of_exact within_empty (liveListing_empty _ _).symm⟩
    | everything =>
      rw [hask] at hsettled
      have hall : (s.listing base.len).filter (passes base.table.cell eqs) = s.listing base.len :=
        List.filter_eq_self.mpr fun i hi => hsettled i (hbound i hi)
      rw [hall]
      exact ⟨_, rfl, .of_exact hs rfl⟩
    | openEqs eqs' classes =>
      rw [hask] at hsettled
      obtain ⟨hclasses, hsub, hunzoned, hsame⟩ := hsettled
      obtain ⟨narrowed, hnarrowed, hcompared⟩ := compareResidual_spec hbase hs hclasses
        (hcomparable.subset hsub hunzoned) need deleted
      rw [List.filter_congr fun i hi => hsame i (hbound i hi)] at hcompared
      dsimp only
      rw [hnarrowed]
      exact ⟨narrowed, rfl, hcompared⟩
  · rw [if_neg hasked]
    obtain ⟨narrowed, hnarrowed, hcompared⟩ := compareResidual_spec hbase hs
      (unaskedClasses_describe hbase.zoned eqs) hcomparable need deleted
    dsimp only
    rw [hnarrowed]
    exact ⟨narrowed, rfl, hcompared⟩

end Residual

/-! ### The indexes -/

section Indexed

variable {ox : Oxrdf} {V : Type} [LinearOrder V] [TermColumn V] {fl : FastLanes}
  {codes : PatternCodes}

/-- A search leaves the run it began with, or one that holds a row. -/
theorem searchKeys_nonempty {c : IndexComponent V} {keys : List (String × TermRef)}
    {within : Option RowRange} {run : RowRange}
    (h : searchKeys fl ox c codes keys within = some (.ok (.run (some run)))) :
    within = some run ∨ run.start < run.stop := by
  induction keys generalizing within with
  | nil =>
    obtain rfl : within = some run := by
      have hrun := Except.ok.inj (Option.some.inj h)
      exact Searched.run.inj hrun
    exact .inl rfl
  | cons key keys ih =>
    obtain ⟨column, term⟩ := key
    rw [searchKeys] at h
    cases hscalar : codes.probeScalar ox term with
    | error e =>
      rw [hscalar] at h
      cases h
    | ok native =>
      rw [hscalar, Attempt.andThen_ok] at h
      cases native with
      | none => cases h
      | some native =>
        dsimp only at h
        obtain ⟨narrowed, -, h⟩ := Option.bind_eq_some_iff.mp h
        cases narrowed with
        | none => cases h
        | some range =>
          dsimp only at h
          split_ifs at h with hempty
          · cases h
          · right
            rcases ih h with hsame | hlt
            · rw [← Option.some.inj hsame]
              omega
            · exact hlt

/-- What a resolution hands back: ids of a run, whose plan covers it whole, and it holds a row. -/
structure FreshPlan (ids : LazyRowIds) (serve : Option (InMemoryServePlan V)) : Prop where
  recipe : ∀ l sorted, ids ≠ .unsorted l sorted
  nonempty : ∀ plan, serve = some plan → plan.run.start < plan.run.stop
  uncut : ∀ plan, serve = some plan → plan.narrowed = false

omit [LinearOrder V] [TermColumn V] in
theorem resolveRun_fresh {probe : IndexProbe} {c : IndexComponent V} {run : RowRange}
    {rids : List RowId} {check : RunCheck} {ids : LazyRowIds} {roles : ResolvedRoles}
    {serve : Option (InMemoryServePlan V)} (hrun : run.start < run.stop)
    (h : resolveRun probe c run rids check = .resolved ids roles serve) : FreshPlan ids serve := by
  cases check with
  | empty => cases h
  | unchecked =>
    obtain ⟨rfl, -, rfl⟩ := IndexResolution.resolved.inj h
    refine ⟨nofun, fun plan hplan => ?_, fun plan hplan => ?_⟩ <;>
      obtain ⟨decode, -, rfl⟩ := Option.map_eq_some_iff.mp hplan
    · exact hrun
    · rfl
  | checked check =>
    obtain ⟨rfl, -, rfl⟩ := IndexResolution.resolved.inj h
    exact ⟨nofun, nofun, nofun⟩

omit [LinearOrder V] [TermColumn V] in
/-- A plan reads the component probed, in the order the probe declares. -/
theorem resolveRun_declared {probe : IndexProbe} {c : IndexComponent V} {run : RowRange}
    {rids : List RowId} {check : RunCheck} {ids : LazyRowIds} {roles : ResolvedRoles}
    {plan : InMemoryServePlan V}
    (h : resolveRun probe c run rids check = .resolved ids roles (some plan)) :
    probe.serve = some plan.decode ∧ roles = probe.resolves ∧ plan.component = c := by
  cases check with
  | empty => cases h
  | unchecked =>
    obtain ⟨-, rfl, hplan⟩ := IndexResolution.resolved.inj h
    obtain ⟨decode, hdecode, rfl⟩ := Option.map_eq_some_iff.mp hplan
    exact ⟨hdecode, rfl, rfl⟩
  | checked check => cases h

/-- A resolution is of a run that holds a row. -/
theorem resolveInMemory_run {probe : IndexProbe} {components : List (IndexComponent V)}
    {windowed zonesEnabled : Bool} {ids : LazyRowIds} {roles : ResolvedRoles}
    {serve : Option (InMemoryServePlan V)}
    (h : resolveInMemory fl ox probe components codes windowed zonesEnabled =
      some (.ok (.resolved ids roles serve))) :
    ∃ c run rids check, IndexComponent.find components probe.identity.name = some c ∧
      run.start < run.stop ∧ resolveRun probe c run rids check = .resolved ids roles serve := by
  rw [resolveInMemory] at h
  cases hfind : IndexComponent.find components probe.identity.name with
  | none =>
    rw [hfind] at h
    cases h
  | some c =>
    rw [hfind] at h
    dsimp only at h
    obtain ⟨searched, hsearched, h⟩ := Option.bind_eq_some_iff.mp h
    cases searched with
    | error e => cases h
    | ok searched =>
      cases searched with
      | declined => cases h
      | empty => cases h
      | run run =>
        cases run with
        | none => cases h
        | some run =>
          have hrun : run.start < run.stop := (searchKeys_nonempty hsearched).resolve_left
            fun hnone => (Option.some_ne_none _ hnone.symm).elim
          dsimp only at h
          obtain ⟨rids, -, h⟩ := Option.bind_eq_some_iff.mp h
          obtain ⟨check, hcheck, h⟩ := Option.bind_eq_some_iff.mp h
          cases check with
          | error e => cases h
          | ok check => exact ⟨c, run, rids, check, rfl, hrun, Except.ok.inj (Option.some.inj h)⟩

variable [Inhabited V] {layout : IndexedLayout ox V} {rows : List (Row V)}

/-- What the indexes make of a pattern, as a view keeps it: the ids of the rows holding the
terms they resolved, and a plan that serves them, in the order it declares. -/
inductive Resolves (fl : FastLanes) (layout : IndexedLayout ox V) (rows : List (Row V))
    (pattern : QuadPattern) : IndexResolution V → Prop where
  | declined : Resolves fl layout rows pattern .declined
  | empty (none_holds : layout.matchingRows rows pattern.boundRoles = []) :
      Resolves fl layout rows pattern .empty
  | resolved (ids : LazyRowIds) (roles : ResolvedRoles) (serve : Option (InMemoryServePlan V))
      (fresh : FreshPlan ids serve)
      (holds : ∀ (M : Type) [MaskOps M], ∃ l, ids.Holds fl M l ∧ l.Nodup ∧
        inOrder l = layout.matchingRows rows
          (pattern.boundRoles.filter fun term => roles.has term.role))
      (serves : ∀ (M : Type) [MaskOps M] plan, serve = some plan →
        ∃ family, Serves fl M layout rows family
          (pattern.boundRoles.filter fun term => roles.has term.role) ids plan ∧
        plan.decode.Fits layout.strategy
          (pattern.boundRoles.filter fun term => roles.has term.role) family) :
      Resolves fl layout rows pattern (.resolved ids roles serve)

/-- The indexes asked in turn: each resolution is right, whatever tombstones are applied to
its ids. -/
theorem resolveIndexes_resolves (hsmall : rows.length ≤ usizeMax)
    {components : List (IndexComponent V)}
    (hbuilt : ∀ c ∈ components, ∃ child, c.BuiltFrom fl rows child) {pattern : QuadPattern}
    (hprobed : Probed layout codes pattern) (windowed zonesEnabled : Bool)
    (indexes : List IndexType) : ∃ resolution,
      resolveIndexesInMemory fl ox components layout.strategy pattern codes windowed zonesEnabled
        indexes = some (.ok resolution) ∧ Resolves fl layout rows pattern resolution := by
  induction indexes with
  | nil => exact ⟨.declined, rfl, .declined⟩
  | cons index indexes ih =>
    rw [resolveIndexesInMemory]
    cases hchoose : choose index pattern layout.strategy with
    | none => exact ih
    | some probe =>
      dsimp only
      cases hfind : IndexComponent.find components probe.identity.name with
      | none =>
        rw [resolveInMemory, hfind]
        exact ih
      | some c =>
        obtain ⟨hmem, hname⟩ := find_spec hfind
        obtain ⟨child, hc⟩ := hbuilt c hmem
        rw [hc.identity_eq] at hname
        have hspec := fun (M : Type) [MaskOps M] => resolveInMemory_spec M hc hfind hsmall
          (choose_spec hchoose hname) hprobed windowed zonesEnabled
        rcases hspec BitMask with ⟨hresolve, hnone⟩ | ⟨ids, roles, serve, -, hresolve, -⟩
        · exact ⟨.empty, by rw [hresolve]; rfl, .empty hnone⟩
        · obtain ⟨c', run, rids, check, hfound, hrun, hrunResolve⟩ := resolveInMemory_run hresolve
          obtain rfl := Option.some.inj (hfind.symm.trans hfound)
          refine ⟨.resolved ids roles serve, by rw [hresolve]; rfl, .resolved ids roles serve
            (resolveRun_fresh hrun hrunResolve) (fun M _ => ?_) fun M _ => ?_⟩ <;>
            rcases hspec M with ⟨hempty, -⟩ | ⟨_, _, _, l, hresolved, hholds, hnodup, horder, hserves⟩
          · rw [hresolve] at hempty
            cases hempty
          · rw [hresolve] at hresolved
            cases hresolved
            exact ⟨l, hholds, hnodup, horder⟩
          · rw [hresolve] at hempty
            cases hempty
          · rw [hresolve] at hresolved
            cases hresolved
            intro plan hplan
            obtain ⟨family, hserve⟩ := hserves plan hplan
            rw [hplan] at hrunResolve
            obtain ⟨hdecode, rfl, hcomponent⟩ := resolveRun_declared hrunResolve
            -- the component probed is of one family
            obtain ⟨family', hchild, hfits⟩ := choose_fits hchoose hdecode hname
            have hsame : (IndexChild.copy family).identity = child.identity := by
              rw [← hserve.built.identity_eq, hcomponent, hc.identity_eq]
            have hcopy := copyFamily_eq (congrArg ComponentIdentity.name hsame.symm)
            obtain rfl : family' = family := IndexChild.copy.inj (hchild.symm.trans hcopy)
            exact ⟨family', hserve, hfits⟩

end Indexed

/-! ### The view of a match -/

section Views

variable {ox : Oxrdf} {V M : Type} [LinearOrder V] [TermColumn V] [Inhabited V] [MaskOps M]
  {fl : FastLanes} {finish : Finish} {store : VortexRdfStore ox V M} {ids : List RowId}
  {codes : PatternCodes}

/-- Whether a base row of a store holds every term of a pattern. -/
def VortexRdfStore.matches (store : VortexRdfStore ox V M) (pattern : QuadPattern) (i : ℕ) : Bool :=
  matchesAt store.layout.toIndexedLayout store.quads.memory.base.rows pattern.boundRoles i

/-- The view of a base match: over the same data, the rows it shows are those of the view
matched that hold the pattern's terms; one built for its rows is never pending without a plan. -/
structure BaseMatched (fl : FastLanes) (finish : Finish) (store : VortexRdfStore ox V M)
    (pattern : QuadPattern) (need : IdsNeed) (ids : List RowId) (view : VortexRdfStore ox V M) :
    Prop where
  sound : view.Sound fl finish
  same : SameData store view
  shows : ∃ ids', view.quads.Shows fl view.layout ids' ∧
    inOrder ids' = (inOrder ids).filter (store.matches pattern)
  read : need = .rows → view.quads.isPendingWithoutPlan = false

omit [Inhabited V] in
/-- A view under another selection of the same base. -/
theorem VortexRdfStore.Sound.selecting (h : store.Sound fl finish) (selection : ViewSelection)
    (serve : Option (InMemoryServePlan V)) :
    (store.derived (store.quads.inMemoryWith selection serve) store.tail).Sound fl finish ∧
      SameData store (store.derived (store.quads.inMemoryWith selection serve) store.tail) :=
  ⟨⟨⟨h.memory.base, h.memory.built, h.memory.rids⟩, h.tombstones, h.kept⟩, rfl, rfl, rfl, rfl⟩

variable {pattern : QuadPattern}

/-- A view under a selection that yields some rows, with no plan. -/
theorem BaseMatched.of_compared {need : IdsNeed} (h : store.Sound fl finish)
    {selection : ViewSelection}
    (hcompared : Compared fl store.quads.deleted store.quads.baseLen need
      ((inOrder ids).filter (store.matches pattern)) selection) :
    BaseMatched fl finish store pattern need ids
      (store.derived (store.quads.withSelection selection) store.tail) where
  sound := (h.selecting selection none).1
  same := (h.selecting selection none).2
  shows := ⟨_, ⟨hcompared.yields, nofun,
      fun lazy first hpending => absurd hpending (hcompared.unserved _ _)⟩,
    inOrder_of_sorted hcompared.yields.within.ascending⟩
  read hneed := by
    have hexact : selection.isExact = true := hcompared.exact hneed
    show (!selection.isExact && _) = false
    rw [hexact]
    rfl

/-- A view of no row, where no row of the view matched holds the pattern's terms. -/
theorem BaseMatched.of_nothing {need : IdsNeed} (h : store.Sound fl finish)
    (hnone : (inOrder ids).filter (store.matches pattern) = []) :
    BaseMatched fl finish store pattern need ids store.emptyView where
  sound := h.emptyView.1.sound
  same := h.emptyView.2
  shows := ⟨[], h.emptyView.1.base, by rw [hnone, inOrder_of_sorted List.Pairwise.nil.sortedLT]⟩
  read _ := rfl

variable {rows : List (Row V)} {lazy : LazyRowIds}

/-- The live rows a plan serves fresh from the indexes. -/
theorem serves_reads {layout : RoleLayout ox V} {family : CopyFamily}
    {terms : List TermRef} {plan : InMemoryServePlan V}
    (h : Serves fl M layout.toIndexedLayout rows family terms lazy plan)
    (hfresh : FreshPlan lazy (some plan)) (hfits : plan.decode.Fits layout.strategy terms family)
    (deleted : Option M) :
    ∃ places l, plan.Covers fl rows family deleted places ∧ Recipe fl deleted rows.length l lazy ∧
      plan.decode.Declares layout.strategy rows l ∧
      l.filter (live deleted) = places.map ((IndexChild.copy family).ridAt rows) ∧
      inOrder l = layout.matchingRows rows terms := by
  have hsorted := RowRange.sortedLT_toList plan.run
  have hrun : ∀ i ∈ plan.run.toList, i < rows.length := fun i hi => ((h.holds_iff i).mp hi).1
  refine ⟨plan.run.toList.filter fun i => liveRid deleted ((IndexChild.copy family).ridAt rows i),
    plan.run.toList.map ((IndexChild.copy family).ridAt rows),
    ⟨h.built, h.within, h.runIds, ?_, ?_, ?_, ?_⟩, ⟨h.ids, nodup_ridAt hsorted.nodup hrun, ?_, ?_⟩,
    ⟨hfits.layout, serves_orders h hfits.order⟩, List.filter_map, ?_⟩
  · rw [h.span_eq]
    exact ⟨le_rfl, h.within.ordered, le_rfl, rfl⟩
  · exact (hsorted.pairwise.sublist List.filter_sublist).sortedLT
  · exact fun i hi => RowRange.mem_toList.mp (List.mem_filter.mp hi).1
  · exact fun i hi => (List.mem_filter.mp hi).2
  · intro id hid
    obtain ⟨i, hi, rfl⟩ := List.mem_map.mp hid
    exact (List.getElem?_eq_some_iff.mp (getElem?_ridAt (hrun i hi))).1
  · exact fun ids sorted hlazy => absurd hlazy (hfresh.recipe ids sorted)
  · exact inOrder_ridAt hsorted.nodup (fun row => terms.all (layout.holds row)) h.holds_iff

variable [LawfulMask M]

/-- A residual match of an exact selection, whose plan is kept only where nothing is left. -/
theorem matchResidual_spec (h : store.Sound fl finish) {left : QuadPattern}
    (hcodes : store.layout.prepare pattern = .codes codes)
    (hleft : ∀ term ∈ left.boundRoles, term ∈ pattern.boundRoles) {s : RowSelection}
    (hs : s.Within store.quads.baseLen)
    (hrows : ((s.listing store.quads.baseLen).filter (store.matches left)).filter
      (live store.quads.deleted) = (inOrder ids).filter (store.matches pattern))
    {serve : Option (InMemoryServePlan V)}
    (hserve : serve.isSome = true → s.isEmpty store.quads.baseLen = false ∧ left.anyBound = true)
    (zonesEnabled : Bool) (need : IdsNeed) :
    ∃ view, store.matchResidual fl zonesEnabled left codes need serve (.exact s) = some (.ok view) ∧
      BaseMatched fl finish store pattern need ids view := by
  rw [VortexRdfStore.matchResidual]
  split_ifs with hbound
  · obtain ⟨narrowed, hnarrowed, hcompared⟩ := residualNarrow_spec h.memory.base hcodes
      hleft hs zonesEnabled need store.quads.deleted
    rw [show residualNarrow fl ox store.quads.memory.base M zonesEnabled need codes left s = _ from
      hnarrowed, Attempt.andThen_ok]
    refine ⟨_, rfl, .of_compared h ?_⟩
    rw [← hrows]
    exact hcompared
  · have hplain : serve = none := by
      cases serve with
      | none => rfl
      | some plan =>
        obtain ⟨hempty, hany⟩ := hserve rfl
        rw [hempty, hany] at hbound
        exact absurd rfl hbound
    rw [hplain]
    refine ⟨_, rfl, .of_compared h (.of_exact hs ?_)⟩
    rw [← hrows, RowSelection.liveListing]
    refine congrArg (List.filter _) (List.filter_eq_self.mpr fun i hi => ?_)
    -- with no row or no bound role there is nothing to compare
    rw [Bool.and_eq_true, not_and_or] at hbound
    rcases hbound with hempty | hfree
    · have hsmall : store.quads.baseLen ≤ usizeMax := h.memory.base.small
      have hnil : s.listing store.quads.baseLen = [] := by
        rw [Bool.not_eq_true', Bool.not_eq_false, RowSelection.isEmpty, beq_iff_eq,
          len_eq_card hsmall hs] at hempty
        rw [RowSelection.listing, Finset.card_eq_zero.mp hempty, Finset.sort_empty]
      rw [hnil] at hi
      exact absurd hi List.not_mem_nil
    · rw [Bool.not_eq_true, QuadPattern.anyBound_eq_false] at hfree
      rw [VortexRdfStore.matches, hfree]
      exact matchesAt_nil ((listing_idsWithin hs).inBase i hi)

omit [Inhabited V] [LawfulMask M] in
/-- Rows narrowed, less the tombstones, are those of the view that hold the pattern's terms. -/
theorem Narrows.live_rows {s s' : RowSelection} {left : QuadPattern}
    (h : Narrows store.layout.toIndexedLayout store.quads.memory.base.rows s pattern s' left)
    (hids : s.liveListing store.quads.deleted store.quads.baseLen = inOrder ids) :
    ((s'.listing store.quads.baseLen).filter (store.matches left)).filter (live store.quads.deleted) =
      (inOrder ids).filter (store.matches pattern) := by
  have hsame : (s'.listing store.quads.baseLen).filter (store.matches left) =
      (s.listing store.quads.baseLen).filter (store.matches pattern) := h.same
  rw [hsame, ← hids, RowSelection.liveListing, List.filter_filter, List.filter_filter]
  exact List.filter_congr fun i _ => Bool.and_comm _ _

variable {layout : IndexedLayout ox V}

omit [Inhabited V] in
/-- An index's ids narrow a selection to the rows of the terms they resolve. -/
theorem intersectIds_narrows {s : RowSelection}
    (hs : s.Within rows.length) (roles : ResolvedRoles) {l : List RowId}
    (hl : l = layout.matchingRows rows
      (pattern.boundRoles.filter fun term => roles.has term.role)) :
    ∃ cut, s.intersectIds l = some cut ∧ Narrows layout rows s pattern cut (roles.clear pattern) ∧
      ∀ i, i ∈ cut.rows rows.length ↔ i ∈ s.rows rows.length ∧ i ∈ l := by
  have hwithin : IdsWithin rows.length l := by
    rw [hl]
    exact ⟨IndexedLayout.sortedLT_matchingRows rows _,
      fun i hi => List.mem_range.mp (List.mem_filter.mp hi).1⟩
  obtain ⟨cut, hcut, hcutWithin, hrows⟩ := intersectIds_selects hs hwithin
  have hmem : ∀ i, i ∈ cut.rows rows.length ↔ i ∈ s.rows rows.length ∧ i ∈ l := fun i => by
    rw [hrows, Finset.mem_inter, List.mem_toFinset]
  refine ⟨cut, hcut, .of_rows (p := matchesAt layout rows
    (pattern.boundRoles.filter fun term => roles.has term.role)) hs hcutWithin (fun i => ?_) ?_ ?_, hmem⟩
  · rw [hmem, hl, matchingRows_eq]
    refine and_congr_right fun hi => ?_
    rw [List.mem_filter, List.mem_range]
    exact and_iff_right (rows_lt hs hi)
  · intro term hterm
    rw [boundRoles_clear] at hterm
    exact (List.mem_filter.mp hterm).1
  · intro i _
    rw [← matchesAt_append, boundRoles_clear]
    refine matchesAt_congr (fun term => ?_) i
    rw [List.mem_append, List.mem_filter, List.mem_filter]
    cases roles.has term.role <;> simp

omit [LawfulMask M] in
/-- A plan's terms are held by some row. -/
theorem Serves.some_row {family : CopyFamily}
    {terms : List TermRef} {plan : InMemoryServePlan V}
    (h : Serves fl M layout rows family terms lazy plan) (hrun : plan.run.start < plan.run.stop) :
    ∃ i, i ∈ layout.matchingRows rows terms := by
  obtain ⟨hlt, hall⟩ := (h.holds_iff plan.run.start).mp (RowRange.mem_toList.mpr ⟨le_rfl, hrun⟩)
  have hrow := @getElem?_ridAt V _ _ rows (.copy family) plan.run.start hlt
  refine ⟨_, List.mem_filter.mpr ⟨List.mem_range.mpr (List.getElem?_eq_some_iff.mp hrow).1, ?_⟩⟩
  rw [hrow, Option.any_some]
  exact hall

omit [Inhabited V] [LawfulMask M] in
/-- Every row of a base whose terms are all resolved. -/
theorem resolved_rows
    {roles : ResolvedRoles} (h : (roles.clear pattern).boundRoles = []) (deleted : Option M) :
    (layout.matchingRows rows
      (pattern.boundRoles.filter fun term => roles.has term.role)).filter (live deleted) =
      ((RowSelection.all).liveListing deleted rows.length).filter
        (matchesAt layout rows pattern.boundRoles) := by
  have hlisting : RowSelection.all.listing rows.length = List.range rows.length := Finset.sort_range _
  rw [resolved_all h, matchingRows_eq, RowSelection.liveListing, hlisting, List.filter_filter,
    List.filter_filter]
  exact List.filter_congr fun i _ => Bool.and_comm _ _

omit [LawfulMask M] in
/-- A source whose rows are pending ids, with no plan. -/
theorem QuadsSource.pending_shows {layout : RoleLayout ox V} {quads : QuadsSource V M}
    {l : List RowId} (h : Recipe fl quads.deleted quads.baseLen l lazy) :
    (quads.inMemoryWith (.pending lazy none) none).Shows fl layout
      ((inOrder l).filter (live quads.deleted)) where
  reads := ⟨l, h, rfl⟩
  declared _ hplan := nomatch hplan
  matched lazy' first hselection := by
    have hpending : ViewSelection.pending lazy none = .pending lazy' (some first) := hselection
    cases hpending

omit [LawfulMask M] in
/-- A source whose rows are pending ids, a plan reading them. -/
theorem QuadsSource.planned_shows {layout : RoleLayout ox V} {quads : QuadsSource V M}
    {plan : InMemoryServePlan V} {family : CopyFamily} {places l : List ℕ}
    (hdeclared : plan.decode.Declares layout.strategy quads.memory.base.rows l)
    (hcovers : plan.Covers fl quads.memory.base.rows family quads.deleted places)
    (h : Recipe fl quads.deleted quads.baseLen l lazy)
    (hplaces : l.filter (live quads.deleted) =
      places.map ((IndexChild.copy family).ridAt quads.memory.base.rows)) :
    (quads.inMemoryWith (.pending lazy none) (some plan)).Shows fl layout
      (l.filter (live quads.deleted)) where
  reads := ⟨family, places, lazy, none, l, rfl, hcovers, h, rfl, hplaces⟩
  declared plan' hplan := by
    obtain rfl : plan = plan' := Option.some.inj hplan
    exact hdeclared.sublist List.filter_sublist
  matched lazy' first hselection := by
    have hpending : ViewSelection.pending lazy none = .pending lazy' (some first) := hselection
    cases hpending

/-- The match of what a resolution leaves. -/
theorem matchResolved_spec (h : store.Sound fl finish) {left : QuadPattern}
    (hcodes : store.layout.prepare pattern = .codes codes) {s s' : RowSelection}
    (hids : s.liveListing store.quads.deleted store.quads.baseLen = inOrder ids)
    (hnarrows : Narrows store.layout.toIndexedLayout store.quads.memory.base.rows s pattern s' left)
    {alone : Bool} (halone : alone = true → s = .all ∧ s' = .all ∧ left = pattern)
    {rowIds : LazyRowIds} {roles : ResolvedRoles} {serve : Option (InMemoryServePlan V)}
    (hresolved : Resolves fl store.layout.toIndexedLayout store.quads.memory.base.rows left
      (.resolved rowIds roles serve)) (zonesEnabled : Bool) (need : IdsNeed) :
    ∃ view, store.matchResolved fl zonesEnabled (roles.clear left) codes need alone s' (some rowIds)
        serve = some (.ok view) ∧ BaseMatched fl finish store pattern need ids view := by
  obtain _ | _ | ⟨_, _, _, hfresh, hholds, hserves⟩ := hresolved
  obtain ⟨l, hl, hnodup, horder⟩ := hholds M
  rw [VortexRdfStore.matchResolved]
  cases hdefer : (alone && !(roles.clear left).anyBound && (serve.isSome || need.countsOrWindows)) with
  | true =>
    -- the ids stay pending: they are the whole selection
    simp only [Bool.and_eq_true, Bool.not_eq_true'] at hdefer
    obtain ⟨⟨rfl, hfree⟩, hwhy⟩ := hdefer
    obtain ⟨rfl, rfl, rfl⟩ := halone rfl
    rw [QuadPattern.anyBound_eq_false] at hfree
    have hrows : (store.layout.matchingRows store.quads.memory.base.rows
        (left.boundRoles.filter fun term => roles.has term.role)).filter (live store.quads.deleted) =
        (inOrder ids).filter (store.matches left) := by
      rw [resolved_rows hfree, ← hids]
      rfl
    rw [foldRowIds, if_pos rfl, Option.bind_some, if_pos rfl]
    refine ⟨_, rfl, (h.selecting _ _).1, (h.selecting _ _).2, ?_, fun hneed => ?_⟩
    · cases serve with
      | none =>
        have hrecipe : Recipe fl store.quads.deleted store.quads.baseLen l rowIds :=
          ⟨hl, hnodup, fun id hid => by
            have hmem := (inOrder_perm l).mem_iff.mpr hid
            rw [horder] at hmem
            exact List.mem_range.mp (List.mem_filter.mp hmem).1,
          fun ids sorted hlazy => absurd hlazy (hfresh.recipe ids sorted)⟩
        refine ⟨(inOrder l).filter (live store.quads.deleted), QuadsSource.pending_shows hrecipe, ?_⟩
        rw [← hrows, ← horder]
        exact inOrder_of_sorted
          (hrecipe.inOrder_within.of_sublist List.filter_sublist).ascending
      | some plan =>
        obtain ⟨family, hplan, hfits⟩ := hserves M plan rfl
        obtain ⟨places, l', hcovers, hrecipe, hdeclared, hlive, horder'⟩ :=
          serves_reads hplan hfresh hfits store.quads.deleted
        refine ⟨l'.filter (live store.quads.deleted),
          QuadsSource.planned_shows hdeclared hcovers hrecipe hlive, ?_⟩
        rw [← hrows, ← horder']
        exact inOrder_eq ((inOrder_perm l').symm.filter _)
          (hrecipe.inOrder_within.of_sublist List.filter_sublist).ascending
    · subst hneed
      cases serve with
      | none => cases hwhy
      | some plan => rfl
  | false =>
    obtain ⟨kept, hkept, -⟩ := hl.materialized_spec hnodup
    obtain ⟨cut, hcut, hcutNarrows, hmem⟩ := intersectIds_narrows hnarrows.within roles horder
    rw [foldRowIds, if_neg Bool.false_ne_true, hkept, Option.bind_some, hcut, Option.map_some,
      Option.bind_some]
    have htrans := hnarrows.trans hcutNarrows
    refine matchResidual_spec h hcodes htrans.unbinds htrans.within (htrans.live_rows hids) ?_
      zonesEnabled need
    intro hserve
    cases alone with
    | false => cases hserve
    | true =>
      rw [if_pos rfl] at hserve
      obtain ⟨rfl, rfl, rfl⟩ := halone rfl
      obtain ⟨plan, rfl⟩ := Option.isSome_iff_exists.mp hserve
      obtain ⟨family, hplan, -⟩ := hserves M plan rfl
      obtain ⟨i, hi⟩ := Serves.some_row hplan (hfresh.nonempty plan rfl)
      have hsmall : store.quads.baseLen ≤ usizeMax := h.memory.base.small
      refine ⟨?_, by simpa using hdefer⟩
      have hrow : i ∈ cut.rows store.quads.baseLen := (hmem i).mpr
        ⟨Finset.mem_range.mpr (List.mem_range.mp (List.mem_filter.mp hi).1), by rwa [horder]⟩
      rw [RowSelection.isEmpty, len_eq_card hsmall htrans.within]
      exact beq_eq_false_iff_ne.mpr (Finset.card_ne_zero_of_mem hrow)

/-- **The base match**: the view shows the live rows of the view matched that hold every term
of the pattern. -/
theorem matchBaseInMemory_spec (h : store.Sound fl finish) (hreads : store.quads.Reads fl ids)
    (hcodes : store.layout.prepare pattern = .codes codes)
    (zonesEnabled : Bool) (need : IdsNeed) :
    ∃ view, store.matchBaseInMemory fl zonesEnabled pattern codes need = some (.ok view) ∧
      BaseMatched fl finish store pattern need ids view := by
  have hsmall : store.quads.memory.base.rows.length ≤ usizeMax := h.memory.base.small
  obtain ⟨s, hs, hwithin, hids⟩ := hreads.yields.materialized_spec
  have hprobed : Probed store.layout.toIndexedLayout codes pattern := store.layout.prepared hcodes
  obtain ⟨s', left, narrowed, hprefix, hnarrows, hplain⟩ := prefixProbe_narrows h.memory.base hprobed
    (show s.Within store.quads.memory.base.len from hwithin)
  have halone : (decide (s = .all) && !narrowed) = true → s = .all ∧ s' = .all ∧ left = pattern := by
    intro hboth
    simp only [Bool.and_eq_true, decide_eq_true_eq, Bool.not_eq_true'] at hboth
    obtain ⟨rfl, hfalse⟩ := hboth
    obtain ⟨rfl, rfl⟩ := hplain hfalse
    exact ⟨rfl, rfl, rfl⟩
  -- with no index asked the residual has all that is left
  have hunasked : ∃ view, store.matchResolved fl zonesEnabled left codes need
      (decide (s = .all) && !narrowed) s' none none = some (.ok view) ∧
        BaseMatched fl finish store pattern need ids view := by
    rw [VortexRdfStore.matchResolved, Option.bind_some, ite_self]
    exact matchResidual_spec h hcodes hnarrows.unbinds hnarrows.within (hnarrows.live_rows hids)
      (show (none : Option (InMemoryServePlan V)).isSome = true → _ from nofun) zonesEnabled need
  rw [VortexRdfStore.matchBaseInMemory]
  dsimp only
  rw [hs, Option.bind_some, hprefix, Attempt.andThen_ok]
  dsimp only
  split_ifs with hasks
  · obtain ⟨resolution, hresolution, hresolves⟩ := resolveIndexes_resolves hsmall h.memory.built
      (fun term hterm => hprobed term (hnarrows.unbinds term hterm)) need.windowed zonesEnabled
      store.indexes
    rw [hresolution, Attempt.andThen_ok]
    cases resolution with
    | declined => exact hunasked
    | empty =>
      cases hresolves with
      | empty hnone =>
      refine ⟨_, rfl, .of_nothing h ?_⟩
      have hnil : (s'.listing store.quads.baseLen).filter (store.matches left) = [] := by
        refine List.filter_eq_nil_iff.mpr fun i hi hholds => ?_
        have hmem : i ∈ store.layout.matchingRows store.quads.memory.base.rows left.boundRoles :=
          List.mem_filter.mpr
            ⟨List.mem_range.mpr ((listing_idsWithin hnarrows.within).inBase i hi), hholds⟩
        rw [hnone] at hmem
        exact List.not_mem_nil hmem
      rw [← hnarrows.live_rows hids, hnil]
      rfl
    | resolved rowIds roles serve =>
      exact matchResolved_spec h hcodes hids hnarrows halone hresolves zonesEnabled need
  · exact hunasked

end Views

end Views
