/-
Resolving a pattern through an index is filtering the rows.

Whatever children an in-memory base keeps, the ids an index resolves are the base rows
that hold the terms of the roles it resolved, in base order once materialized; the roles
are cleared from the pattern, and filtering the ids by what is left gives the rows that
match the pattern.

* `IndexedLayout.matchingRows` — the base rows that hold some bound terms;
* `searchKeys_spec` — the searches of a probe's keys find the run of rows holding them;
* `Chosen`, `choose_covers` — what the probe of a pattern searches and resolves, and the roles
  each kind of index answers;
* `inOrder_ridAt` — the base rows some places of a child came from, in base order;
* `resolveInMemory_spec` — a probe's ids are the rows holding what it resolved;
* `resolution_isFilter` — the ids of the indexes asked, then the residual, are the filter.
-/
import VortexRdf.IndexLayouts
import VortexRdf.TermRoundTrip

namespace Indexes

open Bisect Buffers Builds Dictionary Masks MaskOps Terms
open EncodedSearch (FastLanes)
open Store hiding Row
open scoped Lexicographic

/-! ### Rows that hold terms -/

namespace IndexedLayout

variable {ox : Oxrdf} {V : Type} [LinearOrder V] [TermColumn V] (layout : IndexedLayout ox V)

/-- Whether a row holds a bound term in its role. -/
def holds (row : Row V) (term : TermRef) : Bool :=
  layout.spelling (roleValue row term.role) == some (term.writeNt ox)

/-- The base rows that hold every one of some bound terms, in order. -/
def matchingRows (rows : List (Row V)) (terms : List TermRef) : List ℕ :=
  (List.range rows.length).filter fun i => rows[i]?.any fun row => terms.all (layout.holds row)

variable {layout}

theorem holds_iff {v : V} {term : TermRef} (hv : layout.spelling v = some (term.writeNt ox))
    (row : Row V) : layout.holds row term = true ↔ roleValue row term.role = v := by
  rw [holds, beq_iff_eq]
  constructor
  · exact fun h => layout.spelled h hv
  · rintro rfl
    exact hv

theorem sortedLT_matchingRows (rows : List (Row V)) (terms : List TermRef) :
    (layout.matchingRows rows terms).SortedLT :=
  ((List.sortedLT_range rows.length).pairwise.sublist List.filter_sublist).sortedLT

/-- The rows holding some terms, then those of them holding more. -/
theorem filter_matchingRows (rows : List (Row V)) (terms terms' : List TermRef) :
    (layout.matchingRows rows terms).filter
      (fun i => rows[i]?.any fun row => terms'.all (layout.holds row)) =
      layout.matchingRows rows (terms ++ terms') := by
  rw [matchingRows, matchingRows, List.filter_filter]
  refine List.filter_congr fun i _ => ?_
  cases rows[i]? with
  | none => rfl
  | some row => simp only [Option.any_some, List.all_append, Bool.and_comm]

theorem matchingRows_congr (rows : List (Row V)) {terms terms' : List TermRef}
    (h : ∀ term, term ∈ terms ↔ term ∈ terms') :
    layout.matchingRows rows terms = layout.matchingRows rows terms' := by
  refine List.filter_congr fun i _ => ?_
  cases rows[i]? with
  | none => rfl
  | some row =>
    rw [Option.any_some, Option.any_some, Bool.eq_iff_iff, List.all_eq_true, List.all_eq_true]
    exact forall_congr' fun term => by rw [h]

end IndexedLayout

/-! ### The searches of a probe -/

section Searches

variable {ox : Oxrdf} {V : Type} [LinearOrder V] [TermColumn V] [Inhabited V] {fl : FastLanes}
  {layout : IndexedLayout ox V} {rows : List (Row V)} {child : IndexChild} {c : IndexComponent V}
  {codes : PatternCodes}

/-- Each key's search narrows the run of the rows holding the keys before it. -/
theorem searchKeys_spec (hc : c.BuiltFrom fl rows child) {keys : List (String × TermRef)}
    (hprobes : ∀ key ∈ keys, ∃ v, codes.probeScalar ox key.2 = .ok (some (TermColumn.scalar v)) ∧
      layout.spelling v = some (key.2.writeNt ox))
    (hkeys : ∀ key ∈ keys, (key.1, key.2.role) ∈ child.keys) {within : Option RowRange}
    {range : RowRange} (hrange : within.getD ⟨0, c.len⟩ = range) (hwithin : range.Within rows.length)
    (hnested : NestedOn (keys.map fun key i => roleValue (child.rowAt rows i) key.2.role)
      range.start range.stop) :
    (searchKeys fl ox c codes keys within = some (.ok .empty) ∧
      ∀ i, range.start ≤ i → i < range.stop → ∃ key ∈ keys,
        layout.holds (child.rowAt rows i) key.2 = false) ∨
    ∃ run, searchKeys fl ox c codes keys within = some (.ok (.run run)) ∧
      (keys ≠ [] → ∃ r, run = some r ∧ r.start < r.stop) ∧
      IsRun (fun i => ∀ key ∈ keys, layout.holds (child.rowAt rows i) key.2 = true)
        range.start range.stop (run.getD ⟨0, c.len⟩).start (run.getD ⟨0, c.len⟩).stop := by
  induction keys generalizing within range with
  | nil =>
    refine .inr ⟨within, rfl, fun h => absurd rfl h, ?_⟩
    rw [hrange]
    exact (IsRun.whole hwithin.ordered).congr fun i _ _ =>
      ⟨fun _ key hkey => absurd hkey List.not_mem_nil, fun _ => trivial⟩
  | cons key keys ih =>
    obtain ⟨hascends, hinner⟩ := hnested
    obtain ⟨⟨v, hscalar, hv⟩, hrest⟩ := List.forall_mem_cons.mp hprobes
    obtain ⟨hkey, hkeysRest⟩ := List.forall_mem_cons.mp hkeys
    obtain ⟨run, hrun, hisRun⟩ := probeRun_key hc hkey hrange hwithin hascends
      (fun n => layout.fits hv)
    have hholds : ∀ i, layout.holds (child.rowAt rows i) key.2 = true ↔
        roleValue (child.rowAt rows i) key.2.role = v :=
      fun i => IndexedLayout.holds_iff hv _
    rw [searchKeys, hscalar, Attempt.andThen_ok]
    dsimp only
    rw [hrun, Option.bind_some]
    dsimp only
    -- no row has this key, or the rest is searched inside its run
    split_ifs with hempty
    · refine .inl ⟨rfl, fun i hlo hhi => ⟨key, List.mem_cons_self, ?_⟩⟩
      rw [← Bool.not_eq_true, hholds, hisRun.holds_iff i hlo hhi]
      omega
    · have hrunWithin : run.Within rows.length := ⟨hisRun.le, hisRun.le_stop.trans hwithin.inBase⟩
      have hnested' := hinner v _ _ hisRun
      rcases @ih hrest hkeysRest (some run) run rfl hrunWithin hnested' with
        ⟨hfound, hnone⟩ | ⟨final, hfound, hnonempty, hfinal⟩
      · refine .inl ⟨hfound, fun i hlo hhi => ?_⟩
        by_cases hi : run.start ≤ i ∧ i < run.stop
        · obtain ⟨other, hother, hfalse⟩ := hnone i hi.1 hi.2
          exact ⟨other, List.mem_cons_of_mem key hother, hfalse⟩
        · refine ⟨key, List.mem_cons_self, ?_⟩
          rw [← Bool.not_eq_true, hholds, hisRun.holds_iff i hlo hhi]
          exact hi
      · refine .inr ⟨final, hfound, fun _ => ?_, ?_⟩
        · cases keys with
          | nil =>
            obtain rfl : some run = final := by
              have := Option.some.inj hfound
              have := Except.ok.inj this
              exact Searched.run.inj this
            exact ⟨run, rfl, Nat.lt_of_not_le hempty⟩
          | cons other keys => exact hnonempty (List.cons_ne_nil other keys)
        · refine (hisRun.inside hfinal).congr fun i _ _ => ?_
          rw [List.forall_mem_cons, hholds]

end Searches

/-! ### The resolved roles -/

/-- Whether a role is resolved; a subject never is. -/
def ResolvedRoles.has (roles : ResolvedRoles) : QuadColumn → Bool
  | .s => false
  | .p => roles.predicate
  | .o => roles.object
  | .g => roles.graph

/-- Clearing the resolved roles leaves the other bound terms. -/
theorem boundRoles_clear (roles : ResolvedRoles) (pattern : QuadPattern) :
    (roles.clear pattern).boundRoles = pattern.boundRoles.filter fun term => !roles.has term.role := by
  obtain ⟨s, p, o, g⟩ := pattern
  obtain ⟨rp, ro, rg⟩ := roles
  cases s <;> cases p <;> cases o <;> cases g <;> cases rp <;> cases ro <;> cases rg <;> rfl

/-! ### The probe of a pattern -/

/-- A probe searches a child for the terms it resolves, the child's leading columns in
turn; a reference's run of one value lists its row ids in ascending order. -/
structure Chosen (pattern : QuadPattern) (child : IndexChild) (probe : IndexProbe) : Prop where
  keyed : probe.keys ≠ []
  leads : (probe.keys.map fun key => (key.1, key.2.role)) <+: child.keys
  terms_eq : probe.keys.map Prod.snd =
    pattern.boundRoles.filter fun term => probe.resolves.has term.role
  graph_eq : probe.graph = pattern.graph.map TermRef.graph
  resolves_graph : probe.resolves.graph = false
  ascends : probe.ridsAscend = true → ∃ family graphs term,
    child = .reference family graphs ∧ probe.keys = [(COL_VAL, term)]
  serves : ∀ decode, probe.serve = some decode → ∃ family, child = .copy family

theorem copyFamily_eq {family : CopyFamily} {child : IndexChild}
    (h : child.identity.name = family.identity.name) : child = .copy family := by
  rcases child with (_ | _) | ⟨_ | _, _⟩ <;> cases family <;> first | rfl | exact absurd h (by decide +revert)

theorem refFamily_eq {family : RefFamily} {child : IndexChild}
    (h : child.identity.name = family.identity.name) : ∃ graphs, child = .reference family graphs := by
  rcases child with (_ | _) | ⟨_ | _, _⟩ <;> cases family <;>
    first | exact ⟨_, rfl⟩ | exact absurd h (by decide +revert)

theorem chooseCopy_spec {pattern : QuadPattern} {layout : LayoutStrategy} {probe : IndexProbe}
    {child : IndexChild} (h : chooseCopy pattern layout = some probe)
    (hname : child.identity.name = probe.identity.name) : Chosen pattern child probe := by
  obtain ⟨s, p, o, g⟩ := pattern
  cases s with
  | some s => cases h
  | none =>
    cases p <;> cases o <;> cases h <;>
      · obtain rfl := copyFamily_eq hname
        cases g <;>
          exact ⟨List.cons_ne_nil _ _, ⟨_, rfl⟩, rfl, rfl, rfl, fun h => absurd h Bool.false_ne_true,
            fun _ _ => ⟨_, rfl⟩⟩

theorem chooseReference_spec {pattern : QuadPattern} {probe : IndexProbe} {child : IndexChild}
    (h : chooseReference pattern = some probe)
    (hname : child.identity.name = probe.identity.name) : Chosen pattern child probe := by
  obtain ⟨s, p, o, g⟩ := pattern
  cases s with
  | some s => cases h
  | none =>
    cases p <;> cases o <;> cases h <;>
      · obtain ⟨graphs, rfl⟩ := refFamily_eq hname
        cases g <;>
          exact ⟨List.cons_ne_nil _ _, List.prefix_refl _, rfl, rfl, rfl, fun _ => ⟨_, _, _, rfl, rfl⟩,
            fun _ h => by cases h⟩

theorem choose_spec {index : IndexType} {pattern : QuadPattern} {layout : LayoutStrategy}
    {probe : IndexProbe} {child : IndexChild} (h : choose index pattern layout = some probe)
    (hname : child.identity.name = probe.identity.name) : Chosen pattern child probe := by
  rw [choose.eq_def] at h
  obtain ⟨h, -⟩ := Option.filter_eq_some_iff.mp h
  cases index with
  | secondaryByCopy => exact chooseCopy_spec h hname
  | secondaryByReference => exact chooseReference_spec h hname

/-- **The roles an index covers**: it has a probe for a pattern with no bound subject and a bound
predicate or object; a copy resolves whichever of the two are bound, a reference index the object
alone where it is bound, and neither the graph. -/
theorem choose_covers (index : IndexType) (pattern : QuadPattern) (layout : LayoutStrategy) :
    ((choose index pattern layout).isSome = true ↔
      pattern.subject = none ∧ (pattern.predicate.isSome ∨ pattern.object.isSome)) ∧
    ∀ probe, choose index pattern layout = some probe → probe.resolves.object = pattern.object.isSome ∧
      probe.resolves.predicate = (pattern.predicate.isSome &&
        (decide (index = .secondaryByCopy) || pattern.object.isNone)) ∧
      probe.resolves.graph = false := by
  obtain ⟨s, p, o, g⟩ := pattern
  rw [choose.eq_def]
  cases index with
  | secondaryByCopy =>
    cases s <;> cases p <;> cases o <;>
      exact ⟨by simp [chooseCopy, copyProbe], fun probe h => by cases h <;> exact ⟨rfl, rfl, rfl⟩⟩
  | secondaryByReference =>
    cases s <;> cases p <;> cases o <;>
      exact ⟨by simp [chooseReference, referenceProbe], fun probe h => by cases h <;> exact ⟨rfl, rfl, rfl⟩⟩

/-! ### The ids of a child's rows -/

section EntryIds

variable {V : Type} [LinearOrder V] [Inhabited V] {rows : List (Row V)} {child : IndexChild}

/-- The base row a place of a child came from. -/
def IndexChild.ridAt (child : IndexChild) (rows : List (Row V)) (i : ℕ) : RowId :=
  ((child.entries rows).getD i default).2

theorem getElem?_ridAt {i : ℕ} (hi : i < rows.length) :
    rows[child.ridAt rows i]? = some (child.rowAt rows i) := by
  rw [← child.length_entries] at hi
  refine (@IndexChild.mem_entries V _ child rows ((child.entries rows).getD i default)).mp ?_
  rw [List.getD_eq_getElem _ _ hi]
  exact List.getElem_mem hi

/-- Every base row stands at some place of a child. -/
theorem exists_ridAt {j : ℕ} {row : Row V} (h : rows[j]? = some row) :
    ∃ i, i < rows.length ∧ child.ridAt rows i = j ∧ child.rowAt rows i = row := by
  obtain ⟨i, hi, hentry⟩ := List.mem_iff_getElem.mp
    ((@IndexChild.mem_entries V _ child rows (row, j)).mpr h)
  refine ⟨i, by rwa [child.length_entries] at hi, ?_, ?_⟩
  · rw [IndexChild.ridAt, List.getD_eq_getElem _ _ hi, hentry]
  · rw [IndexChild.rowAt, List.getD_eq_getElem _ _ hi, hentry]

theorem ridAt_injective {i j : ℕ} (hi : i < rows.length) (hj : j < rows.length)
    (h : child.ridAt rows i = child.ridAt rows j) : i = j := by
  have hnodup := child.rids_nodup rows
  rw [← child.length_entries] at hi hj
  refine (@List.Nodup.getElem_inj_iff _ _ hnodup i (by rwa [List.length_map]) j
    (by rwa [List.length_map])).mp ?_
  rw [List.getElem_map, List.getElem_map]
  rwa [IndexChild.ridAt, IndexChild.ridAt, List.getD_eq_getElem _ _ hi,
    List.getD_eq_getElem _ _ hj] at h

/-- The ids of some places of a child are each named once. -/
theorem nodup_ridAt {l : List ℕ} (hl : l.Nodup) (hin : ∀ i ∈ l, i < rows.length) :
    (l.map (child.ridAt rows)).Nodup :=
  hl.map_on fun i hi j hj h => ridAt_injective (hin i hi) (hin j hj) h

/-- The places of a child's rows satisfying something name the base rows satisfying it. -/
theorem inOrder_ridAt {l : List ℕ} (hl : l.Nodup) (P : Row V → Bool)
    (hmem : ∀ i, i ∈ l ↔ i < rows.length ∧ P (child.rowAt rows i) = true) :
    inOrder (l.map (child.ridAt rows)) =
      (List.range rows.length).filter fun j => rows[j]?.any P := by
  have hin : ∀ i ∈ l, i < rows.length := fun i hi => ((hmem i).mp hi).1
  have hsorted := ((List.sortedLT_range rows.length).pairwise.sublist
    (@List.filter_sublist _ (fun j => rows[j]?.any P) _)).sortedLT
  refine inOrder_eq ?_ hsorted
  refine (List.perm_ext_iff_of_nodup (nodup_ridAt hl hin) hsorted.nodup).mpr fun j => ?_
  rw [List.mem_map, List.mem_filter, List.mem_range]
  constructor
  · rintro ⟨i, hi, rfl⟩
    have hrow := @getElem?_ridAt V _ _ rows child i (hin i hi)
    obtain ⟨hlt, -⟩ := List.getElem?_eq_some_iff.mp hrow
    refine ⟨hlt, ?_⟩
    rw [hrow, Option.any_some]
    exact ((hmem i).mp hi).2
  · rintro ⟨hj, hP⟩
    obtain ⟨i, hi, hid, hrow⟩ := @exists_ridAt V _ _ rows child j _ (List.getElem?_eq_getElem hj)
    refine ⟨i, (hmem i).mpr ⟨hi, ?_⟩, hid⟩
    rw [hrow]
    rwa [List.getElem?_eq_getElem hj, Option.any_some] at hP

end EntryIds

/-! ### What a probe resolves -/

/-- Clearing the graph too keeps one more bound term. -/
theorem filter_withGraph {roles : ResolvedRoles} (hroles : roles.graph = false)
    {pattern : QuadPattern} {graph : GraphName} (hgraph : pattern.graph = some graph) :
    pattern.boundRoles.filter (fun term => roles.withGraph.has term.role) =
      pattern.boundRoles.filter (fun term => roles.has term.role) ++ [.graph graph] := by
  obtain ⟨s, p, o, g⟩ := pattern
  obtain ⟨rp, ro, rg⟩ := roles
  obtain rfl : rg = false := hroles
  obtain rfl : g = some graph := hgraph
  cases s <;> cases p <;> cases o <;> cases rp <;> cases ro <;> rfl

section Resolves

variable {ox : Oxrdf} {V : Type} [LinearOrder V] [TermColumn V] [Inhabited V] {fl : FastLanes}
  {layout : IndexedLayout ox V} {rows : List (Row V)} {child : IndexChild} {c : IndexComponent V}
  {codes : PatternCodes} {pattern : QuadPattern} {probe : IndexProbe}

/-- Every bound term is probed with the value that spells it. -/
def Probed (layout : IndexedLayout ox V) (codes : PatternCodes) (pattern : QuadPattern) : Prop :=
  ∀ term ∈ pattern.boundRoles, ∃ v, codes.probeScalar ox term = .ok (some (TermColumn.scalar v)) ∧
    layout.spelling v = some (term.writeNt ox)

/-- A reference's run of one value names its base rows in ascending order. -/
theorem sortedLT_ridAt (hchosen : Chosen pattern child probe) (hprobed : Probed layout codes pattern)
    (hascend : probe.ridsAscend = true) {run : RowRange}
    (hrun : IsRun (fun i => ∀ key ∈ probe.keys, layout.holds (child.rowAt rows i) key.2 = true)
      0 rows.length run.start run.stop) {l : List ℕ} (hl : l.SortedLT)
    (hin : ∀ i ∈ l, run.start ≤ i ∧ i < run.stop) : (l.map (child.ridAt rows)).SortedLT := by
  obtain ⟨family, graphs, term, rfl, hkeys⟩ := hchosen.ascends hascend
  have hterm : term ∈ pattern.boundRoles := by
    have hmem : term ∈ probe.keys.map Prod.snd := by rw [hkeys]; exact List.mem_singleton.mpr rfl
    rw [hchosen.terms_eq] at hmem
    exact (List.mem_filter.mp hmem).1
  obtain ⟨v, -, hv⟩ := hprobed term hterm
  have hrole : ∀ row : Row V, refValue family row = roleValue row term.role := by
    have hleads := hchosen.leads
    rw [hkeys] at hleads
    intro row
    cases family with
    | object => rw [show term.role = .o by simpa [IndexChild.keys] using hleads]; rfl
    | predicate => rw [show term.role = .p by simpa [IndexChild.keys] using hleads]; rfl
  have hvalue : IsRun (fun i => refValue family ((IndexChild.reference family graphs).rowAt rows i) = v)
      0 rows.length run.start run.stop := hrun.congr fun i _ _ => by
    rw [hkeys, List.forall_mem_singleton, hrole]
    exact IndexedLayout.holds_iff hv _
  have hasc := IndexChild.reference_rids_ascend rows family graphs hvalue
  have hsorted : (l.map ((IndexChild.reference family graphs).ridAt rows)).SortedLE := by
    refine (List.pairwise_map.mpr (hl.pairwise.imp_of_mem fun {i j} hi hj hlt => ?_)).sortedLE
    exact hasc i j (hin i hi).1 hlt.le (hin j hj).2
  exact hsorted.sortedLT_of_nodup
    (nodup_ridAt hl.nodup fun i hi => lt_of_lt_of_le (hin i hi).2 hrun.le_stop)

/-- A run's bound graph is left to the rows, or is checked against each of them. -/
theorem checkGraph_spec (M : Type*) [MaskOps M] (hc : c.BuiltFrom fl rows child)
    (hsmall : rows.length ≤ usizeMax) (hchosen : Chosen pattern child probe)
    (hprobed : Probed layout codes pattern) {run : RowRange} (hrun : run.Within rows.length)
    (windowed zonesEnabled : Bool) :
    checkGraph ox probe c codes run windowed zonesEnabled = some (.ok .unchecked) ∨
    ∃ graph check, pattern.graph = some graph ∧
      checkGraph ox probe c codes run windowed zonesEnabled = some (.ok (.checked check)) ∧
      check.Checks fl M rows.length run fun i =>
        layout.holds (child.rowAt rows i) (.graph graph) := by
  rw [checkGraph, hchosen.graph_eq]
  cases hgraph : pattern.graph with
  | none => exact .inl rfl
  | some graph =>
    cases hzones : c.graphZones with
    | none => exact .inl rfl
    | some zones =>
      rw [Option.map_some]
      dsimp only
      have hbound : TermRef.graph graph ∈ pattern.boundRoles := by
        rw [QuadPattern.boundRoles, List.reduceOption_mem_iff, hgraph]
        simp
      obtain ⟨v, hscalar, hv⟩ := hprobed _ hbound
      split_ifs with henabled
      · rw [hscalar, Attempt.andThen_ok]
        dsimp only
        cases hcode : unsignedValue (TermColumn.scalar v) with
        | none => exact .inl rfl
        | some code =>
          obtain ⟨check, hnew, hchecks⟩ := graphCheck_new M hc hsmall hzones hrun
            (unsignedValue_eq hcode)
          refine .inr ⟨graph, check, rfl, by dsimp only; rw [hnew]; rfl, ?_⟩
          have hholds : (fun i => decide (roleValue (child.rowAt rows i) .g = v)) =
              fun i => layout.holds (child.rowAt rows i) (.graph graph) := by
            funext i
            rw [Bool.eq_iff_iff, decide_eq_true_eq, IndexedLayout.holds_iff hv]
            rfl
          rwa [hholds] at hchecks
      · exact .inl rfl

/-- The row ids of a run, the column's own slice. -/
theorem sliceOf_rids (hc : c.BuiltFrom fl rows child) {run : RowRange} (hrun : run.Within rows.length) :
    sliceOf c.rids run.start run.stop = some (run.toList.map (child.ridAt rows)) := by
  rw [← hc.len_eq] at hrun
  rw [sliceOf_getD 0 hrun.ordered hrun.inBase, hc.rids_eq]
  refine congrArg some (List.map_congr_left fun i _ => ?_)
  exact @List.getD_map _ _ (child.entries rows) default i Prod.snd

/-- A plan serves the rows of a copy that hold some terms, as the run of them. -/
structure Serves (fl : FastLanes) (M : Type*) [MaskOps M] (layout : IndexedLayout ox V)
    (rows : List (Row V)) (family : CopyFamily) (terms : List TermRef) (ids : LazyRowIds)
    (plan : InMemoryServePlan V) : Prop where
  built : plan.component.BuiltFrom fl rows (.copy family)
  within : plan.run.Within rows.length
  span_eq : plan.span = .range plan.run
  runIds : plan.ids.Holds (plan.run.toList.map ((IndexChild.copy family).ridAt rows))
  ids : ids.Holds fl M (plan.run.toList.map ((IndexChild.copy family).ridAt rows))
  holds_iff : ∀ i, i ∈ plan.run.toList ↔ i < rows.length ∧
    terms.all (layout.holds ((IndexChild.copy family).rowAt rows i)) = true

/-- What a probe's run resolves: the rows holding the terms of the resolved roles. -/
theorem resolveRun_spec (M : Type*) [MaskOps M] (hc : c.BuiltFrom fl rows child)
    (hchosen : Chosen pattern child probe)
    (hprobed : Probed layout codes pattern) {run : RowRange}
    (hrun : IsRun (fun i => ∀ key ∈ probe.keys, layout.holds (child.rowAt rows i) key.2 = true)
      0 rows.length run.start run.stop) {check : RunCheck}
    (hcheck : check = .unchecked ∨ ∃ graph found, pattern.graph = some graph ∧ check = .checked found ∧
      found.Checks fl M rows.length run fun i => layout.holds (child.rowAt rows i) (.graph graph)) :
    ∃ ids roles serve l,
      resolveRun probe c run (run.toList.map (child.ridAt rows)) check = .resolved ids roles serve ∧
      ids.Holds fl M l ∧ l.Nodup ∧
      inOrder l = layout.matchingRows rows (pattern.boundRoles.filter fun term => roles.has term.role) ∧
      ∀ plan, serve = some plan → ∃ family, Serves fl M layout rows family
        (pattern.boundRoles.filter fun term => roles.has term.role) ids plan := by
  have hin : ∀ i ∈ run.toList, run.start ≤ i ∧ i < run.stop := fun i => RowRange.mem_toList.mp
  have hplaces : ∀ i ∈ run.toList, i < rows.length :=
    fun i hi => lt_of_lt_of_le (hin i hi).2 hrun.le_stop
  -- the places of the run are those of the rows holding the terms it resolves
  have hheld : ∀ i, i ∈ run.toList ↔ i < rows.length ∧
      (pattern.boundRoles.filter fun term => probe.resolves.has term.role).all
        (layout.holds (child.rowAt rows i)) = true := by
    intro i
    rw [← hchosen.terms_eq, RowRange.mem_toList, List.all_map, List.all_eq_true]
    constructor
    · intro hi
      have hlt : i < rows.length := lt_of_lt_of_le hi.2 hrun.le_stop
      exact ⟨hlt, (hrun.holds_iff i (Nat.zero_le i) hlt).mpr hi⟩
    · rintro ⟨hlt, hall⟩
      exact (hrun.holds_iff i (Nat.zero_le i) hlt).mp hall
  have hnodup := run.sortedLT_toList.nodup
  rcases hcheck with rfl | ⟨graph, found, hgraph, rfl, hchecks⟩
  · have hids : (ComponentRun.new (run.toList.map (child.ridAt rows)) probe.ridsAscend).Holds
        (run.toList.map (child.ridAt rows)) :=
      ⟨rfl, fun hascend => sortedLT_ridAt hchosen hprobed hascend hrun run.sortedLT_toList hin,
        kept_none _, kept_none _⟩
    refine ⟨_, _, _, run.toList.map (child.ridAt rows), rfl, hids, nodup_ridAt hnodup hplaces,
      inOrder_ridAt hnodup _ hheld, fun plan hplan => ?_⟩
    obtain ⟨decode, hdecode, rfl⟩ := Option.map_eq_some_iff.mp hplan
    obtain ⟨family, rfl⟩ := hchosen.serves decode hdecode
    exact ⟨family, hc, ⟨hrun.le, hrun.le_stop⟩, rfl, hids, hids, hheld⟩
  · set kept := run.toList.filter fun i => layout.holds (child.rowAt rows i) (.graph graph) with hkept
    have hkeptIn : ∀ i ∈ kept, run.start ≤ i ∧ i < run.stop :=
      fun i hi => hin i (List.mem_filter.mp hi).1
    have hkeptSorted : kept.SortedLT :=
      (run.sortedLT_toList.pairwise.sublist List.filter_sublist).sortedLT
    have hread : kept.map (child.ridAt rows) = kept.map fun i =>
        (run.toList.map (child.ridAt rows)).getD (i - run.start) 0 := by
      refine List.map_congr_left fun i hi => ?_
      have hi' := hkeptIn i hi
      rw [List.getD_eq_getElem _ _ (by rw [List.length_map, RowRange.toList, List.length_range']; omega),
        List.getElem_map]
      simp only [RowRange.toList, List.getElem_range', Nat.one_mul, Nat.add_sub_cancel' hi'.1]
    refine ⟨_, _, _, kept.map (child.ridAt rows), rfl, ⟨⟨rows.length, run, _, hchecks, ?_, hread⟩,
      fun hascend => ?_, kept_none _, kept_none _, kept_none _⟩,
      nodup_ridAt hkeptSorted.nodup fun i hi => hplaces i (List.mem_filter.mp hi).1, ?_,
      fun plan hplan => by cases hplan⟩
    · show (run.toList.map (child.ridAt rows)).length = run.stop - run.start
      rw [List.length_map, RowRange.toList, List.length_range']
    · exact sortedLT_ridAt hchosen hprobed hascend hrun hkeptSorted hkeptIn
    · rw [filter_withGraph hchosen.resolves_graph hgraph]
      refine inOrder_ridAt hkeptSorted.nodup _ fun i => ?_
      rw [hkept, List.mem_filter, hheld, List.all_append, List.all_cons, List.all_nil, Bool.and_true,
        Bool.and_eq_true, and_assoc]

/-- A probe finds no row holding its terms, or resolves those that do. -/
theorem resolveInMemory_spec (M : Type*) [MaskOps M] {components : List (IndexComponent V)}
    (hc : c.BuiltFrom fl rows child) (hfind : IndexComponent.find components probe.identity.name = some c)
    (hsmall : rows.length ≤ usizeMax) (hchosen : Chosen pattern child probe)
    (hprobed : Probed layout codes pattern) (windowed zonesEnabled : Bool) :
    (resolveInMemory fl ox probe components codes windowed zonesEnabled = some (.ok .empty) ∧
      layout.matchingRows rows pattern.boundRoles = []) ∨
    ∃ ids roles serve l, resolveInMemory fl ox probe components codes windowed zonesEnabled =
        some (.ok (.resolved ids roles serve)) ∧ ids.Holds fl M l ∧ l.Nodup ∧
      inOrder l = layout.matchingRows rows
        (pattern.boundRoles.filter fun term => roles.has term.role) ∧
      ∀ plan, serve = some plan → ∃ family, Serves fl M layout rows family
        (pattern.boundRoles.filter fun term => roles.has term.role) ids plan := by
  have hbound : ∀ key ∈ probe.keys, key.2 ∈ pattern.boundRoles := by
    intro key hkey
    have hmem := List.mem_map_of_mem (f := Prod.snd) hkey
    rw [hchosen.terms_eq] at hmem
    exact (List.mem_filter.mp hmem).1
  have hkeys : ∀ key ∈ probe.keys, (key.1, key.2.role) ∈ child.keys := fun key hkey =>
    hchosen.leads.subset (List.mem_map_of_mem (f := fun key => (key.1, key.2.role)) hkey)
  -- the keys lead the child's order, so each is in order among the rows of those before it
  have hnested : NestedOn (probe.keys.map fun key i => roleValue (child.rowAt rows i) key.2.role)
      0 rows.length := by
    obtain ⟨more, hmore⟩ := hchosen.leads
    have hall := child.keys_nested rows
    rw [← hmore, List.map_append, List.map_map] at hall
    exact hall.left
  have hwhole : (none : Option RowRange).getD ⟨0, c.len⟩ = ⟨0, rows.length⟩ := by
    rw [Option.getD_none, hc.len_eq]
  rw [resolveInMemory, hfind]
  dsimp only
  rcases @searchKeys_spec ox V _ _ _ fl layout rows child c codes hc _
    (fun key hkey => hprobed key.2 (hbound key hkey)) hkeys none _ hwhole ⟨Nat.zero_le _, le_rfl⟩
    hnested with ⟨hfound, hnone⟩ | ⟨final, hfound, hnonempty, hisRun⟩
  · refine .inl ⟨by rw [hfound]; rfl, ?_⟩
    rw [IndexedLayout.matchingRows, List.filter_eq_nil_iff]
    intro j hj hmatches
    rw [List.mem_range] at hj
    rw [List.getElem?_eq_getElem hj, Option.any_some, List.all_eq_true] at hmatches
    -- a match would stand somewhere in the child, where some key fails
    obtain ⟨i, hi, -, hrow⟩ := @exists_ridAt V _ _ rows child j _ (List.getElem?_eq_getElem hj)
    obtain ⟨key, hkey, hfalse⟩ := hnone i (Nat.zero_le i) hi
    rw [hrow, hmatches key.2 (hbound key hkey)] at hfalse
    cases hfalse
  · obtain ⟨run, rfl, -⟩ := hnonempty hchosen.keyed
    rw [Option.getD_some] at hisRun
    have hwithin : run.Within rows.length := ⟨hisRun.le, hisRun.le_stop⟩
    rw [hfound, Attempt.andThen_ok]
    dsimp only
    rw [sliceOf_rids hc hwithin, Option.bind_some]
    rcases checkGraph_spec M hc hsmall hchosen hprobed hwithin windowed zonesEnabled with
      hcheck | ⟨graph, found, hgraph, hcheck, hchecks⟩
    · rw [hcheck, Attempt.andThen_ok]
      obtain ⟨ids, roles, serve, l, hresolve, h⟩ := @resolveRun_spec ox V _ _ _ fl layout rows child c codes pattern probe M _ hc hchosen
        hprobed run hisRun _ (.inl rfl)
      exact .inr ⟨ids, roles, serve, l, by rw [hresolve], h⟩
    · rw [hcheck, Attempt.andThen_ok]
      obtain ⟨ids, roles, serve, l, hresolve, h⟩ := @resolveRun_spec ox V _ _ _ fl layout rows child c codes pattern probe M _ hc hchosen
        hprobed run hisRun _ (.inr ⟨graph, found, hgraph, rfl, hchecks⟩)
      exact .inr ⟨ids, roles, serve, l, by rw [hresolve], h⟩

end Resolves

/-! ### What the indexes resolve -/

section Indexed

variable {ox : Oxrdf} {V : Type} [LinearOrder V] [TermColumn V] {fl : FastLanes}

/-- What a resolution by some indexes says of the rows of a base: an index that has the
child it asks for answers, none is only said of a pattern no row matches, and ids are
those of the rows holding the terms of the resolved roles, the residual pattern holding
the others. -/
def IndexResolution.Filters (fl : FastLanes) (M : Type*) [MaskOps M] (layout : IndexedLayout ox V)
    (rows : List (Row V)) (components : List (IndexComponent V)) (pattern : QuadPattern)
    (indexes : List IndexType) : IndexResolution V → Prop
  | .declined => ∀ index ∈ indexes, ∀ probe, choose index pattern layout.strategy = some probe →
      IndexComponent.find components probe.identity.name = none
  | .empty => layout.matchingRows rows pattern.boundRoles = []
  | .resolved ids roles _ =>
      let held := layout.matchingRows rows (pattern.boundRoles.filter fun term => roles.has term.role)
      (∃ kept, ids.materialized fl M = some (held, kept)) ∧ held.SortedLT ∧
      (roles.clear pattern).boundRoles = pattern.boundRoles.filter (fun term => !roles.has term.role) ∧
      held.filter (fun i => rows[i]?.any fun row =>
        (roles.clear pattern).boundRoles.all (layout.holds row)) =
          layout.matchingRows rows pattern.boundRoles

theorem find_spec {V : Type} {components : List (IndexComponent V)} {name : String}
    {c : IndexComponent V} (h : IndexComponent.find components name = some c) :
    c ∈ components ∧ c.identity.name = name := by
  rw [IndexComponent.find] at h
  have hname := List.find?_some h
  exact ⟨List.mem_of_find?_eq_some h, eq_of_beq hname⟩

/-- The rows holding the resolved terms, filtered by the residual pattern. -/
theorem filter_residual (layout : IndexedLayout ox V) (rows : List (Row V)) (roles : ResolvedRoles)
    (pattern : QuadPattern) :
    (layout.matchingRows rows (pattern.boundRoles.filter fun term => roles.has term.role)).filter
      (fun i => rows[i]?.any fun row => (roles.clear pattern).boundRoles.all (layout.holds row)) =
        layout.matchingRows rows pattern.boundRoles := by
  rw [IndexedLayout.filter_matchingRows, boundRoles_clear]
  refine IndexedLayout.matchingRows_congr rows fun term => ?_
  rw [List.mem_append, List.mem_filter, List.mem_filter]
  cases roles.has term.role <;> simp

/-- Indexes asked in turn: the first whose child is there answers. -/
theorem resolveIndexes_spec [Inhabited V] (M : Type*) [MaskOps M] [LawfulMask M]
    {layout : IndexedLayout ox V} {rows : List (Row V)} (hsmall : rows.length ≤ usizeMax)
    {components : List (IndexComponent V)}
    (hbuilt : ∀ c ∈ components, ∃ child, c.BuiltFrom fl rows child) {pattern : QuadPattern}
    {codes : PatternCodes} (hprobed : Probed layout codes pattern) (windowed zonesEnabled : Bool)
    (indexes : List IndexType) : ∃ resolution,
      resolveIndexesInMemory fl ox components layout.strategy pattern codes windowed zonesEnabled
        indexes = some (.ok resolution) ∧
      resolution.Filters fl M layout rows components pattern indexes := by
  induction indexes with
  | nil => exact ⟨.declined, rfl, fun index h => absurd h List.not_mem_nil⟩
  | cons index indexes ih =>
    rw [resolveIndexesInMemory]
    -- an index that declines leaves the answer to the rest
    have hdeclines : (∀ probe, choose index pattern layout.strategy = some probe →
        IndexComponent.find components probe.identity.name = none) →
        ∀ resolution : IndexResolution V,
          resolution.Filters fl M layout rows components pattern indexes →
          resolution.Filters fl M layout rows components pattern (index :: indexes) := by
      intro hnone resolution h
      cases resolution with
      | declined =>
        rintro index' (_ | ⟨_, hrest⟩)
        · exact hnone
        · exact h index' hrest
      | empty => exact h
      | resolved ids roles serve => exact h
    cases hchoose : choose index pattern layout.strategy with
    | none =>
      obtain ⟨resolution, hresolve, hanswers⟩ := ih
      refine ⟨resolution, hresolve, hdeclines (fun probe h => ?_) resolution hanswers⟩
      rw [hchoose] at h
      cases h
    | some probe =>
      dsimp only
      cases hfind : IndexComponent.find components probe.identity.name with
      | none =>
        obtain ⟨resolution, hresolve, hanswers⟩ := ih
        rw [resolveInMemory, hfind]
        refine ⟨resolution, hresolve, hdeclines (fun probe' h => ?_) resolution hanswers⟩
        rw [hchoose] at h
        rwa [← Option.some.inj h]
      | some c =>
        obtain ⟨hmem, hname⟩ := find_spec hfind
        obtain ⟨child, hc⟩ := hbuilt c hmem
        rw [hc.identity_eq] at hname
        rcases resolveInMemory_spec M hc hfind hsmall (choose_spec hchoose hname) hprobed windowed
          zonesEnabled with ⟨hresolve, hnone⟩ | ⟨ids, roles, serve, l, hresolve, hholds, hnodup, horder, -⟩
        · exact ⟨.empty, by rw [hresolve]; rfl, hnone⟩
        · obtain ⟨kept, hkept, -⟩ := hholds.materialized_spec hnodup
          rw [horder] at hkept
          exact ⟨.resolved ids roles serve, by rw [hresolve]; rfl, ⟨kept, hkept⟩,
            IndexedLayout.sortedLT_matchingRows rows _, boundRoles_clear roles pattern,
            filter_residual layout rows roles pattern⟩

/-- A pattern the prelude refuses matches no row. -/
theorem matchingRows_refused {layout : IndexedLayout ox V} {pattern : QuadPattern}
    (h : layout.prepare pattern = .empty) (rows : List (Row V)) :
    layout.matchingRows rows pattern.boundRoles = [] := by
  obtain ⟨term, hterm, hunspelled⟩ := layout.refused h
  rw [IndexedLayout.matchingRows, List.filter_eq_nil_iff]
  intro i _ hmatches
  obtain ⟨row, -, hrow⟩ := (Option.any_eq_true _ _).mp hmatches
  have hholds := List.all_eq_true.mp hrow term hterm
  exact hunspelled _ (beq_iff_eq.mp hholds)

end Indexed

/-! ### Two rows and one copy of them -/

namespace IndexSample

def dict : TermDictionary where
  chunks := [[[], [60, 97, 62]], [[60, 98, 62]]]
  len_le := by decide

theorem dict_sorted : dict.terms.SortedLT := List.Pairwise.sortedLT (by decide)

/-- The quads `<a> <b> <a>` and `<a> <b> <b>`, as codes. -/
def rows : List (Row TermCode) := [⟨1, 2, 1, 0⟩, ⟨1, 2, 2, 0⟩]

def graphZones : ColumnZones where
  mins := [0]
  maxes := [0]
  recorded := none
  zoneLen := ZONE_ROWS
  rowCount := 2
  paired := rfl
  zoned := ZONE_ROWS_pos
  covered := rfl

def component : IndexComponent TermCode where
  identity := CopyFamily.posg.identity
  columns := (IndexChild.copy .posg).columns ((IndexChild.copy .posg).entries rows)
  rids := ((IndexChild.copy .posg).entries rows).map Prod.snd
  encoding := ⟨fun _ => none, fun _ _ => none, fun _ _ => true, fun _ => false, fun _ => false,
    fun _ _ => false⟩
  graphZones := some graphZones

theorem graphZones_describe : graphZones.Describes (fun _ => 0) 2 where
  rowCount := rfl
  bounds zone i hi := by
    have hzone := RowRange.mem_rows.mp hi
    have hlt : zone * 8192 ≤ i ∧ i < 2 := ⟨hzone.1, lt_of_lt_of_le hzone.2 (min_le_right _ _)⟩
    obtain rfl : zone = 0 := by omega
    exact ⟨le_rfl, le_rfl⟩
  recorded zone code n h := by cases h

theorem component_built : component.BuiltFrom .ofZeros rows (.copy .posg) where
  identity_eq := rfl
  columns_eq := rfl
  rids_eq := rfl
  probed name node h := by cases h
  sliced name range node column slice h := by cases h
  zoned zones h := by
    obtain rfl := Option.some.inj h
    refine ⟨((IndexChild.copy .posg).entries rows).map (·.1.g), fun _ => 0, rfl, fun i v hv => ?_, rfl, ?_⟩
    · obtain ⟨entry, hentry, rfl⟩ := List.mem_map.mp (List.mem_of_getElem? hv)
      have hrow := List.mem_of_getElem? ((IndexChild.mem_entries _ rows).mp hentry)
      have hgraph : ∀ row ∈ rows, row.g = 0 := by decide
      rw [hgraph _ hrow]
      rfl
    · rw [List.length_map, IndexChild.length_entries]
      exact graphZones_describe

/-- `?s <b> ?o` in the default graph. -/
def pattern : QuadPattern := ⟨none, some ⟨[98]⟩, none, some .defaultGraph⟩

end IndexSample

/-! ### The filter -/

section Filter

variable {ox : Oxrdf} {V : Type} [LinearOrder V] [TermColumn V] [Inhabited V]

/-- **Resolving through an index is filtering**: over whatever children of its rows a base
keeps, and whichever indexes are asked, a pattern whose terms the prelude resolved comes
to an answer; the ids are, once materialized, the ascending rows holding the terms of the
resolved roles, those roles alone are cleared, and the residual filters the ids to the
rows that match; a pattern the prelude refuses matches no row. -/
theorem resolution_isFilter (fl : FastLanes) (M : Type*) [MaskOps M] [LawfulMask M]
    (layout : IndexedLayout ox V) {rows : List (Row V)} (hsmall : rows.length ≤ usizeMax)
    {components : List (IndexComponent V)}
    (hbuilt : ∀ c ∈ components, ∃ child, c.BuiltFrom fl rows child) (pattern : QuadPattern)
    (windowed zonesEnabled : Bool) (indexes : List IndexType) :
    (∀ codes, layout.prepare pattern = .codes codes → ∃ resolution,
      resolveIndexesInMemory fl ox components layout.strategy pattern codes windowed zonesEnabled
        indexes = some (.ok resolution) ∧
      resolution.Filters fl M layout rows components pattern indexes) ∧
    (layout.prepare pattern = .empty → layout.matchingRows rows pattern.boundRoles = []) :=
  ⟨fun _ hcodes => resolveIndexes_spec M hsmall hbuilt (layout.prepared hcodes) windowed zonesEnabled
    indexes, fun hempty => matchingRows_refused hempty rows⟩

theorem resolution_isFilter_sample :
    ∃ codes resolution, (dictionaryIndexed ntriples IndexSample.dict IndexSample.dict_sorted).prepare
        IndexSample.pattern = .codes codes ∧
      resolveIndexesInMemory .ofZeros ntriples [IndexSample.component] .dictionary IndexSample.pattern
        codes false true [.secondaryByReference, .secondaryByCopy] = some (.ok resolution) ∧
      resolution.Filters .ofZeros BitMask
        (dictionaryIndexed ntriples IndexSample.dict IndexSample.dict_sorted) IndexSample.rows
        [IndexSample.component] IndexSample.pattern [.secondaryByReference, .secondaryByCopy] := by
  have hbuilt : ∀ c ∈ [IndexSample.component], ∃ child, c.BuiltFrom .ofZeros IndexSample.rows child := by
    intro c hc
    rw [List.mem_singleton.mp hc]
    exact ⟨_, IndexSample.component_built⟩
  obtain ⟨resolution, h⟩ := (resolution_isFilter .ofZeros BitMask
    (dictionaryIndexed ntriples IndexSample.dict IndexSample.dict_sorted) (by decide) hbuilt
    IndexSample.pattern false true [.secondaryByReference, .secondaryByCopy]).1 _ rfl
  exact ⟨_, resolution, rfl, h⟩

end Filter

end Indexes
