/-
The graph check of an index run, inside its component.

A run bound to a graph keeps the rows whose graph column holds the graph's code.  The
check is the residual compare over the component's rows, the run its selection and the
graph its one equality, zone by zone of the component's own map; the matches' places map
to row ids through the run's slice of the row id column.

* `IndexComponent.table` — a component's rows, as the table a compare reads;
* `GraphCheck` — the check of a graph over a run;
* `GraphCheck.idsAt` — the row ids of some of the run's rows, a zone of them at a time;
* `GraphCheck.Checks` — a check of a graph over a run of a built component;
* `count_spec`, `countCapped_spec`, `ids_spec`, `window_spec` — what it answers, by the
  run's rows that hold the graph.
-/
import VortexRdf.IndexChildren

namespace Indexes

open Ascending Bisect Buffers Builds Dictionary EncodedSearch Masks MaskOps Terms
open Store hiding Row

/-- A column's name in a component. -/
def columnText : ColumnName → String
  | .s => COL_S
  | .p => COL_P
  | .o => COL_O
  | .g => COL_G
  | .oKind => "o_kind"
  | .oValue => "o_value"
  | .oDatatype => "o_datatype"
  | .oLang => "o_lang"

namespace IndexComponent

variable {V : Type} [LinearOrder V] [TermColumn V]

/-- What a component holds at a place of a column. -/
def scalarAt (c : IndexComponent V) (i : ℕ) (name : ColumnName) : Scalar :=
  match (c.column (columnText name)).bind (·[i]?) with
  | some v => TermColumn.scalar v
  | none => .null

/-- A component's rows and probes. -/
def table (c : IndexComponent V) : ResidualTable where
  columns name := (c.column (columnText name)).map fun _ => TermColumn.type V
  rows := (List.range c.len).map c.scalarAt
  probes name := c.encoding.probes (columnText name)
  component := true
  primitive := c.encoding.primitive
  resolves := c.encoding.resolves
  views := c.encoding.views
  nullBit := c.encoding.nullBit

end IndexComponent

/-! ### The check -/

/-- A run's check of its bound graph inside its component. -/
structure GraphCheck where
  /-- The run's rows of the component. -/
  rows : RowRange
  table : ResidualTable
  selection : RowSelection
  eqs : List Equality
  classes : Classes

namespace GraphCheck

/-- The check of a graph's code over a run of a component, by the zone map of its graph
column. -/
def new {V : Type} [LinearOrder V] [TermColumn V] (c : IndexComponent V) (rows : RowRange)
    (code : ℕ) (zones : ColumnZones) : Option GraphCheck :=
  (ZoneSet.new [⟨0, code, zones⟩] 0).map fun set =>
    { rows := rows
      table := c.table
      selection := .range rows
      eqs := [(.g, .num code)]
      classes := .zoned set }

variable (fl : FastLanes) (M : Type*) [MaskOps M] (check : GraphCheck)

/-- The compare of the run's graph. -/
def compare : ResidualCompare M :=
  ⟨check.table, check.selection, check.eqs, check.classes, none⟩

def count : Option ℕ := (check.compare M).count fl none

/-- The matches counted until there are `limit` of them. -/
def countCapped (limit : ℕ) : Option ℕ := (check.compare M).count fl (some limit)

/-- The row ids of some rows of the run, the rows of a zone decoded at once. -/
def idsLoop (rids : List RowId) (start : ℕ) : ℕ → List ℕ → Option (List RowId)
  | 0, _ :: _ => none
  | _, [] => some []
  | fuel + 1, first :: rest =>
    let zoneEnd := (first / ZONE_ROWS + 1) * ZONE_ROWS
    let stop := partitionPoint (fun row => decide (row < zoneEnd)) (first :: rest)
    let zone := (first :: rest).take stop
    (sliceOf rids (first - start) (zone.getLastD first + 1 - start)).bind fun decoded =>
      (zone.mapM fun row => decoded[row - first]?).bind fun ids =>
        (idsLoop rids start fuel ((first :: rest).drop stop)).map (ids ++ ·)

/-- The row ids of the rows of a selection, all of them the run's. -/
def idsAt (rids : List RowId) (matched : RowSelection) : Option (List RowId) :=
  match matched.asRows check.table.len with
  | .run run =>
    if run.stop ≤ run.start then some []
    else sliceOf rids (run.start - check.rows.start) (run.stop - check.rows.start)
  | .ids places => idsLoop rids check.rows.start places.length places

/-- The ids of the run's rows that hold the graph, in run order. -/
def ids (rids : List RowId) : Option (List RowId) :=
  ((check.compare M).rows fl).bind fun matched => check.idsAt rids matched

/-- The ids of a window of the run's matches, beside the matches as far as they are known. -/
def window (rids : List RowId) (offset limit : ℕ) : Option (List RowId × Live) :=
  ((check.compare M).window fl offset limit).bind fun found =>
    (check.idsAt rids (.ids found.1)).map fun ids => (ids, found.2)

end GraphCheck

/-! ### Ids of a run's rows -/

/-- A slice lists the values from place to place. -/
theorem sliceOf_getD {α : Type} {l : List α} (d : α) {a b : ℕ} (hab : a ≤ b) (hb : b ≤ l.length) :
    sliceOf l a b = some ((List.range' a (b - a)).map fun k => l.getD k d) := by
  rw [sliceOf_eq hab hb]
  refine congrArg some (List.ext_getElem ?_ fun i hi hi' => ?_)
  · rw [List.length_take, List.length_drop, List.length_map, List.length_range']
    omega
  · rw [List.length_map, List.length_range'] at hi'
    rw [List.getElem_take, List.getElem_drop, List.getElem_map, List.getElem_range', Nat.one_mul,
      List.getD_eq_getElem l d (by omega)]

theorem le_getLastD : ∀ {l : List ℕ} {a : ℕ}, (a :: l).SortedLT →
    ∀ i ∈ a :: l, a ≤ i ∧ i ≤ l.getLastD a
  | [], a, _, i, hi => by
    rw [List.mem_singleton] at hi
    exact ⟨hi.ge, hi.le⟩
  | b :: l, a, h, i, hi => by
    have hpair := List.pairwise_cons.mp h.pairwise
    have ih := le_getLastD hpair.2.sortedLT
    have hab : a < b := hpair.1 b List.mem_cons_self
    rw [List.getLastD_cons]
    rcases List.mem_cons.mp hi with rfl | hi
    · exact ⟨le_rfl, hab.le.trans (ih b List.mem_cons_self).2⟩
    · exact ⟨hab.le.trans (ih i hi).1, (ih i hi).2⟩

/-- The row ids of ascending rows of a run, read a zone at a time. -/
theorem idsLoop_spec {rids : List RowId} {run : RowRange}
    (hlen : rids.length = run.stop - run.start) : ∀ {fuel : ℕ} {l : List ℕ}, l.length ≤ fuel →
      l.SortedLT → (∀ i ∈ l, run.start ≤ i ∧ i < run.stop) →
      GraphCheck.idsLoop rids run.start fuel l = some (l.map fun i => rids.getD (i - run.start) 0)
  | fuel, [], _, _, _ => by
    cases fuel <;> rfl
  | 0, first :: rest, hfuel, _, _ => absurd hfuel (Nat.not_succ_le_zero _)
  | fuel + 1, first :: rest, hfuel, hl, hin => by
    rw [GraphCheck.idsLoop]
    generalize hstop : partitionPoint (fun row => decide (row < (first / ZONE_ROWS + 1) * ZONE_ROWS))
      (first :: rest) = stop
    have hfirst : first < (first / ZONE_ROWS + 1) * ZONE_ROWS := by
      rw [Nat.mul_comm]
      exact Nat.lt_mul_div_succ first (by decide)
    obtain ⟨k, rfl⟩ : ∃ k, stop = k + 1 := by
      rw [← hstop, partitionPoint, List.takeWhile_cons, if_pos (decide_eq_true hfirst)]
      exact ⟨_, rfl⟩
    -- the zone's rows lie between its first and its last
    rw [List.take_succ_cons, List.drop_succ_cons, List.getLastD_cons]
    have hsub : (first :: rest.take k).Sublist (first :: rest) :=
      (List.take_sublist k rest).cons_cons first
    have hbounds := le_getLastD (hl.pairwise.sublist hsub).sortedLT
    have hlast := hin _ (hsub.subset (@List.getLastD_mem_cons _ (rest.take k) first))
    have hstart := hin first List.mem_cons_self
    have hordered := (hbounds _ (@List.getLastD_mem_cons _ (rest.take k) first)).1
    rw [sliceOf_getD 0 (by omega) (by omega), Option.bind_some]
    have hread : ∀ i ∈ first :: rest.take k,
        ((List.range' (first - run.start) ((rest.take k).getLastD first + 1 - run.start -
          (first - run.start))).map fun j => rids.getD j 0)[i - first]? =
            some (rids.getD (i - run.start) 0) := by
      intro i hi
      have hib := hbounds i hi
      rw [List.getElem?_map, List.getElem?_range' (by omega), Option.map_some]
      rw [show first - run.start + 1 * (i - first) = i - run.start by omega]
    rw [mapM_some hread, Option.bind_some, idsLoop_spec hlen _ _ _, Option.map_some,
      ← List.map_append, List.cons_append, List.take_append_drop]
    · rw [List.length_cons] at hfuel
      rw [List.length_drop]
      omega
    · exact (hl.pairwise.sublist ((List.drop_sublist k rest).trans
        (List.sublist_cons_self first rest))).sortedLT
    · exact fun i hi => hin i (List.mem_cons_of_mem first (List.mem_of_mem_drop hi))

section Answers

variable {fl : FastLanes} {M : Type*} [MaskOps M] {check : GraphCheck} {n : ℕ} {run : RowRange}
  {p : ℕ → Bool}

/-- A check over a run of a table, which keeps the rows a predicate holds of. -/
structure GraphCheck.Checks (fl : FastLanes) (M : Type*) [MaskOps M] (check : GraphCheck) (n : ℕ)
    (run : RowRange) (p : ℕ → Bool) : Prop where
  sound : (check.compare M).Sound fl
  rows_eq : check.rows = run
  len_eq : check.table.len = n
  selection_eq : check.selection = .range run
  within : run.Within n
  passes : ∀ i ∈ run.toList, Store.passes check.table.cell check.eqs i = p i

namespace GraphCheck.Checks

variable (h : check.Checks fl M n run p)
include h

theorem matched_eq : (check.compare M).matching ((check.compare M).selection.listing
    (check.compare M).len) = run.toList.filter p := by
  have hlisting : (check.compare M).selection.listing (check.compare M).len = run.toList := by
    show check.selection.listing check.table.len = run.toList
    rw [h.selection_eq, h.len_eq]
    exact run.sort_rows
  rw [hlisting]
  exact List.filter_congr h.passes

theorem liveMatched_eq : (check.compare M).liveMatching ((check.compare M).selection.listing
    (check.compare M).len) = run.toList.filter p := by
  rw [ResidualCompare.liveMatching, h.matched_eq]
  exact List.filter_eq_self.mpr fun _ _ => rfl

/-- The ids of rows of the run. -/
theorem idsAt_spec {rids : List RowId} (hlen : rids.length = run.stop - run.start)
    {o : Option RowSelection} {l : List ℕ} (hlists : Lists n o l)
    (hin : ∀ i ∈ l, run.start ≤ i ∧ i < run.stop) :
    (o.bind fun matched => check.idsAt rids matched) =
      some (l.map fun i => rids.getD (i - run.start) 0) := by
  obtain ⟨s, rfl, hs, rfl⟩ := hlists
  have hsmall := h.sound.small
  rw [show (check.compare M).len = n from h.len_eq] at hsmall
  rw [Option.bind_some, GraphCheck.idsAt, h.len_eq, h.rows_eq]
  cases hrows : s.asRows n with
  | run r =>
    rw [listing_run hsmall hs hrows] at hin ⊢
    dsimp only
    split_ifs with hempty
    · rw [RowRange.toList, Nat.sub_eq_zero_of_le hempty]
      rfl
    · have hfirst := hin r.start (by rw [RowRange.mem_toList]; omega)
      have hlast := hin (r.stop - 1) (by rw [RowRange.mem_toList]; omega)
      rw [sliceOf_getD 0 (by omega) (by omega), RowRange.toList]
      refine congrArg some (List.ext_getElem ?_ fun i hi hi' => ?_)
      · simp only [List.length_map, List.length_range']
        omega
      · simp only [List.getElem_map, List.getElem_range', Nat.one_mul]
        rw [show r.start - run.start + i = r.start + i - run.start by omega]
  | ids places =>
    rw [listing_ids hs hrows] at hin ⊢
    have hids : IdsWithin n places := (asRows_ids hs hrows).1
    exact idsLoop_spec hlen le_rfl hids.ascending hin

variable [LawfulMask M]

theorem count_spec : check.count fl M = some (run.toList.filter p).length := by
  rw [GraphCheck.count, ResidualCompare.count_none h.sound, h.liveMatched_eq]

theorem countCapped_spec (limit : ℕ) : ∃ found, check.countCapped fl M limit = some found ∧
    min found limit = min (run.toList.filter p).length limit := by
  obtain ⟨found, hfound, hle, hends⟩ := ResidualCompare.count_some h.sound limit
  rw [h.liveMatched_eq] at hle hends
  exact ⟨found, hfound, by omega⟩

theorem ids_spec {rids : List RowId} (hlen : rids.length = run.stop - run.start) :
    check.ids fl M rids = some ((run.toList.filter p).map fun i => rids.getD (i - run.start) 0) := by
  have hrows := ResidualCompare.rows_lists h.sound
  rw [h.matched_eq, show (check.compare M).len = n from h.len_eq] at hrows
  exact h.idsAt_spec hlen hrows fun i hi =>
    RowRange.mem_toList.mp (List.mem_filter.mp hi).1

theorem window_spec {rids : List RowId} (hlen : rids.length = run.stop - run.start)
    (offset limit : ℕ) : ∃ live, check.window fl M rids offset limit =
      some ((page offset limit (run.toList.filter p)).map fun i => rids.getD (i - run.start) 0, live) ∧
      Live.Of (run.toList.filter p).length live := by
  obtain ⟨live, hwindow, hlive⟩ := ResidualCompare.window_spec h.sound offset limit
  rw [h.liveMatched_eq] at hwindow hlive
  refine ⟨live, ?_, hlive⟩
  have hmem : ∀ i ∈ page offset limit (run.toList.filter p), run.start ≤ i ∧ i < run.stop :=
    fun i hi => RowRange.mem_toList.mp
      (List.mem_filter.mp ((page_sublist offset limit _).subset hi)).1
  have hwithin : IdsWithin n (page offset limit (run.toList.filter p)) :=
    ⟨((run.sortedLT_toList.pairwise.sublist List.filter_sublist).sublist
      (page_sublist offset limit _)).sortedLT,
      fun i hi => lt_of_lt_of_le (hmem i hi).2 h.within.inBase⟩
  have hids := h.idsAt_spec hlen (lists_ids hwithin) hmem
  rw [Option.bind_some] at hids
  rw [GraphCheck.window, hwindow, Option.bind_some, hids]
  rfl

end GraphCheck.Checks

end Answers

/-! ### The check of a built component -/

theorem length_of_lookup {V : Type} {child : IndexChild} {entries : List (Row V × RowId)}
    {name : String} {column : List V} (h : (child.columns entries).lookup name = some column) :
    column.length = entries.length := by
  have hmem : (name, column) ∈ child.columns entries := by
    obtain ⟨before, after, heq, -⟩ := List.lookup_eq_some_iff.mp h
    rw [heq]
    exact List.mem_append_right before List.mem_cons_self
  cases child with
  | copy family =>
    simp only [IndexChild.columns, copyColumns, List.mem_cons, List.not_mem_nil, or_false,
      Prod.mk.injEq] at hmem
    rcases hmem with ⟨-, rfl⟩ | ⟨-, rfl⟩ | ⟨-, rfl⟩ | ⟨-, rfl⟩ <;> exact List.length_map _
  | reference family graphs =>
    cases graphs <;> simp only [IndexChild.columns, referenceColumns, List.mem_cons,
      List.not_mem_nil, or_false, Prod.mk.injEq, if_true, Bool.false_eq_true, if_false] at hmem
    · rw [hmem.2, List.length_map]
    · rcases hmem with ⟨-, rfl⟩ | ⟨-, rfl⟩ <;> exact List.length_map _

theorem scalar_injective {V : Type} [LinearOrder V] [TermColumn V] :
    Function.Injective (TermColumn.scalar : V → Scalar) := by
  intro v w h
  have hcast := congrArg (@TermColumn.ofScalar V _ _) h
  rw [TermColumn.ofScalar_scalar, TermColumn.ofScalar_scalar] at hcast
  exact Option.some.inj hcast

section Tables

variable {V : Type} [LinearOrder V] [TermColumn V] {fl : FastLanes} {rows : List (Row V)}
  {child : IndexChild} {c : IndexComponent V}

theorem IndexComponent.BuiltFrom.length_column (hc : c.BuiltFrom fl rows child) {name : String}
    {column : List V} (h : c.column name = some column) : column.length = rows.length := by
  rw [IndexComponent.column, hc.columns_eq] at h
  rw [length_of_lookup h, child.length_entries]

theorem table_len (hc : c.BuiltFrom fl rows child) : c.table.len = rows.length := by
  rw [← hc.len_eq, ResidualTable.len, IndexComponent.table, List.length_map, List.length_range]

theorem table_cell (hc : c.BuiltFrom fl rows child) {i : ℕ} (hi : i < rows.length)
    (name : ColumnName) : c.table.cell name i = c.scalarAt i name := by
  rw [← hc.len_eq] at hi
  rw [ResidualTable.cell, IndexComponent.table]
  simp only [List.getElem?_map, List.getElem?_range hi, Option.map_some]

variable [Inhabited V]

theorem scalarAt_column {name : ColumnName} {column : List V}
    (h : c.column (columnText name) = some column) {i : ℕ} (hi : i < column.length) :
    c.scalarAt i name = TermColumn.scalar (column.getD i default) := by
  rw [IndexComponent.scalarAt, h, Option.bind_some, getD_of_lt hi]

/-- A component of codes is a table that a compare may read. -/
theorem table_sound (hc : c.BuiltFrom fl rows child) (hsmall : rows.length ≤ usizeMax)
    (htype : TermColumn.type V = .code) : c.table.Sound fl where
  small := by rwa [table_len hc]
  coded _ name type h := by
    obtain ⟨_, -, rfl⟩ := Option.map_eq_some_iff.mp h
    exact htype
  probed name node hnode := by
    obtain ⟨column, hcolumn, henc⟩ := hc.probed (columnText name) node hnode
    have hlen := hc.length_column hcolumn
    refine ⟨henc.wellFormed, by rw [henc.len_eq, hlen, table_len hc], fun i hi => ?_⟩
    rw [table_len hc] at hi
    rw [table_cell hc hi, scalarAt_column hcolumn (by rwa [hlen])]
    exact henc.reads i _ (getD_of_lt (by rwa [hlen]))

/-- The graph of a component's row, as the compare reads it. -/
theorem table_graph (hc : c.BuiltFrom fl rows child) {column : List V}
    (hcolumn : c.column COL_G = some column) {i : ℕ} (hi : i < rows.length) :
    c.table.cell .g i = TermColumn.scalar (roleValue (child.rowAt rows i) .g) := by
  have hlen := hc.length_column hcolumn
  have hat := @IndexChild.getD_roleColumn V _ child rows _ .g i
  rw [← hc.column_graph hcolumn] at hat
  have hscalar : c.scalarAt i .g = TermColumn.scalar (column.getD i default) :=
    scalarAt_column hcolumn (by rwa [hlen])
  rw [table_cell hc hi, hscalar, hat]

/-- A graph's check over a run of a component that keeps its graph column's zone map. -/
theorem graphCheck_new (M : Type*) [MaskOps M] (hc : c.BuiltFrom fl rows child)
    (hsmall : rows.length ≤ usizeMax) {zones : ColumnZones} (hzones : c.graphZones = some zones)
    {run : RowRange} (hrun : run.Within rows.length) {v : V} {code : ℕ}
    (hcode : TermColumn.scalar v = .num code) :
    ∃ check, GraphCheck.new c run code zones = some check ∧
      check.Checks fl M rows.length run fun i => decide (roleValue (child.rowAt rows i) .g = v) := by
  obtain ⟨column, codes, hcolumn, hcodes, -, hdescribes⟩ := hc.zoned zones hzones
  have hlen := hc.length_column hcolumn
  have htype : TermColumn.type V = .code := TermColumn.coded v code hcode
  have hcell : ∀ i, i < rows.length → c.table.cell .g i = .num (codes i) := by
    intro i hi
    have hscalar : c.scalarAt i .g = TermColumn.scalar (column.getD i default) :=
      scalarAt_column hcolumn (by rwa [hlen])
    rw [table_cell hc hi, hscalar]
    exact hcodes i _ (getD_of_lt (by rwa [hlen]))
  obtain ⟨set, hset⟩ : ∃ set, ZoneSet.new [⟨0, code, zones⟩] 0 = some set := by
    rw [ZoneSet.new, dif_pos (by simp)]
    exact ⟨_, rfl⟩
  have hbits : unzonedBits [(ColumnName.g, Scalar.num code)].length [⟨0, code, zones⟩] = 0 := by
    simp [unzonedBits, everyEq]
  -- the zone map of the graph column, as the only one of a table
  have hquad : QuadZones.Describe (fun slot => if slot = .g then some zones else none)
      c.table.cell rows.length := by
    intro slot slotZones hslot
    dsimp only at hslot
    split_ifs at hslot with hg
    obtain rfl := Option.some.inj hslot
    rw [hg]
    exact ⟨codes, hcell, hlen ▸ hdescribes⟩
  have hchecked : Checked (fun slot => if slot = .g then some zones else none)
      [(.g, .num code)] [⟨0, code, zones⟩] := by
    intro check hcheck
    rw [List.mem_singleton.mp hcheck]
    exact ⟨.g, .g, rfl, rfl, rfl⟩
  have hclasses := (classes_of_checked hquad (by rwa [hbits]) hchecked).1
    (Nat.one_le_ofNat)
  refine ⟨_, by rw [GraphCheck.new, hset, Option.map_some], ?_⟩
  have hgraph : c.table.columns .g = some .code := by
    rw [← htype]
    show (c.column COL_G).map (fun _ => TermColumn.type V) = _
    rw [hcolumn, Option.map_some]
  constructor
  · refine ⟨table_sound hc hsmall htype, ⟨?_, ?_, ?_⟩, ?_, ?_, fun d hd => absurd hd (Option.not_mem_none d)⟩
    · intro eq heq
      rw [List.mem_singleton.mp heq]
      exact ⟨.code, hgraph, rfl⟩
    · intro eq heq
      rw [List.mem_singleton.mp heq]
      exact Scalar.noConfusion
    · intro row hrow eq heq hnull
      rw [List.mem_singleton.mp heq] at hnull
      obtain ⟨i, hi, rfl⟩ := List.mem_map.mp hrow
      rw [List.mem_range, hc.len_eq] at hi
      dsimp only at hnull
      rw [← table_cell hc hi, hcell i hi] at hnull
      cases hnull
    · show run.Within c.table.len
      rwa [table_len hc]
    · show set.Classes _ _ c.table.len ∧ _
      rw [table_len hc]
      exact ⟨hclasses, Nat.one_le_ofNat⟩
  · rfl
  · exact table_len hc
  · rfl
  · exact hrun
  · intro i hi
    have hi' : i < rows.length := lt_of_lt_of_le (RowRange.mem_toList.mp hi).2 hrun.inBase
    show Store.passes c.table.cell [(.g, .num code)] i = _
    rw [passes_singleton, holdsCell, table_graph hc hcolumn hi', ← hcode, Bool.eq_iff_iff,
      beq_iff_eq, decide_eq_true_eq, scalar_injective.eq_iff]

end Tables

end Indexes
