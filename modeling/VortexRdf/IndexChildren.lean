/-
The children of an index, and the searches of their sorted columns.

A copy child holds the base's quads in an order of its own, a reference child one of
their terms, each beside the row id it came from.  A child's leading columns are sorted
and, inside a run of one, the next: a pattern's terms are found by one binary search
each, windowed to the run before it.

* `TermColumn` — what an index column stores of a term: its spelling or its code;
* `IndexChild.entries` — the rows of a child, in its key order;
* `IndexComponent` — a child held in memory, its columns encoded;
* `probeRun` — the rows of a sorted column equal to a value, within a run or not;
* `probeRun_spec` — the search finds the run of the value, cached probe or not;
* `IndexChild.keys_nested` — a child's first column is sorted, and its second one within
  each value of the first.
-/
import VortexRdf.Builds
import VortexRdf.PrefixRuns
import VortexRdf.ResidualAnswers

namespace Indexes

open Ascending Bisect Buffers Builds Dictionary DistinctSort EncodedSearch Terms
open Store hiding Row
open scoped Lexicographic

/-! ### What a column stores of a term -/

/-- A term column's values: the terms themselves or their codes, in the terms' order. -/
class TermColumn (V : Type) [LinearOrder V] where
  /-- Whether a reference child holds each row's graph. -/
  RECORDS_GRAPH : Bool
  type : ColumnType
  /-- The scalar a value is probed with. -/
  scalar : V → Scalar
  /-- A scalar cast to the column's type. -/
  ofScalar : Scalar → Option V
  ofScalar_scalar : ∀ v, ofScalar (scalar v) = some v
  cast_scalar : ∀ v, type.cast (scalar v) = some (scalar v)
  nonnull : ∀ v, scalar v ≠ .null
  coded : ∀ v n, scalar v = .num n → type = .code
  ordered : ∀ {v w n m}, scalar v = .num n → scalar w = .num m → (v < w ↔ n < m)

def strOf : Scalar → Option Str
  | .str s => some s
  | _ => none

instance stringColumn : TermColumn Str where
  RECORDS_GRAPH := false
  type := .text
  scalar := .str
  ofScalar := strOf
  ofScalar_scalar _ := rfl
  cast_scalar _ := rfl
  nonnull _ := Scalar.noConfusion
  coded _ _ h := Scalar.noConfusion h
  ordered h := Scalar.noConfusion h

instance codeColumn : TermColumn TermCode where
  RECORDS_GRAPH := true
  type := .code
  scalar := .num
  ofScalar := unsignedValue
  ofScalar_scalar _ := rfl
  cast_scalar _ := rfl
  nonnull _ := Scalar.noConfusion
  coded _ _ _ := rfl
  ordered h h' := by rw [Scalar.num.inj h, Scalar.num.inj h']

/-! ### Children -/

/-- The columns of a copy child. -/
def CHILD_COLUMNS : List String := [COL_S, COL_P, COL_O, COL_G, COL_RID]

/-- The position in a quad of each sort key, in key order. -/
def keyOrder : CopyFamily → List ℕ
  | .posg => [1, 2, 0, 3]
  | .ospg => [2, 0, 1, 3]

/-- The column holding sort key `key`. -/
def keyColumn (family : CopyFamily) (key : ℕ) : String :=
  CHILD_COLUMNS.getD ((keyOrder family).getD key 0) COL_RID

/-- One child of an index: its sort order, and whether a reference child holds graphs. -/
inductive IndexChild where
  | copy (family : CopyFamily)
  | reference (family : RefFamily) (graphs : Bool)
deriving DecidableEq

/-- The term a reference family covers. -/
def refValue {V : Type} : RefFamily → Row V → V
  | .object, r => r.o
  | .predicate, r => r.p

/-- The columns of a copy child: whole quads. -/
def copyColumns {V : Type} (entries : List (Row V × RowId)) : List (String × List V) :=
  [(COL_S, entries.map (·.1.s)), (COL_P, entries.map (·.1.p)), (COL_O, entries.map (·.1.o)),
    (COL_G, entries.map (·.1.g))]

/-- The columns of a reference child: a value and, where it holds them, the graph. -/
def referenceColumns {V : Type} (family : RefFamily) (graphs : Bool)
    (entries : List (Row V × RowId)) : List (String × List V) :=
  (COL_VAL, entries.map fun entry => refValue family entry.1) ::
    if graphs then [(COL_G, entries.map (·.1.g))] else []

namespace IndexChild

variable {V : Type} [LinearOrder V]

def identity : IndexChild → ComponentIdentity
  | copy family => family.identity
  | reference family _ => family.identity

/-- The rows of a child in its key order, each with the base row it came from. -/
def entries : IndexChild → List (Row V) → List (Row V × RowId)
  | copy family, rows => sortBy (fun entry => family.key entry.1) rows.zipIdx
  | reference family _, rows =>
    sortBy (fun entry => (toLex (refValue family entry.1, entry.2) : V ×ₗ RowId)) rows.zipIdx

def columns : IndexChild → List (Row V × RowId) → List (String × List V)
  | copy _, entries => copyColumns entries
  | reference family graphs, entries => referenceColumns family graphs entries

end IndexChild

/-! ### Components -/

/-- How the array library holds a component's columns: the encoded-search probes cached
for the columns, the ones a slice of a column resolves, and what a compare is given of
them. -/
structure ColumnEncodings where
  probes : String → Option Node
  slices : String → RowRange → Option Node
  primitive : ColumnName → Bool → Bool
  resolves : ColumnName → Bool
  views : ColumnName → Bool
  nullBit : ColumnName → ℕ → Bool

/-- A child held in memory: its term columns under their names, its row ids, and the zone
map of its graph column where it keeps one. -/
structure IndexComponent (V : Type) where
  identity : ComponentIdentity
  columns : List (String × List V)
  rids : List RowId
  encoding : ColumnEncodings
  graphZones : Option ColumnZones

namespace IndexComponent

variable {V : Type}

def len (c : IndexComponent V) : ℕ := c.rids.length

def column (c : IndexComponent V) (name : String) : Option (List V) := c.columns.lookup name

/-- The component of a name, the front gate of the resolver. -/
def find (components : List (IndexComponent V)) (name : String) : Option (IndexComponent V) :=
  List.find? (fun c => c.identity.name == name) components

variable [LinearOrder V] [TermColumn V] (fl : FastLanes)

/-- The bounds of a value in a sorted slice of a column, on its encoding or on its values. -/
def searchSortedBounds (slice : List V) (encoded : Option Node) (native : Scalar) (v : V) :
    Option (ℕ × ℕ) :=
  match encoded, unsignedValue native with
  | some node, some needle => node.bounds fl needle
  | _, _ => some (partitionPoint (fun w => decide (w < v)) slice,
      partitionPoint (fun w => decide (w ≤ v)) slice)

/-- The run of a value in a sorted slice of a column; no run at all where the column is
missing or not of the value's type. -/
def searchRun (c : IndexComponent V) (column : String) (native : Scalar) (range : RowRange) :
    Option (Option RowRange) :=
  match c.column column with
  | none => some none
  | some col =>
    match TermColumn.ofScalar native with
    | none => some none
    | some v =>
      (sliceOf col range.start range.stop).bind fun slice =>
        (searchSortedBounds fl slice (c.encoding.slices column range) native v).map
          fun bounds : ℕ × ℕ => some ⟨range.start + bounds.1, range.start + bounds.2⟩

/-- The run of a value in a sorted column, over the whole column or within a range whose
slice of it is sorted: through the column's cached probe when it resolves one. -/
def probeRun (c : IndexComponent V) (column : String) (native : Scalar)
    (within : Option RowRange) : Option (Option RowRange) :=
  match c.encoding.probes column, unsignedValue native with
  | some probe, some needle =>
    (match within with
      | none => probe.bounds fl needle
      | some range => SortedProbe.boundsIn fl probe range.start range.stop needle).map
        fun bounds : ℕ × ℕ => some ⟨bounds.1, bounds.2⟩
  | _, _ => c.searchRun fl column native (within.getD ⟨0, c.len⟩)

end IndexComponent

/-! ### Columns and what encodes them -/

theorem getD_of_lt {V : Type} [Inhabited V] {column : List V} {i : ℕ} (h : i < column.length) :
    column[i]? = some (column.getD i default) := by
  rw [List.getD_eq_getElem _ _ h, List.getElem?_eq_getElem h]

theorem unsignedValue_eq {s : Scalar} {n : ℕ} (h : unsignedValue s = some n) : s = .num n := by
  cases s with
  | num m => rw [Option.some.inj h]
  | str _ => cases h
  | null => cases h

section Columns

variable {V : Type} [LinearOrder V] [TermColumn V] [Inhabited V] {fl : FastLanes}

/-- An encoded column reads the values of a column. -/
structure Encodes (fl : FastLanes) (node : Node) (column : List V) : Prop where
  wellFormed : node.WellFormed fl
  len_eq : node.len = column.length
  reads : ∀ i v, column[i]? = some v → TermColumn.scalar v = .num (node.value fl i)

variable {node : Node} {column : List V}

theorem Encodes.lt_iff (h : Encodes fl node column) {v : V} {needle : ℕ}
    (hv : TermColumn.scalar v = .num needle) {i : ℕ} (hi : i < column.length) :
    node.value fl i < needle ↔ column.getD i default < v :=
  (TermColumn.ordered (h.reads i _ (getD_of_lt hi)) hv).symm

theorem Encodes.le_iff (h : Encodes fl node column) {v : V} {needle : ℕ}
    (hv : TermColumn.scalar v = .num needle) {i : ℕ} (hi : i < column.length) :
    node.value fl i ≤ needle ↔ column.getD i default ≤ v := by
  rw [← not_lt, ← not_lt (a := v), TermColumn.ordered hv (h.reads i _ (getD_of_lt hi))]

theorem Encodes.ascending (h : Encodes fl node column) {lo hi : ℕ}
    (hasc : AscendingOn (fun i => column.getD i default) lo hi) (hhi : hi ≤ column.length) :
    AscendingOn (node.value fl) lo hi := by
  intro i j hlo hij hj
  have hjlen : j < column.length := lt_of_lt_of_le hj hhi
  have hreads := h.reads j _ (getD_of_lt hjlen)
  exact (h.le_iff hreads (lt_of_le_of_lt hij hjlen)).mpr (hasc i j hlo hij hj)

/-- The places of a value, from its partition points on an encoding of the column. -/
theorem Encodes.isRun (h : Encodes fl node column) {v : V} {needle : ℕ}
    (hv : TermColumn.scalar v = .num needle) {lo hi a b : ℕ} (hhi : hi ≤ column.length)
    (ha : IsPartitionPoint (fun i => node.value fl i < needle) lo hi a)
    (hb : IsPartitionPoint (fun i => node.value fl i ≤ needle) lo hi b) :
    IsRun (fun i => column.getD i default = v) lo hi a b :=
  .of_points (ha.congr fun _ _ hi' => h.lt_iff hv (lt_of_lt_of_le hi' hhi))
    (hb.congr fun _ _ hi' => h.le_iff hv (lt_of_lt_of_le hi' hhi))

/-- A value's bounds in a sorted slice, on its encoding or on its values. -/
theorem searchSortedBounds_spec {encoded : Option Node}
    (hasc : AscendingOn (fun i => column.getD i default) 0 column.length)
    (hencoded : ∀ node, encoded = some node → Encodes fl node column) {v : V}
    (hfits : ∀ n, TermColumn.scalar v = .num n → n ≤ u64Max) :
    ∃ lo hi, IndexComponent.searchSortedBounds fl column encoded (TermColumn.scalar v) v =
      some (lo, hi) ∧ IsRun (fun i => column.getD i default = v) 0 column.length lo hi := by
  have hvalues : IsRun (fun i => column.getD i default = v) 0 column.length
      (partitionPoint (fun w => decide (w < v)) column)
      (partitionPoint (fun w => decide (w ≤ v)) column) := by
    have hlt := @partitionPoint_point V (fun w => decide (w < v)) column default
      (by simpa only [decide_eq_true_eq] using hasc.downClosedOn_lt v)
    have hle := @partitionPoint_point V (fun w => decide (w ≤ v)) column default
      (by simpa only [decide_eq_true_eq] using hasc.downClosedOn_le v)
    simp only [decide_eq_true_eq] at hlt hle
    exact .of_points hlt hle
  cases encoded with
  | none => exact ⟨_, _, rfl, hvalues⟩
  | some node =>
    cases hneedle : unsignedValue (TermColumn.scalar v) with
    | none =>
      refine ⟨_, _, ?_, hvalues⟩
      simp only [IndexComponent.searchSortedBounds, hneedle]
    | some needle =>
      have henc := hencoded node rfl
      have hv : TermColumn.scalar v = .num needle := unsignedValue_eq hneedle
      have hnode : AscendingOn (node.value fl) 0 node.len := by
        rw [henc.len_eq]
        exact henc.ascending hasc le_rfl
      obtain ⟨lo, hi, hbounds, hlo, hhi⟩ := bounds_spec henc.wellFormed hnode (hfits needle hv)
      rw [henc.len_eq] at hlo hhi
      refine ⟨lo, hi, ?_, henc.isRun hv le_rfl hlo hhi⟩
      simp only [IndexComponent.searchSortedBounds, hneedle]
      exact hbounds

/-! ### Components built from rows -/

/-- A component is a child of some rows, held in memory: its encodings read its columns,
and its graph zones describe its graph column. -/
structure IndexComponent.BuiltFrom (fl : FastLanes) (rows : List (Row V)) (child : IndexChild)
    (c : IndexComponent V) : Prop where
  identity_eq : c.identity = child.identity
  columns_eq : c.columns = child.columns (child.entries rows)
  rids_eq : c.rids = (child.entries rows).map Prod.snd
  probed : ∀ name node, c.encoding.probes name = some node →
    ∃ column, c.column name = some column ∧ Encodes fl node column
  sliced : ∀ name range node column slice, c.encoding.slices name range = some node →
    c.column name = some column → sliceOf column range.start range.stop = some slice →
    Encodes fl node slice
  zoned : ∀ zones, c.graphZones = some zones → ∃ column codes, c.column COL_G = some column ∧
    (∀ i v, column[i]? = some v → TermColumn.scalar v = .num (codes i)) ∧
    zones.zoneLen = ZONE_ROWS ∧ zones.Describes codes column.length

variable {rows : List (Row V)} {child : IndexChild} {c : IndexComponent V} {name : String} {v : V}

theorem searchRun_spec (hc : c.BuiltFrom fl rows child) (hcolumn : c.column name = some column)
    {range : RowRange} (hrange : range.Within column.length)
    (hasc : AscendingOn (fun i => column.getD i default) range.start range.stop)
    (hfits : ∀ n, TermColumn.scalar v = .num n → n ≤ u64Max) :
    ∃ run, c.searchRun fl name (TermColumn.scalar v) range = some (some run) ∧
      IsRun (fun i => column.getD i default = v) range.start range.stop run.start run.stop := by
  have hslice := sliceOf_eq hrange.ordered hrange.inBase
  obtain ⟨n, hn⟩ := Nat.exists_eq_add_of_le hrange.ordered
  have hle := hrange.inBase
  set slice := (column.drop range.start).take (range.stop - range.start) with hdef
  have hlen : slice.length = n := by
    rw [hdef, List.length_take, List.length_drop]
    omega
  have hat : ∀ i, i < n → slice.getD i default = column.getD (range.start + i) default := by
    intro i hi
    rw [List.getD_eq_getElem?_getD, List.getD_eq_getElem?_getD, hdef,
      List.getElem?_take_of_lt (by omega), List.getElem?_drop]
  have hasc' : AscendingOn (fun i => slice.getD i default) 0 slice.length := by
    intro i j _ hij hj
    rw [hlen] at hj
    simp only [hat i (by omega), hat j hj]
    exact hasc _ _ (Nat.le_add_right _ i) (Nat.add_le_add_left hij _) (by omega)
  obtain ⟨lo, hi, hbounds, hrun⟩ := searchSortedBounds_spec hasc'
    (fun node hnode => hc.sliced name range node column slice hnode hcolumn hslice) hfits
  refine ⟨⟨range.start + lo, range.start + hi⟩, ?_, ?_⟩
  · rw [IndexComponent.searchRun, hcolumn]
    dsimp only
    rw [TermColumn.ofScalar_scalar]
    dsimp only
    rw [hslice, Option.bind_some, hbounds]
    rfl
  · rw [hn]
    rw [hlen] at hrun
    exact (hrun.congr fun i _ hi => by rw [hat i hi]).shift

/-- The run of a value in a sorted window of a column, by its cached probe or its slice. -/
theorem probeRun_spec (hc : c.BuiltFrom fl rows child) (hcolumn : c.column name = some column)
    (hlen : column.length = c.len) {within : Option RowRange} {range : RowRange}
    (hrange : within.getD ⟨0, c.len⟩ = range) (hwithin : range.Within c.len)
    (hasc : AscendingOn (fun i => column.getD i default) range.start range.stop)
    (hfits : ∀ n, TermColumn.scalar v = .num n → n ≤ u64Max) :
    ∃ run, c.probeRun fl name (TermColumn.scalar v) within = some (some run) ∧
      IsRun (fun i => column.getD i default = v) range.start range.stop run.start run.stop := by
  rw [← hlen] at hwithin
  have hsearch := searchRun_spec hc hcolumn hwithin hasc hfits
  cases hprobe : c.encoding.probes name with
  | none =>
    simp only [IndexComponent.probeRun, hprobe, hrange]
    exact hsearch
  | some node =>
    cases hneedle : unsignedValue (TermColumn.scalar v) with
    | none =>
      simp only [IndexComponent.probeRun, hprobe, hneedle, hrange]
      exact hsearch
    | some needle =>
      have hv := unsignedValue_eq hneedle
      obtain ⟨column', hcolumn', henc⟩ := hc.probed name node hprobe
      obtain rfl : column' = column := by
        rw [hcolumn] at hcolumn'
        exact (Option.some.inj hcolumn').symm
      simp only [IndexComponent.probeRun, hprobe, hneedle]
      have hnode := henc.ascending hasc hwithin.inBase
      cases within with
      | none =>
        obtain rfl : (⟨0, c.len⟩ : RowRange) = range := hrange
        rw [← hlen, ← henc.len_eq] at hnode
        obtain ⟨lo, hi, hbounds, hlo, hhi⟩ := bounds_spec henc.wellFormed hnode (hfits needle hv)
        rw [henc.len_eq, hlen] at hlo hhi
        exact ⟨⟨lo, hi⟩, by rw [hbounds]; rfl, henc.isRun hv hlen.ge hlo hhi⟩
      | some window =>
        obtain rfl : window = range := hrange
        have hsound := wellFormed_sound henc.wellFormed
        obtain ⟨lo, hi, hbounds, hlo, hhi⟩ := boundsIn_spec hsound hwithin.ordered
          (by rw [henc.len_eq]; exact hwithin.inBase) hnode needle
        dsimp only
        exact ⟨⟨lo, hi⟩, by rw [hbounds]; rfl, henc.isRun hv hwithin.inBase hlo hhi⟩

end Columns

/-! ### The order of a child's rows -/

/-- The value of a row in a role. -/
def roleValue {V : Type} (r : Row V) : QuadColumn → V
  | .s => r.s
  | .p => r.p
  | .o => r.o
  | .g => r.g

/-- The leading sort keys of a child: the column of each and the role it holds. -/
def IndexChild.keys : IndexChild → List (String × QuadColumn)
  | .copy .posg => [(COL_P, .p), (COL_O, .o)]
  | .copy .ospg => [(COL_O, .o), (COL_S, .s)]
  | .reference .object _ => [(COL_VAL, .o)]
  | .reference .predicate _ => [(COL_VAL, .p)]

instance {V : Type} [Inhabited V] : Inhabited (Row V) := ⟨⟨default, default, default, default⟩⟩

namespace IndexChild

variable {V : Type} [LinearOrder V] (child : IndexChild) (rows : List (Row V))

theorem entries_perm : (child.entries rows).Perm rows.zipIdx := by
  cases child with
  | copy family => exact sortBy_perm _ _
  | reference family graphs => exact sortBy_perm _ _

@[simp] theorem length_entries : (child.entries rows).length = rows.length := by
  rw [(child.entries_perm rows).length_eq, List.length_zipIdx]

/-- Each entry is a row of the base beside its place. -/
theorem mem_entries {entry : Row V × RowId} :
    entry ∈ child.entries rows ↔ rows[entry.2]? = some entry.1 := by
  rw [(child.entries_perm rows).mem_iff]
  exact List.mem_zipIdx_iff_getElem?

/-- Every base row stands in a child exactly once. -/
theorem rids_perm : ((child.entries rows).map Prod.snd).Perm (List.range rows.length) := by
  have hperm := (child.entries_perm rows).map Prod.snd
  rwa [List.zipIdx_map_snd, ← List.range_eq_range'] at hperm

theorem rids_nodup : ((child.entries rows).map Prod.snd).Nodup :=
  (child.rids_perm rows).nodup_iff.mpr List.nodup_range

variable [Inhabited V]

/-- The row at a place of a child. -/
def rowAt (i : ℕ) : Row V := ((child.entries rows).getD i default).1

/-- The column of a role holds it at every place. -/
theorem getD_roleColumn (role : QuadColumn) (i : ℕ) :
    ((child.entries rows).map fun entry => roleValue entry.1 role).getD i default =
      roleValue (child.rowAt rows i) role := by
  have hdefault : (default : V) = roleValue (default : Row V × RowId).1 role := by
    cases role <;> rfl
  rw [hdefault, List.getD_map]
  rfl

theorem entries_ascend {β : Type} [LinearOrder β] {k : Row V × RowId → β}
    (h : ((child.entries rows).map k).SortedLE) :
    AscendingOn (fun i => k ((child.entries rows).getD i default)) 0 rows.length := by
  have hasc := ascendingOn_getD h (k default)
  rw [List.length_map, length_entries] at hasc
  simpa only [List.getD_map] using hasc

/-- The leading columns of a child are sorted, each inside the runs of the ones before. -/
theorem keys_nested :
    NestedOn (child.keys.map fun key i => roleValue (child.rowAt rows i) key.2) 0 rows.length := by
  have hpair : ∀ {α β : Type} [LinearOrder α] [LinearOrder β] {f : ℕ → α ×ₗ β} {a b : ℕ},
      AscendingOn f a b → NestedOn [fun i => (ofLex (f i)).1] a b :=
    fun h => nestedOn_singleton h.fst
  cases child with
  | copy family =>
    have hasc := entries_ascend (.copy family) rows
      (sortBy_ascends (fun entry : Row V × RowId => family.key entry.1) rows.zipIdx)
    cases family with
    | posg => exact nestedOn_cons hasc fun a b h => hpair h
    | ospg => exact nestedOn_cons hasc fun a b h => hpair h
  | reference family graphs =>
    have hasc := entries_ascend (.reference family graphs) rows
      (sortBy_ascends (fun entry : Row V × RowId =>
        (toLex (refValue family entry.1, entry.2) : V ×ₗ RowId)) rows.zipIdx)
    cases family with
    | object => exact hpair hasc
    | predicate => exact hpair hasc

/-- Inside the run of one value, a reference child's row ids ascend. -/
theorem reference_rids_ascend (family : RefFamily) (graphs : Bool) {v : V} {a b : ℕ}
    (hrun : IsRun (fun i => refValue family ((reference family graphs).rowAt rows i) = v) 0
      rows.length a b) :
    AscendingOn (fun i => (((reference family graphs).entries rows).getD i default).2) a b := by
  have hasc := entries_ascend (.reference family graphs) rows
    (sortBy_ascends (fun entry : Row V × RowId =>
      (toLex (refValue family entry.1, entry.2) : V ×ₗ RowId)) rows.zipIdx)
  exact (hasc.mono hrun.start_le hrun.le_stop).snd fun i ha hb => hrun.holds ha hb

end IndexChild

/-! ### The columns of a component -/

theorem lookup_key {V : Type} {child : IndexChild} {key : String × QuadColumn} (h : key ∈ child.keys)
    (entries : List (Row V × RowId)) : (child.columns entries).lookup key.1 =
      some (entries.map fun entry => roleValue entry.1 key.2) := by
  cases child with
  | copy family =>
    cases family <;>
      · simp only [IndexChild.keys, List.mem_cons, List.not_mem_nil, or_false] at h
        rcases h with rfl | rfl <;> rfl
  | reference family graphs =>
    cases family <;>
      · simp only [IndexChild.keys, List.mem_cons, List.not_mem_nil, or_false] at h
        rw [h]
        rfl

theorem lookup_graph {V : Type} {child : IndexChild} {entries : List (Row V × RowId)} {column : List V}
    (h : (child.columns entries).lookup COL_G = some column) :
    column = entries.map fun entry => roleValue entry.1 .g := by
  cases child with
  | copy family => exact (Option.some.inj h).symm
  | reference family graphs =>
    cases graphs with
    | true => exact (Option.some.inj h).symm
    | false => cases h

section Components

variable {V : Type} [LinearOrder V] [TermColumn V] {fl : FastLanes}
  {rows : List (Row V)} {child : IndexChild} {c : IndexComponent V}

theorem IndexComponent.BuiltFrom.len_eq (hc : c.BuiltFrom fl rows child) : c.len = rows.length := by
  rw [IndexComponent.len, hc.rids_eq, List.length_map, child.length_entries]

theorem IndexComponent.BuiltFrom.column_key (hc : c.BuiltFrom fl rows child)
    {key : String × QuadColumn} (h : key ∈ child.keys) :
    c.column key.1 = some ((child.entries rows).map fun entry => roleValue entry.1 key.2) := by
  rw [IndexComponent.column, hc.columns_eq, lookup_key h]

theorem IndexComponent.BuiltFrom.column_graph (hc : c.BuiltFrom fl rows child) {column : List V}
    (h : c.column COL_G = some column) :
    column = (child.entries rows).map fun entry => roleValue entry.1 .g := by
  rw [IndexComponent.column, hc.columns_eq] at h
  exact lookup_graph h

variable [Inhabited V]

/-- The search of a child's sort key, within a window it is sorted in. -/
theorem probeRun_key (hc : c.BuiltFrom fl rows child) {key : String × QuadColumn}
    (hkey : key ∈ child.keys) {within : Option RowRange} {range : RowRange}
    (hrange : within.getD ⟨0, c.len⟩ = range) (hwithin : range.Within rows.length)
    (hasc : AscendingOn (fun i => roleValue (child.rowAt rows i) key.2) range.start range.stop)
    {v : V} (hfits : ∀ n, TermColumn.scalar v = .num n → n ≤ u64Max) :
    ∃ run, c.probeRun fl key.1 (TermColumn.scalar v) within = some (some run) ∧
      IsRun (fun i => roleValue (child.rowAt rows i) key.2 = v) range.start range.stop
        run.start run.stop := by
  have hlen : ((child.entries rows).map fun entry => roleValue entry.1 key.2).length = c.len := by
    rw [List.length_map, child.length_entries, hc.len_eq]
  rw [← hc.len_eq] at hwithin
  have hspec := @probeRun_spec V _ _ _ fl _ rows child c key.1 v hc (hc.column_key hkey) hlen
    within range hrange hwithin (by simpa only [IndexChild.getD_roleColumn] using hasc) hfits
  simpa only [IndexChild.getD_roleColumn] using hspec

end Components

/-! ### The children of the code builds -/

section CodeBuilds

variable (rows : List (Row TermCode))

theorem zipIdx_ofRows : rows.zipIdx = (List.range (QuadCodes.ofRows rows).s.length).map
    fun i => ((QuadCodes.ofRows rows).rowAt i, rowId i) := by
  rw [QuadCodes.length_ofRows]
  refine List.ext_getElem (by simp) fun i hi _ => ?_
  rw [List.length_zipIdx] at hi
  rw [List.getElem_zipIdx, List.getElem_map, List.getElem_range, QuadCodes.rowAt_ofRows hi,
    Nat.zero_add]
  rfl

/-- The copy children of the code builds hold the rows of the copies. -/
theorem copyComponent_columns (family : CopyFamily) :
    (copyComponent (QuadCodes.ofRows rows) family).columns =
      (IndexChild.copy family).columns ((IndexChild.copy family).entries rows) ++
        [(COL_RID, ((IndexChild.copy family).entries rows).map Prod.snd)] := by
  have hentries : ((codePerm (QuadCodes.ofRows rows) family).map
      fun i => ((QuadCodes.ofRows rows).rowAt i, rowId i)) = (IndexChild.copy family).entries rows := by
    rw [IndexChild.entries, zipIdx_ofRows, codePerm, sortBy_map]
  rw [copyComponent, hentries]
  rfl

/-- The reference children of the code builds hold each value, its row id and its graph. -/
theorem referenceComponent_columns (family : RefFamily) :
    let entries := (IndexChild.reference family true).entries rows
    (referenceComponent (QuadCodes.ofRows rows) (rows.map (refValue family)) family).columns =
      [(COL_VAL, entries.map fun entry => refValue family entry.1), (COL_RID, entries.map Prod.snd),
        (COL_G, entries.map (·.1.g))] := by
  intro entries
  have hpairs : (sortBy id ((rows.map (refValue family)).zipIdx.map
      fun p => (toLex (p.1, rowId p.2) : TermCode ×ₗ RowId))) =
      entries.map fun entry => toLex (refValue family entry.1, entry.2) := by
    rw [List.zipIdx_map, List.map_map]
    exact sortBy_map _ id rows.zipIdx
  have hgraph : ∀ entry ∈ entries, (QuadCodes.ofRows rows).g.getD (baseRow entry.2) 0 = entry.1.g := by
    intro entry hentry
    have hrow := (IndexChild.mem_entries _ rows).mp hentry
    rw [QuadCodes.ofRows_eq, List.getD_eq_getElem?_getD, List.getElem?_map, baseRow, hrow]
    rfl
  rw [referenceComponent, hpairs]
  simp only [Builds.referenceColumns, List.map_map]
  refine congrArg (fun column => [(COL_VAL, entries.map fun entry => refValue family entry.1),
    (COL_RID, entries.map Prod.snd), (COL_G, column)]) ?_
  exact List.map_congr_left hgraph

end CodeBuilds

end Indexes
