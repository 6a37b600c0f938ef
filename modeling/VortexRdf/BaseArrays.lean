/-
A base of quads held in memory.

The base is an array with one column for each role, sorted or not; beside it the store
keeps what it has resolved of the columns' encodings, the codes it has decoded, and the
zone maps.  Every stage of a match or a keep reads the base through one of three faces.

* `RoleLayout` — a layout whose base columns hold the roles' own values;
* `BaseArray`, `BaseArray.Sound` — a base, and that what is kept beside it is right;
* `BaseArray.table`, `BaseArray.kept`, `BaseArray.served` — the base as the residual
  compares, the keeps and the served reads know it, each sound where the base is;
* `constraints_asks` — a prepared pattern compiles to one equality a bound role;
* `matchesAt`, `passes_asks` — which rows match a pattern, and that the equalities say so;
* `nested_roles` — a sorted base's columns are sorted one inside another.
-/
import VortexRdf.KeepPaths
import VortexRdf.ServedAnswers

namespace Views

open Ascending Bisect Buffers Builds Dictionary EncodedSearch Indexes Masks MaskOps Terms
open Store hiding Row
open scoped Lexicographic

/-! ### Layouts by role -/

/-- A layout whose base has one column a role, and whose prelude resolves for it. -/
structure RoleLayout (ox : Oxrdf) (V : Type) [LinearOrder V] [TermColumn V] extends
    IndexedLayout ox V where
  untyped : strategy ≠ .typedObject
  layout_eq : ∀ {pattern codes}, prepare pattern = .codes codes → codes.layout = strategy

/-- The Default layout. -/
def defaultRoles (ox : Oxrdf) : RoleLayout ox Str where
  toIndexedLayout := stringIndexed ox .default
  untyped := LayoutStrategy.noConfusion
  layout_eq h := by
    obtain rfl := Prepared.codes.inj h
    rfl

/-- The Dictionary layout, its dictionary in memory. -/
def dictionaryRoles (ox : Oxrdf) (dict : TermDictionary) (hsorted : dict.terms.SortedLT) :
    RoleLayout ox TermCode where
  toIndexedLayout := dictionaryIndexed ox dict hsorted
  untyped := LayoutStrategy.noConfusion
  layout_eq {pattern codes} h := by
    change preparePattern ox dict pattern = .codes codes at h
    rw [preparePattern] at h
    split_ifs at h
    obtain rfl := Prepared.codes.inj h
    exact (residentResolve_spec (boundRoles_nodup pattern) fun _ _ => rfl).1

section Constraints

variable {ox : Oxrdf} {V : Type} [LinearOrder V] [TermColumn V] {codes : PatternCodes}

/-- A role's constraint is its probe. -/
theorem termConstraints_untyped (h : codes.layout ≠ .typedObject) (term : TermRef) :
    codes.termConstraints ox term = (codes.probeScalar ox term).map fun found =>
      found.map fun value => [(term.role.name, value)] := by
  have huntyped : decide (codes.layout = .typedObject) = false := decide_eq_false h
  rw [PatternCodes.probeScalar]
  cases term <;>
    · rw [PatternCodes.termConstraints.eq_def, huntyped]
      dsimp only
      split_ifs with hstring
      · rfl
      · generalize codes.code ox _ = found
        rcases found with error | (_ | code) <;> rfl

variable {layout : RoleLayout ox V}

theorem constraintsLoop_asks (hlayout : codes.layout ≠ .typedObject) {terms : List TermRef}
    (hprobed : ∀ term ∈ terms, ∃ v, codes.probeScalar ox term = .ok (some (TermColumn.scalar v)) ∧
      layout.spelling v = some (term.writeNt ox)) (eqs : List Equality) :
    ∃ more, codes.constraintsLoop ox terms eqs = .ok (.eq (eqs ++ more)) ∧
      List.Forall₂ (Asks layout.toIndexedLayout) terms more := by
  induction terms generalizing eqs with
  | nil => exact ⟨[], by rw [List.append_nil]; rfl, .nil⟩
  | cons term terms ih =>
    obtain ⟨⟨v, hscalar, hv⟩, hrest⟩ := List.forall_mem_cons.mp hprobed
    obtain ⟨more, hmore, hasks⟩ := ih hrest (eqs ++ [(term.role.name, TermColumn.scalar v)])
    refine ⟨(term.role.name, TermColumn.scalar v) :: more, ?_, .cons ⟨v, rfl, hv⟩ hasks⟩
    rw [PatternCodes.constraintsLoop, termConstraints_untyped hlayout, hscalar]
    rw [List.append_assoc, List.singleton_append] at hmore
    exact hmore

/-- What is left of a prepared pattern compiles to one equality a bound role. -/
theorem constraints_asks {pattern left : QuadPattern}
    (hcodes : layout.prepare pattern = .codes codes)
    (hleft : ∀ term ∈ left.boundRoles, term ∈ pattern.boundRoles) :
    ∃ eqs, codes.constraints ox left = .ok (.eq eqs) ∧
      List.Forall₂ (Asks layout.toIndexedLayout) left.boundRoles eqs := by
  have hlayout : codes.layout ≠ .typedObject := by
    rw [layout.layout_eq hcodes]
    exact layout.untyped
  have hprobed : Probed layout.toIndexedLayout codes pattern := layout.prepared hcodes
  obtain ⟨eqs, heqs, hasks⟩ :=
    constraintsLoop_asks hlayout (fun term hterm => hprobed term (hleft term hterm)) []
  exact ⟨eqs, heqs, hasks⟩

end Constraints

/-! ### The base -/

/-- How a base's code columns read: each keeps its decode once made, or every take decodes
them again. -/
inductive CodeAccess where
  | resident
  | encoded
deriving DecidableEq

/-- A base's rows, with what the store and the array library keep beside them. -/
structure BaseArray (V : Type) where
  rows : List (Row V)
  /-- The sorted stamp of the subject column. -/
  subjectSorted : Bool
  /-- The probes cached for the columns. -/
  probes : QuadColumn → Option Node
  /-- What a search of the subject column resolves of its encoding. -/
  subject : Option Node
  /-- The chunks of a code column. -/
  chunks : QuadColumn → List (List TermCode)
  /-- The codes of a column, where they are materialized. -/
  cache : QuadColumn → Option (List TermCode)
  access : CodeAccess
  /-- The codes a column's shared cache hands out, decoded by the first reader. -/
  shared : QuadColumn → Option (List TermCode)
  zones : QuadZones
  primitive : ColumnName → Bool → Bool
  resolves : ColumnName → Bool
  views : ColumnName → Bool
  nullBit : ColumnName → ℕ → Bool
  /-- The probe of an index component's row id column. -/
  ridProbe : String → Option Node
  /-- Whether each quad column of a component's chunk resolves a probe. -/
  chunkProbed : List (Row V × RowId) → Bool

namespace BaseArray

variable {V : Type}

def len (base : BaseArray V) : ℕ := base.rows.length

/-- The base as a keep reads it. -/
def kept (base : BaseArray V) : KeptBase where
  rows := base.len
  chunks := base.chunks
  cache := base.cache
  probes := base.probes
  sorted := base.subjectSorted

/-- The codes of a column, decoded into its cache; none of columns that stay encoded. -/
def baseCodePrimitive (base : BaseArray V) (column : QuadColumn) : Option (List TermCode) :=
  if base.access = .encoded then none else base.shared column

/-- The base as a plan over a component reads it. -/
def served (base : BaseArray V) (c : IndexComponent V) : ServedBase V :=
  ⟨base.baseCodePrimitive, base.ridProbe c.identity.name, base.chunkProbed⟩

variable [LinearOrder V] [TermColumn V]

/-- A row's cells, by column. -/
def cells (row : Row V) (name : ColumnName) : Scalar :=
  match primarySlot name with
  | some role => TermColumn.scalar (roleValue row role)
  | none => .null

/-- The base as a residual compares it. -/
def table (base : BaseArray V) : ResidualTable where
  columns name := (primarySlot name).map fun _ => TermColumn.type V
  rows := base.rows.map cells
  probes name := (primarySlot name).bind base.probes
  component := false
  primitive := base.primitive
  resolves := base.resolves
  views := base.views
  nullBit := base.nullBit

/-- A list of codes is a column's values. -/
def HoldsCodes (base : BaseArray V) (column : QuadColumn) (codes : List TermCode) : Prop :=
  codes.map Scalar.num = base.rows.map fun row => TermColumn.scalar (roleValue row column)

/-- What is kept beside a base is right: a stamped base is in order, the encodings read
their columns, the codes are the columns' and the zone maps describe them. -/
structure Sound (fl : FastLanes) (strategy : LayoutStrategy) (base : BaseArray V) : Prop where
  small : base.len ≤ usizeMax
  stamped : base.subjectSorted = true → base.rows.SortedLE
  probed : ∀ column node, base.probes column = some node →
    Encodes fl node (base.rows.map fun row => roleValue row column)
  subject : ∀ node, base.subject = some node → Encodes fl node (base.rows.map Row.s)
  chunked : strategy = .dictionary → ∀ column, base.HoldsCodes column (base.chunks column).flatten
  cached : ∀ column codes, base.cache column = some codes → base.HoldsCodes column codes
  shared : ∀ column codes, base.shared column = some codes → base.HoldsCodes column codes
  resident : strategy = .dictionary → base.access = .resident → ∀ column, base.shared column ≠ none
  zoned : base.zones.Describe base.table.cell base.len

end BaseArray

/-- The probes of a component's row id column read it. -/
def BaseArray.ReadsRids {V : Type} (fl : FastLanes) (base : BaseArray V) (c : IndexComponent V) :
    Prop :=
  ∀ probe, base.ridProbe c.identity.name = some probe → probe.WellFormed fl ∧ probe.len = c.len ∧
    ∀ i, i < c.len → probe.value fl i = c.rids.getD i 0

/-! ### The faces of a base -/

section Faces

variable {V : Type} [LinearOrder V] [TermColumn V] {fl : FastLanes} {strategy : LayoutStrategy}
  {base : BaseArray V}

@[simp] theorem BaseArray.table_len : base.table.len = base.len := List.length_map _

omit [LinearOrder V] [TermColumn V] in
@[simp] theorem BaseArray.kept_rows : base.kept.rows = base.len := rfl

theorem cells_role (row : Row V) (role : QuadColumn) :
    BaseArray.cells row role.name = TermColumn.scalar (roleValue row role) := by
  cases role <;> rfl

theorem table_cell {i : ℕ} {row : Row V} (hrow : base.rows[i]? = some row) (role : QuadColumn) :
    base.table.cell role.name i = TermColumn.scalar (roleValue row role) := by
  have hcells : base.table.rows[i]? = some (BaseArray.cells row) := by
    rw [BaseArray.table, List.getElem?_map, hrow, Option.map_some]
  rw [ResidualTable.cell, hcells]
  exact cells_role row role

/-- The base's table reads its columns. -/
theorem BaseArray.Sound.table_sound (h : base.Sound fl strategy) : base.table.Sound fl where
  small := by
    rw [table_len]
    exact h.small
  coded hcomponent := absurd hcomponent Bool.false_ne_true
  probed name node hnode := by
    obtain ⟨role, hrole, hnode⟩ := Option.bind_eq_some_iff.mp hnode
    obtain rfl := primarySlot_name hrole
    have hencodes := h.probed role node (by assumption)
    have hlen : node.len = base.len := by rw [hencodes.len_eq, List.length_map]; rfl
    refine ⟨hencodes.wellFormed, by rw [table_len, hlen], fun i hi => ?_⟩
    rw [table_len] at hi
    have hrow : base.rows[i]? = some base.rows[i] := List.getElem?_eq_getElem hi
    rw [table_cell hrow]
    refine hencodes.reads i _ ?_
    rw [List.getElem?_map, hrow, Option.map_some]

theorem scalarInjective : Function.Injective (TermColumn.scalar : V → Scalar) := fun v w h => by
  have hv := TermColumn.ofScalar_scalar v
  rw [h, TermColumn.ofScalar_scalar] at hv
  exact (Option.some.inj hv).symm

variable {ox : Oxrdf} {layout : IndexedLayout ox V} {terms : List TermRef} {eqs : List Equality}

/-- The equalities of some terms can be asked of the base. -/
theorem table_comparable (h : List.Forall₂ (Asks layout) terms eqs) :
    base.table.Comparable eqs := by
  have hasks : ∀ eq ∈ eqs, ∃ (term : TermRef) (v : V), eq = (term.role.name, TermColumn.scalar v) := by
    intro eq heq
    obtain ⟨i, hi, rfl⟩ := List.mem_iff_getElem.mp heq
    obtain ⟨v, hv, -⟩ := h.get (by rw [h.length_eq]; exact hi) hi
    exact ⟨_, v, hv⟩
  have hslot : ∀ role : QuadColumn, primarySlot role.name = some role := fun role => by
    cases role <;> rfl
  refine ⟨fun eq heq => ?_, fun eq heq => ?_, fun row hrow eq heq hnull => ?_⟩
  · obtain ⟨term, v, rfl⟩ := hasks eq heq
    refine ⟨TermColumn.type V, ?_, TermColumn.cast_scalar v⟩
    show (primarySlot term.role.name).map (fun _ => TermColumn.type V) = _
    rw [hslot, Option.map_some]
  · obtain ⟨term, v, rfl⟩ := hasks eq heq
    exact TermColumn.nonnull v
  · obtain ⟨term, v, rfl⟩ := hasks eq heq
    obtain ⟨r, -, rfl⟩ := List.mem_map.mp hrow
    rw [cells_role] at hnull
    exact absurd hnull (TermColumn.nonnull _)

/-- Whether the base row at a place holds some terms. -/
def matchesAt (layout : IndexedLayout ox V) (rows : List (Row V)) (terms : List TermRef) (i : ℕ) :
    Bool :=
  rows[i]?.any fun row => terms.all (layout.holds row)

variable {rows : List (Row V)}

theorem matchesAt_row {i : ℕ} {row : Row V} (hrow : rows[i]? = some row) :
    matchesAt layout rows terms i = terms.all (layout.holds row) := by
  rw [matchesAt, hrow, Option.any_some]

theorem matchingRows_eq (rows : List (Row V)) (terms : List TermRef) :
    layout.matchingRows rows terms = (List.range rows.length).filter (matchesAt layout rows terms) :=
  rfl

theorem matchesAt_nil {i : ℕ} (hi : i < rows.length) :
    matchesAt layout rows [] i = true := by
  rw [matchesAt_row (List.getElem?_eq_getElem hi)]
  rfl

theorem matchesAt_append (terms terms' : List TermRef) (i : ℕ) :
    matchesAt layout rows (terms ++ terms') i =
      (matchesAt layout rows terms i && matchesAt layout rows terms' i) := by
  unfold matchesAt
  cases rows[i]? with
  | none => rfl
  | some row => simp only [Option.any_some, List.all_append]

theorem matchesAt_congr {terms terms' : List TermRef}
    (h : ∀ term, term ∈ terms ↔ term ∈ terms') (i : ℕ) :
    matchesAt layout rows terms i = matchesAt layout rows terms' i := by
  unfold matchesAt
  cases rows[i]? with
  | none => rfl
  | some row =>
    rw [Option.any_some, Option.any_some, Bool.eq_iff_iff, List.all_eq_true, List.all_eq_true]
    exact forall_congr' fun term => by rw [h]

/-- A base row passes the equalities of some terms when it holds the terms. -/
theorem passes_asks (h : List.Forall₂ (Asks layout) terms eqs) {i : ℕ} (hi : i < base.len) :
    passes base.table.cell eqs i = matchesAt layout base.rows terms i := by
  have hrow : base.rows[i]? = some base.rows[i] := List.getElem?_eq_getElem hi
  rw [matchesAt_row hrow]
  induction h with
  | nil => rfl
  | @cons term eq terms eqs hask _ ih =>
    obtain ⟨v, rfl, hv⟩ := hask
    have hfirst : holdsCell base.table.cell (term.role.name, TermColumn.scalar v) i =
        layout.holds base.rows[i] term := by
      rw [holdsCell, table_cell hrow, Bool.eq_iff_iff, beq_iff_eq, scalarInjective.eq_iff,
        IndexedLayout.holds_iff hv]
    rw [List.all_cons, ← ih, ← hfirst]
    rfl

end Faces

/-! ### Codes -/

section Codes

variable {V : Type} [LinearOrder V] [TermColumn V] {fl : FastLanes} {strategy : LayoutStrategy}
  {base : BaseArray V} {column : QuadColumn} {codes : List TermCode}

theorem BaseArray.HoldsCodes.length_eq (h : base.HoldsCodes column codes) :
    codes.length = base.len := by
  have hlen := congrArg List.length h
  rwa [List.length_map, List.length_map] at hlen

/-- The code at a place is the one of its row. -/
theorem BaseArray.HoldsCodes.code_eq (h : base.HoldsCodes column codes) {i : ℕ} {row : Row V}
    (hrow : base.rows[i]? = some row) :
    TermColumn.scalar (roleValue row column) = .num (codes.getD i 0) := by
  have hget : (codes.map Scalar.num)[i]? = _ := congrArg (·[i]?) h
  have hi : i < codes.length := by
    rw [h.length_eq]
    exact (List.getElem?_eq_some_iff.mp hrow).1
  rw [List.getElem?_map, List.getElem?_map, hrow, Option.map_some, List.getElem?_eq_getElem hi,
    Option.map_some] at hget
  rw [List.getD_eq_getElem _ _ hi]
  exact (Option.some.inj hget).symm

/-- A column's codes are the same wherever they are read. -/
theorem BaseArray.HoldsCodes.unique {codes' : List TermCode} (h : base.HoldsCodes column codes)
    (h' : base.HoldsCodes column codes') : codes = codes' :=
  List.map_injective_iff.mpr (fun _ _ => Scalar.num.inj) (h.trans h'.symm)

namespace BaseArray.Sound

variable (h : base.Sound fl .dictionary)
include h

theorem kept_code {i : ℕ} {row : Row V} (hrow : base.rows[i]? = some row) (column : QuadColumn) :
    TermColumn.scalar (roleValue row column) = .num (base.kept.code column i) :=
  (h.chunked rfl column).code_eq hrow

/-- A keep admits a row by its code. -/
theorem keepHolds_eq {i : ℕ} {row : Row V} (hrow : base.rows[i]? = some row) (column : QuadColumn)
    (keep : Keep) :
    keepHolds keep (roleValue row column) = keep.admits (base.kept.code column i) := by
  rw [keepHolds, h.kept_code hrow]
  rfl

/-- Rows in order have their codes in order. -/
theorem key_le {i j : ℕ} {row row' : Row V} (hi : base.rows[i]? = some row)
    (hj : base.rows[j]? = some row') (hle : row ≤ row') : base.kept.key i ≤ base.kept.key j := by
  have hcode : ∀ column, roleValue row column < roleValue row' column ↔
      base.kept.code column i < base.kept.code column j := fun column =>
    TermColumn.ordered (h.kept_code hi column) (h.kept_code hj column)
  have hsame : ∀ column, roleValue row column = roleValue row' column →
      base.kept.code column i = base.kept.code column j := fun column heq => by
    have hscalar := h.kept_code hi column
    rw [heq, h.kept_code hj column] at hscalar
    exact (Scalar.num.inj hscalar).symm
  have hspog : row.spog ≤ row'.spog := hle
  simp only [Row.spog, key, Prod.Lex.toLex_le_toLex] at hspog
  simp only [KeptBase.key, QuadColumn.ALL, List.map_cons, List.map_nil]
  -- the first column that differs decides both orders
  rcases hspog with hs | ⟨hs, hp | ⟨hp, ho | ⟨ho, hg⟩⟩⟩
  · exact le_of_lt (List.cons_lt_cons_iff.mpr (.inl ((hcode .s).mp hs)))
  · rw [hsame .s hs]
    exact le_of_lt (List.cons_lt_cons_iff.mpr (.inr ⟨rfl, List.cons_lt_cons_iff.mpr (.inl ((hcode .p).mp hp))⟩))
  · rw [hsame .s hs, hsame .p hp]
    exact le_of_lt (List.cons_lt_cons_iff.mpr (.inr ⟨rfl, List.cons_lt_cons_iff.mpr (.inr ⟨rfl,
      List.cons_lt_cons_iff.mpr (.inl ((hcode .o).mp ho))⟩)⟩))
  · rw [hsame .s hs, hsame .p hp, hsame .o ho]
    rcases hg.lt_or_eq with hg | hg
    · exact le_of_lt (List.cons_lt_cons_iff.mpr (.inr ⟨rfl, List.cons_lt_cons_iff.mpr (.inr ⟨rfl,
        List.cons_lt_cons_iff.mpr (.inr ⟨rfl, List.cons_lt_cons_iff.mpr (.inl ((hcode .g).mp hg))⟩)⟩)⟩))
    · rw [hsame .g hg]

/-- The base a keep reads is sound. -/
theorem kept_sound : base.kept.Sound fl where
  small := h.small
  full column := (h.chunked rfl column).length_eq
  cached column codes hcodes := (h.cached column codes hcodes).unique (h.chunked rfl column)
  probed column node hnode := by
    have hencodes := h.probed column node hnode
    refine ⟨hencodes.wellFormed, by rw [hencodes.len_eq, List.length_map]; rfl, fun i hi => ?_⟩
    have hrow : base.rows[i]? = some base.rows[i] := List.getElem?_eq_getElem hi
    have hread := hencodes.reads i (roleValue base.rows[i] column)
      (by rw [List.getElem?_map, hrow, Option.map_some])
    rw [h.kept_code hrow] at hread
    exact (Scalar.num.inj hread).symm
  ordered hstamp i j hij hj := by
    have hsorted := h.stamped hstamp
    have hi : i < base.rows.length := lt_of_le_of_lt hij hj
    refine h.key_le (List.getElem?_eq_getElem hi) (List.getElem?_eq_getElem hj) ?_
    rcases hij.lt_or_eq with hlt | rfl
    · exact List.pairwise_iff_getElem.mp hsorted.pairwise i j hi hj hlt
    · exact le_rfl

end BaseArray.Sound

/-- The codes a column hands out are the column's. -/
theorem BaseArray.Sound.primitive_holds (h : base.Sound fl strategy)
    (hcodes : base.baseCodePrimitive column = some codes) : base.HoldsCodes column codes := by
  rw [BaseArray.baseCodePrimitive] at hcodes
  split_ifs at hcodes with haccess
  exact h.shared column codes hcodes

/-- The base a plan reads is sound. -/
theorem BaseArray.Sound.served_sound (h : base.Sound fl strategy) {c : IndexComponent V}
    (hrids : base.ReadsRids fl c) : (base.served c).Sound fl base.rows c where
  cached column codes hcodes i row hrow := by
    have hholds := h.primitive_holds hcodes
    have hi : i < codes.length := by
      rw [hholds.length_eq]
      exact (List.getElem?_eq_some_iff.mp hrow).1
    refine ⟨codes.getD i 0, ?_, hholds.code_eq hrow⟩
    rw [List.getElem?_eq_getElem hi, List.getD_eq_getElem _ _ hi]
  rids := hrids

end Codes

/-! ### Sorted rows -/

section Sorted

variable {V : Type} [LinearOrder V] [Inhabited V] {rows : List (Row V)}

/-- Sorted rows have their columns sorted one inside another, over any window. -/
theorem nested_roles (h : rows.SortedLE) (lo : ℕ) {hi : ℕ} (hhi : hi ≤ rows.length) :
    NestedOn (QuadColumn.ALL.map fun role i => roleValue (rows.getD i default) role) lo hi := by
  have hasc : AscendingOn (fun i => (rows.getD i default).spog) lo hi := fun i j hij hlo hj =>
    (ascendingOn_getD h default).mono (Nat.zero_le lo) hhi i j hij hlo hj
  exact nestedOn_cons hasc fun a b hb => nestedOn_cons hb fun a b hb =>
    nestedOn_cons hb fun a b hb => nestedOn_singleton hb

end Sorted

end Views
