/-
The row keys of a tail are exact, and a keyed match is the scan.

* `TailKeys.Exact` — every row keyed once, in sorted runs each under half of the one
  before it; `of_exact` and `extended_exact` keep it over any sequence of appends;
* `candidates_eq` — the candidates of a key are the rows carrying it;
* `tailRowsHolding_selects` — the compare of some rows keeps those that hold the
  equalities;
* `tailKeys_exact` — a fully bound match by keys is the match by a scan.
-/
import VortexRdf.TailKeys
import VortexRdf.EquiJoins
import VortexRdf.TermRoundTrip

namespace Store

open Terms Masks MaskOps Buffers Ascending SortedRuns EquiJoins

variable {layout : StringLayout} {finish : Finish}

/-! ### The key of a row -/

/-- What a row writes to its hasher. -/
def rowWrites (columns : List ColumnName) (row : Row layout) : List HasherWrite :=
  columns.foldl (fun hasher name => (KeyValue.ofColumn name (row.field name)).hashInto hasher) []

def rowKey (finish : Finish) (row : Row layout) : ℕ := finish (rowWrites (keyColumns layout) row)

theorem foldlM_hashColumn {columns : List ColumnName} (h : ∀ name ∈ columns, name ∈ layout.columns)
    (rows : List (Row layout)) (hashers : Row layout → List HasherWrite) :
    columns.foldlM (hashColumn rows) (rows.map hashers) =
      some (rows.map fun row => columns.foldl
        (fun hasher name => (KeyValue.ofColumn name (row.field name)).hashInto hasher)
        (hashers row)) := by
  induction columns generalizing hashers with
  | nil => rfl
  | cons name columns ih =>
    have hname : hashColumn rows (rows.map hashers) name = some (rows.map fun row =>
        (KeyValue.ofColumn name (row.field name)).hashInto (hashers row)) := by
      rw [hashColumn, unmaskedFieldByName, if_pos (h name List.mem_cons_self), Option.map_some,
        List.zipWith_map, List.zipWith_self]
    rw [List.foldlM_cons, hname]
    exact ih (fun name h' => h name (List.mem_cons_of_mem _ h')) _

theorem keyColumns_subset (layout : StringLayout) :
    ∀ name ∈ keyColumns layout, name ∈ layout.columns := by
  cases layout <;> simp [keyColumns, StringLayout.columns]

theorem rowKeys_eq (finish : Finish) (rows : List (Row layout)) :
    rowKeys finish rows (keyColumns layout) = some (rows.map (rowKey finish)) := by
  have hstart : List.replicate rows.length ([] : List HasherWrite) = rows.map fun _ => [] := by
    rw [List.map_const']
  rw [rowKeys, hstart, foldlM_hashColumn (keyColumns_subset layout), Option.map_some, List.map_map]
  rfl

/-! ### Pairs of a key and a row -/

theorem keyLe_iff {a b : ℕ × ℕ} : keyLe a b = true ↔ a.1 < b.1 ∨ a.1 = b.1 ∧ a.2 ≤ b.2 := by
  simp [keyLe]

theorem keyLe_trans (a b c : ℕ × ℕ) (hab : keyLe a b) (hbc : keyLe b c) : keyLe a c := by
  rw [keyLe_iff] at *
  omega

theorem keyLe_total (a b : ℕ × ℕ) : keyLe a b || keyLe b a := by
  rw [Bool.or_eq_true, keyLe_iff, keyLe_iff]
  omega

/-! ### Keys over appends -/

/-- The keys of a tail's rows: every row keyed once, in ordered runs. -/
structure TailKeys.Exact (finish : Finish) (keys : TailKeys) (rows : List (Row layout)) : Prop where
  columns : keys.columns = keyColumns layout
  counted : keys.rows = rows.length
  keyed : keys.runs.flatten.Perm (rows.map (rowKey finish)).zipIdx
  ordered : Ordered keyLe keys.runs

theorem extended_exact {keys : TailKeys} {rows : List (Row layout)} (h : keys.Exact finish rows)
    (fresh : List (Row layout)) :
    ∃ keys', keys.extended finish fresh = some keys' ∧ keys'.Exact finish (rows ++ fresh) := by
  have hhashes : rowKeys finish fresh keys.columns = some (fresh.map (rowKey finish)) := by
    rw [h.columns, rowKeys_eq]
  refine ⟨_, by rw [TailKeys.extended, hhashes, Option.map_some], ?_⟩
  have hrun := List.mergeSort_perm ((fresh.map (rowKey finish)).zipIdx keys.rows) keyLe
  constructor
  · exact h.columns
  · show keys.rows + fresh.length = (rows ++ fresh).length
    rw [h.counted, List.length_append]
  · refine (push_perm keyLe _ _).trans ?_
    rw [List.map_append, List.zipIdx_append, Nat.zero_add, List.length_map, ← h.counted]
    exact h.keyed.append hrun
  · exact push_ordered keyLe_trans keyLe_total h.ordered
      (List.pairwise_mergeSort keyLe_trans keyLe_total _)

theorem of_exact (finish : Finish) (rows : List (Row layout)) :
    ∃ keys, TailKeys.of finish rows = some keys ∧ keys.Exact finish rows := by
  have hempty : (⟨keyColumns layout, [], 0⟩ : TailKeys).Exact finish ([] : List (Row layout)) :=
    ⟨rfl, rfl, List.Perm.refl _, ordered_nil⟩
  exact extended_exact hempty rows

/-! ### Candidates -/

variable {keys : TailKeys} {rows : List (Row layout)}

theorem zipIdx_positions {α : Type*} [DecidableEq α] (column : List α) (a : α) :
    ((column.zipIdx.filter fun place => place.1 = a).map Prod.snd) = positions column a := by
  have hsorted : ((column.zipIdx.filter fun place => place.1 = a).map Prod.snd).SortedLT := by
    refine (List.Pairwise.sublist (List.filter_sublist.map _) ?_).sortedLT
    rw [List.zipIdx_map_snd]
    exact (List.sortedLT_range' _ _ one_ne_zero).pairwise
  refine ((positions_eq_iff hsorted).mpr fun j => ?_).symm
  simp only [List.mem_map, List.mem_filter, Prod.exists, exists_eq_right, decide_eq_true_eq,
    List.mk_mem_zipIdx_iff_getElem?]

/-- The keys of a run ascend. -/
theorem sortedLE_keys {run : KeyRun} (h : run.Pairwise fun a b => keyLe a b = true) :
    (run.map Prod.fst).SortedLE := by
  refine List.Pairwise.sortedLE (List.pairwise_map.mpr (h.imp fun {a b} hab => ?_))
  rw [keyLe_iff] at hab
  omega

theorem mergeSort_eq_of_perm {l l' : List ℕ} (h : l.Perm l') (hl' : l'.SortedLT) :
    l.mergeSort (· ≤ ·) = l' := by
  have hsort := @List.pairwise_mergeSort ℕ (fun a b => decide (a ≤ b))
    (by simpa using fun a b c => @Nat.le_trans a b c) (by simpa using Nat.le_total) l
  refine List.Perm.eq_of_pairwise (fun a b _ _ hab hba => ?_) hsort
    (hl'.pairwise.imp fun {a b} hab => ?_) ((List.mergeSort_perm l _).trans h)
  · exact Nat.le_antisymm (by simpa using hab) (by simpa using hba)
  · simpa using hab.le

theorem candidates_eq (h : keys.Exact finish rows) {eqs : List Equality} {key : ℕ}
    (hkey : TailKeys.equalityKey finish (keyColumns layout) eqs = some key) :
    keys.candidates finish eqs = some (positions (rows.map (rowKey finish)) key) := by
  have hruns : (keys.runs.flatMap fun run => (equalRange Prod.fst key run).map Prod.snd) =
      (keys.runs.flatten.filter fun place => place.1 = key).map Prod.snd := by
    have hsorted := h.ordered.sorted
    generalize keys.runs = runs at hsorted
    induction runs with
    | nil => rfl
    | cons run runs ih =>
      rw [List.flatMap_cons, equalRange_eq_filter (sortedLE_keys (hsorted run List.mem_cons_self)),
        ih fun run' h' => hsorted run' (List.mem_cons_of_mem _ h'), List.flatten_cons,
        List.filter_append, List.map_append]
  have hperm : (keys.runs.flatMap fun run => (equalRange Prod.fst key run).map Prod.snd).Perm
      (positions (rows.map (rowKey finish)) key) := by
    rw [hruns, ← zipIdx_positions]
    exact (h.keyed.filter _).map _
  rw [TailKeys.candidates, h.columns, hkey, Option.map_some,
    mergeSort_eq_of_perm hperm (sortedLT_positions _ _)]

/-! ### Rows that hold equalities -/

def Row.Holds (row : Row layout) (eqs : List Equality) : Prop :=
  ∀ eq ∈ eqs, row.field eq.1 = eq.2

instance (row : Row layout) (eqs : List Equality) : Decidable (row.Holds eqs) :=
  inferInstanceAs (Decidable (∀ eq ∈ eqs, row.field eq.1 = eq.2))

/-- A row that holds equalities on every key column has their key. -/
theorem Row.Holds.rowKey_eq {row : Row layout} {eqs : List Equality} (h : row.Holds eqs) {key : ℕ}
    (hkey : TailKeys.equalityKey finish (keyColumns layout) eqs = some key) :
    rowKey finish row = key := by
  have hwrites : ∀ columns : List ColumnName, ∀ values hasher,
      (columns.mapM fun column => (eqs.find? fun eq => eq.1 == column).bind fun eq =>
        KeyValue.ofScalar eq.2) = some values →
      columns.foldl (fun hasher name => (KeyValue.ofColumn name (row.field name)).hashInto hasher)
        hasher = values.foldl (fun hasher value => value.hashInto hasher) hasher := by
    intro columns
    induction columns with
    | nil =>
      rintro values hasher hvalues
      obtain rfl := Option.some_inj.mp hvalues
      rfl
    | cons column columns ih =>
      intro values hasher hvalues
      rw [List.mapM_cons, Option.bind_eq_bind, Option.bind_eq_some_iff] at hvalues
      obtain ⟨value, hvalue, hrest⟩ := hvalues
      rw [Option.bind_eq_bind, Option.bind_eq_some_iff] at hrest
      obtain ⟨rest, hrest, hvalues⟩ := hrest
      obtain rfl := Option.some_inj.mp hvalues
      obtain ⟨⟨name, scalar⟩, hfind, hscalar⟩ := Option.bind_eq_some_iff.mp hvalue
      have hfield : row.field column = scalar := by
        have hname := List.find?_some hfind
        rw [← beq_iff_eq.mp hname]
        exact h _ (List.mem_of_find?_eq_some hfind)
      have hsame : KeyValue.ofColumn column (row.field column) = value := by
        rw [hfield]
        cases scalar with
        | num n => exact Option.some_inj.mp hscalar
        | str text => exact Option.some_inj.mp hscalar
        | null => cases hscalar
      rw [List.foldl_cons, List.foldl_cons, hsame]
      exact ih rest _ hrest
  obtain ⟨values, hvalues, rfl⟩ := Option.map_eq_some_iff.mp hkey
  rw [rowKey, rowWrites, hwrites _ _ _ hvalues]

/-! ### The compares -/

/-- Equalities an array of the layout can be compared with: on its columns, of their
types, and with the kind beside a datatype or a language. -/
structure Compares (layout : StringLayout) (eqs : List Equality) : Prop where
  column : ∀ eq ∈ eqs, eq.1 ∈ layout.columns
  castable : ∀ eq ∈ eqs, eq.2.castTo eq.1 = some eq.2
  nonnull : ∀ eq ∈ eqs, eq.2 ≠ .null
  datatype : ∀ eq ∈ eqs, eq.1 = .oDatatype → (ColumnName.oKind, Scalar.num 4) ∈ eqs
  lang : ∀ eq ∈ eqs, eq.1 = .oLang → (ColumnName.oKind, Scalar.num 3) ∈ eqs

/-- Whether the row at an index holds some equalities. -/
def holdsAt (rows : List (Row layout)) (eqs : List Equality) (i : ℕ) : Bool :=
  rows[i]?.any fun row => row.Holds eqs

theorem bindCol_holds {shape : ArrayShape} {rows : List (Row layout)} {eq : Equality}
    {col : TypedEq} (h : TypedEq.bindCol shape rows eq = some col) {i : ℕ} {row : Row layout}
    (hrow : rows[i]? = some row) : col.holds i = true ↔ row.field eq.1 = eq.2 := by
  have hcol : col = ⟨rows.map fun row => row.field eq.1, eq.2⟩ := by
    obtain ⟨name, value⟩ := eq
    unfold TypedEq.bindCol unmaskedFieldByName at h
    by_cases hmem : name ∈ layout.columns
    · simp only [if_pos hmem] at h
      by_cases hnull : name.isNullable = true
      · simp [hnull] at h
      · cases value with
        | num n | str text =>
          simp only [if_neg hnull, Option.ite_none_right_eq_some, Option.some.injEq] at h
          exact h.2.symm
        | null => simp [hnull] at h
    · simp [hmem] at h
  rw [hcol, TypedEq.holds, List.getElem?_map, hrow]
  simp

theorem typedPositions_eq {shape : ArrayShape} {rows : List (Row layout)} {eqs : List Equality}
    {positions : List ℕ} (h : typedPositions shape rows eqs = some positions) :
    positions = (List.range rows.length).filter (holdsAt rows eqs) := by
  unfold typedPositions at h
  split_ifs at h with hempty
  obtain ⟨cols, hcols, rfl⟩ := Option.map_eq_some_iff.mp h
  refine List.filter_congr fun i hi => ?_
  obtain ⟨row, hrow⟩ : ∃ row, rows[i]? = some row :=
    ⟨_, List.getElem?_eq_getElem (List.mem_range.mp hi)⟩
  have hall : ∀ eqs : List Equality, ∀ cols, eqs.mapM (TypedEq.bindCol shape rows) = some cols →
      ((cols.all fun col => col.holds i) = true ↔ row.Holds eqs) := by
    intro eqs
    induction eqs with
    | nil =>
      intro cols hcols
      obtain rfl := Option.some_inj.mp hcols
      simp [Row.Holds]
    | cons eq eqs ih =>
      intro cols hcols
      rw [List.mapM_cons, Option.bind_eq_bind, Option.bind_eq_some_iff] at hcols
      obtain ⟨col, hcol, hrest⟩ := hcols
      rw [Option.bind_eq_bind, Option.bind_eq_some_iff] at hrest
      obtain ⟨rest, hrest, hcols⟩ := hrest
      obtain rfl := Option.some_inj.mp hcols
      rw [List.all_cons, Bool.and_eq_true, ih rest hrest, bindCol_holds hcol hrow]
      simp [Row.Holds]
  rw [Bool.eq_iff_iff, hall eqs cols hcols, holdsAt, hrow]
  simp

/-- The bit a compare leaves for one row. -/
def slotBit (shape : ArrayShape) (row : Row layout) (i : ℕ) (eq : Equality) : Bool :=
  if row.field eq.1 = .null ∨ eq.2 = .null then shape.nullBit eq.1 i else row.field eq.1 == eq.2

/-- A loop that conjoins one bit a row for each equality leaves the rows that hold them all. -/
theorem conjoined_eq {α E : Type*} {rows : List α} {b : E → α × ℕ → Bool}
    {loop : List E → Option (List Bool) → Option (Option (List Bool))}
    (hnil : ∀ mask, loop [] mask = some mask) {es : List E}
    (hstep : ∀ e ∈ es, ∀ rest mask, loop (e :: rest) mask = loop rest (some
      (mask.elim (rows.zipIdx.map (b e)) (·.zipWith (· && ·) (rows.zipIdx.map (b e))))))
    {good : α → Bool} (hgood : ∀ row ∈ rows, ∀ i, es.all (b · (row, i)) = good row) :
    ((loop es none).map fun mask => mask.getD (List.replicate rows.length true)) =
      some ((List.range rows.length).map fun i => rows[i]?.any good) := by
  have hsome : ∀ rest bits, (∀ e ∈ rest, e ∈ es) →
      loop rest (some (rows.zipIdx.map bits)) =
        some (some (rows.zipIdx.map fun place => bits place && rest.all (b · place))) := by
    intro rest
    induction rest with
    | nil => simp [hnil]
    | cons e rest ih =>
      intro bits hsub
      rw [hstep e (hsub e List.mem_cons_self), Option.elim_some, List.zipWith_map,
        List.zipWith_self, ih _ fun e he => hsub e (List.mem_cons_of_mem _ he)]
      simp [Bool.and_assoc]
  have hloop : ((loop es none).map fun mask => mask.getD (List.replicate rows.length true)) =
      some (rows.zipIdx.map fun place => es.all (b · place)) := by
    cases es with
    | nil => simp [hnil, List.map_const']
    | cons e rest =>
      rw [hstep e List.mem_cons_self, Option.elim_none,
        hsome rest _ fun _ => List.mem_cons_of_mem _]
      rfl
  rw [hloop]
  congr 1
  refine List.ext_getElem? fun i => ?_
  by_cases hi : i < rows.length
  · have hrow := List.getElem?_eq_getElem hi
    simp only [List.getElem?_map, List.getElem?_zipIdx, hrow, List.getElem?_range hi,
      Option.map_some, Nat.zero_add, Option.any_some, Option.some.injEq]
    exact hgood _ (List.getElem_mem hi) i
  · simp [hi]

/-- A typed object has a datatype where its kind says so, and a language. -/
theorem decomposed_kind {object : TypedObject} (h : ∃ term, object = decomposeObject term) :
    (object.kind = 4 → object.datatype ≠ none) ∧ (object.kind = 3 → object.lang ≠ none) := by
  obtain ⟨term, rfl⟩ := h
  cases term with
  | namedNode n => simp [decomposeObject]
  | blankNode b => simp [decomposeObject]
  | literal l =>
    cases l with
    | simple value => simp [decomposeObject]
    | languageTagged value language => simp [decomposeObject]
    | typed value datatype =>
      rw [decomposeObject]
      split_ifs <;> simp

/-- Only a datatype or a language may be null. -/
theorem field_null {row : Row layout} {name : ColumnName} (hname : name ∈ layout.columns)
    (h : row.field name = .null) :
    name = .oDatatype ∧ row.field .oKind ≠ .num 4 ∨ name = .oLang ∧ row.field .oKind ≠ .num 3 := by
  cases layout with
  | default => cases name <;> simp_all [StringLayout.columns, Row.field]
  | typedObject =>
    obtain ⟨hdatatype, hlang⟩ := decomposed_kind (TypedRow.decomposed row)
    have hnone : ∀ text, nullable text = .null → text = none := by
      intro text htext
      cases text with
      | none => rfl
      | some text => cases htext
    cases name <;> simp only [StringLayout.columns, Row.field] at hname h <;>
      first | cases h | skip
    · exact absurd hname (by simp)
    · exact .inl ⟨rfl, fun hkind => hdatatype (Scalar.num.inj hkind) (hnone _ h)⟩
    · exact .inr ⟨rfl, fun hkind => hlang (Scalar.num.inj hkind) (hnone _ h)⟩

theorem slotBits_iff {eqs : List Equality} (h : Compares layout eqs) (shape : ArrayShape)
    (row : Row layout) (i : ℕ) : eqs.all (slotBit shape row i) = true ↔ row.Holds eqs := by
  have hbit : ∀ eq ∈ eqs, row.field eq.1 ≠ .null →
      slotBit shape row i eq = (row.field eq.1 == eq.2) := by
    intro eq heq hnull
    rw [slotBit, if_neg (not_or.mpr ⟨hnull, h.nonnull eq heq⟩)]
  rw [List.all_eq_true]
  constructor
  · intro hall eq heq
    have hkind : ∀ n, (ColumnName.oKind, Scalar.num n) ∈ eqs → row.field .oKind = .num n := by
      intro n hn
      have hnot : row.field .oKind ≠ .null := by
        intro hnull
        rcases field_null (h.column _ hn) hnull with ⟨hname, -⟩ | ⟨hname, -⟩ <;> cases hname
      exact beq_iff_eq.mp ((hbit _ hn hnot) ▸ hall _ hn)
    have hnot : row.field eq.1 ≠ .null := by
      intro hnull
      rcases field_null (h.column _ heq) hnull with ⟨hname, hne⟩ | ⟨hname, hne⟩
      · exact hne (hkind 4 (h.datatype eq heq hname))
      · exact hne (hkind 3 (h.lang eq heq hname))
    exact beq_iff_eq.mp ((hbit eq heq hnot) ▸ hall eq heq)
  · intro hholds eq heq
    have hfield := hholds eq heq
    rw [hbit eq heq (hfield ▸ h.nonnull eq heq), hfield]
    exact beq_self_eq_true _

theorem maskFor_eq {eqs : List Equality} (h : Compares layout eqs) (shape : ArrayShape)
    (rows : List (Row layout)) :
    maskFor shape rows eqs = some ((List.range rows.length).map (holdsAt rows eqs)) := by
  refine conjoined_eq (b := fun eq place => slotBit shape place.1 place.2 eq) (fun _ => rfl)
    (fun eq heq rest mask => ?_) fun row _ i => ?_
  · have hcol : unmaskedFieldByName rows eq.1 = some (rows.map fun row => row.field eq.1) := by
      rw [unmaskedFieldByName, if_pos (h.column eq heq)]
    have hbits : eqBits shape eq.1 (rows.map fun row => row.field eq.1) eq.2 =
        rows.zipIdx.map fun place => slotBit shape place.1 place.2 eq := by
      rw [eqBits, List.zipIdx_map, List.map_map]
      rfl
    rw [maskLoop, hcol, h.castable eq heq]
    dsimp only
    rw [hbits]
    cases mask <;> rfl
  · rw [Bool.eq_iff_iff, slotBits_iff h, decide_eq_true_iff]

section Masked

variable {M : Type*} [MaskOps M]

theorem boolArrayToMask_map (p : ℕ → Bool) (n : ℕ) :
    (boolArrayToMask ((List.range n).map p) : M) = fromIndices n ((List.range n).filter p) := by
  rw [boolArrayToMask, List.length_map, List.length_range]
  congr 1
  refine List.filter_congr fun i hi => ?_
  simp [List.mem_range.mp hi]

variable [LawfulMask M]

theorem tailRowsHolding_selects {rows : List (Row layout)} (hbase : rows.length ≤ usizeMax)
    {s : RowSelection} (hs : s.Within rows.length) {eqs : List Equality}
    (h : Compares layout eqs) (shape : ArrayShape) :
    Selects rows.length (tailRowsHolding M shape rows s eqs)
      ((s.rows rows.length).filter fun row => holdsAt rows eqs row = true) := by
  unfold tailRowsHolding
  split_ifs with hempty
  · refine ⟨s, rfl, hs, ?_⟩
    have hnone : s.rows rows.length = ∅ := by
      rw [RowSelection.isEmpty, len_eq_card hbase hs, beq_iff_eq, Finset.card_eq_zero] at hempty
      exact hempty
    rw [hnone, Finset.filter_empty]
  · obtain ⟨applied, happlied⟩ : ∃ applied, applied = rowsAt rows (s.listing rows.length) :=
      ⟨_, rfl⟩
    have hin := (listing_idsWithin hs).inBase
    have hlen : applied.length = (s.rows rows.length).card := by
      rw [happlied, length_rowsAt hin, RowSelection.listing, Finset.length_sort]
    -- a selected row stands among those applied to at its rank
    have hat : ∀ row ∈ s.rows rows.length,
        holdsAt applied eqs (rank (s.rows rows.length) row) = holdsAt rows eqs row := by
      intro row hrow
      have hrank : (s.listing rows.length)[rank (s.rows rows.length) row]? = some row :=
        sort_getElem?_iff.mpr ⟨hrow, rfl⟩
      rw [holdsAt, happlied, getElem?_rowsAt hin, hrank]
      rfl
    have hrefine : Selects rows.length
        (s.refine (fromIndices applied.length
          ((List.range applied.length).filter (holdsAt applied eqs)) : M))
        ((s.rows rows.length).filter fun row => holdsAt rows eqs row = true) := by
      obtain ⟨narrowed, hsome, hwithin, hrows⟩ := @refine_selects _ M _ _ _ hbase hs
        (fromIndices applied.length ((List.range applied.length).filter (holdsAt applied eqs)))
        (by rw [LawfulMask.len_fromIndices, len_eq_card hbase hs, hlen])
      refine ⟨narrowed, hsome, hwithin, hrows.trans (Finset.filter_congr fun row hrow => ?_)⟩
      have hlt : rank (s.rows rows.length) row < applied.length := hlen ▸ rank_lt hrow
      rw [LawfulMask.value_fromIndices _ _ _
        (fun k hk => List.mem_range.mp (List.mem_of_mem_filter hk))
        (Ascending.filter (List.sortedLT_range _) _) hlt, decide_eq_true_iff, List.mem_filter,
        List.mem_range, hat row hrow]
      exact and_iff_right hlt
    rw [apply_eq hbase hs, ← happlied]
    dsimp only
    cases hpositions : typedPositions shape applied eqs with
    | some positions =>
      rw [typedPositions_eq hpositions]
      exact hrefine
    | none =>
      rw [maskFor_eq h, Option.bind_some, boolArrayToMask_map]
      exact hrefine

end Masked

/-! ### The equalities of a pattern -/

variable (ox : Oxrdf)

theorem Compares.append {eqs eqs' : List Equality} (h : Compares layout eqs)
    (h' : Compares layout eqs') : Compares layout (eqs ++ eqs') where
  column eq heq := (List.mem_append.mp heq).elim (h.column eq) (h'.column eq)
  castable eq heq := (List.mem_append.mp heq).elim (h.castable eq) (h'.castable eq)
  nonnull eq heq := (List.mem_append.mp heq).elim (h.nonnull eq) (h'.nonnull eq)
  datatype eq heq hname := List.mem_append.mpr
    ((List.mem_append.mp heq).imp (h.datatype eq · hname) (h'.datatype eq · hname))
  lang eq heq hname := List.mem_append.mpr
    ((List.mem_append.mp heq).imp (h.lang eq · hname) (h'.lang eq · hname))

theorem compares_object (object : Term) :
    Compares .typedObject (stringEqualities ox .typedObject (.object object)) := by
  cases object with
  | namedNode n | blankNode b =>
    constructor <;> simp [stringEqualities, decomposeObject, StringLayout.columns, Scalar.castTo,
      ColumnName.isUnsignedInt]
  | literal l =>
    cases l with
    | simple value | languageTagged value language =>
      constructor <;> simp [stringEqualities, decomposeObject, StringLayout.columns, Scalar.castTo,
        ColumnName.isUnsignedInt]
    | typed value datatype =>
      by_cases hstring : datatype = XSD_STRING
      · constructor <;> simp [stringEqualities, decomposeObject, StringLayout.columns,
          Scalar.castTo, ColumnName.isUnsignedInt, hstring]
      · constructor <;> simp [stringEqualities, decomposeObject, StringLayout.columns,
          Scalar.castTo, ColumnName.isUnsignedInt, hstring]

theorem compares_term (term : TermRef) : Compares layout (stringEqualities ox layout term) := by
  have hone : ∀ term : TermRef, term.role.name ∈ layout.columns →
      Compares layout [(term.role.name, Scalar.str (term.writeNt ox))] := by
    intro term hcolumn
    constructor <;> cases term <;>
      simp_all [TermRef.role, QuadColumn.name, Scalar.castTo, ColumnName.isUnsignedInt]
  cases layout with
  | default => exact hone term (by cases term <;> simp [TermRef.role, QuadColumn.name,
      StringLayout.columns])
  | typedObject =>
    cases term with
    | object object => exact compares_object ox object
    | subject s | predicate p | graph g =>
      exact hone _ (by simp [TermRef.role, QuadColumn.name, StringLayout.columns])

theorem compares_terms (terms : List TermRef) :
    Compares layout (terms.flatMap (stringEqualities ox layout)) := by
  induction terms with
  | nil => constructor <;> simp
  | cons term terms ih =>
    rw [List.flatMap_cons]
    exact (compares_term ox term).append ih

/-- The equalities of a pattern that binds every role. -/
def quadEqualities (layout : StringLayout) (q : Quad) : List Equality :=
  (QuadPattern.ofQuad q).boundRoles.flatMap (stringEqualities ox layout)

/-- They constrain every key column. -/
theorem equalityKey_quad (finish : Finish) (layout : StringLayout) (q : Quad) :
    ∃ key, TailKeys.equalityKey finish (keyColumns layout) (quadEqualities ox layout q) =
      some key := by
  cases layout with
  | default => exact ⟨_, rfl⟩
  | typedObject =>
    obtain ⟨s, p, o, g⟩ := q
    cases o with
    | namedNode n => exact ⟨_, rfl⟩
    | blankNode b => exact ⟨_, rfl⟩
    | literal l =>
      cases l with
      | simple value => exact ⟨_, rfl⟩
      | languageTagged value language => exact ⟨_, rfl⟩
      | typed value datatype =>
        by_cases hstring : datatype = XSD_STRING
        · subst hstring
          exact ⟨_, rfl⟩
        · have heqs : quadEqualities ox .typedObject ⟨s, p, .literal (.typed value datatype), g⟩ =
              [(.s, .str ((TermRef.subject s).writeNt ox)),
                (.p, .str ((TermRef.predicate p).writeNt ox)), (.oKind, .num 4),
                (.oValue, .str value), (.oDatatype, .str datatype.iri),
                (.g, .str ((TermRef.graph g).writeNt ox))] := by
            simp only [quadEqualities, QuadPattern.boundRoles, QuadPattern.ofQuad, Option.map_some,
              List.reduceOption, List.filterMap_cons, id, List.filterMap_nil, List.flatMap_cons,
              stringEqualities, decomposeObject, if_neg hstring, List.flatMap_nil]
            rfl
          rw [heqs]
          exact ⟨_, rfl⟩

theorem quadEqualities_ne_nil (layout : StringLayout) (q : Quad) :
    quadEqualities ox layout q ≠ [] := by
  intro h
  have hsubject : (ColumnName.s, Scalar.str ((TermRef.subject q.subject).writeNt ox)) ∈
      quadEqualities ox layout q := by
    refine List.mem_flatMap.mpr ⟨.subject q.subject, by simp [QuadPattern.boundRoles,
      QuadPattern.ofQuad, List.reduceOption], ?_⟩
    cases layout <;> exact List.mem_singleton_self _
  rw [h] at hsubject
  cases hsubject

/-! ### Tails that appends and deletes build -/

section Built

variable {M : Type*} [MaskOps M]

/-- What the tails of a store keep. -/
structure Tail.Kept (finish : Finish) (t : Tail M layout) : Prop where
  fits : t.rows.length ≤ usizeMax
  selected : t.selection.Within t.rows.length
  tombstones : ∀ d ∈ t.deleted, len d = t.rows.length
  keyed : t.keys.Exact finish t.rows

theorem Tail.new_kept {rows : List (Row layout)} (hfits : rows.length ≤ usizeMax) :
    ∃ t : Tail M layout, Tail.new finish rows = some t ∧ t.Kept finish ∧ t.rows = rows := by
  obtain ⟨keys, hkeys, hexact⟩ := of_exact finish rows
  exact ⟨⟨rows, .all, none, keys⟩, by rw [Tail.new, hkeys, Option.map_some],
    ⟨hfits, trivial, nofun, hexact⟩, rfl⟩

section Lawful

variable [LawfulMask M]

theorem Tail.Kept.liveRows_eq {t : Tail M layout} (h : t.Kept finish) :
    t.liveRows = some (rowsAt t.rows (t.selection.liveListing t.deleted t.rows.length)) :=
  gatherLive_eq h.fits h.selected h.tombstones false

/-- A whole tail appended to: no row is renumbered. -/
theorem Tail.Kept.append_all {t : Tail M layout} (h : t.Kept finish) (hdeleted : t.deleted = none)
    (hselection : t.selection = .all) (fresh : List (Row layout)) :
    ∃ keys : TailKeys, t.append finish fresh = some ⟨t.rows ++ fresh, .all, none, keys⟩ ∧
      keys.Exact finish (t.rows ++ fresh) := by
  obtain ⟨keys, hkeys, hexact⟩ := extended_exact h.keyed fresh
  refine ⟨keys, ?_, hexact⟩
  have hlive := h.liveRows_eq
  rw [hdeleted, hselection, liveListing_none, rowsAt_all h.fits] at hlive
  rw [Tail.append, hlive, hdeleted, hselection]
  dsimp only
  rw [hkeys, Option.map_some]

theorem Tail.Kept.append {t t' : Tail M layout} (h : t.Kept finish) {fresh : List (Row layout)}
    (h' : t.append finish fresh = some t') (hfits : t'.rows.length ≤ usizeMax) :
    t'.Kept finish := by
  obtain ⟨old, hold⟩ : ∃ old,
      old = rowsAt t.rows (t.selection.liveListing t.deleted t.rows.length) := ⟨_, rfl⟩
  have hnew : Tail.new finish (old ++ fresh) = some t' → t'.Kept finish := by
    intro hsome
    have hrows : t'.rows = old ++ fresh := by
      obtain ⟨keys, -, rfl⟩ := Option.map_eq_some_iff.mp hsome
      rfl
    obtain ⟨t'', hsome', hkept, -⟩ := @Tail.new_kept _ finish M _ _ (hrows ▸ hfits)
    obtain rfl := Option.some_inj.mp (hsome.symm.trans hsome')
    exact hkept
  by_cases hwhole : t.deleted = none ∧ t.selection = .all
  · obtain ⟨keys, happend, hexact⟩ := h.append_all hwhole.1 hwhole.2 fresh
    obtain rfl := Option.some_inj.mp (happend.symm.trans h')
    exact ⟨hfits, trivial, nofun, hexact⟩
  · rw [Tail.append, h.liveRows_eq, ← hold] at h'
    refine hnew ?_
    cases hdeleted : t.deleted with
    | some d => simpa [hdeleted] using h'
    | none =>
      cases hselection : t.selection with
      | range r => simpa [hdeleted, hselection] using h'
      | ids l => simpa [hdeleted, hselection] using h'
      | all => exact absurd ⟨hdeleted, hselection⟩ hwhole

end Lawful

variable [MaskUnion M]

/-- The tails a store holds: a fresh one, one appended to, one with more tombstones,
and one narrowed by a match or a window. -/
inductive Tail.Built (finish : Finish) : Tail M layout → Prop
  | new (rows : List (Row layout)) (t : Tail M layout) (h : Tail.new finish rows = some t)
      (hfits : rows.length ≤ usizeMax) : Built finish t
  | append (t t' : Tail M layout) (fresh : List (Row layout)) (h : Built finish t)
      (h' : t.append finish fresh = some t') (hfits : t'.rows.length ≤ usizeMax) : Built finish t'
  | tombstoned (t : Tail M layout) (doomed : RowSelection) (h : Built finish t)
      (hdoomed : doomed.Within t.rows.length) : Built finish (t.tombstoned doomed)
  | withSelection (t : Tail M layout) (s : RowSelection) (h : Built finish t)
      (hs : s.Within t.rows.length) : Built finish (t.withSelection s)

variable [LawfulMask M] [LawfulUnion M]

theorem Tail.Kept.tombstoned {t : Tail M layout} (h : t.Kept finish) (doomed : RowSelection) :
    (t.tombstoned doomed).Kept finish := by
  refine ⟨h.fits, h.selected, fun d hd => ?_, h.keyed⟩
  obtain rfl := Option.some_inj.mp hd
  cases hdeleted : t.deleted with
  | none => exact toMask_len
  | some existing =>
    have hlen := h.tombstones existing hdeleted
    exact (LawfulUnion.len_union _ _ (hlen.trans toMask_len.symm)).trans hlen

theorem Tail.Built.kept {t : Tail M layout} (h : t.Built finish) : t.Kept finish := by
  induction h with
  | new rows t h hfits =>
    obtain ⟨t', hsome, hkept, -⟩ := @Tail.new_kept _ finish M _ rows hfits
    obtain rfl := Option.some_inj.mp (h.symm.trans hsome)
    exact hkept
  | append t t' fresh h h' hfits ih => exact ih.append h' hfits
  | tombstoned t doomed h hdoomed ih => exact ih.tombstoned doomed
  | withSelection t s h hs ih => exact ⟨ih.fits, hs, ih.tombstones, ih.keyed⟩

end Built

/-! ### A keyed match is the scan -/

section Matched

variable {M : Type*} [MaskOps M]

/-- The selected rows whose key is that of some equalities. -/
theorem candidates_selects {t : Tail M layout} (h : t.Kept finish) (key : ℕ) :
    Selects t.rows.length
      (some (.fromIds ((positions (t.rows.map (rowKey finish)) key).filter t.selection.contains)))
      ((t.selection.rows t.rows.length).filter fun row =>
        (t.rows[row]?).map (rowKey finish) = some key) := by
  have hkey : ∀ row, row ∈ positions (t.rows.map (rowKey finish)) key ↔
      (t.rows[row]?).map (rowKey finish) = some key := by
    intro row
    rw [mem_positions, List.getElem?_map]
  have hlt : ∀ row, row ∈ positions (t.rows.map (rowKey finish)) key → row < t.rows.length := by
    intro row hrow
    obtain ⟨a, ha, -⟩ := Option.map_eq_some_iff.mp ((hkey row).mp hrow)
    exact (List.getElem?_eq_some_iff.mp ha).1
  obtain ⟨s, hsome, hwithin, hrows⟩ := @fromIds_selects t.rows.length
    ((positions (t.rows.map (rowKey finish)) key).filter t.selection.contains)
    ⟨Ascending.filter (sortedLT_positions _ _) _,
      fun row hrow => hlt row (List.mem_of_mem_filter hrow)⟩
  refine ⟨s, hsome, hwithin, hrows.trans ?_⟩
  ext row
  rw [List.mem_toFinset, List.mem_filter, Finset.mem_filter, and_comm]
  constructor
  · rintro ⟨hcontains, hrow⟩
    exact ⟨(contains_iff h.selected (hlt row hrow)).mp hcontains, (hkey row).mp hrow⟩
  · rintro ⟨hmem, hrow⟩
    exact ⟨(contains_iff h.selected (hlt row ((hkey row).mpr hrow))).mpr hmem, (hkey row).mpr hrow⟩

variable [LawfulMask M]

/-- A match that reads the keys keeps the selected rows that hold the equalities. -/
theorem keyed_selects {t : Tail M layout} (h : t.Kept finish) (shape : ArrayShape)
    {eqs : List Equality} (hcompares : Compares layout eqs) {key : ℕ}
    (hkey : TailKeys.equalityKey finish (keyColumns layout) eqs = some key) :
    Selects t.rows.length
      (tailRowsHolding M shape t.rows
        (.fromIds ((positions (t.rows.map (rowKey finish)) key).filter t.selection.contains)) eqs)
      ((t.selection.rows t.rows.length).filter fun row => holdsAt t.rows eqs row = true) := by
  obtain ⟨s, hsome, hwithin, hrows⟩ := candidates_selects h key
  rw [Option.some_inj] at hsome
  rw [hsome]
  obtain ⟨s', hsome', hwithin', hrows'⟩ :=
    @tailRowsHolding_selects _ M _ _ _ h.fits _ hwithin _ hcompares shape
  refine ⟨s', hsome', hwithin', hrows'.trans ?_⟩
  rw [hrows, Finset.filter_filter]
  refine Finset.filter_congr fun row _ => and_iff_right_of_imp fun hholds => ?_
  -- a row that holds the equalities has their key, so the keys name it
  rw [holdsAt] at hholds
  cases hrow : t.rows[row]? with
  | none => rw [hrow] at hholds; cases hholds
  | some a =>
    rw [hrow, Option.any_some, decide_eq_true_iff] at hholds
    rw [Option.map_some, hholds.rowKey_eq hkey]

/-- A match of a fully bound pattern and a scan of every selected row keep the same
rows. -/
theorem matchTail_selects (ox : Oxrdf) {t : Tail M layout} (h : t.Kept finish) (q : Quad)
    (shape : ArrayShape) :
    ∃ keyed, t.matchTail finish ox shape (QuadPattern.ofQuad q) = some (t.withSelection keyed) ∧
      keyed.Within t.rows.length ∧ keyed.rows t.rows.length =
        (t.selection.rows t.rows.length).filter fun row =>
          holdsAt t.rows (quadEqualities ox layout q) row = true := by
  unfold Tail.matchTail
  split_ifs with hempty
  · refine ⟨t.selection, rfl, h.selected, ?_⟩
    rw [RowSelection.isEmpty, len_eq_card h.fits h.selected, beq_iff_eq,
      Finset.card_eq_zero] at hempty
    rw [hempty, Finset.filter_empty]
  · obtain ⟨key, hkey⟩ := equalityKey_quad ox finish layout q
    obtain ⟨keyed, hkeyed, hwithin, hrows⟩ :=
      @keyed_selects _ _ M _ _ _ h shape _ (compares_terms ox (QuadPattern.ofQuad q).boundRoles) _
        hkey
    refine ⟨keyed, ?_, hwithin, hrows⟩
    rw [stringConstraints_eq, ← quadEqualities]
    dsimp only
    rw [if_neg (quadEqualities_ne_nil ox layout q), candidates_eq h.keyed hkey]
    dsimp only
    rw [quadEqualities, hkeyed, Option.map_some]

end Matched

/-- The keys of a tail after some appends. -/
def keysAfter (finish : Finish) (first : List (Row layout)) (rest : List (List (Row layout))) :
    Option TailKeys :=
  (TailKeys.of finish first).bind fun keys => rest.foldlM (TailKeys.extended finish) keys

theorem keysAfter_exact (finish : Finish) (first : List (Row layout))
    (rest : List (List (Row layout))) :
    ∃ keys, keysAfter finish first rest = some keys ∧ keys.Exact finish (first ++ rest.flatten) := by
  have hrun : ∀ (keys : TailKeys) (rows : List (Row layout)), keys.Exact finish rows →
      ∃ keys', rest.foldlM (TailKeys.extended finish) keys = some keys' ∧
        keys'.Exact finish (rows ++ rest.flatten) := by
    induction rest with
    | nil =>
      intro keys rows h
      exact ⟨keys, rfl, by rwa [List.flatten_nil, List.append_nil]⟩
    | cons fresh rest ih =>
      intro keys rows h
      obtain ⟨keys', hkeys', hexact⟩ := extended_exact h fresh
      obtain ⟨keys'', hkeys'', hexact'⟩ := ih keys' (rows ++ fresh) hexact
      refine ⟨keys'', ?_, ?_⟩
      · rw [List.foldlM_cons, hkeys']
        exact hkeys''
      · rwa [List.flatten_cons, ← List.append_assoc]
  obtain ⟨keys, hkeys, hexact⟩ := of_exact finish first
  rw [keysAfter, hkeys, Option.bind_some]
  exact hrun keys first hexact

/-- Every row keyed once, in runs whose keys ascend, each run under half of the one
before it, and the candidates of a key the rows carrying it. -/
structure TailKeys.Indexes (finish : Finish) (keys : TailKeys) (rows : List (Row layout)) :
    Prop where
  counted : keys.rows = rows.length
  keyed : keys.runs.flatten.Perm (rows.map (rowKey finish)).zipIdx
  ascending : ∀ run ∈ keys.runs, (run.map Prod.fst).SortedLE
  halving : Halving keys.runs
  candidates : ∀ eqs key, TailKeys.equalityKey finish (keyColumns layout) eqs = some key →
    ∃ l, keys.candidates finish eqs = some l ∧ l.SortedLT ∧
      ∀ row, row ∈ l ↔ (rows[row]?).map (rowKey finish) = some key

theorem TailKeys.Exact.indexes {keys : TailKeys} {rows : List (Row layout)}
    (h : keys.Exact finish rows) : keys.Indexes finish rows := by
  refine ⟨h.counted, h.keyed, fun run hrun => sortedLE_keys (h.ordered.sorted run hrun),
    h.ordered.halving, fun eqs key hkey => ?_⟩
  refine ⟨_, candidates_eq h hkey, sortedLT_positions _ _, fun row => ?_⟩
  rw [mem_positions, List.getElem?_map]

/-! ### Main result -/

/-- One appended row whose spellings are all one byte long, keyed by how many writes
its hasher took. -/
def letterTail : Tail BitMask .default :=
  ⟨[(⟨[0x73], [0x70], [0x6f], [0x67]⟩ : RawQuad)], .all, none,
    ⟨keyColumns .default, [[(12, 0)]], 1⟩⟩

def letterQuad : Quad := ⟨.namedNode ⟨[0x73]⟩, ⟨[0x70]⟩, .namedNode ⟨[0x6f]⟩, .defaultGraph⟩

def allBound : ArrayShape := ⟨fun _ => true, fun _ _ => false⟩

def noneBound : ArrayShape := ⟨fun _ => false, fun _ _ => true⟩

theorem letterTail_built : letterTail.Built List.length := by
  refine .new letterTail.rows letterTail ?_ (by decide)
  have hrun : ((letterTail.rows.map (rowKey List.length)).zipIdx 0).mergeSort keyLe = [(12, 0)] :=
    List.mergeSort_singleton _
  rw [Tail.new, TailKeys.of, TailKeys.extended, rowKeys_eq, Option.map_some, Option.map_some]
  dsimp only
  rw [hrun]
  rfl

/-- The keys index the tail over every sequence of appends, and on every tail a store
holds a fully bound match keeps the rows its mask scan keeps. -/
theorem tailKeys_exact (finish : Finish) (layout : StringLayout) (ox : Oxrdf) (M : Type*)
    [MaskOps M] [MaskUnion M] [LawfulMask M] [LawfulUnion M] :
    (∀ (first : List (Row layout)) (rest : List (List (Row layout))), ∃ keys,
      keysAfter finish first rest = some keys ∧ keys.Indexes finish (first ++ rest.flatten)) ∧
    ∀ t : Tail M layout, t.Built finish → t.keys.Indexes finish t.rows ∧
      ∀ (q : Quad) (shape shape' : ArrayShape), ∃ eqs keyed scanned,
        layout.preparePattern.constraints ox (QuadPattern.ofQuad q) = .ok (.eq eqs) ∧
        t.matchTail finish ox shape (QuadPattern.ofQuad q) = some (t.withSelection keyed) ∧
        tailRowsHolding M shape' t.rows t.selection eqs = some scanned ∧
        keyed.Within t.rows.length ∧ scanned.Within t.rows.length ∧
        keyed.rows t.rows.length = scanned.rows t.rows.length ∧
        (t.withSelection keyed).liveRows = (t.withSelection scanned).liveRows := by
  constructor
  · intro first rest
    obtain ⟨keys, hkeys, hexact⟩ := keysAfter_exact finish first rest
    exact ⟨keys, hkeys, hexact.indexes⟩
  · intro t ht
    have hkept := ht.kept
    refine ⟨hkept.keyed.indexes, fun q shape shape' => ?_⟩
    obtain ⟨keyed, hmatch, hwithin, hrows⟩ := matchTail_selects ox hkept q shape
    obtain ⟨scanned, hscan, hwithin', hrows'⟩ := @tailRowsHolding_selects layout M _ _ t.rows
      hkept.fits t.selection hkept.selected _
      (compares_terms ox (QuadPattern.ofQuad q).boundRoles) shape'
    have hsame : keyed.rows t.rows.length = scanned.rows t.rows.length := hrows.trans hrows'.symm
    have hlive : ∀ s : RowSelection, s.Within t.rows.length → (t.withSelection s).liveRows =
        some (rowsAt t.rows (s.liveListing t.deleted t.rows.length)) := fun s hs =>
      gatherLive_eq hkept.fits hs hkept.tombstones false
    refine ⟨_, keyed, scanned, stringConstraints_eq layout _, hmatch, hscan, hwithin, hwithin',
      hsame, ?_⟩
    rw [hlive keyed hwithin, hlive scanned hwithin', RowSelection.liveListing,
      RowSelection.liveListing, RowSelection.listing, RowSelection.listing, hsame]

/-- The row of `letterQuad`. -/
def letterRow : Row .default :=
  (⟨[0x3c, 0x73, 0x3e], [0x3c, 0x70, 0x3e], [0x3c, 0x6f, 0x3e], []⟩ : RawQuad)

/-- A match by keys on a tail appended to twice, the first of its two rows of one quad deleted. -/
theorem tailKeys_exact_letters :
    (∃ keys, keysAfter List.length [letterRow] [letterTail.rows, [letterRow]] =
        some keys ∧
      keys.Indexes List.length ([letterRow] ++ [letterTail.rows, [letterRow]].flatten)) ∧
    ∃ first once twice t : Tail BitMask .default, Tail.new List.length [letterRow] = some first ∧
      first.append List.length letterTail.rows = some once ∧
      once.append List.length [letterRow] = some twice ∧ t = twice.tombstoned (.ids [0]) ∧
      t.keys.Indexes List.length t.rows ∧ ∃ keyed,
        t.matchTail List.length ntriples allBound (QuadPattern.ofQuad letterQuad) =
          some (t.withSelection keyed) ∧
        keyed.rows 3 = {0, 2} ∧ (t.withSelection keyed).liveRows = some [letterRow] := by
  obtain ⟨happends, hbuilt⟩ := tailKeys_exact List.length .default ntriples BitMask
  refine ⟨happends [letterRow] [letterTail.rows, [letterRow]], ?_⟩
  obtain ⟨keys, hkeys, hexact⟩ := of_exact List.length [letterRow]
  have hfirst : Tail.new List.length [letterRow] =
      some (⟨[letterRow], .all, none, keys⟩ : Tail BitMask .default) := by
    rw [Tail.new, hkeys, Option.map_some]
  have hsmall : 3 ≤ usizeMax := by decide
  have first_built := Tail.Built.new _ _ hfirst (by decide)
  obtain ⟨keys', honce, -⟩ := first_built.kept.append_all rfl rfl letterTail.rows
  have once_built := Tail.Built.append _ _ _ first_built honce (le_trans (by decide : 2 ≤ 3) hsmall)
  obtain ⟨keys'', htwice, -⟩ := once_built.kept.append_all rfl rfl [letterRow]
  have twice_built := Tail.Built.append _ _ _ once_built htwice hsmall
  have hdoomed : IdsWithin 3 [0] := ⟨List.Pairwise.sortedLT (List.pairwise_singleton _ _), by decide⟩
  have built := Tail.Built.tombstoned _ (.ids [0]) twice_built hdoomed
  refine ⟨_, _, _, _, hfirst, honce, htwice, rfl, (hbuilt _ built).1, ?_⟩
  obtain ⟨eqs, keyed, scanned, heqs, hkeyed, hscanned, -, -, hrows, hlive⟩ :=
    (hbuilt _ built).2 letterQuad allBound noneBound
  obtain rfl : quadEqualities ntriples .default letterQuad = eqs := by
    rw [stringConstraints_eq] at heqs
    exact Constraints.eq.inj (Except.ok.inj heqs)
  have hscan : tailRowsHolding BitMask noneBound ([letterRow] ++ letterTail.rows ++ [letterRow]) .all
      (quadEqualities ntriples .default letterQuad) = some (.ids [0, 2]) := by decide
  obtain rfl := Option.some.inj (hscan.symm.trans hscanned)
  have hfound : (RowSelection.ids [0, 2]).rows 3 = {0, 2} := by decide
  have hread : gatherLive ([letterRow] ++ letterTail.rows ++ [letterRow]) (.ids [0, 2])
      (some ((RowSelection.ids [0]).toMask 3 : BitMask)) false = some [letterRow] := rfl
  exact ⟨keyed, hkeyed, hrows.trans hfound, hlive.trans hread⟩

end Store
