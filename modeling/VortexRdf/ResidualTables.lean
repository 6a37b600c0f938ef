/-
A compare of a table's selected rows keeps the rows that hold the equalities.

* `Lists` — a selection within a table, by its rows in order;
* `ResidualTable.Sound` — the probes of a table read its columns;
* `ResidualTable.Comparable` — the equalities a pattern asks of a table;
* `compared_lists`, `componentCompared_lists` — the typed loop, the mask scan and a
  column's encoding select the same rows.
-/
import VortexRdf.Residuals
import VortexRdf.Gather
import VortexRdf.TailMatch

namespace Store

open Terms Masks MaskOps Buffers Ascending EncodedSearch

/-! ### Selections by their rows in order -/

/-- `o` is a selection within the table whose rows are `l`, in order. -/
def Lists (n : ℕ) (o : Option RowSelection) (l : List ℕ) : Prop :=
  ∃ s, o = some s ∧ s.Within n ∧ s.listing n = l

section

variable {n : ℕ}

theorem Selects.lists {o : Option RowSelection} {rows : Finset ℕ} (h : Selects n o rows) :
    Lists n o (rows.sort (· ≤ ·)) := by
  obtain ⟨s, rfl, hs, rfl⟩ := h
  exact ⟨s, rfl, hs, rfl⟩

theorem lists_self {s : RowSelection} (hs : s.Within n) : Lists n (some s) (s.listing n) :=
  ⟨s, rfl, hs, rfl⟩

theorem lists_ids {l : List ℕ} (h : IdsWithin n l) : Lists n (some (.ids l)) l :=
  ⟨_, rfl, h, h.sort⟩

theorem lists_fromIds {l : List ℕ} (h : IdsWithin n l) : Lists n (some (.fromIds l)) l := by
  have hlists := (fromIds_selects h).lists
  rwa [h.sort] at hlists

theorem lists_empty : Lists n (some .empty) [] := by
  have hlists := (@selects_empty n _ rfl).lists
  rwa [Finset.sort_empty] at hlists

theorem lists_range {r : RowRange} (hr : r.Within n) : Lists n (some (.range r)) r.toList :=
  ⟨_, rfl, hr, r.sort_rows⟩

theorem idsWithin_filter {s : RowSelection} (hs : s.Within n) (p : ℕ → Bool) :
    IdsWithin n ((s.listing n).filter p) :=
  (listing_idsWithin hs).of_sublist List.filter_sublist

end

namespace ResidualTable

variable {t : ResidualTable}

/-- The probes resolved for a table read its columns; an index component holds codes
alone. -/
structure Sound (fl : FastLanes) (t : ResidualTable) : Prop where
  small : t.len ≤ usizeMax
  coded : t.component = true → ∀ name type, t.columns name = some type → type = .code
  probed : ∀ name column, t.probes name = some column → column.WellFormed fl ∧
    column.len = t.len ∧ ∀ i, i < t.len → t.cell name i = .num (column.value fl i)

/-- Equalities asked of a table: on its columns, of their types; a row whose cell is null
fails another of them, on a column that no zone map speaks for. -/
structure Comparable (t : ResidualTable) (eqs : List Equality) : Prop where
  castable : ∀ eq ∈ eqs, ∃ type, t.columns eq.1 = some type ∧ type.cast eq.2 = some eq.2
  nonnull : ∀ eq ∈ eqs, eq.2 ≠ .null
  told : ∀ row ∈ t.rows, ∀ eq ∈ eqs, row eq.1 = .null →
    ∃ other ∈ eqs, primarySlot other.1 = none ∧ row other.1 ≠ .null ∧ row other.1 ≠ other.2

/-- Fewer of the equalities are asked, every one on a column without zones among them. -/
theorem Comparable.subset {eqs eqs' : List Equality} (h : t.Comparable eqs)
    (hsub : ∀ eq ∈ eqs', eq ∈ eqs)
    (hunzoned : ∀ eq ∈ eqs, primarySlot eq.1 = none → eq ∈ eqs') : t.Comparable eqs' where
  castable eq heq := h.castable eq (hsub eq heq)
  nonnull eq heq := h.nonnull eq (hsub eq heq)
  told row hrow eq heq hnull := by
    obtain ⟨other, hother, hslot, hne⟩ := h.told row hrow eq (hsub eq heq) hnull
    exact ⟨other, hunzoned other hother hslot, hslot, hne⟩

/-! ### The mask scan -/

/-- A row that holds every equality. -/
def holds (eqs : List Equality) (row : ColumnName → Scalar) : Bool :=
  eqs.all fun eq => row eq.1 == eq.2

theorem passes_cell (eqs : List Equality) {i : ℕ} {row : ColumnName → Scalar}
    (hrow : t.rows[i]? = some row) : passes t.cell eqs i = holds eqs row := by
  simp only [passes, holdsCell, cell, hrow, holds]

/-- The bit a compare leaves for one row. -/
def slotBit (t : ResidualTable) (row : ColumnName → Scalar) (i : ℕ) (eq : Equality) : Bool :=
  if row eq.1 = .null ∨ eq.2 = .null then t.nullBit eq.1 i else row eq.1 == eq.2

theorem slotBits_eq {eqs : List Equality} (h : t.Comparable eqs) {row : ColumnName → Scalar}
    (hrow : row ∈ t.rows) (i : ℕ) : eqs.all (t.slotBit row i) = holds eqs row := by
  have hbit : ∀ eq ∈ eqs, row eq.1 ≠ .null → t.slotBit row i eq = (row eq.1 == eq.2) := by
    intro eq heq hnull
    rw [slotBit, if_neg (not_or.mpr ⟨hnull, h.nonnull eq heq⟩)]
  by_cases hnull : ∃ eq ∈ eqs, row eq.1 = .null
  · -- another equality fails the row, whatever bit the null leaves
    obtain ⟨eq, heq, hnull⟩ := hnull
    obtain ⟨other, hother, -, hnot, hne⟩ := h.told row hrow eq heq hnull
    have hfalse : eqs.all (t.slotBit row i) = false := by
      rw [List.all_eq_false]
      exact ⟨other, hother, by rw [hbit other hother hnot]; simpa using hne⟩
    rw [hfalse, holds, eq_comm, List.all_eq_false]
    exact ⟨other, hother, by simpa using hne⟩
  · rw [holds, Bool.eq_iff_iff, List.all_eq_true, List.all_eq_true]
    refine forall₂_congr fun eq heq => ?_
    rw [hbit eq heq fun hrow => hnull ⟨eq, heq, hrow⟩]

/-- Whether the row at a place of some rows holds some equalities. -/
def holdsAt (rows : List (ColumnName → Scalar)) (eqs : List Equality) (i : ℕ) : Bool :=
  rows[i]?.any (holds eqs)

theorem maskFor_eq {eqs : List Equality} (h : t.Comparable eqs)
    {rows : List (ColumnName → Scalar)} (hrows : ∀ row ∈ rows, row ∈ t.rows) :
    t.maskFor rows eqs = some ((List.range rows.length).map (holdsAt rows eqs)) := by
  refine conjoined_eq (b := fun eq place => t.slotBit place.1 place.2 eq) (fun _ => rfl)
    (fun eq heq rest mask => ?_) fun row hrow i => slotBits_eq h (hrows row hrow) i
  obtain ⟨type, htype, hvalue⟩ := h.castable eq heq
  rw [maskLoop, htype, Option.bind_some, hvalue]
  cases mask <;> rfl

/-! ### The compares -/

section Masked

variable {M : Type*} [MaskOps M] [LawfulMask M] {eqs : List Equality} {s : RowSelection}

theorem mem_of_mem_rowsAt {α : Type*} {base : List α} {ids : List ℕ} {a : α}
    (h : a ∈ rowsAt base ids) : a ∈ base := by
  obtain ⟨id, -, hid⟩ := List.mem_filterMap.mp h
  exact List.mem_of_getElem? hid

/-- The mask of the rows of a selection that hold some equalities keeps those rows. -/
theorem refine_mask_lists (hsmall : t.len ≤ usizeMax) (hs : s.Within t.len)
    {applied : List (ColumnName → Scalar)} (happlied : applied = rowsAt t.rows (s.listing t.len)) :
    Lists t.len (s.refine (fromIndices applied.length
        ((List.range applied.length).filter (holdsAt applied eqs)) : M))
      ((s.listing t.len).filter (passes t.cell eqs)) := by
  have hin : ∀ id ∈ s.listing t.len, id < t.rows.length := (listing_idsWithin hs).inBase
  have hlen : applied.length = (s.rows t.len).card := by
    rw [happlied, length_rowsAt hin, RowSelection.listing, Finset.length_sort]
  obtain ⟨narrowed, hsome, hwithin, hrows⟩ := @refine_selects _ M _ _ _ hsmall hs
    (fromIndices applied.length ((List.range applied.length).filter (holdsAt applied eqs)))
    (by rw [LawfulMask.len_fromIndices, len_eq_card hsmall hs, hlen])
  refine ⟨narrowed, hsome, hwithin, ?_⟩
  have hset : narrowed.rows t.len =
      (s.rows t.len).filter fun row => passes t.cell eqs row = true := by
    refine hrows.trans (Finset.filter_congr fun row hrow => ?_)
    have hrank : (s.listing t.len)[rank (s.rows t.len) row]? = some row :=
      sort_getElem?_iff.mpr ⟨hrow, rfl⟩
    have hlt : rank (s.rows t.len) row < applied.length := hlen ▸ rank_lt hrow
    obtain ⟨values, hvalues⟩ : ∃ values, t.rows[row]? = some values :=
      ⟨_, List.getElem?_eq_getElem (rows_lt hs hrow)⟩
    have hat : holdsAt applied eqs (rank (s.rows t.len) row) = passes t.cell eqs row := by
      rw [holdsAt, happlied, getElem?_rowsAt hin, hrank, Option.bind_some, hvalues, Option.any_some,
        passes_cell eqs hvalues]
    rw [LawfulMask.value_fromIndices _ _ _
      (fun k hk => List.mem_range.mp (List.mem_of_mem_filter hk))
      (Ascending.filter (List.sortedLT_range _) _) hlt, decide_eq_true_iff, List.mem_filter,
      List.mem_range, hat]
    exact and_iff_right hlt
  rw [RowSelection.listing, hset, sort_filter, RowSelection.listing]
  simp only [Bool.decide_eq_true]

theorem compared_lists (hsmall : t.len ≤ usizeMax) (h : t.Comparable eqs) (hs : s.Within t.len)
    (work : ℕ) : Lists t.len (t.compared M s eqs work)
      ((s.listing t.len).filter (passes t.cell eqs)) := by
  unfold compared
  cases htyped : t.typedResidualIds s eqs work with
  | some ids =>
    have hids : ids = (s.listing t.len).filter (passes t.cell eqs) := by
      unfold typedResidualIds at htyped
      dsimp only at htyped
      split_ifs at htyped
      split at htyped
      · cases htyped
      · split_ifs at htyped
        rw [← filterRows_eq hsmall hs]
        exact (Option.some_inj.mp htyped).symm
    subst hids
    exact lists_ids (idsWithin_filter hs _)
  | none =>
    have happlied : s.apply t.rows = some (rowsAt t.rows (s.listing t.len)) := apply_eq hsmall hs
    dsimp only
    rw [happlied]
    dsimp only
    rw [maskFor_eq h fun row hrow => mem_of_mem_rowsAt hrow, Option.bind_some, boolArrayToMask_map]
    exact refine_mask_lists hsmall hs rfl

variable {fl : FastLanes}

theorem filter_range' (start len : ℕ) (p : ℕ → Bool) :
    (((List.range len).filter fun k => p (start + k)).map fun k => start + k) =
      (List.range' start len).filter p := by
  rw [List.range'_eq_map_range, List.filter_map]
  rfl

/-- The offsets of a run's rows that hold a code, found on the encoding or decoded. -/
theorem offsetsOf_eq (ht : t.Sound fl) {field : ColumnName} {run : RowRange}
    (hrun : run.Within t.len) (htype : t.columns field = some .code) (code : ℕ) :
    ∃ offsets, t.offsetsOf fl field run code = some offsets ∧
      offsets.map (fun offset => run.start + offset) =
        run.toList.filter (passes t.cell [(field, .num code)]) := by
  obtain ⟨start, stop⟩ := run
  obtain ⟨hle, hin⟩ := hrun
  dsimp only at hle hin
  obtain ⟨len, rfl⟩ := Nat.exists_eq_add_of_le hle
  simp only [RowRange.toList, Nat.add_sub_cancel_left] at hin ⊢
  rw [← filter_range']
  have hpasses : ∀ i, passes t.cell [(field, .num code)] i = (t.cell field i == .num code) := by
    intro i
    simp [passes, holdsCell]
  unfold offsetsOf
  dsimp only
  rw [Nat.add_sub_cancel_left]
  cases hprobe : t.probes field with
  | some column =>
    obtain ⟨hformed, hlen, hvalue⟩ := ht.probed field column hprobe
    refine ⟨_, eqOffsets_eq hformed (by omega) code [], ?_⟩
    rw [List.nil_append, matchesFrom, List.map_map]
    refine congrArg₂ List.map (funext fun k => by simp) (List.filter_congr fun k hk => ?_)
    have hlt := List.mem_range.mp hk
    rw [hpasses, hvalue _ (by omega), Bool.eq_iff_iff, decide_eq_true_iff, beq_iff_eq,
      Scalar.num.injEq]
  | none =>
    dsimp only
    rw [if_pos htype, sliceOf_eq hle hin, Option.map_some, Nat.add_sub_cancel_left]
    refine ⟨_, rfl, congrArg _ ?_⟩
    -- a row beside its place is the row at that place
    have hplaces : ((t.rows.drop start).take len).zipIdx.map Prod.snd = List.range len := by
      have hlength : ((t.rows.drop start).take len).length = len := by
        rw [List.length_take, List.length_drop]
        exact min_eq_left (by change len ≤ t.len - start; omega)
      rw [List.zipIdx_map_snd, hlength, List.range_eq_range']
    rw [← hplaces, List.filter_map]
    refine congrArg _ (List.filter_congr fun place hplace => ?_)
    obtain ⟨row, k⟩ := place
    have hrow := List.mk_mem_zipIdx_iff_getElem?.mp hplace
    rw [List.getElem?_take, List.getElem?_drop] at hrow
    have hcell : t.rows[start + k]? = some row := by
      split_ifs at hrow
      exact hrow
    rw [Function.comp_apply, hpasses, cell, hcell]

theorem componentCompared_lists (ht : t.Sound fl) (hcomponent : t.component = true)
    (h : t.Comparable eqs) (hs : s.Within t.len) :
    Lists t.len (t.componentCompared fl M s eqs)
      ((s.listing t.len).filter (passes t.cell eqs)) := by
  have hwhole := compared_lists (M := M) ht.small h hs t.len
  unfold componentCompared
  cases hrows : s.asRows t.len with
  | ids l => exact hwhole
  | run run =>
    split
    · rename_i run' field code hrun
      obtain rfl : run = run' := SelectedRows.run.inj hrun
      obtain ⟨type, htype, -⟩ := h.castable _ List.mem_cons_self
      rw [ht.coded hcomponent _ _ htype] at htype
      obtain ⟨offsets, hoffsets, hmap⟩ :=
        offsetsOf_eq ht (asRows_run ht.small hs hrows).1 htype code
      rw [hoffsets, Option.map_some, hmap, ← listing_run ht.small hs hrows]
      exact lists_fromIds (idsWithin_filter hs _)
    · exact hwhole

end Masked

end ResidualTable

end Store
