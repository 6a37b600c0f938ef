/-
A view's live rows, gathered.

The one place the in-memory reads turn a selection and its tombstones into rows:
point by point through the columns' probes when the rows are few and every column
has one, else a slice or a take followed by a filter.

* `RowSelection.apply`, `gatherLive` — the reads, under the source's names;
* `rowsAt` — the rows of a base at some ids;
* `apply_eq`, `gatherLive_eq` — each reads the rows of the selection, or its live
  rows, in base order.
-/
import VortexRdf.SelectionCuts

namespace Store

open Masks MaskOps Buffers Ascending

def POINT_GATHER_MAX_ROWS : ℕ := 256

def pointSized (rows : ℕ) : Bool := decide (rows ≤ POINT_GATHER_MAX_ROWS)

variable {α : Type*} {M : Type*} [MaskOps M]

/-- The rows of a base at some row ids, in their order. -/
def rowsAt (base : List α) (ids : List RowId) : List α := ids.filterMap fun id => base[id]?

/-- The rows of an array its mask keeps. -/
def filterBy (rows : List α) (keep : M) : List α :=
  (rows.zipIdx.filter fun place => value keep place.2).map Prod.fst

namespace RowSelection

/-- The selected rows; `none` is a slice or a take out of the base's bounds. -/
def apply (s : RowSelection) (base : List α) : Option (List α) :=
  match s with
  | all => some base
  | range r =>
    let r := clamped r base.length
    sliceOf base r.start r.stop
  | ids l => l.mapM fun id => base[id]?

def isPointSized : RowSelection → Bool
  | all => false
  | range r => pointSized (r.stop - r.start)
  | ids l => pointSized l.length

def pointSizedLiveRows (s : RowSelection) (deleted : Option M) (baseLen : ℕ) :
    Option (List RowId) :=
  if s.isPointSized then
    some (s.filterRows baseLen fun id => deleted.all fun d => !value d id)
  else none

end RowSelection

/-- The live rows read point by point, where every column is `probed`. -/
def gatherByPointReads (base : List α) (s : RowSelection) (deleted : Option M) (probed : Bool) :
    Option (Option (List α)) :=
  match s.pointSizedLiveRows deleted base.length with
  | none => some none
  | some live => if probed then (live.mapM fun id => base[id]?).map some else some none

/-- The selected rows less the tombstoned ones, filtered where there are any. -/
def dropDeleted (rows : List α) (s : RowSelection) (deleted : Option M) (baseLen : ℕ) : List α :=
  match deleted with
  | none => rows
  | some deleted =>
    let live : M := s.liveMask deleted baseLen
    match indices live with
    | .all => rows
    | _ => filterBy rows live

def gatherLive (base : List α) (s : RowSelection) (deleted : Option M) (probed : Bool) :
    Option (List α) :=
  match gatherByPointReads base s deleted probed with
  | none => none
  | some (some rows) => some rows
  | some none => (s.apply base).map fun rows => dropDeleted rows s deleted base.length

/-! ### Rows at ids -/

variable {base : List α} {s : RowSelection}

theorem mapM_rowsAt {ids : List RowId} (h : ∀ id ∈ ids, id < base.length) :
    (ids.mapM fun id => base[id]?) = some (rowsAt base ids) := by
  induction ids with
  | nil => rfl
  | cons id ids ih =>
    have hid := List.getElem?_eq_getElem (h id List.mem_cons_self)
    rw [List.mapM_cons, ih fun id' h' => h id' (List.mem_cons_of_mem _ h'), hid, rowsAt, rowsAt,
      List.filterMap_cons_some hid]
    rfl

theorem rowsAt_range' (base : List α) {start n : ℕ} (h : start + n ≤ base.length) :
    rowsAt base (List.range' start n) = (base.drop start).take n := by
  induction n generalizing start with
  | zero => simp [rowsAt]
  | succ n ih =>
    have hlt : start < base.length := by omega
    rw [List.range'_succ, rowsAt, List.filterMap_cons_some (List.getElem?_eq_getElem hlt), ← rowsAt,
      ih (by omega), List.drop_eq_getElem_cons hlt, List.take_succ_cons]

theorem rowsAt_append (base : List α) (ids ids' : List RowId) :
    rowsAt base (ids ++ ids') = rowsAt base ids ++ rowsAt base ids' := List.filterMap_append

theorem length_rowsAt {ids : List RowId} (h : ∀ id ∈ ids, id < base.length) :
    (rowsAt base ids).length = ids.length := by
  induction ids with
  | nil => rfl
  | cons id ids ih =>
    have hid := List.getElem?_eq_getElem (h id List.mem_cons_self)
    rw [rowsAt, List.filterMap_cons_some hid, ← rowsAt, List.length_cons, List.length_cons,
      ih fun id' h' => h id' (List.mem_cons_of_mem _ h')]

theorem getElem?_rowsAt {ids : List RowId} (h : ∀ id ∈ ids, id < base.length) (i : ℕ) :
    (rowsAt base ids)[i]? = ids[i]?.bind fun id => base[id]? := by
  induction ids generalizing i with
  | nil => rfl
  | cons id ids ih =>
    have hid := List.getElem?_eq_getElem (h id List.mem_cons_self)
    rw [rowsAt, List.filterMap_cons_some hid, ← rowsAt]
    cases i with
    | zero => exact hid.symm
    | succ i => exact ih (fun id' h' => h id' (List.mem_cons_of_mem _ h')) i

theorem liveListing_none (s : RowSelection) (baseLen : ℕ) :
    s.liveListing (none : Option M) baseLen = s.listing baseLen :=
  List.filter_eq_self.mpr fun _ _ => rfl

/-- Every row of a base. -/
theorem rowsAt_all (hbase : base.length ≤ usizeMax) :
    rowsAt base (RowSelection.all.listing base.length) = base := by
  have hlisting := @listing_run base.length _ .all hbase trivial rfl
  rw [hlisting, RowRange.toList, Nat.sub_zero, rowsAt_range' _ (by simp)]
  simp

/-! ### The selected rows -/

theorem apply_eq (hbase : base.length ≤ usizeMax) (hs : s.Within base.length) :
    s.apply base = some (rowsAt base (s.listing base.length)) := by
  have hlisting := listing_idsWithin hs
  unfold RowSelection.apply
  cases s with
  | all =>
    rw [rowsAt_all hbase]
  | range r =>
    rw [listing_run hbase hs rfl]
    dsimp only
    rw [clamped_eq hbase hs, sliceOf_eq hs.ordered hs.inBase, RowRange.toList, rowsAt_range']
    have := hs.ordered
    have := hs.inBase
    omega
  | ids l =>
    rw [listing_ids hs rfl] at hlisting ⊢
    exact mapM_rowsAt hlisting.inBase

/-! ### The live rows -/

/-- A mask over the rows of some ids filters the rows as the ids. -/
theorem filterBy_rowsAt {ids : List RowId} (h : ∀ id ∈ ids, id < base.length) {keep : M}
    {p : RowId → Bool} (hkeep : ∀ i id, ids[i]? = some id → value keep i = p id) :
    filterBy (rowsAt base ids) keep = rowsAt base (ids.filter p) := by
  induction ids using List.reverseRecOn with
  | nil => rfl
  | append_singleton ids id ih =>
    have hids : ∀ id ∈ ids, id < base.length := fun id' h' =>
      h id' (List.mem_append_left _ h')
    have hlt : id < base.length := h id (by simp)
    have hid : base[id]? = some base[id] := List.getElem?_eq_getElem hlt
    have hone : rowsAt base [id] = [base[id]] := by rw [rowsAt, List.filterMap_cons_some hid]; rfl
    have hrest : filterBy (rowsAt base ids) keep = rowsAt base (ids.filter p) := by
      refine ih hids fun i id' hi => hkeep i id' ?_
      rw [List.getElem?_append_left (List.getElem?_eq_some_iff.mp hi).1]
      exact hi
    have hplace : value keep ids.length = p id := hkeep _ _ (by simp)
    rw [rowsAt_append, hone, filterBy, List.zipIdx_append, List.filter_append, List.map_append,
      ← filterBy, hrest, List.filter_append, rowsAt_append, length_rowsAt hids]
    congr 1
    by_cases hp : p id = true
    · simp [hplace, hp, hone]
    · simp [hplace, hp, rowsAt]

variable [LawfulMask M]

theorem dropDeleted_eq (hbase : base.length ≤ usizeMax) (hs : s.Within base.length)
    {deleted : Option M} (hdeleted : ∀ d ∈ deleted, MaskOps.len d = base.length) :
    dropDeleted (rowsAt base (s.listing base.length)) s deleted base.length =
      rowsAt base (s.liveListing deleted base.length) := by
  have hin := (listing_idsWithin hs).inBase
  cases deleted with
  | none =>
    rw [dropDeleted, liveListing_none]
  | some d =>
    have hlen := liveMask_len hbase hs (hdeleted d rfl)
    have hvalue : ∀ i id, (s.listing base.length)[i]? = some id →
        value (s.liveMask d base.length) i = live (some d) id :=
      fun i id hi => liveMask_value hbase hs (hdeleted d rfl) hi
    unfold dropDeleted
    dsimp only
    cases hind : indices (s.liveMask d base.length) with
    | all =>
      have hall : s.liveListing (some d) base.length = s.listing base.length := by
        refine List.filter_eq_self.mpr fun id hid => ?_
        obtain ⟨i, hi⟩ := List.mem_iff_getElem?.mp hid
        have hlt : i < (s.rows base.length).card := by
          rw [← Finset.length_sort (· ≤ ·)]
          exact (List.getElem?_eq_some_iff.mp hi).1
        rw [← hvalue i id hi]
        exact LawfulMask.indices_all _ hind _ (hlen ▸ hlt)
      rw [hall]
    | none => exact filterBy_rowsAt hin hvalue
    | some places => exact filterBy_rowsAt hin hvalue

theorem gatherLive_eq (hbase : base.length ≤ usizeMax) (hs : s.Within base.length)
    {deleted : Option M} (hdeleted : ∀ d ∈ deleted, MaskOps.len d = base.length) (probed : Bool) :
    gatherLive base s deleted probed = some (rowsAt base (s.liveListing deleted base.length)) := by
  have hlive : ∀ id ∈ s.liveListing deleted base.length, id < base.length :=
    fun id hid => (listing_idsWithin hs).inBase id (List.mem_of_mem_filter hid)
  have hfilter : (s.filterRows base.length fun id => deleted.all fun d => !value d id) =
      s.liveListing deleted base.length := filterRows_eq hbase hs _
  unfold gatherLive gatherByPointReads RowSelection.pointSizedLiveRows
  rw [apply_eq hbase hs, Option.map_some, dropDeleted_eq hbase hs hdeleted, hfilter]
  cases hpoint : s.isPointSized with
  | false => rfl
  | true =>
    rw [if_pos rfl]
    cases probed with
    | false => rfl
    | true =>
      dsimp only
      rw [if_pos rfl, mapM_rowsAt hlive]
      rfl

end Store
