/-
Row selections are a faithful set algebra.

* `SetAlgebra` — what every operation answers on a selection, read as the set of
  base rows it names;
* `Narrowing` — one narrowing of a view, with its meaning `Narrowing.cut` on
  sets;
* `Reordered` — two sequences of narrowings that differ by exchanges of
  neighbouring set-intersecting ones;
* `rowSelection_setAlgebra` — every operation is the set operation, and
  reordered sequences select the same rows.
-/
import VortexRdf.SelectionCuts

namespace Store

open Masks MaskOps Ascending

variable {M : Type*} [MaskOps M] {baseLen : ℕ}

/-- The operations of a selection, read on the set of base rows it names. -/
structure SetAlgebra (M : Type*) [MaskOps M] (baseLen : ℕ) (s : RowSelection) : Prop where
  len : s.len baseLen = (s.rows baseLen).card
  contains : ∀ row, row < baseLen → s.contains row = decide (row ∈ s.rows baseLen)
  intersectRange : ∀ r : RowRange, r.Within baseLen →
    Selects baseLen (s.intersectRange r) (s.rows baseLen ∩ r.rows)
  intersectIds : ∀ l, IdsWithin baseLen l →
    Selects baseLen (s.intersectIds l) (s.rows baseLen ∩ l.toFinset)
  intersectRuns : ∀ runs, RunsWithin baseLen runs →
    Selects baseLen (s.intersectRuns runs) (s.rows baseLen ∩ runRows runs)
  clipRuns_ids : ∀ l runs, s = .ids l → s.clipRuns runs = none
  clipRuns : (∀ l, s ≠ .ids l) → ∀ runs, RunsWithin baseLen runs →
    ∃ clipped, s.clipRuns runs = some clipped ∧ RunsWithin baseLen clipped ∧
      (∀ run ∈ clipped, run.start < run.stop) ∧
      runRows clipped = s.rows baseLen ∩ runRows runs
  filterRows : ∀ keep : ℕ → Bool, s.filterRows baseLen keep =
    ((s.rows baseLen).filter fun row => keep row = true).sort (· ≤ ·)
  narrowToIds : ∀ l : List RowId, l.SortedLT → l.toFinset ⊆ s.rows baseLen →
    Selects baseLen (some (s.narrowToIds l (s.len baseLen))) l.toFinset
  refine : ∀ keep : M, MaskOps.len keep = s.len baseLen → Selects baseLen (s.refine keep)
    ((s.rows baseLen).filter fun row => value keep (rank (s.rows baseLen) row) = true)
  window : ∀ offset limit, ∀ deleted : Option M, (∀ d ∈ deleted, MaskOps.len d = baseLen) →
    Selects baseLen (s.window offset limit deleted baseLen) (page offset limit
      (((s.rows baseLen).filter fun row => live deleted row = true).sort (· ≤ ·))).toFinset
  split : ∀ n, ∃ pieces, s.split n baseLen = some pieces ∧ SplitInto baseLen n s pieces
  toMask : MaskOps.len (s.toMask baseLen : M) = baseLen ∧ ∀ row, row < baseLen →
    value (s.toMask baseLen : M) row = decide (row ∈ s.rows baseLen)
  liveMask : ∀ deleted : M, MaskOps.len deleted = baseLen →
    MaskOps.len (s.liveMask deleted baseLen) = (s.rows baseLen).card ∧
    ∀ row ∈ s.rows baseLen,
      value (s.liveMask deleted baseLen) (rank (s.rows baseLen) row) = !value deleted row
  liveLen : ∀ deleted : Option M, (∀ d ∈ deleted, MaskOps.len d = baseLen) →
    s.liveLen deleted baseLen =
      ((s.rows baseLen).filter fun row => live deleted row = true).card

theorem setAlgebra [LawfulMask M] (hbase : baseLen ≤ usizeMax) {s : RowSelection}
    (hs : s.Within baseLen) : SetAlgebra M baseLen s where
  len := len_eq_card hbase hs
  contains row hrow := by
    rw [← Bool.coe_iff_coe, contains_iff hs hrow, decide_eq_true_iff]
  intersectRange _ hr := intersectRange_selects hs hr
  intersectIds _ hl := intersectIds_selects hs hl
  intersectRuns _ h := intersectRuns_selects hbase hs h
  clipRuns_ids l runs hl := by rw [hl]; rfl
  clipRuns hne runs h := by
    cases s with
    | all => exact ⟨_, rfl, clipRuns_spec hbase hs h rfl⟩
    | range r => exact ⟨_, rfl, clipRuns_spec hbase hs h rfl⟩
    | ids l => exact absurd rfl (hne l)
  filterRows keep := by
    rw [filterRows_eq hbase hs, sort_filter]
    simp [RowSelection.listing]
  narrowToIds _ hl hsub := narrowToIds_selects hbase hs hl hsub
  refine _ hlen := refine_selects hbase hs hlen
  window offset limit deleted _ := by
    have h := window_selects hbase hs offset limit deleted
    rw [sort_filter]
    simpa [RowSelection.liveListing, RowSelection.listing] using h
  split n := split_spec hbase hs n
  toMask := ⟨toMask_len, fun _ hrow => toMask_value hbase hs hrow⟩
  liveMask deleted hd := ⟨liveMask_len hbase hs hd, fun _ hrow =>
    liveMask_value hbase hs hd (sort_getElem?_iff.mpr ⟨hrow, rfl⟩)⟩
  liveLen _ hd := liveLen_eq hbase hs hd

/-! ### Sequences of narrowings -/

/-- A narrowing of a selection, with its argument. -/
inductive Narrowing (M : Type*) where
  | range (r : RowRange)
  | ids (l : List RowId)
  | runs (runs : List RowRange)
  /-- The rows that pass a test, by `filterRows` and `narrowToIds`. -/
  | passing (keep : ℕ → Bool)
  /-- The rows left live, by `liveMask` and `refine`. -/
  | live (deleted : M)
  | mask (keep : M)
  | window (offset limit : ℕ) (deleted : Option M)

namespace Narrowing

def apply (baseLen : ℕ) (s : RowSelection) : Narrowing M → Option RowSelection
  | range r => s.intersectRange r
  | ids l => s.intersectIds l
  | runs rs => s.intersectRuns rs
  | passing keep => some (s.narrowToIds (s.filterRows baseLen keep) (s.len baseLen))
  | live deleted => s.refine (s.liveMask deleted baseLen)
  | mask keep => s.refine keep
  | window offset limit deleted => s.window offset limit deleted baseLen

/-- The argument lies within the base, or within the rows narrowed. -/
def Fits (baseLen : ℕ) (rows : Finset ℕ) : Narrowing M → Prop
  | range r => r.Within baseLen
  | ids l => IdsWithin baseLen l
  | runs rs => RunsWithin baseLen rs
  | passing _ => True
  | live deleted => len deleted = baseLen
  | mask keep => len keep = rows.card
  | window _ _ deleted => ∀ d ∈ deleted, len d = baseLen

/-- What a narrowing leaves of a set of base rows. -/
def cut (rows : Finset ℕ) : Narrowing M → Finset ℕ
  | range r => rows ∩ r.rows
  | ids l => rows ∩ l.toFinset
  | runs rs => rows ∩ runRows rs
  | passing keep => rows.filter fun row => keep row = true
  | live deleted => rows.filter fun row => value deleted row = false
  | mask keep => rows.filter fun row => value keep (rank rows row) = true
  | window offset limit deleted => (page offset limit
      ((rows.filter fun row => Store.live deleted row = true).sort (· ≤ ·))).toFinset

/-- The narrowings that intersect with a set of their own. -/
def Intersects : Narrowing M → Prop
  | mask _ => False
  | window _ _ _ => False
  | _ => True

theorem apply_selects [LawfulMask M] (hbase : baseLen ≤ usizeMax) {s : RowSelection}
    (hs : s.Within baseLen) {n : Narrowing M} (hfits : n.Fits baseLen (s.rows baseLen)) :
    Selects baseLen (n.apply baseLen s) (n.cut (s.rows baseLen)) := by
  have h : SetAlgebra M baseLen s := setAlgebra hbase hs
  cases n with
  | range r => exact h.intersectRange r hfits
  | ids l => exact h.intersectIds l hfits
  | runs rs => exact h.intersectRuns rs hfits
  | passing keep =>
    have hrows : (s.filterRows baseLen keep).toFinset =
        (s.rows baseLen).filter fun row => keep row = true := by
      rw [h.filterRows, Finset.sort_toFinset]
    rw [apply, cut, ← hrows]
    refine h.narrowToIds _ ?_ (hrows ▸ Finset.filter_subset _ _)
    rw [h.filterRows]
    exact Finset.sortedLT_sort _
  | live deleted =>
    have hlen : MaskOps.len (s.liveMask deleted baseLen) = s.len baseLen := by
      rw [(h.liveMask deleted hfits).1, h.len]
    have hcut : cut (s.rows baseLen) (live deleted) = (s.rows baseLen).filter fun row =>
        value (s.liveMask deleted baseLen) (rank (s.rows baseLen) row) = true := by
      refine Finset.filter_congr fun row hrow => ?_
      rw [(h.liveMask deleted hfits).2 row hrow]
      simp
    rw [apply, hcut]
    exact h.refine _ hlen
  | mask keep => exact h.refine keep (by rw [h.len]; exact hfits)
  | window offset limit deleted => exact h.window offset limit deleted hfits

/-- An intersecting narrowing tests each row by itself. -/
theorem cut_of_intersects {n : Narrowing M} (h : n.Intersects) :
    ∃ keeps : ℕ → Prop, ∀ rows : Finset ℕ, ∀ row, row ∈ n.cut rows ↔ row ∈ rows ∧ keeps row := by
  cases n with
  | range r => exact ⟨(· ∈ r.rows), fun _ _ => Finset.mem_inter⟩
  | ids l => exact ⟨(· ∈ l.toFinset), fun _ _ => Finset.mem_inter⟩
  | runs rs => exact ⟨(· ∈ runRows rs), fun _ _ => Finset.mem_inter⟩
  | passing keep => exact ⟨fun row => keep row = true, fun _ _ => Finset.mem_filter⟩
  | live deleted => exact ⟨fun row => value deleted row = false, fun _ _ => Finset.mem_filter⟩
  | mask keep => exact absurd h id
  | window offset limit deleted => exact absurd h id

theorem cut_comm {a b : Narrowing M} (ha : a.Intersects) (hb : b.Intersects)
    (rows : Finset ℕ) : b.cut (a.cut rows) = a.cut (b.cut rows) := by
  obtain ⟨keepsA, hA⟩ := cut_of_intersects ha
  obtain ⟨keepsB, hB⟩ := cut_of_intersects hb
  ext row
  rw [hB, hA, hA, hB]
  tauto

/-- What an intersecting narrowing asks of its argument does not depend on the
rows narrowed. -/
theorem fits_of_intersects {n : Narrowing M} (h : n.Intersects) {rows rows' : Finset ℕ}
    (hfits : n.Fits baseLen rows) : n.Fits baseLen rows' := by
  cases n with
  | mask keep => exact absurd h id
  | window offset limit deleted => exact absurd h id
  | _ => exact hfits

end Narrowing

open Narrowing

/-- A run of narrowings over a selection. -/
def narrow (baseLen : ℕ) (s : RowSelection) (ns : List (Narrowing M)) : Option RowSelection :=
  ns.foldlM (apply baseLen) s

def cuts (rows : Finset ℕ) (ns : List (Narrowing M)) : Finset ℕ := ns.foldl cut rows

/-- Every argument of the run fits the rows it narrows. -/
def AllFit (baseLen : ℕ) : Finset ℕ → List (Narrowing M) → Prop
  | _, [] => True
  | rows, n :: ns => n.Fits baseLen rows ∧ AllFit baseLen (n.cut rows) ns

inductive Reordered : List (Narrowing M) → List (Narrowing M) → Prop
  | refl (ns) : Reordered ns ns
  | swap (before : List (Narrowing M)) {a b : Narrowing M} (after : List (Narrowing M))
      (ha : a.Intersects) (hb : b.Intersects) :
      Reordered (before ++ a :: b :: after) (before ++ b :: a :: after)
  | trans {ns ns' ns'' : List (Narrowing M)} :
      Reordered ns ns' → Reordered ns' ns'' → Reordered ns ns''

theorem narrow_selects [LawfulMask M] (hbase : baseLen ≤ usizeMax) {s : RowSelection}
    (hs : s.Within baseLen) {ns : List (Narrowing M)} (hfit : AllFit baseLen (s.rows baseLen) ns) :
    Selects baseLen (narrow baseLen s ns) (cuts (s.rows baseLen) ns) := by
  induction ns generalizing s with
  | nil => exact ⟨s, rfl, hs, rfl⟩
  | cons n ns ih =>
    obtain ⟨hn, hns⟩ := hfit
    obtain ⟨s', hs', hwithin, hrows⟩ := apply_selects hbase hs hn
    rw [← hrows] at hns
    have hrest := ih hwithin hns
    rw [narrow, List.foldlM_cons, hs', cuts, List.foldl_cons, ← hrows]
    exact hrest

theorem allFit_append {rows : Finset ℕ} {before after : List (Narrowing M)} :
    AllFit baseLen rows (before ++ after) ↔
      AllFit baseLen rows before ∧ AllFit baseLen (cuts rows before) after := by
  induction before generalizing rows with
  | nil => simp [AllFit, cuts]
  | cons n before ih =>
    rw [List.cons_append, AllFit, AllFit, ih, and_assoc]
    rfl

theorem Reordered.cuts_eq {ns ns' : List (Narrowing M)} (h : Reordered ns ns') (rows : Finset ℕ) :
    cuts rows ns' = cuts rows ns := by
  induction h with
  | refl => rfl
  | swap before after ha hb =>
    simp only [cuts, List.foldl_append, List.foldl_cons]
    rw [cut_comm hb ha]
  | trans _ _ ih ih' => exact ih'.trans ih

theorem Reordered.allFit {ns ns' : List (Narrowing M)} (h : Reordered ns ns') {rows : Finset ℕ}
    (hfit : AllFit baseLen rows ns) : AllFit baseLen rows ns' := by
  induction h with
  | refl => exact hfit
  | swap before after ha hb =>
    rw [allFit_append] at hfit ⊢
    obtain ⟨hbefore, hfitA, hfitB, hafter⟩ := hfit
    refine ⟨hbefore, fits_of_intersects hb hfitB, fits_of_intersects ha hfitA, ?_⟩
    rwa [cut_comm hb ha]
  | trans _ _ ih ih' => exact ih' (ih hfit)

/-- Over every base, the operations of a selection within it are those of the
set of rows it names, and reordering set-intersecting narrowings of a run changes
nothing. -/
theorem rowSelection_setAlgebra (M : Type*) [MaskOps M] [LawfulMask M]
    (hbase : baseLen ≤ usizeMax) {s : RowSelection} (hs : s.Within baseLen) :
    SetAlgebra M baseLen s ∧
    ∀ ns ns' : List (Narrowing M), AllFit baseLen (s.rows baseLen) ns → Reordered ns ns' →
      Selects baseLen (narrow baseLen s ns) (cuts (s.rows baseLen) ns) ∧
      Selects baseLen (narrow baseLen s ns') (cuts (s.rows baseLen) ns) := by
  refine ⟨setAlgebra hbase hs, fun ns ns' hfit hre => ⟨narrow_selects hbase hs hfit, ?_⟩⟩
  rw [← hre.cuts_eq]
  exact narrow_selects hbase hs (hre.allFit hfit)

/-- A range out of seven base rows, under masks that are their bits. -/
theorem rowSelection_setAlgebra_range :
    SetAlgebra BitMask 7 (.range ⟨1, 5⟩) ∧
    ∀ ns ns' : List (Narrowing BitMask), AllFit 7 ((RowSelection.range ⟨1, 5⟩).rows 7) ns →
      Reordered ns ns' →
      Selects 7 (narrow 7 (.range ⟨1, 5⟩) ns) (cuts ((RowSelection.range ⟨1, 5⟩).rows 7) ns) ∧
      Selects 7 (narrow 7 (.range ⟨1, 5⟩) ns') (cuts ((RowSelection.range ⟨1, 5⟩).rows 7) ns) :=
  rowSelection_setAlgebra BitMask (by decide) ⟨by decide, by decide⟩

end Store
