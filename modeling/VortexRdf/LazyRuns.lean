/-
Runs of calls on lazily resolved row ids, in memory and on file.

A resolution's row ids are shared by every clone of a view, and whoever asks first leaves
what it found in their cells.  Until the ids are found, a checked run may know its matches
as a lower bound, and a file child's ids are not counted without reading them, a located
run's width apart.

* `FileRowIds` — the ids of a file's index child, read by the first reader;
* `RowIds`, `IdsCall`, `call` — the ids of either kind, and the calls on them;
* `exactAnswer` — what a call answers on the checked ids in base order;
* `found`, `finds` — the ids are found before a call, and by it;
* `call_spec` — one call keeps the cells right, and answers exactly once they are found;
* `lazy_ids_answer_as_materialized` — a run of calls in any order.
-/
import VortexRdf.RidReads

namespace Indexes

open Ascending Buffers Builds Dictionary Masks MaskOps Terms
open EncodedSearch (ColumnChunks FastLanes)
open Store hiding Row

/-! ### Ids on file -/

/-- The row ids of a resolution over a file's index child. -/
inductive FileRowIds where
  /-- A scan of the child under some equalities; the run they select, where it is located. -/
  | indexChild (child : ChildReader) (constraints : List Equality) (located : Option RowRange)
      (sorted : Option (List RowId))
  /-- A located run of the child. -/
  | locatedRun (child : ChildReader) (range : RowRange) (ascending : Bool)
      (sorted : Option (List RowId))

namespace FileRowIds

variable (fl : FastLanes)

/-- Where the ids in base order are kept. -/
def sortedCell : FileRowIds → Option (List RowId)
  | indexChild _ _ _ sorted | locatedRun _ _ _ sorted => sorted

def fromLocatedRun (child : ChildReader) (range : RowRange) (ascending : Bool) : FileRowIds :=
  .locatedRun child range ascending none

/-- The ids in base order, read on the first call. -/
def materializedAsync : FileRowIds → Option (List RowId × FileRowIds)
  | indexChild child constraints located sorted =>
    match sorted with
    | some ids => some (ids, indexChild child constraints located sorted)
    | none => (scanIndexRowIds child constraints).map fun ids =>
        (ids, indexChild child constraints located (some ids))
  | locatedRun child range ascending sorted =>
    match sorted with
    | some ids => some (ids, locatedRun child range ascending sorted)
    | none => (readLocatedRids fl child range).map fun ids =>
        (ids, locatedRun child range ascending (some ids))

/-- How many rows the ids cover, when known without reading. -/
def lenIfKnown : FileRowIds → Option ℕ
  | indexChild _ _ located sorted =>
    sorted.map List.length <|> located.map fun run => run.stop - run.start
  | locatedRun _ range _ _ => some (range.stop - range.start)

/-- The ids of a window of a located run whose ids ascend; none for other ids. -/
def window (offset limit : ℕ) : FileRowIds → Option (Option (List RowId))
  | indexChild _ _ _ _ => some none
  | locatedRun child range ascending _ =>
    if ascending then
      match windowRows offset limit (range.stop - range.start) with
      | some rows =>
        (readLocatedRids fl child ⟨range.start + rows.start, range.start + rows.stop⟩).map some
      | none => some (some [])
    else some none

def windowWithLive (offset limit : ℕ) (lazy : FileRowIds) : Option (Option (List RowId × Live)) :=
  match lazy.lenIfKnown with
  | none => some none
  | some live => (lazy.window fl offset limit).map fun found =>
      found.map fun page => (page, .exact live)

/-- How many of the ids a mask leaves live, once they are read. -/
def liveLenWithoutIo {M : Type*} [MaskOps M] (deleted : M) (lazy : FileRowIds) : Option ℕ :=
  lazy.sortedCell.map fun ids => (ids.filter fun id => !value deleted id).length

/-- The ids of a child's table a recipe reads, in the child's order. -/
inductive Reads (fl : FastLanes) (ids : List RowId) : FileRowIds → Prop
  | indexChild {child : ChildReader} {constraints : List Equality} {located : Option RowRange}
      {sorted : Option (List RowId)} (table : RidTable) (reads : child.ReadsRids fl table)
      (some_asked : constraints ≠ []) (asked : ∀ eq ∈ constraints, table.asks eq)
      (ids_eq : ids = table.ridsAt (table.holdingRows constraints))
      (located_eq : ∀ run ∈ located, run.toList = table.holdingRows constraints)
      (sorted_kept : Kept sorted (inOrder ids)) :
      Reads fl ids (.indexChild child constraints located sorted)
  | locatedRun {child : ChildReader} {range : RowRange} {ascending : Bool}
      {sorted : Option (List RowId)} (table : RidTable) (reads : child.ReadsRids fl table)
      (within : range.Within table.rids.length) (some_row : range.start < range.stop)
      (ids_eq : ids = table.ridsAt range.toList) (ascends : ascending = true → ids.SortedLT)
      (sorted_kept : Kept sorted (inOrder ids)) :
      Reads fl ids (.locatedRun child range ascending sorted)

end FileRowIds

/-! ### Calls -/

/-- The row ids of an index resolution. -/
inductive RowIds where
  | memory (lazy : LazyRowIds)
  | file (lazy : FileRowIds)

/-- A call on the ids; a live length is under some tombstones. -/
inductive IdsCall (M : Type) where
  | count
  | countCapped (limit : ℕ)
  | window (offset limit : ℕ)
  | windowWithLive (offset limit : ℕ)
  | liveLen (deleted : M)
  | runOrder
  | materialized

/-- What a call gives; a reader that gets none answers another way. -/
inductive IdsAnswer where
  | count (n : Option ℕ)
  | ids (ids : Option (List RowId))
  | windowed (found : Option (List RowId × Live))

namespace LazyRowIds

variable (fl : FastLanes) (M : Type) [MaskOps M]

/-- The ids in the component's order, found once; a narrowed view's as they were handed over. -/
def runOrder : LazyRowIds → Option (List RowId × LazyRowIds)
  | component run => some (run.runOrderIds.1, component run.runOrderIds.2)
  | checked run => (run.runOrderIds fl M).map fun found => (found.1, checked found.2)
  | unsorted ids sorted => some (ids, unsorted ids sorted)

def call (lazy : LazyRowIds) : IdsCall M → Option (IdsAnswer × LazyRowIds)
  | .count => (lazy.count fl M).map fun found => (.count found.1, found.2)
  | .countCapped limit => (lazy.countCapped fl M limit).map fun found => (.count found, lazy)
  | .window offset limit => (lazy.window fl M offset limit).map fun found => (.ids found, lazy)
  | .windowWithLive offset limit =>
    (lazy.windowWithLive fl M offset limit).map fun found => (.windowed found, lazy)
  | .liveLen deleted =>
    (lazy.liveLenWithoutIo fl M deleted).map fun found => (.count found.1, found.2)
  | .runOrder => (lazy.runOrder fl M).map fun found => (.ids (some found.1), found.2)
  | .materialized => (lazy.materialized fl M).map fun found => (.ids (some found.1), found.2)

end LazyRowIds

def FileRowIds.call {M : Type} [MaskOps M] (fl : FastLanes) (lazy : FileRowIds) :
    IdsCall M → Option (IdsAnswer × FileRowIds)
  | .count => some (.count lazy.lenIfKnown, lazy)
  | .countCapped _ => some (.count none, lazy)
  | .window offset limit => (lazy.window fl offset limit).map fun found => (.ids found, lazy)
  | .windowWithLive offset limit =>
    (lazy.windowWithLive fl offset limit).map fun found => (.windowed found, lazy)
  | .liveLen deleted => some (.count (lazy.liveLenWithoutIo deleted), lazy)
  | .runOrder => some (.ids none, lazy)
  | .materialized => (lazy.materializedAsync fl).map fun found => (.ids (some found.1), found.2)

namespace RowIds

variable (fl : FastLanes) {M : Type} [MaskOps M]

/-- A call: what it gives, and the ids with what it left in their cells. -/
def call (lazy : RowIds) (c : IdsCall M) : Option (IdsAnswer × RowIds) :=
  match lazy with
  | memory lazy => (lazy.call fl M c).map fun done => (done.1, memory done.2)
  | file lazy => (lazy.call fl c).map fun done => (done.1, file done.2)

/-- Some calls one after another, each on what the ones before left. -/
def calls (lazy : RowIds) : List (IdsCall M) → Option (List IdsAnswer × RowIds)
  | [] => some ([], lazy)
  | c :: rest =>
    (lazy.call fl c).bind fun done =>
      (calls done.2 rest).map fun rest => (done.1 :: rest.1, rest.2)

/-- What the ids are a recipe of: right cells over the run's ids. -/
def Holds (M : Type) [MaskOps M] (ids : List RowId) : RowIds → Prop
  | memory lazy => lazy.Holds fl M ids
  | file lazy => lazy.Reads fl ids

end RowIds

/-! ### Exact answers -/

namespace RowIds

/-- Whether a window of the run is the same window of its ids in base order. -/
def ascends : RowIds → Bool
  | memory (.component run) => run.ascending
  | memory (.checked run) => run.ascending
  | memory (.unsorted _ _) => false
  | file (.indexChild _ _ _ _) => false
  | file (.locatedRun _ _ ascending _) => ascending

def isChecked : RowIds → Bool
  | memory (.checked _) => true
  | _ => false

/-- Whether the ids are those of a narrowed view. -/
def isNarrowed : RowIds → Bool
  | memory (.unsorted _ _) => true
  | _ => false

def inMemory : RowIds → Bool
  | memory _ => true
  | file _ => false

/-- What a call answers on the checked ids, `ids` in the run's order. -/
def exactAnswer {M : Type} [MaskOps M] (lazy : RowIds) (ids : List RowId) : IdsCall M → IdsAnswer
  | .count => .count (some (inOrder ids).length)
  | .countCapped limit =>
    .count (if lazy.isChecked then some (min (inOrder ids).length limit) else none)
  | .window offset limit =>
    .ids (if lazy.ascends then some (page offset limit (inOrder ids)) else none)
  | .windowWithLive offset limit =>
    .windowed (if lazy.ascends then
      some (page offset limit (inOrder ids), .exact (inOrder ids).length) else none)
  | .liveLen deleted => .count (some ((inOrder ids).filter fun id => !value deleted id).length)
  | .runOrder => .ids (if lazy.inMemory then some ids else none)
  | .materialized => .ids (some (inOrder ids))

/-- The recipe with nothing found. -/
def fresh : RowIds → RowIds
  | memory (.component run) => memory (.component (.new run.rids run.ascending))
  | memory (.checked run) => memory (.checked (.new run.rids run.ascending run.check))
  | memory (.unsorted ids _) => memory (.unsorted ids none)
  | file (.indexChild child constraints located _) =>
    file (.indexChild child constraints located none)
  | file (.locatedRun child range ascending _) => file (.locatedRun child range ascending none)

/-- Whether the ids are found; those of an unchecked run in memory always are. -/
def found : RowIds → Bool
  | memory (.checked run) => (run.sorted <|> run.runOrder).isSome
  | memory _ => true
  | file lazy => lazy.sortedCell.isSome

/-- Whether a call finds the ids. -/
def finds {M : Type} (lazy : RowIds) : IdsCall M → Bool
  | .materialized => true
  | .liveLen _ | .runOrder => lazy.inMemory
  | _ => false

/-- Whether a call's answer is left open until the ids are found: the matches a checked run
has beside a window, the live length of a file child's ids, the count of an unlocated one's. -/
def leavesOpen {M : Type} : RowIds → IdsCall M → Bool
  | memory (.checked run), .windowWithLive _ _ => run.ascending
  | file (.indexChild _ _ none _), .count => true
  | file _, .liveLen _ => true
  | _, _ => false

end RowIds

/-- An open answer: nothing is known, or the matches beside a page are as many or more. -/
def IdsAnswer.OpenOf : IdsAnswer → IdsAnswer → Prop
  | .count none, .count (some _) => True
  | .windowed (some (rows, .atLeast k)), .windowed (some (rows', .exact n)) => rows = rows' ∧ k ≤ n
  | _, _ => False

/-! ### What a call leaves -/

section Kept

variable {fl : FastLanes} {M : Type} [MaskOps M]

theorem ComponentRun.runOrderIds_recipe (run : ComponentRun) :
    run.runOrderIds.2.rids = run.rids ∧ run.runOrderIds.2.ascending = run.ascending := by
  rw [ComponentRun.runOrderIds]
  cases run.runOrder with
  | some ids => exact ⟨rfl, rfl⟩
  | none => exact ⟨rfl, rfl⟩

theorem CheckedRun.counted_recipe {run run' : CheckedRun} {n : ℕ}
    (h : run.counted fl M = some (n, run')) : run' = { run with count := run'.count } := by
  rw [CheckedRun.counted] at h
  cases hknown : run.knownLen with
  | some known =>
    rw [hknown] at h
    obtain ⟨-, rfl⟩ := Prod.mk.inj (Option.some.inj h)
    rfl
  | none =>
    rw [hknown] at h
    obtain ⟨count, -, hcount⟩ := Option.map_eq_some_iff.mp h
    obtain ⟨-, rfl⟩ := Prod.mk.inj hcount
    rfl

/-- Finding the ids in run order leaves them in their cell. -/
theorem CheckedRun.runOrderIds_recipe {run run' : CheckedRun} {ids : List RowId}
    (h : run.runOrderIds fl M = some (ids, run')) : run' = { run with runOrder := some ids } := by
  rw [CheckedRun.runOrderIds] at h
  cases hcell : run.runOrder with
  | some found =>
    rw [hcell] at h
    obtain ⟨rfl, rfl⟩ := Prod.mk.inj (Option.some.inj h)
    rw [← hcell]
  | none =>
    rw [hcell] at h
    obtain ⟨found, -, hfound⟩ := Option.map_eq_some_iff.mp h
    obtain ⟨rfl, rfl⟩ := Prod.mk.inj hfound
    rfl

/-- What a call leaves: the same recipe, found when it was or when the call finds it. -/
def RowIds.Leaves (lazy : RowIds) (c : IdsCall M) (kept : RowIds) : Prop :=
  kept.fresh = lazy.fresh ∧ kept.found = (lazy.found || lazy.finds c)

omit [MaskOps M] in
theorem ComponentRun.leaves {run run' : ComponentRun} (c : IdsCall M) (hrids : run'.rids = run.rids)
    (hascending : run'.ascending = run.ascending) :
    (RowIds.memory (.component run)).Leaves c (.memory (.component run')) :=
  ⟨by rw [RowIds.fresh, RowIds.fresh, hrids, hascending], rfl⟩

variable {c : IdsCall M} {a : IdsAnswer} {kept : LazyRowIds}

theorem ComponentRun.call_leaves {run : ComponentRun}
    (h : (LazyRowIds.component run).call fl M c = some (a, kept)) :
    (RowIds.memory (.component run)).Leaves c (.memory kept) := by
  have hrecipe := run.runOrderIds_recipe
  cases c with
  | count | countCapped limit =>
    obtain ⟨-, rfl⟩ := Prod.mk.inj (Option.some.inj h)
    exact ComponentRun.leaves _ rfl rfl
  | window offset limit | windowWithLive offset limit =>
    obtain ⟨found, -, hfound⟩ := Option.map_eq_some_iff.mp h
    obtain ⟨-, rfl⟩ := Prod.mk.inj hfound
    exact ComponentRun.leaves _ rfl rfl
  | liveLen deleted =>
    obtain ⟨-, rfl⟩ := Prod.mk.inj (Option.some.inj h)
    dsimp only
    cases run.sorted with
    | some ids => exact ComponentRun.leaves _ rfl rfl
    | none => exact ComponentRun.leaves _ hrecipe.1 hrecipe.2
  | runOrder =>
    obtain ⟨-, rfl⟩ := Prod.mk.inj (Option.some.inj h)
    exact ComponentRun.leaves _ hrecipe.1 hrecipe.2
  | materialized =>
    obtain ⟨found, hfound, hkept⟩ := Option.map_eq_some_iff.mp h
    obtain ⟨-, rfl⟩ := Prod.mk.inj hkept
    rw [LazyRowIds.materialized] at hfound
    cases hcell : run.sorted with
    | some ids =>
      rw [hcell] at hfound
      rw [← Option.some.inj hfound]
      exact ComponentRun.leaves _ rfl rfl
    | none =>
      rw [hcell] at hfound
      obtain ⟨ids, -, rfl⟩ := Option.map_eq_some_iff.mp hfound
      exact ComponentRun.leaves _ rfl rfl

theorem CheckedRun.call_leaves {run : CheckedRun}
    (h : (LazyRowIds.checked run).call fl M c = some (a, kept)) :
    (RowIds.memory (.checked run)).Leaves c (.memory kept) := by
  -- a call that finds nothing leaves the run as it was
  have hsame : ∀ c : IdsCall M, (RowIds.memory (.checked run)).finds c = false →
      (RowIds.memory (.checked run)).Leaves c (.memory (.checked run)) := by
    intro c hfinds
    exact ⟨rfl, by rw [hfinds, Bool.or_false]⟩
  cases c with
  | count =>
    obtain ⟨found, hfound, hkept⟩ := Option.map_eq_some_iff.mp h
    obtain ⟨-, rfl⟩ := Prod.mk.inj hkept
    obtain ⟨⟨n, run'⟩, hcounted, rfl⟩ := Option.map_eq_some_iff.mp hfound
    rw [CheckedRun.counted_recipe hcounted]
    exact ⟨rfl, (Bool.or_false _).symm⟩
  | countCapped limit | window offset limit | windowWithLive offset limit =>
    obtain ⟨found, -, hfound⟩ := Option.map_eq_some_iff.mp h
    obtain ⟨-, rfl⟩ := Prod.mk.inj hfound
    exact hsame _ rfl
  | liveLen deleted =>
    obtain ⟨found, hfound, hkept⟩ := Option.map_eq_some_iff.mp h
    obtain ⟨-, rfl⟩ := Prod.mk.inj hkept
    obtain ⟨⟨ids, run'⟩, hids, rfl⟩ := Option.map_eq_some_iff.mp hfound
    cases hcell : run.sorted with
    | some sorted =>
      rw [hcell] at hids
      obtain ⟨-, rfl⟩ := Prod.mk.inj (Option.some.inj hids)
      refine ⟨rfl, ?_⟩
      simp only [RowIds.found, hcell]
      rfl
    | none =>
      rw [hcell] at hids
      rw [CheckedRun.runOrderIds_recipe hids]
      refine ⟨rfl, ?_⟩
      simp only [RowIds.found, hcell]
      exact (Bool.or_true _).symm
  | runOrder =>
    obtain ⟨found, hfound, hkept⟩ := Option.map_eq_some_iff.mp h
    obtain ⟨-, rfl⟩ := Prod.mk.inj hkept
    obtain ⟨⟨ids, run'⟩, hids, rfl⟩ := Option.map_eq_some_iff.mp hfound
    rw [CheckedRun.runOrderIds_recipe hids]
    refine ⟨rfl, ?_⟩
    simp only [RowIds.found]
    cases run.sorted with
    | some sorted => rfl
    | none => exact (Bool.or_true _).symm
  | materialized =>
    obtain ⟨found, hfound, hkept⟩ := Option.map_eq_some_iff.mp h
    obtain ⟨-, rfl⟩ := Prod.mk.inj hkept
    rw [LazyRowIds.materialized] at hfound
    cases hcell : run.sorted with
    | some sorted =>
      rw [hcell] at hfound
      rw [← Option.some.inj hfound]
      refine ⟨rfl, ?_⟩
      simp only [RowIds.found, hcell]
      rfl
    | none =>
      rw [hcell] at hfound
      obtain ⟨⟨ids, run'⟩, hids, hsorted⟩ := Option.bind_eq_some_iff.mp hfound
      obtain ⟨sorted, -, rfl⟩ := Option.map_eq_some_iff.mp hsorted
      rw [CheckedRun.runOrderIds_recipe hids]
      exact ⟨rfl, (Bool.or_true _).symm⟩

theorem unsorted_call_leaves {ids : List RowId} {sorted : Option (List RowId)}
    (h : (LazyRowIds.unsorted ids sorted).call fl M c = some (a, kept)) :
    (RowIds.memory (.unsorted ids sorted)).Leaves c (.memory kept) := by
  have hsame : ∀ (c : IdsCall M) sorted', (RowIds.memory (.unsorted ids sorted)).Leaves c
      (.memory (.unsorted ids sorted')) := fun _ _ => ⟨rfl, rfl⟩
  cases c with
  | count | countCapped _ | window _ _ | windowWithLive _ _ | liveLen _ | runOrder =>
    obtain ⟨-, rfl⟩ := Prod.mk.inj (Option.some.inj h)
    exact hsame _ _
  | materialized =>
    obtain ⟨found, hfound, hkept⟩ := Option.map_eq_some_iff.mp h
    obtain ⟨-, rfl⟩ := Prod.mk.inj hkept
    cases sorted with
    | some sorted =>
      rw [← Option.some.inj hfound]
      exact hsame _ _
    | none =>
      obtain ⟨sorted, -, rfl⟩ := Option.map_eq_some_iff.mp hfound
      exact hsame _ _

theorem LazyRowIds.call_leaves {lazy : LazyRowIds}
    (h : lazy.call fl M c = some (a, kept)) : (RowIds.memory lazy).Leaves c (.memory kept) := by
  cases lazy with
  | component run => exact ComponentRun.call_leaves h
  | checked run => exact CheckedRun.call_leaves h
  | unsorted ids sorted => exact unsorted_call_leaves h

theorem FileRowIds.call_leaves {lazy kept : FileRowIds}
    (h : lazy.call fl c = some (a, kept)) : (RowIds.file lazy).Leaves c (.file kept) := by
  have hsame : ∀ c : IdsCall M, (RowIds.file lazy).finds c = false →
      (RowIds.file lazy).Leaves c (.file lazy) := by
    intro c hfinds
    exact ⟨rfl, by rw [hfinds, Bool.or_false]⟩
  cases c with
  | count | countCapped limit =>
    obtain ⟨-, rfl⟩ := Prod.mk.inj (Option.some.inj h)
    exact hsame _ rfl
  | window offset limit | windowWithLive offset limit =>
    obtain ⟨found, -, hfound⟩ := Option.map_eq_some_iff.mp h
    obtain ⟨-, rfl⟩ := Prod.mk.inj hfound
    exact hsame _ rfl
  | liveLen deleted | runOrder =>
    obtain ⟨-, rfl⟩ := Prod.mk.inj (Option.some.inj h)
    exact hsame _ rfl
  | materialized =>
    obtain ⟨found, hfound, hkept⟩ := Option.map_eq_some_iff.mp h
    obtain ⟨-, rfl⟩ := Prod.mk.inj hkept
    cases lazy with
    | indexChild child constraints located sorted | locatedRun child range ascending sorted =>
      cases sorted with
      | some ids =>
        rw [← Option.some.inj hfound]
        exact ⟨rfl, rfl⟩
      | none =>
        obtain ⟨ids, -, rfl⟩ := Option.map_eq_some_iff.mp hfound
        exact ⟨rfl, rfl⟩

end Kept

/-! ### What a call answers -/

/-- A call's answer: exact, or left open while the ids are not found. -/
def RowIds.AnswersWith {M : Type} [MaskOps M] (lazy : RowIds) (ids : List RowId) (c : IdsCall M)
    (a : IdsAnswer) : Prop :=
  a = lazy.exactAnswer ids c ∨
    (lazy.leavesOpen c = true ∧ lazy.found = false ∧ a.OpenOf (lazy.exactAnswer ids c))

section Memory

variable {fl : FastLanes} {M : Type} [MaskOps M] {ids : List RowId} {lazy : LazyRowIds}

/-- A window is cut where the run ascends, and nowhere else. -/
theorem LazyRowIds.window_isSome {offset limit : ℕ} {found : Option (List RowId)}
    (h : lazy.window fl M offset limit = some found) :
    found.isSome = (RowIds.memory lazy).ascends := by
  cases lazy with
  | component run =>
    rw [LazyRowIds.window] at h
    rw [RowIds.ascends]
    split_ifs at h with hascending
    · rw [hascending]
      cases hrows : windowRows offset limit run.rids.length with
      | some rows =>
        rw [hrows] at h
        obtain ⟨page, -, rfl⟩ := Option.map_eq_some_iff.mp h
        rfl
      | none =>
        rw [hrows] at h
        rw [← Option.some.inj h]
        rfl
    · rw [← Option.some.inj h, Bool.eq_false_iff.mpr hascending]
      rfl
  | checked run =>
    rw [LazyRowIds.window] at h
    rw [RowIds.ascends]
    split_ifs at h with hascending
    · obtain ⟨page, -, rfl⟩ := Option.map_eq_some_iff.mp h
      rw [hascending]
      rfl
    · rw [← Option.some.inj h, Bool.eq_false_iff.mpr hascending]
      rfl
  | unsorted ids sorted =>
    rw [← Option.some.inj h]
    rfl

/-- Once a checked run's ids are found, a window of them counts them all. -/
theorem CheckedRun.window_exact {run : CheckedRun} (h : run.Holds fl M ids) {offset limit : ℕ}
    (hfound : (run.sorted <|> run.runOrder).isSome = true) {found : List RowId × Live}
    (hwindow : run.window fl M offset limit = some found) : found.2 = .exact ids.length := by
  obtain ⟨cell, hcell⟩ := Option.isSome_iff_exists.mp hfound
  have hlen : cell.length = ids.length := by
    cases hsorted : run.sorted with
    | some sorted =>
      rw [hsorted] at hcell
      rw [← Option.some.inj hcell, h.sorted sorted hsorted, (inOrder_perm ids).length_eq]
    | none =>
      rw [hsorted] at hcell
      rw [h.runOrder cell hcell]
  rw [CheckedRun.window, hcell] at hwindow
  obtain ⟨page, -, rfl⟩ := Option.map_eq_some_iff.mp hwindow
  rw [hlen]

theorem ids_of_window {found : Option (List RowId)} {rows : List RowId} {ascends : Bool}
    (hsome : found.isSome = ascends) (hkept : Kept found rows) :
    IdsAnswer.ids found = .ids (if ascends then some rows else none) := by
  cases found with
  | some page =>
    obtain rfl : true = ascends := hsome
    rw [hkept page rfl, if_pos rfl]
  | none =>
    obtain rfl : false = ascends := hsome
    rfl

variable [LawfulMask M]

theorem LazyRowIds.Holds.runOrder_spec (h : lazy.Holds fl M ids) : ∃ kept,
    lazy.runOrder fl M = some (ids, kept) ∧ kept.Holds fl M ids := by
  cases lazy with
  | component run =>
    have h : run.Holds ids := h
    obtain ⟨hids, hkept, -⟩ := h.runOrderIds_spec
    rw [LazyRowIds.runOrder, hids]
    exact ⟨_, rfl, hkept⟩
  | checked run =>
    obtain ⟨run', hfound, hkept, -⟩ := CheckedRun.Holds.runOrderIds_spec h
    rw [LazyRowIds.runOrder, hfound]
    exact ⟨_, rfl, hkept⟩
  | unsorted ids' sorted =>
    obtain ⟨rfl, hkept⟩ := h
    exact ⟨_, rfl, rfl, hkept⟩

/-- Beside the window of a checked run, its matches are left open until they are found. -/
theorem LazyRowIds.Holds.windowWithLive_answers (hsmall : ids.length ≤ usizeMax)
    (h : lazy.Holds fl M ids) (offset limit : ℕ) : ∃ found,
      lazy.windowWithLive fl M offset limit = some found ∧
      (RowIds.memory lazy).AnswersWith ids (.windowWithLive offset limit : IdsCall M)
        (.windowed found) := by
  have hlen := (inOrder_perm ids).length_eq
  -- where the ids are known the window is exact
  have hplain : ∀ lazy : LazyRowIds, lazy.Holds fl M ids →
      lazy.windowWithLive fl M offset limit = ((lazy.window fl M offset limit).map fun found =>
        found.map fun page => (page, Live.exact ids.length)) → ∃ found,
      lazy.windowWithLive fl M offset limit = some found ∧
      (RowIds.memory lazy).AnswersWith ids (.windowWithLive offset limit : IdsCall M)
        (.windowed found) := by
    intro lazy h hwindow
    obtain ⟨found, hfound, hkept⟩ := h.window_spec hsmall offset limit
    refine ⟨_, by rw [hwindow, hfound, Option.map_some], .inl ?_⟩
    have hsome := LazyRowIds.window_isSome hfound
    rw [RowIds.exactAnswer, ← hsome, hlen]
    cases found with
    | some page => rw [hkept page rfl]; rfl
    | none => rfl
  cases lazy with
  | component run =>
    have hrun : run.Holds ids := h
    refine hplain _ h ?_
    rw [← hrun.rids_eq]
    rfl
  | checked run =>
    have hrun : run.Holds fl M ids := h
    rw [LazyRowIds.windowWithLive]
    split_ifs with hascending
    · obtain ⟨live, hwindow, hlive⟩ := hrun.window_spec hsmall hascending offset limit
      refine ⟨_, by rw [hwindow, Option.map_some], ?_⟩
      have hsorted := inOrder_of_sorted (hrun.ascends hascending)
      rw [RowIds.AnswersWith, RowIds.exactAnswer,
        if_pos (show (RowIds.memory (.checked run)).ascends = true from hascending), hsorted]
      cases live with
      | exact n =>
        obtain rfl : n = ids.length := hlive
        exact .inl rfl
      | atLeast n =>
        cases hfound : (RowIds.memory (.checked run)).found with
        | true =>
          have hexact := CheckedRun.window_exact hrun hfound hwindow
          cases hexact
        | false => exact .inr ⟨hascending, rfl, rfl, hlive⟩
    · refine ⟨none, rfl, .inl ?_⟩
      rw [RowIds.exactAnswer,
        if_neg (show ¬(RowIds.memory (.checked run)).ascends = true from hascending)]
  | unsorted ids' sorted =>
    obtain ⟨rfl, hkept⟩ := h
    exact hplain (.unsorted ids' sorted) ⟨rfl, hkept⟩ rfl

theorem LazyRowIds.Holds.countCapped_answers (h : lazy.Holds fl M ids) (limit : ℕ) : ∃ found,
    lazy.countCapped fl M limit = some found ∧
      IdsAnswer.count found = (RowIds.memory lazy).exactAnswer ids (.countCapped limit : IdsCall M) := by
  cases lazy with
  | component run => exact ⟨none, rfl, rfl⟩
  | checked run =>
    refine ⟨some (min ids.length limit), ?_, ?_⟩
    · rw [LazyRowIds.countCapped, CheckedRun.Holds.countCapped_spec h, Option.map_some]
    · rw [← (inOrder_perm ids).length_eq]
      rfl
  | unsorted ids' sorted => exact ⟨none, rfl, rfl⟩

theorem LazyRowIds.Holds.call_spec (hnodup : ids.Nodup) (hsmall : ids.length ≤ usizeMax)
    (h : lazy.Holds fl M ids) (c : IdsCall M)
    (hnarrowed : ∀ deleted, c = .liveLen deleted → (RowIds.memory lazy).isNarrowed = true →
      ∀ id ∈ ids, value deleted id = false) :
    ∃ a kept, lazy.call fl M c = some (a, kept) ∧ kept.Holds fl M ids ∧
      (RowIds.memory lazy).AnswersWith ids c a := by
  cases c with
  | count =>
    obtain ⟨kept, hcount, hkept⟩ := h.count_spec
    exact ⟨_, _, by rw [LazyRowIds.call, hcount, Option.map_some], hkept,
      .inl (by rw [RowIds.exactAnswer, (inOrder_perm ids).length_eq])⟩
  | countCapped limit =>
    obtain ⟨found, hfound, hexact⟩ := h.countCapped_answers limit
    exact ⟨_, _, by rw [LazyRowIds.call, hfound, Option.map_some], h, .inl hexact⟩
  | window offset limit =>
    obtain ⟨found, hfound, hkept⟩ := h.window_spec hsmall offset limit
    exact ⟨_, _, by rw [LazyRowIds.call, hfound, Option.map_some], h,
      .inl (ids_of_window (LazyRowIds.window_isSome hfound) hkept)⟩
  | windowWithLive offset limit =>
    obtain ⟨found, hfound, hanswers⟩ := h.windowWithLive_answers hsmall offset limit
    exact ⟨_, _, by rw [LazyRowIds.call, hfound, Option.map_some], h, hanswers⟩
  | liveLen deleted =>
    have hlive : ∀ ids' sorted, lazy = .unsorted ids' sorted → ∀ id ∈ ids', value deleted id = false := by
      rintro ids' sorted rfl
      obtain ⟨rfl, -⟩ := h
      exact hnarrowed deleted rfl rfl
    obtain ⟨kept, hlen, hkept⟩ := h.liveLen_spec hlive
    refine ⟨_, _, by rw [LazyRowIds.call, hlen, Option.map_some], hkept, .inl ?_⟩
    rw [RowIds.exactAnswer, ((inOrder_perm ids).filter _).length_eq]
  | runOrder =>
    obtain ⟨kept, hids, hkept⟩ := h.runOrder_spec
    refine ⟨.ids (some ids), _, ?_, hkept, .inl rfl⟩
    rw [LazyRowIds.call, hids, Option.map_some]
  | materialized =>
    obtain ⟨kept, hids, hkept⟩ := h.materialized_spec hnodup
    refine ⟨.ids (some (inOrder ids)), _, ?_, hkept, .inl rfl⟩
    rw [LazyRowIds.call, hids, Option.map_some]

end Memory

section File

variable {fl : FastLanes} {ids : List RowId} {lazy : FileRowIds}

/-- The row ids of a window of a run are the window of its row ids. -/
theorem RidTable.ridsAt_window (table : RidTable) {range rows : RowRange} {offset limit : ℕ}
    (hsmall : range.stop - range.start ≤ usizeMax)
    (h : windowRows offset limit (range.stop - range.start) = some rows) :
    table.ridsAt (RowRange.toList ⟨range.start + rows.start, range.start + rows.stop⟩) =
      page offset limit (table.ridsAt range.toList) := by
  have hlen : range.toList.length = range.stop - range.start := List.length_range'
  rw [← hlen] at h hsmall
  obtain ⟨hwithin, hpage⟩ := windowRows_some hsmall h
  rw [RidTable.ridsAt, RidTable.ridsAt, page, ← List.map_drop, ← List.map_take]
  refine congrArg _ (Eq.trans ?_ hpage)
  have hstop : rows.stop ≤ range.stop - range.start := hlen ▸ hwithin.inBase
  rw [RowRange.toList, RowRange.toList, List.drop_range', List.take_range'_of_length_ge (by omega)]
  dsimp only
  congr 1 <;> omega

theorem FileRowIds.Reads.materializedAsync_spec (hnodup : ids.Nodup) (h : lazy.Reads fl ids) :
    ∃ kept, lazy.materializedAsync fl = some (inOrder ids, kept) ∧ kept.Reads fl ids := by
  cases h with
  | @indexChild child constraints located sorted table reads some_asked asked ids_eq located_eq
      sorted_kept =>
    cases sorted with
    | some found =>
      rw [sorted_kept found rfl]
      exact ⟨_, rfl, .indexChild table reads some_asked asked ids_eq located_eq (kept_some _)⟩
    | none =>
      rw [ids_eq] at hnodup
      show ∃ kept, (scanIndexRowIds child constraints).map _ = _ ∧ _
      rw [scanIndexRowIds_spec reads some_asked asked hnodup, Option.map_some, ids_eq]
      exact ⟨_, rfl, .indexChild table reads some_asked asked rfl located_eq (kept_some _)⟩
  | @locatedRun child range ascending sorted table reads within some_row ids_eq ascends
      sorted_kept =>
    cases sorted with
    | some found =>
      rw [sorted_kept found rfl]
      exact ⟨_, rfl, .locatedRun table reads within some_row ids_eq ascends (kept_some _)⟩
    | none =>
      rw [ids_eq] at hnodup ascends
      show ∃ kept, (readLocatedRids fl child range).map _ = _ ∧ _
      rw [readLocatedRids_spec reads within some_row hnodup, Option.map_some, ids_eq]
      exact ⟨_, rfl, .locatedRun table reads within some_row rfl ascends (kept_some _)⟩

/-- What is known of the number of ids is so; it is not known of an unlocated scan's ids not
read yet, and of no others. -/
theorem FileRowIds.Reads.lenIfKnown_spec (h : lazy.Reads fl ids) :
    Kept lazy.lenIfKnown ids.length ∧ (lazy.lenIfKnown = none →
      (∀ {M : Type}, (RowIds.file lazy).leavesOpen (.count : IdsCall M) = true) ∧
        (RowIds.file lazy).found = false) := by
  cases h with
  | @indexChild child constraints located sorted table reads some_asked asked ids_eq located_eq
      sorted_kept =>
    cases sorted with
    | some found =>
      have hlen : found.length = ids.length := by
        rw [sorted_kept found rfl, (inOrder_perm ids).length_eq]
      refine ⟨?_, fun h => by cases h⟩
      show Kept (some found.length) ids.length
      rw [hlen]
      exact kept_some _
    | none =>
      cases located with
      | some run =>
        have hlen : run.stop - run.start = ids.length := by
          rw [ids_eq, RidTable.ridsAt, List.length_map, ← located_eq run rfl]
          exact List.length_range'.symm
        refine ⟨?_, fun h => by cases h⟩
        show Kept (some (run.stop - run.start)) ids.length
        rw [hlen]
        exact kept_some _
      | none => exact ⟨kept_none _, fun _ => ⟨@fun _ => rfl, rfl⟩⟩
  | @locatedRun child range ascending sorted table reads within some_row ids_eq ascends
      sorted_kept =>
    have hlen : range.stop - range.start = ids.length := by
      rw [ids_eq, RidTable.ridsAt, List.length_map]
      exact List.length_range'.symm
    refine ⟨?_, fun h => by cases h⟩
    show Kept (some (range.stop - range.start)) ids.length
    rw [hlen]
    exact kept_some _

/-- A located run whose ids ascend reads a window's own rows and no others. -/
theorem FileRowIds.Reads.window_spec (hsmall : ids.length ≤ usizeMax) (h : lazy.Reads fl ids)
    (offset limit : ℕ) : lazy.window fl offset limit =
      some (if (RowIds.file lazy).ascends then some (page offset limit (inOrder ids)) else none) := by
  cases h with
  | indexChild => rfl
  | @locatedRun child range ascending sorted table reads within some_row ids_eq ascends
      sorted_kept =>
    rw [FileRowIds.window]
    show _ = some (if ascending then some (page offset limit (inOrder ids)) else none)
    split_ifs with hascending
    · have hsorted := ascends hascending
      rw [inOrder_of_sorted hsorted]
      have hlen : range.toList.length = range.stop - range.start := List.length_range'
      have hids : ids.length = range.stop - range.start := by
        rw [ids_eq, RidTable.ridsAt, List.length_map, hlen]
      rw [← hids]
      cases hrows : windowRows offset limit ids.length with
      | some rows =>
        obtain ⟨hwithin, -⟩ := windowRows_some hsmall hrows
        have hpage : table.ridsAt (RowRange.toList ⟨range.start + rows.start,
            range.start + rows.stop⟩) = page offset limit ids := by
          rw [hids] at hrows hsmall
          rw [table.ridsAt_window hsmall hrows, ids_eq]
        have hcut : (page offset limit ids).SortedLT :=
          (hsorted.pairwise.sublist (page_sublist offset limit ids)).sortedLT
        have hinside : RowRange.Within table.rids.length
            ⟨range.start + rows.start, range.start + rows.stop⟩ := by
          have hordered := hwithin.ordered
          have hstop := hwithin.inBase
          have hbase := within.inBase
          constructor <;> dsimp only <;> omega
        have hsome : range.start + rows.start < range.start + rows.stop := by
          rw [windowRows] at hrows
          split_ifs at hrows with hlt
          rw [← Option.some.inj hrows]
          exact Nat.add_lt_add_left hlt _
        dsimp only
        have hread := readLocatedRids_spec reads hinside hsome (by rw [hpage]; exact hcut.nodup)
        rw [hread, hpage, inOrder_of_sorted hcut, Option.map_some]
      | none => rw [windowRows_none hsmall hrows]
    · rfl

theorem FileRowIds.Reads.windowWithLive_spec (hsmall : ids.length ≤ usizeMax)
    (h : lazy.Reads fl ids) (offset limit : ℕ) : lazy.windowWithLive fl offset limit =
      some (if (RowIds.file lazy).ascends then
        some (page offset limit (inOrder ids), .exact (inOrder ids).length) else none) := by
  obtain ⟨hknown, hunknown⟩ := h.lenIfKnown_spec
  rw [FileRowIds.windowWithLive]
  cases hlen : lazy.lenIfKnown with
  | some live =>
    dsimp only
    rw [h.window_spec hsmall, Option.map_some, hknown live hlen, (inOrder_perm ids).length_eq]
    split_ifs <;> rfl
  | none =>
    obtain ⟨hopen, -⟩ := hunknown hlen
    -- the ids of an unlocated scan never ascend
    cases lazy with
    | indexChild => rfl
    | locatedRun => cases @hopen Unit

theorem FileRowIds.Reads.sortedCell_kept (h : lazy.Reads fl ids) :
    Kept lazy.sortedCell (inOrder ids) := by
  cases h with
  | indexChild _ _ _ _ _ _ sorted_kept => exact sorted_kept
  | locatedRun _ _ _ _ _ _ sorted_kept => exact sorted_kept

variable {M : Type} [MaskOps M]

theorem FileRowIds.Reads.call_spec (hnodup : ids.Nodup) (hsmall : ids.length ≤ usizeMax)
    (h : lazy.Reads fl ids) (c : IdsCall M) :
    ∃ a kept, lazy.call fl c = some (a, kept) ∧ kept.Reads fl ids ∧
      (RowIds.file lazy).AnswersWith ids c a := by
  cases c with
  | count =>
    obtain ⟨hknown, hunknown⟩ := h.lenIfKnown_spec
    refine ⟨_, _, rfl, h, ?_⟩
    cases hlen : lazy.lenIfKnown with
    | some live =>
      refine .inl ?_
      rw [hknown live hlen, RowIds.exactAnswer, (inOrder_perm ids).length_eq]
    | none =>
      obtain ⟨hopen, hfound⟩ := hunknown hlen
      exact .inr ⟨hopen, hfound, trivial⟩
  | countCapped limit => exact ⟨_, _, rfl, h, .inl rfl⟩
  | window offset limit =>
    refine ⟨_, _, ?_, h, .inl rfl⟩
    rw [FileRowIds.call, h.window_spec hsmall, Option.map_some]
    rfl
  | windowWithLive offset limit =>
    refine ⟨_, _, ?_, h, .inl rfl⟩
    rw [FileRowIds.call, h.windowWithLive_spec hsmall, Option.map_some]
    rfl
  | liveLen deleted =>
    refine ⟨_, _, rfl, h, ?_⟩
    rw [FileRowIds.liveLenWithoutIo]
    cases hcell : lazy.sortedCell with
    | some sorted =>
      refine .inl ?_
      rw [h.sortedCell_kept sorted hcell]
      rfl
    | none =>
      refine .inr ⟨?_, ?_, trivial⟩
      · cases lazy with
        | indexChild child constraints located sorted => cases located <;> rfl
        | locatedRun => rfl
      · rw [RowIds.found, hcell]
        rfl
  | runOrder => exact ⟨_, _, rfl, h, .inl rfl⟩
  | materialized =>
    obtain ⟨kept, hids, hkept⟩ := h.materializedAsync_spec hnodup
    refine ⟨.ids (some (inOrder ids)), _, ?_, hkept, .inl rfl⟩
    rw [FileRowIds.call, hids, Option.map_some]

end File

/-! ### Runs -/

namespace RowIds

variable {fl : FastLanes} {M : Type} [MaskOps M] {ids : List RowId} {lazy : RowIds}

/-- Until the ids are found, an open answer is the one a fresh recipe gives. -/
theorem fresh_answers (hfound : lazy.found = false) {c : IdsCall M} (hopen : lazy.leavesOpen c = true) :
    (lazy.fresh.call fl c).map Prod.fst = (lazy.call fl c).map Prod.fst := by
  cases lazy with
  | memory lazy =>
    cases lazy with
    | component run => cases hfound
    | unsorted ids sorted => cases hfound
    | checked run =>
      cases c with
      | windowWithLive offset limit =>
        -- a window reads the cells of the ids alone, which are empty
        have hcells : (run.sorted <|> run.runOrder) = none := Option.isSome_eq_false_iff.mp hfound |>
          Option.isNone_iff_eq_none.mp
        have hwindow : (CheckedRun.new run.rids run.ascending run.check).window fl M offset limit =
            run.window fl M offset limit := by
          rw [CheckedRun.window, CheckedRun.window, hcells]
          rfl
        simp only [fresh, call, LazyRowIds.call, LazyRowIds.windowWithLive, hwindow,
          Option.map_map]
        rfl
      | _ => cases hopen
  | file lazy =>
    have hcell : lazy.sortedCell = none :=
      Option.isNone_iff_eq_none.mp (Option.isSome_eq_false_iff.mp hfound)
    cases lazy with
    | indexChild child constraints located sorted =>
      obtain rfl : sorted = none := hcell
      rfl
    | locatedRun child range ascending sorted =>
      obtain rfl : sorted = none := hcell
      rfl

variable [LawfulMask M]

/-- One call keeps the cells right, the same recipe in them, and answers exactly, but for
what it leaves open. -/
theorem call_spec (hnodup : ids.Nodup) (hsmall : ids.length ≤ usizeMax) (h : lazy.Holds fl M ids)
    (c : IdsCall M) (hnarrowed : ∀ deleted, c = .liveLen deleted → lazy.isNarrowed = true →
      ∀ id ∈ ids, value deleted id = false) :
    ∃ a kept, lazy.call fl c = some (a, kept) ∧ kept.Holds fl M ids ∧ lazy.Leaves c kept ∧
      lazy.AnswersWith ids c a := by
  cases lazy with
  | memory lazy =>
    have h : lazy.Holds fl M ids := h
    obtain ⟨a, kept, hcall, hkept, ha⟩ := h.call_spec hnodup hsmall c hnarrowed
    exact ⟨a, .memory kept, by rw [call, hcall, Option.map_some], hkept,
      LazyRowIds.call_leaves hcall, ha⟩
  | file lazy =>
    have h : lazy.Reads fl ids := h
    obtain ⟨a, kept, hcall, hkept, ha⟩ := h.call_spec hnodup hsmall c
    exact ⟨a, .file kept, by rw [call, hcall, Option.map_some], hkept,
      FileRowIds.call_leaves hcall, ha⟩

section Fresh

omit [LawfulMask M]

/-- The exact answers, and which answers are left open, are the recipe's. -/
theorem exactAnswer_fresh (lazy : RowIds) (ids : List RowId) (c : IdsCall M) :
    lazy.fresh.exactAnswer ids c = lazy.exactAnswer ids c := by
  cases lazy with
  | memory lazy => cases lazy <;> rfl
  | file lazy => cases lazy <;> rfl

omit [MaskOps M]

theorem leavesOpen_fresh (lazy : RowIds) (c : IdsCall M) :
    lazy.fresh.leavesOpen c = lazy.leavesOpen c := by
  cases lazy with
  | memory lazy => cases lazy <;> cases c <;> rfl
  | file lazy =>
    cases lazy with
    | indexChild child constraints located sorted => cases located <;> cases c <;> rfl
    | locatedRun => cases c <;> rfl

theorem finds_fresh (lazy : RowIds) (c : IdsCall M) : lazy.fresh.finds c = lazy.finds c := by
  cases lazy with
  | memory lazy => cases lazy <;> cases c <;> rfl
  | file lazy => cases lazy <;> cases c <;> rfl

theorem isNarrowed_fresh (lazy : RowIds) : lazy.fresh.isNarrowed = lazy.isNarrowed := by
  cases lazy with
  | memory lazy => cases lazy <;> rfl
  | file lazy => cases lazy <;> rfl

end Fresh

omit [LawfulMask M] in
/-- What a call after some others answers: exactly, or, while none before it has found the
ids, what it leaves open, just as with none before it. -/
def AnswersAfter (fl : FastLanes) (lazy : RowIds) (ids : List RowId) (before : List (IdsCall M))
    (c : IdsCall M) (a : IdsAnswer) : Prop :=
  a = lazy.exactAnswer ids c ∨
    (lazy.leavesOpen c = true ∧ lazy.found = false ∧ (∀ b ∈ before, lazy.finds b = false) ∧
      a.OpenOf (lazy.exactAnswer ids c) ∧ (lazy.fresh.call fl c).map Prod.fst = some a)

omit [LawfulMask M] in
/-- A first call does not change what a later one answers, but by finding the ids. -/
theorem AnswersAfter.cons {kept : RowIds} {b c : IdsCall M} {before : List (IdsCall M)} {a : IdsAnswer}
    (hleaves : lazy.Leaves b kept) (h : kept.AnswersAfter fl ids before c a) :
    lazy.AnswersAfter fl ids (b :: before) c a := by
  obtain ⟨hfresh, hfound⟩ := hleaves
  have hexact : kept.exactAnswer ids c = lazy.exactAnswer ids c := by
    rw [← exactAnswer_fresh, hfresh, exactAnswer_fresh]
  rcases h with rfl | ⟨hopen, hnot, hbefore, hof, hcall⟩
  · exact .inl hexact
  · have hneither := Bool.or_eq_false_iff.mp (hfound.symm.trans hnot)
    refine .inr ⟨?_, hneither.1, ?_, hexact ▸ hof, hfresh ▸ hcall⟩
    · rw [← leavesOpen_fresh, ← hfresh, leavesOpen_fresh]
      exact hopen
    · intro b' hb'
      rcases List.mem_cons.mp hb' with rfl | hb'
      · exact hneither.2
      · rw [← finds_fresh, ← hfresh, finds_fresh]
        exact hbefore b' hb'

/-- A run of calls: each answer by the calls before it. -/
theorem calls_spec (hnodup : ids.Nodup) (hsmall : ids.length ≤ usizeMax) {cs : List (IdsCall M)}
    (h : lazy.Holds fl M ids) (hnarrowed : ∀ deleted, .liveLen deleted ∈ cs →
      lazy.isNarrowed = true → ∀ id ∈ ids, value deleted id = false) :
    ∃ answers kept, lazy.calls fl cs = some (answers, kept) ∧ kept.Holds fl M ids ∧
      answers.length = cs.length ∧ ∀ before c after, cs = before ++ c :: after →
        ∃ a, answers[before.length]? = some a ∧ lazy.AnswersAfter fl ids before c a := by
  induction cs generalizing lazy with
  | nil =>
    refine ⟨[], lazy, rfl, h, rfl, fun before c after hcs => ?_⟩
    exact absurd hcs.symm (List.append_ne_nil_of_right_ne_nil _ (List.cons_ne_nil _ _))
  | cons c cs ih =>
    obtain ⟨a, kept, hcall, hkept, hleaves, ha⟩ := RowIds.call_spec hnodup hsmall h c
      fun deleted hc => hnarrowed deleted (hc ▸ List.mem_cons_self)
    have hlive : ∀ deleted, .liveLen deleted ∈ cs → kept.isNarrowed = true →
        ∀ id ∈ ids, value deleted id = false := by
      intro deleted hmem hkeptNarrowed
      refine hnarrowed deleted (List.mem_cons_of_mem _ hmem) ?_
      rwa [← isNarrowed_fresh, hleaves.1, isNarrowed_fresh] at hkeptNarrowed
    obtain ⟨answers, last, hcalls, hlast, hlen, hall⟩ := ih hkept hlive
    refine ⟨a :: answers, last, ?_, hlast, by rw [List.length_cons, hlen, List.length_cons], ?_⟩
    · rw [calls, hcall, Option.bind_some, hcalls, Option.map_some]
    · intro before d after hcs
      cases before with
      | nil =>
        obtain ⟨rfl, -⟩ := List.cons_eq_cons.mp hcs
        refine ⟨a, rfl, ha.imp id fun hopen => ?_⟩
        refine ⟨hopen.1, hopen.2.1, fun b hb => absurd hb List.not_mem_nil, hopen.2.2, ?_⟩
        rw [fresh_answers hopen.2.1 hopen.1, hcall, Option.map_some]
      | cons b before =>
        obtain ⟨rfl, hrest⟩ := List.cons_eq_cons.mp hcs
        obtain ⟨a', ha', hafter⟩ := hall before d after hrest
        exact ⟨a', ha', hafter.cons hleaves⟩

end RowIds

/-- **Lazy ids answer as materialized ones**: whatever calls are made on the ids of a
resolution and in whatever order, each answers as the checked ids in base order do, save
that until a call finds the ids a checked run's matches may be a lower bound beside a
window, and a file child's live length and an unlocated one's count are not known, just as
with no earlier call. -/
theorem lazy_ids_answer_as_materialized {fl : FastLanes} {M : Type} [MaskOps M] [LawfulMask M]
    {ids : List RowId} {lazy : RowIds} (hnodup : ids.Nodup) (hsmall : ids.length ≤ usizeMax)
    (h : lazy.Holds fl M ids) (cs : List (IdsCall M))
    (hnarrowed : ∀ deleted, .liveLen deleted ∈ cs → lazy.isNarrowed = true →
      ∀ id ∈ ids, value deleted id = false) :
    (inOrder ids).SortedLT ∧ (inOrder ids).Perm ids ∧
    ∃ answers kept, lazy.calls fl cs = some (answers, kept) ∧ answers.length = cs.length ∧
      ∀ before c after, cs = before ++ c :: after →
        ∃ a, answers[before.length]? = some a ∧ lazy.AnswersAfter fl ids before c a := by
  obtain ⟨answers, kept, hcalls, -, hlen, hall⟩ := RowIds.calls_spec hnodup hsmall h hnarrowed
  exact ⟨inOrder_sorted hnodup, inOrder_perm ids, answers, kept, hcalls, hlen, hall⟩

/-! ### A reference child's run -/

/-- A reader of the row ids of a table in memory, with no chunk probes. -/
def RidTable.reader (table : RidTable) : ChildReader where
  name := "index:ref-p"
  readAllRows scan := some (table.ridChunk ((List.range table.rids.length).filter fun i =>
    (scan.rowRange.all fun range => decide (range.start ≤ i ∧ i < range.stop)) &&
      scan.filter.all fun eqs => table.holds eqs i))
  columnChunks _ := none
  primitive _ := false
  nullBit _ _ := false

theorem RidTable.reader_reads (fl : FastLanes) (table : RidTable) :
    table.reader.ReadsRids fl table where
  ranged range hrange := by
    have hrows : ((List.range table.rids.length).filter fun i =>
        decide (range.start ≤ i ∧ i < range.stop) && true) = range.toList := by
      refine ((List.sortedLT_range _).pairwise.sublist List.filter_sublist).sortedLT.eq_of_mem_iff
        range.sortedLT_toList fun i => ?_
      rw [List.mem_filter, List.mem_range, RowRange.mem_toList, Bool.and_true, decide_eq_true_eq]
      exact ⟨fun hi => hi.2, fun hi => ⟨lt_of_lt_of_le hi.2 hrange.inBase, hi⟩⟩
    rw [← hrows]
    rfl
  filtered eqs hne hasks := rfl
  probed handle hhandle := by cases hhandle

/-- The rows 1 and 3 of a base, under one predicate. -/
def refTable : RidTable := ⟨[1, 3], fun _ _ => .num 7, fun _ => True⟩

def refRun : RowIds := .file (.fromLocatedRun refTable.reader ⟨0, 2⟩ true)

/-- Of four rows, the first two are tombstoned. -/
def firstTwo : BitMask := ⟨[true, true, false, false]⟩

theorem refRun_holds : refRun.Holds .ofZeros BitMask [1, 3] := by
  have hsorted : ([1, 3] : List RowId).SortedLT := List.Pairwise.sortedLT (by decide)
  exact .locatedRun refTable (refTable.reader_reads _) ⟨by decide, by decide⟩ (by decide) rfl
    (fun _ => hsorted) (kept_none _)

/-- The live length of a run on file is not known before its ids are read, and is after. -/
theorem liveLen_before_materialized :
    (refRun.calls .ofZeros [.liveLen firstTwo]).map Prod.fst = some [.count none] ∧
    (refRun.calls .ofZeros [.materialized, .liveLen firstTwo]).map Prod.fst =
      some [.ids (some [1, 3]), .count (some 1)] :=
  ⟨rfl, rfl⟩

/-! ### A checked run of a copy -/

namespace GraphSample

/-- Three quads of one predicate and object, the last two in the graph 3. -/
def rows : List (Row TermCode) := [⟨1, 2, 5, 0⟩, ⟨3, 2, 5, 3⟩, ⟨4, 2, 5, 3⟩]

theorem entries_eq : (IndexChild.copy .posg).entries rows =
    [(⟨1, 2, 5, 0⟩, 0), (⟨3, 2, 5, 3⟩, 1), (⟨4, 2, 5, 3⟩, 2)] := by
  rw [IndexChild.entries, DistinctSort.sortBy]
  exact List.mergeSort_of_pairwise (by decide)

def graphs (i : ℕ) : ℕ := if i = 0 then 0 else 3

def zones : ColumnZones where
  mins := [0]
  maxes := [3]
  recorded := none
  zoneLen := ZONE_ROWS
  rowCount := 3
  paired := rfl
  zoned := ZONE_ROWS_pos
  covered := rfl

theorem zones_describe : zones.Describes graphs 3 where
  rowCount := rfl
  bounds zone i hi := by
    have hzone := RowRange.mem_rows.mp hi
    have hlt : zone * 8192 ≤ i ∧ i < 3 := ⟨hzone.1, lt_of_lt_of_le hzone.2 (min_le_right _ _)⟩
    obtain rfl : zone = 0 := by omega
    show 0 ≤ graphs i ∧ graphs i ≤ 3
    rw [graphs]
    split_ifs <;> omega
  recorded zone code n h := by cases h

def component : IndexComponent TermCode where
  identity := CopyFamily.posg.identity
  columns := (IndexChild.copy .posg).columns ((IndexChild.copy .posg).entries rows)
  rids := ((IndexChild.copy .posg).entries rows).map Prod.snd
  encoding := ⟨fun _ => none, fun _ _ => none, fun _ _ => true, fun _ => false, fun _ => false,
    fun _ _ => false⟩
  graphZones := some zones

theorem component_built : component.BuiltFrom .ofZeros rows (.copy .posg) where
  identity_eq := rfl
  columns_eq := rfl
  rids_eq := rfl
  probed name node h := by cases h
  sliced name range node column slice h := by cases h
  zoned found h := by
    obtain rfl := Option.some.inj h
    refine ⟨((IndexChild.copy .posg).entries rows).map (·.1.g), graphs, rfl, ?_, rfl, ?_⟩
    · rw [entries_eq]
      intro i v hv
      rcases i with _ | _ | _ | i <;> cases hv <;> rfl
    · rw [List.length_map, IndexChild.length_entries]
      exact zones_describe

/-- The check of the graph 3 over the three rows. -/
theorem check_exists : ∃ check, GraphCheck.new component ⟨0, 3⟩ 3 zones = some check ∧
    check.Checks .ofZeros BitMask 3 ⟨0, 3⟩ fun i =>
      decide (roleValue ((IndexChild.copy .posg).rowAt rows i) .g = 3) :=
  graphCheck_new BitMask component_built (by decide) rfl ⟨by decide, by decide⟩ rfl

/-- The two rows the check keeps. -/
theorem kept_eq : [1, 2] = ((⟨0, 3⟩ : RowRange).toList.filter fun i =>
    decide (roleValue ((IndexChild.copy .posg).rowAt rows i) .g = 3)).map fun i =>
      ([0, 1, 2] : List RowId).getD (i - 0) 0 := by
  have hrow : ∀ i, (IndexChild.copy .posg).rowAt rows i =
      (([(⟨1, 2, 5, 0⟩, 0), (⟨3, 2, 5, 3⟩, 1), (⟨4, 2, 5, 3⟩, 2)] : List (Row TermCode × RowId)).getD i
        default).1 := fun i => by
    rw [IndexChild.rowAt, entries_eq]
  simp only [hrow]
  rfl

theorem checkedRun_holds {check : GraphCheck} (h : check.Checks .ofZeros BitMask 3 ⟨0, 3⟩ fun i =>
    decide (roleValue ((IndexChild.copy .posg).rowAt rows i) .g = 3)) :
    (RowIds.memory (.checked (.new [0, 1, 2] true check))).Holds .ofZeros BitMask [1, 2] where
  checks := ⟨3, ⟨0, 3⟩, _, h, rfl, kept_eq⟩
  ascends _ := List.Pairwise.sortedLT (by decide)
  count := kept_none _
  runOrder := kept_none _
  sorted := kept_none _

end GraphSample

/-- Calls before the ids are found, and after. -/
def idsCalls : List (IdsCall BitMask) :=
  [.liveLen firstTwo, .countCapped 1, .window 1 4, .windowWithLive 0 1, .count, .materialized,
    .windowWithLive 0 1, .liveLen firstTwo]

/-- The calls on a run of a file, and on one checked in memory. -/
theorem lazy_ids_answer_as_materialized_runs :
    ((inOrder [1, 3]).SortedLT ∧ (inOrder [1, 3]).Perm [1, 3] ∧
      ∃ answers kept, refRun.calls .ofZeros idsCalls = some (answers, kept) ∧
        answers.length = idsCalls.length ∧ ∀ before c after, idsCalls = before ++ c :: after →
          ∃ a, answers[before.length]? = some a ∧ refRun.AnswersAfter .ofZeros [1, 3] before c a) ∧
    ∃ check, GraphCheck.new GraphSample.component ⟨0, 3⟩ 3 GraphSample.zones = some check ∧
      let run := RowIds.memory (.checked (.new [0, 1, 2] true check))
      (inOrder [1, 2]).SortedLT ∧ (inOrder [1, 2]).Perm [1, 2] ∧
      ∃ answers kept, run.calls .ofZeros idsCalls = some (answers, kept) ∧
        answers.length = idsCalls.length ∧ ∀ before c after, idsCalls = before ++ c :: after →
          ∃ a, answers[before.length]? = some a ∧ run.AnswersAfter .ofZeros [1, 2] before c a := by
  obtain ⟨check, hcheck, hchecks⟩ := GraphSample.check_exists
  refine ⟨lazy_ids_answer_as_materialized (by decide) (by decide) refRun_holds idsCalls ?_,
    check, hcheck, lazy_ids_answer_as_materialized (by decide) (by decide)
      (GraphSample.checkedRun_holds hchecks) idsCalls ?_⟩
  · intro deleted _ hnarrowed
    cases hnarrowed
  · intro deleted _ hnarrowed
    cases hnarrowed

end Indexes
