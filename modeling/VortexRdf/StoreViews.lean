/-
Views of a store held in memory.

A store is a base with a selection and tombstones over it, and a tail of appended rows; a
match, a window, a keep or a partition derives a view, which shares the base and narrows
what is selected.  A selection is exact, or pending: an index's ids not computed yet, or a
compare not made yet.

* `ViewSelection` — a selection, with what it counts and cuts before it is made exact;
* `QuadsSource`, `VortexRdfStore` — a view, and the constructors that derive one;
* `ViewSelection.Yields` — the live base rows a selection is of, in base order;
* `QuadsSource.Shows` — the live base rows a view shows, in the order they read in;
* `VortexRdfStore.Shows` — those of a view and of its tail, over sound data;
* `ViewSelection.Yields.count_spec`, `.countCapped_spec`, `.window_spec` — what a selection
  answers before it is exact is what the exact one would.
-/
import VortexRdf.SortOrders

namespace Views

open Ascending Buffers Builds Dictionary Indexes Masks MaskOps Terms
open EncodedSearch (FastLanes)
open Store hiding Row

/-! ### Selections -/

/-- The base rows a view selects. -/
inductive ViewSelection where
  | exact (selection : RowSelection)
  /-- An index's ids, computed on first need, and the pattern they are the matches of
  where a match over every base row left them for its rows. -/
  | pending (ids : LazyRowIds) (matched : Option QuadPattern)
  /-- A compare, made only as far as a count or a window reaches. -/
  | residual (compare : PendingResidual)

namespace ViewSelection

def all : ViewSelection := .exact .all

def isAll : ViewSelection → Bool
  | .exact .all => true
  | _ => false

def isExact : ViewSelection → Bool
  | .exact _ => true
  | _ => false

section Masked

variable (fl : FastLanes) (M : Type) [MaskOps M]

/-- The exact selection. -/
def materialized : ViewSelection → Option RowSelection
  | .exact selection => some selection
  | .pending ids _ => (ids.materialized fl M).map fun found => .ids found.1
  | .residual compare => (compare.materialized M fl).map fun found => .ids found.1

/-- The rows selected, tombstoned ones among them, when known without counting. -/
def lenIfKnown (baseLen : ℕ) : ViewSelection → Option ℕ
  | .exact selection => some (selection.len baseLen)
  | .pending ids _ => ids.lenIfKnown
  | .residual compare => compare.lenIfKnown

variable {M}

/-- The live rows selected. -/
def count (deleted : Option M) (baseLen : ℕ) : ViewSelection → Option (Option ℕ)
  | .exact selection => some (some (selection.liveLen deleted baseLen))
  | .pending ids _ =>
    match deleted with
    | none => (ids.count fl M).map Prod.fst
    | some deleted => (ids.liveLenWithoutIo fl M deleted).map Prod.fst
  | .residual compare => (compare.count fl deleted).map fun found => some found.1

/-- The live rows selected, up to a limit, where the selection counts no further. -/
def countCapped (limit : ℕ) (deleted : Option M) : ViewSelection → Option (Option ℕ)
  | .residual compare => (compare.countCapped fl limit deleted).map fun found => some found.1
  | .pending ids _ =>
    match deleted with
    | none => ids.countCapped fl M limit
    | some _ => some none
  | .exact _ => some none

/-- A window of the live rows of a selection that is not exact, beside as many of them as
are known; none where the window is cut from the exact selection. -/
def window (offset limit : ℕ) (deleted : Option M) :
    ViewSelection → Option (Option (RowSelection × Live))
  | .residual compare =>
    (compare.window fl offset limit deleted).map fun found =>
      some (.fromIds found.1.1, found.1.2)
  | .pending ids _ =>
    match deleted with
    | none => (ids.windowWithLive fl M offset limit).map fun found =>
        found.map fun page => (.fromIds page.1, page.2)
    | some _ => some none
  | .exact _ => some none

end Masked

end ViewSelection

/-! ### Stores -/

/-- A base in memory, with its index components and the plan of a served view. -/
structure MemoryBase (V : Type) where
  base : BaseArray V
  components : List (IndexComponent V)
  serve : Option (InMemoryServePlan V)

/-- A view's base: the base, the rows selected of it, and the tombstones. -/
structure QuadsSource (V M : Type) where
  selection : ViewSelection
  deleted : Option M
  memory : MemoryBase V

namespace QuadsSource

variable {V M : Type} (quads : QuadsSource V M)

def baseLen : ℕ := quads.memory.base.len

/-- Whether every base row is selected. -/
def isUnrefined : Bool := quads.selection.isAll

/-- Whether the selection is pending with no plan: a view only counted or windowed. -/
def isPendingWithoutPlan : Bool := !quads.selection.isExact && quads.memory.serve.isNone

def subjectSorted : Bool := quads.memory.base.subjectSorted

/-- The order the base rows read in, when it is a known sort. -/
def readOrder : Option SortOrder :=
  match quads.memory.serve with
  | some plan => some plan.decode.order
  | none => if quads.subjectSorted then some .spog else none

/-- This source under a selection, its reads served by a plan. -/
def inMemoryWith (selection : ViewSelection) (serve : Option (InMemoryServePlan V)) :
    QuadsSource V M :=
  { quads with selection := selection, memory := { quads.memory with serve := serve } }

def withSelection (selection : ViewSelection) : QuadsSource V M := quads.inMemoryWith selection none

/-- This source over every base row. -/
def unrestricted : QuadsSource V M := quads.inMemoryWith .all none

/-- This source with no base row and no index component. -/
def emptied : QuadsSource V M :=
  let source := quads.withSelection (.exact .empty)
  { source with memory := { source.memory with components := [] } }

/-- The view a plan serves. -/
def served : Option (ServedView V M) :=
  match quads.memory.serve, quads.selection with
  | some plan, .pending ids _ => some ⟨plan, ids, quads.deleted⟩
  | _, _ => none

end QuadsSource

/-- A store, or a view of one. -/
structure VortexRdfStore (ox : Oxrdf) (V M : Type) [LinearOrder V] [TermColumn V] where
  quads : QuadsSource V M
  layout : RoleLayout ox V
  indexes : List IndexType
  /-- The rows appended since the base was built, as strings. -/
  tail : Option (Tail M .default)

namespace VortexRdfStore

variable {ox : Oxrdf} {V M : Type} [LinearOrder V] [TermColumn V] (store : VortexRdfStore ox V M)

/-- A view of this store over a source and a tail. -/
def derived (quads : QuadsSource V M) (tail : Option (Tail M .default)) : VortexRdfStore ox V M :=
  { store with quads := quads, tail := tail }

/-- The appended rows, deleted ones among them. -/
def tailLen : ℕ := (store.tail.map fun tail => tail.rows.length).getD 0

def ensureNoDictionaryTail (operation : String) : Except VortexRdfError Unit :=
  if store.layout.strategy = .dictionary ∧ store.tailLen ≠ 0 then
    .error (.invalidOperation [.text (operation ++ " needs an empty append tail: the " ++
      toString store.tailLen ++ " appended rows hold terms the dictionary has no codes for; " ++
      "compact() the store first")])
  else .ok ()

/-- The layout's name, as it debugs. -/
def layoutName : LayoutStrategy → String
  | .default => "Default"
  | .typedObject => "TypedObject"
  | .dictionary => "Dictionary"

def ensureCodeView (operation : String) : Except VortexRdfError Unit :=
  if store.layout.strategy ≠ .dictionary then
    .error (.invalidOperation [.text (operation ++ " needs the Dictionary layout: this store's " ++
      layoutName store.layout.strategy ++ " layout stores terms as strings, which have no codes " ++
      "to keep")])
  else store.ensureNoDictionaryTail operation

/-- A view of no row, with nothing left to look a chained match up in. -/
def emptyView : VortexRdfStore ox V M :=
  { store.derived store.quads.emptied (store.tail.map fun tail => tail.withSelection .empty) with
    indexes := [] }

end VortexRdfStore

/-! ### Windows that stop early -/

section Stopped

variable {fl : FastLanes} {M : Type} [MaskOps M]

/-- A walk that stops before the last part has filled its window. -/
theorem windowLoop_full {c : ResidualCompare M} {parts : List (Option Part)}
    {cursor cursor' : WindowCursor} {ended : Bool}
    (h : c.windowLoop fl parts cursor = some (cursor', ended)) :
    cursor'.limit = cursor.limit ∧ (ended = false → cursor'.isFull = true) := by
  induction parts generalizing cursor with
  | nil =>
    obtain ⟨rfl, rfl⟩ := Prod.mk.inj (Option.some.inj h)
    exact ⟨rfl, nofun⟩
  | cons part parts ih =>
    rw [ResidualCompare.windowLoop.eq_def] at h
    dsimp only at h
    split_ifs at h with hfull
    · obtain ⟨rfl, rfl⟩ := Prod.mk.inj (Option.some.inj h)
      exact ⟨rfl, fun _ => hfull⟩
    · cases part with
      | none => cases h
      | some part =>
        dsimp only at h
        cases hcounted : c.unread fl part with
        | none =>
          rw [hcounted] at h
          cases h
        | some counted =>
          rw [hcounted] at h
          dsimp only at h
          split_ifs at h with hzero
          · exact ih h
          · cases hends : counted.filter cursor.endsBefore with
            | some found =>
              rw [hends] at h
              have hrest := ih h
              exact hrest
            | none =>
              rw [hends] at h
              dsimp only at h
              cases hmatched : c.matched fl part with
              | none =>
                rw [hmatched] at h
                cases h
              | some found =>
                rw [hmatched] at h
                have hrest := ih h
                exact hrest

variable {offset : ℕ}

theorem compareWindow_full {c : ResidualCompare M} {limit k : ℕ} {rows : List RowId}
    (h : c.window fl offset limit = some (rows, .atLeast k)) : limit ≤ rows.length := by
  rw [ResidualCompare.window] at h
  cases hspan : span c.selectedRows with
  | none =>
    rw [hspan] at h
    cases h
  | some range =>
    rw [hspan] at h
    obtain ⟨⟨cursor, ended⟩, hloop, hfinish⟩ := Option.map_eq_some_iff.mp h
    obtain ⟨hlimit, hfull⟩ := windowLoop_full hloop
    cases ended with
    | true => cases hfinish
    | false =>
      obtain ⟨rfl, -⟩ := Prod.mk.inj hfinish
      have hstop := hfull rfl
      rw [WindowCursor.isFull, hlimit] at hstop
      exact of_decide_eq_true hstop

theorem mapM_length {α β : Type} {f : α → Option β} {l : List α} {found : List β}
    (h : l.mapM f = some found) : found.length = l.length := by
  induction l generalizing found with
  | nil =>
    obtain rfl := Option.some.inj h
    rfl
  | cons a l ih =>
    rw [List.mapM_cons] at h
    obtain ⟨b, -, h⟩ := Option.bind_eq_some_iff.mp h
    obtain ⟨rest, hrest, h⟩ := Option.bind_eq_some_iff.mp h
    obtain rfl := Option.some.inj h
    rw [List.length_cons, List.length_cons, ih hrest]

theorem idsLoop_length {rids : List RowId} {start fuel : ℕ} {places : List ℕ} {ids : List RowId}
    (h : GraphCheck.idsLoop rids start fuel places = some ids) : ids.length = places.length := by
  induction fuel generalizing places ids with
  | zero =>
    cases places with
    | nil => rw [← Option.some.inj h]
    | cons first rest => cases h
  | succ fuel ih =>
    cases places with
    | nil => rw [← Option.some.inj h]
    | cons first rest =>
      rw [GraphCheck.idsLoop] at h
      obtain ⟨decoded, -, h⟩ := Option.bind_eq_some_iff.mp h
      obtain ⟨zone, hzone, h⟩ := Option.bind_eq_some_iff.mp h
      obtain ⟨more, hmore, rfl⟩ := Option.map_eq_some_iff.mp h
      rw [List.length_append, mapM_length hzone, ih hmore, ← List.length_append,
        List.take_append_drop]

theorem checkWindow_full {check : GraphCheck} {rids : List RowId} {limit k : ℕ}
    {ids : List RowId} (h : check.window fl M rids offset limit = some (ids, .atLeast k)) :
    limit ≤ ids.length := by
  obtain ⟨⟨rows, known⟩, hwindow, h⟩ := Option.bind_eq_some_iff.mp h
  obtain ⟨found, hfound, h⟩ := Option.map_eq_some_iff.mp h
  obtain ⟨rfl, rfl⟩ := Prod.mk.inj h
  rw [idsLoop_length hfound]
  exact compareWindow_full hwindow

theorem checkedWindow_full {run : CheckedRun} {limit k : ℕ} {ids : List RowId}
    (h : run.window fl M offset limit = some (ids, .atLeast k)) : limit ≤ ids.length := by
  rw [CheckedRun.window] at h
  cases hcells : (run.sorted <|> run.runOrder) with
  | some found =>
    rw [hcells] at h
    obtain ⟨page, -, hpage⟩ := Option.map_eq_some_iff.mp h
    cases hpage
  | none =>
    rw [hcells] at h
    exact checkWindow_full h

/-- Lazy ids whose window stops before their last one have filled it. -/
theorem lazyWindow_full {lazy : LazyRowIds} {limit k : ℕ} {ids : List RowId}
    (h : lazy.windowWithLive fl M offset limit = some (some (ids, .atLeast k))) :
    limit ≤ ids.length := by
  cases lazy with
  | checked run =>
    rw [LazyRowIds.windowWithLive] at h
    split_ifs at h with hascending
    · obtain ⟨found, hfound, hsame⟩ := Option.map_eq_some_iff.mp h
      rw [Option.some.inj hsame] at hfound
      exact checkedWindow_full hfound
    · cases h
  | component run =>
    obtain ⟨found, -, hpage⟩ := Option.map_eq_some_iff.mp h
    obtain ⟨page, -, hlive⟩ := Option.map_eq_some_iff.mp hpage
    cases hlive
  | unsorted _ _ => cases h

/-- A pending compare whose window stops before its last match has filled it. -/
theorem pendingWindow_full {compare kept : PendingResidual} {limit k : ℕ} {rows : List RowId}
    {deleted : Option M}
    (h : compare.window fl offset limit deleted = some ((rows, .atLeast k), kept)) :
    limit ≤ rows.length := by
  rw [PendingResidual.window] at h
  split_ifs at h with hcompares
  · obtain ⟨found, hfound, hsame⟩ := Option.map_eq_some_iff.mp h
    obtain ⟨rfl, rfl⟩ := Prod.mk.inj hsame
    exact compareWindow_full hfound
  · obtain ⟨found, -, hsame⟩ := Option.map_eq_some_iff.mp h
    obtain ⟨hwindow, -⟩ := Prod.mk.inj hsame
    cases (Prod.mk.inj hwindow).2

end Stopped

/-! ### What a selection yields -/

section Yields

variable (fl : FastLanes) {M : Type} [MaskOps M]

/-- Lazy ids of some base rows, in their own order; those of a narrowed view are live. -/
structure Recipe (deleted : Option M) (n : ℕ) (l : List RowId) (lazy : LazyRowIds) : Prop where
  holds : lazy.Holds fl M l
  nodup : l.Nodup
  inBase : ∀ id ∈ l, id < n
  narrowed : ∀ ids sorted, lazy = .unsorted ids sorted → ∀ id ∈ ids, live deleted id = true

/-- The live rows of a selection, in base order. -/
def ViewSelection.Yields (deleted : Option M) (n : ℕ) (ids : List RowId) : ViewSelection → Prop
  | .exact selection => selection.Within n ∧ ids = selection.liveListing deleted n
  | .pending lazy _ => ∃ l, Recipe fl deleted n l lazy ∧ ids = (inOrder l).filter (live deleted)
  | .residual compare => compare.Sound fl ∧ compare.table.len = n ∧
      ids = compare.matching.filter (live deleted)

end Yields

section Answers

variable {fl : FastLanes} {M : Type} [MaskOps M] {deleted : Option M} {n : ℕ} {ids : List RowId}

theorem Recipe.inOrder_within {l : List RowId} {lazy : LazyRowIds} (h : Recipe fl deleted n l lazy) :
    IdsWithin n (inOrder l) :=
  ⟨inOrder_sorted h.nodup, fun id hid => h.inBase id ((inOrder_perm l).mem_iff.mp hid)⟩

theorem within_matching {compare : PendingResidual} (h : compare.Sound fl) :
    IdsWithin compare.table.len compare.matching :=
  (listing_idsWithin h.within).of_sublist List.filter_sublist

variable {selection : ViewSelection}

/-- Live rows in base order are ids of the base. -/
theorem ViewSelection.Yields.within
    (h : selection.Yields fl deleted n ids) : IdsWithin n ids := by
  cases selection with
  | exact s =>
    obtain ⟨hs, rfl⟩ := h
    exact (listing_idsWithin hs).of_sublist List.filter_sublist
  | pending lazy _ =>
    obtain ⟨l, hrecipe, rfl⟩ := h
    exact hrecipe.inOrder_within.of_sublist List.filter_sublist
  | residual compare =>
    obtain ⟨hsound, rfl, rfl⟩ := h
    exact (within_matching hsound).of_sublist List.filter_sublist

theorem liveListing_ids {l : List RowId} (h : IdsWithin n l) :
    (RowSelection.ids l).liveListing deleted n = l.filter (live deleted) := by
  rw [RowSelection.liveListing, @listing_ids n l (.ids l) h rfl]

theorem listing_of_lists {s : RowSelection} {l : List ℕ} (h : Lists n (some s) l) :
    s.Within n ∧ s.listing n = l := by
  obtain ⟨_, heq, hs, hl⟩ := h
  obtain rfl := Option.some.inj heq
  exact ⟨hs, hl⟩

theorem filter_live_none (l : List RowId) : l.filter (live (none : Option M)) = l :=
  List.filter_eq_self.mpr fun _ _ => rfl

theorem length_filter_inOrder (p : RowId → Bool) (l : List RowId) :
    ((inOrder l).filter p).length = (l.filter p).length :=
  ((inOrder_perm l).filter p).length_eq

variable [LawfulMask M]

/-- A selection made exact has the same live rows. -/
theorem ViewSelection.Yields.materialized_spec
    (h : selection.Yields fl deleted n ids) : ∃ s, selection.materialized fl M = some s ∧
      s.Within n ∧ s.liveListing deleted n = ids := by
  cases selection with
  | exact s =>
    obtain ⟨hs, rfl⟩ := h
    exact ⟨s, rfl, hs, rfl⟩
  | pending lazy _ =>
    obtain ⟨l, hrecipe, rfl⟩ := h
    obtain ⟨kept, hkept, -⟩ := hrecipe.holds.materialized_spec hrecipe.nodup
    exact ⟨.ids (inOrder l), by rw [ViewSelection.materialized, hkept]; rfl, hrecipe.inOrder_within,
      liveListing_ids hrecipe.inOrder_within⟩
  | residual compare =>
    obtain ⟨hsound, rfl, rfl⟩ := h
    obtain ⟨kept, hkept, -⟩ := PendingResidual.materialized_spec (M := M) hsound
    exact ⟨.ids compare.matching, by rw [ViewSelection.materialized, hkept]; rfl,
      (within_matching hsound), liveListing_ids (within_matching hsound)⟩

theorem length_liveListing (hn : n ≤ usizeMax) {s : RowSelection} (hs : s.Within n)
    (hdeleted : ∀ d ∈ deleted, MaskOps.len d = n) :
    s.liveLen deleted n = (s.liveListing deleted n).length := by
  have hnodup : (s.liveListing deleted n).Nodup :=
    ((listing_idsWithin hs).ascending.nodup).sublist List.filter_sublist
  rw [liveLen_eq hn hs hdeleted, ← List.toFinset_card_of_nodup hnodup]
  congr 1
  ext i
  simp only [RowSelection.liveListing, List.mem_toFinset, List.mem_filter, Finset.mem_filter,
    RowSelection.listing, Finset.mem_sort]

/-- In memory the live rows are always counted. -/
theorem ViewSelection.Yields.count_spec (hn : n ≤ usizeMax)
    (hdeleted : ∀ d ∈ deleted, MaskOps.len d = n)
    (h : selection.Yields fl deleted n ids) :
    selection.count fl deleted n = some (some ids.length) := by
  cases selection with
  | exact s =>
    obtain ⟨hs, rfl⟩ := h
    rw [ViewSelection.count, length_liveListing hn hs hdeleted]
  | pending lazy _ =>
    obtain ⟨l, hrecipe, rfl⟩ := h
    rw [length_filter_inOrder]
    cases deleted with
    | none =>
      obtain ⟨kept, hkept, -⟩ := hrecipe.holds.count_spec
      rw [ViewSelection.count, filter_live_none, hkept]
      rfl
    | some d =>
      have hnarrowed : ∀ ids sorted, lazy = .unsorted ids sorted → ∀ id ∈ ids, value d id = false :=
        fun ids sorted hlazy id hid => by simpa [live] using hrecipe.narrowed ids sorted hlazy id hid
      obtain ⟨kept, hkept, -⟩ := hrecipe.holds.liveLen_spec hnarrowed
      rw [ViewSelection.count, hkept]
      rfl
  | residual compare =>
    obtain ⟨hsound, rfl, rfl⟩ := h
    obtain ⟨kept, hkept, -⟩ := PendingResidual.count_spec hsound hdeleted
    rw [ViewSelection.count, hkept]
    rfl

/-- What a selection counts up to a limit is its live rows, cut there. -/
theorem ViewSelection.Yields.countCapped_spec (hdeleted : ∀ d ∈ deleted, MaskOps.len d = n)
    (h : selection.Yields fl deleted n ids) (limit : ℕ) :
    ∃ counted, selection.countCapped fl limit deleted = some counted ∧
      Kept counted (min ids.length limit) := by
  cases selection with
  | exact s => exact ⟨none, rfl, kept_none _⟩
  | pending lazy _ =>
    obtain ⟨l, hrecipe, rfl⟩ := h
    cases deleted with
    | none =>
      obtain ⟨counted, hcounted, hkept⟩ := hrecipe.holds.countCapped_spec limit
      rw [length_filter_inOrder, filter_live_none]
      exact ⟨counted, hcounted, hkept⟩
    | some d => exact ⟨none, rfl, kept_none _⟩
  | residual compare =>
    obtain ⟨hsound, rfl, rfl⟩ := h
    obtain ⟨kept, hkept, -⟩ := PendingResidual.countCapped_spec hsound hdeleted limit
    exact ⟨_, by rw [ViewSelection.countCapped, hkept]; rfl, kept_some _⟩

omit [LawfulMask M] in
/-- A known width is of the live rows, or of more where some are tombstoned. -/
theorem ViewSelection.Yields.lenIfKnown_spec (hn : n ≤ usizeMax)
    (h : selection.Yields fl deleted n ids) {len : ℕ} (hlen : selection.lenIfKnown n = some len) :
    ids.length ≤ len ∧ (deleted = none → ids.length = len) := by
  cases selection with
  | exact s =>
    obtain ⟨hs, rfl⟩ := h
    obtain rfl : s.len n = len := Option.some.inj hlen
    have hlisting : (s.listing n).length = s.len n := by
      rw [len_eq_card hn hs, RowSelection.listing, Finset.length_sort]
    rw [← hlisting]
    refine ⟨List.length_filter_le _ _, ?_⟩
    rintro rfl
    rw [liveListing_none]
  | pending lazy _ =>
    obtain ⟨l, hrecipe, rfl⟩ := h
    obtain rfl := hrecipe.holds.lenIfKnown_eq len hlen
    rw [length_filter_inOrder]
    refine ⟨List.length_filter_le _ _, ?_⟩
    rintro rfl
    rw [filter_live_none]
  | residual compare =>
    obtain ⟨hsound, rfl, rfl⟩ := h
    obtain ⟨found, hfound, rfl⟩ := Option.map_eq_some_iff.mp hlen
    rw [hsound.kept found hfound]
    refine ⟨List.length_filter_le _ _, ?_⟩
    rintro rfl
    rw [filter_live_none]

/-! ### Windows of a selection -/

/-- A window, beside what is known of the live rows, is that of the live rows; where they
are not all known it is full. -/
structure Windowed (n offset limit : ℕ) (ids : List RowId) (s : RowSelection) (known : Live) :
    Prop where
  lists : Lists n (some s) (page offset limit ids)
  counts : Live.Of ids.length known
  full : ∀ k, known = .atLeast k → limit ≤ (page offset limit ids).length

omit [MaskOps M] [LawfulMask M] in
theorem page_within {offset limit : ℕ} (h : IdsWithin n ids) : IdsWithin n (page offset limit ids) :=
  h.of_sublist (page_sublist offset limit ids)

/-- What a selection windows before it is exact is the window of its live rows. -/
theorem ViewSelection.Yields.window_spec (hn : n ≤ usizeMax)
    (hdeleted : ∀ d ∈ deleted, MaskOps.len d = n)
    (h : selection.Yields fl deleted n ids) (offset limit : ℕ) :
    ∃ found, selection.window fl offset limit deleted = some found ∧
      ∀ s known, found = some (s, known) → Windowed n offset limit ids s known := by
  have hpage : IdsWithin n (page offset limit ids) := page_within h.within
  cases selection with
  | exact s => exact ⟨none, rfl, nofun⟩
  | pending lazy _ =>
    obtain ⟨l, hrecipe, rfl⟩ := h
    cases deleted with
    | none =>
      rw [filter_live_none] at hpage ⊢
      have hsmall : l.length ≤ usizeMax := by
        rw [← (inOrder_perm l).length_eq]
        exact hrecipe.inOrder_within.length_le.trans hn
      obtain ⟨found, hfound, hknown⟩ := hrecipe.holds.windowWithLive_spec hsmall offset limit
      refine ⟨_, by rw [ViewSelection.window, hfound]; rfl, fun s known hsome => ?_⟩
      obtain ⟨⟨rows, known'⟩, rfl, heq⟩ := Option.map_eq_some_iff.mp hsome
      obtain ⟨rfl, rfl⟩ := Prod.mk.inj heq
      obtain ⟨rfl, hof⟩ := hknown _ rfl
      refine ⟨lists_fromIds hpage, ?_, ?_⟩
      · rwa [(inOrder_perm l).length_eq]
      · rintro k rfl
        exact lazyWindow_full hfound
    | some d => exact ⟨none, rfl, nofun⟩
  | residual compare =>
    obtain ⟨hsound, rfl, rfl⟩ := h
    obtain ⟨known, kept, hwindow, hknown, -⟩ :=
      PendingResidual.window_spec hsound hdeleted offset limit
    refine ⟨_, by rw [ViewSelection.window, hwindow]; rfl, fun s known' hsome => ?_⟩
    obtain ⟨rfl, rfl⟩ := Prod.mk.inj (Option.some.inj hsome)
    refine ⟨lists_fromIds hpage, hknown, ?_⟩
    rintro k rfl
    exact pendingWindow_full hwindow

omit [LawfulMask M] in
/-- A window of an exact selection is that of its live rows. -/
theorem window_lists (hn : n ≤ usizeMax) {s : RowSelection} (hs : s.Within n) (offset limit : ℕ) :
    Lists n (s.window offset limit deleted n) (page offset limit (s.liveListing deleted n)) := by
  obtain ⟨cut, hcut, hwithin, hrows⟩ := window_selects hn hs offset limit deleted
  have hpage : IdsWithin n (page offset limit (s.liveListing deleted n)) :=
    page_within ((listing_idsWithin hs).of_sublist List.filter_sublist)
  exact ⟨cut, hcut, hwithin, by rw [RowSelection.listing, hrows, hpage.sort]⟩

end Answers

/-! ### What a view shows -/

section Shows

variable {ox : Oxrdf} {V M : Type} [LinearOrder V] [TermColumn V] [Inhabited V] [MaskOps M]

/-- A base with its components, sound: each component is built from the rows, and the probe
of a row id column reads it. -/
structure MemoryBase.Sound (fl : FastLanes) (strategy : LayoutStrategy) (memory : MemoryBase V) :
    Prop where
  base : memory.base.Sound fl strategy
  built : ∀ c ∈ memory.components, ∃ child, c.BuiltFrom fl memory.base.rows child
  rids : ∀ c child, c.BuiltFrom fl memory.base.rows child → memory.base.ReadsRids fl c

/-- The live base rows a view shows, in the order they read in: a plan's order where one
serves the view, else base order. -/
def QuadsSource.Reads (fl : FastLanes) (ids : List RowId) (quads : QuadsSource V M) : Prop :=
  match quads.memory.serve with
  | none => quads.selection.Yields fl quads.deleted quads.baseLen ids
  | some plan => ∃ family places lazy matched l, quads.selection = .pending lazy matched ∧
      plan.Covers fl quads.memory.base.rows family quads.deleted places ∧
      Recipe fl quads.deleted quads.baseLen l lazy ∧ l.filter (live quads.deleted) = ids ∧
      ids = places.map ((IndexChild.copy family).ridAt quads.memory.base.rows)

/-- A view's live base rows: in the order a plan declares, and all the matches of the pattern
the view names, where it names one. -/
structure QuadsSource.Shows (fl : FastLanes) (layout : RoleLayout ox V) (ids : List RowId)
    (quads : QuadsSource V M) : Prop where
  reads : quads.Reads fl ids
  declared : ∀ plan, quads.memory.serve = some plan →
    plan.decode.Declares layout.strategy quads.memory.base.rows ids
  matched : ∀ lazy first, quads.selection = .pending lazy (some first) →
    inOrder ids = (layout.matchingRows quads.memory.base.rows first.boundRoles).filter
      (live quads.deleted)

/-- The live rows of a tail, in its order. -/
def tailListing (tail : Option (Tail M .default)) : List RowId :=
  match tail with
  | some tail => tail.selection.liveListing tail.deleted tail.rows.length
  | none => []

/-- The data behind a store is sound. -/
structure VortexRdfStore.Sound (fl : FastLanes) (finish : Finish) (store : VortexRdfStore ox V M) :
    Prop where
  memory : store.quads.memory.Sound fl store.layout.strategy
  tombstones : ∀ d ∈ store.quads.deleted, MaskOps.len d = store.quads.baseLen
  kept : ∀ tail ∈ store.tail, tail.Kept finish

/-- A view over sound data, with the base rows and the tail rows it shows. -/
structure VortexRdfStore.Shows (fl : FastLanes) (finish : Finish) (ids tailIds : List RowId)
    (store : VortexRdfStore ox V M) : Prop where
  sound : store.Sound fl finish
  base : store.quads.Shows fl store.layout ids
  tail : tailListing store.tail = tailIds

/-- Two views of the same data: the same base, tombstones and layout, and the same tail. -/
structure SameData (store view : VortexRdfStore ox V M) : Prop where
  base : view.quads.memory.base = store.quads.memory.base
  deleted : view.quads.deleted = store.quads.deleted
  layout : view.layout = store.layout
  tail : (view.tail.map fun tail => (tail.rows, tail.deleted, tail.keys)) =
    store.tail.map fun tail => (tail.rows, tail.deleted, tail.keys)

variable {fl : FastLanes} {finish : Finish} {ids tailIds : List RowId}

variable {quads : QuadsSource V M}

/-- A view's selection is of the rows the view shows, in base order. -/
theorem QuadsSource.Reads.yields (h : quads.Reads fl ids) :
    quads.selection.Yields fl quads.deleted quads.baseLen (inOrder ids) := by
  rw [QuadsSource.Reads] at h
  cases hserve : quads.memory.serve with
  | none =>
    rw [hserve] at h
    rwa [inOrder_of_sorted h.within.ascending]
  | some plan =>
    rw [hserve] at h
    obtain ⟨family, places, lazy, matched, l, hselection, -, hrecipe, hids, -⟩ := h
    rw [hselection, ← hids]
    refine ⟨l, hrecipe, inOrder_eq ((inOrder_perm l).symm.filter _) ?_⟩
    exact (hrecipe.inOrder_within.ascending.pairwise.sublist List.filter_sublist).sortedLT

theorem QuadsSource.Reads.plain (h : quads.Reads fl ids)
    (hserve : quads.memory.serve = none) :
    quads.selection.Yields fl quads.deleted quads.baseLen ids := by
  rwa [QuadsSource.Reads, hserve] at h

/-- Without a plan the rows read in base order. -/
theorem QuadsSource.Reads.inOrder_eq (h : quads.Reads fl ids)
    (hserve : quads.memory.serve = none) : inOrder ids = ids :=
  inOrder_of_sorted (h.plain hserve).within.ascending

theorem QuadsSource.Reads.nodup (h : quads.Reads fl ids) : ids.Nodup :=
  (inOrder_perm ids).nodup_iff.mp h.yields.within.ascending.nodup

theorem QuadsSource.Reads.inBase (h : quads.Reads fl ids) {id : RowId}
    (hid : id ∈ ids) : id < quads.baseLen :=
  h.yields.within.inBase id ((inOrder_perm ids).mem_iff.mpr hid)

/-- The rows a view shows are live. -/
theorem ViewSelection.Yields.live_of_mem {deleted : Option M} {n : ℕ} {selection : ViewSelection}
    (h : selection.Yields fl deleted n ids) {id : RowId} (hid : id ∈ ids) :
    live deleted id = true := by
  cases selection with
  | exact s =>
    obtain ⟨-, rfl⟩ := h
    exact (List.mem_filter.mp hid).2
  | pending lazy _ =>
    obtain ⟨l, -, rfl⟩ := h
    exact (List.mem_filter.mp hid).2
  | residual compare =>
    obtain ⟨-, -, rfl⟩ := h
    exact (List.mem_filter.mp hid).2

theorem QuadsSource.Reads.live_of_mem (h : quads.Reads fl ids) {id : RowId}
    (hid : id ∈ ids) : live quads.deleted id = true :=
  h.yields.live_of_mem ((inOrder_perm ids).mem_iff.mpr hid)

/-- A source under an exact selection shows its live rows. -/
theorem QuadsSource.Shows.exact {layout : RoleLayout ox V}
    {s : RowSelection} (hs : s.Within quads.baseLen) :
    (quads.withSelection (.exact s)).Shows fl layout (s.liveListing quads.deleted quads.baseLen) where
  reads := ⟨hs, rfl⟩
  declared _ h := nomatch h
  matched _ _ h := nomatch h

/-- A view a plan serves, as the narrowings of one know it. -/
theorem QuadsSource.Reads.served (h : quads.Reads fl ids)
    {plan : InMemoryServePlan V} (hserve : quads.memory.serve = some plan) :
    ∃ family places view, quads.served = some view ∧ view.plan = plan ∧
      view.deleted = quads.deleted ∧
      ServedView.Names fl quads.memory.base.rows family places view ∧
      ids = places.map ((IndexChild.copy family).ridAt quads.memory.base.rows) := by
  rw [QuadsSource.Reads, hserve] at h
  obtain ⟨family, places, lazy, matched, l, hselection, hcovers, hrecipe, hids, hplaces⟩ := h
  refine ⟨family, places, ⟨plan, lazy, quads.deleted⟩, by rw [QuadsSource.served, hserve, hselection],
    rfl, rfl, ⟨hcovers, l, hrecipe.holds, hrecipe.nodup, ?_⟩, hplaces⟩
  exact hids.trans hplaces

/-! ### The empty view -/

theorem liveListing_empty (deleted : Option M) (n : ℕ) :
    RowSelection.empty.liveListing deleted n = [] := by
  rw [RowSelection.liveListing, RowSelection.listing, rows_empty, Finset.sort_empty]
  rfl

theorem tailListing_empty (tail : Option (Tail M .default)) :
    tailListing (tail.map fun tail => tail.withSelection .empty) = [] := by
  cases tail with
  | none => rfl
  | some tail => exact liveListing_empty tail.deleted tail.rows.length

theorem Tail.Kept.withSelection {tail : Tail M .default} (h : tail.Kept finish) {s : RowSelection}
    (hs : s.Within tail.rows.length) : (tail.withSelection s).Kept finish :=
  ⟨h.fits, hs, h.tombstones, h.keyed⟩

theorem QuadsSource.emptied_shows (layout : RoleLayout ox V) (quads : QuadsSource V M) :
    quads.emptied.Shows fl layout [] where
  reads := ⟨within_empty, (liveListing_empty _ _).symm⟩
  declared _ h := nomatch h
  matched lazy first h := by
    have hexact : ViewSelection.exact .empty = .pending lazy (some first) := h
    cases hexact

/-- The empty view shows no row. -/
theorem VortexRdfStore.Sound.emptyView {store : VortexRdfStore ox V M} (h : store.Sound fl finish) :
    store.emptyView.Shows fl finish [] [] ∧ SameData store store.emptyView := by
  refine ⟨⟨⟨⟨h.memory.base, nofun, h.memory.rids⟩, h.tombstones, ?_⟩,
    store.quads.emptied_shows store.layout, tailListing_empty store.tail⟩, rfl, rfl, rfl, ?_⟩
  · intro tail htail
    obtain ⟨parent, hparent, rfl⟩ := Option.map_eq_some_iff.mp htail
    exact Tail.Kept.withSelection (h.kept parent hparent) within_empty
  · show (store.tail.map fun tail => tail.withSelection .empty).map _ = _
    rw [Option.map_map]
    rfl

end Shows

end Views
