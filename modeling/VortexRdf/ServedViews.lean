/-
A served view under windows, keeps, chained matches and partitions.

A view names its rows twice: by their places in the copy, which its plan covers, and by
their base row ids, computed when asked.  A narrowing cuts or keeps the live rows and
leaves both naming what is left.

* `ServedView`, `Narrowing`, `ServedView.narrow` — a view, and what a narrowing makes of it;
* `Narrowing.apply` — the narrowing of the rows themselves, in the copy's order;
* `ServedView.Names` — the places and the ids name the same live rows;
* `narrow_spec`, `run_spec` — a narrowing keeps it so, and does to the rows what it says; so does
  any run of them.

`none` stands for a panic or an error of the array library.
-/
import VortexRdf.Keeps
import VortexRdf.ServedReads

namespace Indexes

open Ascending Bisect Buffers Builds Dictionary Masks MaskOps Terms
open EncodedSearch (FastLanes Node)
open Store hiding Row

/-! ### Views and narrowings -/

/-- A view an in-memory plan serves: its plan, its lazy row ids, the base's tombstones. -/
structure ServedView (V : Type) (M : Type) where
  plan : InMemoryServePlan V
  ids : LazyRowIds
  deleted : Option M

/-- A step that narrows a view. -/
inductive Narrowing where
  | window (offset limit : ℕ)
  | keep (column : QuadColumn) (codes : Keep)
  | chain (pattern : QuadPattern)
  /-- Piece `i` of the view cut into at most `n`. -/
  | partition (n : ℕ) (pos : 0 < n) (i : ℕ)

/-- What a narrowing makes of a served view. -/
inductive Narrowed (V : Type) (M : Type) where
  | served (view : ServedView V M)
  /-- A view without a plan that reads no base row. -/
  | empty
  /-- A view matched or kept anew in base order, with no plan. -/
  | unserved
  /-- A keep where codes are not the view's vocabulary. -/
  | refused

/-- The piece of a partition, one behind another. -/
def cut {α : Type*} (n : ℕ) (l : List α) : List (List α) :=
  (batchRanges l.length (divCeil l.length n)).map fun piece =>
    (l.drop piece.start).take (piece.stop - piece.start)

namespace ServedView

variable {V : Type} {M : Type} [MaskOps M]

/-- The view narrowed to some of its live rows, served: their ids unsorted. -/
def narrowed (view : ServedView V M) (rows : LiveRows) : Option (ServedView V M) :=
  (rows.intoSpan fun range => (view.plan.rangeRids range).map LazyRowIds.fromUnsortedIds).map
    fun span : ServedSpan × LazyRowIds => ⟨view.plan.withSpan span.1, span.2, view.deleted⟩

/-- The window of a served view; one that holds no base row selects none, with no plan. -/
def servedWindow (view : ServedView V M) (offset limit : ℕ) : Option (Narrowed V M) :=
  (view.plan.live view.deleted).bind fun live =>
    match windowRows offset limit live.len with
    | some rows => ((live.slice rows).bind view.narrowed).map .served
    | none => some .empty

/-- The served windows a view is cut into; none for a view with no live row. -/
def servedPartitions (view : ServedView V M) (n : ℕ) : Option (Option (List (ServedView V M))) :=
  (view.plan.live view.deleted).bind fun live =>
    if live.len = 0 then some none
    else
      ((batchRanges live.len (divCeil live.len n)).mapM fun piece =>
        (live.slice piece).bind view.narrowed).map some

/-- A view cut into at most `n`: with no live row, as an unserved view is. -/
def partitions (view : ServedView V M) (n : ℕ) : Option (List (Narrowed V M)) :=
  if n = 1 then some [.served view]
  else (view.servedPartitions n).map fun parts =>
    match parts with
    | some parts => parts.map .served
    | none => [.empty]

/-- The view narrowed to a keep's or a chained match's rows; the empty view for none. -/
def servedKept (view : ServedView V M) (kept : ServedRows) : Option (Narrowed V M) :=
  if kept.rids.length = 0 then some .empty else (view.narrowed (.kept kept)).map .served

variable (fl : FastLanes) (base : ServedBase V)

/-- The view's live rows whose code a test admits: read off the base's code cache at their
row ids, else off the component's probe at their positions; none where neither reads. -/
def admitted (view : ServedView V M) (column : QuadColumn) (test : KeepTest) :
    Option (Option ServedRows) :=
  match base.cache column, view.plan.component.encoding.probes (roleColumn column) with
  | some codes, _ =>
    (view.plan.keptRows view.deleted fun _ rid => codes[rid]?.map fun code => test.admits code).map some
  | none, some probe =>
    (view.plan.keptRows view.deleted fun position _ =>
      (EncodedSearch.SortedProbe.valueAt fl probe position).map fun code => test.admits code).map some
  | none, none => some none

variable [LinearOrder V] [TermColumn V] {ox : Oxrdf} (layout : IndexedLayout ox V)

/-- A keep of a served view, served too. -/
def servedKeep (view : ServedView V M) (column : QuadColumn) (keep : Keep) : Option (Narrowed V M) :=
  if layout.strategy ≠ .dictionary then some .refused
  else if keep.isEmpty then some .empty
  else if view.plan.spanLen = 0 then some .empty
  else
    (view.admitted fl base column (keep.test view.plan.spanLen)).bind fun kept =>
      match kept with
      | none => some .unserved
      | some kept => view.servedKept kept

/-- Each bound role's column and probe value; none for a term the layout proves absent. -/
def chainEqs (ox : Oxrdf) (codes : PatternCodes) : List TermRef → Except VortexRdfError (Option (List Equality))
  | [] => .ok (some [])
  | term :: terms =>
    match codes.probeScalar ox term with
    | .error e => .error e
    | .ok none => .ok none
    | .ok (some value) =>
      (chainEqs ox codes terms).map fun eqs => eqs.map fun eqs => (term.role.name, value) :: eqs

/-- A pattern chained on a view: one a narrowing cut keeps its rows that match, any other
is matched anew. -/
def chained (view : ServedView V M) (pattern : QuadPattern) : Attempt (Narrowed V M) :=
  if view.plan.narrowed then
    match layout.prepare pattern with
    | .empty => some (.ok .empty)
    | .codes codes =>
      Attempt.andThen (some (chainEqs ox codes pattern.boundRoles)) fun eqs =>
        match eqs with
        | none => some (.ok .empty)
        | some [] => some (.ok (.served view))
        | some (eq :: eqs) =>
          (view.plan.rowsWhere view.deleted (eq :: eqs)).bind fun kept =>
            (view.servedKept kept).map .ok
  else some (.ok .unserved)

/-- A narrowing of a served view; a partition past the last is the empty view. -/
def narrow (view : ServedView V M) : Narrowing → Attempt (Narrowed V M)
  | .window offset limit => (view.servedWindow offset limit).map .ok
  | .keep column codes => (view.servedKeep fl base layout column codes).map .ok
  | .chain pattern => view.chained layout pattern
  | .partition n _ i => (view.partitions n).map fun parts => .ok (parts.getD i .empty)

/-- Narrowings in turn, as long as the view is served. -/
def run (view : ServedView V M) : List Narrowing → Attempt (Narrowed V M)
  | [] => some (.ok (.served view))
  | narrowing :: narrowings =>
    Attempt.andThen (view.narrow fl base layout narrowing) fun outcome =>
      match outcome with
      | .served view => view.run narrowings
      | outcome => some (.ok outcome)

end ServedView

/-! ### The rows narrowed -/

section Rows

variable {V : Type} [LinearOrder V] [TermColumn V] {ox : Oxrdf} (layout : IndexedLayout ox V)

/-- Whether a keep admits a value's code. -/
def keepHolds (keep : Keep) (v : V) : Bool := (unsignedValue (TermColumn.scalar v)).any fun code =>
  keep.admits code

/-- A narrowing of rows, each beside its base row id, in their order. -/
def Narrowing.apply (rows : List (Row V × RowId)) : Narrowing → List (Row V × RowId)
  | .window offset limit => page offset limit rows
  | .keep column codes => rows.filter fun row => keepHolds codes (roleValue row.1 column)
  | .chain pattern => rows.filter fun row => pattern.boundRoles.all (layout.holds row.1)
  | .partition n _ i => (cut n rows).getD i []

end Rows

/-! ### What a plan's tests keep -/

theorem collectPairs_eq {α : Type} {keep : α → Option (Option (ℕ × RowId))} {rows : List α}
    {p : α → Bool} {f : α → ℕ × RowId}
    (h : ∀ row ∈ rows, keep row = some (if p row then some (f row) else none)) :
    ServedRows.collectPairs keep rows = some ((rows.filter p).map f) := by
  induction rows with
  | nil => rfl
  | cons row rows ih =>
    obtain ⟨hrow, hrest⟩ := List.forall_mem_cons.mp h
    rw [ServedRows.collectPairs, hrow, ih hrest, Option.bind_some, Option.map_some]
    cases hp : p row with
    | true => rw [List.filter_cons_of_pos hp]; rfl
    | false => rw [List.filter_cons_of_neg (by rw [hp]; exact Bool.false_ne_true)]; rfl

theorem collect_eq {α : Type} {keep : α → Option (Option (ℕ × RowId))} {rows : List α}
    {p : α → Bool} {f : α → ℕ × RowId}
    (h : ∀ row ∈ rows, keep row = some (if p row then some (f row) else none)) :
    ServedRows.collect rows keep = some (ServedRows.ofPairs ((rows.filter p).map f)) := by
  rw [ServedRows.collect, collectPairs_eq h, Option.map_some]

theorem positionsAndRids_ofPairs (l : List (ℕ × RowId)) :
    (ServedRows.ofPairs l).positionsAndRids = l := by
  rw [ServedRows.positionsAndRids, ServedRows.ofPairs, List.zip_map', List.map_id'']
  exact fun _ => rfl

section Plans

variable {V : Type} [LinearOrder V] [TermColumn V] [Inhabited V] {M : Type} [MaskOps M]
  {fl : FastLanes} {rows : List (Row V)} {family : CopyFamily} {plan : InMemoryServePlan V}
  {deleted : Option M} {places : List ℕ}

namespace InMemoryServePlan.Covers

variable (h : plan.Covers fl rows family deleted places)
include h

/-- A test of the live rows, each offered beside its base row id. -/
theorem keptRows_spec {a : ℕ → RowId → Option Bool} {q : ℕ → Bool}
    (hadmits : ∀ i ∈ places, a i ((IndexChild.copy family).ridAt rows i) = some (q i)) :
    plan.keptRows deleted a = some (ServedRows.ofPairs
      ((places.filter q).map ((IndexChild.copy family).pairAt rows))) := by
  have hspan := h.span
  rw [InMemoryServePlan.keptRows]
  cases hcase : plan.span with
  | kept listed =>
    rw [hcase] at hspan
    obtain rfl : listed = _ := hspan
    dsimp only
    rw [positionsAndRids_ofPairs, collect_eq (p := fun row => q row.1) (f := id), List.map_id,
      List.filter_map]
    · rfl
    · intro row hrow
      obtain ⟨i, hi, rfl⟩ := List.mem_map.mp hrow
      show (a i ((IndexChild.copy family).ridAt rows i)).map _ = _
      rw [hadmits i hi]
      rfl
  | range part =>
    rw [hcase] at hspan
    obtain ⟨hstart, horder, hstop, hplaces⟩ := hspan
    dsimp only
    rw [h.rangeRids_spec hstart horder hstop, Option.bind_some, zip_map_self]
    have hlive : ∀ i ∈ part.toList, liveRid deleted ((IndexChild.copy family).ridAt rows i) = true →
        a i ((IndexChild.copy family).ridAt rows i) = some (q i) := by
      intro i hi hlive
      exact hadmits i (by rw [hplaces]; exact List.mem_filter.mpr ⟨hi, hlive⟩)
    rw [collect_eq (p := fun row => liveRid deleted row.2 && q row.1) (f := id), List.map_id,
      List.filter_map, hplaces, List.filter_filter]
    · refine congrArg some (congrArg ServedRows.ofPairs (congrArg (List.map _) ?_))
      refine List.filter_congr fun i _ => ?_
      exact Bool.and_comm _ _
    · intro row hrow
      obtain ⟨i, hi, rfl⟩ := List.mem_map.mp hrow
      cases deleted with
      | none =>
        dsimp only
        rw [hlive i hi rfl]
        rfl
      | some deleted =>
        dsimp only
        cases hdead : value deleted ((IndexChild.copy family).ridAt rows i) with
        | true => simp [liveRid, hdead]
        | false =>
          rw [if_neg Bool.false_ne_true, hlive i hi (by simp [liveRid, hdead])]
          simp [liveRid, hdead]

/-- The base row ids of the live rows, in the component's order. -/
theorem liveRids_spec :
    plan.liveRids deleted = some (places.map ((IndexChild.copy family).ridAt rows)) := by
  have hspan := h.span
  rw [InMemoryServePlan.liveRids]
  cases hcase : plan.span with
  | kept listed =>
    rw [hcase] at hspan
    exact congrArg some hspan.kept.2
  | range part =>
    rw [hcase] at hspan
    obtain ⟨hstart, horder, hstop, hplaces⟩ := hspan
    dsimp only
    rw [h.rangeRids_spec hstart horder hstop, Option.map_some, hplaces]
    cases deleted with
    | none =>
      rw [filter_liveRid_none]
    | some deleted =>
      dsimp only
      rw [List.filter_map]
      rfl

end InMemoryServePlan.Covers

end Plans

/-! ### Live rows and their pieces -/

section Pieces

variable {V : Type} [LinearOrder V] [Inhabited V] {M : Type} [MaskOps M] {rows : List (Row V)}
  {deleted : Option M} {places : List ℕ}

/-- Live rows list some places of a run. -/
def LiveRows.Lists (child : IndexChild) (rows : List (Row V)) (deleted : Option M) (run : RowRange)
    (places : List ℕ) : LiveRows → Prop
  | .range part => run.start ≤ part.start ∧ part.start ≤ part.stop ∧ part.stop ≤ run.stop ∧
      places = part.toList
  | .spanned listed => listed = ServedRows.ofPairs (places.map (child.pairAt rows)) ∧
      Fills (fun i => liveRid deleted (child.ridAt rows i)) places
  | .kept listed => listed = ServedRows.ofPairs (places.map (child.pairAt rows))

theorem LiveRows.Lists.len_eq {child : IndexChild} {run : RowRange} {live : LiveRows}
    (h : live.Lists child rows deleted run places) : live.len = places.length := by
  cases live with
  | range part =>
    rw [h.2.2.2, RowRange.toList, List.length_range']
    rfl
  | spanned listed =>
    obtain ⟨rfl, -⟩ := h
    rw [LiveRows.len, ServedRows.ofPairs, List.length_map, List.length_map]
  | kept listed =>
    obtain rfl : listed = _ := h
    rw [LiveRows.len, ServedRows.ofPairs, List.length_map, List.length_map]

theorem slice_ofPairs {l : List (ℕ × RowId)} {piece : RowRange} (hpiece : piece.Within l.length) :
    (ServedRows.ofPairs l).slice piece =
      some (ServedRows.ofPairs ((l.drop piece.start).take (piece.stop - piece.start))) := by
  rw [ServedRows.slice, ServedRows.ofPairs]
  dsimp only
  rw [sliceOf_eq hpiece.ordered (by rw [List.length_map]; exact hpiece.inBase), Option.bind_some,
    sliceOf_eq hpiece.ordered (by rw [List.length_map]; exact hpiece.inBase), Option.map_some,
    ServedRows.ofPairs, List.map_take, List.map_drop, List.map_take, List.map_drop]

/-- A piece of ascending places that fill their span fills its own. -/
theorem Fills.slice {admits : ℕ → Bool} (h : Fills admits places) (hsorted : places.SortedLT)
    (m n : ℕ) : Fills admits ((places.drop m).take n) := by
  intro a ha b hb i hai hib hadmits
  have hsub : ((places.drop m).take n).Sublist places :=
    (List.take_sublist _ _).trans (List.drop_sublist _ _)
  have hi := h a (hsub.subset ha) b (hsub.subset hb) i hai hib hadmits
  -- what comes before the piece is below it, what comes after above it
  have hcut : places = places.take m ++ ((places.drop m).take n ++ (places.drop m).drop n) := by
    rw [List.take_append_drop, List.take_append_drop]
  have hpairs := hsorted.pairwise
  rw [hcut] at hi hpairs
  obtain ⟨-, hrest, hbefore⟩ := List.pairwise_append.mp hpairs
  obtain ⟨-, -, hafter⟩ := List.pairwise_append.mp hrest
  rcases List.mem_append.mp hi with hi | hi
  · have := hbefore i hi a (List.mem_append_left _ ha)
    omega
  · rcases List.mem_append.mp hi with hi | hi
    · exact hi
    · have := hafter b hb i hi
      omega

theorem LiveRows.Lists.slice_spec {child : IndexChild} {run : RowRange} {live : LiveRows}
    (h : live.Lists child rows deleted run places) (hsorted : places.SortedLT) {piece : RowRange}
    (hpiece : piece.Within places.length) : ∃ part, live.slice piece = some part ∧
      part.Lists child rows deleted run ((places.drop piece.start).take (piece.stop - piece.start)) := by
  obtain ⟨horder, hstop⟩ := hpiece
  cases live with
  | range part =>
    obtain ⟨hrunStart, hpart, hrunStop, rfl⟩ := h
    rw [RowRange.toList, List.length_range'] at hstop
    refine ⟨_, rfl, ?_, ?_, ?_, ?_⟩
    · dsimp only
      omega
    · dsimp only
      omega
    · dsimp only
      omega
    · rw [RowRange.toList, RowRange.toList, List.drop_range', List.take_range'_of_length_ge (by omega),
        Nat.mul_one, Nat.add_sub_add_left]
  | spanned listed =>
    obtain ⟨rfl, hfills⟩ := h
    rw [LiveRows.slice, slice_ofPairs ⟨horder, by rwa [List.length_map]⟩, ← List.map_drop,
      ← List.map_take]
    exact ⟨_, rfl, rfl, hfills.slice hsorted _ _⟩
  | kept listed =>
    obtain rfl : listed = _ := h
    rw [LiveRows.slice, slice_ofPairs ⟨horder, by rwa [List.length_map]⟩, ← List.map_drop,
      ← List.map_take]
    exact ⟨_, rfl, rfl⟩

end Pieces

/-! ### Pieces of a list -/

theorem divCeil_zero (per : ℕ) : divCeil 0 per = 0 := by
  cases per with
  | zero => rfl
  | succ per => exact Nat.div_eq_of_lt (by omega)

theorem cut_nil {α : Type*} (n : ℕ) : cut n ([] : List α) = [] := by
  rw [cut, batchRanges, List.length_nil, divCeil_zero, divCeil_zero]
  rfl

theorem cut_one {α : Type*} {l : List α} (hl : l.length ≤ usizeMax) (hne : l ≠ []) :
    cut 1 l = [l] := by
  have hself : divCeil l.length 1 = l.length := by
    rw [divCeil, Nat.add_sub_cancel, Nat.div_one]
  have hstop : min (saturatingAdd 0 l.length) l.length = l.length := by
    rw [min_saturatingAdd hl, Nat.zero_add, min_self]
  rw [cut, hself, batchRanges, divCeil_of_le (List.length_pos_iff.mpr hne) le_rfl, List.range'_one,
    List.map_singleton, List.map_singleton, hstop, List.drop_zero, Nat.sub_zero, List.take_length]

theorem cut_map {α β : Type*} (f : α → β) (n : ℕ) (l : List α) :
    cut n (l.map f) = (cut n l).map (List.map f) := by
  rw [cut, cut, List.length_map, List.map_map]
  refine List.map_congr_left fun piece _ => ?_
  rw [Function.comp_apply, List.map_take, List.map_drop]

section Rows

variable {V : Type} [LinearOrder V] [TermColumn V] {ox : Oxrdf}

theorem apply_nil (layout : IndexedLayout ox V) (narrowing : Narrowing) :
    narrowing.apply layout [] = [] := by
  cases narrowing with
  | window offset limit => rw [Narrowing.apply, page, List.drop_nil, List.take_nil]
  | keep column codes => rfl
  | chain pattern => rfl
  | partition n pos i => rw [Narrowing.apply, cut_nil]; rfl

theorem foldl_apply_nil (layout : IndexedLayout ox V) (narrowings : List Narrowing) :
    narrowings.foldl (fun rows narrowing => narrowing.apply layout rows) [] = [] := by
  induction narrowings with
  | nil => rfl
  | cons narrowing narrowings ih => rw [List.foldl_cons, apply_nil, ih]

end Rows

/-- Each step of a traversal has a result, so the traversal has them all. -/
theorem mapM_forall₂ {α β : Type} {f : α → Option β} {R : β → α → Prop} {l : List α}
    (h : ∀ a ∈ l, ∃ b, f a = some b ∧ R b a) : ∃ bs, l.mapM f = some bs ∧ List.Forall₂ R bs l := by
  induction l with
  | nil => exact ⟨[], rfl, .nil⟩
  | cons a l ih =>
    obtain ⟨⟨b, hb, hr⟩, hrest⟩ := List.forall_mem_cons.mp h
    obtain ⟨bs, hbs, hall⟩ := ih hrest
    exact ⟨b :: bs, by rw [List.mapM_cons, hb, hbs]; rfl, .cons hr hall⟩

section Views

variable {V : Type} [LinearOrder V] [TermColumn V] [Inhabited V] {M : Type} [MaskOps M]
  {fl : FastLanes} {rows : List (Row V)} {family : CopyFamily} {plan : InMemoryServePlan V}
  {deleted : Option M} {places : List ℕ}

/-- The live rows a plan lists are those of the places it covers. -/
theorem InMemoryServePlan.Covers.live_spec (h : plan.Covers fl rows family deleted places) :
    ∃ live, plan.live deleted = some live ∧
      live.Lists (.copy family) rows deleted plan.run places := by
  have hspan := h.span
  have hall := h.keptRows_spec (a := fun _ _ => some true) (q := fun _ => true) (fun _ _ => rfl)
  rw [List.filter_true] at hall
  cases hcase : plan.span with
  | kept listed =>
    rw [hcase] at hspan
    exact ⟨.kept listed, by simp only [InMemoryServePlan.live, hcase], hspan⟩
  | range part =>
    rw [hcase] at hspan
    obtain ⟨hstart, horder, hstop, hplaces⟩ := hspan
    cases hdeleted : deleted with
    | none =>
      refine ⟨.range part, by simp only [InMemoryServePlan.live, hcase], hstart, horder, hstop, ?_⟩
      rw [hplaces, hdeleted]
      exact List.filter_eq_self.mpr fun _ _ => rfl
    | some mask =>
      rw [hdeleted] at hall
      refine ⟨.spanned _, by simp only [InMemoryServePlan.live, hcase, hall]; rfl, rfl,
        fun a ha b hb i hai hib hlive => ?_⟩
      rw [hplaces] at ha hb ⊢
      have ha' := RowRange.mem_toList.mp (List.mem_filter.mp ha).1
      have hb' := RowRange.mem_toList.mp (List.mem_filter.mp hb).1
      rw [hdeleted]
      exact List.mem_filter.mpr ⟨RowRange.mem_toList.mpr ⟨by omega, by omega⟩, hlive⟩

/-- A view names some live places of a copy: its plan covers them, and its lazy ids, less
the tombstones, are those of the base rows they came from. -/
structure ServedView.Names (fl : FastLanes) (rows : List (Row V)) (family : CopyFamily)
    (places : List ℕ) (view : ServedView V M) : Prop where
  covers : view.plan.Covers fl rows family view.deleted places
  ids : ∃ ids, view.ids.Holds fl M ids ∧ ids.Nodup ∧
    (ids.filter (liveRid view.deleted)) = places.map ((IndexChild.copy family).ridAt rows)

/-- What a narrowing makes of a view names some places, or none are left; it cuts the
view, unless it keeps it whole. -/
def Narrowed.Names (fl : FastLanes) (rows : List (Row V)) (family : CopyFamily) (plan : InMemoryServePlan V)
    (deleted : Option M) (whole : Prop) (places : List ℕ) : Narrowed V M → Prop
  | .served view => view.plan.component = plan.component ∧ view.deleted = deleted ∧
      view.Names fl rows family places ∧
      (view.plan.narrowed = true ∨ whole ∧ view.plan.narrowed = plan.narrowed)
  | .empty => places = []
  | .unserved => False
  | .refused => False

theorem Narrowed.Names.cut {outcome : Narrowed V M} {whole : Prop}
    (h : outcome.Names fl rows family plan deleted False places) :
    outcome.Names fl rows family plan deleted whole places := by
  cases outcome with
  | served view => exact ⟨h.1, h.2.1, h.2.2.1, .inl (h.2.2.2.resolve_right fun hwhole => hwhole.1)⟩
  | empty => exact h
  | unserved => exact h
  | refused => exact h

theorem filter_live_of_all {l : List ℕ} {f : ℕ → RowId} (h : ∀ i ∈ l, liveRid deleted (f i) = true) :
    (l.map f).filter (liveRid deleted) = l.map f := by
  refine List.filter_eq_self.mpr fun rid hrid => ?_
  obtain ⟨i, hi, rfl⟩ := List.mem_map.mp hrid
  exact h i hi

namespace ServedView.Names

variable {view : ServedView V M} (h : view.Names fl rows family places)
include h

/-- A view narrowed to some of its live rows names their places. -/
theorem narrowed_spec {part : List ℕ} (hpart : part.Sublist places) (hne : part ≠ []) {live : LiveRows}
    (hlive : live.Lists (.copy family) rows view.deleted view.plan.run part) :
    ∃ narrowed, view.narrowed live = some narrowed ∧
      (Narrowed.served narrowed).Names fl rows family view.plan view.deleted False part := by
  have hc := h.covers
  have hascending : part.SortedLT := (hc.ascending.pairwise.sublist hpart).sortedLT
  have hlivePart : ∀ i ∈ part, liveRid view.deleted ((IndexChild.copy family).ridAt rows i) = true :=
    fun i hi => hc.live i (hpart.subset hi)
  have hrun := fun i hi => hc.inRun i (hpart.subset hi)
  have hids := filter_live_of_all hlivePart
  have hnodup := @nodup_ridAt V _ _ rows (.copy family) part hascending.nodup
    fun i hi => hc.places_lt i (hpart.subset hi)
  -- a span over the places, with their ids, makes the view
  have hview : ∀ span, ServedSpan.Covers (.copy family) rows view.deleted view.plan.run part span →
      live.intoSpan (fun range => (view.plan.rangeRids range).map LazyRowIds.fromUnsortedIds) =
        some (span, LazyRowIds.fromUnsortedIds (part.map ((IndexChild.copy family).ridAt rows))) →
      ∃ narrowed, view.narrowed live = some narrowed ∧
        (Narrowed.served narrowed).Names fl rows family view.plan view.deleted False part := by
    intro span hspan hinto
    refine ⟨⟨view.plan.withSpan span, LazyRowIds.fromUnsortedIds
      (part.map ((IndexChild.copy family).ridAt rows)), view.deleted⟩, ?_, rfl, rfl,
      ⟨⟨hc.built, hc.within, hc.ids, hspan, hascending, hrun, hlivePart⟩,
        part.map ((IndexChild.copy family).ridAt rows), ⟨rfl, kept_none _⟩, hnodup, hids⟩, .inl rfl⟩
    rw [ServedView.narrowed, hinto, Option.map_some]
  have hpositions : (ServedRows.ofPairs (part.map ((IndexChild.copy family).pairAt rows))).positions =
      part := by
    show (part.map ((IndexChild.copy family).pairAt rows)).map Prod.fst = part
    rw [List.map_map]
    exact List.map_id' part
  have hrids : (ServedRows.ofPairs (part.map ((IndexChild.copy family).pairAt rows))).rids =
      part.map ((IndexChild.copy family).ridAt rows) := by
    show (part.map ((IndexChild.copy family).pairAt rows)).map Prod.snd = _
    rw [List.map_map]
    rfl
  cases live with
  | range places' =>
    obtain ⟨hstart, horder, hstop, rfl⟩ := hlive
    refine hview (.range places') ⟨hstart, horder, hstop, (List.filter_eq_self.mpr hlivePart).symm⟩ ?_
    rw [LiveRows.intoSpan, hc.rangeRids_spec hstart horder hstop]
    rfl
  | spanned listed =>
    obtain ⟨rfl, hfills⟩ := hlive
    obtain ⟨first, rest, rfl⟩ := List.exists_cons_of_ne_nil hne
    have hbounds := le_getLastD hascending
    have hlast := @List.getLastD_mem_cons _ rest first
    refine hview (.range ⟨first, rest.getLastD first + 1⟩) ⟨(hrun first List.mem_cons_self).1,
      Nat.le_succ_of_le (hbounds _ hlast).1, (hrun _ hlast).2, ?_⟩ ?_
    · -- the live places from the first to the last are these
      have hsorted := (RowRange.sortedLT_toList ⟨first, rest.getLastD first + 1⟩).pairwise.sublist
        (@List.filter_sublist _
          (fun i => liveRid view.deleted ((IndexChild.copy family).ridAt rows i)) _)
      refine List.Perm.eq_of_pairwise' hascending.pairwise hsorted ?_
      refine (List.perm_ext_iff_of_nodup hascending.nodup hsorted.sortedLT.nodup).mpr fun i => ?_
      rw [List.mem_filter, RowRange.mem_toList]
      constructor
      · intro hi
        exact ⟨⟨(hbounds i hi).1, Nat.lt_succ_of_le (hbounds i hi).2⟩, hlivePart i hi⟩
      · rintro ⟨⟨hlo, hhi⟩, hi⟩
        exact hfills first List.mem_cons_self _ hlast i hlo (Nat.le_of_lt_succ hhi) hi
    · rw [LiveRows.intoSpan, hpositions, hrids, List.head?_cons, List.getLast?_cons,
        List.getLastD_eq_getLast?]
  | kept listed =>
    obtain rfl : listed = _ := hlive
    refine hview (.kept _) rfl ?_
    rw [LiveRows.intoSpan, hrids]

/-- A window of a served view names its page of the live places. -/
theorem window_spec (hsmall : rows.length ≤ usizeMax) (offset limit : ℕ) : ∃ outcome,
    view.servedWindow offset limit = some outcome ∧
      outcome.Names fl rows family view.plan view.deleted False (page offset limit places) := by
  obtain ⟨live, hlive, hlists⟩ := h.covers.live_spec
  have hlen : places.length ≤ usizeMax := h.covers.length_le.trans hsmall
  rw [ServedView.servedWindow, hlive, Option.bind_some, hlists.len_eq]
  cases hrows : windowRows offset limit places.length with
  | none => exact ⟨.empty, rfl, windowRows_none hlen hrows⟩
  | some piece =>
    obtain ⟨hwithin, hpage⟩ := windowRows_some hlen hrows
    obtain ⟨part, hslice, hpart⟩ := hlists.slice_spec h.covers.ascending hwithin
    rw [hpage] at hpart
    have hne : page offset limit places ≠ [] := by
      rw [windowRows] at hrows
      split_ifs at hrows with hlt
      obtain rfl := Option.some.inj hrows
      rw [← hpage, ← List.length_pos_iff, List.length_take, List.length_drop]
      dsimp only
      omega
    obtain ⟨narrowed, hnarrowed, hnames⟩ := h.narrowed_spec (page_sublist offset limit places) hne hpart
    exact ⟨.served narrowed, by dsimp only; rw [hslice, Option.bind_some, hnarrowed]; rfl, hnames⟩

/-- The partitions of a served view name the pieces of its live places, one behind
another. -/
theorem partitions_spec (hsmall : rows.length ≤ usizeMax) {n : ℕ} (hn : 0 < n) : ∃ parts pieces,
    view.partitions n = some parts ∧
      List.Forall₂ (fun (part : Narrowed V M) (piece : List ℕ) =>
        part.Names fl rows family view.plan view.deleted (n = 1) piece) parts pieces ∧
      pieces.flatten = places ∧ ∀ i, pieces.getD i [] = (cut n places).getD i [] := by
  obtain ⟨live, hlive, hlists⟩ := h.covers.live_spec
  have hlen : places.length ≤ usizeMax := h.covers.length_le.trans hsmall
  rw [ServedView.partitions]
  split_ifs with hone
  · refine ⟨_, [places], rfl, .cons ⟨rfl, rfl, h, .inr ⟨hone, rfl⟩⟩ .nil, List.append_nil _, fun i => ?_⟩
    rw [hone]
    by_cases hempty : places = []
    · rw [hempty, cut_nil]
      cases i <;> rfl
    · rw [cut_one hlen hempty]
  · rw [ServedView.servedPartitions, hlive, Option.bind_some, hlists.len_eq]
    split_ifs with hzero
    · rw [List.length_eq_zero_iff] at hzero
      have hempty : (Narrowed.empty : Narrowed V M).Names fl rows family view.plan view.deleted
          (n = 1) [] := rfl
      refine ⟨_, [[]], rfl, .cons hempty .nil, hzero.symm, fun i => ?_⟩
      rw [hzero, cut_nil]
      cases i <;> rfl
    · have hpos : 0 < divCeil places.length n := divCeil_pos (Nat.pos_of_ne_zero hzero) hn
      have hpiece : ∀ piece ∈ batchRanges places.length (divCeil places.length n),
          ∃ narrowed, ((live.slice piece).bind view.narrowed) = some narrowed ∧
            (Narrowed.served narrowed).Names fl rows family view.plan view.deleted (n = 1)
              ((places.drop piece.start).take (piece.stop - piece.start)) := by
        intro piece hpiece
        obtain ⟨start, hstart, rfl⟩ := List.mem_map.mp hpiece
        obtain ⟨-, hlt⟩ := lt_of_mem_steps hpos hstart
        have hstop : min (saturatingAdd start (divCeil places.length n)) places.length =
            min (start + divCeil places.length n) places.length := min_saturatingAdd hlen
        have hwithin : RowRange.Within places.length
            ⟨start, min (saturatingAdd start (divCeil places.length n)) places.length⟩ :=
          ⟨by dsimp only; omega, min_le_right _ _⟩
        obtain ⟨part, hslice, hpart⟩ := hlists.slice_spec h.covers.ascending hwithin
        refine (h.narrowed_spec ((List.take_sublist _ _).trans (List.drop_sublist _ _)) ?_ hpart).imp
          fun narrowed hnarrowed => ⟨by rw [hslice, Option.bind_some, hnarrowed.1], hnarrowed.2.cut⟩
        rw [← List.length_pos_iff, List.length_take, List.length_drop]
        dsimp only
        omega
      obtain ⟨views, hviews, hnames⟩ := mapM_forall₂ hpiece
      rw [hviews]
      refine ⟨views.map .served, cut n places, rfl, ?_, ?_, fun _ => rfl⟩
      · rw [cut, List.forall₂_map_left_iff, List.forall₂_map_right_iff]
        exact hnames
      · rw [cut, ← List.flatMap_def, batchRanges_cut hlen hpos]

/-- The rows a test keeps, or the empty view for none of them. -/
theorem servedKept_spec (q : ℕ → Bool) : ∃ outcome,
    view.servedKept (ServedRows.ofPairs ((places.filter q).map ((IndexChild.copy family).pairAt rows))) =
      some outcome ∧ outcome.Names fl rows family view.plan view.deleted False (places.filter q) := by
  have hlen : (ServedRows.ofPairs ((places.filter q).map
      ((IndexChild.copy family).pairAt rows))).rids.length = (places.filter q).length := by
    rw [ServedRows.ofPairs, List.length_map, List.length_map]
  rw [ServedView.servedKept, hlen]
  split_ifs with hnone
  · exact ⟨.empty, rfl, List.length_eq_zero_iff.mp hnone⟩
  · have hne : places.filter q ≠ [] := fun hempty => hnone (by rw [hempty, List.length_nil])
    obtain ⟨narrowed, hnarrowed, hnames⟩ := @narrowed_spec _ _ _ _ _ _ _ _ _ _ _ h _
      (@List.filter_sublist _ q places) hne
        (.kept (ServedRows.ofPairs ((places.filter q).map ((IndexChild.copy family).pairAt rows)))) rfl
    exact ⟨.served narrowed, by rw [hnarrowed, Option.map_some], hnames⟩

variable {base : ServedBase V} (hbase : base.Sound fl rows view.plan.component)
include hbase

/-- The code of a live row a keep tests, wherever it is read. -/
theorem admitted_spec (column : QuadColumn) (keep : Keep) (width : ℕ) :
    (view.admitted fl base column (keep.test width) = some none ∧ base.cache column = none ∧
      view.plan.component.encoding.probes (roleColumn column) = none) ∨
    view.admitted fl base column (keep.test width) = some (some (ServedRows.ofPairs
      ((places.filter fun i =>
        keepHolds keep (roleValue ((IndexChild.copy family).rowAt rows i) column)).map
          ((IndexChild.copy family).pairAt rows)))) := by
  have hc := h.covers
  have hadmits : ∀ {i code}, TermColumn.scalar (roleValue ((IndexChild.copy family).rowAt rows i) column) =
      .num code → (keep.test width).admits code =
        keepHolds keep (roleValue ((IndexChild.copy family).rowAt rows i) column) := by
    intro i code hcode
    rw [test_admits, keepHolds, hcode]
    rfl
  cases hcache : base.cache column with
  | some codes =>
    refine .inr ?_
    -- codes of the column are cached, and hold each place's
    have hread : ∀ i ∈ places, (codes[(IndexChild.copy family).ridAt rows i]?.map
        fun code => (keep.test width).admits code) =
          some (keepHolds keep (roleValue ((IndexChild.copy family).rowAt rows i) column)) := by
      intro i hi
      obtain ⟨code, hcode, hscalar⟩ := hbase.cached column codes hcache _ _
        (getElem?_ridAt (hc.places_lt i hi))
      rw [hcode, Option.map_some, hadmits hscalar]
    have hkept := hc.keptRows_spec (a := fun _ rid => codes[rid]?.map
      fun code => (keep.test width).admits code) hread
    simp only [ServedView.admitted, hcache, hkept, Option.map_some]
  | none =>
    cases hprobe : view.plan.component.encoding.probes (roleColumn column) with
    | none => exact .inl ⟨by simp only [ServedView.admitted, hcache, hprobe], rfl, rfl⟩
    | some probe =>
      refine .inr ?_
      -- none cached: the child's own encoding is probed, where it can be
      obtain ⟨values, hvalues, henc⟩ := hc.built.probed _ probe hprobe
      have hlen := hc.built.length_column hvalues
      rw [column_role hc.built] at hvalues
      have hread : ∀ i ∈ places, ((EncodedSearch.SortedProbe.valueAt fl probe i).map
          fun code => (keep.test width).admits code) =
            some (keepHolds keep (roleValue ((IndexChild.copy family).rowAt rows i) column)) := by
        intro i hi
        have hlt := hc.places_lt i hi
        have hprobeLt : i < probe.len := by rwa [henc.len_eq, hlen]
        have hat := @IndexChild.getD_roleColumn V _ (.copy family) rows _ column i
        rw [Option.some.inj hvalues] at hat
        have hscalar := henc.reads i _ (getD_of_lt (by rwa [hlen]))
        rw [hat] at hscalar
        rw [EncodedSearch.SortedProbe.valueAt, if_pos hprobeLt,
          (EncodedSearch.wellFormed_sound henc.wellFormed).reads i (Nat.zero_le i) hprobeLt,
          Option.map_some, hadmits hscalar]
      have hkept := hc.keptRows_spec (a := fun position _ =>
        (EncodedSearch.SortedProbe.valueAt fl probe position).map
          fun code => (keep.test width).admits code) hread
      simp only [ServedView.admitted, hcache, hprobe, hkept, Option.map_some]

/-- A keep of a served view names the live places whose codes it admits, where the codes
are the view's vocabulary and something reads them. -/
theorem keep_spec {ox : Oxrdf} (layout : IndexedLayout ox V) (column : QuadColumn) (keep : Keep) :
    ∃ outcome, view.servedKeep fl base layout column keep = some outcome ∧
      (outcome.Names fl rows family view.plan view.deleted False (places.filter fun i =>
          keepHolds keep (roleValue ((IndexChild.copy family).rowAt rows i) column)) ∨
        (outcome = .unserved ∧ base.cache column = none ∧
          view.plan.component.encoding.probes (roleColumn column) = none) ∨
        (outcome = .refused ∧ layout.strategy ≠ .dictionary)) := by
  rw [ServedView.servedKeep]
  split_ifs with hlayout hempty hspan
  · exact ⟨.refused, rfl, .inr (.inr ⟨rfl, hlayout⟩)⟩
  · refine ⟨.empty, rfl, .inl (List.filter_eq_nil_iff.mpr fun i _ => ?_)⟩
    rw [keepHolds, Option.any_eq_true]
    rintro ⟨code, -, hadmits⟩
    rw [admits_of_isEmpty hempty] at hadmits
    exact Bool.false_ne_true hadmits
  · refine ⟨.empty, rfl, .inl ?_⟩
    have hcovered := h.covers.length_covered
    rw [hspan, List.length_eq_zero_iff] at hcovered
    rw [h.covers.places_eq, hcovered]
    rfl
  · rcases h.admitted_spec hbase column keep view.plan.spanLen with ⟨hnone, hunread⟩ | hkept
    · exact ⟨.unserved, by rw [hnone]; rfl, .inr (.inl ⟨rfl, hunread⟩)⟩
    · obtain ⟨outcome, houtcome, hnames⟩ := h.servedKept_spec fun i =>
        keepHolds keep (roleValue ((IndexChild.copy family).rowAt rows i) column)
      exact ⟨outcome, by rw [hkept, Option.bind_some]; exact houtcome, .inl hnames⟩

end ServedView.Names

end Views

/-! ### Chained patterns -/

section Chained

variable {ox : Oxrdf} {V : Type} [LinearOrder V] [TermColumn V] {layout : IndexedLayout ox V}

/-- An equality asks a bound term's value of its column. -/
def Asks (layout : IndexedLayout ox V) (term : TermRef) (eq : Equality) : Prop :=
  ∃ v, eq = (term.role.name, TermColumn.scalar v) ∧ layout.spelling v = some (term.writeNt ox)

/-- The equalities of prepared terms, one a term. -/
theorem chainEqs_spec {codes : PatternCodes} : ∀ {terms : List TermRef},
    (∀ term ∈ terms, ∃ v, codes.probeScalar ox term = .ok (some (TermColumn.scalar v)) ∧
      layout.spelling v = some (term.writeNt ox)) →
    ∃ eqs, ServedView.chainEqs ox codes terms = .ok (some eqs) ∧
      List.Forall₂ (Asks layout) terms eqs
  | [], _ => ⟨[], rfl, .nil⟩
  | term :: terms, h => by
    obtain ⟨⟨v, hscalar, hv⟩, hrest⟩ := List.forall_mem_cons.mp h
    obtain ⟨eqs, heqs, hasks⟩ := chainEqs_spec hrest
    refine ⟨_, ?_, .cons ⟨v, rfl, hv⟩ hasks⟩
    rw [ServedView.chainEqs, hscalar, heqs]
    rfl

variable [Inhabited V] {fl : FastLanes} {rows : List (Row V)} {family : CopyFamily}
  {c : IndexComponent V}

theorem scalarAt_role (hc : c.BuiltFrom fl rows (.copy family)) {i : ℕ} (hi : i < rows.length)
    (role : QuadColumn) : c.scalarAt i role.name =
      TermColumn.scalar (roleValue ((IndexChild.copy family).rowAt rows i) role) := by
  have hname : columnText role.name = roleColumn role := by cases role <;> rfl
  have hcolumn := column_role hc role
  rw [← hname] at hcolumn
  rw [scalarAt_column hcolumn (by rwa [List.length_map, IndexChild.length_entries]),
    IndexChild.getD_roleColumn]

/-- A copy's row holds the equalities of some terms when it holds the terms. -/
theorem holds_asks (hc : c.BuiltFrom fl rows (.copy family)) {i : ℕ} (hi : i < rows.length)
    {terms : List TermRef} {eqs : List Equality} (h : List.Forall₂ (Asks layout) terms eqs) :
    ResidualTable.holds eqs (c.scalarAt i) =
      terms.all (layout.holds ((IndexChild.copy family).rowAt rows i)) := by
  induction h with
  | nil => rfl
  | @cons term eq terms eqs hask _ ih =>
    obtain ⟨v, rfl, hv⟩ := hask
    have hfirst : (c.scalarAt i term.role.name == TermColumn.scalar v) =
        layout.holds ((IndexChild.copy family).rowAt rows i) term := by
      rw [Bool.eq_iff_iff, beq_iff_eq, scalarAt_role hc hi, scalar_injective.eq_iff,
        IndexedLayout.holds_iff hv]
    rw [List.all_cons, ← ih, ← hfirst]
    rfl

theorem asks_comparable (hc : c.BuiltFrom fl rows (.copy family)) {terms : List TermRef}
    {eqs : List Equality} (h : List.Forall₂ (Asks layout) terms eqs) : c.table.Comparable eqs := by
  have hasks : ∀ eq ∈ eqs, ∃ (term : TermRef) (v : V), eq = (term.role.name, TermColumn.scalar v) := by
    intro eq heq
    obtain ⟨i, hi, rfl⟩ := List.mem_iff_getElem.mp heq
    obtain ⟨v, hv, -⟩ := h.get (by rw [h.length_eq]; exact hi) hi
    exact ⟨_, v, hv⟩
  constructor
  · intro eq heq
    obtain ⟨term, v, rfl⟩ := hasks eq heq
    have hname : columnText term.role.name = roleColumn term.role := by cases term <;> rfl
    refine ⟨TermColumn.type V, ?_, TermColumn.cast_scalar v⟩
    show (c.column (columnText term.role.name)).map (fun _ => TermColumn.type V) = _
    rw [hname, column_role hc, Option.map_some]
  · intro eq heq
    obtain ⟨term, v, rfl⟩ := hasks eq heq
    exact TermColumn.nonnull v
  · intro row hrow eq heq hnull
    obtain ⟨term, v, rfl⟩ := hasks eq heq
    obtain ⟨i, hi, rfl⟩ := List.mem_map.mp hrow
    rw [List.mem_range, hc.len_eq] at hi
    dsimp only at hnull
    rw [scalarAt_role hc hi] at hnull
    exact absurd hnull (TermColumn.nonnull _)

variable {M : Type} [MaskOps M] [LawfulMask M] {plan : InMemoryServePlan V} {deleted : Option M}
  {places : List ℕ}

/-- The live rows some terms' equalities hold of. -/
theorem InMemoryServePlan.Covers.rowsWhere_spec (h : plan.Covers fl rows family deleted places)
    {terms : List TermRef} {eqs : List Equality} (hasks : List.Forall₂ (Asks layout) terms eqs) :
    plan.rowsWhere deleted eqs = some (ServedRows.ofPairs ((places.filter fun i =>
      terms.all (layout.holds ((IndexChild.copy family).rowAt rows i))).map
        ((IndexChild.copy family).pairAt rows))) := by
  have hc := h.built
  have hlt := h.covered_lt
  have hspan := h.span
  -- the mask of the covered rows, bit by bit
  have hread : ∀ i ∈ plan.span.covered, plan.component.table.rows[i]? =
      some (plan.component.scalarAt i) := by
    intro i hi
    show ((List.range plan.component.len).map plan.component.scalarAt)[i]? = _
    rw [List.getElem?_map, List.getElem?_range (by rw [hc.len_eq]; exact hlt i hi), Option.map_some]
  have hmask : plan.component.table.maskFor (plan.span.covered.map plan.component.scalarAt) eqs = _ :=
    ResidualTable.maskFor_eq (asks_comparable hc hasks) fun row hrow => by
      obtain ⟨i, hi, rfl⟩ := List.mem_map.mp hrow
      exact List.mem_of_getElem? (hread i hi)
  set holding : M := fromIndices plan.span.covered.length ((List.range plan.span.covered.length).filter
    (ResidualTable.holdsAt (plan.span.covered.map plan.component.scalarAt) eqs)) with hholding
  have hbit : ∀ k i, plan.span.covered[k]? = some i → value holding k =
      terms.all (layout.holds ((IndexChild.copy family).rowAt rows i)) := by
    intro k i hk
    obtain ⟨hklt, -⟩ := List.getElem?_eq_some_iff.mp hk
    have hi := hlt i (List.mem_of_getElem? hk)
    rw [hholding, LawfulMask.value_fromIndices _ _ _ _ _ hklt, ← holds_asks hc hi hasks,
      Bool.eq_iff_iff, decide_eq_true_eq, List.mem_filter, List.mem_range, ResidualTable.holdsAt,
      List.getElem?_map, hk, Option.map_some, Option.any_some]
    · exact and_iff_right hklt
    · exact fun k hk => List.mem_range.mp (List.mem_filter.mp hk).1
    · exact ((List.sortedLT_range _).pairwise.sublist List.filter_sublist).sortedLT
  have hcoverRead : (plan.span.covered.mapM fun position => plan.component.table.rows[position]?) =
      some (plan.span.covered.map plan.component.scalarAt) := mapM_some hread
  rw [List.length_map] at hmask
  have hbits : (boolArrayToMask ((List.range plan.span.covered.length).map
      (ResidualTable.holdsAt (plan.span.covered.map plan.component.scalarAt) eqs)) : M) = holding :=
    boolArrayToMask_map _ _
  cases hcase : plan.span with
  | range part =>
    rw [hcase] at hcoverRead hmask hbits hbit hspan
    rw [ServedSpan.covered] at hcoverRead hmask hbits hbit
    obtain ⟨-, -, -, hplaces⟩ := hspan
    simp only [InMemoryServePlan.rowsWhere, hcase, hcoverRead, Option.bind_some, hmask, hbits]
    refine h.keptRows_spec fun i hi => ?_
    have hi' : i ∈ part.toList := by
      rw [hplaces] at hi
      exact (List.mem_filter.mp hi).1
    have hbounds := RowRange.mem_toList.mp hi'
    rw [hbit (i - part.start) i]
    rw [RowRange.toList, List.getElem?_range' (by omega), Nat.one_mul, Nat.add_sub_cancel' hbounds.1]
  | kept listed =>
    rw [hcase] at hcoverRead hmask hbits hbit hspan
    obtain rfl : listed = _ := hspan
    have hpositions : (ServedRows.ofPairs (places.map ((IndexChild.copy family).pairAt rows))).positions =
        places := by
      show (places.map ((IndexChild.copy family).pairAt rows)).map Prod.fst = places
      rw [List.map_map]
      exact List.map_id' places
    rw [ServedSpan.covered, hpositions] at hcoverRead hmask hbits hbit
    simp only [InMemoryServePlan.rowsWhere, hcase, hpositions, hcoverRead, Option.bind_some, hmask, hbits]
    have hrow : ∀ row ∈ (places.map ((IndexChild.copy family).pairAt rows)).zipIdx,
        value holding row.2 = terms.all (layout.holds ((IndexChild.copy family).rowAt rows row.1.1)) := by
      intro row hrow
      have hat := List.mem_zipIdx_iff_getElem?.mp hrow
      rw [List.getElem?_map] at hat
      obtain ⟨i, hi, hpair⟩ := Option.map_eq_some_iff.mp hat
      rw [hbit _ i hi, ← hpair]
      rfl
    rw [positionsAndRids_ofPairs, collect_eq (p := fun row =>
      terms.all (layout.holds ((IndexChild.copy family).rowAt rows row.1.1))) (f := Prod.fst)]
    · have hfilter : ((places.map ((IndexChild.copy family).pairAt rows)).zipIdx.filter fun row =>
          terms.all (layout.holds ((IndexChild.copy family).rowAt rows row.1.1))).map Prod.fst =
          ((places.map ((IndexChild.copy family).pairAt rows)).zipIdx.map Prod.fst).filter fun row =>
            terms.all (layout.holds ((IndexChild.copy family).rowAt rows row.1)) := by
        rw [List.filter_map]
        rfl
      rw [hfilter, List.zipIdx_map_fst, List.filter_map]
      rfl
    · intro row hmem
      rw [hrow row hmem]

variable {view : ServedView V M}

/-- A chained match of a view a narrowing cut names the live places holding its terms. -/
theorem ServedView.Names.chain_spec (h : view.Names fl rows family places) (pattern : QuadPattern) :
    ∃ outcome, view.chained layout pattern = some (.ok outcome) ∧
      (outcome.Names fl rows family view.plan view.deleted False (places.filter fun i =>
          pattern.boundRoles.all (layout.holds ((IndexChild.copy family).rowAt rows i))) ∨
        (outcome = .unserved ∧ view.plan.narrowed = false)) := by
  rw [ServedView.chained]
  split_ifs with hnarrowed
  · cases hprepare : layout.prepare pattern with
    | empty =>
      obtain ⟨term, hterm, hunspelled⟩ := layout.refused hprepare
      refine ⟨.empty, rfl, .inl (List.filter_eq_nil_iff.mpr fun i _ hall => ?_)⟩
      exact hunspelled _ (beq_iff_eq.mp (List.all_eq_true.mp hall term hterm))
    | codes codes =>
      obtain ⟨eqs, heqs, hasks⟩ := chainEqs_spec (layout.prepared hprepare)
      dsimp only
      rw [heqs, Attempt.andThen_ok]
      cases eqs with
      | nil =>
        -- nothing bound: the view as it is
        refine ⟨.served view, rfl, .inl ⟨rfl, rfl, ?_, .inl hnarrowed⟩⟩
        rw [List.forall₂_nil_right_iff.mp hasks]
        have hall : (places.filter fun i =>
            ([] : List TermRef).all (layout.holds ((IndexChild.copy family).rowAt rows i))) = places :=
          List.filter_eq_self.mpr fun _ _ => rfl
        rwa [hall]
      | cons eq eqs =>
        obtain ⟨outcome, hkept, hnames⟩ := h.servedKept_spec fun i =>
          pattern.boundRoles.all (layout.holds ((IndexChild.copy family).rowAt rows i))
        refine ⟨outcome, ?_, .inl hnames⟩
        dsimp only
        rw [h.covers.rowsWhere_spec hasks, Option.bind_some, hkept, Option.map_some]
  · exact ⟨.unserved, rfl, .inr ⟨rfl, Bool.not_eq_true _ ▸ hnarrowed⟩⟩

/-! ### Runs of narrowings -/

/-- The narrowing a view leaves its plan at: a keep of a column nothing reads codes of, or
where codes are not the vocabulary, or a chained match of a view nothing cut. -/
def Narrowing.Leaves (base : ServedBase V) (layout : IndexedLayout ox V) (view : ServedView V M)
    (outcome : Narrowed V M) : Narrowing → Prop
  | .window _ _ => False
  | .keep column _ => (outcome = .unserved ∧ base.cache column = none ∧
      view.plan.component.encoding.probes (roleColumn column) = none) ∨
      (outcome = .refused ∧ layout.strategy ≠ .dictionary)
  | .chain _ => outcome = .unserved ∧ view.plan.narrowed = false
  | .partition _ _ _ => False

/-- Whether a narrowing leaves the view as it is: the one partition of a view. -/
def Narrowing.Whole : Narrowing → Prop
  | .partition n _ _ => n = 1
  | _ => False

/-- A narrowing keeps the view's two names in step, and does to its rows what it says. -/
theorem narrow_spec {base : ServedBase V} (hsmall : rows.length ≤ usizeMax)
    (h : view.Names fl rows family places) (hbase : base.Sound fl rows view.plan.component)
    (narrowing : Narrowing) : ∃ outcome,
      view.narrow fl base layout narrowing = some (.ok outcome) ∧
      ((∃ part, outcome.Names fl rows family view.plan view.deleted narrowing.Whole part ∧
          narrowing.apply layout (places.map (entryAt family rows)) = part.map (entryAt family rows)) ∨
        narrowing.Leaves base layout view outcome) := by
  cases narrowing with
  | window offset limit =>
    obtain ⟨outcome, hwindow, hnames⟩ := h.window_spec hsmall offset limit
    refine ⟨outcome, by rw [ServedView.narrow, hwindow, Option.map_some], .inl ⟨_, hnames, ?_⟩⟩
    rw [Narrowing.apply, page, page, List.map_take, List.map_drop]
  | keep column codes =>
    obtain ⟨outcome, hkeep, hcases⟩ := h.keep_spec hbase layout column codes
    refine ⟨outcome, by rw [ServedView.narrow, hkeep, Option.map_some], ?_⟩
    rcases hcases with hnames | hleaves
    · refine .inl ⟨_, hnames, ?_⟩
      rw [Narrowing.apply, List.filter_map]
      rfl
    · exact .inr hleaves
  | chain pattern =>
    obtain ⟨outcome, hchain, hcases⟩ : ∃ outcome, view.chained layout pattern = some (.ok outcome) ∧ _ :=
      h.chain_spec pattern
    refine ⟨outcome, by rw [ServedView.narrow, hchain], ?_⟩
    rcases hcases with hnames | hleaves
    · refine .inl ⟨_, hnames, ?_⟩
      rw [Narrowing.apply, List.filter_map]
      rfl
    · exact .inr hleaves
  | partition n pos i =>
    obtain ⟨parts, pieces, hparts, hnames, -, hpieces⟩ := h.partitions_spec hsmall pos
    refine ⟨parts.getD i .empty, by rw [ServedView.narrow, hparts, Option.map_some],
      .inl ⟨pieces.getD i [], ?_, ?_⟩⟩
    · by_cases hi : i < parts.length
      · rw [List.getD_eq_getElem _ _ hi, List.getD_eq_getElem _ _ (by rwa [← hnames.length_eq])]
        exact hnames.get hi _
      · rw [List.getD_eq_default _ _ (Nat.le_of_not_lt hi),
          List.getD_eq_default _ _ (by rw [← hnames.length_eq]; exact Nat.le_of_not_lt hi)]
        rfl
    · rw [Narrowing.apply, hpieces, cut_map]
      exact @List.getD_map _ _ (cut n places) [] i (List.map (entryAt family rows))

/-- Why a view is no longer served: a keep that left its plan, or a chained match before
anything cut the view. -/
def LeftBy (base : ServedBase V) (layout : IndexedLayout ox V) (c : IndexComponent V)
    (uncut : Prop) (outcome : Narrowed V M) (narrowings : List Narrowing) : Prop :=
  (∃ column codes, Narrowing.keep column codes ∈ narrowings ∧
    ((outcome = .unserved ∧ base.cache column = none ∧
        c.encoding.probes (roleColumn column) = none) ∨
      (outcome = .refused ∧ layout.strategy ≠ .dictionary))) ∨
  (outcome = .unserved ∧ uncut ∧ ∃ before pattern after,
    narrowings = before ++ .chain pattern :: after ∧ ∀ narrowing ∈ before, narrowing.Whole)

/-- Any run of narrowings keeps the view's two names in step. -/
theorem run_spec {base : ServedBase V} (hsmall : rows.length ≤ usizeMax) :
    ∀ (narrowings : List Narrowing) {view : ServedView V M} {places : List ℕ},
      view.Names fl rows family places → base.Sound fl rows view.plan.component →
      ∃ outcome, view.run fl base layout narrowings = some (.ok outcome) ∧
        ((∃ part, outcome.Names fl rows family view.plan view.deleted True part ∧
            narrowings.foldl (fun rows narrowing => narrowing.apply layout rows)
              (places.map (entryAt family rows)) = part.map (entryAt family rows)) ∨
          LeftBy base layout view.plan.component (view.plan.narrowed = false) outcome narrowings)
  | [], view, places, h, hbase => ⟨.served view, rfl, .inl ⟨places, ⟨rfl, rfl, h, .inr ⟨trivial, rfl⟩⟩, rfl⟩⟩
  | narrowing :: narrowings, view, places, h, hbase => by
    obtain ⟨outcome, hnarrow, hcases⟩ :
        ∃ outcome, view.narrow fl base layout narrowing = some (.ok outcome) ∧ _ :=
      narrow_spec hsmall h hbase narrowing
    rw [ServedView.run, hnarrow, Attempt.andThen_ok]
    -- a view of some places is narrowed on; otherwise this narrowing was the last served
    rcases hcases with ⟨part, hnames, happly⟩ | hleaves
    · cases outcome with
      | served next =>
        obtain ⟨hcomponent, hdeleted, hnext, hcut⟩ := hnames
        obtain ⟨final, hrun, hrest⟩ := run_spec hsmall narrowings hnext (by rwa [hcomponent])
        refine ⟨final, hrun, ?_⟩
        rw [List.foldl_cons, happly]
        rcases hrest with ⟨last, hlast, hrows⟩ | hleft
        · refine .inl ⟨last, ?_, hrows⟩
          cases final with
          | served view' =>
            obtain ⟨hcomponent', hdeleted', hview', hcut'⟩ := hlast
            refine ⟨hcomponent'.trans hcomponent, hdeleted'.trans hdeleted, hview', ?_⟩
            rcases hcut with hcut | ⟨-, hsame⟩
            · exact .inl (hcut'.elim id fun hwhole => hwhole.2.trans hcut)
            · exact hcut'.imp id fun hwhole => ⟨trivial, hwhole.2.trans hsame⟩
          | empty => exact hlast
          | unserved => exact hlast
          | refused => exact hlast
        · refine .inr ?_
          rcases hleft with ⟨column, codes, hmem, hwhy⟩ | ⟨hunserved, huncut, before, pattern, after, hsplit, hbefore⟩
          · rw [hcomponent] at hwhy
            exact .inl ⟨column, codes, List.mem_cons_of_mem _ hmem, hwhy⟩
          · -- the narrowing kept the view whole
            obtain ⟨hwhole, hsame⟩ := hcut.resolve_left (by rw [huncut]; exact Bool.false_ne_true)
            refine .inr ⟨hunserved, by rw [← hsame]; exact huncut, narrowing :: before, pattern, after, ?_, ?_⟩
            · rw [hsplit, List.cons_append]
            · exact List.forall_mem_cons.mpr ⟨hwhole, hbefore⟩
      | empty =>
        refine ⟨.empty, rfl, .inl ⟨[], rfl, ?_⟩⟩
        have hpart : part = [] := hnames
        rw [List.foldl_cons, happly, hpart, List.map_nil]
        exact foldl_apply_nil layout narrowings
      | unserved => exact absurd hnames id
      | refused => exact absurd hnames id
    · cases narrowing with
      | window offset limit => exact absurd hleaves id
      | partition n pos i => exact absurd hleaves id
      | keep column codes =>
        rcases hleaves with ⟨rfl, hunread⟩ | ⟨rfl, hlayout⟩
        · exact ⟨.unserved, rfl, .inr (.inl ⟨column, codes, List.mem_cons_self, .inl ⟨rfl, hunread⟩⟩)⟩
        · exact ⟨.refused, rfl, .inr (.inl ⟨column, codes, List.mem_cons_self, .inr ⟨rfl, hlayout⟩⟩)⟩
      | chain pattern =>
        obtain ⟨rfl, huncut⟩ := hleaves
        exact ⟨.unserved, rfl, .inr (.inr ⟨rfl, huncut, [], pattern, narrowings, rfl,
          fun _ h => absurd h List.not_mem_nil⟩)⟩

end Chained

end Indexes
