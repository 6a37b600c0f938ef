/-
A view cut into views over disjoint, contiguous pieces of its rows.

A view a plan serves is cut in its index's order, into windows of about equal live rows; any
other in base order, its pieces about equal before tombstones.  The appended rows go with the
last piece.

* `VortexRdfStore.partitionTail`, `.servedPartitionsOf`, `.partitions` — the cut;
* `Tiles` — pieces that read, in turn, the view;
* `partitions_spec` — the cut's pieces do, each in the order the view reads in.
-/
import VortexRdf.ViewWindows

namespace Views

open Ascending Buffers Builds Dictionary Indexes Masks MaskOps Terms
open EncodedSearch (FastLanes)
open Store hiding Row
open scoped Lexicographic

/-! ### Partitions -/

section Partitions

variable {ox : Oxrdf} {V M : Type} [LinearOrder V] [TermColumn V] [MaskOps M] (fl : FastLanes)

namespace VortexRdfStore

variable (store : VortexRdfStore ox V M)

/-- A partition's tail: the whole of it for the last, none of it for the others. -/
def partitionTail (last : Bool) : Option (Tail M .default) :=
  store.tail.map fun tail => if last then tail else tail.withSelection .empty

/-- The served windows of a view a plan serves; none for a view with no live row. -/
def servedPartitionsOf (view : ServedView V M) (live : LiveRows) (n : ℕ) :
    Option (Option (List (VortexRdfStore ox V M))) :=
  let rows := live.len
  if rows = 0 then some none
  else
    let size := divCeil rows n
    let count := divCeil rows size
    ((batchRanges rows size).zipIdx.mapM fun piece =>
      ((live.slice piece.1).bind view.narrowed).map fun narrowed =>
        store.derived (store.quads.narrowedTo narrowed)
          (store.partitionTail (piece.2 + 1 == count))).map some

/-- The pieces of the exact selection; the view itself where it selects no row. -/
def basePartitions (n : ℕ) : Option (List (VortexRdfStore ox V M)) :=
  (store.quads.selection.materialized fl M).bind fun selection =>
    (selection.split n store.quads.baseLen).map fun pieces =>
      if pieces.isEmpty then [store]
      else
        pieces.zipIdx.map fun piece =>
          store.derived (store.quads.withSelection (.exact piece.1))
            (store.partitionTail (piece.2 == pieces.length - 1))

/-- The view cut into at most `n` views. -/
def partitions (n : ℕ) : Option (List (VortexRdfStore ox V M)) :=
  if n = 1 then some [store]
  else
    match store.quads.served with
    | some view =>
      (view.plan.live view.deleted).bind fun live =>
        (store.servedPartitionsOf view live n).bind fun parts =>
          match parts with
          | some parts => some parts
          | none => store.basePartitions fl n
    | none => store.basePartitions fl n

end VortexRdfStore

end Partitions

/-! ### What goes with the last piece -/

section Last

variable {α β : Type*}

/-- What goes with the last of some pieces goes behind them all. -/
theorem flatMap_last (f : α → List β) (rest : List β) : ∀ (l : List α) (k : ℕ), l ≠ [] →
    ((l.zipIdx k).flatMap fun piece =>
      f piece.1 ++ if piece.2 + 1 == k + l.length then rest else []) = l.flatMap f ++ rest
  | [a], k, _ => by
    rw [List.zipIdx_cons, List.zipIdx_nil, List.flatMap_singleton, List.flatMap_singleton,
      List.length_singleton, beq_self_eq_true, if_pos rfl]
  | a :: b :: l, k, _ => by
    have hrest := flatMap_last f rest (b :: l) (k + 1) (List.cons_ne_nil b l)
    have hlast : (k + 1 == k + (a :: b :: l).length) = false := by
      rw [beq_eq_false_iff_ne, List.length_cons, List.length_cons]
      omega
    have hlen : k + 1 + (b :: l).length = k + (a :: b :: l).length := by
      rw [List.length_cons, List.length_cons, List.length_cons]
      omega
    rw [hlen] at hrest
    rw [List.zipIdx_cons, List.flatMap_cons, hrest, hlast, if_neg Bool.false_ne_true,
      List.append_nil, ← List.append_assoc]
    rfl

theorem map_fst_zipIdx_flatMap (f : α → List β) (l : List α) (k : ℕ) :
    ((l.zipIdx k).flatMap fun piece => f piece.1) = l.flatMap f := by
  rw [← List.flatMap_map, List.zipIdx_map_fst]

end Last

/-! ### The pieces -/

section Specs

variable {ox : Oxrdf} {V M : Type} [LinearOrder V] [TermColumn V] [Inhabited V] [MaskOps M]
  {fl : FastLanes} {finish : Finish} {store : VortexRdfStore ox V M} {ids tailIds : List RowId}

/-- Views that read, in turn, the view they are cut from: each of the same data, and reading in
the order the view reads in, where that shows a base row. -/
structure Tiles (fl : FastLanes) (finish : Finish) (store : VortexRdfStore ox V M)
    (ids tailIds : List RowId) (parts : List (VortexRdfStore ox V M))
    (pieces : List (List RowId × List RowId)) : Prop where
  shows : List.Forall₂ (fun (part : VortexRdfStore ox V M) (piece : List RowId × List RowId) =>
    SameData store part ∧ part.Shows fl finish piece.1 piece.2 ∧
      (ids ≠ [] → part.quads.readOrder = store.quads.readOrder)) parts pieces
  base : (pieces.flatMap fun piece => piece.1) = ids
  /-- However a base row and an appended one are read. -/
  read : ∀ {α : Type} (f g : RowId → α), (pieces.flatMap fun piece => piece.1.map f ++ piece.2.map g) =
    ids.map f ++ tailIds.map g

theorem Tiles.self (h : store.Shows fl finish ids tailIds) :
    Tiles fl finish store ids tailIds [store] [(ids, tailIds)] where
  shows := .cons ⟨.refl store, h, fun _ => rfl⟩ .nil
  base := List.append_nil ids
  read _ _ := List.append_nil _

/-- The tail a partition takes. -/
theorem partitionTail_spec (h : store.Shows fl finish ids tailIds) (last : Bool) :
    TailCut finish store.tail (if last then tailIds else []) (store.partitionTail last) := by
  cases last with
  | true =>
    have hwhole : store.partitionTail true = store.tail := Option.map_id'
    rw [hwhole]
    exact .whole h
  | false => exact .nothing h.sound

/-- A piece of a view's base rows, with a partition's tail. -/
def IsPiece (fl : FastLanes) (store : VortexRdfStore ox V M) (ids shown : List RowId) (last : Bool)
    (part : VortexRdfStore ox V M) : Prop :=
  ∃ selection serve, part = store.derived (store.quads.inMemoryWith selection serve)
      (store.partitionTail last) ∧
    (store.quads.inMemoryWith selection serve).Shows fl store.layout shown ∧
    (ids ≠ [] → (store.quads.inMemoryWith selection serve).readOrder = store.quads.readOrder)

/-- Pieces of a view's base rows, the tail with the last, tile the view. -/
theorem Tiles.of_pieces {α : Type} (h : store.Shows fl finish ids tailIds) {l : List α} (hne : l ≠ [])
    {shown : α → List RowId} (hjoined : l.flatMap shown = ids) {parts : List (VortexRdfStore ox V M)}
    (hparts : List.Forall₂ (fun part piece =>
      IsPiece fl store ids (shown piece.1) (piece.2 + 1 == l.length) part) parts l.zipIdx) :
    Tiles fl finish store ids tailIds parts (l.zipIdx.map fun piece =>
      (shown piece.1, if piece.2 + 1 == l.length then tailIds else [])) where
  shows := by
    rw [List.forall₂_map_right_iff]
    refine hparts.imp fun part piece hpart => ?_
    obtain ⟨selection, serve, rfl, hbase, horder⟩ := hpart
    obtain ⟨hshows, hsame⟩ := h.sound.cut hbase (partitionTail_spec h (piece.2 + 1 == l.length))
    exact ⟨hsame, hshows, horder⟩
  base := by
    rw [List.flatMap_map, map_fst_zipIdx_flatMap, hjoined]
  read f g := by
    have hlast := flatMap_last (fun piece => (shown piece).map f) (tailIds.map g) l 0 hne
    rw [Nat.zero_add, ← List.map_flatMap, hjoined] at hlast
    rw [List.flatMap_map, ← hlast]
    refine List.flatMap_congr fun piece _ => ?_
    rw [apply_ite (List.map g), List.map_nil]

/-- The pieces of a served view are the pieces of its rows, in its index's order. -/
theorem servedPartitionsOf_spec (h : store.Shows fl finish ids tailIds) {plan : InMemoryServePlan V}
    (hserve : store.quads.memory.serve = some plan) {n : ℕ} (hn : 0 < n) :
    ∃ view live parts, store.quads.served = some view ∧ view.plan.live view.deleted = some live ∧
      store.servedPartitionsOf view live n = some parts ∧ (parts = none → ids = []) ∧
      ∀ views, parts = some views → views.length ≤ n ∧
        ∃ pieces, Tiles fl finish store ids tailIds views pieces := by
  obtain ⟨family, places, view, hview, rfl, hdeleted, hnames, rfl⟩ := h.base.reads.served hserve
  obtain ⟨live, hlive, hlists⟩ := hnames.covers.live_spec
  have hlen := hlists.len_eq
  have hsmall : places.length ≤ usizeMax := by
    have hshown := (shown_le h).1
    rw [List.length_map] at hshown
    exact hshown.trans h.sound.memory.base.small
  refine ⟨view, live, ?_⟩
  rw [VortexRdfStore.servedPartitionsOf, hlen]
  dsimp only
  split_ifs with hzero
  · refine ⟨none, hview, hlive, rfl, fun _ => ?_, fun _ hviews => ?_⟩
    · rw [List.length_eq_zero_iff.mp hzero, List.map_nil]
    · cases hviews
  · have hpos : 0 < divCeil places.length n := divCeil_pos (Nat.pos_of_ne_zero hzero) hn
    have hcount : (batchRanges places.length (divCeil places.length n)).length =
        divCeil places.length (divCeil places.length n) := by
      rw [batchRanges, List.length_map, List.length_range']
    have hpiece : ∀ piece ∈ (batchRanges places.length (divCeil places.length n)).zipIdx,
        ∃ part, (((live.slice piece.1).bind view.narrowed).map fun narrowed =>
            store.derived (store.quads.narrowedTo narrowed) (store.partitionTail (piece.2 + 1 ==
              divCeil places.length (divCeil places.length n)))) = some part ∧
          IsPiece fl store (places.map ((IndexChild.copy family).ridAt
              store.quads.memory.base.rows))
            (((places.drop piece.1.start).take (piece.1.stop - piece.1.start)).map
              ((IndexChild.copy family).ridAt store.quads.memory.base.rows))
            (piece.2 + 1 == (batchRanges places.length (divCeil places.length n)).length) part := by
      intro piece hmem
      have hmem : piece.1 ∈ batchRanges places.length (divCeil places.length n) := by
        rw [← List.zipIdx_map_fst 0 (batchRanges places.length (divCeil places.length n))]
        exact List.mem_map_of_mem hmem
      obtain ⟨start, hstart, hrange⟩ := List.mem_map.mp hmem
      obtain ⟨-, hlt⟩ := lt_of_mem_steps hpos hstart
      have hstop : min (saturatingAdd start (divCeil places.length n)) places.length =
          min (start + divCeil places.length n) places.length := min_saturatingAdd hsmall
      have hwithin : piece.1.Within places.length := by
        rw [← hrange]
        exact ⟨by dsimp only; omega, min_le_right _ _⟩
      obtain ⟨part, hslice, hpart⟩ := hlists.slice_spec hnames.covers.ascending hwithin
      have hne : (places.drop piece.1.start).take (piece.1.stop - piece.1.start) ≠ [] := by
        rw [← List.length_pos_iff, List.length_take, List.length_drop, ← hrange]
        dsimp only
        omega
      obtain ⟨narrowed, hnarrowed, hshown, horder⟩ := narrowed_shows hnames hdeleted
        (h.base.declared view.plan hserve) ((List.take_sublist _ _).trans (List.drop_sublist _ _)) hne
          hpart
      rw [hslice, Option.bind_some, hnarrowed, Option.map_some, hcount]
      exact ⟨_, rfl, _, _, rfl, hshown, fun _ => horder.trans
        (by rw [QuadsSource.readOrder, hserve])⟩
    obtain ⟨parts, hparts, hall⟩ := mapM_forall₂ hpiece
    have hne : batchRanges places.length (divCeil places.length n) ≠ [] := by
      rw [← List.length_pos_iff, hcount]
      exact divCeil_pos (Nat.pos_of_ne_zero hzero) hpos
    have hjoined : ((batchRanges places.length (divCeil places.length n)).flatMap fun piece =>
        ((places.drop piece.start).take (piece.stop - piece.start)).map
          ((IndexChild.copy family).ridAt store.quads.memory.base.rows)) =
        places.map ((IndexChild.copy family).ridAt store.quads.memory.base.rows) := by
      rw [← List.map_flatMap, batchRanges_cut hsmall hpos]
    refine ⟨some parts, hview, hlive, by rw [hparts]; rfl,
      fun hnone => (Option.some_ne_none _ hnone).elim, fun views hviews => ?_⟩
    obtain rfl := Option.some.inj hviews
    refine ⟨?_, _, .of_pieces h hne hjoined hall⟩
    rw [hall.length_eq, List.length_zipIdx, hcount]
    exact divCeil_divCeil_le (Nat.pos_of_ne_zero hzero) hn

variable [LawfulMask M]

/-- The pieces of a view cut in base order are pieces of its rows. -/
theorem basePartitions_spec (h : store.Shows fl finish ids tailIds)
    (hplain : store.quads.memory.serve = none ∨ ids = []) {n : ℕ} (hn : 0 < n) :
    ∃ parts pieces, store.basePartitions fl n = some parts ∧ parts.length ≤ n ∧
      Tiles fl finish store ids tailIds parts pieces := by
  have hsmall : store.quads.baseLen ≤ usizeMax := h.sound.memory.base.small
  have hids : inOrder ids = ids := by
    rcases hplain with hserve | rfl
    · exact h.base.reads.inOrder_eq hserve
    · exact (inOrder_perm []).eq_nil
  obtain ⟨selection, hselection, hwithin, hlisting⟩ := h.base.reads.yields.materialized_spec
  rw [hids] at hlisting
  obtain ⟨pieces, hpieces, hsplit⟩ := split_spec hsmall hwithin n
  rw [VortexRdfStore.basePartitions, hselection, Option.bind_some, hpieces, Option.map_some]
  split_ifs with hempty
  · exact ⟨_, _, rfl, hn, .self h⟩
  · have hne : pieces ≠ [] := fun hnil => hempty (List.isEmpty_iff.mpr hnil)
    have hpos := List.length_pos_iff.mpr hne
    have hjoined : (pieces.flatMap fun piece =>
        piece.liveListing store.quads.deleted store.quads.baseLen) = ids := by
      rw [← hlisting, RowSelection.liveListing, ← hsplit.joined, List.filter_flatMap]
      rfl
    refine ⟨_, _, rfl, ?_, .of_pieces h hne hjoined ?_⟩
    · rw [List.length_map, List.length_zipIdx]
      exact hsplit.few.trans_eq (max_eq_left hn)
    · rw [List.forall₂_map_left_iff, List.forall₂_same]
      intro piece hmem
      have hpiece : piece.1 ∈ pieces := by
        rw [← List.zipIdx_map_fst 0 pieces]
        exact List.mem_map_of_mem hmem
      have hlast : (piece.2 == pieces.length - 1) = (piece.2 + 1 == pieces.length) := by
        rw [Bool.eq_iff_iff, beq_iff_eq, beq_iff_eq]
        omega
      refine ⟨_, _, by rw [hlast]; rfl, .exact (hsplit.within piece.1 hpiece), fun hshown => ?_⟩
      rw [QuadsSource.readOrder, QuadsSource.readOrder, hplain.resolve_right hshown]
      rfl

/-- **The partitions of a view** are at most as many as asked for, and read, in turn, the view:
its base rows in the order they read in, then its appended rows. -/
theorem partitions_spec (h : store.Shows fl finish ids tailIds) {n : ℕ} (hn : 0 < n) :
    ∃ parts pieces, store.partitions fl n = some parts ∧ parts.length ≤ n ∧
      Tiles fl finish store ids tailIds parts pieces := by
  rw [VortexRdfStore.partitions]
  split_ifs with hone
  · exact ⟨_, _, rfl, hone.ge, .self h⟩
  · cases hserve : store.quads.memory.serve with
    | none =>
      have hserved : store.quads.served = none := by rw [QuadsSource.served, hserve]
      rw [hserved]
      exact basePartitions_spec h (.inl hserve) hn
    | some plan =>
      obtain ⟨view, live, parts, hview, hlive, hparts, hnone, hsome⟩ :=
        servedPartitionsOf_spec h hserve hn
      rw [hview]
      dsimp only
      rw [hlive, Option.bind_some, hparts, Option.bind_some]
      cases parts with
      | none => exact basePartitions_spec h (.inr (hnone rfl)) hn
      | some views =>
        obtain ⟨hfew, pieces, htiles⟩ := hsome views rfl
        exact ⟨_, _, rfl, hfew, htiles⟩

end Specs

end Views
