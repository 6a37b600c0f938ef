/-
A file's serve plan under narrowings, and the run its clones share.

A narrowing cuts or keeps a plan's live rows and leaves a clone over what is left.  The
first narrowing of an unlocated run locates it, in a cell that every clone shares; reads
and narrowings of any clone, in any order, leave it right.

* `PlanNarrowing`, `FileServePlan.narrow` — a narrowing, and the clone it leaves;
* `narrow_spec` — the clone covers the places narrowed alike;
* `PlanPool`, `PlanPool.run` — the clones of a match's plan, read and narrowed in turn;
* `clones_readTheirRows` — after any steps every clone's reads give the rows at its places.
-/
import VortexRdf.FilePlanReads

namespace Indexes

open Ascending Bisect Buffers Builds Dictionary Masks MaskOps Terms
open EncodedSearch (ColumnChunks FastLanes Node)
open Store hiding Row

/-! ### Narrowings of a plan -/

/-- A narrowing of a plan's rows: a window of them, piece `i` of at most `n`, those whose
code a keep admits, or those some equalities hold of. -/
inductive PlanNarrowing where
  | window (offset limit : ℕ)
  | partition (n : ℕ) (pos : 0 < n) (i : ℕ)
  | keep (column : QuadColumn) (admits : TermCode → Bool)
  | chain (eqs : List Equality)

/-- The span a plan narrowed to some live rows covers. -/
def LiveRows.covered : LiveRows → Option ServedSpan
  | range rows => some (.range rows)
  | spanned rows =>
    match rows.positions.head?, rows.positions.getLast? with
    | some first, some last => some (.range ⟨first, last + 1⟩)
    | _, _ => none
  | kept rows => some (.kept rows)

def ServedSpan.len : ServedSpan → ℕ
  | .range part => part.stop - part.start
  | .kept rows => rows.rids.length

namespace FileServePlan

variable {M : Type} [MaskOps M] (fl : FastLanes) (plan : FileServePlan) (deleted : Option M)

/-- This plan over some of its live rows. -/
def narrowedTo (rows : LiveRows) : Option FileServePlan := rows.covered.map plan.withSpan

/-- This plan over rows a test kept; none for no row. -/
def keptPlan (found : ServedRows × Option ServedSpan) :
    Option (Option FileServePlan × Option ServedSpan) :=
  if found.1.rids.length = 0 then some (none, found.2)
  else (plan.narrowedTo (.kept found.1)).map fun plan => (some plan, found.2)

/-- This plan over a piece of its live rows; none for no piece. -/
def cutPlan (live : LiveRows) (located : Option ServedSpan) :
    Option RowRange → Option (Option FileServePlan × Option ServedSpan)
  | none => some (none, located)
  | some piece =>
    ((live.slice piece).bind plan.narrowedTo).map fun plan => (some plan, located)

variable (V : Type) [LinearOrder V] [TermColumn V]

/-- What a narrowing leaves, beside the run as located: the plan over what it cut or kept,
or no plan for a view of no row. -/
def narrow (located : Option ServedSpan) :
    PlanNarrowing → Option (Option FileServePlan × Option ServedSpan)
  | .window offset limit =>
    (plan.live fl deleted located).bind fun found =>
      plan.cutPlan found.1 found.2 (windowRows offset limit found.1.len)
  | .partition n _ i =>
    -- the one partition is the view itself
    if n = 1 then some ([some plan].getD i none, located)
    else
      (plan.live fl deleted located).bind fun found =>
        plan.cutPlan found.1 found.2
          (if found.1.len = 0 then none
            else (batchRanges found.1.len (divCeil found.1.len n))[i]?)
  | .keep column admits =>
    (plan.locatedSpan deleted located).bind fun span =>
      if span.1.len = 0 then some (none, span.2)
      else (plan.keptRows fl deleted span.2 (roleColumn column) admits).bind plan.keptPlan
  | .chain [] => some (some plan, located)
  | .chain (eq :: eqs) => (plan.rowsWhere fl deleted V located (eq :: eqs)).bind plan.keptPlan

end FileServePlan

section Rows

variable {V : Type} [LinearOrder V] [TermColumn V] [Inhabited V]

/-- A narrowing of the places of a child. -/
def PlanNarrowing.apply (family : CopyFamily) (rows : List (Row V)) (places : List ℕ) :
    PlanNarrowing → List ℕ
  | .window offset limit => page offset limit places
  | .partition n _ i => (cut n places).getD i []
  | .keep column admits => places.filter fun i =>
      admitsValue admits (roleValue ((IndexChild.copy family).rowAt rows i) column)
  | .chain eqs => places.filter (childHolds family rows eqs)

/-- The narrowings a view of the child takes: keeps where its columns hold codes, and
patterns of term equalities. -/
def PlanNarrowing.Taken (V : Type) [LinearOrder V] [TermColumn V] : PlanNarrowing → Prop
  | .window _ _ => True
  | .partition _ _ _ => True
  | .keep _ _ => ∀ v : V, ∃ code, TermColumn.scalar v = .num code
  | .chain eqs => ∀ eq ∈ eqs, TermEquality V eq

end Rows

/-! ### The clones of a plan -/

/-- The clones of a match's plan, and the located run they share: a clone for each view
narrowed, none for a view of no row. -/
structure PlanPool where
  located : Option ServedSpan
  views : List (Option FileServePlan)

/-- A read of a clone's live rows, or a narrowing of it into one more. -/
inductive PlanStep where
  | read (k : ℕ)
  | narrow (k : ℕ) (narrowing : PlanNarrowing)

namespace PlanPool

variable {M : Type} [MaskOps M] (fl : FastLanes) (deleted : Option M) (V : Type) [LinearOrder V]
  [TermColumn V]

def step (pool : PlanPool) : PlanStep → Option PlanPool
  | .read k =>
    match pool.views[k]? with
    | some (some plan) =>
      (plan.liveRows fl deleted pool.located).map fun found => { pool with located := found.2 }
    | _ => some pool
  | .narrow k narrowing =>
    match pool.views[k]? with
    | none => some pool
    | some none => some { pool with views := pool.views ++ [none] }
    | some (some plan) =>
      (plan.narrow fl deleted V pool.located narrowing).map fun found =>
        ⟨found.2, pool.views ++ [found.1]⟩

def run (pool : PlanPool) : List PlanStep → Option PlanPool
  | [] => some pool
  | next :: steps => (pool.step fl deleted V next).bind fun pool => pool.run steps

end PlanPool

/-- The places of every clone, a step later. -/
def PlanStep.apply {V : Type} [LinearOrder V] [TermColumn V] [Inhabited V] (family : CopyFamily)
    (rows : List (Row V)) (views : List (List ℕ)) : PlanStep → List (List ℕ)
  | .read _ => views
  | .narrow k narrowing =>
    match views[k]? with
    | none => views
    | some places => views ++ [narrowing.apply family rows places]

def PlanStep.Taken (V : Type) [LinearOrder V] [TermColumn V] : PlanStep → Prop
  | .read _ => True
  | .narrow _ narrowing => narrowing.Taken V

/-! ### A narrowing covers the rows narrowed alike -/

section Spans

variable {V : Type} [LinearOrder V] [Inhabited V] {M : Type} [MaskOps M] {family : CopyFamily}
  {rows : List (Row V)} {deleted : Option M}

/-- Live rows of some places span them. -/
theorem covered_spec {live : LiveRows} {part : List ℕ} (hsorted : part.SortedLT) (hne : part ≠ [])
    (hlivePart : ∀ i ∈ part, liveRid deleted ((IndexChild.copy family).ridAt rows i) = true)
    (hin : ∀ i ∈ part, i < rows.length)
    (hlists : live.Lists (.copy family) rows deleted ⟨0, rows.length⟩ part) :
    ∃ span, live.covered = some span ∧ span.Spans family rows deleted part := by
  cases live with
  | range range =>
    obtain ⟨hstart, horder, hstop, hpart⟩ := hlists
    refine ⟨_, rfl, hstart, horder, hstop, ?_⟩
    rw [List.filter_eq_self.mpr fun i hi => hlivePart i (hpart ▸ hi), ← hpart]
  | kept listed => exact ⟨_, rfl, hlists⟩
  | spanned listed =>
    obtain ⟨rfl, hfills⟩ := hlists
    obtain ⟨first, rest, rfl⟩ := List.exists_cons_of_ne_nil hne
    have hpositions : (ServedRows.ofPairs ((first :: rest).map
        ((IndexChild.copy family).pairAt rows))).positions = first :: rest := by
      show ((first :: rest).map ((IndexChild.copy family).pairAt rows)).map Prod.fst = first :: rest
      rw [List.map_map]
      exact List.map_id' _
    have hbounds := le_getLastD hsorted
    have hlast := @List.getLastD_mem_cons _ rest first
    refine ⟨.range ⟨first, rest.getLastD first + 1⟩, ?_, Nat.zero_le _,
      Nat.le_succ_of_le (hbounds _ hlast).1, hin _ hlast, ?_⟩
    · rw [LiveRows.covered, hpositions, List.head?_cons, List.getLast?_cons,
        List.getLastD_eq_getLast?]
    · -- the live places from the first to the last are these
      refine hsorted.eq_of_mem_iff
        ((RowRange.sortedLT_toList _).pairwise.sublist List.filter_sublist).sortedLT fun i => ?_
      rw [List.mem_filter, RowRange.mem_toList]
      constructor
      · intro hi
        exact ⟨⟨(hbounds i hi).1, Nat.lt_succ_of_le (hbounds i hi).2⟩, hlivePart i hi⟩
      · rintro ⟨⟨hlo, hhi⟩, hi⟩
        exact hfills first List.mem_cons_self _ hlast i hlo (Nat.le_of_lt_succ hhi) hi

end Spans

section Narrowings

variable {V : Type} [LinearOrder V] [TermColumn V] [Inhabited V] {M : Type} [MaskOps M]
  {fl : FastLanes} {family : CopyFamily} {rows : List (Row V)} {deleted : Option M}
  {places : List ℕ} {plan : FileServePlan} {located : Option ServedSpan}

/-- A view of some places of a child: its plan covers them, and has gone when none is left. -/
def ViewCovers (fl : FastLanes) (family : CopyFamily) (rows : List (Row V)) (deleted : Option M)
    (eqs : List Equality) (places : List ℕ) : Option FileServePlan → Prop
  | some plan => plan.Covers fl family rows deleted places ∧ plan.constraints = eqs
  | none => places = []

theorem apply_nil' (narrowing : PlanNarrowing) : narrowing.apply family rows [] = [] := by
  cases narrowing with
  | window offset limit => rw [PlanNarrowing.apply, page, List.drop_nil, List.take_nil]
  | partition n pos i => rw [PlanNarrowing.apply, cut_nil]; rfl
  | keep column admits => rfl
  | chain eqs => rfl

/-- A plan over a span of some of its live rows covers their places. -/
theorem FileServePlan.Covers.withSpan (h : plan.Covers fl family rows deleted places) {part : List ℕ}
    (hpart : part.Sublist places) {span : ServedSpan} (hspan : span.Spans family rows deleted part) :
    (plan.withSpan span).Covers fl family rows deleted part where
  reads := h.reads
  constrained := h.constrained
  terms := h.terms
  spanned found hfound := by
    obtain rfl : span = found := Option.some.inj hfound
    exact hspan
  unspanned hnone := by cases hnone
  listed := hpart.trans h.listed

/-- A plan narrowed to live rows of some of its places covers them. -/
theorem narrowed_spec (h : plan.Covers fl family rows deleted places) {part : List ℕ}
    (hpart : part.Sublist places) (hne : part ≠ []) {live : LiveRows}
    (hlists : live.Lists (.copy family) rows deleted ⟨0, rows.length⟩ part) :
    ∃ clone, plan.narrowedTo live = some clone ∧ clone.Covers fl family rows deleted part ∧
      clone.constraints = plan.constraints := by
  have hsorted : part.SortedLT := (h.ascending.pairwise.sublist hpart).sortedLT
  obtain ⟨span, hspan, hspans⟩ := covered_spec hsorted hne (fun i hi => h.live i (hpart.subset hi))
    (fun i hi => h.inBase i (hpart.subset hi)) hlists
  exact ⟨plan.withSpan span, by rw [FileServePlan.narrowedTo, hspan, Option.map_some],
    h.withSpan hpart hspans, rfl⟩

/-- A plan over the rows a test kept. -/
theorem keptPlan_spec (h : plan.Covers fl family rows deleted places) (q : ℕ → Bool) :
    ∃ view, plan.keptPlan (ServedRows.ofPairs ((places.filter q).map
        ((IndexChild.copy family).pairAt rows)), located) = some (view, located) ∧
      ViewCovers fl family rows deleted plan.constraints (places.filter q) view := by
  have hlen : (ServedRows.ofPairs ((places.filter q).map
      ((IndexChild.copy family).pairAt rows))).rids.length = (places.filter q).length := by
    rw [ServedRows.ofPairs, List.length_map, List.length_map]
  rw [FileServePlan.keptPlan, hlen]
  split_ifs with hzero
  · exact ⟨none, rfl, List.length_eq_zero_iff.mp hzero⟩
  · have hne : places.filter q ≠ [] := fun hnil => hzero (List.length_eq_zero_iff.mpr hnil)
    obtain ⟨clone, hclone, hcovers, hsame⟩ := @narrowed_spec V _ _ _ M _ fl family rows deleted places
      plan h _ List.filter_sublist hne (.kept _) rfl
    exact ⟨some clone, by rw [hclone, Option.map_some], hcovers, hsame⟩

/-- A plan over a piece of its live rows. -/
theorem cutPlan_spec (h : plan.Covers fl family rows deleted places) {live : LiveRows}
    (hlists : live.Lists (.copy family) rows deleted ⟨0, rows.length⟩ places) {piece : RowRange}
    (hpiece : piece.Within places.length) (hlt : piece.start < piece.stop) :
    ∃ view, plan.cutPlan live located (some piece) = some (view, located) ∧
      ViewCovers fl family rows deleted plan.constraints
        ((places.drop piece.start).take (piece.stop - piece.start)) view := by
  obtain ⟨part, hslice, hpart⟩ := hlists.slice_spec h.ascending hpiece
  have hne : (places.drop piece.start).take (piece.stop - piece.start) ≠ [] := by
    have hstop := hpiece.inBase
    rw [← List.length_pos_iff, List.length_take, List.length_drop]
    omega
  obtain ⟨clone, hclone, hcovers, hsame⟩ := narrowed_spec h
    ((List.take_sublist _ _).trans (List.drop_sublist _ _)) hne hpart
  exact ⟨some clone, by rw [FileServePlan.cutPlan, hslice, Option.bind_some, hclone, Option.map_some],
    hcovers, hsame⟩

/-- What a narrowing leaves: a plan over the places narrowed alike, and the run located. -/
def FileServePlan.Narrows (plan : FileServePlan) (fl : FastLanes) (family : CopyFamily) (rows : List (Row V))
    (deleted : Option M) (places : List ℕ) (located : Option ServedSpan) (narrowing : PlanNarrowing) :
    Prop :=
  ∃ view located', plan.narrow fl deleted V located narrowing = some (view, located') ∧
    ViewCovers fl family rows deleted plan.constraints (narrowing.apply family rows places) view ∧
    RunLocated family rows deleted plan.constraints located'

theorem window_narrows (h : plan.Covers fl family rows deleted places)
    (hlocated : RunLocated family rows deleted plan.constraints located)
    (hlen : places.length ≤ usizeMax) (offset limit : ℕ) :
    plan.Narrows fl family rows deleted places located (.window offset limit) := by
  rw [FileServePlan.Narrows]
  obtain ⟨live, located', hlive, hlists, hkept⟩ := live_spec h hlocated
  rw [FileServePlan.narrow, hlive, Option.bind_some]
  dsimp only
  rw [hlists.len_eq, PlanNarrowing.apply]
  cases hrows : windowRows offset limit places.length with
  | none => exact ⟨none, located', rfl, windowRows_none hlen hrows, hkept⟩
  | some piece =>
    obtain ⟨hwithin, hpage⟩ := windowRows_some hlen hrows
    have hlt : piece.start < piece.stop := by
      rw [windowRows] at hrows
      split_ifs at hrows with hlt
      exact Option.some.inj hrows ▸ hlt
    obtain ⟨view, hview, hcovers⟩ := @cutPlan_spec V _ _ _ M _ fl family rows deleted places plan
      located' h live hlists piece hwithin hlt
    exact ⟨view, located', hview, by rwa [← hpage], hkept⟩

theorem partition_narrows (h : plan.Covers fl family rows deleted places)
    (hlocated : RunLocated family rows deleted plan.constraints located)
    (hlen : places.length ≤ usizeMax) (n : ℕ) (pos : 0 < n) (i : ℕ) :
    plan.Narrows fl family rows deleted places located (.partition n pos i) := by
  rw [FileServePlan.Narrows]
  rw [FileServePlan.narrow, PlanNarrowing.apply]
  split_ifs with hone
  · subst hone
    by_cases hempty : places = []
    · refine ⟨_, located, rfl, ?_, hlocated⟩
      rw [hempty, cut_nil]
      cases i with
      | zero => exact ⟨hempty ▸ h, rfl⟩
      | succ i => rfl
    · refine ⟨_, located, rfl, ?_, hlocated⟩
      rw [cut_one hlen hempty]
      cases i with
      | zero => exact ⟨h, rfl⟩
      | succ i => rfl
  · obtain ⟨live, located', hlive, hlists, hkept⟩ := live_spec h hlocated
    rw [hlive, Option.bind_some]
    dsimp only
    rw [hlists.len_eq]
    split_ifs with hnone
    · refine ⟨none, located', rfl, ?_, hkept⟩
      rw [List.length_eq_zero_iff.mp hnone, cut_nil]
      rfl
    · have hpos : 0 < divCeil places.length n := divCeil_pos (Nat.pos_of_ne_zero hnone) pos
      cases hpiece : (batchRanges places.length (divCeil places.length n))[i]? with
      | none =>
        refine ⟨none, located', rfl, ?_, hkept⟩
        rw [cut, List.getD_eq_getElem?_getD, List.getElem?_map, hpiece]
        rfl
      | some piece =>
        obtain ⟨start, hstart, rfl⟩ := List.mem_map.mp (List.mem_of_getElem? hpiece)
        obtain ⟨-, hlt⟩ := lt_of_mem_steps hpos hstart
        have hstop : min (saturatingAdd start (divCeil places.length n)) places.length =
            min (start + divCeil places.length n) places.length := min_saturatingAdd hlen
        obtain ⟨view, hview, hcovers⟩ := @cutPlan_spec V _ _ _ M _ fl family rows deleted places plan
          located' h live hlists
          ⟨start, min (saturatingAdd start (divCeil places.length n)) places.length⟩
          ⟨by dsimp only; omega, min_le_right _ _⟩ (by dsimp only; omega)
        refine ⟨view, located', hview, ?_, hkept⟩
        rw [cut, List.getD_eq_getElem?_getD, List.getElem?_map, hpiece]
        exact hcovers

theorem keep_narrows (h : plan.Covers fl family rows deleted places)
    (hlocated : RunLocated family rows deleted plan.constraints located) (column : QuadColumn)
    (admits : TermCode → Bool) (htaken : (PlanNarrowing.keep column admits).Taken V) :
    plan.Narrows fl family rows deleted places located (.keep column admits) := by
  rw [FileServePlan.Narrows]
  obtain ⟨span, located', hspan, hspans, hkept⟩ := locatedSpan_spec h hlocated
  rw [FileServePlan.narrow, hspan, Option.bind_some, PlanNarrowing.apply]
  dsimp only
  split_ifs with hzero
  · -- a span of no row covers no place
    have hnil : places = [] := by
      cases span with
      | kept listed =>
        obtain ⟨-, hrids⟩ := ServedSpan.Covers.kept hspans
        rw [ServedSpan.len, hrids, List.length_map] at hzero
        exact List.length_eq_zero_iff.mp hzero
      | range range =>
        rw [hspans.within.2, show range.toList = [] from ?_, List.filter_nil]
        rw [RowRange.toList, show range.stop - range.start = 0 from hzero, List.range'_zero]
    refine ⟨none, located', rfl, ?_, hkept⟩
    rw [hnil]
    rfl
  · obtain ⟨located'', hrows, hkept'⟩ := keptRows_spec h hkept htaken column admits
    obtain ⟨view, hview, hcovers⟩ := @keptPlan_spec V _ _ _ M _ fl family rows deleted places plan
      located'' h fun i => admitsValue admits (roleValue ((IndexChild.copy family).rowAt rows i) column)
    exact ⟨view, located'', by rw [hrows, Option.bind_some, hview], hcovers, hkept'⟩

variable [LawfulMask M]

theorem chain_narrows (h : plan.Covers fl family rows deleted places)
    (hlocated : RunLocated family rows deleted plan.constraints located) (eqs : List Equality)
    (htaken : (PlanNarrowing.chain eqs).Taken V) :
    plan.Narrows fl family rows deleted places located (.chain eqs) := by
  rw [FileServePlan.Narrows]
  cases eqs with
  | nil =>
    have hall : places.filter (childHolds family rows []) = places :=
      List.filter_eq_self.mpr fun _ _ => rfl
    refine ⟨some plan, located, rfl, ?_, hlocated⟩
    rw [PlanNarrowing.apply, hall]
    exact ⟨h, rfl⟩
  | cons eq eqs =>
    obtain ⟨located', hrows, hkept⟩ := rowsWhere_spec h hlocated htaken
    obtain ⟨view, hview, hcovers⟩ := @keptPlan_spec V _ _ _ M _ fl family rows deleted places plan
      located' h (childHolds family rows (eq :: eqs))
    exact ⟨view, located', by rw [FileServePlan.narrow, hrows, Option.bind_some, hview], hcovers, hkept⟩

/-- A narrowing leaves a plan over the places narrowed alike, and the run located. -/
theorem FileServePlan.Covers.narrow_spec (h : plan.Covers fl family rows deleted places)
    (hlocated : RunLocated family rows deleted plan.constraints located)
    (hsmall : rows.length ≤ usizeMax) (narrowing : PlanNarrowing) (htaken : narrowing.Taken V) :
    ∃ view located', plan.narrow fl deleted V located narrowing = some (view, located') ∧
      ViewCovers fl family rows deleted plan.constraints (narrowing.apply family rows places) view ∧
      RunLocated family rows deleted plan.constraints located' := by
  have hlen : places.length ≤ usizeMax := (IdsWithin.length_le ⟨h.ascending, h.inBase⟩).trans hsmall
  cases narrowing with
  | window offset limit => exact window_narrows h hlocated hlen offset limit
  | partition n pos i => exact partition_narrows h hlocated hlen n pos i
  | keep column admits => exact keep_narrows h hlocated column admits htaken
  | chain eqs => exact chain_narrows h hlocated eqs htaken

/-! ### The clones in turn -/

/-- Every clone of a pool covers its places, and the run they share is located right. -/
structure PlanPool.Covers (fl : FastLanes) (family : CopyFamily) (rows : List (Row V))
    (deleted : Option M) (eqs : List Equality) (views : List (List ℕ)) (pool : PlanPool) : Prop where
  located : RunLocated family rows deleted eqs pool.located
  views : List.Forall₂ (ViewCovers fl family rows deleted eqs) views pool.views

variable {eqs : List Equality} {pool : PlanPool} {views : List (List ℕ)}

theorem forall₂_getElem? {α β : Type} {R : α → β → Prop} {l : List α} {l' : List β}
    (h : List.Forall₂ R l l') {k : ℕ} {b : β} (hb : l'[k]? = some b) : ∃ a, l[k]? = some a ∧ R a b := by
  obtain ⟨hk, rfl⟩ := List.getElem?_eq_some_iff.mp hb
  have hk' : k < l.length := by rwa [h.length_eq]
  exact ⟨l[k], List.getElem?_eq_getElem hk', h.get hk' hk⟩

theorem forall₂_getElem?_none {α β : Type} {R : α → β → Prop} {l : List α} {l' : List β}
    (h : List.Forall₂ R l l') {k : ℕ} (hb : l'[k]? = none) : l[k]? = none := by
  rw [List.getElem?_eq_none_iff] at hb ⊢
  rwa [h.length_eq]

/-- A step keeps every clone over its places. -/
theorem PlanPool.Covers.step_spec (h : pool.Covers fl family rows deleted eqs views)
    (hsmall : rows.length ≤ usizeMax) (step : PlanStep) (htaken : step.Taken V) :
    ∃ pool', pool.step fl deleted V step = some pool' ∧
      pool'.Covers fl family rows deleted eqs (step.apply family rows views) := by
  cases step with
  | read k =>
    rw [PlanPool.step]
    cases hview : pool.views[k]? with
    | none => exact ⟨pool, rfl, h⟩
    | some view =>
      cases view with
      | none => exact ⟨pool, rfl, h⟩
      | some plan =>
        obtain ⟨places, -, hcovers, rfl⟩ := forall₂_getElem? h.views hview
        obtain ⟨located', hrows, hkept⟩ := liveRows_spec hcovers h.located
        refine ⟨{ pool with located := located' }, ?_, hkept, h.views⟩
        dsimp only
        rw [hrows, Option.map_some]
  | narrow k narrowing =>
    rw [PlanPool.step, PlanStep.apply]
    cases hview : pool.views[k]? with
    | none =>
      rw [forall₂_getElem?_none h.views hview]
      exact ⟨pool, rfl, h⟩
    | some view =>
      obtain ⟨places, hplaces, hcovers⟩ := forall₂_getElem? h.views hview
      rw [hplaces]
      cases view with
      | none =>
        obtain rfl : places = [] := hcovers
        refine ⟨_, rfl, h.located, List.rel_append h.views (.cons ?_ .nil)⟩
        exact apply_nil' narrowing
      | some plan =>
        obtain ⟨hcovers, rfl⟩ := hcovers
        obtain ⟨clone, located', hnarrow, hclone, hkept⟩ :=
          hcovers.narrow_spec h.located hsmall narrowing htaken
        refine ⟨⟨located', pool.views ++ [clone]⟩, ?_, hkept,
          List.rel_append h.views (.cons hclone .nil)⟩
        dsimp only
        rw [hnarrow, Option.map_some]

theorem PlanPool.Covers.run_spec (hsmall : rows.length ≤ usizeMax) : ∀ (steps : List PlanStep)
    {pool : PlanPool} {views : List (List ℕ)}, pool.Covers fl family rows deleted eqs views →
      (∀ step ∈ steps, step.Taken V) → ∃ pool', pool.run fl deleted V steps = some pool' ∧
        pool'.Covers fl family rows deleted eqs
          (steps.foldl (fun views step => step.apply family rows views) views)
  | [], pool, views, h, _ => ⟨pool, rfl, h⟩
  | step :: steps, pool, views, h, htaken => by
    obtain ⟨hfirst, hrest⟩ := List.forall_mem_cons.mp htaken
    obtain ⟨next, hnext, hcovers⟩ := h.step_spec hsmall step hfirst
    obtain ⟨final, hfinal, hall⟩ := PlanPool.Covers.run_spec hsmall steps hcovers hrest
    exact ⟨final, by rw [PlanPool.run, hnext, Option.bind_some, hfinal], hall⟩

end Narrowings

/-! ### Every clone reads its rows -/

section Reads

variable {V : Type} [LinearOrder V] [TermColumn V] [Inhabited V] {M : Type} [MaskOps M]

/-- The reads of a view give the child's rows at some places, each beside its base row id,
with the run located before or read afresh; a view without a plan has no row. -/
structure PlanReads (fl : FastLanes) (family : CopyFamily) (rows : List (Row V))
    (deleted : Option M) (places : List ℕ) (located : Option ServedSpan) (plan : FileServePlan) : Prop where
  liveRows : ∃ located', plan.liveRows fl deleted located =
    some (ServedRows.ofPairs (places.map ((IndexChild.copy family).pairAt rows)), located')
  live : ∃ live located', plan.live fl deleted located = some (live, located') ∧
    live.Lists (.copy family) rows deleted ⟨0, rows.length⟩ places
  keptRows : (∀ v : V, ∃ code, TermColumn.scalar v = .num code) →
    ∀ (role : QuadColumn) (admits : TermCode → Bool), ∃ located',
      plan.keptRows fl deleted located (roleColumn role) admits =
        some (ServedRows.ofPairs ((places.filter fun i =>
          admitsValue admits (roleValue ((IndexChild.copy family).rowAt rows i) role)).map
            ((IndexChild.copy family).pairAt rows)), located')
  rowsWhere : ∀ eqs : List Equality, (∀ eq ∈ eqs, TermEquality V eq) → ∃ located',
    plan.rowsWhere fl deleted V located eqs =
      some (ServedRows.ofPairs ((places.filter (childHolds family rows eqs)).map
        ((IndexChild.copy family).pairAt rows)), located')
  codeColumns : (∀ v : V, ∃ code, TermColumn.scalar v = .num code) →
    ∀ (probed : ChildChunk → Bool) (workers : ℕ), ∃ columns,
      plan.codeColumns fl V probed workers deleted = some columns ∧
        columns.map (List.map Scalar.num) = QuadColumn.ALL.map (columnScalars family rows places)

def ViewReads (fl : FastLanes) (family : CopyFamily) (rows : List (Row V)) (deleted : Option M)
    (located : Option ServedSpan) (places : List ℕ) : Option FileServePlan → Prop
  | some plan => PlanReads fl family rows deleted places located plan ∧
      PlanReads fl family rows deleted places none plan
  | none => places = []

variable {fl : FastLanes} {family : CopyFamily} {rows : List (Row V)}

/-- The plan of a match covers the live rows its equalities hold of. -/
theorem covers_new {child : ChildReader} (hchild : child.Reads family rows fl) (decode : ServeDecode)
    {eqs : List Equality} (hne : eqs ≠ []) (heqs : ∀ eq ∈ eqs, TermEquality V eq)
    {run : Option RowRange} (hrun : ∀ range ∈ run, range.Within rows.length ∧
      range.toList = holdingPlaces family rows eqs) (deleted : Option M) :
    (FileServePlan.new decode child eqs run).Covers fl family rows deleted
      (livePlaces family rows deleted eqs) where
  reads := hchild
  constrained := hne
  terms := heqs
  spanned span hspan := by
    obtain ⟨range, hrange, rfl⟩ := Option.map_eq_some_iff.mp hspan
    obtain ⟨hwithin, hplaces⟩ := hrun range hrange
    exact ⟨Nat.zero_le _, hwithin.ordered, hwithin.inBase, by rw [hplaces]; rfl⟩
  unspanned _ := rfl
  listed := List.Sublist.refl _

variable [LawfulMask M] {deleted : Option M}

theorem FileServePlan.Covers.reads_spec {places : List ℕ} {plan : FileServePlan}
    {located : Option ServedSpan} (h : plan.Covers fl family rows deleted places)
    (hlocated : RunLocated family rows deleted plan.constraints located)
    (hsmall : rows.length ≤ usizeMax) : PlanReads fl family rows deleted places located plan where
  liveRows := by
    obtain ⟨located', hrows, -⟩ := liveRows_spec h hlocated
    exact ⟨located', hrows⟩
  live := by
    obtain ⟨live, located', hlive, hlists, -⟩ := live_spec h hlocated
    exact ⟨live, located', hlive, hlists⟩
  keptRows hcoded role admits := by
    obtain ⟨located', hrows, -⟩ := keptRows_spec h hlocated hcoded role admits
    exact ⟨located', hrows⟩
  rowsWhere eqs heqs := by
    obtain ⟨located', hrows, -⟩ := rowsWhere_spec h hlocated heqs
    exact ⟨located', hrows⟩
  codeColumns hcoded probed workers := codeColumns_spec h hcoded hsmall probed workers

/-- Over a copy child, with a run located or not, after any reads and narrowings of the
clones of a match's plan, in any order, every read of every clone gives the live child rows
its equalities hold of, narrowed alike, in the child's order, each beside its base row id:
whatever the clones left located, and as a read that locates the run afresh. -/
theorem clones_readTheirRows (fl : FastLanes) (family : CopyFamily) (rows : List (Row V))
    (hsmall : rows.length ≤ usizeMax) {child : ChildReader} (hchild : child.Reads family rows fl)
    (decode : ServeDecode) {eqs : List Equality} (hne : eqs ≠ [])
    (heqs : ∀ eq ∈ eqs, TermEquality V eq) {run : Option RowRange}
    (hrun : ∀ range ∈ run, range.Within rows.length ∧ range.toList = holdingPlaces family rows eqs)
    (deleted : Option M) (steps : List PlanStep) (hsteps : ∀ step ∈ steps, step.Taken V) :
    ∃ pool, PlanPool.run fl deleted V ⟨none, [some (.new decode child eqs run)]⟩ steps = some pool ∧
      List.Forall₂ (ViewReads fl family rows deleted pool.located)
        (steps.foldl (fun views step => step.apply family rows views)
          [livePlaces family rows deleted eqs]) pool.views := by
  have hnone : RunLocated family rows deleted eqs none := fun span hspan => by cases hspan
  have hstart : PlanPool.Covers fl family rows deleted eqs [livePlaces family rows deleted eqs]
      ⟨none, [some (.new decode child eqs run)]⟩ :=
    ⟨hnone, .cons ⟨covers_new hchild decode hne heqs hrun deleted, rfl⟩ .nil⟩
  obtain ⟨pool, hpool, hlocated, hviews⟩ := PlanPool.Covers.run_spec hsmall steps hstart hsteps
  refine ⟨pool, hpool, hviews.imp fun places view hview => ?_⟩
  cases view with
  | none => exact hview
  | some plan =>
    obtain ⟨hcovers, rfl⟩ := hview
    exact ⟨hcovers.reads_spec hlocated hsmall, hcovers.reads_spec hnone hsmall⟩

/-- Two quads that share all but their object. -/
def clonedRows : List (Row TermCode) := [⟨1, 2, 1, 0⟩, ⟨1, 2, 2, 0⟩]

/-- A child whose columns no chunk probe reads. -/
def scannedChild : ChildReader where
  name := CopyFamily.posg.identity.name
  readAllRows scan := some (scan.chunk .posg clonedRows)
  columnChunks _ := none
  primitive _ := true
  nullBit _ _ := false

theorem scannedChild_reads (fl : FastLanes) : scannedChild.Reads .posg clonedRows fl where
  scans _ _ := rfl
  probed _ _ h := by cases h

theorem clones_readTheirRows_sample :
    ∃ pool, PlanPool.run FastLanes.ofZeros (some (MaskOps.fromIndices 2 [1] : BitMask)) TermCode
        ⟨none, [some (.new ⟨.dictionary, .posg⟩ scannedChild [(.p, .num 2)] none)]⟩
        [.narrow 0 (.chain [(.g, .num 0)]), .read 0, .narrow 1 (.window 0 1)] = some pool ∧
      List.Forall₂ (ViewReads FastLanes.ofZeros .posg clonedRows
          (some (MaskOps.fromIndices 2 [1] : BitMask)) pool.located)
        ([.narrow 0 (.chain [(.g, .num 0)]), .read 0, .narrow 1 (.window 0 1)].foldl
          (fun views step => PlanStep.apply .posg clonedRows views step)
          [livePlaces .posg clonedRows (some (MaskOps.fromIndices 2 [1] : BitMask)) [(.p, .num 2)]])
        pool.views := by
  have hp : ∀ eq ∈ [((.p : ColumnName), Scalar.num 2)], TermEquality TermCode eq := by
    intro eq heq
    exact ⟨.p, (2 : TermCode), List.mem_singleton.mp heq⟩
  have hg : ∀ eq ∈ [((.g : ColumnName), Scalar.num 0)], TermEquality TermCode eq := by
    intro eq heq
    exact ⟨.g, (0 : TermCode), List.mem_singleton.mp heq⟩
  refine clones_readTheirRows FastLanes.ofZeros .posg clonedRows (by decide)
    (scannedChild_reads FastLanes.ofZeros) ⟨.dictionary, .posg⟩ (List.cons_ne_nil _ _) hp
    (fun range hrange => by cases hrange) _ _ fun step hstep => ?_
  rcases List.mem_cons.mp hstep with rfl | hstep
  · exact hg
  · rcases List.mem_cons.mp hstep with rfl | hstep
    · trivial
    · obtain rfl := List.mem_singleton.mp hstep
      trivial

end Reads

end Indexes
