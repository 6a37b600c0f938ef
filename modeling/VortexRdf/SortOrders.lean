/-
The order a view's rows read in.

A base stamped sorted reads in `(s, p, o, g)` order.  A plan reads in its copy's key order,
which over the rows of its bound terms is the order the plan declares: a copy led by the
predicate declares its own order, one whose leading terms are all bound the base's.

* `SortOrder.key`, `SortOrder.Orders` — rows that come in a sort order;
* `SortOrder.Fits` — an order a copy's run of some terms reads in;
* `ServeDecode.Declares` — what a plan declares of some base rows;
* `choose_fits` — what a chosen probe declares fits what it resolves;
* `serves_orders` — a fresh plan's rows come in an order that fits.
-/
import VortexRdf.BaseArrays

namespace Indexes

open Ascending Buffers Builds Dictionary DistinctSort Masks MaskOps Terms
open EncodedSearch (FastLanes)
open Store hiding Row
open scoped Lexicographic

/-! ### Orders -/

/-- A row in an order's key order. -/
def SortOrder.key {V : Type} : SortOrder → Row V → Key V
  | .spog, r => Builds.key r.s r.p r.o r.g
  | .posg, r => Builds.key r.p r.o r.s r.g
  | .ospg, r => Builds.key r.o r.s r.p r.g

section Orders

variable {V : Type} [LinearOrder V] [Inhabited V] {rows : List (Row V)} {order : SortOrder}
  {ids : List RowId}

/-- Base rows come in a sort order. -/
def SortOrder.Orders (order : SortOrder) (rows : List (Row V)) (ids : List RowId) : Prop :=
  (ids.map fun id => order.key (rows.getD id default)).Pairwise (· ≤ ·)

theorem SortOrder.Orders.sublist (h : order.Orders rows ids) {ids' : List RowId}
    (hsub : ids'.Sublist ids) : order.Orders rows ids' :=
  List.Pairwise.sublist (hsub.map _) h

/-- Rows of a sorted base, in base order. -/
theorem orders_of_sorted (h : rows.SortedLE) (hids : ids.SortedLT)
    (hbound : ∀ id ∈ ids, id < rows.length) : SortOrder.spog.Orders rows ids := by
  rw [SortOrder.Orders, List.pairwise_map]
  refine hids.pairwise.imp_of_mem fun {i j} hi hj hij => ?_
  have hle : rows.get ⟨i, hbound i hi⟩ ≤ rows.get ⟨j, hbound j hj⟩ :=
    List.pairwise_iff_getElem.mp h.pairwise i j (hbound i hi) (hbound j hj) hij
  rw [List.getD_eq_getElem _ _ (hbound i hi), List.getD_eq_getElem _ _ (hbound j hj)]
  exact hle

end Orders

/-! ### The order of a copy's run -/

/-- An order a copy's run of some terms reads in: the copy's own, or the base's where the
terms bind what the copy sorts before it. -/
def SortOrder.Fits (terms : List TermRef) : CopyFamily → SortOrder → Prop
  | .posg, .posg => True
  | .posg, .spog => ∃ p o, TermRef.predicate p ∈ terms ∧ TermRef.object o ∈ terms
  | .ospg, .spog => ∃ o, TermRef.object o ∈ terms
  | _, _ => False

/-- What a plan declares of a copy's run of some terms: what its columns hold, and an order
that fits. -/
structure ServeDecode.Fits (strategy : LayoutStrategy) (terms : List TermRef) (family : CopyFamily)
    (decode : ServeDecode) : Prop where
  layout : decode.decodeLayout = copyDecodeLayout strategy
  order : decode.order.Fits terms family

/-- What a plan declares of some base rows: what its columns hold, and the order they come in. -/
structure ServeDecode.Declares {V : Type} [LinearOrder V] [Inhabited V] (strategy : LayoutStrategy)
    (rows : List (Row V)) (ids : List RowId) (decode : ServeDecode) : Prop where
  layout : decode.decodeLayout = copyDecodeLayout strategy
  ordered : decode.order.Orders rows ids

theorem ServeDecode.Declares.sublist {V : Type} [LinearOrder V] [Inhabited V]
    {strategy : LayoutStrategy} {rows : List (Row V)} {ids ids' : List RowId} {decode : ServeDecode}
    (h : decode.Declares strategy rows ids) (hsub : ids'.Sublist ids) :
    decode.Declares strategy rows ids' :=
  ⟨h.layout, h.ordered.sublist hsub⟩

/-- What a copy's probe declares. -/
theorem chooseCopy_fits {pattern : QuadPattern} {layout : LayoutStrategy} {probe : IndexProbe}
    {decode : ServeDecode} {child : IndexChild} (h : chooseCopy pattern layout = some probe)
    (hserve : probe.serve = some decode) (hname : child.identity.name = probe.identity.name) :
    ∃ family, child = .copy family ∧ decode.Fits layout
      (pattern.boundRoles.filter fun term => probe.resolves.has term.role) family := by
  obtain ⟨s, p, o, g⟩ := pattern
  cases s with
  | some s => cases h
  | none =>
    cases p with
    | none =>
      cases o with
      | none => cases h
      | some o =>
        cases h
        cases hserve
        exact ⟨_, copyFamily_eq hname, rfl, o, List.mem_filter.mpr ⟨List.mem_cons_self, rfl⟩⟩
    | some p =>
      cases o with
      | none =>
        cases h
        cases hserve
        exact ⟨_, copyFamily_eq hname, rfl, trivial⟩
      | some o =>
        cases h
        cases hserve
        exact ⟨_, copyFamily_eq hname, rfl, p, o, List.mem_filter.mpr ⟨List.mem_cons_self, rfl⟩,
          List.mem_filter.mpr ⟨List.mem_cons_of_mem _ List.mem_cons_self, rfl⟩⟩

/-- What a chosen probe declares fits what it resolves. -/
theorem choose_fits {index : IndexType} {pattern : QuadPattern} {layout : LayoutStrategy}
    {probe : IndexProbe} {decode : ServeDecode} {child : IndexChild}
    (h : choose index pattern layout = some probe) (hserve : probe.serve = some decode)
    (hname : child.identity.name = probe.identity.name) :
    ∃ family, child = .copy family ∧ decode.Fits layout
      (pattern.boundRoles.filter fun term => probe.resolves.has term.role) family := by
  rw [choose.eq_def] at h
  obtain ⟨h, -⟩ := Option.filter_eq_some_iff.mp h
  cases index with
  | secondaryByCopy => exact chooseCopy_fits h hserve hname
  | secondaryByReference =>
    -- a reference probe serves nothing
    obtain ⟨s, p, o, g⟩ := pattern
    cases s with
    | some s => cases h
    | none => cases o <;> cases p <;> cases h <;> cases hserve

section Runs

variable {ox : Oxrdf} {V : Type} [LinearOrder V] [TermColumn V] [Inhabited V] {fl : FastLanes}
  {M : Type} [MaskOps M] {layout : IndexedLayout ox V} {rows : List (Row V)} {family : CopyFamily}
  {terms : List TermRef} {lazy : LazyRowIds} {plan : InMemoryServePlan V}

omit [Inhabited V] in
/-- Rows that hold a term have its value. -/
theorem roleValue_eq {row row' : Row V} {term : TermRef} (h : layout.holds row term = true)
    (h' : layout.holds row' term = true) : roleValue row term.role = roleValue row' term.role := by
  have hspelled : layout.spelling (roleValue row' term.role) = some (term.writeNt ox) := beq_iff_eq.mp h'
  exact (IndexedLayout.holds_iff hspelled row).mp h

omit [Inhabited V] in
/-- Rows in a copy's order that agree on what it sorts before the base's key are in base order. -/
theorem key_le_of_fits {order : SortOrder} (hfits : order.Fits terms family) {row row' : Row V}
    (h : terms.all (layout.holds row) = true) (h' : terms.all (layout.holds row') = true)
    (hle : family.key row ≤ family.key row') : order.key row ≤ order.key row' := by
  have hagree : ∀ term ∈ terms, roleValue row term.role = roleValue row' term.role := fun term hterm =>
    roleValue_eq (List.all_eq_true.mp h term hterm) (List.all_eq_true.mp h' term hterm)
  cases family with
  | posg =>
    cases order with
    | posg => exact hle
    | ospg => cases hfits
    | spog =>
      obtain ⟨p, o, hp, ho⟩ := hfits
      have hp : row.p = row'.p := hagree _ hp
      have ho : row.o = row'.o := hagree _ ho
      simp only [CopyFamily.key, SortOrder.key, Builds.key, Prod.Lex.toLex_le_toLex, hp, ho,
        lt_irrefl, false_or, true_and] at hle ⊢
      exact hle
  | ospg =>
    cases order with
    | posg => cases hfits
    | ospg => cases hfits
    | spog =>
      obtain ⟨o, ho⟩ := hfits
      have ho : row.o = row'.o := hagree _ ho
      simp only [CopyFamily.key, SortOrder.key, Builds.key, Prod.Lex.toLex_le_toLex, ho,
        lt_irrefl, false_or, true_and] at hle ⊢
      exact hle

/-- A fresh plan's rows come in an order that fits them. -/
theorem serves_orders (h : Serves fl M layout rows family terms lazy plan)
    (hfits : plan.decode.order.Fits terms family) :
    plan.decode.order.Orders rows (plan.run.toList.map ((IndexChild.copy family).ridAt rows)) := by
  have hentries := IndexChild.entries_ascend (.copy family) rows
    (sortBy_ascends (fun entry : Row V × RowId => family.key entry.1) rows.zipIdx)
  rw [SortOrder.Orders, List.map_map, List.pairwise_map]
  refine (RowRange.sortedLT_toList plan.run).pairwise.imp_of_mem fun {i j} hi hj hij => ?_
  obtain ⟨hilt, hiall⟩ := (h.holds_iff i).mp hi
  obtain ⟨hjlt, hjall⟩ := (h.holds_iff j).mp hj
  have hrow : ∀ {i}, i < rows.length → rows.getD ((IndexChild.copy family).ridAt rows i) default =
      (IndexChild.copy family).rowAt rows i := fun hi => by
    rw [List.getD_eq_getElem?_getD, getElem?_ridAt hi, Option.getD_some]
  rw [Function.comp_apply, Function.comp_apply, hrow hilt, hrow hjlt]
  exact key_le_of_fits hfits hiall hjall (hentries i j (Nat.zero_le i) hij.le hjlt)

end Runs

end Indexes
