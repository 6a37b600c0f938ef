/-
A pattern resolved through an index: the probe an index runs, and its run in memory.

An index searches one of its children for the terms a pattern binds; the run it finds
names the base rows, a bound graph checked inside it where the child keeps its graph
column's zone map.  What the index resolved is cleared from the pattern, and the rest is
left to the rows.

* `PatternCodes.probeScalar` — the value a term column is probed with;
* `ResolvedRoles`, `IndexProbe` — what a lookup resolves, and the probe of a pattern;
* `chooseCopy`, `chooseReference` — the probe an index chooses;
* `resolveInMemory`, `resolveIndexesInMemory` — a probe's run, and the first index that
  answers.

`none` stands for a panic or an error of the array library.
-/
import VortexRdf.ServePlans

namespace Store

open Terms

variable (ox : Oxrdf)

/-- The value a term column is probed with, none for a term the dictionary lacks. -/
def PatternCodes.probeScalar (codes : PatternCodes) (term : TermRef) :
    Except VortexRdfError (Option Scalar) :=
  if codes.probesByString then .ok (some (.str (term.writeNt ox)))
  else (codes.code ox term).map fun code => code.map Scalar.num

end Store

namespace Indexes

open Ascending Buffers Builds Masks MaskOps Terms
open EncodedSearch (FastLanes)
open Store hiding Row

/-! ### Probes -/

/-- Which roles of a pattern a lookup resolved. -/
structure ResolvedRoles where
  predicate : Bool
  object : Bool
  graph : Bool
deriving DecidableEq

namespace ResolvedRoles

def PREDICATE : ResolvedRoles := ⟨true, false, false⟩

def OBJECT : ResolvedRoles := ⟨false, true, false⟩

def PREDICATE_OBJECT : ResolvedRoles := ⟨true, true, false⟩

def withGraph (roles : ResolvedRoles) : ResolvedRoles := { roles with graph := true }

/-- The pattern with the resolved roles cleared. -/
def clear (roles : ResolvedRoles) (pattern : QuadPattern) : QuadPattern :=
  { pattern with
    predicate := pattern.predicate.filter fun _ => !roles.predicate
    object := pattern.object.filter fun _ => !roles.object
    graph := pattern.graph.filter fun _ => !roles.graph }

end ResolvedRoles

/-- What an index probes for a pattern: a child, the terms to search its leading columns
for, and what a hit resolves. -/
structure IndexProbe where
  identity : ComponentIdentity
  keys : List (String × TermRef)
  /-- What a plan on file filters on beyond the keys. -/
  residual : List (String × TermRef)
  graph : Option TermRef
  resolves : ResolvedRoles
  serve : Option ServeDecode
  ridsAscend : Bool
deriving DecidableEq

/-- The copies of a typed layout hold whole terms. -/
def copyDecodeLayout : LayoutStrategy → LayoutStrategy
  | .dictionary => .dictionary
  | _ => .default

/-- The probe of a copy: its leading terms, each the next sort key. -/
def copyProbe (pattern : QuadPattern) (layout : LayoutStrategy) (family : CopyFamily)
    (lead : TermRef) (second : Option TermRef) (resolves : ResolvedRoles) (order : SortOrder) :
    IndexProbe where
  identity := family.identity
  keys := (keyColumn family 0, lead) :: (second.map fun term => (keyColumn family 1, term)).toList
  residual := (pattern.graph.map fun graph => (COL_G, TermRef.graph graph)).toList
  graph := pattern.graph.map TermRef.graph
  resolves := resolves
  serve := some ⟨copyDecodeLayout layout, order⟩
  ridsAscend := false

/-- The probe of the copy index: a bound subject declines it. -/
def chooseCopy (pattern : QuadPattern) (layout : LayoutStrategy) : Option IndexProbe :=
  if pattern.subject.isSome then none
  else
    match pattern.predicate, pattern.object with
    | some predicate, some object =>
      some (copyProbe pattern layout .posg (.predicate predicate) (some (.object object))
        ResolvedRoles.PREDICATE_OBJECT .spog)
    | some predicate, none =>
      some (copyProbe pattern layout .posg (.predicate predicate) none ResolvedRoles.PREDICATE .posg)
    | none, some object =>
      some (copyProbe pattern layout .ospg (.object object) none ResolvedRoles.OBJECT .spog)
    | none, none => none

def referenceProbe (pattern : QuadPattern) (family : RefFamily) (term : TermRef)
    (resolves : ResolvedRoles) : IndexProbe where
  identity := family.identity
  keys := [(COL_VAL, term)]
  residual := []
  graph := pattern.graph.map TermRef.graph
  resolves := resolves
  serve := none
  ridsAscend := true

/-- The probe of the reference index: the object before the predicate. -/
def chooseReference (pattern : QuadPattern) : Option IndexProbe :=
  if pattern.subject.isSome then none
  else
    match pattern.object, pattern.predicate with
    | some object, _ => some (referenceProbe pattern .object (.object object) ResolvedRoles.OBJECT)
    | none, some predicate =>
      some (referenceProbe pattern .predicate (.predicate predicate) ResolvedRoles.PREDICATE)
    | none, none => none

/-- The probe an index runs for a pattern; a probe without keys is declined. -/
def choose (index : IndexType) (pattern : QuadPattern) (layout : LayoutStrategy) :
    Option IndexProbe :=
  (match index with
    | .secondaryByCopy => chooseCopy pattern layout
    | .secondaryByReference => chooseReference pattern).filter fun probe => !probe.keys.isEmpty

/-! ### Resolutions -/

/-- The outcome of asking an index to resolve a pattern. -/
inductive IndexResolution (V : Type) where
  /-- The index does not cover the pattern, or its child is not there. -/
  | declined
  /-- No row matches the pattern. -/
  | empty
  /-- The ids of the rows matching the resolved roles, and the plan that serves them. -/
  | resolved (rowIds : LazyRowIds) (resolves : ResolvedRoles) (serve : Option (InMemoryServePlan V))

/-- What the searches of a probe's keys found. -/
inductive Searched where
  | declined
  | empty
  | run (run : Option RowRange)

/-- What a run's bound graph came to. -/
inductive RunCheck where
  | empty
  | unchecked
  | checked (check : GraphCheck)

/-- A step of the resolver, which may panic or fail. -/
abbrev Attempt (α : Type) : Type := Option (Except VortexRdfError α)

def Attempt.andThen {α β : Type} (a : Attempt α) (f : α → Attempt β) : Attempt β :=
  a.bind fun step =>
    match step with
    | .ok value => f value
    | .error e => some (.error e)

@[simp] theorem Attempt.andThen_ok {α β : Type} (value : α) (f : α → Attempt β) :
    Attempt.andThen (some (.ok value)) f = f value := rfl

section Resolvers

variable {V : Type} [LinearOrder V] [TermColumn V] (fl : FastLanes) (ox : Oxrdf)

/-- The searches of a probe's keys, each within the run of the keys before it. -/
def searchKeys (c : IndexComponent V) (codes : PatternCodes) :
    List (String × TermRef) → Option RowRange → Attempt Searched
  | [], run => some (.ok (.run run))
  | (column, term) :: keys, run =>
    Attempt.andThen (some (codes.probeScalar ox term)) fun native =>
      match native with
      | none => some (.ok .empty)
      | some native =>
        (c.probeRun fl column native run).bind fun narrowed =>
          match narrowed with
          | none => some (.ok .declined)
          | some range =>
            if range.stop ≤ range.start then some (.ok .empty)
            else searchKeys c codes keys (some range)

/-- The graph of a probe, checked inside its run where the component keeps the graph
column's zone map, but for a window of ids that do not ascend. -/
def checkGraph (probe : IndexProbe) (c : IndexComponent V) (codes : PatternCodes) (run : RowRange)
    (windowed zonesEnabled : Bool) : Attempt RunCheck :=
  match probe.graph, c.graphZones with
  | some graph, some zones =>
    if zonesEnabled && (probe.ridsAscend || !windowed) then
      Attempt.andThen (some (codes.probeScalar ox graph)) fun native =>
        match native with
        | none => some (.ok .empty)
        | some native =>
          match unsignedValue native with
          | some code => (GraphCheck.new c run code zones).map fun check => .ok (.checked check)
          | none => some (.ok .unchecked)
    else some (.ok .unchecked)
  | _, _ => some (.ok .unchecked)

/-- What a run resolves: its ids, with the plan over it or with its graph checked. -/
def resolveRun (probe : IndexProbe) (c : IndexComponent V) (run : RowRange) (rids : List RowId) :
    RunCheck → IndexResolution V
  | .empty => .empty
  | .unchecked =>
    let ids := ComponentRun.new rids probe.ridsAscend
    .resolved (.component ids) probe.resolves
      (probe.serve.map fun decode => InMemoryServePlan.new decode c run ids)
  | .checked check =>
    .resolved (.checked (CheckedRun.new rids probe.ridsAscend check)) probe.resolves.withGraph none

/-- A probe resolved against the components of an in-memory base. -/
def resolveInMemory (probe : IndexProbe) (components : List (IndexComponent V))
    (codes : PatternCodes) (windowed zonesEnabled : Bool) : Attempt (IndexResolution V) :=
  match IndexComponent.find components probe.identity.name with
  | none => some (.ok .declined)
  | some c =>
    Attempt.andThen (searchKeys fl ox c codes probe.keys none) fun searched =>
      match searched with
      | .declined => some (.ok .declined)
      | .empty => some (.ok .empty)
      | .run none => none
      | .run (some run) =>
        (sliceOf c.rids run.start run.stop).bind fun rids =>
          Attempt.andThen (checkGraph ox probe c codes run windowed zonesEnabled) fun check =>
            some (.ok (resolveRun probe c run rids check))

/-- The first resolution of the indexes that is not declined. -/
def resolveIndexesInMemory (components : List (IndexComponent V)) (layout : LayoutStrategy)
    (pattern : QuadPattern) (codes : PatternCodes) (windowed zonesEnabled : Bool) :
    List IndexType → Attempt (IndexResolution V)
  | [] => some (.ok .declined)
  | index :: indexes =>
    match choose index pattern layout with
    | none => resolveIndexesInMemory components layout pattern codes windowed zonesEnabled indexes
    | some probe =>
      Attempt.andThen (resolveInMemory fl ox probe components codes windowed zonesEnabled)
        fun resolution =>
          match resolution with
          | .declined =>
            resolveIndexesInMemory components layout pattern codes windowed zonesEnabled indexes
          | resolved => some (.ok resolved)

end Resolvers

end Indexes
