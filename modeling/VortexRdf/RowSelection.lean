/-
Which base rows a view covers, as the view module computes it.

A selection is every base row, a range of them, or an ascending list of base row
ids; narrowings never re-base it.  Masks are over the whole base (tombstones) or
over a selection's own rows (a scan's result).

* `RowSelection` — the three shapes and their operations, under the source's
  names;
* `intersectSortedIds` — two ascending lists by merge, or by searching the
  longer one for each id of the shorter;
* `none` stands for a panic: a slice or an index out of its bounds, or an
  `expect` on a missing value.
-/
import VortexRdf.Masks
import VortexRdf.Buffers

namespace Store

open Masks MaskOps Buffers Ascending

/-- `usize::MAX` and `u64::MAX`, on a target with 64-bit addresses. -/
def usizeMax : ℕ := 2 ^ 64 - 1

def saturatingAdd (a b : ℕ) : ℕ := min (a + b) usizeMax

/-- `usize::try_from(x).unwrap_or(usize::MAX)`. -/
def usizeFrom (x : ℕ) : ℕ := min x usizeMax

def divCeil (a b : ℕ) : ℕ := (a + b - 1) / b

abbrev RowId := ℕ

structure RowRange where
  start : ℕ
  stop : ℕ
  deriving DecidableEq, Repr

namespace RowRange

def toList (r : RowRange) : List ℕ := List.range' r.start (r.stop - r.start)

def contains (r : RowRange) (row : ℕ) : Bool := decide (r.start ≤ row) && decide (row < r.stop)

/-- `(start..stop).step_by(step)`. -/
def stepBy (r : RowRange) (step : ℕ) : List ℕ :=
  List.range' r.start (divCeil (r.stop - r.start) step) step

end RowRange

def clamped (range : RowRange) (baseLen : ℕ) : RowRange :=
  let start := min (usizeFrom range.start) baseLen
  let stop := min (usizeFrom range.stop) baseLen
  ⟨start, max stop start⟩

inductive SelectedRows where
  | run (run : RowRange)
  | ids (ids : List RowId)

inductive RowSelection where
  | all
  | range (range : RowRange)
  | ids (ids : List RowId)
  deriving DecidableEq, Repr

def restrictIds (ids : List RowId) (range : RowRange) : Option (List RowId) :=
  let lo := partitionPoint (fun id => decide (id < range.start)) ids
  let hi := partitionPoint (fun id => decide (id < range.stop)) ids
  sliceOf ids lo hi

def GALLOP_RATIO : ℕ := 32

/-- Each id of the shorter list searched in what the last search left of the
longer one. -/
def gallopIds : List RowId → List RowId → List RowId
  | [], _ => []
  | id :: short, rest =>
    let rest := rest.drop (partitionPoint (fun other => decide (other < id)) rest)
    if rest.head? = some id then id :: gallopIds short rest else gallopIds short rest

def mergeIds : List RowId → List RowId → List RowId
  | [], _ => []
  | _ :: _, [] => []
  | a :: left, b :: right =>
    if a < b then mergeIds left (b :: right)
    else if b < a then mergeIds (a :: left) right
    else a :: mergeIds left right
  termination_by left right => left.length + right.length

def intersectSortedIds (left right : List RowId) : List RowId :=
  let (short, long) := if left.length ≤ right.length then (left, right) else (right, left)
  if short.length < long.length / GALLOP_RATIO then gallopIds short long else mergeIds left right

/-- The window of the ascending ids each run keeps, the empty ones left out. -/
def idWindows (slice : List RowId) : ℕ → List RowRange → List RowRange
  | _, [] => []
  | start, run :: runs =>
    let lo := start + partitionPoint (fun id => decide (id < run.start)) (slice.drop start)
    let hi := lo + partitionPoint (fun id => decide (id < run.stop)) (slice.drop lo)
    if lo < hi then ⟨lo, hi⟩ :: idWindows slice hi runs else idWindows slice hi runs

/-- `runs` clipped to the rows of `within`, the empty ones dropped. -/
def clip (within : RowRange) (runs : List RowRange) : List RowRange :=
  (runs.map fun run => ⟨max run.start within.start, min run.stop within.stop⟩).filter
    fun run => decide (run.start < run.stop)

namespace RowSelection

def empty : RowSelection := range ⟨0, 0⟩

def fromIds (ids : List RowId) : RowSelection := if ids = [] then empty else .ids ids

/-- `Range(range)`, or the canonical empty selection for an empty one. -/
def rangeOrEmpty (range : RowRange) : RowSelection :=
  if range.stop ≤ range.start then empty else .range range

/-- The rows of clipped runs: one run is a range, several an id list. -/
def fromClipped : List RowRange → RowSelection
  | [] => empty
  | [run] => .range run
  | runs => .ids (runs.flatMap RowRange.toList)

def len (baseLen : ℕ) : RowSelection → ℕ
  | all => baseLen
  | range r => usizeFrom (r.stop - r.start)
  | ids l => l.length

def isEmpty (s : RowSelection) (baseLen : ℕ) : Bool := s.len baseLen == 0

def asRows (s : RowSelection) (baseLen : ℕ) : SelectedRows :=
  match s with
  | all => .run ⟨0, baseLen⟩
  | range r => .run (clamped r baseLen)
  | ids l => .ids l

/-- A range cut into pieces of `len.div_ceil(n)` rows. -/
def splitRange (range : RowRange) (n : ℕ) : List RowSelection :=
  let len := range.stop - range.start
  if len = 0 then []
  else
    let per := divCeil len n
    (range.stepBy (usizeFrom per)).map fun start =>
      .range ⟨start, min (saturatingAdd start per) range.stop⟩

def splitIds (ids : List RowId) (n : ℕ) : Option (List RowSelection) :=
  let len := ids.length
  if len = 0 then some []
  else
    let per := divCeil len n
    (RowRange.stepBy ⟨0, len⟩ per).mapM fun start =>
      (sliceOf ids start (min (start + per) len)).map .ids

def split (s : RowSelection) (n baseLen : ℕ) : Option (List RowSelection) :=
  let n := max n 1
  match s.asRows baseLen with
  | .run run => some (splitRange run n)
  | .ids l => splitIds l n

def intersectRange (s : RowSelection) (r : RowRange) : Option RowSelection :=
  match s with
  | all => some (.range r)
  | range current =>
    let start := max current.start r.start
    let stop := min current.stop r.stop
    some (.range ⟨start, max stop start⟩)
  | ids l => (restrictIds l r).map .ids

/-- `binary_search` finds `row` where the ids from the first one not below it
begin with it. -/
def contains (s : RowSelection) (row : RowId) : Bool :=
  match s with
  | all => true
  | range r => r.contains row
  | ids l => (l.drop (partitionPoint (fun id => decide (id < row)) l)).head? == some row

def intersectIds (s : RowSelection) (ids : List RowId) : Option RowSelection :=
  match s with
  | all => some (.ids ids)
  | range r => (restrictIds ids r).map .ids
  | .ids current => some (.ids (intersectSortedIds current ids))

def filterRows (s : RowSelection) (baseLen : ℕ) (keep : ℕ → Bool) : List RowId :=
  match s.asRows baseLen with
  | .run run => run.toList.filter keep
  | .ids l => l.filter keep

def clipRuns (s : RowSelection) (runs : List RowRange) : Option (List RowRange) :=
  match s with
  | all => some (clip ⟨0, usizeMax⟩ runs)
  | range r => some (clip r runs)
  | ids _ => none

def intersectRuns (s : RowSelection) (runs : List RowRange) : Option RowSelection :=
  match s with
  | ids l =>
    match idWindows l 0 runs with
    | [] => some empty
    | [window] => (sliceOf l window.start window.stop).map .ids
    | windows =>
      (windows.mapM fun window => sliceOf l window.start window.stop).map fun parts =>
        .ids parts.flatten
  | selection => (selection.clipRuns runs).map fromClipped

/-- The ids that passed a test over this selection's `len` rows. -/
def narrowToIds (s : RowSelection) (ids : List RowId) (len : ℕ) : RowSelection :=
  match ids.head?, ids.getLast? with
  | some first, some last =>
    if ids.length = len then s
    else
      match s, decide (last - first + 1 = ids.length) with
      | all, true => .range ⟨first, last + 1⟩
      | range _, true => .range ⟨first, last + 1⟩
      | _, _ => .ids ids
  | _, _ => empty

section Masked

variable {M : Type*} [MaskOps M]

def window (s : RowSelection) (offset limit : ℕ) (deleted : Option M) (baseLen : ℕ) :
    Option RowSelection :=
  match deleted, s.asRows baseLen with
  | none, .run run =>
    let start := min (saturatingAdd run.start offset) run.stop
    let stop := min (saturatingAdd start limit) run.stop
    some (rangeOrEmpty ⟨start, stop⟩)
  | none, .ids l =>
    let start := min offset l.length
    let stop := min (saturatingAdd start limit) l.length
    if start = stop then some empty else (sliceOf l start stop).map .ids
  | some deleted, .run run =>
    some (fromIds (((run.toList.filter fun id => !value deleted id).drop offset).take limit))
  | some deleted, .ids l =>
    some (fromIds (((l.filter fun id => !value deleted id).drop offset).take limit))

def toMask (s : RowSelection) (baseLen : ℕ) : M :=
  match s with
  | all => newTrue baseLen
  | range r =>
    let r := clamped r baseLen
    if r.stop ≤ r.start then newFalse baseLen
    else fromSlices baseLen [(r.start, r.stop)]
  | ids l => fromIndices baseLen l

def liveMask (s : RowSelection) (deleted : M) (baseLen : ℕ) : M :=
  match s with
  | all => not deleted
  | range r =>
    let r := clamped r baseLen
    not (slice deleted r.start r.stop)
  | ids l =>
    fromIndices l.length
      ((l.zipIdx.filter fun place => !value deleted place.1).map fun place => place.2)

def liveLen (s : RowSelection) (deleted : Option M) (baseLen : ℕ) : ℕ :=
  match deleted with
  | none => s.len baseLen
  | some deleted => trueCount (s.liveMask deleted baseLen)

def refine (s : RowSelection) (keep : M) : Option RowSelection :=
  match indices keep with
  | .all => some s
  | .none => some empty
  | .some places =>
    match s with
    | all => some (.ids places)
    | range r => some (.ids (places.map fun place => r.start + place))
    | ids l => (places.mapM fun place => l[place]?).map .ids

end Masked

end RowSelection

end Store
