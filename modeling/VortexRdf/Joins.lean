/-
The equi-join of two code columns.

Two ascending columns take one merge over their runs of equal codes; otherwise the
right column is grouped by code, under a table over its span or a map of its codes, and
the left one probes it in order.  Every path counts its pairs before it writes them.

* `forEachRunPair`, `mergeJoinLen`, `mergeJoin` — the merge;
* `Slots`, `Groups`, `RightIndex` — how a code finds its group, the groups, and both
  together;
* `CodeGroups` — the build side, of the kind its span asks for;
* `equiJoinIndices`, `joinCount` — the join and its count.
-/
import VortexRdf.EquiJoins
import VortexRdf.RowSelection

namespace Columns

open Store

abbrev TermCode : Type := UInt64

def saturatingMul (a b : ℕ) : ℕ := min (a * b) usizeMax

/-- A direct-mapped table over a span of codes is used for a column of `len` values. -/
def denseTableFits (span : TermCode) (len : ℕ) : Bool :=
  span.toNat < max (saturatingMul len 4) (1 <<< 16)

/-- The least and the largest code of a column. -/
def codeRange : List TermCode → Option (TermCode × TermCode)
  | [] => none
  | first :: rest => some (rest.foldl (fun (lo, hi) c => (min lo c, max hi c)) (first, first))

def isSorted : List TermCode → Bool
  | a :: b :: rest => decide (a ≤ b) && isSorted (b :: rest)
  | _ => true

/-- `Err(pairs)` when the pairs exceed the cap. -/
def withinCap (pairs : ℕ) (maxPairs : Option ℕ) : Except ℕ Unit :=
  match maxPairs with
  | some max => if max < pairs then .error pairs else .ok ()
  | none => .ok ()

/-! ### Two ascending columns -/

/-- Where the run of a code that starts at `i` ends. -/
def runEnd (codes : List TermCode) (i : ℕ) (code : TermCode) : ℕ :=
  i + ((codes.drop i).takeWhile (· == code)).length

/-- The pairs of equal-code runs, each run from its start to its end; a turn moves past
a row at least. -/
def runPairsLoop (left right : List TermCode) : ℕ → ℕ → ℕ → List ((ℕ × ℕ) × (ℕ × ℕ))
  | 0, _, _ => []
  | fuel + 1, i, j =>
    match left[i]?, right[j]? with
    | some a, some b =>
      if a < b then runPairsLoop left right fuel (i + 1) j
      else if b < a then runPairsLoop left right fuel i (j + 1)
      else
        let runL := runEnd left i a
        let runR := runEnd right j a
        ((i, runL), (j, runR)) :: runPairsLoop left right fuel runL runR
    | _, _ => []

def forEachRunPair (left right : List TermCode) : List ((ℕ × ℕ) × (ℕ × ℕ)) :=
  runPairsLoop left right (left.length + right.length) 0 0

def mergeJoinLen (left right : List TermCode) : ℕ :=
  (forEachRunPair left right).foldl
    (fun total (runL, runR) => saturatingAdd total (saturatingMul (runL.2 - runL.1) (runR.2 - runR.1)))
    0

def mergeJoin (left right : List TermCode) (maxPairs : Option ℕ) : Except ℕ (List ℕ × List ℕ) := do
  withinCap (mergeJoinLen left right) maxPairs
  return (forEachRunPair left right).foldl
    (fun (outL, outR) (runL, runR) =>
      (List.range' runL.1 (runL.2 - runL.1)).foldl
        (fun (outL, outR) li => (outL ++ List.replicate (runR.2 - runR.1) li,
          outR ++ List.range' runR.1 (runR.2 - runR.1)))
        (outL, outR))
    ([], [])

/-! ### The right column grouped -/

/-- How a code finds the slot of its group. -/
inductive Slots where
  | span (least : TermCode) (width : ℕ)
  | hashed (map : List (TermCode × ℕ))

/-- The slot of a code; one past the others for a code the right column lacks. -/
def Slots.slot : Slots → TermCode → ℕ
  | span least width, code => min (code - least).toNat width
  | hashed map, code => (map.lookup code).getD map.length

/-- The span of the codes, when a table over it fits. -/
def Slots.ofSpan (codes : List TermCode) : Option (TermCode × ℕ) :=
  match codeRange codes with
  | none => none
  | some (least, most) =>
    if denseTableFits (most - least) codes.length then some (least, (most - least).toNat + 1)
    else none

/-- Rows grouped by slot: those of slot `k` from `starts[k]` to `starts[k + 1]`. -/
structure Groups where
  starts : List ℕ
  rows : List ℕ

namespace Groups

/-- How many rows each slot has, counted one place on. -/
def countPass (slots : ℕ) (rowSlots : List ℕ) : List ℕ :=
  rowSlots.foldl (fun starts k => starts.set (k + 1) (starts.getD (k + 1) 0 + 1))
    (List.replicate (slots + 2) 0)

/-- The counts summed to where each slot starts. -/
def sumPass (slots : ℕ) (starts : List ℕ) : List ℕ :=
  (List.range slots).foldl
    (fun starts k => starts.set (k + 1) (starts.getD (k + 1) 0 + starts.getD k 0)) starts

/-- Each row written where the next one of its slot goes. -/
def fillPass (rowSlots : List ℕ) (fill rows : List ℕ) : List ℕ × List ℕ :=
  rowSlots.zipIdx.foldl
    (fun (fill, rows) (k, r) => (fill.set k (fill.getD k 0 + 1), rows.set (fill.getD k 0) r))
    (fill, rows)

def build (slots : ℕ) (rowSlots : List ℕ) : Groups :=
  let summed := sumPass slots (countPass slots rowSlots)
  let starts := summed.set (slots + 1) (summed.getD slots 0)
  ⟨starts, (fillPass rowSlots (starts.take slots) (List.replicate (starts.getD slots 0) 0)).2⟩

def count (groups : Groups) (k : ℕ) : ℕ := groups.starts.getD (k + 1) 0 - groups.starts.getD k 0

def rowsOf (groups : Groups) (k : ℕ) : List ℕ :=
  (groups.rows.take (groups.starts.getD (k + 1) 0)).drop (groups.starts.getD k 0)

end Groups

structure RightIndex where
  slots : Slots
  groups : Groups

namespace RightIndex

def dense (right : List TermCode) (least : TermCode) (width : ℕ) : RightIndex :=
  ⟨.span least width, .build width (right.map fun c => (c - least).toNat)⟩

/-- The map of the codes seen and the slots of the rows, a new code in the next slot. -/
def hashPass (right : List TermCode) : List (TermCode × ℕ) × List ℕ :=
  right.foldl
    (fun (map, rowSlots) code =>
      match map.lookup code with
      | some k => (map, rowSlots ++ [k])
      | none => (map ++ [(code, map.length)], rowSlots ++ [map.length]))
    ([], [])

def hashed (right : List TermCode) : RightIndex :=
  let (map, rowSlots) := hashPass right
  ⟨.hashed map, .build map.length rowSlots⟩

variable (index : RightIndex)

/-- The pairs a left column forms; the sum wraps unless it may not, and then
saturates. -/
def matchCount (left : List TermCode) : ℕ :=
  let counts := left.map fun code => index.groups.count (index.slots.slot code)
  if left.length * index.groups.rows.length ≤ usizeMax then counts.sum % (usizeMax + 1)
  else counts.foldl saturatingAdd 0

def rowsFor (code : TermCode) : List ℕ := index.groups.rowsOf (index.slots.slot code)

def join (left : List TermCode) (maxPairs : Option ℕ) : Except ℕ (List ℕ × List ℕ) := do
  withinCap (index.matchCount left) maxPairs
  return left.zipIdx.foldl
    (fun (outL, outR) (code, i) =>
      let rows := index.rowsFor code
      if rows.isEmpty then (outL, outR)
      else (outL ++ List.replicate rows.length i, outR ++ rows))
    ([], [])

/-- The values a left column takes at the pairs. -/
def gatherLeft (left column : List TermCode) : List TermCode :=
  (left.zip column).foldl
    (fun out (code, value) =>
      out ++ List.replicate (index.groups.count (index.slots.slot code)) value)
    []

/-- The values a right column takes at the pairs. -/
def gatherRight (left column : List TermCode) : List TermCode :=
  left.foldl (fun out code => out ++ (index.rowsFor code).map fun r => column.getD r 0) []

def gather (left : List TermCode) (leftColumns rightColumns : List (List TermCode))
    (maxPairs : Option ℕ) : Except ℕ (List (List TermCode)) := do
  withinCap (index.matchCount left) maxPairs
  return leftColumns.map (index.gatherLeft left) ++ rightColumns.map (index.gatherRight left)

end RightIndex

/-- The build side of a join. -/
structure CodeGroups where
  index : RightIndex

namespace CodeGroups

def build (right : List TermCode) : CodeGroups :=
  match Slots.ofSpan right with
  | some (least, width) => ⟨.dense right least width⟩
  | none => ⟨.hashed right⟩

variable (groups : CodeGroups)

def len : ℕ := groups.index.groups.rows.length

def count (left : List TermCode) : ℕ := groups.index.matchCount left

def join (left : List TermCode) (maxPairs : Option ℕ) : Except ℕ (List ℕ × List ℕ) :=
  groups.index.join left maxPairs

/-- The columns at the pairs; nothing when a column is not as long as its keys, where
the code panics. -/
def gather (left : List TermCode) (leftColumns rightColumns : List (List TermCode))
    (maxPairs : Option ℕ) : Option (Except ℕ (List (List TermCode))) :=
  if leftColumns.all (fun column => column.length == left.length) &&
      rightColumns.all (fun column => column.length == groups.len) then
    some (groups.index.gather left leftColumns rightColumns maxPairs)
  else none

end CodeGroups

/-! ### The join -/

def equiJoinIndices (left right : List TermCode) (maxPairs : Option ℕ) :
    Except ℕ (List ℕ × List ℕ) :=
  if left.isEmpty || right.isEmpty then .ok ([], [])
  else if isSorted left && isSorted right then mergeJoin left right maxPairs
  else (CodeGroups.build right).join left maxPairs

def joinCount (left right : List TermCode) : ℕ :=
  if left.isEmpty || right.isEmpty then 0
  else if isSorted left && isSorted right then mergeJoinLen left right
  else (CodeGroups.build right).count left

/-- The codes at the indices; the place of the first one past the column fails. -/
def take (codes : List TermCode) (indices : List ℕ) : Except ℕ (List TermCode) :=
  match indices.findIdx? fun i => decide (codes.length ≤ i) with
  | some bad => .error bad
  | none => .ok (indices.map fun i => codes.getD i 0)

end Columns
