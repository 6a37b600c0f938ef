/-
The file-backed dictionary's lookups.

A lookup finds the one window its spelling falls in by the windows' bounds and reads it
through the cache only when the spelling lies strictly between them.

* `Window`, `bounds`, `locate` — the windows with their first and last terms, and the
  one a spelling falls in;
* `ReadState`, `readChunk` — the cache and the kind ranges found so far, and a
  window's read;
* `encodeExact`, `lowerBound`, `encode`, `encodeMany`, `prefixRange`, `kindRanges` — the
  lookups;
* `visitTermsCached`, `decodeManyCached`, `decodeManyWith`, `filterCodes` — the reads of codes.
-/
import VortexRdf.CodeFilters
import VortexRdf.CountingSort
import VortexRdf.Programs
import VortexRdf.WindowCache

namespace Dictionary

open Ascending Programs Store Terms
open scoped Lexicographic

/-! ### Windows -/

structure Window where
  start : ℕ
  rows : ℕ
  first : Str
  last : Str

/-- What the lookups of a file keep between them. -/
structure ReadState where
  cache : WindowCache
  /-- The kind ranges, once they are found. -/
  kinds : Option KindRanges

abbrev Reads (α : Type) : Type := Prog VortexRdfError ReadState α

def ReadState.kindsFound : Reads (Option KindRanges) := fun s => (.ok s.kinds, s)

/-- The kind ranges found before, else these, which are kept. -/
def ReadState.keepKinds (kinds : KindRanges) : Reads KindRanges := fun s =>
  (.ok (s.kinds.getD kinds), { s with kinds := some (s.kinds.getD kinds) })

namespace FileBackedDict

variable (fb : FileBackedDict)

def len : ℕ := fb.terms.length

/-- The bounds of a window that starts at `start`. -/
def boundsOf (start : ℕ) (chunk : TermChunk) : Window :=
  ⟨start, chunk.length, chunk.headD [], chunk.getLastD []⟩

def bounds : List Window := List.zipWith boundsOf fb.starts fb.windows

/-- The window holding a spelling's lower bound: the first whose last term is not below
it. -/
def locate (needle : Str) : Option (ℕ × Window) :=
  let w := partitionPoint (fun window : Window => window.last < needle) fb.bounds
  (fb.bounds[w]?).map fun window => (w, window)

/-- A window's chunk: the cached one, else the file's, which is then cached. -/
def readChunk (w : ℕ) : Reads TermChunk := fun s =>
  match s.cache.get w with
  | (some chunk, cache) => (.ok chunk, { s with cache := cache })
  | (none, cache) =>
    let (chunk, cache) := cache.insert w (fb.windowChunk w) (fb.charge w)
    (.ok chunk, { s with cache := cache })

/-! ### Spellings -/

def encodeExact (t : Str) : Reads (Option TermCode) :=
  match fb.locate t with
  | none => pure none
  | some (w, window) =>
    match compareBytes t window.first with
    | .lt => pure none
    | .eq => pure (some window.start)
    | .gt =>
      if t = window.last then pure (some (window.start + (window.rows - 1)))
      else do
        -- a hit lies strictly between the bounds
        let chunk ← fb.readChunk w
        return (findBy 1 (window.rows - 1) fun i => compareBytes (chunk.strAt i) t).map
          (window.start + ·)

def lowerBound (needle : Str) : Reads TermCode :=
  match fb.locate needle with
  | none => pure fb.len
  | some (w, window) =>
    if needle ≤ window.first then pure window.start
    else do
      let chunk ← fb.readChunk w
      return window.start + lowerBoundBy 1 (window.rows - 1) fun i => chunk.strAt i < needle

variable (ox : Oxrdf)

def encodeCanonical (t : Str) : Reads (Option TermCode) := do
  match ← Prog.lift (tolerantFallback ox t) with
  | some canonical => fb.encodeExact canonical
  | none => pure none

def encode (t : Str) : Reads (Option TermCode) := do
  match ← fb.encodeExact t with
  | some code => pure (some code)
  | none => fb.encodeCanonical ox t

def prefixRange (pre : Str) : Reads CodeRange := do
  let lo ← fb.lowerBound pre
  match prefixSuccessor pre with
  | some successor => return prefixRangeFrom lo (some (← fb.lowerBound successor)) fb.len
  | none => return prefixRangeFrom lo none fb.len

def kindRanges : Reads KindRanges := do
  match ← ReadState.kindsFound with
  | some kinds => pure kinds
  | none =>
    let literals ← fb.prefixRange [QUOTE]
    let iris ← fb.prefixRange [0x3c]
    let blanks ← fb.prefixRange BLANK_PREFIX
    ReadState.keepKinds (KindRanges.new 0 (fb.bounds.head?.any fun window => window.first.isEmpty)
      literals iris blanks fb.len)

/-! ### A batch of spellings -/

/-- The reads with a position added to the last one, when it is of the same window. -/
def pushRead (w place : ℕ) : List (ℕ × List ℕ) → List (ℕ × List ℕ)
  | [] => [(w, [place])]
  | [(last, places)] =>
    if last = w then [(last, places ++ [place])] else [(last, places), (w, [place])]
  | read :: reads => read :: pushRead w place reads

/-- A position answered from the bounds, or left to its window's read. -/
def routeTerm (ts : List Str) (state : List (Option TermCode) × List (ℕ × List ℕ)) (place : ℕ) :
    List (Option TermCode) × List (ℕ × List ℕ) :=
  let needle := ts.getD place []
  match fb.locate needle with
  | none => state
  | some (w, window) =>
    match compareBytes needle window.first with
    | .lt => state
    | .eq => (state.1.set place (some window.start), state.2)
    | .gt =>
      if needle = window.last then
        (state.1.set place (some (window.start + window.rows - 1)), state.2)
      else (state.1, pushRead w place state.2)

/-- The hits of a window's positions, each searched from where the one before landed. -/
def windowHits (ts : List Str) (chunk : TermChunk) (window : Window) :
    List ℕ → ℕ → List (ℕ × TermCode)
  | [], _ => []
  | place :: places, start =>
    let needle := ts.getD place []
    let inside := window.rows - 1
    let i := nextLowerBoundBy start inside (places.length + 1) fun i => chunk.strAt i < needle
    (if i < inside ∧ chunk.strAt i = needle then [(place, window.start + i)] else []) ++
      windowHits ts chunk window places i

def encodeMany (ts : List Str) : Reads (List (Option TermCode)) := do
  let (codes, reads) := (byteOrder ts).foldl (fb.routeTerm ts) (List.replicate ts.length none, [])
  let hits ← reads.mapM fun read => do
    let chunk ← fb.readChunk read.1
    return windowHits ts chunk (fb.bounds.getD read.1 ⟨0, 0, [], []⟩) read.2 1
  let codes := hits.flatten.foldl (fun codes hit => codes.set hit.1 (some hit.2)) codes
  (codes.zip ts).mapM fun p =>
    match p.1 with
    | some code => pure (some code)
    | none => fb.encodeCanonical ox p.2

/-! ### Codes -/

/-- The visits of the codes from one window to the next, at most one window a code. -/
def visitLoopCached : ℕ → List TermCode → Reads (List Str)
  | _, [] => pure []
  | 0, _ :: _ => pure []  -- not reached: the number of codes bounds the turns
  | fuel + 1, code :: codes =>
    let w := (chunkOf fb.starts code).1
    let start := fb.starts.getD w 0
    let stop := start + (fb.windowChunk w).length
    let run := partitionPoint (· < stop) (code :: codes)
    if run = 0 then
      Prog.lift (.error (.invalidOperation [.text ("code " ++ toString code ++
        " lies outside window " ++ toString w)]))
    else do
      let chunk ← fb.readChunk w
      let rest ← visitLoopCached fuel ((code :: codes).drop run)
      return ((code :: codes).take run).map (fun code => chunk.strAt (code - start)) ++ rest

/-- The terms of candidates in order. -/
def visitTermsCached (codes : List TermCode) : Reads (List Str) := do
  Prog.lift (checkCandidates codes fb.len)
  fb.visitLoopCached codes.length codes

def decodeManyCached (codes : List TermCode) : Reads (List Str) :=
  match codes.getLast? with
  | none => pure []
  | some max => do
    let _ ← Prog.lift (checkCode max fb.len)
    fb.visitTermsCached codes

/-- The in-range positions, each with its window. -/
def located (codes : List TermCode) : List (ℕ × ℕ) :=
  codes.zipIdx.filterMap fun p =>
    (codeRank p.1 fb.len).map fun rank => ((chunkOf fb.starts rank).1, p.2)

/-- The visits of the positions of one window. -/
def visitPositions (codes : List TermCode) (w : ℕ) (places : List ℕ) :
    Reads (List (ℕ × Option Str)) := do
  let chunk ← fb.readChunk w
  return places.map fun place =>
    (place, some (chunk.strAt (codes.getD place 0 - fb.starts.getD w 0)))

/-- The visits of codes in any order: out-of-range positions first, the others window by
window. -/
def decodeManyWith (codes : List TermCode) : Reads (List (ℕ × Option Str)) :=
  let outside : List (ℕ × Option Str) := (codes.zipIdx.filter fun p =>
    (codeRank p.1 fb.len).isNone).map fun p => (p.2, none)
  let located := fb.located codes
  match located.map (·.1) with
  | [] => pure outside
  | w :: ws =>
    let lo := (w :: ws).foldl min w
    let hi := (w :: ws).foldl (fun hi w => max hi (w + 1)) 0
    if hi - lo = 1 then do
      return outside ++ (← fb.visitPositions codes lo (located.map (·.2)))
    else do
      let (bounds, order) := CountingSort.sort (hi - lo) (located.map fun p => (p.1 - lo, p.2))
      let touched := (List.range (hi - lo)).filter fun k => bounds.getD k 0 < bounds.getD (k + 1) 0
      let visits ← touched.mapM fun k => fb.visitPositions codes (lo + k)
        ((order.take (bounds.getD (k + 1) 0)).drop (bounds.getD k 0))
      return outside ++ visits.flatten

/-- The candidates taken out by a prefix's range, where one decides them. -/
def decideRead {fl : Floats} (bracketedIris : Bool) (predicate : TermPredicate fl)
    (kinds : KindRanges) (codes : List TermCode) (decided : List Verdict × List ℕ) :
    Reads (List Verdict × List ℕ) :=
  match iriPrefixToDecide predicate bracketedIris kinds codes decided.2 with
  | some pre => do
    return decideIris decided.1 decided.2 codes kinds.iris (← fb.prefixRange (0x3c :: pre))
  | none => pure decided

def filterCodes {fl : Floats} (bracketedIris : Bool) (predicate : TermPredicate fl)
    (codes : List TermCode) : Reads (List TermCode × List TermCode) := do
  Prog.lift (checkCandidates codes fb.len)
  let kinds ← fb.kindRanges
  let decided ← fb.decideRead bracketedIris predicate kinds codes (kindVerdicts predicate kinds codes)
  let spellings ← fb.visitTermsCached (decided.2.map fun place => codes.getD place 0)
  return splitVerdicts codes ((decided.2.zip spellings).foldl
    (fun verdicts read => verdicts.set read.1 (predicate.eval read.2)) decided.1)

end FileBackedDict

end Dictionary
