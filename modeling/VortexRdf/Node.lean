/-
The resolved probe tree (`encoded-search/src/node.rs`, `delta.rs`).

A `Node` mirrors one encoded array, a constructor per supported encoding.  This
file holds the operations as the source computes them: a point read, a bulk
read into a buffer, an equality search into a sink, and the bound searches.
What they compute is proved in the modules that follow.

A chunked node's `Vec` of chunks is a family over `Fin count`, so that the tree
is a plain inductive type and every operation recurses on its children.  A
bit-packed node with exception values is a constructor of its own.  The cells
the source fills on first touch (a chunk's last value, a delta node's decoded
blocks) hold what their initializers compute, and are that value here.
-/
import VortexRdf.Packed

open Bisect Buffers

namespace EncodedSearch

/-- `a.saturating_add(b)`. -/
def saturatingAdd (a b : ℕ) : ℕ := min (a + b) u64Max

/-- `a.wrapping_add(b)`. -/
def wrappingAdd (a b : ℕ) : ℕ := (a + b) % 2 ^ 64

/-- The probe-node shapes. -/
inductive Node where
  | primitive (words : Words)
  | constant (value len : ℕ)
  | sequence (base multiplier len : ℕ)
  | runEnd (ends values : Node) (offset len : ℕ)
  | foR (reference : ℕ) (child : Node)
  | chunkedFoR (references : Node) (offset : ℕ) (child : Node)
  | bitPacked (packed : PackedNode)
  | patched (packed : PackedNode) (indices values : Node) (patchOffset : ℕ)
  | slice (child : Node) (start len : ℕ)
  | chunked (count : ℕ) (start : Fin count → ℕ) (node : Fin count → Node) (len : ℕ)
  | dict (codes values : Node)
  | delta (bases deltas : Node) (width : WordWidth) (offset len : ℕ)
  | sparse (fill : ℕ) (indices values : Node) (patchOffset len : ℕ)
  | rle (values indices valueOffsets : Node) (base offset len : ℕ)

def Node.len : Node → ℕ
  | .primitive w => w.len
  | .constant _ len => len
  | .sequence _ _ len => len
  | .runEnd _ _ _ len => len
  | .foR _ child => child.len
  | .chunkedFoR _ _ child => child.len
  | .bitPacked p => p.len
  | .patched p _ _ _ => p.len
  | .slice _ _ len => len
  | .chunked _ _ _ len => len
  | .dict codes _ => codes.len
  | .delta _ _ _ _ len => len
  | .sparse _ _ _ _ len => len
  | .rle _ _ _ _ _ len => len

/-! ### Point reads, over the children's reads -/

/-- The replacement value of logical index `i`, if that position is patched. -/
def patchLookup (indices : ℕ) (lowerBound indexAt valueAt : ℕ → Option ℕ) (offset i : ℕ) :
    Option (Option ℕ) := do
  let key := i + offset
  let place ← lowerBound key
  if place < indices then
    let found ← indexAt place
    if found = key then
      let v ← valueAt place
      some (some v)
    else some none
  else some none

/-- A patched position's replacement, any other's packed value. -/
def patchedValueAt (lookup : ℕ → Option (Option ℕ)) (packed : ℕ → Option ℕ) (i : ℕ) :
    Option ℕ := do
  match ← lookup i with
  | some v => some v
  | none => packed i

/-- A patched position's replacement, any other's fill value. -/
def sparseValueAt (lookup : ℕ → Option (Option ℕ)) (fill i : ℕ) : Option ℕ := do
  let patch ← lookup i
  some (patch.getD fill)

/-- The child's value plus the reference of its FastLanes chunk. -/
def chunkedForValueAt (referenceAt childAt : ℕ → Option ℕ) (offset i : ℕ) : Option ℕ := do
  let v ← childAt i
  let r ← referenceAt ((offset + i) / FL_CHUNK)
  some (wrappingAdd v r)

def dictValueAt (codeAt valueAt : ℕ → Option ℕ) (i : ℕ) : Option ℕ := do
  let code ← codeAt i
  valueAt code

def rleValueAt (valueAt indexAt offsetAt : ℕ → Option ℕ) (base offset i : ℕ) : Option ℕ := do
  let pos := offset + i
  let start ← offsetAt (pos / FL_CHUNK)
  let first ← checkedSub start base
  let index ← indexAt pos
  valueAt (first + index)

/-- Lanes per 1024-value block: how many bases a block carries. -/
def WordWidth.lanes (w : WordWidth) : ℕ := FL_CHUNK / w.bits

/-- `T::try_from(v).unwrap_or_default()`. -/
def WordWidth.narrow (w : WordWidth) (v : ℕ) : ℕ := if v < 2 ^ w.bits then v else 0

/-- `chunks[c].start <= i`. -/
def startsBy {count : ℕ} (start : Fin count → ℕ) (i c : ℕ) : Option Bool :=
  if h : c < count then some (decide (start ⟨c, h⟩ ≤ i)) else none

/-- The last value of chunk `c`. -/
def chunkLast {count : ℕ} (size : Fin count → ℕ) (valueAt : Fin count → ℕ → Option ℕ) (c : ℕ) :
    Option ℕ :=
  if h : c < count then do
    let last ← checkedSub (size ⟨c, h⟩) 1
    valueAt ⟨c, h⟩ last
  else none

variable (fl : FastLanes)

/-- Delta block `b`: its transposed deltas and lane bases gathered through the
children's point reads, undone by the FastLanes kernels. -/
def decodeBlock (baseAt deltaAt : ℕ → Option ℕ) (width : WordWidth) (b : ℕ) :
    Option (List ℕ) := do
  let chunk ← (List.range FL_CHUNK).mapM fun j => (deltaAt (b * FL_CHUNK + j)).map width.narrow
  let laneBases ← (List.range width.lanes).mapM fun l =>
    (baseAt (b * width.lanes + l)).map width.narrow
  some (fl.untranspose width (fl.undelta width chunk laneBases))

/-- Block `b` of a delta node spanning `offset + len` values. -/
def deltaBlock (baseAt deltaAt : ℕ → Option ℕ) (width : WordWidth) (offset len b : ℕ) :
    Option (List ℕ) :=
  if b < divCeil (offset + len) FL_CHUNK then decodeBlock fl baseAt deltaAt width b else none

def deltaValueAt (baseAt deltaAt : ℕ → Option ℕ) (width : WordWidth) (offset len i : ℕ) :
    Option ℕ := do
  let block ← deltaBlock fl baseAt deltaAt width offset len ((offset + i) / FL_CHUNK)
  block[(offset + i) % FL_CHUNK]?

/-! ### Bound searches, over the children's reads -/

/-- `a.div_ceil(b)`, failing on a zero divisor. -/
def checkedDivCeil (a b : ℕ) : Option ℕ := if b = 0 then none else some (divCeil a b)

/-- Position `q` among `len` positions, clamped to `len`. -/
def clampToLen (q len : ℕ) : ℕ := min q len

/-- Whether a node is unsliced: its last run ends at its length. -/
def endsWithRuns (runs : ℕ) (endAt : ℕ → Option ℕ) (offset len : ℕ) : Option Bool :=
  if offset = 0 ∧ 0 < runs then (endAt (runs - 1)).map fun e => decide (e = len) else some false

/-- The runs overlapping the window `[offset, offset + len)`, as
`(first_run, run_count)`. -/
def windowRuns (runs : ℕ) (endAt : ℕ → Option ℕ) (offset len : ℕ) : Option (ℕ × ℕ) :=
  if len = 0 then some (0, 0)
  else do
    if ← endsWithRuns runs endAt offset len then some (0, runs)
    else
      let first ← partition runs (atMost endAt offset)
      let last ← partition runs (atMost endAt (offset + len - 1))
      let count ← checkedSub (min (last + 1) runs) first
      some (first, count)

/-- First row of run `run` in the sliced coordinate space. -/
def runStart (endAt : ℕ → Option ℕ) (run offset len : ℕ) : Option ℕ :=
  if run = 0 then some 0
  else (endAt (run - 1)).map fun e => min (e - offset) len

/-- The lower bound of a run-end node: the needle's first run, by one search of
the window's run values. -/
def runendLowerBound (runs : ℕ) (endAt valueAt : ℕ → Option ℕ) (offset len needle : ℕ) :
    Option ℕ := do
  let (first, span) ← windowRuns runs endAt offset len
  let k ← searchAscending span (fun k => valueAt (first + k)) needle
  runStart endAt (first + k) offset len

mutual

/-- Exact logical value at `i`. -/
def Node.valueAt : Node → ℕ → Option ℕ
  | .primitive w, i => w.get i
  | .constant value _, _ => some value
  | .sequence base multiplier _, i => some ((base + i * multiplier) % 2 ^ 64)
  | .runEnd ends values offset _, i => do
    let run ← partition ends.len (atMost ends.valueAt (i + offset))
    values.valueAt run
  | .foR reference child, i => do
    let v ← child.valueAt i
    some (saturatingAdd reference v)
  | .chunkedFoR references offset child, i =>
    chunkedForValueAt references.valueAt child.valueAt offset i
  | .bitPacked p, i => p.valueAt fl i
  | .patched p indices values patchOffset, i =>
    patchedValueAt (patchLookup indices.len indices.lowerBound indices.valueAt values.valueAt
      patchOffset) (p.valueAt fl) i
  | .slice child start _, i => child.valueAt (start + i)
  | .chunked count start node _, i => do
    let after ← partition count (startsBy start i)
    let c ← checkedSub after 1
    if h : c < count then
      let place ← checkedSub i (start ⟨c, h⟩)
      (node ⟨c, h⟩).valueAt place
    else none
  | .dict codes values, i => dictValueAt codes.valueAt values.valueAt i
  | .delta bases deltas width offset len, i =>
    deltaValueAt fl bases.valueAt deltas.valueAt width offset len i
  | .sparse fill indices values patchOffset _, i =>
    sparseValueAt (patchLookup indices.len indices.lowerBound indices.valueAt values.valueAt
      patchOffset) fill i
  | .rle values indices valueOffsets base offset _, i =>
    rleValueAt values.valueAt indices.valueAt valueOffsets.valueAt base offset i

/-- First index whose value is `>= needle`, the length when every value is
below it; requires ascending order. -/
def Node.lowerBound : Node → ℕ → Option ℕ
  | .primitive w, needle => w.lowerBound needle
  | .constant value len, needle => some (if value < needle then len else 0)
  | .sequence base multiplier len, needle =>
    if needle ≤ base then some 0
    else do
      let q ← checkedDivCeil (needle - base) multiplier
      some (clampToLen q len)
  | .runEnd ends values offset len, needle =>
    runendLowerBound ends.len ends.valueAt values.valueAt offset len needle
  | .foR reference child, needle =>
    if needle ≤ reference then some 0 else child.lowerBound (needle - reference)
  | .chunkedFoR references offset child, needle =>
    partition child.len (below (chunkedForValueAt references.valueAt child.valueAt offset) needle)
  | .bitPacked p, needle => searchAscending p.len (p.valueAt fl) needle
  | .patched p indices values patchOffset, needle =>
    searchAscending p.len (patchedValueAt (patchLookup indices.len indices.lowerBound
      indices.valueAt values.valueAt patchOffset) (p.valueAt fl)) needle
  -- Sortedness is asserted for the window only, so the search reads through
  -- the window, never the child's own order.
  | .slice child start len, needle =>
    partition len (below (fun i => child.valueAt (start + i)) needle)
  | .chunked count start node len, needle => do
    -- First chunk whose last value reaches the needle holds the boundary.
    let c ← partition count
      (below (chunkLast (fun c => (node c).len) fun c => (node c).valueAt) needle)
    if h : c < count then
      let place ← (node ⟨c, h⟩).lowerBound needle
      some (start ⟨c, h⟩ + place)
    else some len
  | .dict codes values, needle =>
    partition codes.len (below (dictValueAt codes.valueAt values.valueAt) needle)
  | .delta bases deltas width offset len, needle =>
    partition len (below (deltaValueAt fl bases.valueAt deltas.valueAt width offset len) needle)
  | .sparse fill indices values patchOffset len, needle =>
    partition len (below (sparseValueAt (patchLookup indices.len indices.lowerBound
      indices.valueAt values.valueAt patchOffset) fill) needle)
  | .rle values indices valueOffsets base offset len, needle =>
    partition len (below (rleValueAt values.valueAt indices.valueAt valueOffsets.valueAt
      base offset) needle)

end

/-- First index whose value is `> needle`: the lower bound of `needle + 1`, and
the length when `needle` is `u64::MAX`. -/
def Node.upperBound (n : Node) (needle : ℕ) : Option ℕ :=
  match checkedSucc needle with
  | some next => n.lowerBound fl next
  | none => some n.len

/-- The first run past the needle's, from its first run `k`.  Adjacent runs may
repeat a value, so it is searched for unless the next run already holds a larger
value. -/
def runPast (span : ℕ) (valueAt : ℕ → Option ℕ) (k needle : ℕ) : Option ℕ :=
  if k = span then some k
  else do
    let v ← valueAt k
    if v ≠ needle then some k
    else if k + 1 = span then some (k + 1)
    else do
      let next ← valueAt (k + 1)
      if needle < next then some (k + 1)
      else do
        let j ← partition (span - k - 1) (atMost (fun j => valueAt (k + 1 + j)) needle)
        some (k + 1 + j)

/-- The bounds of a run-end node: the needle's first run by one search of the
window's run values, both bounds from `ends`. -/
def runendBounds (runs : ℕ) (endAt valueAt : ℕ → Option ℕ) (offset len needle : ℕ) :
    Option (ℕ × ℕ) := do
  let (first, span) ← windowRuns runs endAt offset len
  let k ← searchAscending span (fun k => valueAt (first + k)) needle
  let past ← runPast span (fun k => valueAt (first + k)) k needle
  let lo ← runStart endAt (first + k) offset len
  let hi ← runStart endAt (first + past) offset len
  some (lo, hi)

/-- The bounds of a node searched by its point reads: the lower bound's probes
cap the needle's rows, and the upper bound is searched below that cap only. -/
def cappedBounds (len : ℕ) (valueAt : ℕ → Option ℕ) (needle : ℕ) : Option (ℕ × ℕ) := do
  let (lo, past) ← searchAscendingCapped len valueAt needle
  let width ← checkedSub past lo
  let k ← partition width (atMost (fun i => valueAt (lo + i)) needle)
  some (lo, lo + k)

/-- `(lower_bound, upper_bound)` of `needle`. -/
def Node.bounds : Node → ℕ → Option (ℕ × ℕ)
  | .runEnd ends values offset len, needle =>
    runendBounds ends.len (ends.valueAt fl) (values.valueAt fl) offset len needle
  -- Every stored value is `reference + encoded`, so none lies below the
  -- reference.
  | .foR reference child, needle =>
    if reference ≤ needle then child.bounds (needle - reference) else some (0, 0)
  | .bitPacked p, needle => cappedBounds p.len (p.valueAt fl) needle
  | .patched p indices values patchOffset, needle =>
    cappedBounds p.len ((Node.patched p indices values patchOffset).valueAt fl) needle
  | n, needle => do
    let lo ← n.lowerBound fl needle
    let hi ← n.upperBound fl needle
    some (lo, hi)

/-! ### The pieces of a window -/

/-- The chunks from `c` on that the window `from..from + len` reaches, `done`
values into it. -/
def chunkWindowsLoop {count : ℕ} (start size : Fin count → ℕ) (lo len : ℕ) :
    ℕ → ℕ → ℕ → Option (List (Fin count × ℕ × ℕ × ℕ))
  | 0, _, _ => some []
  | left + 1, c, done =>
    if h : c < count then
      if done < len then do
        let place ← checkedSub (lo + done) (start ⟨c, h⟩)
        let rest ← checkedSub (size ⟨c, h⟩) place
        let take := min rest (len - done)
        let windows ← chunkWindowsLoop start size lo len left (c + 1) (done + take)
        some ((⟨c, h⟩, place, take, done) :: windows)
      else some []
    else some []

/-- The chunks that the window `lo..lo + len` reaches, in order, each as
`(chunk, from, take, done)`: the window's `take` values from the chunk's
`from`, after the `done` values before them. -/
def chunkWindows {count : ℕ} (start size : Fin count → ℕ) (lo len : ℕ) :
    Option (List (Fin count × ℕ × ℕ × ℕ)) := do
  let after ← partition count (startsBy start lo)
  let first ← checkedSub after 1
  chunkWindowsLoop start size lo len (count - first) first 0

/-- The runs from `run` on, of which `left` are left, that reach into the window
`first..last` past `place`. -/
def runsLoop (endAt valueAt : ℕ → Option ℕ) (first last : ℕ) :
    ℕ → ℕ → ℕ → Option (List (ℕ × ℕ × ℕ))
  -- Ends that stop short of the window's end fail the walk.
  | 0, _, place => if place < last then none else some []
  | left + 1, run, place =>
    if place < last then do
      let stop ← endAt run
      let stop ← checkedClamp stop place last
      let v ← valueAt run
      let rest ← runsLoop endAt valueAt first last left (run + 1) stop
      some ((place - first, stop - first, v) :: rest)
    else some []

/-- The runs that the window `start..start + len` reaches, in order, each as its
offsets in the window and its value: the first run found once, the rest
walked. -/
def runsIn (runs : ℕ) (endAt valueAt : ℕ → Option ℕ) (offset start len : ℕ) :
    Option (List (ℕ × ℕ × ℕ)) := do
  let run ← partition runs (atMost endAt (start + offset))
  runsLoop endAt valueAt (start + offset) (start + offset + len) (runs - run) run (start + offset)

/-- Write the patches from `place` on, of which `left` are left, into their
places in `out`, up to the key `stop`. -/
def overwriteLoop (indexAt valueAt : ℕ → Option ℕ) (first stop : ℕ) :
    ℕ → ℕ → List ℕ → Option (List ℕ)
  | 0, _, out => some out
  | left + 1, place, out => do
    let key ← indexAt place
    if stop ≤ key then some out
    else do
      let k ← checkedSub key first
      let v ← valueAt place
      let out ← writeAt out k [v]
      overwriteLoop indexAt valueAt first stop left (place + 1) out

/-- Write the replacement value of every patched position among the logical
indices `start..start + out.len()` into its place in `out`. -/
def patchOverwrite (indices : ℕ) (lowerBound indexAt valueAt : ℕ → Option ℕ)
    (offset start : ℕ) (out : List ℕ) : Option (List ℕ) := do
  let first := start + offset
  let place ← lowerBound first
  overwriteLoop indexAt valueAt first (first + out.length) (indices - place) place out

/-- Copy the values from physical position `physical` on, block by block, over
the positions of `out` from `done` on. -/
def deltaCopy (block : ℕ → Option (List ℕ)) : ℕ → ℕ → ℕ → List ℕ → Option (List ℕ)
  | 0, _, _, out => some out
  | fuel + 1, physical, done, out =>
    if done < out.length then do
      let values ← block (physical / FL_CHUNK)
      let take := min (FL_CHUNK - physical % FL_CHUNK) (out.length - done)
      let part ← sliceOf values (physical % FL_CHUNK) (physical % FL_CHUNK + take)
      let out ← writeAt out done part
      deltaCopy block fuel (physical + take) (done + take) out
    else some out

/-! ### Bulk reads and equality searches -/

/-- The exact values at `start..start + out.len()`, into `out`. -/
def Node.readInto (n : Node) (start : ℕ) (out : List ℕ) : Option (List ℕ) :=
  if out.length = 0 then some out
  else match n with
  | .primitive w => w.readInto start out
  | .constant value _ => some (List.replicate out.length value)
  | .runEnd ends values offset _ => do
    let runs ← runsIn ends.len (ends.valueAt fl) (values.valueAt fl) offset start out.length
    runs.foldlM (fun out run => writeAt out run.1 (List.replicate (run.2.1 - run.1) run.2.2)) out
  | .foR reference child => do
    let out ← child.readInto start out
    some (out.map (saturatingAdd reference))
  | .chunkedFoR references offset child => do
    let out ← child.readInto start out
    out.zipIdx.mapM fun (v, k) =>
      (references.valueAt fl ((offset + start + k) / FL_CHUNK)).map (wrappingAdd v)
  | .bitPacked p => p.readInto fl start out
  | .patched p indices values patchOffset => do
    let out ← p.readInto fl start out
    patchOverwrite indices.len (indices.lowerBound fl) (indices.valueAt fl) (values.valueAt fl)
      patchOffset start out
  | .slice child place _ => child.readInto (place + start) out
  | .chunked _ first node _ => do
    let windows ← chunkWindows first (fun c => (node c).len) start out.length
    windows.foldlM (fun out (c, place, take, done) => do
      let part ← sliceOf out done (done + take)
      let part ← (node c).readInto place part
      writeAt out done part) out
  | .dict codes values => do
    let out ← codes.readInto start out
    out.mapM (values.valueAt fl)
  | .delta bases deltas width offset len =>
    deltaCopy (deltaBlock fl (bases.valueAt fl) (deltas.valueAt fl) width offset len)
      out.length (offset + start) 0 out
  | .sparse fill indices values patchOffset _ =>
    patchOverwrite indices.len (indices.lowerBound fl) (indices.valueAt fl) (values.valueAt fl)
      patchOffset start (List.replicate out.length fill)
  | .sequence base multiplier len =>
    (List.range out.length).mapM fun k => (Node.sequence base multiplier len).valueAt fl (start + k)
  | .rle values indices valueOffsets base offset len =>
    (List.range out.length).mapM fun k =>
      (Node.rle values indices valueOffsets base offset len).valueAt fl (start + k)

/-- The window from `place` on, read a block at a time, each block compared. -/
def eqIntoReadLoop {σ : Type} [EqSink σ] (read : ℕ → List ℕ → Option (List ℕ))
    (start stop needle base : ℕ) : ℕ → ℕ → List ℕ → σ → Option σ
  | 0, _, _, s => some s
  | fuel + 1, place, block, s =>
    if place < stop then do
      let n := min (stop - place) FL_CHUNK
      let values ← read place (block.take n)
      eqIntoReadLoop read start stop needle base fuel (place + n) (values ++ block.drop n)
        (EqSink.matching .u64 (base + place - start) values needle s)
    else some s

/-- An equality search by reading the window a 1024-value block at a time. -/
def eqIntoRead {σ : Type} [EqSink σ] (read : ℕ → List ℕ → Option (List ℕ))
    (start len needle base : ℕ) (s : σ) : Option σ :=
  eqIntoReadLoop read start (start + len) needle base len start (List.replicate FL_CHUNK 0) s

/-- The values at `start..start + len` equal to `needle`, into the sink `s` as
the offsets `base + k` of the values at `start + k`. -/
def Node.eqInto (n : Node) : {σ : Type} → [EqSink σ] → (start len needle base : ℕ) → (s : σ) →
    Option σ := fun start len needle base s =>
  if len = 0 then some s
  else match n with
  | .primitive w => w.eqInto start len needle base s
  | .constant value _ => some (if value = needle then EqSink.run base (base + len) s else s)
  | .sequence first multiplier _ =>
    if first ≤ needle then do
      let place ← checkedDiv (needle - first) multiplier
      if (needle - first) % multiplier = 0 ∧ start ≤ place ∧ place < start + len then
        some (EqSink.run (base + place - start) (base + place - start + 1) s)
      else some s
    else some s
  | .runEnd ends values offset _ => do
    let runs ← runsIn ends.len (ends.valueAt fl) (values.valueAt fl) offset start len
    some (runs.foldl (fun s run =>
      if run.2.2 = needle then EqSink.run (base + run.1) (base + run.2.1) s else s) s)
  | .foR reference child =>
    if reference ≤ needle then child.eqInto start len (needle - reference) base s else some s
  | .slice child place _ => child.eqInto (place + start) len needle base s
  | .chunked _ first node _ => do
    let windows ← chunkWindows first (fun c => (node c).len) start len
    windows.foldlM (fun s (c, place, take, done) =>
      (node c).eqInto place take needle (base + done) s) s
  -- A dictionary holding no more values than the window maps the needle to its
  -- code once; a larger one, or a needle under several codes, reads the window.
  | .dict codes values =>
    if values.len ≤ len then do
      match ← values.eqInto 0 values.len needle 0 CodeOf.none with
      | .none => some s
      | .one code => codes.eqInto start len code base s
      | .several =>
        eqIntoRead ((Node.dict codes values).readInto fl) start len needle base s
    else eqIntoRead ((Node.dict codes values).readInto fl) start len needle base s
  | .bitPacked p => p.eqInto fl start len needle base s
  | n => eqIntoRead (n.readInto fl) start len needle base s

end EncodedSearch
