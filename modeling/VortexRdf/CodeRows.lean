/-
Code rows decoded through a dictionary.

A chunk's four code columns become quads, rows of shared or owned strings, or lines
of text.  Each decoder reads a code's term through a source and keeps, for each role,
a memo of its own.

* `TermSource` — where a decode reads its terms: `DictTerms`, `FileTerms`,
  `MappedTerms`;
* `TermMemo` — a direct-mapped memo of one role's terms, with its admission trial;
* `decodeRows`, `decodeRowsShared` — the decoders into quads and into rows of strings;
* `NQuadLines.fromCodes`, `SpanMemo` — the decoder into lines, whose memo holds where in
  the text a term was last written;
* `decodeResident`, `decodeFileBacked` — the decodes of a chunk.

The columns of a chunk have one length, so they are a list of rows.  A shared string is
its text.
-/
import VortexRdf.DictionaryReads
import VortexRdf.Programs

namespace Dictionary

open Programs Store Terms

/-! ### Rows and sources -/

inductive Role where
  | s
  | p
  | o
  | g
  deriving DecidableEq

/-- The codes of a row, by role. -/
abbrev CodeRow : Type := Role → TermCode

def column (rows : List CodeRow) (role : Role) : List TermCode := rows.map fun codes => codes role

structure TermSource (σ : Type) where
  strAt : Role → TermCode → Prog VortexRdfError σ Str
  /-- The source gave up on the chunk; asked after a failed read. -/
  gaveUp : σ → Bool

def DictTerms (dict : TermDictionary) : TermSource Unit where
  strAt _ code src := ((checkCode code dict.terms.length).map (DictCursor.strAt dict), src)
  gaveUp _ := false

/-- The terms of a chunk's distinct codes. -/
abbrev ChunkTerms : Type := List (TermCode × Str)

def MappedTerms.get (terms : ChunkTerms) (code : TermCode) : Except VortexRdfError Str :=
  match terms.lookup code with
  | some term => .ok term
  | none => .error (.deserialization [.text ("Term code " ++ toString code ++
      " missing from the chunk's resolved term map")])

def MappedTerms (terms : ChunkTerms) : TermSource Unit where
  strAt _ code src := (MappedTerms.get terms code, src)
  gaveUp _ := false

def FileTerms (fb : FileBackedDict) : TermSource HeldWindows where
  strAt _ code := HeldWindows.strAt fb code
  gaveUp held := held.gaveUp

/-! ### The memo of decoded terms -/

def MEMO_MAX_SLOTS : ℕ := 1024

def MEMO_MIN_ROWS : ℕ := 16

def MEMO_TRIAL_MISSES : ℕ := 64

def MEMO_MISSES_PER_HIT : ℕ := 8

def u32Max : ℕ := 2 ^ 32 - 1

/-- Whether a memo keeps the terms it decodes. -/
inductive Admission where
  | trial (misses hits : ℕ)
  | admits
  | refuses
  deriving DecidableEq

def Admission.hit : Admission → Admission
  | trial misses hits => trial misses (min (hits + 1) u32Max)
  | admission => admission

def Admission.miss : Admission → Admission
  | trial misses hits =>
    if misses + 1 = MEMO_TRIAL_MISSES then
      if misses + 1 ≤ min (hits * MEMO_MISSES_PER_HIT) u32Max then admits else refuses
    else trial (misses + 1) hits
  | admission => admission

structure TermMemo (τ : Type) where
  slots : List (Option (TermCode × τ))
  mask : ℕ
  admission : Admission

namespace TermMemo

variable {σ τ : Type}

def new (rows : ℕ) : TermMemo τ :=
  let slots := if rows < MEMO_MIN_ROWS then 0 else max 1 (min rows.nextPowerOfTwo MEMO_MAX_SLOTS)
  ⟨List.replicate slots none, slots - 1, .trial 0 0⟩

def admitting (rows : ℕ) : TermMemo τ := { new rows with admission := .admits }

/-- The term the code's slot holds, when it is that code's. -/
def held (memo : TermMemo τ) (code : TermCode) : Option τ :=
  match memo.slots[code &&& memo.mask]? with
  | some (some (cached, term)) => if cached = code then some term else none
  | _ => none

def keep (memo : TermMemo τ) (code : TermCode) (term : τ) : TermMemo τ :=
  if memo.admission = .refuses then memo
  else { memo with slots := memo.slots.set (code &&& memo.mask) (some (code, term)) }

def getOrInsert (code : TermCode) (decode : Prog VortexRdfError σ τ) :
    Prog VortexRdfError (TermMemo τ × σ) τ := fun (memo, src) =>
  if memo.slots.isEmpty then
    let (term, src) := decode src
    (term, memo, src)
  else
    match memo.held code with
    | some term => (.ok term, { memo with admission := memo.admission.hit }, src)
    | none =>
      match decode src with
      | (.error error, src) => (.error error, memo, src)
      | (.ok term, src) =>
        (.ok term, { memo with admission := memo.admission.miss }.keep code term, src)

end TermMemo

/-- A memo for each role. -/
abbrev Memos (T : Role → Type) : Type := (role : Role) → TermMemo (T role)

/-- A program on one role's memo, among all of them. -/
def atRole {σ α : Type} {T : Role → Type} (role : Role)
    (prog : Prog VortexRdfError (TermMemo (T role) × σ) α) :
    Prog VortexRdfError (Memos T × σ) α := fun (memos, src) =>
  let (result, memo, src) := prog (memos role, src)
  (result, Function.update memos role memo, src)

/-! ### Quads -/

/-- What a role's term is parsed into. -/
@[reducible] def QuadTerm : Role → Type
  | .s => NamedOrBlankNode
  | .p => NamedNode
  | .o => Term
  | .g => GraphName

variable {σ : Type}

def quadRow (ox : Oxrdf) (src : TermSource σ) (codes : CodeRow) :
    Prog VortexRdfError (Memos QuadTerm × σ) Quad := do
  let subject ← atRole .s (TermMemo.getOrInsert (codes .s)
    ((src.strAt .s (codes .s)).parse fun t => Terms.subject ox t .stored))
  let predicate ← atRole .p (TermMemo.getOrInsert (codes .p)
    ((src.strAt .p (codes .p)).parse fun t => namedNode ox t .stored))
  let object ← atRole .o (TermMemo.getOrInsert (codes .o)
    ((src.strAt .o (codes .o)).parse fun t => term ox t .stored))
  let graph ← atRole .g (TermMemo.getOrInsert (codes .g)
    ((src.strAt .g (codes .g)).parse fun t => Terms.graphName ox t .stored))
  return ⟨subject, predicate, object, graph⟩

/-- The rows one after the other, a failed one at its place; they end before a row
that failed as the source gave up. -/
def rowsLoop {S α : Type} (row : CodeRow → Prog VortexRdfError S α) (gaveUp : S → Bool) :
    List CodeRow → S → List (Except VortexRdfError α) × S
  | [], s => ([], s)
  | codes :: rest, s =>
    match row codes s with
    | (.ok decoded, s) =>
      let (rows, s) := rowsLoop row gaveUp rest s
      (.ok decoded :: rows, s)
    | (.error error, s) =>
      if gaveUp s then ([], s)
      else
        let (rows, s) := rowsLoop row gaveUp rest s
        (.error error :: rows, s)

def decodeRows (ox : Oxrdf) (src : TermSource σ) (rows : List CodeRow) (s : σ) :
    List (Except VortexRdfError Quad) × σ :=
  let (decoded, _, s) := rowsLoop (quadRow ox src) (fun (_, s) => src.gaveUp s) rows
    (fun _ => TermMemo.new rows.length, s)
  (decoded, s)

/-! ### Rows of strings -/

/-- A quad whose terms are shared strings. -/
structure SharedQuad where
  s : Str
  p : Str
  o : Str
  g : Str
  deriving DecidableEq

def SharedQuad.fromTerms (s p o g : Str) : SharedQuad := ⟨s, p, o, g⟩

def RawQuad.fromTerms (s p o g : Str) : RawQuad := ⟨s, p, o, g⟩

/-- One row of strings; a shared term is read as the source reads it. -/
def stringRow {R : Type} (fromTerms : Str → Str → Str → Str → R) (src : TermSource σ)
    (codes : CodeRow) : Prog VortexRdfError (Memos (fun _ => Str) × σ) R := do
  let s ← atRole .s (TermMemo.getOrInsert (codes .s) (src.strAt .s (codes .s)))
  let p ← atRole .p (TermMemo.getOrInsert (codes .p) (src.strAt .p (codes .p)))
  let o ← atRole .o (TermMemo.getOrInsert (codes .o) (src.strAt .o (codes .o)))
  let g ← atRole .g (TermMemo.getOrInsert (codes .g) (src.strAt .g (codes .g)))
  return fromTerms s p o g

/-- The rows, or the chunk's one error. -/
def chunkRows {α : Type} : Except VortexRdfError (List α) → List (Except VortexRdfError α)
  | .ok rows => rows.map .ok
  | .error error => [.error error]

def decodeRowsShared {R : Type} (fromTerms : Str → Str → Str → Str → R) (src : TermSource σ)
    (rows : List CodeRow) (s : σ) : List (Except VortexRdfError R) × σ :=
  let (decoded, _, s) := rows.mapM (stringRow fromTerms src)
    (fun _ => TermMemo.admitting rows.length, s)
  (chunkRows decoded, s)

/-! ### Lines -/

def SPACE : UInt8 := 0x20

/-- `.` and a newline. -/
def LINE_END : Str := [0x2e, 0x0a]

structure NQuadLines where
  text : Str
  namedGraph : Bool
  deriving DecidableEq

namespace NQuadLines

def empty : NQuadLines := ⟨[], false⟩

def term (lines : NQuadLines) (t : Str) : NQuadLines :=
  { lines with text := lines.text ++ t ++ [SPACE] }

def endLine (lines : NQuadLines) (graph : Str) : NQuadLines :=
  let lines := if graph = [] then lines else { lines with namedGraph := true }.term graph
  { lines with text := lines.text ++ LINE_END }

def push (lines : NQuadLines) (s p o g : Str) : NQuadLines :=
  (((lines.term s).term p).term o).endLine g

end NQuadLines

def SPAN_SLOTS : ℕ := 256

/-- Where in the text each slot's code was last written, from a start to an end. -/
abbrev SpanMemo : Type := List (TermCode × ℕ × ℕ)

namespace SpanMemo

/-- A code's slot: its low byte. -/
def slot (code : TermCode) : ℕ := code &&& (SPAN_SLOTS - 1)

def new : SpanMemo := List.replicate SPAN_SLOTS (TERM_CODE_MAX, 0, 0)

def get (memo : SpanMemo) (code : TermCode) : Option (ℕ × ℕ) :=
  match memo[slot code]? with
  | some (held, span) => if held = code then some span else none
  | none => none

def put (memo : SpanMemo) (code : TermCode) (span : ℕ × ℕ) : SpanMemo :=
  memo.set (slot code) (code, span)

end SpanMemo

/-- The lines so far, the roles' memos of them, and the source. -/
structure LineState (σ : Type) where
  lines : NQuadLines
  spans : Role → SpanMemo
  source : σ

/-- The code's term, copied from where the lines hold it or read. -/
def spanOrRead (src : TermSource σ) (role : Role) (code : TermCode) (st : LineState σ) :
    Except VortexRdfError Str × σ :=
  match (st.spans role).get code with
  | some (a, b) => (.ok ((st.lines.text.take b).drop a), st.source)
  | none => src.strAt role code st.source

/-- One term written to the lines; a graph's space only where there is a graph. -/
def writeTerm (src : TermSource σ) (role : Role) (code : TermCode) :
    Prog VortexRdfError (LineState σ) Unit := fun st =>
  let start := st.lines.text.length
  match spanOrRead src role code st with
  | (.error error, source) => (.error error, { st with source := source })
  | (.ok t, source) =>
    let text := st.lines.text ++ t
    let spans := Function.update st.spans role ((st.spans role).put code (start, text.length))
    if role ≠ .g ∨ start < text.length then
      (.ok (), ⟨⟨text ++ [SPACE], st.lines.namedGraph || role == .g⟩, spans, source⟩)
    else (.ok (), ⟨⟨text, st.lines.namedGraph⟩, spans, source⟩)

def writeEnd : Prog VortexRdfError (LineState σ) Unit := fun st =>
  (.ok (), { st with lines := { st.lines with text := st.lines.text ++ LINE_END } })

/-- The terms of a row, role after role. -/
def writeTerms (src : TermSource σ) (codes : CodeRow) :
    List Role → Prog VortexRdfError (LineState σ) Unit
  | [] => pure ()
  | role :: roles => do
    writeTerm src role (codes role)
    writeTerms src codes roles

def writeRow (src : TermSource σ) (codes : CodeRow) : Prog VortexRdfError (LineState σ) Unit := do
  writeTerms src codes [.s, .p, .o, .g]
  writeEnd

def writeRows (src : TermSource σ) : List CodeRow → Prog VortexRdfError (LineState σ) Unit
  | [] => pure ()
  | codes :: rest => do
    writeRow src codes
    writeRows src rest

def NQuadLines.fromCodes (src : TermSource σ) (rows : List CodeRow) (s : σ) :
    List (Except VortexRdfError NQuadLines) × σ :=
  match writeRows src rows ⟨.empty, fun _ => .new, s⟩ with
  | (.ok (), st) => ([.ok st.lines], st.source)
  | (.error error, st) => ([.error error], st.source)

/-! ### The decode of a chunk -/

/-- A row type that code rows decode into, through any source. -/
structure DecodeRows (α : Type) where
  fromCodes : {σ : Type} → TermSource σ → List CodeRow → σ → List (Except VortexRdfError α) × σ

def quadRows (ox : Oxrdf) : DecodeRows Quad := ⟨decodeRows ox⟩

def sharedQuadRows : DecodeRows SharedQuad := ⟨decodeRowsShared SharedQuad.fromTerms⟩

def rawQuadRows : DecodeRows RawQuad := ⟨decodeRowsShared RawQuad.fromTerms⟩

def nquadLines : DecodeRows NQuadLines := ⟨NQuadLines.fromCodes⟩

def decodeResident {α : Type} (d : DecodeRows α) (dict : TermDictionary) (rows : List CodeRow) :
    List (Except VortexRdfError α) :=
  (d.fromCodes (DictTerms dict) rows ()).1

/-- A list without the members equal to the one before them. -/
def skipRepeats : Option TermCode → List TermCode → List TermCode
  | _, [] => []
  | previous, code :: codes =>
    if previous = some code then skipRepeats previous codes
    else code :: skipRepeats (some code) codes

def distinctCodes (rows : List CodeRow) : List TermCode :=
  skipRepeats none
    (([Role.s, .p, .o, .g].flatMap fun role => skipRepeats none (column rows role)).mergeSort)

def resolveChunkTerms (fb : FileBackedDict) (rows : List CodeRow) :
    Except VortexRdfError ChunkTerms := do
  let codes := distinctCodes rows
  let terms ← fb.decodeMany codes
  return codes.zip terms

/-- The decode of the rows against their distinct codes' terms. -/
def decodeResolved {α : Type} (d : DecodeRows α) (fb : FileBackedDict) (rows : List CodeRow) :
    List (Except VortexRdfError α) :=
  match resolveChunkTerms fb rows with
  | .ok terms => (d.fromCodes (MappedTerms terms) rows ()).1
  | .error error => [.error error]

def decodeFileBacked {α : Type} (d : DecodeRows α) (fb : FileBackedDict) (rows : List CodeRow) :
    List (Except VortexRdfError α) :=
  match fb.holdWindows with
  | some held =>
    let (decoded, held) := d.fromCodes (FileTerms fb) rows held
    if held.gaveUp then decodeResolved d fb rows else decoded
  | none => decodeResolved d fb rows

end Dictionary
