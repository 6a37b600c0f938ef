/-
The packer of quad arrays and the cursor that reads its buffers.

The packer writes a range of an array into one growing buffer, the cursor reads the buffer
back.  Both keep note of where they write and read.

* `JsError` — how packing and decoding fail;
* `Packer`, `ensure`, `putByte`, `setU32`, `packStr`, `packTerm`, `packQuads` — the packer;
* `Cursor`, `take`, `readTerm`, `decodePacked` — the cursor;
* `jsArrayDecode` — an array packed and decoded chunk by chunk.
-/
import VortexRdf.JsTerms
import VortexRdf.Programs
import VortexRdf.Records

namespace Js

open Utf16 (chars utf16 encodeInto fromUtf8)
open Terms Programs
open Records (leBytes ofLe)

inductive JsError where
  | invalidQuad (i : ℕ)
  | rangeError
  | truncated
  | invalidUtf8
  deriving DecidableEq

/-- The texts of the errors that are the program's own. -/
def JsError.message : JsError → String
  | invalidQuad i => "Invalid quad object at index " ++ toString i
  | rangeError => "RangeError"
  | truncated => "Truncated quad buffer"
  | invalidUtf8 => "Invalid UTF-8 in quad buffer"

/-! ### The packer -/

/-- A write: where, how many bytes were to be written and how many were, in what capacity. -/
structure Write where
  pos : ℕ
  wanted : ℕ
  written : ℕ
  capacity : ℕ

structure Packer where
  buf : Str
  pos : ℕ
  writes : List Write

abbrev Packing := Prog JsError Packer Unit

def Packer.new : Packer := ⟨List.replicate (2 ^ 16) 0, 0, []⟩

/-- A capacity doubled until it holds so much. -/
def doubled : ℕ → ℕ → ℕ → ℕ
  | 0, cap, _ => cap
  | fuel + 1, cap, need => if cap < need then doubled fuel (cap * 2) need else cap

/-- Room for so many bytes more. -/
def Packer.ensured (p : Packer) (n : ℕ) : Packer :=
  if p.pos + n ≤ p.buf.length then p
  else
    let cap := doubled (p.pos + n) (p.buf.length * 2) (p.pos + n)
    { p with buf := p.buf.take p.pos ++ List.replicate (cap - p.pos) 0 }

def ensure (n : ℕ) : Packing := fun p => (.ok (), p.ensured n)

/-- `buf[pos++] = byte`, which writes nothing past the buffer's end. -/
def putByte (byte : UInt8) : Packing := fun p =>
  (.ok (), {
    buf := p.buf.set p.pos byte
    pos := p.pos + 1
    writes := p.writes ++ [⟨p.pos, 1, if p.pos < p.buf.length then 1 else 0, p.buf.length⟩] })

/-- Bytes written over the buffer from a position on. -/
def Packer.over (p : Packer) (start : ℕ) (bytes : Str) : Str :=
  p.buf.take start ++ bytes ++ p.buf.drop (start + bytes.length)

/-- `setUint32` at the position, which throws past the buffer's end. -/
def setU32 (v : ℕ) : Packing := fun p =>
  if p.pos + 4 ≤ p.buf.length then
    (.ok (), { p with
      buf := p.over p.pos (leBytes 4 v)
      writes := p.writes ++ [⟨p.pos, 4, 4, p.buf.length⟩] })
  else (.error .rangeError, p)

def advance (n : ℕ) : Packing := fun p => (.ok (), { p with pos := p.pos + n })

/-- A number as `setUint32` takes it. -/
def toUint32 (v : ℤ) : ℕ := (v % 2 ^ 32).toNat

def packU32 (v : ℤ) : Packing := do
  ensure 4
  setU32 (toUint32 v)
  advance 4

/-- A text encoded past a length still to be written. -/
def encodeText (text : List Char) : Prog JsError Packer ℕ := fun p =>
  let written := encodeInto text (p.buf.length - (p.pos + 4))
  (.ok written.length, { p with
    buf := p.over (p.pos + 4) written
    writes := p.writes ++ [⟨p.pos + 4, (utf8 text).length, written.length, p.buf.length⟩] })

def refuse (i : ℕ) : Packing := Prog.lift (.error (.invalidQuad i))

/-- A length and a text; at most three bytes a unit. -/
def packStr (v : JsValue) (i : ℕ) : Packing :=
  match v with
  | .string s => do
    ensure (4 + s.units.length * 3)
    let written ← encodeText (chars s.units)
    setU32 written
    advance (4 + written)
  | _ => refuse i

def packTag (kind : TermKind) : Packing := do
  ensure 1
  putByte kind.tag

variable (heap : Heap)

/-- `t.termType`, of a value that has properties. -/
def jsTermType (t : JsValue) : JsValue := if t.isNullish then .undefined else member heap t .termType

/-- `dt && dt.value`. -/
def jsIri (datatype : JsValue) : JsValue :=
  if datatype.isFalsy then datatype else member heap datatype .value

def packLiteral (t : JsValue) (i : ℕ) : Packing := do
  ensure 1
  if !(member heap t .language).isFalsy then
    putByte TermKind.langLiteral.tag
    packStr (member heap t .value) i
    packStr (member heap t .language) i
  else if !(member heap t .datatype).isFalsy && !(member heap t .datatype).isObject then
    refuse i
  else if !(jsIri heap (member heap t .datatype)).isFalsy then
    putByte TermKind.typedLiteral.tag
    packStr (member heap t .value) i
    packStr (jsIri heap (member heap t .datatype)) i
  else
    putByte TermKind.simpleLiteral.tag
    packStr (member heap t .value) i

def packTerm (t : JsValue) (i : ℕ) : Packing :=
  if (jsTermType heap t).isText "NamedNode" then do
    packTag .namedNode
    packStr (member heap t .value) i
  else if (jsTermType heap t).isText "BlankNode" then do
    packTag .blankNode
    packStr (member heap t .value) i
  else if (jsTermType heap t).isText "Literal" then packLiteral heap t i
  else if (jsTermType heap t).isText "DefaultGraph" then packTag .defaultGraph
  -- an absent graph is the default graph; anything else is malformed
  else if t.isNullish then packTag .defaultGraph
  else refuse i

def packQuad (q : JsValue) (i : ℕ) : Packing :=
  if q.isFalsy then refuse i
  else do
    packTerm heap (member heap q .subject) i
    packTerm heap (member heap q .predicate) i
    packTerm heap (member heap q .object) i
    packTerm heap (member heap q .graph) i

/-- The elements from an index on. -/
def packEach : List JsValue → ℕ → Packing
  | [], _ => pure ()
  | q :: quads, i => do
    packQuad heap q i
    packEach quads (i + 1)

/-- The elements `start..end` of an array. -/
def sliceOf (quads : List JsValue) (start stop : ℕ) : List JsValue :=
  (quads.drop start).take (stop - start)

def packing (quads : List JsValue) (start stop : ℕ) : Packing := do
  packU32 (stop - start)
  packEach heap (sliceOf quads start stop) start

/-- The buffer up to the position, beside the packer. -/
def packed : Except JsError Unit × Packer → Except JsError Str × Packer
  | (.ok _, p) => (.ok (p.buf.take p.pos), p)
  | (.error error, p) => (.error error, p)

def packQuads (quads : List JsValue) (start stop : ℕ) : Except JsError Str × Packer :=
  packed (packing heap quads start stop .new)

/-! ### The cursor -/

structure Cursor where
  bytes : Str
  pos : ℕ
  /-- Where bytes were read, and how many. -/
  reads : List (ℕ × ℕ)

abbrev Reading (T : Type) := Prog JsError Cursor T

/-- The next bytes; a position past the buffer's end, wrapped or not, is refused. -/
def take (len : ℕ) : Reading Str := fun c =>
  if c.pos + len ≤ c.bytes.length then
    (.ok ((c.bytes.drop c.pos).take len),
      { c with pos := c.pos + len, reads := c.reads ++ [(c.pos, len)] })
  else (.error .truncated, c)

def readU8 : Reading UInt8 := do
  let taken ← take 1
  return taken.headD 0

def readU32 : Reading ℕ := do
  let taken ← take 4
  return ofLe taken

def validated (bytes : Str) : Reading Str :=
  match fromUtf8 bytes with
  | some text => pure text
  | none => Prog.lift (.error .invalidUtf8)

def readStr : Reading Str := do
  let len ← readU32
  let bytes ← take len
  validated bytes

def readIf (has : Bool) : Reading Str := if has then readStr else pure []

def readTerm {T : Type} (build : TermKind → Str → Str → Option T) : Reading (Option T) := do
  let tag ← readU8
  match TermKind.fromTag tag with
  | none => return none
  | some kind =>
    let value ← readIf kind.hasValue
    let extra ← readIf kind.hasExtra
    return build kind value extra

/-- The term read, or the quad at fault. -/
def orInvalid {T : Type} (i : ℕ) (term : Option T) : Reading T :=
  match term with
  | some t => pure t
  | none => Prog.lift (.error (.invalidQuad i))

variable (ox : Oxrdf)

def readQuad (i : ℕ) : Reading Quad := do
  let s ← orInvalid i (← readTerm (subject ox))
  let p ← orInvalid i (← readTerm (predicate ox))
  let o ← orInvalid i (← readTerm (object ox))
  let g ← orInvalid i (← readTerm (graph ox))
  return ⟨s, p, o, g⟩

/-- What decoding leaves: the quads emitted before it ended, and how it ended. -/
structure Decoded where
  quads : List Quad
  error : Option JsError

/-- So many quads, those from an index on. -/
def readEach : ℕ → ℕ → Cursor → Decoded × Cursor
  | 0, _, c => (⟨[], none⟩, c)
  | count + 1, i, c =>
    match readQuad ox i c with
    | (.error error, c) => (⟨[], some error⟩, c)
    | (.ok quad, c) =>
      let (rest, c) := readEach count (i + 1) c
      (⟨quad :: rest.quads, rest.error⟩, c)

/-- How many indices `first..first + n` holds, in 32 bits. -/
def rangeLen (first n : ℕ) : ℕ := (first + n) % 2 ^ 32 - first

/-- The quads from an index on, once their count is read. -/
def readCounted (first : ℕ) : Except JsError ℕ × Cursor → Decoded × Cursor
  | (.error error, c) => (⟨[], some error⟩, c)
  | (.ok n, c) => readEach ox (rangeLen first n) first c

def decodePacked (bytes : Str) (first : ℕ) : Decoded × Cursor :=
  readCounted ox first (readU32 ⟨bytes, 0, []⟩)

/-! ### An array -/

/-- Quads per call of the packer. -/
def PACK_CHUNK : ℕ := 2 ^ 16

/-- A JavaScript array, whose length is a 32-bit number. -/
structure JsArray where
  elements : List JsValue
  length_lt : elements.length < 2 ^ 32

/-- The end of the chunk that starts at an index, in 32 bits. -/
def chunkEnd (start total : ℕ) : ℕ := min ((start + PACK_CHUNK) % 2 ^ 32) total

/-- A packed chunk decoded, if it was packed. -/
def decodedChunk (start : ℕ) : Except JsError Str → Decoded
  | .error error => ⟨[], some error⟩
  | .ok bytes => (decodePacked ox bytes start).1

def decodeChunk (quads : List JsValue) (start stop : ℕ) : Decoded :=
  decodedChunk ox start (packQuads heap quads start stop).1

/-- A chunk's quads before those of the chunks after it, if it did not fail. -/
def Decoded.before (d : Decoded) (rest : Option Decoded) : Option Decoded :=
  match d.error with
  | some _ => some d
  | none => rest.map fun rest => ⟨d.quads ++ rest.quads, rest.error⟩

/-- The array from an index on, in so many chunks at most; `none` where they do not do. -/
def jsArrayDecode (quads : JsArray) : ℕ → ℕ → Option Decoded
  | 0, _ => none
  | fuel + 1, start =>
    if start < quads.elements.length then
      let stop := chunkEnd start quads.elements.length
      (decodeChunk heap ox quads.elements start stop).before (jsArrayDecode quads fuel stop)
    else some ⟨[], none⟩

end Js
