/-
The compressed-resident form of a build's code columns, and the zones taken on the way.

One pass over a column's codes takes its bounds, its runs and its zones; the bounds and the
runs choose the encoding.  A column of chunks is compressed chunk by chunk, into one zone
map.  The array library's own encodings are parameters.

* `Encodings`, `Column` — the library's encodings, and the columns made of them;
* `passLoop`, `compressIntColumn`, `compressIntChild` — the pass, the choice, the chunks;
* `withCompressedIntChildren` — a struct's columns, with the zone maps kept of them;
* `Column.foldedIn`, `Column.leftAlone` — what of a column is read, and what is not;
* `Column.Encodes` — what a column may be compressed into.
-/
import VortexRdf.ZoneBuilders
import VortexRdf.StoreMetadata
import Mathlib.Data.Nat.Size

namespace Store

open Terms
open Container (PType Nullability FieldType)
open Dictionary (TERM_CODE_MAX)

/-! ### Columns -/

/-- The array library's run-end and bit-packed encodings. -/
structure Encodings where
  RunEnd : Type
  BitPacked : Type
  runEndEncode : List ℕ → Except VortexRdfError RunEnd
  runEndDecode : RunEnd → List ℕ
  bitPack : List ℕ → ℕ → Except VortexRdfError BitPacked
  bitUnpack : BitPacked → List ℕ

/-- Run-end encoding keeps its values, bit-packing those its width holds. -/
structure Encodings.Lossless (E : Encodings) : Prop where
  runEnd : ∀ values, (∀ v ∈ values, v ≤ TERM_CODE_MAX) →
    ∃ encoded, E.runEndEncode values = .ok encoded ∧ E.runEndDecode encoded = values
  bitPacked : ∀ values width, width < 64 → (∀ v ∈ values, v < 2 ^ width) →
    ∃ packed, E.bitPack values width = .ok packed ∧ E.bitUnpack packed = values

/-- A column in one of its encodings; one no case names is told by its type and values. -/
inductive Column (E : Encodings) where
  | primitive (ptype : PType) (nullability : Nullability) (values : List ℕ)
  | chunked (dtype : FieldType) (chunks : List (Column E))
  | constant (value len : ℕ)
  | runEnd (encoded : E.RunEnd)
  | bitPacked (width : ℕ) (packed : E.BitPacked)
  | other (dtype : FieldType) (values : List ℕ)

/-- The type of a code column and of a row-id column. -/
def CODE_DTYPE : FieldType := .primitive .u64 .nonNullable

def isUnsignedInt : FieldType → Bool
  | .primitive ptype _ => decide (ptype = .u8 ∨ ptype = .u16 ∨ ptype = .u32 ∨ ptype = .u64)
  | _ => false

def isNullable : FieldType → Bool
  | .primitive _ nullability => decide (nullability = .nullable)
  | .utf8 nullability => decide (nullability = .nullable)
  | .other _ => false

namespace Column

variable {E : Encodings}

def dtype : Column E → FieldType
  | .primitive ptype nullability _ => .primitive ptype nullability
  | .chunked dtype _ => dtype
  | .constant _ _ => CODE_DTYPE
  | .runEnd _ => CODE_DTYPE
  | .bitPacked _ _ => CODE_DTYPE
  | .other dtype _ => dtype

mutual

/-- The values a column decodes to. -/
def values : Column E → List ℕ
  | .primitive _ _ values => values
  | .chunked _ chunks => chunkValues chunks
  | .constant value len => List.replicate len value
  | .runEnd encoded => E.runEndDecode encoded
  | .bitPacked _ packed => E.bitUnpack packed
  | .other _ values => values

def chunkValues : List (Column E) → List ℕ
  | [] => []
  | chunk :: chunks => chunk.values ++ chunkValues chunks

end

def len (column : Column E) : ℕ := column.values.length

def isPrimitive : Column E → Bool
  | .primitive _ _ _ => true
  | _ => false

/-- Chunks of one type put together. -/
def tryNewChunked (chunks : List (Column E)) (dtype : FieldType) : Except VortexRdfError (Column E) :=
  if ∀ chunk ∈ chunks, chunk.dtype = dtype then .ok (.chunked dtype chunks) else .error .vortex

end Column

/-! ### The pass over a column's values -/

/-- A part's bounds, and the runs up to it. -/
structure PartPass where
  lo : ℕ
  hi : ℕ
  runs : ℕ
  prev : ℕ

def PartPass.step (pass : PartPass) (v : ℕ) : PartPass :=
  { hi := if pass.hi < v then v else pass.hi
    lo := if v < pass.lo then v else pass.lo
    runs := if v ≠ pass.prev then pass.runs + 1 else pass.runs
    prev := v }

/-- A column's bounds and runs so far, and its zones. -/
structure ColumnPass where
  min : ℕ
  max : ℕ
  runs : ℕ
  prev : ℕ
  zones : ZoneBuilder

/-- A part up to the end of the zone being filled. -/
def ColumnPass.part (pass : ColumnPass) (part : List ℕ) : ColumnPass :=
  let read := part.foldl PartPass.step ⟨TERM_CODE_MAX, 0, pass.runs, pass.prev⟩
  { zones := pass.zones.push part read.lo read.hi
    min := Min.min pass.min read.lo
    max := Max.max pass.max read.hi
    runs := read.runs
    prev := read.prev }

def passLoop : ℕ → List ℕ → ColumnPass → ColumnPass
  | 0, _, pass => pass
  | fuel + 1, rest, pass =>
    if rest.isEmpty then pass
    else
      let run := Min.min pass.zones.room rest.length
      passLoop fuel (rest.drop run) (pass.part (rest.take run))

/-! ### The choice of an encoding -/

/-- The zero bits above a 64-bit number's highest set bit. -/
def leadingZeros (v : ℕ) : ℕ := 64 - v.size

/-- The width a column of this largest value is packed at. -/
def bitWidth (max : ℕ) : ℕ := Max.max (64 - leadingZeros max) 1

variable {E : Encodings}

def encodeRunEnd (values : List ℕ) : Except VortexRdfError (Column E) :=
  (E.runEndEncode values).map Column.runEnd

def encodeBitPacked (values : List ℕ) (width : ℕ) : Except VortexRdfError (Column E) :=
  (E.bitPack values width).map (Column.bitPacked width)

/-- The encoding of a column that has been read. -/
def chosenEncoding (pass : ColumnPass) (values : List ℕ) (sorted : Bool) :
    Except VortexRdfError (Column E) :=
  if pass.min = pass.max then .ok (.constant pass.min values.length)
  else if sorted ∧ pass.runs * 4 ≤ values.length then encodeRunEnd values
  else if 64 ≤ bitWidth pass.max then .ok (.primitive .u64 .nonNullable values)
  else encodeBitPacked values (bitWidth pass.max)

def compressIntColumn (values : List ℕ) (sorted : Bool) (zones : ZoneBuilder) :
    Except VortexRdfError (Column E × ZoneBuilder) :=
  match values with
  | [] => .ok (.primitive .u64 .nonNullable [], zones)
  | first :: _ =>
    let pass := passLoop values.length values ⟨TERM_CODE_MAX, 0, 1, first, zones⟩
    (chosenEncoding pass values sorted).map fun encoded => (encoded, pass.zones)

/-- The compressed chunks put together again, if any was compressed. -/
def reassembled (dtype : FieldType) (chunks : List (Option (Column E) × Column E)) :
    Except VortexRdfError (Option (Column E)) :=
  if chunks.any fun chunk => chunk.1.isSome then
    (Column.tryNewChunked (chunks.map fun chunk => chunk.1.getD chunk.2) dtype).map some
  else .ok none

/-- Whether a column is not looked at: nullable, or not of unsigned integers. -/
def passedBy (dtype : FieldType) : Bool := isNullable dtype || !isUnsignedInt dtype

mutual

/-- A column's compressed form, `none` for one left alone. -/
def compressIntChild (sorted : Bool) :
    Column E → ZoneBuilder → Except VortexRdfError (Option (Column E) × ZoneBuilder)
  | .chunked dtype chunks, zones =>
    if passedBy dtype then .ok (none, zones)
    else
      match compressChunks sorted chunks zones with
      | .error error => .error error
      | .ok (out, zones) => (reassembled dtype out).map fun built => (built, zones)
  | .primitive ptype nullability values, zones =>
    if passedBy (.primitive ptype nullability) then .ok (none, zones)
    -- neither a code nor a row id; both are u64 wide
    else if ptype ≠ .u64 then .ok (none, zones)
    else (compressIntColumn values sorted zones).map fun built => (some built.1, built.2)
  | .constant _ _, zones => .ok (none, zones)
  | .runEnd _, zones => .ok (none, zones)
  | .bitPacked _ _, zones => .ok (none, zones)
  | .other _ _, zones => .ok (none, zones)

/-- Each chunk beside what it is compressed into. -/
def compressChunks (sorted : Bool) : List (Column E) → ZoneBuilder →
    Except VortexRdfError (List (Option (Column E) × Column E) × ZoneBuilder)
  | [], zones => .ok ([], zones)
  | chunk :: chunks, zones =>
    match compressIntChild sorted chunk zones with
    | .error error => .error error
    | .ok (built, zones) =>
      (compressChunks sorted chunks zones).map fun rest => ((built, chunk) :: rest.1, rest.2)

end

/-! ### A struct's columns -/

/-- Which table a struct is, and so what its code columns keep. -/
inductive CodeTable where
  | base
  | component
  deriving DecidableEq

def CodeTable.zoned (table : CodeTable) (slot : QuadColumn) : Bool :=
  decide (table = .base ∨ slot = .g)

def CodeTable.shared (table : CodeTable) : Bool := decide (table = .base)

/-- A struct's column, with its stamp of sortedness and whether it is wrapped to be decoded
once; without a name of the primary schema, it has none here. -/
structure TableColumn (E : Encodings) where
  name : Option ColumnName
  column : Column E
  sorted : Bool
  shared : Bool

structure TableRows (E : Encodings) where
  nullable : Bool
  len : ℕ
  columns : List (TableColumn E)

/-- The slot whose zones the table keeps of a column. -/
def zonedSlot (table : CodeTable) (name : Option ColumnName) : Option QuadColumn :=
  (name.bind primarySlot).filter table.zoned

/-- The zone map of a column that was compressed. -/
def finishedZones (slot : Option QuadColumn) (zones : ZoneBuilder) (rows : ℕ) :
    Except VortexRdfError (Option ColumnZones) :=
  match slot with
  | some _ => zones.finish rows
  | none => .ok none

/-- A column compressed as its table keeps it, with its zone map. -/
def compressedChild (table : CodeTable) (child : TableColumn E) :
    Except VortexRdfError (Option (TableColumn E) × Option ColumnZones) :=
  let slot := zonedSlot table child.name
  match compressIntChild child.sorted child.column (.start (decide (slot = some .g))) with
  | .error error => .error error
  | .ok (none, _) => .ok (none, none)
  | .ok (some encoded, zones) =>
    (finishedZones slot zones child.column.len).map fun map =>
      (some { child with
        column := encoded
        shared := child.shared || (table.shared && !encoded.isPrimitive) }, map)

def QuadZones.set (zones : QuadZones) (slot : QuadColumn) (map : ColumnZones) : QuadZones :=
  fun other => if other = slot then some map else zones other

/-- A column's zone map recorded as its slot's. -/
def recordedAs (slot : Option QuadColumn) (map : Option ColumnZones) (zones : QuadZones) : QuadZones :=
  match slot, map with
  | some slot, some map => zones.set slot map
  | _, _ => zones

/-- The columns one after another, each beside what it is replaced by. -/
def compressColumns (table : CodeTable) : List (TableColumn E) → QuadZones →
    Except VortexRdfError (List (Option (TableColumn E) × TableColumn E) × QuadZones)
  | [], zones => .ok ([], zones)
  | child :: children, zones =>
    match compressedChild table child with
    | .error error => .error error
    | .ok (built, map) =>
      (compressColumns table children (recordedAs (zonedSlot table child.name) map zones)).map
        fun rest => ((built, child) :: rest.1, rest.2)

/-- A struct of columns of one length. -/
def tryNewStruct (columns : List (TableColumn E)) (len : ℕ) : Except VortexRdfError (TableRows E) :=
  if ∀ child ∈ columns, child.column.len = len then .ok ⟨false, len, columns⟩ else .error .vortex

/-- The columns in their places, if any was replaced. -/
def mapStructChildren (rows : TableRows E) (built : List (Option (TableColumn E) × TableColumn E)) :
    Except VortexRdfError (TableRows E) :=
  if built.any fun child => child.1.isSome then
    tryNewStruct (built.map fun child => child.1.getD child.2) rows.len
  else .ok rows

def withCompressedIntChildren (rows : TableRows E) (table : CodeTable) :
    Except VortexRdfError (TableRows E × QuadZones) :=
  if rows.nullable then .ok (rows, fun _ => none)
  else
    match compressColumns table rows.columns (fun _ => none) with
    | .error error => .error error
    | .ok (built, zones) => (mapStructChildren rows built).map fun rows => (rows, zones)

/-! ### What a column may be -/

namespace Column

mutual

/-- A column whose chunks are of its type, and whose codes are of 64 bits. -/
def WellTyped : Column E → Prop
  | .primitive ptype _ values => ptype = .u64 → ∀ v ∈ values, v ≤ TERM_CODE_MAX
  | .chunked dtype chunks => ChunksTyped dtype chunks
  | .constant _ _ => True
  | .runEnd _ => True
  | .bitPacked _ _ => True
  | .other _ _ => True

def ChunksTyped (dtype : FieldType) : List (Column E) → Prop
  | [] => True
  | chunk :: chunks => chunk.dtype = dtype ∧ chunk.WellTyped ∧ ChunksTyped dtype chunks

end

mutual

/-- The values of the arrays that are compressed. -/
def foldedIn : Column E → List ℕ
  | .primitive ptype nullability values =>
    if passedBy (.primitive ptype nullability) || decide (ptype ≠ .u64) then [] else values
  | .chunked dtype chunks => if passedBy dtype then [] else chunksFoldedIn chunks
  | .constant _ _ => []
  | .runEnd _ => []
  | .bitPacked _ _ => []
  | .other _ _ => []

def chunksFoldedIn : List (Column E) → List ℕ
  | [] => []
  | chunk :: chunks => chunk.foldedIn ++ chunksFoldedIn chunks

end

mutual

/-- The arrays that are left as they are. -/
def leftAlone : Column E → List (Column E)
  | .primitive ptype nullability values =>
    if passedBy (.primitive ptype nullability) || decide (ptype ≠ .u64) then
      [.primitive ptype nullability values]
    else []
  | .chunked dtype chunks =>
    if passedBy dtype then [.chunked dtype chunks] else chunksLeftAlone chunks
  | .constant value len => [.constant value len]
  | .runEnd encoded => [.runEnd encoded]
  | .bitPacked width packed => [.bitPacked width packed]
  | .other dtype values => [.other dtype values]

def chunksLeftAlone : List (Column E) → List (Column E)
  | [] => []
  | chunk :: chunks => chunk.leftAlone ++ chunksLeftAlone chunks

end

/-- What a column may be compressed into: an array by an encoding that holds its values, a
chunked column chunk by chunk. -/
inductive Encodes : Column E → Column E → Prop where
  | leftAlone (column : Column E) : Encodes column column
  | constant (value len : ℕ) :
      Encodes (.primitive .u64 .nonNullable (List.replicate len value)) (.constant value len)
  | runEnd {values : List ℕ} {encoded : E.RunEnd} (decoded : E.runEndDecode encoded = values) :
      Encodes (.primitive .u64 .nonNullable values) (.runEnd encoded)
  | bitPacked {values : List ℕ} {width : ℕ} {packed : E.BitPacked}
      (holds : ∀ v ∈ values, v < 2 ^ width) (decoded : E.bitUnpack packed = values) :
      Encodes (.primitive .u64 .nonNullable values) (.bitPacked width packed)
  | chunked {dtype : FieldType} {chunks built : List (Column E)}
      (each : List.Forall₂ Encodes chunks built) : Encodes (.chunked dtype chunks) (.chunked dtype built)

end Column

end Store
