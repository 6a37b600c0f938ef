/-
The append tail and its row keys.

Rows appended since the store was built are held apart, in one of the string
layouts, with a hash of each row's values in the columns every fully bound pattern
constrains.  The hashes are kept in sorted runs.

* `Row`, `unmaskedFieldByName` — the rows of a tail, and a column of them;
* `TailKeys.of`, `TailKeys.extended`, `TailKeys.candidates` — the keys;
* `Tail` — the rows with a selection and tombstones, and `Tail.append`;
* `tailRowsHolding`, `Tail.matchTail` — the match of a pattern on a tail.

`none` stands for an error of the array library or a panic.  What the hasher makes
of what is written to it is a parameter, and so is the shape the array library
holds a column in (`ArrayShape`).
-/
import VortexRdf.SortedRuns
import VortexRdf.Gather
import VortexRdf.Patterns

namespace Store

open Terms Masks MaskOps Ascending SortedRuns

/-! ### Rows -/

/-- A row of the typed layout; its object's parts are those of a term. -/
structure TypedRow where
  s : Str
  p : Str
  object : TypedObject
  g : Str
  decomposed : ∃ term, object = decomposeObject term

def Row : StringLayout → Type
  | .default => RawQuad
  | .typedObject => TypedRow

def StringLayout.columns : StringLayout → List ColumnName
  | default => [.s, .p, .o, .g]
  | typedObject => [.s, .p, .oKind, .oValue, .oDatatype, .oLang, .g]

def ColumnName.isUnsignedInt : ColumnName → Bool
  | oKind => true
  | _ => false

def ColumnName.isNullable : ColumnName → Bool
  | oDatatype => true
  | oLang => true
  | _ => false

def nullable : Option Str → Scalar
  | some text => .str text
  | none => .null

/-- The value a row holds in a column. -/
def Row.field : {layout : StringLayout} → Row layout → ColumnName → Scalar
  | .default, row, column =>
    match column with
    | .s => .str (RawQuad.s row)
    | .p => .str (RawQuad.p row)
    | .o => .str (RawQuad.o row)
    | .g => .str (RawQuad.g row)
    | _ => .null
  | .typedObject, row, column =>
    match column with
    | .s => .str (TypedRow.s row)
    | .p => .str (TypedRow.p row)
    | .oKind => .num (TypedRow.object row).kind
    | .oValue => .str (TypedRow.object row).value
    | .oDatatype => nullable (TypedRow.object row).datatype
    | .oLang => nullable (TypedRow.object row).lang
    | .g => .str (TypedRow.g row)
    | .o => .null

variable {layout : StringLayout}

def unmaskedFieldByName (rows : List (Row layout)) (name : ColumnName) : Option (List Scalar) :=
  if name ∈ layout.columns then some (rows.map fun row => row.field name) else none

/-! ### Row keys -/

/-- A write to the hasher. -/
inductive HasherWrite where
  | u8 (n : ℕ)
  | u64 (n : ℕ)
  | bytes (b : Str)
  deriving DecidableEq

inductive KeyValue where
  | str (bytes : Str)
  | num (n : ℕ)
  deriving DecidableEq

def KeyValue.hashInto : KeyValue → List HasherWrite → List HasherWrite
  | str bytes, hasher => hasher ++ [.u8 0, .u64 bytes.length, .bytes bytes]
  | num n, hasher => hasher ++ [.u8 1, .u64 n]

/-- A key column's value read off an array, by the type of the column. -/
def KeyValue.ofColumn (name : ColumnName) : Scalar → KeyValue
  | .num n => .num n
  | .str bytes => .str bytes
  | .null => if name.isUnsignedInt then .num 0 else .str []

/-- A key column's value read off an equality. -/
def KeyValue.ofScalar : Scalar → Option KeyValue
  | .num n => some (.num n)
  | .str bytes => some (.str bytes)
  | .null => none

/-- The columns every fully bound pattern constrains. -/
def keyColumns : StringLayout → List ColumnName
  | .default => [.s, .p, .o, .g]
  | .typedObject => [.s, .p, .oKind, .oValue, .g]

/-- The hashers of every row with one more column written to them. -/
def hashColumn (rows : List (Row layout)) (hashers : List (List HasherWrite))
    (name : ColumnName) : Option (List (List HasherWrite)) :=
  (unmaskedFieldByName rows name).map fun field =>
    hashers.zipWith (fun hasher value => (KeyValue.ofColumn name value).hashInto hasher) field

/-- What the hasher makes of the writes to it. -/
abbrev Finish := List HasherWrite → ℕ

variable (finish : Finish)

def rowKeys (rows : List (Row layout)) (columns : List ColumnName) : Option (List ℕ) :=
  (columns.foldlM (hashColumn rows) (List.replicate rows.length [])).map fun hashers =>
    hashers.map finish

abbrev KeyRun := List (ℕ × RowId)

/-- Keys and rows in the order of pairs. -/
def keyLe (a b : ℕ × RowId) : Bool := a.1 < b.1 || (a.1 == b.1 && a.2 ≤ b.2)

structure TailKeys where
  columns : List ColumnName
  runs : List KeyRun
  rows : ℕ

namespace TailKeys

def extended (keys : TailKeys) (fresh : List (Row layout)) : Option TailKeys :=
  (rowKeys finish fresh keys.columns).map fun hashes =>
    let run := (hashes.zipIdx keys.rows).mergeSort keyLe
    { keys with runs := push keyLe keys.runs run, rows := keys.rows + fresh.length }

def of (rows : List (Row layout)) : Option TailKeys :=
  extended finish ⟨keyColumns layout, [], 0⟩ rows

/-- The key some equalities give the key columns, if they constrain them all. -/
def equalityKey (columns : List ColumnName) (eqs : List Equality) : Option ℕ :=
  (columns.mapM fun column =>
    (eqs.find? fun eq => eq.1 == column).bind fun eq => KeyValue.ofScalar eq.2).map fun values =>
      finish (values.foldl (fun hasher value => value.hashInto hasher) [])

def candidates (keys : TailKeys) (eqs : List Equality) : Option (List RowId) :=
  (equalityKey finish keys.columns eqs).map fun key =>
    (keys.runs.flatMap fun run => (equalRange Prod.fst key run).map Prod.snd).mergeSort (· ≤ ·)

end TailKeys

/-! ### The tail -/

structure Tail (M : Type*) (layout : StringLayout) where
  rows : List (Row layout)
  selection : RowSelection
  deleted : Option M
  keys : TailKeys

section Masked

variable {M : Type*} [MaskOps M]

def unionDeleted [MaskUnion M] (existing : Option M) (doomed : M) : M :=
  match existing with
  | some existing => MaskUnion.union existing doomed
  | none => doomed

namespace Tail

def new (rows : List (Row layout)) : Option (Tail M layout) :=
  (TailKeys.of finish rows).map fun keys => ⟨rows, .all, none, keys⟩

variable (t : Tail M layout)

def withSelection (selection : RowSelection) : Tail M layout := { t with selection }

def liveLen : ℕ := t.selection.liveLen t.deleted t.rows.length

def window (offset limit : ℕ) : Option (Tail M layout) :=
  (t.selection.window offset limit t.deleted t.rows.length).map t.withSelection

def tombstoned [MaskUnion M] (doomed : RowSelection) : Tail M layout :=
  { t with deleted := some (unionDeleted t.deleted (doomed.toMask t.rows.length)) }

/-- A tail's string columns have no probes. -/
def liveRows : Option (List (Row layout)) := gatherLive t.rows t.selection t.deleted false

/-- The live rows and the fresh ones behind them; their keys are extended where no
row is renumbered, and made again where one is. -/
def append (fresh : List (Row layout)) : Option (Tail M layout) :=
  match t.liveRows with
  | none => none
  | some old =>
    match t.deleted, t.selection with
    | none, .all => (t.keys.extended finish fresh).map fun keys => ⟨old ++ fresh, .all, none, keys⟩
    | _, _ => new finish (old ++ fresh)

end Tail

/-! ### Rows that hold equalities -/

/-- What the array library leaves open about an array: the columns held in a shape
the typed compare reads, and the bit a comparison with a null leaves. -/
structure ArrayShape where
  binds : ColumnName → Bool
  nullBit : ColumnName → ℕ → Bool

/-- A column bound to the value it is compared with. -/
structure TypedEq where
  values : List Scalar
  needle : Scalar

/-- An equality bound to a typed view of its column, if it has one. -/
def TypedEq.bindCol (shape : ArrayShape) (rows : List (Row layout)) (eq : Equality) :
    Option TypedEq :=
  match unmaskedFieldByName rows eq.1 with
  | none => none
  | some col =>
    if eq.1.isNullable then none
    else
      match eq.2 with
      | .num n => if eq.1.isUnsignedInt && shape.binds eq.1 then some ⟨col, .num n⟩ else none
      | .str text => if !eq.1.isUnsignedInt && shape.binds eq.1 then some ⟨col, .str text⟩ else none
      | .null => none

def TypedEq.holds (eq : TypedEq) (i : ℕ) : Bool := eq.values[i]? == some eq.needle

def typedPositions (shape : ArrayShape) (rows : List (Row layout)) (eqs : List Equality) :
    Option (List ℕ) :=
  if eqs = [] then none
  else
    (eqs.mapM (TypedEq.bindCol shape rows)).map fun cols =>
      (List.range rows.length).filter fun i => cols.all fun col => col.holds i

/-- A value as the type of a column. -/
def Scalar.castTo (column : ColumnName) : Scalar → Option Scalar
  | .num n => if column.isUnsignedInt ∧ n < 2 ^ 8 then some (.num n) else none
  | .str text => if column.isUnsignedInt then none else some (.str text)
  | .null => if column.isNullable then some .null else none

/-- The bits of a column compared with a value. -/
def eqBits (shape : ArrayShape) (name : ColumnName) (col : List Scalar) (value : Scalar) :
    List Bool :=
  col.zipIdx.map fun (cell, i) =>
    if cell = .null ∨ value = .null then shape.nullBit name i else cell == value

/-- The compares of `maskFor`, each intersected with those before it. -/
def maskLoop (shape : ArrayShape) (rows : List (Row layout)) :
    List Equality → Option (List Bool) → Option (Option (List Bool))
  | [], mask => some mask
  | eq :: eqs, mask =>
    match unmaskedFieldByName rows eq.1, eq.2.castTo eq.1 with
    | some col, some value =>
      let bits := eqBits shape eq.1 col value
      match mask with
      | some prev => maskLoop shape rows eqs (some (prev.zipWith (· && ·) bits))
      | none => maskLoop shape rows eqs (some bits)
    | _, _ => none

def maskFor (shape : ArrayShape) (rows : List (Row layout)) (eqs : List Equality) :
    Option (List Bool) :=
  (maskLoop shape rows eqs none).map fun mask => mask.getD (List.replicate rows.length true)

/-- A mask of the set bits of a boolean array. -/
def boolArrayToMask (bits : List Bool) : M :=
  fromIndices bits.length ((List.range bits.length).filter fun i => bits.getD i false)

def tailRowsHolding (M : Type*) [MaskOps M] (shape : ArrayShape) (rows : List (Row layout))
    (selection : RowSelection) (eqs : List Equality) : Option RowSelection :=
  if selection.isEmpty rows.length then some selection
  else
    match selection.apply rows with
    | none => none
    | some applied =>
      match typedPositions shape applied eqs with
      | some positions => selection.refine (fromIndices applied.length positions : M)
      | none => (maskFor shape applied eqs).bind fun bits =>
          selection.refine (boolArrayToMask bits : M)

/-- A tail narrowed to the rows that match a pattern: the selected rows compared, or
those the keys name where the pattern constrains every key column. -/
def Tail.matchTail (ox : Oxrdf) (shape : ArrayShape) (t : Tail M layout) (pattern : QuadPattern) :
    Option (Tail M layout) :=
  if t.selection.isEmpty t.rows.length then some (t.withSelection t.selection)
  else
    match layout.preparePattern.constraints ox pattern with
    | .error _ => none
    | .ok .alwaysFalse => some (t.withSelection .empty)
    | .ok (.eq eqs) =>
      if eqs = [] then some (t.withSelection t.selection)
      else
        let compared :=
          match t.keys.candidates finish eqs with
          | some candidates => .fromIds (candidates.filter t.selection.contains)
          | none => t.selection
        (tailRowsHolding M shape t.rows compared eqs).map t.withSelection

end Masked

end Store
