/-
The JS read model: terms read from a spelling, over codes or over packed bytes.

A JS string is its UTF-16 units.

* `slice`, `lastIndexOf`, `parseHex`, `fromCodePoint` — the string functions it uses;
* `unescape`, `parseNt` — the parser of stored spellings;
* `LazyDict.decode`, `ntAt` — the spelling at a row, from a code or from bytes;
* `LazyTerm`, `LazyQuad` — their getters and `equals`;
* `TermColumns`, `Payload`, `buildLazyQuads` — the payloads the rows come in.
-/
import VortexRdf.CodeRows
import VortexRdf.Programs
import VortexRdf.TermLookups
import VortexRdf.TextDecoding

namespace LazyRdf

open Dictionary Programs Store Terms

/-! ### JS strings -/

/-- A JS string, as its units. -/
abbrev Units : Type := List UInt16

/-- The units of a literal text. -/
def units (text : String) : Units := Utf16.utf16 text.toList

/-- What is thrown. -/
inductive JsError where
  | typeError
  | rangeError
  deriving DecidableEq

/-- An index that may count from the end, inside the string. -/
def clampIndex (len : ℕ) (i : ℤ) : ℕ := if i < 0 then (len + i).toNat else min i.toNat len

def slice (s : Units) (start stop : ℤ) : Units :=
  (s.take (clampIndex s.length stop)).drop (clampIndex s.length start)

def sliceFrom (s : Units) (start : ℤ) : Units := s.drop (clampIndex s.length start)

/-- `lastIndexOf` of one unit. -/
def lastIndexOf (s : Units) (u : UInt16) : ℤ :=
  match s.reverse.findIdx? (· == u) with
  | some i => s.length - 1 - i
  | none => -1

/-- White space and line ends, which a number may have before it. -/
def WHITE : Units :=
  [0x9, 0xa, 0xb, 0xc, 0xd, 0x20, 0xa0, 0x1680, 0x2000, 0x2001, 0x2002, 0x2003, 0x2004, 0x2005, 0x2006,
    0x2007, 0x2008, 0x2009, 0x200a, 0x2028, 0x2029, 0x202f, 0x205f, 0x3000, 0xfeff]

def hexDigit (u : UInt16) : Option ℕ := if u < 0x80 then toDigit u.toUInt8 else none

/-- The sign before a number, if it has one. -/
def unsigned (s : Units) : Units := if s.head? = some 0x2d ∨ s.head? = some 0x2b then s.drop 1 else s

/-- `0x` before a hexadecimal number, if it has one. -/
def unprefixed (s : Units) : Units :=
  if s.take 2 = [0x30, 0x78] ∨ s.take 2 = [0x30, 0x58] then s.drop 2 else s

def digitsValue (digits : Units) : ℕ := digits.foldl (fun value u => value * 16 + (hexDigit u).getD 0) 0

/-- `parseInt(s, 16)`, none for a string that starts no number. -/
def parseHex (s : Units) : Option ℤ :=
  let s := s.dropWhile (WHITE.elem ·)
  let digits := (unprefixed (unsigned s)).takeWhile fun u => (hexDigit u).isSome
  let value : ℤ := digitsValue digits
  if digits = [] then none
  else if s.head? = some 0x2d then some (-value)
  else some value

/-- `String.fromCharCode`: a number cut to 16 bits, none as 0. -/
def fromCharCode (n : Option ℤ) : Units := [UInt16.ofNat (n.getD 0 % 65536).toNat]

/-- `String.fromCodePoint`: a number that is a code point, even a surrogate's. -/
def fromCodePoint : Option ℤ → Except JsError Units
  | none => .error .rangeError
  | some n =>
    if n < 0 ∨ 0x10ffff < n then .error .rangeError
    else if n < 0x10000 then .ok [UInt16.ofNat n.toNat]
    else .ok [UInt16.ofNat (0xd800 + (n.toNat - 0x10000) / 0x400),
      UInt16.ofNat (0xdc00 + (n.toNat - 0x10000) % 0x400)]

/-! ### The parser -/

def QUOTE_UNIT : UInt16 := 0x22

def BACKSLASH_UNIT : UInt16 := 0x5c

/-- What the letter after a backslash stands for; a quote, a backslash and any other letter
stand for themselves. -/
def letterEscape (n : UInt16) : UInt16 :=
  if n = 0x74 then 0x09
  else if n = 0x6e then 0x0a
  else if n = 0x72 then 0x0d
  else if n = 0x62 then 0x08
  else if n = 0x66 then 0x0c
  else n

/-- The units from one on, a turn for each unit or escape. -/
def unescapeLoop : ℕ → Units → Except JsError Units
  | 0, _ => .ok []
  | _ + 1, [] => .ok []
  | fuel + 1, ch :: rest =>
    if ch ≠ BACKSLASH_UNIT then (unescapeLoop fuel rest).map (ch :: ·)
    else
      match rest with
      | [] => .ok (units "undefined")
      | n :: rest =>
        if n = 0x75 then
          (unescapeLoop fuel (rest.drop 4)).map (fromCharCode (parseHex (rest.take 4)) ++ ·)
        else if n = 0x55 then do
          let point ← fromCodePoint (parseHex (rest.take 8))
          (unescapeLoop fuel (rest.drop 8)).map (point ++ ·)
        else (unescapeLoop fuel rest).map (letterEscape n :: ·)

def unescape (lex : Units) : Except JsError Units :=
  if BACKSLASH_UNIT ∈ lex then unescapeLoop (lex.length + 1) lex else .ok lex

inductive TermType where
  | defaultGraph
  | namedNode
  | blankNode
  | literal
  deriving DecidableEq

/-- A parsed term; its datatype is the value of a named node. -/
structure Parsed where
  termType : TermType
  value : Units
  language : Option Units
  datatype : Option Units
  deriving DecidableEq

def XSD_STRING_UNITS : Units := units "http://www.w3.org/2001/XMLSchema#string"

def RDF_LANG_STRING_UNITS : Units := units "http://www.w3.org/1999/02/22-rdf-syntax-ns#langString"

/-- What follows the closing quote. -/
def literalParts (value rest : Units) : Parsed :=
  if rest.head? = some 0x40 then ⟨.literal, value, some (sliceFrom rest 1), some RDF_LANG_STRING_UNITS⟩
  else if (units "^^<").isPrefixOf rest then ⟨.literal, value, some [], some (slice rest 3 (-1))⟩
  else ⟨.literal, value, some [], some XSD_STRING_UNITS⟩

/-- A canonical term parsed; a literal's closing quote is the last one. -/
def parseNt (nt : Units) : Except JsError Parsed :=
  match nt.head? with
  | none => .ok ⟨.defaultGraph, [], none, none⟩
  | some c =>
    if c = 0x3c then .ok ⟨.namedNode, slice nt 1 (-1), none, none⟩
    else if c = 0x5f then .ok ⟨.blankNode, sliceFrom nt 2, none, none⟩
    else
      (unescape (slice nt 1 (lastIndexOf nt QUOTE_UNIT))).map fun value =>
        literalParts value (sliceFrom nt (lastIndexOf nt QUOTE_UNIT + 1))

/-! ### Columns -/

/-- A LazyDict, by what tells it from another. -/
abbrev DictId : Type := ℕ

/-- The strings each LazyDict has decoded. -/
abbrev Caches : Type := DictId → ℕ → Option Units

abbrev Getting (α : Type) : Type := Prog JsError Caches α

/-- The codes a JS number holds exactly. -/
def MAX_SAFE_INTEGER : ℕ := 2 ^ 53 - 1

/-- `TermDict.decode`: the term of a code, as a JS string. -/
def termDictDecode (dict : TermDictionary) (code : ℕ) : Except JsError (Option Units) :=
  if code ≤ MAX_SAFE_INTEGER then .ok ((dict.decode code).map fun t => Utf16.utf16 (Utf8.decode t))
  else .error .typeError

/-- What each LazyDict wraps. -/
abbrev Dicts : Type := DictId → TermDictionary

def cached (caches : Caches) (dict : DictId) (code : ℕ) (s : Option Units) : Caches :=
  fun d c => if d = dict ∧ c = code then s else caches d c

/-- A code's string: the one kept, else the dictionary's, which is kept. -/
def LazyDict.decode (dicts : Dicts) (dict : DictId) (code : ℕ) : Getting (Option Units) := fun caches =>
  match caches dict code with
  | some s => (.ok (some s), caches)
  | none =>
    match termDictDecode (dicts dict) code with
    | .ok s => (.ok s, cached caches dict code s)
    | .error error => (.error error, caches)

/-- A column: codes over a dictionary, or packed bytes with each row's offset. -/
inductive Col where
  | coded (dict : DictId) (codes : List ℕ)
  | packed (offsets : List ℕ) (bytes : Str)

/-- A byte order mark at the start is not decoded. -/
def withoutMark (bytes : Str) : Str := if bytes.take 3 = [0xef, 0xbb, 0xbf] then bytes.drop 3 else bytes

/-- `TextDecoder.decode` -/
def textDecoder (bytes : Str) : Units := Utf16.utf16 (Utf8.decode (withoutMark bytes))

/-- The bytes of a row; a missing bound is an end of the array. -/
def rowBytes (offsets : List ℕ) (bytes : Str) (i : ℕ) : Str :=
  (bytes.take (offsets.getD (i + 1) bytes.length)).drop (offsets.getD i 0)

variable (dicts : Dicts)

/-- The spelling at a row; a code that is missing is no number. -/
def ntAt (col : Col) (i : ℕ) : Getting (Option Units) :=
  match col with
  | .coded dict codes =>
    match codes[i]? with
    | some code => LazyDict.decode dicts dict code
    | none => Prog.lift (.error .typeError)
  | .packed offsets bytes => pure (some (textDecoder (rowBytes offsets bytes i)))

/-! ### Terms -/

/-- A term at a row of a column, with its parse where it was read before. -/
structure LazyTerm where
  col : Col
  i : ℕ
  p : Option Parsed

namespace LazyTerm

/-- The parse of a spelling; one that is missing is no string. -/
def parsedAt : Option Units → Except JsError Parsed
  | some nt => parseNt nt
  | none => .error .typeError

def parsed (x : LazyTerm) : Getting Parsed :=
  match x.p with
  | some p => pure p
  | none => do
    let nt ← ntAt dicts x.col x.i
    Prog.lift (parsedAt nt)

def termType (x : LazyTerm) : Getting TermType := do
  let p ← x.parsed dicts
  return p.termType

def value (x : LazyTerm) : Getting Units := do
  let p ← x.parsed dicts
  return p.value

def language (x : LazyTerm) : Getting Units := do
  let p ← x.parsed dicts
  return p.language.getD []

def datatype (x : LazyTerm) : Getting (Option Units) := do
  let p ← x.parsed dicts
  return p.datatype

/-- The codes of two terms over one dictionary. -/
def sharedCodes (x other : LazyTerm) : Option (Option ℕ × Option ℕ) :=
  match x.col, other.col with
  | .coded dict codes, .coded dict' codes' =>
    if dict' = dict then some (codes'[other.i]?, codes[x.i]?) else none
  | _, _ => none

/-- The parts compared, in order, up to the first that differs. -/
def equalParts (x other : LazyTerm) : Getting Bool := do
  let theirType ← other.termType dicts
  let ourType ← x.termType dicts
  if theirType ≠ ourType then return false
  else do
    let theirValue ← other.value dicts
    let ourValue ← x.value dicts
    if theirValue ≠ ourValue then return false
    else do
      let ourType ← x.termType dicts
      if ourType ≠ .literal then return true
      else do
        let ourLanguage ← x.language dicts
        let theirLanguage ← other.language dicts
        if ourLanguage ≠ theirLanguage then return false
        else do
          let ourDatatype ← x.datatype dicts
          let theirDatatype ← other.datatype dicts
          return decide (theirDatatype = ourDatatype)

def equals (x other : LazyTerm) : Getting Bool :=
  match sharedCodes x other with
  | some (code, code') => pure (decide (code = code'))
  | none => x.equalParts dicts other

end LazyTerm

/-! ### Quads -/

/-- Four columns. -/
structure Cols where
  s : Col
  p : Col
  o : Col
  g : Col

structure LazyQuad where
  cols : Cols
  i : ℕ

namespace LazyQuad

def subject (q : LazyQuad) : LazyTerm := ⟨q.cols.s, q.i, none⟩

def predicate (q : LazyQuad) : LazyTerm := ⟨q.cols.p, q.i, none⟩

def object (q : LazyQuad) : LazyTerm := ⟨q.cols.o, q.i, none⟩

def graph (q : LazyQuad) : LazyTerm := ⟨q.cols.g, q.i, none⟩

def equals (q other : LazyQuad) : Getting Bool := do
  let subjects ← q.subject.equals dicts other.subject
  if subjects then do
    let predicates ← q.predicate.equals dicts other.predicate
    if predicates then do
      let objects ← q.object.equals dicts other.object
      if objects then q.graph.equals dicts other.graph
      else return false
    else return false
  else return false

end LazyQuad

/-! ### Payloads -/

/-- A packed column: the offsets, seeded with a leading 0, and the bytes. -/
structure TermColumn where
  offsets : List ℕ
  bytes : Str

def TermColumn.new : TermColumn := ⟨[0], []⟩

/-- A term appended; an offset is a `u32`. -/
def TermColumn.push (column : TermColumn) (term : Str) : TermColumn :=
  ⟨column.offsets ++ [(column.bytes ++ term).length % 2 ^ 32], column.bytes ++ term⟩

structure TermColumns where
  s : TermColumn
  p : TermColumn
  o : TermColumn
  g : TermColumn

namespace TermColumns

def new : TermColumns := ⟨.new, .new, .new, .new⟩

def push (columns : TermColumns) (row : SharedQuad) : TermColumns :=
  ⟨columns.s.push row.s, columns.p.push row.p, columns.o.push row.o, columns.g.push row.g⟩

def rows (columns : TermColumns) : ℕ := columns.s.offsets.length - 1

end TermColumns

/-- What a match hands over: columns of codes with their LazyDict, or packed columns. -/
inductive Payload where
  | codes (dict : DictId) (length : ℕ) (s p o g : List ℕ)
  | terms (columns : TermColumns)

namespace Payload

def length : Payload → ℕ
  | codes _ length _ _ _ _ => length
  | terms columns => columns.rows

def normalize : Payload → Cols
  | codes dict _ s p o g => ⟨.coded dict s, .coded dict p, .coded dict o, .coded dict g⟩
  | terms columns =>
    ⟨.packed columns.s.offsets columns.s.bytes, .packed columns.p.offsets columns.p.bytes,
      .packed columns.o.offsets columns.o.bytes, .packed columns.g.offsets columns.g.bytes⟩

end Payload

def buildLazyQuads (payload : Payload) : List LazyQuad :=
  (List.range payload.length).map fun i => ⟨payload.normalize, i⟩

end LazyRdf
