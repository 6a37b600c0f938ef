/-
The RDF terms and quads of JavaScript values, as the bindings read them.

A value is read by its properties; an object is told by its identity, its properties kept
in a heap.  Each position of a quad has one validating constructor.

* `JsString`, `JsValue`, `Heap` — the values, and the properties of objects;
* `JsValue.isFalsy`, `member`, `getProp`, `asString` — how the two languages look at them;
* `TermKind`, `subject`, `predicate`, `object`, `graph` — the constructors;
* `termParts`, `literalParts`, `jsToQuad` — the reader of single quads.
-/
import VortexRdf.Oxrdf
import VortexRdf.Utf16

namespace Js

open Utf16 (chars utf16)
open Terms

/-! ### Values -/

/-- A string of any units whose text fits the 32-bit memory it is read into. -/
structure JsString where
  units : List UInt16
  fits : (Utf16.utf8 (chars units)).length < 2 ^ 32
  deriving DecidableEq

/-- A JavaScript value; a number is its double's bits. -/
inductive JsValue where
  | undefined
  | null
  | boolean (b : Bool)
  | number (bits : UInt64)
  | string (s : JsString)
  | object (id : ℕ)
  | function (id : ℕ)
  deriving DecidableEq

/-- The properties that are read. -/
inductive Key where
  | termType
  | value
  | language
  | datatype
  | subject
  | predicate
  | object
  | graph
  deriving DecidableEq

/-- What each object and each function has for a property, `undefined` where it has none. -/
abbrev Heap := ℕ → Key → JsValue

namespace JsValue

def isNullish : JsValue → Bool
  | undefined => true
  | null => true
  | _ => false

/-- Zero of either sign, or no number. -/
def isZeroOrNaN (bits : UInt64) : Bool :=
  decide (bits.toNat % 2 ^ 63 = 0 ∨ 0x7ff0000000000000 < bits.toNat % 2 ^ 63)

def isFalsy : JsValue → Bool
  | undefined => true
  | null => true
  | boolean b => !b
  | number bits => isZeroOrNaN bits
  | string s => s.units.isEmpty
  | object _ => false
  | function _ => false

/-- `typeof` is `'object'`, and the value is not null. -/
def isObject : JsValue → Bool
  | object _ => true
  | _ => false

/-- Strict equality with a string. -/
def isText (v : JsValue) (text : String) : Bool :=
  match v with
  | string s => decide (s.units = utf16 text.toList)
  | _ => false

/-- The value as a Rust string. -/
def asString : JsValue → Option (List Char)
  | string s => some (chars s.units)
  | _ => none

end JsValue

/-- `v.key` of a value that is not null or undefined; a primitive has none of these. -/
def member (heap : Heap) (v : JsValue) (key : Key) : JsValue :=
  match v with
  | .object id => heap id key
  | .function id => heap id key
  | _ => .undefined

/-- A property read by reflection, which a primitive refuses. -/
def getProp (heap : Heap) (v : JsValue) (key : Key) : Option JsValue :=
  match v with
  | .object id => some (heap id key)
  | .function id => some (heap id key)
  | _ => none

/-! ### The validated constructors -/

inductive TermKind where
  | namedNode
  | blankNode
  | simpleLiteral
  | langLiteral
  | typedLiteral
  | defaultGraph
  deriving DecidableEq

def TermKind.tag : TermKind → UInt8
  | namedNode => 0
  | blankNode => 1
  | simpleLiteral => 2
  | langLiteral => 3
  | typedLiteral => 4
  | defaultGraph => 5

def TermKind.fromTag (tag : UInt8) : Option TermKind :=
  if tag = 0 then some namedNode
  else if tag = 1 then some blankNode
  else if tag = 2 then some simpleLiteral
  else if tag = 3 then some langLiteral
  else if tag = 4 then some typedLiteral
  else if tag = 5 then some defaultGraph
  else none

def TermKind.hasValue (kind : TermKind) : Bool := decide (kind ≠ defaultGraph)

def TermKind.hasExtra (kind : TermKind) : Bool := decide (kind = langLiteral ∨ kind = typedLiteral)

variable (ox : Oxrdf)

def newNamedNode (value : Str) : Option NamedNode :=
  if ox.iriError value = none then some ⟨value⟩ else none

def newBlankNode (value : Str) : Option BlankNode :=
  if ox.blankNodeError value = none then some ⟨value⟩ else none

def newLanguageTagged (value language : Str) : Option Literal :=
  match ox.languageTag language with
  | .ok tag => some (.languageTagged value tag)
  | .error _ => none

def subject (kind : TermKind) (value _extra : Str) : Option NamedOrBlankNode :=
  match kind with
  | .namedNode => (newNamedNode ox value).map .namedNode
  | .blankNode => (newBlankNode ox value).map .blankNode
  | _ => none

def predicate (kind : TermKind) (value _extra : Str) : Option NamedNode :=
  match kind with
  | .namedNode => newNamedNode ox value
  | _ => none

def object (kind : TermKind) (value extra : Str) : Option Term :=
  match kind with
  | .namedNode => (newNamedNode ox value).map .namedNode
  | .blankNode => (newBlankNode ox value).map .blankNode
  | .simpleLiteral => some (.literal (.simple value))
  | .langLiteral => (newLanguageTagged ox value extra).map .literal
  | .typedLiteral => (newNamedNode ox extra).map fun datatype => .literal (.newTyped value datatype)
  | .defaultGraph => none

def graph (kind : TermKind) (value _extra : Str) : Option GraphName :=
  match kind with
  | .namedNode => (newNamedNode ox value).map .namedNode
  | .blankNode => (newBlankNode ox value).map .blankNode
  | .defaultGraph => some .defaultGraph
  | _ => none

/-! ### The reader of single quads -/

/-- A term as the constructors take it: its kind, its value and its extra. -/
abbrev TermParts := TermKind × Str × Str

def DEFAULT_GRAPH : TermParts := (.defaultGraph, [], [])

def termTypeOf (heap : Heap) (v : JsValue) : Option (List Char) :=
  (getProp heap v .termType).bind JsValue.asString

/-- A language or a datatype's IRI, judged by truthiness: `none` for a truthy value that is
no string, `some none` for one that is absent. -/
def literalExtra : Option JsValue → Option (Option Str)
  | none => some none
  | some v =>
    match v.asString with
    | some text => some (if text.isEmpty then none else some (utf8 text))
    | none => if v.isFalsy then some none else none

/-- The IRI of a literal's datatype. -/
def datatypeIri (heap : Heap) (datatype : JsValue) : Option (Option Str) :=
  if datatype.isObject then literalExtra (getProp heap datatype .value)
  else if datatype.isFalsy then some none
  else none

def literalParts (heap : Heap) (v : JsValue) : Option TermParts := do
  let value ← (← getProp heap v .value).asString
  match ← literalExtra (getProp heap v .language) with
  | some language => return (.langLiteral, utf8 value, language)
  | none =>
    match ← datatypeIri heap (← getProp heap v .datatype) with
    | some iri => return (.typedLiteral, utf8 value, iri)
    | none => return (.simpleLiteral, utf8 value, [])

/-- A term of a kind that has a value and no extra. -/
def valueParts (heap : Heap) (v : JsValue) (kind : TermKind) : Option TermParts := do
  let value ← (← getProp heap v .value).asString
  return (kind, utf8 value, [])

def termParts (heap : Heap) (v : JsValue) : Option TermParts :=
  if v.isNullish then some DEFAULT_GRAPH
  else
    match termTypeOf heap v with
    | none => none
    | some termType =>
      if termType = "NamedNode".toList then valueParts heap v .namedNode
      else if termType = "BlankNode".toList then valueParts heap v .blankNode
      else if termType = "Literal".toList then literalParts heap v
      else if termType = "DefaultGraph".toList then some DEFAULT_GRAPH
      else none

/-- One field of a quad object, built by its position's constructor. -/
def quadTerm {T : Type} (heap : Heap) (quad : JsValue) (field : Key)
    (build : TermKind → Str → Str → Option T) : Option T := do
  let (kind, value, extra) ← termParts heap (← getProp heap quad field)
  build kind value extra

def jsToQuad (heap : Heap) (v : JsValue) : Option Quad := do
  let s ← quadTerm heap v .subject (subject ox)
  let p ← quadTerm heap v .predicate (predicate ox)
  let o ← quadTerm heap v .object (object ox)
  let g ← quadTerm heap v .graph (graph ox)
  return ⟨s, p, o, g⟩

end Js
