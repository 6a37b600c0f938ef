/-
Spellings taken apart for a predicate.

* `Verdict`, `NumOp` — a predicate's three-valued answer, and the numeric operators;
* `LiteralView` — a literal's lexical form, language tag and datatype;
* `Kind`, `kindOf` — the kind of a term, from its spelling's first byte;
* `langMatches` — basic language filtering, decided on plain tags and ranges only.
-/
import VortexRdf.Terms

namespace Dictionary

open Terms

def XSD : Str := utf8 "http://www.w3.org/2001/XMLSchema#".toList

def RDF_LANG_STRING : Str :=
  utf8 "http://www.w3.org/1999/02/22-rdf-syntax-ns#langString".toList

/-- The three-valued answer of a predicate for one term. -/
inductive Verdict where
  | true
  | false
  | unknown
  deriving DecidableEq

def Verdict.ofBool (b : Bool) : Verdict := if b then .true else .false

inductive NumOp where
  | lt
  | le
  | gt
  | ge
  | eq
  | ne
  deriving DecidableEq

/-- The verdict for an ordering of the term against the constant. -/
def NumOp.apply (op : NumOp) (ord : Ordering) : Verdict :=
  Verdict.ofBool <| match op with
    | .lt => ord == .lt
    | .le => ord != .gt
    | .gt => ord == .gt
    | .ge => ord != .lt
    | .eq => ord == .eq
    | .ne => ord != .eq

def stripSuffix (pat s : Str) : Option Str :=
  if pat.isSuffixOf s then some (s.take (s.length - pat.length)) else none

def toAsciiUppercase (b : UInt8) : UInt8 := if 0x61 ≤ b ∧ b ≤ 0x7a then b - 0x20 else b

def isAscii (s : Str) : Bool := s.all (· < 0x80)

def isAsciiDigit (b : UInt8) : Bool := 0x30 ≤ b && b ≤ 0x39

def isAsciiAlphanumeric (b : UInt8) : Bool :=
  isAsciiDigit b || (0x41 ≤ b && b ≤ 0x5a) || (0x61 ≤ b && b ≤ 0x7a)

/-! ### Literals -/

structure LiteralView where
  /-- The lexical form as spelled. -/
  rawLexical : Str
  lang : Option Str
  datatype : Option Str

namespace LiteralView

def parse (spelling : Str) : Option LiteralView :=
  match splitLiteral spelling with
  | none => none
  | some (.simple value) => some ⟨value, none, none⟩
  | some (.language value lang) => some ⟨value, some lang, none⟩
  | some (.typed value datatype) =>
    ((stripPrefix [0x3c] datatype).bind (stripSuffix [0x3e])).map fun dt => ⟨value, none, some dt⟩

/-- The lexical form, none for a malformed escape. -/
def lexical (lit : LiteralView) : Option Str := unescape lit.rawLexical .strict

def effectiveDatatype (lit : LiteralView) : Str :=
  match lit.lang, lit.datatype with
  | some _, _ => RDF_LANG_STRING
  | none, some dt => dt
  | none, none => XSD_STRING.iri

def isStringLike (lit : LiteralView) : Bool :=
  lit.lang.isSome || match lit.datatype with
    | none => true
    | some dt => dt == XSD_STRING.iri

end LiteralView

inductive Kind where
  | literal
  | iri
  | blank
  | other
  deriving DecidableEq

/-- The kind a spelling's first byte gives it. -/
def kindOf (spelling : Str) : Kind :=
  match spelling with
  | [] => .other
  | b :: _ => if b = QUOTE then .literal else if b = 0x3c then .iri else if b = 0x5f then .blank
    else .other

def langMatches (tag range : Str) : Verdict :=
  let plain := fun s : Str => s.all fun b => isAsciiAlphanumeric b || b == 0x2d
  if range = [0x2a] then Verdict.ofBool (!tag.isEmpty)
  else if !plain range || !plain tag then .unknown
  else Verdict.ofBool (decide (range.length ≤ tag.length) &&
    (tag.take range.length).map toAsciiLowercase == range.map toAsciiLowercase &&
    (tag[range.length]?).all (· == 0x2d))

end Dictionary
