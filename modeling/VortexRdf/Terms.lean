/-
Term spellings, parsed and rendered.

The parsers of the store's N-Triples spellings over bytes, in the two trusts a
spelling may have, and the rendering of a quad into the spellings the columns
store.

* `findQuote`, `closingQuote` — the quote that ends a literal, found eight bytes
  at a time and told from an escaped one by the backslashes before it;
* `splitLiteral`, `unescape`, `literal`, `term`, `quadFromTerms` — the parsers;
* `RawQuad.fromQuad`, `pushSpelling`, `RawQuad.canonical`, `canonicalSpelling` —
  the renderings.
-/
import VortexRdf.Oxrdf
import VortexRdf.Swar

namespace Terms

open Swar

/-! ### Strings -/

def stripPrefix (pat s : Str) : Option Str :=
  if pat.isPrefixOf s then some (s.drop pat.length) else none

/-- `trim_start_matches` of a text: every copy of it at the start goes. -/
def trimStartLoop (pat : Str) : ℕ → Str → Str
  | 0, s => s
  | fuel + 1, s => if pat.isPrefixOf s then trimStartLoop pat fuel (s.drop pat.length) else s

def trimStartMatches (pat s : Str) : Str := trimStartLoop pat s.length s

/-- `trim_matches` of a test on ASCII characters. -/
def trimMatches (p : UInt8 → Bool) (s : Str) : Str :=
  ((s.dropWhile p).reverse.dropWhile p).reverse

def toAsciiLowercase (b : UInt8) : UInt8 := if 0x41 ≤ b ∧ b ≤ 0x5a then b + 0x20 else b

/-! ### Errors -/

/-- A piece of a message: text, or a spelling in its `Debug` form or as it is. -/
inductive Piece where
  | text (t : String)
  | debug (s : Str)
  | display (s : Str)
  deriving DecidableEq

inductive VortexRdfError where
  | invalidInput (message : List Piece)
  | deserialization (message : List Piece)
  | invalidOperation (message : List Piece)
  | serialization (message : List Piece)
  /-- An error of the array library, whose text is its own. -/
  | vortex
  deriving DecidableEq

/-- Where a spelling comes from, which decides how much of it is validated. -/
inductive Trust where
  | stored
  | input
  deriving DecidableEq

def invalid (what : String) (spelling : Str) (error : String) : VortexRdfError :=
  .invalidInput [.text ("invalid " ++ what ++ " "), .debug spelling, .text (": " ++ error)]

/-- A result with its invalid-input message led by the place it is about. -/
def inPlace {α : Type} (place : String) : Except VortexRdfError α → Except VortexRdfError α
  | .error (.invalidInput message) => .error (.invalidInput (.text (place ++ ": ") :: message))
  | parsed => parsed

/-! ### Nodes -/

/-- `_:` -/
def BLANK_PREFIX : Str := [0x5f, 0x3a]

variable (ox : Oxrdf)

def namedNode (s : Str) (trust : Trust) : Except VortexRdfError NamedNode :=
  let iri := trimMatches isAngle s
  match trust with
  | .stored => .ok ⟨iri⟩
  | .input =>
    match ox.iriError iri with
    | none => .ok ⟨iri⟩
    | some error => .error (invalid "IRI" iri error)

def blankNode (s : Str) (trust : Trust) : Except VortexRdfError BlankNode :=
  let id := trimStartMatches BLANK_PREFIX s
  match trust with
  | .stored => .ok ⟨id⟩
  | .input =>
    match ox.blankNodeError id with
    | none => .ok ⟨id⟩
    | some error => .error (invalid "blank node" s error)

def subject (s : Str) (trust : Trust) : Except VortexRdfError NamedOrBlankNode :=
  if BLANK_PREFIX.isPrefixOf s then (blankNode ox s trust).map .blankNode
  else (namedNode ox s trust).map .namedNode

/-! ### Literals -/

/-- The first quote among whole words, `i` words in. -/
def findInWords : List Str → ℕ → Option ℕ
  | [], _ => none
  | word :: words, i =>
    let x := BitVec.ofNat 64 (leWord word) ^^^ splat QUOTE
    let zeros := zeroFlags x
    if zeros ≠ 0#64 then some (i * 8 + trailingZeros zeros / 8) else findInWords words (i + 1)

/-- The bytes in words of eight, and what is left. -/
def asChunks : ℕ → Str → List Str × Str
  | 0, b => ([], b)
  | count + 1, b =>
    let (words, tail) := asChunks count (b.drop 8)
    (b.take 8 :: words, tail)

def findQuote (b : Str) : Option ℕ :=
  let (words, tail) := asChunks (b.length / 8) b
  match findInWords words 0 with
  | some place => some place
  | none => (tail.findIdx? (· == QUOTE)).map fun i => words.length * 8 + i

/-- Where the run of backslashes ending before `run` begins, the opening quote at
most. -/
def runStart (b : Str) : ℕ → ℕ
  | 0 => 0
  | run + 1 => if 1 < run + 1 ∧ b[run]? = some BACKSLASH then runStart b run else run + 1

/-- The scan from quote to quote, at most one a byte. -/
def closingQuoteLoop (b : Str) : ℕ → ℕ → Option ℕ
  | 0, _ => none
  | fuel + 1, start =>
    match findQuote (b.drop start) with
    | none => none
    | some offset =>
      let quote := start + offset
      if (quote - runStart b quote) % 2 = 0 then some quote
      else closingQuoteLoop b fuel (quote + 1)

def closingQuote (s : Str) : Option ℕ :=
  if s.head? = some QUOTE then closingQuoteLoop s s.length 1 else none

inductive LiteralForm where
  | simple (value : Str)
  | language (value lang : Str)
  | typed (value datatype : Str)
  deriving DecidableEq

/-- The shape the text behind the closing quote gives a literal. -/
def suffixForm (value rest : Str) : Option LiteralForm :=
  if rest = [] then some (.simple value)
  else
    match stripPrefix [0x5e, 0x5e] rest with
    | some datatype => some (.typed value datatype)
    | none => (stripPrefix [0x40] rest).map fun lang => .language value lang

def splitLiteral (s : Str) : Option LiteralForm :=
  match closingQuote s with
  | none => none
  | some stop => suffixForm ((s.drop 1).take (stop - 1)) (s.drop (stop + 1))

/-- What `unescape` does with a backslash that starts no escape. -/
inductive Escapes where
  | strict
  | lenient
  deriving DecidableEq

/-- `char::from_u32` -/
def charFromU32 (n : ℕ) : Option Char := if n.isValidChar then some (Char.ofNat n) else none

/-- The character the first `len` bytes write in hexadecimal. -/
def hexEscape (b : Str) (len : ℕ) : Option Char :=
  if len ≤ b.length then (hexValue (b.take len)).bind charFromU32 else none

/-- The escape a backslash before `rest` starts: the character, and the bytes it
takes with the backslash. -/
def decodeEscape (rest : Str) : Option (Char × ℕ) :=
  match rest with
  | [] => none
  | b :: rest =>
    if b = 0x74 then some ('\t', 2)
    else if b = 0x62 then some ('\x08', 2)
    else if b = 0x6e then some ('\n', 2)
    else if b = 0x72 then some ('\r', 2)
    else if b = 0x66 then some ('\x0c', 2)
    else if b = 0x22 then some ('\x22', 2)
    else if b = 0x27 then some ('\x27', 2)
    else if b = 0x5c then some ('\x5c', 2)
    else if b = 0x75 then (hexEscape rest 4).map fun c => (c, 6)
    else if b = 0x55 then (hexEscape rest 8).map fun c => (c, 10)
    else none

/-- The decoding of what is left, a run of text or an escape a turn. -/
def unescapeLoop (escapes : Escapes) : ℕ → Str → Option Str
  | 0, _ => none
  | _ + 1, [] => some []
  | fuel + 1, b :: rest =>
    if b ≠ BACKSLASH then
      let text := (b :: rest).takeWhile (· != BACKSLASH)
      (unescapeLoop escapes fuel ((b :: rest).drop text.length)).map fun out => text ++ out
    else
      match decodeEscape rest, escapes with
      | some (c, width), _ =>
        (unescapeLoop escapes fuel ((b :: rest).drop width)).map fun out => utf8 [c] ++ out
      | none, .lenient => (unescapeLoop escapes fuel rest).map fun out => BACKSLASH :: out
      | none, .strict => none

def unescape (s : Str) (escapes : Escapes) : Option Str :=
  if BACKSLASH ∈ s then unescapeLoop escapes (s.length + 1) s else some s

def unescapeLiteralValue (s : Str) : Str := (unescape s .lenient).getD s

def literal (s : Str) (trust : Trust) : Except VortexRdfError Literal :=
  match splitLiteral s with
  | some (.simple value) => .ok (.simple (unescapeLiteralValue value))
  | some (.language value lang) =>
    match trust with
    | .stored => .ok (.languageTagged (unescapeLiteralValue value) lang)
    | .input =>
      match ox.languageTag lang with
      | .ok tag => .ok (.languageTagged (unescapeLiteralValue value) tag)
      | .error error => .error (invalid "language tag" lang error)
  | some (.typed value datatype) =>
    (namedNode ox datatype trust).map fun dt => .newTyped (unescapeLiteralValue value) dt
  | none =>
    match trust with
    | .stored => .ok (.simple (trimMatches (· == QUOTE) s))
    | .input => .error (.invalidInput [.text "malformed literal ", .debug s])

/-! ### Terms and quads -/

/-- A user-typed spelling of the default graph: nothing, `default` or `[]`. -/
def isDefaultGraphSpelling (s : Str) : Bool :=
  s == [] || s.map toAsciiLowercase == [0x64, 0x65, 0x66, 0x61, 0x75, 0x6c, 0x74] ||
    s == [0x5b, 0x5d]

def graphName (s : Str) (trust : Trust) : Except VortexRdfError GraphName :=
  let default :=
    match trust with
    | .stored => s == []
    | .input => isDefaultGraphSpelling s
  if default then .ok .defaultGraph
  else if BLANK_PREFIX.isPrefixOf s then (blankNode ox s trust).map .blankNode
  else (namedNode ox s trust).map .namedNode

def term (s : Str) (trust : Trust) : Except VortexRdfError Term :=
  if BLANK_PREFIX.isPrefixOf s then (blankNode ox s trust).map .blankNode
  else if s.head? = some QUOTE then (literal ox s trust).map .literal
  else if trust = .input ∨ s.head? = some 0x3c then (namedNode ox s trust).map .namedNode
  else .error (.deserialization
    [.text "invalid term ", .debug s, .text ": not an IRI, blank node or literal"])

def quadFromTerms (s p o g : Str) : Except VortexRdfError Quad := do
  let s ← subject ox s .stored
  let p ← namedNode ox p .stored
  let o ← term ox o .stored
  let g ← graphName ox g .stored
  return ⟨s, p, o, g⟩

/-! ### Renderings -/

/-- A quad as its four spellings, the builders' input. -/
structure RawQuad where
  s : Str
  p : Str
  o : Str
  g : Str
  deriving DecidableEq

def namedNodeString (n : NamedNode) : Str := 0x3c :: n.iri ++ [0x3e]

def blankNodeString (b : BlankNode) : Str := BLANK_PREFIX ++ b.id

/-- A literal's `Display`. -/
def Literal.toStr : Literal → Str
  | simple value => ox.quoted value
  | languageTagged value language => ox.quoted value ++ 0x40 :: language
  | typed value datatype => ox.quoted value ++ [0x5e, 0x5e] ++ namedNodeString datatype

def Term.toStr : Term → Str
  | namedNode n => namedNodeString n
  | blankNode b => blankNodeString b
  | literal l => l.toStr ox

def RawQuad.fromQuad (q : Quad) : RawQuad where
  s :=
    match q.subject with
    | .namedNode n => namedNodeString n
    | .blankNode b => blankNodeString b
  p := namedNodeString q.predicate
  o :=
    match q.object with
    | .namedNode n => namedNodeString n
    | .blankNode b => blankNodeString b
    | other => other.toStr ox
  g :=
    match q.graphName with
    | .defaultGraph => []
    | .namedNode n => namedNodeString n
    | .blankNode b => blankNodeString b

def pushSpelling (out : Str) : Term → Str
  | .namedNode n => out ++ [0x3c] ++ n.iri ++ [0x3e]
  | .blankNode b => out ++ BLANK_PREFIX ++ b.id
  | .literal l => out ++ l.toStr ox

def RawQuad.canonical (s p o g : Str) : Except VortexRdfError RawQuad := do
  let s ← inPlace "quad subject" (subject ox s .input)
  let p ← inPlace "quad predicate" (namedNode ox p .input)
  let o ← inPlace "quad object" (term ox o .input)
  let g ← inPlace "quad graph" (graphName ox g .input)
  return fromQuad ox ⟨s, p, o, g⟩

def canonicalSpelling (spelling : Str) : Except VortexRdfError Str :=
  if isDefaultGraphSpelling spelling then .ok []
  else (term ox spelling .input).map fun t => t.toStr ox

end Terms
