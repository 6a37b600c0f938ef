/-
The RDF terms the store exchanges, and the library they come from.

A Rust string is its UTF-8 bytes.  The term types are those of the RDF library;
its validating constructors and its way of writing a literal are parameters with
what the store relies on.

* `Str`, `utf8` — strings as bytes;
* `Quad`, `Term`, `Literal` and the nodes — the library's term types;
* `EscapeForm` — the ways N-Triples has of writing one character between quotes;
* `Oxrdf` — the validating constructors, and the quoted form of a literal's
  value;
* `Quad.Accepted` — a quad those constructors build.
-/
import Mathlib.Tactic

namespace Terms

/-- A Rust string, as its bytes. -/
abbrev Str := List UInt8

/-- The bytes of a text. -/
def utf8 (text : List Char) : Str := text.flatMap String.utf8EncodeChar

def QUOTE : UInt8 := 0x22

def BACKSLASH : UInt8 := 0x5c

/-! ### Terms -/

structure NamedNode where
  iri : Str
  deriving DecidableEq

structure BlankNode where
  id : Str
  deriving DecidableEq

inductive NamedOrBlankNode where
  | namedNode (n : NamedNode)
  | blankNode (b : BlankNode)
  deriving DecidableEq

inductive Literal where
  | simple (value : Str)
  | languageTagged (value language : Str)
  | typed (value : Str) (datatype : NamedNode)
  deriving DecidableEq

inductive Term where
  | namedNode (n : NamedNode)
  | blankNode (b : BlankNode)
  | literal (l : Literal)
  deriving DecidableEq

inductive GraphName where
  | defaultGraph
  | namedNode (n : NamedNode)
  | blankNode (b : BlankNode)
  deriving DecidableEq

structure Quad where
  subject : NamedOrBlankNode
  predicate : NamedNode
  object : Term
  graphName : GraphName
  deriving DecidableEq

def XSD_STRING : NamedNode := ⟨utf8 "http://www.w3.org/2001/XMLSchema#string".toList⟩

/-- `Literal::new_typed_literal`: a literal typed as a string is a simple one. -/
def Literal.newTyped (value : Str) (datatype : NamedNode) : Literal :=
  if datatype = XSD_STRING then .simple value else .typed value datatype

/-! ### Writing a literal -/

/-- The hexadecimal digit an ASCII byte stands for. -/
def toDigit (b : UInt8) : Option ℕ :=
  if 0x30 ≤ b ∧ b ≤ 0x39 then some (b.toNat - 0x30)
  else if 0x61 ≤ b ∧ b ≤ 0x66 then some (b.toNat - 0x61 + 10)
  else if 0x41 ≤ b ∧ b ≤ 0x46 then some (b.toNat - 0x41 + 10)
  else none

/-- The number some hexadecimal digits write. -/
def hexValue (digits : Str) : Option ℕ :=
  digits.foldlM (fun value d => (toDigit d).map fun digit => value * 16 + digit) 0

/-- The one-letter escapes of N-Triples and the characters they stand for. -/
def ECHARS : List (Char × Char) :=
  [('t', '\t'), ('b', '\x08'), ('n', '\n'), ('r', '\r'), ('f', '\x0c'), ('\x22', '\x22'),
    ('\x27', '\x27'), ('\x5c', '\x5c')]

/-- The forms a character may take inside a quoted literal. -/
inductive EscapeForm (c : Char) : Str → Prop
  | plain (hquote : c ≠ '\x22') (hbackslash : c ≠ '\x5c') : EscapeForm c (utf8 [c])
  | letter (l : Char) (h : (l, c) ∈ ECHARS) : EscapeForm c (utf8 ['\x5c', l])
  | short (digits : Str) (hlen : digits.length = 4) (h : hexValue digits = some c.toNat) :
      EscapeForm c (utf8 ['\x5c', 'u'] ++ digits)
  | long (digits : Str) (hlen : digits.length = 8) (h : hexValue digits = some c.toNat) :
      EscapeForm c (utf8 ['\x5c', 'U'] ++ digits)

def isAngle (b : UInt8) : Bool := b == 0x3c || b == 0x3e

/-- What the store uses of the RDF library: an error of a validating constructor
is its text, and the constructors of nodes keep what they accept as it is. -/
structure Oxrdf where
  iriError : Str → Option String
  blankNodeError : Str → Option String
  languageTag : Str → Except String Str
  /-- The value of a literal between quotes, as its `Display` writes it. -/
  quoted : Str → Str
  escape : Char → Str
  iri_noAngle : ∀ iri, iriError iri = none → ∀ b ∈ iri, isAngle b = false
  quoted_utf8 : ∀ text, quoted (utf8 text) = QUOTE :: text.flatMap escape ++ [QUOTE]
  escape_form : ∀ c, EscapeForm c (escape c)

/-! ### What the validating constructors build -/

variable (ox : Oxrdf)

def NamedNode.Accepted (n : NamedNode) : Prop := ox.iriError n.iri = none

def BlankNode.Accepted (b : BlankNode) : Prop := ox.blankNodeError b.id = none

def NamedOrBlankNode.Accepted : NamedOrBlankNode → Prop
  | namedNode n => n.Accepted ox
  | blankNode b => b.Accepted ox

/-- A literal's value is any text; its tag is one the library normalizes to
itself, and a typed literal has another type than the simple ones. -/
def Literal.Accepted : Literal → Prop
  | simple value => ∃ text, value = utf8 text
  | languageTagged value language =>
    (∃ text, value = utf8 text) ∧ ox.languageTag language = .ok language
  | typed value datatype =>
    (∃ text, value = utf8 text) ∧ datatype.Accepted ox ∧ datatype ≠ XSD_STRING

def Term.Accepted : Term → Prop
  | namedNode n => n.Accepted ox
  | blankNode b => b.Accepted ox
  | literal l => l.Accepted ox

def GraphName.Accepted : GraphName → Prop
  | defaultGraph => True
  | namedNode n => n.Accepted ox
  | blankNode b => b.Accepted ox

structure Quad.Accepted (q : Quad) : Prop where
  subject : q.subject.Accepted ox
  predicate : q.predicate.Accepted ox
  object : q.object.Accepted ox
  graphName : q.graphName.Accepted ox

/-! ### Bytes of a text -/

theorem utf8_nil : utf8 [] = [] := rfl

theorem utf8_cons (c : Char) (text : List Char) :
    utf8 (c :: text) = String.utf8EncodeChar c ++ utf8 text := rfl

theorem utf8_append (text text' : List Char) : utf8 (text ++ text') = utf8 text ++ utf8 text' :=
  List.flatMap_append

/-- An ASCII byte of a character's encoding is the whole character. -/
theorem char_of_ascii {c : Char} {b : UInt8} (h : b ∈ String.utf8EncodeChar c) (hb : b < 0x80) :
    c.toNat = b.toNat := by
  have hb' : b.toNat < 0x80 := UInt8.lt_iff_toNat_lt.mp hb
  have hofNat : ∀ n, b = UInt8.ofNat n → b.toNat = n % 2 ^ 8 := by
    rintro n rfl
    exact UInt8.toNat_ofNat'
  -- every byte of a longer encoding has its high bit set
  unfold String.utf8EncodeChar at h
  rw [Char.toNat]
  generalize c.val.toNat = v at h
  dsimp only at h
  split_ifs at h with hone htwo hthree
  · have := hofNat _ (List.mem_singleton.mp h)
    omega
  · rcases List.mem_cons.mp h with h | h
    · have := hofNat _ h
      omega
    · have := hofNat _ (List.mem_singleton.mp h)
      omega
  · simp only [List.mem_cons, List.not_mem_nil, or_false] at h
    rcases h with h | h | h <;> have := hofNat _ h <;> omega
  · simp only [List.mem_cons, List.not_mem_nil, or_false] at h
    rcases h with h | h | h | h <;> have := hofNat _ h <;> omega

end Terms
