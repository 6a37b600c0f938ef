/-
Quad patterns and the equalities they compile to.

A pattern binds some of the four roles to terms.  A layout turns each bound term
into equalities on its own columns: the term's spelling, its typed parts, or its
dictionary code.

* `QuadPattern`, `TermRef` — a pattern, and a bound term with its role;
* `decomposeObject` — an object's typed parts;
* `PatternCodes.constraints` — the equalities of a pattern, from the codes its
  prelude resolved;
* `stringConstraints_eq` — under the string layouts every pattern compiles, and its
  equalities are those of its bound terms in `s`, `p`, `o`, `g` order.
-/
import Mathlib
import VortexRdf.Terms

namespace Store

open Terms

/-! ### Columns and values -/

inductive QuadColumn where
  | s
  | p
  | o
  | g
  deriving DecidableEq

inductive ColumnName where
  | s
  | p
  | o
  | g
  | oKind
  | oValue
  | oDatatype
  | oLang
  deriving DecidableEq

def QuadColumn.name : QuadColumn → ColumnName
  | .s => .s
  | .p => .p
  | .o => .o
  | .g => .g

inductive Scalar where
  | num (n : ℕ)
  | str (text : Str)
  | null
  deriving DecidableEq

/-- A column and the value a row holds in it. -/
abbrev Equality := ColumnName × Scalar

inductive LayoutStrategy where
  | default
  | typedObject
  | dictionary
  deriving DecidableEq

/-! ### Patterns -/

structure QuadPattern where
  subject : Option NamedOrBlankNode
  predicate : Option NamedNode
  object : Option Term
  graph : Option GraphName
  deriving DecidableEq

/-- The pattern that binds every role, to the terms of a quad. -/
def QuadPattern.ofQuad (q : Quad) : QuadPattern :=
  ⟨some q.subject, some q.predicate, some q.object, some q.graphName⟩

inductive TermRef where
  | subject (s : NamedOrBlankNode)
  | predicate (p : NamedNode)
  | object (o : Term)
  | graph (g : GraphName)
  deriving DecidableEq

def TermRef.role : TermRef → QuadColumn
  | subject _ => .s
  | predicate _ => .p
  | object _ => .o
  | graph _ => .g

/-- The bound terms, in `s`, `p`, `o`, `g` order. -/
def QuadPattern.boundRoles (pattern : QuadPattern) : List TermRef :=
  [pattern.subject.map .subject, pattern.predicate.map .predicate, pattern.object.map .object,
    pattern.graph.map .graph].reduceOption

variable (ox : Oxrdf)

def NamedOrBlankNode.toStr : NamedOrBlankNode → Str
  | .namedNode n => namedNodeString n
  | .blankNode b => blankNodeString b

/-- The default graph is the empty spelling the column holds. -/
def GraphName.spelling : GraphName → Str
  | .defaultGraph => []
  | .namedNode n => namedNodeString n
  | .blankNode b => blankNodeString b

/-- A bound term's spelling, as the columns store it. -/
def TermRef.writeNt : TermRef → Str
  | subject s => NamedOrBlankNode.toStr s
  | predicate p => namedNodeString p
  | object o => o.toStr ox
  | graph g => GraphName.spelling g

/-! ### Typed objects -/

structure TypedObject where
  kind : ℕ
  value : Str
  datatype : Option Str
  lang : Option Str
  deriving DecidableEq

/-- The typed parts of an object: 0 is an IRI, 1 a blank node, 2 a plain literal, 3 a
tagged one and 4 a typed one. -/
def decomposeObject : Term → TypedObject
  | .namedNode n => ⟨0, n.iri, none, none⟩
  | .blankNode b => ⟨1, b.id, none, none⟩
  | .literal (.languageTagged value language) => ⟨3, value, none, some language⟩
  | .literal (.simple value) => ⟨2, value, none, none⟩
  | .literal (.typed value datatype) =>
    if datatype = XSD_STRING then ⟨2, value, none, none⟩
    else ⟨4, value, some datatype.iri, none⟩

/-! ### Constraints -/

/-- What the prelude of a match resolved: a code for each bound role, `some none`
for a term the dictionary lacks, under the layout it resolved for. -/
structure PatternCodes where
  roles : QuadColumn → Option (Option ℕ)
  layout : LayoutStrategy

inductive Constraints where
  | alwaysFalse
  | eq (eqs : List Equality)
  deriving DecidableEq

namespace PatternCodes

def probesByString (codes : PatternCodes) : Bool := decide (codes.layout ≠ .dictionary)

def code (codes : PatternCodes) (term : TermRef) : Except VortexRdfError (Option ℕ) :=
  match codes.roles term.role with
  | some resolved => .ok resolved
  | none => .error (.deserialization [.text "no code resolution for ", .display (term.writeNt ox),
      .text (": the prepared pattern does not bind its role, " ++
        "and no probe reaches the dictionary outside the prelude")])

/-- The equalities of one bound term, `none` where no row can hold it. -/
def termConstraints (codes : PatternCodes) (term : TermRef) :
    Except VortexRdfError (Option (List Equality)) :=
  match decide (codes.layout = .typedObject), term with
  | true, .object object =>
    let parts := decomposeObject object
    .ok (some ([(.oKind, .num parts.kind), (.oValue, .str parts.value)] ++
      (parts.datatype.map fun dt => (ColumnName.oDatatype, Scalar.str dt)).toList ++
      (parts.lang.map fun lang => (ColumnName.oLang, Scalar.str lang)).toList))
  | _, term =>
    if codes.probesByString then .ok (some [(term.role.name, .str (term.writeNt ox))])
    else
      match codes.code ox term with
      | .error error => .error error
      | .ok none => .ok none
      | .ok (some code) => .ok (some [(term.role.name, .num code)])

/-- The equalities of the bound terms, up to the first no row can hold. -/
def constraintsLoop (codes : PatternCodes) :
    List TermRef → List Equality → Except VortexRdfError Constraints
  | [], eqs => .ok (.eq eqs)
  | term :: terms, eqs =>
    match codes.termConstraints ox term with
    | .error error => .error error
    | .ok none => .ok .alwaysFalse
    | .ok (some more) => constraintsLoop codes terms (eqs ++ more)

def constraints (codes : PatternCodes) (pattern : QuadPattern) :
    Except VortexRdfError Constraints :=
  codes.constraintsLoop ox pattern.boundRoles []

end PatternCodes

/-! ### The string layouts -/

/-- A layout that stores its terms as strings. -/
inductive StringLayout where
  | default
  | typedObject
  deriving DecidableEq

def StringLayout.strategy : StringLayout → LayoutStrategy
  | default => .default
  | typedObject => .typedObject

/-- The prelude under a string layout, which resolves nothing. -/
def StringLayout.preparePattern (layout : StringLayout) : PatternCodes :=
  ⟨fun _ => none, layout.strategy⟩

variable {ox}

/-- The equalities of one bound term under a string layout. -/
def stringEqualities (ox : Oxrdf) (layout : StringLayout) (term : TermRef) : List Equality :=
  match layout, term with
  | .typedObject, .object object =>
    let parts := decomposeObject object
    [(.oKind, .num parts.kind), (.oValue, .str parts.value)] ++
      (parts.datatype.map fun dt => (ColumnName.oDatatype, Scalar.str dt)).toList ++
      (parts.lang.map fun lang => (ColumnName.oLang, Scalar.str lang)).toList
  | _, term => [(term.role.name, .str (term.writeNt ox))]

theorem termConstraints_string (layout : StringLayout) (term : TermRef) :
    layout.preparePattern.termConstraints ox term =
      .ok (some (stringEqualities ox layout term)) := by
  cases layout <;> cases term <;> rfl

theorem constraintsLoop_string (layout : StringLayout) (terms : List TermRef)
    (eqs : List Equality) :
    layout.preparePattern.constraintsLoop ox terms eqs =
      .ok (.eq (eqs ++ terms.flatMap (stringEqualities ox layout))) := by
  induction terms generalizing eqs with
  | nil => rw [List.flatMap_nil, List.append_nil]; rfl
  | cons term terms ih =>
    rw [PatternCodes.constraintsLoop, termConstraints_string]
    dsimp only
    rw [ih, List.flatMap_cons, List.append_assoc]

theorem stringConstraints_eq (layout : StringLayout) (pattern : QuadPattern) :
    layout.preparePattern.constraints ox pattern =
      .ok (.eq (pattern.boundRoles.flatMap (stringEqualities ox layout))) :=
  constraintsLoop_string layout _ []

end Store
