/-
Term predicates, evaluated on a spelling or decided without reading it.

* `TextPredicate` — the tests on a term's text and how the text is read;
* `TermPredicate.eval` — the verdict on a spelling;
* `TermPredicate.kindVerdict`, `TermPredicate.iriPrefix` — what a code's kind decides,
  and the prefix that decides an address;
* `KindRanges` — the code ranges of the kinds;
* `eval_of_kindVerdict` — a verdict from the kind is the one of every spelling of it;
* `eval_of_iriPrefix` — a bracketed address passes just when it begins with `<` and the
  prefix.
-/
import VortexRdf.Numbers
import VortexRdf.TermSearch

namespace Dictionary

open Terms

/-! ### Tests on text -/

inductive CaseMap where
  | lower
  | upper
  deriving DecidableEq

/-- A string constant: its text and tag, or a term that is no string. -/
inductive TextConstant where
  | text (text : Str) (lang : Option Str)
  | notAString

/-- A compiled pattern: what it matches, and which texts it leaves undecided. -/
structure Compiled where
  isMatch : Str → Bool
  asciiOnly : Bool
  finalNewlineUndecided : Bool
  emptyTextUndecided : Bool

/-- A pattern, compiled unless it is outside the subset. -/
structure RegexTest where
  compiled : Option Compiled

def RegexTest.eval (test : RegexTest) (text : Str) : Verdict :=
  match test.compiled with
  | none => .unknown
  | some c =>
    if c.asciiOnly && !isAscii text then .unknown
    else if c.finalNewlineUndecided && [0x0a].isSuffixOf text then .unknown
    else if c.emptyTextUndecided && text.isEmpty then .unknown
    else Verdict.ofBool (c.isMatch text)

inductive TextTest where
  | pre (pre : Str)
  | contains (c : TextConstant)
  | startsWith (c : TextConstant)
  | endsWith (c : TextConstant)
  | regex (test : RegexTest)

def RDFLIB_NORMALIZED_XSD : List String :=
  ["anyURI", "base64Binary", "boolean", "byte", "date", "dateTime", "dayTimeDuration", "decimal",
    "double", "duration", "float", "hexBinary", "int", "integer", "language", "long",
    "negativeInteger", "nonNegativeInteger", "nonPositiveInteger", "normalizedString",
    "positiveInteger", "short", "time", "token", "unsignedByte", "unsignedInt", "unsignedLong",
    "unsignedShort", "yearMonthDuration"]

def RDFLIB_NORMALIZED_RDF : List String :=
  ["http://www.w3.org/1999/02/22-rdf-syntax-ns#XMLLiteral",
    "http://www.w3.org/1999/02/22-rdf-syntax-ns#HTML"]

/-- A literal typed `dt` may be written back in another lexical form. -/
def rdflibNormalizes (dt : Str) : Bool :=
  RDFLIB_NORMALIZED_RDF.any (fun name => utf8 name.toList == dt) ||
    (stripPrefix XSD dt).any fun rest => RDFLIB_NORMALIZED_XSD.any fun name => utf8 name.toList == rest

structure TextPredicate where
  test : TextTest
  case : Option CaseMap
  asStr : Bool

namespace TextPredicate

variable (text : TextPredicate)

/-- The term's text and language, or the verdict when it has none to read. -/
def textOf (spelling : Str) (kind : Kind) : Except Verdict (Str × Option Str) :=
  match kind with
  | .iri =>
    if text.asStr then
      match (stripPrefix [0x3c] spelling).bind (stripSuffix [0x3e]) with
      | some iri => .ok (iri, none)
      | none => .error .unknown
    else .error .false
  | .blank => if text.asStr then .error .unknown else .error .false
  | .other => .error .unknown
  | .literal =>
    match LiteralView.parse spelling with
    | none => .error .unknown
    | some lit =>
      match lit.lexical with
      | none => .error .unknown
      | some lexical =>
        if text.asStr then
          if lit.datatype.any fun dt => dt != XSD_STRING.iri && rdflibNormalizes dt then
            .error .unknown
          else .ok (lexical, none)
        else if lit.isStringLike then .ok (lexical, lit.lang)
        else .error .false

/-- The prefix an address's text must begin with, when that is the whole test. -/
def iriPrefix : Option Str :=
  if !text.asStr || text.case.isSome then none
  else
    match text.test with
    | .pre pre => if 0x3e ∈ pre then none else some pre
    | .startsWith (.text pre none) => if 0x3e ∈ pre then none else some pre
    | _ => none

/-- A test against a constant: no string fails, and a tag must be the text's own. -/
def holdsOf (value : Str) (lang : Option Str) (constant : TextConstant) (holds : Str → Str → Bool) :
    Verdict :=
  match constant with
  | .notAString => .false
  | .text c (some tag) => if lang ≠ some tag then .false else Verdict.ofBool (holds value c)
  | .text c none => Verdict.ofBool (holds value c)

def testText (value : Str) (lang : Option Str) : Verdict :=
  match text.test with
  | .pre pre => Verdict.ofBool (pre.isPrefixOf value)
  | .contains c => holdsOf value lang c fun t c => c <:+: t
  | .startsWith c => holdsOf value lang c fun t c => c.isPrefixOf t
  | .endsWith c => holdsOf value lang c fun t c => c.isSuffixOf t
  | .regex test => test.eval value

def eval (spelling : Str) (kind : Kind) : Verdict :=
  match text.textOf spelling kind with
  | .error verdict => verdict
  | .ok (value, lang) =>
    match text.case with
    | none => text.testText value lang
    | some case =>
      if !isAscii value then .unknown
      else
        match case with
        | .lower => text.testText (value.map toAsciiLowercase) lang
        | .upper => text.testText (value.map toAsciiUppercase) lang

end TextPredicate

/-! ### Predicates -/

inductive TermPredicate (fl : Floats) where
  | isLiteral
  | isIri
  | isBlank
  | datatype (dt : Str)
  | lang (tag : Str)
  | langMatches (range : Str)
  | num (op : NumOp) (number : Number fl)
  | text (text : TextPredicate)

/-- `f` on the literal a spelling parses to. -/
def onLiteral (kind : Kind) (spelling : Str) (f : LiteralView → Verdict) : Verdict :=
  match LiteralView.parse spelling with
  | some lit => f lit
  | none => if kind ≠ .literal then .false else .unknown

namespace TermPredicate

variable {fl : Floats} (predicate : TermPredicate fl)

/-- The predicate on one spelling. -/
def eval (spelling : Str) : Verdict :=
  let kind := kindOf spelling
  if kind = .other then .unknown
  else
    match predicate with
    | isLiteral => Verdict.ofBool (kind == .literal)
    | isIri => Verdict.ofBool (kind == .iri)
    | isBlank => Verdict.ofBool (kind == .blank)
    | datatype dt => onLiteral kind spelling fun lit => Verdict.ofBool (lit.effectiveDatatype == dt)
    | lang tag => onLiteral kind spelling fun lit => Verdict.ofBool (lit.lang.getD [] == tag)
    | langMatches range => onLiteral kind spelling fun lit =>
        match lit.lang with
        | some tag => Dictionary.langMatches tag range
        | none => .false
    | num op number =>
      if kind ≠ .literal then if op = .ne then .true else .false
      else onLiteral kind spelling fun lit => number.compare op lit
    | text test => test.eval spelling kind

/-- The verdict every code of a kind gets without its spelling being read. -/
def kindVerdict (kind : Kind) : Option Verdict :=
  match predicate, kind with
  | _, .other => some .unknown
  | isLiteral, kind => some (Verdict.ofBool (kind == .literal))
  | isIri, kind => some (Verdict.ofBool (kind == .iri))
  | isBlank, kind => some (Verdict.ofBool (kind == .blank))
  | _, .literal => none
  | num op _, _ => if op = .ne then some .true else some .false
  | text test, .iri => if test.asStr then none else some .false
  | text test, .blank => if test.asStr then some .unknown else some .false
  | datatype _, _ => some .false
  | lang _, _ => some .false
  | langMatches _, _ => some .false

def iriPrefix : Option Str :=
  match predicate with
  | text test => test.iriPrefix
  | _ => none

end TermPredicate

/-! ### Kind ranges -/

structure KindRanges where
  start : TermCode
  defaultGraph : Option TermCode
  literals : CodeRange
  iris : CodeRange
  blanks : CodeRange
  len : TermCode
  deriving DecidableEq

def KindRanges.new (start : TermCode) (firstIsEmpty : Bool) (literals iris blanks : CodeRange)
    (len : TermCode) : KindRanges :=
  ⟨start, if firstIsEmpty then some start else none, literals, iris, blanks, len⟩

def KindRanges.kindOfCode (kinds : KindRanges) (code : TermCode) : Kind :=
  if kinds.literals.contains code then .literal
  else if kinds.iris.contains code then .iri
  else if kinds.blanks.contains code then .blank
  else .other

/-! ### Verdicts without a reading -/

section Verdicts

variable {fl : Floats} {predicate : TermPredicate fl} {s : Str}

theorem kindOf_literal_iff : kindOf s = .literal ↔ s.head? = some QUOTE := by
  cases s with
  | nil => simp [kindOf]
  | cons b rest =>
    rw [kindOf, List.head?_cons, Option.some.injEq]
    split_ifs with hquote <;> simp [hquote]

theorem kindOf_iri_iff : kindOf s = .iri ↔ s.head? = some 0x3c := by
  cases s with
  | nil => simp [kindOf]
  | cons b rest =>
    rw [kindOf, List.head?_cons, Option.some.injEq]
    split_ifs with hquote hangle <;> simp_all [QUOTE]

theorem kindOf_blank_iff : kindOf s = .blank ↔ s.head? = some 0x5f := by
  cases s with
  | nil => simp [kindOf]
  | cons b rest =>
    rw [kindOf, List.head?_cons, Option.some.injEq]
    split_ifs with hquote hangle hblank <;> simp_all [QUOTE]

theorem parse_of_not_literal (h : kindOf s ≠ .literal) : LiteralView.parse s = none := by
  have hquote : closingQuote s = none := by
    rw [closingQuote, if_neg (mt kindOf_literal_iff.mpr h)]
  rw [LiteralView.parse, splitLiteral, hquote]

theorem onLiteral_of_not_literal (h : kindOf s ≠ .literal) (f : LiteralView → Verdict) :
    onLiteral (kindOf s) s f = .false := by
  rw [onLiteral, parse_of_not_literal h]
  exact if_pos h

theorem textEval_of_not_asStr {text : TextPredicate} (hstr : text.asStr = false)
    (h : kindOf s = .iri ∨ kindOf s = .blank) : text.eval s (kindOf s) = .false := by
  rcases h with h | h <;> rw [h, TextPredicate.eval] <;> simp [TextPredicate.textOf, hstr]

theorem textEval_blank {text : TextPredicate} (hstr : text.asStr = true) :
    text.eval s .blank = .unknown := by
  rw [TextPredicate.eval]
  simp [TextPredicate.textOf, hstr]

/-- A verdict from the kind is the verdict on every spelling of that kind. -/
theorem eval_of_kindVerdict {v : Verdict} (h : predicate.kindVerdict (kindOf s) = some v) :
    predicate.eval s = v := by
  rw [TermPredicate.eval.eq_def]
  dsimp only
  by_cases hother : kindOf s = .other
  · rw [if_pos hother]
    rw [hother] at h
    cases predicate <;> exact Option.some.inj h
  · rw [if_neg hother]
    by_cases hliteral : kindOf s = .literal
    · rw [hliteral] at h ⊢
      cases predicate <;> first | exact Option.some.inj h | cases h
    · have hkind : kindOf s = .iri ∨ kindOf s = .blank := by
        cases hk : kindOf s <;> simp_all
      cases predicate with
      | isLiteral | isIri | isBlank =>
        rcases hkind with hk | hk <;> rw [hk] at h ⊢ <;> exact Option.some.inj h
      | datatype dt | lang tag | langMatches range =>
        dsimp only
        rw [onLiteral_of_not_literal hliteral]
        rcases hkind with hk | hk <;> rw [hk] at h <;> exact Option.some.inj h
      | num op number =>
        dsimp only
        rw [if_pos hliteral]
        by_cases hop : op = .ne
        · rw [if_pos hop]
          rcases hkind with hk | hk <;> rw [hk] at h <;>
            simpa [TermPredicate.kindVerdict, hop] using h
        · rw [if_neg hop]
          rcases hkind with hk | hk <;> rw [hk] at h <;>
            simpa [TermPredicate.kindVerdict, hop] using h
      | text test =>
        dsimp only
        cases hstr : test.asStr with
        | false =>
          rw [textEval_of_not_asStr hstr hkind]
          rcases hkind with hk | hk <;> rw [hk] at h <;>
            simpa [TermPredicate.kindVerdict, hstr] using h
        | true =>
          -- under `STR()` only a blank node is decided, and it is decided unknown
          rcases hkind with hk | hk <;> rw [hk] at h
          · simp [TermPredicate.kindVerdict, hstr] at h
          · rw [hk, textEval_blank hstr]
            simpa [TermPredicate.kindVerdict, hstr] using h

/-- A text that a closing byte follows begins with what does not hold that byte just
when both together do. -/
theorem begins_before_close {pre body : Str} {b : UInt8} (h : b ∉ pre) :
    pre <+: body ++ [b] ↔ pre <+: body := by
  constructor
  · intro hpre
    rcases List.prefix_concat_iff.mp hpre with heq | hbody
    · exact absurd (heq ▸ List.mem_concat_self) h
    · exact hbody
  · exact fun hpre => hpre.trans (List.prefix_append _ _)

/-- A bracketed address passes a prefix test just when its spelling begins with `<` and
the prefix. -/
theorem eval_of_iriPrefix {pre : Str} (hpre : predicate.iriPrefix = some pre)
    (hkind : kindOf s = .iri) (hclosed : [0x3e] <:+ s) :
    predicate.eval s = Verdict.ofBool ((0x3c :: pre).isPrefixOf s) := by
  obtain ⟨body, rfl⟩ : ∃ body, s = 0x3c :: (body ++ [0x3e]) := by
    obtain ⟨front, rfl⟩ := hclosed
    have hhead := kindOf_iri_iff.mp hkind
    cases front with
    | nil => simp at hhead
    | cons b front => exact ⟨front, by simpa using hhead⟩
  cases predicate with
  | text text =>
    change text.iriPrefix = some pre at hpre
    rw [TextPredicate.iriPrefix] at hpre
    have hstr : text.asStr = true := by
      by_contra hstr
      simp [hstr] at hpre
    have hcase : text.case = none := by
      by_contra hcase
      simp [Option.isSome_iff_ne_none.mpr hcase] at hpre
    rw [if_neg (by simp [hstr, hcase])] at hpre
    have htext : text.textOf (0x3c :: (body ++ [0x3e])) .iri = .ok (body, none) := by
      have hopen : stripPrefix [0x3c] (0x3c :: (body ++ [0x3e])) = some (body ++ [0x3e]) := by
        rw [stripPrefix, if_pos (by simp)]
        rfl
      have hclose : stripSuffix [0x3e] (body ++ [0x3e]) = some body := by
        rw [stripSuffix, if_pos (by simp)]
        simp
      simp [TextPredicate.textOf, hstr, hopen, hclose]
    have heval : (TermPredicate.text text : TermPredicate fl).eval (0x3c :: (body ++ [0x3e])) =
        text.testText body none := by
      rw [TermPredicate.eval]
      simp only [hkind]
      rw [if_neg (by decide), TextPredicate.eval, htext, hcase]
    -- what holds no closing bracket begins the spelling only inside it
    have hiff : ∀ pre : Str, 0x3e ∉ pre →
        pre.isPrefixOf body = (0x3c :: pre).isPrefixOf (0x3c :: (body ++ [0x3e])) := by
      intro pre hout
      rw [Bool.eq_iff_iff, List.isPrefixOf_iff_prefix, List.isPrefixOf_iff_prefix,
        List.cons_prefix_cons, begins_before_close hout]
      simp
    rw [heval, TextPredicate.testText]
    cases htest : text.test with
    | pre p =>
      simp only [htest] at hpre
      split_ifs at hpre with hclose
      obtain rfl := Option.some.inj hpre
      exact congrArg Verdict.ofBool (hiff p hclose)
    | startsWith c =>
      cases c with
      | notAString => simp [htest] at hpre
      | text c lang =>
        cases lang with
        | some tag => simp [htest] at hpre
        | none =>
          simp only [htest] at hpre
          split_ifs at hpre with hclose
          obtain rfl := Option.some.inj hpre
          exact congrArg Verdict.ofBool (hiff c hclose)
    | contains c => simp [htest] at hpre
    | endsWith c => simp [htest] at hpre
    | regex test => simp [htest] at hpre
  | isLiteral => cases hpre
  | isIri => cases hpre
  | isBlank => cases hpre
  | datatype dt => cases hpre
  | lang tag => cases hpre
  | langMatches range => cases hpre
  | num op number => cases hpre

end Verdicts

end Dictionary
