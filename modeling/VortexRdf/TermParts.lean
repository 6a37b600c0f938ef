/-
Predicates read off a term's parts.

A predicate is evaluated on a stored spelling.  Of a term it says what its own parts do: its
kind, its exact value, its tag and its datatype, each cut out of the spelling again.

* `TextConstant.parse` — a string constant from its spelling, under the source's name;
* `TermParts`, `termParts` — the parts of a term;
* `LangTag`, `BasicFilter` — the grammar of language tags, and the basic filtering of them;
* `TermPredicate.onParts` — what a predicate says of a term's parts;
* `eval_toStr` — evaluated on the term's spelling it says just that;
* `parse_toStr` — the spelling of a string literal is a constant of its own value and tag.
-/
import VortexRdf.CodeFilters
import VortexRdf.TermRoundTrip

namespace Dictionary

open Terms

/-! ### String constants -/

def isAsciiAlphabetic (b : UInt8) : Bool := (0x41 ≤ b && b ≤ 0x5a) || (0x61 ≤ b && b ≤ 0x7a)

/-- `<` and `>` around text holding neither. -/
def isIriRef (s : Str) : Bool :=
  ((stripPrefix [0x3c] s).bind (stripSuffix [0x3e])).any fun iri => !iri.any isAngle

/-- `[A-Za-z]+(-[A-Za-z0-9]+)*` -/
def isLanguageTag (tag : Str) : Bool :=
  match tag.splitOn 0x2d with
  | [] => false
  | first :: subtags =>
    (!first.isEmpty && first.all isAsciiAlphabetic) &&
      subtags.all fun sub => !sub.isEmpty && sub.all isAsciiAlphanumeric

def invalidConstant (arg : Str) : VortexRdfError :=
  .invalidInput [.text ("a string constant is a strict N-Triples spelling (\x22text\x22, " ++
    "\x22text\x22@tag, \x22text\x22^^<datatype>, <iri> or _:label), got "), .debug arg]

/-- A string constant from its strict N-Triples spelling. -/
def TextConstant.parse (ox : Oxrdf) (arg : Str) : Except VortexRdfError TextConstant :=
  if arg.head? = some 0x3c then
    if isIriRef arg then .ok .notAString else .error (invalidConstant arg)
  else
    match stripPrefix BLANK_PREFIX arg with
    | some label =>
      if ox.blankNodeError label = none then .ok .notAString else .error (invalidConstant arg)
    | none =>
      match LiteralView.parse arg with
      | none => .error (invalidConstant arg)
      | some lit =>
        if lit.lang.any (fun tag => !isLanguageTag tag) || lit.datatype.any (·.any isAngle) then
          .error (invalidConstant arg)
        else
          match lit.lexical with
          | none => .error (invalidConstant arg)
          | some lexical =>
            if lit.isStringLike then .ok (.text lexical lit.lang) else .ok .notAString

/-! ### The parts of a term -/

/-- A term's kind and text, and a literal's tag and effective datatype. -/
structure TermParts where
  kind : Kind
  text : Str
  lang : Option Str
  datatype : Option Str

def literalParts : Literal → TermParts
  | .simple value => ⟨.literal, value, none, some XSD_STRING.iri⟩
  | .languageTagged value language => ⟨.literal, value, some language, some RDF_LANG_STRING⟩
  | .typed value datatype => ⟨.literal, value, none, some datatype.iri⟩

def termParts : Term → TermParts
  | .namedNode n => ⟨.iri, n.iri, none, none⟩
  | .blankNode b => ⟨.blank, b.id, none, none⟩
  | .literal l => literalParts l

namespace TermParts

/-- Plain, tagged, or typed as a string. -/
def stringLike (p : TermParts) : Bool :=
  p.lang.isSome || p.datatype == some XSD_STRING.iri

/-- The text a string predicate reads, or the verdict where there is none: of the term
itself, or of its `STR()`. -/
def reading (p : TermParts) (asStr : Bool) : Except Verdict (Str × Option Str) :=
  match p.kind, asStr with
  | .iri, true => .ok (p.text, none)
  | .blank, true => .error .unknown
  | .literal, true =>
    if p.datatype.any rdflibNormalizes then .error .unknown else .ok (p.text, none)
  | .literal, false => if p.stringLike then .ok (p.text, p.lang) else .error .false
  | .other, _ => .error .unknown
  | _, false => .error .false

end TermParts

/-- `[A-Za-z]+(-[A-Za-z0-9]+)*` -/
def LangTag (tag : Str) : Prop :=
  ∃ (first : Str) (subtags : List Str), tag = first ++ subtags.flatMap (0x2d :: ·) ∧
    first ≠ [] ∧ (∀ b ∈ first, isAsciiAlphabetic b = true) ∧
    ∀ sub ∈ subtags, sub ≠ [] ∧ ∀ b ∈ sub, isAsciiAlphanumeric b = true

/-- A term whose value is a text and whose tag is one of the grammar. -/
def Tagged : Term → Prop
  | .literal (.simple value) => ∃ text, value = utf8 text
  | .literal (.languageTagged value language) => (∃ text, value = utf8 text) ∧ LangTag language
  | .literal (.typed value _) => ∃ text, value = utf8 text
  | _ => True

/-! ### What a predicate says of the parts -/

/-- Basic filtering: the range is `*`, or but for case the tag or a beginning of it that a
hyphen follows. -/
def BasicFilter (tag range : Str) : Prop :=
  range = [0x2a] ∧ tag ≠ [] ∨
    ∃ pre rest, tag = pre ++ rest ∧ pre.map toAsciiLowercase = range.map toAsciiLowercase ∧
      (rest = [] ∨ rest.head? = some 0x2d)

/-- A range whose filtering is decided: `*`, or ASCII letters, digits and hyphens. -/
def DecidedRange (range : Str) : Prop :=
  range = [0x2a] ∨ ∀ b ∈ range, isAsciiAlphanumeric b = true ∨ b = 0x2d

def CaseMap.apply : CaseMap → Str → Str
  | .lower, text => text.map toAsciiLowercase
  | .upper, text => text.map toAsciiUppercase

/-- A text and tag pass against a constant: its tag, if it has one, is the text's own. -/
def TextConstant.Passes (holds : Str → Str → Prop) (value : Str) (lang : Option Str) :
    TextConstant → Prop
  | .notAString => False
  | .text c tag => (tag = none ∨ tag = lang) ∧ holds value c

section Abstract

open Classical

noncomputable def Verdict.ofProp (p : Prop) : Verdict := if p then .true else .false

noncomputable def TextTest.onText (value : Str) (lang : Option Str) : TextTest → Verdict
  | .pre beginning => .ofProp (beginning <+: value)
  | .contains c => .ofProp (c.Passes (fun t c => c <:+: t) value lang)
  | .startsWith c => .ofProp (c.Passes (fun t c => c <+: t) value lang)
  | .endsWith c => .ofProp (c.Passes (fun t c => c <:+ t) value lang)
  | .regex test => test.eval value

/-- A string test of the parts: a case is mapped on ASCII text only. -/
noncomputable def TextPredicate.onParts (p : TermParts) (text : TextPredicate) : Verdict :=
  match p.reading text.asStr, text.case with
  | .error verdict, _ => verdict
  | .ok (value, lang), none => text.test.onText value lang
  | .ok (value, lang), some case =>
    if ∀ b ∈ value, b < 0x80 then text.test.onText (case.apply value) lang else .unknown

/-- What a predicate says of a term's parts; it compares no numbers. -/
noncomputable def TermPredicate.onParts {fl : Floats} (p : TermParts) :
    TermPredicate fl → Option Verdict
  | .isLiteral => some (.ofProp (p.kind = .literal))
  | .isIri => some (.ofProp (p.kind = .iri))
  | .isBlank => some (.ofProp (p.kind = .blank))
  | .datatype dt => some (.ofProp (p.datatype = some dt))
  | .lang tag => some (.ofProp (p.kind = .literal ∧ p.lang.getD [] = tag))
  | .langMatches range =>
    match p.lang with
    | none => some .false
    | some tag =>
      some (if DecidedRange range then .ofProp (BasicFilter tag range) else .unknown)
  | .text test => some (test.onParts p)
  | .num _ _ => none

end Abstract

theorem ofProp_eq {p : Prop} {b : Bool} (h : b = true ↔ p) : Verdict.ofBool b = Verdict.ofProp p := by
  unfold Verdict.ofBool Verdict.ofProp
  by_cases hp : p
  · rw [if_pos hp, if_pos (h.mpr hp)]
  · rw [if_neg hp, if_neg (mt h.mp hp)]

/-! ### A literal's spelling taken apart -/

section Spellings

variable {ox : Oxrdf}

theorem stripBrackets (n : NamedNode) :
    (stripPrefix [0x3c] (namedNodeString n)).bind (stripSuffix [0x3e]) = some n.iri := by
  have hopen : stripPrefix [0x3c] (0x3c :: n.iri ++ [0x3e]) = some (n.iri ++ [0x3e]) := by
    rw [stripPrefix, if_pos (by simp)]
    rfl
  have hclose : stripSuffix [0x3e] (n.iri ++ [0x3e]) = some n.iri := by
    rw [stripSuffix, if_pos (by simp)]
    simp
  rw [namedNodeString, hopen, Option.bind_some, hclose]

/-- The view a predicate takes of a literal's spelling has the literal's own parts. -/
structure Views (lit : LiteralView) (p : TermParts) : Prop where
  literal : p.kind = .literal
  lexical : lit.lexical = some p.text
  lang : lit.lang = p.lang
  effective : some lit.effectiveDatatype = p.datatype
  stringLike : lit.isStringLike = p.stringLike
  normalized : (lit.datatype.any fun dt => dt != XSD_STRING.iri && rdflibNormalizes dt) =
    p.datatype.any rdflibNormalizes
  typed : lit.datatype = none ∨ lit.datatype = p.datatype ∧ p.lang = none

theorem not_normalized : rdflibNormalizes XSD_STRING.iri = false ∧
    rdflibNormalizes RDF_LANG_STRING = false := by
  constructor <;> decide

theorem view_toStr {l : Literal} (h : Tagged (.literal l)) :
    ∃ lit, LiteralView.parse (l.toStr ox) = some lit ∧ Views lit (literalParts l) := by
  cases l with
  | simple value =>
    obtain ⟨e, hquoted, hbody, hvalue⟩ := @quoted_reads ox value h
    refine ⟨⟨e, none, none⟩, ?_, rfl, hvalue .strict, rfl, rfl, rfl, ?_, .inl rfl⟩
    · rw [Literal.toStr, hquoted, LiteralView.parse, splitLiteral_simple hbody]
    · rw [literalParts, Option.any_some, not_normalized.1]
      rfl
  | languageTagged value language =>
    obtain ⟨e, hquoted, hbody, hvalue⟩ := @quoted_reads ox value h.1
    refine ⟨⟨e, some language, none⟩, ?_, rfl, hvalue .strict, rfl, rfl, rfl, ?_, .inl rfl⟩
    · rw [Literal.toStr, hquoted, List.append_assoc, List.singleton_append, LiteralView.parse,
        splitLiteral_language hbody]
    · rw [literalParts, Option.any_some, not_normalized.2]
      rfl
  | typed value datatype =>
    obtain ⟨e, hquoted, hbody, hvalue⟩ := @quoted_reads ox value h
    have htext : ox.quoted value ++ [0x5e, 0x5e] ++ namedNodeString datatype =
        QUOTE :: e ++ QUOTE :: 0x5e :: 0x5e :: namedNodeString datatype := by
      rw [hquoted, List.append_assoc, List.append_assoc]
      rfl
    refine ⟨⟨e, none, some datatype.iri⟩, ?_, rfl, hvalue .strict, rfl, rfl, rfl, ?_, .inr ⟨rfl, rfl⟩⟩
    · rw [Literal.toStr, htext, LiteralView.parse, splitLiteral_typed hbody]
      simp only [stripBrackets, Option.map_some]
    · rw [literalParts, Option.any_some, Option.any_some]
      by_cases hstring : datatype.iri = XSD_STRING.iri
      · rw [hstring, not_normalized.1, Bool.and_false]
      · rw [bne_iff_ne.mpr hstring, Bool.true_and]

theorem kindOf_toStr {t : Term} (h : Tagged t) : kindOf (t.toStr ox) = (termParts t).kind := by
  cases t with
  | namedNode n => rfl
  | blankNode b => rfl
  | literal l =>
    have hhead : (l.toStr ox).head? = some QUOTE := by
      cases l with
      | simple value =>
        obtain ⟨e, hquoted, -, -⟩ := @quoted_reads ox value h
        rw [Literal.toStr, hquoted]
        rfl
      | languageTagged value language =>
        obtain ⟨e, hquoted, -, -⟩ := @quoted_reads ox value h.1
        rw [Literal.toStr, hquoted]
        rfl
      | typed value datatype =>
        obtain ⟨e, hquoted, -, -⟩ := @quoted_reads ox value h
        rw [Literal.toStr, hquoted]
        rfl
    have hkind : kindOf ((Term.literal l).toStr ox) = .literal := kindOf_literal_iff.mpr hhead
    rw [hkind]
    cases l <;> rfl

/-- What a predicate on literals answers of a term's spelling. -/
theorem onLiteral_toStr {t : Term} (h : Tagged t) (f : LiteralView → Verdict) (v : Verdict)
    (hnode : (termParts t).kind ≠ .literal → v = .false)
    (hview : ∀ lit, Views lit (termParts t) → f lit = v) :
    onLiteral (termParts t).kind (t.toStr ox) f = v := by
  by_cases hkind : (termParts t).kind = .literal
  · cases t with
    | namedNode n => cases hkind
    | blankNode b => cases hkind
    | literal l =>
      obtain ⟨lit, hparse, hlit⟩ := @view_toStr ox l h
      have hparse' : LiteralView.parse ((Term.literal l).toStr ox) = some lit := hparse
      rw [onLiteral, hparse']
      exact hview lit hlit
  · have hsame : kindOf (t.toStr ox) = (termParts t).kind := kindOf_toStr h
    rw [hnode hkind, ← hsame]
    exact onLiteral_of_not_literal (hsame ▸ hkind) f

/-- The text a predicate reads off a term's spelling is the one its parts give. -/
theorem textOf_toStr {t : Term} (h : Tagged t) (text : TextPredicate) :
    text.textOf (t.toStr ox) (termParts t).kind = (termParts t).reading text.asStr := by
  cases t with
  | namedNode n =>
    have hopen : (stripPrefix [0x3c] ((Term.namedNode n).toStr ox)).bind (stripSuffix [0x3e]) =
        some n.iri := stripBrackets n
    rw [termParts, TextPredicate.textOf, TermParts.reading.eq_def]
    cases text.asStr with
    | true => simp only [hopen, if_true]
    | false => rfl
  | blankNode b =>
    rw [termParts, TextPredicate.textOf, TermParts.reading.eq_def]
    cases text.asStr <;> rfl
  | literal l =>
    obtain ⟨lit, hparse, hlit⟩ := @view_toStr ox l h
    have hparse' : LiteralView.parse ((Term.literal l).toStr ox) = some lit := hparse
    have hkind : (literalParts l).kind = .literal := by cases l <;> rfl
    rw [termParts, hkind, TextPredicate.textOf, TermParts.reading.eq_def, hkind]
    simp only [hparse', hlit.lexical, hlit.normalized, hlit.stringLike, hlit.lang]
    cases text.asStr <;> rfl

/-! ### Filtering by language -/

theorem isAsciiAlphanumeric_of_alphabetic {b : UInt8} (h : isAsciiAlphabetic b = true) :
    isAsciiAlphanumeric b = true := by
  rw [isAsciiAlphabetic] at h
  rw [isAsciiAlphanumeric, Bool.or_assoc, h, Bool.or_true]

theorem LangTag.plain {tag : Str} (h : LangTag tag) :
    ∀ b ∈ tag, isAsciiAlphanumeric b = true ∨ b = 0x2d := by
  obtain ⟨first, subtags, rfl, -, hfirst, hsubs⟩ := h
  intro b hb
  rcases List.mem_append.mp hb with hb | hb
  · exact .inl (isAsciiAlphanumeric_of_alphabetic (hfirst b hb))
  · obtain ⟨sub, hsub, hb⟩ := List.mem_flatMap.mp hb
    rcases List.mem_cons.mp hb with rfl | hb
    · exact .inr rfl
    · exact .inl ((hsubs sub hsub).2 b hb)

theorem LangTag.ne_nil {tag : Str} (h : LangTag tag) : tag ≠ [] := by
  obtain ⟨first, subtags, rfl, hne, -, -⟩ := h
  exact List.append_ne_nil_of_left_ne_nil hne _

theorem plain_iff {s : Str} : (s.all fun b => isAsciiAlphanumeric b || b == 0x2d) = true ↔
    ∀ b ∈ s, isAsciiAlphanumeric b = true ∨ b = 0x2d := by
  simp only [List.all_eq_true, Bool.or_eq_true, beq_iff_eq]

/-- A range but `*` matches by its bytes, taken off the front of the tag. -/
theorem basicFilter_iff {tag range : Str} (hstar : range ≠ [0x2a]) : BasicFilter tag range ↔
    (tag.take range.length).map toAsciiLowercase = range.map toAsciiLowercase ∧
      ∀ b ∈ tag[range.length]?, b = 0x2d := by
  constructor
  · rintro (⟨heq, -⟩ | ⟨pre, rest, rfl, hpre, hrest⟩)
    · exact absurd heq hstar
    · have hlen : pre.length = range.length := by
        have := congrArg List.length hpre
        rwa [List.length_map, List.length_map] at this
      rw [← hlen, List.take_left, List.getElem?_append_right le_rfl, Nat.sub_self,
        ← List.head?_eq_getElem?]
      refine ⟨hpre, fun b hb => ?_⟩
      rcases hrest with rfl | hrest
      · cases hb
      · exact Option.some.inj ((Option.mem_def.mp hb).symm.trans hrest)
  · rintro ⟨hpre, hrest⟩
    refine .inr ⟨_, _, (List.take_append_drop range.length tag).symm, hpre, ?_⟩
    rw [List.head?_drop]
    cases hnext : tag[range.length]? with
    | none => exact .inl (List.drop_eq_nil_of_le (List.getElem?_eq_none_iff.mp hnext))
    | some b => exact .inr (congrArg some (hrest b hnext))

open Classical in
theorem langMatches_eq {tag : Str} (h : LangTag tag) (range : Str) : langMatches tag range =
    if DecidedRange range then Verdict.ofProp (BasicFilter tag range) else .unknown := by
  have htag := plain_iff.mpr h.plain
  rw [langMatches]
  by_cases hstar : range = [0x2a]
  · rw [if_pos hstar, if_pos (.inl hstar)]
    refine ofProp_eq ?_
    have hne := h.ne_nil
    constructor
    · exact fun _ => .inl ⟨hstar, hne⟩
    · exact fun _ => by simp [hne]
  · rw [if_neg hstar]
    have hdecided : ((!(range.all fun b => isAsciiAlphanumeric b || b == 0x2d)) ||
        !(tag.all fun b => isAsciiAlphanumeric b || b == 0x2d)) = true ↔
        (range.all fun b => isAsciiAlphanumeric b || b == 0x2d) = false := by
      rw [htag, Bool.not_true, Bool.or_false, Bool.not_eq_true']
    by_cases hrange : ∀ b ∈ range, isAsciiAlphanumeric b = true ∨ b = 0x2d
    · have hplain := plain_iff.mpr hrange
      rw [if_neg (mt hdecided.mp (by rw [hplain]; exact Bool.noConfusion)), if_pos (.inr hrange)]
      refine ofProp_eq ?_
      rw [basicFilter_iff hstar, Bool.and_eq_true, Bool.and_eq_true, decide_eq_true_iff, beq_iff_eq]
      have hall : (tag[range.length]?).all (· == 0x2d) = true ↔
          ∀ b ∈ tag[range.length]?, b = 0x2d := by
        cases tag[range.length]? <;> simp
      rw [hall]
      constructor
      · exact fun hboth => ⟨hboth.1.2, hboth.2⟩
      · rintro ⟨hpre, hrest⟩
        refine ⟨⟨?_, hpre⟩, hrest⟩
        have := congrArg List.length hpre
        rw [List.length_map, List.length_map, List.length_take] at this
        omega
    · have hplain : (range.all fun b => isAsciiAlphanumeric b || b == 0x2d) = false :=
        Bool.eq_false_iff.mpr (mt plain_iff.mp hrange)
      have hundecided : ¬ DecidedRange range := not_or.mpr ⟨hstar, hrange⟩
      rw [if_pos (hdecided.mpr hplain), if_neg hundecided]

/-! ### Tests of a text -/

theorem holdsOf_eq (value : Str) (lang : Option Str) (c : TextConstant)
    {holds : Str → Str → Bool} {p : Str → Str → Prop} (h : ∀ t c, holds t c = true ↔ p t c) :
    TextPredicate.holdsOf value lang c holds = Verdict.ofProp (c.Passes p value lang) := by
  cases c with
  | notAString =>
    have hnot : ¬ TextConstant.notAString.Passes p value lang := id
    rw [Verdict.ofProp, if_neg hnot]
    rfl
  | text c tag =>
    have hpasses : (TextConstant.text c tag).Passes p value lang ↔
        (tag = none ∨ tag = lang) ∧ p value c := Iff.rfl
    cases tag with
    | none =>
      refine ofProp_eq ?_
      rw [hpasses, h]
      exact ⟨fun hp => ⟨.inl rfl, hp⟩, And.right⟩
    | some tag =>
      rw [TextPredicate.holdsOf.eq_def]
      dsimp only
      by_cases htag : lang = some tag
      · rw [if_neg (not_not.mpr htag)]
        refine ofProp_eq ?_
        rw [hpasses, h]
        exact ⟨fun hp => ⟨.inr htag.symm, hp⟩, And.right⟩
      · rw [if_pos htag, Verdict.ofProp, if_neg]
        rintro ⟨hnone | hsame, -⟩
        · cases hnone
        · exact htag hsame.symm

theorem testText_eq (text : TextPredicate) (value : Str) (lang : Option Str) :
    text.testText value lang = text.test.onText value lang := by
  rw [TextPredicate.testText]
  cases text.test with
  | pre beginning => exact ofProp_eq List.isPrefixOf_iff_prefix
  | contains c => exact holdsOf_eq value lang c fun t c => decide_eq_true_iff
  | startsWith c => exact holdsOf_eq value lang c fun t c => List.isPrefixOf_iff_prefix
  | endsWith c => exact holdsOf_eq value lang c fun t c => List.isSuffixOf_iff_suffix
  | regex test => rfl

theorem textEval_toStr {t : Term} (h : Tagged t) (text : TextPredicate) :
    text.eval (t.toStr ox) (termParts t).kind = text.onParts (termParts t) := by
  rw [TextPredicate.eval, TextPredicate.onParts.eq_def, textOf_toStr h]
  cases (termParts t).reading text.asStr with
  | error verdict => cases text.case <;> rfl
  | ok read =>
    obtain ⟨value, lang⟩ := read
    cases hcase : text.case with
    | none => exact testText_eq text value lang
    | some case =>
      have hascii : isAscii value = true ↔ ∀ b ∈ value, b < 0x80 := by
        simp only [isAscii, List.all_eq_true, decide_eq_true_eq]
      dsimp only
      by_cases hall : ∀ b ∈ value, b < 0x80
      · rw [if_pos hall, hascii.mpr hall]
        cases case <;> exact testText_eq text _ lang
      · rw [if_neg hall, Bool.eq_false_iff.mpr (mt hascii.mp hall)]
        rfl

/-! ### Predicates on terms -/

/-- Evaluated on a term's spelling, a predicate says what it says of the term's parts. -/
theorem eval_toStr {fl : Floats} {t : Term} (h : Tagged t) {predicate : TermPredicate fl}
    {v : Verdict} (hv : predicate.onParts (termParts t) = some v) :
    predicate.eval (t.toStr ox) = v := by
  have hkind : kindOf (t.toStr ox) = (termParts t).kind := kindOf_toStr h
  have hterm : (termParts t).kind ≠ .other := by
    cases t with
    | namedNode n => exact Kind.noConfusion
    | blankNode b => exact Kind.noConfusion
    | literal l => cases l <;> exact Kind.noConfusion
  have hkinds : ∀ k : Kind, Verdict.ofBool ((termParts t).kind == k) =
      Verdict.ofProp ((termParts t).kind = k) := fun k => ofProp_eq beq_iff_eq
  rw [TermPredicate.eval.eq_def]
  simp only [hkind]
  rw [if_neg hterm]
  cases predicate with
  | isLiteral => exact (hkinds _).trans (Option.some.inj hv)
  | isIri => exact (hkinds _).trans (Option.some.inj hv)
  | isBlank => exact (hkinds _).trans (Option.some.inj hv)
  | datatype dt =>
    obtain rfl := Option.some.inj hv
    refine onLiteral_toStr h _ _ (fun hnode => ?_) fun lit hlit => ofProp_eq ?_
    · -- a node has no datatype
      have hnone : (termParts t).datatype = none := by
        cases t with
        | namedNode n => rfl
        | blankNode b => rfl
        | literal l => cases l <;> exact absurd rfl hnode
      rw [hnone, Verdict.ofProp, if_neg (Option.some_ne_none dt).symm]
    · rw [← hlit.effective, beq_iff_eq, Option.some_inj]
  | lang tag =>
    obtain rfl := Option.some.inj hv
    refine onLiteral_toStr h _ _ (fun hnode => ?_) fun lit hlit => ofProp_eq ?_
    · rw [Verdict.ofProp, if_neg fun hboth => hnode hboth.1]
    · rw [hlit.lang, beq_iff_eq]
      exact ⟨fun htag => ⟨hlit.literal, htag⟩, And.right⟩
  | langMatches range =>
    refine onLiteral_toStr h _ _ (fun hnode => ?_) fun lit hlit => ?_
    · cases t with
      | namedNode n => exact (Option.some.inj hv).symm
      | blankNode b => exact (Option.some.inj hv).symm
      | literal l => cases l <;> exact absurd rfl hnode
    · rw [hlit.lang]
      cases t with
      | namedNode n => exact Option.some.inj hv
      | blankNode b => exact Option.some.inj hv
      | literal l =>
        cases l with
        | simple value => exact Option.some.inj hv
        | typed value datatype => exact Option.some.inj hv
        | languageTagged value language =>
          exact (langMatches_eq h.2 range).trans (Option.some.inj hv)
  | text test =>
    obtain rfl := Option.some.inj hv
    exact textEval_toStr h test
  | num op number => cases hv

/-! ### A string literal as a constant -/

theorem intercalate_hyphen (first : Str) (subtags : List Str) :
    [0x2d].intercalate (first :: subtags) = first ++ subtags.flatMap (0x2d :: ·) := by
  induction subtags generalizing first with
  | nil => simp [List.intercalate]
  | cons sub subtags ih =>
    rw [List.intercalate_cons_of_ne_nil (List.cons_ne_nil sub subtags), ih sub]
    simp

/-- The tags accepted are those of the grammar. -/
theorem isLanguageTag_iff {tag : Str} : isLanguageTag tag = true ↔ LangTag tag := by
  constructor
  · intro h
    have hjoin : [0x2d].intercalate (tag.splitOn 0x2d) = tag := List.intercalate_splitOn 0x2d
    rw [isLanguageTag] at h
    cases hsplit : tag.splitOn 0x2d with
    | nil =>
      rw [hsplit] at h
      cases h
    | cons first subtags =>
      rw [hsplit] at h hjoin
      simp only [Bool.and_eq_true, Bool.not_eq_true', List.isEmpty_eq_false_iff, List.all_eq_true] at h
      exact ⟨first, subtags, by rw [← intercalate_hyphen, hjoin], h.1.1, h.1.2, h.2⟩
  · rintro ⟨first, subtags, rfl, hne, hfirst, hsubs⟩
    have hsplit : (first ++ subtags.flatMap (0x2d :: ·)).splitOn 0x2d = first :: subtags := by
      rw [← intercalate_hyphen]
      refine List.splitOn_intercalate 0x2d (fun sub hsub hyphen => ?_) (List.cons_ne_nil _ _)
      rcases List.mem_cons.mp hsub with rfl | hsub
      · exact absurd (hfirst _ hyphen) (by decide)
      · exact absurd ((hsubs sub hsub).2 _ hyphen) (by decide)
    rw [isLanguageTag, hsplit]
    simp only [Bool.and_eq_true, Bool.not_eq_true', List.isEmpty_eq_false_iff, List.all_eq_true]
    exact ⟨⟨hne, hfirst⟩, hsubs⟩

/-- A string literal's spelling is a constant of its own value and tag. -/
theorem parse_toStr {t : Term} (h : Tagged t) (hlike : (termParts t).stringLike = true) :
    TextConstant.parse ox (t.toStr ox) = .ok (.text (termParts t).text (termParts t).lang) := by
  cases t with
  | namedNode n => cases hlike
  | blankNode b => cases hlike
  | literal l =>
    obtain ⟨lit, hparse, hlit⟩ := @view_toStr ox l h
    have hparse' : LiteralView.parse ((Term.literal l).toStr ox) = some lit := hparse
    have hhead : ((Term.literal l).toStr ox).head? = some QUOTE := by
      rw [← kindOf_literal_iff, kindOf_toStr h]
      exact hlit.literal
    have hangle : ¬ ((Term.literal l).toStr ox).head? = some 0x3c := by
      rw [hhead]
      decide
    have hblank : stripPrefix BLANK_PREFIX ((Term.literal l).toStr ox) = none := by
      obtain ⟨rest, hrest⟩ := List.head?_eq_some_iff.mp hhead
      rw [hrest]
      rfl
    have htag : (literalParts l).lang.any (fun tag => !isLanguageTag tag) = false := by
      cases l with
      | simple value => rfl
      | typed value datatype => rfl
      | languageTagged value language =>
        rw [literalParts, Option.any_some, isLanguageTag_iff.mpr h.2]
        rfl
    have htyped : lit.datatype.any (·.any isAngle) = false := by
      rcases hlit.typed with hnone | ⟨hsame, huntagged⟩
      · rw [hnone]
        rfl
      · have hstring : (literalParts l).datatype = some XSD_STRING.iri := by
          have hlike' : (literalParts l).stringLike = true := hlike
          rw [TermParts.stringLike, huntagged] at hlike'
          exact beq_iff_eq.mp hlike'
        rw [hsame, hstring]
        decide
    rw [TextConstant.parse, if_neg hangle, hblank]
    simp only [hparse', hlit.lang, htag, htyped, hlit.lexical, hlit.stringLike, Bool.or_self,
      Bool.false_eq_true, if_false]
    exact if_pos hlike

/-- Of a term with a tag of the grammar, every predicate evaluated on the stored spelling
says what it says of the term's own parts; a string literal's own spelling is a constant of
its value and tag, which it contains, begins and ends with. -/
theorem eval_readsTerm (ox : Oxrdf) (fl : Floats) {t : Term} (h : Tagged t) :
    (∀ (predicate : TermPredicate fl) (v : Verdict), predicate.onParts (termParts t) = some v →
      predicate.eval (t.toStr ox) = v) ∧
    ((termParts t).stringLike = true → ∃ c,
      TextConstant.parse ox (t.toStr ox) = .ok c ∧
      c = .text (termParts t).text (termParts t).lang ∧
      ∀ test ∈ [TextTest.contains c, .startsWith c, .endsWith c],
        (TermPredicate.text ⟨test, none, false⟩ : TermPredicate fl).eval (t.toStr ox) = .true) := by
  refine ⟨fun predicate v hv => eval_toStr h hv, fun hlike => ⟨_, parse_toStr h hlike, rfl, ?_⟩⟩
  have hreading : (termParts t).reading false = .ok ((termParts t).text, (termParts t).lang) := by
    cases t with
    | namedNode n => cases hlike
    | blankNode b => cases hlike
    | literal l =>
      have hkind : (termParts (.literal l)).kind = .literal := by cases l <;> rfl
      rw [TermParts.reading.eq_def, hkind]
      exact if_pos hlike
  have htest : ∀ test : TextTest, test.onText (termParts t).text (termParts t).lang = .true →
      (TermPredicate.text ⟨test, none, false⟩ : TermPredicate fl).eval (t.toStr ox) = .true := by
    intro test hpass
    refine eval_toStr h ?_
    rw [TermPredicate.onParts, TextPredicate.onParts.eq_def]
    simp only [hreading, hpass]
  intro test hmem
  simp only [List.mem_cons, List.not_mem_nil, or_false] at hmem
  rcases hmem with rfl | rfl | rfl
  · exact htest _ (if_pos ⟨.inr rfl, List.infix_rfl⟩)
  · exact htest _ (if_pos ⟨.inr rfl, List.prefix_rfl⟩)
  · exact htest _ (if_pos ⟨.inr rfl, List.suffix_rfl⟩)

/-- The text `a` tagged `en-us`. -/
def taggedA : Term := .literal (.languageTagged (utf8 ['a']) [0x65, 0x6e, 0x2d, 0x75, 0x73])

theorem taggedA_tagged : Tagged taggedA := by
  refine ⟨⟨['a'], rfl⟩, [0x65, 0x6e], [[0x75, 0x73]], rfl, List.cons_ne_nil _ _, fun b hb => ?_,
    fun sub hsub => ?_⟩
  · simp only [List.mem_cons, List.not_mem_nil, or_false] at hb
    rcases hb with rfl | rfl <;> rfl
  · obtain rfl := List.mem_singleton.mp hsub
    refine ⟨List.cons_ne_nil _ _, fun b hb => ?_⟩
    simp only [List.mem_cons, List.not_mem_nil, or_false] at hb
    rcases hb with rfl | rfl <;> rfl

theorem eval_readsTerm_sample :
    (∀ (predicate : TermPredicate leanFloats) (v : Verdict),
      predicate.onParts (termParts taggedA) = some v →
      predicate.eval (taggedA.toStr ntriples) = v) ∧
    ((termParts taggedA).stringLike = true → ∃ c,
      TextConstant.parse ntriples (taggedA.toStr ntriples) = .ok c ∧
      c = .text (termParts taggedA).text (termParts taggedA).lang ∧
      ∀ test ∈ [TextTest.contains c, .startsWith c, .endsWith c],
        (TermPredicate.text ⟨test, none, false⟩ : TermPredicate leanFloats).eval
          (taggedA.toStr ntriples) = .true) :=
  eval_readsTerm ntriples leanFloats taggedA_tagged

end Spellings

end Dictionary
