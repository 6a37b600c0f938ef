/-
Read terms are equal when they are one term.

* `textDecoder_spelling`, `parseNt_spelling` — a packed spelling decoded, and parsed to its parts;
* `sameParts_iff`, `spelling_inj` — the parts `equals` compares, and the spellings, tell terms apart;
* `Kept` — the strings a LazyDict keeps are the ones its dictionary decodes;
* `Stands` — a lazy term at a row that holds a stored term, read before or not;
* `parsed_computes`, `equals_computes` — what it reads, and both paths of `equals`.
-/
import VortexRdf.LazyParses

namespace Programs

variable {ε σ α : Type} {inv : σ → Prop}

/-- What a run gives is what the program computes. -/
theorem Computes.result {p : Prog ε σ α} {expected expected' : Except ε α} {s s' : σ}
    (h : Computes inv p expected) (hs : inv s) (hrun : p s = (expected', s')) : expected' = expected := by
  obtain ⟨s'', hrun', -⟩ := h s hs
  rw [hrun] at hrun'
  exact congrArg Prod.fst hrun'

/-- An answer that decides a proposition. -/
theorem Computes.decided {b : Bool} {P : Prop} [hP : Decidable P] (h : b = true ↔ P) :
    Computes inv (Pure.pure b : Prog ε σ Bool) (.ok (decide P)) := by
  have hb : b = decide P := by
    rw [Bool.eq_iff_iff, decide_eq_true_iff]
    exact h
  rw [hb]
  exact Computes.pure _

section Questions

variable {Q : Prop} [hQ : Decidable Q] {rest : Prog ε σ Bool}

/-- False at once for two values that differ, as then the proposition fails; else the rest decides it. -/
theorem Computes.unlessDiffer {β : Type} [hβ : DecidableEq β] {a b : β} (h : Q → a = b)
    (hrest : a = b → Computes inv rest (.ok (decide Q))) :
    Computes inv (if a ≠ b then Pure.pure false else rest) (.ok (decide Q)) := by
  split_ifs with hne
  · exact Computes.decided ⟨nofun, fun hq => absurd (h hq) hne⟩
  · exact hrest (not_not.mp hne)

/-- A question asked first, which the proposition needs; the rest is asked when it holds. -/
theorem Computes.andThen {p : Prog ε σ Bool} {P : Prop} [hP : Decidable P]
    (hp : Computes inv p (.ok (decide P))) (h : Q → P)
    (hrest : P → Computes inv rest (.ok (decide Q))) :
    Computes inv (p >>= fun holds => if holds then rest else Pure.pure false) (.ok (decide Q)) := by
  refine hp.bind_ok ?_
  by_cases hholds : P
  · rw [decide_eq_true hholds, if_pos rfl]
    exact hrest hholds
  · rw [decide_eq_false hholds, if_neg Bool.false_ne_true]
    exact Computes.decided ⟨nofun, fun hq => absurd (h hq) hholds⟩

end Questions

end Programs

namespace LazyRdf

open Dictionary Programs Store Terms
open scoped Lexicographic
open Utf16 (utf16)

/-! ### Spellings and parts -/

section Parts

variable {ox : Oxrdf} {t u : Stored}

/-- A spelling begins with an ASCII byte. -/
theorem spelling_head (ht : Valid ox t) : ∀ b ∈ (spelling ox t).head?, b < 0x80 := by
  have hhead : ∀ {s : Str} {b : UInt8}, s.head? = some b → b < 0x80 → ∀ b' ∈ s.head?, b' < 0x80 := by
    intro s b hs hb b' hb'
    rw [hs] at hb'
    rwa [← Option.some.inj hb']
  cases t with
  | none => exact fun b hb => absurd hb (Option.not_mem_none b)
  | some t =>
    have haccepted := (ht t rfl).1
    cases t with
    | namedNode n => exact @hhead (namedNodeString n) 0x3c rfl (by decide)
    | blankNode b => exact @hhead (blankNodeString b) 0x5f rfl (by decide)
    | literal l => exact hhead (head_toStr haccepted) (by decide)

/-- So it has no byte order mark, and is decoded whole. -/
theorem textDecoder_spelling (ht : Valid ox t) :
    textDecoder (spelling ox t) = jsString (spelling ox t) := by
  have hmark : ¬(spelling ox t).take 3 = [0xef, 0xbb, 0xbf] := by
    intro heq
    have hhead : (spelling ox t).head? = some 0xef := by
      have htake := congrArg List.head? heq
      rwa [List.head?_take, if_neg (by decide)] at htake
    exact absurd (spelling_head ht 0xef hhead) (by decide)
  rw [textDecoder, withoutMark, if_neg hmark]
  rfl

theorem parseNt_spelling (hox : QuoteFree ox) (ht : Valid ox t) :
    parseNt (jsString (spelling ox t)) = .ok (ownParts t) := by
  obtain ⟨text, htext, hparse⟩ := parseNt_own hox ht
  rw [htext, jsString_utf8, hparse]

theorem jsString_inj {s s' : Str} (hs : IsText s) (hs' : IsText s') (h : jsString s = jsString s') :
    s = s' := by
  obtain ⟨text, rfl⟩ := hs
  obtain ⟨text', rfl⟩ := hs'
  rw [jsString_utf8, jsString_utf8] at h
  rw [utf16_inj h]

theorem isText_nil : IsText [] := ⟨[], rfl⟩

/-- What `equals` compares of two terms. -/
structure SameParts (p p' : Parsed) : Prop where
  termType : p.termType = p'.termType
  value : p.value = p'.value
  language : p.termType = .literal → p.language.getD [] = p'.language.getD []
  datatype : p.termType = .literal → p.datatype = p'.datatype

theorem SameParts.refl (p : Parsed) : SameParts p p := ⟨rfl, rfl, fun _ => rfl, fun _ => rfl⟩

/-- The tag of a literal, empty for one without. -/
def literalTag : Literal → Str
  | .languageTagged _ language => language
  | _ => []

def literalValue : Literal → Str
  | .simple value => value
  | .languageTagged value _ => value
  | .typed value _ => value

theorem literalOwn_value (l : Literal) : (literalOwn l).value = jsString (literalValue l) := by
  cases l <;> rfl

theorem literalOwn_language (l : Literal) : (literalOwn l).language.getD [] = jsString (literalTag l) := by
  cases l <;> rfl

theorem text_value {l : Literal} (h : Texts (.literal l)) : IsText (literalValue l) := by
  cases l with
  | simple value => exact h
  | languageTagged value language => exact h.1
  | typed value datatype => exact h.1

theorem text_tag {l : Literal} (h : Texts (.literal l)) : IsText (literalTag l) := by
  cases l with
  | languageTagged value language => exact h.2
  | simple value => exact isText_nil
  | typed value datatype => exact isText_nil

theorem text_xsdString : IsText XSD_STRING.iri := ⟨_, rfl⟩

theorem jsString_xsdString : jsString XSD_STRING.iri = XSD_STRING_UNITS := jsString_utf8 _

/-- Literals whose parts are the same are one: a simple one has a datatype no typed one has, a
tagged one a tag. -/
theorem literalOwn_inj (hox : QuoteFree ox) {l l' : Literal} (hl : l.Accepted ox) (hl' : l'.Accepted ox)
    (htexts : Texts (.literal l)) (htexts' : Texts (.literal l'))
    (h : SameParts (literalOwn l) (literalOwn l')) : l = l' := by
  have htype : (literalOwn l).termType = .literal := by cases l <;> rfl
  have hvalue : literalValue l = literalValue l' := by
    refine jsString_inj (text_value htexts) (text_value htexts') ?_
    rw [← literalOwn_value, ← literalOwn_value, h.value]
  have htag : literalTag l = literalTag l' := by
    refine jsString_inj (text_tag htexts) (text_tag htexts') ?_
    rw [← literalOwn_language, ← literalOwn_language, h.language htype]
  have hdatatype := h.datatype htype
  -- no typed literal is a string's, and no tag is empty
  have htyped : ∀ {value : Str} {datatype : NamedNode}, (Literal.typed value datatype).Accepted ox →
      Texts (.literal (.typed value datatype)) → jsString datatype.iri ≠ XSD_STRING_UNITS := by
    rintro value ⟨iri⟩ haccepted htexts heq
    refine haccepted.2.2 ?_
    rw [← jsString_xsdString] at heq
    exact congrArg NamedNode.mk (jsString_inj htexts.2 text_xsdString heq)
  have htagged : ∀ {value language : Str}, (Literal.languageTagged value language).Accepted ox →
      language ≠ [] := fun haccepted => (hox.language _ _ haccepted.2).2
  cases l with
  | simple value =>
    obtain rfl : value = literalValue l' := hvalue
    cases l' with
    | simple value' => rfl
    | languageTagged value' language' => exact absurd htag.symm (htagged hl')
    | typed value' datatype' => exact absurd (Option.some.inj hdatatype).symm (htyped hl' htexts')
  | languageTagged value language =>
    obtain rfl : value = literalValue l' := hvalue
    cases l' with
    | simple value' => exact absurd htag (htagged hl)
    | languageTagged value' language' =>
      obtain rfl : language = language' := htag
      rfl
    | typed value' datatype' => exact absurd htag (htagged hl)
  | typed value datatype =>
    obtain rfl : value = literalValue l' := hvalue
    cases l' with
    | simple value' => exact absurd (Option.some.inj hdatatype) (htyped hl htexts)
    | languageTagged value' language' => exact absurd htag.symm (htagged hl')
    | typed value' datatype' =>
      obtain ⟨iri⟩ := datatype
      obtain ⟨iri'⟩ := datatype'
      obtain rfl : iri = iri' := jsString_inj htexts.2 htexts'.2 (Option.some.inj hdatatype)
      rfl

/-- What a stored term is. -/
def kind : Stored → TermType
  | none => .defaultGraph
  | some (.namedNode _) => .namedNode
  | some (.blankNode _) => .blankNode
  | some (.literal _) => .literal

theorem ownParts_kind (t : Stored) : (ownParts t).termType = kind t := by
  rcases t with _ | _ | _ | l
  · rfl
  · rfl
  · rfl
  · cases l <;> rfl

/-- The parts `equals` compares are those of one term alone. -/
theorem sameParts_iff (hox : QuoteFree ox) (ht : Valid ox t) (hu : Valid ox u) :
    SameParts (ownParts t) (ownParts u) ↔ t = u := by
  constructor
  · intro h
    have hkind := h.termType
    have hvalue := h.value
    rw [ownParts_kind, ownParts_kind] at hkind
    rcases t with _ | ⟨⟨iri⟩⟩ | ⟨⟨id⟩⟩ | l
    · rcases u with _ | _ | _ | _ <;> cases hkind
      rfl
    · rcases u with _ | ⟨⟨iri'⟩⟩ | _ | _ <;> cases hkind
      obtain rfl : iri = iri' := jsString_inj (ht _ rfl).2 (hu _ rfl).2 hvalue
      rfl
    · rcases u with _ | _ | ⟨⟨id'⟩⟩ | _ <;> cases hkind
      obtain rfl : id = id' := jsString_inj (ht _ rfl).2 (hu _ rfl).2 hvalue
      rfl
    · rcases u with _ | _ | _ | l' <;> cases hkind
      obtain ⟨hl, htexts⟩ := ht _ rfl
      obtain ⟨hl', htexts'⟩ := hu _ rfl
      rw [literalOwn_inj hox hl hl' htexts htexts' h]
  · rintro rfl
    exact SameParts.refl _

/-- Two stored terms with one spelling are one. -/
theorem spelling_inj (hox : QuoteFree ox) (ht : Valid ox t) (hu : Valid ox u)
    (h : spelling ox t = spelling ox u) : t = u := by
  have hparts : ownParts t = ownParts u := by
    have hparse := parseNt_spelling hox ht
    rw [h, parseNt_spelling hox hu] at hparse
    exact (Except.ok.inj hparse).symm
  rw [← sameParts_iff hox ht hu, hparts]
  exact SameParts.refl _

end Parts

/-! ### Reading a spelling -/

/-- What each LazyDict has kept is what its dictionary decodes. -/
def Kept (dicts : Dicts) (caches : Caches) : Prop :=
  ∀ dict code s, caches dict code = some s → termDictDecode (dicts dict) code = .ok (some s)

/-- The row holds the spelling of a stored term. -/
def Col.Spells (ox : Oxrdf) (dicts : Dicts) (t : Stored) (i : ℕ) : Col → Prop
  | .coded dict codes => ∃ code, codes[i]? = some code ∧ code ≤ MAX_SAFE_INTEGER ∧
      (dicts dict).terms[code]? = some (spelling ox t)
  | .packed offsets bytes => rowBytes offsets bytes i = spelling ox t

section Reading

variable {ox : Oxrdf} {dicts : Dicts} {t u : Stored}

theorem kept_empty : Kept dicts fun _ _ => none := fun _ _ _ h => nomatch h

theorem kept_cached {caches : Caches} (h : Kept dicts caches) {dict : DictId} {code : ℕ}
    {s : Option Units} (hs : termDictDecode (dicts dict) code = .ok s) :
    Kept dicts (cached caches dict code s) := by
  intro dict' code' s' hcached
  rw [cached] at hcached
  split_ifs at hcached with hplace
  · obtain ⟨rfl, rfl⟩ := hplace
    rw [hs, hcached]
  · exact h dict' code' s' hcached

/-- Kept or not, a code's string is the dictionary's. -/
theorem decode_computes (dict : DictId) (code : ℕ) :
    Computes (Kept dicts) (LazyDict.decode dicts dict code) (termDictDecode (dicts dict) code) := by
  intro caches hkept
  rw [LazyDict.decode]
  cases hcache : caches dict code with
  | some s => exact ⟨caches, by rw [hkept dict code s hcache], hkept⟩
  | none =>
    cases hdecode : termDictDecode (dicts dict) code with
    | ok s => exact ⟨_, rfl, kept_cached hkept hdecode⟩
    | error error => exact ⟨caches, rfl, hkept⟩

theorem ntAt_computes (ht : Valid ox t) {col : Col} {i : ℕ} (h : col.Spells ox dicts t i) :
    Computes (Kept dicts) (ntAt dicts col i) (.ok (some (jsString (spelling ox t)))) := by
  cases col with
  | coded dict codes =>
    obtain ⟨code, hcode, hsafe, hterm⟩ := h
    have hdecode : termDictDecode (dicts dict) code = .ok (some (jsString (spelling ox t))) := by
      rw [termDictDecode, if_pos hsafe, TermDictionary.decode_eq, hterm]
      rfl
    rw [ntAt, hcode, ← hdecode]
    exact decode_computes dict code
  | packed offsets bytes =>
    have hbytes : rowBytes offsets bytes i = spelling ox t := h
    rw [ntAt, hbytes, textDecoder_spelling ht]
    exact Computes.pure _

/-! ### Terms -/

/-- A lazy term over a row that holds a stored term; what it keeps, if it was read before, it got
by parsing that row. -/
structure LazyTerm.Stands (ox : Oxrdf) (dicts : Dicts) (t : Stored) (x : LazyTerm) : Prop where
  valid : Valid ox t
  spells : x.col.Spells ox dicts t x.i
  read : ∀ p, x.p = some p → ∃ caches caches', Kept dicts caches ∧
    LazyTerm.parsed dicts ⟨x.col, x.i, none⟩ caches = (.ok p, caches')

variable {x y : LazyTerm}

theorem parsed_fresh (hox : QuoteFree ox) (ht : Valid ox t) {col : Col} {i : ℕ}
    (h : col.Spells ox dicts t i) :
    Computes (Kept dicts) (LazyTerm.parsed dicts ⟨col, i, none⟩) (.ok (ownParts t)) := by
  refine (ntAt_computes ht h).bind_ok ?_
  rw [LazyTerm.parsedAt, parseNt_spelling hox ht]
  exact Computes.lift _

theorem parsed_computes (hox : QuoteFree ox) (h : x.Stands ox dicts t) :
    Computes (Kept dicts) (x.parsed dicts) (.ok (ownParts t)) := by
  obtain ⟨col, i, p⟩ := x
  have hfresh := parsed_fresh hox h.valid h.spells
  cases p with
  | none => exact hfresh
  | some p =>
    -- what was kept is what a read gives, from any strings kept
    obtain ⟨caches, caches', hkept, hrun⟩ := h.read p rfl
    obtain rfl := Except.ok.inj (hfresh.result hkept hrun)
    exact Computes.pure _

theorem termType_computes (hox : QuoteFree ox) (h : x.Stands ox dicts t) :
    Computes (Kept dicts) (x.termType dicts) (.ok (ownParts t).termType) :=
  (parsed_computes hox h).bind_ok (Computes.pure _)

theorem value_computes (hox : QuoteFree ox) (h : x.Stands ox dicts t) :
    Computes (Kept dicts) (x.value dicts) (.ok (ownParts t).value) :=
  (parsed_computes hox h).bind_ok (Computes.pure _)

theorem language_computes (hox : QuoteFree ox) (h : x.Stands ox dicts t) :
    Computes (Kept dicts) (x.language dicts) (.ok ((ownParts t).language.getD [])) :=
  (parsed_computes hox h).bind_ok (Computes.pure _)

theorem datatype_computes (hox : QuoteFree ox) (h : x.Stands ox dicts t) :
    Computes (Kept dicts) (x.datatype dicts) (.ok (ownParts t).datatype) :=
  (parsed_computes hox h).bind_ok (Computes.pure _)

theorem equalParts_computes (hox : QuoteFree ox) (hx : x.Stands ox dicts t) (hy : y.Stands ox dicts u) :
    Computes (Kept dicts) (x.equalParts dicts y) (.ok (decide (t = u))) := by
  have hparts := sameParts_iff hox hx.valid hy.valid
  refine (termType_computes hox hy).bind_ok ((termType_computes hox hx).bind_ok ?_)
  refine Computes.unlessDiffer (fun heq => (hparts.mpr heq).termType.symm) fun htype => ?_
  refine (value_computes hox hy).bind_ok ((value_computes hox hx).bind_ok ?_)
  refine Computes.unlessDiffer (fun heq => (hparts.mpr heq).value.symm) fun hvalue => ?_
  refine (termType_computes hox hx).bind_ok ?_
  by_cases hliteral : (ownParts t).termType = .literal
  · rw [if_neg (not_not.mpr hliteral)]
    refine (language_computes hox hx).bind_ok ((language_computes hox hy).bind_ok ?_)
    refine Computes.unlessDiffer (fun heq => (hparts.mpr heq).language hliteral) fun hlanguage => ?_
    refine (datatype_computes hox hx).bind_ok ((datatype_computes hox hy).bind_ok ?_)
    refine Computes.decided (decide_eq_true_iff.trans ⟨fun hdatatype => hparts.mp ?_, fun heq => ?_⟩)
    · exact ⟨htype.symm, hvalue.symm, fun _ => hlanguage, fun _ => hdatatype.symm⟩
    · exact ((hparts.mpr heq).datatype hliteral).symm
  · -- only literals have more parts to compare
    rw [if_pos hliteral]
    refine Computes.decided ⟨fun _ => hparts.mp ?_, fun _ => rfl⟩
    exact ⟨htype.symm, hvalue.symm, fun h => absurd h hliteral, fun h => absurd h hliteral⟩

/-- Codes over one dictionary are the same for one term alone. -/
theorem sharedCodes_iff (hox : QuoteFree ox) (hdicts : ∀ dict, (dicts dict).terms.SortedLT)
    (hx : x.Stands ox dicts t) (hy : y.Stands ox dicts u) {code code' : Option ℕ}
    (h : LazyTerm.sharedCodes x y = some (code, code')) : code = code' ↔ t = u := by
  obtain ⟨col, i, p⟩ := x
  obtain ⟨col', j, p'⟩ := y
  cases col with
  | packed offsets bytes => cases h
  | coded dict codes =>
    cases col' with
    | packed offsets bytes => cases h
    | coded dict' codes' =>
      change (if dict' = dict then _ else none) = _ at h
      split_ifs at h with hdict
      obtain ⟨rfl, rfl⟩ := Prod.mk.inj (Option.some.inj h)
      obtain rfl : dict' = dict := hdict
      obtain ⟨n, hn, -, hterm⟩ := hx.spells
      obtain ⟨m, hm, -, hterm'⟩ := hy.spells
      obtain ⟨hlt, hget⟩ := List.getElem?_eq_some_iff.mp hterm
      obtain ⟨hlt', hget'⟩ := List.getElem?_eq_some_iff.mp hterm'
      have hnodup : (dicts dict').terms.Nodup := (hdicts dict').nodup
      change codes'[j]? = codes[i]? ↔ t = u
      rw [hn, hm, Option.some_inj]
      constructor
      · rintro rfl
        exact spelling_inj hox hx.valid hy.valid (hget.symm.trans hget')
      · rintro rfl
        exact (hnodup.getElem_inj_iff).mp (hget'.trans hget.symm)

/-- By codes or by parts, two lazy terms are equal when they stand for one term. -/
theorem equals_computes (hox : QuoteFree ox) (hdicts : ∀ dict, (dicts dict).terms.SortedLT)
    (hx : x.Stands ox dicts t) (hy : y.Stands ox dicts u) :
    Computes (Kept dicts) (x.equals dicts y) (.ok (decide (t = u))) := by
  rw [LazyTerm.equals]
  cases hshared : LazyTerm.sharedCodes x y with
  | none => exact equalParts_computes hox hx hy
  | some codes =>
    have hiff := sharedCodes_iff hox hdicts hx hy hshared
    exact Computes.decided (decide_eq_true_iff.trans hiff)

end Reading

end LazyRdf
