/-
The canonical spelling of a term is a normal form.

The input parser takes many spellings of one term; each is rendered back into the
one spelling the dictionary and the columns hold.

* `Oxrdf.Validating` — what the validating constructors promise beyond the nodes:
  an IRI has a scheme, and a normalized language tag is its own normal form;
* `utf8_split`, `utf8_drop` — cutting a text at ASCII bytes;
* `unescape_utf8` — a decoded value is a text again;
* `term_input_accepted` — what the input parser builds is accepted, and its blank
  nodes do not begin with the prefix;
* `canonicalSpelling_isNormalForm` — idempotent, the stored spelling, and equal
  exactly for equal terms.
-/
import Mathlib.Data.List.DropRight
import VortexRdf.LiteralLexing
import VortexRdf.TermRoundTrip

namespace Terms

/-! ### What the constructors promise -/

def isLetter (b : UInt8) : Bool := (0x41 ≤ b && b ≤ 0x5a) || (0x61 ≤ b && b ≤ 0x7a)

/-- An IRI begins with a letter, its scheme's, and has the colon behind it. -/
def hasScheme (iri : Str) : Bool := iri.head?.any isLetter && iri.elem 0x3a

/-- The library's IRIs are absolute, and normalizing a language tag twice is
normalizing it once. -/
structure Oxrdf.Validating (ox : Oxrdf) : Prop where
  absolute : ∀ iri, ox.iriError iri = none → hasScheme iri = true
  normalized : ∀ tag tag', ox.languageTag tag = .ok tag' → ox.languageTag tag' = .ok tag'

/-! ### Texts cut at ASCII bytes -/

theorem utf8EncodeChar_of_ascii {c : Char} (h : c.toNat < 0x80) :
    String.utf8EncodeChar c = [UInt8.ofNat c.toNat] := by
  rw [String.utf8EncodeChar]
  exact if_pos (by change c.toNat ≤ 127; omega)

/-- An ASCII byte of a text is a character of it, and both sides are texts. -/
theorem utf8_split {b : UInt8} (hb : b < 0x80) {text : List Char} {before after : Str}
    (h : utf8 text = before ++ b :: after) :
    (∃ text', before = utf8 text') ∧ ∃ text', after = utf8 text' := by
  induction text generalizing before with
  | nil => simp [utf8_nil] at h
  | cons c text ih =>
    rw [utf8_cons, List.append_eq_append_iff] at h
    rcases h with ⟨rest, rfl, hrest⟩ | ⟨rest, hchar, hrest⟩
    · obtain ⟨⟨text₁, rfl⟩, hafter⟩ := ih hrest
      exact ⟨⟨c :: text₁, rfl⟩, hafter⟩
    · cases rest with
      | nil =>
        obtain ⟨-, hafter⟩ := @ih [] (by simpa using hrest.symm)
        refine ⟨⟨[c], ?_⟩, hafter⟩
        rw [List.append_nil] at hchar
        rw [utf8_cons, utf8_nil, List.append_nil, hchar]
      | cons b' rest =>
        -- the byte lies in the character, which it then is
        obtain ⟨rfl, hafter⟩ := List.cons.inj hrest
        have hmem : b ∈ String.utf8EncodeChar c := by
          rw [hchar]
          simp
        have hascii : c.toNat < 0x80 := by
          rw [char_of_ascii hmem hb]
          exact UInt8.lt_iff_toNat_lt.mp hb
        rw [utf8EncodeChar_of_ascii hascii] at hchar
        have hlen := congrArg List.length hchar
        simp only [List.length_append, List.length_cons, List.length_nil] at hlen
        obtain rfl := List.eq_nil_of_length_eq_zero (show before.length = 0 by omega)
        obtain rfl := List.eq_nil_of_length_eq_zero (show rest.length = 0 by omega)
        exact ⟨⟨[], rfl⟩, text, hafter⟩

theorem utf8_drop {n : ℕ} {text : List Char} (hlen : n ≤ (utf8 text).length)
    (h : ∀ b ∈ (utf8 text).take n, b < 0x80) : ∃ text', (utf8 text).drop n = utf8 text' := by
  cases n with
  | zero => exact ⟨text, rfl⟩
  | succ n =>
    have hn : n < (utf8 text).length := hlen
    have hsplit : utf8 text = (utf8 text).take n ++ (utf8 text)[n] :: (utf8 text).drop (n + 1) := by
      rw [← List.drop_eq_getElem_cons hn, List.take_append_drop]
    have hbyte : (utf8 text)[n] < 0x80 := by
      refine h _ (List.mem_iff_getElem.mpr ⟨n, ?_, List.getElem_take⟩)
      rw [List.length_take]
      omega
    exact (utf8_split hbyte hsplit).2

/-! ### Decoded values -/

theorem toDigit_ascii {b : UInt8} (h : (toDigit b).isSome = true) : b < 0x80 := by
  rw [toDigit] at h
  split_ifs at h with h₁ h₂ h₃
  · exact UInt8.lt_of_le_of_lt h₁.2 (by decide)
  · exact UInt8.lt_of_le_of_lt h₂.2 (by decide)
  · exact UInt8.lt_of_le_of_lt h₃.2 (by decide)
  · cases h

theorem hexEscape_ascii {b : Str} {len : ℕ} {c : Char} (h : hexEscape b len = some c) :
    len ≤ b.length ∧ ∀ d ∈ b.take len, d < 0x80 := by
  rw [hexEscape] at h
  split_ifs at h with hlen
  · obtain ⟨n, hvalue, -⟩ := Option.bind_eq_some_iff.mp h
    exact ⟨hlen, fun d hd => toDigit_ascii (toDigit_of_mem hvalue d hd)⟩

/-- The bytes an escape takes behind its backslash are ASCII. -/
theorem decodeEscape_ascii {rest : Str} {c : Char} {width : ℕ}
    (h : decodeEscape rest = some (c, width)) :
    width ≤ rest.length + 1 ∧ ∀ b ∈ rest.take (width - 1), b < 0x80 := by
  cases rest with
  | nil => cases h
  | cons b rest =>
    have hletter : ∀ {c' : Char}, b < 0x80 → some (c', 2) = some (c, width) →
        width ≤ (b :: rest).length + 1 ∧ ∀ d ∈ (b :: rest).take (width - 1), d < 0x80 := by
      intro c' hb h
      obtain ⟨-, rfl⟩ := Prod.mk.inj (Option.some_inj.mp h)
      exact ⟨by simp, by simpa using hb⟩
    have hhex : ∀ {len : ℕ}, b < 0x80 →
        (hexEscape rest len).map (fun c => (c, len + 2)) = some (c, width) →
        width ≤ (b :: rest).length + 1 ∧ ∀ d ∈ (b :: rest).take (width - 1), d < 0x80 := by
      intro len hb h
      obtain ⟨d, hd, hpair⟩ := Option.map_eq_some_iff.mp h
      obtain ⟨-, rfl⟩ := Prod.mk.inj hpair
      obtain ⟨hlen, hdigits⟩ := hexEscape_ascii hd
      refine ⟨by rw [List.length_cons]; omega, fun e he => ?_⟩
      rw [show len + 2 - 1 = len + 1 from rfl, List.take_succ_cons] at he
      rcases List.mem_cons.mp he with rfl | he
      · exact hb
      · exact hdigits e he
    rw [decodeEscape] at h
    split_ifs at h with h₁ h₂ h₃ h₄ h₅ h₆ h₇ h₈ h₉ h₀
    all_goals subst b
    · exact hletter (by decide) h
    · exact hletter (by decide) h
    · exact hletter (by decide) h
    · exact hletter (by decide) h
    · exact hletter (by decide) h
    · exact hletter (by decide) h
    · exact hletter (by decide) h
    · exact hletter (by decide) h
    · exact hhex (by decide) h
    · exact hhex (by decide) h

theorem utf8_backslash (text : List Char) : utf8 ('\x5c' :: text) = BACKSLASH :: utf8 text := rfl

theorem noBackslash_of_ne {c : Char} (h : c ≠ '\x5c') :
    ∀ b ∈ String.utf8EncodeChar c, b ≠ BACKSLASH := by
  rintro b hb rfl
  exact h (Char.toNat_inj.mp (char_of_ascii hb (by decide)))

/-- The lenient reading of a text is a text. -/
theorem unescape_utf8 (text : List Char) :
    ∃ text', unescape (utf8 text) .lenient = some (utf8 text') := by
  rw [unescape_eq]
  induction hn : (utf8 text).length using Nat.strong_induction_on generalizing text with
  | _ n ih =>
    cases text with
    | nil => exact ⟨[], rfl⟩
    | cons c text =>
      by_cases hc : c = '\x5c'
      · subst hc
        rw [utf8_backslash] at hn ⊢
        rw [List.length_cons] at hn
        cases hdec : decodeEscape (utf8 text) with
        | none =>
          obtain ⟨text', htext'⟩ := ih _ (by omega) text rfl
          refine ⟨'\x5c' :: text', ?_⟩
          rw [(decoded_malformed hdec).2, htext']
          rfl
        | some escape =>
          obtain ⟨d, width⟩ := escape
          have hwidth := two_le_of_decodeEscape hdec
          obtain ⟨hle, hascii⟩ := decodeEscape_ascii hdec
          obtain ⟨rest, hrest⟩ := utf8_drop (by omega) hascii
          have hdrop : (BACKSLASH :: utf8 text).drop width = utf8 rest := by
            obtain ⟨k, rfl⟩ := Nat.exists_eq_add_of_le' hwidth
            rw [List.drop_succ_cons, ← hrest]
            rfl
          have hshort : (utf8 rest).length < n := by
            rw [← hdrop, List.length_drop, List.length_cons]
            omega
          obtain ⟨text', htext'⟩ := ih _ hshort rest rfl
          refine ⟨d :: text', ?_⟩
          rw [decoded_escape _ hdec, hdrop, htext', Option.map_some, ← utf8_append]
          rfl
      · rw [utf8_cons] at hn ⊢
        have hpos : 0 < (String.utf8EncodeChar c).length := by
          rw [String.length_utf8EncodeChar]
          exact c.utf8Size_pos
        rw [List.length_append] at hn
        obtain ⟨text', htext'⟩ := ih _ (by omega) text rfl
        refine ⟨c :: text', ?_⟩
        rw [decoded_bytes _ (noBackslash_of_ne hc), htext']
        rfl

theorem unescapeLiteralValue_utf8 (text : List Char) :
    ∃ text', unescapeLiteralValue (utf8 text) = utf8 text' := by
  obtain ⟨text', htext'⟩ := unescape_utf8 text
  exact ⟨text', by rw [unescapeLiteralValue, htext', Option.getD_some]⟩

/-! ### What the input parser builds -/

section

variable {ox : Oxrdf}

theorem map_eq_ok {α β : Type} {f : α → β} {e : Except VortexRdfError α} {b : β}
    (h : e.map f = .ok b) : ∃ a, e = .ok a ∧ b = f a := by
  cases e with
  | error error => cases h
  | ok a => exact ⟨a, rfl, (Except.ok.inj h).symm⟩

theorem bind_eq_ok {α β : Type} {e : Except VortexRdfError α} {f : α → Except VortexRdfError β}
    {b : β} (h : e >>= f = .ok b) : ∃ a, e = .ok a ∧ f a = .ok b := by
  cases e with
  | error error => cases h
  | ok a => exact ⟨a, rfl, h⟩

theorem namedNode_input_ok {s : Str} {n : NamedNode} (h : namedNode ox s .input = .ok n) :
    n.iri = trimMatches isAngle s ∧ n.Accepted ox := by
  rw [namedNode] at h
  split at h
  · next haccepted =>
    obtain rfl := Except.ok.inj h
    exact ⟨rfl, haccepted⟩
  · cases h

theorem trimStartLoop_bare {pat : Str} (hpat : pat ≠ []) : ∀ {fuel : ℕ} {s : Str},
    s.length ≤ fuel → ¬ pat <+: trimStartLoop pat fuel s
  | 0, s, h => by
    obtain rfl := List.eq_nil_of_length_eq_zero (Nat.le_zero.mp h)
    exact fun hpre => hpat (List.prefix_nil.mp hpre)
  | fuel + 1, s, h => by
    rw [trimStartLoop]
    split_ifs with hpre
    · have hpos := List.length_pos_of_ne_nil hpat
      exact trimStartLoop_bare hpat (by rw [List.length_drop]; omega)
    · exact fun hmem => hpre (List.isPrefixOf_iff_prefix.mpr hmem)

theorem blankNode_input_ok {s : Str} {b : BlankNode} (h : blankNode ox s .input = .ok b) :
    b.Accepted ox ∧ b.Bare := by
  rw [blankNode] at h
  split at h
  · next haccepted =>
    obtain rfl := Except.ok.inj h
    exact ⟨haccepted, trimStartLoop_bare (by decide) le_rfl⟩
  · cases h

theorem splitLiteral_utf8 {text : List Char} {form : LiteralForm}
    (h : splitLiteral (utf8 text) = some form) : ∃ text', form.value = utf8 text' := by
  rw [splitLiteral.eq_def] at h
  cases hclose : closingQuote (utf8 text) with
  | none =>
    rw [hclose] at h
    cases h
  | some stop =>
    rw [hclose] at h
    obtain ⟨hvalue, -⟩ := (suffixForm_iff _ _ _).mp h
    obtain ⟨hhead, hcloses, -⟩ := (closingQuote_iff _ _).mp hclose
    obtain ⟨rest, hrest⟩ := List.head?_eq_some_iff.mp hhead
    -- the text is cut behind its first quote, and before its closing one
    obtain ⟨-, text₁, rfl⟩ := utf8_split (show QUOTE < 0x80 by decide)
      (show utf8 text = [] ++ QUOTE :: rest from hrest)
    obtain ⟨k, rfl⟩ := Nat.exists_eq_succ_of_ne_zero hcloses.pos.ne'
    have hquote : (utf8 text₁)[k]? = some QUOTE := by
      have hat := hcloses.quote
      rwa [hrest, List.getElem?_cons_succ] at hat
    obtain ⟨hk, hat⟩ := List.getElem?_eq_some_iff.mp hquote
    have hsplit : utf8 text₁ = (utf8 text₁).take k ++ QUOTE :: (utf8 text₁).drop (k + 1) := by
      rw [← hat, ← List.drop_eq_getElem_cons hk, List.take_append_drop]
    obtain ⟨⟨text₂, htext₂⟩, -⟩ := utf8_split (show QUOTE < 0x80 by decide) hsplit
    refine ⟨text₂, ?_⟩
    rw [← hvalue, hrest, List.drop_one, List.tail_cons, Nat.succ_sub_one, htext₂]

theorem literal_input_ok (hox : ox.Validating) {text : List Char} {l : Literal}
    (h : literal ox (utf8 text) .input = .ok l) : l.Accepted ox := by
  rw [literal.eq_def] at h
  cases hsplit : splitLiteral (utf8 text) with
  | none =>
    rw [hsplit] at h
    cases h
  | some form =>
    obtain ⟨text', hvalue⟩ := splitLiteral_utf8 hsplit
    obtain ⟨text'', htext⟩ := unescapeLiteralValue_utf8 text'
    rw [← hvalue] at htext
    rw [hsplit] at h
    cases form with
    | simple value =>
      obtain rfl := Except.ok.inj h
      exact ⟨text'', htext⟩
    | language value lang =>
      dsimp only at h
      cases htag : ox.languageTag lang with
      | error error =>
        rw [htag] at h
        cases h
      | ok tag =>
        rw [htag] at h
        obtain rfl := Except.ok.inj h
        exact ⟨⟨text'', htext⟩, hox.normalized lang tag htag⟩
    | typed value datatype =>
      dsimp only at h
      cases hnode : namedNode ox datatype .input with
      | error error =>
        rw [hnode] at h
        cases h
      | ok dt =>
        rw [hnode] at h
        obtain rfl := Except.ok.inj h
        change (Literal.newTyped (unescapeLiteralValue value) dt).Accepted ox
        rw [Literal.newTyped]
        split_ifs with hstring
        · exact ⟨text'', htext⟩
        · exact ⟨⟨text'', htext⟩, (namedNode_input_ok hnode).2, hstring⟩

theorem term_input_accepted (hox : ox.Validating) {text : List Char} {t : Term}
    (h : term ox (utf8 text) .input = .ok t) : t.Accepted ox ∧ t.Bare := by
  rw [term] at h
  split_ifs at h with hblank hquote hnamed
  · obtain ⟨b, hb, rfl⟩ := map_eq_ok h
    exact blankNode_input_ok hb
  · obtain ⟨l, hl, rfl⟩ := map_eq_ok h
    exact ⟨literal_input_ok hox hl, trivial⟩
  · obtain ⟨n, hn, rfl⟩ := map_eq_ok h
    exact ⟨(namedNode_input_ok hn).2, trivial⟩

/-! ### Spellings of the default graph -/

theorem noColon_of_default {s : Str} (h : isDefaultGraphSpelling s = true) : 0x3a ∉ s := by
  intro hcolon
  rw [isDefaultGraphSpelling, Bool.or_eq_true, Bool.or_eq_true] at h
  rcases h with (h | h) | h
  · rw [beq_iff_eq.mp h] at hcolon
    cases hcolon
  · have hmem := List.mem_map_of_mem hcolon (f := toAsciiLowercase)
    rw [beq_iff_eq.mp h] at hmem
    exact absurd hmem (by decide)
  · rw [beq_iff_eq.mp h] at hcolon
    exact absurd hcolon (by decide)

theorem mem_of_mem_trim {p : UInt8 → Bool} {s : Str} {b : UInt8} (h : b ∈ trimMatches p s) :
    b ∈ s := by
  have hmem := (List.dropWhile_sublist p).subset (List.mem_reverse.mp h)
  exact (List.dropWhile_sublist p).subset (List.mem_reverse.mp hmem)

theorem hasScheme_iff {iri : Str} :
    hasScheme iri = true ↔ (∃ b, iri.head? = some b ∧ isLetter b = true) ∧ 0x3a ∈ iri := by
  rw [hasScheme, Bool.and_eq_true, Option.any_eq_true, List.elem_iff]

/-- A spelling parsed as an IRI begins with a letter, or with a bracket. -/
theorem head_of_namedNode (hox : ox.Validating) {s : Str} {n : NamedNode}
    (h : namedNode ox s .input = .ok n) {b : UInt8} (hb : s.head? = some b) :
    isLetter b = true ∨ isAngle b = true := by
  obtain ⟨hiri, haccepted⟩ := namedNode_input_ok h
  obtain ⟨⟨c, hc, hletter⟩, -⟩ := hasScheme_iff.mp (hox.absolute _ haccepted)
  by_cases hangle : isAngle b = true
  · exact .inr hangle
  · obtain ⟨rest, rfl⟩ := List.head?_eq_some_iff.mp hb
    -- nothing is trimmed in front, and trimming behind leaves a nonempty start
    have hpre : n.iri <+: b :: rest := by
      rw [hiri, trimMatches, List.dropWhile_cons_of_neg hangle]
      exact List.rdropWhile_prefix isAngle _
    obtain ⟨iri, hc'⟩ := List.head?_eq_some_iff.mp hc
    rw [hc'] at hpre
    obtain ⟨rfl, -⟩ := List.cons_prefix_cons.mp hpre
    exact .inl hletter

theorem term_of_namedNode (hox : ox.Validating) {s : Str} {n : NamedNode}
    (h : namedNode ox s .input = .ok n) : term ox s .input = .ok (.namedNode n) := by
  have hblank : BLANK_PREFIX.isPrefixOf s ≠ true := by
    intro hpre
    obtain ⟨rest, rfl⟩ := List.isPrefixOf_iff_prefix.mp hpre
    exact absurd (head_of_namedNode hox h (b := 0x5f) rfl) (by decide)
  have hquote : s.head? ≠ some QUOTE := by
    intro hhead
    exact absurd (head_of_namedNode hox h hhead) (by decide)
  rw [term, if_neg hblank, if_neg hquote, if_pos (Or.inl rfl), h]
  rfl

/-- The input parser takes no spelling of the default graph as a term. -/
theorem notDefault_of_term (hox : ox.Validating) {s : Str} {t : Term}
    (h : term ox s .input = .ok t) : isDefaultGraphSpelling s = false := by
  rw [Bool.eq_false_iff]
  intro hdefault
  have hcolon := noColon_of_default hdefault
  rw [term] at h
  split_ifs at h with hblank hquote hnamed
  · obtain ⟨rest, rfl⟩ := List.isPrefixOf_iff_prefix.mp hblank
    exact hcolon (by simp [BLANK_PREFIX])
  · rw [isDefaultGraphSpelling, Bool.or_eq_true, Bool.or_eq_true] at hdefault
    obtain ⟨rest, rfl⟩ := List.head?_eq_some_iff.mp hquote
    simp [QUOTE, toAsciiLowercase] at hdefault
  · obtain ⟨n, hn, rfl⟩ := map_eq_ok h
    obtain ⟨hiri, haccepted⟩ := namedNode_input_ok hn
    obtain ⟨-, hmem⟩ := hasScheme_iff.mp (hox.absolute _ haccepted)
    rw [hiri] at hmem
    exact hcolon (mem_of_mem_trim hmem)

/-- A stored spelling is none of the default graph's. -/
theorem notDefault_toStr {t : Term} (ht : t.Accepted ox) :
    isDefaultGraphSpelling (t.toStr ox) = false := by
  cases t with
  | namedNode n => exact notDefault_named n
  | blankNode b => exact notDefault_blank b
  | literal l =>
    obtain ⟨rest, hrest⟩ := List.head?_eq_some_iff.mp (head_toStr ht)
    rw [Term.toStr, hrest]
    rfl

/-! ### Positions of a quad -/

def NamedOrBlankNode.toTerm : NamedOrBlankNode → Term
  | namedNode n => .namedNode n
  | blankNode b => .blankNode b

/-- The term a graph is named by. -/
def GraphName.toTerm : GraphName → Option Term
  | defaultGraph => none
  | namedNode n => some (.namedNode n)
  | blankNode b => some (.blankNode b)

theorem NamedOrBlankNode.toStr_toTerm (n : NamedOrBlankNode) : n.toTerm.toStr ox = n.toStr := by
  cases n <;> rfl

theorem GraphName.toStr_toTerm {g : GraphName} {t : Term} (h : g.toTerm = some t) :
    g.toStr = t.toStr ox := by
  cases g with
  | defaultGraph => cases h
  | namedNode n =>
    obtain rfl := Option.some_inj.mp h
    rfl
  | blankNode b =>
    obtain rfl := Option.some_inj.mp h
    rfl

theorem term_of_subject (hox : ox.Validating) {s : Str} {n : NamedOrBlankNode}
    (h : subject ox s .input = .ok n) : term ox s .input = .ok n.toTerm := by
  rw [subject] at h
  split_ifs at h with hblank
  · obtain ⟨b, hb, rfl⟩ := map_eq_ok h
    rw [term, if_pos hblank, hb]
    rfl
  · obtain ⟨iri, hiri, rfl⟩ := map_eq_ok h
    exact term_of_namedNode hox hiri

theorem term_of_graphName (hox : ox.Validating) {s : Str} {g : GraphName}
    (h : graphName ox s .input = .ok g) (hs : isDefaultGraphSpelling s = false) :
    ∃ t, g.toTerm = some t ∧ term ox s .input = .ok t := by
  simp only [graphName, hs, Bool.false_eq_true, if_false] at h
  split_ifs at h with hblank
  · obtain ⟨b, hb, rfl⟩ := map_eq_ok h
    refine ⟨.blankNode b, rfl, ?_⟩
    rw [term, if_pos hblank, hb]
    rfl
  · obtain ⟨n, hn, rfl⟩ := map_eq_ok h
    exact ⟨.namedNode n, rfl, term_of_namedNode hox hn⟩

/-! ### The normal form -/

theorem canonicalSpelling_eq (hox : ox.Validating) {s : Str} {t : Term}
    (h : term ox s .input = .ok t) : canonicalSpelling ox s = .ok (t.toStr ox) := by
  rw [canonicalSpelling, if_neg (by simp [notDefault_of_term hox h]), h]
  rfl

theorem canonicalSpelling_default {s : Str} (h : isDefaultGraphSpelling s = true) :
    canonicalSpelling ox s = .ok [] := if_pos h

theorem canonicalSpelling_toStr {t : Term} (ht : t.Accepted ox) (hbare : t.Bare) :
    term ox (t.toStr ox) .input = .ok t ∧
      canonicalSpelling ox (t.toStr ox) = .ok (t.toStr ox) := by
  have hparse : term ox (t.toStr ox) .input = .ok t := (term_roundTrip_iff ht).mpr hbare
  refine ⟨hparse, ?_⟩
  rw [canonicalSpelling, if_neg (by simp [notDefault_toStr ht]), hparse]
  rfl

theorem inPlace_ok_iff {α : Type} {place : String} {e : Except VortexRdfError α} {a : α} :
    inPlace place e = .ok a ↔ e = .ok a := by
  cases e with
  | ok b => exact Iff.rfl
  | error error => cases error <;> simp [inPlace]

theorem canonical_ok_iff {s p o g : Str} {r : RawQuad} :
    RawQuad.canonical ox s p o g = .ok r ↔ ∃ q : Quad, r = RawQuad.fromQuad ox q ∧
      subject ox s .input = .ok q.subject ∧ namedNode ox p .input = .ok q.predicate ∧
      term ox o .input = .ok q.object ∧ graphName ox g .input = .ok q.graphName := by
  constructor
  · intro h
    rw [RawQuad.canonical] at h
    obtain ⟨subj, hs, h⟩ := bind_eq_ok h
    obtain ⟨pred, hp, h⟩ := bind_eq_ok h
    obtain ⟨obj, ho, h⟩ := bind_eq_ok h
    obtain ⟨graph, hg, h⟩ := bind_eq_ok h
    exact ⟨⟨subj, pred, obj, graph⟩, (Except.ok.inj h).symm, inPlace_ok_iff.mp hs,
      inPlace_ok_iff.mp hp, inPlace_ok_iff.mp ho, inPlace_ok_iff.mp hg⟩
  · rintro ⟨q, rfl, hs, hp, ho, hg⟩
    rw [RawQuad.canonical, hs, hp, ho, hg]
    rfl

/-- A canonical quad's spellings are those of its terms, and it is its own
canonical form. -/
theorem canonical_isNormalForm (hox : ox.Validating) {s p o g : List Char} {r : RawQuad}
    (h : RawQuad.canonical ox (utf8 s) (utf8 p) (utf8 o) (utf8 g) = .ok r) :
    (canonicalSpelling ox (utf8 s) = .ok r.s ∧ canonicalSpelling ox (utf8 p) = .ok r.p ∧
      canonicalSpelling ox (utf8 o) = .ok r.o ∧ canonicalSpelling ox (utf8 g) = .ok r.g) ∧
    RawQuad.canonical ox r.s r.p r.o r.g = .ok r := by
  obtain ⟨q, rfl, hs, hp, ho, hg⟩ := canonical_ok_iff.mp h
  have hs' := term_of_subject hox hs
  obtain ⟨hsAcc, hsBare⟩ := term_input_accepted hox hs'
  obtain ⟨hoAcc, hoBare⟩ := term_input_accepted hox ho
  have hpAcc := (namedNode_input_ok hp).2
  have hsAcc' : q.subject.Accepted ox := by
    revert hsAcc
    cases q.subject <;> exact id
  have hsBare' : q.subject.Bare := by
    revert hsBare
    cases q.subject <;> exact id
  have hgraph : canonicalSpelling ox (utf8 g) = .ok q.graphName.toStr ∧
      q.graphName.Accepted ox ∧ q.graphName.Bare := by
    by_cases hdefault : isDefaultGraphSpelling (utf8 g) = true
    · have hname : q.graphName = .defaultGraph := by
        simp only [graphName, hdefault, if_true, Except.ok.injEq] at hg
        exact hg.symm
      rw [canonicalSpelling_default hdefault, hname]
      exact ⟨rfl, trivial, trivial⟩
    · obtain ⟨t, ht, hterm⟩ := term_of_graphName hox hg (Bool.eq_false_iff.mpr hdefault)
      obtain ⟨hacc, hbare⟩ := term_input_accepted hox hterm
      refine ⟨?_, ?_⟩
      · rw [canonicalSpelling_eq hox hterm, GraphName.toStr_toTerm ht]
      · revert ht
        cases q.graphName <;> rintro ⟨⟩ <;> exact ⟨hacc, hbare⟩
  rw [fromQuad_eq]
  refine ⟨⟨?_, canonicalSpelling_eq hox (term_of_namedNode hox hp),
    canonicalSpelling_eq hox ho, hgraph.1⟩, ?_⟩
  · rw [canonicalSpelling_eq hox hs', NamedOrBlankNode.toStr_toTerm]
  · refine canonical_ok_iff.mpr ⟨q, (fromQuad_eq q).symm, ?_, namedNode_roundTrip hpAcc, ?_, ?_⟩
    · exact (subject_roundTrip_iff hsAcc').mpr hsBare'
    · exact (term_roundTrip_iff hoAcc).mpr hoBare
    · exact (graphName_roundTrip_iff hgraph.2.1).mpr hgraph.2.2

end

/-- The library with absolute IRIs. -/
def ntriplesAbsolute : Oxrdf :=
  { ntriples with
    iriError := fun iri =>
      if hasScheme iri then ntriples.iriError iri else some "No scheme found in an absolute IRI"
    iri_noAngle := by
      intro iri h
      split_ifs at h
      exact ntriples.iri_noAngle iri h }

theorem ntriplesAbsolute_validating : ntriplesAbsolute.Validating where
  absolute := by
    intro iri h
    by_contra hscheme
    rw [show ntriplesAbsolute.iriError iri = some "No scheme found in an absolute IRI" from
      if_neg hscheme] at h
    cases h
  normalized := by
    intro tag tag' h
    obtain rfl := Except.ok.inj (show Except.ok (tag.map toAsciiLowercase) = .ok tag' from h)
    change Except.ok ((tag.map toAsciiLowercase).map toAsciiLowercase) = _
    rw [List.map_map]
    congr 1
    refine List.map_congr_left fun b _ => ?_
    rw [Function.comp_apply, toAsciiLowercase, toAsciiLowercase]
    split_ifs with hupper hupper'
    · obtain ⟨hlow, hhigh⟩ := hupper
      obtain ⟨-, hhigh'⟩ := hupper'
      rw [UInt8.le_iff_toNat_le] at hlow hhigh hhigh'
      rw [UInt8.toNat_add] at hhigh'
      simp at hlow hhigh hhigh'
      omega
    · rfl
    · rfl

/-- **The canonical spelling is a normal form.** A spelling the input parser takes as a term
has the spelling a quad stores for that term in any position, which is its own canonical
spelling and parses back to the term; the default graph's spellings have the empty one; two
accepted spellings share it exactly when they spell one term. A quad made canonical holds the
canonical spellings of its positions, and is its own canonical form. -/
theorem canonicalSpelling_isNormalForm (ox : Oxrdf) (hox : ox.Validating) :
    (∀ text t, term ox (utf8 text) .input = .ok t →
      canonicalSpelling ox (utf8 text) = .ok (t.toStr ox) ∧
      (∀ q : Quad, (q.subject.toTerm = t → (RawQuad.fromQuad ox q).s = t.toStr ox) ∧
        (.namedNode q.predicate = t → (RawQuad.fromQuad ox q).p = t.toStr ox) ∧
        (q.object = t → (RawQuad.fromQuad ox q).o = t.toStr ox) ∧
        (q.graphName.toTerm = some t → (RawQuad.fromQuad ox q).g = t.toStr ox)) ∧
      term ox (t.toStr ox) .input = .ok t ∧
      canonicalSpelling ox (t.toStr ox) = .ok (t.toStr ox)) ∧
    (∀ s, isDefaultGraphSpelling s = true →
      graphName ox s .input = .ok .defaultGraph ∧ (∀ t, term ox s .input ≠ .ok t) ∧
      canonicalSpelling ox s = .ok [] ∧ canonicalSpelling ox [] = .ok [] ∧
      ∀ q : Quad, q.graphName = .defaultGraph → (RawQuad.fromQuad ox q).g = []) ∧
    (∀ text text' t t', term ox (utf8 text) .input = .ok t → term ox (utf8 text') .input = .ok t' →
      (canonicalSpelling ox (utf8 text) = canonicalSpelling ox (utf8 text') ↔ t = t') ∧
      canonicalSpelling ox (utf8 text) ≠ .ok []) ∧
    ∀ s p o g r, RawQuad.canonical ox (utf8 s) (utf8 p) (utf8 o) (utf8 g) = .ok r →
      (canonicalSpelling ox (utf8 s) = .ok r.s ∧ canonicalSpelling ox (utf8 p) = .ok r.p ∧
        canonicalSpelling ox (utf8 o) = .ok r.o ∧ canonicalSpelling ox (utf8 g) = .ok r.g) ∧
      RawQuad.canonical ox r.s r.p r.o r.g = .ok r := by
  refine ⟨fun text t h => ?_, fun s hs => ?_, fun text text' t t' h h' => ?_,
    fun s p o g r h => canonical_isNormalForm hox h⟩
  · obtain ⟨hacc, hbare⟩ := term_input_accepted hox h
    refine ⟨canonicalSpelling_eq hox h, fun q => ?_, canonicalSpelling_toStr hacc hbare⟩
    rw [fromQuad_eq]
    refine ⟨?_, ?_, ?_, GraphName.toStr_toTerm⟩
    · rintro rfl
      exact (NamedOrBlankNode.toStr_toTerm _).symm
    · rintro rfl
      rfl
    · rintro rfl
      rfl
  · refine ⟨?_, fun t ht => ?_, canonicalSpelling_default hs, canonicalSpelling_default rfl,
      fun q hq => ?_⟩
    · simp only [graphName, hs, if_true]
    · rw [notDefault_of_term hox ht] at hs
      cases hs
    · rw [fromQuad_eq, hq]
      rfl
  · obtain ⟨hacc, -⟩ := term_input_accepted hox h
    obtain ⟨hacc', -⟩ := term_input_accepted hox h'
    rw [canonicalSpelling_eq hox h, canonicalSpelling_eq hox h']
    refine ⟨⟨fun heq => Term.toStr_inj hacc hacc' (Except.ok.inj heq), ?_⟩, fun hnil => ?_⟩
    · rintro rfl
      rfl
    · have hdefault := notDefault_toStr hacc
      rw [Except.ok.inj hnil] at hdefault
      cases hdefault

/-- `a:b` and `<a:b>` -/
theorem canonicalSpelling_isNormalForm_iri :
    canonicalSpelling ntriplesAbsolute (utf8 ['a', ':', 'b']) =
      canonicalSpelling ntriplesAbsolute (utf8 ['<', 'a', ':', 'b', '>']) := by
  obtain ⟨-, -, hsame, -⟩ :=
    canonicalSpelling_isNormalForm ntriplesAbsolute ntriplesAbsolute_validating
  exact (hsame ['a', ':', 'b'] ['<', 'a', ':', 'b', '>'] (.namedNode ⟨utf8 ['a', ':', 'b']⟩)
    (.namedNode ⟨utf8 ['a', ':', 'b']⟩) rfl rfl).1.mpr rfl

end Terms
