/-
What the resident dictionary's lookups find.

* `prefixSuccessor_isLeast`, `prefixSuccessor_eq_none_iff` — the string above all those
  with a prefix, and when there is none;
* `prefixRange_isExact` — a prefix's code range holds the codes of the terms with it;
* `canonicalSpelling_blank`, `fallback_bare` — where a missed lookup goes on: nowhere,
  but for a label that itself begins with `_:`;
* `encode_finds_iff` — when a term's spelling finds that term and no other, one at a
  time or in a batch.
-/
import VortexRdf.CanonicalSpellings
import VortexRdf.Programs
import VortexRdf.ResidentLookups

namespace Dictionary

open Programs Store Terms
open scoped Lexicographic

/-! ### Prefixes -/

/-- Above every string that begins with `pre`. -/
def AboveAll (pre s : Str) : Prop := ∀ t, pre <+: t → t < s

theorem prefixSuccessor_isLeast {pre s : Str} (h : prefixSuccessor pre = some s) :
    AboveAll pre s ∧ ∀ s', AboveAll pre s' → s ≤ s' := by
  rcases prefixSuccessor_spec pre with ⟨hnone, -⟩ | ⟨q, b, f, hpre, hb, hf, hsome⟩
  · rw [hnone] at h
    cases h
  obtain rfl : q ++ [b + 1] = s := Option.some.inj (hsome.symm.trans h)
  have hbetween : ∀ t, pre ≤ t ∧ t < q ++ [b + 1] ↔ pre <+: t := by
    intro t
    rw [hpre]
    exact Lexicographic.between_iff_begins (Lexicographic.byte_next hb) fun c hc => by
      rw [hf c hc]
      exact Lexicographic.isTop_byte
  refine ⟨fun t ht => ((hbetween t).mpr ht).2, fun s' habove => ?_⟩
  -- a string below the successor and above the prefix would begin with it
  by_contra hlt
  have hge : pre ≤ s' := (habove pre (List.prefix_refl pre)).le
  have hbegins := (hbetween s').mp ⟨hge, not_le.mp hlt⟩
  exact lt_irrefl s' (habove s' hbegins)

theorem prefixSuccessor_eq_none_iff (pre : Str) :
    prefixSuccessor pre = none ↔ ¬ ∃ s, AboveAll pre s := by
  rcases prefixSuccessor_spec pre with ⟨hnone, htop⟩ | ⟨q, b, f, -, -, -, hsome⟩
  · rw [hnone, eq_self_iff_true, true_iff]
    rintro ⟨s, habove⟩
    have hge : pre ≤ s := (habove pre (List.prefix_refl pre)).le
    rw [Lexicographic.tops_le_iff fun b hb => by rw [htop b hb]; exact Lexicographic.isTop_byte] at hge
    exact lt_irrefl s (habove s hge)
  · have habove := (prefixSuccessor_isLeast hsome).1
    rw [hsome]
    exact iff_of_false (Option.some_ne_none _) fun hnot => hnot ⟨_, habove⟩

/-- A prefix's range ends inside the dictionary. -/
theorem prefixCodes_lt {terms : List Str} {pre : Str} {code : TermCode}
    (h : (prefixCodes terms pre).contains code = true) : code < terms.length := by
  have hbound : ∀ s, rankBelow terms s ≤ terms.length := rankBelow_le terms
  rw [prefixCodes, prefixRangeFrom, CodeRange.contains, Bool.and_eq_true, decide_eq_true_eq,
    decide_eq_true_eq] at h
  obtain ⟨hlow, hhigh⟩ := h
  have hstop : ((prefixSuccessor pre).map (rankBelow terms)).getD terms.length ≤ terms.length := by
    cases prefixSuccessor pre with
    | none => exact le_rfl
    | some s => exact hbound s
  rcases lt_max_iff.mp hhigh with hlt | hlt
  · exact lt_of_lt_of_le hlt hstop
  · exact lt_of_lt_of_le hlt (hbound pre)

/-- **Prefix ranges are exact.** A code is in the range of a byte string just when it has a
term and the term begins with the string; the range's upper end is the bound of the least
string above all that begin with it, and there is none just when no string is above them
all. -/
theorem prefixRange_isExact {dict : TermDictionary} (h : dict.terms.SortedLT) (pre : Str) :
    (∀ code, (dict.prefixRange pre).contains code = true ↔
      ∃ t, dict.terms[code]? = some t ∧ pre <+: t) ∧
    (∀ s, prefixSuccessor pre = some s → AboveAll pre s ∧ ∀ s', AboveAll pre s' → s ≤ s') ∧
    (prefixSuccessor pre = none ↔ ¬ ∃ s, AboveAll pre s) := by
  refine ⟨fun code => ?_, fun s => prefixSuccessor_isLeast, prefixSuccessor_eq_none_iff pre⟩
  rw [TermDictionary.prefixRange_eq h]
  constructor
  · intro hin
    have hlt := prefixCodes_lt hin
    have hbegins := (mem_prefixCodes h pre hlt).mp hin
    rw [List.getD_eq_getElem _ _ hlt] at hbegins
    exact ⟨_, List.getElem?_eq_getElem hlt, hbegins⟩
  · rintro ⟨t, ht, hbegins⟩
    obtain ⟨hlt, rfl⟩ := List.getElem?_eq_some_iff.mp ht
    rw [mem_prefixCodes h pre hlt, List.getD_eq_getElem _ _ hlt]
    exact hbegins

/-- Three terms in two chunks, one with the prefix `61 ff`. -/
def prefixSample : TermDictionary := ⟨[[[0x61], [0x61, 0xff, 0x62]], [[0x62]]], by decide⟩

theorem prefixRange_isExact_sample :
    (prefixSample.prefixRange [0x61, 0xff]).contains 1 = true ∧
      (prefixSample.prefixRange [0x61, 0xff]).contains 2 = false ∧
      AboveAll [0x61, 0xff] [0x62] ∧ ¬ ∃ s, AboveAll [0xff] s := by
  have hsorted : prefixSample.terms.SortedLT := List.Pairwise.sortedLT (by decide)
  obtain ⟨hcodes, hleast, -⟩ := prefixRange_isExact hsorted [0x61, 0xff]
  obtain ⟨-, -, htops⟩ := prefixRange_isExact hsorted [0xff]
  refine ⟨(hcodes 1).mpr ⟨[0x61, 0xff, 0x62], rfl, [0x62], rfl⟩, ?_, (hleast [0x62] rfl).1,
    htops.mp rfl⟩
  rw [Bool.eq_false_iff]
  intro hin
  obtain ⟨t, ht, hbegins⟩ := (hcodes 2).mp hin
  obtain rfl : [0x62] = t := Option.some.inj ht
  exact absurd hbegins (by decide)

/-! ### Terms -/

/-- The spelling of `code`, if it is a term's. -/
def TermDictionary.decode (dict : TermDictionary) (code : TermCode) : Option Str :=
  (codeRank code dict.len).map dict.bytesInto

theorem TermDictionary.decode_eq (dict : TermDictionary) (code : TermCode) :
    dict.decode code = dict.terms[code]? := by
  rw [decode, codeRank]
  by_cases hlt : code < dict.len
  · rw [if_pos hlt, Option.map_some, bytesInto_eq hlt, List.getD_eq_getElem _ _ hlt,
      List.getElem?_eq_getElem hlt]
  · rw [if_neg hlt, Option.map_none, List.getElem?_eq_none (Nat.le_of_not_lt hlt)]

/-- The spellings a store holds: those of terms, and the default graph's empty one. -/
def StoredTerms (ox : Oxrdf) (terms : List Str) : Prop :=
  ∀ s ∈ terms, s = [] ∨ ∃ t : Term, t.Accepted ox ∧ s = t.toStr ox

section Fallback

variable {ox : Oxrdf} {t : Term}

/-- A spelling with one `_:` for all those it begins with. -/
def oneBlankPrefix (s : Str) : Str := BLANK_PREFIX ++ trimStartMatches BLANK_PREFIX s

/-- The spelling of a term parses back to it, so a miss is the answer. -/
theorem fallback_bare (ht : t.Accepted ox) (hbare : t.Bare) :
    tolerantFallback ox (t.toStr ox) = .ok none := by
  rw [tolerantFallback, (canonicalSpelling_toStr ht hbare).2]
  simp [Except.map]

/-- A label that begins with `_:` is retried without all of its prefixes. -/
theorem canonicalSpelling_blank (b : BlankNode) : canonicalSpelling ox (blankNodeString b) =
    (blankNode ox (blankNodeString b) .input).map blankNodeString := by
  have hblank : BLANK_PREFIX.isPrefixOf (blankNodeString b) = true := blankPrefix_isPrefixOf_blank b
  rw [canonicalSpelling, if_neg (by rw [notDefault_blank]; decide), term, if_pos hblank]
  cases blankNode ox (blankNodeString b) .input <;> rfl

/-- A stored spelling that begins with `_:` is that of a label the library takes. -/
theorem label_of_stored {terms : List Str} (hstored : StoredTerms ox terms) {id : Str}
    (h : BLANK_PREFIX ++ id ∈ terms) : ox.blankNodeError id = none := by
  rcases hstored _ h with hnil | ⟨u, hu, heq⟩
  · cases hnil
  · cases u with
    | namedNode n => cases heq
    | blankNode b =>
      obtain rfl : id = b.id := List.append_cancel_left heq
      exact hu
    | literal l =>
      have hhead := head_toStr (show l.Accepted ox from hu)
      rw [show l.toStr ox = BLANK_PREFIX ++ id from heq.symm] at hhead
      cases hhead

end Fallback

/-! ### Lookups -/

/-- The lookup of a term's spelling has a code just when the dictionary holds that
spelling, and the code's. -/
structure TermDictionary.Finds (dict : TermDictionary) (ox : Oxrdf) (t : Term) : Prop where
  found : (∃ code, dict.encode ox (t.toStr ox) = .ok (some code)) ↔ t.toStr ox ∈ dict.terms
  decoded : ∀ code, dict.encode ox (t.toStr ox) = .ok (some code) →
    dict.decode code = some (t.toStr ox)

section Lookups

variable {dict : TermDictionary} {ox : Oxrdf} {t : Term}

theorem encode_hit (h : dict.terms.SortedLT) {s : Str} (hs : s ∈ dict.terms) :
    ∃ code, dict.encode ox s = .ok (some code) ∧ dict.decode code = some s := by
  obtain ⟨code, hcode⟩ := List.mem_iff_getElem?.mp hs
  refine ⟨code, ?_, by rw [dict.decode_eq, hcode]⟩
  rw [TermDictionary.encode_eq h, lookupTolerant, (rankOf_eq_some_iff h).mpr hcode]

theorem encode_miss (h : dict.terms.SortedLT) {s : Str} (hs : s ∉ dict.terms) :
    dict.encode ox s =
      (tolerantFallback ox s).map fun canonical => canonical.bind (rankOf dict.terms) := by
  rw [TermDictionary.encode_eq h, lookupTolerant, (rankOf_eq_none_iff h).mpr hs]

theorem finds_of_mem (h : dict.terms.SortedLT) (ht : t.toStr ox ∈ dict.terms) : dict.Finds ox t := by
  obtain ⟨code, hcode, hdecode⟩ : ∃ code, dict.encode ox (t.toStr ox) = .ok (some code) ∧
    dict.decode code = some (t.toStr ox) := encode_hit h ht
  refine ⟨⟨fun _ => ht, fun _ => ⟨code, hcode⟩⟩, fun code' hcode' => ?_⟩
  obtain rfl : code = code' := Option.some.inj (Except.ok.inj (hcode.symm.trans hcode'))
  exact hdecode

/-- A miss whose second lookup misses too finds nothing. -/
theorem finds_of_not_mem (ht : t.toStr ox ∉ dict.terms)
    (hmiss : ∀ code, dict.encode ox (t.toStr ox) ≠ .ok (some code)) : dict.Finds ox t where
  found := ⟨fun ⟨code, hcode⟩ => absurd hcode (hmiss code), fun hin => absurd hin ht⟩
  decoded code hcode := absurd hcode (hmiss code)

/-- Where the second lookup of a spelling not held may land. -/
theorem encode_blank (h : dict.terms.SortedLT) {b : BlankNode} (hb : ¬ b.Bare)
    (hmiss : blankNodeString b ∉ dict.terms) {code : TermCode} :
    dict.encode ox (blankNodeString b) = .ok (some code) ↔
      ox.blankNodeError (trimStartMatches BLANK_PREFIX (blankNodeString b)) = none ∧
        dict.terms[code]? = some (oneBlankPrefix (blankNodeString b)) := by
  have hne : oneBlankPrefix (blankNodeString b) ≠ blankNodeString b := by
    intro heq
    have htrim : trimStartMatches BLANK_PREFIX (blankNodeString b) = b.id :=
      List.append_cancel_left heq
    exact hb ((trimStartMatches_prefixed_iff (by decide) b.id).mp htrim)
  rw [encode_miss h hmiss, tolerantFallback, canonicalSpelling_blank, blankNode]
  cases ox.blankNodeError (trimStartMatches BLANK_PREFIX (blankNodeString b)) with
  | some error => simp [Except.map]
  | none =>
    have hnode : blankNodeString ⟨trimStartMatches BLANK_PREFIX (blankNodeString b)⟩ =
        oneBlankPrefix (blankNodeString b) := rfl
    simp [Except.map, hnode, hne, rankOf_eq_some_iff h]

/-- A term's spelling finds that term and no other, unless it is a label that begins
with `_:`, is not held, and the one it is retried as is. -/
theorem finds_iff (h : dict.terms.SortedLT) (hstored : StoredTerms ox dict.terms)
    (ht : t.Accepted ox) : dict.Finds ox t ↔
      t.Bare ∨ t.toStr ox ∈ dict.terms ∨ oneBlankPrefix (t.toStr ox) ∉ dict.terms := by
  by_cases hin : t.toStr ox ∈ dict.terms
  · exact iff_of_true (finds_of_mem h hin) (Or.inr (Or.inl hin))
  by_cases hbare : t.Bare
  · refine iff_of_true (finds_of_not_mem hin fun code => ?_) (Or.inl hbare)
    rw [encode_miss h hin, fallback_bare ht hbare]
    intro heq
    cases heq
  cases t with
  | namedNode n => exact absurd trivial hbare
  | literal l => exact absurd trivial hbare
  | blankNode b =>
    constructor
    · rintro ⟨hfound, -⟩
      refine Or.inr (Or.inr fun hother => hin (hfound.mp ?_))
      obtain ⟨code, hcode⟩ := List.mem_iff_getElem?.mp hother
      exact ⟨code, (encode_blank h hbare hin).mpr ⟨label_of_stored hstored hother, hcode⟩⟩
    · rintro (hbare' | hin' | hother)
      · exact absurd hbare' hbare
      · exact absurd hin' hin
      · refine finds_of_not_mem hin fun code hcode => hother ?_
        exact List.mem_of_getElem? ((encode_blank h hbare hin).mp hcode).2

/-- A batch is the lookups one at a time. -/
theorem encodeMany_singles (h : dict.terms.SortedLT) (ox : Oxrdf) (ts : List Str) :
    dict.encodeMany ox ts = ts.mapM (dict.encode ox) := by
  rw [TermDictionary.encodeMany_eq h, show dict.encode ox = lookupTolerant ox dict.terms from
    funext (TermDictionary.encode_eq h ox)]

/-- **When looking up a term finds that term and no other.** In a dictionary of stored
spellings, the spelling of a term the library accepts has a code just when the dictionary
holds it, and the code decodes to it, and every batch answers as the lookups one at a time
and fails exactly when one of them does; but for a blank node whose label itself begins with
`_:`, whose spelling is not held and that without the further `_:` is. -/
theorem encode_finds_iff (h : dict.terms.SortedLT) (hstored : StoredTerms ox dict.terms)
    (ht : t.Accepted ox) :
    (dict.Finds ox t ∧ ∀ ts, dict.encodeMany ox ts = ts.mapM (dict.encode ox) ∧
      ((∃ e, dict.encodeMany ox ts = .error e) ↔ ∃ s ∈ ts, ∃ e, dict.encode ox s = .error e)) ↔
    t.Bare ∨ t.toStr ox ∈ dict.terms ∨ oneBlankPrefix (t.toStr ox) ∉ dict.terms := by
  rw [finds_iff h hstored ht]
  refine and_iff_left fun ts => ?_
  rw [encodeMany_singles h]
  exact ⟨rfl, mapM_isError_iff⟩

end Lookups

/-- The blank nodes `a` and `b`. -/
def blankSample : TermDictionary := ⟨[[utf8 ['_', ':', 'a'], utf8 ['_', ':', 'b']]], by decide⟩

theorem blankSample_stored : StoredTerms ntriples blankSample.terms := by
  intro s hs
  rcases List.mem_pair.mp hs with rfl | rfl
  · exact Or.inr ⟨.blankNode ⟨utf8 ['a']⟩, show ntriples.blankNodeError (utf8 ['a']) = none by decide, rfl⟩
  · exact Or.inr ⟨.blankNode ⟨utf8 ['b']⟩, show ntriples.blankNodeError (utf8 ['b']) = none by decide, rfl⟩

theorem encode_finds_iff_sample :
    (blankSample.Finds ntriples (.blankNode ⟨utf8 ['b']⟩) ∧ ∀ ts,
      blankSample.encodeMany ntriples ts = ts.mapM (blankSample.encode ntriples) ∧
      ((∃ e, blankSample.encodeMany ntriples ts = .error e) ↔
        ∃ s ∈ ts, ∃ e, blankSample.encode ntriples s = .error e)) ↔
    (Term.blankNode ⟨utf8 ['b']⟩).Bare ∨
      (Term.blankNode ⟨utf8 ['b']⟩).toStr ntriples ∈ blankSample.terms ∨
      oneBlankPrefix ((Term.blankNode ⟨utf8 ['b']⟩).toStr ntriples) ∉ blankSample.terms :=
  encode_finds_iff (List.Pairwise.sortedLT (by decide)) blankSample_stored
    (show ntriples.blankNodeError (utf8 ['b']) = none by decide)

/-- The node labelled `_:a` is not in the dictionary, yet its spelling has the code of the
node `a`. -/
theorem encode_finds_prefixed :
    blankSample.terms.SortedLT ∧ StoredTerms ntriples blankSample.terms ∧
    (Term.blankNode ⟨utf8 ['_', ':', 'a']⟩).Accepted ntriples ∧
    (Term.blankNode ⟨utf8 ['_', ':', 'a']⟩).toStr ntriples ∉ blankSample.terms ∧
    blankSample.encode ntriples ((Term.blankNode ⟨utf8 ['_', ':', 'a']⟩).toStr ntriples) =
      .ok (some 0) ∧
    ¬ blankSample.Finds ntriples (.blankNode ⟨utf8 ['_', ':', 'a']⟩) := by
  have hsorted : blankSample.terms.SortedLT := List.Pairwise.sortedLT (by decide)
  have haccepted : (Term.blankNode ⟨utf8 ['_', ':', 'a']⟩).Accepted ntriples :=
    show ntriples.blankNodeError (utf8 ['_', ':', 'a']) = none by decide
  have hmiss : (Term.blankNode ⟨utf8 ['_', ':', 'a']⟩).toStr ntriples ∉ blankSample.terms := by
    decide
  have hbare : ¬ BlankNode.Bare ⟨utf8 ['_', ':', 'a']⟩ := fun h => h (by decide)
  have hcode : blankSample.encode ntriples (blankNodeString ⟨utf8 ['_', ':', 'a']⟩) = .ok (some 0) :=
    (encode_blank hsorted hbare hmiss).mpr ⟨by decide, rfl⟩
  refine ⟨hsorted, blankSample_stored, haccepted, hmiss, hcode, fun hfinds => ?_⟩
  exact hmiss (hfinds.found.mp ⟨0, hcode⟩)

end Dictionary
