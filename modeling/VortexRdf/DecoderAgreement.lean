/-
The decoders of code rows agree.

Whatever the dictionary lies in, the decoders give the four spellings of each row and
fail when a row has a code outside the dictionary, but that the decoder into lines lets
`TERM_CODE_MAX` through while the empty slot it sits in is not displaced.

* `DecodeRows.Computes` — a decoder that gives an expected result over every source;
* `distinctCodes_spec`, `Residency.decode_cases` — the decodes of a chunk, resident, in
  place and resolved;
* `DecodersAgree` — all decoders give what the codes spell, and fail together;
* `decoders_agree_iff` — the rows of which this is so;
* `decoders_agree_max` — rows of which it is not.
-/
import VortexRdf.LineDecoder
import VortexRdf.TermRoundTrip

namespace Dictionary

open Ascending Programs Store Terms

variable {α : Type}

/-! ### The decoders over any source -/

/-- Over a source that answers as a function of the code does, the decoder gives what
is expected of that function, or the source gives up. -/
def DecodeRows.Computes (d : DecodeRows α)
    (expected : (TermCode → Except VortexRdfError Str) → List CodeRow →
      List (Except VortexRdfError α)) : Prop :=
  ∀ {σ : Type} {src : TermSource σ} {inv : σ → Prop} {answer : TermCode → Except VortexRdfError Str}
    {rows : List CodeRow} {s : σ}, src.Reads inv answer rows → inv s →
    (d.fromCodes src rows s).1 = expected answer rows ∨
      src.gaveUp (d.fromCodes src rows s).2 = true

theorem quadRows_computes (ox : Oxrdf) :
    (quadRows ox).Computes fun answer rows => rows.map (rowQuad ox answer) :=
  fun h hs => decodeRows_spec ox h hs

theorem sharedQuadRows_computes : sharedQuadRows.Computes fun answer rows =>
    chunkRows (rows.mapM (rowStrings SharedQuad.fromTerms answer)) :=
  fun h hs => decodeRowsShared_spec SharedQuad.fromTerms h hs

theorem rawQuadRows_computes : rawQuadRows.Computes fun answer rows =>
    chunkRows (rows.mapM (rowStrings RawQuad.fromTerms answer)) :=
  fun h hs => decodeRowsShared_spec RawQuad.fromTerms h hs

theorem nquadLines_computes : nquadLines.Computes fun answer rows =>
    chunkLines (lineRows answer (fun _ => []) .empty rows) :=
  fun h hs => nquadLines_spec h hs

/-! ### The sources of a dictionary -/

theorem dictTerms_reads (dict : TermDictionary) (rows : List CodeRow) :
    (DictTerms dict).Reads (fun _ => True) (lookup dict.terms) rows := by
  intro codes _ role s _
  have hread : (checkCode (codes role) dict.terms.length).map (DictCursor.strAt dict) =
      lookup dict.terms (codes role) := by
    by_cases hlt : codes role < dict.terms.length
    · rw [lookup_of_lt hlt, checkCode_of_lt hlt, ← DictCursor.strAt_eq dict hlt]
      rfl
    · obtain ⟨e, he⟩ := checkCode_of_ge (Nat.le_of_not_lt hlt)
      rw [lookup, he]
      rfl
  have hrun : (DictTerms dict).strAt role (codes role) s = (lookup dict.terms (codes role), s) :=
    congrArg (·, s) hread
  cases hlookup : lookup dict.terms (codes role) with
  | ok t => exact Or.inl ⟨t, s, by rw [hrun, hlookup], trivial, rfl⟩
  | error e => exact Or.inr ⟨e, s, by rw [hrun, hlookup], trivial, Or.inl rfl⟩

theorem fileTerms_reads (fb : FileBackedDict) (rows : List CodeRow) :
    (FileTerms fb).Reads (HeldWindows.Faithful fb) (lookup fb.terms) rows := by
  intro codes _ role held hheld
  rcases HeldWindows.strAt_spec hheld (codes role) with
    ⟨t, held', hrun, hheld', ht⟩ | ⟨e, held', hrun, hheld', hend⟩
  · exact Or.inl ⟨t, held', hrun, hheld', ht⟩
  · exact Or.inr ⟨e, held', hrun, hheld', hend⟩

/-! ### The distinct codes of a chunk -/

theorem mem_skipRepeats {code : TermCode} : ∀ {codes : List TermCode} {previous : Option TermCode},
    code ∈ skipRepeats previous codes → code ∈ codes
  | [], _, h => h
  | first :: codes, previous, h => by
    rw [skipRepeats] at h
    split_ifs at h
    · exact List.mem_cons_of_mem first (mem_skipRepeats h)
    · rcases List.mem_cons.mp h with rfl | htail
      · exact List.mem_cons_self
      · exact List.mem_cons_of_mem first (mem_skipRepeats htail)

theorem mem_skipRepeats_or {code : TermCode} : ∀ {codes : List TermCode}
    {previous : Option TermCode}, code ∈ codes →
    code ∈ skipRepeats previous codes ∨ previous = some code
  | first :: codes, previous, h => by
    rw [skipRepeats]
    split_ifs with hprev
    · rcases List.mem_cons.mp h with rfl | htail
      · exact Or.inr hprev
      · exact mem_skipRepeats_or htail
    · rcases List.mem_cons.mp h with rfl | htail
      · exact Or.inl List.mem_cons_self
      · rcases @mem_skipRepeats_or code codes (some first) htail with hmem | heq
        · exact Or.inl (List.mem_cons_of_mem first hmem)
        · rw [Option.some.inj heq]
          exact Or.inl List.mem_cons_self

theorem mem_skipRepeats_none {code : TermCode} {codes : List TermCode} :
    code ∈ skipRepeats none codes ↔ code ∈ codes := by
  constructor
  · exact mem_skipRepeats
  · intro h
    exact (mem_skipRepeats_or h).resolve_right (Option.some_ne_none code).symm

/-- Of codes in order, those left ascend strictly past the one before them. -/
theorem skipRepeats_ascends : ∀ {codes : List TermCode} {previous : Option TermCode},
    codes.Pairwise (· ≤ ·) → (∀ p ∈ previous, ∀ code ∈ codes, p ≤ code) →
    (skipRepeats previous codes).Pairwise (· < ·) ∧
      ∀ p ∈ previous, ∀ code ∈ skipRepeats previous codes, p < code
  | [], _, _, _ => ⟨List.Pairwise.nil, fun _ _ _ h => absurd h List.not_mem_nil⟩
  | first :: codes, previous, hsorted, hprev => by
    obtain ⟨hfirst, hrest⟩ := List.pairwise_cons.mp hsorted
    rw [skipRepeats]
    split_ifs with heq
    · exact skipRepeats_ascends hrest fun p hp code hmem =>
        hprev p hp code (List.mem_cons_of_mem first hmem)
    · obtain ⟨hascends, hpast⟩ := @skipRepeats_ascends codes (some first) hrest
        fun p hp code hmem => Option.some.inj hp ▸ hfirst code hmem
      refine ⟨List.pairwise_cons.mpr ⟨hpast first rfl, hascends⟩, fun p hp code hmem => ?_⟩
      have hlt : p < first := by
        refine lt_of_le_of_ne (hprev p hp first List.mem_cons_self) ?_
        rintro rfl
        exact heq hp
      rcases List.mem_cons.mp hmem with rfl | htail
      · exact hlt
      · exact hlt.trans (hpast first rfl code htail)

theorem distinctCodes_spec (rows : List CodeRow) : (distinctCodes rows).SortedLT ∧
    ∀ code, code ∈ distinctCodes rows ↔ ∃ codes ∈ rows, ∃ role, codes role = code := by
  have hroles : ∀ role : Role, role ∈ [Role.s, .p, .o, .g] := by
    intro role
    cases role <;> decide
  constructor
  · refine ((skipRepeats_ascends ?_ fun _ hp => absurd hp (Option.not_mem_none _)).1).sortedLT
    exact (List.pairwise_mergeSort (fun a b c => by simpa using Nat.le_trans)
      (fun a b => by simpa using Nat.le_total a b) _).imp (by simp)
  · intro code
    simp only [distinctCodes, mem_skipRepeats_none, List.mem_mergeSort, List.mem_flatMap, column,
      List.mem_map, hroles, true_and]
    constructor
    · rintro ⟨role, codes, hmem, heq⟩
      exact ⟨codes, hmem, role, heq⟩
    · rintro ⟨codes, hmem, role, heq⟩
      exact ⟨role, codes, hmem, heq⟩

/-- Every code of the rows is a rank. -/
def InRange (terms : List Str) (rows : List CodeRow) : Prop :=
  ∀ codes ∈ rows, ∀ role, codes role < terms.length

theorem resolveChunkTerms_of_inRange {fb : FileBackedDict} {rows : List CodeRow}
    (h : InRange fb.terms rows) : ∃ terms, resolveChunkTerms fb rows = .ok terms ∧
      (MappedTerms terms).Reads (fun _ => True) (lookup fb.terms) rows := by
  obtain ⟨hsorted, hmem⟩ := distinctCodes_spec rows
  have hlt : ∀ code ∈ distinctCodes rows, code < fb.terms.length := by
    intro code hcode
    obtain ⟨codes, hcodes, role, rfl⟩ := (hmem code).mp hcode
    exact h codes hcodes role
  refine ⟨(distinctCodes rows).zip ((distinctCodes rows).map fun code => fb.terms.getD code []), ?_,
    ?_⟩
  · rw [resolveChunkTerms]
    simp only [decodeMany_eq fb hsorted hlt]
    rfl
  · intro codes hcodes role s _
    have hcode : codes role ∈ distinctCodes rows := (hmem _).mpr ⟨codes, hcodes, role, rfl⟩
    have hget : MappedTerms.get ((distinctCodes rows).zip
        ((distinctCodes rows).map fun code => fb.terms.getD code [])) (codes role) =
        .ok (fb.terms.getD (codes role) []) := by
      rw [MappedTerms.get, ← List.map_prod_left_eq_zip, List.lookup_graph _ hcode]
    exact Or.inl ⟨_, s, congrArg (·, s) hget, trivial, lookup_of_lt (h codes hcodes role)⟩

theorem resolveChunkTerms_isError {fb : FileBackedDict} {rows : List CodeRow}
    (h : ¬ InRange fb.terms rows) : ∃ e, resolveChunkTerms fb rows = .error e := by
  obtain ⟨hsorted, hmem⟩ := distinctCodes_spec rows
  obtain ⟨codes, hcodes, role, hge⟩ : ∃ codes ∈ rows, ∃ role, ¬ codes role < fb.terms.length := by
    by_contra hnone
    push Not at hnone
    exact h hnone
  obtain ⟨e, he⟩ := decodeMany_isError fb hsorted ((hmem _).mpr ⟨codes, hcodes, role, rfl⟩)
    (Nat.le_of_not_lt hge)
  exact ⟨e, by rw [resolveChunkTerms]; simp only [he]; rfl⟩

/-! ### The decodes of a chunk -/

/-- Where a dictionary's terms lie. -/
inductive Residency where
  | resident (dict : TermDictionary)
  | fileBacked (fb : FileBackedDict)

namespace Residency

def terms : Residency → List Str
  | resident dict => dict.terms
  | fileBacked fb => fb.terms

def decode (d : DecodeRows α) : Residency → List CodeRow → List (Except VortexRdfError α)
  | resident dict => decodeResident d dict
  | fileBacked fb => decodeFileBacked d fb

/-- A decode gives what is expected of the terms, or is the one error of a chunk with a
code outside them. -/
theorem decode_cases {d : DecodeRows α}
    {expected : (TermCode → Except VortexRdfError Str) → List CodeRow →
      List (Except VortexRdfError α)} (hd : d.Computes expected) (dict : Residency)
    (rows : List CodeRow) : dict.decode d rows = expected (lookup dict.terms) rows ∨
      ¬ InRange dict.terms rows ∧ ∃ e, dict.decode d rows = [.error e] := by
  cases dict with
  | resident dict =>
    exact Or.inl ((hd (dictTerms_reads dict rows) trivial).resolve_right Bool.false_ne_true)
  | fileBacked fb =>
    have hresolved : decodeResolved d fb rows = expected (lookup fb.terms) rows ∨
        ¬ InRange fb.terms rows ∧ ∃ e, decodeResolved d fb rows = [.error e] := by
      rw [decodeResolved]
      by_cases hrange : InRange fb.terms rows
      · obtain ⟨terms, hterms, hreads⟩ := resolveChunkTerms_of_inRange hrange
        rw [hterms]
        exact Or.inl ((hd hreads trivial).resolve_right Bool.false_ne_true)
      · obtain ⟨e, he⟩ := resolveChunkTerms_isError hrange
        rw [he]
        exact Or.inr ⟨hrange, e, rfl⟩
    change decodeFileBacked d fb rows = _ ∨ _ ∧ ∃ e, decodeFileBacked d fb rows = _
    rw [decodeFileBacked, FileBackedDict.holdWindows]
    by_cases hwait : fb.readsWait = true
    · rw [if_pos hwait]
      exact hresolved
    · rw [if_neg hwait]
      have hheld : HeldWindows.Faithful fb ⟨fun _ => none, 0, false⟩ := by
        intro w chunk hw
        cases hw
      by_cases hgave : (d.fromCodes (FileTerms fb) rows ⟨fun _ => none, 0, false⟩).2.gaveUp = true
      · simp only [if_pos hgave]
        exact hresolved
      · simp only [if_neg hgave]
        exact Or.inl ((hd (fileTerms_reads fb rows) hheld).resolve_right hgave)

end Residency

/-! ### What the codes spell -/

/-- The four spellings of a row. -/
def spelled (terms : List Str) (codes : CodeRow) : RawQuad :=
  ⟨terms.getD (codes .s) [], terms.getD (codes .p) [], terms.getD (codes .o) [],
    terms.getD (codes .g) []⟩

/-- The position of a role can hold the term spelled so. -/
def CanHold (ox : Oxrdf) : Role → Str → Prop
  | .s, t => ∃ n, subject ox t .stored = .ok n
  | .p, t => ∃ n, namedNode ox t .stored = .ok n
  | .o, t => ∃ n, term ox t .stored = .ok n
  | .g, t => ∃ n, graphName ox t .stored = .ok n

/-- Every code inside the dictionary names a term its position can hold. -/
def Fits (ox : Oxrdf) (terms : List Str) (rows : List CodeRow) : Prop :=
  ∀ codes ∈ rows, ∀ role, codes role < terms.length → CanHold ox role (terms.getD (codes role) [])

/-- The four spellings are those a quad is stored under that has no blank node whose identifier
begins with the prefix; a stored `_:_:b` is read as `_:b`, another quad. -/
def BareSpelling (ox : Oxrdf) (r : RawQuad) : Prop :=
  ∃ q : Quad, q.Accepted ox ∧ q.Bare ∧ RawQuad.fromQuad ox q = r

/-- A quad is the one the spellings are read as, and is spelled so itself where they are those
of a bare quad. -/
structure Carries (ox : Oxrdf) (q : Quad) (r : RawQuad) : Prop where
  parsed : r.toQuad ox = .ok q
  spelling : BareSpelling ox r → RawQuad.fromQuad ox q = r

def Fails (results : List (Except VortexRdfError α)) : Prop := ∃ e, .error e ∈ results

/-- All decoders of the rows, over whatever the terms lie in, give what the codes
spell, and each fails exactly when some code is outside the terms. -/
structure DecodersAgree (ox : Oxrdf) (terms : List Str) (rows : List CodeRow) : Prop where
  quads : InRange terms rows → ∀ dict : Residency, dict.terms = terms →
    ∃ quads : List Quad, dict.decode (quadRows ox) rows = quads.map .ok ∧
      quads.Forall₂ (fun q codes => Carries ox q (spelled terms codes)) rows
  sharedQuads : InRange terms rows → ∀ dict : Residency, dict.terms = terms →
    dict.decode sharedQuadRows rows = rows.map fun codes =>
      .ok ⟨(spelled terms codes).s, (spelled terms codes).p, (spelled terms codes).o,
        (spelled terms codes).g⟩
  rawQuads : InRange terms rows → ∀ dict : Residency, dict.terms = terms →
    dict.decode rawQuadRows rows = rows.map fun codes => .ok (spelled terms codes)
  lines : InRange terms rows → ∀ dict : Residency, dict.terms = terms →
    dict.decode nquadLines rows = [.ok (rows.foldl (fun lines codes =>
      lines.push (spelled terms codes).s (spelled terms codes).p (spelled terms codes).o
        (spelled terms codes).g) .empty)]
  fails : ∀ dict : Residency, dict.terms = terms →
    (Fails (dict.decode (quadRows ox) rows) ↔ ¬ InRange terms rows) ∧
    (Fails (dict.decode sharedQuadRows rows) ↔ ¬ InRange terms rows) ∧
    (Fails (dict.decode rawQuadRows rows) ↔ ¬ InRange terms rows) ∧
    (Fails (dict.decode nquadLines rows) ↔ ¬ InRange terms rows)

/-- Some code outside the terms is not `TERM_CODE_MAX`, or comes in its column after
another code of that one's slot. -/
def Caught (terms : List Str) (rows : List CodeRow) : Prop :=
  ∃ before codes rest role, rows = before ++ codes :: rest ∧ terms.length ≤ codes role ∧
    (codes role = TERM_CODE_MAX → ∃ code ∈ column before role,
      code ≠ TERM_CODE_MAX ∧ SpanMemo.slot code = SpanMemo.slot TERM_CODE_MAX)

section Results

variable {ox : Oxrdf} {terms : List Str} {rows : List CodeRow} {dict : Residency}

theorem exists_of_not_inRange (h : ¬ InRange terms rows) :
    ∃ codes ∈ rows, ∃ role, terms.length ≤ codes role := by
  by_contra hnone
  push Not at hnone
  exact h hnone

theorem not_fails_ok {values : List α} {results : List (Except VortexRdfError α)}
    (h : results = values.map .ok) : ¬ Fails results := by
  rintro ⟨e, hmem⟩
  rw [h] at hmem
  obtain ⟨value, -, hvalue⟩ := List.mem_map.mp hmem
  cases hvalue

/-- A decoder fails when it fails without a memo on every chunk with a code outside the
dictionary, and gives values on the others. -/
theorem fails_iff {d : DecodeRows α}
    {expected : (TermCode → Except VortexRdfError Str) → List CodeRow →
      List (Except VortexRdfError α)} (hd : d.Computes expected)
    (hok : InRange dict.terms rows → ∃ values : List α, expected (lookup dict.terms) rows = values.map .ok)
    (hbad : ¬ InRange dict.terms rows → Fails (expected (lookup dict.terms) rows)) :
    Fails (dict.decode d rows) ↔ ¬ InRange dict.terms rows := by
  constructor
  · intro hfails hrange
    obtain ⟨values, hvalues⟩ := hok hrange
    rcases Residency.decode_cases hd dict rows with heq | ⟨hnot, -⟩
    · exact not_fails_ok (heq.trans hvalues) hfails
    · exact hnot hrange
  · intro hnot
    rcases Residency.decode_cases hd dict rows with heq | ⟨-, e, he⟩
    · rw [heq]
      exact hbad hnot
    · exact ⟨e, by rw [he]; exact List.mem_singleton_self _⟩

theorem decode_of_inRange {d : DecodeRows α}
    {expected : (TermCode → Except VortexRdfError Str) → List CodeRow →
      List (Except VortexRdfError α)} (hd : d.Computes expected)
    (h : InRange dict.terms rows) : dict.decode d rows = expected (lookup dict.terms) rows :=
  (Residency.decode_cases hd dict rows).resolve_right fun hnot => hnot.1 h

/-! ### Quads -/

theorem rowQuad_eq {codes : CodeRow} (h : ∀ role, codes role < terms.length) :
    rowQuad ox (lookup terms) codes = (spelled terms codes).toQuad ox := by
  simp only [rowQuad, quadAnswer, lookup_of_lt (h _)]
  rfl

theorem rowQuad_isError {codes : CodeRow} {role : Role} (h : terms.length ≤ codes role) :
    ∃ e, rowQuad ox (lookup terms) codes = .error e := by
  obtain ⟨e, he⟩ := lookup_of_ge h
  have hrole : quadAnswer ox (lookup terms) role (codes role) = .error e := by
    cases role <;> simp only [quadAnswer, he] <;> rfl
  rw [rowQuad]
  cases hs : quadAnswer ox (lookup terms) .s (codes .s) with
  | error e => exact ⟨e, rfl⟩
  | ok s =>
    cases hp : quadAnswer ox (lookup terms) .p (codes .p) with
    | error e => exact ⟨e, rfl⟩
    | ok p =>
      cases ho : quadAnswer ox (lookup terms) .o (codes .o) with
      | error e => exact ⟨e, rfl⟩
      | ok o =>
        cases hg : quadAnswer ox (lookup terms) .g (codes .g) with
        | error e => exact ⟨e, rfl⟩
        | ok g => cases role <;> simp_all

theorem exists_quad (hfits : Fits ox terms rows) (h : InRange terms rows) {codes : CodeRow}
    (hmem : codes ∈ rows) : ∃ q, (spelled terms codes).toQuad ox = .ok q := by
  obtain ⟨s, hs⟩ := hfits codes hmem .s (h codes hmem .s)
  obtain ⟨p, hp⟩ := hfits codes hmem .p (h codes hmem .p)
  obtain ⟨o, ho⟩ := hfits codes hmem .o (h codes hmem .o)
  obtain ⟨g, hg⟩ := hfits codes hmem .g (h codes hmem .g)
  exact ⟨⟨s, p, o, g⟩, quadFromTerms_ok_iff.mpr ⟨hs, hp, ho, hg⟩⟩

theorem carries_of_parsed {q : Quad} {r : RawQuad} (h : r.toQuad ox = .ok q) : Carries ox q r where
  parsed := h
  spelling := by
    rintro ⟨q', haccepted, hbare, rfl⟩
    rw [(toQuad_fromQuad_iff haccepted).mpr hbare, Except.ok.injEq] at h
    rw [h]

theorem quads_spelled (hfits : Fits ox terms rows) (h : InRange terms rows) :
    ∃ quads : List Quad, rows.map (rowQuad ox (lookup terms)) = quads.map .ok ∧
      quads.Forall₂ (fun q codes => Carries ox q (spelled terms codes)) rows := by
  induction rows with
  | nil => exact ⟨[], rfl, List.Forall₂.nil⟩
  | cons codes rest ih =>
    obtain ⟨q, hq⟩ := exists_quad hfits h List.mem_cons_self
    obtain ⟨quads, hquads, hcarries⟩ :=
      ih (fun codes' hmem => hfits codes' (List.mem_cons_of_mem codes hmem))
        fun codes' hmem => h codes' (List.mem_cons_of_mem codes hmem)
    refine ⟨q :: quads, ?_, List.Forall₂.cons (carries_of_parsed hq) hcarries⟩
    rw [List.map_cons, rowQuad_eq (h codes List.mem_cons_self), hq, hquads, List.map_cons]

theorem quads_fail (h : ¬ InRange terms rows) : Fails (rows.map (rowQuad ox (lookup terms))) := by
  obtain ⟨codes, hmem, role, hge⟩ := exists_of_not_inRange h
  obtain ⟨e, he⟩ := @rowQuad_isError ox terms codes role hge
  exact ⟨e, List.mem_map.mpr ⟨codes, hmem, he⟩⟩

/-! ### Rows of strings -/

variable {R : Type} (fromTerms : Str → Str → Str → Str → R)

theorem strings_spelled (h : InRange terms rows) :
    chunkRows (rows.mapM (rowStrings fromTerms (lookup terms))) =
      rows.map fun codes => .ok (fromTerms (spelled terms codes).s (spelled terms codes).p
        (spelled terms codes).o (spelled terms codes).g) := by
  have hrow : ∀ codes ∈ rows, rowStrings fromTerms (lookup terms) codes =
      .ok (fromTerms (spelled terms codes).s (spelled terms codes).p (spelled terms codes).o
        (spelled terms codes).g) := by
    intro codes hmem
    simp only [rowStrings, lookup_of_lt (h codes hmem _)]
    rfl
  rw [mapM_eq_ok hrow, chunkRows, List.map_map]
  rfl

theorem strings_ok (h : InRange terms rows) : ∃ values : List R,
    chunkRows (rows.mapM (rowStrings fromTerms (lookup terms))) = values.map .ok := by
  refine ⟨rows.map fun codes => fromTerms (spelled terms codes).s (spelled terms codes).p
    (spelled terms codes).o (spelled terms codes).g, ?_⟩
  rw [strings_spelled fromTerms h, List.map_map]
  rfl

theorem rowStrings_isError {codes : CodeRow} {role : Role} (h : terms.length ≤ codes role) :
    ∃ e, rowStrings fromTerms (lookup terms) codes = .error e := by
  obtain ⟨e, he⟩ := lookup_of_ge h
  rw [rowStrings]
  cases hs : lookup terms (codes .s) with
  | error e => exact ⟨e, rfl⟩
  | ok s =>
    cases hp : lookup terms (codes .p) with
    | error e => exact ⟨e, rfl⟩
    | ok p =>
      cases ho : lookup terms (codes .o) with
      | error e => exact ⟨e, rfl⟩
      | ok o =>
        cases hg : lookup terms (codes .g) with
        | error e => exact ⟨e, rfl⟩
        | ok g => cases role <;> simp_all

theorem strings_fail (h : ¬ InRange terms rows) :
    Fails (chunkRows (rows.mapM (rowStrings fromTerms (lookup terms)))) := by
  obtain ⟨codes, hmem, role, hge⟩ := exists_of_not_inRange h
  obtain ⟨e, he⟩ := rowStrings_isError fromTerms hge
  obtain ⟨e', he'⟩ := mapM_isError hmem he
  exact ⟨e', by rw [he']; exact List.mem_singleton_self _⟩

/-! ### Lines -/

theorem lines_spelled (hlen : terms.length ≤ usizeMax) (h : InRange terms rows) :
    chunkLines (lineRows (lookup terms) (fun _ => []) .empty rows) =
      [.ok (rows.foldl (fun lines codes => lines.push (spelled terms codes).s
        (spelled terms codes).p (spelled terms codes).o (spelled terms codes).g) .empty)] := by
  have hcodes : ∀ codes ∈ rows, ∀ role, codes role ≠ TERM_CODE_MAX ∧
      lookup terms (codes role) = .ok (terms.getD (codes role) []) := by
    intro codes hmem role
    have hlt := h codes hmem role
    have hmax : usizeMax = TERM_CODE_MAX := rfl
    exact ⟨(hlt.trans_le (hlen.trans_eq hmax)).ne, lookup_of_lt hlt⟩
  rw [@lineRows_eq_push _ (fun code => terms.getD code []) _ _ _ hcodes]
  rfl

theorem lines_fail (h : Caught terms rows) :
    Fails (chunkLines (lineRows (lookup terms) (fun _ => []) .empty rows)) := by
  obtain ⟨before, codes, rest, role, rfl, hge, hmax⟩ := h
  obtain ⟨e, he⟩ := lookup_of_ge hge
  have hanswer : spanAnswer (lookup terms) ((fun _ => []) role ++ column before role)
      (codes role) = .error e := by
    rw [List.nil_append]
    by_cases hcode : codes role = TERM_CODE_MAX
    · obtain ⟨code, hmem, hne, hslot⟩ := hmax hcode
      rw [spanAnswer_displaced fun hfresh => hne (hfresh code hmem hslot), he]
    · rw [spanAnswer_of_ne hcode, he]
  obtain ⟨e', he'⟩ := @lineRows_isError _ codes rest role e before (fun _ => []) .empty hanswer
  exact ⟨e', by rw [he']; exact List.mem_singleton_self _⟩

/-- Rows with no code that the decoder into lines would catch come out as lines. -/
theorem lines_uncaught (h : ¬ Caught terms rows) : ∃ lines,
    chunkLines (lineRows (lookup terms) (fun _ => []) .empty rows) = [.ok lines] := by
  have hterms : ∀ before codes rest, rows = before ++ codes :: rest → ∀ role,
      ∃ t, spanAnswer (lookup terms) ([] ++ column before role) (codes role) = .ok t := by
    intro before codes rest hrows role
    rw [List.nil_append]
    by_cases hlt : codes role < terms.length
    · by_cases hfresh : codes role = TERM_CODE_MAX ∧ Fresh (column before role)
      · exact ⟨[], if_pos hfresh⟩
      · exact ⟨_, (if_neg hfresh).trans (lookup_of_lt hlt)⟩
    · have hfresh : codes role = TERM_CODE_MAX ∧ Fresh (column before role) := by
        by_contra hnot
        refine h ⟨before, codes, rest, role, hrows, Nat.le_of_not_lt hlt, fun hcode => ?_⟩
        by_contra hnone
        push Not at hnone
        refine hnot ⟨hcode, fun code hmem hslot => ?_⟩
        by_contra hne
        exact hnone code hmem hne hslot
      exact ⟨[], if_pos hfresh⟩
  obtain ⟨lines, hlines⟩ := @lineRows_isOk (lookup terms) rows (fun _ => []) .empty hterms
  exact ⟨lines, by rw [hlines]; rfl⟩

end Results

theorem Residency.len_le (dict : Residency) : dict.terms.length ≤ usizeMax := by
  cases dict with
  | resident dict => exact dict.len_le
  | fileBacked fb => exact fb.len_le

/-! ### Sample rows -/

/-- A dictionary of the one term `<a>`. -/
def oneTerm : TermDictionary := ⟨[[[0x3c, 0x61, 0x3e]]], by decide⟩

/-- A row of that term. -/
def oneRow : CodeRow := fun _ => 0

theorem oneRow_fits (codes : CodeRow) : Fits ntriples oneTerm.terms [codes] := by
  intro codes' hmem role hlt
  have hcode : codes' role = 0 := Nat.lt_one_iff.mp hlt
  rw [hcode]
  cases role <;> exact ⟨_, rfl⟩

/-- The decoders agree on the rows whose codes are all inside the dictionary, and on
those of whose codes outside it one is caught. -/
theorem decoders_agree_iff (ox : Oxrdf) (dict : TermDictionary) (rows : List CodeRow)
    (h : Fits ox dict.terms rows) :
    DecodersAgree ox dict.terms rows ↔ InRange dict.terms rows ∨ Caught dict.terms rows := by
  constructor
  · intro hagree
    by_contra hnot
    push Not at hnot
    obtain ⟨hrange, hcaught⟩ := hnot
    obtain ⟨lines, hlines⟩ := lines_uncaught hcaught
    have hdecode : (Residency.resident dict).decode nquadLines rows = [.ok lines] :=
      ((nquadLines_computes (dictTerms_reads dict rows) trivial).resolve_right
        Bool.false_ne_true).trans hlines
    have hfails := (hagree.fails (.resident dict) rfl).2.2.2.mpr hrange
    rw [hdecode] at hfails
    exact @not_fails_ok _ [lines] _ rfl hfails
  · intro hcase
    refine ⟨?_, ?_, ?_, ?_, ?_⟩
    · rintro hrange dict' hterms
      obtain ⟨quads, hquads, hcarries⟩ := quads_spelled h hrange
      refine ⟨quads, ?_, hcarries⟩
      rw [decode_of_inRange (quadRows_computes ox) (hterms ▸ hrange), hterms, hquads]
    · rintro hrange dict' hterms
      rw [decode_of_inRange sharedQuadRows_computes (hterms ▸ hrange), hterms,
        strings_spelled SharedQuad.fromTerms hrange]
      rfl
    · rintro hrange dict' hterms
      rw [decode_of_inRange rawQuadRows_computes (hterms ▸ hrange), hterms,
        strings_spelled RawQuad.fromTerms hrange]
      rfl
    · rintro hrange dict' hterms
      rw [decode_of_inRange nquadLines_computes (hterms ▸ hrange), hterms]
      exact lines_spelled dict.len_le hrange
    · rintro dict' hterms
      rw [← hterms] at h hcase ⊢
      have hquads : InRange dict'.terms rows → ∃ values : List Quad,
          rows.map (rowQuad ox (lookup dict'.terms)) = values.map .ok := by
        intro hrange
        obtain ⟨quads, hquads, -⟩ := quads_spelled h hrange
        exact ⟨quads, hquads⟩
      refine ⟨fails_iff (quadRows_computes ox) hquads quads_fail,
        fails_iff sharedQuadRows_computes (strings_ok _) (strings_fail _),
        fails_iff rawQuadRows_computes (strings_ok _) (strings_fail _),
        fails_iff nquadLines_computes (fun hrange => ⟨[_], lines_spelled dict'.len_le hrange⟩) ?_⟩
      exact fun hrange => lines_fail (hcase.resolve_left hrange)

/-- Of the row of the one term. -/
theorem decoders_agree_iff_oneRow : DecodersAgree ntriples oneTerm.terms [oneRow] ↔
    InRange oneTerm.terms [oneRow] ∨ Caught oneTerm.terms [oneRow] :=
  decoders_agree_iff ntriples oneTerm [oneRow] (oneRow_fits oneRow)

/-- A row whose subject has the code `TERM_CODE_MAX` is written with no subject. -/
theorem decoders_agree_max :
    Fits ntriples oneTerm.terms [Function.update oneRow .s TERM_CODE_MAX] ∧
    decodeResident nquadLines oneTerm [Function.update oneRow .s TERM_CODE_MAX] =
      [.ok ⟨[0x20, 0x3c, 0x61, 0x3e, 0x20, 0x3c, 0x61, 0x3e, 0x20, 0x3c, 0x61, 0x3e, 0x20, 0x2e,
        0x0a], true⟩] ∧
    ¬ InRange oneTerm.terms [Function.update oneRow .s TERM_CODE_MAX] ∧
    ¬ DecodersAgree ntriples oneTerm.terms [Function.update oneRow .s TERM_CODE_MAX] := by
  have hdecode : decodeResident nquadLines oneTerm [Function.update oneRow .s TERM_CODE_MAX] =
      [.ok ⟨[0x20, 0x3c, 0x61, 0x3e, 0x20, 0x3c, 0x61, 0x3e, 0x20, 0x3c, 0x61, 0x3e, 0x20, 0x2e,
        0x0a], true⟩] := rfl
  have hrange : ¬ InRange oneTerm.terms [Function.update oneRow .s TERM_CODE_MAX] := by
    intro hrange
    exact absurd (hrange _ (List.mem_singleton_self _) .s) (by decide)
  refine ⟨oneRow_fits _, hdecode, hrange, fun hagree => ?_⟩
  have hfails := (hagree.fails (.resident oneTerm) rfl).2.2.2.mpr hrange
  change Fails (decodeResident nquadLines oneTerm _) at hfails
  rw [hdecode] at hfails
  exact @not_fails_ok _ [_] _ rfl hfails

end Dictionary
