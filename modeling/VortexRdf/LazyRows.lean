/-
The rows of a payload, read as the quads it was built from.

* `Payload.Rows` — a payload of some quads: their codes over a LazyDict, or packed columns;
* `TermColumn.Holds`, `rowBytes_holds` — the bytes of a row of a packed column;
* `buildLazyQuads_stands` — a lazy quad's terms stand for its quad's;
* `quad_equals_computes` — equality of quads;
* `lazyTerm_readsAsSpelled_iff` — when a lazy term is read as the stored-term parser reads it.
-/
import VortexRdf.LazyEquality

namespace LazyRdf

open Dictionary Programs Store Terms
open scoped Lexicographic

/-! ### Quads and their positions -/

/-- The stored term at a position of a quad. -/
def quadTerm (q : Quad) : Role → Stored
  | .s => some q.subject.toTerm
  | .p => some (.namedNode q.predicate)
  | .o => some q.object
  | .g => q.graphName.toTerm

/-- A quad's row of stored spellings. -/
def sharedQuad (ox : Oxrdf) (q : Quad) : SharedQuad :=
  let row := RawQuad.fromQuad ox q
  SharedQuad.fromTerms row.s row.p row.o row.g

def SharedQuad.term (row : SharedQuad) : Role → Str
  | .s => row.s
  | .p => row.p
  | .o => row.o
  | .g => row.g

/-- The stored-term parser of a position. -/
def readStored (ox : Oxrdf) (s : Str) : Role → Except VortexRdfError Stored
  | .s => (subject ox s .stored).map fun n => some n.toTerm
  | .p => (namedNode ox s .stored).map fun n => some (.namedNode n)
  | .o => (term ox s .stored).map some
  | .g => (graphName ox s .stored).map GraphName.toTerm

def Cols.col (cols : Cols) : Role → Col
  | .s => cols.s
  | .p => cols.p
  | .o => cols.o
  | .g => cols.g

def LazyQuad.term (q : LazyQuad) : Role → LazyTerm
  | .s => q.subject
  | .p => q.predicate
  | .o => q.object
  | .g => q.graph

def TermColumns.column (columns : TermColumns) : Role → TermColumn
  | .s => columns.s
  | .p => columns.p
  | .o => columns.o
  | .g => columns.g

section Quads

variable {ox : Oxrdf} {q q' : Quad}

theorem sharedQuad_term (role : Role) : SharedQuad.term (sharedQuad ox q) role = spelling ox (quadTerm q role) := by
  have hgraph : ∀ g : GraphName, g.toStr = spelling ox g.toTerm := fun g => by cases g <;> rfl
  rw [sharedQuad, fromQuad_eq]
  cases role with
  | s => exact (NamedOrBlankNode.toStr_toTerm _).symm
  | p => rfl
  | o => rfl
  | g => exact hgraph q.graphName

theorem toTerm_inj {n n' : NamedOrBlankNode} (h : n.toTerm = n'.toTerm) : n = n' := by
  cases n <;> cases n' <;> cases h <;> rfl

theorem graphTerm_inj {g g' : GraphName} (h : g.toTerm = g'.toTerm) : g = g' := by
  cases g <;> cases g' <;> cases h <;> rfl

/-- Quads are equal when their positions are. -/
theorem quad_ext_iff : q = q' ↔ quadTerm q .s = quadTerm q' .s ∧ quadTerm q .p = quadTerm q' .p ∧
    quadTerm q .o = quadTerm q' .o ∧ quadTerm q .g = quadTerm q' .g := by
  constructor
  · rintro rfl
    exact ⟨rfl, rfl, rfl, rfl⟩
  · rintro ⟨hs, hp, ho, hg⟩
    obtain ⟨s, p, o, g⟩ := q
    obtain ⟨s', p', o', g'⟩ := q'
    obtain rfl : s = s' := toTerm_inj (Option.some.inj hs)
    obtain rfl : p = p' := Term.namedNode.inj (Option.some.inj hp)
    obtain rfl : o = o' := Option.some.inj ho
    obtain rfl : g = g' := graphTerm_inj hg
    rfl

theorem LazyQuad.term_eq (q : LazyQuad) (role : Role) : q.term role = ⟨q.cols.col role, q.i, none⟩ := by
  cases role <;> rfl

end Quads

/-! ### Packed columns -/

namespace TermColumn

/-- The column packs these terms. -/
structure Holds (column : TermColumn) (terms : List Str) : Prop where
  bytes : column.bytes = terms.flatten
  offsets : column.offsets =
    (List.range (terms.length + 1)).map fun n => (terms.take n).flatten.length % 2 ^ 32

theorem holds_new : TermColumn.new.Holds [] := ⟨rfl, rfl⟩

variable {column : TermColumn} {terms : List Str} {term : Str} {i : ℕ}

theorem holds_push (h : column.Holds terms) : (column.push term).Holds (terms ++ [term]) := by
  have hbytes : column.bytes ++ term = (terms ++ [term]).flatten := by
    rw [h.bytes, List.flatten_append, List.flatten_singleton]
  refine ⟨hbytes, ?_⟩
  have hwhole : (terms ++ [term]).take (terms.length + 1) = terms ++ [term] :=
    List.take_of_length_le (by rw [List.length_append, List.length_singleton])
  rw [push, h.offsets, hbytes, List.length_append, List.length_singleton, List.range_succ (n := terms.length + 1)]
  rw [List.map_append, List.map_singleton, hwhole]
  refine congrArg₂ (· ++ ·) (List.map_congr_left fun n hn => ?_) rfl
  rw [List.take_append_of_le_length (Nat.lt_succ_iff.mp (List.mem_range.mp hn))]

theorem rows_holds (h : column.Holds terms) : column.offsets.length - 1 = terms.length := by
  rw [h.offsets, List.length_map, List.length_range, Nat.add_sub_cancel]

/-- An offset of the column that a `u32` holds. -/
theorem offset_holds (h : column.Holds terms) (hlt : column.bytes.length < 2 ^ 32) (hi : i ≤ terms.length)
    (missing : ℕ) : column.offsets.getD i missing = (terms.take i).flatten.length := by
  have hle : (terms.take i).flatten.length ≤ column.bytes.length := by
    rw [h.bytes]
    exact ((List.take_sublist i terms).flatten).length_le
  have hrange : (List.range (terms.length + 1))[i]? = some i := List.getElem?_range (by omega)
  rw [h.offsets, List.getD_eq_getElem?_getD, List.getElem?_map, hrange, Option.map_some, Option.getD_some,
    Nat.mod_eq_of_lt (by omega)]

/-- A row's bytes are its term. -/
theorem rowBytes_holds (h : column.Holds terms) (hlt : column.bytes.length < 2 ^ 32)
    (hi : terms[i]? = some term) : rowBytes column.offsets column.bytes i = term := by
  obtain ⟨hlen, hget⟩ := List.getElem?_eq_some_iff.mp hi
  -- the terms before it, it, and those behind it
  have hupto : (terms.take (i + 1)).flatten = (terms.take i).flatten ++ term := by
    rw [List.take_succ_eq_append_getElem hlen, hget, List.flatten_append, List.flatten_singleton]
  have hsplit : column.bytes = (terms.take (i + 1)).flatten ++ (terms.drop (i + 1)).flatten := by
    rw [h.bytes, ← List.flatten_append, List.take_append_drop]
  rw [rowBytes, offset_holds h hlt (by omega), offset_holds h hlt (by omega), hsplit, List.take_left, hupto,
    List.drop_left]

end TermColumn

theorem columns_push (columns : TermColumns) (row : SharedQuad) (role : Role) :
    (columns.push row).column role = (columns.column role).push (SharedQuad.term row role) := by
  cases role <;> rfl

/-- Rows pushed one after another are packed in every column. -/
theorem columns_hold (rows : List SharedQuad) (role : Role) {columns : TermColumns} {terms : List Str}
    (h : (columns.column role).Holds terms) :
    ((rows.foldl TermColumns.push columns).column role).Holds
      (terms ++ rows.map fun row => SharedQuad.term row role) := by
  induction rows generalizing columns terms with
  | nil =>
    rw [List.map_nil, List.append_nil]
    exact h
  | cons row rows ih =>
    have hpush : ((columns.push row).column role).Holds (terms ++ [SharedQuad.term row role]) := by
      rw [columns_push]
      exact TermColumn.holds_push h
    rw [List.foldl_cons, List.map_cons, ← List.singleton_append, ← List.append_assoc]
    exact ih hpush

/-! ### Payloads -/

/-- The code a LazyDict's dictionary has for a stored term, which a JS number holds. -/
def Codes (ox : Oxrdf) (dict : TermDictionary) (codes : CodeRow) (q : Quad) : Prop :=
  ∀ role, codes role ≤ MAX_SAFE_INTEGER ∧
    dict.terms[codes role]? = some (spelling ox (quadTerm q role))

/-- What a match over these quads hands over: their codes, or their packed spellings, whose bytes
fit a `u32`. -/
def Payload.Rows (ox : Oxrdf) (dicts : Dicts) (quads : List Quad) : Payload → Prop
  | .codes dict length s p o g => ∃ rows : List CodeRow, List.Forall₂ (Codes ox (dicts dict)) rows quads ∧
      length = rows.length ∧ s = column rows .s ∧ p = column rows .p ∧ o = column rows .o ∧
      g = column rows .g
  | .terms columns => columns = (quads.map (sharedQuad ox)).foldl TermColumns.push TermColumns.new ∧
      ∀ role, (columns.column role).bytes.length < 2 ^ 32

section Payloads

variable {ox : Oxrdf} {dicts : Dicts} {quads : List Quad} {payload : Payload} {i : ℕ} {q : Quad}

theorem packed_holds (role : Role) :
    (((quads.map (sharedQuad ox)).foldl TermColumns.push TermColumns.new).column role).Holds
      (quads.map fun q => spelling ox (quadTerm q role)) := by
  have hnew : (TermColumns.new.column role).Holds [] := by
    cases role <;> exact TermColumn.holds_new
  have hrows := columns_hold (quads.map (sharedQuad ox)) role hnew
  rw [List.map_map, List.nil_append] at hrows
  have hterms : (fun row => SharedQuad.term row role) ∘ sharedQuad ox =
      fun q => spelling ox (quadTerm q role) := funext fun q => sharedQuad_term role
  rwa [hterms] at hrows

theorem length_rows (h : payload.Rows ox dicts quads) : payload.length = quads.length := by
  cases payload with
  | codes dict length s p o g =>
    obtain ⟨rows, hrows, hlength, -⟩ := h
    exact hlength.trans hrows.length_eq
  | terms columns =>
    obtain ⟨rfl, -⟩ := h
    exact (TermColumn.rows_holds (packed_holds .s)).trans (List.length_map _)

/-- Every column of a payload spells its quads' terms. -/
theorem normalize_spells (h : payload.Rows ox dicts quads) (hq : quads[i]? = some q) (role : Role) :
    (payload.normalize.col role).Spells ox dicts (quadTerm q role) i := by
  cases payload with
  | codes dict length s p o g =>
    obtain ⟨rows, hrows, -, rfl, rfl, rfl, rfl⟩ := h
    obtain ⟨hlt, hget⟩ := List.getElem?_eq_some_iff.mp hq
    have hi : i < rows.length := hrows.length_eq ▸ hlt
    have hcodes : Codes ox (dicts dict) rows[i] q := hget ▸ hrows.get hi hlt
    have hcolumn : (column rows role)[i]? = some (rows[i] role) := by
      rw [column, List.getElem?_map, List.getElem?_eq_getElem hi]
      rfl
    have hspells : (Col.coded dict (column rows role)).Spells ox dicts (quadTerm q role) i :=
      ⟨rows[i] role, hcolumn, hcodes role⟩
    cases role <;> exact hspells
  | terms columns =>
    obtain ⟨rfl, hlt⟩ := h
    have hget : (quads.map fun q => spelling ox (quadTerm q role))[i]? =
        some (spelling ox (quadTerm q role)) := by
      rw [List.getElem?_map, hq]
      rfl
    have hspells := TermColumn.rowBytes_holds (packed_holds role) (hlt role) hget
    cases role <;> exact hspells

theorem buildLazyQuads_eq (h : payload.Rows ox dicts quads) (hi : i < quads.length) :
    (buildLazyQuads payload)[i]? = some ⟨payload.normalize, i⟩ := by
  have hrange : (List.range payload.length)[i]? = some i :=
    List.getElem?_range (by rwa [length_rows h])
  rw [buildLazyQuads, List.getElem?_map, hrange]
  rfl

end Payloads

/-! ### Lazy quads -/

/-- A quad whose positions are all valid. -/
def ValidQuad (ox : Oxrdf) (q : Quad) : Prop := ∀ role, Valid ox (quadTerm q role)

/-- A lazy quad over a row that holds a quad. -/
structure LazyQuad.Stands (ox : Oxrdf) (dicts : Dicts) (q : Quad) (x : LazyQuad) : Prop where
  valid : ValidQuad ox q
  spells : ∀ role, (x.cols.col role).Spells ox dicts (quadTerm q role) x.i

/-- A term of a lazy quad, as its getter gives it or read since. -/
structure LazyTerm.Of (dicts : Dicts) (q : LazyQuad) (role : Role) (x : LazyTerm) : Prop where
  col : x.col = (q.term role).col
  i : x.i = (q.term role).i
  read : ∀ p, x.p = some p → ∃ caches caches', Kept dicts caches ∧
    (q.term role).parsed dicts caches = (.ok p, caches')

/-- The getters give a stored term's own parts. -/
structure LazyTerm.Reads (dicts : Dicts) (x : LazyTerm) (t : Stored) : Prop where
  termType : Computes (Kept dicts) (x.termType dicts) (.ok (ownParts t).termType)
  value : Computes (Kept dicts) (x.value dicts) (.ok (ownParts t).value)
  language : Computes (Kept dicts) (x.language dicts) (.ok ((ownParts t).language.getD []))
  datatype : Computes (Kept dicts) (x.datatype dicts) (.ok (ownParts t).datatype)

section LazyQuads

variable {ox : Oxrdf} {dicts : Dicts} {q q' : Quad} {l l' : LazyQuad}

theorem buildLazyQuads_stands {quads : List Quad} {payload : Payload} {i : ℕ}
    (h : payload.Rows ox dicts quads) (hvalid : ∀ q ∈ quads, ValidQuad ox q) (hq : quads[i]? = some q)
    (hl : (buildLazyQuads payload)[i]? = some l) : l.Stands ox dicts q := by
  obtain ⟨hlt, hget⟩ := List.getElem?_eq_some_iff.mp hq
  rw [buildLazyQuads_eq h hlt] at hl
  obtain rfl := Option.some.inj hl
  exact ⟨hvalid q (hget ▸ List.getElem_mem hlt), normalize_spells h hq⟩

theorem LazyQuad.Stands.term (h : l.Stands ox dicts q) {role : Role} {x : LazyTerm}
    (hx : x.Of dicts l role) : x.Stands ox dicts (quadTerm q role) := by
  obtain ⟨col, i, p⟩ := x
  obtain ⟨hcol, hi, hread⟩ := hx
  simp only [LazyQuad.term_eq] at hcol hi hread
  subst hcol hi
  exact ⟨h.valid role, h.spells role, hread⟩

theorem term_of (l : LazyQuad) (role : Role) : (l.term role).Of dicts l role := by
  refine ⟨rfl, rfl, fun p hp => ?_⟩
  rw [LazyQuad.term_eq] at hp
  cases hp

theorem reads_own (hox : QuoteFree ox) {x : LazyTerm} {t : Stored} (h : x.Stands ox dicts t) :
    x.Reads dicts t :=
  ⟨termType_computes hox h, value_computes hox h, language_computes hox h, datatype_computes hox h⟩

/-- Lazy quads are equal when they stand for one quad, whatever their columns. -/
theorem quad_equals_computes (hox : QuoteFree ox) (hdicts : ∀ dict, (dicts dict).terms.SortedLT)
    (h : l.Stands ox dicts q) (h' : l'.Stands ox dicts q') :
    Computes (Kept dicts) (l.equals dicts l') (.ok (decide (q = q'))) := by
  have hterm : ∀ role, Computes (Kept dicts) ((l.term role).equals dicts (l'.term role))
      (.ok (decide (quadTerm q role = quadTerm q' role))) := fun role =>
    equals_computes hox hdicts (h.term (term_of l role)) (h'.term (term_of l' role))
  have hquads := @quad_ext_iff q q'
  refine (hterm .s).andThen (fun heq => (hquads.mp heq).1) fun hs => ?_
  refine (hterm .p).andThen (fun heq => (hquads.mp heq).2.1) fun hp => ?_
  refine (hterm .o).andThen (fun heq => (hquads.mp heq).2.2.1) fun ho => ?_
  -- the graphs decide what is left
  have hg : quadTerm q .g = quadTerm q' .g ↔ q = q' :=
    ⟨fun hg => hquads.mpr ⟨hs, hp, ho, hg⟩, fun heq => (hquads.mp heq).2.2.2⟩
  rw [← decide_eq_decide.mpr hg]
  exact hterm .g

end LazyQuads

/-! ### The stored-term parser -/

section StoredTerms

variable {ox : Oxrdf} {dicts : Dicts} {q : Quad} {role : Role}

theorem subject_accepted {n : NamedOrBlankNode} (h : n.toTerm.Accepted ox) : n.Accepted ox := by
  cases n <;> exact h

theorem graph_accepted {g : GraphName} (h : ∀ t ∈ g.toTerm, t.Accepted ox) : g.Accepted ox := by
  cases g with
  | defaultGraph => trivial
  | namedNode n => exact h _ rfl
  | blankNode b => exact h _ rfl

theorem subject_bare {n : NamedOrBlankNode} (h : n.toTerm.Bare) : n.Bare := by
  cases n <;> exact h

theorem graph_bare {g : GraphName} (h : ∀ t ∈ g.toTerm, t.Bare) : g.Bare := by
  cases g with
  | blankNode b => exact h _ rfl
  | defaultGraph => trivial
  | namedNode n => trivial

/-- The parser of a position reads back a term whose label does not begin with `_:`. -/
theorem readStored_own (hvalid : ValidQuad ox q) (hbare : ∀ t ∈ quadTerm q role, t.Bare) :
    readStored ox (spelling ox (quadTerm q role)) role = .ok (quadTerm q role) := by
  rw [← sharedQuad_term, sharedQuad, fromQuad_eq]
  cases role with
  | s =>
    have haccepted := subject_accepted ((hvalid .s) _ rfl).1
    have hread := (@subject_roundTrip_iff ox .stored q.subject haccepted).mpr (subject_bare (hbare _ rfl))
    exact congrArg (Except.map fun n => some n.toTerm) hread
  | p =>
    have haccepted : q.predicate.Accepted ox := ((hvalid .p) _ rfl).1
    have hread := @namedNode_roundTrip ox .stored q.predicate haccepted
    exact congrArg (Except.map fun n => some (Term.namedNode n)) hread
  | o =>
    have haccepted : q.object.Accepted ox := ((hvalid .o) _ rfl).1
    have hread := (@term_roundTrip_iff ox .stored q.object haccepted).mpr (hbare _ rfl)
    exact congrArg (Except.map some) hread
  | g =>
    have haccepted : q.graphName.Accepted ox := graph_accepted fun t ht => ((hvalid .g) t ht).1
    have hread := (@graphName_roundTrip_iff ox .stored q.graphName haccepted).mpr (graph_bare hbare)
    exact congrArg (Except.map GraphName.toTerm) hread

/-- Of a blank node it trims every `_:` before the label. -/
theorem readStored_blank {b : BlankNode} (h : quadTerm q role = some (.blankNode b)) :
    readStored ox (blankNodeString b) role =
      .ok (some (.blankNode ⟨trimStartMatches BLANK_PREFIX (blankNodeString b)⟩)) := by
  have hne : (blankNodeString b == []) = false := rfl
  cases role with
  | s => rfl
  | p => cases h
  | o => rfl
  | g =>
    rw [readStored, graphName]
    simp only [hne, Bool.false_eq_true, if_false, blankPrefix_isPrefixOf_blank, if_true]
    rfl

theorem isText_trimStartLoop (fuel : ℕ) {s : Str} (h : IsText s) :
    IsText (trimStartLoop BLANK_PREFIX fuel s) := by
  induction fuel generalizing s with
  | zero => exact h
  | succ fuel ih =>
    rw [trimStartLoop]
    split_ifs with hprefix
    · refine ih ?_
      obtain ⟨text, rfl⟩ := h
      have htake := List.prefix_iff_eq_take.mp (List.isPrefixOf_iff_prefix.mp hprefix)
      refine utf8_drop (List.isPrefixOf_iff_prefix.mp hprefix).length_le fun b hb => ?_
      rw [← htake] at hb
      simp only [BLANK_PREFIX, List.mem_cons, List.not_mem_nil, or_false] at hb
      rcases hb with rfl | rfl <;> decide
    · exact h

/-- A lazy term reads as one value. -/
theorem reads_value (hox : QuoteFree ox) {x : LazyTerm} {t t' : Stored} (h : x.Stands ox dicts t)
    (hreads : x.Reads dicts t') : (ownParts t').value = (ownParts t).value := by
  obtain ⟨caches, hrun, -⟩ := hreads.value _ kept_empty
  exact Except.ok.inj ((value_computes hox h).result kept_empty hrun)

/-- It reads what the stored-term parser reads exactly when that trims one `_:` alone. -/
theorem reads_stored_iff (hox : QuoteFree ox) (hvalid : ValidQuad ox q) {x : LazyTerm}
    (h : x.Stands ox dicts (quadTerm q role)) :
    (∃ t, readStored ox (spelling ox (quadTerm q role)) role = .ok t ∧ x.Reads dicts t) ↔
      ∀ t ∈ quadTerm q role, t.Bare := by
  constructor
  · rintro ⟨t, hread, hreads⟩ t' ht'
    cases t' with
    | namedNode n => trivial
    | literal l => trivial
    | blankNode b =>
      have hterm : quadTerm q role = some (.blankNode b) := ht'
      have htext : IsText b.id := ((hvalid role) _ ht').2
      have hvalue := reads_value hox h hreads
      rw [hterm, show spelling ox (some (.blankNode b)) = blankNodeString b from rfl,
        readStored_blank hterm] at hread
      obtain rfl := Except.ok.inj hread
      rw [hterm] at hvalue
      -- both are texts, so one label
      have hspelled : IsText (blankNodeString b) := by
        obtain ⟨id⟩ := b
        obtain ⟨text, rfl⟩ := htext
        exact ⟨['_', ':'] ++ text, (utf8_append ['_', ':'] text).symm⟩
      have hid := jsString_inj (isText_trimStartLoop _ hspelled) htext hvalue
      exact (trimStartMatches_prefixed_iff (by decide) b.id).mp hid
  · intro hbare
    exact ⟨quadTerm q role, readStored_own hvalid hbare, reads_own hox h⟩

end StoredTerms

/-! ### What is read of the rows of two payloads -/

/-- A term of a lazy quad is read as its own parts, as the stored-term parser reads its spelling,
and terms and quads are equal when they are one. -/
structure ReadsAsSpelled (ox : Oxrdf) (dicts : Dicts) (l l' : LazyQuad) (q q' : Quad) (role role' : Role)
    (x y : LazyTerm) : Prop where
  own : x.Reads dicts (quadTerm q role)
  stored : ∃ t, readStored ox (spelling ox (quadTerm q role)) role = .ok t ∧ x.Reads dicts t
  equalTerms : Computes (Kept dicts) (x.equals dicts y) (.ok (decide (quadTerm q role = quadTerm q' role')))
  equalQuads : Computes (Kept dicts) (l.equals dicts l') (.ok (decide (q = q')))

/-- **A lazy term is the term it spells.** Over any rows of any two payloads, whatever their columns
and whatever was read before, a term is read as its own parts and as the stored-term parser reads its
spelling, and `equals` is equality of terms and of quads, exactly when the term is no blank node whose
label itself begins with `_:`. -/
theorem lazyTerm_readsAsSpelled_iff (ox : Oxrdf) (hox : QuoteFree ox) (dicts : Dicts)
    (hdicts : ∀ dict, (dicts dict).terms.SortedLT) {payload payload' : Payload} {quads quads' : List Quad}
    (hpayload : payload.Rows ox dicts quads) (hpayload' : payload'.Rows ox dicts quads')
    (hvalid : ∀ q ∈ quads, ValidQuad ox q) (hvalid' : ∀ q ∈ quads', ValidQuad ox q) {i j : ℕ} {q q' : Quad}
    (hq : quads[i]? = some q) (hq' : quads'[j]? = some q') {l l' : LazyQuad}
    (hl : (buildLazyQuads payload)[i]? = some l) (hl' : (buildLazyQuads payload')[j]? = some l')
    {role role' : Role} {x y : LazyTerm} (hx : x.Of dicts l role) (hy : y.Of dicts l' role') :
    ReadsAsSpelled ox dicts l l' q q' role role' x y ↔ ∀ t ∈ quadTerm q role, t.Bare := by
  have hstands := buildLazyQuads_stands hpayload hvalid hq hl
  have hstands' := buildLazyQuads_stands hpayload' hvalid' hq' hl'
  have hterm := hstands.term hx
  rw [← reads_stored_iff hox hstands.valid hterm]
  constructor
  · exact fun h => h.stored
  · intro hstored
    exact ⟨reads_own hox hterm, hstored, equals_computes hox hdicts hterm (hstands'.term hy),
      quad_equals_computes hox hdicts hstands hstands'⟩

theorem checkedIri_noAngle (iri : Str)
    (h : (if QUOTE ∈ iri then some "Invalid IRI" else ntriples.iriError iri) = none) :
    ∀ b ∈ iri, isAngle b = false := by
  split_ifs at h
  exact ntriples.iri_noAngle iri h

/-- Plain N-Triples whose IRIs and tags hold no quote, and whose tags are not empty. -/
def ntriplesChecked : Oxrdf :=
  { ntriples with
    iriError := fun iri => if QUOTE ∈ iri then some "Invalid IRI" else ntriples.iriError iri
    languageTag := fun tag =>
      if QUOTE ∈ tag.map toAsciiLowercase ∨ tag.map toAsciiLowercase = [] then .error "Invalid tag"
      else .ok (tag.map toAsciiLowercase)
    iri_noAngle := checkedIri_noAngle }

theorem ntriplesChecked_quoteFree : QuoteFree ntriplesChecked where
  iri := by
    intro iri h
    change (if QUOTE ∈ iri then some "Invalid IRI" else ntriples.iriError iri) = none at h
    split_ifs at h with hquote
    exact hquote
  language := by
    intro tag tag' h
    change (if QUOTE ∈ tag.map toAsciiLowercase ∨ tag.map toAsciiLowercase = [] then
      Except.error "Invalid tag" else Except.ok (tag.map toAsciiLowercase)) = Except.ok tag' at h
    split_ifs at h with hbad
    obtain rfl := Except.ok.inj h
    exact not_or.mp hbad

theorem aboutBlank_valid {id : List Char} (h : ntriples.blankNodeError (utf8 id) = none) :
    ValidQuad ntriplesChecked (aboutBlank (utf8 id)) := by
  intro role t ht
  cases role with
  | s =>
    obtain rfl := Option.some.inj ht
    exact ⟨h, id, rfl⟩
  | p =>
    obtain rfl := Option.some.inj ht
    exact ⟨show ntriplesChecked.iriError (utf8 ['u', 'r', 'n', ':', 'p']) = none by decide, _, rfl⟩
  | o =>
    obtain rfl := Option.some.inj ht
    exact ⟨⟨['\x22'], rfl⟩, ['\x22'], rfl⟩
  | g => cases ht

/-- The packed payload of one quad about a blank node. -/
def aboutPacked (id : Str) : Payload :=
  .terms (([aboutBlank id].map (sharedQuad ntriplesChecked)).foldl TermColumns.push TermColumns.new)

/-- The terms of the quad about the blank node `b`. -/
def aboutDict : TermDictionary :=
  ⟨[[[], [0x22, 0x5c, 0x22, 0x22], utf8 "<urn:p>".toList, utf8 "_:b".toList]], by decide⟩

def aboutCodes : CodeRow
  | .s => 3
  | .p => 2
  | .o => 1
  | .g => 0

def aboutCoded : Payload :=
  .codes 0 1 (column [aboutCodes] .s) (column [aboutCodes] .p) (column [aboutCodes] .o)
    (column [aboutCodes] .g)

/-- The node `b`, packed, against its literal, coded. -/
theorem lazyTerm_readsAsSpelled_iff_letter :
    ReadsAsSpelled ntriplesChecked (fun _ => aboutDict) ⟨(aboutPacked (utf8 ['b'])).normalize, 0⟩
      ⟨aboutCoded.normalize, 0⟩ (aboutBlank (utf8 ['b'])) (aboutBlank (utf8 ['b'])) .s .o
      (LazyQuad.term ⟨(aboutPacked (utf8 ['b'])).normalize, 0⟩ .s)
      (LazyQuad.term ⟨aboutCoded.normalize, 0⟩ .o) ↔
      ∀ t ∈ quadTerm (aboutBlank (utf8 ['b'])) .s, t.Bare := by
  have hvalid : ∀ q ∈ [aboutBlank (utf8 ['b'])], ValidQuad ntriplesChecked q := by
    intro q hq
    rw [List.mem_singleton.mp hq]
    exact aboutBlank_valid (by decide)
  have hpacked : (aboutPacked (utf8 ['b'])).Rows ntriplesChecked (fun _ => aboutDict)
      [aboutBlank (utf8 ['b'])] := ⟨rfl, fun role => by cases role <;> decide⟩
  have hcodes : Codes ntriplesChecked aboutDict aboutCodes (aboutBlank (utf8 ['b'])) := by
    intro role
    cases role <;> exact ⟨by decide, by decide⟩
  have hcoded : aboutCoded.Rows ntriplesChecked (fun _ => aboutDict) [aboutBlank (utf8 ['b'])] :=
    ⟨[aboutCodes], .cons hcodes .nil, rfl, rfl, rfl, rfl, rfl⟩
  exact lazyTerm_readsAsSpelled_iff ntriplesChecked ntriplesChecked_quoteFree (fun _ => aboutDict)
    (fun _ => List.Pairwise.sortedLT (by decide)) hpacked hcoded hvalid hvalid (i := 0) (j := 0) rfl rfl rfl rfl
    (term_of _ .s) (term_of _ .o)

/-- The node labelled `_:b`, packed: the stored-term parser reads its spelling as the node `b`. -/
theorem lazyTerm_prefixed :
    ValidQuad ntriplesChecked (aboutBlank (utf8 ['_', ':', 'b'])) ∧
      (aboutPacked (utf8 ['_', ':', 'b'])).Rows ntriplesChecked (fun _ => aboutDict)
        [aboutBlank (utf8 ['_', ':', 'b'])] ∧
      readStored ntriplesChecked (spelling ntriplesChecked (quadTerm (aboutBlank (utf8 ['_', ':', 'b'])) .s)) .s =
        .ok (some (.blankNode ⟨utf8 ['b']⟩)) ∧
      ¬ReadsAsSpelled ntriplesChecked (fun _ => aboutDict)
        ⟨(aboutPacked (utf8 ['_', ':', 'b'])).normalize, 0⟩ ⟨(aboutPacked (utf8 ['_', ':', 'b'])).normalize, 0⟩
        (aboutBlank (utf8 ['_', ':', 'b'])) (aboutBlank (utf8 ['_', ':', 'b'])) .s .s
        (LazyQuad.term ⟨(aboutPacked (utf8 ['_', ':', 'b'])).normalize, 0⟩ .s)
        (LazyQuad.term ⟨(aboutPacked (utf8 ['_', ':', 'b'])).normalize, 0⟩ .s) := by
  have hvalid : ValidQuad ntriplesChecked (aboutBlank (utf8 ['_', ':', 'b'])) :=
    aboutBlank_valid (by decide)
  have hpacked : (aboutPacked (utf8 ['_', ':', 'b'])).Rows ntriplesChecked (fun _ => aboutDict)
      [aboutBlank (utf8 ['_', ':', 'b'])] := ⟨rfl, fun role => by cases role <;> decide⟩
  have hread : readStored ntriplesChecked
      (spelling ntriplesChecked (quadTerm (aboutBlank (utf8 ['_', ':', 'b'])) .s)) .s =
      .ok (some (.blankNode ⟨utf8 ['b']⟩)) := by decide
  have hstands : (LazyQuad.mk (aboutPacked (utf8 ['_', ':', 'b'])).normalize 0).Stands ntriplesChecked
      (fun _ => aboutDict) (aboutBlank (utf8 ['_', ':', 'b'])) :=
    ⟨hvalid, normalize_spells hpacked rfl⟩
  refine ⟨hvalid, hpacked, hread, fun h => ?_⟩
  have hbare := (reads_stored_iff ntriplesChecked_quoteFree hvalid (hstands.term (term_of _ .s))).mp h.stored
  exact hbare _ rfl (by decide)

end LazyRdf
