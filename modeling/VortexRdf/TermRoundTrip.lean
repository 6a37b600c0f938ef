/-
Stored spellings and the quads they spell.

Rendering a quad and parsing its four spellings gives the quad back, but for a
blank node whose identifier itself begins with the prefix `_:`: the parser strips
every copy of it.

* `namedNode_roundTrip`, `literal_roundTrip` — nodes and literals read back;
* `blankNode_roundTrip_iff` — a blank node reads back exactly when its
  identifier does not begin with the prefix;
* `fromQuad_injective` — two quads never share their spellings;
* `quad_roundTrip_iff` — the quads that read back;
* `quad_roundTrip_prefixed` — one that does not.
-/
import VortexRdf.LiteralText

namespace Terms

variable {ox : Oxrdf}

/-! ### Nodes -/

theorem trimMatches_enclosed {p : UInt8 → Bool} {s : Str} (h : ∀ b ∈ s, p b = false) {a b : UInt8}
    (ha : p a = true) (hb : p b = true) : trimMatches p (a :: s ++ [b]) = s := by
  have hself : ∀ {l : Str}, (∀ b ∈ l, p b = false) → l.dropWhile p = l := by
    intro l hl
    cases l with
    | nil => rfl
    | cons b l => exact List.dropWhile_cons_of_neg (by simp [hl b List.mem_cons_self])
  rw [trimMatches, List.cons_append, List.dropWhile_cons_of_pos ha]
  rcases s with _ | ⟨c, s⟩
  · simp [hb]
  · rw [List.cons_append, List.dropWhile_cons_of_neg (by simp [h c List.mem_cons_self]),
      ← List.cons_append, List.reverse_append, List.reverse_singleton, List.singleton_append,
      List.dropWhile_cons_of_pos hb, hself fun b hb => h b (List.mem_reverse.mp hb),
      List.reverse_reverse]

variable {trust : Trust}

theorem namedNode_roundTrip {n : NamedNode} (h : n.Accepted ox) :
    namedNode ox (namedNodeString n) trust = .ok n := by
  have htrim : trimMatches isAngle (namedNodeString n) = n.iri :=
    trimMatches_enclosed (ox.iri_noAngle n.iri h) rfl rfl
  have haccepted : ox.iriError n.iri = none := h
  cases trust with
  | stored => rw [namedNode, htrim]
  | input => simp only [namedNode, htrim, haccepted]

theorem trimStartLoop_length_le (pat : Str) : ∀ (fuel : ℕ) (s : Str),
    (trimStartLoop pat fuel s).length ≤ s.length
  | 0, _ => le_rfl
  | fuel + 1, s => by
    rw [trimStartLoop]
    split_ifs
    · have := trimStartLoop_length_le pat fuel (s.drop pat.length)
      rw [List.length_drop] at this
      omega
    · exact le_rfl

/-- Of a prefixed text, one copy is stripped alone exactly when the rest does not
begin with another. -/
theorem trimStartMatches_prefixed_iff {pat : Str} (hpat : pat ≠ []) (s : Str) :
    trimStartMatches pat (pat ++ s) = s ↔ ¬ pat <+: s := by
  obtain ⟨n, hn⟩ : ∃ n, (pat ++ s).length = s.length + n + 1 := by
    have := List.length_pos_of_ne_nil hpat
    exact ⟨pat.length - 1, by rw [List.length_append]; omega⟩
  have hfirst : trimStartMatches pat (pat ++ s) = trimStartLoop pat (s.length + n) s := by
    rw [trimStartMatches, hn, trimStartLoop, if_pos (by simp), List.drop_left]
  rw [hfirst]
  constructor
  · rintro htrim ⟨rest, rfl⟩
    have hpos := List.length_pos_of_ne_nil hpat
    have hlen : (pat ++ rest).length + n = (pat ++ rest).length + n - 1 + 1 := by
      rw [List.length_append]
      omega
    have hle := trimStartLoop_length_le pat ((pat ++ rest).length + n - 1) rest
    rw [hlen, trimStartLoop, if_pos (by simp), List.drop_left] at htrim
    rw [htrim, List.length_append] at hle
    omega
  · intro hnot
    cases s.length + n with
    | zero => rfl
    | succ fuel => rw [trimStartLoop, if_neg (by simpa using hnot)]

/-- A blank node's identifier does not itself begin with the prefix. -/
def BlankNode.Bare (b : BlankNode) : Prop := ¬ BLANK_PREFIX <+: b.id

theorem blankNode_roundTrip_iff {b : BlankNode} (h : b.Accepted ox) :
    blankNode ox (blankNodeString b) trust = .ok b ↔ b.Bare := by
  have htrim : trimStartMatches BLANK_PREFIX (blankNodeString b) = b.id ↔ b.Bare :=
    trimStartMatches_prefixed_iff (by decide) b.id
  have hstored : blankNode ox (blankNodeString b) .stored = .ok b ↔ b.Bare := by
    rw [← htrim]
    cases b
    simp [blankNode]
  cases trust with
  | stored => exact hstored
  | input =>
    rw [← htrim]
    constructor
    · intro hparse
      rw [blankNode] at hparse
      split at hparse
      · exact congrArg BlankNode.id (Except.ok.inj hparse)
      · cases hparse
    · intro hid
      have haccepted : ox.blankNodeError b.id = none := h
      simp only [blankNode, hid, haccepted]

/-! ### Literals -/

/-- The quoted value of a text: an escaped body that reads as the value, strictly or not. -/
theorem quoted_reads {value : Str} (h : ∃ text, value = utf8 text) :
    ∃ e, ox.quoted value = QUOTE :: e ++ [QUOTE] ∧ EscapedBody e ∧
      ∀ escapes, unescape e escapes = some value := by
  obtain ⟨text, rfl⟩ := h
  exact ⟨text.flatMap ox.escape, ox.quoted_utf8 text, escapedBody_of_text ox.escape_form text,
    fun escapes => unescape_of_text ox.escape_form escapes text⟩

theorem quoted_eq {value : Str} (h : ∃ text, value = utf8 text) :
    ∃ e, ox.quoted value = QUOTE :: e ++ [QUOTE] ∧ EscapedBody e ∧
      unescapeLiteralValue e = value := by
  obtain ⟨e, hquoted, hbody, hvalue⟩ := @quoted_reads ox value h
  refine ⟨e, hquoted, hbody, ?_⟩
  rw [unescapeLiteralValue, hvalue]
  rfl

theorem literal_roundTrip {l : Literal} (h : l.Accepted ox) :
    literal ox (l.toStr ox) trust = .ok l := by
  cases l with
  | simple value =>
    obtain ⟨e, hquoted, hbody, hvalue⟩ := @quoted_eq ox value h
    rw [literal.eq_def, Literal.toStr, hquoted, splitLiteral_simple hbody]
    simp only [hvalue]
  | languageTagged value language =>
    obtain ⟨e, hquoted, hbody, hvalue⟩ := @quoted_eq ox value h.1
    rw [literal.eq_def, Literal.toStr, hquoted, List.append_assoc, List.singleton_append,
      splitLiteral_language hbody]
    cases trust with
    | stored => simp only [hvalue]
    | input => simp only [hvalue, h.2]
  | typed value datatype =>
    obtain ⟨htext, haccepted, hne⟩ := h
    obtain ⟨e, hquoted, hbody, hvalue⟩ := @quoted_eq ox value htext
    have htext : ox.quoted value ++ [0x5e, 0x5e] ++ namedNodeString datatype =
        QUOTE :: e ++ QUOTE :: 0x5e :: 0x5e :: namedNodeString datatype := by
      rw [hquoted, List.append_assoc, List.append_assoc]
      rfl
    rw [literal.eq_def, Literal.toStr, htext, splitLiteral_typed hbody]
    simp only [hvalue, namedNode_roundTrip haccepted, Except.map, Literal.newTyped, if_neg hne]

/-- A rendered literal begins with a quote. -/
theorem head_toStr {l : Literal} (h : l.Accepted ox) : (l.toStr ox).head? = some QUOTE := by
  have hhead : ∀ {value : Str}, (∃ text, value = utf8 text) →
      ∀ rest, (ox.quoted value ++ rest).head? = some QUOTE := by
    intro value htext rest
    obtain ⟨e, hquoted, -, -⟩ := @quoted_eq ox value htext
    rw [hquoted]
    rfl
  cases l with
  | simple value => simpa [Literal.toStr] using hhead h []
  | languageTagged value language => exact hhead h.1 _
  | typed value datatype =>
    rw [Literal.toStr, List.append_assoc]
    exact hhead h.1 _

/-! ### Positions of a quad -/

def NamedOrBlankNode.toStr : NamedOrBlankNode → Str
  | namedNode n => namedNodeString n
  | blankNode b => blankNodeString b

def GraphName.toStr : GraphName → Str
  | defaultGraph => []
  | namedNode n => namedNodeString n
  | blankNode b => blankNodeString b

theorem fromQuad_eq (q : Quad) : RawQuad.fromQuad ox q =
    ⟨q.subject.toStr, namedNodeString q.predicate, q.object.toStr ox, q.graphName.toStr⟩ := by
  obtain ⟨s, p, o, g⟩ := q
  cases s <;> cases o <;> cases g <;> rfl

/-- The dictionary's rendering of a term is the one a quad's object gets. -/
theorem pushSpelling_eq (out : Str) (t : Term) : pushSpelling ox out t = out ++ t.toStr ox := by
  cases t <;> simp [pushSpelling, Term.toStr, namedNodeString, blankNodeString]

/-- No blank node of the position begins with the prefix. -/
def NamedOrBlankNode.Bare : NamedOrBlankNode → Prop
  | namedNode _ => True
  | blankNode b => b.Bare

def Term.Bare : Term → Prop
  | blankNode b => b.Bare
  | _ => True

def GraphName.Bare : GraphName → Prop
  | blankNode b => b.Bare
  | _ => True

/-- No blank node of the quad has an identifier that itself begins with the
prefix. -/
structure Quad.Bare (q : Quad) : Prop where
  subject : q.subject.Bare
  object : q.object.Bare
  graphName : q.graphName.Bare

theorem map_ok_iff {α β : Type} {f : α → β} (hf : ∀ a b, f a = f b → a = b)
    {e : Except VortexRdfError α} {a : α} : e.map f = .ok (f a) ↔ e = .ok a := by
  cases e with
  | error error => simp [Except.map]
  | ok b => simpa [Except.map] using ⟨hf b a, congrArg f⟩

theorem blankPrefix_isPrefixOf_named (n : NamedNode) :
    BLANK_PREFIX.isPrefixOf (namedNodeString n) = false := rfl

theorem blankPrefix_isPrefixOf_blank (b : BlankNode) :
    BLANK_PREFIX.isPrefixOf (blankNodeString b) = true := rfl

theorem subject_roundTrip_iff {n : NamedOrBlankNode} (h : n.Accepted ox) :
    subject ox n.toStr trust = .ok n ↔ n.Bare := by
  cases n with
  | namedNode n =>
    rw [subject, NamedOrBlankNode.toStr, if_neg (by simp [blankPrefix_isPrefixOf_named]),
      namedNode_roundTrip h]
    exact ⟨fun _ => trivial, fun _ => rfl⟩
  | blankNode b =>
    rw [subject, NamedOrBlankNode.toStr, if_pos (blankPrefix_isPrefixOf_blank b),
      map_ok_iff fun _ _ => NamedOrBlankNode.blankNode.inj, blankNode_roundTrip_iff h]
    rfl

theorem term_roundTrip_iff {t : Term} (h : t.Accepted ox) :
    term ox (t.toStr ox) trust = .ok t ↔ t.Bare := by
  cases t with
  | namedNode n =>
    rw [term, Term.toStr, if_neg (by simp [blankPrefix_isPrefixOf_named]),
      if_neg (show ¬ (namedNodeString n).head? = some QUOTE by simp [namedNodeString, QUOTE]),
      if_pos (Or.inr (show (namedNodeString n).head? = some 0x3c from rfl)),
      namedNode_roundTrip h]
    exact ⟨fun _ => trivial, fun _ => rfl⟩
  | blankNode b =>
    rw [term, Term.toStr, if_pos (blankPrefix_isPrefixOf_blank b),
      map_ok_iff fun _ _ => Term.blankNode.inj, blankNode_roundTrip_iff h]
    rfl
  | literal l =>
    have hhead := head_toStr h
    have hnotBlank : BLANK_PREFIX.isPrefixOf (l.toStr ox) = false := by
      obtain ⟨rest, hrest⟩ := List.head?_eq_some_iff.mp hhead
      rw [hrest]
      rfl
    rw [term, Term.toStr, if_neg (by simp [hnotBlank]), if_pos hhead, literal_roundTrip h]
    exact ⟨fun _ => trivial, fun _ => rfl⟩

/-- A node's stored spelling is none of the default graph's. -/
theorem notDefault_named (n : NamedNode) : isDefaultGraphSpelling (namedNodeString n) = false := rfl

theorem notDefault_blank (b : BlankNode) : isDefaultGraphSpelling (blankNodeString b) = false := rfl

theorem graphName_roundTrip_iff {g : GraphName} (h : g.Accepted ox) :
    graphName ox g.toStr trust = .ok g ↔ g.Bare := by
  cases g with
  | defaultGraph => cases trust <;> exact ⟨fun _ => trivial, fun _ => rfl⟩
  | namedNode n =>
    have hne : (namedNodeString n == []) = false := rfl
    have hnode : graphName ox (namedNodeString n) trust =
        (namedNode ox (namedNodeString n) trust).map .namedNode := by
      cases trust <;> simp only [graphName, hne, notDefault_named, Bool.false_eq_true, if_false,
        blankPrefix_isPrefixOf_named]
    rw [GraphName.toStr, hnode, namedNode_roundTrip h]
    exact ⟨fun _ => trivial, fun _ => rfl⟩
  | blankNode b =>
    have hne : (blankNodeString b == []) = false := rfl
    have hnode : graphName ox (blankNodeString b) trust =
        (blankNode ox (blankNodeString b) trust).map .blankNode := by
      cases trust <;> simp only [graphName, hne, notDefault_blank, Bool.false_eq_true, if_false,
        blankPrefix_isPrefixOf_blank, if_true]
    rw [GraphName.toStr, hnode, map_ok_iff fun _ _ => GraphName.blankNode.inj,
      blankNode_roundTrip_iff h]
    rfl

/-! ### Injectivity -/

theorem namedNodeString_inj {n n' : NamedNode} (h : namedNodeString n = namedNodeString n') :
    n = n' := by
  have hiri := List.append_cancel_right (List.cons.inj h).2
  cases n
  cases n'
  exact congrArg NamedNode.mk hiri

theorem blankNodeString_inj {b b' : BlankNode} (h : blankNodeString b = blankNodeString b') :
    b = b' := by
  have hid := List.append_cancel_left h
  cases b
  cases b'
  exact congrArg BlankNode.mk hid

theorem namedNodeString_ne_blank (n : NamedNode) (b : BlankNode) :
    namedNodeString n ≠ blankNodeString b := by
  intro h
  exact absurd (List.cons.inj h).1 (by decide)

theorem NamedOrBlankNode.toStr_inj {n n' : NamedOrBlankNode} (h : n.toStr = n'.toStr) :
    n = n' := by
  cases n with
  | namedNode n =>
    cases n' with
    | namedNode n' => rw [namedNodeString_inj h]
    | blankNode b' => exact absurd h (namedNodeString_ne_blank n b')
  | blankNode b =>
    cases n' with
    | namedNode n' => exact absurd h.symm (namedNodeString_ne_blank n' b)
    | blankNode b' => rw [blankNodeString_inj h]

theorem GraphName.toStr_inj {g g' : GraphName} (h : g.toStr = g'.toStr) : g = g' := by
  cases g with
  | defaultGraph =>
    cases g' with
    | defaultGraph => rfl
    | namedNode n' => exact absurd h (List.cons_ne_nil _ _).symm
    | blankNode b' => exact absurd h (List.cons_ne_nil _ _).symm
  | namedNode n =>
    cases g' with
    | defaultGraph => exact absurd h (List.cons_ne_nil _ _)
    | namedNode n' => rw [namedNodeString_inj h]
    | blankNode b' => exact absurd h (namedNodeString_ne_blank n b')
  | blankNode b =>
    cases g' with
    | defaultGraph => exact absurd h (List.cons_ne_nil _ _)
    | namedNode n' => exact absurd h.symm (namedNodeString_ne_blank n' b)
    | blankNode b' => rw [blankNodeString_inj h]

theorem literal_ne_node {l : Literal} (h : l.Accepted ox) :
    (∀ n, l.toStr ox ≠ namedNodeString n) ∧ ∀ b, l.toStr ox ≠ blankNodeString b := by
  have hhead := head_toStr h
  constructor
  · intro n hn
    rw [hn] at hhead
    exact absurd (Option.some_inj.mp hhead) (by decide)
  · intro b hb
    rw [hb] at hhead
    exact absurd (Option.some_inj.mp hhead) (by decide)

theorem Term.toStr_inj {t t' : Term} (ht : t.Accepted ox) (ht' : t'.Accepted ox)
    (h : t.toStr ox = t'.toStr ox) : t = t' := by
  cases t with
  | namedNode n =>
    cases t' with
    | namedNode n' => rw [namedNodeString_inj h]
    | blankNode b' => exact absurd h (namedNodeString_ne_blank n b')
    | literal l' => exact absurd h.symm ((literal_ne_node ht').1 n)
  | blankNode b =>
    cases t' with
    | namedNode n' => exact absurd h.symm (namedNodeString_ne_blank n' b)
    | blankNode b' => rw [blankNodeString_inj h]
    | literal l' => exact absurd h.symm ((literal_ne_node ht').2 b)
  | literal l =>
    cases t' with
    | namedNode n' => exact absurd h ((literal_ne_node ht).1 n')
    | blankNode b' => exact absurd h ((literal_ne_node ht).2 b')
    | literal l' =>
      -- a literal is what its own spelling parses to
      have hparse := @literal_roundTrip ox .stored l ht
      rw [show l.toStr ox = l'.toStr ox from h, literal_roundTrip ht'] at hparse
      rw [Except.ok.inj hparse]

/-- Two terms never share a spelling in the dictionary. -/
theorem pushSpelling_inj {out : Str} {t t' : Term} (ht : t.Accepted ox) (ht' : t'.Accepted ox)
    (h : pushSpelling ox out t = pushSpelling ox out t') : t = t' := by
  rw [pushSpelling_eq, pushSpelling_eq] at h
  exact Term.toStr_inj ht ht' (List.append_cancel_left h)

/-- **Two quads never share a stored spelling**, whatever their blank nodes are named. -/
theorem fromQuad_injective {q q' : Quad} (hq : q.Accepted ox) (hq' : q'.Accepted ox)
    (h : RawQuad.fromQuad ox q = RawQuad.fromQuad ox q') : q = q' := by
  rw [fromQuad_eq, fromQuad_eq, RawQuad.mk.injEq] at h
  obtain ⟨hs, hp, ho, hg⟩ := h
  cases q
  cases q'
  rw [Quad.mk.injEq]
  exact ⟨NamedOrBlankNode.toStr_inj hs, namedNodeString_inj hp,
    Term.toStr_inj hq.object hq'.object ho, GraphName.toStr_inj hg⟩

/-! ### Quads -/

def RawQuad.toQuad (ox : Oxrdf) (r : RawQuad) : Except VortexRdfError Quad :=
  quadFromTerms ox r.s r.p r.o r.g

theorem quadFromTerms_ok_iff {s p o g : Str} {q : Quad} : quadFromTerms ox s p o g = .ok q ↔
    subject ox s .stored = .ok q.subject ∧ namedNode ox p .stored = .ok q.predicate ∧
      term ox o .stored = .ok q.object ∧ graphName ox g .stored = .ok q.graphName := by
  rw [quadFromTerms]
  cases subject ox s .stored with
  | error error => simp [Bind.bind, Except.bind]
  | ok s =>
    cases namedNode ox p .stored with
    | error error => simp [Bind.bind, Except.bind]
    | ok p =>
      cases term ox o .stored with
      | error error => simp [Bind.bind, Except.bind]
      | ok o =>
        cases graphName ox g .stored with
        | error error => simp [Bind.bind, Except.bind]
        | ok g =>
          cases q
          simp [Bind.bind, Except.bind, Pure.pure, Except.pure, Quad.mk.injEq]

theorem toQuad_fromQuad_iff {q : Quad} (h : q.Accepted ox) :
    (RawQuad.fromQuad ox q).toQuad ox = .ok q ↔ q.Bare := by
  rw [fromQuad_eq, RawQuad.toQuad, quadFromTerms_ok_iff, subject_roundTrip_iff h.subject,
    namedNode_roundTrip h.predicate, term_roundTrip_iff h.object,
    graphName_roundTrip_iff h.graphName]
  constructor
  · rintro ⟨hs, -, ho, hg⟩
    exact ⟨hs, ho, hg⟩
  · rintro ⟨hs, ho, hg⟩
    exact ⟨hs, rfl, ho, hg⟩

/-! ### The library on plain N-Triples -/

/-- A byte as the library writes it between quotes. -/
def escapeByte (b : UInt8) : Str :=
  if b = 0x08 then [BACKSLASH, 0x62]
  else if b = 0x09 then [BACKSLASH, 0x74]
  else if b = 0x0a then [BACKSLASH, 0x6e]
  else if b = 0x0c then [BACKSLASH, 0x66]
  else if b = 0x0d then [BACKSLASH, 0x72]
  else if b = QUOTE then [BACKSLASH, QUOTE]
  else if b = BACKSLASH then [BACKSLASH, BACKSLASH]
  else if b < 0x20 ∨ b = 0x7f then
    [BACKSLASH, 0x75, 0x30, 0x30, 0x30 + b / 16,
      if b % 16 < 10 then 0x30 + b % 16 else 0x37 + b % 16]
  else [b]

theorem escapeByte_ascii : ∀ n : Fin 128,
    (n.val ≠ 0x22 ∧ n.val ≠ 0x5c ∧ escapeByte (UInt8.ofNat n) = [UInt8.ofNat n]) ∨
    (∃ p ∈ ECHARS, p.2.toNat = n.val ∧ escapeByte (UInt8.ofNat n) = utf8 ['\x5c', p.1]) ∨
    (((escapeByte (UInt8.ofNat n)).drop 2).length = 4 ∧
      hexValue ((escapeByte (UInt8.ofNat n)).drop 2) = some n.val ∧
      (escapeByte (UInt8.ofNat n)).take 2 = utf8 ['\x5c', 'u']) := by
  decide +kernel

theorem escapeByte_form (c : Char) : EscapeForm c ((utf8 [c]).flatMap escapeByte) := by
  by_cases h : c.toNat < 128
  · have hbytes : utf8 [c] = [UInt8.ofNat c.toNat] := by
      rw [utf8_cons, utf8_nil, List.append_nil, String.utf8EncodeChar]
      exact if_pos (by change c.toNat ≤ 127; omega)
    have hflat : (utf8 [c]).flatMap escapeByte = escapeByte (UInt8.ofNat c.toNat) := by
      rw [hbytes, List.flatMap_singleton]
    rw [hflat]
    rcases escapeByte_ascii ⟨c.toNat, h⟩ with ⟨hq, hs, he⟩ | ⟨⟨l, d⟩, hp, hd, he⟩ | ⟨hlen, hhex, he⟩
    · rw [he, ← hbytes]
      exact .plain (fun hc => hq (congrArg Char.toNat hc)) (fun hc => hs (congrArg Char.toNat hc))
    · obtain rfl : d = c := Char.toNat_inj.mp hd
      rw [he]
      exact .letter l hp
    · rw [← List.take_append_drop 2 (escapeByte (UInt8.ofNat c.toNat)), he]
      exact .short _ hlen hhex
  · -- no byte of the character is ASCII, so none is escaped
    have hself : (utf8 [c]).flatMap escapeByte = utf8 [c] := by
      have hbyte : ∀ b ∈ utf8 [c], escapeByte b = [b] := by
        intro b hb
        rw [utf8_cons, utf8_nil, List.append_nil] at hb
        have hge : ¬ b < 0x80 := by
          intro hlt
          have := char_of_ascii hb hlt
          have := UInt8.lt_iff_toNat_lt.mp hlt
          simp at this
          omega
        have hne : ∀ k : UInt8, k < 0x80 → b ≠ k := by
          rintro k hk rfl
          exact hge hk
        have hlow : ¬ b < 0x20 := fun hlt => hge (UInt8.lt_trans hlt (by decide))
        simp only [escapeByte, hne _ (show (0x08 : UInt8) < 0x80 by decide),
          hne _ (show (0x09 : UInt8) < 0x80 by decide), hne _ (show (0x0a : UInt8) < 0x80 by decide),
          hne _ (show (0x0c : UInt8) < 0x80 by decide), hne _ (show (0x0d : UInt8) < 0x80 by decide),
          hne _ (show QUOTE < 0x80 by decide), hne _ (show BACKSLASH < 0x80 by decide),
          hne _ (show (0x7f : UInt8) < 0x80 by decide), hlow, or_self, if_false]
      rw [List.flatMap_congr hbyte, List.flatMap_singleton']
    rw [hself]
    exact .plain (fun hc => h (by rw [hc]; decide)) (fun hc => h (by rw [hc]; decide))

/-- A byte a label of N-Triples may hold anywhere: a letter, a digit, `_`, `:`, or
a byte of a character past ASCII. -/
def isLabelByte (b : UInt8) : Bool :=
  (0x30 ≤ b && b ≤ 0x39) || (0x41 ≤ b && b ≤ 0x5a) || (0x61 ≤ b && b ≤ 0x7a) || b == 0x5f ||
    b == 0x3a || 0x80 ≤ b

/-- The library, with the label rule of N-Triples for blank nodes. -/
def ntriples : Oxrdf where
  iriError iri := if iri.any isAngle then some "Invalid IRI" else none
  blankNodeError id :=
    if id.head?.any isLabelByte && id.all (fun b => isLabelByte b || b == 0x2d || b == 0x2e) &&
      id.getLast? != some 0x2e then none
    else some "The blank node identifier is invalid"
  languageTag tag := .ok (tag.map toAsciiLowercase)
  quoted value := QUOTE :: value.flatMap escapeByte ++ [QUOTE]
  escape c := (utf8 [c]).flatMap escapeByte
  iri_noAngle iri h b hb := by
    by_contra hangle
    have hany : iri.any isAngle = true := List.any_eq_true.mpr ⟨b, hb, by simpa using hangle⟩
    rw [if_pos hany] at h
    cases h
  quoted_utf8 text := by
    rw [utf8, List.flatMap_assoc]
    congr 2
    refine List.flatMap_congr fun c _ => ?_
    rw [utf8_cons, utf8_nil, List.append_nil]
  escape_form := escapeByte_form

/-- A quad about the node with this identifier: `_:… <urn:p> "\"" .` -/
def aboutBlank (id : Str) : Quad where
  subject := .blankNode ⟨id⟩
  predicate := ⟨utf8 ['u', 'r', 'n', ':', 'p']⟩
  object := .literal (.simple (utf8 ['\x22']))
  graphName := .defaultGraph

theorem aboutBlank_accepted {id : Str} (h : ntriples.blankNodeError id = none) :
    (aboutBlank id).Accepted ntriples :=
  ⟨h, show ntriples.iriError (utf8 ['u', 'r', 'n', ':', 'p']) = none by decide, ⟨['\x22'], rfl⟩,
    trivial⟩

/-- An accepted quad is the one its stored spellings parse to, and shares them with
no other, exactly when no identifier of its blank nodes itself begins with the
prefix. -/
theorem quad_roundTrip_iff (ox : Oxrdf) {q : Quad} (h : q.Accepted ox) :
    ((RawQuad.fromQuad ox q).toQuad ox = .ok q ∧
      ∀ q' : Quad, q'.Accepted ox → RawQuad.fromQuad ox q' = RawQuad.fromQuad ox q → q' = q) ↔
      q.Bare := by
  constructor
  · rintro ⟨hparse, -⟩
    exact (toQuad_fromQuad_iff h).mp hparse
  · intro hbare
    exact ⟨(toQuad_fromQuad_iff h).mpr hbare, fun q' hq' heq => fromQuad_injective hq' h heq⟩

/-- The quad about `_:b`. -/
theorem quad_roundTrip_iff_plain :
    ((RawQuad.fromQuad ntriples (aboutBlank (utf8 ['b']))).toQuad ntriples =
        .ok (aboutBlank (utf8 ['b'])) ∧
      ∀ q' : Quad, q'.Accepted ntriples → RawQuad.fromQuad ntriples q' =
        RawQuad.fromQuad ntriples (aboutBlank (utf8 ['b'])) → q' = aboutBlank (utf8 ['b'])) ↔
      (aboutBlank (utf8 ['b'])).Bare :=
  quad_roundTrip_iff ntriples (aboutBlank_accepted (by decide))

/-- The quad about the node whose identifier is `_:b` comes back as one about `b`. -/
theorem quad_roundTrip_prefixed :
    (aboutBlank (utf8 ['_', ':', 'b'])).Accepted ntriples ∧
    (RawQuad.fromQuad ntriples (aboutBlank (utf8 ['_', ':', 'b']))).toQuad ntriples =
      .ok (aboutBlank (utf8 ['b'])) ∧
    aboutBlank (utf8 ['b']) ≠ aboutBlank (utf8 ['_', ':', 'b']) := by
  refine ⟨aboutBlank_accepted (by decide), ?_, by decide⟩
  have hbare := (toQuad_fromQuad_iff (aboutBlank_accepted (show ntriples.blankNodeError
    (utf8 ['b']) = none by decide))).mpr
    ⟨show ¬ BLANK_PREFIX <+: utf8 ['b'] by decide, trivial, trivial⟩
  rw [RawQuad.toQuad, quadFromTerms_ok_iff] at hbare ⊢
  exact ⟨rfl, hbare.2⟩

end Terms
