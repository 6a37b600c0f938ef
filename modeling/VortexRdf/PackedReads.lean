/-
What the cursor reads of a packed buffer, and what becomes of an array of quads.

* `Cursor.At`, `Reads` — a cursor before some bytes, and a reading of them;
* `reads_term`, `reads_quad` — a packed term is built, and a packed quad read, as the
  single-quad reader does;
* `Outcome`, `decodeChunk_outcome` — every quad of a chunk, or the index of a refused one;
* `jsArrayDecode_outcome`, `jsArrayDecode_endless` — the chunks of an array, as long as the
  next one's end fits 32 bits;
* `readInside` — no byte outside the buffer is read, whatever the buffer holds;
* `packedIngest_iff` — when an array is ingested as its quads are read one by one.
-/
import VortexRdf.PackedWrites
import VortexRdf.TermRoundTrip

namespace Js

open Utf16 (chars utf16 encodeInto fromUtf8)
open Terms Programs
open Records (leBytes ofLe ofLe_leBytes length_leBytes)

/-! ### A cursor before some bytes -/

def Cursor.At (c : Cursor) (rest : Str) : Prop := c.bytes.drop c.pos = rest ∧ c.pos ≤ c.bytes.length

/-- A reading of some bytes, that ends as told, behind them where it does not fail. -/
def Reads {T : Type} (prog : Reading T) (bytes : Str) (result : Except JsError T) : Prop :=
  ∀ c rest, c.At (bytes ++ rest) →
    ∃ c', prog c = (result, c') ∧ ∀ t, result = .ok t → c'.At rest

section Readings

variable {T U : Type}

theorem Reads.bind {prog : Reading T} {bytes bytes' : Str} {result : Except JsError T}
    {next : T → Reading U} {result' : T → Except JsError U} (h : Reads prog bytes result)
    (h' : ∀ t, result = .ok t → Reads (next t) bytes' (result' t)) :
    Reads (prog >>= next) (bytes ++ bytes') (result.bind result') := by
  intro c rest hc
  rw [List.append_assoc] at hc
  obtain ⟨c₁, hrun, hat⟩ := h c _ hc
  cases result with
  | error error =>
    refine ⟨c₁, Prog.bind_error hrun, fun t ht => ?_⟩
    cases ht
  | ok t =>
    rw [Prog.bind_ok hrun]
    exact h' t rfl c₁ rest (hat t rfl)

/-- After a value that is known. -/
theorem Reads.seq {prog : Reading T} {bytes bytes' : Str} {t : T} {next : T → Reading U}
    {result : Except JsError U} (h : Reads prog bytes (.ok t)) (h' : Reads (next t) bytes' result) :
    Reads (prog >>= next) (bytes ++ bytes') result := by
  intro c rest hc
  rw [List.append_assoc] at hc
  obtain ⟨c₁, hrun, hat⟩ := h c _ hc
  rw [Prog.bind_ok hrun]
  exact h' c₁ rest (hat t rfl)

theorem reads_pure (t : T) : Reads (pure t) [] (.ok t) :=
  fun c _ hc => ⟨c, rfl, fun _ _ => hc⟩

theorem reads_take (bytes : Str) : Reads (take bytes.length) bytes (.ok bytes) := by
  intro c rest hc
  obtain ⟨hdrop, hpos⟩ := hc
  have hlen := congrArg List.length hdrop
  rw [List.length_drop, List.length_append] at hlen
  have hfits : c.pos + bytes.length ≤ c.bytes.length := by omega
  have htaken : (c.bytes.drop c.pos).take bytes.length = bytes := by rw [hdrop, List.take_left]
  refine ⟨{ c with pos := c.pos + bytes.length, reads := c.reads ++ [(c.pos, bytes.length)] }, ?_, ?_⟩
  · rw [take, if_pos hfits, htaken]
  · intro _ _
    refine ⟨?_, hfits⟩
    show c.bytes.drop (c.pos + bytes.length) = rest
    rw [← List.drop_drop, hdrop, List.drop_left]

theorem reads_u8 (byte : UInt8) : Reads readU8 [byte] (.ok byte) :=
  (reads_take [byte]).seq (reads_pure byte)

theorem reads_u32 {n : ℕ} (h : n < 2 ^ 32) : Reads readU32 (leBytes 4 n) (.ok n) := by
  have hvalue : ofLe (leBytes 4 n) = n := ofLe_leBytes (by omega)
  have htake := reads_take (leBytes 4 n)
  rw [length_leBytes] at htake
  have hreads : Reads readU32 (leBytes 4 n ++ []) (.ok (ofLe (leBytes 4 n))) :=
    htake.seq (reads_pure _)
  rwa [List.append_nil, hvalue] at hreads

theorem reads_str {text : List Char} (h : (utf8 text).length < 2 ^ 32) :
    Reads readStr (field (utf8 text)) (.ok (utf8 text)) := by
  have hvalid : validated (utf8 text) = pure (utf8 text) := by
    rw [validated, show fromUtf8 (utf8 text) = some (utf8 text) from Utf16.fromUtf8_utf8 text]
  have hbytes : Reads (validated (utf8 text)) [] (.ok (utf8 text)) := by
    rw [hvalid]
    exact reads_pure _
  have hreads : Reads readStr (leBytes 4 (utf8 text).length ++ (utf8 text ++ [])) (.ok (utf8 text)) :=
    (reads_u32 h).seq ((reads_take (utf8 text)).seq hbytes)
  rwa [List.append_nil] at hreads

/-- What a constructor may be given: texts that fit, and only those its kind has. -/
structure GoodParts (kind : TermKind) (value extra : Str) : Prop where
  valueText : ∃ text, value = utf8 text ∧ (utf8 text).length < 2 ^ 32
  extraText : ∃ text, extra = utf8 text ∧ (utf8 text).length < 2 ^ 32
  noValue : kind.hasValue = false → value = []
  noExtra : kind.hasExtra = false → extra = []

theorem reads_if {has : Bool} {s : Str} (h : ∃ text, s = utf8 text ∧ (utf8 text).length < 2 ^ 32)
    (hno : has = false → s = []) :
    Reads (readIf has) (if has then field s else []) (.ok s) := by
  cases has with
  | false =>
    rw [hno rfl]
    exact reads_pure []
  | true =>
    obtain ⟨text, rfl, hfits⟩ := h
    exact reads_str hfits

theorem fromTag_tag (kind : TermKind) : TermKind.fromTag kind.tag = some kind := by
  cases kind <;> decide

/-- A packed term is built as its parts are. -/
theorem reads_term {kind : TermKind} {value extra : Str} (h : GoodParts kind value extra)
    (build : TermKind → Str → Str → Option T) :
    Reads (readTerm build) (encoded (kind, value, extra)) (.ok (build kind value extra)) := by
  have hparts : Reads (readIf kind.hasValue >>= fun value => readIf kind.hasExtra >>= fun extra =>
      pure (build kind value extra))
      ((if kind.hasValue then field value else []) ++ ((if kind.hasExtra then field extra else []) ++ []))
      (.ok (build kind value extra)) :=
    (reads_if h.valueText h.noValue).seq
      ((reads_if h.extraText h.noExtra).seq (reads_pure (build kind value extra)))
  rw [List.append_nil] at hparts
  refine (reads_u8 kind.tag).seq ?_
  rw [fromTag_tag]
  exact hparts

end Readings

section Parts

variable {heap : Heap} {t : JsValue} {kind : TermKind} {value extra : Str}

theorem asString_fits {v : JsValue} {text : List Char} (h : v.asString = some text) :
    (utf8 text).length < 2 ^ 32 := by
  cases v with
  | string s =>
    obtain rfl : chars s.units = text := Option.some.inj h
    exact s.fits
  | undefined => cases h
  | null => cases h
  | boolean b => cases h
  | number bits => cases h
  | object id => cases h
  | function id => cases h

theorem fits_nothing : ∃ text, ([] : Str) = utf8 text ∧ (utf8 text).length < 2 ^ 32 :=
  ⟨[], rfl, Nat.two_pow_pos 32⟩

theorem defaultGraph_good : GoodParts .defaultGraph [] [] :=
  ⟨fits_nothing, fits_nothing, fun _ => rfl, fun _ => rfl⟩

theorem good_value {v : JsValue} {kind' : TermKind} (hvalue : kind'.hasValue = true)
    (h : (v.asString.map fun value => (kind', utf8 value, ([] : Str))) = some (kind, value, extra)) :
    GoodParts kind value extra := by
  obtain ⟨text, htext, hparts⟩ := Option.map_eq_some_iff.mp h
  obtain ⟨rfl, rfl, rfl⟩ : kind' = kind ∧ utf8 text = value ∧ [] = extra := by
    simpa using hparts
  refine ⟨⟨text, rfl, asString_fits htext⟩, fits_nothing, fun hno => ?_, fun _ => rfl⟩
  exact absurd (hvalue.symm.trans hno) (by decide)

theorem good_pair {v w : JsValue} {kind' : TermKind} (hvalue : kind'.hasValue = true)
    (hextra : kind'.hasExtra = true)
    (h : (v.asString.bind fun value => w.asString.map fun extra =>
      (kind', utf8 value, utf8 extra)) = some (kind, value, extra)) : GoodParts kind value extra := by
  obtain ⟨text, htext, hrest⟩ := Option.bind_eq_some_iff.mp h
  obtain ⟨text', htext', hparts⟩ := Option.map_eq_some_iff.mp hrest
  obtain ⟨rfl, rfl, rfl⟩ : kind' = kind ∧ utf8 text = value ∧ utf8 text' = extra := by
    simpa using hparts
  refine ⟨⟨text, rfl, asString_fits htext⟩, ⟨text', rfl, asString_fits htext'⟩, fun hno => ?_,
    fun hno => ?_⟩
  · exact absurd (hvalue.symm.trans hno) (by decide)
  · exact absurd (hextra.symm.trans hno) (by decide)

theorem literalParts_good (hprops : HasProps heap t)
    (h : literalParts heap t = some (kind, value, extra)) : GoodParts kind value extra := by
  rw [literalParts_eq hprops] at h
  split_ifs at h
  · exact good_pair rfl rfl h
  · exact good_pair rfl rfl h
  · exact good_value rfl h

/-- The parts of any term may be given to a constructor. -/
theorem termParts_good (h : termParts heap t = some (kind, value, extra)) :
    GoodParts kind value extra := by
  have hdefault : some DEFAULT_GRAPH = some (kind, value, extra) → GoodParts kind value extra := by
    intro hparts
    obtain ⟨rfl, rfl, rfl⟩ : TermKind.defaultGraph = kind ∧ [] = value ∧ [] = extra := by
      simpa [DEFAULT_GRAPH] using hparts
    exact defaultGraph_good
  rw [termParts] at h
  rcases value_cases heap t with ⟨hprops, hnullish⟩ | hnullish | ⟨hnullish, hget, -⟩
  · rw [hnullish, if_neg Bool.false_ne_true] at h
    cases hname : termTypeOf heap t with
    | none =>
      rw [hname] at h
      cases h
    | some name =>
      rw [hname] at h
      simp only at h
      rw [valueParts_eq hprops, valueParts_eq hprops] at h
      split_ifs at h
      · exact good_value rfl h
      · exact good_value rfl h
      · exact literalParts_good hprops h
      · exact hdefault h
  · rw [hnullish, if_pos rfl] at h
    exact hdefault h
  · rw [hnullish, if_neg Bool.false_ne_true, termTypeOf, hget] at h
    cases h

end Parts

/-! ### Quads -/

section Quads

variable {heap : Heap} {ox : Oxrdf} {q : JsValue} {i : ℕ}

def orError {T : Type} (i : ℕ) : Option T → Except JsError T
  | some t => .ok t
  | none => .error (.invalidQuad i)

/-- A packed field read and built, or its quad at fault. -/
theorem reads_field {T : Type} {kind : TermKind} {value extra : Str} (h : GoodParts kind value extra)
    (build : TermKind → Str → Str → Option T) (i : ℕ) :
    Reads (readTerm build >>= orInvalid i) (encoded (kind, value, extra))
      (orError i (build kind value extra)) := by
  have hread : Reads (orInvalid i (build kind value extra)) [] (orError i (build kind value extra)) := by
    cases build kind value extra with
    | some t => exact reads_pure t
    | none =>
      intro c rest hc
      refine ⟨c, rfl, fun t ht => ?_⟩
      cases ht
  have hboth := (reads_term h build).seq hread
  rwa [List.append_nil] at hboth

/-- A quad built of four terms' parts. -/
def builtQuad (ox : Oxrdf) (s p o g : TermParts) : Option Quad := do
  let subject ← subject ox s.1 s.2.1 s.2.2
  let predicate ← predicate ox p.1 p.2.1 p.2.2
  let object ← object ox o.1 o.2.1 o.2.2
  let graph ← graph ox g.1 g.2.1 g.2.2
  return ⟨subject, predicate, object, graph⟩

theorem readQuad_eq (ox : Oxrdf) (i : ℕ) : readQuad ox i =
    (readTerm (subject ox) >>= orInvalid i) >>= fun s =>
      (readTerm (predicate ox) >>= orInvalid i) >>= fun p =>
        (readTerm (object ox) >>= orInvalid i) >>= fun o =>
          (readTerm (graph ox) >>= orInvalid i) >>= fun g => pure ⟨s, p, o, g⟩ := by
  simp only [readQuad, bind_assoc]

theorem reads_quad {s p o g : TermParts} (hs : GoodParts s.1 s.2.1 s.2.2)
    (hp : GoodParts p.1 p.2.1 p.2.2) (ho : GoodParts o.1 o.2.1 o.2.2)
    (hg : GoodParts g.1 g.2.1 g.2.2) (i : ℕ) :
    Reads (readQuad ox i) (encoded s ++ (encoded p ++ (encoded o ++ encoded g)))
      (orError i (builtQuad ox s p o g)) := by
  have hreads := (reads_field hs (subject ox) i).bind fun s' _ =>
    (reads_field hp (predicate ox) i).bind fun p' _ =>
      (reads_field ho (object ox) i).bind fun o' _ =>
        (reads_field hg (graph ox) i).bind fun g' _ => reads_pure (Quad.mk s' p' o' g')
  rw [← readQuad_eq, List.append_nil] at hreads
  have hresult : orError i (builtQuad ox s p o g) =
      (orError i (subject ox s.1 s.2.1 s.2.2)).bind fun s' =>
        (orError i (predicate ox p.1 p.2.1 p.2.2)).bind fun p' =>
          (orError i (object ox o.1 o.2.1 o.2.2)).bind fun o' =>
            (orError i (graph ox g.1 g.2.1 g.2.2)).bind fun g' => .ok ⟨s', p', o', g'⟩ := by
    rw [builtQuad]
    cases subject ox s.1 s.2.1 s.2.2 with
    | none => rfl
    | some s' =>
      cases predicate ox p.1 p.2.1 p.2.2 with
      | none => rfl
      | some p' =>
        cases object ox o.1 o.2.1 o.2.2 with
        | none => rfl
        | some o' => cases graph ox g.1 g.2.1 g.2.2 <;> rfl
  rw [hresult]
  exact hreads

theorem packedParts_some {parts : Option TermParts} {bytes : Str}
    (h : packedParts parts i = .ok bytes) : ∃ ps, parts = some ps ∧ bytes = encoded ps := by
  cases parts with
  | none => cases h
  | some ps => exact ⟨ps, rfl, (Except.ok.inj h).symm⟩

theorem packedParts_error {parts : Option TermParts} {error : JsError}
    (h : packedParts parts i = .error error) : parts = none ∧ error = .invalidQuad i := by
  cases parts with
  | none => exact ⟨rfl, (Except.error.inj h).symm⟩
  | some ps => cases h

theorem join_eq_ok {first second : Except JsError Str} {bytes : Str}
    (h : join first second = .ok bytes) :
    ∃ front back, first = .ok front ∧ second = .ok back ∧ bytes = front ++ back := by
  cases first with
  | error error => cases h
  | ok front =>
    cases second with
    | error error => cases h
    | ok back => exact ⟨front, back, rfl, rfl, (Except.ok.inj h).symm⟩

theorem join_eq_error {first second : Except JsError Str} {error : JsError}
    (h : join first second = .error error) :
    first = .error error ∨ ∃ front, first = .ok front ∧ second = .error error := by
  cases first with
  | error error' => exact .inl h
  | ok front =>
    cases second with
    | error error' => exact .inr ⟨front, rfl, h⟩
    | ok back => cases h

/-- The quad of a value with properties is built of its fields' parts. -/
theorem jsToQuad_eq (h : HasProps heap q) : jsToQuad ox heap q = do
    let s ← termParts heap (member heap q .subject)
    let subject ← subject ox s.1 s.2.1 s.2.2
    let p ← termParts heap (member heap q .predicate)
    let predicate ← predicate ox p.1 p.2.1 p.2.2
    let o ← termParts heap (member heap q .object)
    let object ← object ox o.1 o.2.1 o.2.2
    let g ← termParts heap (member heap q .graph)
    let graph ← graph ox g.1 g.2.1 g.2.2
    return ⟨subject, predicate, object, graph⟩ := by
  simp only [jsToQuad, quadTerm, h _, Option.bind_eq_bind, Option.bind_some, Option.bind_assoc]

theorem jsToQuad_parts (h : HasProps heap q) {s p o g : TermParts}
    (hs : termParts heap (member heap q .subject) = some s)
    (hp : termParts heap (member heap q .predicate) = some p)
    (ho : termParts heap (member heap q .object) = some o)
    (hg : termParts heap (member heap q .graph) = some g) :
    jsToQuad ox heap q = builtQuad ox s p o g := by
  rw [jsToQuad_eq h, hs, hp, ho, hg]
  rfl

/-- A value without properties of its own is no quad. -/
theorem jsToQuad_none (h : ∀ key, getProp heap q key = none) : jsToQuad ox heap q = none := by
  rw [jsToQuad, quadTerm, h]
  rfl

theorem isFalsy_of_isNullish (h : q.isNullish = true) : q.isFalsy = true := by
  cases q with
  | undefined => rfl
  | null => rfl
  | boolean b => cases h
  | number bits => cases h
  | string s => cases h
  | object id => cases h
  | function id => cases h

theorem getProp_of_isFalsy (h : q.isFalsy = true) (key : Key) : getProp heap q key = none := by
  cases q with
  | object id => cases h
  | function id => cases h
  | undefined => rfl
  | null => rfl
  | boolean b => rfl
  | number bits => rfl
  | string s => rfl

/-- What is packed of a quad is read as the single-quad reader reads it. -/
theorem packedQuad_ok {bytes : Str} (h : packedQuad heap q i = .ok bytes) :
    Reads (readQuad ox i) bytes (orError i (jsToQuad ox heap q)) := by
  rw [packedQuad] at h
  split_ifs at h with hfalsy
  obtain ⟨_, _, hs, h', rfl⟩ := join_eq_ok h
  obtain ⟨_, _, hp, h'', rfl⟩ := join_eq_ok h'
  obtain ⟨_, _, ho, hg, rfl⟩ := join_eq_ok h''
  obtain ⟨⟨ks, vs, es⟩, hsubject, rfl⟩ := packedParts_some hs
  obtain ⟨⟨kp, vp, ep⟩, hpredicate, rfl⟩ := packedParts_some hp
  obtain ⟨⟨ko, vo, eo⟩, hobject, rfl⟩ := packedParts_some ho
  obtain ⟨⟨kg, vg, eg⟩, hgraph, rfl⟩ := packedParts_some hg
  have hreads : Reads (readQuad ox i) _ _ := reads_quad (s := (ks, vs, es)) (p := (kp, vp, ep))
    (o := (ko, vo, eo)) (g := (kg, vg, eg)) (termParts_good hsubject) (termParts_good hpredicate)
    (termParts_good hobject) (termParts_good hgraph) i
  rcases value_cases heap q with ⟨hprops, -⟩ | hnullish | ⟨-, hget, hmember⟩
  · rwa [jsToQuad_parts hprops hsubject hpredicate hobject hgraph]
  · exact absurd (isFalsy_of_isNullish hnullish) hfalsy
  · -- a primitive: its fields are packed as default graphs, which is no subject
    have hdefault : termParts heap .undefined = some DEFAULT_GRAPH := rfl
    rw [hmember, hdefault] at hsubject
    obtain ⟨rfl, rfl, rfl⟩ : TermKind.defaultGraph = ks ∧ [] = vs ∧ [] = es := by
      simpa [DEFAULT_GRAPH] using hsubject
    rw [jsToQuad_none hget]
    exact hreads

/-- A quad the packer refuses is none to the single-quad reader. -/
theorem packedQuad_error {error : JsError} (h : packedQuad heap q i = .error error) :
    error = .invalidQuad i ∧ jsToQuad ox heap q = none := by
  rw [packedQuad] at h
  split_ifs at h with hfalsy
  · exact ⟨(Except.error.inj h).symm, jsToQuad_none (getProp_of_isFalsy hfalsy)⟩
  rcases value_cases heap q with ⟨hprops, -⟩ | hnullish | ⟨-, hget, hmember⟩
  · -- a field has no parts: whichever it is, the quad is not built
    rw [jsToQuad_eq hprops]
    rcases join_eq_error h with hs | ⟨_, _, h⟩
    · obtain ⟨hnone, rfl⟩ := packedParts_error hs
      exact ⟨rfl, by rw [hnone]; rfl⟩
    rcases join_eq_error h with hp | ⟨_, _, h⟩
    · obtain ⟨hnone, rfl⟩ := packedParts_error hp
      exact ⟨rfl, by simp [hnone]⟩
    rcases join_eq_error h with ho | ⟨_, _, hg⟩
    · obtain ⟨hnone, rfl⟩ := packedParts_error ho
      exact ⟨rfl, by simp [hnone]⟩
    · obtain ⟨hnone, rfl⟩ := packedParts_error hg
      exact ⟨rfl, by simp [hnone]⟩
  · exact absurd (isFalsy_of_isNullish hnullish) hfalsy
  · have hdefault : termParts heap .undefined = some DEFAULT_GRAPH := rfl
    simp only [hmember, hdefault, packedParts, join_ok] at h
    cases h

end Quads

/-! ### Chunks -/

section Chunks

variable {heap : Heap} {ox : Oxrdf}

/-- Every quad of some elements, or the index of an element that is none. -/
structure Outcome (ox : Oxrdf) (heap : Heap) (quads : List JsValue) (i : ℕ) (d : Decoded) : Prop where
  accepted : ∀ read, quads.mapM (jsToQuad ox heap) = some read → d = ⟨read, none⟩
  refused : quads.mapM (jsToQuad ox heap) = none → ∃ emitted j q,
    d = ⟨emitted, some (.invalidQuad (i + j))⟩ ∧ quads[j]? = some q ∧ jsToQuad ox heap q = none

variable {quads : List JsValue}

theorem mapM_none_iff : quads.mapM (jsToQuad ox heap) = none ↔
    ∃ q ∈ quads, jsToQuad ox heap q = none := by
  induction quads with
  | nil =>
    constructor
    · intro hnone
      cases hnone
    · rintro ⟨q, hq, -⟩
      cases hq
  | cons q quads ih =>
    rw [List.mapM_cons]
    cases hquad : jsToQuad ox heap q with
    | none => exact ⟨fun _ => ⟨q, List.mem_cons_self, hquad⟩, fun _ => rfl⟩
    | some quad =>
      have hrest : (some quad >>= fun quad => quads.mapM (jsToQuad ox heap) >>= fun rest =>
          pure (quad :: rest)) = none ↔ quads.mapM (jsToQuad ox heap) = none := by
        cases quads.mapM (jsToQuad ox heap) <;> simp
      rw [hrest, ih]
      constructor
      · rintro ⟨other, hother, hnone⟩
        exact ⟨other, List.mem_cons_of_mem q hother, hnone⟩
      · rintro ⟨other, hother, hnone⟩
        rcases List.mem_cons.mp hother with rfl | hother
        · rw [hquad] at hnone
          cases hnone
        · exact ⟨other, hother, hnone⟩

theorem mapM_cons_some {q : JsValue} {quad : Quad}
    (h : jsToQuad ox heap q = some quad) : (q :: quads).mapM (jsToQuad ox heap) =
      (quads.mapM (jsToQuad ox heap)).map (quad :: ·) := by
  rw [List.mapM_cons, h]
  cases quads.mapM (jsToQuad ox heap) <;> rfl

/-- The first element that is no quad ends the outcome. -/
theorem Outcome.head {q : JsValue} (quads : List JsValue) (i : ℕ) (h : jsToQuad ox heap q = none) :
    Outcome ox heap (q :: quads) i ⟨[], some (.invalidQuad i)⟩ := by
  have hnone : (q :: quads).mapM (jsToQuad ox heap) = none :=
    mapM_none_iff.mpr ⟨q, List.mem_cons_self, h⟩
  refine ⟨fun read hread => ?_, fun _ => ⟨[], 0, q, rfl, rfl, h⟩⟩
  rw [hnone] at hread
  cases hread

theorem Outcome.cons {q : JsValue} {quad : Quad} {i : ℕ} {d : Decoded}
    (h : jsToQuad ox heap q = some quad) (hrest : Outcome ox heap quads (i + 1) d) :
    Outcome ox heap (q :: quads) i ⟨quad :: d.quads, d.error⟩ := by
  constructor
  · intro read hread
    rw [mapM_cons_some h] at hread
    obtain ⟨rest, hquads, rfl⟩ := Option.map_eq_some_iff.mp hread
    rw [hrest.accepted rest hquads]
  · intro hnone
    rw [mapM_cons_some h, Option.map_eq_none_iff] at hnone
    obtain ⟨emitted, j, q', rfl, hat, hrefused⟩ := hrest.refused hnone
    refine ⟨quad :: emitted, j + 1, q', ?_, hat, hrefused⟩
    rw [Nat.add_right_comm]
    rfl

/-- The quads packed one behind another are read one after another. -/
theorem readEach_outcome {i : ℕ} {bytes rest : Str} {c : Cursor}
    (h : packedEach heap quads i = .ok bytes) (hc : c.At (bytes ++ rest)) :
    Outcome ox heap quads i (readEach ox quads.length i c).1 := by
  induction quads generalizing i bytes c with
  | nil =>
    refine ⟨fun read hread => ?_, fun hnone => ?_⟩
    · obtain rfl := Option.some.inj hread
      rfl
    · cases hnone
  | cons q quads ih =>
    obtain ⟨front, back, hfront, hback, rfl⟩ := join_eq_ok h
    rw [List.append_assoc] at hc
    obtain ⟨c', hrun, hat⟩ := @packedQuad_ok heap ox q i front hfront c _ hc
    rw [List.length_cons, readEach, hrun]
    cases hquad : jsToQuad ox heap q with
    | none => exact .head quads i hquad
    | some quad => exact .cons hquad (ih hback (hat quad (congrArg (orError i) hquad)))

/-- A refusal by the packer is of an element that is no quad. -/
theorem packedEach_error {i : ℕ} {error : JsError}
    (h : packedEach heap quads i = .error error) :
    ∃ j q, error = .invalidQuad (i + j) ∧ quads[j]? = some q ∧ jsToQuad ox heap q = none := by
  induction quads generalizing i with
  | nil => cases h
  | cons q quads ih =>
    rcases join_eq_error h with hquad | ⟨_, _, hrest⟩
    · obtain ⟨rfl, hnone⟩ := @packedQuad_error heap ox q i error hquad
      exact ⟨0, q, rfl, rfl, hnone⟩
    · obtain ⟨j, q', rfl, hat, hnone⟩ := ih hrest
      refine ⟨j + 1, q', ?_, hat, hnone⟩
      rw [Nat.add_right_comm]
      rfl

theorem toUint32_sub {start stop : ℕ} (hle : start ≤ stop) (hlt : stop < 2 ^ 32) :
    toUint32 (stop - start) = stop - start := by
  rw [toUint32]
  omega

theorem new_at (bytes : Str) : Cursor.At ⟨bytes, 0, []⟩ bytes := ⟨rfl, Nat.zero_le _⟩

/-- A chunk whose end fits 32 bits. -/
theorem decodeChunk_outcome (quads : List JsValue) {start stop : ℕ} (hle : start ≤ stop)
    (hstop : stop ≤ quads.length) (hlt : stop < 2 ^ 32) :
    Outcome ox heap (sliceOf quads start stop) start (decodeChunk heap ox quads start stop) := by
  have hlen : (sliceOf quads start stop).length = stop - start := by
    rw [sliceOf, List.length_take, List.length_drop]
    omega
  rw [decodeChunk, (packQuads_spec heap quads start stop).1, toUint32_sub hle hlt]
  cases hpacked : packedEach heap (sliceOf quads start stop) start with
  | error error =>
    obtain ⟨j, q, rfl, hat, hnone⟩ := @packedEach_error heap ox _ _ _ hpacked
    have hrefused : (sliceOf quads start stop).mapM (jsToQuad ox heap) = none :=
      mapM_none_iff.mpr ⟨q, List.mem_of_getElem? hat, hnone⟩
    rw [join_error, decodedChunk]
    refine ⟨fun read hread => ?_, fun _ => ⟨[], j, q, rfl, hat, hnone⟩⟩
    rw [hrefused] at hread
    cases hread
  | ok bytes =>
    have hcount : stop - start < 2 ^ 32 := by omega
    have hfirst : Cursor.At ⟨leBytes 4 (stop - start) ++ bytes, 0, []⟩
        (leBytes 4 (stop - start) ++ (bytes ++ [])) := by
      rw [List.append_nil]
      exact new_at _
    obtain ⟨c, hrun, hat⟩ := reads_u32 hcount _ _ hfirst
    have hrange : rangeLen start (stop - start) = (sliceOf quads start stop).length := by
      rw [rangeLen, hlen]
      omega
    rw [join_ok, decodedChunk, decodePacked, hrun, readCounted, hrange]
    exact readEach_outcome hpacked (hat _ rfl)

theorem Outcome.failed {rest : List JsValue} {i : ℕ} {d : Decoded}
    (h : Outcome ox heap quads i d) (hnone : quads.mapM (jsToQuad ox heap) = none) :
    (∃ error, d.error = some error) ∧ Outcome ox heap (quads ++ rest) i d := by
  obtain ⟨emitted, j, q, rfl, hat, hrefused⟩ := h.refused hnone
  have hall : (quads ++ rest).mapM (jsToQuad ox heap) = none :=
    mapM_none_iff.mpr ⟨q, List.mem_append_left _ (List.mem_of_getElem? hat), hrefused⟩
  refine ⟨⟨_, rfl⟩, fun read hread => ?_, fun _ => ⟨emitted, j, q, rfl, ?_, hrefused⟩⟩
  · rw [hall] at hread
    cases hread
  · exact List.getElem?_append_left (List.getElem?_eq_some_iff.mp hat).1 ▸ hat

theorem Outcome.append {rest : List JsValue} {read : List Quad} {i : ℕ} {d : Decoded}
    (h : quads.mapM (jsToQuad ox heap) = some read)
    (hrest : Outcome ox heap rest (i + quads.length) d) :
    Outcome ox heap (quads ++ rest) i ⟨read ++ d.quads, d.error⟩ := by
  have hsplit : (quads ++ rest).mapM (jsToQuad ox heap) =
      (rest.mapM (jsToQuad ox heap)).map (read ++ ·) := by
    rw [List.mapM_append, h]
    cases rest.mapM (jsToQuad ox heap) <;> rfl
  constructor
  · intro all hall
    rw [hsplit] at hall
    obtain ⟨read', hread', rfl⟩ := Option.map_eq_some_iff.mp hall
    rw [hrest.accepted read' hread']
  · intro hnone
    rw [hsplit, Option.map_eq_none_iff] at hnone
    obtain ⟨emitted, j, q, rfl, hat, hrefused⟩ := hrest.refused hnone
    refine ⟨read ++ emitted, quads.length + j, q, ?_, ?_, hrefused⟩
    · rw [Nat.add_assoc]
    · rw [List.getElem?_append_right (Nat.le_add_right _ _), Nat.add_sub_cancel_left]
      exact hat

end Chunks

/-! ### An array -/

section Arrays

variable {heap : Heap} {ox : Oxrdf} {quads : JsArray}

/-- The start of the last chunk whose end would fit 32 bits. -/
def LAST_START : ℕ := 2 ^ 32 - PACK_CHUNK

variable {start : ℕ}

theorem sliceOf_append {elements : List JsValue} {stop : ℕ} (hle : start ≤ stop) :
    sliceOf elements start stop ++ elements.drop stop = elements.drop start := by
  have hdrop : elements.drop stop = (elements.drop start).drop (stop - start) := by
    rw [List.drop_drop]
    congr 1
    omega
  rw [sliceOf, hdrop, List.take_append_drop]

theorem sliceOf_cut {elements : List JsValue} {mid stop : ℕ} (hle : start ≤ mid)
    (hstop : mid ≤ stop) (hmid : mid ≤ elements.length) :
    sliceOf elements start stop = sliceOf elements start mid ++ sliceOf elements mid stop := by
  have hlen : (sliceOf elements start mid).length = mid - start := by
    rw [sliceOf, List.length_take, List.length_drop]
    omega
  have hwhole : (sliceOf elements start mid).take (stop - start) = sliceOf elements start mid :=
    List.take_of_length_le (by omega)
  have hrest : stop - start - (mid - start) = stop - mid := by omega
  rw [sliceOf, ← sliceOf_append hle, List.take_append, hlen, hwhole, hrest]
  rfl

/-- A refused element behind a slice that was read. -/
theorem refused_behind {elements : List JsValue} {mid stop : ℕ} {read : List Quad}
    (hread : (sliceOf elements start mid).mapM (jsToQuad ox heap) = some read) (hle : start ≤ mid)
    (hstop : mid ≤ stop) (hmid : mid ≤ elements.length)
    (h : ∃ q ∈ sliceOf elements start stop, jsToQuad ox heap q = none) :
    ∃ q ∈ sliceOf elements mid stop, jsToQuad ox heap q = none := by
  obtain ⟨q, hq, hnone⟩ := h
  rw [sliceOf_cut hle hstop hmid, List.mem_append] at hq
  refine ⟨q, hq.resolve_left fun hfront => ?_, hnone⟩
  have hrefused := mapM_none_iff.mpr ⟨q, hfront, hnone⟩
  rw [hread] at hrefused
  cases hrefused

/-- From the start of a chunk, the chunks come to the array's end, or to a refused element,
before any chunk's end is past 32 bits. -/
theorem jsArrayDecode_outcome
    (haligned : start % PACK_CHUNK = 0 ∨ quads.elements.length ≤ start)
    (hstart : start ≤ LAST_START ∨ quads.elements.length ≤ start)
    (h : quads.elements.length ≤ LAST_START ∨
      ∃ q ∈ sliceOf quads.elements start LAST_START, jsToQuad ox heap q = none) :
    ∃ fuel d, jsArrayDecode heap ox quads fuel start = some d ∧
      Outcome ox heap (quads.elements.drop start) start d := by
  obtain ⟨left, hleft⟩ : ∃ left, left = quads.elements.length - start := ⟨_, rfl⟩
  induction left using Nat.strong_induction_on generalizing start with
  | _ left ih =>
    by_cases hmore : start < quads.elements.length
    · have hbound : start < LAST_START := by
        rcases h with hfits | ⟨q, hq, -⟩
        · exact Nat.lt_of_lt_of_le hmore hfits
        · have hlen := List.length_pos_of_mem hq
          rw [sliceOf, List.length_take, List.length_drop] at hlen
          omega
      have hfits : start + PACK_CHUNK ≤ LAST_START := by
        rw [LAST_START, PACK_CHUNK] at *
        omega
      have hlt := quads.length_lt
      obtain ⟨stop, hstop⟩ : ∃ stop, stop = chunkEnd start quads.elements.length := ⟨_, rfl⟩
      have hend : stop = min (start + PACK_CHUNK) quads.elements.length := by
        rw [hstop, chunkEnd, LAST_START, PACK_CHUNK] at *
        omega
      have hnext : start < stop := by
        rw [PACK_CHUNK] at hend
        omega
      have hchunk := @decodeChunk_outcome heap ox quads.elements start stop (by omega) (by omega)
        (by omega)
      have hsplit := @sliceOf_append start quads.elements stop (by omega)
      have hlen : (sliceOf quads.elements start stop).length = stop - start := by
        rw [sliceOf, List.length_take, List.length_drop]
        omega
      cases hread : (sliceOf quads.elements start stop).mapM (jsToQuad ox heap) with
      | none =>
        obtain ⟨⟨error, herror⟩, houtcome⟩ :=
          @Outcome.failed heap ox _ (quads.elements.drop stop) _ _ hchunk hread
        refine ⟨1, decodeChunk heap ox quads.elements start stop, ?_, hsplit ▸ houtcome⟩
        rw [jsArrayDecode, if_pos hmore]
        simp only [← hstop]
        rw [Decoded.before, herror]
      | some read =>
        have hdecoded := hchunk.accepted read hread
        have hrest : quads.elements.length ≤ LAST_START ∨
            ∃ q ∈ sliceOf quads.elements stop LAST_START, jsToQuad ox heap q = none := by
          refine h.imp_right fun hrefused => ?_
          exact refused_behind hread (by omega) (by omega) (by omega) hrefused
        have haligned' : stop % PACK_CHUNK = 0 ∨ quads.elements.length ≤ stop := by
          rw [PACK_CHUNK] at *
          omega
        obtain ⟨fuel, d, hrun, houtcome⟩ := @ih (quads.elements.length - stop) (by omega) stop
          haligned' (by omega) hrest rfl
        refine ⟨fuel + 1, ⟨read ++ d.quads, d.error⟩, ?_, ?_⟩
        · rw [jsArrayDecode, if_pos hmore]
          simp only [← hstop]
          rw [hdecoded, hrun]
          rfl
        · rw [← hsplit]
          refine .append hread ?_
          rw [hlen, show start + (stop - start) = stop by omega]
          exact houtcome
    · refine ⟨1, ⟨[], none⟩, ?_, ?_⟩
      · rw [jsArrayDecode, if_neg hmore]
      · rw [List.drop_eq_nil_of_le (Nat.le_of_not_lt hmore)]
        refine ⟨fun read hread => ?_, fun hnone => ?_⟩
        · obtain rfl := Option.some.inj hread
          rfl
        · cases hnone

/-- The end of the last chunk wraps to 0: a count is packed and no quad, and no index is read. -/
theorem decodeChunk_wrapped (elements : List JsValue) :
    decodeChunk heap ox elements LAST_START 0 = ⟨[], none⟩ := by
  have hslice : sliceOf elements LAST_START 0 = [] := by
    rw [sliceOf, Nat.zero_sub, List.take_zero]
  have hcount : toUint32 (((0 : ℕ) : ℤ) - (LAST_START : ℕ)) = PACK_CHUNK := by
    rw [toUint32, LAST_START, PACK_CHUNK]
    omega
  have hsmall : PACK_CHUNK < 2 ^ 32 := by
    rw [PACK_CHUNK]
    omega
  have hfirst : Cursor.At ⟨leBytes 4 PACK_CHUNK ++ [], 0, []⟩ (leBytes 4 PACK_CHUNK ++ []) :=
    new_at _
  obtain ⟨c, hrun, -⟩ := reads_u32 hsmall _ _ hfirst
  have hrange : rangeLen LAST_START PACK_CHUNK = 0 := by
    rw [rangeLen, LAST_START, PACK_CHUNK]
    omega
  rw [decodeChunk, (packQuads_spec heap elements LAST_START 0).1, hslice, hcount, packedEach, join_ok,
    decodedChunk, decodePacked, hrun, readCounted, hrange]
  rfl

/-- A chunk of accepted elements whose end is no later than the last start is read. -/
theorem decodeChunk_accepted (hlong : LAST_START < quads.elements.length)
    (haccepted : ∀ q ∈ sliceOf quads.elements 0 LAST_START, jsToQuad ox heap q ≠ none)
    (hfits : start + PACK_CHUNK ≤ LAST_START) :
    ∃ read, decodeChunk heap ox quads.elements start (start + PACK_CHUNK) = ⟨read, none⟩ := by
  have hlt := quads.length_lt
  have hpos : 0 < PACK_CHUNK := by
    rw [PACK_CHUNK]
    omega
  have hchunk := @decodeChunk_outcome heap ox quads.elements start (start + PACK_CHUNK) (by omega)
    (by omega) (by omega)
  cases hread : (sliceOf quads.elements start (start + PACK_CHUNK)).mapM (jsToQuad ox heap) with
  | some read => exact ⟨read, hchunk.accepted read hread⟩
  | none =>
    obtain ⟨q, hq, hnone⟩ := mapM_none_iff.mp hread
    refine absurd hnone (haccepted q ?_)
    rw [@sliceOf_cut 0 quads.elements start LAST_START (by omega) (by omega) (by omega),
      @sliceOf_cut start quads.elements (start + PACK_CHUNK) LAST_START (by omega) (by omega) (by omega)]
    exact List.mem_append_right _ (List.mem_append_left _ hq)

/-- Past the last chunk whose end fits 32 bits the next one starts over, without an end. -/
theorem jsArrayDecode_endless (hlong : LAST_START < quads.elements.length)
    (haccepted : ∀ q ∈ sliceOf quads.elements 0 LAST_START, jsToQuad ox heap q ≠ none) {fuel : ℕ}
    (haligned : start % PACK_CHUNK = 0) (hstart : start ≤ LAST_START) :
    jsArrayDecode heap ox quads fuel start = none := by
  induction fuel generalizing start with
  | zero => rfl
  | succ fuel ih =>
    obtain ⟨stop, hstop⟩ : ∃ stop, stop = chunkEnd start quads.elements.length := ⟨_, rfl⟩
    have hmore : start < quads.elements.length := Nat.lt_of_le_of_lt hstart hlong
    have hlt := quads.length_lt
    have hrest : ∃ read, decodeChunk heap ox quads.elements start stop = ⟨read, none⟩ ∧
        stop % PACK_CHUNK = 0 ∧ stop ≤ LAST_START := by
      rcases Nat.eq_or_lt_of_le hstart with hlast | hbefore
      · have hzero : stop = 0 := by
          rw [hstop, chunkEnd, hlast, LAST_START, PACK_CHUNK]
          omega
        rw [hzero, hlast]
        exact ⟨[], decodeChunk_wrapped _, Nat.zero_mod _, Nat.zero_le _⟩
      · have hend : stop = start + PACK_CHUNK := by
          rw [hstop, chunkEnd, LAST_START, PACK_CHUNK] at *
          omega
        have hfits : start + PACK_CHUNK ≤ LAST_START := by
          rw [LAST_START, PACK_CHUNK] at *
          omega
        obtain ⟨read, hread⟩ := decodeChunk_accepted hlong haccepted hfits
        rw [hend]
        exact ⟨read, hread, by rw [Nat.add_mod_right, haligned], hfits⟩
    obtain ⟨read, hdecoded, hmod, hle⟩ := hrest
    rw [jsArrayDecode, if_pos hmore]
    simp only [← hstop]
    rw [hdecoded, ih hmod hle]
    rfl

end Arrays

/-! ### Any bytes -/

section Bounds

variable {T U : Type} {bytes : Str}

/-- A cursor that has read only inside its buffer. -/
structure Cursor.Inside (c : Cursor) (bytes : Str) : Prop where
  same : c.bytes = bytes
  pos : c.pos ≤ bytes.length
  inReads : ∀ read ∈ c.reads, read.1 + read.2 ≤ bytes.length

/-- A reading that stays inside the buffer, and is past so many bytes where it does not fail. -/
def Stays (bytes : Str) (n : ℕ) (prog : Reading T) : Prop :=
  ∀ c : Cursor, c.Inside bytes → (prog c).2.Inside bytes ∧
    ∀ t, (prog c).1 = .ok t → c.pos + n ≤ (prog c).2.pos

theorem Stays.bind {n m : ℕ} {prog : Reading T} {next : T → Reading U} (h : Stays bytes n prog)
    (h' : ∀ t, Stays bytes m (next t)) : Stays bytes (n + m) (prog >>= next) := by
  intro c hc
  obtain ⟨hinside, hpos⟩ := h c hc
  rcases hrun : prog c with ⟨error | t, c'⟩
  · rw [hrun] at hinside
    rw [Prog.bind_error hrun]
    refine ⟨hinside, fun t ht => ?_⟩
    cases ht
  · rw [hrun] at hinside hpos
    rw [Prog.bind_ok hrun]
    obtain ⟨hinside', hpos'⟩ := h' t c' hinside
    refine ⟨hinside', fun u hu => ?_⟩
    have hfirst := hpos t rfl
    have hsecond := hpos' u hu
    simp only at hfirst
    omega

theorem Stays.mono {n m : ℕ} {prog : Reading T} (h : Stays bytes n prog) (hle : m ≤ n) :
    Stays bytes m prog := by
  intro c hc
  obtain ⟨hinside, hpos⟩ := h c hc
  refine ⟨hinside, fun t ht => ?_⟩
  have hfar := hpos t ht
  omega

theorem Stays.before {n : ℕ} {prog : Reading T} {next : T → Reading U} (h : Stays bytes n prog)
    (h' : ∀ t, Stays bytes 0 (next t)) : Stays bytes n (prog >>= next) := h.bind h'

theorem stays_pure (t : T) : Stays bytes 0 (pure t) := fun _ hc => ⟨hc, fun _ _ => le_rfl⟩

theorem stays_fail (error : JsError) : Stays bytes 0 (Prog.lift (.error error) : Reading T) :=
  fun _ hc => ⟨hc, fun _ _ => le_rfl⟩

theorem stays_take (len : ℕ) : Stays bytes len (take len) := by
  intro c hc
  rw [take]
  split_ifs with hfits
  · rw [hc.same] at hfits
    refine ⟨⟨hc.same, hfits, fun read hread => ?_⟩, fun _ _ => le_rfl⟩
    rcases List.mem_append.mp hread with hread | hread
    · exact hc.inReads read hread
    · obtain rfl := List.mem_singleton.mp hread
      exact hfits
  · refine ⟨hc, fun t ht => ?_⟩
    cases ht

theorem stays_u32 : Stays bytes 4 readU32 := (stays_take 4).before fun _ => stays_pure _

theorem stays_str : Stays bytes 4 readStr := by
  refine stays_u32.before fun len => ((stays_take len).before fun taken => ?_).mono (Nat.zero_le _)
  rw [validated]
  split
  · exact stays_pure _
  · exact stays_fail _

theorem stays_if (has : Bool) : Stays bytes 0 (readIf has) := by
  cases has with
  | false => exact stays_pure []
  | true => exact stays_str.mono (Nat.zero_le 4)

theorem stays_term (build : TermKind → Str → Str → Option T) : Stays bytes 1 (readTerm build) := by
  have htag : Stays bytes 1 readU8 := (stays_take 1).before fun _ => stays_pure _
  refine htag.before fun tag => ?_
  split
  · exact stays_pure none
  · exact (stays_if _).before fun _ => (stays_if _).before fun _ => stays_pure _

theorem stays_field (build : TermKind → Str → Str → Option T) (i : ℕ) :
    Stays bytes 1 (readTerm build >>= orInvalid i) := by
  refine (stays_term build).before fun term => ?_
  cases term with
  | none => exact stays_fail _
  | some t => exact stays_pure t

theorem stays_quad (ox : Oxrdf) (i : ℕ) : Stays bytes 4 (readQuad ox i) := by
  rw [readQuad_eq]
  exact (stays_field _ i).bind fun s => (stays_field _ i).bind fun p =>
    (stays_field _ i).bind fun o => (stays_field _ i).before fun g => stays_pure (Quad.mk s p o g)

theorem readEach_inside (ox : Oxrdf) {count i : ℕ} {c : Cursor} (hc : c.Inside bytes) :
    (readEach ox count i c).2.Inside bytes ∧
      c.pos + 4 * (readEach ox count i c).1.quads.length ≤ bytes.length := by
  induction count generalizing i c with
  | zero => exact ⟨hc, hc.pos⟩
  | succ count ih =>
    obtain ⟨hinside, hpos⟩ := stays_quad ox i c hc
    rw [readEach]
    rcases hrun : readQuad ox i c with ⟨error | quad, c'⟩
    · rw [hrun] at hinside
      exact ⟨hinside, hc.pos⟩
    · rw [hrun] at hinside hpos
      obtain ⟨hrest, hfar⟩ := @ih (i + 1) c' hinside
      refine ⟨hrest, ?_⟩
      have hnext := hpos quad rfl
      show c.pos + 4 * ((readEach ox count (i + 1) c').1.quads.length + 1) ≤ bytes.length
      simp only at hnext
      omega

/-- Whatever the bytes, only they are read, and no more quads than they have bytes for. -/
theorem readInside (ox : Oxrdf) (bytes : Str) (first : ℕ) :
    (∀ read ∈ (decodePacked ox bytes first).2.reads, read.1 + read.2 ≤ bytes.length) ∧
      4 * (decodePacked ox bytes first).1.quads.length ≤ bytes.length := by
  have hnew : Cursor.Inside ⟨bytes, 0, []⟩ bytes :=
    ⟨rfl, Nat.zero_le _, fun read hread => absurd hread List.not_mem_nil⟩
  obtain ⟨hinside, -⟩ := stays_u32 _ hnew
  rw [decodePacked]
  rcases hrun : readU32 ⟨bytes, 0, []⟩ with ⟨error | n, c⟩
  · rw [hrun] at hinside
    exact ⟨hinside.inReads, Nat.zero_le _⟩
  · rw [hrun] at hinside
    obtain ⟨hrest, hfar⟩ := @readEach_inside bytes ox (rangeLen first n) first c hinside
    refine ⟨hrest.inReads, ?_⟩
    show 4 * (readEach ox (rangeLen first n) first c).1.quads.length ≤ bytes.length
    omega

end Bounds

/-! ### Bulk ingestion -/

section Ingestion

variable {heap : Heap} {ox : Oxrdf} {quads : JsArray}

/-- An array ingested as its elements are read one by one: all their quads, in order, or a
refusal that names an element that is none. -/
def IngestsExactly (heap : Heap) (ox : Oxrdf) (quads : JsArray) : Prop :=
  (∀ read, quads.elements.mapM (jsToQuad ox heap) = some read →
    ∃ fuel, jsArrayDecode heap ox quads fuel 0 = some ⟨read, none⟩) ∧
  (quads.elements.mapM (jsToQuad ox heap) = none → ∃ fuel emitted i q,
    jsArrayDecode heap ox quads fuel 0 = some ⟨emitted, some (.invalidQuad i)⟩ ∧
      quads.elements[i]? = some q ∧ jsToQuad ox heap q = none)

theorem ingestsExactly_of_outcome {fuel : ℕ} {d : Decoded}
    (hrun : jsArrayDecode heap ox quads fuel 0 = some d) (h : Outcome ox heap quads.elements 0 d) :
    IngestsExactly heap ox quads := by
  constructor
  · intro read hread
    exact ⟨fuel, h.accepted read hread ▸ hrun⟩
  · intro hnone
    obtain ⟨emitted, i, q, rfl, hat, hrefused⟩ := h.refused hnone
    rw [Nat.zero_add] at hrun
    exact ⟨fuel, emitted, i, q, hrun, hat, hrefused⟩

theorem not_ingestsExactly (h : ∀ fuel, jsArrayDecode heap ox quads fuel 0 = none) :
    ¬IngestsExactly heap ox quads := by
  rintro ⟨haccepted, hrefused⟩
  cases hread : quads.elements.mapM (jsToQuad ox heap) with
  | some read =>
    obtain ⟨fuel, hrun⟩ := haccepted read hread
    rw [h fuel] at hrun
    cases hrun
  | none =>
    obtain ⟨fuel, _, _, _, hrun, -⟩ := hrefused hread
    rw [h fuel] at hrun
    cases hrun

theorem sliceOf_zero (elements : List JsValue) (stop : ℕ) :
    sliceOf elements 0 stop = elements.take stop := by
  rw [sliceOf, List.drop_zero, Nat.sub_zero]

/-- **Bulk ingestion reads what the single-quad reader does, of an array whose chunks' ends
fit 32 bits.** The packer's writes lie in the capacity ensured for them, no string is cut,
and the cursor reads only inside its buffer, whatever that holds. An array is ingested
exactly as its elements are read one by one, or refused by the index of a refused one, if and
only if it has no more elements than the start of the last such chunk, or one before that
start is refused: past it the end of a chunk would wrap and the array start over, though what
the callers make of the quads outgrows a 32-bit memory long before. -/
theorem packedIngest_iff (heap : Heap) (ox : Oxrdf) (quads : JsArray) :
    (IngestsExactly heap ox quads ∧
      (∀ start stop, ∀ w ∈ (packQuads heap quads.elements start stop).2.writes, w.Whole) ∧
      ∀ bytes first,
        (∀ read ∈ (decodePacked ox bytes first).2.reads, read.1 + read.2 ≤ bytes.length) ∧
          4 * (decodePacked ox bytes first).1.quads.length ≤ bytes.length) ↔
      quads.elements.length ≤ LAST_START ∨
        ∃ q ∈ quads.elements.take LAST_START, jsToQuad ox heap q = none := by
  constructor
  · rintro ⟨hexact, -⟩
    by_contra hnot
    rw [not_or] at hnot
    obtain ⟨hlong, hnone⟩ := hnot
    have haccepted : ∀ q ∈ sliceOf quads.elements 0 LAST_START, jsToQuad ox heap q ≠ none := by
      intro q hq hrefused
      rw [sliceOf_zero] at hq
      exact hnone ⟨q, hq, hrefused⟩
    refine not_ingestsExactly (fun fuel => ?_) hexact
    exact jsArrayDecode_endless (Nat.lt_of_not_le hlong) haccepted (Nat.zero_mod _) (Nat.zero_le _)
  · intro h
    refine ⟨?_, fun start stop => (packQuads_spec heap quads.elements start stop).2, readInside ox⟩
    rw [← sliceOf_zero] at h
    obtain ⟨fuel, d, hrun, houtcome⟩ :=
      jsArrayDecode_outcome (.inl (Nat.zero_mod _)) (.inl (Nat.zero_le _)) h
    exact ingestsExactly_of_outcome hrun houtcome

end Ingestion

/-! ### An array that is too long -/

namespace LongArray

theorem fits (text : List Char) (h : (Utf16.utf8 text).length < 2 ^ 32) :
    (Utf16.utf8 (chars (utf16 text))).length < 2 ^ 32 := by rwa [Utf16.chars_utf16]

def namedNode : JsString := ⟨utf16 "NamedNode".toList, fits _ (by decide)⟩

def iri : JsString := ⟨utf16 "urn:p".toList, fits _ (by decide)⟩

/-- A node, and a quad of it thrice in the default graph. -/
def heap : Heap := fun id key =>
  match id, key with
  | 0, .termType => .string namedNode
  | 0, .value => .string iri
  | 1, .subject => .object 0
  | 1, .predicate => .object 0
  | 1, .object => .object 0
  | _, _ => .undefined

theorem accepted : (jsToQuad ntriples heap (.object 1)).isSome = true := by
  decide

theorem length_lt : (List.replicate (LAST_START + 1) (JsValue.object 1)).length < 2 ^ 32 := by
  rw [List.length_replicate, LAST_START, PACK_CHUNK]
  omega

/-- One more element than the chunks whose ends fit 32 bits hold, each the same quad. -/
def quads : JsArray := ⟨List.replicate (LAST_START + 1) (.object 1), length_lt⟩

theorem eq_of_mem {q : JsValue} (h : q ∈ quads.elements) : q = .object 1 :=
  List.eq_of_mem_replicate h

end LongArray

/-- Every element of the long array is read alone, and the array is not ingested. -/
theorem packedIngest_endless :
    (∀ q ∈ LongArray.quads.elements, (jsToQuad ntriples LongArray.heap q).isSome = true) ∧
      ¬IngestsExactly LongArray.heap ntriples LongArray.quads := by
  refine ⟨fun q hq => ?_, not_ingestsExactly fun fuel => ?_⟩
  · rw [LongArray.eq_of_mem hq]
    exact LongArray.accepted
  · refine jsArrayDecode_endless ?_ (fun q hq hrefused => ?_) (Nat.zero_mod _) (Nat.zero_le _)
    · rw [LongArray.quads, List.length_replicate]
      exact Nat.lt_succ_self _
    · have hmem : q ∈ LongArray.quads.elements := by
        rw [sliceOf_zero] at hq
        exact List.mem_of_mem_take hq
      have haccepted := LongArray.accepted
      rw [LongArray.eq_of_mem hmem] at hrefused
      rw [hrefused] at haccepted
      cases haccepted

end Js
