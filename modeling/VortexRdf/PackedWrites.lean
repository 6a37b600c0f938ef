/-
What the packer of quad arrays writes: the terms the single-quad reader reads.

* `Packer.Holds`, `Write.Whole` — a packer's bytes so far, its room, its writes;
* `Writes` — a packing that adds some bytes, or fails;
* `writes_ensure`, `writes_str` — room for a string, and the string whole;
* `writes_literal`, `writes_term` — a term is packed as its parts, or refused with them;
* `writes_packing` — the same of a range of an array.
-/
import VortexRdf.PackedQuads

namespace Js

open Utf16 (chars utf16 encodeInto fromUtf8)
open Terms Programs
open Records (leBytes ofLe length_leBytes)

/-! ### The packer's bytes -/

/-- A write that lies inside the capacity and is not cut. -/
structure Write.Whole (w : Write) : Prop where
  inside : w.pos + w.wanted ≤ w.capacity
  uncut : w.written = w.wanted

structure Packer.Holds (p : Packer) (packed : Str) (room : ℕ) : Prop where
  bytes : p.buf.take p.pos = packed
  room : p.pos + room ≤ p.buf.length
  cap : 0 < p.buf.length
  writes : ∀ w ∈ p.writes, w.Whole

/-- After a packing: the bytes it added, or only its writes where it failed. -/
def Packer.After (p : Packer) (packed : Str) : Except JsError Str → Prop
  | .ok bytes => p.Holds (packed ++ bytes) 0
  | .error _ => ∀ w ∈ p.writes, w.Whole

/-- A packing that adds the expected bytes, or fails as expected. -/
def Writes (prog : Packing) (expected : Except JsError Str) : Prop :=
  ∀ packed p, p.Holds packed 0 →
    ∃ p', prog p = (expected.map fun _ => (), p') ∧ p'.After packed expected

/-- One packing's bytes behind another's. -/
def join (first second : Except JsError Str) : Except JsError Str :=
  first.bind fun bytes => second.map (bytes ++ ·)

section Packing

variable {p p' : Packer} {packed : Str} {n room : ℕ}

theorem Packer.Holds.pos (h : p.Holds packed room) : p.pos = packed.length := by
  have hroom := h.room
  rw [← h.bytes, List.length_take]
  omega

theorem doubled_holds {fuel cap need : ℕ} (hcap : 0 < cap) (hfuel : need ≤ cap + fuel) :
    need ≤ doubled fuel cap need := by
  induction fuel generalizing cap with
  | zero => exact hfuel
  | succ fuel ih =>
    rw [doubled]
    split_ifs with hless
    · exact ih (by omega) (by omega)
    · omega

theorem holds_ensured (h : p.Holds packed room) (n : ℕ) : (p.ensured n).Holds packed n := by
  rw [Packer.ensured]
  split_ifs with hfits
  · exact ⟨h.bytes, hfits, h.cap, h.writes⟩
  · -- a new buffer, as many times as long as it takes, with the bytes so far
    have hroom := h.room
    have hcap := h.cap
    have hneed : p.pos + n ≤ doubled (p.pos + n) (p.buf.length * 2) (p.pos + n) :=
      doubled_holds (by omega) (by omega)
    have htake : (p.buf.take p.pos).length = p.pos := by
      rw [List.length_take]
      omega
    refine ⟨?_, ?_, ?_, h.writes⟩
    · show (p.buf.take p.pos ++ _).take p.pos = packed
      rw [List.take_left' htake]
      exact h.bytes
    · show p.pos + n ≤ (p.buf.take p.pos ++ List.replicate _ 0).length
      rw [List.length_append, htake, List.length_replicate]
      omega
    · show 0 < (p.buf.take p.pos ++ List.replicate _ 0).length
      rw [List.length_append, htake, List.length_replicate]
      omega

theorem length_over {start : ℕ} {bytes : Str} (h : start + bytes.length ≤ p.buf.length) :
    (p.over start bytes).length = p.buf.length := by
  have htake : (p.buf.take start).length = start := by
    rw [List.length_take]
    omega
  rw [Packer.over, List.length_append, List.length_append, htake, List.length_drop]
  omega

theorem whole_concat {writes : List Write} {w : Write} (h : ∀ w ∈ writes, w.Whole) (hw : w.Whole) :
    ∀ w' ∈ writes ++ [w], w'.Whole := by
  intro w' hw'
  rcases List.mem_append.mp hw' with hw' | hw'
  · exact h w' hw'
  · rw [List.mem_singleton.mp hw']
    exact hw

/-- Bytes written at the position, where there is room for them. -/
theorem holds_over (h : p.Holds packed (n + room)) {bytes : Str} (hlen : bytes.length = n)
    {writes : List Write} (hwrites : ∀ w ∈ writes, w.Whole) :
    (Packer.mk (p.over p.pos bytes) (p.pos + n) writes).Holds (packed ++ bytes) room := by
  have hroom := h.room
  have htake : (p.buf.take p.pos).length = p.pos := by
    rw [List.length_take]
    omega
  have hfront : (p.buf.take p.pos ++ bytes).length = p.pos + n := by
    rw [List.length_append, htake, hlen]
  have hall : (p.over p.pos bytes).length = p.buf.length := length_over (by omega)
  refine ⟨?_, ?_, ?_, hwrites⟩
  · show (p.over p.pos bytes).take (p.pos + n) = _
    rw [Packer.over, List.take_left' hfront, h.bytes]
  · show p.pos + n + room ≤ (p.over p.pos bytes).length
    omega
  · show 0 < (p.over p.pos bytes).length
    rw [hall]
    exact h.cap

variable {expected : Except JsError Str}

theorem Writes.run {prog : Packing} (h : Writes prog expected)
    (hp : p.Holds packed 0) :
    ∃ p', prog p = (expected.map fun _ => (), p') ∧ p'.After packed expected := h packed p hp

theorem Writes.bind {first second : Packing} {expected' : Except JsError Str}
    (h : Writes first expected) (h' : Writes second expected') :
    Writes (first >>= fun _ => second) (join expected expected') := by
  intro packed p hp
  obtain ⟨p₁, hrun, hafter⟩ := h packed p hp
  cases expected with
  | error error => exact ⟨p₁, Prog.bind_error hrun, hafter⟩
  | ok bytes =>
    obtain ⟨p₂, hrun', hafter'⟩ := h' _ p₁ hafter
    refine ⟨p₂, (Prog.bind_ok hrun).trans ?_, ?_⟩
    · rw [hrun']
      cases expected' <;> rfl
    · cases expected' with
      | error error => exact hafter'
      | ok bytes' =>
        show p₂.Holds (packed ++ (bytes ++ bytes')) 0
        rw [← List.append_assoc]
        exact hafter'

theorem writes_refuse (i : ℕ) : Writes (refuse i) (.error (.invalidQuad i)) :=
  fun _ p hp => ⟨p, rfl, hp.writes⟩

theorem writes_nothing : Writes (pure ()) (.ok []) := by
  intro packed p hp
  refine ⟨p, rfl, ?_⟩
  show p.Holds (packed ++ []) 0
  rwa [List.append_nil]

/-- Room made for what writes within it. -/
theorem writes_ensure {prog : Packing}
    (h : ∀ packed p, p.Holds packed n →
      ∃ p', prog p = (expected.map fun _ => (), p') ∧ p'.After packed expected) :
    Writes (ensure n >>= fun _ => prog) expected := by
  intro packed p hp
  have hrun : ensure n p = (.ok (), p.ensured n) := rfl
  rw [Prog.bind_ok hrun]
  exact h packed _ (holds_ensured hp n)

theorem set_eq_over (hpos : p.pos < p.buf.length) (byte : UInt8) :
    p.buf.set p.pos byte = p.over p.pos [byte] := by
  rw [Packer.over, List.set_eq_take_append_cons_drop, if_pos hpos]
  simp

theorem putByte_run (h : p.Holds packed (1 + room)) (byte : UInt8) :
    ∃ p', putByte byte p = (.ok (), p') ∧ p'.Holds (packed ++ [byte]) room := by
  have hroom := h.room
  have hpos : p.pos < p.buf.length := by omega
  refine ⟨_, rfl, ?_⟩
  rw [set_eq_over hpos, if_pos hpos]
  exact holds_over h rfl (whole_concat h.writes ⟨hpos, rfl⟩)

theorem writes_tag (kind : TermKind) : Writes (packTag kind) (.ok [kind.tag]) :=
  writes_ensure fun _ _ hp => putByte_run hp kind.tag

/-- The length of a string, and the string. -/
def field (s : Str) : Str := leBytes 4 s.length ++ s

def packedStr (v : JsValue) (i : ℕ) : Except JsError Str :=
  match v.asString with
  | some text => .ok (field (utf8 text))
  | none => .error (.invalidQuad i)

theorem writes_u32 (v : ℤ) : Writes (packU32 v) (.ok (leBytes 4 (toUint32 v))) := by
  refine writes_ensure fun packed p hp => ?_
  have hroom := hp.room
  obtain ⟨p₁, hp₁⟩ : ∃ p₁ : Packer, p₁ = { p with
      buf := p.over p.pos (leBytes 4 (toUint32 v))
      writes := p.writes ++ [⟨p.pos, 4, 4, p.buf.length⟩] } := ⟨_, rfl⟩
  have hset : setU32 (toUint32 v) p = (.ok (), p₁) := by
    rw [setU32, if_pos hroom, hp₁]
  refine ⟨{ p₁ with pos := p₁.pos + 4 }, Prog.bind_ok hset, ?_⟩
  rw [hp₁]
  exact holds_over hp (length_leBytes 4 _) (whole_concat hp.writes ⟨hroom, rfl⟩)

theorem Packer.Holds.mono (h : p.Holds packed room) (hle : n ≤ room) : p.Holds packed n :=
  ⟨h.bytes, by have hroom := h.room; omega, h.cap, h.writes⟩

/-- A text behind its length, written before it. -/
theorem over_over {start : ℕ} {front back : Str} (hfits : start + front.length ≤ p.buf.length)
    {p' : Packer} (hp' : p'.buf = p.over (start + front.length) back) :
    p'.over start front = p.over start (front ++ back) := by
  have htake : (p.buf.take (start + front.length)).length = start + front.length := by
    rw [List.length_take]
    omega
  have hstart : p'.buf.take start = p.buf.take start := by
    rw [hp', Packer.over, List.append_assoc, List.take_append_of_le_length (by omega),
      List.take_take, min_eq_left (by omega)]
  have hend : p'.buf.drop (start + front.length) =
      back ++ p.buf.drop (start + front.length + back.length) := by
    rw [hp', Packer.over, List.append_assoc, List.drop_left' htake]
  rw [Packer.over, hstart, hend, Packer.over, List.length_append, Nat.add_assoc start]
  simp only [List.append_assoc]

/-- A text is written whole, and then its length before it. -/
theorem writes_string (s : JsString) (i : ℕ) :
    Writes (packStr (.string s) i) (.ok (field (utf8 (chars s.units)))) := by
  refine writes_ensure fun packed p hp => ?_
  have hroom := hp.room
  have hlen : (utf8 (chars s.units)).length ≤ 3 * s.units.length := Utf16.length_utf8_chars s.units
  have hencode : encodeInto (chars s.units) (p.buf.length - (p.pos + 4)) = utf8 (chars s.units) :=
    Utf16.encodeInto_eq (Nat.le_trans hlen (by omega))
  obtain ⟨written, hwritten⟩ : ∃ written, written = utf8 (chars s.units) := ⟨_, rfl⟩
  rw [← hwritten] at hlen
  -- there is room for three bytes a unit, so nothing is cut
  have htext : p.pos + 4 + written.length ≤ p.buf.length := by omega
  obtain ⟨p₁, hp₁⟩ : ∃ p₁ : Packer, p₁ = { p with
      buf := p.over (p.pos + 4) written
      writes := p.writes ++ [⟨p.pos + 4, written.length, written.length, p.buf.length⟩] } :=
    ⟨_, rfl⟩
  have hrun₁ : encodeText (chars s.units) p = (.ok written.length, p₁) := by
    rw [hp₁]
    simp only [encodeText, hencode, ← hwritten]
  have hlen₁ : p₁.buf.length = p.buf.length := by
    rw [hp₁]
    exact length_over htext
  have hpos₁ : p₁.pos = p.pos := by rw [hp₁]
  have hinside : p₁.pos + 4 ≤ p₁.buf.length := by omega
  obtain ⟨p₂, hp₂⟩ : ∃ p₂ : Packer, p₂ = { p₁ with
      buf := p₁.over p₁.pos (leBytes 4 written.length)
      writes := p₁.writes ++ [⟨p₁.pos, 4, 4, p₁.buf.length⟩] } := ⟨_, rfl⟩
  have hrun₂ : setU32 written.length p₁ = (.ok (), p₂) := by
    rw [setU32, if_pos hinside, hp₂]
  refine ⟨{ p₂ with pos := p₂.pos + (4 + written.length) }, ?_, ?_⟩
  · rw [Prog.bind_ok hrun₁, Prog.bind_ok hrun₂]
    rfl
  · have hover : p₁.over p.pos (leBytes 4 written.length) =
        p.over p.pos (leBytes 4 written.length ++ written) := by
      refine over_over ?_ ?_
      · rw [length_leBytes]
        omega
      · rw [hp₁, length_leBytes]
    have hbuf : p₂.buf = p.over p.pos (leBytes 4 written.length ++ written) := by
      rw [hp₂]
      show p₁.over p₁.pos _ = _
      rw [hpos₁, hover]
    have hpos₂ : p₂.pos = p.pos := by rw [hp₂, hpos₁]
    have hwrites₁ : ∀ w ∈ p₁.writes, w.Whole := by
      rw [hp₁]
      exact whole_concat hp.writes ⟨htext, rfl⟩
    have hwrites : ∀ w ∈ p₂.writes, w.Whole := by
      rw [hp₂]
      exact whole_concat hwrites₁ ⟨hinside, rfl⟩
    have hfield : (leBytes 4 written.length ++ written).length = 4 + written.length := by
      rw [List.length_append, length_leBytes]
    show Packer.Holds _ (packed ++ field (utf8 (chars s.units))) 0
    rw [← hwritten, field, hbuf, hpos₂]
    exact holds_over (hp.mono (by omega)) hfield hwrites

/-- A string is written whole, behind its length. -/
theorem writes_str (v : JsValue) (i : ℕ) : Writes (packStr v i) (packedStr v i) := by
  cases v with
  | string s => exact writes_string s i
  | undefined | null | boolean b | number bits | object id | function id => exact writes_refuse i

end Packing

/-! ### Terms -/

/-- A term's parts as they are packed. -/
def encoded : TermParts → Str
  | (kind, value, extra) =>
    kind.tag :: ((if kind.hasValue then field value else []) ++
      if kind.hasExtra then field extra else [])

/-- The bytes of a term, or the refusal of one that has no parts. -/
def packedParts (parts : Option TermParts) (i : ℕ) : Except JsError Str :=
  match parts with
  | some parts => .ok (encoded parts)
  | none => .error (.invalidQuad i)

section Terms

variable {heap : Heap} {t : JsValue} {i : ℕ}

theorem isText_iff {v : JsValue} {text : String} (h : ∀ c ∈ text.toList, c.toNat < 0x80) :
    v.isText text = true ↔ v.asString = some text.toList := by
  cases v with
  | string s =>
    rw [JsValue.isText, JsValue.asString, decide_eq_true_eq, Option.some_inj]
    constructor
    · intro hunits
      rw [hunits, Utf16.chars_utf16]
    · intro hchars
      exact Utf16.chars_ascii hchars h
  | undefined => simp [JsValue.isText, JsValue.asString]
  | null => simp [JsValue.isText, JsValue.asString]
  | boolean b => simp [JsValue.isText, JsValue.asString]
  | number bits => simp [JsValue.isText, JsValue.asString]
  | object id => simp [JsValue.isText, JsValue.asString]
  | function id => simp [JsValue.isText, JsValue.asString]

theorem chars_isEmpty (units : List UInt16) : (chars units).isEmpty = units.isEmpty := by
  cases units with
  | nil => rfl
  | cons u units =>
    cases units with
    | nil => rw [Utf16.chars_singleton, List.isEmpty_cons, List.isEmpty_cons]
    | cons v units =>
      rw [chars]
      split_ifs
      · rw [List.isEmpty_cons, List.isEmpty_cons]
      · rw [List.isEmpty_cons, List.isEmpty_cons]

/-- A language or an IRI is read where it is truthy and a string. -/
theorem literalExtra_eq (v : JsValue) : literalExtra (some v) =
    if v.isFalsy then some none else v.asString.map fun text => some (utf8 text) := by
  cases v with
  | string s =>
    have hempty := chars_isEmpty s.units
    cases hnone : (chars s.units).isEmpty <;>
      simp [literalExtra, JsValue.asString, JsValue.isFalsy, ← hempty, hnone]
  | undefined => rfl
  | null => rfl
  | boolean b => cases b <;> rfl
  | number bits =>
    cases hzero : JsValue.isZeroOrNaN bits <;>
      simp [literalExtra, JsValue.asString, JsValue.isFalsy, hzero]
  | object id => rfl
  | function id => rfl

/-- The packing of a literal by its value, its language and its datatype's IRI. -/
theorem packLiteral_eq : packLiteral heap t i =
    if !(member heap t .language).isFalsy then packTag .langLiteral >>= fun _ =>
      packStr (member heap t .value) i >>= fun _ => packStr (member heap t .language) i
    else if !(member heap t .datatype).isFalsy && !(member heap t .datatype).isObject then
      ensure 1 >>= fun _ => refuse i
    else if !(jsIri heap (member heap t .datatype)).isFalsy then packTag .typedLiteral >>= fun _ =>
      packStr (member heap t .value) i >>= fun _ => packStr (jsIri heap (member heap t .datatype)) i
    else packTag .simpleLiteral >>= fun _ => packStr (member heap t .value) i := by
  rw [packLiteral]
  simp only [packTag, bind_assoc]
  split_ifs <;> rfl

theorem packedStr_some {v : JsValue} {text : List Char} (h : v.asString = some text) (i : ℕ) :
    packedStr v i = .ok (field (utf8 text)) := by rw [packedStr, h]

theorem packedStr_none {v : JsValue} (h : v.asString = none) (i : ℕ) :
    packedStr v i = .error (.invalidQuad i) := by rw [packedStr, h]

theorem join_ok (first second : Str) : join (.ok first) (.ok second) = .ok (first ++ second) := rfl

theorem join_error (first : Str) (error : JsError) :
    join (.ok first) (.error error) = .error error := rfl

theorem error_join (error : JsError) (second : Except JsError Str) :
    join (.error error) second = .error error := rfl

/-- A kind that has a value and an extra. -/
theorem writes_pair {kind : TermKind} (hvalue : kind.hasValue = true) (hextra : kind.hasExtra = true)
    (v extra : JsValue) (i : ℕ) :
    Writes (packTag kind >>= fun _ => packStr v i >>= fun _ => packStr extra i)
      (packedParts (v.asString.bind fun value => extra.asString.map fun extra =>
        (kind, utf8 value, utf8 extra)) i) := by
  have hwrites := (writes_tag kind).bind ((writes_str v i).bind (writes_str extra i))
  cases hv : v.asString with
  | none =>
    rw [packedStr_none hv, error_join, join_error] at hwrites
    exact hwrites
  | some value =>
    rw [packedStr_some hv] at hwrites
    cases he : extra.asString with
    | none =>
      rw [packedStr_none he, join_error, join_error] at hwrites
      exact hwrites
    | some extra =>
      rw [packedStr_some he, join_ok, join_ok] at hwrites
      rw [Option.bind_some, Option.map_some, packedParts, encoded, hvalue, hextra, if_pos rfl,
        if_pos rfl]
      exact hwrites

/-- A kind that has a value and no extra. -/
theorem writes_value {kind : TermKind} (hvalue : kind.hasValue = true)
    (hextra : kind.hasExtra = false) (v : JsValue) (i : ℕ) :
    Writes (packTag kind >>= fun _ => packStr v i)
      (packedParts (v.asString.map fun value => (kind, utf8 value, [])) i) := by
  have hwrites := (writes_tag kind).bind (writes_str v i)
  cases hv : v.asString with
  | none =>
    rw [packedStr_none hv, join_error] at hwrites
    exact hwrites
  | some value =>
    rw [packedStr_some hv, join_ok] at hwrites
    rw [Option.map_some, packedParts, encoded, hvalue, hextra, if_pos rfl,
      if_neg Bool.false_ne_true, List.append_nil]
    exact hwrites

/-- Whether a value has properties of its own. -/
def HasProps (heap : Heap) (t : JsValue) : Prop :=
  ∀ key, getProp heap t key = some (member heap t key)

theorem literalParts_eq (h : HasProps heap t) : literalParts heap t =
    if !(member heap t .language).isFalsy then
      (member heap t .value).asString.bind fun value =>
        (member heap t .language).asString.map fun language =>
          (.langLiteral, utf8 value, utf8 language)
    else if !(member heap t .datatype).isFalsy && !(member heap t .datatype).isObject then none
    else if !(jsIri heap (member heap t .datatype)).isFalsy then
      (member heap t .value).asString.bind fun value =>
        (jsIri heap (member heap t .datatype)).asString.map fun iri =>
          (.typedLiteral, utf8 value, utf8 iri)
    else (member heap t .value).asString.map fun value => (.simpleLiteral, utf8 value, []) := by
  have hiri : ∀ datatype : JsValue, datatypeIri heap datatype =
      if !datatype.isFalsy && !datatype.isObject then none
      else literalExtra (some (jsIri heap datatype)) := by
    intro datatype
    cases datatype with
    | object id => rfl
    | undefined => rfl
    | null => rfl
    | boolean b => cases b <;> rfl
    | function id => rfl
    | number bits =>
      cases hzero : JsValue.isZeroOrNaN bits <;>
        simp [datatypeIri, jsIri, literalExtra_eq, JsValue.isObject, JsValue.isFalsy, hzero]
    | string s =>
      cases hnone : s.units.isEmpty <;>
        simp [datatypeIri, jsIri, literalExtra_eq, JsValue.isObject, JsValue.isFalsy, hnone]
  rw [literalParts, h, h, h]
  cases hv : (member heap t .value).asString with
  | none =>
    simp [hv]
  | some value =>
    simp only [hiri, literalExtra_eq, Option.bind_eq_bind, Option.bind_some, hv]
    cases hlanguage : (member heap t .language).isFalsy with
    | false =>
      cases (member heap t .language).asString <;> rfl
    | true =>
      cases hbad : !(member heap t .datatype).isFalsy && !(member heap t .datatype).isObject with
      | true => simp
      | false =>
        cases hfalsy : (jsIri heap (member heap t .datatype)).isFalsy with
        | true => simp
        | false => cases (jsIri heap (member heap t .datatype)).asString <;> simp

theorem writes_literal (h : HasProps heap t) :
    Writes (packLiteral heap t i) (packedParts (literalParts heap t) i) := by
  rw [packLiteral_eq, literalParts_eq h]
  split_ifs
  · exact writes_pair rfl rfl _ _ i
  · refine writes_ensure fun _ p hp => ⟨p, rfl, hp.writes⟩
  · exact writes_pair rfl rfl _ _ i
  · exact writes_value rfl rfl _ i

theorem valueParts_eq (h : HasProps heap t) (kind : TermKind) : valueParts heap t kind =
    (member heap t .value).asString.map fun value => (kind, utf8 value, []) := by
  rw [valueParts, h]
  cases hv : (member heap t .value).asString <;> simp [hv]

theorem jsTermType_eq (h : HasProps heap t) (hnullish : t.isNullish = false) :
    jsTermType heap t = member heap t .termType ∧
      termTypeOf heap t = (jsTermType heap t).asString := by
  have htype : jsTermType heap t = member heap t .termType := by
    rw [jsTermType, hnullish, if_neg Bool.false_ne_true]
  rw [termTypeOf, h, htype]
  exact ⟨rfl, rfl⟩

/-- A value is an object's or a function's, is absent, or has no properties at all. -/
theorem value_cases (heap : Heap) (t : JsValue) : HasProps heap t ∧ t.isNullish = false ∨
    t.isNullish = true ∨
      t.isNullish = false ∧ (∀ key, getProp heap t key = none) ∧
        ∀ key, member heap t key = .undefined := by
  cases t with
  | undefined => exact .inr (.inl rfl)
  | null => exact .inr (.inl rfl)
  | object id => exact .inl ⟨fun _ => rfl, rfl⟩
  | function id => exact .inl ⟨fun _ => rfl, rfl⟩
  | boolean b => exact .inr (.inr ⟨rfl, fun _ => rfl, fun _ => rfl⟩)
  | number bits => exact .inr (.inr ⟨rfl, fun _ => rfl, fun _ => rfl⟩)
  | string s => exact .inr (.inr ⟨rfl, fun _ => rfl, fun _ => rfl⟩)

/-- The names of the term types, all ASCII. -/
theorem termTypes_ascii : ∀ text ∈ ["NamedNode", "BlankNode", "Literal", "DefaultGraph"],
    ∀ c ∈ text.toList, c.toNat < 0x80 := by
  have hall : ["NamedNode", "BlankNode", "Literal", "DefaultGraph"].all
      (fun text => text.toList.all fun c => decide (c.toNat < 0x80)) = true := by decide
  intro text htext c hc
  exact of_decide_eq_true (List.all_eq_true.mp (List.all_eq_true.mp hall text htext) c hc)

theorem writes_defaultGraph (i : ℕ) :
    Writes (packTag .defaultGraph) (packedParts (some DEFAULT_GRAPH) i) :=
  writes_tag .defaultGraph

/-- A term is packed as its parts, and refused where it has none. -/
theorem writes_term (heap : Heap) (t : JsValue) (i : ℕ) :
    Writes (packTerm heap t i) (packedParts (termParts heap t) i) := by
  rcases value_cases heap t with ⟨hprops, hnullish⟩ | hnullish | ⟨hnullish, hget, hmember⟩
  · obtain ⟨-, htype⟩ := jsTermType_eq hprops hnullish
    have htext : ∀ text ∈ ["NamedNode", "BlankNode", "Literal", "DefaultGraph"],
        ((jsTermType heap t).isText text = true ↔ termTypeOf heap t = some text.toList) :=
      fun text hmem => htype ▸ isText_iff (termTypes_ascii text hmem)
    rw [packTerm, termParts, hnullish]
    simp only [htext "NamedNode" (by simp), htext "BlankNode" (by simp), htext "Literal" (by simp),
      htext "DefaultGraph" (by simp), Bool.false_eq_true, if_false]
    cases termTypeOf heap t with
    | none => exact writes_refuse i
    | some name =>
      simp only [Option.some_inj]
      split_ifs
      · rw [valueParts_eq hprops]
        exact writes_value rfl rfl _ i
      · rw [valueParts_eq hprops]
        exact writes_value rfl rfl _ i
      · exact writes_literal hprops
      · exact writes_defaultGraph i
      · exact writes_refuse i
  · have hparts : termParts heap t = some DEFAULT_GRAPH := by rw [termParts, if_pos hnullish]
    have htext : ∀ text, (jsTermType heap t).isText text = false := by
      intro text
      rw [jsTermType, if_pos hnullish]
      rfl
    rw [packTerm, hparts]
    simp only [htext, hnullish, Bool.false_eq_true, if_false, if_true]
    exact writes_defaultGraph i
  · have hparts : termParts heap t = none := by
      rw [termParts, hnullish, if_neg Bool.false_ne_true, termTypeOf, hget]
      rfl
    have htext : ∀ text, (jsTermType heap t).isText text = false := by
      intro text
      rw [jsTermType, hnullish, if_neg Bool.false_ne_true, hmember]
      rfl
    rw [packTerm, hparts]
    simp only [htext, hnullish, Bool.false_eq_true, if_false]
    exact writes_refuse i

end Terms

/-! ### Quads -/

section Quads

variable (heap : Heap)

/-- The bytes of a quad, or its refusal. -/
def packedQuad (q : JsValue) (i : ℕ) : Except JsError Str :=
  if q.isFalsy then .error (.invalidQuad i)
  else
    join (packedParts (termParts heap (member heap q .subject)) i)
      (join (packedParts (termParts heap (member heap q .predicate)) i)
        (join (packedParts (termParts heap (member heap q .object)) i)
          (packedParts (termParts heap (member heap q .graph)) i)))

def packedEach : List JsValue → ℕ → Except JsError Str
  | [], _ => .ok []
  | q :: quads, i => join (packedQuad heap q i) (packedEach quads (i + 1))

theorem writes_quad (q : JsValue) (i : ℕ) : Writes (packQuad heap q i) (packedQuad heap q i) := by
  rw [packQuad, packedQuad]
  split_ifs
  · exact writes_refuse i
  · exact (writes_term heap _ i).bind ((writes_term heap _ i).bind
      ((writes_term heap _ i).bind (writes_term heap _ i)))

theorem writes_each (quads : List JsValue) (i : ℕ) :
    Writes (packEach heap quads i) (packedEach heap quads i) := by
  induction quads generalizing i with
  | nil => exact writes_nothing
  | cons q quads ih => exact (writes_quad heap q i).bind (ih (i + 1))

theorem writes_packing (quads : List JsValue) (start stop : ℕ) :
    Writes (packing heap quads start stop)
      (join (.ok (leBytes 4 (toUint32 (stop - start))))
        (packedEach heap (sliceOf quads start stop) start)) :=
  (writes_u32 _).bind (writes_each heap _ start)

theorem new_holds : Packer.new.Holds [] 0 := by
  have hlen : Packer.new.buf.length = 2 ^ 16 := by
    simp only [Packer.new, List.length_replicate]
  have hcap : 0 < Packer.new.buf.length := by
    rw [hlen]
    exact Nat.two_pow_pos 16
  exact ⟨rfl, Nat.zero_le _, hcap, fun w hw => absurd hw List.not_mem_nil⟩

/-- What the packer returns, and what it wrote on the way. -/
theorem packQuads_spec (quads : List JsValue) (start stop : ℕ) :
    (packQuads heap quads start stop).1 = join (.ok (leBytes 4 (toUint32 (stop - start))))
        (packedEach heap (sliceOf quads start stop) start) ∧
      ∀ w ∈ (packQuads heap quads start stop).2.writes, w.Whole := by
  obtain ⟨p, hrun, hafter⟩ := (writes_packing heap quads start stop).run new_holds
  rw [packQuads, hrun]
  cases hexpected : join (.ok (leBytes 4 (toUint32 (stop - start))))
      (packedEach heap (sliceOf quads start stop) start) with
  | error error =>
    rw [hexpected] at hafter
    exact ⟨rfl, hafter⟩
  | ok bytes =>
    rw [hexpected] at hafter
    exact ⟨congrArg Except.ok hafter.bytes, hafter.writes⟩

end Quads

end Js
