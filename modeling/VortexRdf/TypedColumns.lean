/-
The typed object columns (`layouts/typed_object.rs`).

An object is stored as its kind, its value, and a datatype or a language where it
has one; an absent cell and an empty one read the same.

* `composeObject` — the term some parts recompose into;
* `buildColumns`, `ObjectColumns` — the rows of some quads, and their object
  columns as a reader loads them;
* `compose_decompose`, `decomposed_iff` — a term's parts give it back, and hold
  its own constraints only;
* `typedObject_isFaithful` — over the rows a build makes, read back and compared.
-/
import VortexRdf.CanonicalSpellings
import VortexRdf.TailMatch

namespace Store

open Terms

variable (ox : Oxrdf)

/-! ### Composing -/

def composeObject (kind : ℕ) (value : Str) (datatype lang : Option Str) :
    Except VortexRdfError Term :=
  match kind with
  | 0 => .ok (.namedNode ⟨value⟩)
  | 1 => .ok (.blankNode ⟨value⟩)
  | 2 => .ok (.literal (.simple value))
  | 3 => .ok (.literal (.languageTagged value (lang.getD [])))
  | 4 => .ok (.literal (.newTyped value ⟨datatype.getD XSD_STRING.iri⟩))
  | kind => .error (.deserialization [.text ("Unknown object kind: " ++ toString kind)])

/-! ### Columns -/

def buildRow (q : RawQuad) : Except VortexRdfError TypedRow :=
  (term ox q.o .stored).map fun t => ⟨q.s, q.p, decomposeObject t, q.g, t, rfl⟩

/-- The rows whose columns are built, up to the first object that does not parse. -/
def buildColumns (quads : List RawQuad) : Except VortexRdfError (List TypedRow) :=
  quads.mapM (buildRow ox)

/-- The object columns of a chunk; a datatype or a language column that cannot be
read is missing. -/
structure ObjectColumns where
  kind : List ℕ
  value : List Str
  datatype : Option (List (Option Str))
  lang : Option (List (Option Str))

namespace ObjectColumns

def load (rows : List TypedRow) : ObjectColumns where
  kind := rows.map fun row => row.object.kind
  value := rows.map fun row => row.object.value
  datatype := some (rows.map fun row => row.object.datatype)
  lang := some (rows.map fun row => row.object.lang)

/-- Row `i` of a nullable column: nothing for a missing column or an empty value, which
is how an absent cell reads.  The outer `none` is a row past the column. -/
def nullableStrAt (col : Option (List (Option Str))) (i : ℕ) : Option (Option Str) :=
  match col with
  | none => some none
  | some cells => cells[i]?.map fun cell => some (cell.getD []) |>.filter (· ≠ [])

/-- Row `i`'s object term; `none` is a row past the columns. -/
def termAt (columns : ObjectColumns) (i : ℕ) : Option (Except VortexRdfError Term) := do
  let kind ← columns.kind[i]?
  let value ← columns.value[i]?
  let datatype ← nullableStrAt columns.datatype i
  let lang ← nullableStrAt columns.lang i
  return composeObject kind value datatype lang

end ObjectColumns

/-! ### The parts of a term -/

/-- A typed literal is not typed as a string, which the library makes a simple one. -/
def WellTyped : Term → Prop
  | .literal (.typed _ datatype) => datatype ≠ XSD_STRING
  | _ => True

/-- A typed literal's datatype is an IRI, so not the empty text. -/
def Datatyped : Term → Prop
  | .literal (.typed _ datatype) => datatype.iri ≠ []
  | _ => True

def TypedObject.compose (object : TypedObject) : Except VortexRdfError Term :=
  composeObject object.kind object.value object.datatype object.lang

theorem decompose_typed (value : Str) {datatype : NamedNode} (h : datatype ≠ XSD_STRING) :
    decomposeObject (.literal (.typed value datatype)) = ⟨4, value, some datatype.iri, none⟩ := by
  rw [decomposeObject, if_neg h]

theorem compose_decompose {t : Term} (h : WellTyped t) : (decomposeObject t).compose = .ok t := by
  cases t with
  | namedNode n => rfl
  | blankNode b => rfl
  | literal l =>
    cases l with
    | simple value => rfl
    | languageTagged value language => rfl
    | typed value datatype =>
      rw [decompose_typed value h]
      change Except.ok (Term.literal (.newTyped value datatype)) = _
      rw [Literal.newTyped, if_neg h]

theorem decomposeObject_inj {t u : Term} (ht : WellTyped t) (hu : WellTyped u)
    (h : decomposeObject t = decomposeObject u) : t = u := by
  have hcompose := compose_decompose ht
  rw [h, compose_decompose hu] at hcompose
  exact (Except.ok.inj hcompose).symm

/-- The kind says which of the nullable parts are there. -/
theorem decomposed_null (t : Term) :
    ((decomposeObject t).kind ≠ 4 → (decomposeObject t).datatype = none) ∧
      ((decomposeObject t).kind ≠ 3 → (decomposeObject t).lang = none) := by
  cases t with
  | namedNode n => simp [decomposeObject]
  | blankNode b => simp [decomposeObject]
  | literal l =>
    cases l with
    | simple value => simp [decomposeObject]
    | languageTagged value language => simp [decomposeObject]
    | typed value datatype =>
      rw [decomposeObject]
      split_ifs <;> simp

theorem nullable_eq_str {cell : Option Str} {text : Str} :
    nullable cell = .str text ↔ cell = some text := by
  cases cell <;> simp [nullable]

/-- A row holds the equalities of a term exactly when its object is the term's parts. -/
theorem decomposed_iff (t u : Term) {row : TypedRow} (hrow : row.object = decomposeObject u) :
    @Row.Holds .typedObject row (stringEqualities ox .typedObject (.object t)) ↔
      decomposeObject t = decomposeObject u := by
  obtain ⟨hdatatype, hlang⟩ := @decomposed_kind (decomposeObject t) ⟨t, rfl⟩
  obtain ⟨hdatatype', hlang'⟩ := decomposed_null u
  -- what the equalities say, part by part
  have hparts : @Row.Holds .typedObject row (stringEqualities ox .typedObject (.object t)) ↔
      ((decomposeObject u).kind = (decomposeObject t).kind ∧
        (decomposeObject u).value = (decomposeObject t).value) ∧
      (∀ dt, (decomposeObject t).datatype = some dt → (decomposeObject u).datatype = some dt) ∧
      ∀ lang, (decomposeObject t).lang = some lang → (decomposeObject u).lang = some lang := by
    simp only [Row.Holds, stringEqualities, List.forall_mem_append, List.forall_mem_cons,
      List.not_mem_nil, false_imp_iff, implies_true, true_and, Option.mem_toList, Option.map_eq_some_iff,
      forall_exists_index, and_imp, Row.field, hrow, Scalar.num.injEq, Scalar.str.injEq, and_assoc]
    constructor
    · rintro ⟨hkind, hvalue, hdt, hl⟩
      exact ⟨hkind, hvalue, fun dt h => nullable_eq_str.mp (hdt _ dt h rfl),
        fun lang h => nullable_eq_str.mp (hl _ lang h rfl)⟩
    · rintro ⟨hkind, hvalue, hdt, hl⟩
      refine ⟨hkind, hvalue, ?_, ?_⟩
      · rintro _ dt h rfl
        exact nullable_eq_str.mpr (hdt dt h)
      · rintro _ lang h rfl
        exact nullable_eq_str.mpr (hl lang h)
  rw [hparts]
  generalize decomposeObject t = a at hdatatype hlang ⊢
  generalize decomposeObject u = b at hdatatype' hlang' ⊢
  constructor
  · rintro ⟨⟨hkind, hvalue⟩, hdt, hl⟩
    have hdt' : a.datatype = b.datatype := by
      cases ha : a.datatype with
      | some dt => exact (hdt dt ha).symm
      | none => exact (hdatatype' fun h => hdatatype (hkind ▸ h) ha).symm
    have hl' : a.lang = b.lang := by
      cases ha : a.lang with
      | some lang => exact (hl lang ha).symm
      | none => exact (hlang' fun h => hlang (hkind ▸ h) ha).symm
    cases a
    cases b
    simp_all
  · rintro rfl
    exact ⟨⟨rfl, rfl⟩, fun dt h => h, fun lang h => h⟩

/-! ### Built rows -/

variable {ox}

theorem mapM_ok_getElem {α β ε : Type} {f : α → Except ε β} {l : List α} {r : List β}
    (h : l.mapM f = .ok r) : r.length = l.length ∧
      ∀ (i : ℕ) (a : α), l[i]? = some a → ∃ b, r[i]? = some b ∧ f a = .ok b := by
  induction l generalizing r with
  | nil =>
    obtain rfl := Except.ok.inj h
    exact ⟨rfl, by simp⟩
  | cons a l ih =>
    rw [List.mapM_cons] at h
    cases hb : f a with
    | error error =>
      rw [hb] at h
      cases h
    | ok b =>
      rw [hb] at h
      cases hrest : l.mapM f with
      | error error =>
        rw [hrest] at h
        cases h
      | ok rest =>
        rw [hrest] at h
        obtain rfl := Except.ok.inj h
        obtain ⟨hlen, hat⟩ := ih hrest
        refine ⟨congrArg (· + 1) hlen, fun i a' hi => ?_⟩
        cases i with
        | zero =>
          obtain rfl := Option.some_inj.mp hi
          exact ⟨b, rfl, hb⟩
        | succ i => exact hat i a' hi

/-- What the stored trust parses is well typed. -/
theorem wellTyped_of_stored {s : Str} {t : Term} (h : term ox s .stored = .ok t) : WellTyped t := by
  rw [term] at h
  split_ifs at h
  · obtain ⟨b, -, rfl⟩ := map_eq_ok h
    trivial
  · obtain ⟨l, hl, rfl⟩ := map_eq_ok h
    rw [literal.eq_def] at hl
    split at hl
    · obtain rfl := Except.ok.inj hl
      trivial
    · obtain rfl := Except.ok.inj hl
      trivial
    · obtain ⟨dt, -, rfl⟩ := map_eq_ok hl
      by_cases hstring : dt = XSD_STRING
      · rw [Literal.newTyped, if_pos hstring]
        trivial
      · rw [Literal.newTyped, if_neg hstring]
        exact hstring
    · obtain rfl := Except.ok.inj hl
      trivial
  · obtain ⟨n, -, rfl⟩ := map_eq_ok h
    trivial

theorem termAt_load {rows : List TypedRow} {i : ℕ} {row : TypedRow} {u : Term}
    (hrow : rows[i]? = some row) (hobject : row.object = decomposeObject u) (hu : WellTyped u)
    (hdatatyped : Datatyped u) : (ObjectColumns.load rows).termAt i = some (.ok u) := by
  have hcell : ∀ part : TypedObject → Option Str,
      ObjectColumns.nullableStrAt (some (rows.map fun row => part row.object)) i =
        some ((some ((part (decomposeObject u)).getD [])).filter (· ≠ [])) := by
    intro part
    rw [ObjectColumns.nullableStrAt, List.getElem?_map, hrow, ← hobject]
    rfl
  have hread : (ObjectColumns.load rows).termAt i =
      some (composeObject (decomposeObject u).kind (decomposeObject u).value
        ((some ((decomposeObject u).datatype.getD [])).filter (· ≠ []))
        ((some ((decomposeObject u).lang.getD [])).filter (· ≠ []))) := by
    simp only [ObjectColumns.termAt, ObjectColumns.load, hcell TypedObject.datatype,
      hcell TypedObject.lang, List.getElem?_map, hrow, Option.map_some, hobject,
      Option.bind_eq_bind, Option.bind_some]
    rfl
  rw [hread, ← compose_decompose hu]
  congr 1
  cases u with
  | namedNode n => rfl
  | blankNode b => rfl
  | literal l =>
    cases l with
    | simple value => rfl
    | languageTagged value language =>
      -- an empty tag is read as absent, and recomposed as empty
      cases language <;> rfl
    | typed value datatype =>
      rw [decompose_typed value hu]
      have hne : datatype.iri ≠ [] := hdatatyped
      simp [TypedObject.compose, Option.filter, hne]

theorem objectConstraints (t : Term) :
    StringLayout.typedObject.preparePattern.constraints ox ⟨none, none, some t, none⟩ =
      .ok (.eq (stringEqualities ox .typedObject (.object t))) := by
  have hbound : (⟨none, none, some t, none⟩ : QuadPattern).boundRoles = [.object t] := rfl
  rw [stringConstraints_eq, hbound, List.flatMap_singleton]

theorem compares_bits {rows : List (Row .typedObject)} {i : ℕ} {row : Row .typedObject}
    (hrow : rows[i]? = some row) {u : Term} (hobject : TypedRow.object row = decomposeObject u)
    (hu : WellTyped u) {t : Term} (ht : WellTyped t) (shape : ArrayShape) :
    ∃ bits, maskFor shape rows (stringEqualities ox .typedObject (.object t)) =
      some bits ∧ bits[i]? = some (decide (t = u)) := by
  refine ⟨_, maskFor_eq (compares_object ox t) shape rows, ?_⟩
  have hi : i < rows.length := (List.getElem?_eq_some_iff.mp hrow).1
  have hholds : holdsAt rows
      (stringEqualities ox .typedObject (.object t)) i = decide (t = u) := by
    rw [Bool.eq_iff_iff, decide_eq_true_iff, holdsAt, hrow, Option.any_some, decide_eq_true_iff,
      decomposed_iff ox t u hobject]
    exact ⟨decomposeObject_inj ht hu, fun h => h ▸ rfl⟩
  rw [List.getElem?_map, List.getElem?_range hi, Option.map_some, hholds]

/-- **The typed object columns encode terms faithfully.** A term's parts recompose into it, and
of the rows that hold the parts of a term only those of the same term satisfy its constraints.
Over the rows built for any quads, reading a row back gives the object it was built from, and the
compare of the columns with a term's constraints sets the bits of the rows about that term. -/
theorem typedObject_isFaithful (ox : Oxrdf) :
    (∀ t, WellTyped t → (decomposeObject t).compose = .ok t) ∧
    (∀ t, WellTyped t → ∃ eqs,
      StringLayout.typedObject.preparePattern.constraints ox ⟨none, none, some t, none⟩ =
        .ok (.eq eqs) ∧
      ∀ u, WellTyped u → ∀ row : TypedRow, row.object = decomposeObject u →
        (@Row.Holds .typedObject row eqs ↔ t = u)) ∧
    ∀ quads rows, buildColumns ox quads = .ok rows → rows.length = quads.length ∧
      ∀ (i : ℕ) (q : RawQuad), quads[i]? = some q →
        ∃ u, term ox q.o .stored = .ok u ∧ WellTyped u ∧
          (Datatyped u → (ObjectColumns.load rows).termAt i = some (.ok u)) ∧
          ∀ t, WellTyped t → ∀ shape, ∃ eqs bits,
            StringLayout.typedObject.preparePattern.constraints ox ⟨none, none, some t, none⟩ =
              .ok (.eq eqs) ∧
            @maskFor .typedObject shape rows eqs = some bits ∧
            bits[i]? = some (decide (t = u)) := by
  refine ⟨fun t ht => compose_decompose ht, fun t ht => ?_, fun quads rows hbuild => ?_⟩
  · refine ⟨_, objectConstraints t, fun u hu row hrow => ?_⟩
    rw [decomposed_iff ox t u hrow]
    exact ⟨decomposeObject_inj ht hu, fun h => h ▸ rfl⟩
  · obtain ⟨hlen, hat⟩ := mapM_ok_getElem hbuild
    refine ⟨hlen, fun i q hq => ?_⟩
    obtain ⟨row, hrow, hbuilt⟩ := hat i q hq
    obtain ⟨u, hu, rfl⟩ := map_eq_ok hbuilt
    have hwell := wellTyped_of_stored hu
    refine ⟨u, hu, hwell, termAt_load hrow rfl hwell, fun t ht shape => ?_⟩
    obtain ⟨bits, hmask, hbit⟩ := @compares_bits ox rows i _ hrow u rfl hwell t ht shape
    exact ⟨_, bits, objectConstraints t, hmask, hbit⟩

/-- `"a"@en` -/
theorem typedObject_isFaithful_tagged :
    (decomposeObject (.literal (.languageTagged [0x61] [0x65, 0x6e]))).compose =
        .ok (.literal (.languageTagged [0x61] [0x65, 0x6e])) ∧
      ∃ eqs, StringLayout.typedObject.preparePattern.constraints ntriples
        ⟨none, none, some (.literal (.languageTagged [0x61] [0x65, 0x6e])), none⟩ = .ok (.eq eqs) ∧
      ¬ @Row.Holds .typedObject ⟨[], [], decomposeObject (.literal (.simple [0x61])), [], _, rfl⟩
        eqs := by
  obtain ⟨hcompose, hconstraints, -⟩ := typedObject_isFaithful ntriples
  obtain ⟨eqs, heqs, hholds⟩ := hconstraints (.literal (.languageTagged [0x61] [0x65, 0x6e])) trivial
  refine ⟨hcompose _ trivial, eqs, heqs, ?_⟩
  rw [hholds (.literal (.simple [0x61])) trivial _ rfl]
  decide

end Store
