/-
The component inventory a store file carries in its root layout, and its codec.

Each auxiliary child has a descriptor: its name, role, implementation, version, flags and
column shape.  The shape is written in a small vocabulary of field kinds, and the whole as
JSON; the library that turns JSON values into bytes is a parameter.

* `DType`, `WireField` — column shapes, and the fields they are written as;
* `StoreComponentDescriptor`, `validateComponents` — an inventory and what is asked of it;
* `encodeStoreMetadata`, `decodeStoreMetadata` — the inventory as bytes and back;
* `dtypeToWireFields_eq_ok` — the vocabulary's shapes are written as they are read;
* `decode_encode`, `decode_validates` — what is encoded decodes to itself, and what decodes
  is valid.
-/
import VortexRdf.JsonValues
import VortexRdf.Programs

namespace Container

open Json Programs

/-! ### Column shapes -/

inductive Nullability where
  | nonNullable
  | nullable
deriving DecidableEq

inductive PType where
  | u8 | u16 | u32 | u64
  | i8 | i16 | i32 | i64
  | f16 | f32 | f64
deriving DecidableEq

/-- The type of a struct's field; types this program never looks into keep their spelling. -/
inductive FieldType where
  | primitive (ptype : PType) (nullability : Nullability)
  | utf8 (nullability : Nullability)
  | other (spelling : String)
deriving DecidableEq

inductive DType where
  | struct (fields : List (String × FieldType)) (nullability : Nullability)
  | leaf (type : FieldType)
deriving DecidableEq

def Nullability.display : Nullability → String
  | nonNullable => ""
  | nullable => "?"

def PType.display : PType → String
  | u8 => "u8"
  | u16 => "u16"
  | u32 => "u32"
  | u64 => "u64"
  | i8 => "i8"
  | i16 => "i16"
  | i32 => "i32"
  | i64 => "i64"
  | f16 => "f16"
  | f32 => "f32"
  | f64 => "f64"

def FieldType.display : FieldType → String
  | primitive ptype nullability => ptype.display ++ nullability.display
  | utf8 nullability => "utf8" ++ nullability.display
  | other spelling => spelling

def DType.display : DType → String
  | struct fields nullability =>
    "\x7b" ++ ", ".intercalate (fields.map fun f => f.1 ++ "=" ++ f.2.display) ++ "\x7d" ++
      nullability.display
  | leaf type => type.display

inductive WireFieldKind where
  | u32
  | u64
  | utf8
deriving DecidableEq

namespace WireFieldKind

def toDtype : WireFieldKind → FieldType
  | u32 => .primitive .u32 .nonNullable
  | u64 => .primitive .u64 .nonNullable
  | utf8 => .utf8 .nonNullable

def fromDtype : FieldType → Option WireFieldKind
  | .primitive .u32 .nonNullable => some u32
  | .primitive .u64 .nonNullable => some u64
  | .utf8 .nonNullable => some utf8
  | _ => none

/-- The names the kinds are written under, in kebab case. -/
def name : WireFieldKind → String
  | u32 => "u32"
  | u64 => "u64"
  | utf8 => "utf8"

def all : List (String × WireFieldKind) := [("u32", u32), ("u64", u64), ("utf8", utf8)]

theorem fromDtype_toDtype (kind : WireFieldKind) : fromDtype kind.toDtype = some kind := by
  cases kind <;> rfl

theorem fromDtype_eq_some {type : FieldType} {kind : WireFieldKind}
    (h : fromDtype type = some kind) : kind.toDtype = type := by
  unfold fromDtype at h
  split at h
  all_goals first | cases h; rfl | cases h

theorem lookup_name (kind : WireFieldKind) : all.lookup kind.name = some kind := by
  cases kind <;> rfl

def codec : Codec WireFieldKind := Codec.variants all name lookup_name

end WireFieldKind

structure WireField where
  name : String
  kind : WireFieldKind
deriving DecidableEq

def wireFieldsToDtype (fields : List WireField) : DType :=
  .struct (fields.map fun f => (f.name, f.kind.toDtype)) .nonNullable

/-- A struct's field as the wire writes it. -/
def wireField (f : String × FieldType) : Except String WireField :=
  match WireFieldKind.fromDtype f.2 with
  | some kind => .ok ⟨f.1, kind⟩
  | none => .error ("store component field " ++ f.1 ++ " has a dtype outside the wire vocabulary: " ++
      f.2.display)

def dtypeToWireFields : DType → Except String (List WireField)
  | .struct fields .nonNullable => fields.mapM wireField
  | dtype => .error ("store component dtype must be a non-nullable struct, got " ++ dtype.display)

theorem wireField_toDtype (f : WireField) : wireField (f.name, f.kind.toDtype) = .ok f := by
  simp only [wireField, WireFieldKind.fromDtype_toDtype]

theorem wireField_eq_ok {f : String × FieldType} {w : WireField} (h : wireField f = .ok w) :
    (w.name, w.kind.toDtype) = f := by
  unfold wireField at h
  split at h
  case h_1 kind hkind =>
    cases h
    rw [WireFieldKind.fromDtype_eq_some hkind]
  case h_2 => cases h

theorem mapM_wireField_eq_ok {fields : List (String × FieldType)} {wires : List WireField}
    (h : fields.mapM wireField = .ok wires) :
    (wires.map fun w => (w.name, w.kind.toDtype)) = fields := by
  induction fields generalizing wires with
  | nil =>
    cases h
    rfl
  | cons f fields ih =>
    rw [List.mapM_cons] at h
    cases hf : wireField f with
    | error e =>
      rw [hf] at h
      cases h
    | ok w =>
      rw [hf, ok_bind] at h
      cases hrest : fields.mapM wireField with
      | error e =>
        rw [hrest] at h
        cases h
      | ok rest =>
        rw [hrest] at h
        cases h
        rw [List.map_cons, wireField_eq_ok hf, ih hrest]

/-- The shapes in the vocabulary are those its fields are read as. -/
theorem dtypeToWireFields_eq_ok {dtype : DType} {wires : List WireField} :
    dtypeToWireFields dtype = .ok wires ↔ dtype = wireFieldsToDtype wires := by
  constructor
  · intro h
    cases dtype with
    | leaf type => cases h
    | struct fields nullability =>
      cases nullability with
      | nullable => cases h
      | nonNullable =>
        rw [wireFieldsToDtype, mapM_wireField_eq_ok h]
  · rintro rfl
    rw [wireFieldsToDtype, dtypeToWireFields]
    induction wires with
    | nil => rfl
    | cons w wires ih =>
      rw [List.map_cons, List.mapM_cons, wireField_toDtype, ih]
      rfl

/-! ### Descriptors -/

inductive StoreComponentRole where
  | dictionary
  | index
  | changeSet
  | other
deriving DecidableEq

namespace StoreComponentRole

def name : StoreComponentRole → String
  | dictionary => "dictionary"
  | index => "index"
  | changeSet => "change-set"
  | other => "other"

def all : List (String × StoreComponentRole) :=
  [("dictionary", dictionary), ("index", index), ("change-set", changeSet), ("other", other)]

theorem lookup_name (role : StoreComponentRole) : all.lookup role.name = some role := by
  cases role <;> rfl

def codec : Codec StoreComponentRole := Codec.variants all name lookup_name

end StoreComponentRole

structure StoreComponentDescriptor where
  name : String
  role : StoreComponentRole
  implementation : String
  version : UInt32
  required : Bool
  sorted : Bool
  bracketedIris : Bool
  dtype : DType
deriving DecidableEq

/-- The name of the root's child that is no component. -/
def QUAD_SOURCE_NAME : String := "quad-source"

def StoreComponentDescriptor.validate (d : StoreComponentDescriptor) : Except String Unit :=
  if d.name = "" then .error "store component name must not be empty"
  else if d.name = QUAD_SOURCE_NAME then
    .error (QUAD_SOURCE_NAME ++ " is reserved for the transparent root child")
  else if d.implementation = "" then .error "store component implementation must not be empty"
  else if d.version = 0 then .error "store component version must be positive"
  else (dtypeToWireFields d.dtype).map fun _ => ()

/-- The descriptors in turn, the names before them given. -/
def validateFrom : List String → List StoreComponentDescriptor → Except String Unit
  | _, [] => .ok ()
  | names, d :: rest => do
    d.validate
    if d.name ∈ names then .error ("duplicate store component name: " ++ d.name)
    else validateFrom (d.name :: names) rest

def validateComponents (components : List StoreComponentDescriptor) : Except String Unit :=
  validateFrom [] components

theorem StoreComponentDescriptor.validate_eq_ok {d : StoreComponentDescriptor}
    (h : d.validate = .ok ()) :
    d.name ≠ "" ∧ d.name ≠ QUAD_SOURCE_NAME ∧ d.implementation ≠ "" ∧ d.version ≠ 0 ∧
      ∃ wires, d.dtype = wireFieldsToDtype wires := by
  unfold validate at h
  split at h
  case isTrue => cases h
  rename_i hname
  split at h
  case isTrue => cases h
  rename_i hreserved
  split at h
  case isTrue => cases h
  rename_i himplementation
  split at h
  case isTrue => cases h
  rename_i hversion
  refine ⟨hname, hreserved, himplementation, hversion, ?_⟩
  cases hwires : dtypeToWireFields d.dtype with
  | error e =>
    rw [hwires] at h
    cases h
  | ok wires => exact ⟨wires, dtypeToWireFields_eq_ok.mp hwires⟩

theorem validateFrom_eq_ok {components : List StoreComponentDescriptor} :
    ∀ {names : List String}, validateFrom names components = .ok () →
      (∀ d ∈ components, d.validate = .ok ()) ∧ (components.map (·.name)).Nodup ∧
        ∀ d ∈ components, d.name ∉ names := by
  induction components with
  | nil =>
    intro names _
    simp
  | cons d rest ih =>
    intro names h
    rw [validateFrom] at h
    cases hd : d.validate with
    | error e =>
      rw [hd] at h
      cases h
    | ok _ =>
      rw [hd, ok_bind] at h
      split at h
      case isTrue => cases h
      rename_i hnew
      obtain ⟨hvalid, hnodup, hnames⟩ := ih h
      -- the names after d are none of those before it, nor d's own
      have hfresh : d.name ∉ rest.map (·.name) := by
        intro hmem
        obtain ⟨d', hd', heq⟩ := List.mem_map.mp hmem
        exact hnames d' hd' (heq ▸ List.mem_cons_self)
      refine ⟨List.forall_mem_cons.mpr ⟨hd, hvalid⟩, ?_, List.forall_mem_cons.mpr ⟨hnew, ?_⟩⟩
      · rw [List.map_cons]
        exact List.nodup_cons.mpr ⟨hfresh, hnodup⟩
      · intro d' hd' hmem
        exact hnames d' hd' (List.mem_cons_of_mem d.name hmem)

theorem validateComponents_eq_ok {components : List StoreComponentDescriptor}
    (h : validateComponents components = .ok ()) :
    (∀ d ∈ components, d.validate = .ok ()) ∧ (components.map (·.name)).Nodup := by
  obtain ⟨hvalid, hnodup, -⟩ := validateFrom_eq_ok h
  exact ⟨hvalid, hnodup⟩

/-! ### The descriptors as JSON values -/

def WireField.write (f : WireField) : Json :=
  .obj [("name", Codec.string.write f.name), ("kind", WireFieldKind.codec.write f.kind)]

def WireField.read (json : Json) : Option WireField :=
  match fields ["name", "kind"] json with
  | some [name, kind] => do
    return ⟨← Codec.string.field name, ← WireFieldKind.codec.field kind⟩
  | _ => none

theorem WireField.read_write (f : WireField) : WireField.read f.write = some f := by
  have hnames : ([("name", Codec.string.write f.name),
      ("kind", WireFieldKind.codec.write f.kind)].map Prod.fst).Nodup := by
    simp
  simp [read, write, fields_obj hnames, List.lookup_cons]

def WireField.codec : Codec WireField := ⟨WireField.write, WireField.read, WireField.read_write⟩

namespace StoreComponentDescriptor

/-- A descriptor's entries, its shape given as the fields on the wire. -/
def entries (d : StoreComponentDescriptor) (wires : List WireField) : List (String × Json) :=
  [("name", Codec.string.write d.name), ("role", StoreComponentRole.codec.write d.role),
    ("implementation", Codec.string.write d.implementation),
    ("version", Codec.uInt32.write d.version), ("required", Codec.bool.write d.required),
    ("sorted", Codec.bool.write d.sorted)] ++
  -- an unset flag is not written
  (if d.bracketedIris then [("bracketed_iris", Codec.bool.write d.bracketedIris)] else []) ++
  [("fields", (Codec.list WireField.codec).write wires)]

def write (d : StoreComponentDescriptor) : Except String Json :=
  (dtypeToWireFields d.dtype).map fun wires => .obj (d.entries wires)

def read (json : Json) : Option StoreComponentDescriptor :=
  match fields ["name", "role", "implementation", "version", "required", "sorted",
      "bracketed_iris", "fields"] json with
  | some [name, role, implementation, version, required, sorted, bracketedIris, fields] => do
    return {
      name := ← Codec.string.field name
      role := ← StoreComponentRole.codec.field role
      implementation := ← Codec.string.field implementation
      version := ← Codec.uInt32.field version
      required := ← Codec.bool.field required
      sorted := ← Codec.bool.fieldOr false sorted
      bracketedIris := ← Codec.bool.fieldOr false bracketedIris
      dtype := wireFieldsToDtype (← (Codec.list WireField.codec).field fields) }
  | _ => none

theorem entries_nodup (d : StoreComponentDescriptor) (wires : List WireField) :
    ((d.entries wires).map Prod.fst).Nodup := by
  unfold entries
  split <;> simp

theorem read_write {d : StoreComponentDescriptor} {json : Json} (h : d.write = .ok json) :
    read json = some d := by
  cases hwires : dtypeToWireFields d.dtype with
  | error e =>
    rw [write, hwires] at h
    cases h
  | ok wires =>
    rw [write, hwires] at h
    cases h
    rw [read, fields_obj (d.entries_nodup wires)]
    obtain ⟨name, role, implementation, version, required, sorted, bracketedIris, dtype⟩ := d
    rw [dtypeToWireFields_eq_ok] at hwires
    subst hwires
    -- the flag is read back from its entry, or from its absence
    cases bracketedIris <;> simp [entries, List.lookup_cons]

end StoreComponentDescriptor

/-! ### The metadata -/

def STORE_METADATA_VERSION : UInt32 := 1

structure WireMetadata where
  version : UInt32
  quadsSorted : Bool
  components : List StoreComponentDescriptor

namespace WireMetadata

/-- The metadata as an object, its components' values given. -/
def object (version : UInt32) (quadsSorted : Bool) (components : List Json) : Json :=
  .obj [("version", Codec.uInt32.write version), ("quads_sorted", Codec.bool.write quadsSorted),
    ("components", .arr components)]

def write (wire : WireMetadata) : Except String Json :=
  (wire.components.mapM StoreComponentDescriptor.write).map
    (object wire.version wire.quadsSorted)

def read (json : Json) : Option WireMetadata :=
  match fields ["version", "quads_sorted", "components"] json with
  | some [version, quadsSorted, components] => do
    return {
      version := ← Codec.uInt32.field version
      quadsSorted := ← Codec.bool.fieldOr false quadsSorted
      components := ← components.bind (Codec.readList StoreComponentDescriptor.read) }
  | _ => none

theorem mapM_read_write {components : List StoreComponentDescriptor} :
    ∀ {jsons : List Json}, components.mapM StoreComponentDescriptor.write = .ok jsons →
      jsons.mapM StoreComponentDescriptor.read = some components := by
  induction components with
  | nil =>
    intro jsons h
    cases h
    rfl
  | cons d rest ih =>
    intro jsons h
    rw [List.mapM_cons] at h
    cases hd : d.write with
    | error e =>
      rw [hd] at h
      cases h
    | ok json =>
      rw [hd, ok_bind] at h
      cases hrest : rest.mapM StoreComponentDescriptor.write with
      | error e =>
        rw [hrest] at h
        cases h
      | ok others =>
        rw [hrest] at h
        cases h
        rw [List.mapM_cons, StoreComponentDescriptor.read_write hd, ih hrest]
        rfl

theorem read_write {wire : WireMetadata} {json : Json} (h : wire.write = .ok json) :
    read json = some wire := by
  obtain ⟨version, quadsSorted, components⟩ := wire
  cases hjsons : components.mapM StoreComponentDescriptor.write with
  | error e =>
    rw [write, hjsons] at h
    cases h
  | ok jsons =>
    rw [write, hjsons] at h
    cases h
    have hnames : ([("version", Codec.uInt32.write version),
        ("quads_sorted", Codec.bool.write quadsSorted),
        ("components", Json.arr jsons)].map Prod.fst).Nodup := by
      simp
    have hlist : Codec.readList StoreComponentDescriptor.read (.arr jsons) = some components :=
      mapM_read_write hjsons
    simp [read, object, fields_obj hnames, List.lookup_cons, hlist]

end WireMetadata

/-- The library that turns JSON values into bytes and back; its messages are its own. -/
structure SerdeJson where
  toVec : Json → List UInt8
  fromSlice : List UInt8 → Option Json
  message : List UInt8 → String
  fromSlice_nil : fromSlice [] = none

/-- The value is read back from the bytes it is written as. -/
def SerdeJson.RoundTrips (serde : SerdeJson) (json : Json) : Prop :=
  serde.fromSlice (serde.toVec json) = some json

def encodeStoreMetadata (serde : SerdeJson) (quadsSorted : Bool)
    (components : List StoreComponentDescriptor) : Except String (List UInt8) :=
  (WireMetadata.write ⟨STORE_METADATA_VERSION, quadsSorted, components⟩).map serde.toVec

def decodeStoreMetadata (serde : SerdeJson) (bytes : List UInt8) :
    Except String (Bool × List StoreComponentDescriptor) :=
  if bytes = [] then .ok (false, [])
  else
    match (serde.fromSlice bytes).bind WireMetadata.read with
    | none => .error (serde.message bytes)
    | some wire =>
      if wire.version ≠ STORE_METADATA_VERSION then
        .error "unsupported vortex-rdf store metadata version"
      else (validateComponents wire.components).map fun _ => (wire.quadsSorted, wire.components)

section Metadata

variable {serde : SerdeJson} {quadsSorted : Bool} {components : List StoreComponentDescriptor}

theorem StoreComponentDescriptor.write_eq_ok {d : StoreComponentDescriptor}
    (h : d.validate = .ok ()) : ∃ json, d.write = .ok json := by
  obtain ⟨-, -, -, -, wires, hdtype⟩ := d.validate_eq_ok h
  exact ⟨.obj (d.entries wires), by rw [write, dtypeToWireFields_eq_ok.mpr hdtype]; rfl⟩

/-- A valid inventory can be written. -/
theorem write_of_valid (quadsSorted : Bool) (hvalid : validateComponents components = .ok ()) :
    ∃ json, WireMetadata.write ⟨STORE_METADATA_VERSION, quadsSorted, components⟩ = .ok json := by
  obtain ⟨hcomponents, -⟩ := validateComponents_eq_ok hvalid
  cases hjsons : components.mapM StoreComponentDescriptor.write with
  | ok jsons => exact ⟨WireMetadata.object STORE_METADATA_VERSION quadsSorted jsons, by
      rw [WireMetadata.write, hjsons]; rfl⟩
  | error e =>
    obtain ⟨d, hd, e', he'⟩ := mapM_isError_iff.mp ⟨e, hjsons⟩
    obtain ⟨json, hjson⟩ := d.write_eq_ok (hcomponents d hd)
    rw [hjson] at he'
    cases he'

/-- What a valid inventory is written as decodes to it. -/
theorem decode_encode {json : Json} (hvalid : validateComponents components = .ok ())
    (hwrite : WireMetadata.write ⟨STORE_METADATA_VERSION, quadsSorted, components⟩ = .ok json)
    (hserde : serde.RoundTrips json) :
    encodeStoreMetadata serde quadsSorted components = .ok (serde.toVec json) ∧
      decodeStoreMetadata serde (serde.toVec json) = .ok (quadsSorted, components) := by
  constructor
  · rw [encodeStoreMetadata, hwrite]
    rfl
  · have hbytes : serde.toVec json ≠ [] := by
      intro hnil
      have hread := serde.fromSlice_nil
      rw [← hnil, hserde] at hread
      cases hread
    rw [decodeStoreMetadata, if_neg hbytes, hserde, Option.bind_some,
      WireMetadata.read_write hwrite]
    simp [hvalid, Except.map]

/-- What decodes is valid. -/
theorem decode_validates {bytes : List UInt8}
    (h : decodeStoreMetadata serde bytes = .ok (quadsSorted, components)) :
    validateComponents components = .ok () := by
  unfold decodeStoreMetadata at h
  split at h
  case isTrue =>
    cases h
    rfl
  split at h
  case h_1 => cases h
  rename_i wire _
  split at h
  case isTrue => cases h
  cases hwire : validateComponents wire.components with
  | error e =>
    rw [hwire] at h
    cases h
  | ok _ =>
    rw [hwire] at h
    cases h
    exact hwire

end Metadata

end Container
