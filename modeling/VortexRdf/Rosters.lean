/-
The store root layout as it is read, and the roster of its components.

The root's first child is the quad table, each further one the component its descriptor
describes.  At open every descriptor is classified once: the dictionary, an index child this
version knows, or a component left out; the roster keeps the slots of the children it names,
and a child is reached through its slot past the quad table's.

* `deserialize`, `childDtype`, `childType`, `componentChild` — the root and its children;
* `RdfStoreLayout.ReadsSlots` — the layout library reads each child under its type;
* `classifyComponent`, `ComponentRoster.of` — the classification and the roster;
* `Unreadable`, `kindOf`, `indexChildrenFrom` — what is refused, and what the rest is;
* `classifyFrom_spec` — what the pass over the inventory makes of it;
* `Refused`, `ComponentRoster.Sound` — when an open refuses its file, and what its roster is.
-/
import VortexRdf.Builds
import VortexRdf.Patterns
import VortexRdf.StoreMetadata

namespace Container

open Builds Programs
open Store (LayoutStrategy)
open Terms (VortexRdfError)

/-! ### The root layout -/

def STORE_LAYOUT_ID : String := "vortex-rdf.store.v2"
def QUAD_SOURCE_CHILD : ℕ := 0
def DICT_COMPONENT_NAME : String := "dictionary"
def DICT_IMPLEMENTATION : String := "sorted-terms-fsst-v1"
def DICT_VERSION : UInt32 := 2
def INDEX_VERSION : UInt32 := 1

/-- A child's layout, as far as it is looked at here. -/
structure LayoutRef where
  dtype : DType
  rowCount : ℕ
deriving DecidableEq

/-- A layout's children: how many, and each read under a type. -/
structure LayoutChildren where
  nchildren : ℕ
  child : ℕ → DType → Except String LayoutRef

structure LayoutDeserializeArgs where
  dtype : DType
  rowCount : ℕ
  children : LayoutChildren

structure RdfStoreLayoutData where
  quadsSorted : Bool
  components : List StoreComponentDescriptor

/-- The components' children, from the component `index` on. -/
def checkChildren (children : LayoutChildren) : ℕ → List StoreComponentDescriptor →
    Except String Unit
  | _, [] => .ok ()
  | index, component :: rest => do
    let child ← children.child (index + 1) component.dtype
    if child.dtype ≠ component.dtype then
      .error "store component dtype does not match its descriptor"
    else checkChildren children (index + 1) rest

def deserialize (serde : SerdeJson) (args : LayoutDeserializeArgs) (metadata : List UInt8) :
    Except String RdfStoreLayoutData := do
  let (quadsSorted, components) ← decodeStoreMetadata serde metadata
  if args.children.nchildren ≠ 1 + components.length then
    .error "store root child count does not match its component inventory"
  else
    let quads ← args.children.child QUAD_SOURCE_CHILD args.dtype
    if quads.rowCount ≠ args.rowCount then
      .error "quad-source row count must match the store root"
    else do
      checkChildren args.children 0 components
      return ⟨quadsSorted, components⟩

/-- The root layout of an open file: what it was read from, its own state, and the child the
layout library reads at an index. -/
structure RdfStoreLayout extends LayoutDeserializeArgs where
  data : RdfStoreLayoutData
  slot : ℕ → Except String (Option LayoutRef)

namespace RdfStoreLayout

def childDtype (layout : RdfStoreLayout) (idx : ℕ) : Except String DType :=
  if idx = QUAD_SOURCE_CHILD then .ok layout.dtype
  else
    match layout.data.components[idx - 1]? with
    | some c => .ok c.dtype
    | none => .error ("invalid store root child index: " ++ toString idx)

inductive LayoutChildType where
  | transparent (name : String)
  | auxiliary (name : String)
deriving DecidableEq

def childType (layout : RdfStoreLayout) (idx : ℕ) : Option LayoutChildType :=
  if idx = QUAD_SOURCE_CHILD then some (.transparent QUAD_SOURCE_NAME)
  else layout.data.components[idx - 1]?.map fun c => .auxiliary c.name

/-- The layout library reads the child at an index under the type the root gives it; there is
none past the last. -/
def ReadsSlots (layout : RdfStoreLayout) : Prop :=
  ∀ idx, layout.slot idx =
    if layout.children.nchildren ≤ idx then .ok none
    else do
      let dtype ← layout.childDtype idx
      return some (← layout.children.child idx dtype)

def componentChild (layout : RdfStoreLayout) (slot : ℕ) : Except String LayoutRef := do
  match ← layout.slot (QUAD_SOURCE_CHILD + 1 + slot) with
  | some child => .ok child
  | none => .error ("store root has no component child " ++ toString slot)

end RdfStoreLayout

/-- An open file, by its root layout: a store's, or another one under its id. -/
inductive VortexFile where
  | store (root : RdfStoreLayout)
  | foreign (encodingId : String) (h : encodingId ≠ STORE_LAYOUT_ID)

/-! ### Column widths and layouts -/

def CODE_PTYPE : PType := .u64
def ROW_ID_PTYPE : PType := .u64
def PRIMARY_COLUMNS : List String := [COL_S, COL_P, COL_O, COL_G]
def COL_O_KIND : String := "o_kind"

def isCodeColumnName (name : String) : Bool :=
  PRIMARY_COLUMNS.contains name || name == COL_VAL

def wrongWidth (table name : String) (ptype : PType) (what : String) (reads : PType) :
    VortexRdfError :=
  .deserialization [.text ("the " ++ table ++ " column " ++ name ++ " holds " ++ ptype.display ++
    " " ++ what ++ ", but this version of vortex-rdf reads " ++ reads.display ++ " " ++
    (if what = "term codes" then "codes" else what) ++
    " only; rebuild the store from its RDF source")]

def checkIdColumn (table : String) (column : String × FieldType) : Except VortexRdfError Unit :=
  match column.2 with
  | .primitive ptype _ =>
    if isCodeColumnName column.1 ∧ ptype ≠ CODE_PTYPE then
      .error (wrongWidth table column.1 ptype "term codes" CODE_PTYPE)
    else if column.1 = COL_RID ∧ ptype ≠ ROW_ID_PTYPE then
      .error (wrongWidth table column.1 ptype "row ids" ROW_ID_PTYPE)
    else .ok ()
  | _ => .ok ()

def checkIdColumns (table : String) : DType → Except VortexRdfError Unit
  | .struct fields _ => fields.forM (checkIdColumn table)
  | .leaf _ => .ok ()

/-- The layout of a quad table, by its columns alone. -/
def fromDtype : DType → LayoutStrategy
  | .struct fields _ =>
    match fields.lookup COL_S with
    | some (.primitive .u64 _) => .dictionary
    | _ => if (fields.map Prod.fst).contains COL_O_KIND then .typedObject else .default
  | .leaf _ => .default

/-! ### The roster -/

end Container

def Builds.IndexType.componentIdentities : Builds.IndexType → List Builds.ComponentIdentity
  | .secondaryByCopy => [Builds.CopyFamily.posg.identity, Builds.CopyFamily.ospg.identity]
  | .secondaryByReference => [Builds.RefFamily.object.identity, Builds.RefFamily.predicate.identity]

namespace Container

open Builds Programs
open Store (LayoutStrategy)
open Terms (VortexRdfError)

def knownComponent (implementation : String) : Option ComponentIdentity :=
  ALL_INDEX_TYPES.findSome? fun index =>
    index.componentIdentities.find? fun identity => identity.slug = implementation

def checkComponentRows (name : String) (componentRows quadRows : ℕ) : Except VortexRdfError Unit :=
  if componentRows ≠ quadRows then
    .error (.deserialization [.text ("index component " ++ name ++ " holds " ++
      toString componentRows ++ " rows against " ++ toString quadRows ++ " quad rows")])
  else .ok ()

inductive ComponentKind where
  | dict
  | index (identity : ComponentIdentity)
  | skip
deriving DecidableEq

def classifyComponent (d : StoreComponentDescriptor) : Except VortexRdfError ComponentKind :=
  if d.name = DICT_COMPONENT_NAME then
    if d.implementation ≠ DICT_IMPLEMENTATION then
      .error (.deserialization [.text ("unsupported dictionary component implementation: " ++
        d.implementation ++ " v" ++ toString d.version)])
    -- a layout this reader was never checked against is refused
    else if DICT_VERSION < d.version then
      .error (.deserialization [.text ("unsupported dictionary component version: this store's " ++
        "dictionary component is version " ++ toString d.version ++
        ", but this version of vortex-rdf reads up to version " ++ toString DICT_VERSION ++
        "; open it with a newer vortex-rdf")])
    else .ok .dict
  else
    match knownComponent d.implementation with
    | some known =>
      if INDEX_VERSION < d.version then
        .error (.deserialization [.text ("unsupported index component version: this store's " ++
          "component " ++ d.name ++ " is version " ++ toString d.version ++
          ", but this version of vortex-rdf reads up to version " ++ toString INDEX_VERSION ++
          "; it was written by a newer vortex-rdf, so open it with a newer version of vortex-rdf")])
      else (checkIdColumns d.name d.dtype).map fun _ => .index known
    | none =>
      if d.required then
        .error (.deserialization [.text ("this store carries a required component this version " ++
          "cannot interpret: " ++ d.name ++ " (" ++ d.implementation ++ " v" ++ toString d.version ++ ")")])
      else .ok .skip

structure IndexChild where
  identity : ComponentIdentity
  slot : ℕ
deriving DecidableEq

structure ComponentRoster where
  dict : Option ℕ
  dictBracketedIris : Bool
  indexChildren : List IndexChild
deriving DecidableEq

/-- The roster with a descriptor's component in its slot. -/
def ComponentRoster.add (dictionaryLayout : Bool) (roster : ComponentRoster)
    (d : StoreComponentDescriptor) (slot : ℕ) : ComponentKind → ComponentRoster
  | .dict =>
    if dictionaryLayout then
      { roster with dict := some slot, dictBracketedIris := d.bracketedIris }
    else roster
  | .index identity => { roster with indexChildren := roster.indexChildren ++ [⟨identity, slot⟩] }
  | .skip => roster

/-- The descriptors from `slot` on, each added to the roster. -/
def classifyFrom (dictionaryLayout : Bool) : ℕ → List StoreComponentDescriptor → ComponentRoster →
    Except VortexRdfError ComponentRoster
  | _, [], roster => .ok roster
  | slot, d :: rest, roster => do
    let kind ← classifyComponent d
    classifyFrom dictionaryLayout (slot + 1) rest (roster.add dictionaryLayout d slot kind)

/-- The rows of an index child against the file's. -/
def checkIndexChild (root : RdfStoreLayout) (child : IndexChild) : Except VortexRdfError Unit := do
  let layout ← (root.componentChild child.slot).mapError fun _ => VortexRdfError.vortex
  checkComponentRows ((root.data.components[child.slot]?.map (·.name)).getD "")
    layout.rowCount root.rowCount

def ComponentRoster.of : VortexFile → Except VortexRdfError ComponentRoster
  | .foreign encodingId _ =>
    .error (.deserialization [.text ("not a vortex-rdf store file: expected the " ++
      STORE_LAYOUT_ID ++ " root layout, found " ++ encodingId)])
  | .store root => do
    checkIdColumns "quad table" root.dtype
    let roster ← classifyFrom (fromDtype root.dtype = .dictionary) 0 root.data.components
      ⟨none, false, []⟩
    roster.indexChildren.forM (checkIndexChild root)
    return roster

/-! ### What a descriptor is to this version -/

/-- A table with an id column of another width than the one read. -/
def NarrowIds (dtype : DType) : Prop :=
  ∃ fields nullability, dtype = .struct fields nullability ∧ ∃ column ∈ fields, ∃ ptype null,
    column.2 = .primitive ptype null ∧ ptype ≠ .u64 ∧
      (isCodeColumnName column.1 = true ∨ column.1 = COL_RID)

/-- The index child a descriptor is of, by its implementation alone. -/
def indexIdentity (d : StoreComponentDescriptor) : Option ComponentIdentity :=
  if d.name = DICT_COMPONENT_NAME then none else knownComponent d.implementation

def kindOf (d : StoreComponentDescriptor) : ComponentKind :=
  if d.name = DICT_COMPONENT_NAME then .dict
  else (knownComponent d.implementation).elim .skip .index

/-- Descriptors an open refuses. -/
inductive Unreadable (d : StoreComponentDescriptor) : Prop where
  | foreignDict (hname : d.name = DICT_COMPONENT_NAME) (h : d.implementation ≠ DICT_IMPLEMENTATION)
  | newerDict (hname : d.name = DICT_COMPONENT_NAME) (h : DICT_VERSION < d.version)
  | newerIndex (identity : ComponentIdentity) (hknown : indexIdentity d = some identity)
      (h : INDEX_VERSION < d.version)
  | narrowIndex (identity : ComponentIdentity) (hknown : indexIdentity d = some identity)
      (h : NarrowIds d.dtype)
  | unknown (hname : d.name ≠ DICT_COMPONENT_NAME) (hknown : indexIdentity d = none)
      (h : d.required = true)

theorem forM_eq_ok {α ε : Type} {f : α → Except ε Unit} {l : List α} :
    l.forM f = .ok () ↔ ∀ a ∈ l, f a = .ok () := by
  induction l with
  | nil => simp [pure, Except.pure]
  | cons a l ih =>
    show (do f a; l.forM f) = .ok () ↔ _
    rw [List.forall_mem_cons]
    cases ha : f a with
    | error e => simp [error_bind]
    | ok _ => exact ih.trans (and_iff_right rfl).symm

theorem checkIdColumn_eq_ok {table : String} {column : String × FieldType} :
    checkIdColumn table column = .ok () ↔ ¬∃ ptype null, column.2 = .primitive ptype null ∧
      ptype ≠ .u64 ∧ (isCodeColumnName column.1 = true ∨ column.1 = COL_RID) := by
  obtain ⟨name, type⟩ := column
  cases type with
  | utf8 nullability => simp [checkIdColumn]
  | other spelling => simp [checkIdColumn]
  | primitive ptype nullability =>
    simp only [checkIdColumn, CODE_PTYPE, ROW_ID_PTYPE]
    by_cases hptype : ptype = .u64
    · simp [hptype]
    · by_cases hcode : isCodeColumnName name = true
      · simp [hptype, hcode]
      · by_cases hrid : name = COL_RID
        · rw [hrid] at hcode
          simp [hptype, hcode, hrid]
        · simp [hcode, hrid]

theorem checkIdColumns_eq_ok {table : String} {dtype : DType} :
    checkIdColumns table dtype = .ok () ↔ ¬NarrowIds dtype := by
  cases dtype with
  | leaf type => simp [checkIdColumns, NarrowIds]
  | struct fields nullability =>
    rw [checkIdColumns, forM_eq_ok, NarrowIds]
    constructor
    · rintro h ⟨_, _, heq, column, hcolumn, hnarrow⟩
      cases heq
      exact checkIdColumn_eq_ok.mp (h column hcolumn) hnarrow
    · intro h column hcolumn
      exact checkIdColumn_eq_ok.mpr fun hnarrow => h ⟨fields, nullability, rfl, column, hcolumn, hnarrow⟩

theorem indexIdentity_of_ne {d : StoreComponentDescriptor} (h : d.name ≠ DICT_COMPONENT_NAME) :
    indexIdentity d = knownComponent d.implementation := if_neg h

theorem name_ne_of_known {d : StoreComponentDescriptor} {identity : ComponentIdentity}
    (h : indexIdentity d = some identity) : d.name ≠ DICT_COMPONENT_NAME := by
  intro hname
  rw [indexIdentity, if_pos hname] at h
  cases h

/-- A descriptor is refused when it is unreadable, and else is what it is. -/
theorem classifyComponent_spec (d : StoreComponentDescriptor) :
    (Unreadable d ∧ ∃ e, classifyComponent d = .error e) ∨
      ¬Unreadable d ∧ classifyComponent d = .ok (kindOf d) := by
  unfold classifyComponent kindOf
  by_cases hname : d.name = DICT_COMPONENT_NAME
  · rw [if_pos hname, if_pos hname]
    by_cases himplementation : d.implementation ≠ DICT_IMPLEMENTATION
    · rw [if_pos himplementation]
      exact .inl ⟨.foreignDict hname himplementation, _, rfl⟩
    rw [if_neg himplementation]
    by_cases hversion : DICT_VERSION < d.version
    · rw [if_pos hversion]
      exact .inl ⟨.newerDict hname hversion, _, rfl⟩
    · rw [if_neg hversion]
      refine .inr ⟨?_, rfl⟩
      rintro (⟨-, h⟩ | ⟨-, h⟩ | ⟨_, hknown, -⟩ | ⟨_, hknown, -⟩ | ⟨hne, -, -⟩)
      · exact himplementation h
      · exact hversion h
      · exact name_ne_of_known hknown hname
      · exact name_ne_of_known hknown hname
      · exact hne hname
  · rw [if_neg hname, if_neg hname]
    -- not the dictionary: an index, or unknown, which only a required component may not be
    have hidentity := indexIdentity_of_ne hname
    cases hknown : knownComponent d.implementation with
    | none =>
      rw [hknown] at hidentity
      by_cases hrequired : d.required = true
      · simp only [hrequired, if_true]
        exact .inl ⟨.unknown hname hidentity hrequired, _, rfl⟩
      · simp only [hrequired]
        refine .inr ⟨?_, rfl⟩
        rintro (⟨hdict, -⟩ | ⟨hdict, -⟩ | ⟨_, h, -⟩ | ⟨_, h, -⟩ | ⟨-, -, h⟩)
        · exact hname hdict
        · exact hname hdict
        · rw [hidentity] at h
          cases h
        · rw [hidentity] at h
          cases h
        · exact hrequired h
    | some known =>
      rw [hknown] at hidentity
      by_cases hversion : INDEX_VERSION < d.version
      · simp only [hversion, if_true]
        exact .inl ⟨.newerIndex known hidentity hversion, _, rfl⟩
      simp only [hversion, if_false]
      by_cases hnarrow : NarrowIds d.dtype
      · refine .inl ⟨.narrowIndex known hidentity hnarrow, ?_⟩
        cases hids : checkIdColumns d.name d.dtype with
        | error e => exact ⟨e, rfl⟩
        | ok _ => exact absurd hnarrow (checkIdColumns_eq_ok.mp hids)
      · rw [checkIdColumns_eq_ok.mpr hnarrow]
        refine .inr ⟨?_, rfl⟩
        rintro (⟨hdict, -⟩ | ⟨hdict, -⟩ | ⟨_, -, h⟩ | ⟨_, -, h⟩ | ⟨-, h, -⟩)
        · exact hname hdict
        · exact hname hdict
        · exact hversion h
        · exact hnarrow h
        · rw [hidentity] at h
          cases h

/-! ### The pass over the inventory -/

/-- The roster of descriptors that are readable, those from `slot` on. -/
def rosterFrom (dictionaryLayout : Bool) (slot : ℕ) (ds : List StoreComponentDescriptor)
    (roster : ComponentRoster) : ComponentRoster :=
  (ds.zipIdx slot).foldl (fun r p => r.add dictionaryLayout p.1 p.2 (kindOf p.1)) roster

def indexChildrenFrom (slot : ℕ) (ds : List StoreComponentDescriptor) : List IndexChild :=
  (ds.zipIdx slot).filterMap fun p => (indexIdentity p.1).map fun identity => ⟨identity, p.2⟩

section Pass

variable {dictionaryLayout : Bool} {ds : List StoreComponentDescriptor}
  {d : StoreComponentDescriptor} (slot : ℕ) (roster : ComponentRoster)

theorem rosterFrom_cons : rosterFrom dictionaryLayout slot (d :: ds) roster =
    rosterFrom dictionaryLayout (slot + 1) ds (roster.add dictionaryLayout d slot (kindOf d)) := by
  rw [rosterFrom, List.zipIdx_cons, List.foldl_cons]
  rfl

theorem classifyFrom_spec :
    ((∃ d ∈ ds, Unreadable d) ∧ ∃ e, classifyFrom dictionaryLayout slot ds roster = .error e) ∨
      (¬∃ d ∈ ds, Unreadable d) ∧
        classifyFrom dictionaryLayout slot ds roster =
          .ok (rosterFrom dictionaryLayout slot ds roster) := by
  induction ds generalizing slot roster with
  | nil =>
    refine .inr ⟨?_, rfl⟩
    rintro ⟨d, hd, -⟩
    cases hd
  | cons d ds ih =>
    rw [classifyFrom, rosterFrom_cons]
    rcases classifyComponent_spec d with ⟨hbad, e, he⟩ | ⟨hgood, heq⟩
    · rw [he]
      exact .inl ⟨⟨d, List.mem_cons_self, hbad⟩, e, rfl⟩
    · rw [heq, ok_bind]
      rcases ih (slot + 1) (roster.add dictionaryLayout d slot (kindOf d)) with
        ⟨⟨d', hd', hbad⟩, he⟩ | ⟨hrest, heq⟩
      · exact .inl ⟨⟨d', List.mem_cons_of_mem d hd', hbad⟩, he⟩
      · refine .inr ⟨?_, heq⟩
        rintro ⟨d', hd', hbad⟩
        rcases List.mem_cons.mp hd' with rfl | hd'
        · exact hgood hbad
        · exact hrest ⟨d', hd', hbad⟩

omit slot roster in
theorem kindOf_eq_index {identity : ComponentIdentity} :
    kindOf d = .index identity ↔ indexIdentity d = some identity := by
  unfold kindOf indexIdentity
  by_cases hname : d.name = DICT_COMPONENT_NAME
  · simp [hname]
  · simp only [hname, if_false]
    cases knownComponent d.implementation <;> simp

omit slot roster in
theorem kindOf_eq_dict : kindOf d = .dict ↔ d.name = DICT_COMPONENT_NAME := by
  unfold kindOf
  by_cases hname : d.name = DICT_COMPONENT_NAME
  · simp [hname]
  · simp only [hname, if_false, iff_false]
    cases knownComponent d.implementation <;> simp

theorem add_indexChildren : (roster.add dictionaryLayout d slot (kindOf d)).indexChildren =
    roster.indexChildren ++ ((indexIdentity d).map fun identity => ⟨identity, slot⟩).toList := by
  cases hkind : kindOf d with
  | index identity =>
    rw [kindOf_eq_index.mp hkind]
    rfl
  | dict =>
    have hnone : indexIdentity d = none := if_pos (kindOf_eq_dict.mp hkind)
    rw [hnone, ComponentRoster.add]
    cases dictionaryLayout <;> simp
  | skip =>
    have hnone : indexIdentity d = none := by
      cases hidentity : indexIdentity d with
      | none => rfl
      | some identity =>
        rw [kindOf_eq_index.mpr hidentity] at hkind
        cases hkind
    rw [hnone, ComponentRoster.add]
    simp

theorem rosterFrom_indexChildren : (rosterFrom dictionaryLayout slot ds roster).indexChildren =
    roster.indexChildren ++ indexChildrenFrom slot ds := by
  induction ds generalizing slot roster with
  | nil => simp [rosterFrom, indexChildrenFrom]
  | cons d ds ih =>
    rw [rosterFrom_cons, ih, add_indexChildren, indexChildrenFrom, indexChildrenFrom,
      List.zipIdx_cons, List.filterMap_cons, List.append_assoc]
    cases indexIdentity d <;> rfl

/-- The roster's dictionary is the given one. -/
def ComponentRoster.HasDict (roster : ComponentRoster) (slot : ℕ) (bracketedIris : Bool) : Prop :=
  roster.dict = some slot ∧ roster.dictBracketedIris = bracketedIris

theorem add_dict_of_ne (h : d.name ≠ DICT_COMPONENT_NAME ∨ dictionaryLayout = false) :
    (roster.add dictionaryLayout d slot (kindOf d)).dict = roster.dict ∧
      (roster.add dictionaryLayout d slot (kindOf d)).dictBracketedIris =
        roster.dictBracketedIris := by
  cases hkind : kindOf d with
  | dict =>
    rcases h with hname | rfl
    · exact absurd (kindOf_eq_dict.mp hkind) hname
    · exact ⟨rfl, rfl⟩
  | index identity => exact ⟨rfl, rfl⟩
  | skip => exact ⟨rfl, rfl⟩

theorem rosterFrom_dict_of_ne
    (h : (∀ d ∈ ds, d.name ≠ DICT_COMPONENT_NAME) ∨ dictionaryLayout = false) :
    (rosterFrom dictionaryLayout slot ds roster).dict = roster.dict ∧
      (rosterFrom dictionaryLayout slot ds roster).dictBracketedIris =
        roster.dictBracketedIris := by
  induction ds generalizing slot roster with
  | nil => exact ⟨rfl, rfl⟩
  | cons d ds ih =>
    rw [rosterFrom_cons]
    have hrest := ih (slot + 1) (roster.add dictionaryLayout d slot (kindOf d))
      (h.imp_left fun hall d' hd' => hall d' (List.mem_cons_of_mem d hd'))
    have hd := add_dict_of_ne slot roster
      (h.imp_left fun hall => hall d List.mem_cons_self)
    exact ⟨hrest.1.trans hd.1, hrest.2.trans hd.2⟩

/-- Under the dictionary layout the inventory's dictionary is the roster's. -/
theorem rosterFrom_dict (hnodup : (ds.map (·.name)).Nodup) {i : ℕ} (hi : ds[i]? = some d)
    (hname : d.name = DICT_COMPONENT_NAME) :
    (rosterFrom true slot ds roster).HasDict (slot + i) d.bracketedIris := by
  induction ds generalizing slot roster i with
  | nil => cases hi
  | cons d' ds ih =>
    rw [List.map_cons, List.nodup_cons] at hnodup
    rw [rosterFrom_cons]
    cases i with
    | zero =>
      cases hi
      -- no further descriptor has the dictionary's name
      have hrest : ∀ d' ∈ ds, d'.name ≠ DICT_COMPONENT_NAME := by
        intro d' hd' hname'
        exact hnodup.1 (hname.trans hname'.symm ▸ List.mem_map_of_mem hd')
      obtain ⟨hdict, hbracketed⟩ := rosterFrom_dict_of_ne (slot + 1)
        (roster.add true d slot (kindOf d)) (.inl hrest)
      rw [kindOf_eq_dict.mpr hname] at hdict hbracketed ⊢
      exact ⟨hdict, hbracketed⟩
    | succ i =>
      rw [← Nat.add_assoc, Nat.add_right_comm]
      exact ih (slot + 1) _ hnodup.2 hi

end Pass

/-! ### The roster of an open file -/

/-- The root has a child of its type for each component. -/
structure RdfStoreLayout.Described (root : RdfStoreLayout) : Prop where
  valid : validateComponents root.data.components = .ok ()
  nchildren : root.children.nchildren = 1 + root.data.components.length
  child : ∀ {slot : ℕ} {d : StoreComponentDescriptor}, root.data.components[slot]? = some d →
    ∃ child, root.children.child (slot + 1) d.dtype = .ok child ∧ child.dtype = d.dtype
  slots : root.ReadsSlots

theorem checkChildren_eq_ok {children : LayoutChildren} {components : List StoreComponentDescriptor}
    {index : ℕ} (h : checkChildren children index components = .ok ()) {i : ℕ}
    {d : StoreComponentDescriptor} (hd : components[i]? = some d) :
    ∃ child, children.child (index + i + 1) d.dtype = .ok child ∧ child.dtype = d.dtype := by
  induction components generalizing index i with
  | nil => cases hd
  | cons c rest ih =>
    rw [checkChildren] at h
    cases hchild : children.child (index + 1) c.dtype with
    | error e =>
      rw [hchild] at h
      cases h
    | ok child =>
      rw [hchild, ok_bind] at h
      split at h
      case isTrue => cases h
      rename_i htype
      cases i with
      | zero =>
        cases hd
        exact ⟨child, hchild, not_not.mp htype⟩
      | succ i =>
        have hrest := ih h hd
        rwa [Nat.add_assoc index 1 i, Nat.add_comm 1 i] at hrest

theorem deserialize_described {serde : SerdeJson} {args : LayoutDeserializeArgs}
    {metadata : List UInt8} {data : RdfStoreLayoutData}
    {slot : ℕ → Except String (Option LayoutRef)}
    (h : deserialize serde args metadata = .ok data)
    (hslots : RdfStoreLayout.ReadsSlots ⟨args, data, slot⟩) :
    decodeStoreMetadata serde metadata = .ok (data.quadsSorted, data.components) ∧
      RdfStoreLayout.Described ⟨args, data, slot⟩ := by
  unfold deserialize at h
  cases hdecode : decodeStoreMetadata serde metadata with
  | error e =>
    rw [hdecode] at h
    cases h
  | ok decoded =>
    obtain ⟨quadsSorted, components⟩ := decoded
    rw [hdecode, ok_bind] at h
    dsimp only at h
    split at h
    case isTrue => cases h
    rename_i hcount
    cases hquads : args.children.child QUAD_SOURCE_CHILD args.dtype with
    | error e =>
      rw [hquads] at h
      cases h
    | ok quads =>
      rw [hquads, ok_bind] at h
      split at h
      case isTrue => cases h
      cases hchildren : checkChildren args.children 0 components with
      | error e =>
        rw [hchildren] at h
        cases h
      | ok _ =>
        rw [hchildren] at h
        cases h
        refine ⟨rfl, decode_validates hdecode, not_not.mp hcount, ?_, hslots⟩
        intro slot d hd
        have hchild := checkChildren_eq_ok hchildren hd
        rwa [Nat.zero_add] at hchild

namespace RdfStoreLayout

variable {root : RdfStoreLayout} {slot : ℕ} {d : StoreComponentDescriptor}

theorem childType_component (hd : root.data.components[slot]? = some d) :
    root.childType (QUAD_SOURCE_CHILD + 1 + slot) = some (.auxiliary d.name) := by
  have hne : QUAD_SOURCE_CHILD + 1 + slot ≠ QUAD_SOURCE_CHILD := by
    unfold QUAD_SOURCE_CHILD
    omega
  have hslot : QUAD_SOURCE_CHILD + 1 + slot - 1 = slot := by
    unfold QUAD_SOURCE_CHILD
    omega
  rw [childType, if_neg hne, hslot, hd]
  rfl

/-- The child in a component's slot is the one its descriptor describes. -/
theorem Described.componentChild (h : root.Described)
    (hd : root.data.components[slot]? = some d) :
    ∃ child, root.componentChild slot = .ok child ∧ child.dtype = d.dtype := by
  obtain ⟨child, hchild, htype⟩ := h.child hd
  refine ⟨child, ?_, htype⟩
  obtain ⟨hlt, -⟩ := List.getElem?_eq_some_iff.mp hd
  have hidx : QUAD_SOURCE_CHILD + 1 + slot = slot + 1 := by
    unfold QUAD_SOURCE_CHILD
    omega
  have hwithin : ¬root.children.nchildren ≤ slot + 1 := by
    rw [h.nchildren]
    omega
  have hdtype : root.childDtype (slot + 1) = .ok d.dtype := by
    rw [childDtype, if_neg (by unfold QUAD_SOURCE_CHILD; omega), Nat.add_sub_cancel, hd]
  rw [RdfStoreLayout.componentChild, hidx, h.slots, if_neg hwithin, hdtype, ok_bind,
    hchild]
  rfl

end RdfStoreLayout

/-- What an open refuses a store's root for. -/
inductive Refused (root : RdfStoreLayout) : Prop where
  | narrow (h : NarrowIds root.dtype)
  | unreadable (d : StoreComponentDescriptor) (hd : d ∈ root.data.components) (h : Unreadable d)
  | rows (slot : ℕ) (d : StoreComponentDescriptor) (identity : ComponentIdentity)
      (child : LayoutRef) (hd : root.data.components[slot]? = some d)
      (hidentity : indexIdentity d = some identity) (hchild : root.componentChild slot = .ok child)
      (h : child.rowCount ≠ root.rowCount)

/-- The roster names the index children this version knows, in order, each by the slot of the
child its descriptor describes, and the dictionary where the quad table holds codes. -/
structure ComponentRoster.Sound (roster : ComponentRoster) (root : RdfStoreLayout) : Prop where
  indexChildren_eq : roster.indexChildren = root.data.components.zipIdx.filterMap fun p =>
    (indexIdentity p.1).map fun identity => ⟨identity, p.2⟩
  child : ∀ c ∈ roster.indexChildren, ∃ d layout, root.data.components[c.slot]? = some d ∧
    indexIdentity d = some c.identity ∧ root.componentChild c.slot = .ok layout ∧
      layout.dtype = d.dtype ∧ layout.rowCount = root.rowCount ∧
        root.childType (QUAD_SOURCE_CHILD + 1 + c.slot) = some (.auxiliary d.name)
  dict_iff : ∀ slot, roster.dict = some slot ↔ fromDtype root.dtype = .dictionary ∧
    ∃ d, root.data.components[slot]? = some d ∧ d.name = DICT_COMPONENT_NAME
  dict : ∀ slot, roster.dict = some slot → ∃ d layout, root.data.components[slot]? = some d ∧
    roster.dictBracketedIris = d.bracketedIris ∧ root.componentChild slot = .ok layout ∧
      layout.dtype = d.dtype ∧
        root.childType (QUAD_SOURCE_CHILD + 1 + slot) = some (.auxiliary d.name)
  skipped_iff : ∀ slot d, root.data.components[slot]? = some d →
    ((roster.dict ≠ some slot ∧ ∀ c ∈ roster.indexChildren, c.slot ≠ slot) ↔
      (d.name ≠ DICT_COMPONENT_NAME ∧ knownComponent d.implementation = none ∧
          d.required = false) ∨
        (d.name = DICT_COMPONENT_NAME ∧ fromDtype root.dtype ≠ .dictionary))

section Opened

variable {root : RdfStoreLayout}

theorem mem_indexChildrenFrom {ds : List StoreComponentDescriptor} {c : IndexChild} :
    c ∈ indexChildrenFrom 0 ds ↔ ∃ d, ds[c.slot]? = some d ∧ indexIdentity d = some c.identity := by
  rw [indexChildrenFrom, List.mem_filterMap]
  constructor
  · rintro ⟨⟨d, slot⟩, hmem, hsome⟩
    obtain ⟨identity, hidentity, rfl⟩ := Option.map_eq_some_iff.mp hsome
    exact ⟨d, List.mem_zipIdx_iff_getElem?.mp hmem, hidentity⟩
  · rintro ⟨d, hd, hidentity⟩
    refine ⟨(d, c.slot), List.mem_zipIdx_iff_getElem?.mpr hd, ?_⟩
    rw [hidentity]
    rfl

/-- The roster of a root whose components are all readable. -/
def rosterOf (root : RdfStoreLayout) : ComponentRoster :=
  rosterFrom (fromDtype root.dtype = .dictionary) 0 root.data.components ⟨none, false, []⟩

theorem rosterOf_indexChildren :
    (rosterOf root).indexChildren = indexChildrenFrom 0 root.data.components := by
  rw [rosterOf, rosterFrom_indexChildren]
  rfl

theorem checkIndexChild_eq_ok {c : IndexChild} {child : LayoutRef}
    (hchild : root.componentChild c.slot = .ok child) :
    checkIndexChild root c = .ok () ↔ child.rowCount = root.rowCount := by
  rw [checkIndexChild, hchild]
  show checkComponentRows _ child.rowCount root.rowCount = .ok () ↔ _
  unfold checkComponentRows
  by_cases hrows : child.rowCount = root.rowCount
  · simp [hrows]
  · simp [hrows]

theorem rosterOf_dict (h : root.Described) {slot : ℕ} {d : StoreComponentDescriptor}
    (hd : root.data.components[slot]? = some d) (hname : d.name = DICT_COMPONENT_NAME)
    (hlayout : fromDtype root.dtype = .dictionary) :
    (rosterOf root).HasDict slot d.bracketedIris := by
  have hnodup := (validateComponents_eq_ok h.valid).2
  have hdict := rosterFrom_dict 0 ⟨none, false, []⟩ hnodup hd hname
  rw [Nat.zero_add] at hdict
  rwa [rosterOf, decide_eq_true hlayout]

theorem dict_of_rosterOf (h : root.Described) {slot : ℕ} (hdict : (rosterOf root).dict = some slot) :
    fromDtype root.dtype = .dictionary ∧
      ∃ d, root.data.components[slot]? = some d ∧ d.name = DICT_COMPONENT_NAME := by
  by_cases hlayout : fromDtype root.dtype = .dictionary
  · refine ⟨hlayout, ?_⟩
    by_cases hall : ∀ d ∈ root.data.components, d.name ≠ DICT_COMPONENT_NAME
    · rw [rosterOf, (rosterFrom_dict_of_ne _ _ (.inl hall)).1] at hdict
      cases hdict
    · push Not at hall
      obtain ⟨d, hmem, hname⟩ := hall
      obtain ⟨i, hi⟩ := List.mem_iff_getElem?.mp hmem
      have hslot := (rosterOf_dict h hi hname hlayout).1
      rw [hdict] at hslot
      cases hslot
      exact ⟨d, hi, hname⟩
  · have hnot : decide (fromDtype root.dtype = .dictionary) = false := decide_eq_false hlayout
    rw [rosterOf, (rosterFrom_dict_of_ne _ _ (.inr hnot)).1] at hdict
    cases hdict

/-- A component is left out just when this version has no use for it. -/
theorem rosterOf_skipped_iff (h : root.Described)
    (hreadable : ¬∃ d ∈ root.data.components, Unreadable d) {slot : ℕ}
    {d : StoreComponentDescriptor} (hd : root.data.components[slot]? = some d) :
    ((rosterOf root).dict ≠ some slot ∧ ∀ c ∈ (rosterOf root).indexChildren, c.slot ≠ slot) ↔
      (d.name ≠ DICT_COMPONENT_NAME ∧ knownComponent d.implementation = none ∧
          d.required = false) ∨
        (d.name = DICT_COMPONENT_NAME ∧ fromDtype root.dtype ≠ .dictionary) := by
  rw [rosterOf_indexChildren]
  constructor
  · rintro ⟨hdict, hchildren⟩
    by_cases hname : d.name = DICT_COMPONENT_NAME
    · exact .inr ⟨hname, fun hlayout => hdict (rosterOf_dict h hd hname hlayout).1⟩
    · have hidentity : indexIdentity d = none := by
        cases hsome : indexIdentity d with
        | none => rfl
        | some identity =>
          exact absurd rfl (hchildren ⟨identity, slot⟩ (mem_indexChildrenFrom.mpr ⟨d, hd, hsome⟩))
      refine .inl ⟨hname, by rwa [← indexIdentity_of_ne hname], ?_⟩
      by_contra hrequired
      rw [Bool.not_eq_false] at hrequired
      exact hreadable ⟨d, List.mem_of_getElem? hd, .unknown hname hidentity hrequired⟩
  · intro hskip
    constructor
    · intro hdict
      obtain ⟨hlayout, d', hd', hname⟩ := dict_of_rosterOf h hdict
      rw [hd] at hd'
      cases hd'
      rcases hskip with ⟨hne, -⟩ | ⟨-, hother⟩
      · exact hne hname
      · exact hother hlayout
    · rintro c hc rfl
      obtain ⟨d', hd', hidentity⟩ := mem_indexChildrenFrom.mp hc
      rw [hd] at hd'
      cases hd'
      rcases hskip with ⟨hne, hunknown, -⟩ | ⟨hname, -⟩
      · rw [indexIdentity_of_ne hne, hunknown] at hidentity
        cases hidentity
      · exact name_ne_of_known hidentity hname

theorem rosterOf_sound (h : root.Described) (hreadable : ¬∃ d ∈ root.data.components, Unreadable d)
    (hrows : ∀ c ∈ (rosterOf root).indexChildren, checkIndexChild root c = .ok ()) :
    (rosterOf root).Sound root where
  indexChildren_eq := rosterOf_indexChildren
  child c hc := by
    have hmem := hc
    rw [rosterOf_indexChildren] at hmem
    obtain ⟨d, hd, hidentity⟩ := mem_indexChildrenFrom.mp hmem
    obtain ⟨layout, hlayout, hdtype⟩ := h.componentChild hd
    exact ⟨d, layout, hd, hidentity, hlayout, hdtype,
      (checkIndexChild_eq_ok hlayout).mp (hrows c hc), RdfStoreLayout.childType_component hd⟩
  dict_iff slot := by
    constructor
    · intro hdict
      exact dict_of_rosterOf h hdict
    · rintro ⟨hlayout, d, hd, hname⟩
      exact (rosterOf_dict h hd hname hlayout).1
  dict slot hdict := by
    obtain ⟨hlayout, d, hd, hname⟩ := dict_of_rosterOf h hdict
    obtain ⟨layout, hchild, hdtype⟩ := h.componentChild hd
    exact ⟨d, layout, hd, (rosterOf_dict h hd hname hlayout).2, hchild, hdtype,
      RdfStoreLayout.childType_component hd⟩
  skipped_iff slot d hd := rosterOf_skipped_iff h hreadable hd

theorem of_store : ComponentRoster.of (.store root) = (do
    checkIdColumns "quad table" root.dtype
    let roster ← classifyFrom (fromDtype root.dtype = .dictionary) 0 root.data.components
      ⟨none, false, []⟩
    roster.indexChildren.forM (checkIndexChild root)
    return roster) := rfl

/-- An open refuses a described root, or reads its sound roster. -/
theorem of_spec (h : root.Described) :
    (Refused root ∧ ∃ e, ComponentRoster.of (.store root) = .error e) ∨
      ¬Refused root ∧ ∃ roster, ComponentRoster.of (.store root) = .ok roster ∧
        roster.Sound root := by
  rw [of_store]
  cases hids : checkIdColumns "quad table" root.dtype with
  | error e =>
    refine .inl ⟨.narrow ?_, e, rfl⟩
    by_contra hwide
    rw [checkIdColumns_eq_ok.mpr hwide] at hids
    cases hids
  | ok _ =>
    rw [ok_bind]
    have hwide := checkIdColumns_eq_ok.mp hids
    rcases classifyFrom_spec 0 ⟨none, false, []⟩ with
      ⟨⟨d, hd, hbad⟩, e, he⟩ | ⟨hreadable, hroster⟩
    · rw [he]
      exact .inl ⟨.unreadable d hd hbad, e, rfl⟩
    · rw [hroster, ok_bind]
      show (Refused root ∧ ∃ e, (do
          (rosterOf root).indexChildren.forM (checkIndexChild root)
          return rosterOf root) = .error e) ∨ ¬Refused root ∧ ∃ roster, (do
          (rosterOf root).indexChildren.forM (checkIndexChild root)
          return rosterOf root) = .ok roster ∧ roster.Sound root
      cases hrows : (rosterOf root).indexChildren.forM (checkIndexChild root) with
      | ok _ =>
        have hall := forM_eq_ok.mp hrows
        refine .inr ⟨?_, rosterOf root, rfl, rosterOf_sound h hreadable hall⟩
        rintro (hnarrow | ⟨d, hd, hbad⟩ | ⟨slot, d, identity, child, hd, hidentity, hchild, hne⟩)
        · exact hwide hnarrow
        · exact hreadable ⟨d, hd, hbad⟩
        · have hmem : (⟨identity, slot⟩ : IndexChild) ∈ (rosterOf root).indexChildren := by
            rw [rosterOf_indexChildren]
            exact mem_indexChildrenFrom.mpr ⟨d, hd, hidentity⟩
          exact hne ((checkIndexChild_eq_ok hchild).mp (hall _ hmem))
      | error e =>
        refine .inl ⟨?_, e, rfl⟩
        -- were no child short of rows, each would pass its check
        by_contra hfine
        have hall : ∀ c ∈ (rosterOf root).indexChildren, checkIndexChild root c = .ok () := by
          intro c hc
          rw [rosterOf_indexChildren] at hc
          obtain ⟨d, hd, hidentity⟩ := mem_indexChildrenFrom.mp hc
          obtain ⟨child, hchild, -⟩ := h.componentChild hd
          refine (checkIndexChild_eq_ok hchild).mpr ?_
          by_contra hne
          exact hfine (.rows c.slot d c.identity child hd hidentity hchild hne)
        rw [forM_eq_ok.mpr hall] at hrows
        cases hrows

end Opened

/-! ### The metadata and the roster read from it -/

/-- A valid inventory decodes to itself, whatever decodes is valid, and an open, where the library
reads each child under the type the root gives it, either refuses the root for one of the reasons
there are, or reads its sound roster. -/
theorem metadata_decodes_and_its_roster_is_sound (serde : SerdeJson) (quadsSorted : Bool)
    (components : List StoreComponentDescriptor)
    (hvalid : validateComponents components = .ok ())
    (hserde : ∀ json, WireMetadata.write ⟨STORE_METADATA_VERSION, quadsSorted, components⟩ =
      .ok json → serde.RoundTrips json) :
    (∃ bytes, encodeStoreMetadata serde quadsSorted components = .ok bytes ∧
      decodeStoreMetadata serde bytes = .ok (quadsSorted, components) ∧
      ∀ args data slot, deserialize serde args bytes = .ok data →
        RdfStoreLayout.ReadsSlots ⟨args, data, slot⟩ →
        data.quadsSorted = quadsSorted ∧ data.components = components ∧
        ((∃ e, ComponentRoster.of (.store ⟨args, data, slot⟩) = .error e) ↔
          Refused ⟨args, data, slot⟩) ∧
        ∀ roster, ComponentRoster.of (.store ⟨args, data, slot⟩) = .ok roster →
          roster.Sound ⟨args, data, slot⟩) ∧
      ∀ bytes sorted decoded, decodeStoreMetadata serde bytes = .ok (sorted, decoded) →
        validateComponents decoded = .ok () := by
  refine ⟨?_, fun bytes sorted decoded h => decode_validates h⟩
  obtain ⟨json, hwrite⟩ := write_of_valid quadsSorted hvalid
  obtain ⟨hencode, hdecode⟩ := decode_encode hvalid hwrite (hserde json hwrite)
  refine ⟨serde.toVec json, hencode, hdecode, ?_⟩
  intro args data slot hdata hslots
  obtain ⟨hsame, hdescribed⟩ := deserialize_described hdata hslots
  rw [hdecode] at hsame
  obtain ⟨hsorted, hcomponents⟩ := Prod.mk.inj (Except.ok.inj hsame)
  refine ⟨hsorted.symm, hcomponents.symm, ?_⟩
  rcases of_spec hdescribed with ⟨hrefused, e, he⟩ | ⟨hfine, roster, hroster, hsound⟩
  · refine ⟨iff_of_true ⟨e, he⟩ hrefused, ?_⟩
    intro roster hroster
    rw [he] at hroster
    cases hroster
  · constructor
    · refine iff_of_false ?_ hfine
      rintro ⟨e, he⟩
      rw [hroster] at he
      cases he
    · intro roster' hroster'
      rw [hroster] at hroster'
      cases hroster'
      exact hsound

namespace RosterSample

def dictFields : List WireField := [⟨"_dict_term", .utf8⟩]

/-- The fields of a copy index's child, its row ids of a given kind. -/
def indexFields (rid : WireFieldKind) : List WireField :=
  [⟨"s", .u64⟩, ⟨"p", .u64⟩, ⟨"o", .u64⟩, ⟨"g", .u64⟩, ⟨"rid", rid⟩]

def dict : StoreComponentDescriptor :=
  ⟨DICT_COMPONENT_NAME, .dictionary, DICT_IMPLEMENTATION, DICT_VERSION, true, true, false,
    wireFieldsToDtype dictFields⟩

def index (rid : WireFieldKind) : StoreComponentDescriptor :=
  ⟨"index:posg", .index, "secondary-by-copy/posg", INDEX_VERSION, false, true, false,
    wireFieldsToDtype (indexFields rid)⟩

def components (rid : WireFieldKind) : List StoreComponentDescriptor := [dict, index rid]

def json (rid : WireFieldKind) : Json :=
  WireMetadata.object STORE_METADATA_VERSION true
    [.obj (dict.entries dictFields), .obj ((index rid).entries (indexFields rid))]

/-- The metadata's bytes after the opening brace. -/
def text (rid : WireFieldKind) : String :=
  "\"version\":1,\"quads_sorted\":true,\"components\":[" ++
    "\x7b\"name\":\"dictionary\",\"role\":\"dictionary\"," ++
    "\"implementation\":\"sorted-terms-fsst-v1\",\"version\":2,\"required\":true," ++
    "\"sorted\":true,\"fields\":[\x7b\"name\":\"_dict_term\",\"kind\":\"utf8\"\x7d]\x7d," ++
    "\x7b\"name\":\"index:posg\",\"role\":\"index\"," ++
    "\"implementation\":\"secondary-by-copy/posg\",\"version\":1,\"required\":false," ++
    "\"sorted\":true,\"fields\":[\x7b\"name\":\"s\",\"kind\":\"u64\"\x7d," ++
    "\x7b\"name\":\"p\",\"kind\":\"u64\"\x7d,\x7b\"name\":\"o\",\"kind\":\"u64\"\x7d," ++
    "\x7b\"name\":\"g\",\"kind\":\"u64\"\x7d,\x7b\"name\":\"rid\",\"kind\":\"" ++ rid.name ++
    "\"\x7d]\x7d]\x7d"

def bytes (rid : WireFieldKind) : List UInt8 := 0x7b :: (text rid).toUTF8.toList

/-- The library at the sample's metadata. -/
def serde (rid : WireFieldKind) : SerdeJson where
  toVec _ := bytes rid
  fromSlice slice := if slice = bytes rid then some (json rid) else none
  message _ := "expected value at line 1 column 1"
  fromSlice_nil := if_neg (List.cons_ne_nil 0x7b (text rid).toUTF8.toList).symm

def codes : DType :=
  wireFieldsToDtype [⟨"s", .u64⟩, ⟨"p", .u64⟩, ⟨"o", .u64⟩, ⟨"g", .u64⟩]

/-- A root of three quads, each child read with as many rows. -/
def args : LayoutDeserializeArgs := ⟨codes, 3, ⟨3, fun _ dtype => .ok ⟨dtype, 3⟩⟩⟩

/-- The children of the root, the quads before the components. -/
def slot (rid : WireFieldKind) (idx : ℕ) : Except String (Option LayoutRef) :=
  .ok ((codes :: (components rid).map (·.dtype))[idx]?.map fun dtype => ⟨dtype, 3⟩)

theorem readsSlots (rid : WireFieldKind) :
    RdfStoreLayout.ReadsSlots ⟨args, ⟨true, components rid⟩, slot rid⟩ := by
  intro idx
  rcases idx with _ | _ | _ | idx
  · rfl
  · rfl
  · rfl
  · show _ = if 3 ≤ idx + 3 then _ else _
    rw [if_pos (Nat.le_add_left 3 idx)]
    rfl

theorem write_eq (rid : WireFieldKind) :
    WireMetadata.write ⟨STORE_METADATA_VERSION, true, components rid⟩ = .ok (json rid) := by
  cases rid <;> rfl

theorem roundTrips (rid : WireFieldKind) : (serde rid).RoundTrips (json rid) := if_pos rfl

theorem validate_eq (rid : WireFieldKind) : validateComponents (components rid) = .ok () := by
  cases rid <;> rfl

theorem deserialize_eq (rid : WireFieldKind) :
    deserialize (serde rid) args (bytes rid) = .ok ⟨true, components rid⟩ := by
  have hdecode : decodeStoreMetadata (serde rid) (bytes rid) = .ok (true, components rid) :=
    (decode_encode (validate_eq rid) (write_eq rid) (roundTrips rid)).2
  rw [deserialize, hdecode]
  cases rid <;> rfl

end RosterSample

/-- The sample's metadata round-trips, and the roster of its root names the index child. -/
theorem metadata_decodes_and_its_roster_is_sound_sample :
    ∃ bytes, encodeStoreMetadata (RosterSample.serde .u64) true (RosterSample.components .u64) =
        .ok bytes ∧
      decodeStoreMetadata (RosterSample.serde .u64) bytes =
        .ok (true, RosterSample.components .u64) ∧
      ∃ data roster, deserialize (RosterSample.serde .u64) RosterSample.args bytes = .ok data ∧
        ComponentRoster.of (.store ⟨RosterSample.args, data, RosterSample.slot .u64⟩) = .ok roster ∧
        roster.Sound ⟨RosterSample.args, data, RosterSample.slot .u64⟩ ∧
        roster = ⟨some 0, false, [⟨CopyFamily.posg.identity, 1⟩]⟩ := by
  obtain ⟨⟨bytes, hencode, hdecode, hroot⟩, -⟩ := metadata_decodes_and_its_roster_is_sound
    (RosterSample.serde .u64) true (RosterSample.components .u64) (RosterSample.validate_eq .u64)
    (fun json hjson => by
      rw [RosterSample.write_eq] at hjson
      cases hjson
      exact RosterSample.roundTrips .u64)
  have hsame : RosterSample.bytes .u64 = bytes := by
    have hwritten := (decode_encode (RosterSample.validate_eq .u64) (RosterSample.write_eq .u64)
      (RosterSample.roundTrips .u64)).1
    rw [hencode] at hwritten
    exact (Except.ok.inj hwritten).symm
  have hdata := RosterSample.deserialize_eq .u64
  rw [hsame] at hdata
  obtain ⟨-, -, -, hroster⟩ := hroot _ _ _ hdata (RosterSample.readsSlots .u64)
  have hread : ComponentRoster.of
      (.store ⟨RosterSample.args, ⟨true, RosterSample.components .u64⟩, RosterSample.slot .u64⟩) =
        .ok ⟨some 0, false, [⟨CopyFamily.posg.identity, 1⟩]⟩ := rfl
  exact ⟨bytes, hencode, hdecode, _, _, hdata, hread, hroster _ hread, rfl⟩

/-- An index child of this version with a row for each quad and no required component unknown,
yet refused: its row ids are of another width. -/
theorem narrow_row_ids_are_refused :
    ∃ serde args bytes data slot, deserialize serde args bytes = .ok data ∧
      RdfStoreLayout.ReadsSlots ⟨args, data, slot⟩ ∧
      (∃ e, ComponentRoster.of (.store ⟨args, data, slot⟩) = .error e) ∧
      (∀ d ∈ data.components, kindOf d ≠ .skip) ∧
      (∀ d ∈ data.components, kindOf d = .dict → d.version ≤ DICT_VERSION) ∧
      (∀ d ∈ data.components, kindOf d ≠ .dict → d.version ≤ INDEX_VERSION) ∧
      ∀ idx dtype child, args.children.child idx dtype = .ok child →
        child.rowCount = args.rowCount := by
  refine ⟨RosterSample.serde .u32, RosterSample.args, RosterSample.bytes .u32, _,
    RosterSample.slot .u32, RosterSample.deserialize_eq .u32, RosterSample.readsSlots .u32, ?_,
    by decide, by decide, by decide, ?_⟩
  · have hdescribed := (deserialize_described (RosterSample.deserialize_eq .u32)
      (RosterSample.readsSlots .u32)).2
    have hnarrow : NarrowIds (RosterSample.index .u32).dtype :=
      ⟨_, _, rfl, ("rid", .primitive .u32 .nonNullable), by decide, .u32, .nonNullable, rfl,
        by decide, .inr rfl⟩
    have hrefused : Refused
        ⟨RosterSample.args, ⟨true, RosterSample.components .u32⟩, RosterSample.slot .u32⟩ :=
      .unreadable (RosterSample.index .u32) (List.mem_of_getElem? (i := 1) rfl)
        (.narrowIndex CopyFamily.posg.identity (by decide) hnarrow)
    rcases of_spec hdescribed with ⟨-, he⟩ | ⟨hfine, -⟩
    · exact he
    · exact absurd hrefused hfine
  · intro idx dtype child hchild
    cases hchild
    rfl

end Container
