/-
JSON values, and the records a derived codec reads and writes as objects.

A record is written as an object of its fields, and read from one by their names, in any
order, other keys passed over and a repeated one refused; or from an array of them, by their
places.  A field that is absent may have a default.

* `Json` — a value;
* `Codec` — a type's values as JSON values, read back as they were written;
* `Codec.list`, `Codec.variants` — lists, and enumerations under their names;
* `fields`, `fields_obj` — the fields of a record, and how an object gives them.
-/
import Mathlib.Data.List.Basic
import Mathlib.Data.List.Nodup

/-- A JSON value; numbers that are no natural number keep their text. -/
inductive Json where
  | null
  | bool (b : Bool)
  | nat (n : ℕ)
  | number (text : String)
  | str (s : String)
  | arr (elems : List Json)
  | obj (entries : List (String × Json))

namespace Json

/-- A type's values written as JSON values and read back. -/
structure Codec (α : Type) where
  write : α → Json
  read : Json → Option α
  read_write : ∀ a, read (write a) = some a

namespace Codec

variable {α : Type}

def readBool : Json → Option Bool
  | .bool b => some b
  | _ => none

def readString : Json → Option String
  | .str s => some s
  | _ => none

def readUInt32 : Json → Option UInt32
  | .nat n => if n < 4294967296 then some (UInt32.ofNat n) else none
  | _ => none

def readList (read : Json → Option α) : Json → Option (List α)
  | .arr elems => elems.mapM read
  | _ => none

/-- An enumeration's value, from its name or from an object of its name alone. -/
def readVariant (all : List (String × α)) : Json → Option α
  | .str s => all.lookup s
  | .obj [(s, .null)] => all.lookup s
  | _ => none

def bool : Codec Bool := ⟨.bool, readBool, fun _ => rfl⟩

def string : Codec String := ⟨.str, readString, fun _ => rfl⟩

theorem readUInt32_toNat (n : UInt32) : readUInt32 (.nat n.toNat) = some n := by
  rw [readUInt32, if_pos n.toNat_lt, UInt32.ofNat_toNat]

def uInt32 : Codec UInt32 := ⟨fun n => .nat n.toNat, readUInt32, readUInt32_toNat⟩

theorem readList_map (c : Codec α) (l : List α) : readList c.read (.arr (l.map c.write)) = some l := by
  rw [readList]
  induction l with
  | nil => rfl
  | cons a l ih =>
    rw [List.map_cons, List.mapM_cons, c.read_write, ih]
    rfl

def list (c : Codec α) : Codec (List α) :=
  ⟨fun l => .arr (l.map c.write), readList c.read, readList_map c⟩

/-- An enumeration, written as the names of its values. -/
def variants (all : List (String × α)) (name : α → String) (h : ∀ a, all.lookup (name a) = some a) :
    Codec α :=
  ⟨fun a => .str (name a), readVariant all, h⟩

/-- A field's value; the field must be there. -/
def field (c : Codec α) (value : Option Json) : Option α := value.bind c.read

/-- A field's value, or another where the field is absent. -/
def fieldOr (c : Codec α) (absent : α) : Option Json → Option α
  | none => some absent
  | some value => c.read value

@[simp]
theorem field_write (c : Codec α) (a : α) : c.field (some (c.write a)) = some a := c.read_write a

@[simp]
theorem fieldOr_write (c : Codec α) (absent a : α) :
    c.fieldOr absent (some (c.write a)) = some a := c.read_write a

@[simp]
theorem fieldOr_none (c : Codec α) (absent : α) : c.fieldOr absent none = some absent := rfl

end Codec

/-! ### Records -/

/-- The value of a key, none where it is absent; a key that is repeated is refused. -/
def entry (entries : List (String × Json)) (name : String) : Option (Option Json) :=
  match entries.filter (fun e => e.1 == name) with
  | [] => some none
  | [e] => some (some e.2)
  | _ => none

/-- The fields of a record by their names, each none where it is absent. -/
def fields (names : List String) : Json → Option (List (Option Json))
  | .obj entries => names.mapM (entry entries)
  | .arr elems =>
    if names.length < elems.length then none
    else some ((List.range names.length).map fun i => elems[i]?)
  | _ => none

theorem entry_lookup {entries : List (String × Json)} (h : (entries.map Prod.fst).Nodup)
    (name : String) : entry entries name = some (entries.lookup name) := by
  rw [entry]
  induction entries with
  | nil => rfl
  | cons e entries ih =>
    obtain ⟨hnot, hrest⟩ := List.nodup_cons.mp h
    have ih := ih hrest
    rw [List.filter_cons, List.lookup_cons]
    by_cases hname : e.1 = name
    · have hothers : entries.filter (fun e => e.1 == name) = [] := by
        refine List.filter_eq_nil_iff.mpr fun e' he' => ?_
        rw [beq_iff_eq, ← hname]
        rintro heq
        exact hnot (heq ▸ List.mem_map_of_mem he')
      rw [hothers, if_pos (beq_iff_eq.mpr hname), beq_iff_eq.mpr hname.symm]
    · have hname' : ¬name = e.1 := fun heq => hname heq.symm
      rw [if_neg (by rwa [beq_iff_eq]), beq_eq_false_iff_ne.mpr hname']
      exact ih

/-- An object without repeated keys gives each field it has. -/
theorem fields_obj {entries : List (String × Json)} (h : (entries.map Prod.fst).Nodup)
    (names : List String) : fields names (.obj entries) = 
      some (names.map fun name => entries.lookup name) := by
  rw [fields]
  induction names with
  | nil => rfl
  | cons name names ih =>
    rw [List.mapM_cons, entry_lookup h, ih]
    rfl

end Json
