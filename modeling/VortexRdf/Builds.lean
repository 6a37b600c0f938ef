/-
A built dataset: its dictionary, its sorted code rows and its index children.

* `Key`, `Row`, `CopyFamily` — quads of codes or of terms, and the three orders they are
  sorted in;
* `QuadCodes`, `buildCodeChunk` — the code columns of the rows;
* `copyComponents`, `referenceComponents`, `buildComponents` — the index children of a
  dataset in memory;
* `TermDictionary.fromSortedColumn` — the dictionary of sorted terms;
* `built` — the dataset of some quads: each term once, in order, and each quad once, as
  its terms' ranks.
-/
import VortexRdf.Buffers
import VortexRdf.DistinctSort
import VortexRdf.Lexicographic
import VortexRdf.Programs
import VortexRdf.TermChunks
import Mathlib.Data.Prod.Lex

namespace Builds

open Dictionary DistinctSort Store Terms
open scoped Lexicographic

/-! ### Quads and their orders -/

/-- Four values, compared from the first on. -/
abbrev Key (α : Type) : Type := α ×ₗ α ×ₗ α ×ₗ α

def key {α : Type} (a b c d : α) : Key α := toLex (a, toLex (b, toLex (c, d)))

/-- A quad as terms, as codes or as ranks. -/
@[ext]
structure Row (α : Type) where
  s : α
  p : α
  o : α
  g : α
deriving DecidableEq

namespace Row

variable {α β : Type}

def map (f : α → β) (r : Row α) : Row β := ⟨f r.s, f r.p, f r.o, f r.g⟩

def terms (r : Row α) : List α := [r.s, r.p, r.o, r.g]

def spog (r : Row α) : Key α := key r.s r.p r.o r.g

/-- A row with each value replaced by a step that may fail, in order. -/
def mapM {ε : Type} (f : α → Except ε β) (r : Row α) : Except ε (Row β) := do
  return ⟨← f r.s, ← f r.p, ← f r.o, ← f r.g⟩

theorem mapM_eq_ok {ε : Type} {f : α → Except ε β} {g : α → β} {r : Row α}
    (h : ∀ a ∈ r.terms, f a = .ok (g a)) : r.mapM f = .ok (r.map g) := by
  simp only [terms, List.forall_mem_cons] at h
  rw [mapM, h.1, h.2.1, h.2.2.1, h.2.2.2.1]
  rfl

theorem spog_injective : Function.Injective (spog : Row α → Key α) := by
  rintro ⟨s, p, o, g⟩ ⟨s', p', o', g'⟩ h
  simp only [spog, key, EmbeddingLike.apply_eq_iff_eq, Prod.mk.injEq] at h
  obtain ⟨rfl, rfl, rfl, rfl⟩ := h
  rfl

end Row

/-- Rows compare by subject, then predicate, object and graph. -/
scoped instance rowOrder {α : Type} [LinearOrder α] : LinearOrder (Row α) :=
  LinearOrder.lift' Row.spog Row.spog_injective

def rawRow (q : RawQuad) : Row Str := ⟨q.s, q.p, q.o, q.g⟩

def rawQuad (r : Row Str) : RawQuad := ⟨r.s, r.p, r.o, r.g⟩

/-- The sort orders of the copy index. -/
inductive CopyFamily where
  | posg
  | ospg
deriving DecidableEq

namespace CopyFamily

variable {α : Type}

/-- A row in the family's key order. -/
def key : CopyFamily → Row α → Key α
  | posg, r => Builds.key r.p r.o r.s r.g
  | ospg, r => Builds.key r.o r.s r.p r.g

/-- The row of a key, by the place of each component in it. -/
def row : CopyFamily → Key α → Row α
  | posg, k => ⟨k.2.2.1, k.1, k.2.1, k.2.2.2⟩
  | ospg, k => ⟨k.2.1, k.2.2.1, k.1, k.2.2.2⟩

@[simp] theorem row_key (family : CopyFamily) (r : Row α) : family.row (family.key r) = r := by
  cases family <;> rfl

theorem key_injective (family : CopyFamily) : Function.Injective (family.key : Row α → Key α) :=
  Function.LeftInverse.injective (row_key family)

end CopyFamily

/-! ### Code columns -/

/-- The code columns of some rows. -/
structure QuadCodes where
  s : List TermCode
  p : List TermCode
  o : List TermCode
  g : List TermCode
deriving DecidableEq

namespace QuadCodes

def push (codes : QuadCodes) (r : Row TermCode) : QuadCodes :=
  ⟨codes.s ++ [r.s], codes.p ++ [r.p], codes.o ++ [r.o], codes.g ++ [r.g]⟩

/-- The columns after each row in turn. -/
def ofRows (rows : List (Row TermCode)) : QuadCodes := rows.foldl push ⟨[], [], [], []⟩

def rowAt (codes : QuadCodes) (i : ℕ) : Row TermCode :=
  ⟨codes.s.getD i 0, codes.p.getD i 0, codes.o.getD i 0, codes.g.getD i 0⟩

/-- The rows of the columns, up to the end of the shortest. -/
def rows (codes : QuadCodes) : List (Row TermCode) :=
  (((codes.s.zip codes.p).zip codes.o).zip codes.g).map fun row =>
    ⟨row.1.1.1, row.1.1.2, row.1.2, row.2⟩

end QuadCodes

/-- A chunk of code columns, and whether its subjects are stamped sorted. -/
structure CodeChunk where
  codes : QuadCodes
  sSorted : Bool
deriving DecidableEq

/-- The chunk of the rows from `start` up to `stop`. -/
def buildCodeChunk (codes : QuadCodes) (start stop : ℕ) (sSorted : Bool) : CodeChunk :=
  let cut := fun column : List TermCode => (column.take stop).drop start
  ⟨⟨cut codes.s, cut codes.p, cut codes.o, cut codes.g⟩, sSorted⟩

/-! ### Index children -/

inductive IndexType where
  | secondaryByCopy
  | secondaryByReference
deriving DecidableEq

def ALL_INDEX_TYPES : List IndexType := [.secondaryByCopy, .secondaryByReference]

structure ComponentIdentity where
  name : String
  slug : String
  index : IndexType
deriving DecidableEq

/-- One child of an index: its columns under their names, in its key order. -/
structure IndexComponent where
  identity : ComponentIdentity
  columns : List (String × List ℕ)
deriving DecidableEq

def COL_S : String := "s"
def COL_P : String := "p"
def COL_O : String := "o"
def COL_G : String := "g"
def COL_RID : String := "rid"
def COL_VAL : String := "val"

def CopyFamily.identity : CopyFamily → ComponentIdentity
  | posg => ⟨"index:posg", "secondary-by-copy/posg", .secondaryByCopy⟩
  | ospg => ⟨"index:ospg", "secondary-by-copy/ospg", .secondaryByCopy⟩

inductive RefFamily where
  | object
  | predicate
deriving DecidableEq

def RefFamily.identity : RefFamily → ComponentIdentity
  | object => ⟨"index:ref-o", "secondary-by-reference/o", .secondaryByReference⟩
  | predicate => ⟨"index:ref-p", "secondary-by-reference/p", .secondaryByReference⟩

/-- `RowId::MAX` -/
def ROW_ID_MAX : RowId := 18446744073709551615

/-- The most quads an indexed build numbers. -/
def rowLimit : ℕ := ROW_ID_MAX

/-- A number with its thousands set apart. -/
def withSeparators (n : ℕ) : String :=
  let digits := (toString n).toList
  String.ofList (digits.zipIdx.flatMap fun p =>
    if 0 < p.2 ∧ (digits.length - p.2) % 3 = 0 then [',', p.1] else [p.1])

def tooManyRows (rows : Option ℕ) : VortexRdfError :=
  .serialization [.text ("the store would exceed " ++ withSeparators rowLimit ++ " quads" ++
    (rows.map fun n => " (" ++ withSeparators n ++ " quads)").getD "" ++
    ", the most a store with secondary indexes can number: an index child records each row id as a " ++
    "u64, and no id is wrapped")]

def checkIndexedRows (rows : ℕ) : Except VortexRdfError Unit :=
  if rowLimit < rows then .error (tooManyRows (some rows)) else .ok ()

/-- Row `i`'s id as a child records it. -/
def rowId (i : ℕ) : RowId := i

def baseRow (rid : RowId) : ℕ := rid

/-- The columns of a copy child: its rows, each with its row id. -/
def copyColumns (entries : List (Row TermCode × RowId)) : List (String × List ℕ) :=
  [(COL_S, entries.map (·.1.s)), (COL_P, entries.map (·.1.p)), (COL_O, entries.map (·.1.o)),
    (COL_G, entries.map (·.1.g)), (COL_RID, entries.map (·.2))]

/-- The positions of the rows in a family's order. -/
def codePerm (codes : QuadCodes) (family : CopyFamily) : List ℕ :=
  sortBy (fun i => family.key (codes.rowAt i)) (List.range codes.s.length)

def copyComponent (codes : QuadCodes) (family : CopyFamily) : IndexComponent :=
  ⟨family.identity, copyColumns ((codePerm codes family).map fun i => (codes.rowAt i, rowId i))⟩

def copyComponents (codes : QuadCodes) : List IndexComponent :=
  [copyComponent codes .posg, copyComponent codes .ospg]

/-- The columns of a reference child: each value with its row id and that row's graph. -/
def referenceColumns (entries : List (TermCode × RowId × TermCode)) : List (String × List ℕ) :=
  [(COL_VAL, entries.map (·.1)), (COL_RID, entries.map (·.2.1)), (COL_G, entries.map (·.2.2))]

def referenceComponent (codes : QuadCodes) (column : List TermCode) (family : RefFamily) :
    IndexComponent :=
  let pairs : List (TermCode ×ₗ RowId) :=
    sortBy id (column.zipIdx.map fun p => toLex (p.1, rowId p.2))
  ⟨family.identity, referenceColumns (pairs.map fun pair =>
    (pair.1, pair.2, codes.g.getD (baseRow pair.2) 0))⟩

def referenceComponents (codes : QuadCodes) : List IndexComponent :=
  [referenceComponent codes codes.o .object, referenceComponent codes codes.p .predicate]

def IndexType.components (codes : QuadCodes) : IndexType → List IndexComponent
  | secondaryByCopy => copyComponents codes
  | secondaryByReference => referenceComponents codes

/-- The requested indexes' children over a whole dataset. -/
def buildComponents (indexes : List IndexType) (codes : QuadCodes) :
    Except VortexRdfError (List IndexComponent) := do
  if indexes ≠ [] then checkIndexedRows codes.s.length
  return (ALL_INDEX_TYPES.filter (· ∈ indexes)).flatMap (IndexType.components codes)

/-! ### Dictionaries -/

/-- The most terms a dictionary holds: `i32::MAX`. -/
def TERM_CAP : ℕ := 2147483647

def tooManyTerms (count : ℕ) : VortexRdfError :=
  .serialization [.text ("Dictionary of " ++ toString count ++
    " unique terms exceeds the supported maximum (" ++ toString TERM_CAP ++ ")")]

def DICT_CHUNK_ROWS : ℕ := 64 * 1024

/-- The terms in windows of `window`. -/
def compressWindowed (window : ℕ) (terms : List Str) : List TermChunk :=
  if terms = [] then [terms]
  else if terms.length ≤ window then [terms]
  else Buffers.chunks window terms

theorem compressWindowed_flatten {window : ℕ} (h : 0 < window) (terms : List Str) :
    (compressWindowed window terms).flatten = terms := by
  rw [compressWindowed]
  split_ifs
  · exact List.flatten_singleton
  · exact List.flatten_singleton
  · exact Buffers.chunks_flatten h terms

/-- The dictionary of sorted terms, in windows. -/
def fromSortedColumn (terms : List Str) : Except VortexRdfError TermDictionary :=
  if h : TERM_CAP < terms.length then .error (tooManyTerms terms.length)
  else .ok {
    chunks := compressWindowed DICT_CHUNK_ROWS terms
    len_le := by
      rw [compressWindowed_flatten (by decide)]
      have hcap : TERM_CAP ≤ usizeMax := by decide
      omega }

theorem fromSortedColumn_terms {terms : List Str} {dict : TermDictionary}
    (h : fromSortedColumn terms = .ok dict) : dict.terms = terms := by
  rw [fromSortedColumn] at h
  split_ifs at h
  rw [← Except.ok.inj h]
  exact compressWindowed_flatten (by decide) terms

/-! ### The dataset of some quads -/

structure BuiltArray where
  array : CodeChunk
  components : List IndexComponent
  dict : TermDictionary

/-- The terms of some quads in order, each once. -/
def termsOf (quads : List (Row Str)) : List Str := distinctSort (quads.flatMap Row.terms)

/-- The quads as their terms' ranks, in order, each once. -/
def codeRows (quads : List (Row Str)) : List (Row TermCode) :=
  distinctSort (quads.map (Row.map (termsOf quads).idxOf))

/-- The dataset of some quads. -/
def built (quads : List (Row Str)) (indexes : List IndexType) : Except VortexRdfError BuiltArray := do
  let dict ← fromSortedColumn (termsOf quads)
  let components ← buildComponents indexes (QuadCodes.ofRows (codeRows quads))
  return ⟨⟨QuadCodes.ofRows (codeRows quads), true⟩, components, dict⟩

theorem termsOf_congr {quads quads' : List (Row Str)} (h : ∀ q, q ∈ quads ↔ q ∈ quads') :
    termsOf quads = termsOf quads' := by
  refine distinctSort_congr fun t => ?_
  simp only [List.mem_flatMap, h]

/-- Repeats and order aside, the same quads make the same dataset. -/
theorem built_congr {quads quads' : List (Row Str)} (h : ∀ q, q ∈ quads ↔ q ∈ quads') :
    built quads = built quads' := by
  have hterms := termsOf_congr h
  have hrows : codeRows quads = codeRows quads' := by
    rw [codeRows, codeRows, hterms]
    refine distinctSort_congr fun r => ?_
    simp only [List.mem_map, h]
  funext indexes
  rw [built, built, hterms, hrows]

/-! ### Ranks -/

section Ranks

variable {α : Type} [LinearOrder α]

/-- Ranks keep the order of the terms. -/
theorem idxOf_lt_idxOf [BEq α] [LawfulBEq α] {terms : List α} (h : terms.SortedLT) {t t' : α} (ht : t ∈ terms)
    (ht' : t' ∈ terms) (hlt : t < t') : terms.idxOf t < terms.idxOf t' := by
  have hi := List.idxOf_lt_length_of_mem ht
  have hj := List.idxOf_lt_length_of_mem ht'
  refine h.getElem_lt_getElem_iff.mp (show terms[terms.idxOf t] < terms[terms.idxOf t'] from ?_)
  rw [List.getElem_idxOf, List.getElem_idxOf]
  exact hlt

theorem row_lt_iff {r r' : Row α} : r < r' ↔ r.s < r'.s ∨ r.s = r'.s ∧ (r.p < r'.p ∨
    r.p = r'.p ∧ (r.o < r'.o ∨ r.o = r'.o ∧ r.g < r'.g)) := by
  change r.spog < r'.spog ↔ _
  simp only [Row.spog, key, Prod.Lex.toLex_lt_toLex]

/-- A map that keeps the order of two rows' terms keeps the order of the rows. -/
theorem map_lt_map {β : Type} [LinearOrder β] {f : α → β} {r r' : Row α}
    (hf : ∀ a ∈ r.terms, ∀ b ∈ r'.terms, a < b → f a < f b) (h : r < r') : r.map f < r'.map f := by
  have hs : r.s ∈ r.terms ∧ r'.s ∈ r'.terms := by simp [Row.terms]
  have hp : r.p ∈ r.terms ∧ r'.p ∈ r'.terms := by simp [Row.terms]
  have ho : r.o ∈ r.terms ∧ r'.o ∈ r'.terms := by simp [Row.terms]
  have hg : r.g ∈ r.terms ∧ r'.g ∈ r'.terms := by simp [Row.terms]
  rw [row_lt_iff] at h ⊢
  rcases h with hlt | ⟨heq, hlt | ⟨heq', hlt | ⟨heq'', hlt⟩⟩⟩
  · exact Or.inl (hf _ hs.1 _ hs.2 hlt)
  · exact Or.inr ⟨congrArg f heq, Or.inl (hf _ hp.1 _ hp.2 hlt)⟩
  · exact Or.inr ⟨congrArg f heq, Or.inr ⟨congrArg f heq', Or.inl (hf _ ho.1 _ ho.2 hlt)⟩⟩
  · exact Or.inr ⟨congrArg f heq, Or.inr ⟨congrArg f heq', Or.inr ⟨congrArg f heq'',
      hf _ hg.1 _ hg.2 hlt⟩⟩⟩

end Ranks

theorem mem_termsOf {quads : List (Row Str)} {t : Str} :
    t ∈ termsOf quads ↔ ∃ q ∈ quads, t ∈ q.terms := by
  rw [termsOf, mem_distinctSort, List.mem_flatMap]

theorem sortedLT_termsOf (quads : List (Row Str)) : (termsOf quads).SortedLT :=
  sortedLT_distinctSort _

/-- The code rows of quads are the sorted quads' rows. -/
theorem codeRows_eq (quads : List (Row Str)) :
    codeRows quads = (distinctSort quads).map (Row.map (termsOf quads).idxOf) := by
  refine (map_distinctSort fun q hq q' hq' hlt => map_lt_map (fun a ha b hb hab => ?_) hlt).symm
  exact idxOf_lt_idxOf (sortedLT_termsOf quads) (mem_termsOf.mpr ⟨q, hq, ha⟩)
    (mem_termsOf.mpr ⟨q', hq', hb⟩) hab

/-! ### Columns and rows -/

namespace QuadCodes

theorem foldl_push (rows : List (Row TermCode)) : ∀ codes : QuadCodes, rows.foldl push codes =
    ⟨codes.s ++ rows.map (·.s), codes.p ++ rows.map (·.p), codes.o ++ rows.map (·.o),
      codes.g ++ rows.map (·.g)⟩ := by
  induction rows with
  | nil => simp
  | cons r rows ih =>
    intro codes
    rw [List.foldl_cons, ih]
    simp [push]

theorem ofRows_eq (rows : List (Row TermCode)) :
    ofRows rows = ⟨rows.map (·.s), rows.map (·.p), rows.map (·.o), rows.map (·.g)⟩ := by
  rw [ofRows, foldl_push]
  rfl

theorem rows_ofRows (rows : List (Row TermCode)) : (ofRows rows).rows = rows := by
  rw [ofRows_eq, QuadCodes.rows]
  induction rows with
  | nil => rfl
  | cons r rows ih =>
    simp only [List.map_cons, List.zip_cons_cons] at ih ⊢
    rw [ih]

theorem rowAt_ofRows {rows : List (Row TermCode)} {i : ℕ} (hi : i < rows.length) :
    (ofRows rows).rowAt i = rows[i] := by
  rw [ofRows_eq, rowAt]
  simp [hi]

theorem length_ofRows (rows : List (Row TermCode)) : (ofRows rows).s.length = rows.length := by
  rw [ofRows_eq, List.length_map]

end QuadCodes

/-- The chunk of all rows is the columns as they stand. -/
theorem buildCodeChunk_ofRows (rows : List (Row TermCode)) (sSorted : Bool) :
    buildCodeChunk (QuadCodes.ofRows rows) 0 rows.length sSorted = ⟨QuadCodes.ofRows rows, sSorted⟩ := by
  rw [QuadCodes.ofRows_eq, buildCodeChunk]
  have hall : ∀ f : Row TermCode → TermCode, ((rows.map f).take rows.length).drop 0 = rows.map f := by
    intro f
    rw [List.drop_zero, List.take_of_length_le (List.length_map f).le]
  simp only [hall]

end Builds
