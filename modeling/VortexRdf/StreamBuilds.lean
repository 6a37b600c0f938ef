/-
The out-of-core build.

A stream's quads are interned, spilled and merged; with an index asked for, one merge
numbers the rows while the families' entries are spilled, and the chunks of codes come off
a second.  Each child is read off its own merger, a chunk at a time.

* `BuildSizes`, `codeOfRank` — the sizes of runs and chunks, and a rank's code;
* `IndexSpillers`, `IndexMergers`, `mergeFeedingIndexes` — the index children;
* `pullAll`, `chunkStream` — what a merger gives, a chunk at a time;
* `buildChunkStream`, `buildArray` — the build, and its chunks assembled;
* `buildArray_eq`, `buildArray_isInMemory` — it is the dataset of the stream's quads, as the
  in-memory build is.
-/
import VortexRdf.EntryRuns

namespace Builds

open Dictionary DistinctSort Programs RunMerges Store Terms
open scoped Lexicographic

/-- How many rows a chunk holds, and how many a spilled run. -/
structure BuildSizes where
  chunkRows : ℕ
  runRows : ℕ

def rankError (rank terms : ℕ) : VortexRdfError :=
  .deserialization [.text ("spill record names term rank " ++ toString rank ++ ", past the " ++
    toString terms ++ " terms")]

/-- The code of the term of `rank`. -/
def codeOfRank (dict : TermDictionary) (rank : ℕ) : Except VortexRdfError TermCode :=
  if rank < dict.terms.length then .ok rank else .error (rankError rank dict.terms.length)

/-! ### The index side -/

/-- The next row's id, with how many are assigned then. -/
def nextRowId (assigned : ℕ) : Except VortexRdfError (RowId × ℕ) :=
  if rowLimit ≤ assigned then .error (tooManyRows none) else .ok (assigned, assigned + 1)

/-- The spillers of the requested families: the objects' and the predicates', and the two
orders of the copies. -/
structure IndexSpillers where
  refs : Option (EntrySpiller RefEntry × EntrySpiller RefEntry)
  copies : Option (EntrySpiller CopyEntry × EntrySpiller CopyEntry)

abbrev EntryMerger (E : Type) : Type := RunMerger (EntryRunReader E) E

structure IndexMergers where
  refs : Option (EntryMerger RefEntry × EntryMerger RefEntry)
  copies : Option (EntryMerger CopyEntry × EntryMerger CopyEntry)

/-- Both of a pair, taken one after the other. -/
def pairM {α β : Type} (f : α → Except VortexRdfError β) (pair : α × α) : Except VortexRdfError (β × β) := do
  return (← f pair.1, ← f pair.2)

/-- What there is, taken through a step that may fail. -/
def transpose {α β : Type} (f : α → Except VortexRdfError β) :
    Option α → Except VortexRdfError (Option β)
  | none => .ok none
  | some a => (f a).map some

def spillerPair {E : Type} (names : String × String) (capacity : ℕ) :
    Except VortexRdfError (EntrySpiller E × EntrySpiller E) :=
  pairM (fun name => EntrySpiller.new name capacity) names

namespace IndexSpillers

def new (indexes : List IndexType) (capacity : ℕ) : Except VortexRdfError IndexSpillers := do
  return {
    refs := ← transpose (fun names => spillerPair names capacity)
      (if .secondaryByReference ∈ indexes then some ("idx_o", "idx_p") else none)
    copies := ← transpose (fun names => spillerPair names capacity)
      (if .secondaryByCopy ∈ indexes then some ("idx_posg", "idx_ospg") else none) }

/-- The entries of the quad of ranks at row `rid`. -/
def push (s : IndexSpillers) (ranks : Row ℕ) (rid : RowId) : Except VortexRdfError IndexSpillers := do
  return {
    refs := ← transpose (fun pair => do
      return (← pair.1.push (refEntry ranks.o rid ranks.g), ← pair.2.push (refEntry ranks.p rid ranks.g)))
      s.refs
    copies := ← transpose (fun pair => do
      return (← pair.1.push (copyEntry (CopyFamily.posg.key ranks) rid),
        ← pair.2.push (copyEntry (CopyFamily.ospg.key ranks) rid))) s.copies }

def intoMergers (s : IndexSpillers) : Except VortexRdfError IndexMergers := do
  return {
    refs := ← transpose (pairM EntrySpiller.intoMerger) s.refs
    copies := ← transpose (pairM EntrySpiller.intoMerger) s.copies }

/-- The rows of a merge numbered as they come, each one's entries pushed. -/
def feed : ℕ → RunMerger QuadRunReader (Row ℕ) → IndexSpillers → ℕ → Except VortexRdfError IndexSpillers
  | 0, _, s, _ => .ok s  -- not reached: the merger's `left` bounds the rows
  | fuel + 1, m, s, rows =>
    match m.next with
    | .error e => .error e
    | .ok none => .ok s
    | .ok (some (ranks, m)) => do
      let (rid, rows) ← nextRowId rows
      feed fuel m (← s.push ranks rid) rows

end IndexSpillers

/-! ### Chunks off a merger -/

section Chunks

variable {R β C : Type} [RunRead R VortexRdfError β] [LinearOrder β]

/-- A merger pulled `n` items at a time to its end, each batch a chunk. -/
def pullAll (n : ℕ) (chunk : List β → Except VortexRdfError C) : ℕ → RunMerger R β →
    Except VortexRdfError (List C)
  | 0, _ => .ok []  -- not reached: the merger's `left` bounds the pulls
  | fuel + 1, m => do
    let (batch, m) ← m.nextBatch n
    if batch = [] then return []
    let first ← chunk batch
    return first :: (← pullAll n chunk fuel m)

/-- The chunks of a merger, the empty one when it gives nothing. -/
def chunkStream (n : ℕ) (chunk : List β → Except VortexRdfError C) (empty : C) (m : RunMerger R β) :
    Except VortexRdfError (List C) := do
  let chunks ← pullAll n chunk (m.left + 1) m
  return if chunks = [] then [empty] else chunks

end Chunks

/-- The columns of a chunk of a child, under their names. -/
abbrev ChildColumns : Type := List (String × List ℕ)

/-- The chunks of a child and what it is. -/
structure ChildStream where
  identity : ComponentIdentity
  chunks : Except VortexRdfError (List ChildColumns)

/-- Two chunks one behind the other. -/
def ChildColumns.append (a b : ChildColumns) : ChildColumns := List.zipWith (fun x y => (x.1, x.2 ++ y.2)) a b

/-- Chunks read into one. -/
def ChildColumns.readAll : List ChildColumns → ChildColumns
  | [] => []
  | chunk :: chunks => chunks.foldl ChildColumns.append chunk

def IndexComponent.fromStream (child : ChildStream) : Except VortexRdfError IndexComponent := do
  return ⟨child.identity, ChildColumns.readAll (← child.chunks)⟩

/-- A copy key's ranks as codes. -/
def decodeKey (decode : ℕ → Except VortexRdfError TermCode) (k : Key ℕ) :
    Except VortexRdfError (Key TermCode) := do
  return key (← decode k.1) (← decode k.2.1) (← decode k.2.2.1) (← decode k.2.2.2)

/-- One chunk of a copy child. -/
def copyChunk (decode : ℕ → Except VortexRdfError TermCode) (family : CopyFamily)
    (entries : List CopyEntry) : Except VortexRdfError ChildColumns := do
  return copyColumns (← entries.mapM fun e => do return (family.row (← decodeKey decode e.1), e.2))

/-- One chunk of a reference child. -/
def referenceChunk (decode : ℕ → Except VortexRdfError TermCode) (entries : List RefEntry) :
    Except VortexRdfError ChildColumns := do
  return referenceColumns (← entries.mapM fun e => do
    let graph ← decode e.2.2
    return (← decode e.1, e.2.1, graph))

/-- Each family's child, its chunks off its merger. -/
def mergerComponents (mergers : IndexMergers) (chunkRows : ℕ)
    (decode : ℕ → Except VortexRdfError TermCode) : List ChildStream :=
  let copy := fun (family : CopyFamily) (m : EntryMerger CopyEntry) =>
    ChildStream.mk family.identity (chunkStream chunkRows (copyChunk decode family) (copyColumns []) m)
  let reference := fun (family : RefFamily) (m : EntryMerger RefEntry) =>
    ChildStream.mk family.identity (chunkStream chunkRows (referenceChunk decode) (referenceColumns []) m)
  (mergers.copies.toList.flatMap fun pair => [copy .posg pair.1, copy .ospg pair.2]) ++
    mergers.refs.toList.flatMap fun pair => [reference .object pair.1, reference .predicate pair.2]

/-- The rows numbered by a merge of the runs, and the children of the requested families. -/
def mergeFeedingIndexes (runs : QuadRuns) (sizes : BuildSizes) (indexes : List IndexType)
    (decode : ℕ → Except VortexRdfError TermCode) : Except VortexRdfError (List ChildStream) := do
  let merger ← runs.merger
  let spillers ← IndexSpillers.new indexes sizes.runRows
  let spillers ← IndexSpillers.feed (merger.left + 1) merger spillers 0
  return mergerComponents (← spillers.intoMergers) sizes.chunkRows decode

/-! ### The build -/

/-- The chunks of a build, its index children and its dictionary. -/
structure BuiltStream where
  chunks : Except VortexRdfError (List CodeChunk)
  components : List ChildStream
  dict : TermDictionary

/-- A window of the global merge as a chunk, its subjects stamped sorted. -/
def codeChunk (dict : TermDictionary) (ranks : List (Row ℕ)) : Except VortexRdfError CodeChunk := do
  let codes ← ranks.foldlM (fun codes r => do return codes.push (← r.mapM (codeOfRank dict)))
    (⟨[], [], [], []⟩ : QuadCodes)
  return buildCodeChunk codes 0 ranks.length true

def buildChunkStream (stream : List (Except VortexRdfError RawQuad)) (indexes : List IndexType)
    (sizes : BuildSizes) : Except VortexRdfError BuiltStream := do
  let (terms, spiller) ← ingest stream TermInterner.new (QuadSpiller.new sizes.runRows)
  let frozen := terms.finish
  let dict ← fromSortedColumn frozen.sorted
  let runs ← (spiller.finish terms).ranked frozen.rankOf
  let components ← if indexes = [] then pure []
    else mergeFeedingIndexes runs sizes indexes (codeOfRank dict)
  let merger ← runs.merger
  return ⟨chunkStream sizes.chunkRows (codeChunk dict) (buildCodeChunk ⟨[], [], [], []⟩ 0 0 false) merger,
    components, dict⟩

def QuadCodes.append (a b : QuadCodes) : QuadCodes := ⟨a.s ++ b.s, a.p ++ b.p, a.o ++ b.o, a.g ++ b.g⟩

/-- The chunks assembled into one array, its subjects stamped, and the children read. -/
def buildArray (stream : List (Except VortexRdfError RawQuad)) (indexes : List IndexType)
    (sizes : BuildSizes) : Except VortexRdfError BuiltArray := do
  let ⟨chunks, children, dict⟩ ← buildChunkStream stream indexes sizes
  let rows := ((← chunks).map (·.codes)).foldl QuadCodes.append ⟨[], [], [], []⟩
  let components ← children.mapM IndexComponent.fromStream
  return ⟨⟨rows, true⟩, components, dict⟩

/-! ### What a merger's chunks hold -/

section Chunks

variable {R β C : Type} [RunRead R VortexRdfError β] [LinearOrder β]

theorem distinctSort_length_le (l : List β) : (distinctSort l).length ≤ l.length :=
  ((sortedLT_distinctSort l).nodup.subperm fun _ hx => mem_distinctSort.mp hx).length_le

theorem merges_length_le {m : RunMerger R β} {l : List β} (h : Merges m l) : l.length ≤ m.left := by
  obtain ⟨parts, hholding, rfl⟩ := h
  exact (distinctSort_length_le _).trans ((List.length_filter_le _ _).trans hholding.length_le)

theorem pullAll_spec {n : ℕ} (hn : 0 < n) {chunk : List β → Except VortexRdfError C} {f : List β → C} :
    ∀ {fuel : ℕ} {m : RunMerger R β} {l : List β}, Merges m l → l.length < fuel →
    (∀ part, part ⊆ l → chunk part = .ok (f part)) →
    ∃ parts : List (List β), parts.flatten = l ∧ pullAll n chunk fuel m = .ok (parts.map f) := by
  intro fuel
  induction fuel with
  | zero =>
    intro m l _ hlt
    exact absurd hlt (Nat.not_lt_zero _)
  | succ fuel ih =>
    intro m l h hlt hchunk
    obtain ⟨m', hbatch, h'⟩ := nextBatch_spec (n := n) h
    rw [pullAll, hbatch, ok_bind]
    dsimp only
    by_cases hend : l.take n = []
    · have hnil : l = [] := (List.take_eq_nil_iff.mp hend).resolve_left (by omega)
      rw [if_pos hend]
      exact ⟨[], hnil.symm, rfl⟩
    · have hne : l ≠ [] := fun hnil => hend (by rw [hnil, List.take_nil])
      have hpos := List.length_pos_iff.mpr hne
      obtain ⟨parts, hflatten, hpulled⟩ := ih h' (by rw [List.length_drop]; omega)
        (fun part hpart => hchunk part fun x hx => List.mem_of_mem_drop (hpart hx))
      rw [if_neg hend, hchunk _ (List.take_subset _ _), hpulled]
      exact ⟨l.take n :: parts, by rw [List.flatten_cons, hflatten, List.take_append_drop], rfl⟩

/-- **The chunks of a merger** are what it gives, cut into windows. -/
theorem chunkStream_spec {n : ℕ} (hn : 0 < n) {chunk : List β → Except VortexRdfError C}
    {f : List β → C} {empty : C} {m : RunMerger R β} {l : List β} (h : Merges m l)
    (hchunk : ∀ part, part ⊆ l → chunk part = .ok (f part)) :
    ∃ chunks, chunkStream n chunk empty m = .ok chunks ∧ (l = [] ∧ chunks = [empty] ∨
      ∃ parts, parts ≠ [] ∧ parts.flatten = l ∧ chunks = parts.map f) := by
  obtain ⟨parts, hflatten, hpulled⟩ := pullAll_spec hn h (Nat.lt_succ_of_le (merges_length_le h)) hchunk
  rw [chunkStream, hpulled, ok_bind]
  by_cases hnone : parts = []
  · rw [if_pos (by rw [hnone]; rfl)]
    exact ⟨_, rfl, Or.inl ⟨by rw [← hflatten, hnone]; rfl, rfl⟩⟩
  · rw [if_neg (by simpa using hnone)]
    exact ⟨_, rfl, Or.inr ⟨parts, hnone, hflatten, rfl⟩⟩

omit [LinearOrder β] in
/-- Chunks of columns read into one are the columns of all their rows. -/
theorem readAll_map {f : List β → ChildColumns} (happend : ∀ a b, ChildColumns.append (f a) (f b) = f (a ++ b))
    {parts : List (List β)} (h : parts ≠ []) : ChildColumns.readAll (parts.map f) = f parts.flatten := by
  obtain ⟨first, rest, rfl⟩ := List.exists_cons_of_ne_nil h
  rw [List.map_cons, ChildColumns.readAll]
  clear h
  induction rest generalizing first with
  | nil => rw [List.map_nil, List.foldl_nil, List.flatten_singleton]
  | cons part rest ih =>
    rw [List.map_cons, List.foldl_cons, happend, ih (first ++ part), List.flatten_cons, List.flatten_cons,
      List.flatten_cons, List.append_assoc]

/-- **A child read off its merger**: the columns of all the entries the merger gives. -/
theorem fromStream_spec {n : ℕ} (hn : 0 < n) {chunk : List β → Except VortexRdfError ChildColumns}
    {f : List β → ChildColumns} {m : RunMerger R β} {l : List β} (h : Merges m l)
    (hchunk : ∀ part, part ⊆ l → chunk part = .ok (f part))
    (happend : ∀ a b, ChildColumns.append (f a) (f b) = f (a ++ b)) (identity : ComponentIdentity) :
    IndexComponent.fromStream ⟨identity, chunkStream n chunk (f []) m⟩ = .ok ⟨identity, f l⟩ := by
  obtain ⟨chunks, hstream, hrows⟩ := @chunkStream_spec R β ChildColumns _ _ n hn chunk f (f []) m l h hchunk
  rw [IndexComponent.fromStream]
  dsimp only
  rw [hstream, ok_bind]
  rcases hrows with ⟨rfl, rfl⟩ | ⟨parts, hne, rfl, rfl⟩
  · rfl
  · rw [readAll_map happend hne]
    rfl

end Chunks

/-! ### The entries of numbered rows -/

section Feeding

/-- The entries of a reference family over some rows. -/
def refEntries (value : Row ℕ → ℕ) (rows : List (Row ℕ)) : List RefEntry :=
  rows.zipIdx.map fun p => refEntry (value p.1) p.2 p.1.g

def copyEntries (family : CopyFamily) (rows : List (Row ℕ)) : List CopyEntry :=
  rows.zipIdx.map fun p => copyEntry (family.key p.1) p.2

theorem refEntries_push (value : Row ℕ → ℕ) (rows : List (Row ℕ)) (r : Row ℕ) :
    refEntries value (rows ++ [r]) = refEntries value rows ++ [refEntry (value r) rows.length r.g] := by
  rw [refEntries, List.zipIdx_append, List.map_append, List.zipIdx_singleton, Nat.zero_add]
  rfl

theorem copyEntries_push (family : CopyFamily) (rows : List (Row ℕ)) (r : Row ℕ) :
    copyEntries family (rows ++ [r]) = copyEntries family rows ++
      [copyEntry (family.key r) rows.length] := by
  rw [copyEntries, List.zipIdx_append, List.map_append, List.zipIdx_singleton, Nat.zero_add]
  rfl

/-- A pair that is there when it was asked for, each half as it should be. -/
def Pair {α : Type} (asked : Prop) (P Q : α → Prop) (pair : Option (α × α)) : Prop :=
  asked ∧ (∃ a b, pair = some (a, b) ∧ P a ∧ Q b) ∨ ¬ asked ∧ pair = none

theorem Pair.transpose {α β : Type} {asked : Prop} {P Q : α → Prop} {P' Q' : β → Prop}
    {f : α × α → Except VortexRdfError (β × β)} {pair : Option (α × α)} (h : Pair asked P Q pair)
    (hstep : ∀ a b, P a → Q b → ∃ a' b', f (a, b) = .ok (a', b') ∧ P' a' ∧ Q' b') :
    ∃ pair', transpose f pair = .ok pair' ∧ Pair asked P' Q' pair' := by
  rcases h with ⟨hasked, a, b, rfl, ha, hb⟩ | ⟨hasked, rfl⟩
  · obtain ⟨a', b', hf, ha', hb'⟩ := hstep a b ha hb
    exact ⟨some (a', b'), by rw [Builds.transpose, hf]; rfl, Or.inl ⟨hasked, a', b', rfl, ha', hb'⟩⟩
  · exact ⟨none, rfl, Or.inr ⟨hasked, rfl⟩⟩

/-- The spillers have the entries of the rows so far. -/
structure IndexSpillers.Fed (s : IndexSpillers) (indexes : List IndexType) (rows : List (Row ℕ)) :
    Prop where
  refs : Pair (.secondaryByReference ∈ indexes) (Numbering · (refEntries Row.o rows))
    (Numbering · (refEntries Row.p rows)) s.refs
  copies : Pair (.secondaryByCopy ∈ indexes) (Numbering · (copyEntries .posg rows))
    (Numbering · (copyEntries .ospg rows)) s.copies

variable {indexes : List IndexType}

theorem spillerPair_spec {E : Type} [IndexEntry E] [LinearOrder E] (asked : Prop) [Decidable asked]
    (names : String × String) {capacity : ℕ} (h : capacity ≤ ROW_OFFSET_MAX) :
    ∃ pair : Option (EntrySpiller E × EntrySpiller E),
      transpose (fun names => spillerPair names capacity) (if asked then some names else none) = .ok pair ∧
      Pair asked (Numbering · []) (Numbering · []) pair := by
  refine Pair.transpose (P := fun name => name = names.1) (Q := fun name => name = names.2) ?_ ?_
  · by_cases hasked : asked
    · rw [if_pos hasked]
      exact Or.inl ⟨hasked, names.1, names.2, rfl, rfl, rfl⟩
    · rw [if_neg hasked]
      exact Or.inr ⟨hasked, rfl⟩
  · intro a b _ _
    obtain ⟨s, hs, hnumbering⟩ := @new_spec E _ _ a capacity h
    obtain ⟨s', hs', hnumbering'⟩ := @new_spec E _ _ b capacity h
    exact ⟨s, s', by rw [spillerPair, pairM, hs, hs']; rfl, hnumbering, hnumbering'⟩

theorem IndexSpillers.new_spec {capacity : ℕ} (h : capacity ≤ ROW_OFFSET_MAX) :
    ∃ s, IndexSpillers.new indexes capacity = .ok s ∧ s.Fed indexes [] := by
  obtain ⟨refs, hrefs, hpair⟩ := @spillerPair_spec RefEntry _ _ (.secondaryByReference ∈ indexes) _
    ("idx_o", "idx_p") capacity h
  obtain ⟨copies, hcopies, hpair'⟩ := @spillerPair_spec CopyEntry _ _ (.secondaryByCopy ∈ indexes) _
    ("idx_posg", "idx_ospg") capacity h
  rw [IndexSpillers.new, hrefs, ok_bind, hcopies]
  exact ⟨_, rfl, hpair, hpair'⟩

/-- Runs past the last row offset are refused, whichever family is asked for. -/
theorem IndexSpillers.new_refused {capacity : ℕ} (h : ROW_OFFSET_MAX < capacity) (hne : indexes ≠ []) :
    ∃ e, IndexSpillers.new indexes capacity = .error e := by
  have hpair : ∀ {E : Type} (names : String × String), ∃ e,
      transpose (fun names => spillerPair (E := E) names capacity) (some names) = .error e := by
    intro E names
    obtain ⟨e, he⟩ := @Builds.new_refused E names.1 capacity h
    exact ⟨e, by rw [transpose, spillerPair, pairM, he]; rfl⟩
  rw [IndexSpillers.new]
  by_cases href : .secondaryByReference ∈ indexes
  · obtain ⟨e, he⟩ := @hpair RefEntry ("idx_o", "idx_p")
    rw [if_pos href, he]
    exact ⟨e, rfl⟩
  · have hcopy : .secondaryByCopy ∈ indexes := by
      obtain ⟨index, hindex⟩ := List.exists_mem_of_ne_nil _ hne
      cases index with
      | secondaryByCopy => exact hindex
      | secondaryByReference => exact absurd hindex href
    obtain ⟨e, he⟩ := @hpair CopyEntry ("idx_posg", "idx_ospg")
    rw [if_neg href, if_pos hcopy, he]
    exact ⟨e, rfl⟩

theorem IndexSpillers.Fed.push {s : IndexSpillers} {rows : List (Row ℕ)} (h : s.Fed indexes rows)
    {r : Row ℕ} (hr : ∀ rank ∈ r.terms, rank < 2 ^ 32) (hlimit : rows.length < rowLimit) :
    ∃ s', s.push r rows.length = .ok s' ∧ s'.Fed indexes (rows ++ [r]) := by
  simp only [Row.terms, List.forall_mem_cons] at hr
  obtain ⟨hs, hp, ho, hg, -⟩ := hr
  -- each spiller has had an entry a row, so this row's is the next
  have href : ∀ (value : Row ℕ → ℕ) (spiller : EntrySpiller RefEntry), value r < 2 ^ 32 →
      Numbering spiller (refEntries value rows) →
      ∃ spiller', spiller.push (refEntry (value r) rows.length r.g) = .ok spiller' ∧
        Numbering spiller' (refEntries value (rows ++ [r])) := by
    intro value spiller hvalue hspiller
    have hlen : (refEntries value rows).length = rows.length := by
      rw [refEntries, List.length_map, List.length_zipIdx]
    rw [refEntries_push]
    exact hspiller.push hlen.symm ⟨hvalue, hg⟩ (by rwa [hlen])
  have hcopy : ∀ (family : CopyFamily) (spiller : EntrySpiller CopyEntry),
      Numbering spiller (copyEntries family rows) →
      ∃ spiller', spiller.push (copyEntry (family.key r) rows.length) = .ok spiller' ∧
        Numbering spiller' (copyEntries family (rows ++ [r])) := by
    intro family spiller hspiller
    have hlen : (copyEntries family rows).length = rows.length := by
      rw [copyEntries, List.length_map, List.length_zipIdx]
    have hfits : IndexEntry.Fits (copyEntry (family.key r) rows.length) := by
      cases family with
      | posg => exact ⟨hp, ho, hs, hg⟩
      | ospg => exact ⟨ho, hs, hp, hg⟩
    rw [copyEntries_push]
    exact hspiller.push hlen.symm hfits (by rwa [hlen])
  rw [IndexSpillers.push]
  obtain ⟨refs, hrefs, hpair⟩ : ∃ refs, transpose (fun pair => do
      return (← pair.1.push (refEntry r.o rows.length r.g), ← pair.2.push (refEntry r.p rows.length r.g)))
      s.refs = .ok refs ∧ Pair (.secondaryByReference ∈ indexes)
        (Numbering · (refEntries Row.o (rows ++ [r]))) (Numbering · (refEntries Row.p (rows ++ [r]))) refs :=
    h.refs.transpose fun a b ha hb => by
      obtain ⟨a', ha', hnumbering⟩ := href Row.o a ho ha
      obtain ⟨b', hb', hnumbering'⟩ := href Row.p b hp hb
      exact ⟨a', b', by rw [ha', ok_bind, hb']; rfl, hnumbering, hnumbering'⟩
  obtain ⟨copies, hcopies, hpair'⟩ : ∃ copies, transpose (fun pair => do
      return (← pair.1.push (copyEntry (CopyFamily.posg.key r) rows.length),
        ← pair.2.push (copyEntry (CopyFamily.ospg.key r) rows.length))) s.copies = .ok copies ∧
      Pair (.secondaryByCopy ∈ indexes) (Numbering · (copyEntries .posg (rows ++ [r])))
        (Numbering · (copyEntries .ospg (rows ++ [r]))) copies :=
    h.copies.transpose fun a b ha hb => by
      obtain ⟨a', ha', hnumbering⟩ := hcopy .posg a ha
      obtain ⟨b', hb', hnumbering'⟩ := hcopy .ospg b hb
      exact ⟨a', b', by rw [ha', ok_bind, hb']; rfl, hnumbering, hnumbering'⟩
  rw [hrefs, ok_bind, hcopies]
  exact ⟨_, rfl, hpair, hpair'⟩

/-- **A merge fed to the spillers**: every row's entries, or a refusal of too many rows. -/
theorem IndexSpillers.feed_spec {l : List (Row ℕ)} : ∀ {fuel : ℕ}
    {m : RunMerger QuadRunReader (Row ℕ)} {s : IndexSpillers} {rows : List (Row ℕ)},
    Merges m l → l.length < fuel → s.Fed indexes rows → (∀ r ∈ l, ∀ rank ∈ r.terms, rank < 2 ^ 32) →
    rows.length ≤ rowLimit →
    (rows.length + l.length ≤ rowLimit ∧
      ∃ s', IndexSpillers.feed fuel m s rows.length = .ok s' ∧ s'.Fed indexes (rows ++ l)) ∨
    rowLimit < rows.length + l.length ∧ ∃ e, IndexSpillers.feed fuel m s rows.length = .error e := by
  induction l with
  | nil =>
    intro fuel m s rows h hlt hfed _ hrows
    obtain ⟨fuel, rfl⟩ := Nat.exists_eq_succ_of_ne_zero (Nat.ne_of_gt (Nat.zero_lt_of_lt hlt))
    rcases next_spec h with ⟨hnext, -⟩ | ⟨x, m', l', -, hl, -⟩
    · refine Or.inl ⟨hrows, s, ?_, by rwa [List.append_nil]⟩
      rw [feed, hnext]
    · cases hl
  | cons r l ih =>
    intro fuel m s rows h hlt hfed hranks hrows
    obtain ⟨fuel, rfl⟩ := Nat.exists_eq_succ_of_ne_zero (Nat.ne_of_gt (Nat.zero_lt_of_lt hlt))
    rw [List.length_cons] at hlt ⊢
    rcases next_spec h with ⟨-, hl⟩ | ⟨x, m', l', hnext, hl, h'⟩
    · cases hl
    · obtain ⟨rfl, rfl⟩ := List.cons.inj hl
      rw [feed, hnext]
      dsimp only
      by_cases hfull : rowLimit ≤ rows.length
      · rw [nextRowId, if_pos hfull]
        exact Or.inr ⟨by omega, tooManyRows none, rfl⟩
      · obtain ⟨s', hpush, hfed'⟩ := hfed.push (hranks r List.mem_cons_self) (by omega)
        rw [nextRowId, if_neg hfull, ok_bind]
        dsimp only
        rw [hpush, ok_bind]
        have hlen : (rows ++ [r]).length = rows.length + 1 := by rw [List.length_append]; rfl
        rcases ih h' (Nat.lt_of_succ_lt_succ hlt) hfed'
          (fun r' hr' => hranks r' (List.mem_cons_of_mem _ hr')) (by omega) with
          ⟨hle, s'', hfeed, hfed''⟩ | ⟨hgt, e, hfeed⟩
        · rw [hlen] at hle hfeed
          refine Or.inl ⟨by omega, s'', hfeed, ?_⟩
          rwa [List.append_assoc] at hfed''
        · rw [hlen] at hgt hfeed
          exact Or.inr ⟨by omega, e, hfeed⟩

end Feeding

/-! ### The children -/

section Components

theorem distinctSort_of_nodup {β : Type} [LinearOrder β] {l : List β} (h : l.Nodup) :
    distinctSort l = sortBy id l := by
  have hsorted := sortBy_ascends id l
  rw [List.map_id] at hsorted
  exact distinctSort_eq (hsorted.sortedLT_of_nodup ((sortBy_perm id l).nodup_iff.mpr h)) fun _ => mem_sortBy

theorem zipIdx_map_eq {β : Type} (rows : List (Row TermCode)) (f : Row TermCode × ℕ → β) :
    rows.zipIdx.map f = (List.range rows.length).map fun i => f ((QuadCodes.ofRows rows).rowAt i, i) := by
  refine List.ext_getElem (by simp) fun i hi _ => ?_
  rw [List.length_map, List.length_zipIdx] at hi
  simp [QuadCodes.rowAt_ofRows hi]

/-- Entries numbered by their rows, sorted: the rows' positions sorted by key. -/
theorem distinctSort_numbered {α β γ : Type} [LinearOrder α] [LinearOrder β] {n : ℕ} {f : ℕ → β} {k : ℕ → α}
    (g : β → γ) (hinj : ∀ i < n, ∀ j < n, k i = k j → i = j) (hf : ∀ i j, f i ≤ f j → k i ≤ k j) :
    (distinctSort ((List.range n).map f)).map g = (sortBy k (List.range n)).map fun i => g (f i) := by
  have hkeys : ∀ i ∈ List.range n, ∀ j ∈ List.range n, k i = k j → i = j := fun i hi j hj =>
    hinj i (List.mem_range.mp hi) j (List.mem_range.mp hj)
  have hnodup : ((List.range n).map f).Nodup := by
    refine List.Nodup.map_on (fun i hi j hj heq => ?_) List.nodup_range
    exact hkeys i hi j hj (le_antisymm (hf i j heq.le) (hf j i heq.ge))
  have hperm : sortBy k (List.range n) = sortBy f (List.range n) := by
    refine sortBy_eq hkeys (sortBy_perm f _) (List.Pairwise.sortedLE (List.pairwise_map.mpr ?_))
    exact (List.pairwise_map.mp (sortBy_ascends f (List.range n)).pairwise).imp (hf _ _)
  rw [distinctSort_of_nodup hnodup, sortBy_map, hperm, List.map_map]
  rfl

theorem rowAt_inj {rows : List (Row TermCode)} (h : rows.Nodup) {i j : ℕ} (hi : i < rows.length)
    (hj : j < rows.length) (heq : (QuadCodes.ofRows rows).rowAt i = (QuadCodes.ofRows rows).rowAt j) :
    i = j := by
  rw [QuadCodes.rowAt_ofRows hi, QuadCodes.rowAt_ofRows hj] at heq
  exact (h.getElem_inj_iff).mp heq

/-- The entries of a copy family in order are the rows of its child. -/
theorem copyEntries_sorted {rows : List (Row TermCode)} (h : rows.Nodup) (family : CopyFamily) :
    (distinctSort (copyEntries family rows)).map (fun e => (family.row e.1, e.2)) =
      (codePerm (QuadCodes.ofRows rows) family).map
        fun i => ((QuadCodes.ofRows rows).rowAt i, rowId i) := by
  rw [copyEntries, zipIdx_map_eq, codePerm, QuadCodes.length_ofRows]
  rw [distinctSort_numbered (k := fun i => family.key ((QuadCodes.ofRows rows).rowAt i))]
  · refine List.map_congr_left fun i _ => ?_
    exact Prod.ext (family.row_key _) rfl
  · exact fun i hi j hj heq => rowAt_inj h hi hj (family.key_injective heq)
  · exact fun i j hle => Prod.Lex.monotone_fst _ _ hle

/-- The entries of a reference family in order are the rows of its child. -/
theorem refEntries_sorted (rows : List (Row TermCode)) (value : Row TermCode → TermCode) :
    (distinctSort (refEntries value rows)).map (fun e => (e.1, e.2.1, e.2.2)) =
      (sortBy id ((rows.map value).zipIdx.map fun p => (toLex (p.1, rowId p.2) : TermCode ×ₗ RowId))).map
        fun pair => (pair.1, pair.2, (QuadCodes.ofRows rows).g.getD (baseRow pair.2) 0) := by
  have hpairs : (rows.map value).zipIdx.map (fun p => (toLex (p.1, rowId p.2) : TermCode ×ₗ RowId)) =
      (List.range rows.length).map fun i => toLex (value ((QuadCodes.ofRows rows).rowAt i), i) := by
    rw [List.zipIdx_map, List.map_map, zipIdx_map_eq]
    rfl
  rw [refEntries, zipIdx_map_eq, hpairs, sortBy_map, List.map_map]
  rw [distinctSort_numbered (k := fun i =>
    (toLex (value ((QuadCodes.ofRows rows).rowAt i), i) : TermCode ×ₗ RowId))]
  · rfl
  · exact fun i _ j _ heq => (Prod.mk.inj (toLex.injective heq)).2
  · intro i j hle
    rcases Prod.Lex.toLex_le_toLex.mp hle with hlt | ⟨heq, hle⟩
    · exact Prod.Lex.toLex_le_toLex.mpr (Or.inl hlt)
    · exact Prod.Lex.toLex_le_toLex.mpr (Or.inr ⟨heq, Prod.Lex.monotone_fst _ _ hle⟩)

/-- The mergers give the rows' entries in order. -/
structure IndexMergers.Give (m : IndexMergers) (indexes : List IndexType) (rows : List (Row ℕ)) :
    Prop where
  refs : Pair (.secondaryByReference ∈ indexes) (Merges · (distinctSort (refEntries Row.o rows)))
    (Merges · (distinctSort (refEntries Row.p rows))) m.refs
  copies : Pair (.secondaryByCopy ∈ indexes) (Merges · (distinctSort (copyEntries .posg rows)))
    (Merges · (distinctSort (copyEntries .ospg rows))) m.copies

theorem pairM_intoMerger {E : Type} [IndexEntry E] [LinearOrder E] {asked : Prop} {l l' : List E}
    {pair : Option (EntrySpiller E × EntrySpiller E)}
    (h : Pair asked (Numbering · l) (Numbering · l') pair) :
    ∃ pair', transpose (pairM EntrySpiller.intoMerger) pair = .ok pair' ∧
      Pair asked (Merges · (distinctSort l)) (Merges · (distinctSort l')) pair' := by
  refine h.transpose fun a b ha hb => ?_
  obtain ⟨m, hm, hmerges⟩ := ha.intoMerger
  obtain ⟨m', hm', hmerges'⟩ := hb.intoMerger
  exact ⟨m, m', by rw [pairM, hm, ok_bind, hm']; rfl, hmerges, hmerges'⟩

theorem IndexSpillers.Fed.intoMergers {s : IndexSpillers} {indexes : List IndexType} {rows : List (Row ℕ)}
    (h : s.Fed indexes rows) : ∃ m, s.intoMergers = .ok m ∧ m.Give indexes rows := by
  obtain ⟨refs, hrefs, hpair⟩ := pairM_intoMerger h.refs
  obtain ⟨copies, hcopies, hpair'⟩ := pairM_intoMerger h.copies
  rw [IndexSpillers.intoMergers, hrefs, ok_bind, hcopies]
  exact ⟨_, rfl, hpair, hpair'⟩

variable {rows : List (Row TermCode)} {decode : ℕ → Except VortexRdfError TermCode} {n : ℕ}

theorem decodeKey_key {a b c d : ℕ} (ha : decode a = .ok a) (hb : decode b = .ok b)
    (hc : decode c = .ok c) (hd : decode d = .ok d) :
    decodeKey decode (key a b c d) = .ok (key a b c d) := by
  change (do return key (← decode a) (← decode b) (← decode c) (← decode d)) = _
  rw [ha, ok_bind, hb, ok_bind, hc, ok_bind, hd]
  rfl

theorem copyChild_spec (hn : 0 < n) (hrows : rows.Nodup)
    (hdecode : ∀ r ∈ rows, ∀ rank ∈ r.terms, decode rank = .ok rank) (family : CopyFamily)
    {m : EntryMerger CopyEntry} (h : Merges m (distinctSort (copyEntries family rows))) :
    IndexComponent.fromStream
        ⟨family.identity, chunkStream n (copyChunk decode family) (copyColumns []) m⟩ =
      .ok (copyComponent (QuadCodes.ofRows rows) family) := by
  have hchunk : ∀ part, part ⊆ distinctSort (copyEntries family rows) →
      copyChunk decode family part = .ok (copyColumns (part.map fun e => (family.row e.1, e.2))) := by
    intro part hpart
    rw [copyChunk, mapM_eq_ok (v := fun e => (family.row e.1, e.2))]
    · rfl
    · intro e he
      obtain ⟨⟨r, i⟩, hr, rfl⟩ := List.mem_map.mp (mem_distinctSort.mp (hpart he))
      have hterms := hdecode r (List.fst_mem_of_mem_zipIdx hr)
      simp only [Row.terms, List.forall_mem_cons] at hterms
      obtain ⟨hs, hp, ho, hg, -⟩ := hterms
      have hkey : decodeKey decode (family.key r) = .ok (family.key r) := by
        cases family with
        | posg => exact decodeKey_key hp ho hs hg
        | ospg => exact decodeKey_key ho hs hp hg
      change (do return (family.row (← decodeKey decode (family.key r)), i)) = _
      rw [hkey]
      rfl
  have happend : ∀ a b : List CopyEntry,
      ChildColumns.append (copyColumns (a.map fun e => (family.row e.1, e.2)))
        (copyColumns (b.map fun e => (family.row e.1, e.2))) =
      copyColumns ((a ++ b).map fun e => (family.row e.1, e.2)) := by
    intro a b
    simp [ChildColumns.append, copyColumns]
  have hchild := fromStream_spec hn h hchunk happend family.identity
  rw [copyEntries_sorted hrows] at hchild
  exact hchild

theorem refChild_spec (hn : 0 < n) (hdecode : ∀ r ∈ rows, ∀ rank ∈ r.terms, decode rank = .ok rank)
    (family : RefFamily) {value : Row TermCode → TermCode} (hvalue : ∀ r, value r ∈ r.terms)
    {m : EntryMerger RefEntry} (h : Merges m (distinctSort (refEntries value rows))) :
    IndexComponent.fromStream
        ⟨family.identity, chunkStream n (referenceChunk decode) (referenceColumns []) m⟩ =
      .ok (referenceComponent (QuadCodes.ofRows rows) (rows.map value) family) := by
  have hchunk : ∀ part, part ⊆ distinctSort (refEntries value rows) →
      referenceChunk decode part = .ok (referenceColumns (part.map fun e => (e.1, e.2.1, e.2.2))) := by
    intro part hpart
    rw [referenceChunk, mapM_eq_ok (v := fun e => (e.1, e.2.1, e.2.2))]
    · rfl
    · intro e he
      obtain ⟨⟨r, i⟩, hr, rfl⟩ := List.mem_map.mp (mem_distinctSort.mp (hpart he))
      have hterms := hdecode r (List.fst_mem_of_mem_zipIdx hr)
      have hgraph : decode r.g = .ok r.g := hterms r.g (by simp [Row.terms])
      change (do
        let graph ← decode r.g
        return (← decode (value r), i, graph)) = _
      rw [hgraph, ok_bind, hterms _ (hvalue r)]
      rfl
  have happend : ∀ a b : List RefEntry,
      ChildColumns.append (referenceColumns (a.map fun e => (e.1, e.2.1, e.2.2)))
        (referenceColumns (b.map fun e => (e.1, e.2.1, e.2.2))) =
      referenceColumns ((a ++ b).map fun e => (e.1, e.2.1, e.2.2)) := by
    intro a b
    simp [ChildColumns.append, referenceColumns]
  have hchild := fromStream_spec hn h hchunk happend family.identity
  rw [refEntries_sorted] at hchild
  exact hchild

/-- **The children off their mergers** are those of the rows in memory. -/
theorem mergerComponents_spec {mergers : IndexMergers} {indexes : List IndexType} (hn : 0 < n)
    (hrows : rows.Nodup) (hdecode : ∀ r ∈ rows, ∀ rank ∈ r.terms, decode rank = .ok rank)
    (h : mergers.Give indexes rows) :
    (mergerComponents mergers n decode).mapM IndexComponent.fromStream =
      .ok ((ALL_INDEX_TYPES.filter (· ∈ indexes)).flatMap
        (IndexType.components (QuadCodes.ofRows rows))) := by
  have hcopies : (mergers.copies.toList.flatMap fun pair =>
      [ChildStream.mk CopyFamily.posg.identity
        (chunkStream n (copyChunk decode .posg) (copyColumns []) pair.1),
      ChildStream.mk CopyFamily.ospg.identity
        (chunkStream n (copyChunk decode .ospg) (copyColumns []) pair.2)]).mapM
          IndexComponent.fromStream =
      .ok (if .secondaryByCopy ∈ indexes then copyComponents (QuadCodes.ofRows rows) else []) := by
    rcases h.copies with ⟨hasked, a, b, hpair, ha, hb⟩ | ⟨hasked, hpair⟩
    · rw [hpair, if_pos hasked]
      simp only [Option.toList_some, List.flatMap_singleton, List.mapM_cons,
        copyChild_spec hn hrows hdecode .posg ha, copyChild_spec hn hrows hdecode .ospg hb]
      rfl
    · rw [hpair, if_neg hasked]
      rfl
  have hrefs : (mergers.refs.toList.flatMap fun pair =>
      [ChildStream.mk RefFamily.object.identity
        (chunkStream n (referenceChunk decode) (referenceColumns []) pair.1),
      ChildStream.mk RefFamily.predicate.identity
        (chunkStream n (referenceChunk decode) (referenceColumns []) pair.2)]).mapM
          IndexComponent.fromStream =
      .ok (if .secondaryByReference ∈ indexes then referenceComponents (QuadCodes.ofRows rows) else []) := by
    have ho : (QuadCodes.ofRows rows).o = rows.map Row.o := by rw [QuadCodes.ofRows_eq]
    have hp : (QuadCodes.ofRows rows).p = rows.map Row.p := by rw [QuadCodes.ofRows_eq]
    rcases h.refs with ⟨hasked, a, b, hpair, ha, hb⟩ | ⟨hasked, hpair⟩
    · rw [hpair, if_pos hasked, referenceComponents, ho, hp]
      simp only [Option.toList_some, List.flatMap_singleton, List.mapM_cons,
        refChild_spec hn hdecode .object (fun r => by simp [Row.terms]) ha,
        refChild_spec hn hdecode .predicate (fun r => by simp [Row.terms]) hb]
      rfl
    · rw [hpair, if_neg hasked]
      rfl
  have hfilter : (ALL_INDEX_TYPES.filter (· ∈ indexes)).flatMap
      (IndexType.components (QuadCodes.ofRows rows)) =
      (if .secondaryByCopy ∈ indexes then copyComponents (QuadCodes.ofRows rows) else []) ++
        if .secondaryByReference ∈ indexes then referenceComponents (QuadCodes.ofRows rows) else [] := by
    rw [ALL_INDEX_TYPES, List.filter_cons, List.filter_cons, List.filter_nil]
    simp only [decide_eq_true_eq]
    split_ifs <;> simp [IndexType.components]
  rw [mergerComponents, List.mapM_append, hcopies, ok_bind, hrefs, hfilter]
  rfl

end Components

/-! ### The build is the dataset of its quads -/

section Build

theorem codeRows_lt {quads : List (Row Str)} : ∀ r ∈ codeRows quads, ∀ rank ∈ r.terms,
    rank < (termsOf quads).length := by
  intro r hr rank hrank
  obtain ⟨q, hq, rfl⟩ := List.mem_map.mp (mem_distinctSort.mp hr)
  obtain ⟨t, ht, rfl⟩ : ∃ t ∈ q.terms, (termsOf quads).idxOf t = rank := List.mem_map.mp hrank
  exact List.idxOf_lt_length_of_mem (mem_termsOf.mpr ⟨q, hq, ht⟩)

theorem codeOfRank_eq {dict : TermDictionary} {rank : ℕ} (h : rank < dict.terms.length) :
    codeOfRank dict rank = .ok rank := if_pos h

theorem codeChunk_eq {dict : TermDictionary} {ranks : List (Row ℕ)}
    (h : ∀ r ∈ ranks, ∀ rank ∈ r.terms, rank < dict.terms.length) :
    codeChunk dict ranks = .ok ⟨QuadCodes.ofRows ranks, true⟩ := by
  have hfold : ∀ (l : List (Row ℕ)) (codes : QuadCodes),
      (∀ r ∈ l, ∀ rank ∈ r.terms, rank < dict.terms.length) →
      l.foldlM (fun codes r => do return codes.push (← r.mapM (codeOfRank dict))) codes =
        (.ok (l.foldl QuadCodes.push codes) : Except VortexRdfError QuadCodes) := by
    intro l
    induction l with
    | nil => exact fun _ _ => rfl
    | cons r l ih =>
      intro codes hl
      have hr : r.mapM (codeOfRank dict) = .ok (r.map fun rank => rank) :=
        Row.mapM_eq_ok fun rank hrank => codeOfRank_eq (hl r List.mem_cons_self rank hrank)
      rw [List.foldlM_cons, hr, List.foldl_cons]
      exact ih _ fun r' hr' => hl r' (List.mem_cons_of_mem _ hr')
  rw [codeChunk, hfold ranks _ h, ok_bind]
  change Except.ok (buildCodeChunk (QuadCodes.ofRows ranks) 0 ranks.length true) = _
  rw [buildCodeChunk_ofRows]

theorem foldl_append_ofRows (parts : List (List (Row ℕ))) : ∀ done : List (Row ℕ),
    (parts.map QuadCodes.ofRows).foldl QuadCodes.append (QuadCodes.ofRows done) =
      QuadCodes.ofRows (done ++ parts.flatten) := by
  induction parts with
  | nil => intro done; rw [List.flatten_nil, List.append_nil]; rfl
  | cons part parts ih =>
    intro done
    have happend : (QuadCodes.ofRows done).append (QuadCodes.ofRows part) =
        QuadCodes.ofRows (done ++ part) := by
      rw [QuadCodes.ofRows_eq, QuadCodes.ofRows_eq, QuadCodes.ofRows_eq, QuadCodes.append]
      simp only [List.map_append]
    rw [List.map_cons, List.foldl_cons, happend, ih, List.flatten_cons, List.append_assoc]

/-- The chunks of code rows, assembled. -/
theorem codeChunks_spec {dict : TermDictionary} {n : ℕ} (hn : 0 < n)
    {m : RunMerger QuadRunReader (Row ℕ)} {rows : List (Row ℕ)} (h : Merges m rows)
    (hrows : ∀ r ∈ rows, ∀ rank ∈ r.terms, rank < dict.terms.length) :
    ∃ chunks, chunkStream n (codeChunk dict) (buildCodeChunk ⟨[], [], [], []⟩ 0 0 false) m = .ok chunks ∧
      (chunks.map (·.codes)).foldl QuadCodes.append ⟨[], [], [], []⟩ = QuadCodes.ofRows rows := by
  obtain ⟨chunks, hstream, hchunks⟩ := chunkStream_spec hn h
    (f := fun part => CodeChunk.mk (QuadCodes.ofRows part) true)
    fun part hpart => codeChunk_eq fun r hr => hrows r (hpart hr)
  refine ⟨chunks, hstream, ?_⟩
  rcases hchunks with ⟨rfl, rfl⟩ | ⟨parts, -, rfl, rfl⟩
  · rfl
  · rw [List.map_map]
    exact foldl_append_ofRows parts []

/-- The rows numbered and their children, unless the runs are too long or the rows too
many. -/
theorem mergeFeedingIndexes_spec {runs : QuadRuns} {m : RunMerger QuadRunReader (Row ℕ)}
    {rows : List (Row ℕ)} {sizes : BuildSizes} {indexes : List IndexType}
    {decode : ℕ → Except VortexRdfError TermCode} (hmerger : runs.merger = .ok m) (h : Merges m rows)
    (hn : 0 < sizes.chunkRows) (hrows : rows.Nodup) (hne : indexes ≠ [])
    (hranks : ∀ r ∈ rows, ∀ rank ∈ r.terms, rank < 2 ^ 32)
    (hdecode : ∀ r ∈ rows, ∀ rank ∈ r.terms, decode rank = .ok rank) :
    (sizes.runRows ≤ ROW_OFFSET_MAX ∧ rows.length ≤ rowLimit ∧
      ∃ children, mergeFeedingIndexes runs sizes indexes decode = .ok children ∧
        children.mapM IndexComponent.fromStream = .ok ((ALL_INDEX_TYPES.filter (· ∈ indexes)).flatMap
          (IndexType.components (QuadCodes.ofRows rows)))) ∨
    (ROW_OFFSET_MAX < sizes.runRows ∨ rowLimit < rows.length) ∧
      ∃ e, mergeFeedingIndexes runs sizes indexes decode = .error e := by
  rw [mergeFeedingIndexes, hmerger, ok_bind]
  rcases Nat.lt_or_ge ROW_OFFSET_MAX sizes.runRows with hlong | hfits
  · obtain ⟨e, he⟩ := IndexSpillers.new_refused hlong hne
    exact Or.inr ⟨Or.inl hlong, e, by rw [he, error_bind]⟩
  · obtain ⟨s, hs, hfed⟩ := @IndexSpillers.new_spec indexes _ hfits
    rw [hs, ok_bind]
    rcases IndexSpillers.feed_spec h (Nat.lt_succ_of_le (merges_length_le h)) hfed hranks (Nat.zero_le _)
      with ⟨hle, s', hfeed, hfed'⟩ | ⟨hgt, e, hfeed⟩
    · rw [List.length_nil, Nat.zero_add] at hle
      rw [List.length_nil] at hfeed
      obtain ⟨mergers, hmergers, hgive⟩ := hfed'.intoMergers
      rw [hfeed, ok_bind, hmergers]
      exact Or.inl ⟨hfits, hle, _, rfl, mergerComponents_spec hn hrows hdecode hgive⟩
    · rw [List.length_nil, Nat.zero_add] at hgt
      rw [List.length_nil] at hfeed
      exact Or.inr ⟨Or.inr hgt, e, by rw [hfeed, error_bind]⟩

theorem checkIndexedRows_of_le {n : ℕ} (h : n ≤ rowLimit) : checkIndexedRows n = .ok () :=
  if_neg (Nat.not_lt.mpr h)

/-- **The out-of-core build** is the dataset of the stream's quads, or it is refused: its
runs are longer than a row offset reaches, or the in-memory build is refused too. -/
theorem buildArray_eq {stream : List (Except VortexRdfError RawQuad)} {indexes : List IndexType}
    {sizes : BuildSizes} (hn : 0 < sizes.chunkRows) :
    ((indexes = [] ∨ sizes.runRows ≤ ROW_OFFSET_MAX) ∧ ∃ quads b, collected stream = .ok quads ∧
      buildArray stream indexes sizes = .ok b ∧ built (quads.map rawRow) indexes = .ok b) ∨
    (∃ e, buildArray stream indexes sizes = .error e) ∧
      (indexes ≠ [] ∧ ROW_OFFSET_MAX < sizes.runRows ∨
        ∀ quads, collected stream = .ok quads → ∃ e, built (quads.map rawRow) indexes = .error e) := by
  rw [buildArray, buildChunkStream]
  rcases @ingest_spec stream TermInterner.new (QuadSpiller.new sizes.runRows) [] [] Interning.nil
    (Nat.zero_le _) (Spilling.new _) with
    ⟨rest, i, s, ids, hrest, hingest, hinterning, hcap, hspilling⟩ | ⟨⟨e, hingest⟩, hmany⟩
  swap
  · refine Or.inr ⟨⟨e, by rw [hingest]; rfl⟩, Or.inr fun quads hquads => ?_⟩
    -- too many distinct terms, which the in-memory dictionary refuses too
    have hlong := hmany quads hquads
    rw [List.nil_append] at hlong
    exact ⟨_, by rw [built, fromSortedColumn, dif_pos hlong]; rfl⟩
  rw [List.nil_append] at hinterning
  obtain ⟨quads, hquads⟩ : ∃ quads, quads = rest.map rawRow := ⟨_, rfl⟩
  rw [← hquads] at hinterning
  obtain ⟨runs, m, hranked, hmerger, hmerges⟩ := merger_spec hinterning hcap hspilling
  have hsorted : i.finish.sorted = termsOf quads := by rw [finish_eq hinterning.nodup, hinterning.termsOf_eq]
  have hlen : (termsOf quads).length ≤ TERM_CAP := by
    rw [← hinterning.termsOf_eq]
    exact (distinctSort_length_le _).trans hcap
  obtain ⟨dict, hdict⟩ : ∃ dict, fromSortedColumn (termsOf quads) = .ok dict := by
    rw [fromSortedColumn, dif_neg (Nat.not_lt.mpr hlen)]
    exact ⟨_, rfl⟩
  have hterms : ∀ r ∈ codeRows quads, ∀ rank ∈ r.terms, rank < dict.terms.length := by
    rw [fromSortedColumn_terms hdict]
    exact codeRows_lt
  have hrows : (codeRows quads).Nodup := (sortedLT_distinctSort _).nodup
  obtain ⟨chunks, hchunks, hcodes⟩ := codeChunks_spec hn hmerges hterms
  simp only [hingest, ok_bind, hsorted, hdict, hranked]
  have hquads' : ∀ quads', collected stream = .ok quads' → quads'.map rawRow = quads := by
    intro quads' hquads'
    rw [hrest] at hquads'
    rw [hquads, Except.ok.inj hquads']
  -- without indexes the runs are merged once; with them the merge feeds the children first
  by_cases hnone : indexes = []
  · refine Or.inl ⟨Or.inl hnone, rest, ⟨⟨QuadCodes.ofRows (codeRows quads), true⟩, [], dict⟩, hrest, ?_, ?_⟩
    · simp only [if_pos hnone, pure_bind, hmerger, ok_bind, hchunks, hcodes]
      rfl
    · rw [← hquads, built, hdict, ok_bind, buildComponents, if_neg (not_not.mpr hnone), hnone]
      rfl
  · have hcap32 : TERM_CAP < 2 ^ 32 := by decide
    rcases mergeFeedingIndexes_spec hmerger hmerges hn hrows hnone
      (fun r hr rank hrank => (codeRows_lt r hr rank hrank).trans (lt_of_le_of_lt hlen hcap32))
      (fun r hr rank hrank => codeOfRank_eq (hterms r hr rank hrank)) with
      ⟨hfits, hle, children, hchildren, hcomponents⟩ | ⟨hwhy, e, herror⟩
    · obtain ⟨components, hall⟩ : ∃ components, components =
          (ALL_INDEX_TYPES.filter (· ∈ indexes)).flatMap
            (IndexType.components (QuadCodes.ofRows (codeRows quads))) := ⟨_, rfl⟩
      rw [← hall] at hcomponents
      refine Or.inl ⟨Or.inr hfits, rest, ⟨⟨QuadCodes.ofRows (codeRows quads), true⟩, components, dict⟩, hrest,
        ?_, ?_⟩
      · simp only [if_neg hnone, hchildren, ok_bind, hmerger, hchunks, pure_bind, hcodes, hcomponents]
        rfl
      · rw [← hquads, built, hdict, ok_bind, buildComponents, if_pos hnone, QuadCodes.length_ofRows,
          checkIndexedRows_of_le hle, hall]
        rfl
    · refine Or.inr ⟨⟨e, ?_⟩, ?_⟩
      · simp only [if_neg hnone, herror]
        rfl
      · rcases hwhy with hlong | hlong
        · exact Or.inl ⟨hnone, hlong⟩
        · refine Or.inr fun quads' hcollected => ?_
          rw [hquads' quads' hcollected]
          refine ⟨tooManyRows (some (codeRows quads).length), ?_⟩
          rw [built, hdict, ok_bind, buildComponents, if_pos hnone, QuadCodes.length_ofRows,
            checkIndexedRows, if_pos hlong]
          rfl

/-- **The out-of-core build equals the in-memory one**, wherever a row offset reaches all of
a run: the same dictionary, the same ascending code rows and the same index children. -/
theorem buildArray_isInMemory (stream : List (Except VortexRdfError RawQuad)) (indexes : List IndexType)
    (sizes : BuildSizes) (hchunk : 1 ≤ sizes.chunkRows) (b : BuiltArray) :
    (buildArray stream indexes sizes = .ok b ↔
      (indexes = [] ∨ sizes.runRows ≤ ROW_OFFSET_MAX) ∧ buildInMemory stream indexes = .ok b) ∧
    (buildArray stream indexes sizes = .ok b → b.array.codes.rows.SortedLT ∧ b.array.sSorted = true) := by
  rw [buildInMemory_eq]
  rcases @buildArray_eq stream indexes sizes hchunk with
    ⟨hfits, quads, b', hcollected, hstream, hbuilt⟩ | ⟨⟨e, herror⟩, hwhy⟩
  · rw [hstream, hcollected, ok_bind, hbuilt]
    refine ⟨⟨fun h => ⟨hfits, h⟩, fun h => h.2⟩, fun h => ?_⟩
    rw [← Except.ok.inj h]
    rw [built] at hbuilt
    cases hdict : fromSortedColumn (termsOf (quads.map rawRow)) with
    | error e =>
      rw [hdict] at hbuilt
      cases hbuilt
    | ok dict =>
      rw [hdict, ok_bind] at hbuilt
      cases hcomponents : buildComponents indexes (QuadCodes.ofRows (codeRows (quads.map rawRow))) with
      | error e =>
        rw [hcomponents] at hbuilt
        cases hbuilt
      | ok components =>
        rw [hcomponents] at hbuilt
        rw [← Except.ok.inj hbuilt]
        exact ⟨by rw [QuadCodes.rows_ofRows]; exact sortedLT_distinctSort _, rfl⟩
  · rw [herror]
    refine ⟨⟨fun h => (by cases h), fun hboth => ?_⟩, fun h => (by cases h)⟩
    obtain ⟨hfits, hbuilt⟩ := hboth
    rcases hwhy with ⟨hne, hlong⟩ | hrefused
    · rcases hfits with hnone | hfits
      · exact absurd hnone hne
      · exact absurd hfits (Nat.not_le.mpr hlong)
    · cases hcollected : collected stream with
      | error e =>
        rw [hcollected] at hbuilt
        cases hbuilt
      | ok quads =>
        obtain ⟨e, he⟩ := hrefused quads hcollected
        rw [hcollected, ok_bind, he] at hbuilt
        cases hbuilt

def sampleQuad (subject : String) : RawQuad :=
  ⟨utf8 subject.toList, utf8 "<a:p>".toList, utf8 "<a:o>".toList, utf8 "<a:g>".toList⟩

/-- Two quads that share all but one term, the greater one first and again at the end. -/
def sampleQuads : List RawQuad := ["<a:2>", "<a:1>", "<a:2>"].map sampleQuad

theorem collected_sample : collected (sampleQuads.map .ok) = .ok sampleQuads := rfl

theorem sample_fits : ∃ b, buildInMemory (sampleQuads.map .ok) ALL_INDEX_TYPES = .ok b := by
  have hterms : (termsOf (sampleQuads.map rawRow)).length ≤ TERM_CAP :=
    (distinctSort_length_le _).trans (show 12 ≤ TERM_CAP by decide)
  have hrows : (codeRows (sampleQuads.map rawRow)).length ≤ rowLimit := by
    refine (distinctSort_length_le _).trans ?_
    rw [List.length_map]
    exact (show 3 ≤ rowLimit by decide)
  rw [buildInMemory_eq, collected_sample, ok_bind, built, fromSortedColumn, dif_neg (Nat.not_lt.mpr hterms),
    ok_bind, buildComponents, if_pos (by decide), QuadCodes.length_ofRows, checkIndexedRows_of_le hrows]
  exact ⟨_, rfl⟩

theorem buildArray_isInMemory_sample :
    ∃ b, buildInMemory (sampleQuads.map .ok) ALL_INDEX_TYPES = .ok b ∧
      buildArray (sampleQuads.map .ok) ALL_INDEX_TYPES ⟨1, 1⟩ = .ok b ∧ b.array.codes.rows.SortedLT := by
  obtain ⟨b, hb⟩ := sample_fits
  obtain ⟨hiff, hsorted⟩ := buildArray_isInMemory (sampleQuads.map .ok) ALL_INDEX_TYPES ⟨1, 1⟩ (by decide) b
  have hbuilt := hiff.mpr ⟨Or.inr (by decide), hb⟩
  exact ⟨b, hb, hbuilt, (hsorted hbuilt).1⟩

/-- Runs longer than a row offset reaches are refused where the in-memory build is not. -/
theorem buildArray_refusesWideRuns :
    ¬ ∀ (stream : List (Except VortexRdfError RawQuad)) (indexes : List IndexType) (sizes : BuildSizes),
      1 ≤ sizes.runRows → 1 ≤ sizes.chunkRows →
      ∀ b, buildArray stream indexes sizes = .ok b ↔ buildInMemory stream indexes = .ok b := by
  intro h
  obtain ⟨b, hb⟩ := sample_fits
  have hbuilt := (h (sampleQuads.map .ok) ALL_INDEX_TYPES ⟨1, 2 ^ 32⟩ (by decide) (by decide) b).mpr hb
  rcases @buildArray_eq (sampleQuads.map .ok) ALL_INDEX_TYPES ⟨1, 2 ^ 32⟩ (by decide) with
    ⟨hfits, -⟩ | ⟨⟨e, herror⟩, -⟩
  · exact absurd hfits (by decide)
  · rw [herror] at hbuilt
    cases hbuilt

end Build

end Builds
