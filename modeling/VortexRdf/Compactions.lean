/-
The parts a compaction builds.

A Dictionary view's live rows, rebuilt into one sorted dataset: from the base's codes while
the dictionary is in memory, else from the quads spelled out.

* `DictionaryStore` — a view: a dictionary, code rows with a selection and tombstones over
  them, and an appended tail;
* `sortedLiveRawQuads` — its live quads spelled out, in order and each once;
* `rebuiltParts` — its rebuild;
* `rebuild_is_buildFromTerms` — the rebuild is the build of the live quads spelled out.
-/
import VortexRdf.DecoderAgreement
import VortexRdf.Rebuilds

namespace Dictionary

/-- The dictionary, where it is in memory. -/
def Residency.residentDictionary : Residency → Option TermDictionary
  | .resident dict => some dict
  | .fileBacked _ => none

/-- The dictionary with its terms in memory. -/
def Residency.ensureResident : Residency → TermDictionary
  | .resident dict => dict
  | .fileBacked fb => ⟨fb.windows, fb.len_le⟩

theorem Residency.ensureResident_terms (dict : Residency) :
    dict.ensureResident.terms = dict.terms := by
  cases dict <;> rfl

end Dictionary

namespace Builds

open Dictionary DistinctSort Masks MaskOps Programs Store Terms
open scoped Lexicographic

/-! ### Views of a Dictionary store -/

def codeRow (r : Row TermCode) : CodeRow
  | .s => r.s
  | .p => r.p
  | .o => r.o
  | .g => r.g

/-- A view of a Dictionary store: the base's rows its selection picks less its tombstones,
then its tail's. A stamped base is in order; an index that serves the view lists the live
rows in an order of its own. -/
structure DictionaryStore (M : Type*) [MaskOps M] (finish : Finish) where
  dict : Residency
  sorted : dict.terms.SortedLT
  base : List (Row TermCode)
  fits : base.length ≤ usizeMax
  inRange : ∀ r ∈ base, ∀ code ∈ r.terms, code < dict.terms.length
  subjectSorted : Bool
  stamped : subjectSorted = true → base.SortedLE
  /-- Every column of the base has a probe. -/
  probed : Bool
  /-- The code columns can be read off their caches. -/
  cached : Bool
  selection : RowSelection
  selected : selection.Within base.length
  deleted : Option M
  tombstones : ∀ d ∈ deleted, len d = base.length
  served : Option (List RowId)
  servedLive : ∀ ids ∈ served, ids.Perm (selection.liveListing deleted base.length)
  tail : Option (Tail M .default)
  kept : ∀ t ∈ tail, t.Kept finish

def orVortex {α : Type} : Option α → Except VortexRdfError α
  | some a => .ok a
  | none => .error .vortex

namespace DictionaryStore

variable {M : Type*} [MaskOps M] {finish : Finish} (v : DictionaryStore M finish)

/-- The live rows of the base, in base order. -/
def baseSelectedRows : Except VortexRdfError (List (Row TermCode)) :=
  orVortex (gatherLive v.base v.selection v.deleted v.probed)

/-- The codes of the live rows: off the index that serves the view, or off the base's own
columns, or off its rows. -/
def codeColumnsGathered : Except VortexRdfError QuadCodes :=
  match v.served with
  | some ids => .ok (QuadCodes.ofRows (rowsAt v.base ids))
  | none =>
    if v.cached then
      .ok (QuadCodes.ofRows (rowsAt v.base
        (v.selection.filterRows v.base.length fun id => v.deleted.all fun d => !value d id)))
    else v.baseSelectedRows.map QuadCodes.ofRows

def tailRawQuads : Except VortexRdfError (List RawQuad) :=
  match v.tail with
  | some t => orVortex t.liveRows
  | none => .ok []

/-- The live quads, the base's first, and how many are the base's. -/
def liveRawQuads : Except VortexRdfError (List RawQuad × ℕ) := do
  let base ← v.baseSelectedRows
  let raws ← collected (decodeResident rawQuadRows v.dict.ensureResident (base.map codeRow))
  let tail ← v.tailRawQuads
  return (raws ++ tail, raws.length)

/-- The live quads in order, each once. Over a stamped base only the tail is out of order. -/
def sortedLiveRawQuads : Except VortexRdfError (List RawQuad) := do
  let (raws, baseRows) ← v.liveRawQuads
  return dedup <|
    if v.subjectSorted = false then sortBy rawRow raws
    else if baseRows < raws.length then
      sortBy rawRow (raws.take baseRows ++ sortBy rawRow (raws.drop baseRows))
    else raws

def rebuiltParts (indexes : List IndexType) : Except VortexRdfError BuiltArray :=
  match v.dict.residentDictionary with
  | none => do buildPartsFromRaws (← v.sortedLiveRawQuads) indexes
  | some dict => do
    let codes ← v.codeColumnsGathered
    let tail ← v.tailRawQuads
    rebuildFromCodes dict codes tail indexes

end DictionaryStore

/-! ### The live rows -/

section LiveRows

theorem mem_rowsAt {α : Type} {base : List α} {ids : List RowId} {r : α} (h : r ∈ rowsAt base ids) :
    r ∈ base := by
  obtain ⟨id, -, hget⟩ := List.mem_filterMap.mp h
  exact List.mem_of_getElem? hget

theorem sortedLE_rowsAt {α : Type} [LinearOrder α] {base : List α} (h : base.SortedLE)
    {ids : List RowId} (hids : ids.SortedLT) : (rowsAt base ids).SortedLE := by
  refine List.Pairwise.sortedLE (List.pairwise_filterMap.mpr (hids.pairwise.imp fun hlt r hr r' hr' => ?_))
  obtain ⟨hi, rfl⟩ := List.getElem?_eq_some_iff.mp hr
  obtain ⟨hj, rfl⟩ := List.getElem?_eq_some_iff.mp hr'
  exact h.getElem_le_getElem_of_le hlt.le

/-- Spelling rows out keeps their order. -/
theorem map_spell_le {terms : List Str} (h : terms.SortedLT) {r r' : Row TermCode}
    (hr : ∀ code ∈ r.terms, code < terms.length) (hr' : ∀ code ∈ r'.terms, code < terms.length)
    (hle : r ≤ r') : r.map (spell terms) ≤ r'.map (spell terms) := by
  rcases eq_or_lt_of_le hle with rfl | hlt
  · exact le_refl _
  · refine (map_lt_map (fun a ha b hb hab => ?_) hlt).le
    rw [spell, spell, List.getD_eq_getElem _ _ (hr a ha), List.getD_eq_getElem _ _ (hr' b hb)]
    exact h.getElem_lt_getElem_iff.mpr hab

theorem rawRow_injective : Function.Injective rawRow := fun q q' h => by
  cases q
  cases q'
  cases h
  rfl

theorem collected_ok (quads : List RawQuad) : collected (quads.map .ok) = .ok quads := by
  induction quads with
  | nil => rfl
  | cons q quads ih =>
    rw [List.map_cons, collected, ih]
    rfl

/-- The rows of a resident dictionary, spelled out. -/
theorem collected_decodeResident {dict : TermDictionary} {rows : List (Row TermCode)}
    (h : ∀ r ∈ rows, ∀ code ∈ r.terms, code < dict.len) :
    collected (decodeResident rawQuadRows dict (rows.map codeRow)) =
      .ok (rows.map fun r => rawQuad (r.map (spell dict.terms))) := by
  have hrange : InRange (Dictionary.Residency.resident dict).terms (rows.map codeRow) := by
    intro codes hcodes role
    obtain ⟨r, hr, rfl⟩ := List.mem_map.mp hcodes
    cases role <;> exact h r hr _ (by simp [Row.terms, codeRow])
  have hdecode := decode_of_inRange rawQuadRows_computes hrange
  rw [strings_spelled _ hrange] at hdecode
  change decodeResident rawQuadRows dict (rows.map codeRow) = _ at hdecode
  rw [hdecode, List.map_map]
  have hquads := collected_ok (rows.map fun r => rawQuad (r.map (spell dict.terms)))
  rwa [List.map_map] at hquads

end LiveRows

/-! ### The live quads -/

namespace DictionaryStore

variable {M : Type*} [MaskOps M] [LawfulMask M] {finish : Finish} (v : DictionaryStore M finish)

/-- The ids of the live base rows, in base order. -/
def liveIds : List RowId := v.selection.liveListing v.deleted v.base.length

/-- The live rows of the tail. -/
def liveTail : List RawQuad :=
  match v.tail with
  | some t => rowsAt t.rows (t.selection.liveListing t.deleted t.rows.length)
  | none => []

theorem baseSelectedRows_eq : v.baseSelectedRows = .ok (rowsAt v.base v.liveIds) := by
  rw [baseSelectedRows, gatherLive_eq v.fits v.selected v.tombstones]
  rfl

theorem tailRawQuads_eq : v.tailRawQuads = .ok v.liveTail := by
  rw [tailRawQuads, liveTail]
  cases htail : v.tail with
  | none => rfl
  | some t =>
    have hrows := (v.kept t htail).liveRows_eq
    simp only [hrows]
    rfl

/-- The live rows' codes, in some order. -/
theorem codeColumnsGathered_spec : ∃ ids : List RowId, ids.Perm v.liveIds ∧
    v.codeColumnsGathered = .ok (QuadCodes.ofRows (rowsAt v.base ids)) := by
  rw [codeColumnsGathered]
  cases hserved : v.served with
  | some ids => exact ⟨ids, v.servedLive ids hserved, rfl⟩
  | none =>
    refine ⟨v.liveIds, List.Perm.refl _, ?_⟩
    dsimp only
    rw [baseSelectedRows_eq, filterRows_eq v.fits v.selected]
    split_ifs
    · rfl
    · rfl

/-- The live base rows spelled out. -/
def liveBase : List RawQuad := (rowsAt v.base v.liveIds).map fun r => rawQuad (r.map (spell v.dict.terms))

theorem liveRawQuads_eq : v.liveRawQuads = .ok (v.liveBase ++ v.liveTail, v.liveBase.length) := by
  have hdecode : collected (decodeResident rawQuadRows v.dict.ensureResident
      ((rowsAt v.base v.liveIds).map codeRow)) = .ok v.liveBase := by
    rw [collected_decodeResident, Residency.ensureResident_terms, liveBase]
    intro r hr code hcode
    rw [TermDictionary.len, Residency.ensureResident_terms]
    exact v.inRange r (mem_rowsAt hr) code hcode
  rw [liveRawQuads, baseSelectedRows_eq, tailRawQuads_eq]
  change (do
    let raws ← collected (decodeResident rawQuadRows v.dict.ensureResident
      ((rowsAt v.base v.liveIds).map codeRow))
    return (raws ++ v.liveTail, raws.length)) = _
  rw [hdecode]
  rfl

omit [LawfulMask M] in
/-- Over a stamped base the live rows spelled out are in order. -/
theorem liveBase_sorted (h : v.subjectSorted = true) : (v.liveBase.map rawRow).SortedLE := by
  have hrows : v.liveBase.map rawRow = (rowsAt v.base v.liveIds).map (Row.map (spell v.dict.terms)) := by
    rw [liveBase, List.map_map]
    rfl
  have hids : v.liveIds.SortedLT :=
    ((listing_idsWithin v.selected).ascending.pairwise.sublist List.filter_sublist).sortedLT
  rw [hrows]
  refine List.Pairwise.sortedLE (List.pairwise_map.mpr ?_)
  refine (sortedLE_rowsAt (v.stamped h) hids).pairwise.imp_of_mem fun hr hr' hle => ?_
  exact map_spell_le v.sorted (v.inRange _ (mem_rowsAt hr)) (v.inRange _ (mem_rowsAt hr')) hle

/-- The live quads spelled out, strictly ascending. -/
theorem sortedLiveRawQuads_spec : ∃ raws, v.sortedLiveRawQuads = .ok raws ∧
    (raws.map rawRow).SortedLT ∧ ∀ q, q ∈ raws ↔ q ∈ v.liveBase ++ v.liveTail := by
  have hfinish : ∀ sorted : List RawQuad, (sorted.map rawRow).SortedLE →
      (∀ q, q ∈ sorted ↔ q ∈ v.liveBase ++ v.liveTail) →
      ((dedup sorted).map rawRow).SortedLT ∧ ∀ q, q ∈ dedup sorted ↔ q ∈ v.liveBase ++ v.liveTail :=
    fun sorted hsorted hmem => ⟨dedup_ascends (fun _ _ _ _ h => rawRow_injective h) hsorted,
      fun q => mem_dedup.trans (hmem q)⟩
  refine ⟨_, by rw [sortedLiveRawQuads, liveRawQuads_eq]; rfl, ?_⟩
  rw [List.take_left, List.drop_left]
  split_ifs with hunsorted hlen
  · exact hfinish _ (sortBy_ascends _ _) fun q => mem_sortBy
  · refine hfinish _ (sortBy_ascends _ _) fun q => ?_
    rw [mem_sortBy, List.mem_append, mem_sortBy, List.mem_append]
  · -- no tail row is live, so the base's rows are all there is
    have hempty : v.liveTail = [] := by
      rw [List.length_append] at hlen
      exact List.length_eq_zero_iff.mp (by omega)
    rw [hempty, List.append_nil]
    have hsorted := hfinish _ (v.liveBase_sorted (by simpa using hunsorted))
    rw [hempty, List.append_nil] at hsorted
    exact hsorted fun q => Iff.rfl

/-- The rebuild from codes is the dataset of the live quads. -/
theorem rebuiltParts_resident {dict : TermDictionary} (h : v.dict = .resident dict)
    (indexes : List IndexType) :
    v.rebuiltParts indexes = built ((v.liveBase ++ v.liveTail).map rawRow) indexes := by
  have hterms : dict.terms = v.dict.terms := by rw [h]; rfl
  obtain ⟨ids, hperm, hcodes⟩ := v.codeColumnsGathered_spec
  have hquads : ∀ q, q ∈ liveQuads dict (rowsAt v.base ids) v.liveTail ↔
      q ∈ (v.liveBase ++ v.liveTail).map rawRow := by
    intro q
    have hrows : (rowsAt v.base ids).Perm (rowsAt v.base v.liveIds) := hperm.filterMap _
    rw [liveQuads, List.map_append, List.mem_append, List.mem_append, liveBase, List.map_map, hterms,
      ((hrows.map _).mem_iff)]
    rfl
  rw [rebuiltParts, h]
  change (do
    let codes ← v.codeColumnsGathered
    let tail ← v.tailRawQuads
    rebuildFromCodes dict codes tail indexes) = _
  rw [hcodes, tailRawQuads_eq]
  change rebuildFromCodes dict (QuadCodes.ofRows (rowsAt v.base ids)) v.liveTail indexes = _
  rw [rebuildFromCodes_eq (hterms ▸ v.sorted) (fun r hr code hcode => by
    rw [TermDictionary.len, hterms]
    exact v.inRange r (mem_rowsAt hr) code hcode), built_congr hquads]

end DictionaryStore

/-! ### Main result -/

theorem built_ok {quads : List (Row Str)} {indexes : List IndexType} {parts : BuiltArray}
    (h : built quads indexes = .ok parts) :
    parts.dict.terms = termsOf quads ∧ parts.array.codes = QuadCodes.ofRows (codeRows quads) := by
  rw [built] at h
  cases hdict : fromSortedColumn (termsOf quads) with
  | error e =>
    rw [hdict] at h
    cases h
  | ok dict =>
    rw [hdict] at h
    change (do
      let components ← buildComponents indexes (QuadCodes.ofRows (codeRows quads))
      return (⟨⟨QuadCodes.ofRows (codeRows quads), true⟩, components, dict⟩ : BuiltArray)) = _ at h
    cases hcomponents : buildComponents indexes (QuadCodes.ofRows (codeRows quads)) with
    | error e =>
      rw [hcomponents] at h
      cases h
    | ok components =>
      rw [hcomponents] at h
      cases h
      exact ⟨fromSortedColumn_terms hdict, rfl⟩

/-- The code rows spell the quads, in order and each once. -/
theorem map_spell_codeRows (quads : List (Row Str)) :
    (codeRows quads).map (Row.map (spell (termsOf quads))) = distinctSort quads := by
  rw [codeRows_eq, List.map_map]
  refine (List.map_congr_left fun q hq => ?_).trans (List.map_id _)
  have hone : ∀ t ∈ q.terms, spell (termsOf quads) ((termsOf quads).idxOf t) = t := by
    intro t ht
    have hmem := mem_termsOf.mpr ⟨q, mem_distinctSort.mp hq, ht⟩
    rw [spell, List.getD_eq_getElem _ _ (List.idxOf_lt_length_of_mem hmem), List.getElem_idxOf]
  simp only [Row.terms, List.forall_mem_cons] at hone
  simp only [Function.comp_apply, Row.map, hone.1, hone.2.1, hone.2.2.1, hone.2.2.2.1, id_eq]

def storeLetters : TermDictionary :=
  ⟨[[[0x61], [0x63], [0x65], [0x67]], [[0x69], [0x6b]]], by decide⟩

/-- Six letters, two rows over them, the first of which is deleted, and one appended row. -/
def letterStore : DictionaryStore BitMask List.length where
  dict := .resident storeLetters
  sorted := List.Pairwise.sortedLT (by decide)
  base := [⟨0, 1, 2, 3⟩, ⟨4, 1, 2, 5⟩]
  fits := by decide
  inRange := by decide
  subjectSorted := true
  stamped _ := List.Pairwise.sortedLE (by decide)
  probed := false
  cached := true
  selection := .all
  selected := trivial
  deleted := some ⟨[true, false]⟩
  tombstones := by
    rintro _ ⟨⟩
    rfl
  served := none
  servedLive := nofun
  tail := some letterTail
  kept := by
    rintro _ ⟨⟩
    exact letterTail_built.kept

/-- **A view's rebuild is the build of its live quads spelled out.** Whatever rows are
selected, deleted and appended, the parts are the same either way, or the same error: the
terms the live quads use and no others, in order, and each live quad once, in order. -/
theorem rebuild_is_buildFromTerms {M : Type*} [MaskOps M] [LawfulMask M] {finish : Finish}
    (v : DictionaryStore M finish) (indexes : List IndexType) :
    ∃ raws, v.sortedLiveRawQuads = .ok raws ∧
      (∀ q, q ∈ raws ↔ q ∈ v.liveBase ++ v.liveTail) ∧
      v.rebuiltParts indexes = buildPartsFromRaws raws indexes ∧
      ∀ parts, v.rebuiltParts indexes = .ok parts →
        parts.dict.terms.SortedLT ∧
        (∀ t, t ∈ parts.dict.terms ↔ ∃ q ∈ raws, t ∈ (rawRow q).terms) ∧
        parts.array.codes.rows.SortedLT ∧
        parts.array.codes.rows.map (Row.map (spell parts.dict.terms)) = raws.map rawRow := by
  obtain ⟨raws, hraws, hsorted, hmem⟩ := v.sortedLiveRawQuads_spec
  have hquads : ∀ q, q ∈ (v.liveBase ++ v.liveTail).map rawRow ↔ q ∈ raws.map rawRow := by
    intro q
    simp only [List.mem_map, hmem]
  have hparts : v.rebuiltParts indexes = buildPartsFromRaws raws indexes := by
    cases hdict : v.dict with
    | resident dict => rw [v.rebuiltParts_resident hdict, built_congr hquads, buildPartsFromRaws_eq hsorted]
    | fileBacked fb =>
      rw [DictionaryStore.rebuiltParts, hdict]
      change (v.sortedLiveRawQuads >>= fun raws => buildPartsFromRaws raws indexes) = _
      rw [hraws]
      rfl
  refine ⟨raws, hraws, hmem, hparts, fun parts hok => ?_⟩
  rw [hparts, buildPartsFromRaws_eq hsorted] at hok
  obtain ⟨hterms, hcodes⟩ := built_ok hok
  rw [hterms, hcodes, QuadCodes.rows_ofRows]
  refine ⟨sortedLT_termsOf _, fun t => ?_, sortedLT_distinctSort _, ?_⟩
  · rw [mem_termsOf]
    simp only [List.mem_map, exists_exists_and_eq_and]
  · rw [map_spell_codeRows, distinctSort_of_sortedLT hsorted]

/-- One base row and one appended row, over terms old and new. -/
theorem rebuild_is_buildFromTerms_letters : ∃ raws, letterStore.sortedLiveRawQuads = .ok raws ∧
    (∀ q, q ∈ raws ↔ q ∈ ([⟨[0x69], [0x63], [0x65], [0x6b]⟩, ⟨[0x73], [0x70], [0x6f], [0x67]⟩] :
      List RawQuad)) ∧
    letterStore.rebuiltParts ALL_INDEX_TYPES = buildPartsFromRaws raws ALL_INDEX_TYPES := by
  obtain ⟨raws, hraws, hmem, hparts, -⟩ := rebuild_is_buildFromTerms letterStore ALL_INDEX_TYPES
  have hbase : letterStore.liveBase = [⟨[0x69], [0x63], [0x65], [0x6b]⟩] := by
    rw [DictionaryStore.liveBase, DictionaryStore.liveIds, RowSelection.liveListing,
      ← filterRows_eq letterStore.fits letterStore.selected]
    rfl
  have htail : letterStore.liveTail = [⟨[0x73], [0x70], [0x6f], [0x67]⟩] := by
    change rowsAt letterTail.rows 
      (letterTail.selection.liveListing letterTail.deleted letterTail.rows.length) = _
    rw [RowSelection.liveListing, ← filterRows_eq letterTail_built.kept.fits letterTail_built.kept.selected]
    rfl
  rw [hbase, htail] at hmem
  exact ⟨raws, hraws, hmem, hparts⟩

end Builds
