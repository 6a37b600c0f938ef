/-
What a view says of its rows before they are read.

A count asks the selection how many live rows it has, where it knows; a capped count stops at
its limit.  The statistics promise a planner the row count or a bound on it, the order the
rows read in and the codes that bound them, reading no row.

* `VortexRdfStore.size`, `.sizeCapped`, `.existsAny` — the counts;
* `VortexRdfStore.viewStatistics` — the statistics;
* `size_spec`, `sizeCapped_spec` — the counts are of the rows the view shows;
* `baseRows_spec` — what is known without counting bounds them;
* `viewStatistics_spec` — each promise of the statistics holds of the rows the view shows.

`none` stands for a panic or an error of the array library.
-/
import VortexRdf.ViewMatches

namespace Views

open Ascending Buffers Builds Dictionary EncodedSearch Indexes Masks MaskOps Terms
open Store hiding Row saturatingAdd
open scoped Lexicographic

/-! ### Counts -/

/-- The sum of two counts, which overflow panics. -/
def addUsize (a b : ℕ) : Option ℕ := if a + b ≤ usizeMax then some (a + b) else none

/-- A base's rows as far as they are known without I/O. -/
structure BaseRows where
  live : Option ℕ
  /-- The rows selected before tombstones. -/
  selected : ℕ

/-- The most rows the base holds. -/
def BaseRows.upperBound (rows : BaseRows) : ℕ := rows.live.getD rows.selected

section Counts

variable {ox : Oxrdf} {V M : Type} [LinearOrder V] [TermColumn V] [MaskOps M] (fl : FastLanes)

namespace QuadsSource

variable (quads : QuadsSource V M)

/-- The live base rows, where the selection counts them. -/
def liveCount : Option (Option ℕ) := quads.selection.count fl quads.deleted quads.baseLen

/-- The base's rows, its live ones counted under tombstones only where asked for. -/
def baseRows (countLive : ℕ → Bool) : Option BaseRows :=
  let known := quads.selection.lenIfKnown quads.baseLen
  let selected := known.getD quads.baseLen
  (match quads.deleted with
    | none => some known
    | some _ => if countLive selected then quads.liveCount fl else some none).map fun live =>
      ⟨live, selected⟩

end QuadsSource

namespace VortexRdfStore

variable (store : VortexRdfStore ox V M)

def baseSize : Option ℕ :=
  (store.quads.liveCount fl).bind fun live =>
    match live with
    | some live => some live
    | none => (store.quads.selection.materialized fl M).map fun selection =>
        selection.liveLen store.quads.deleted store.quads.baseLen

/-- The tail's live rows. -/
def tailSize : ℕ := (store.tail.map Tail.liveLen).getD 0

/-- The quads the view holds. -/
def size : Option ℕ := (store.baseSize fl).bind fun base => addUsize base store.tailSize

def baseSizeCapped (limit : ℕ) : Option ℕ :=
  (store.quads.selection.countCapped fl limit store.quads.deleted).bind fun counted =>
    match counted with
    | some counted => some counted
    | none => (store.baseSize fl).map fun base => min base limit

/-- The quads the view holds, counted up to a limit. -/
def sizeCapped (limit : ℕ) : Option ℕ :=
  if limit = 0 then some 0
  else
    (store.baseSizeCapped fl limit).bind fun base =>
      if limit ≤ base then some limit
      else (addUsize base store.tailSize).map fun total => min total limit

/-- Whether the view holds any quad. -/
def existsAny : Option Bool := (store.sizeCapped fl 1).map fun counted => decide (0 < counted)

/-- The base and the appended rows fit one count. -/
def FitsUsize : Prop := store.quads.baseLen + store.tailLen ≤ usizeMax

end VortexRdfStore

end Counts

/-! ### Statistics -/

/-- How many rows a view holds: exactly, or at most. -/
structure RowCountHint where
  exact : Option ℕ
  upperBound : ℕ
deriving DecidableEq

/-- The shape of a view's selection. -/
inductive SelectionKind where
  | all
  | range
  | ids
  | pendingIndexRun
deriving DecidableEq

/-- What a view promises of its rows before they are read. -/
structure ViewStatistics where
  rows : RowCountHint
  sortOrder : Option SortOrder
  /-- The inclusive code range a column's rows lie in. -/
  codeBounds : QuadColumn → Option (TermCode × TermCode)
  selection : SelectionKind
  servedComponent : Option String
  tombstones : ℕ
  tailRows : ℕ

/-- The count of a view whose base holds some rows and tail some more. -/
def rowCountHint (base : BaseRows) (tailRows : ℕ) : Option RowCountHint :=
  (addUsize base.upperBound tailRows).map fun upperBound =>
    match base.live with
    | some _ => ⟨some upperBound, upperBound⟩
    | none => ⟨none, upperBound⟩

def selectionKind : ViewSelection → SelectionKind
  | .exact .all => .all
  | .exact (.range _) => .range
  | .exact (.ids _) => .ids
  | .pending _ _ => .pendingIndexRun
  | .residual _ => .pendingIndexRun

section Statistics

variable {ox : Oxrdf} {V M : Type} [LinearOrder V] [TermColumn V] [MaskOps M] (fl : FastLanes)
  (store : VortexRdfStore ox V M)

namespace VortexRdfStore

/-- The first and last codes of the subjects of a contiguous run of a sorted base with no
tombstones, where the column has a probe. -/
def subjectBounds : Option (Option (TermCode × TermCode)) :=
  if store.layout.strategy = .dictionary ∧ store.quads.subjectSorted = true ∧
      store.quads.deleted.isNone then
    match store.quads.selection with
    | .exact selection =>
      match selection.asRows store.quads.baseLen, store.quads.memory.base.probes .s with
      | .run run, some probe =>
        if run.stop ≤ run.start then some none
        else
          (SortedProbe.valueAt fl probe run.start).bind fun first =>
            (SortedProbe.valueAt fl probe (run.stop - 1)).map fun last => some (first, last)
      | _, _ => some none
    | _ => some none
  else some none

def codeBounds : Option (QuadColumn → Option (TermCode × TermCode)) :=
  (store.subjectBounds fl).map fun bounds column => if column = .s then bounds else none

def viewStatistics : Option ViewStatistics :=
  (store.quads.baseRows fl fun _ => true).bind fun base =>
    (rowCountHint base store.tailSize).bind fun rows =>
      (store.codeBounds fl).map fun codeBounds =>
        { rows
          sortOrder := if store.tailSize = 0 then store.quads.readOrder else none
          codeBounds
          selection := selectionKind store.quads.selection
          servedComponent := store.quads.memory.serve.map fun plan => plan.component.identity.name
          tombstones := (store.quads.deleted.map trueCount).getD 0
          tailRows := store.tailSize }

end VortexRdfStore

end Statistics

/-! ### The counts are of the rows shown -/

section Specs

variable {ox : Oxrdf} {V M : Type} [LinearOrder V] [TermColumn V] [Inhabited V] [MaskOps M]
  [LawfulMask M] {fl : FastLanes} {finish : Finish} {store : VortexRdfStore ox V M}
  {ids tailIds : List RowId}

theorem addUsize_eq {a b : ℕ} (h : a + b ≤ usizeMax) : addUsize a b = some (a + b) := if_pos h

omit [Inhabited V] in
/-- The tail's live rows are those it shows. -/
theorem tailSize_eq (h : store.Sound fl finish) :
    store.tailSize = (tailListing store.tail).length := by
  cases htail : store.tail with
  | none => rw [VortexRdfStore.tailSize, htail]; rfl
  | some tail =>
    have hkept := h.kept tail htail
    rw [VortexRdfStore.tailSize, htail]
    exact length_liveListing hkept.fits hkept.selected hkept.tombstones

theorem liveCount_spec (h : store.Sound fl finish) (hreads : store.quads.Reads fl ids) :
    store.quads.liveCount fl = some (some ids.length) := by
  rw [← (inOrder_perm ids).length_eq]
  exact hreads.yields.count_spec h.memory.base.small h.tombstones

theorem baseSize_spec (h : store.Sound fl finish) (hreads : store.quads.Reads fl ids) :
    store.baseSize fl = some ids.length := by
  rw [VortexRdfStore.baseSize, liveCount_spec h hreads, Option.bind_some]

omit [LawfulMask M] in
/-- The rows a view shows are no more than its base and tail hold. -/
theorem shown_le (h : store.Shows fl finish ids tailIds) :
    ids.length ≤ store.quads.baseLen ∧ tailIds.length ≤ store.tailLen := by
  constructor
  · rw [← (inOrder_perm ids).length_eq]
    exact h.base.reads.yields.within.length_le
  · rw [← h.tail]
    cases htail : store.tail with
    | none => exact Nat.zero_le _
    | some tail =>
      rw [VortexRdfStore.tailLen, htail]
      exact ((listing_idsWithin (h.sound.kept tail htail).selected).of_sublist
        List.filter_sublist).length_le

omit [LawfulMask M] in
theorem shown_fits (h : store.Shows fl finish ids tailIds) (hfits : store.FitsUsize) :
    ids.length + tailIds.length ≤ usizeMax :=
  (Nat.add_le_add (shown_le h).1 (shown_le h).2).trans hfits

/-- A view's size is the rows it shows. -/
theorem size_spec (h : store.Shows fl finish ids tailIds) (hfits : store.FitsUsize) :
    store.size fl = some (ids.length + tailIds.length) := by
  rw [VortexRdfStore.size, baseSize_spec h.sound h.base.reads, Option.bind_some, tailSize_eq h.sound,
    h.tail, addUsize_eq (shown_fits h hfits)]

/-- The base's capped count is the rows it shows, cut at the limit. -/
theorem baseSizeCapped_spec (h : store.Sound fl finish) (hreads : store.quads.Reads fl ids)
    (limit : ℕ) : store.baseSizeCapped fl limit = some (min ids.length limit) := by
  obtain ⟨counted, hcounted, hkept⟩ := hreads.yields.countCapped_spec h.tombstones limit
  rw [(inOrder_perm ids).length_eq] at hkept
  rw [VortexRdfStore.baseSizeCapped, hcounted, Option.bind_some]
  cases counted with
  | none => rw [baseSize_spec h hreads, Option.map_some]
  | some counted => exact congrArg some (hkept counted rfl)

/-- **A capped count** is the rows the view shows, cut at the limit, wherever it stops. -/
theorem sizeCapped_spec (h : store.Shows fl finish ids tailIds) (hfits : store.FitsUsize)
    (limit : ℕ) : store.sizeCapped fl limit = some (min (ids.length + tailIds.length) limit) := by
  have hsum := shown_fits h hfits
  rw [VortexRdfStore.sizeCapped]
  split_ifs with hzero
  · rw [hzero, Nat.min_zero]
  · rw [baseSizeCapped_spec h.sound h.base.reads, Option.bind_some, tailSize_eq h.sound, h.tail]
    split_ifs with hfull
    · exact congrArg some (by omega)
    · rw [addUsize_eq (by omega), Option.map_some]
      exact congrArg some (by omega)

theorem existsAny_spec (h : store.Shows fl finish ids tailIds) (hfits : store.FitsUsize) :
    store.existsAny fl = some (decide (ids ≠ [] ∨ tailIds ≠ [])) := by
  rw [VortexRdfStore.existsAny, sizeCapped_spec h hfits, Option.map_some]
  refine congrArg some (decide_eq_decide.mpr ?_)
  rw [← List.length_pos_iff, ← List.length_pos_iff]
  omega

/-! ### What bounds them -/

omit [LawfulMask M] in
/-- A known width is of rows of the base. -/
theorem lenIfKnown_le {deleted : Option M} {n : ℕ} {selection : ViewSelection} (hn : n ≤ usizeMax)
    (h : selection.Yields fl deleted n ids) {len : ℕ} (hlen : selection.lenIfKnown n = some len) :
    len ≤ n := by
  cases selection with
  | exact s =>
    obtain ⟨hs, -⟩ := h
    obtain rfl : s.len n = len := Option.some.inj hlen
    have hlisting : (s.listing n).length = s.len n := by
      rw [len_eq_card hn hs, RowSelection.listing, Finset.length_sort]
    rw [← hlisting]
    exact (listing_idsWithin hs).length_le
  | pending lazy _ =>
    obtain ⟨l, hrecipe, -⟩ := h
    obtain rfl := hrecipe.holds.lenIfKnown_eq len hlen
    rw [← (inOrder_perm l).length_eq]
    exact hrecipe.inOrder_within.length_le
  | residual compare =>
    obtain ⟨hsound, rfl, -⟩ := h
    obtain ⟨found, hfound, rfl⟩ := Option.map_eq_some_iff.mp hlen
    rw [hsound.kept found hfound]
    exact (within_matching hsound).length_le

/-- What is known of a base's rows without counting: the live ones where they are, and a bound
on them wherever. -/
theorem baseRows_spec (h : store.Sound fl finish) (hreads : store.quads.Reads fl ids)
    (countLive : ℕ → Bool) : ∃ rows, store.quads.baseRows fl countLive = some rows ∧
      (∀ n, rows.live = some n → n = ids.length) ∧ ids.length ≤ rows.upperBound ∧
      rows.upperBound ≤ store.quads.baseLen := by
  have hsmall : store.quads.baseLen ≤ usizeMax := h.memory.base.small
  have hlen : ids.length ≤ store.quads.baseLen := by
    rw [← (inOrder_perm ids).length_eq]
    exact hreads.yields.within.length_le
  have hknown : ∀ len, store.quads.selection.lenIfKnown store.quads.baseLen = some len →
      ids.length ≤ len ∧ len ≤ store.quads.baseLen ∧ (store.quads.deleted = none → ids.length = len) := by
    intro len hsome
    obtain ⟨hle, heq⟩ := hreads.yields.lenIfKnown_spec hsmall hsome
    rw [(inOrder_perm ids).length_eq] at hle heq
    exact ⟨hle, lenIfKnown_le hsmall hreads.yields hsome, heq⟩
  have hselected : ids.length ≤ (store.quads.selection.lenIfKnown store.quads.baseLen).getD
      store.quads.baseLen ∧ (store.quads.selection.lenIfKnown store.quads.baseLen).getD
        store.quads.baseLen ≤ store.quads.baseLen := by
    cases hsome : store.quads.selection.lenIfKnown store.quads.baseLen with
    | none => exact ⟨hlen, le_rfl⟩
    | some len => exact ⟨(hknown len hsome).1, (hknown len hsome).2.1⟩
  rw [QuadsSource.baseRows]
  cases hdeleted : store.quads.deleted with
  | none =>
    refine ⟨_, rfl, fun n hn => ((hknown n hn).2.2 hdeleted).symm, ?_⟩
    rw [BaseRows.upperBound]
    dsimp only
    cases hsome : store.quads.selection.lenIfKnown store.quads.baseLen with
    | none => exact ⟨hlen, le_rfl⟩
    | some len => exact ⟨(hknown len hsome).1, (hknown len hsome).2.1⟩
  | some d =>
    dsimp only
    split_ifs with hcount
    · rw [liveCount_spec h hreads]
      exact ⟨_, rfl, fun n hn => (Option.some.inj hn).symm, le_rfl, hlen⟩
    · exact ⟨_, rfl, nofun, hselected⟩

/-! ### What the statistics promise -/

omit [LawfulMask M] in
/-- The rows of a view read in the order it declares. -/
theorem readOrder_spec (h : store.Sound fl finish) (hshows : store.quads.Shows fl store.layout ids)
    {order : SortOrder} (horder : store.quads.readOrder = some order) :
    order.Orders store.quads.memory.base.rows ids := by
  rw [QuadsSource.readOrder] at horder
  cases hserve : store.quads.memory.serve with
  | some plan =>
    rw [hserve] at horder
    obtain rfl := Option.some.inj horder
    exact (hshows.declared plan hserve).ordered
  | none =>
    rw [hserve] at horder
    dsimp only at horder
    split_ifs at horder with hsorted
    obtain rfl := Option.some.inj horder
    have hwithin := (hshows.reads.plain hserve).within
    exact orders_of_sorted (h.memory.base.stamped hsorted) hwithin.ascending hwithin.inBase

omit [LawfulMask M] in
/-- The subjects' bounds hold their codes. -/
theorem subjectBounds_spec (h : store.Sound fl finish) (hshows : store.quads.Shows fl store.layout ids) :
    ∃ bounds, store.subjectBounds fl = some bounds ∧ ∀ lo hi, bounds = some (lo, hi) →
      ∀ id ∈ ids, ∃ code, TermColumn.scalar (store.quads.memory.base.rows.getD id default).s = .num code ∧
        lo ≤ code ∧ code ≤ hi := by
  rw [VortexRdfStore.subjectBounds]
  split_ifs with hcodes
  · obtain ⟨-, hsorted, -⟩ := hcodes
    have hyields := hshows.reads.yields
    cases hselection : store.quads.selection with
    | pending lazy matched => exact ⟨none, rfl, nofun⟩
    | residual compare => exact ⟨none, rfl, nofun⟩
    | exact s =>
      dsimp only
      rw [hselection] at hyields
      obtain ⟨hs, hlisting⟩ := hyields
      cases hrows : s.asRows store.quads.baseLen with
      | ids l => exact ⟨none, rfl, nofun⟩
      | run run =>
        cases hprobe : store.quads.memory.base.probes .s with
        | none => exact ⟨none, rfl, nofun⟩
        | some probe =>
          dsimp only
          split_ifs with hempty
          · exact ⟨none, rfl, nofun⟩
          · obtain ⟨hrun, hmem⟩ := asRows_run h.memory.base.small hs hrows
            have hencodes : Encodes fl probe (store.quads.memory.base.rows.map Row.s) :=
              h.memory.base.probed .s probe hprobe
            have hasc := hencodes.ascending (subjects_ascend (h.memory.base.stamped hsorted)) le_rfl
            have hlen : probe.len = store.quads.baseLen := by
              rw [hencodes.len_eq, List.length_map]
              rfl
            have hread : ∀ i, i < store.quads.baseLen →
                SortedProbe.valueAt fl probe i = some (probe.value fl i) := fun i hi => by
              rw [SortedProbe.valueAt, if_pos (hi.trans_eq hlen.symm)]
              exact (wellFormed_sound hencodes.wellFormed).reads i (Nat.zero_le i)
                (hi.trans_eq hlen.symm)
            have hstop : run.stop ≤ store.quads.baseLen := hrun.inBase
            rw [hread run.start (by omega), Option.bind_some, hread (run.stop - 1) (by omega),
              Option.map_some]
            refine ⟨_, rfl, fun lo hi hbounds id hid => ?_⟩
            obtain ⟨rfl, rfl⟩ := Prod.mk.inj (Option.some.inj hbounds)
            -- the rows shown are in the run
            have hin : id ∈ run.rows := by
              rw [← hmem]
              have hlist := (inOrder_perm ids).mem_iff.mpr hid
              rw [hlisting] at hlist
              exact (Finset.mem_sort _).mp (List.mem_filter.mp hlist).1
            rw [RowRange.mem_rows] at hin
            have hlt : id < (store.quads.memory.base.rows.map Row.s).length := by
              rw [List.length_map]
              exact lt_of_lt_of_le hin.2 hstop
            have hcode := hencodes.reads id _ (getD_of_lt hlt)
            rw [getD_subject (by rwa [List.length_map] at hlt)] at hcode
            refine ⟨_, hcode, hasc _ _ (Nat.zero_le _) hin.1 hlt, hasc _ _ (Nat.zero_le _) ?_ ?_⟩
            · omega
            · rw [List.length_map]
              exact lt_of_lt_of_le (by omega) hstop
  · exact ⟨none, rfl, nofun⟩

/-- What a view's statistics promise of the rows it shows: the count where it is exact, a
bound on it wherever; the order the base rows read in, where no appended row follows; the
codes that bound a column. -/
structure ViewStatistics.Promises [Inhabited V] (store : VortexRdfStore ox V M)
    (ids tailIds : List RowId) (stats : ViewStatistics) : Prop where
  exact : ∀ n, stats.rows.exact = some n → n = ids.length + tailIds.length
  upperBound : ids.length + tailIds.length ≤ stats.rows.upperBound
  sortOrder : ∀ order, stats.sortOrder = some order → tailIds = [] ∧
    order.Orders store.quads.memory.base.rows ids
  codeBounds : ∀ column lo hi, stats.codeBounds column = some (lo, hi) → ∀ id ∈ ids, ∃ code,
    TermColumn.scalar (roleValue (store.quads.memory.base.rows.getD id default) column) = .num code ∧
      lo ≤ code ∧ code ≤ hi
  tailRows : stats.tailRows = tailIds.length

/-- **A view's statistics** keep their promises, reading no row. -/
theorem viewStatistics_spec (h : store.Shows fl finish ids tailIds) (hfits : store.FitsUsize) :
    ∃ stats, store.viewStatistics fl = some stats ∧ stats.Promises store ids tailIds := by
  obtain ⟨base, hbase, hexact, hupper, hbound⟩ := baseRows_spec h.sound h.base.reads fun _ => true
  obtain ⟨bounds, hbounds, hcodes⟩ := subjectBounds_spec h.sound h.base
  have htail : store.tailSize = tailIds.length := by rw [tailSize_eq h.sound, h.tail]
  have hsum : base.upperBound + tailIds.length ≤ usizeMax :=
    (Nat.add_le_add hbound (shown_le h).2).trans hfits
  rw [VortexRdfStore.viewStatistics, hbase, Option.bind_some, rowCountHint, htail, addUsize_eq hsum,
    Option.map_some, Option.bind_some, VortexRdfStore.codeBounds, hbounds, Option.map_some,
    Option.map_some]
  refine ⟨_, rfl, ?_, ?_, ?_, ?_, rfl⟩
  · intro n hn
    cases hlive : base.live with
    | none =>
      rw [hlive] at hn
      cases hn
    | some live =>
      rw [hlive] at hn
      obtain rfl : base.upperBound + tailIds.length = n := Option.some.inj hn
      rw [BaseRows.upperBound, hlive, Option.getD_some, hexact live hlive]
  · cases hlive : base.live with
    | none => exact Nat.add_le_add_right hupper _
    | some live => exact Nat.add_le_add_right hupper _
  · intro order horder
    dsimp only at horder
    split_ifs at horder with hnone
    exact ⟨List.length_eq_zero_iff.mp hnone, readOrder_spec h.sound h.base horder⟩
  · intro column lo hi hcolumn
    dsimp only at hcolumn
    split_ifs at hcolumn with hs
    obtain rfl := hs
    exact hcodes lo hi hcolumn

/-- The statistics of two sorted rows of one subject. -/
theorem viewStatistics_spec_untailed : ∃ stats,
    ViewSample.untailed.viewStatistics .ofZeros = some stats ∧
    stats.Promises ViewSample.untailed [0, 1] [] ∧ stats.sortOrder = some .spog ∧
    stats.codeBounds .s = some (1, 1) := by
  obtain ⟨stats, hstats, hpromises⟩ :=
    viewStatistics_spec ViewSample.untailed_shows (by show 2 + 0 ≤ usizeMax; decide)
  refine ⟨stats, hstats, hpromises, ?_⟩
  obtain ⟨base, -, hrest⟩ := Option.bind_eq_some_iff.mp hstats
  obtain ⟨rows, -, hfound⟩ := Option.bind_eq_some_iff.mp hrest
  obtain ⟨bounds, hbounds, rfl⟩ := Option.map_eq_some_iff.mp hfound
  obtain ⟨subjects, hsubjects, rfl⟩ := Option.map_eq_some_iff.mp hbounds
  obtain rfl : some (1, 1) = subjects := Option.some.inj hsubjects
  exact ⟨rfl, rfl⟩

end Specs

end Views
