/-
The counts and windows of a residual compare are those of its live matches.

* `unreadPlan_spec` — a mixed zone counted unread: from its record, or on the column's
  encoding, where one equality is left and no selected row is tombstoned;
* `fullCount_eq`, `countLoop_spec` — a full count, and one that stops at its cap;
* `parts_read` — the parts a walk may stop between hold the selection;
* `windowLoop_spec` — a window's rows, and the live matches as far as they are known.
-/
import VortexRdf.ResidualWalks

namespace Store

open Terms Masks MaskOps Buffers Ascending EncodedSearch

/-! ### Bits -/

/-- One bit of a class is set: the lowest. -/
theorem one_bit {bits : ℕ} (h : countOnes bits = 1) (hlt : ∀ i, bits.testBit i = true → i < 32) :
    ∀ i, bits.testBit i = true ↔ i = trailingZeros bits := by
  rw [countOnes, List.countP_eq_length_filter, List.length_eq_one_iff] at h
  obtain ⟨b, hb⟩ := h
  have hmem : ∀ i, bits.testBit i = true ↔ i = b := by
    intro i
    have hfilter : i ∈ (List.range 32).filter bits.testBit ↔ i = b := by rw [hb, List.mem_singleton]
    rw [← hfilter, List.mem_filter, List.mem_range]
    exact ⟨fun hi => ⟨hlt i hi, hi⟩, And.right⟩
  have hset := (hmem b).mpr rfl
  have hfound : bits.testBit (trailingZeros bits) = true := by
    have hfind := List.findIdx_lt_length_of_exists (p := bits.testBit)
      ⟨b, List.mem_range.mpr (hlt b hset), hset⟩
    have hget := List.findIdx_getElem (w := hfind)
    rwa [List.getElem_range] at hget
  intro i
  rw [hmem i, (hmem _).mp hfound]

theorem passes_one {cell : ColumnName → ℕ → Scalar} {eqs : List Equality} (hfew : eqs.length ≤ 32)
    {bits b : ℕ} (hbits : ∀ i, bits.testBit i = true ↔ i = b) {eq : Equality}
    (heq : eqs[b]? = some eq) (i : ℕ) : passes cell (picked eqs bits) i = holdsCell cell eq i := by
  have hmem : ∀ other, other ∈ picked eqs bits ↔ other = eq := by
    intro other
    rw [mem_picked]
    constructor
    · rintro ⟨k, hk, h32 | hbit⟩
      · have := (List.getElem?_eq_some_iff.mp hk).1
        omega
      · rw [(hbits k).mp hbit, heq] at hk
        exact (Option.some_inj.mp hk).symm
    · rintro rfl
      exact ⟨b, heq, .inr ((hbits b).mpr rfl)⟩
  rw [Bool.eq_iff_iff, passes, List.all_eq_true]
  exact ⟨fun hall => hall eq ((hmem eq).mpr rfl), fun hholds other hother =>
    (hmem other).mp hother ▸ hholds⟩

/-- A column's encoding counts the rows of a run that hold a code. -/
theorem ResidualTable.encoded_count {t : ResidualTable} {fl : FastLanes} (ht : t.Sound fl) {field : ColumnName} {column : Node}
    (hprobe : t.probes field = some column) {run : RowRange} (hrun : run.Within t.len)
    (code : ℕ) : SortedProbe.countEq fl column run.start (run.stop - run.start) code =
      some (run.toList.filter (holdsCell t.cell (field, .num code))).length := by
  obtain ⟨hformed, hlen, hvalue⟩ := ht.probed field column hprobe
  have hle := hrun.ordered
  have hin : run.stop ≤ t.len := hrun.inBase
  rw [countEq_eq hformed (by omega), valuesFrom, List.count, List.countP_map,
    List.countP_eq_length_filter, RowRange.toList, ← ResidualTable.filter_range', List.length_map]
  congr 2
  refine List.filter_congr fun k hk => ?_
  have hlt := List.mem_range.mp hk
  rw [Function.comp_apply, holdsCell, hvalue _ (by omega), Bool.eq_iff_iff, beq_iff_eq, beq_iff_eq,
    Scalar.num.injEq]

namespace ResidualCompare

variable {M : Type*} [MaskOps M] [LawfulMask M] {fl : FastLanes} {c : ResidualCompare M}
  {s : RowSelection} {set : ZoneSet}

/-! ### Counts without the rows -/

/-- A part with no tombstoned row has its matches live. -/
theorem liveMatching_of_untouched (hc : c.Sound fl) {part : RowSelection} {seg : List ℕ}
    (hpart : Lists c.len (some part) seg)
    (h : c.deleted.any (fun d => decide (0 < tombstoned part d c.len)) = false) :
    c.liveMatching seg = c.matching seg := by
  refine List.filter_eq_self.mpr fun i hi => ?_
  rw [Store.live]
  cases hdeleted : c.deleted with
  | none => rfl
  | some d =>
    rw [hdeleted, Option.any_some, decide_eq_false_iff_not, tombstoned_eq hc.small hpart.within
      (hc.tombstones d hdeleted), hpart.listing, not_lt, Nat.le_zero, List.length_eq_zero_iff,
      List.filter_eq_nil_iff] at h
    have hvalue := h i (List.mem_of_mem_filter hi)
    simpa using hvalue

/-- The selected rows of a zone are all of it when there are as many. -/
theorem eq_zoneRows {zone : RowRange} {seg : List ℕ} (hsorted : seg.SortedLT)
    (hsub : ∀ i ∈ seg, i ∈ zone.rows) (hlen : seg.length = zone.stop - zone.start) :
    seg = zone.toList := by
  have hset : seg.toFinset = zone.rows := by
    refine Finset.eq_of_subset_of_card_le (fun i hi => hsub i (List.mem_toFinset.mp hi)) ?_
    rw [card_toFinset hsorted, hlen, RowRange.rows, Nat.card_Ico]
  rw [← zone.sort_rows, ← hset, sort_toFinset hsorted]

theorem unreadPlan_spec (hc : c.Sound fl) (hset : set.Classes c.eqs c.table.cell c.len)
    (hfew : c.eqs.length ≤ 32) {zone : ZonePart} {selected : RowSelection} {seg : List ℕ}
    (hselected : Lists c.len (some selected) seg)
    (hseg : ∀ i ∈ seg, i ∈ (set.zoneRows zone.zone).rows) {bits : ℕ}
    (hpasses : ∀ i ∈ seg,
      passes c.table.cell (picked c.eqs bits) i = passes c.table.cell c.eqs i)
    (hbits : ∀ bit, bits.testBit bit = true → bit < 32 ∧ bit < c.eqs.length) :
    ∃ plan, c.unreadPlan set zone selected bits = some plan ∧
      ∀ p ∈ plan, unreadCount fl p = some (c.liveMatching seg).length := by
  rw [unreadPlan]
  split_ifs with hskip
  · exact ⟨none, rfl, by simp⟩
  · rw [not_or, not_not, Bool.not_eq_true] at hskip
    obtain ⟨hones, huntouched⟩ := hskip
    have hone := one_bit hones fun i hi => (hbits i hi).1
    obtain ⟨eq, heq⟩ : ∃ eq, c.eqs[trailingZeros bits]? = some eq :=
      ⟨_, List.getElem?_eq_getElem (hbits _ ((hone _).mpr rfl)).2⟩
    -- the matches are the rows that hold the one equality left
    have hmatching : c.matching seg = seg.filter (holdsCell c.table.cell eq) := by
      rw [← matching_picked hpasses]
      exact List.filter_congr fun i _ => passes_one hfew hone heq i
    rw [liveMatching_of_untouched hc hselected huntouched, hmatching, heq]
    obtain ⟨field, value⟩ := eq
    cases value with
    | str text => exact ⟨none, rfl, by simp⟩
    | null => exact ⟨none, rfl, by simp⟩
    | num code =>
      dsimp only
      split
      · rename_i found hfound
        split_ifs at hfound with hwhole
        refine ⟨_, rfl, fun p hp => ?_⟩
        obtain rfl := Option.some_inj.mp hp
        have hrows : seg = (set.zoneRows zone.zone).toList := by
          refine eq_zoneRows ?_ hseg ?_
          · rw [← hselected.listing]
            exact (listing_idsWithin hselected.within).ascending
          · rw [← hselected.len_eq hc.small, hwhole]
        rw [unreadCount, hrows, recordedIn_spec hset.describes hset.rowCount hfound heq]
      · cases hrows : selected.asRows c.len with
        | ids l => exact ⟨none, rfl, by simp⟩
        | run run =>
          refine ⟨_, rfl, fun p hp => ?_⟩
          obtain ⟨column, hprobe, rfl⟩ := Option.map_eq_some_iff.mp hp
          rw [unreadCount, ResidualTable.encoded_count hc.table hprobe
            (asRows_run hc.small hselected.within hrows).1,
            ← listing_run hc.small hselected.within hrows, hselected.listing]

/-! ### Full counts -/

theorem stepCount_eq (hc : c.Sound fl) (hs : s.Within c.len) {whole : RowRange}
    (hspan : span (s.asRows c.len) = some whole) {steps : List (RowRange × Step Unread)}
    (hinside : ∀ step ∈ steps, step.1.Inside whole)
    (hheld : ∀ step ∈ steps,
      StepHolds c (fun plan seg => unreadCount fl plan = some (c.liveMatching seg).length)
        ((s.listing c.len).filter step.1.contains) step.2) :
    c.stepCount fl (s.asRows c.len) steps = some (c.liveMatching
      (steps.flatMap fun step => (s.listing c.len).filter step.1.contains)).length := by
  induction steps with
  | nil => rfl
  | cons step steps ih =>
    obtain ⟨run, step⟩ := step
    have hrest := ih (fun step h => hinside step (List.mem_cons_of_mem _ h))
      fun step h => hheld step (List.mem_cons_of_mem _ h)
    have hstep := hheld _ List.mem_cons_self
    obtain ⟨part, hpart, hlists⟩ := partOf_lists hc.small hs hspan (hinside _ List.mem_cons_self)
    have hpartLists : Lists c.len (some part) ((s.listing c.len).filter run.contains) :=
      ⟨part, rfl, hlists⟩
    rw [List.flatMap_cons, liveMatching_append, List.length_append]
    simp only [stepCount, hpart, hrest]
    dsimp only at hstep
    cases step with
    | skip =>
      have hnil : c.liveMatching ((s.listing c.len).filter run.contains) = [] := by
        rw [liveMatching, (hstep : c.matching _ = []), List.filter_nil]
      rw [hnil]
      rfl
    | take =>
      have hself : c.matching ((s.listing c.len).filter run.contains) =
          (s.listing c.len).filter run.contains := hstep
      rw [← hself] at hpartLists
      dsimp only
      rw [Option.map_some, live_eq hc hpartLists]
    | unread plan =>
      have hcount : unreadCount fl plan =
          some (c.liveMatching ((s.listing c.len).filter run.contains)).length := hstep
      dsimp only
      rw [hcount]
    | compare bits =>
      obtain ⟨kept, hkept, hmatched⟩ := compare_matching hc hpartLists hstep.1 hstep.2
      dsimp only
      rw [Option.bind_some, hkept, Option.map_some, live_eq hc ⟨kept, rfl, hmatched⟩]

theorem fullCount_eq (hc : c.Sound fl) (hset : set.Classes c.eqs c.table.cell c.len)
    (hfew : c.eqs.length ≤ 32) {whole : RowRange} (hspan : span c.selectedRows = some whole) :
    c.fullCount fl set whole = some (c.liveMatching (c.selection.listing c.len)).length := by
  have hs := hc.within
  have hmixed : ∀ zone ∈ set.parts whole, ∀ selected bits, Lists c.len (some selected)
      ((c.selection.listing c.len).filter zone.rows.contains) →
      set.classOf zone.zone = .mixed bits →
      ∃ step, c.countStep set zone selected bits = some step ∧
        StepHolds c (fun plan seg => unreadCount fl plan = some (c.liveMatching seg).length)
          ((c.selection.listing c.len).filter zone.rows.contains) step := by
    intro zone hzone selected bits hselected hclass
    have hheld := mixed_holds hc.small hs hspan hset hzone hclass
      (K := fun plan seg => unreadCount fl plan = some (c.liveMatching seg).length)
    obtain ⟨plan, hplan, hcounts⟩ := unreadPlan_spec hc hset hfew hselected
      (mem_zoneRows hc.small hs hspan hset hzone) hheld.1.2 hheld.2
    rw [countStep, hplan]
    cases plan with
    | none => exact ⟨_, rfl, hheld.1⟩
    | some plan => exact ⟨_, rfl, hcounts plan rfl⟩
  obtain ⟨steps, hsteps, hwalked⟩ := steps_spec hc.small hs hspan hset hmixed
  obtain ⟨one, hone⟩ := comparesWhole_some hc.small hs hspan hwalked c.work
  simp only [fullCount, selectedRows, hsteps, hone]
  cases one with
  | true =>
    obtain ⟨found, hfound, hmatched⟩ := compare_every hc hs
    rw [hfound, Option.map_some, live_eq hc ⟨found, rfl, hmatched⟩]
  | false =>
    dsimp only
    rw [stepCount_eq hc hs hspan hwalked.inside hwalked.held, hwalked.covers]

/-! ### Parts -/

/-- A part of the selection that reads as some of its rows. -/
structure PartReads (fl : FastLanes) (c : ResidualCompare M) (seg : List ℕ) (part : Part) : Prop where
  unread : ∃ counted, c.unread fl part = some counted ∧
    ∀ count ∈ counted, count = (c.liveMatching seg).length
  matched : Lists c.len (c.matched fl part) (c.matching seg)

/-- Parts that read as some rows, one behind another. -/
def PartsRead (fl : FastLanes) (c : ResidualCompare M) : List (Option Part) → List ℕ → Prop
  | [], l => l = []
  | part :: parts, l => ∃ p seg rest, part = some p ∧ PartReads fl c seg p ∧
      PartsRead fl c parts rest ∧ l = seg ++ rest

theorem zone_reads (hc : c.Sound fl) (hset : set.Classes c.eqs c.table.cell c.len)
    (hfew : c.eqs.length ≤ 32) {zone : ZonePart} {selected : RowSelection} {seg : List ℕ}
    (hselected : Lists c.len (some selected) seg)
    (hseg : ∀ i ∈ seg, i ∈ (set.zoneRows zone.zone).rows) :
    PartReads fl c seg (.zone set zone selected (set.classOf zone.zone)) := by
  have hclass := stepHolds_class hset hseg
  cases hzone : set.classOf zone.zone with
  | none =>
    rw [hzone] at hclass
    have hnil : c.matching seg = [] := hclass
    refine ⟨⟨_, rfl, fun count hcount => ?_⟩, ?_⟩
    · rw [liveMatching, hnil, ← Option.some_inj.mp hcount]
      rfl
    · rw [hnil]
      exact lists_empty
  | all =>
    rw [hzone] at hclass
    have hself : c.matching seg = seg := hclass
    have hmatched := hselected
    rw [← hself] at hmatched
    exact ⟨⟨_, rfl, fun count hcount => by rw [← Option.some_inj.mp hcount, live_eq hc hmatched]⟩,
      hmatched⟩
  | mixed bits =>
    rw [hzone] at hclass
    obtain ⟨⟨hasks, hpasses⟩, hbits⟩ := hclass
    refine ⟨?_, compare_matching hc hselected hasks hpasses⟩
    obtain ⟨plan, hplan, hcounts⟩ := unreadPlan_spec hc hset hfew hselected hseg hpasses hbits
    simp only [unread, hplan]
    cases plan with
    | none => exact ⟨none, rfl, by simp⟩
    | some plan =>
      dsimp only
      rw [hcounts plan rfl]
      exact ⟨_, rfl, fun count hcount => (Option.some_inj.mp hcount).symm⟩

theorem zoneParts_read (hc : c.Sound fl) (hset : set.Classes c.eqs c.table.cell c.len)
    (hfew : c.eqs.length ≤ 32) {whole : RowRange} (hspan : span c.selectedRows = some whole)
    {zones : List ZonePart} (hinside : ∀ zone ∈ zones, zone.rows.Inside whole)
    (hzones : ∀ zone ∈ zones, ∀ i ∈ (c.selection.listing c.len).filter zone.rows.contains,
      i ∈ (set.zoneRows zone.zone).rows) :
    PartsRead fl c (zones.filterMap fun zone =>
        match partOf c.selectedRows zone.rows with
        | none => some none
        | some selected =>
          if selected.isEmpty c.len then none
          else some (some (.zone set zone selected (set.classOf zone.zone))))
      (zones.flatMap fun zone => (c.selection.listing c.len).filter zone.rows.contains) := by
  induction zones with
  | nil => rfl
  | cons zone zones ih =>
    have hrest := ih (fun z hz => hinside z (List.mem_cons_of_mem _ hz))
      fun z hz => hzones z (List.mem_cons_of_mem _ hz)
    obtain ⟨selected, hpart, hlists⟩ :=
      partOf_lists hc.small hc.within hspan (hinside zone List.mem_cons_self)
    have hselected : Lists c.len (some selected)
        ((c.selection.listing c.len).filter zone.rows.contains) := ⟨selected, rfl, hlists⟩
    have hreads := zone_reads hc hset hfew hselected (hzones zone List.mem_cons_self)
    have hrows : partOf c.selectedRows zone.rows = some selected := hpart
    rw [List.flatMap_cons]
    by_cases hempty : selected.isEmpty c.len = true
    · rw [List.filterMap_cons_none (by simp only [hrows, if_pos hempty]), ← hselected.listing,
        (isEmpty_iff hc.small hselected.within).mp hempty]
      exact hrest
    · rw [List.filterMap_cons_some (by simp only [hrows, if_neg hempty]; rfl)]
      exact ⟨_, _, _, rfl, hreads, hrest, rfl⟩

theorem pieces_read (hc : c.Sound fl) {bounds : Option ZoneSet}
    (hbounds : ∀ set ∈ bounds, set.Classes c.eqs c.table.cell c.len) {pieces : List RowRange}
    (hpieces : ∀ piece ∈ pieces, piece.start ≤ piece.stop ∧
      piece.stop ≤ (c.selection.listing c.len).length) :
    PartsRead fl c
      (pieces.map fun places => (rowsAtPlaces c.selectedRows places).map (.piece bounds))
      (pieces.flatMap fun places =>
        ((c.selection.listing c.len).drop places.start).take (places.stop - places.start)) := by
  induction pieces with
  | nil => rfl
  | cons piece pieces ih =>
    have hrest := ih fun piece hpiece => hpieces piece (List.mem_cons_of_mem _ hpiece)
    obtain ⟨hle, hin⟩ := hpieces piece List.mem_cons_self
    obtain ⟨selected, hpart, hlists⟩ := rowsAtPlaces_lists hc.small hc.within hle hin
    have hrows : rowsAtPlaces c.selectedRows piece = some selected := hpart
    have hmatched := piecesCompared_lists hc hbounds hlists.1
    rw [hlists.2] at hmatched
    rw [List.flatMap_cons, List.map_cons, hrows]
    exact ⟨_, _, _, rfl, ⟨⟨none, rfl, by simp⟩, hmatched⟩, hrest, rfl⟩

/-- The parts of the selection read as its rows, in order. -/
theorem parts_read (hc : c.Sound fl) {whole : RowRange} (hspan : span c.selectedRows = some whole)
    (want : ℕ) : PartsRead fl c (c.parts whole want) (c.selection.listing c.len) := by
  have hclassed := hc.classed
  have hsorted := (listing_idsWithin hc.within).ascending
  rw [parts]
  cases hclasses : c.classes with
  | zoned set =>
    rw [hclasses] at hclassed
    obtain ⟨hset, hfew⟩ := hclassed
    obtain ⟨hwhole, hall, -⟩ := span_some hc.small hc.within hspan
    obtain ⟨htiles, -⟩ := parts_tile set (hset.rowCount ▸ hwhole : whole.Within set.rowCount)
    have hreads := zoneParts_read hc hset hfew hspan
      (fun zone hzone => htiles.inside _ (List.mem_map_of_mem hzone))
      fun zone hzone => mem_zoneRows hc.small hc.within hspan hset hzone
    have hcovers := htiles.flatMap_filter hsorted
    rw [List.flatMap_map] at hcovers
    rw [hcovers, hall] at hreads
    exact hreads
  | pieces bounds =>
    rw [hclasses] at hclassed
    have hwork : c.work = (c.selection.listing c.len).length := (lists_self hc.within).len_eq hc.small
    have htotal : c.work ≤ usizeMax :=
      hwork ▸ (IdsWithin.length_le (listing_idsWithin hc.within)).trans hc.small
    have htiles := growingPieces_tile htotal (if c.work ≤ want then c.work else FIRST_PIECE_ROWS)
    have hreads := pieces_read hc hclassed fun piece hpiece =>
      ⟨(htiles.inside piece hpiece).ordered, hwork ▸ (htiles.inside piece hpiece).stops⟩
    rw [htiles.flatMap_slice, List.drop_zero, Nat.sub_zero, hwork, List.take_length] at hreads
    dsimp only
    rw [hwork]
    exact hreads

/-! ### Capped counts -/

/-- A count that goes on until its cap: never more than the live matches, and all of them
unless the cap is met. -/
theorem countLoop_spec (hc : c.Sound fl) (cap : ℕ) {parts : List (Option Part)} {l : List ℕ}
    (h : PartsRead fl c parts l) (count : ℕ) : ∃ found, c.countLoop fl cap parts count =
        some (count + found) ∧ found ≤ (c.liveMatching l).length ∧
      (found = (c.liveMatching l).length ∨ cap ≤ count + found) := by
  induction parts generalizing l count with
  | nil =>
    obtain rfl : l = [] := h
    exact ⟨0, rfl, Nat.zero_le _, .inl rfl⟩
  | cons part parts ih =>
    obtain ⟨p, seg, rest, rfl, hp, hrest, rfl⟩ := h
    rw [countLoop, liveMatching_append, List.length_append]
    split_ifs with hcap
    · exact ⟨0, rfl, Nat.zero_le _, .inr hcap⟩
    · -- the part counts its own live matches, read or not
      have hnext : ∃ found, c.countLoop fl cap parts (count + (c.liveMatching seg).length) =
          some (count + found) ∧ found ≤ (c.liveMatching seg).length + (c.liveMatching rest).length ∧
          (found = (c.liveMatching seg).length + (c.liveMatching rest).length ∨
            cap ≤ count + found) := by
        obtain ⟨found, hfound, hle, hends⟩ := ih hrest (count + (c.liveMatching seg).length)
        refine ⟨(c.liveMatching seg).length + found, by rw [hfound, Nat.add_assoc], by omega, ?_⟩
        omega
      obtain ⟨counted, hcounted, hcount⟩ := hp.unread
      rw [hcounted]
      cases counted with
      | some found =>
        obtain rfl := hcount found rfl
        exact hnext
      | none =>
        obtain ⟨found, hfound, hmatched⟩ := hp.matched
        rw [hfound]
        dsimp only
        rw [live_eq hc ⟨found, rfl, hmatched⟩]
        exact hnext

/-- A full count is that of the live matches. -/
theorem count_none (hc : c.Sound fl) :
    c.count fl none = some (c.liveMatching (c.selection.listing c.len)).length := by
  have hclassed := hc.classed
  rw [count]
  cases hspan : span c.selectedRows with
  | none =>
    rw [span_none hc.small hc.within hspan]
    rfl
  | some whole =>
    cases hclasses : c.classes with
    | zoned set =>
      rw [hclasses] at hclassed
      exact fullCount_eq hc hclassed.1 hclassed.2 hspan
    | pieces bounds =>
      obtain ⟨found, hfound, hmatched⟩ := rows_lists hc
      dsimp only
      rw [hfound, Option.map_some, live_eq hc ⟨found, rfl, hmatched⟩]

/-- A capped count is never more than the live matches, and all of them unless it met its
cap. -/
theorem count_some (hc : c.Sound fl) (cap : ℕ) : ∃ found, c.count fl (some cap) = some found ∧
    found ≤ (c.liveMatching (c.selection.listing c.len)).length ∧
      (found = (c.liveMatching (c.selection.listing c.len)).length ∨ cap ≤ found) := by
  rw [count]
  cases hspan : span c.selectedRows with
  | none =>
    rw [span_none hc.small hc.within hspan]
    exact ⟨0, rfl, le_rfl, .inl rfl⟩
  | some whole =>
    obtain ⟨found, hfound, hle, hends⟩ := countLoop_spec hc cap (parts_read hc hspan cap) 0
    rw [Nat.zero_add] at hfound hends
    exact ⟨found, hfound, hle, hends⟩

end ResidualCompare

/-! ### Windows -/

/-- What a walk says of so many live matches. -/
def Live.Of (n : ℕ) : Live → Prop
  | .exact k => k = n
  | .atLeast k => k ≤ n

section Pages

variable {α : Type*} (offset limit : ℕ)

theorem page_append (a b : List α) : page offset limit (a ++ b) = page offset limit a ++
    (b.drop (offset - a.length)).take (limit - (page offset limit a).length) := by
  simp only [page, List.drop_append, List.take_append, List.length_take, List.length_drop]
  congr 2
  omega

theorem page_of_length_le {l : List α} (h : l.length ≤ offset) : page offset limit l = [] := by
  rw [page, List.drop_of_length_le h, List.take_nil]

theorem page_of_full {a : List α} (h : limit ≤ (page offset limit a).length) (b : List α) :
    page offset limit (a ++ b) = page offset limit a := by
  rw [page_append, Nat.sub_eq_zero_of_le h, List.take_zero, List.append_nil]

end Pages

/-- The cursor has seen some matches, and holds those of them in the window. -/
structure WindowCursor.Holds (cursor : WindowCursor) (offset limit : ℕ) (seen : List ℕ) : Prop where
  offset_eq : cursor.offset = offset
  limit_eq : cursor.limit = some limit
  seen_eq : cursor.seen = seen.length
  rows_eq : cursor.rows = page offset limit seen

namespace WindowCursor

variable {cursor : WindowCursor} {offset limit : ℕ} {seen : List ℕ}

theorem Holds.new (offset limit : ℕ) : (WindowCursor.new offset (some limit)).Holds offset limit [] :=
  ⟨rfl, rfl, rfl, by simp [WindowCursor.new, page]⟩

/-- Matches that end before the window are none of its rows. -/
theorem Holds.skip (h : cursor.Holds offset limit seen) {found : List ℕ}
    (hsmall : (seen ++ found).length ≤ usizeMax) (hends : cursor.endsBefore found.length = true) :
    (cursor.skip found.length).Holds offset limit (seen ++ found) := by
  rw [List.length_append] at hsmall
  rw [endsBefore, decide_eq_true_iff, h.seen_eq, h.offset_eq, saturatingAdd, min_eq_left hsmall] at hends
  refine ⟨h.offset_eq, h.limit_eq, by rw [WindowCursor.skip, h.seen_eq, List.length_append], ?_⟩
  rw [page_of_length_le _ _ (by rw [List.length_append]; exact hends)]
  change cursor.rows = []
  rw [h.rows_eq, page_of_length_le _ _ (by omega)]

theorem Holds.take (h : cursor.Holds offset limit seen) {found : List ℕ}
    (hsmall : found.length ≤ usizeMax) : (cursor.take found).Holds offset limit (seen ++ found) := by
  refine ⟨h.offset_eq, h.limit_eq, by rw [List.length_append, ← h.seen_eq]; rfl, ?_⟩
  have hrows : (cursor.take found).rows = cursor.rows ++
      (found.drop (min (cursor.offset - cursor.seen) found.length)).take
        (min (saturatingAdd (min (cursor.offset - cursor.seen) found.length)
          (limit - cursor.rows.length)) found.length -
          min (cursor.offset - cursor.seen) found.length) := by
    simp only [WindowCursor.take, h.limit_eq]
  rw [hrows, page_append, h.rows_eq, h.offset_eq, h.seen_eq, min_saturatingAdd hsmall]
  congr 1
  rcases le_total (offset - seen.length) found.length with hle | hle
  · rw [min_eq_left hle]
    rw [List.take_eq_take_iff, List.length_drop]
    omega
  · rw [min_eq_right hle, List.drop_of_length_le le_rfl, List.drop_of_length_le hle, List.take_nil,
      List.take_nil]

end WindowCursor

namespace ResidualCompare

variable {M : Type*} [MaskOps M] {fl : FastLanes} {c : ResidualCompare M}

/-- A walk leaves the window of every live match, and says how many it saw. -/
theorem windowLoop_spec (hc : c.Sound fl) {offset limit : ℕ} {parts : List (Option Part)}
    {l seen : List ℕ} (h : PartsRead fl c parts l) {cursor : WindowCursor}
    (hcursor : cursor.Holds offset limit seen)
    (hsmall : (seen ++ c.liveMatching l).length ≤ usizeMax) :
    ∃ cursor' ended, c.windowLoop fl parts cursor = some (cursor', ended) ∧
      cursor'.rows = page offset limit (seen ++ c.liveMatching l) ∧
      cursor'.seen ≤ (seen ++ c.liveMatching l).length ∧
      (ended = true → cursor'.seen = (seen ++ c.liveMatching l).length) := by
  induction parts generalizing l seen cursor with
  | nil =>
    obtain rfl : l = [] := h
    have hnil : seen ++ c.liveMatching [] = seen := List.append_nil seen
    rw [hnil]
    exact ⟨cursor, true, rfl, hcursor.rows_eq, hcursor.seen_eq.le, fun _ => hcursor.seen_eq⟩
  | cons part parts ih =>
    obtain ⟨p, seg, rest, rfl, hp, hrest, rfl⟩ := h
    rw [liveMatching_append, ← List.append_assoc] at hsmall ⊢
    have hseg : (seen ++ c.liveMatching seg).length ≤ usizeMax := by
      rw [List.length_append] at hsmall
      omega
    have hnext := fun {cursor} hcursor =>
      @ih rest (seen ++ c.liveMatching seg) hrest cursor hcursor hsmall
    rw [windowLoop]
    split_ifs with hfull
    · -- the window holds its limit, so nothing behind it adds a row
      refine ⟨cursor, false, rfl, ?_, ?_, by simp⟩
      · rw [WindowCursor.isFull, hcursor.limit_eq, Option.any_some, decide_eq_true_iff,
          hcursor.rows_eq] at hfull
        rw [hcursor.rows_eq, List.append_assoc, page_of_full _ _ hfull]
      · rw [hcursor.seen_eq, List.length_append, List.length_append]
        omega
    · obtain ⟨counted, hcounted, hcount⟩ := hp.unread
      rw [hcounted]
      dsimp only
      split_ifs with hzero
      · -- a part without matches is passed over unread
        have hnil : c.liveMatching seg = [] := by
          subst hzero
          exact List.length_eq_zero_iff.mp (hcount 0 rfl).symm
        rw [hnil, List.append_nil] at hnext ⊢
        exact hnext hcursor
      · cases hskip : counted.filter cursor.endsBefore with
        | some found =>
          -- a part counted before the window is skipped by its count
          obtain ⟨hmem, hends⟩ := Option.filter_eq_some_iff.mp hskip
          obtain rfl := hcount found hmem
          exact hnext (hcursor.skip hseg hends)
        | none =>
          -- a part in the window is matched, and its live rows taken
          obtain ⟨found, hfound, hmatched⟩ := hp.matched
          have hlive : liveIds found c.deleted c.len = c.liveMatching seg := by
            rw [liveIds_eq hc.small hmatched.1, RowSelection.liveListing, hmatched.2]
            rfl
          rw [hfound]
          dsimp only
          rw [hlive]
          refine hnext (hcursor.take ?_)
          rw [List.length_append] at hseg
          omega

theorem length_liveMatching_le (hc : c.Sound fl) :
    (c.liveMatching (c.selection.listing c.len)).length ≤ usizeMax := by
  refine le_trans (List.Sublist.length_le ?_)
    ((IdsWithin.length_le (listing_idsWithin hc.within)).trans hc.small)
  exact List.filter_sublist.trans List.filter_sublist

variable [LawfulMask M]

theorem window_spec (hc : c.Sound fl) (offset limit : ℕ) : ∃ known,
    c.window fl offset limit =
        some (page offset limit (c.liveMatching (c.selection.listing c.len)), known) ∧
      Live.Of (c.liveMatching (c.selection.listing c.len)).length known := by
  rw [window]
  cases hspan : span c.selectedRows with
  | none =>
    rw [span_none hc.small hc.within hspan]
    exact ⟨.exact 0, by simp [page, liveMatching, matching], rfl⟩
  | some whole =>
    obtain ⟨cursor, ended, hwalk, hrows, hle, hends⟩ := windowLoop_spec hc
      (parts_read hc hspan (saturatingAdd offset limit)) (WindowCursor.Holds.new offset limit)
      (by rw [List.nil_append]; exact length_liveMatching_le hc)
    rw [List.nil_append] at hrows hle hends
    dsimp only
    rw [hwalk, Option.map_some, WindowCursor.finish, hrows]
    cases ended with
    | true => exact ⟨_, rfl, hends rfl⟩
    | false => exact ⟨_, rfl, hle⟩

end ResidualCompare

end Store
