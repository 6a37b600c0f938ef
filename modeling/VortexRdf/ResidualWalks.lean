/-
The walk of a residual compare finds the rows of its selection that hold every
equality.

* `span_some`, `partOf_lists`, `rowsAtPlaces_lists` — parts of a selection;
* `ResidualCompare.Sound` — what a compare is made of: a table its equalities can be
  asked of, zone maps that describe it, tombstones over its rows;
* `StepHolds`, `steps_spec` — the steps of a walk, joined or not, cover the selection;
* `rowsBy_lists`, `rows_lists` — every match, in order.
-/
import VortexRdf.ResidualTables

namespace Store

open Terms Masks MaskOps Buffers Ascending EncodedSearch

/-! ### The rows of a selection -/

section Selections

variable {n : ℕ} {s : RowSelection}

theorem Lists.len_eq (hn : n ≤ usizeMax) {l : List ℕ} (h : Lists n (some s) l) :
    s.len n = l.length := by
  obtain ⟨_, hsome, hs, rfl⟩ := h
  obtain rfl := Option.some_inj.mp hsome
  rw [len_eq_card hn hs, RowSelection.listing, Finset.length_sort]

theorem Lists.within {l : List ℕ} (h : Lists n (some s) l) : s.Within n := by
  obtain ⟨_, hsome, hs, -⟩ := h
  rwa [Option.some_inj.mp hsome]

theorem Lists.listing {l : List ℕ} (h : Lists n (some s) l) : s.listing n = l := by
  obtain ⟨_, hsome, -, hl⟩ := h
  rwa [Option.some_inj.mp hsome]

theorem isEmpty_iff (hn : n ≤ usizeMax) (hs : s.Within n) :
    s.isEmpty n = true ↔ s.listing n = [] := by
  rw [RowSelection.isEmpty, (lists_self hs).len_eq hn, beq_iff_eq, List.length_eq_zero_iff]

theorem extendRows_eq (hn : n ≤ usizeMax) (hs : s.Within n) : extendRows s n = s.listing n := by
  unfold extendRows
  cases h : s.asRows n with
  | run r => exact (listing_run hn hs h).symm
  | ids l => exact (listing_ids hs h).symm

variable {M : Type*} [MaskOps M]

theorem liveIds_eq (hn : n ≤ usizeMax) (hs : s.Within n) (deleted : Option M) :
    liveIds s deleted n = s.liveListing deleted n := by
  cases deleted with
  | none => rw [liveIds, extendRows_eq hn hs, liveListing_none]
  | some d => rw [liveIds, extendRows_eq hn hs]; rfl

variable [LawfulMask M]

theorem tombstoned_eq (hn : n ≤ usizeMax) (hs : s.Within n) {d : M} (hd : MaskOps.len d = n) :
    tombstoned s d n = ((s.listing n).filter (value d)).length := by
  unfold tombstoned
  cases h : s.asRows n with
  | ids l => rw [listing_ids hs h]
  | run r =>
    obtain ⟨hle, hin⟩ := (asRows_run hn hs h).1
    have hlen := LawfulMask.len_slice d r.start r.stop hle (by omega)
    dsimp only
    rw [LawfulMask.trueCount_eq, setBits, hlen, listing_run hn hs h, RowRange.toList,
      ← ResidualTable.filter_range', List.length_map]
    congr 1
    refine List.filter_congr fun i hi => ?_
    exact LawfulMask.value_slice d _ _ i hle (by omega) (List.mem_range.mp hi)

theorem liveRowCount_eq (hn : n ≤ usizeMax) (hs : s.Within n) {deleted : Option M}
    (hd : ∀ d ∈ deleted, MaskOps.len d = n) :
    liveRowCount s deleted n = (s.liveListing deleted n).length := by
  have hlen := (lists_self hs).len_eq hn
  cases deleted with
  | none =>
    rw [liveListing_none, ← hlen]
    rfl
  | some d =>
    rw [liveRowCount, Option.map_some, Option.getD_some, tombstoned_eq hn hs (hd d rfl), hlen]
    have hsplit := List.length_eq_length_filter_add (l := s.listing n) (value d)
    have hlive : s.liveListing (some d) n = (s.listing n).filter fun row => !value d row := rfl
    rw [hlive]
    omega

end Selections

/-! ### Parts of a selection -/

/-- A run of rows within another. -/
structure RowRange.Inside (run whole : RowRange) : Prop where
  starts : whole.start ≤ run.start
  ordered : run.start ≤ run.stop
  stops : run.stop ≤ whole.stop

theorem Tiles.inside {start stop : ℕ} {runs : List RowRange} (h : Tiles start runs stop) :
    ∀ run ∈ runs, run.Inside ⟨start, stop⟩ := by
  induction runs generalizing start with
  | nil => simp
  | cons run runs ih =>
    obtain ⟨hstart, hle, hrest⟩ := h
    refine List.forall_mem_cons.mpr ⟨⟨hstart.ge, by omega, hrest.le⟩, fun other hother => ?_⟩
    have hin := ih hrest other hother
    exact ⟨hle.trans hin.starts, hin.ordered, hin.stops⟩

section Parts

variable {n : ℕ} {s : RowSelection} {whole run : RowRange}

theorem span_none (hn : n ≤ usizeMax) (hs : s.Within n) (h : span (s.asRows n) = none) :
    s.listing n = [] := by
  cases hrows : s.asRows n with
  | run r =>
    rw [hrows, span] at h
    split_ifs at h with hlt
    rw [listing_run hn hs hrows, RowRange.toList, show r.stop - r.start = 0 by omega]
    rfl
  | ids l =>
    rw [hrows] at h
    rw [listing_ids hs hrows]
    cases l with
    | nil => rfl
    | cons id l => simp [span, List.getLast?_cons] at h

theorem span_some (hn : n ≤ usizeMax) (hs : s.Within n)
    (h : span (s.asRows n) = some whole) : whole.Within n ∧
      (s.listing n).filter whole.contains = s.listing n ∧
      ∀ r, s.asRows n = .run r → r = whole := by
  have hcontains : ∀ {l : List ℕ}, (∀ i ∈ l, whole.start ≤ i ∧ i < whole.stop) →
      l.filter whole.contains = l := fun hin => List.filter_eq_self.mpr fun i hi => by
    have := hin i hi
    simp [RowRange.contains, this]
  cases hrows : s.asRows n with
  | run r =>
    rw [hrows, span] at h
    split_ifs at h with hlt
    obtain rfl := Option.some_inj.mp h
    have hwithin := (asRows_run hn hs hrows).1
    refine ⟨hwithin, hcontains fun i hi => ?_, fun r' h' => (SelectedRows.run.inj h').symm⟩
    rw [listing_run hn hs hrows] at hi
    exact RowRange.mem_toList.mp hi
  | ids l =>
    rw [hrows, span] at h
    have hids := (asRows_ids hs hrows).1
    split at h
    · rename_i first last hfirst hlast
      obtain rfl := Option.some_inj.mp h
      have hbounds : ∀ i ∈ l, first ≤ i ∧ i ≤ last := fun _ =>
        ids_bounds hids.ascending hfirst hlast
      have hmem := List.mem_of_getLast? hlast
      refine ⟨⟨Nat.le_succ_of_le (hbounds last hmem).1, hids.inBase _ hmem⟩,
        hcontains fun i hi => ?_, fun r' h' => by cases h'⟩
      rw [listing_ids hs hrows] at hi
      exact ⟨(hbounds i hi).1, Nat.lt_succ_of_le (hbounds i hi).2⟩
    · cases h

theorem filter_contains_toList (hin : run.Inside whole) :
    whole.toList.filter run.contains = run.toList := by
  obtain ⟨hstarts, hordered, hstops⟩ := hin
  refine (filter whole.sortedLT_toList _).eq_of_mem_iff run.sortedLT_toList fun i => ?_
  simp only [List.mem_filter, RowRange.mem_toList, RowRange.contains, Bool.and_eq_true,
    decide_eq_true_eq]
  omega

theorem partOf_lists (hn : n ≤ usizeMax) (hs : s.Within n)
    (hspan : span (s.asRows n) = some whole) (hin : run.Inside whole) :
    Lists n (partOf (s.asRows n) run) ((s.listing n).filter run.contains) := by
  obtain ⟨hwhole, -, hrun⟩ := span_some hn hs hspan
  cases hrows : s.asRows n with
  | run r =>
    obtain rfl := hrun r hrows
    rw [listing_run hn hs hrows, filter_contains_toList hin]
    exact lists_range ⟨hin.ordered, hin.stops.trans hwhole.inBase⟩
  | ids l =>
    obtain ⟨hids, -⟩ := asRows_ids hs hrows
    rw [listing_ids hs hrows, partOf, restrictIds_eq hids.ascending hin.ordered]
    exact lists_ids (hids.of_sublist List.filter_sublist)

theorem rowsAtPlaces_lists (hn : n ≤ usizeMax) (hs : s.Within n) {places : RowRange}
    (hle : places.start ≤ places.stop) (hin : places.stop ≤ (s.listing n).length) :
    Lists n (rowsAtPlaces (s.asRows n) places)
      (((s.listing n).drop places.start).take (places.stop - places.start)) := by
  cases hrows : s.asRows n with
  | run r =>
    obtain ⟨⟨hordered, hbase⟩, -⟩ := asRows_run hn hs hrows
    rw [listing_run hn hs hrows] at hin ⊢
    rw [RowRange.toList, List.length_range'] at hin
    have hpart : ((r.toList.drop places.start).take (places.stop - places.start)) =
        (⟨r.start + places.start, r.start + places.stop⟩ : RowRange).toList := by
      rw [RowRange.toList, RowRange.toList, List.drop_range', List.take_range'_of_length_ge
        (by omega), Nat.mul_one]
      congr 1
      dsimp only
      omega
    rw [hpart]
    exact lists_range ⟨by dsimp only; omega, by dsimp only; omega⟩
  | ids l =>
    obtain ⟨hids, -⟩ := asRows_ids hs hrows
    rw [listing_ids hs hrows] at hin ⊢
    rw [rowsAtPlaces, sliceOf_eq hle hin]
    exact lists_ids (hids.of_sublist (page_sublist _ _ _))

end Parts

/-! ### Pieces -/

theorem Tiles.flatMap_slice {α : Type*} {start stop : ℕ} {runs : List RowRange}
    (h : Tiles start runs stop) (l : List α) :
    runs.flatMap (fun run => (l.drop run.start).take (run.stop - run.start)) =
      (l.drop start).take (stop - start) := by
  induction runs generalizing start with
  | nil =>
    obtain rfl : start = stop := h
    simp
  | cons run runs ih =>
    obtain ⟨rfl, hle, hrest⟩ := h
    have hstop := hrest.le
    rw [List.flatMap_cons, ih hrest]
    have hdrop : l.drop run.stop = (l.drop run.start).drop (run.stop - run.start) := by
      rw [List.drop_drop]
      congr 1
      omega
    rw [hdrop, ← List.take_add]
    congr 1
    omega

theorem growingPiecesLoop_tile {fuel : ℕ} {rest : RowRange} {size : ℕ} (hsize : 0 < size)
    (hfuel : rest.stop - rest.start ≤ fuel) (hle : rest.start ≤ rest.stop)
    (hstop : rest.stop ≤ usizeMax) :
    Tiles rest.start (growingPiecesLoop fuel rest size) rest.stop := by
  induction fuel generalizing rest size with
  | zero => exact (by omega : rest.start = rest.stop)
  | succ fuel ih =>
    rw [growingPiecesLoop]
    split_ifs with hlt
    · rw [min_saturatingAdd hstop]
      refine ⟨rfl, by dsimp only; omega, ?_⟩
      refine @ih ⟨min (rest.start + size) rest.stop, rest.stop⟩ _ ?_ ?_ ?_ hstop
      · rw [PIECE_GROWTH, usizeMax]
        omega
      · dsimp only
        omega
      · dsimp only
        omega
    · exact (by omega : rest.start = rest.stop)

theorem growingPieces_tile {total : ℕ} (h : total ≤ usizeMax) (first : ℕ) :
    Tiles 0 (growingPieces ⟨0, total⟩ first) total :=
  @growingPiecesLoop_tile total ⟨0, total⟩ _ (by omega) le_rfl (Nat.zero_le _) h

/-! ### What a compare is made of -/

/-- The set's checks describe the equalities over so many rows, and fit them. -/
structure ZoneSet.Classes (set : ZoneSet) (eqs : List Equality) (cell : ColumnName → ℕ → Scalar)
    (rows : ℕ) : Prop where
  describes : set.Describes eqs cell rows
  rowCount : set.rowCount = rows

/-- The zone maps of some classes describe the equalities. -/
def Classes.Describes (eqs : List Equality) (cell : ColumnName → ℕ → Scalar) (rows : ℕ) :
    Classes → Prop
  | .zoned set => set.Classes eqs cell rows ∧ eqs.length ≤ 32
  | .pieces bounds => ∀ set ∈ bounds, set.Classes eqs cell rows

namespace ResidualCompare

variable {M : Type*} {c : ResidualCompare M}

/-- The rows that hold every equality. -/
def matching (c : ResidualCompare M) (l : List ℕ) : List ℕ :=
  l.filter (passes c.table.cell c.eqs)

@[simp] theorem matching_append (a b : List ℕ) :
    c.matching (a ++ b) = c.matching a ++ c.matching b := by
  rw [matching, matching, matching, List.filter_append]

theorem matching_flatMap {α : Type*} (l : List α) (f : α → List ℕ) :
    c.matching (l.flatMap f) = l.flatMap fun a => c.matching (f a) := by
  rw [matching, List.filter_flatMap]
  rfl

theorem matching_eq_nil {l : List ℕ} (h : ∀ i ∈ l, passes c.table.cell c.eqs i = false) :
    c.matching l = [] :=
  List.filter_eq_nil_iff.mpr fun i hi => by simp [h i hi]

theorem matching_eq_self {l : List ℕ} (h : ∀ i ∈ l, passes c.table.cell c.eqs i = true) :
    c.matching l = l :=
  List.filter_eq_self.mpr h

theorem matching_picked {bits : ℕ} {l : List ℕ} (h : ∀ i ∈ l,
    passes c.table.cell (picked c.eqs bits) i = passes c.table.cell c.eqs i) :
    l.filter (passes c.table.cell (picked c.eqs bits)) = c.matching l :=
  List.filter_congr h

/-- The bits of equalities a compare asks: those no zone map speaks for among them. -/
def Asks (c : ResidualCompare M) (bits : ℕ) : Prop :=
  ∀ eq ∈ c.eqs, primarySlot eq.1 = none → eq ∈ picked c.eqs bits

theorem mem_picked_every {eqs : List Equality} {eq : Equality} :
    eq ∈ picked eqs (everyEq eqs.length) ↔ eq ∈ eqs := by
  rw [mem_picked, List.mem_iff_getElem?]
  refine exists_congr fun k => and_iff_left_of_imp fun hk => ?_
  have hlt := (List.getElem?_eq_some_iff.mp hk).1
  rw [everyEq]
  split_ifs with h32
  · rw [Nat.testBit_two_pow_sub_one, decide_eq_true_iff]
    omega
  · rw [Nat.testBit_two_pow_sub_one, decide_eq_true_iff]
    omega

theorem passes_every (cell : ColumnName → ℕ → Scalar) (eqs : List Equality) (i : ℕ) :
    passes cell (picked eqs (everyEq eqs.length)) i = passes cell eqs i := by
  rw [Bool.eq_iff_iff, passes, passes, List.all_eq_true, List.all_eq_true]
  exact forall_congr' fun eq => by rw [mem_picked_every]

/-! ### Steps -/

/-- What a step of a walk says of the rows it is for; `K` is what an unread count says. -/
def StepHolds {C : Type} (c : ResidualCompare M) (K : C → List ℕ → Prop) (seg : List ℕ) :
    Step C → Prop
  | .skip => c.matching seg = []
  | .take => c.matching seg = seg
  | .unread plan => K plan seg
  | .compare bits => c.Asks bits ∧ ∀ i ∈ seg,
      passes c.table.cell (picked c.eqs bits) i = passes c.table.cell c.eqs i

/-- The steps of a walk so far, the last one first, up to a row. -/
structure WalkHolds {C : Type} (c : ResidualCompare M) (K : C → List ℕ → Prop) (l : List ℕ)
    (whole : RowRange) (steps : List (RowRange × Step C)) (stop : ℕ) : Prop where
  inside : ∀ step ∈ steps, step.1.Inside whole
  held : ∀ step ∈ steps, StepHolds c K (l.filter step.1.contains) step.2
  covers : (steps.reverse.flatMap fun step => l.filter step.1.contains) =
    l.filter (RowRange.contains ⟨whole.start, stop⟩)
  last : ∀ step ∈ steps.head?, step.1.stop = stop

section Steps

variable {C : Type} {K : C → List ℕ → Prop} {l : List ℕ} {whole : RowRange}

/-- Two steps that join hold of both parts as one. -/
theorem StepHolds.join {last step : Step C} (hjoins : last.joins step = true) {a b : List ℕ}
    (hlast : StepHolds c K a last) (hstep : StepHolds c K b step) :
    StepHolds c K (a ++ b) last := by
  cases last with
  | skip =>
    cases step with
    | skip => simp_all [StepHolds]
    | _ => cases hjoins
  | take =>
    cases step with
    | take => simp_all [StepHolds]
    | _ => cases hjoins
  | unread plan => cases step <;> cases hjoins
  | compare bits =>
    cases step with
    | compare other =>
      obtain rfl : bits = other := by simpa [Step.joins] using hjoins
      refine ⟨hlast.1, fun i hi => ?_⟩
      exact (List.mem_append.mp hi).elim (hlast.2 i) (hstep.2 i)
    | _ => cases hjoins

variable {steps : List (RowRange × Step C)} {run zone : RowRange} {step last : Step C}
  {earlier : List (RowRange × Step C)}

/-- The last step runs on over the next rows, where it holds of them too. -/
theorem WalkHolds.extend (hl : l.SortedLT)
    (h : WalkHolds c K l whole ((run, last) :: earlier) zone.start)
    (hzone : zone.Inside whole)
    (hheld : StepHolds c K (l.filter run.contains ++ l.filter zone.contains) last) :
    WalkHolds c K l whole ((⟨run.start, zone.stop⟩, last) :: earlier) zone.stop := by
  obtain ⟨start, stop⟩ := run
  obtain rfl : stop = zone.start := h.last _ rfl
  have hrun := h.inside _ List.mem_cons_self
  have hjoined := filter_between_append hl hrun.ordered hzone.ordered
  constructor
  · exact List.forall_mem_cons.mpr ⟨⟨hrun.starts, hrun.ordered.trans hzone.ordered, hzone.stops⟩,
      fun step hstep => h.inside step (List.mem_cons_of_mem _ hstep)⟩
  · refine List.forall_mem_cons.mpr ⟨?_, fun step hstep => h.held step (List.mem_cons_of_mem _ hstep)⟩
    exact hjoined ▸ hheld
  · have hcovers := h.covers
    simp only [List.reverse_cons, List.flatMap_append, List.flatMap_cons, List.flatMap_nil,
      List.append_nil] at hcovers ⊢
    rw [← hjoined, ← List.append_assoc, hcovers]
    exact filter_between_append hl hzone.starts hzone.ordered
  · exact fun _ hstep => by rw [← Option.some_inj.mp hstep]

theorem WalkHolds.cons (hl : l.SortedLT) (h : WalkHolds c K l whole steps zone.start)
    (hzone : zone.Inside whole) (hheld : StepHolds c K (l.filter zone.contains) step) :
    WalkHolds c K l whole ((zone, step) :: steps) zone.stop := by
  constructor
  · exact List.forall_mem_cons.mpr ⟨hzone, h.inside⟩
  · exact List.forall_mem_cons.mpr ⟨hheld, h.held⟩
  · rw [List.reverse_cons, List.flatMap_append, h.covers, List.flatMap_cons, List.flatMap_nil,
      List.append_nil]
    exact filter_between_append hl hzone.starts hzone.ordered
  · exact fun _ hstep => by rw [← Option.some_inj.mp hstep]

/-- A zone's step joins the last one or comes behind it. -/
theorem WalkHolds.push (hl : l.SortedLT) (h : WalkHolds c K l whole steps zone.start)
    (hzone : zone.Inside whole) (hheld : StepHolds c K (l.filter zone.contains) step) :
    WalkHolds c K l whole (pushStep zone step steps) zone.stop := by
  cases steps with
  | nil => exact h.cons hl hzone hheld
  | cons last earlier =>
    obtain ⟨run, last⟩ := last
    rw [pushStep]
    split_ifs with hjoins
    · exact h.extend hl hzone ((h.held _ List.mem_cons_self).join hjoins.2 hheld)
    · exact h.cons hl hzone hheld

/-- A zone of no selected row runs the last step on. -/
theorem WalkHolds.pass (hl : l.SortedLT) (h : WalkHolds c K l whole steps zone.start)
    (hzone : zone.Inside whole) (hnil : l.filter zone.contains = []) :
    WalkHolds c K l whole (passZone zone steps) zone.stop := by
  cases steps with
  | nil =>
    refine ⟨by simp [passZone], by simp [passZone], ?_, by simp [passZone]⟩
    have hcovers := filter_between_append hl hzone.starts hzone.ordered
    rw [← hcovers, ← h.covers, hnil]
    rfl
  | cons last earlier =>
    obtain ⟨run, last⟩ := last
    refine h.extend hl hzone ?_
    rw [hnil, List.append_nil]
    exact h.held _ List.mem_cons_self

variable {set : ZoneSet}

/-- What the class of a zone says of its selected rows. -/
theorem stepHolds_class (hset : set.Classes c.eqs c.table.cell c.len) {zone : ℕ} {seg : List ℕ}
    (hseg : ∀ i ∈ seg, i ∈ (set.zoneRows zone).rows) :
    match set.classOf zone with
    | .none => c.matching seg = []
    | .all => c.matching seg = seg
    | .mixed bits => (c.Asks bits ∧ ∀ i ∈ seg,
        passes c.table.cell (picked c.eqs bits) i = passes c.table.cell c.eqs i) ∧
        ∀ bit, bits.testBit bit = true → bit < 32 ∧ bit < c.eqs.length := by
  have hclass := class_spec hset.describes hset.rowCount zone
  cases hzone : set.classOf zone with
  | none =>
    rw [hzone] at hclass
    exact matching_eq_nil fun i hi => hclass i (hseg i hi)
  | all =>
    rw [hzone] at hclass
    exact matching_eq_self fun i hi => hclass i (hseg i hi)
  | mixed bits =>
    rw [hzone] at hclass
    exact ⟨⟨hclass.2.2, fun i hi => hclass.1 i (hseg i hi)⟩, hclass.2.1⟩

variable {s : RowSelection}

/-- The walk zone by zone, from the steps so far. -/
theorem stepsLoop_spec (hn : c.len ≤ usizeMax) (hs : s.Within c.len)
    (hspan : span (s.asRows c.len) = some whole)
    (hset : set.Classes c.eqs c.table.cell c.len)
    {mixed : ZonePart → RowSelection → ℕ → Option (Step C)} {zones : List ZonePart} {start : ℕ}
    (hmixed : ∀ zone ∈ zones, ∀ selected bits, Lists c.len (some selected)
      ((s.listing c.len).filter zone.rows.contains) → set.classOf zone.zone = .mixed bits →
      ∃ step, mixed zone selected bits = some step ∧
        StepHolds c K ((s.listing c.len).filter zone.rows.contains) step)
    (htiles : Tiles start (zones.map ZonePart.rows) whole.stop) (hstart : whole.start ≤ start)
    (hzones : ∀ zone ∈ zones, zone.rows.rows ⊆ (set.zoneRows zone.zone).rows)
    (h : WalkHolds c K (s.listing c.len) whole steps start) :
    ∃ walked, c.stepsLoop set (s.asRows c.len) mixed zones steps = some walked ∧
      WalkHolds c K (s.listing c.len) whole walked.reverse whole.stop := by
  have hl := (listing_idsWithin hs).ascending
  induction zones generalizing steps start with
  | nil =>
    obtain rfl : start = whole.stop := htiles
    exact ⟨_, rfl, by rwa [List.reverse_reverse]⟩
  | cons zone zones ih =>
    obtain ⟨hfirst, hle, hrest⟩ := htiles
    obtain rfl : zone.rows.start = start := hfirst
    have hzone : zone.rows.Inside whole := ⟨hstart, hle, hrest.le⟩
    have hnext := fun {steps} => @ih steps zone.rows.stop
      (fun z hz => hmixed z (List.mem_cons_of_mem _ hz)) hrest (hstart.trans hle)
      fun z hz => hzones z (List.mem_cons_of_mem _ hz)
    obtain ⟨selected, hpart, hselected⟩ := partOf_lists hn hs hspan hzone
    have hlists : Lists c.len (some selected) ((s.listing c.len).filter zone.rows.contains) :=
      ⟨selected, rfl, hselected⟩
    rw [stepsLoop, hpart]
    dsimp only
    split_ifs with hempty
    · -- the selection has no row in this zone
      refine hnext (h.pass hl hzone ?_)
      rw [← hlists.listing]
      exact (isEmpty_iff hn hselected.1).mp hempty
    · obtain ⟨step, hstep, hheld⟩ : ∃ step,
          stepOf (mixed zone selected) (set.classOf zone.zone) = some step ∧
          StepHolds c K ((s.listing c.len).filter zone.rows.contains) step := by
        -- a zone that its class does not settle is left to `mixed`
        have hseg : ∀ i ∈ (s.listing c.len).filter zone.rows.contains,
            i ∈ (set.zoneRows zone.zone).rows := fun i hi => hzones zone List.mem_cons_self
          (RowRange.contains_iff.mp (List.mem_filter.mp hi).2)
        have hclass := stepHolds_class hset hseg
        cases hzoneClass : set.classOf zone.zone with
        | none =>
          rw [hzoneClass] at hclass
          exact ⟨_, rfl, hclass⟩
        | all =>
          rw [hzoneClass] at hclass
          exact ⟨_, rfl, hclass⟩
        | mixed bits => exact hmixed zone List.mem_cons_self selected bits hlists hzoneClass
      rw [hstep]
      exact hnext (h.push hl hzone hheld)

/-- The steps of a walk lie one behind another and hold all of the selection. -/
structure Walked (c : ResidualCompare M) (K : C → List ℕ → Prop) (l : List ℕ) (whole : RowRange)
    (steps : List (RowRange × Step C)) : Prop where
  inside : ∀ step ∈ steps, step.1.Inside whole
  held : ∀ step ∈ steps, StepHolds c K (l.filter step.1.contains) step.2
  covers : (steps.flatMap fun step => l.filter step.1.contains) = l

theorem steps_spec (hn : c.len ≤ usizeMax) (hs : s.Within c.len)
    (hspan : span (s.asRows c.len) = some whole)
    (hset : set.Classes c.eqs c.table.cell c.len)
    {mixed : ZonePart → RowSelection → ℕ → Option (Step C)}
    (hmixed : ∀ zone ∈ set.parts whole, ∀ selected bits, Lists c.len (some selected)
      ((s.listing c.len).filter zone.rows.contains) → set.classOf zone.zone = .mixed bits →
      ∃ step, mixed zone selected bits = some step ∧
        StepHolds c K ((s.listing c.len).filter zone.rows.contains) step) :
    ∃ steps, c.steps set (s.asRows c.len) whole mixed = some steps ∧
      Walked c K (s.listing c.len) whole steps := by
  obtain ⟨hwhole, hall, -⟩ := span_some hn hs hspan
  obtain ⟨htiles, hzones⟩ := parts_tile set (hset.rowCount ▸ hwhole : whole.Within set.rowCount)
  have hstart : WalkHolds c K (s.listing c.len) whole [] whole.start := by
    refine ⟨by simp, by simp, ?_, by simp⟩
    rw [List.reverse_nil, List.flatMap_nil, eq_comm, List.filter_eq_nil_iff]
    intro i _
    simp only [RowRange.contains, Bool.and_eq_true, decide_eq_true_eq]
    omega
  obtain ⟨steps, hsteps, hwalk⟩ :=
    stepsLoop_spec hn hs hspan hset hmixed htiles le_rfl hzones hstart
  refine ⟨steps, hsteps, fun step hstep => hwalk.inside step (List.mem_reverse.mpr hstep),
    fun step hstep => hwalk.held step (List.mem_reverse.mpr hstep), ?_⟩
  have hcovers := hwalk.covers
  rwa [List.reverse_reverse, hall] at hcovers

/-- Steps that are all taken leave every row matching. -/
theorem Walked.matching_all {l : List ℕ} (h : Walked c K l whole steps)
    (htake : (steps.all fun step => step.2.isTake) = true) : c.matching l = l := by
  refine matching_eq_self fun i hi => ?_
  rw [← h.covers] at hi
  obtain ⟨⟨run, step⟩, hstep, hi⟩ := List.mem_flatMap.mp hi
  have hheld := h.held _ hstep
  have htaken := List.all_eq_true.mp htake _ hstep
  cases step with
  | take => exact List.filter_eq_self.mp hheld i hi
  | _ => cases htaken

theorem comparesWhole_some (hn : c.len ≤ usizeMax) (hs : s.Within c.len)
    (hspan : span (s.asRows c.len) = some whole)
    (hwalked : Walked c K (s.listing c.len) whole steps) (selected : ℕ) :
    ∃ one, comparesWhole (s.asRows c.len) steps selected c.len = some one := by
  have hparts : ∀ step ∈ steps.filter fun step => step.2.isCompare,
      (partOf (s.asRows c.len) step.1).map (fun part => part.len c.len) =
        some (((s.listing c.len).filter step.1.contains).length) := by
    intro step hstep
    obtain ⟨part, hpart, hlists⟩ :=
      partOf_lists hn hs hspan (hwalked.inside step (List.mem_of_mem_filter hstep))
    rw [hpart, Option.map_some, Lists.len_eq hn ⟨part, rfl, hlists⟩]
  rw [comparesWhole, mapM_some hparts, Option.map_some]
  exact ⟨_, rfl⟩

/-- The selected rows of a zone of the walk lie in the zone. -/
theorem mem_zoneRows (hn : c.len ≤ usizeMax) (hs : s.Within c.len)
    (hspan : span (s.asRows c.len) = some whole) (hset : set.Classes c.eqs c.table.cell c.len)
    {zone : ZonePart} (hzone : zone ∈ set.parts whole) :
    ∀ i ∈ (s.listing c.len).filter zone.rows.contains, i ∈ (set.zoneRows zone.zone).rows := by
  obtain ⟨hwhole, -⟩ := span_some hn hs hspan
  have hzones := (parts_tile set (hset.rowCount ▸ hwhole : whole.Within set.rowCount)).2
  exact fun i hi => hzones zone hzone (RowRange.contains_iff.mp (List.mem_filter.mp hi).2)

/-- A mixed zone's rows are decided by the equalities it leaves. -/
theorem mixed_holds (hn : c.len ≤ usizeMax) (hs : s.Within c.len)
    (hspan : span (s.asRows c.len) = some whole) (hset : set.Classes c.eqs c.table.cell c.len)
    {zone : ZonePart} (hzone : zone ∈ set.parts whole) {bits : ℕ}
    (hclass : set.classOf zone.zone = .mixed bits) :
    StepHolds c K ((s.listing c.len).filter zone.rows.contains) (.compare bits) ∧
      ∀ bit, bits.testBit bit = true → bit < 32 ∧ bit < c.eqs.length := by
  have hheld := stepHolds_class hset (mem_zoneRows hn hs hspan hset hzone)
  rwa [hclass] at hheld

end Steps

/-! ### The compares of a walk -/

variable [MaskOps M] {fl : FastLanes} {s : RowSelection}

/-- A compare over a table its equalities can be asked of, its zone maps describing it and
its tombstones over its rows. -/
structure Sound (fl : FastLanes) (c : ResidualCompare M) : Prop where
  table : c.table.Sound fl
  comparable : c.table.Comparable c.eqs
  within : c.selection.Within c.len
  classed : c.classes.Describes c.eqs c.table.cell c.len
  tombstones : ∀ d ∈ c.deleted, MaskOps.len d = c.len

/-- The live rows that hold every equality. -/
def liveMatching (c : ResidualCompare M) (l : List ℕ) : List ℕ :=
  (c.matching l).filter (Store.live c.deleted)

@[simp] theorem liveMatching_append (a b : List ℕ) :
    c.liveMatching (a ++ b) = c.liveMatching a ++ c.liveMatching b := by
  simp [liveMatching]

theorem Sound.small (hc : c.Sound fl) : c.len ≤ usizeMax := hc.table.small

variable [LawfulMask M]

theorem live_eq (hc : c.Sound fl) {found : RowSelection} {l : List ℕ}
    (h : Lists c.len (some found) (c.matching l)) : c.live found = (c.liveMatching l).length := by
  rw [live, liveRowCount_eq hc.small h.within hc.tombstones, RowSelection.liveListing,
    h.listing]
  rfl

theorem compare_lists (hc : c.Sound fl) (hs : s.Within c.len) {bits : ℕ} (hasks : c.Asks bits) :
    Lists c.len (c.compare fl s bits)
      ((s.listing c.len).filter (passes c.table.cell (picked c.eqs bits))) := by
  have hcomparable : c.table.Comparable (picked c.eqs bits) := by
    refine hc.comparable.subset (fun eq heq => ?_) hasks
    obtain ⟨k, hk, -⟩ := mem_picked.mp heq
    exact List.mem_of_getElem? hk
  unfold compare
  cases hcomponent : c.table.component with
  | true =>
    dsimp only
    rw [if_pos rfl]
    exact ResidualTable.componentCompared_lists hc.table hcomponent hcomparable hs
  | false =>
    exact ResidualTable.compared_lists hc.table.small hcomparable hs _

theorem compare_matching (hc : c.Sound fl) {part : RowSelection} {seg : List ℕ}
    (hpart : Lists c.len (some part) seg) {bits : ℕ} (hasks : c.Asks bits)
    (hpicked : ∀ i ∈ seg,
      passes c.table.cell (picked c.eqs bits) i = passes c.table.cell c.eqs i) :
    Lists c.len (c.compare fl part bits) (c.matching seg) := by
  have hlists := compare_lists hc hpart.within hasks
  rwa [hpart.listing, matching_picked hpicked] at hlists

/-- The whole selection compared on every equality. -/
theorem compare_every (hc : c.Sound fl) (hs : s.Within c.len) :
    Lists c.len (c.compare fl s (everyEq c.eqs.length)) (c.matching (s.listing c.len)) :=
  compare_matching hc (lists_self hs) (fun _ heq _ => mem_picked_every.mpr heq)
    fun i _ => passes_every _ _ i

section Walks

variable {whole : RowRange} {set : ZoneSet}

/-! ### Every match -/

/-- The parts of a walk's steps, taken or compared, hold the matches of their rows. -/
theorem stepRows_eq (hc : c.Sound fl) (hs : s.Within c.len)
    (hspan : span (s.asRows c.len) = some whole) {K : Empty → List ℕ → Prop}
    {steps : List (RowRange × Step Empty)} (hinside : ∀ step ∈ steps, step.1.Inside whole)
    (hheld : ∀ step ∈ steps, StepHolds c K ((s.listing c.len).filter step.1.contains) step.2) :
    c.stepRows fl (s.asRows c.len) steps =
      some (steps.flatMap fun step => c.matching ((s.listing c.len).filter step.1.contains)) := by
  induction steps with
  | nil => rfl
  | cons step steps ih =>
    obtain ⟨run, step⟩ := step
    have hrest := ih (fun step h => hinside step (List.mem_cons_of_mem _ h))
      fun step h => hheld step (List.mem_cons_of_mem _ h)
    have hstep := hheld _ List.mem_cons_self
    obtain ⟨part, hpart, hlists⟩ := partOf_lists hc.small hs hspan (hinside _ List.mem_cons_self)
    rw [stepRows, hpart, List.flatMap_cons]
    dsimp only at hstep ⊢
    cases step with
    | skip =>
      rw [hrest, (hstep : c.matching _ = [])]
    | take =>
      rw [hrest, extendRows_eq hc.small hlists.1, hlists.2, (hstep : c.matching _ = _)]
    | unread never => cases never
    | compare bits =>
      obtain ⟨kept, hkept, hmatched⟩ := compare_matching hc ⟨part, rfl, hlists⟩ hstep.1 hstep.2
      rw [hrest]
      dsimp only
      rw [hkept, Option.map_some, extendRows_eq hc.small hmatched.1, hmatched.2]

theorem rowsBy_lists (hc : c.Sound fl) (hs : s.Within c.len)
    (hset : set.Classes c.eqs c.table.cell c.len) :
    Lists c.len (c.rowsBy fl set s) (c.matching (s.listing c.len)) := by
  rw [rowsBy]
  cases hspan : span (s.asRows c.len) with
  | none =>
    have hnil := span_none hc.small hs hspan
    have hself := lists_self hs
    rw [hnil] at hself ⊢
    exact hself
  | some whole =>
    obtain ⟨steps, hsteps, hwalked⟩ := @steps_spec M c Empty (fun _ _ => True) whole set s
      hc.small hs hspan hset (fun _ _ bits => some (.compare bits))
      fun zone hzone _ bits _ hclass =>
        ⟨_, rfl, (mixed_holds hc.small hs hspan hset hzone hclass).1⟩
    dsimp only
    rw [hsteps]
    dsimp only
    split_ifs with htake
    · rw [hwalked.matching_all htake]
      exact lists_self hs
    · obtain ⟨one, hone⟩ := comparesWhole_some hc.small hs hspan hwalked (s.len c.len)
      rw [hone]
      cases one with
      | true => exact compare_every hc hs
      | false =>
        dsimp only
        rw [stepRows_eq hc hs hspan hwalked.inside hwalked.held, ← matching_flatMap,
          hwalked.covers]
        exact lists_fromIds (idsWithin_filter hs _)

theorem piecesCompared_lists (hc : c.Sound fl) {bounds : Option ZoneSet}
    (hbounds : ∀ set ∈ bounds, set.Classes c.eqs c.table.cell c.len) (hs : s.Within c.len) :
    Lists c.len (c.piecesCompared fl bounds s) (c.matching (s.listing c.len)) := by
  cases bounds with
  | none => exact compare_every hc hs
  | some set =>
    rw [piecesCompared]
    split_ifs
    · exact rowsBy_lists hc hs (hbounds set rfl)
    · exact compare_every hc hs

theorem rows_lists (hc : c.Sound fl) :
    Lists c.len (c.rows fl) (c.matching (c.selection.listing c.len)) := by
  have hclassed := hc.classed
  rw [rows]
  cases hclasses : c.classes with
  | zoned set =>
    rw [hclasses] at hclassed
    exact rowsBy_lists hc hc.within hclassed.1
  | pieces bounds =>
    rw [hclasses] at hclassed
    exact piecesCompared_lists hc hclassed hc.within

end Walks

end ResidualCompare

end Store
