/-
A residual answers what a scan of its selection answers, whatever the statistics settle
first and however it is walked.

* `QuadZones.Describe` — the zone maps of a base describe its columns;
* `askLoop_spec`, `askStatistics_sound` — what the zone maps settle, and the equalities
  and classes they leave;
* `PendingResidual.answers_expected` — a compare left pending, asked any sequence of
  questions, answers each as if it were the first;
* `residual_isNaiveFilter` — the rows, counts and windows of a residual are those of the
  rows that hold its equalities.
-/
import VortexRdf.ResidualCounts

namespace Store

open Terms Masks MaskOps Buffers Ascending EncodedSearch

/-! ### Zone maps of a base -/

/-- The zone maps of a base describe its code columns. -/
def QuadZones.Describe (zones : QuadZones) (cell : ColumnName → ℕ → Scalar) (rows : ℕ) : Prop :=
  ∀ slot columnZones, zones slot = some columnZones → ∃ column : ℕ → ℕ,
    (∀ i, i < rows → cell slot.name i = .num (column i)) ∧ columnZones.Describes column rows

theorem primarySlot_name {name : ColumnName} {slot : QuadColumn} (h : primarySlot name = some slot) :
    slot.name = name := by
  cases name <;> cases h <;> rfl

/-- Every row of a column lies between the column's bounds. -/
theorem columnBounds_hold {zones : ColumnZones} {column : ℕ → ℕ} {rows : ℕ}
    (h : zones.Describes column rows) {min max : ℕ} (hbounds : zones.columnBounds = some (min, max))
    {i : ℕ} (hi : i < rows) : min ≤ column i ∧ column i ≤ max := by
  obtain ⟨hmin, hmax⟩ : zones.mins.min? = some min ∧ zones.maxes.max? = some max := by
    unfold ColumnZones.columnBounds at hbounds
    split at hbounds
    · rename_i hmin hmax
      obtain ⟨rfl, rfl⟩ := Prod.mk.inj (Option.some_inj.mp hbounds)
      exact ⟨hmin, hmax⟩
    · cases hbounds
  have hrows := h.rowCount
  have hlen := zones.zoned
  -- the row's zone is one the column has bounds of
  have hcovered : i / zones.zoneLen < zones.mins.length := by
    rw [← zones.covered, ← not_le, divCeil_le_iff hlen, hrows, not_le]
    exact lt_of_le_of_lt (Nat.div_mul_le_self _ _) hi
  have hzone : i ∈ (zones.zoneRows (i / zones.zoneLen)).rows := by
    rw [RowRange.mem_rows]
    refine ⟨Nat.div_mul_le_self _ _, lt_min ?_ (hrows ▸ hi)⟩
    rw [Nat.mul_comm]
    exact Nat.lt_mul_div_succ i hlen
  obtain ⟨hlo, hhi⟩ := h.bounds _ i hzone
  have hminMem : (zones.zoneBounds (i / zones.zoneLen)).1 ∈ zones.mins := by
    rw [ColumnZones.zoneBounds, List.getD_eq_getElem _ _ hcovered]
    exact List.getElem_mem hcovered
  have hmaxMem : (zones.zoneBounds (i / zones.zoneLen)).2 ∈ zones.maxes := by
    have hcovered' : i / zones.zoneLen < zones.maxes.length := zones.paired ▸ hcovered
    rw [ColumnZones.zoneBounds, List.getD_eq_getElem _ _ hcovered']
    exact List.getElem_mem hcovered'
  exact ⟨((List.min?_eq_some_iff.mp hmin).2 _ hminMem).trans hlo,
    hhi.trans ((List.max?_eq_some_iff.mp hmax).2 _ hmaxMem)⟩

/-! ### Checks -/

/-- Each check is of an equality's code, against the zone map of its column. -/
def Checked (zones : QuadZones) (eqs : List Equality) (checks : List ZoneCheck) : Prop :=
  ∀ check ∈ checks, ∃ field slot, eqs[check.bit]? = some (field, .num check.code) ∧
    primarySlot field = some slot ∧ zones slot = some check.zones

theorem zoneCheck_spec {zones : QuadZones} {bit : ℕ} {eq : Equality} {check : ZoneCheck}
    (h : zoneCheck zones bit eq = some check) : check.bit = bit ∧ bit < 32 ∧
      eq = (eq.1, .num check.code) ∧
        ∃ slot, primarySlot eq.1 = some slot ∧ zones slot = some check.zones := by
  obtain ⟨field, value⟩ := eq
  unfold zoneCheck at h
  split_ifs at h with hbit
  split at h
  · rename_i code columnZones hcode hzones
    obtain rfl := Option.some_inj.mp h
    obtain ⟨slot, hslot, hmap⟩ := Option.bind_eq_some_iff.mp hzones
    cases value with
    | num n =>
      obtain rfl := Option.some_inj.mp hcode
      exact ⟨rfl, hbit, rfl, slot, hslot, hmap⟩
    | _ => cases hcode
  · cases h

theorem testBit_everyEq {n i : ℕ} : (everyEq n).testBit i = true ↔ i < 32 ∧ i < n := by
  rw [everyEq]
  split_ifs with h32
  · rw [Nat.testBit_two_pow_sub_one, decide_eq_true_iff]
    omega
  · rw [Nat.testBit_two_pow_sub_one, decide_eq_true_iff]
    omega

theorem testBit_unzonedBits {n : ℕ} {checks : List ZoneCheck} (h : ∀ check ∈ checks, check.bit < 32)
    {i : ℕ} : (unzonedBits n checks).testBit i = true ↔
      (i < 32 ∧ i < n) ∧ ∀ check ∈ checks, check.bit ≠ i := by
  have hloop : ∀ bits : ℕ, (checks.foldl (fun bits check =>
      bits &&& (2 ^ 32 - 1 - 1 <<< check.bit)) bits).testBit i = true ↔
        bits.testBit i = true ∧ ∀ check ∈ checks, i < 32 ∧ check.bit ≠ i := by
    induction checks with
    | nil => simp
    | cons check checks ih =>
      intro bits
      have hbit := h check List.mem_cons_self
      have hone : (1 <<< check.bit : ℕ) < 2 ^ 32 := by
        rw [Nat.one_shiftLeft]
        exact Nat.pow_lt_pow_right (by omega) hbit
      rw [List.foldl_cons, ih fun check hcheck => h check (List.mem_cons_of_mem _ hcheck),
        Nat.testBit_and, List.forall_mem_cons, Nat.sub_sub, Nat.add_comm 1,
        Nat.testBit_two_pow_sub_succ hone, testBit_shift]
      simp [and_assoc]
  rw [unzonedBits, hloop, testBit_everyEq]
  constructor
  · exact fun hbits => ⟨hbits.1, fun check hcheck => (hbits.2 check hcheck).2⟩
  · exact fun hbits => ⟨hbits.1, fun check hcheck => ⟨hbits.1.1, hbits.2 check hcheck⟩⟩

theorem zoneSet_new {checks : List ZoneCheck} {unzoned : ℕ} {set : ZoneSet}
    (h : ZoneSet.new checks unzoned = some set) :
    set.checks = checks ∧ set.unzoned = unzoned ∧ set.boundsOnly = false := by
  unfold ZoneSet.new at h
  split at h
  · cases h
  · split_ifs at h
    obtain rfl := Option.some_inj.mp h
    exact ⟨rfl, rfl, rfl⟩

section Checks

variable {zones : QuadZones} {cell : ColumnName → ℕ → Scalar} {rows : ℕ}
  (hzones : zones.Describe cell rows)
include hzones

/-- A set of the checks of some equalities describes them, by its bounds alone or, where
there are few, by its records too. -/
theorem classes_of_checked {eqs : List Equality} {checks : List ZoneCheck} {set : ZoneSet}
    (hnew : ZoneSet.new checks (unzonedBits eqs.length checks) = some set)
    (hchecked : Checked zones eqs checks) :
    (eqs.length ≤ 32 → set.Classes eqs cell rows) ∧ set.byBounds.Classes eqs cell rows := by
  obtain ⟨hchecks, hunzoned, hbounds⟩ := zoneSet_new hnew
  have hbits : ∀ check ∈ checks, check.bit < 32 := fun check hcheck =>
    (set.lined check (hchecks.symm ▸ hcheck : check ∈ set.checks)).1
  have hdescribed : ∀ check ∈ set.checks, ∃ field, eqs[check.bit]? = some (field, .num check.code) ∧
      primarySlot field ≠ none ∧ ∃ column, (∀ i, i < rows → cell field i = .num (column i)) ∧
        check.zones.Describes column rows := by
    intro check hcheck
    obtain ⟨field, slot, heq, hslot, hmap⟩ := hchecked check (hchecks ▸ hcheck)
    obtain ⟨column, hcolumn, hdescribes⟩ := hzones slot check.zones hmap
    rw [primarySlot_name hslot] at hcolumn
    exact ⟨field, heq, by simp [hslot], column, hcolumn, hdescribes⟩
  have hplaces : ∀ bit, set.unzoned.testBit bit = true → bit < 32 ∧ bit < eqs.length := by
    intro bit hbit
    rw [hunzoned, testBit_unzonedBits hbits] at hbit
    exact hbit.1
  have hspoken : ∀ bit, bit < eqs.length → bit < 32 →
      set.unzoned.testBit bit = true ∨ ∃ check ∈ set.checks, check.bit = bit := by
    intro bit hlt h32
    by_cases hsome : ∃ check ∈ set.checks, check.bit = bit
    · exact .inr hsome
    · rw [hunzoned, testBit_unzonedBits hbits]
      exact .inl ⟨⟨h32, hlt⟩, fun check hcheck hbit => hsome ⟨check, hchecks ▸ hcheck, hbit⟩⟩
  have hrows : set.rowCount = rows := by
    obtain ⟨_, -, -, column, -, hdescribes⟩ := hdescribed set.first List.mem_cons_self
    exact hdescribes.rowCount
  exact ⟨fun hfew => ⟨⟨hdescribed, hplaces, hspoken, fun _ => hfew⟩, hrows⟩,
    ⟨⟨hdescribed, hplaces, hspoken, fun hfalse => by cases hfalse⟩, hrows⟩⟩

/-- Pieces whose compares skip by the bounds describe the equalities. -/
theorem unaskedClasses_describe (eqs : List Equality) :
    (unaskedClasses zones eqs).Describes eqs cell rows := by
  intro set hset
  obtain ⟨set, hnew, rfl⟩ := Option.map_eq_some_iff.mp hset
  refine (classes_of_checked hzones hnew fun check hcheck => ?_).2
  obtain ⟨⟨eq, bit⟩, hplace, hcheck⟩ := List.mem_filterMap.mp hcheck
  obtain ⟨rfl, -, hvalue, slot, hslot, hmap⟩ := zoneCheck_spec hcheck
  refine ⟨eq.1, slot, ?_, hslot, hmap⟩
  rw [List.mk_mem_zipIdx_iff_getElem?.mp hplace]
  exact congrArg some hvalue

theorem zonedBy_describe {eqs : List Equality} {zoned : List ZoneCheck} {selection : RowSelection}
    {baseLen : ℕ} {classes : Classes} (hchecked : Checked zones eqs zoned)
    (h : Classes.zonedBy zoned eqs.length selection baseLen = some classes) :
    classes.Describes eqs cell rows := by
  unfold Classes.zonedBy at h
  split at h
  · cases h
  · split_ifs at h with hmany
    obtain ⟨set, hnew, rfl⟩ := Option.map_eq_some_iff.mp h
    exact ⟨(classes_of_checked hzones hnew hchecked).1 (by omega), by omega⟩

end Checks

/-! ### What the statistics settle -/

section Asking

variable {zones : QuadZones} {cell : ColumnName → ℕ → Scalar} {rows : ℕ}

theorem passes_append (eqs eqs' : List Equality) (i : ℕ) :
    passes cell (eqs ++ eqs') i = (passes cell eqs i && passes cell eqs' i) := List.all_append

theorem passes_singleton (eq : Equality) (i : ℕ) : passes cell [eq] i = holdsCell cell eq i := by
  rw [passes, List.all_cons, List.all_nil, Bool.and_true]

/-- Some equalities left of others, with the checks of them: a row holds the one as it
holds the other. -/
structure LeftOf (zones : QuadZones) (cell : ColumnName → ℕ → Scalar) (rows : ℕ)
    (eqs left : List Equality) (zoned : List ZoneCheck) : Prop where
  checked : Checked zones left zoned
  asked : ∀ eq ∈ left, eq ∈ eqs
  unzoned : ∀ eq ∈ eqs, primarySlot eq.1 = none → eq ∈ left
  passes : ∀ i, i < rows → passes cell left i = passes cell eqs i

variable {zoned : List ZoneCheck}

theorem Checked.append {left : List Equality}
    (h : Checked zones left zoned) (eq : Equality) : Checked zones (left ++ [eq]) zoned := by
  intro check hcheck
  obtain ⟨field, slot, heq, hslot, hmap⟩ := h check hcheck
  refine ⟨field, slot, ?_, hslot, hmap⟩
  rwa [List.getElem?_append_left (List.getElem?_eq_some_iff.mp heq).1]

/-- An equality nothing settles is left too. -/
theorem LeftOf.push {eqs left : List Equality} {zoned' : List ZoneCheck}
    (h : LeftOf zones cell rows eqs left zoned) (eq : Equality)
    (hchecked : Checked zones (left ++ [eq]) zoned') :
    LeftOf zones cell rows (eqs ++ [eq]) (left ++ [eq]) zoned' where
  checked := hchecked
  asked other hother := List.mem_append.mpr
    ((List.mem_append.mp hother).imp_left (h.asked other))
  unzoned other hother hslot := List.mem_append.mpr
    ((List.mem_append.mp hother).imp_left fun hmem => h.unzoned other hmem hslot)
  passes i hi := by rw [passes_append, passes_append, h.passes i hi]

/-- An equality every row holds is not. -/
theorem LeftOf.settle {eqs left : List Equality}
    (h : LeftOf zones cell rows eqs left zoned) {eq : Equality} {slot : QuadColumn}
    (hslot : primarySlot eq.1 = some slot) (hholds : ∀ i, i < rows → holdsCell cell eq i = true) :
    LeftOf zones cell rows (eqs ++ [eq]) left zoned where
  checked := h.checked
  asked other hother := List.mem_append_left _ (h.asked other hother)
  unzoned other hother hnone := by
    rcases List.mem_append.mp hother with hmem | hmem
    · exact h.unzoned other hmem hnone
    · rw [List.mem_singleton.mp hmem, hslot] at hnone
      cases hnone
  passes i hi := by
    rw [passes_append, passes_singleton, hholds i hi, Bool.and_true, h.passes i hi]

/-- What the bounds of its column settle of a check, they settle of every row. -/
theorem settled_holds (hzones : zones.Describe cell rows) {bit : ℕ} {eq : Equality}
    {check : ZoneCheck} (hcheck : zoneCheck zones bit eq = some check) {held : Bool}
    (hheld : (check.zones.columnBounds.bind fun bounds =>
      eqOnBounds bounds.1 bounds.2 check.code) = some held) {i : ℕ} (hi : i < rows) :
    holdsCell cell eq i = held := by
  obtain ⟨-, -, heq, slot, hslot, hmap⟩ := zoneCheck_spec hcheck
  obtain ⟨column, hcolumn, hdescribes⟩ := hzones slot check.zones hmap
  obtain ⟨⟨min, max⟩, hbounds, hsettled⟩ := Option.bind_eq_some_iff.mp hheld
  obtain ⟨hmin, hmax⟩ := columnBounds_hold hdescribes hbounds hi
  rw [primarySlot_name hslot] at hcolumn
  rw [heq, holdsCell, hcolumn i hi, eqOnBounds_sound hmin hmax hsettled, Bool.eq_iff_iff, beq_iff_eq,
    Scalar.num.injEq, decide_eq_true_iff]

theorem askLoop_spec (hzones : zones.Describe cell rows) {asked eqs left : List Equality}
    (h : LeftOf zones cell rows asked left zoned) :
    match askLoop zones eqs left zoned with
    | none => ∀ i, i < rows → passes cell (asked ++ eqs) i = false
    | some (left, zoned) => LeftOf zones cell rows (asked ++ eqs) left zoned := by
  induction eqs generalizing asked left zoned with
  | nil =>
    rw [askLoop, List.append_nil]
    exact h
  | cons eq eqs ih =>
    rw [List.append_cons, askLoop]
    cases hcheck : zoneCheck zones left.length eq with
    | none => exact ih (h.push eq (h.checked.append eq))
    | some check =>
      obtain ⟨hbit, -, heq, slot, hslot, hmap⟩ := zoneCheck_spec hcheck
      dsimp only
      cases hsettled : check.zones.columnBounds.bind fun bounds =>
          eqOnBounds bounds.1 bounds.2 check.code with
      | none =>
        refine ih (h.push eq fun other hother => ?_)
        rcases List.mem_append.mp hother with hmem | hmem
        · exact h.checked.append eq other hmem
        · rw [List.mem_singleton.mp hmem]
          refine ⟨eq.1, slot, ?_, hslot, hmap⟩
          rw [hbit, List.getElem?_concat_length, ← heq]
      | some held =>
        have hholds : ∀ i, i < rows → holdsCell cell eq i = held :=
          fun i hi => settled_holds hzones hcheck hsettled hi
        cases held with
        | true => exact ih (h.settle hslot hholds)
        | false =>
          intro i hi
          rw [passes_append, passes_append, passes_singleton, hholds i hi, Bool.and_false,
            Bool.false_and]

/-- What a residual's statistics say of its rows: none passes, each does, or those do that
hold the equalities left, walked by classes that describe them. -/
def Asked.Holds (cell : ColumnName → ℕ → Scalar) (rows : ℕ) (eqs : List Equality) : Asked → Prop
  | .nothing => ∀ i, i < rows → passes cell eqs i = false
  | .everything => ∀ i, i < rows → passes cell eqs i = true
  | .openEqs left classes => classes.Describes left cell rows ∧ (∀ eq ∈ left, eq ∈ eqs) ∧
      (∀ eq ∈ eqs, primarySlot eq.1 = none → eq ∈ left) ∧
      ∀ i, i < rows → passes cell left i = passes cell eqs i

theorem askStatistics_sound (hzones : zones.Describe cell rows) (baseLen : ℕ)
    (selection : RowSelection) (eqs : List Equality) :
    (askStatistics zones baseLen selection eqs).Holds cell rows eqs := by
  have hloop := @askLoop_spec zones cell rows [] hzones [] eqs []
    ⟨by simp [Checked], by simp, by simp, fun _ _ => rfl⟩
  rw [List.nil_append] at hloop
  unfold askStatistics
  cases hask : askLoop zones eqs [] [] with
  | none =>
    rw [hask] at hloop
    exact hloop
  | some kept =>
    obtain ⟨left, zoned⟩ := kept
    rw [hask] at hloop
    have hleft : LeftOf zones cell rows eqs left zoned := hloop
    dsimp only
    split_ifs with hnil
    · subst hnil
      exact fun i hi => (hleft.passes i hi).symm
    · refine ⟨?_, hleft.asked, hleft.unzoned, hleft.passes⟩
      cases hclasses : Classes.zonedBy zoned left.length selection baseLen with
      | none => exact unaskedClasses_describe hzones left
      | some classes => exact zonedBy_describe hzones hleft.checked hclasses

end Asking

/-! ### A residual left pending -/

namespace PendingResidual

variable {fl : FastLanes} {pending : PendingResidual}

/-- The rows of the selection that hold every equality, tombstoned ones among them. -/
def matching (pending : PendingResidual) : List ℕ :=
  (pending.selection.listing pending.table.len).filter (passes pending.table.cell pending.eqs)

/-- A pending compare over a table its equalities can be asked of; the matches it keeps
are every one. -/
structure Sound (fl : FastLanes) (pending : PendingResidual) : Prop where
  table : pending.table.Sound fl
  comparable : pending.table.Comparable pending.eqs
  within : pending.selection.Within pending.table.len
  classed : pending.classes.Describes pending.eqs pending.table.cell pending.table.len
  kept : ∀ ids ∈ pending.ids, ids = pending.matching

/-- The same compare, with matches it may keep. -/
structure Keeps (fl : FastLanes) (pending kept : PendingResidual) : Prop where
  sound : kept.Sound fl
  table : kept.table = pending.table
  matching : kept.matching = pending.matching

theorem Keeps.refl (h : pending.Sound fl) : Keeps fl pending pending := ⟨h, rfl, rfl⟩

variable {M : Type*} [MaskOps M]

theorem compare_sound (h : pending.Sound fl) {deleted : Option M}
    (hdeleted : ∀ d ∈ deleted, MaskOps.len d = pending.table.len) :
    (pending.compare M deleted).Sound fl :=
  ⟨h.table, h.comparable, h.within, h.classed, hdeleted⟩

theorem liveIds_matching (ids : List RowId) (deleted : Option M) :
    liveIds ids deleted = ids.filter (live deleted) := by
  cases deleted with
  | none => exact (List.filter_eq_self.mpr fun _ _ => rfl).symm
  | some d => rfl

theorem countLive_matching (ids : List RowId) (deleted : Option M) :
    countLive ids deleted = (ids.filter (live deleted)).length := by
  cases deleted with
  | none => rw [← liveIds_matching]; rfl
  | some d => rfl

variable [LawfulMask M]

theorem materialized_spec (h : pending.Sound fl) : ∃ kept,
    pending.materialized M fl = some (pending.matching, kept) ∧ Keeps fl pending kept := by
  rw [materialized]
  cases hids : pending.ids with
  | some ids =>
    obtain rfl := h.kept ids hids
    exact ⟨pending, rfl, Keeps.refl h⟩
  | none =>
    obtain ⟨found, hfound, hlists⟩ :=
      ResidualCompare.rows_lists (@compare_sound fl pending M _ h none (by simp))
    dsimp only
    rw [hfound, Option.map_some]
    have hids : extendRows found pending.table.len = pending.matching :=
      (extendRows_eq h.table.small hlists.1).trans hlists.2
    rw [hids]
    refine ⟨_, rfl, ⟨h.table, h.comparable, h.within, h.classed, fun ids hids => ?_⟩, rfl, rfl⟩
    exact (Option.some_inj.mp hids).symm

variable {deleted : Option M}

theorem count_spec (h : pending.Sound fl)
    (hdeleted : ∀ d ∈ deleted, MaskOps.len d = pending.table.len) : ∃ kept,
    pending.count fl deleted = some ((pending.matching.filter (live deleted)).length, kept) ∧
      Keeps fl pending kept := by
  rw [count]
  split_ifs
  · rw [ResidualCompare.count_none (compare_sound h hdeleted)]
    exact ⟨pending, rfl, Keeps.refl h⟩
  · obtain ⟨kept, hkept, hkeeps⟩ := materialized_spec (M := M) h
    rw [hkept, Option.map_some, countLive_matching]
    exact ⟨kept, rfl, hkeeps⟩

theorem countCapped_spec (h : pending.Sound fl)
    (hdeleted : ∀ d ∈ deleted, MaskOps.len d = pending.table.len) (limit : ℕ) : ∃ kept,
    pending.countCapped fl limit deleted =
        some (min (pending.matching.filter (live deleted)).length limit, kept) ∧
      Keeps fl pending kept := by
  rw [countCapped]
  split_ifs
  · obtain ⟨found, hfound, hle, hends⟩ :=
      ResidualCompare.count_some (compare_sound h hdeleted) limit
    have hmin : min found limit = min (pending.matching.filter (live deleted)).length limit := by
      change found ≤ (pending.matching.filter (live deleted)).length at hle
      change found = (pending.matching.filter (live deleted)).length ∨ limit ≤ found at hends
      omega
    rw [hfound, Option.map_some, hmin]
    exact ⟨pending, rfl, Keeps.refl h⟩
  · obtain ⟨kept, hkept, hkeeps⟩ := materialized_spec (M := M) h
    rw [hkept, Option.map_some, countLive_matching]
    exact ⟨kept, rfl, hkeeps⟩

theorem window_spec (h : pending.Sound fl)
    (hdeleted : ∀ d ∈ deleted, MaskOps.len d = pending.table.len) (offset limit : ℕ) :
    ∃ known kept, pending.window fl offset limit deleted =
        some ((page offset limit (pending.matching.filter (live deleted)), known), kept) ∧
      Live.Of (pending.matching.filter (live deleted)).length known ∧ Keeps fl pending kept := by
  rw [window]
  split_ifs
  · obtain ⟨known, hwindow, hknown⟩ :=
      ResidualCompare.window_spec (compare_sound h hdeleted) offset limit
    rw [hwindow, Option.map_some]
    exact ⟨known, pending, rfl, hknown, Keeps.refl h⟩
  · obtain ⟨kept, hkept, hkeeps⟩ := materialized_spec (M := M) h
    rw [hkept, Option.map_some]
    refine ⟨.exact (pending.matching.filter (live deleted)).length, kept, ?_, rfl, hkeeps⟩
    dsimp only
    rw [liveIds_matching]
    have hsmall : (pending.matching.filter (live deleted)).length ≤ usizeMax :=
      ResidualCompare.length_liveMatching_le (compare_sound h hdeleted)
    generalize pending.matching.filter (live deleted) = rows at hsmall ⊢
    congr 3
    rw [min_saturatingAdd hsmall, page]
    split_ifs with hlt
    · rw [show min offset rows.length = offset by omega, List.take_eq_take_iff, List.length_drop]
      omega
    · rw [eq_comm, List.take_eq_nil_iff, List.drop_eq_nil_iff]
      omega

/-! ### Runs of questions -/

/-- What a view asks of a pending compare. -/
inductive Ask (M : Type*) where
  | materialized
  | lenIfKnown
  | count (deleted : Option M)
  | countCapped (limit : ℕ) (deleted : Option M)
  | window (offset limit : ℕ) (deleted : Option M)

inductive Answer where
  | rows (ids : List RowId)
  | known (len : Option ℕ)
  | number (n : ℕ)
  | window (ids : List RowId) (known : Live)

/-- The tombstones of a question are over the rows of the table. -/
def Ask.Over (len : ℕ) : Ask M → Prop
  | materialized => True
  | lenIfKnown => True
  | count deleted => ∀ d ∈ deleted, MaskOps.len d = len
  | countCapped _ deleted => ∀ d ∈ deleted, MaskOps.len d = len
  | window _ _ deleted => ∀ d ∈ deleted, MaskOps.len d = len

/-- The answer a question has over the rows that match. -/
def Ask.Expects (rows : List ℕ) : Ask M → Answer → Prop
  | materialized, .rows ids => ids = rows
  | lenIfKnown, .known len => ∀ n ∈ len, n = rows.length
  | count deleted, .number n => n = (rows.filter (live deleted)).length
  | countCapped limit deleted, .number n => n = min (rows.filter (live deleted)).length limit
  | window offset limit deleted, .window ids known =>
    ids = page offset limit (rows.filter (live deleted)) ∧
      known.Of (rows.filter (live deleted)).length
  | _, _ => False

def answer (fl : FastLanes) (pending : PendingResidual) : Ask M → Option (Answer × PendingResidual)
  | .materialized => (pending.materialized M fl).map fun kept => (.rows kept.1, kept.2)
  | .lenIfKnown => some (.known pending.lenIfKnown, pending)
  | .count deleted => (pending.count fl deleted).map fun kept => (.number kept.1, kept.2)
  | .countCapped limit deleted =>
    (pending.countCapped fl limit deleted).map fun kept => (.number kept.1, kept.2)
  | .window offset limit deleted =>
    (pending.window fl offset limit deleted).map fun kept =>
      (.window kept.1.1 kept.1.2, kept.2)

/-- Questions asked one after another of one compare, what it keeps kept. -/
def answers (fl : FastLanes) : PendingResidual → List (Ask M) → Option (List Answer)
  | _, [] => some []
  | pending, ask :: asks =>
    match answer fl pending ask with
    | none => none
    | some (first, kept) => (answers fl kept asks).map fun rest => first :: rest

theorem answer_expected (h : pending.Sound fl) {ask : Ask M} (hask : ask.Over pending.table.len) :
    ∃ first kept, pending.answer fl ask = some (first, kept) ∧ ask.Expects pending.matching first ∧
      Keeps fl pending kept := by
  cases ask with
  | materialized =>
    obtain ⟨kept, hkept, hkeeps⟩ := materialized_spec (M := M) h
    rw [answer, hkept]
    exact ⟨_, kept, rfl, rfl, hkeeps⟩
  | lenIfKnown =>
    refine ⟨_, pending, rfl, fun n hn => ?_, Keeps.refl h⟩
    obtain ⟨ids, hids, rfl⟩ := Option.map_eq_some_iff.mp hn
    rw [h.kept ids hids]
  | count deleted =>
    obtain ⟨kept, hkept, hkeeps⟩ := count_spec h hask
    rw [answer, hkept]
    exact ⟨_, kept, rfl, rfl, hkeeps⟩
  | countCapped limit deleted =>
    obtain ⟨kept, hkept, hkeeps⟩ := countCapped_spec h hask limit
    rw [answer, hkept]
    exact ⟨_, kept, rfl, rfl, hkeeps⟩
  | window offset limit deleted =>
    obtain ⟨known, kept, hkept, hknown, hkeeps⟩ := window_spec h hask offset limit
    rw [answer, hkept]
    exact ⟨_, kept, rfl, ⟨rfl, hknown⟩, hkeeps⟩

/-- Every question of a run is answered as if it were the first. -/
theorem answers_expected (h : pending.Sound fl) {asks : List (Ask M)}
    (hasks : ∀ ask ∈ asks, ask.Over pending.table.len) : ∃ answers,
    pending.answers fl asks = some answers ∧
      List.Forall₂ (fun ask first => ask.Expects pending.matching first) asks answers := by
  induction asks generalizing pending with
  | nil => exact ⟨[], rfl, .nil⟩
  | cons ask asks ih =>
    obtain ⟨hask, hrest⟩ := List.forall_mem_cons.mp hasks
    obtain ⟨first, kept, hfirst, hexpects, hkeeps⟩ := answer_expected h hask
    obtain ⟨rest, hanswers, hall⟩ := ih hkeeps.sound fun ask hmem => hkeeps.table ▸ hrest ask hmem
    rw [answers, hfirst]
    dsimp only
    rw [hanswers]
    exact ⟨_, rfl, .cons hexpects (hkeeps.matching ▸ hall)⟩

end PendingResidual

/-! A table of three rows, with predicates 1, 2 and 2. -/

namespace ResidualSample

def rowOf (p : ℕ) : ColumnName → Scalar
  | .p => .num p
  | _ => .null

def table : ResidualTable where
  columns name := if name = .p then some .code else none
  rows := [rowOf 1, rowOf 2, rowOf 2]
  probes _ := none
  component := false
  primitive _ _ := true
  resolves _ := false
  views _ := false
  nullBit _ _ := false

def predicateZones : ColumnZones where
  mins := [1]
  maxes := [2]
  recorded := none
  zoneLen := ZONE_ROWS
  rowCount := 3
  paired := rfl
  zoned := by decide
  covered := by decide

def zones : QuadZones := fun slot => if slot = .p then some predicateZones else none

def eqs : List Equality := [(.p, .num 2)]

def deleted : BitMask := ⟨[false, true, false]⟩

def compare (deleted : Option BitMask) : ResidualCompare BitMask :=
  ⟨table, .all, eqs, .pieces none, deleted⟩

theorem table_sound : table.Sound .ofZeros :=
  ⟨by decide, by simp [table], by simp [table]⟩

theorem eqs_comparable : table.Comparable eqs where
  castable := by
    intro eq heq
    rw [List.mem_singleton.mp heq]
    exact ⟨.code, rfl, rfl⟩
  nonnull := by
    intro eq heq
    rw [List.mem_singleton.mp heq]
    decide
  told := by
    intro row hrow eq heq hnull
    rw [List.mem_singleton.mp heq] at hnull
    simp only [table, List.mem_cons, List.not_mem_nil, or_false] at hrow
    rcases hrow with rfl | rfl | rfl <;> cases hnull

theorem zones_describe : zones.Describe table.cell table.len := by
  intro slot columnZones hslot
  obtain ⟨rfl, rfl⟩ : slot = .p ∧ predicateZones = columnZones := by
    simpa [zones] using hslot
  refine ⟨fun i => if i = 0 then 1 else 2, ?_, rfl, fun zone i hi => ?_, fun _ _ _ h => by cases h⟩
  · intro i hi
    have hlt : i < 3 := hi
    interval_cases i <;> rfl
  · have hzone := RowRange.mem_rows.mp hi
    have hlt : zone * 8192 ≤ i ∧ i < 3 := ⟨hzone.1, lt_of_lt_of_le hzone.2 (min_le_right _ _)⟩
    obtain rfl : zone = 0 := by omega
    have hbounds : predicateZones.zoneBounds 0 = (1, 2) := rfl
    rw [hbounds]
    dsimp only
    split_ifs <;> simp

end ResidualSample

/-! ### The filter -/

section Filter

variable {M : Type*} [MaskOps M] [LawfulMask M]

/-- **A residual is the filter of its selection**: what the zone maps settle of its
equalities holds of every row, and the equalities they leave ask the same; walked by any
classes that describe them, the compare's rows are the selection's that hold every
equality, tombstoned ones among them, its count is that of the live ones, a capped count
is the count as far as its cap and never more than it, and a window is its page of the
live ones; and a compare left pending answers any run of questions so. -/
theorem residual_isNaiveFilter (fl : FastLanes) {t : ResidualTable} (ht : t.Sound fl)
    {eqs : List Equality} (heqs : t.Comparable eqs) {s : RowSelection} (hs : s.Within t.len)
    {zones : QuadZones} (hzones : zones.Describe t.cell t.len) {deleted : Option M}
    (hdeleted : ∀ d ∈ deleted, MaskOps.len d = t.len) :
    ((askStatistics zones t.len s eqs).Holds t.cell t.len eqs ∧
      (∀ left classes, askStatistics zones t.len s eqs = .openEqs left classes →
        t.Comparable left) ∧
      (unaskedClasses zones eqs).Describes eqs t.cell t.len) ∧
    ∀ classes : Classes, classes.Describes eqs t.cell t.len →
      let rows := (s.listing t.len).filter (passes t.cell eqs)
      let liveRows := rows.filter (live deleted)
      let compare : ResidualCompare M := ⟨t, s, eqs, classes, deleted⟩
      Lists t.len (compare.rows fl) rows ∧
      compare.count fl none = some liveRows.length ∧
      (∀ limit, ∃ count, compare.count fl (some limit) = some count ∧
        count ≤ liveRows.length ∧ min count limit = min liveRows.length limit) ∧
      (∀ offset limit, ∃ known,
        compare.window fl offset limit = some (page offset limit liveRows, known) ∧
          known.Of liveRows.length) ∧
      ∀ asks : List (PendingResidual.Ask M), (∀ ask ∈ asks, ask.Over t.len) →
        ∃ answers, (⟨t, s, eqs, classes, none⟩ : PendingResidual).answers fl asks = some answers ∧
          List.Forall₂ (fun ask answer => ask.Expects rows answer) asks answers := by
  have hask := askStatistics_sound hzones t.len s eqs
  refine ⟨⟨hask, fun left classes hleft => ?_, unaskedClasses_describe hzones eqs⟩,
    fun classes hclasses => ?_⟩
  · rw [hleft] at hask
    exact heqs.subset hask.2.1 hask.2.2.1
  · have hc : ResidualCompare.Sound fl (⟨t, s, eqs, classes, deleted⟩ : ResidualCompare M) :=
      ⟨ht, heqs, hs, hclasses, hdeleted⟩
    refine ⟨ResidualCompare.rows_lists hc, ResidualCompare.count_none hc, fun limit => ?_,
      ResidualCompare.window_spec hc, fun asks hasks => ?_⟩
    · obtain ⟨count, hcount, hle, hends⟩ := ResidualCompare.count_some hc limit
      refine ⟨count, hcount, hle, ?_⟩
      rcases hends with hall | hmet
      · exact congrArg (min · limit) hall
      · exact (min_eq_right hmet).trans (min_eq_right (hmet.trans hle)).symm
    · exact PendingResidual.answers_expected ⟨ht, heqs, hs, hclasses, by simp⟩ hasks

/-- The same under the classes the sample's zone maps leave its walk. -/
theorem residual_isNaiveFilter_sample : ∃ set,
    askStatistics ResidualSample.zones 3 .all ResidualSample.eqs =
      .openEqs ResidualSample.eqs (.zoned set) ∧
    let compare : ResidualCompare BitMask :=
      ⟨ResidualSample.table, .all, ResidualSample.eqs, .zoned set, some ResidualSample.deleted⟩
    Lists 3 (compare.rows .ofZeros) [1, 2] ∧ compare.count .ofZeros none = some 1 ∧
      ∃ known, compare.window .ofZeros 0 1 = some ([2], known) := by
  obtain ⟨set, hask⟩ : ∃ set, askStatistics ResidualSample.zones 3 .all ResidualSample.eqs =
      .openEqs ResidualSample.eqs (.zoned set) := ⟨_, rfl⟩
  obtain ⟨⟨hholds, -⟩, hfilter⟩ := @residual_isNaiveFilter BitMask _ _ .ofZeros _
    ResidualSample.table_sound _ ResidualSample.eqs_comparable .all trivial _
    ResidualSample.zones_describe (some ResidualSample.deleted) (by decide)
  have hlen : ResidualSample.table.len = 3 := rfl
  rw [hlen, hask] at hholds
  obtain ⟨hrows, hcount, -, hwindow, -⟩ := hfilter _ hholds.1
  obtain ⟨known, hpage, -⟩ := hwindow 0 1
  have hlisting : (RowSelection.all.listing 3).filter
      (passes ResidualSample.table.cell ResidualSample.eqs) = [1, 2] := by
    rw [show RowSelection.all.listing 3 = [0, 1, 2] from Finset.sort_range 3]
    decide
  rw [hlen, hlisting] at hrows hcount hpage
  exact ⟨set, hask, hrows, hcount, known, hpage⟩

/-- The rows of a residual keep a tombstoned match, and a capped count may pass its cap. -/
theorem residual_keeps_tombstoned :
    (ResidualSample.compare (some ResidualSample.deleted)).rows .ofZeros = some (.ids [1, 2]) ∧
      (ResidualSample.compare (some ResidualSample.deleted)).liveMatching [0, 1, 2] = [2] ∧
      (ResidualSample.compare none).count .ofZeros none = some 2 ∧
      (ResidualSample.compare none).count .ofZeros (some 1) = some 2 := by
  decide

end Filter

end Store
