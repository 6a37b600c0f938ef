/-
The zone maps of a table's code columns, and the checks asked of them.

A column is cut into zones of one length; each zone has bounds that hold its codes
and may have a record of them with their rows.  A set of checks `x = code` on
columns of one geometry gives every zone a class.

* `ColumnZones`, `eqOnBounds`, `eqHolds` — a column's zones against a code;
* `ZoneSet.classOf`, `ZoneSet.parts`, `ZoneSet.recordedIn` — the checks of a table;
* `ColumnZones.Describes` — bounds that hold and records that are exact;
* `eqHolds_sound`, `class_spec` — what a class says of the rows of its zone;
* `Tiles`, `parts_tile` — the parts of a range lie one behind another.
-/
import VortexRdf.SelectionRows
import VortexRdf.Patterns

namespace Store

open Terms Ascending

/-! ### A column's zones -/

/-- Rows per zone of a quad child's zone maps. -/
def ZONE_ROWS : ℕ := 8192

theorem ZONE_ROWS_pos : 0 < ZONE_ROWS := Nat.zero_lt_succ 8191

/-- Each zone's recorded codes with their rows, ascending by code; `none` for a zone
that held more codes than are recorded. -/
abbrev RecordedZones := List (Option (List (ℕ × ℕ)))

structure ColumnZones where
  mins : List ℕ
  maxes : List ℕ
  recorded : Option RecordedZones
  zoneLen : ℕ
  rowCount : ℕ
  paired : maxes.length = mins.length
  zoned : 0 < zoneLen
  covered : divCeil rowCount zoneLen = mins.length

/-- How rows of bounds `min..=max` stand against `x = code`. -/
def eqOnBounds (min max code : ℕ) : Option Bool :=
  if code < min ∨ max < code then some false
  else if min = code ∧ max = code then some true
  else none

namespace ColumnZones

variable (zones : ColumnZones)

def count : ℕ := zones.mins.length

/-- The whole column's bounds, the zones' folded. -/
def columnBounds : Option (ℕ × ℕ) :=
  match zones.mins.min?, zones.maxes.max? with
  | some min, some max => some (min, max)
  | _, _ => none

def zoneBounds (zone : ℕ) : ℕ × ℕ := (zones.mins.getD zone 0, zones.maxes.getD zone 0)

def zoneRows (zone : ℕ) : RowRange :=
  ⟨zone * zones.zoneLen, min ((zone + 1) * zones.zoneLen) zones.rowCount⟩

/-- The rows of a zone holding a code, as the zone recorded them: the code is searched
among codes that ascend. -/
def recordedCount (zone code : ℕ) : Option ℕ :=
  match zones.recorded with
  | none => none
  | some records =>
    match records[zone]? with
    | some (some pairs) => some (((pairs.find? fun pair => pair.1 == code).map Prod.snd).getD 0)
    | _ => none

/-- How a zone stands against `x = code`: by its bounds, then by what it recorded. -/
def eqHolds (zone code : ℕ) : Option Bool :=
  let (min, max) := zones.zoneBounds zone
  match eqOnBounds min max code with
  | none => if zones.recordedCount zone code = some 0 then some false else none
  | held => held

/-- The zones of one column's map line up with another's. -/
def geometry : ℕ × ℕ × ℕ := (zones.zoneLen, zones.count, zones.rowCount)

end ColumnZones

/-! ### The checks of a table -/

/-- A check of `x = code` against a column's zones, named by a bit. -/
structure ZoneCheck where
  bit : ℕ
  code : ℕ
  zones : ColumnZones

inductive ZoneClass where
  | none
  | all
  /-- The bits of the checks the zone leaves to its rows. -/
  | mixed (unsettled : ℕ)
  deriving DecidableEq

/-- A zone, and rows of a range in it. -/
structure ZonePart where
  zone : ℕ
  rows : RowRange

/-- The checks of one table, of one geometry, and the bits of those no zone map
speaks for. -/
structure ZoneSet where
  first : ZoneCheck
  rest : List ZoneCheck
  unzoned : ℕ
  boundsOnly : Bool
  lined : ∀ check ∈ first :: rest, check.bit < 32 ∧
    check.zones.geometry = first.zones.geometry

namespace ZoneSet

def new (checks : List ZoneCheck) (unzoned : ℕ) : Option ZoneSet :=
  match checks with
  | [] => none
  | first :: rest =>
    if h : ∀ check ∈ first :: rest, check.bit < 32 ∧
        check.zones.geometry = first.zones.geometry then
      some ⟨first, rest, unzoned, false, h⟩
    else none

variable (set : ZoneSet)

def checks : List ZoneCheck := set.first :: set.rest

/-- The set classing by the bounds alone. -/
def byBounds : ZoneSet := { set with boundsOnly := true }

def zoneLen : ℕ := set.first.zones.zoneLen

def zoneRows (zone : ℕ) : RowRange := set.first.zones.zoneRows zone

def rowCount : ℕ := set.first.zones.rowCount

/-- The checks in order: one that rules its code out settles the zone. -/
def classLoop (zone : ℕ) : List ZoneCheck → ℕ → ZoneClass
  | [], unsettled => if unsettled = 0 then .all else .mixed unsettled
  | check :: checks, unsettled =>
    match check.zones.eqHolds zone check.code with
    | some false => .none
    | some true => classLoop zone checks unsettled
    | none => classLoop zone checks (unsettled ||| 1 <<< check.bit)

def classOf (zone : ℕ) : ZoneClass :=
  if set.boundsOnly then
    if set.checks.any fun check =>
        eqOnBounds (check.zones.zoneBounds zone).1 (check.zones.zoneBounds zone).2 check.code ==
          some false then .none
    else .mixed (set.checks.foldl (fun bits check => bits ||| 1 <<< check.bit) set.unzoned)
  else classLoop zone set.checks set.unzoned

/-- The zones a range touches, in order, each with its rows within the range. -/
def parts (rows : RowRange) : List ZonePart :=
  let rows : RowRange := ⟨rows.start, min rows.stop set.rowCount⟩
  if rows.stop ≤ rows.start then []
  else
    let start := rows.start / set.zoneLen
    let stop := (rows.stop - 1) / set.zoneLen + 1
    (List.range' start (stop - start)).map fun zone =>
      let whole := set.zoneRows zone
      ⟨zone, max whole.start rows.start, min whole.stop rows.stop⟩

/-- The recorded rows of a check's code, for a part that is its whole zone. -/
def recordedIn (bit : ℕ) (part : ZonePart) : Option ℕ :=
  if part.rows = set.zoneRows part.zone then
    match set.checks.find? fun check => check.bit == bit with
    | some check => check.zones.recordedCount part.zone check.code
    | none => none
  else none

end ZoneSet

/-- A base's quad code columns' zone maps. -/
abbrev QuadZones := QuadColumn → Option ColumnZones

def primarySlot : ColumnName → Option QuadColumn
  | .s => some .s
  | .p => some .p
  | .o => some .o
  | .g => some .g
  | _ => none

def unsignedValue : Scalar → Option ℕ
  | .num n => some n
  | _ => none

/-! ### Sound zone maps -/

/-- The zones describe a column of codes: their bounds hold, and a record counts its
zone's every code. -/
structure ColumnZones.Describes (zones : ColumnZones) (column : ℕ → ℕ) (rows : ℕ) : Prop where
  rowCount : zones.rowCount = rows
  bounds : ∀ zone i, i ∈ (zones.zoneRows zone).rows →
    (zones.zoneBounds zone).1 ≤ column i ∧ column i ≤ (zones.zoneBounds zone).2
  recorded : ∀ zone code n, zones.recordedCount zone code = some n →
    n = ((zones.zoneRows zone).toList.filter fun i => column i == code).length

variable {column : ℕ → ℕ} {rows : ℕ}

/-- What bounds settle, they settle for every code between them. -/
theorem eqOnBounds_sound {min max code v : ℕ} (hmin : min ≤ v) (hmax : v ≤ max) {held : Bool}
    (h : eqOnBounds min max code = some held) : held = decide (v = code) := by
  unfold eqOnBounds at h
  split_ifs at h with hout hsame
  · obtain rfl := Option.some_inj.mp h
    exact (decide_eq_false (by omega)).symm
  · obtain rfl := Option.some_inj.mp h
    exact (decide_eq_true (by omega)).symm

theorem eqHolds_sound {zones : ColumnZones} (h : zones.Describes column rows) {zone code : ℕ}
    {held : Bool} (hheld : zones.eqHolds zone code = some held) {i : ℕ}
    (hi : i ∈ (zones.zoneRows zone).rows) : held = decide (column i = code) := by
  obtain ⟨hmin, hmax⟩ := h.bounds zone i hi
  have hsettled : ∀ b, eqOnBounds (zones.zoneBounds zone).1 (zones.zoneBounds zone).2 code = some b →
      b = decide (column i = code) := fun b hb => eqOnBounds_sound hmin hmax hb
  unfold ColumnZones.eqHolds at hheld
  dsimp only at hheld
  generalize hbounds : eqOnBounds (zones.zoneBounds zone).1 (zones.zoneBounds zone).2 code =
    settled at hheld hsettled
  cases settled with
  | some b => exact hsettled held hheld
  | none =>
    dsimp only at hheld
    split_ifs at hheld with hzero
    obtain rfl := Option.some_inj.mp hheld
    -- a record of no rows leaves no row of the zone with the code
    have hnone := h.recorded zone code 0 hzero
    rw [eq_comm, List.length_eq_zero_iff, List.filter_eq_nil_iff] at hnone
    have hne := hnone i (RowRange.mem_toList.mpr (RowRange.mem_rows.mp hi))
    exact (decide_eq_false (by simpa using hne)).symm

/-! ### Ranges that lie one behind another -/

/-- Ranges that run from `start` to `stop`, each beginning where the last one ends. -/
def Tiles : ℕ → List RowRange → ℕ → Prop
  | start, [], stop => start = stop
  | start, run :: runs, stop => run.start = start ∧ start ≤ run.stop ∧ Tiles run.stop runs stop

theorem Tiles.le {start stop : ℕ} {runs : List RowRange} (h : Tiles start runs stop) :
    start ≤ stop := by
  induction runs generalizing start with
  | nil => exact le_of_eq h
  | cons run runs ih => exact h.2.1.trans (ih h.2.2)

theorem filter_between_append {l : List ℕ} (hl : l.SortedLT) {a b c : ℕ} (hab : a ≤ b)
    (hbc : b ≤ c) : l.filter (RowRange.contains ⟨a, b⟩) ++ l.filter (RowRange.contains ⟨b, c⟩) =
      l.filter (RowRange.contains ⟨a, c⟩) := by
  have hsorted : (l.filter (RowRange.contains ⟨a, b⟩) ++
      l.filter (RowRange.contains ⟨b, c⟩)).SortedLT := by
    refine List.Pairwise.sortedLT (List.pairwise_append.mpr
      ⟨(filter hl _).pairwise, (filter hl _).pairwise, fun i hi j hj => ?_⟩)
    simp only [List.mem_filter, RowRange.contains, Bool.and_eq_true, decide_eq_true_eq] at hi hj
    omega
  refine hsorted.eq_of_mem_iff (filter hl _) fun i => ?_
  simp only [List.mem_append, List.mem_filter, RowRange.contains, Bool.and_eq_true,
    decide_eq_true_eq, ← and_or_left, and_congr_right_iff]
  omega

theorem Tiles.flatMap_filter {start stop : ℕ} {runs : List RowRange} (h : Tiles start runs stop)
    {l : List ℕ} (hl : l.SortedLT) :
    runs.flatMap (fun run => l.filter run.contains) =
      l.filter (RowRange.contains ⟨start, stop⟩) := by
  induction runs generalizing start with
  | nil =>
    obtain rfl : start = stop := h
    rw [List.flatMap_nil, eq_comm, List.filter_eq_nil_iff]
    intro i _
    simp only [RowRange.contains, Bool.and_eq_true, decide_eq_true_eq]
    omega
  | cons run runs ih =>
    obtain ⟨hstart, hle, hrest⟩ := h
    obtain ⟨a, b⟩ := run
    obtain rfl : a = start := hstart
    rw [List.flatMap_cons, ih hrest]
    exact filter_between_append hl hle hrest.le

/-- The parts of a range run through it, each within its zone. -/
theorem parts_tile (set : ZoneSet) {r : RowRange} (hr : r.Within set.rowCount) :
    Tiles r.start ((set.parts r).map ZonePart.rows) r.stop ∧
      ∀ part ∈ set.parts r, part.rows.rows ⊆ (set.zoneRows part.zone).rows := by
  obtain ⟨start, stop⟩ := r
  obtain ⟨hle, hin⟩ := hr
  have hlen : 0 < set.zoneLen := set.first.zones.zoned
  dsimp only at hle hin
  have hstop : min stop set.rowCount = stop := min_eq_left hin
  unfold ZoneSet.parts
  dsimp only
  rw [hstop]
  split_ifs with hempty
  · exact ⟨le_antisymm hle hempty, by simp⟩
  · -- the zones from some zone on cover what is left of the range
    have htiles : ∀ count zone a, max (zone * set.zoneLen) start = a →
        a < (zone + 1) * set.zoneLen → (stop - 1) / set.zoneLen + 1 = zone + count → a ≤ stop →
        (count = 0 → a = stop) →
        Tiles a (((List.range' zone count).map fun zone =>
          (⟨zone, max (set.zoneRows zone).start start, min (set.zoneRows zone).stop stop⟩ :
            ZonePart)).map ZonePart.rows) stop := by
      intro count
      induction count with
      | zero => exact fun _ _ _ _ _ _ hdone => hdone rfl
      | succ count ih =>
        intro zone a ha hlt hcount hle' _
        have hwhole : (set.zoneRows zone).stop = min ((zone + 1) * set.zoneLen) set.rowCount := rfl
        have hnext : min (set.zoneRows zone).stop stop = min ((zone + 1) * set.zoneLen) stop := by
          rw [hwhole]
          omega
        rw [List.range'_succ, List.map_cons, List.map_cons]
        refine ⟨ha, ?_, ?_⟩
        · change a ≤ min (set.zoneRows zone).stop stop
          rw [hnext]
          omega
        · change Tiles (min (set.zoneRows zone).stop stop) _ stop
          rw [hnext]
          by_cases hlast : stop ≤ (zone + 1) * set.zoneLen
          · -- the last row lies in this zone, so none is left
            have hdiv : (stop - 1) / set.zoneLen < zone + 1 :=
              Nat.div_lt_of_lt_mul (by rw [Nat.mul_comm]; omega)
            obtain rfl : count = 0 := by omega
            rw [min_eq_right hlast]
            rfl
          · have hmax : max ((zone + 1) * set.zoneLen) start = (zone + 1) * set.zoneLen := by omega
            rw [min_eq_left (by omega)]
            refine ih (zone + 1) _ hmax ?_ (by omega) (by omega) ?_
            · rw [Nat.succ_mul (zone + 1)]
              omega
            · rintro rfl
              have hdiv : zone + 1 ≤ (stop - 1) / set.zoneLen :=
                (Nat.le_div_iff_mul_le hlen).mpr (by omega)
              omega
    have hfirst : start / set.zoneLen * set.zoneLen ≤ start := Nat.div_mul_le_self _ _
    have hdiv : start / set.zoneLen ≤ (stop - 1) / set.zoneLen := Nat.div_le_div_right (by omega)
    have hlast : start < (start / set.zoneLen + 1) * set.zoneLen := by
      rw [Nat.mul_comm]
      exact Nat.lt_mul_div_succ start hlen
    refine ⟨htiles _ _ _ (by omega) hlast (by omega) hle (by omega), ?_⟩
    intro part hpart i hi
    obtain ⟨zone, -, rfl⟩ := List.mem_map.mp hpart
    simp only [RowRange.mem_rows] at hi ⊢
    omega

/-! ### What a class says -/

def holdsCell (cell : ColumnName → ℕ → Scalar) (eq : Equality) (i : ℕ) : Bool := cell eq.1 i == eq.2

/-- A row that holds every equality. -/
def passes (cell : ColumnName → ℕ → Scalar) (eqs : List Equality) (i : ℕ) : Bool :=
  eqs.all fun eq => holdsCell cell eq i

/-- The equalities whose bits are set, in order, and those past the bits. -/
def picked (eqs : List Equality) (bits : ℕ) : List Equality :=
  (eqs.zipIdx.filter fun place => decide (32 ≤ place.2) || bits.testBit place.2).map Prod.fst

theorem mem_picked {eqs : List Equality} {bits : ℕ} {eq : Equality} :
    eq ∈ picked eqs bits ↔ ∃ i, eqs[i]? = some eq ∧ (32 ≤ i ∨ bits.testBit i = true) := by
  rw [picked, List.mem_map]
  constructor
  · rintro ⟨⟨eq', i⟩, hmem, rfl⟩
    obtain ⟨hplace, hbit⟩ := List.mem_filter.mp hmem
    refine ⟨i, List.mk_mem_zipIdx_iff_getElem?.mp hplace, ?_⟩
    simpa using hbit
  · rintro ⟨i, hplace, hbit⟩
    refine ⟨(eq, i), List.mem_filter.mpr ⟨List.mk_mem_zipIdx_iff_getElem?.mpr hplace, ?_⟩, rfl⟩
    simpa using hbit

/-- The checks of a set are those of some equalities of a table, on columns their zones
describe; every other equality is unzoned. -/
structure ZoneSet.Describes (set : ZoneSet) (eqs : List Equality) (cell : ColumnName → ℕ → Scalar)
    (rows : ℕ) : Prop where
  checked : ∀ check ∈ set.checks, ∃ field, eqs[check.bit]? = some (field, .num check.code) ∧
    primarySlot field ≠ none ∧ ∃ column, (∀ i, i < rows → cell field i = .num (column i)) ∧
      check.zones.Describes column rows
  places : ∀ bit, set.unzoned.testBit bit = true → bit < 32 ∧ bit < eqs.length
  spoken : ∀ bit, bit < eqs.length → bit < 32 →
    set.unzoned.testBit bit = true ∨ ∃ check ∈ set.checks, check.bit = bit
  few : set.boundsOnly = false → eqs.length ≤ 32

theorem testBit_shift (b i : ℕ) : (1 <<< b : ℕ).testBit i = decide (b = i) := by
  rw [Nat.one_shiftLeft, Nat.testBit_two_pow]

section

variable {set : ZoneSet} {eqs : List Equality} {cell : ColumnName → ℕ → Scalar} {zone : ℕ}

theorem classLoop_spec {checks : List ZoneCheck} {unsettled : ℕ} :
    match ZoneSet.classLoop zone checks unsettled with
    | .none => ∃ check ∈ checks, check.zones.eqHolds zone check.code = some false
    | .all => unsettled = 0 ∧ ∀ check ∈ checks, check.zones.eqHolds zone check.code = some true
    | .mixed bits => (∀ i, bits.testBit i = true ↔ unsettled.testBit i = true ∨
        ∃ check ∈ checks, check.bit = i ∧ check.zones.eqHolds zone check.code = none) ∧
        ∀ check ∈ checks, check.zones.eqHolds zone check.code ≠ some false := by
  induction checks generalizing unsettled with
  | nil =>
    rw [ZoneSet.classLoop]
    split_ifs with hzero
    · exact ⟨hzero, by simp⟩
    · simp
  | cons check checks ih =>
    rw [ZoneSet.classLoop]
    cases hheld : check.zones.eqHolds zone check.code with
    | none =>
      -- undecided: its bit stays set through the rest
      have hrest := @ih (unsettled ||| 1 <<< check.bit)
      dsimp only
      cases hclass : ZoneSet.classLoop zone checks (unsettled ||| 1 <<< check.bit) with
      | none =>
        rw [hclass] at hrest
        obtain ⟨c, hc, hfalse⟩ := hrest
        exact ⟨c, List.mem_cons_of_mem _ hc, hfalse⟩
      | all =>
        rw [hclass] at hrest
        -- a set bit leaves nothing wholly settled
        have hbit : (unsettled ||| 1 <<< check.bit).testBit check.bit = true := by
          rw [Nat.testBit_or, testBit_shift, decide_eq_true rfl, Bool.or_true]
        rw [hrest.1, Nat.zero_testBit] at hbit
        cases hbit
      | mixed bits =>
        rw [hclass] at hrest
        refine ⟨fun i => ?_, ?_⟩
        · rw [hrest.1 i, Nat.testBit_or, testBit_shift, Bool.or_eq_true, decide_eq_true_eq,
            or_assoc, List.exists_mem_cons_iff]
          simp [hheld]
        · rw [List.forall_mem_cons]
          exact ⟨by simp [hheld], hrest.2⟩
    | some held =>
      cases held with
      | false => exact ⟨check, List.mem_cons_self, hheld⟩
      | true =>
        have hrest := @ih unsettled
        dsimp only
        cases hclass : ZoneSet.classLoop zone checks unsettled with
        | none =>
          rw [hclass] at hrest
          obtain ⟨c, hc, hfalse⟩ := hrest
          exact ⟨c, List.mem_cons_of_mem _ hc, hfalse⟩
        | all =>
          rw [hclass] at hrest
          exact ⟨hrest.1, List.forall_mem_cons.mpr ⟨hheld, hrest.2⟩⟩
        | mixed bits =>
          rw [hclass] at hrest
          refine ⟨fun i => ?_, ?_⟩
          · rw [hrest.1 i, List.exists_mem_cons_iff]
            simp [hheld]
          · rw [List.forall_mem_cons]
            exact ⟨by simp [hheld], hrest.2⟩

theorem zoneRows_check {check : ZoneCheck} (hcheck : check ∈ set.checks) (zone : ℕ) :
    check.zones.zoneRows zone = set.zoneRows zone := by
  obtain ⟨-, hsame⟩ := set.lined check hcheck
  simp only [ColumnZones.geometry, Prod.mk.injEq] at hsame
  rw [ZoneSet.zoneRows, ColumnZones.zoneRows, ColumnZones.zoneRows, hsame.1, hsame.2.2]

variable {rows : ℕ}

/-- A row a check is about holds its equality as its zone says. -/
theorem check_held (h : set.Describes eqs cell rows) (hrows : set.rowCount = rows)
    {check : ZoneCheck} (hcheck : check ∈ set.checks) {i : ℕ}
    (hi : i ∈ (set.zoneRows zone).rows) :
    ∃ eq, eqs[check.bit]? = some eq ∧
      (∀ held, check.zones.eqHolds zone check.code = some held → holdsCell cell eq i = held) ∧
      ∀ held, eqOnBounds (check.zones.zoneBounds zone).1 (check.zones.zoneBounds zone).2 check.code =
        some held → holdsCell cell eq i = held := by
  obtain ⟨field, heq, -, column, hcolumn, hdescribes⟩ := h.checked check hcheck
  have hzone : i ∈ (check.zones.zoneRows zone).rows := by rwa [zoneRows_check hcheck]
  have hlt : i < rows := by
    have hmem := RowRange.mem_rows.mp hi
    have hstop : (set.zoneRows zone).stop ≤ set.rowCount := min_le_right _ _
    omega
  have hcell : holdsCell cell (field, .num check.code) i = decide (column i = check.code) := by
    rw [holdsCell, hcolumn i hlt, Bool.eq_iff_iff, beq_iff_eq, Scalar.num.injEq, decide_eq_true_iff]
  refine ⟨_, heq, fun held hheld => ?_, fun held hheld => ?_⟩
  · rw [hcell, eqHolds_sound hdescribes hheld hzone]
  · obtain ⟨hmin, hmax⟩ := hdescribes.bounds zone i hzone
    rw [hcell, eqOnBounds_sound hmin hmax hheld]

theorem not_passes {eq : Equality} (heq : eq ∈ eqs) {i : ℕ} (h : holdsCell cell eq i = false) :
    passes cell eqs i = false := by
  rw [passes, List.all_eq_false]
  exact ⟨eq, heq, by simp [h]⟩

/-- The equalities a row is left to be compared on decide it, where it holds the
rest. -/
theorem passes_picked {bits i : ℕ} (h : ∀ k eq, eqs[k]? = some eq → k < 32 →
    bits.testBit k = false → holdsCell cell eq i = true) :
    passes cell (picked eqs bits) i = passes cell eqs i := by
  rw [Bool.eq_iff_iff, passes, passes, List.all_eq_true, List.all_eq_true]
  constructor
  · intro hall eq heq
    obtain ⟨k, hk⟩ := List.getElem?_of_mem heq
    by_cases hpick : 32 ≤ k ∨ bits.testBit k = true
    · exact hall eq (mem_picked.mpr ⟨k, hk, hpick⟩)
    · exact h k eq hk (by omega) (by simpa using fun hbit => hpick (.inr hbit))
  · intro hall eq heq
    obtain ⟨k, hk, -⟩ := mem_picked.mp heq
    exact hall eq (List.mem_of_getElem? hk)

theorem testBit_foldl {checks : List ZoneCheck} {bits i : ℕ} :
    (checks.foldl (fun bits check => bits ||| 1 <<< check.bit) bits).testBit i = true ↔
      bits.testBit i = true ∨ ∃ check ∈ checks, check.bit = i := by
  induction checks generalizing bits with
  | nil => simp
  | cons check checks ih =>
    rw [List.foldl_cons, ih, Nat.testBit_or, testBit_shift, Bool.or_eq_true, decide_eq_true_eq,
      or_assoc, List.exists_mem_cons_iff]

/-- What the class of a zone says of its rows: none passes, each does, or those do that
hold the equalities left to compare, every unzoned one among them. -/
theorem class_spec (h : set.Describes eqs cell rows) (hrows : set.rowCount = rows) (zone : ℕ) :
    match set.classOf zone with
    | .none => ∀ i ∈ (set.zoneRows zone).rows, passes cell eqs i = false
    | .all => ∀ i ∈ (set.zoneRows zone).rows, passes cell eqs i = true
    | .mixed bits =>
      (∀ i ∈ (set.zoneRows zone).rows, passes cell (picked eqs bits) i = passes cell eqs i) ∧
        (∀ bit, bits.testBit bit = true → bit < 32 ∧ bit < eqs.length) ∧
        ∀ eq ∈ eqs, primarySlot eq.1 = none → eq ∈ picked eqs bits := by
  have hplace : ∀ check ∈ set.checks, check.bit < 32 ∧ check.bit < eqs.length := by
    intro check hcheck
    obtain ⟨field, heq, -⟩ := h.checked check hcheck
    exact ⟨(set.lined check hcheck).1, (List.getElem?_eq_some_iff.mp heq).1⟩
  -- an equality on a column without zones is no check's
  have hunzoned : ∀ bits, (∀ i, set.unzoned.testBit i = true → bits.testBit i = true) →
      ∀ eq ∈ eqs, primarySlot eq.1 = none → eq ∈ picked eqs bits := by
    intro bits hbits eq heq hslot
    obtain ⟨k, hk⟩ := List.getElem?_of_mem heq
    by_cases h32 : 32 ≤ k
    · exact mem_picked.mpr ⟨k, hk, .inl h32⟩
    · rcases h.spoken k (List.getElem?_eq_some_iff.mp hk).1 (by omega) with hbit | ⟨check, hcheck, rfl⟩
      · exact mem_picked.mpr ⟨k, hk, .inr (hbits k hbit)⟩
      · obtain ⟨field, heq', hsome, -⟩ := h.checked check hcheck
        rw [hk, Option.some_inj] at heq'
        rw [heq'] at hslot
        exact absurd hslot hsome
  rw [ZoneSet.classOf]
  split_ifs with hbounds hruled
  · obtain ⟨check, hcheck, hfalse⟩ := List.any_eq_true.mp hruled
    intro i hi
    obtain ⟨eq, heq, -, hheld⟩ := check_held h hrows hcheck hi
    exact not_passes (List.mem_of_getElem? heq) (hheld false (beq_iff_eq.mp hfalse))
  · refine ⟨fun i _ => passes_picked fun k eq hk h32 hbit => ?_, fun bit hbit => ?_,
      hunzoned _ fun i hi => testBit_foldl.mpr (.inl hi)⟩
    · rw [Bool.eq_false_iff, ne_eq, testBit_foldl] at hbit
      exact absurd (h.spoken k (List.getElem?_eq_some_iff.mp hk).1 h32) hbit
    · rcases testBit_foldl.mp hbit with hbit | ⟨check, hcheck, rfl⟩
      · exact h.places bit hbit
      · exact hplace check hcheck
  · have hloop := @classLoop_spec zone set.checks set.unzoned
    have hsmall := h.few (by simpa using hbounds)
    cases hclass : ZoneSet.classLoop zone set.checks set.unzoned with
    | none =>
      rw [hclass] at hloop
      obtain ⟨check, hcheck, hfalse⟩ := hloop
      intro i hi
      obtain ⟨eq, heq, hheld, -⟩ := check_held h hrows hcheck hi
      exact not_passes (List.mem_of_getElem? heq) (hheld false hfalse)
    | all =>
      rw [hclass] at hloop
      obtain ⟨hzero, htrue⟩ := hloop
      intro i hi
      rw [passes, List.all_eq_true]
      intro eq heq
      obtain ⟨k, hk⟩ := List.getElem?_of_mem heq
      have hlt := (List.getElem?_eq_some_iff.mp hk).1
      rcases h.spoken k hlt (by omega) with hbit | ⟨check, hcheck, rfl⟩
      · rw [hzero, Nat.zero_testBit] at hbit
        cases hbit
      · obtain ⟨eq', heq', hheld, -⟩ := check_held h hrows hcheck hi
        rw [hk, Option.some_inj] at heq'
        rw [heq', hheld true (htrue check hcheck)]
    | mixed bits =>
      rw [hclass] at hloop
      obtain ⟨hbits, hnot⟩ := hloop
      refine ⟨fun i hi => passes_picked fun k eq hk h32 hbit => ?_, fun bit hbit => ?_,
        hunzoned _ fun i hi => (hbits i).mpr (.inl hi)⟩
      · have hlt := (List.getElem?_eq_some_iff.mp hk).1
        rcases h.spoken k hlt h32 with hset | ⟨check, hcheck, rfl⟩
        · rw [(hbits k).mpr (.inl hset)] at hbit
          cases hbit
        · obtain ⟨eq', heq', hheld, -⟩ := check_held h hrows hcheck hi
          rw [hk, Option.some_inj] at heq'
          rw [heq']
          -- the zone neither rules the code out nor leaves it open
          cases heqHolds : check.zones.eqHolds zone check.code with
          | none =>
            rw [(hbits check.bit).mpr (.inr ⟨check, hcheck, rfl, heqHolds⟩)] at hbit
            cases hbit
          | some held =>
            cases held with
            | false => exact absurd heqHolds (hnot check hcheck)
            | true => exact hheld true heqHolds
      · rcases (hbits bit).mp hbit with hset | ⟨check, hcheck, rfl, -⟩
        · exact h.places bit hset
        · exact hplace check hcheck

/-- A recorded zone holds as many rows of its check's equality as it says. -/
theorem recordedIn_spec (h : set.Describes eqs cell rows) (hrows : set.rowCount = rows)
    {bit n : ℕ} (hn : set.recordedIn bit ⟨zone, set.zoneRows zone⟩ = some n) {eq : Equality}
    (heq : eqs[bit]? = some eq) :
    n = ((set.zoneRows zone).toList.filter (holdsCell cell eq)).length := by
  rw [ZoneSet.recordedIn, if_pos rfl] at hn
  cases hfind : set.checks.find? fun check => check.bit == bit with
  | none =>
    rw [hfind] at hn
    cases hn
  | some check =>
    rw [hfind] at hn
    have hcheck := List.mem_of_find?_eq_some hfind
    have hbit : check.bit = bit := by
      have hmatch := List.find?_some hfind
      simpa using hmatch
    obtain ⟨field, heq', -, column, hcolumn, hdescribes⟩ := h.checked check hcheck
    rw [hbit, heq, Option.some_inj] at heq'
    subst heq'
    rw [hdescribes.recorded zone check.code n hn, zoneRows_check hcheck]
    congr 1
    refine List.filter_congr fun i hi => ?_
    have hmem := RowRange.mem_toList.mp hi
    have hstop : (set.zoneRows zone).stop ≤ set.rowCount := min_le_right _ _
    rw [holdsCell, hcolumn i (by omega), Bool.eq_iff_iff, beq_iff_eq, beq_iff_eq, Scalar.num.injEq]

end

end Store
