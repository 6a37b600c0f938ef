/-
A column's zone map gathered in row order, as its codes arrive in slices.

The builder folds in runs that end within the zone being filled; a zone is closed when
it is full, the last one at the end.

* `ZoneBuilder`, `push`, `finish` — the builder and its steps;
* `ZoneBuilder.feed` — the pass over a column's slices, each cut where a zone ends;
* `zoneOf`, `wholeZones`, `openZone` — the zones of a column's codes, taken directly;
* `ZoneBuilder.Seen`, `push_seen`, `feed_seen` — what the builder holds of the codes
  seen;
* `zoneBuilder_isPerZone` — the zone map is that of the zones, however the codes came.
-/
import VortexRdf.TermChunks
import VortexRdf.ValueCounts
import VortexRdf.ZoneMaps

namespace Store

open Terms Ascending Tallies
open Dictionary (TERM_CODE_MAX)

namespace ColumnZones

def fromBounds (mins maxes : List ℕ) (zoneLen rowCount : ℕ) : Except VortexRdfError ColumnZones :=
  if h : maxes.length = mins.length ∧ 0 < zoneLen ∧ divCeil rowCount zoneLen = mins.length then
    .ok ⟨mins, maxes, none, zoneLen, rowCount, h.1, h.2.1, h.2.2⟩
  else
    .error (.invalidInput [.text (toString mins.length ++ " minimums and " ++
      toString maxes.length ++ " maximums for " ++ toString rowCount ++ " rows in zones of " ++
      toString zoneLen)])

def withRecords (zones : ColumnZones) (records : RecordedZones) : Except VortexRdfError ColumnZones :=
  if records.length = zones.count then .ok { zones with recorded := some records }
  else
    .error (.invalidInput [.text (toString records.length ++ " recorded zones for " ++
      toString zones.count ++ " zone bounds")])

theorem withRecords_eq {zones : ColumnZones} {records : RecordedZones}
    (h : records.length = zones.count) :
    zones.withRecords records = .ok { zones with recorded := some records } := if_pos h

end ColumnZones

structure ZoneBuilder where
  mins : List ℕ
  maxes : List ℕ
  lo : ℕ
  hi : ℕ
  /-- Rows in the zone being filled. -/
  filled : ℕ
  /-- Rows seen in all. -/
  rows : ℕ
  /-- The closed zones' recorded values, and the counts of the zone being filled. -/
  records : Option (RecordedZones × Counts)

namespace ZoneBuilder

def new : ZoneBuilder := ⟨[], [], TERM_CODE_MAX, 0, 0, 0, none⟩

def recording : ZoneBuilder := { new with records := some ([], Counts.new) }

variable (builder : ZoneBuilder)

/-- How many rows the zone being filled still takes. -/
def room : ℕ := ZONE_ROWS - builder.filled

def close : ZoneBuilder :=
  { builder with
    mins := builder.mins ++ [builder.lo]
    maxes := builder.maxes ++ [builder.hi]
    records := builder.records.map fun (zones, counts) => (zones ++ [counts.recorded], Counts.new)
    lo := TERM_CODE_MAX
    hi := 0
    filled := 0 }

/-- The codes of a run, folded into the zone being filled. -/
def folded (part : List ℕ) (lo hi : ℕ) : ZoneBuilder :=
  { builder with
    records := builder.records.map fun (zones, counts) => (zones, counts.addAll part MAX_VALUES)
    lo := min builder.lo lo
    hi := max builder.hi hi
    filled := builder.filled + part.length
    rows := builder.rows + part.length }

def push (part : List ℕ) (lo hi : ℕ) : ZoneBuilder :=
  if part.isEmpty then builder
  else
    let folded := builder.folded part lo hi
    if folded.filled = ZONE_ROWS then folded.close else folded

def finish (rows : ℕ) : Except VortexRdfError (Option ColumnZones) :=
  if builder.rows ≠ rows ∨ rows = 0 then .ok none
  else
    let closed := if 0 < builder.filled then builder.close else builder
    match ColumnZones.fromBounds closed.mins closed.maxes ZONE_ROWS rows with
    | .error error => .error error
    | .ok zones =>
      match closed.records with
      | some (records, _) => (zones.withRecords records).map some
      | none => .ok (some zones)

end ZoneBuilder

/-- The smallest code of a run, from the largest there is. -/
def loOf (part : List ℕ) : ℕ := part.foldl min TERM_CODE_MAX

def hiOf (part : List ℕ) : ℕ := part.foldl max 0

namespace ZoneBuilder

/-- A slice folded in, each run up to the end of the zone being filled. -/
def feedLoop : ℕ → List ℕ → ZoneBuilder → ZoneBuilder
  | 0, _, builder => builder
  | fuel + 1, rest, builder =>
    if rest.isEmpty then builder
    else
      let run := min builder.room rest.length
      let part := rest.take run
      feedLoop fuel (rest.drop run) (builder.push part (loOf part) (hiOf part))

/-- A column's slices folded in, one after another. -/
def feed (builder : ZoneBuilder) (slices : List (List ℕ)) : ZoneBuilder :=
  slices.foldl (fun builder slice => builder.feedLoop slice.length slice) builder

end ZoneBuilder

/-! ### Zones of a column -/

/-- The codes of a zone. -/
def zoneOf (codes : List ℕ) (zone : ℕ) : List ℕ := (codes.drop (zone * ZONE_ROWS)).take ZONE_ROWS

def wholeZones (codes : List ℕ) : List (List ℕ) :=
  (List.range (codes.length / ZONE_ROWS)).map (zoneOf codes)

/-- The codes past the last whole zone. -/
def openZone (codes : List ℕ) : List ℕ := codes.drop (codes.length / ZONE_ROWS * ZONE_ROWS)

/-- A column's zones, the last as short as the rows left. -/
def zonesOf (codes : List ℕ) : List (List ℕ) :=
  (List.range (divCeil codes.length ZONE_ROWS)).map (zoneOf codes)

section Zones

variable {codes part : List ℕ}

theorem length_openZone (codes : List ℕ) : (openZone codes).length = codes.length % ZONE_ROWS := by
  rw [openZone, List.length_drop, ZONE_ROWS]
  omega

/-- The zones that are whole already do not change. -/
theorem zoneOf_append {zone : ℕ} (h : (zone + 1) * ZONE_ROWS ≤ codes.length) :
    zoneOf (codes ++ part) zone = zoneOf codes zone := by
  rw [Nat.succ_mul] at h
  rw [zoneOf, zoneOf, List.drop_append_of_le_length (by omega),
    List.take_append_of_le_length (by rw [List.length_drop]; omega)]

/-- A part that leaves the zone open extends it. -/
theorem zones_extend (h : codes.length % ZONE_ROWS + part.length < ZONE_ROWS) :
    wholeZones (codes ++ part) = wholeZones codes ∧
      openZone (codes ++ part) = openZone codes ++ part := by
  have hdiv : (codes ++ part).length / ZONE_ROWS = codes.length / ZONE_ROWS := by
    rw [List.length_append, ZONE_ROWS] at *
    omega
  have hle : codes.length / ZONE_ROWS * ZONE_ROWS ≤ codes.length := Nat.div_mul_le_self _ _
  constructor
  · rw [wholeZones, wholeZones, hdiv]
    refine List.map_congr_left fun zone hzone => zoneOf_append ?_
    exact (Nat.mul_le_mul_right _ (List.mem_range.mp hzone)).trans hle
  · rw [openZone, openZone, hdiv, List.drop_append_of_le_length hle]

/-- A part that fills the zone makes it whole. -/
theorem zones_fill (h : codes.length % ZONE_ROWS + part.length = ZONE_ROWS) :
    wholeZones (codes ++ part) = wholeZones codes ++ [openZone codes ++ part] ∧
      openZone (codes ++ part) = [] := by
  have hdiv : (codes ++ part).length / ZONE_ROWS = codes.length / ZONE_ROWS + 1 := by
    rw [List.length_append, ZONE_ROWS] at *
    omega
  have hlen : (codes ++ part).length = (codes.length / ZONE_ROWS + 1) * ZONE_ROWS := by
    rw [List.length_append, ZONE_ROWS] at *
    omega
  have hle : codes.length / ZONE_ROWS * ZONE_ROWS ≤ codes.length := Nat.div_mul_le_self _ _
  constructor
  · rw [wholeZones, wholeZones, hdiv, List.range_succ, List.map_append, List.map_singleton]
    congr 1
    · refine List.map_congr_left fun zone hzone => zoneOf_append ?_
      exact (Nat.mul_le_mul_right _ (List.mem_range.mp hzone)).trans hle
    · rw [zoneOf, List.drop_append_of_le_length hle, ← openZone, List.take_of_length_le]
      rw [List.length_append, length_openZone]
      omega
  · rw [openZone, hdiv, ← hlen, List.drop_length]

theorem zonesOf_eq (codes : List ℕ) : zonesOf codes =
    if openZone codes = [] then wholeZones codes else wholeZones codes ++ [openZone codes] := by
  have hopen : openZone codes = [] ↔ codes.length % ZONE_ROWS = 0 := by
    rw [← List.length_eq_zero_iff, length_openZone]
  by_cases hnone : codes.length % ZONE_ROWS = 0
  · have hcount : divCeil codes.length ZONE_ROWS = codes.length / ZONE_ROWS := by
      rw [divCeil, ZONE_ROWS] at *
      omega
    rw [if_pos (hopen.mpr hnone), zonesOf, hcount, wholeZones]
  · have hcount : divCeil codes.length ZONE_ROWS = codes.length / ZONE_ROWS + 1 := by
      rw [divCeil, ZONE_ROWS] at *
      omega
    rw [if_neg (mt hopen.mp hnone), zonesOf, hcount, List.range_succ, List.map_append,
      List.map_singleton, wholeZones, zoneOf, ← openZone, List.take_of_length_le]
    rw [length_openZone, ZONE_ROWS]
    omega

end Zones

/-! ### Bounds -/

theorem loOf_le (part : List ℕ) : loOf part ≤ TERM_CODE_MAX := by
  rw [loOf]
  generalize TERM_CODE_MAX = most
  induction part generalizing most with
  | nil => exact le_rfl
  | cons code part ih => exact (ih (min most code)).trans (min_le_left _ _)

theorem loOf_append (part part' : List ℕ) : loOf (part ++ part') = min (loOf part) (loOf part') := by
  have hinit : loOf (part ++ part') = part'.foldl min (min (loOf part) TERM_CODE_MAX) := by
    rw [min_eq_left (loOf_le part), loOf, List.foldl_append]
    rfl
  rw [hinit, List.foldl_assoc]
  rfl

theorem hiOf_append (part part' : List ℕ) : hiOf (part ++ part') = max (hiOf part) (hiOf part') := by
  have hinit : hiOf (part ++ part') = part'.foldl max (max (hiOf part) 0) := by
    rw [Nat.max_zero, hiOf, List.foldl_append]
    rfl
  rw [hinit, List.foldl_assoc]
  rfl

theorem min?_eq_loOf {zone : List ℕ} (hne : zone ≠ []) (h : ∀ code ∈ zone, code ≤ TERM_CODE_MAX) :
    zone.min? = some (loOf zone) := by
  cases zone with
  | nil => exact absurd rfl hne
  | cons code zone =>
    rw [List.min?_cons', loOf, List.foldl_cons, min_eq_right (h code List.mem_cons_self)]

theorem max?_eq_hiOf {zone : List ℕ} (hne : zone ≠ []) : zone.max? = some (hiOf zone) := by
  cases zone with
  | nil => exact absurd rfl hne
  | cons code zone => rw [List.max?_cons', hiOf, List.foldl_cons, Nat.zero_max]

/-! ### What the builder holds -/

namespace ZoneBuilder

/-- The builder between two zones' ends: so many rows seen, some zones whole, and the codes
of the one being filled. -/
structure Holds (recorded : Bool) (seen : ℕ) (whole : List (List ℕ)) (zone : List ℕ)
    (builder : ZoneBuilder) : Prop where
  rows : builder.rows = seen
  filled : builder.filled = zone.length
  mins : builder.mins = whole.map loOf
  maxes : builder.maxes = whole.map hiOf
  lo : builder.lo = loOf zone
  hi : builder.hi = hiOf zone
  records : if recorded then ∃ counts : Counts, counts.Exact MAX_VALUES zone.count ∧
      builder.records = some (whole.map (recordOf MAX_VALUES), counts)
    else builder.records = none

/-- The builder after some codes. -/
def Seen (recorded : Bool) (codes : List ℕ) (builder : ZoneBuilder) : Prop :=
  builder.Holds recorded codes.length (wholeZones codes) (openZone codes)

def start (recorded : Bool) : ZoneBuilder := if recorded then recording else new

theorem start_seen (recorded : Bool) : (start recorded).Seen recorded [] where
  rows := by cases recorded <;> rfl
  filled := by cases recorded <;> rfl
  mins := by cases recorded <;> rfl
  maxes := by cases recorded <;> rfl
  lo := by cases recorded <;> rfl
  hi := by cases recorded <;> rfl
  records := by
    cases recorded with
    | false => rfl
    | true => exact ⟨Counts.new, new_exact MAX_VALUES, rfl⟩

variable {builder : ZoneBuilder} {recorded : Bool} {seen : ℕ} {whole : List (List ℕ)}
  {zone codes part : List ℕ}

theorem Holds.folded (h : builder.Holds recorded seen whole zone)
    (hfit : zone.length + part.length ≤ ZONE_ROWS) :
    (builder.folded part (loOf part) (hiOf part)).Holds recorded (seen + part.length) whole
      (zone ++ part) where
  rows := congrArg (· + part.length) h.rows
  filled := by
    rw [List.length_append, ← h.filled]
    rfl
  mins := h.mins
  maxes := h.maxes
  lo := by
    rw [loOf_append, ← h.lo]
    rfl
  hi := by
    rw [hiOf_append, ← h.hi]
    rfl
  records := by
    have hrecords := h.records
    cases recorded with
    | false =>
      show Option.map _ builder.records = none
      rw [show builder.records = none from hrecords]
      rfl
    | true =>
      obtain ⟨counts, hexact, heq⟩ := hrecords
      have hcount : (fun v => zone.count v + part.count v) = (zone ++ part).count := by
        funext v
        exact List.count_append.symm
      have hnext := @addAll_exact MAX_VALUES zone.count counts part hexact fun v => by
        have hzone := List.count_le_length (a := v) (l := zone)
        have hpart := List.count_le_length (a := v) (l := part)
        rw [ZONE_ROWS] at hfit
        omega
      refine ⟨counts.addAll part MAX_VALUES, hcount ▸ hnext, ?_⟩
      show Option.map _ builder.records = _
      rw [heq]
      rfl

theorem Holds.close (h : builder.Holds recorded seen whole zone) :
    builder.close.Holds recorded seen (whole ++ [zone]) [] where
  rows := h.rows
  filled := rfl
  mins := by
    rw [List.map_append, List.map_singleton, ← h.mins, ← h.lo]
    rfl
  maxes := by
    rw [List.map_append, List.map_singleton, ← h.maxes, ← h.hi]
    rfl
  lo := rfl
  hi := rfl
  records := by
    have hrecords := h.records
    cases recorded with
    | false =>
      show Option.map _ builder.records = none
      rw [show builder.records = none from hrecords]
      rfl
    | true =>
      obtain ⟨counts, hexact, heq⟩ := hrecords
      refine ⟨Counts.new, new_exact MAX_VALUES, ?_⟩
      show Option.map _ builder.records = _
      rw [heq, List.map_append, List.map_singleton, ← recorded_exact hexact]
      rfl

theorem Seen.filled_eq (h : builder.Seen recorded codes) :
    builder.filled = codes.length % ZONE_ROWS := by
  rw [h.filled, length_openZone]

/-- A run within its zone is seen after the codes before it. -/
theorem push_seen (h : builder.Seen recorded codes) (hroom : part.length ≤ builder.room) :
    (builder.push part (loOf part) (hiOf part)).Seen recorded (codes ++ part) := by
  have hmod : codes.length % ZONE_ROWS < ZONE_ROWS := Nat.mod_lt _ ZONE_ROWS_pos
  rw [room, h.filled_eq] at hroom
  have hfit : codes.length % ZONE_ROWS + part.length ≤ ZONE_ROWS := by omega
  have hfolded : (builder.folded part (loOf part) (hiOf part)).Holds recorded
      (codes.length + part.length) (wholeZones codes) (openZone codes ++ part) :=
    Holds.folded h (by rwa [length_openZone])
  have hfilled : (builder.folded part (loOf part) (hiOf part)).filled =
      codes.length % ZONE_ROWS + part.length := by
    rw [hfolded.filled, List.length_append, length_openZone]
  simp only [push, hfilled, Seen, List.length_append]
  split_ifs with hempty hfull
  · obtain rfl : part = [] := List.isEmpty_iff.mp hempty
    rwa [List.append_nil]
  · obtain ⟨hwhole, hopen⟩ := zones_fill hfull
    rw [hwhole, hopen]
    exact hfolded.close
  · obtain ⟨hwhole, hopen⟩ := zones_extend (lt_of_le_of_ne hfit hfull)
    rw [hwhole, hopen]
    exact hfolded

theorem feedLoop_seen {fuel : ℕ} {rest : List ℕ} (hfuel : rest.length ≤ fuel)
    (h : builder.Seen recorded codes) : (builder.feedLoop fuel rest).Seen recorded (codes ++ rest) := by
  induction fuel generalizing rest codes builder with
  | zero =>
    obtain rfl : rest = [] := List.length_eq_zero_iff.mp (Nat.le_zero.mp hfuel)
    rwa [List.append_nil]
  | succ fuel ih =>
    rw [feedLoop]
    split_ifs with hempty
    · obtain rfl : rest = [] := List.isEmpty_iff.mp hempty
      rwa [List.append_nil]
    · have hpos : 0 < rest.length := List.length_pos_iff.mpr (by simpa using hempty)
      have hroom : 0 < builder.room := by
        rw [room, h.filled_eq]
        exact Nat.sub_pos_of_lt (Nat.mod_lt _ (by decide))
      obtain ⟨run, hrun⟩ : ∃ run, run = min builder.room rest.length := ⟨_, rfl⟩
      have hpart : (rest.take run).length ≤ builder.room := by
        rw [List.length_take]
        omega
      have hleft : (rest.drop run).length ≤ fuel := by
        rw [List.length_drop]
        omega
      have hnext := ih hleft (push_seen h hpart)
      rw [List.append_assoc, List.take_append_drop] at hnext
      simp only [← hrun]
      exact hnext

/-- The slices' codes are seen in order, however they are cut. -/
theorem feed_seen (h : builder.Seen recorded codes) (slices : List (List ℕ)) :
    (builder.feed slices).Seen recorded (codes ++ slices.flatten) := by
  rw [feed]
  induction slices generalizing builder codes with
  | nil => rwa [List.flatten_nil, List.append_nil]
  | cons slice slices ih =>
    have hnext := ih (feedLoop_seen (le_refl slice.length) h)
    rwa [List.append_assoc, ← List.flatten_cons] at hnext

/-- The last zone closed, if it was open. -/
theorem Seen.closed (h : builder.Seen recorded codes) :
    (if 0 < builder.filled then builder.close else builder).Holds recorded codes.length
      (zonesOf codes) [] := by
  have hfilled := h.filled
  rw [zonesOf_eq]
  by_cases hopen : openZone codes = []
  · have hzero : ¬ 0 < builder.filled := by rw [hfilled, hopen, List.length_nil]; omega
    have hholds : builder.Holds recorded codes.length (wholeZones codes) (openZone codes) := h
    rw [if_neg hzero, if_pos hopen]
    rwa [hopen] at hholds
  · have hpos : 0 < builder.filled := by
      rw [hfilled]
      exact List.length_pos_iff.mpr hopen
    rw [if_pos hpos, if_neg hopen]
    exact Holds.close h

end ZoneBuilder

theorem length_zonesOf (codes : List ℕ) :
    (zonesOf codes).length = divCeil codes.length ZONE_ROWS := by
  rw [zonesOf, List.length_map, List.length_range]

theorem zone_mem {codes zone : List ℕ} (h : zone ∈ zonesOf codes) :
    zone ≠ [] ∧ ∀ code ∈ zone, code ∈ codes := by
  obtain ⟨z, hz, rfl⟩ := List.mem_map.mp h
  rw [List.mem_range, divCeil, ZONE_ROWS] at hz
  constructor
  · rw [← List.length_pos_iff, zoneOf, List.length_take, List.length_drop, ZONE_ROWS]
    omega
  · intro code hcode
    exact List.mem_of_mem_drop (List.mem_of_mem_take hcode)

/-- A builder that has seen the whole column gives its zones. -/
theorem finish_seen {builder : ZoneBuilder} {recorded : Bool} {codes : List ℕ}
    (h : builder.Seen recorded codes) (hne : codes ≠ []) :
    ∃ zones, builder.finish codes.length = .ok (some zones) ∧
      zones.zoneLen = ZONE_ROWS ∧ zones.rowCount = codes.length ∧
      zones.mins = (zonesOf codes).map loOf ∧ zones.maxes = (zonesOf codes).map hiOf ∧
      zones.recorded =
        if recorded then some ((zonesOf codes).map (recordOf MAX_VALUES)) else none := by
  have hlen : codes.length ≠ 0 := fun hzero => hne (List.length_eq_zero_iff.mp hzero)
  have hclosed := h.closed
  obtain ⟨closed, hcloseds⟩ : ∃ closed, closed =
    if 0 < builder.filled then builder.close else builder := ⟨_, rfl⟩
  rw [← hcloseds] at hclosed
  have hbounds : closed.maxes.length = closed.mins.length ∧ 0 < ZONE_ROWS ∧
      divCeil codes.length ZONE_ROWS = closed.mins.length := by
    rw [hclosed.mins, hclosed.maxes, List.length_map, List.length_map, length_zonesOf]
    exact ⟨rfl, by decide, rfl⟩
  have hseen : ¬ (builder.rows ≠ codes.length ∨ codes.length = 0) := by
    rintro (hrows | hzero)
    · exact hrows h.rows
    · exact hlen hzero
  rw [ZoneBuilder.finish, if_neg hseen]
  simp only [← hcloseds, ColumnZones.fromBounds, dif_pos hbounds]
  have hrecords := hclosed.records
  cases recorded with
  | false =>
    rw [show closed.records = none from hrecords]
    exact ⟨_, rfl, rfl, rfl, hclosed.mins, hclosed.maxes, rfl⟩
  | true =>
    obtain ⟨counts, -, heq⟩ := hrecords
    rw [heq]
    refine ⟨⟨closed.mins, closed.maxes, some ((zonesOf codes).map (recordOf MAX_VALUES)), ZONE_ROWS,
      codes.length, hbounds.1, hbounds.2.1, hbounds.2.2⟩, ?_, rfl, rfl, hclosed.mins, hclosed.maxes,
      rfl⟩
    have hzones : ((zonesOf codes).map (recordOf MAX_VALUES)).length = closed.mins.length := by
      rw [hclosed.mins, List.length_map, List.length_map]
    show Except.map some (ColumnZones.withRecords _ _) = _
    rw [ColumnZones.withRecords_eq hzones]
    rfl

/-- **Zone statistics do not depend on how rows arrive.** Fed the slices of a column, cut
anywhere, the builder gives each consecutive zone of its codes the smallest, the largest and,
where it records, the value counts of its own codes, the last zone being the codes left; it
gives nothing for a column of no rows or one seen only in part. -/
theorem zoneBuilder_isPerZone (recorded : Bool) {slices : List (List ℕ)}
    (hcodes : ∀ code ∈ slices.flatten, code ≤ TERM_CODE_MAX) :
    (slices.flatten ≠ [] → ∃ zones,
      ((ZoneBuilder.start recorded).feed slices).finish slices.flatten.length = .ok (some zones) ∧
      zones.zoneLen = ZONE_ROWS ∧ zones.rowCount = slices.flatten.length ∧
      zones.mins.map some = (zonesOf slices.flatten).map List.min? ∧
      zones.maxes.map some = (zonesOf slices.flatten).map List.max? ∧
      zones.recorded =
        if recorded then some ((zonesOf slices.flatten).map (recordOf MAX_VALUES)) else none) ∧
    ∀ rows, rows ≠ slices.flatten.length ∨ rows = 0 →
      ((ZoneBuilder.start recorded).feed slices).finish rows = .ok none := by
  have hseen : ((ZoneBuilder.start recorded).feed slices).Seen recorded slices.flatten :=
    ZoneBuilder.feed_seen (ZoneBuilder.start_seen recorded) slices
  refine ⟨fun hne => ?_, fun rows hrows => ?_⟩
  · obtain ⟨zones, hfinish, hzoneLen, hrowCount, hmins, hmaxes, hrecorded⟩ := finish_seen hseen hne
    refine ⟨zones, hfinish, hzoneLen, hrowCount, ?_, ?_, hrecorded⟩
    · rw [hmins, List.map_map]
      refine List.map_congr_left fun zone hzone => ?_
      obtain ⟨hsome, hsub⟩ := zone_mem hzone
      exact (min?_eq_loOf hsome fun code hcode => hcodes code (hsub code hcode)).symm
    · rw [hmaxes, List.map_map]
      refine List.map_congr_left fun zone hzone => ?_
      exact (max?_eq_hiOf (zone_mem hzone).1).symm
  · have hnone : ((ZoneBuilder.start recorded).feed slices).rows ≠ rows ∨ rows = 0 := by
      rw [hseen.rows]
      exact hrows.imp Ne.symm id
    rw [ZoneBuilder.finish, if_pos hnone]

theorem zoneBuilder_isPerZone_sample : ∃ zones,
    ((ZoneBuilder.start true).feed [[5, 3], [], [9]]).finish 3 = .ok (some zones) ∧
      zones.mins = [3] ∧ zones.maxes = [9] := by
  have hcodes : ∀ code ∈ [[5, 3], [], [9]].flatten, code ≤ TERM_CODE_MAX := by decide
  obtain ⟨hwhole, -⟩ := zoneBuilder_isPerZone true hcodes
  obtain ⟨zones, hfinish, -, -, hmins, hmaxes, -⟩ := hwhole (by decide)
  refine ⟨zones, hfinish, List.map_injective_iff.mpr (Option.some_injective ℕ) ?_,
    List.map_injective_iff.mpr (Option.some_injective ℕ) ?_⟩
  · rw [hmins]
    rfl
  · rw [hmaxes]
    rfl

end Store
