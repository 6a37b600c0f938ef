/-
What the zones of a table answer about its rows.

The checks of a zone set test one column each; a bit no zone map speaks for stands for
some other test of a row.  The zones a range touches cut it into parts, and a zone's class
says which of its rows pass every test, or which tests are left to compare.

* `ZoneSet.Passes`, `ZoneSet.PassesOf` — a row that passes every test, or those named;
* `parts_clip` — the parts of any range run through what it shares with the table;
* `zoneClasses_sound` — classes, parts and records say what the rows do.
-/
import VortexRdf.ZoneMaps

namespace Store

open Terms Ascending

namespace ZoneSet

variable (set : ZoneSet) (column : ZoneCheck → ℕ → ℕ) (other : ℕ → ℕ → Bool)

/-- A row that passes every test: each check's, on the column it reads, and those no zone
map speaks for. -/
def Passes (i : ℕ) : Prop :=
  (∀ check ∈ set.checks, column check i = check.code) ∧
    ∀ bit, set.unzoned.testBit bit = true → other bit i = true

/-- A row that passes the tests some bits name. -/
def PassesOf (bits i : ℕ) : Prop :=
  (∀ check ∈ set.checks, bits.testBit check.bit = true → column check i = check.code) ∧
    ∀ bit, set.unzoned.testBit bit = true → bits.testBit bit = true → other bit i = true

/-- What the class of a zone says of some rows. -/
def Says (rows : Set ℕ) : ZoneClass → Prop
  | .none => ∀ i ∈ rows, ¬ set.Passes column other i
  | .all => ∀ i ∈ rows, set.Passes column other i
  | .mixed unsettled => ∀ i ∈ rows, set.Passes column other i ↔ set.PassesOf column other unsettled i

end ZoneSet

/-- A range is cut as what it shares with the table is. -/
theorem parts_clip (set : ZoneSet) (r : RowRange) :
    Tiles r.start ((set.parts r).map ZonePart.rows) (max r.start (min r.stop set.rowCount)) ∧
      ∀ part ∈ set.parts r, part.rows.rows ⊆ (set.zoneRows part.zone).rows := by
  have hclip : set.parts r = set.parts ⟨r.start, min r.stop set.rowCount⟩ := by
    rw [ZoneSet.parts, ZoneSet.parts, min_assoc, min_self]
  rw [hclip]
  by_cases hempty : min r.stop set.rowCount ≤ r.start
  · rw [ZoneSet.parts]
    dsimp only
    rw [if_pos (by omega), max_eq_left hempty]
    exact ⟨rfl, fun part hpart => absurd hpart List.not_mem_nil⟩
  · rw [max_eq_right (by omega)]
    exact @parts_tile set ⟨r.start, min r.stop set.rowCount⟩
      ⟨Nat.le_of_not_le hempty, min_le_right _ _⟩

section Classes

variable {set : ZoneSet} {column : ZoneCheck → ℕ → ℕ} {other : ℕ → ℕ → Bool} {rows : ℕ}

/-- A check that rules its code out leaves no row passing, one that holds it throughout
leaves the others to say. -/
theorem zoneClass_means (h : ∀ check ∈ set.checks, check.zones.Describes (column check) rows)
    (zone : ℕ) : set.Says column other (set.zoneRows zone).rows (set.classOf zone) := by
  have hheld : ∀ check ∈ set.checks, ∀ held, check.zones.eqHolds zone check.code = some held →
      ∀ i ∈ (set.zoneRows zone).rows, held = decide (column check i = check.code) := by
    intro check hcheck held hheld i hi
    refine eqHolds_sound (h check hcheck) hheld ?_
    rwa [zoneRows_check hcheck]
  rw [ZoneSet.classOf]
  split_ifs with hbounds hruled
  · obtain ⟨check, hcheck, hout⟩ := List.any_eq_true.mp hruled
    intro i hi hpasses
    have hi' : i ∈ (check.zones.zoneRows zone).rows := by rwa [zoneRows_check hcheck]
    obtain ⟨hmin, hmax⟩ := (h check hcheck).bounds zone i hi'
    have hfalse := eqOnBounds_sound hmin hmax (beq_iff_eq.mp hout)
    rw [decide_eq_true (hpasses.1 check hcheck)] at hfalse
    cases hfalse
  · -- by the bounds alone every test is named
    intro i hi
    refine ⟨fun hpasses => ⟨fun check hcheck _ => hpasses.1 check hcheck, fun bit hbit _ =>
      hpasses.2 bit hbit⟩, fun hnamed => ⟨fun check hcheck => hnamed.1 check hcheck ?_,
        fun bit hbit => hnamed.2 bit hbit ?_⟩⟩
    · exact testBit_foldl.mpr (.inr ⟨check, hcheck, rfl⟩)
    · exact testBit_foldl.mpr (.inl hbit)
  · have hloop := @classLoop_spec zone set.checks set.unzoned
    cases hclass : ZoneSet.classLoop zone set.checks set.unzoned with
    | none =>
      rw [hclass] at hloop
      obtain ⟨check, hcheck, hout⟩ := hloop
      intro i hi hpasses
      have hfalse := hheld check hcheck false hout i hi
      rw [decide_eq_true (hpasses.1 check hcheck)] at hfalse
      cases hfalse
    | all =>
      rw [hclass] at hloop
      obtain ⟨hzero, htrue⟩ := hloop
      intro i hi
      refine ⟨fun check hcheck => ?_, fun bit hbit => ?_⟩
      · exact of_decide_eq_true (hheld check hcheck true (htrue check hcheck) i hi).symm
      · rw [hzero, Nat.zero_testBit] at hbit
        cases hbit
    | mixed bits =>
      rw [hclass] at hloop
      obtain ⟨hbits, hnot⟩ := hloop
      intro i hi
      refine ⟨fun hpasses => ⟨fun check hcheck _ => hpasses.1 check hcheck, fun bit hbit _ =>
        hpasses.2 bit hbit⟩, fun hnamed => ⟨fun check hcheck => ?_, fun bit hbit =>
          hnamed.2 bit hbit ((hbits bit).mpr (.inl hbit))⟩⟩
      -- a check the zone settles, it settles for its code
      cases hcase : check.zones.eqHolds zone check.code with
      | none => exact hnamed.1 check hcheck ((hbits check.bit).mpr (.inr ⟨check, hcheck, rfl, hcase⟩))
      | some held =>
        cases held with
        | false => exact absurd hcase (hnot check hcheck)
        | true => exact of_decide_eq_true (hheld check hcheck true hcase i hi).symm

theorem ZoneSet.Says.subset {part whole : Set ℕ} (hsub : part ⊆ whole) {said : ZoneClass}
    (h : set.Says column other whole said) : set.Says column other part said := by
  cases said with
  | none => exact fun i hi => h i (hsub hi)
  | all => exact fun i hi => h i (hsub hi)
  | mixed unsettled => exact fun i hi => h i (hsub hi)

/-- A part's recorded rows of a check's code are those its rows hold. -/
theorem recordedIn_counts (h : ∀ check ∈ set.checks, check.zones.Describes (column check) rows)
    {bit n : ℕ} {part : ZonePart} (hn : set.recordedIn bit part = some n) :
    ∃ check ∈ set.checks, check.bit = bit ∧
      n = (part.rows.toList.filter fun i => column check i == check.code).length := by
  rw [ZoneSet.recordedIn] at hn
  split_ifs at hn with hwhole
  cases hfind : set.checks.find? fun check => check.bit == bit with
  | none =>
    rw [hfind] at hn
    cases hn
  | some check =>
    rw [hfind] at hn
    have hcheck := List.mem_of_find?_eq_some hfind
    have hbit : (check.bit == bit) = true := by
      have hmatch := List.find?_some hfind
      exact hmatch
    refine ⟨check, hcheck, beq_iff_eq.mp hbit, ?_⟩
    rw [hwhole, ← zoneRows_check hcheck]
    exact (h check hcheck).recorded part.zone check.code n hn

end Classes

/-! ### Three zones of one column -/

namespace ZoneSample

/-- Codes 5 and 7, then 5 twice, then 4 and 8, in zones of two rows. -/
def codes (i : ℕ) : ℕ := [5, 7, 5, 5, 4, 8].getD i 0

/-- The zones, each with its codes recorded. -/
def zones : ColumnZones where
  mins := [5, 5, 4]
  maxes := [7, 5, 8]
  recorded := some [some [(5, 1), (7, 1)], some [(5, 2)], some [(4, 1), (8, 1)]]
  zoneLen := 2
  rowCount := 6
  paired := rfl
  zoned := Nat.zero_lt_two
  covered := rfl

def check : ZoneCheck := ⟨0, 5, zones⟩

def set : ZoneSet := ⟨check, [], 0, false, fun c hc => by
  rw [List.mem_singleton.mp hc]
  exact ⟨Nat.zero_lt_succ 31, rfl⟩⟩

/-- A record of two rows counts each code they hold. -/
theorem recorded_pair {a b code : ℕ} (hne : a ≠ b) {i j : ℕ} (hi : codes i = a) (hj : codes j = b) :
    ((([(a, 1), (b, 1)].find? fun pair => pair.1 == code).map Prod.snd).getD 0 : ℕ) =
      ([i, j].filter fun row => codes row == code).length := by
  by_cases ha : a = code
  · subst ha
    simp [hi, hj, hne.symm]
  · by_cases hb : b = code
    · subst hb
      simp [hi, hj, hne]
    · simp [hi, hj, ha, hb]

theorem zones_describe : zones.Describes codes 6 where
  rowCount := rfl
  bounds zone i hi := by
    have hrows := RowRange.mem_rows.mp hi
    have hlt : zone * 2 ≤ i ∧ i < min ((zone + 1) * 2) 6 := hrows
    have hcodes : ∀ i < 6, (zones.zoneBounds (i / 2)).1 ≤ codes i ∧
        codes i ≤ (zones.zoneBounds (i / 2)).2 := by decide
    obtain rfl : i / 2 = zone := by omega
    exact hcodes i (by omega)
  recorded zone code n h := by
    rcases zone with _ | _ | _ | zone
    · exact (Option.some.inj h).symm.trans (recorded_pair (by decide) rfl rfl)
    · obtain rfl := Option.some.inj h
      show _ = ([2, 3].filter fun row => codes row == code).length
      by_cases hfive : 5 = code
      · subst hfive
        rfl
      · simp [codes, hfive]
    · exact (Option.some.inj h).symm.trans (recorded_pair (by decide) rfl rfl)
    · cases h

end ZoneSample

/-! ### Soundness -/

/-- **Zone classification is sound**: whatever columns the zone maps of a set describe and
whatever the tests no zone map speaks for, the parts of a range tile what it shares with
the table; no row of a part classed none passes the tests, every row of one classed all
does, and in any other a row passes when it passes the tests named unsettled; a recorded
count is that of the part's rows. -/
theorem zoneClasses_sound (set : ZoneSet) (column : ZoneCheck → ℕ → ℕ) (other : ℕ → ℕ → Bool)
    {rows : ℕ} (h : ∀ check ∈ set.checks, check.zones.Describes (column check) rows) (r : RowRange) :
    (Tiles r.start ((set.parts r).map ZonePart.rows) (max r.start (min r.stop rows)) ∧
      ∀ part ∈ set.parts r, set.Says column other part.rows.rows (set.classOf part.zone)) ∧
    ∀ bit part n, set.recordedIn bit part = some n → ∃ check ∈ set.checks, check.bit = bit ∧
      n = (part.rows.toList.filter fun i => column check i == check.code).length := by
  have hrows : set.rowCount = rows := (h set.first List.mem_cons_self).rowCount
  obtain ⟨htiles, hwithin⟩ := parts_clip set r
  rw [hrows] at htiles
  refine ⟨⟨htiles, fun part hpart => ?_⟩, fun bit part n hn => recordedIn_counts h hn⟩
  exact (zoneClass_means h part.zone).subset (hwithin part hpart)

/-- A range over a zone left to its rows, one all of whose rows pass, and one none of whose do,
which only its record tells. -/
theorem zoneClasses_sound_sample :
    ((Tiles 1 ((ZoneSample.set.parts ⟨1, 9⟩).map ZonePart.rows) (max 1 (min 9 6)) ∧
      ∀ part ∈ ZoneSample.set.parts ⟨1, 9⟩, ZoneSample.set.Says (fun _ => ZoneSample.codes)
        (fun _ _ => true) part.rows.rows (ZoneSample.set.classOf part.zone)) ∧
    ∀ bit part n, ZoneSample.set.recordedIn bit part = some n →
      ∃ check ∈ ZoneSample.set.checks, check.bit = bit ∧
        n = (part.rows.toList.filter fun i => ZoneSample.codes i == check.code).length) ∧
    (ZoneSample.set.parts ⟨1, 9⟩).map (fun part => ZoneSample.set.classOf part.zone) =
      [.mixed 1, .all, .none] ∧
    (ZoneSample.set.parts ⟨1, 9⟩).map (ZoneSample.set.recordedIn 0) = [none, some 2, some 0] := by
  refine ⟨zoneClasses_sound ZoneSample.set (fun _ => ZoneSample.codes) (fun _ _ => true) ?_ ⟨1, 9⟩,
    by decide, by decide⟩
  intro c hc
  rw [List.mem_singleton.mp hc]
  exact ZoneSample.zones_describe

end Store
