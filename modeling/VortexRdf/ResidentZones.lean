/-
What a build's columns are compressed into, and the zones their codes are given.

* `passLoop_spec` — the pass takes the column's bounds, and feeds its zones;
* `chosenEncoding_spec`, `compressIntColumn_spec` — the encoding chosen holds the values;
* `compressIntColumn_chooses` — which encoding is chosen when;
* `compressIntChild_spec` — chunk by chunk, in any nesting, into one zone map;
* `foldedIn_leftAlone`, `finish_exact` — a column seen in part is told by its rows;
* `compressIntChild_isExact` — the values are kept, and zoned truly;
* `withCompressedIntChildren_spec` — the same of every column of a struct.
-/
import VortexRdf.DistinctSort
import VortexRdf.ResidentColumns

namespace Store

open Terms
open DistinctSort (dedup)
open Container (PType Nullability FieldType)
open Dictionary (TERM_CODE_MAX)

variable {E : Encodings}

/-! ### The pass -/

theorem partPass_bounds (part : List ℕ) (pass : PartPass) :
    (part.foldl PartPass.step pass).lo = part.foldl min pass.lo ∧
      (part.foldl PartPass.step pass).hi = part.foldl max pass.hi := by
  induction part generalizing pass with
  | nil => exact ⟨rfl, rfl⟩
  | cons v part ih =>
    have hlo : (pass.step v).lo = min pass.lo v := by
      show (if v < pass.lo then v else pass.lo) = _
      split_ifs <;> omega
    have hhi : (pass.step v).hi = max pass.hi v := by
      show (if pass.hi < v then v else pass.hi) = _
      split_ifs <;> omega
    rw [List.foldl_cons, List.foldl_cons, List.foldl_cons, ← hlo, ← hhi]
    exact ih (pass.step v)

theorem columnPass_part (pass : ColumnPass) (part : List ℕ) :
    (pass.part part).zones = pass.zones.push part (loOf part) (hiOf part) ∧
      (pass.part part).min = min pass.min (loOf part) ∧
      (pass.part part).max = max pass.max (hiOf part) := by
  obtain ⟨hlo, hhi⟩ := partPass_bounds part ⟨TERM_CODE_MAX, 0, pass.runs, pass.prev⟩
  refine ⟨?_, ?_, ?_⟩
  · show pass.zones.push part _ _ = _
    rw [hlo, hhi]
    rfl
  · show min pass.min _ = _
    rw [hlo]
    rfl
  · show max pass.max _ = _
    rw [hhi]
    rfl

/-- The runs up to a value, and the value. -/
def stepRuns (runs : ℕ × ℕ) (v : ℕ) : ℕ × ℕ := (if v ≠ runs.2 then runs.1 + 1 else runs.1, v)

theorem partPass_runs (part : List ℕ) (pass : PartPass) :
    ((part.foldl PartPass.step pass).runs, (part.foldl PartPass.step pass).prev) =
      part.foldl stepRuns (pass.runs, pass.prev) := by
  induction part generalizing pass with
  | nil => rfl
  | cons v part ih =>
    rw [List.foldl_cons, List.foldl_cons]
    exact ih (pass.step v)

theorem foldl_stepRuns (rest : List ℕ) (runs prev : ℕ) :
    (rest.foldl stepRuns (runs, prev)).1 + 1 = runs + (dedup (prev :: rest)).length := by
  induction rest generalizing runs prev with
  | nil => rfl
  | cons v rest ih =>
    rw [List.foldl_cons, stepRuns, ih, dedup]
    dsimp only
    by_cases hv : prev = v
    · rw [if_neg (not_not.mpr hv.symm), if_pos hv]
    · rw [if_pos fun h => hv h.symm, if_neg hv, List.length_cons]
      omega

/-- The pass folds the codes into the zones, and their bounds and runs into the column's. -/
theorem passLoop_spec {recorded : Bool} {codes rest : List ℕ} {fuel : ℕ} {pass : ColumnPass}
    (hfuel : rest.length ≤ fuel) (h : pass.zones.Seen recorded codes)
    (hmin : pass.min ≤ TERM_CODE_MAX) :
    (passLoop fuel rest pass).zones.Seen recorded (codes ++ rest) ∧
      (passLoop fuel rest pass).min = min pass.min (loOf rest) ∧
      (passLoop fuel rest pass).max = max pass.max (hiOf rest) ∧
      ((passLoop fuel rest pass).runs, (passLoop fuel rest pass).prev) =
        rest.foldl stepRuns (pass.runs, pass.prev) := by
  have hnone : pass.min = min pass.min (loOf []) ∧ pass.max = max pass.max (hiOf []) :=
    ⟨(min_eq_left hmin).symm, (Nat.max_zero _).symm⟩
  induction fuel generalizing rest codes pass with
  | zero =>
    obtain rfl : rest = [] := List.length_eq_zero_iff.mp (Nat.le_zero.mp hfuel)
    exact ⟨by rwa [List.append_nil], hnone.1, hnone.2, rfl⟩
  | succ fuel ih =>
    rw [passLoop]
    split_ifs with hempty
    · obtain rfl : rest = [] := List.isEmpty_iff.mp hempty
      exact ⟨by rwa [List.append_nil], hnone.1, hnone.2, rfl⟩
    · have hpos : 0 < rest.length := List.length_pos_iff.mpr (by simpa using hempty)
      have hroom : 0 < pass.zones.room := by
        rw [ZoneBuilder.room, h.filled_eq]
        exact Nat.sub_pos_of_lt (Nat.mod_lt _ (by decide))
      obtain ⟨run, hrun⟩ : ∃ run, run = min pass.zones.room rest.length := ⟨_, rfl⟩
      have hpart : (rest.take run).length ≤ pass.zones.room := by
        rw [List.length_take]
        omega
      have hleft : (rest.drop run).length ≤ fuel := by
        rw [List.length_drop]
        omega
      obtain ⟨hzones, hlo, hhi⟩ := columnPass_part pass (rest.take run)
      have hseen := ZoneBuilder.push_seen h hpart
      rw [← hzones] at hseen
      have hnext : (pass.part (rest.take run)).min ≤ TERM_CODE_MAX := by
        rw [hlo]
        exact (min_le_left _ _).trans hmin
      obtain ⟨hend, hminEnd, hmaxEnd, hrunsEnd⟩ :=
        ih hleft hseen hnext ⟨(min_eq_left hnext).symm, (Nat.max_zero _).symm⟩
      simp only [← hrun]
      refine ⟨?_, ?_, ?_, ?_⟩
      · rwa [List.append_assoc, List.take_append_drop] at hend
      · rw [hminEnd, hlo, min_assoc, ← loOf_append, List.take_append_drop]
      · rw [hmaxEnd, hhi, max_assoc, ← hiOf_append, List.take_append_drop]
      · have hruns : ((pass.part (rest.take run)).runs, (pass.part (rest.take run)).prev) =
            (rest.take run).foldl stepRuns (pass.runs, pass.prev) := partPass_runs _ _
        rw [hrunsEnd, hruns, ← List.foldl_append, List.take_append_drop]

/-! ### The choice -/

theorem le_hiOf {v : ℕ} {part : List ℕ} (h : v ∈ part) : v ≤ hiOf part := by
  obtain ⟨before, after, rfl⟩ := List.append_of_mem h
  rw [hiOf_append, show v :: after = [v] ++ after from rfl, hiOf_append]
  exact (Nat.le_max_right 0 v).trans ((le_max_left _ _).trans (le_max_right _ _))

theorem loOf_le_of_mem {v : ℕ} {part : List ℕ} (h : v ∈ part) : loOf part ≤ v := by
  obtain ⟨before, after, rfl⟩ := List.append_of_mem h
  rw [loOf_append, show v :: after = [v] ++ after from rfl, loOf_append]
  exact (min_le_right _ _).trans ((min_le_left _ _).trans (min_le_right TERM_CODE_MAX v))

theorem hiOf_le {most : ℕ} {part : List ℕ} (h : ∀ v ∈ part, v ≤ most) : hiOf part ≤ most := by
  induction part with
  | nil => exact Nat.zero_le most
  | cons v part ih =>
    rw [show v :: part = [v] ++ part from rfl, hiOf_append]
    exact max_le (max_le (Nat.zero_le _) (h v List.mem_cons_self))
      (ih fun v' hv' => h v' (List.mem_cons_of_mem v hv'))

/-- The width holds every number up to the largest. -/
theorem lt_bitWidth {v max : ℕ} (hv : v ≤ max) (hmax : max ≤ TERM_CODE_MAX) :
    v < 2 ^ bitWidth max := by
  have hsize : max.size ≤ 64 := Nat.size_le.mpr (Nat.lt_of_le_of_lt hmax (by decide))
  have hwidth : max.size ≤ bitWidth max := by
    rw [bitWidth, leadingZeros]
    omega
  calc v ≤ max := hv
    _ < 2 ^ max.size := Nat.lt_size_self max
    _ ≤ 2 ^ bitWidth max := Nat.pow_le_pow_right (by decide) hwidth

section Choice

variable {recorded sorted : Bool} {values codes : List ℕ}

/-- The column chosen holds the values. -/
structure Column.Holds (column : Column E) (values : List ℕ) : Prop where
  encodes : Column.Encodes (.primitive .u64 .nonNullable values) column
  values : column.values = values
  dtype : column.dtype = CODE_DTYPE

theorem chosenEncoding_spec (hE : E.Lossless) (hcodes : ∀ v ∈ values, v ≤ TERM_CODE_MAX)
    {pass : ColumnPass} (hmin : pass.min = loOf values) (hmax : pass.max = hiOf values) :
    ∃ column : Column E, chosenEncoding pass values sorted = .ok column ∧ column.Holds values := by
  have hkept : (Column.primitive .u64 .nonNullable values : Column E).Holds values :=
    ⟨.leftAlone _, by rw [Column.values], rfl⟩
  rw [chosenEncoding]
  split_ifs with hone hruns hwide
  · -- the bounds are one value, and so is every code
    have hall : values = List.replicate values.length pass.min := by
      refine List.eq_replicate_iff.mpr ⟨rfl, fun v hv => ?_⟩
      have hlo := loOf_le_of_mem hv
      have hhi := le_hiOf hv
      omega
    refine ⟨_, rfl, ?_, ?_, rfl⟩
    · have hencodes := Column.Encodes.constant (E := E) pass.min values.length
      rwa [← hall] at hencodes
    · rw [Column.values, ← hall]
  · obtain ⟨encoded, hencode, hdecode⟩ := hE.runEnd values hcodes
    refine ⟨.runEnd encoded, ?_, .runEnd hdecode, ?_, rfl⟩
    · rw [encodeRunEnd, hencode]
      rfl
    · rw [Column.values, hdecode]
  · exact ⟨_, rfl, hkept⟩
  · have hfits : ∀ v ∈ values, v < 2 ^ bitWidth pass.max := fun v hv =>
      lt_bitWidth (hmax ▸ le_hiOf hv) (hmax ▸ hiOf_le hcodes)
    obtain ⟨packed, hpack, hunpack⟩ := hE.bitPacked values _ (Nat.lt_of_not_le hwide) hfits
    refine ⟨.bitPacked _ packed, ?_, .bitPacked hfits hunpack, ?_, rfl⟩
    · rw [encodeBitPacked, hpack]
      rfl
    · rw [Column.values, hunpack]

/-- What the pass over a column with a row leaves its encoding to be chosen by. -/
theorem compressIntColumn_pass (sorted : Bool) {first : ℕ} {rest : List ℕ} {zones : ZoneBuilder}
    (h : zones.Seen recorded codes) :
    ∃ pass : ColumnPass, compressIntColumn (E := E) (first :: rest) sorted zones =
        (chosenEncoding pass (first :: rest) sorted).map (fun encoded => (encoded, pass.zones)) ∧
      pass.zones.Seen recorded (codes ++ first :: rest) ∧ pass.min = loOf (first :: rest) ∧
      pass.max = hiOf (first :: rest) ∧ pass.runs = (dedup (first :: rest)).length := by
  obtain ⟨start, hstart⟩ : ∃ start, start = ColumnPass.mk TERM_CODE_MAX 0 1 first zones := ⟨_, rfl⟩
  have hzones : start.zones.Seen recorded codes := by rwa [hstart]
  obtain ⟨hseen, hmin, hmax, hruns⟩ := passLoop_spec (le_refl (first :: rest).length) hzones
    (by rw [hstart])
  refine ⟨passLoop (first :: rest).length (first :: rest) start, by rw [hstart]; rfl, hseen, ?_, ?_, ?_⟩
  · rw [hmin, hstart]
    exact min_eq_right (loOf_le _)
  · rw [hmax, hstart]
    exact Nat.zero_max _
  · have hcount := foldl_stepRuns (first :: rest) 1 first
    have hfirst : start.runs = 1 ∧ start.prev = first := by rw [hstart]; exact ⟨rfl, rfl⟩
    rw [hfirst.1, hfirst.2] at hruns
    rw [← hruns, dedup, if_pos rfl] at hcount
    dsimp only at hcount
    omega

theorem compressIntColumn_spec (hE : E.Lossless) (hcodes : ∀ v ∈ values, v ≤ TERM_CODE_MAX)
    {zones : ZoneBuilder} (h : zones.Seen recorded codes) :
    ∃ (column : Column E) (zones' : ZoneBuilder),
      compressIntColumn values sorted zones = .ok (column, zones') ∧
        zones'.Seen recorded (codes ++ values) ∧ column.Holds values := by
  cases values with
  | nil =>
    refine ⟨.primitive .u64 .nonNullable [], zones, rfl, ?_, .leftAlone _, ?_, rfl⟩
    · rwa [List.append_nil]
    · rw [Column.values]
  | cons first rest =>
    obtain ⟨pass, hpass, hseen, hlo, hhi, -⟩ := compressIntColumn_pass (E := E) sorted h
    obtain ⟨column, hchosen, hholds⟩ : ∃ column : Column E,
        chosenEncoding pass (first :: rest) sorted = .ok column ∧ column.Holds (first :: rest) :=
      chosenEncoding_spec hE hcodes hlo hhi
    exact ⟨column, pass.zones, by rw [hpass, hchosen]; rfl, hseen, hholds⟩

/-- The encoding some values are given: one value repeated, the runs of a sorted column where
they are a quarter of its rows at most, the values as they are where one has all 64 bits, and
else packed at the largest one's width. -/
inductive Column.ChosenFor (sorted : Bool) (values : List ℕ) : Column E → Prop
  | constant (v : ℕ) (hall : ∀ v' ∈ values, v' = v) : ChosenFor sorted values (.constant v values.length)
  | runEnd (encoded : E.RunEnd) (hvaried : ∃ v ∈ values, ∃ v' ∈ values, v ≠ v') (hsorted : sorted = true)
      (hruns : (dedup values).length * 4 ≤ values.length) : ChosenFor sorted values (.runEnd encoded)
  | kept (hvaried : ∃ v ∈ values, ∃ v' ∈ values, v ≠ v')
      (hruns : sorted = true → values.length < (dedup values).length * 4)
      (hwide : ∃ v ∈ values, 2 ^ 63 ≤ v) : ChosenFor sorted values (.primitive .u64 .nonNullable values)
  | bitPacked (packed : E.BitPacked) (most : ℕ) (hvaried : ∃ v ∈ values, ∃ v' ∈ values, v ≠ v')
      (hruns : sorted = true → values.length < (dedup values).length * 4) (hmost : most ∈ values)
      (hle : ∀ v ∈ values, v ≤ most) (hfits : most < 2 ^ 63) :
      ChosenFor sorted values (.bitPacked (max most.size 1) packed)

theorem hiOf_mem (hne : values ≠ []) : hiOf values ∈ values := List.max?_mem (max?_eq_hiOf hne)

theorem loOf_mem (hcodes : ∀ v ∈ values, v ≤ TERM_CODE_MAX) (hne : values ≠ []) :
    loOf values ∈ values := List.min?_mem (min?_eq_loOf hne hcodes)

theorem chosenEncoding_chooses (hcodes : ∀ v ∈ values, v ≤ TERM_CODE_MAX) (hne : values ≠ [])
    {pass : ColumnPass} (hlo : pass.min = loOf values) (hhi : pass.max = hiOf values)
    (hruns : pass.runs = (dedup values).length) {column : Column E}
    (hchosen : chosenEncoding pass values sorted = .ok column) :
    column.ChosenFor sorted values := by
  have hleast := loOf_mem hcodes hne
  have hmost := hiOf_mem hne
  rw [chosenEncoding] at hchosen
  have hvaried : ¬ pass.min = pass.max → ∃ v ∈ values, ∃ v' ∈ values, v ≠ v' := fun hne =>
    ⟨_, hleast, _, hmost, by rwa [hlo, hhi] at hne⟩
  split_ifs at hchosen with hone hsorted hwide
  · obtain rfl := Except.ok.inj hchosen
    refine .constant _ fun v hv => ?_
    have hge := loOf_le_of_mem hv
    have hle := le_hiOf hv
    omega
  · cases hencode : E.runEndEncode values with
    | error error =>
      rw [encodeRunEnd, hencode] at hchosen
      cases hchosen
    | ok encoded =>
      rw [encodeRunEnd, hencode] at hchosen
      obtain rfl := Except.ok.inj hchosen
      exact .runEnd encoded (hvaried hone) hsorted.1 (by rw [← hruns]; exact hsorted.2)
  · obtain rfl := Except.ok.inj hchosen
    refine .kept (hvaried hone) (fun h => ?_) ⟨_, hmost, ?_⟩
    · rw [← hruns]
      exact Nat.lt_of_not_le fun hle => hsorted ⟨h, hle⟩
    · rw [bitWidth, leadingZeros, hhi] at hwide
      exact Nat.lt_size.mp (by omega)
  · have hsize : (hiOf values).size < 64 := by
      rw [bitWidth, leadingZeros, hhi] at hwide
      omega
    have hwidth : bitWidth pass.max = max (hiOf values).size 1 := by
      rw [bitWidth, leadingZeros, hhi]
      omega
    rw [hwidth] at hchosen
    cases hpack : E.bitPack values (max (hiOf values).size 1) with
    | error error =>
      rw [encodeBitPacked, hpack] at hchosen
      cases hchosen
    | ok packed =>
      rw [encodeBitPacked, hpack] at hchosen
      obtain rfl := Except.ok.inj hchosen
      refine .bitPacked packed (hiOf values) (hvaried hone) (fun h => ?_) hmost
        (fun v hv => le_hiOf hv) (Nat.size_le.mp (Nat.le_of_lt_succ hsize))
      rw [← hruns]
      exact Nat.lt_of_not_le fun hle => hsorted ⟨h, hle⟩

/-- **The encoding of a column with a row** is the one its values ask for. -/
theorem compressIntColumn_chooses (hcodes : ∀ v ∈ values, v ≤ TERM_CODE_MAX) (hne : values ≠ [])
    {zones zones' : ZoneBuilder} (h : zones.Seen recorded codes) {column : Column E}
    (hbuilt : compressIntColumn values sorted zones = .ok (column, zones')) :
    column.ChosenFor sorted values := by
  obtain ⟨first, rest, rfl⟩ := List.exists_cons_of_ne_nil hne
  obtain ⟨pass, hpass, -, hlo, hhi, hruns⟩ := compressIntColumn_pass (E := E) sorted h
  rw [hpass] at hbuilt
  cases hchosen : chosenEncoding (E := E) pass (first :: rest) sorted with
  | error error =>
    rw [hchosen] at hbuilt
    cases hbuilt
  | ok encoded =>
    rw [hchosen] at hbuilt
    rw [← (Prod.mk.inj (Except.ok.inj hbuilt)).1]
    exact chosenEncoding_chooses hcodes hne hlo hhi hruns hchosen

end Choice

/-! ### Chunks -/

section Chunks

variable {recorded sorted : Bool} {codes : List ℕ} {zones : ZoneBuilder}

/-- A column and what became of it: left as it is, or built into one of its values and type. -/
structure Column.Becomes (column : Column E) (built : Option (Column E)) : Prop where
  encodes : column.Encodes (built.getD column)
  values : (built.getD column).values = column.values
  dtype : (built.getD column).dtype = column.dtype

theorem becomes_none (column : Column E) : column.Becomes none := ⟨.leftAlone column, rfl, rfl⟩

/-- Chunks that each kept their values and type make a column of them. -/
theorem reassembled_spec {dtype : FieldType} {out : List (Option (Column E) × Column E)}
    (htyped : ∀ chunk ∈ out, chunk.2.dtype = dtype)
    (h : ∀ chunk ∈ out, chunk.2.Becomes chunk.1) :
    ∃ built, reassembled dtype out = .ok built ∧
      (Column.chunked dtype (out.map Prod.snd)).Becomes built := by
  have hdtypes : ∀ column ∈ out.map fun chunk => chunk.1.getD chunk.2, column.dtype = dtype := by
    intro column hcolumn
    obtain ⟨chunk, hchunk, rfl⟩ := List.mem_map.mp hcolumn
    exact (h chunk hchunk).dtype.trans (htyped chunk hchunk)
  have hvalues : Column.chunkValues (out.map fun chunk => chunk.1.getD chunk.2) =
      Column.chunkValues (out.map Prod.snd) := by
    clear hdtypes htyped
    induction out with
    | nil => rfl
    | cons chunk out ih =>
      rw [List.map_cons, List.map_cons, Column.chunkValues, Column.chunkValues,
        (h chunk List.mem_cons_self).values, ih fun c hc => h c (List.mem_cons_of_mem _ hc)]
  have heach : List.Forall₂ Column.Encodes (out.map Prod.snd)
      (out.map fun chunk => chunk.1.getD chunk.2) := by
    rw [List.forall₂_map_left_iff, List.forall₂_map_right_iff, List.forall₂_same]
    exact fun chunk hchunk => (h chunk hchunk).encodes
  rw [reassembled]
  split_ifs with hany
  · refine ⟨some (.chunked dtype (out.map fun chunk => chunk.1.getD chunk.2)), ?_, ?_, ?_, rfl⟩
    · rw [Column.tryNewChunked, if_pos hdtypes]
      rfl
    · exact .chunked heach
    · rw [Option.getD_some, Column.values, Column.values, hvalues]
  · exact ⟨none, rfl, becomes_none _⟩

mutual

/-- A column is built of its values, and the zones see what was folded in. -/
theorem compressIntChild_spec (hE : E.Lossless) :
    ∀ (child : Column E) {codes : List ℕ} {zones : ZoneBuilder}, child.WellTyped →
      zones.Seen recorded codes → ∃ built zones',
        compressIntChild sorted child zones = .ok (built, zones') ∧
          zones'.Seen recorded (codes ++ child.foldedIn) ∧ child.Becomes built
  | .primitive ptype nullability values, codes, zones, htyped, h => by
    rw [compressIntChild, Column.foldedIn]
    by_cases hpassed : passedBy (.primitive ptype nullability)
    · simp only [hpassed, Bool.true_or, if_true, List.append_nil]
      exact ⟨none, zones, rfl, h, becomes_none _⟩
    · rw [Bool.not_eq_true] at hpassed
      simp only [hpassed, Bool.false_or, decide_eq_true_eq, Bool.false_eq_true, if_false]
      by_cases hwide : ptype ≠ .u64
      · rw [if_pos hwide, if_pos hwide, List.append_nil]
        exact ⟨none, zones, rfl, h, becomes_none _⟩
      · rw [if_neg hwide, if_neg hwide]
        obtain rfl : ptype = .u64 := not_not.mp hwide
        rw [Column.WellTyped] at htyped
        -- only plain 64-bit columns are compressed, and folded into the zones
        obtain rfl : nullability = .nonNullable := by
          cases nullability with
          | nonNullable => rfl
          | nullable => exact absurd hpassed (by decide)
        obtain ⟨column, zones', hrun, hseen, hholds⟩ :=
          compressIntColumn_spec hE (htyped rfl) h
        refine ⟨some column, zones', by rw [hrun]; rfl, hseen, hholds.encodes, ?_, hholds.dtype⟩
        rw [Option.getD_some, hholds.values, Column.values]
  | .chunked dtype chunks, codes, zones, htyped, h => by
    rw [compressIntChild, Column.foldedIn]
    by_cases hpassed : passedBy dtype
    · rw [if_pos hpassed, if_pos hpassed, List.append_nil]
      exact ⟨none, zones, rfl, h, becomes_none _⟩
    · rw [if_neg hpassed, if_neg hpassed]
      rw [Column.WellTyped] at htyped
      obtain ⟨out, zones', hrun, hseen, hsame, hdtypes, hbecome⟩ :=
        compressChunks_spec hE chunks htyped h
      obtain ⟨built, hbuilt, hbecomes⟩ := reassembled_spec hdtypes hbecome
      rw [hsame] at hbecomes
      refine ⟨built, zones', ?_, hseen, hbecomes⟩
      simp only [hrun, hbuilt]
      rfl
  | .constant .., codes, zones, _, h | .runEnd _, codes, zones, _, h
  | .bitPacked .., codes, zones, _, h | .other .., codes, zones, _, h => by
    rw [compressIntChild, Column.foldedIn, List.append_nil]
    exact ⟨none, zones, rfl, h, becomes_none _⟩

theorem compressChunks_spec (hE : E.Lossless) {dtype : FieldType} :
    ∀ (chunks : List (Column E)) {codes : List ℕ} {zones : ZoneBuilder},
      Column.ChunksTyped dtype chunks → zones.Seen recorded codes → ∃ out zones',
        compressChunks sorted chunks zones = .ok (out, zones') ∧
          zones'.Seen recorded (codes ++ Column.chunksFoldedIn chunks) ∧
          out.map Prod.snd = chunks ∧ (∀ chunk ∈ out, chunk.2.dtype = dtype) ∧
          ∀ chunk ∈ out, chunk.2.Becomes chunk.1
  | [], codes, zones, _, h => by
    refine ⟨[], zones, rfl, ?_, rfl, fun chunk hchunk => absurd hchunk List.not_mem_nil,
      fun chunk hchunk => absurd hchunk List.not_mem_nil⟩
    rwa [Column.chunksFoldedIn, List.append_nil]
  | chunk :: chunks, codes, zones, htyped, h => by
    rw [Column.ChunksTyped] at htyped
    obtain ⟨hdtype, hchunk, hrest⟩ := htyped
    obtain ⟨built, zones₁, hrun, hseen, hbecomes⟩ := compressIntChild_spec hE chunk hchunk h
    obtain ⟨out, zones₂, hruns, hseens, hsame, hdtypes, hbecome⟩ :=
      compressChunks_spec hE chunks hrest hseen
    refine ⟨(built, chunk) :: out, zones₂, ?_, ?_, ?_, ?_, ?_⟩
    · rw [compressChunks]
      simp only [hrun, hruns]
      rfl
    · rwa [Column.chunksFoldedIn, ← List.append_assoc]
    · rw [List.map_cons, hsame]
    · exact List.forall_mem_cons.mpr ⟨hdtype, hdtypes⟩
    · exact List.forall_mem_cons.mpr ⟨hbecomes, hbecome⟩

end

end Chunks

/-! ### What is folded in -/

mutual

/-- What is folded in and what is left alone are all the values there are. -/
theorem foldedIn_leftAlone : ∀ column : Column E, column.foldedIn.Sublist column.values ∧
    column.foldedIn.length + (column.leftAlone.map Column.len).sum = column.len
  | .primitive ptype nullability values => by
    rw [Column.foldedIn, Column.leftAlone, Column.len, Column.values]
    split_ifs
    · exact ⟨List.nil_sublist _, by simp [Column.len, Column.values]⟩
    · exact ⟨List.Sublist.refl _, rfl⟩
  | .chunked dtype chunks => by
    rw [Column.foldedIn, Column.leftAlone, Column.len, Column.values]
    split_ifs
    · exact ⟨List.nil_sublist _, by simp [Column.len, Column.values]⟩
    · exact chunksFoldedIn_leftAlone chunks
  | .constant .. | .runEnd _ | .bitPacked .. | .other .. => by
    rw [Column.foldedIn, Column.leftAlone]
    exact ⟨List.nil_sublist _, by simp⟩

theorem chunksFoldedIn_leftAlone : ∀ chunks : List (Column E),
    (Column.chunksFoldedIn chunks).Sublist (Column.chunkValues chunks) ∧
      (Column.chunksFoldedIn chunks).length + ((Column.chunksLeftAlone chunks).map Column.len).sum =
        (Column.chunkValues chunks).length
  | [] => ⟨List.Sublist.refl _, rfl⟩
  | chunk :: chunks => by
    obtain ⟨hsub, hlen⟩ := foldedIn_leftAlone chunk
    obtain ⟨hsubs, hlens⟩ := chunksFoldedIn_leftAlone chunks
    rw [Column.chunksFoldedIn, Column.chunkValues, Column.chunksLeftAlone, List.map_append,
      List.sum_append, List.length_append, List.length_append]
    rw [Column.len] at hlen
    exact ⟨hsub.append hsubs, by omega⟩

end

section Folded

variable {column : Column E}

theorem foldedIn_eq (h : ∀ chunk ∈ column.leftAlone, chunk.values = []) :
    column.foldedIn = column.values := by
  obtain ⟨hsub, hlen⟩ := foldedIn_leftAlone column
  have hzero : (column.leftAlone.map Column.len).sum = 0 := by
    refine List.sum_eq_zero fun len hlen => ?_
    obtain ⟨chunk, hchunk, rfl⟩ := List.mem_map.mp hlen
    rw [Column.len, h chunk hchunk]
    rfl
  rw [Column.len] at hlen
  exact hsub.eq_of_length (by omega)

theorem foldedIn_short {chunk : Column E} (h : chunk ∈ column.leftAlone) (hrows : chunk.values ≠ []) :
    column.foldedIn.length < column.len := by
  obtain ⟨-, hlen⟩ := foldedIn_leftAlone column
  have hpos : 0 < chunk.len := List.length_pos_iff.mpr hrows
  have hle : chunk.len ≤ (column.leftAlone.map Column.len).sum :=
    List.le_sum_of_mem (List.mem_map_of_mem h)
  omega

end Folded

mutual

/-- Codes of 64 bits that are folded in. -/
theorem foldedIn_le : ∀ column : Column E, column.WellTyped → ∀ v ∈ column.foldedIn, v ≤ TERM_CODE_MAX
  | .primitive ptype nullability values, htyped => by
    rw [Column.WellTyped] at htyped
    rw [Column.foldedIn]
    split_ifs with hleft
    · exact fun v hv => absurd hv List.not_mem_nil
    · rw [Bool.or_eq_true, not_or, decide_eq_true_eq, not_not] at hleft
      exact htyped hleft.2
  | .chunked dtype chunks, htyped => by
    rw [Column.WellTyped] at htyped
    rw [Column.foldedIn]
    split_ifs
    · exact fun v hv => absurd hv List.not_mem_nil
    · exact chunksFoldedIn_le chunks htyped
  | .constant .., _ | .runEnd _, _ | .bitPacked .., _ | .other .., _ => by
    rw [Column.foldedIn]
    exact fun v hv => absurd hv List.not_mem_nil

theorem chunksFoldedIn_le {dtype : FieldType} : ∀ chunks : List (Column E),
    Column.ChunksTyped dtype chunks → ∀ v ∈ Column.chunksFoldedIn chunks, v ≤ TERM_CODE_MAX
  | [], _ => fun v hv => absurd hv List.not_mem_nil
  | chunk :: chunks, htyped => by
    rw [Column.ChunksTyped] at htyped
    intro v hv
    rw [Column.chunksFoldedIn, List.mem_append] at hv
    rcases hv with hv | hv
    · exact foldedIn_le chunk htyped.2.1 v hv
    · exact chunksFoldedIn_le chunks htyped.2.2 v hv

end

/-- The zone map of a column, true of each zone. -/
structure ColumnZones.Exact (map : ColumnZones) (values : List ℕ) : Prop where
  zoneLen : map.zoneLen = ZONE_ROWS
  rowCount : map.rowCount = values.length
  count : map.count = divCeil values.length ZONE_ROWS
  mins : map.mins.map some = (zonesOf values).map List.min?
  maxes : map.maxes.map some = (zonesOf values).map List.max?

/-- What a builder that has seen some codes makes of a column's rows. -/
theorem finish_exact {recorded : Bool} {codes : List ℕ} {zones : ZoneBuilder}
    (h : zones.Seen recorded codes) (hcodes : ∀ code ∈ codes, code ≤ TERM_CODE_MAX) :
    (codes = [] ∨ ∃ map, zones.finish codes.length = .ok (some map) ∧ map.Exact codes) ∧
      ∀ rows, rows ≠ codes.length ∨ rows = 0 → zones.finish rows = .ok none := by
  constructor
  · rcases eq_or_ne codes [] with hnone | hne
    · exact .inl hnone
    · obtain ⟨map, hfinish, hzoneLen, hrowCount, hmins, hmaxes, -⟩ := finish_seen h hne
      refine .inr ⟨map, hfinish, hzoneLen, hrowCount, ?_, ?_, ?_⟩
      · rw [ColumnZones.count, hmins, List.length_map, length_zonesOf]
      · rw [hmins, List.map_map]
        refine List.map_congr_left fun zone hzone => ?_
        obtain ⟨hsome, hsub⟩ := zone_mem hzone
        exact (min?_eq_loOf hsome fun code hcode => hcodes code (hsub code hcode)).symm
      · rw [hmaxes, List.map_map]
        refine List.map_congr_left fun zone hzone => ?_
        exact (max?_eq_hiOf (zone_mem hzone).1).symm
  · intro rows hrows
    have hnone : zones.rows ≠ rows ∨ rows = 0 := by
      rw [h.rows]
      exact hrows.imp Ne.symm id
    rw [ZoneBuilder.finish, if_pos hnone]

/-! ### A table's columns -/

section Tables

variable {table : CodeTable} {child : TableColumn E}

/-- What a table's column is replaced by keeps its values, its type and its name. -/
structure TableColumn.Becomes (child : TableColumn E) (built : Option (TableColumn E)) : Prop where
  column : child.column.Becomes (built.map TableColumn.column)
  name : (built.getD child).name = child.name
  sorted : (built.getD child).sorted = child.sorted

theorem TableColumn.Becomes.len {built : Option (TableColumn E)} (h : child.Becomes built) :
    (built.getD child).column.len = child.column.len := by
  have hvalues := h.column.values
  cases built with
  | none => rfl
  | some column => exact congrArg List.length hvalues

/-- The zone map kept of a column: true of every zone, and none of a column seen in part. -/
structure Zoned (table : CodeTable) (child : TableColumn E) (map : Option ColumnZones) : Prop where
  slot : ∀ zones, map = some zones → (zonedSlot table child.name).isSome
  exact : ∀ zones, map = some zones → zones.Exact child.column.values
  whole : ∀ zones, map = some zones → ∀ chunk ∈ child.column.leftAlone, chunk.values = []

theorem zoned_none (table : CodeTable) (child : TableColumn E) : Zoned table child none where
  slot := fun _ hmap => absurd hmap.symm (Option.some_ne_none _)
  exact := fun _ hmap => absurd hmap.symm (Option.some_ne_none _)
  whole := fun _ hmap => absurd hmap.symm (Option.some_ne_none _)

theorem finishedZones_spec {recorded : Bool} {zones : ZoneBuilder}
    (h : zones.Seen recorded child.column.foldedIn) (htyped : child.column.WellTyped) :
    ∃ map, finishedZones (zonedSlot table child.name) zones child.column.len = .ok map ∧
      Zoned table child map ∧
      ((zonedSlot table child.name).isSome → child.column.values ≠ [] →
        (∀ chunk ∈ child.column.leftAlone, chunk.values = []) → map.isSome) := by
  have hnothing := zoned_none table child
  obtain ⟨hfinish, hpart⟩ := finish_exact h (foldedIn_le _ htyped)
  cases hslot : zonedSlot table child.name with
  | none => exact ⟨none, rfl, hnothing, fun hsome => absurd hsome Bool.false_ne_true⟩
  | some slot =>
    rw [finishedZones]
    by_cases hleft : ∀ chunk ∈ child.column.leftAlone, chunk.values = []
    · rw [foldedIn_eq hleft] at hfinish hpart
      rcases hfinish with hempty | ⟨map, hmap, hexact⟩
      · refine ⟨none, ?_, hnothing, fun _ hne => absurd hempty hne⟩
        have hzero : child.column.len = 0 := congrArg List.length hempty
        exact hpart _ (.inr hzero)
      · refine ⟨some map, hmap, ⟨fun _ _ => by rw [hslot]; rfl, ?_, fun _ _ => hleft⟩,
          fun _ _ _ => rfl⟩
        intro zones hzones
        obtain rfl : map = zones := Option.some.inj hzones
        exact hexact
    · obtain ⟨chunk, hchunk, hrows⟩ : ∃ chunk ∈ child.column.leftAlone, chunk.values ≠ [] := by
        push Not at hleft
        exact hleft
      refine ⟨none, hpart _ (.inl (Nat.ne_of_gt (foldedIn_short hchunk hrows))), hnothing, ?_⟩
      exact fun _ _ hwhole => absurd hwhole hleft

theorem compressedChild_spec (hE : E.Lossless) (htyped : child.column.WellTyped) :
    ∃ built map, compressedChild table child = .ok (built, map) ∧ child.Becomes built ∧
      Zoned table child map ∧
      (built.isSome → (zonedSlot table child.name).isSome → child.column.values ≠ [] →
        (∀ chunk ∈ child.column.leftAlone, chunk.values = []) → map.isSome) := by
  obtain ⟨built, zones, hrun, hseen, hbecomes⟩ :=
    @compressIntChild_spec E _ child.sorted hE child.column _ _ htyped
      (ZoneBuilder.start_seen (decide (zonedSlot table child.name = some .g)))
  simp only [compressedChild, hrun]
  cases built with
  | none =>
    exact ⟨none, none, rfl, ⟨hbecomes, rfl, rfl⟩, zoned_none table child,
      fun hsome => absurd hsome Bool.false_ne_true⟩
  | some encoded =>
    rw [List.nil_append] at hseen
    obtain ⟨map, hmap, hzoned, hwhole⟩ := @finishedZones_spec E table child _ _ hseen htyped
    simp only [hmap]
    exact ⟨_, map, rfl, ⟨hbecomes, rfl, rfl⟩, hzoned, fun _ => hwhole⟩

/-- Every column is replaced by one of its values, and each zone map is a column's own. -/
theorem compressColumns_spec (hE : E.Lossless) {children : List (TableColumn E)}
    (htyped : ∀ child ∈ children, child.column.WellTyped) (zones : QuadZones) :
    ∃ out zones', compressColumns table children zones = .ok (out, zones') ∧
      out.map Prod.snd = children ∧ (∀ child ∈ out, child.2.Becomes child.1) ∧
      ∀ slot map, zones' slot = some map → zones slot = some map ∨
        ∃ child ∈ children, zonedSlot table child.name = some slot ∧ map.Exact child.column.values := by
  induction children generalizing zones with
  | nil =>
    exact ⟨[], zones, rfl, rfl, fun child hchild => absurd hchild List.not_mem_nil,
      fun slot map hmap => .inl hmap⟩
  | cons child children ih =>
    obtain ⟨built, map, hrun, hbecomes, hzoned, -⟩ :=
      @compressedChild_spec E table child hE (htyped child List.mem_cons_self)
    obtain ⟨out, zones', hruns, hsame, hbecome, hzones⟩ :=
      ih (fun other hother => htyped other (List.mem_cons_of_mem child hother))
        (recordedAs (zonedSlot table child.name) map zones)
    refine ⟨(built, child) :: out, zones', ?_, ?_, List.forall_mem_cons.mpr ⟨hbecomes, hbecome⟩, ?_⟩
    · simp only [compressColumns, hrun, hruns]
      rfl
    · rw [List.map_cons, hsame]
    · intro slot map' hmap'
      rcases hzones slot map' hmap' with hbefore | ⟨other, hother, hslot, hexact⟩
      · -- recorded for this column, or before it
        cases hown : zonedSlot table child.name with
        | none =>
          rw [hown] at hbefore
          exact .inl hbefore
        | some own =>
          cases map with
          | none =>
            rw [hown] at hbefore
            exact .inl hbefore
          | some map =>
            rw [hown] at hbefore
            change (if slot = own then some map else zones slot) = some map' at hbefore
            split_ifs at hbefore with hsame
            · obtain rfl : map = map' := Option.some.inj hbefore
              exact .inr ⟨child, List.mem_cons_self, by rw [hown, hsame], hzoned.exact map rfl⟩
            · exact .inl hbefore
      · exact .inr ⟨other, List.mem_cons_of_mem child hother, hslot, hexact⟩

/-- A struct keeps its columns' names, values and types; its zone maps are its columns'. -/
theorem withCompressedIntChildren_spec (hE : E.Lossless) {rows : TableRows E} (table : CodeTable)
    (htyped : ∀ child ∈ rows.columns, child.column.WellTyped)
    (hlen : ∀ child ∈ rows.columns, child.column.len = rows.len) :
    ∃ built zones, withCompressedIntChildren rows table = .ok (built, zones) ∧
      built.len = rows.len ∧
      List.Forall₂ (fun child column => column.name = child.name ∧
        column.column.values = child.column.values ∧ column.column.dtype = child.column.dtype)
        rows.columns built.columns ∧
      ∀ slot map, zones slot = some map → ∃ child ∈ rows.columns,
        zonedSlot table child.name = some slot ∧ map.Exact child.column.values := by
  have hkept : List.Forall₂ (fun child column : TableColumn E => column.name = child.name ∧
      column.column.values = child.column.values ∧ column.column.dtype = child.column.dtype)
      rows.columns rows.columns := List.forall₂_same.mpr fun _ _ => ⟨rfl, rfl, rfl⟩
  rw [withCompressedIntChildren]
  split_ifs
  · exact ⟨rows, fun _ => none, rfl, rfl, hkept, fun slot map hmap => absurd hmap.symm
      (Option.some_ne_none map)⟩
  · obtain ⟨out, zones, hrun, hsame, hbecome, hzones⟩ :=
      @compressColumns_spec E table hE rows.columns htyped fun _ => none
    have hmaps : ∀ slot map, zones slot = some map → ∃ child ∈ rows.columns,
        zonedSlot table child.name = some slot ∧ map.Exact child.column.values := fun slot map hmap =>
      (hzones slot map hmap).resolve_left fun hnone => Option.some_ne_none map hnone.symm
    simp only [hrun, mapStructChildren]
    split_ifs
    · -- every column keeps its length, so the struct is rebuilt
      have hlens : ∀ child ∈ out.map fun child => child.1.getD child.2, child.column.len = rows.len := by
        intro column hcolumn
        obtain ⟨child, hchild, rfl⟩ := List.mem_map.mp hcolumn
        refine (hbecome child hchild).len.trans (hlen child.2 ?_)
        rw [← hsame]
        exact List.mem_map_of_mem hchild
      refine ⟨⟨false, rows.len, out.map fun child => child.1.getD child.2⟩, zones, ?_, rfl, ?_, hmaps⟩
      · rw [tryNewStruct, if_pos hlens]
        rfl
      · rw [← hsame, List.forall₂_map_left_iff, List.forall₂_map_right_iff, List.forall₂_same]
        intro child hchild
        have hchildBecomes := hbecome child hchild
        refine ⟨hchildBecomes.name, ?_, ?_⟩
        · have hvalues := hchildBecomes.column.values
          revert hvalues
          cases child.1 with
          | none => exact id
          | some column => exact id
        · have hdtype := hchildBecomes.column.dtype
          revert hdtype
          cases child.1 with
          | none => exact id
          | some column => exact id
    · exact ⟨rows, zones, rfl, rfl, hkept, hmaps⟩

/-- **A compressed column keeps its values and is zoned truly.** Of one array or of chunks in
any nesting, some left as they are, sorted or not: what a column of 64-bit codes is built into
decodes to its values, packed only at a width that holds each, and the zone map kept of it has
a zone for each `ZONE_ROWS` of its rows with the zone's own bounds. There is none where rows
were left alone, and there is one where none were. -/
theorem compressIntChild_isExact (hE : E.Lossless) (table : CodeTable) {child : TableColumn E}
    (htyped : child.column.WellTyped) :
    ∃ built map, compressedChild table child = .ok (built, map) ∧
      (∀ column, built = some column → child.column.Encodes column.column ∧
        column.column.values = child.column.values ∧ column.column.dtype = child.column.dtype) ∧
      (∀ zones, map = some zones → zones.Exact child.column.values) ∧
      ((∃ chunk ∈ child.column.leftAlone, chunk.values ≠ []) → map = none) ∧
      (built.isSome → (zonedSlot table child.name).isSome → child.column.values ≠ [] →
        (∀ chunk ∈ child.column.leftAlone, chunk.values = []) → map.isSome) := by
  obtain ⟨built, map, hrun, hbecomes, hzoned, hwhole⟩ := compressedChild_spec hE htyped
  refine ⟨built, map, hrun, ?_, hzoned.exact, ?_, hwhole⟩
  · rintro column rfl
    exact ⟨hbecomes.column.encodes, hbecomes.column.values, hbecomes.column.dtype⟩
  · rintro ⟨chunk, hchunk, hrows⟩
    cases map with
    | none => rfl
    | some zones => exact absurd (hzoned.whole zones rfl chunk hchunk) hrows

end Tables

/-! ### A sample -/

namespace PlainEncodings

/-- Runs of equal values with their lengths. -/
def runsOf : List ℕ → List (ℕ × ℕ)
  | [] => []
  | v :: values =>
    match runsOf values with
    | [] => [(v, 1)]
    | (first, len) :: runs => if v = first then (v, len + 1) :: runs else (v, 1) :: (first, len) :: runs

def valuesOf (runs : List (ℕ × ℕ)) : List ℕ := runs.flatMap fun run => List.replicate run.2 run.1

theorem valuesOf_runsOf (values : List ℕ) : valuesOf (runsOf values) = values := by
  induction values with
  | nil => rfl
  | cons v values ih =>
    rw [runsOf]
    cases hruns : runsOf values with
    | nil =>
      rw [hruns] at ih
      rw [← ih]
      rfl
    | cons run runs =>
      rw [hruns] at ih
      simp only
      split_ifs with hv
      · rw [← ih, hv]
        rfl
      · rw [← ih]
        rfl

/-- Values cut to a width. -/
def packed (values : List ℕ) (width : ℕ) : List ℕ := values.map (· % 2 ^ width)

theorem packed_eq {values : List ℕ} {width : ℕ} (h : ∀ v ∈ values, v < 2 ^ width) :
    packed values width = values :=
  (List.map_congr_left fun v hv => Nat.mod_eq_of_lt (h v hv)).trans (List.map_id values)

def encodings : Encodings where
  RunEnd := List (ℕ × ℕ)
  BitPacked := List ℕ
  runEndEncode := fun values => .ok (runsOf values)
  runEndDecode := valuesOf
  bitPack := fun values width => .ok (packed values width)
  bitUnpack := id

theorem encodings_lossless : encodings.Lossless where
  runEnd := fun values _ => ⟨_, rfl, valuesOf_runsOf values⟩
  bitPacked := fun _ _ _ h => ⟨_, rfl, packed_eq h⟩

/-- Two chunks, the second of no rows and left as it is. -/
def column : Column encodings :=
  .chunked CODE_DTYPE [.primitive .u64 .nonNullable [5, 3, 9], .other CODE_DTYPE []]

theorem column_wellTyped : column.WellTyped := by
  rw [column, Column.WellTyped, Column.ChunksTyped, Column.ChunksTyped, Column.ChunksTyped,
    Column.WellTyped, Column.WellTyped]
  exact ⟨rfl, fun _ => by decide, rfl, trivial, trivial⟩

end PlainEncodings

theorem compressIntChild_isExact_sample : ∃ built map,
    compressedChild .base ⟨some .s, PlainEncodings.column, false, false⟩ = .ok (some built, some map) ∧
      built.column.values = [5, 3, 9] ∧ map.Exact [5, 3, 9] := by
  obtain ⟨built, map, hrun, hbuilt, hexact, -, hwhole⟩ :=
    @compressIntChild_isExact _ PlainEncodings.encodings_lossless .base
      ⟨some .s, PlainEncodings.column, false, false⟩ PlainEncodings.column_wellTyped
  have hsome : built.isSome := by
    cases built with
    | none => cases hrun
    | some built => rfl
  obtain ⟨column, rfl⟩ := Option.isSome_iff_exists.mp hsome
  have hmap := hwhole rfl rfl (by decide) (by decide)
  obtain ⟨zones, rfl⟩ := Option.isSome_iff_exists.mp hmap
  exact ⟨column, zones, hrun, (hbuilt column rfl).2.1, hexact zones rfl⟩

end Store
