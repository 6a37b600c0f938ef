/-
Reads of a chunked column at positions, leaf by leaf.

* `leafRows`, `take` — a window of one leaf, and a take of every leaf;
* `listedIn` — which of some ids an ascending run of the column lists;
* `readCodes`, `takeCodes`, `leavesHolding` — codes at a range of positions and at ascending ones;
* `IsWindow.bounds`, `valuesAt`, `readInto` — a window searches and reads as the column's values;
* `take_eq` — a take is the column's values.

A failing step is `none`; a search that declines is `some none`.
-/
import VortexRdf.PointReads

open Bisect Buffers

namespace EncodedSearch

variable (fl : FastLanes)

/-! ### A window of one leaf -/

namespace LeafRows

variable (l : LeafRows)

/-- The value at an absolute row of the window. -/
def valueAt (row : ℕ) : Option ℕ :=
  if l.rowOffset + l.start ≤ row ∧ row < l.rowOffset + l.stop then
    SortedProbe.valueAt fl l.root (row - l.rowOffset)
  else none

/-- The values at absolute rows of the window from `first` on, into `out`. -/
def readInto (first : ℕ) (out : List ℕ) : Option (List ℕ) :=
  if l.rowOffset + l.start ≤ first ∧ first + out.length ≤ l.rowOffset + l.stop then
    SortedProbe.readInto fl l.root (first - l.rowOffset) out
  else none

def valuesAtLoop : ℕ → List ℕ → List ℕ → Option (List ℕ)
  | _, [], _ => some []
  | 0, _, _ => none
  | fuel + 1, row :: rest, out =>
    let run := consecutiveRun (row :: rest)
    (if run = 1 then (l.valueAt fl row).map ([·])
      else l.readInto fl row (out.take run)).bind fun values =>
        (valuesAtLoop fuel ((row :: rest).drop run) (out.drop run)).map (values ++ ·)

/-- The values at absolute `rows`, in their order, into `out`. -/
def valuesAt (rows out : List ℕ) : Option (List ℕ) :=
  if rows.length = out.length then l.valuesAtLoop fl rows.length rows out else none

end LeafRows

namespace ColumnChunks

variable (C : ColumnChunks)

/-- The row past the end of the leaf holding `row`. -/
def leafEnd (row : ℕ) : Option ℕ :=
  if row < C.rowCount then do
    let idx ← C.leafHolding row
    let leaf ← C.chunks[idx]?
    some leaf.endRow
  else none

/-- The rows `lo..hi` as a window of the one leaf holding them. -/
def leafRows (lo hi : ℕ) : Option (Option LeafRows) :=
  if lo < hi ∧ hi ≤ C.rowCount then do
    let idx ← C.leafHolding lo
    let leaf ← C.chunks[idx]?
    if leaf.endRow < hi then some none
    else
      match ← C.chunkProbe idx with
      | none => some none
      | some root => do
        let start ← checkedSub lo leaf.rowOffset
        let stop ← checkedSub hi leaf.rowOffset
        some (some ⟨root, leaf.rowOffset, start, stop⟩)
  else none

/-- How many of ascending `rows` lie before `stop`. -/
def rowsBefore (rows : List ℕ) (stop : ℕ) : Option ℕ :=
  partition rows.length fun i => (rows[i]?).map fun row => decide (row < stop)

/-- The leaves from `idx` on, each taken at the rows it holds. -/
def takeLoop : ℕ → ℕ → List ℕ → Option (List (Option ℕ))
  | _, _, [] => some []
  | 0, _, _ => none
  | fuel + 1, idx, first :: rest =>
    if first < C.rowCount then do
      let skipped ← partition (C.chunks.length - idx) fun c =>
        (C.chunks[idx + c]?).map fun leaf => decide (leaf.endRow ≤ first)
      let leaf ← C.chunks[idx + skipped]?
      let inside ← rowsBefore (first :: rest) leaf.endRow
      let offsets ← ((first :: rest).take inside).mapM fun row => checkedSub row leaf.rowOffset
      let part ← offsets.mapM fun offset => (leaf.fetched.decoded fl)[offset]?
      let later ← takeLoop fuel (idx + skipped) ((first :: rest).drop inside)
      some (part ++ later)
    else none

/-- The slots at ascending `rows`, whatever the leaves' encodings. -/
def take (rows : List ℕ) : Option (List (Option ℕ)) := C.takeLoop fl rows.length 0 rows

end ColumnChunks

/-! ### Reads of a column -/

namespace ColumnReads

variable (column : ColumnChunks)

/-- The first row of an ascending run whose value is not below `value`. -/
def seek (lo hi value : ℕ) : Option (Option ℕ) :=
  (column.boundsIn fl lo hi value).map fun hit => hit.map Prod.fst

/-- The rows that fall in a leaf's window, up to the first that none of it reaches: those it lists,
and the rows left. -/
def listedLoop (leaf : LeafRows) (stop : ℕ) : List ℕ → List ℕ → Option (List ℕ × List ℕ)
  | kept, [] => some (kept, [])
  | kept, row :: rest => do
    let hit ← leaf.bounds fl row
    if hit.1 = stop then some (kept, row :: rest)
    else listedLoop leaf stop (if hit.1 < hit.2 then kept ++ [row] else kept) rest

/-- The run walked one leaf at a time, from `place`. -/
def listedFrom (hi : ℕ) : ℕ → ℕ → List ℕ → List ℕ → Option (Option (List ℕ))
  | 0, _, kept, _ => some (some kept)
  | fuel + 1, place, kept, pending =>
    if place < hi ∧ pending ≠ [] then do
      let leafStop ← column.leafEnd place
      let stop := min leafStop hi
      match ← column.leafRows place stop with
      | none => some none
      | some leaf => do
        let walked ← listedLoop fl leaf stop kept pending
        match walked.2 with
        | [] => some (some walked.1)
        | next :: rest =>
          match ← seek fl column stop hi next with
          | none => some none
          | some place => listedFrom hi fuel place walked.1 (next :: rest)
    else some (some kept)

/-- Of ascending `rows`, those that the column's values at the run `lo..hi` list too. -/
def listedIn (rows : List ℕ) (lo hi : ℕ) : Option (Option (List ℕ)) := do
  let first ← rows.head?
  match ← seek fl column lo hi first with
  | none => some none
  | some place => listedFrom fl column hi (hi - lo) place [] rows

def POINT_CODES : ℕ := 1024

/-- The codes at ascending `rows`, by one take of the leaves holding them. -/
def takenCodes (rows : List ℕ) : Option (List ℕ) :=
  (column.take fl rows).map fun slots => slots.map fun slot => slot.getD 0

/-- The codes at ascending `rows` of one leaf, from `first` to `last`: through its probe, or taken
where it declines. -/
def leafCodes (rows : List ℕ) (first last : ℕ) : Option (List ℕ) := do
  match ← column.leafRows first (last + 1) with
  | some leaf => leaf.valuesAt fl rows (List.replicate rows.length 0)
  | none => takenCodes fl column rows

def takeCodesLoop : ℕ → List ℕ → Option (List ℕ)
  | _, [] => some []
  | 0, _ => none
  | fuel + 1, first :: rest => do
    let stop ← column.leafEnd first
    let inside ← ColumnChunks.rowsBefore (first :: rest) stop
    let leafRows := (first :: rest).take inside
    let last ← leafRows[inside - 1]?
    let codes ← leafCodes fl column leafRows first last
    let later ← takeCodesLoop fuel ((first :: rest).drop inside)
    some (codes ++ later)

/-- The codes at ascending `rows`. -/
def takeCodes (rows : List ℕ) : Option (List ℕ) :=
  if POINT_CODES < rows.length then takenCodes fl column rows
  else takeCodesLoop fl column rows.length rows

/-- The codes at the rows `lo..hi`. -/
def readCodes (lo hi : ℕ) : Option (List ℕ) :=
  if hi ≤ lo then some []
  else if hi - lo ≤ POINT_CODES then do
    match ← column.leafRows lo hi with
    | some leaf => leaf.readInto fl lo (List.replicate (hi - lo) 0)
    | none => takeCodes fl column (List.range' lo (hi - lo))
  else takeCodes fl column (List.range' lo (hi - lo))

/-- How many of the column's leaves hold ascending `rows`. -/
def leavesHoldingLoop : ℕ → List ℕ → Option ℕ
  | _, [] => some 0
  | 0, _ => none
  | fuel + 1, first :: rest => do
    let stop ← column.leafEnd first
    let inside ← ColumnChunks.rowsBefore (first :: rest) stop
    let later ← leavesHoldingLoop fuel ((first :: rest).drop inside)
    some (later + 1)

def leavesHolding (rows : List ℕ) : Option ℕ := leavesHoldingLoop column rows.length rows

end ColumnReads

/-! ### What a window reads -/

variable {fl : FastLanes} {C : ColumnChunks} {values : List ℕ}

namespace ColumnChunks

/-- A window of rows of a column, inside one leaf whose probe it reads. -/
def IsWindow (C : ColumnChunks) (lo hi : ℕ) (leaf : LeafRows) : Prop :=
  ∃ c, ∃ hc : c < C.chunks.length, C.chunks[c].fetched.resolved = some leaf.root ∧
    leaf.rowOffset = C.chunks[c].rowOffset ∧ leaf.rowOffset + leaf.start = lo ∧
    leaf.rowOffset + leaf.stop = hi ∧ lo ≤ hi ∧ hi ≤ C.chunks[c].endRow

theorem leafEnd_eq (h : C.Cut fl) {row : ℕ} (hrow : row < C.rowCount) :
    ∃ c, ∃ hc : c < C.chunks.length, C.leafHolding row = some c ∧
      C.leafEnd row = some C.chunks[c].endRow ∧ C.chunks[c].rowOffset ≤ row ∧
      row < C.chunks[c].endRow := by
  obtain ⟨c, hc, hholding, hlo, hhi⟩ := h.leafHolding_eq hrow
  refine ⟨c, hc, hholding, ?_, hlo, hhi⟩
  simp only [leafEnd, if_pos hrow, hholding, Option.bind_eq_bind, Option.bind_some,
    List.getElem?_eq_getElem hc]

/-- The rows are a window of their leaf, unless they span leaves or the leaf declines. -/
theorem leafRows_cases (h : C.Cut fl) {lo hi : ℕ} (hlt : lo < hi) (hhi : hi ≤ C.rowCount) :
    (∃ leaf, C.leafRows lo hi = some (some leaf) ∧ C.IsWindow lo hi leaf) ∨
      (C.leafRows lo hi = some none ∧
        (¬C.Resolved ∨ ∃ stop, C.leafEnd lo = some stop ∧ stop < hi)) := by
  obtain ⟨c, hc, hholding, hend, hoffset, hrow⟩ := leafEnd_eq h (show lo < C.rowCount by omega)
  simp only [leafRows, if_pos (And.intro hlt hhi), hholding, Option.bind_eq_bind, Option.bind_some,
    List.getElem?_eq_getElem hc]
  by_cases hspan : C.chunks[c].endRow < hi
  · rw [if_pos hspan]
    exact .inr ⟨rfl, .inr ⟨_, hend, hspan⟩⟩
  · rw [if_neg hspan, Cut.chunkProbe_eq hc]
    rcases hroot : C.chunks[c].fetched.resolved with _ | root
    · exact .inr ⟨rfl, .inl fun hresolved => hresolved _ (List.getElem_mem hc) hroot⟩
    · simp only [checkedSub_of_le hoffset,
        checkedSub_of_le (show C.chunks[c].rowOffset ≤ hi by omega), Option.bind_some]
      refine .inl ⟨_, rfl, c, hc, hroot, rfl, ?_, ?_, hlt.le, Nat.le_of_not_lt hspan⟩
      · exact Nat.add_sub_cancel' hoffset
      · exact Nat.add_sub_cancel' (hoffset.trans hlt.le)

section Window

variable {lo hi : ℕ} {leaf : LeafRows}

/-- A window's probe holds the column's values at its rows. -/
theorem IsWindow.reads (hwindow : C.IsWindow lo hi leaf) (h : C.Cut fl)
    (hv : C.concat fl = values.map some) : leaf.root.WellFormed fl ∧ leaf.rowOffset ≤ lo ∧
      hi ≤ leaf.rowOffset + leaf.root.len ∧ ∀ row, lo ≤ row → row < hi →
        leaf.root.value fl (row - leaf.rowOffset) = column values row := by
  obtain ⟨c, hc, hroot, hoffset, hstart, hstop, -, hend⟩ := hwindow
  obtain ⟨hwf, hlen⟩ := leaf_wellFormed h hc hroot
  rw [ChunkLeaf.endRow, ← hoffset, ← hlen] at hend
  refine ⟨hwf, by omega, by omega, fun row hlo hhi => ?_⟩
  have hvalue := leaf_value h hv hc hroot (k := row - leaf.rowOffset) (by omega)
  rw [hvalue, ← hoffset, Nat.add_sub_cancel' (by omega)]

/-- A search of a window is bounded by the column's partition points in it. -/
theorem IsWindow.bounds (hwindow : C.IsWindow lo hi leaf) (h : C.Cut fl)
    (hv : C.concat fl = values.map some) (hasc : AscendingOn (column values) lo hi) (needle : ℕ) :
    ∃ a b, leaf.bounds fl needle = some (a, b) ∧
      IsPartitionPoint (fun i => column values i < needle) lo hi a ∧
      IsPartitionPoint (fun i => column values i ≤ needle) lo hi b := by
  obtain ⟨c, hc, hroot, hoffset, hstart, hstop, hle, hend⟩ := hwindow
  obtain ⟨hwf, hlen⟩ := leaf_wellFormed h hc hroot
  rw [ChunkLeaf.endRow] at hend
  have hwithin : leaf.stop ≤ C.chunks[c].rowCount := by omega
  have hlasc : AscendingOn (leaf.root.value fl) leaf.start leaf.stop :=
    leaf_ascending h hv hc hroot hasc (by omega) (by omega) hwithin
  obtain ⟨a, b, hbounds, ha, hb⟩ := boundsIn_spec (wellFormed_sound hwf)
    (show leaf.start ≤ leaf.stop by omega) (by omega) hlasc needle
  have ha' := @leaf_point _ _ _ h hv _ hc _ hroot (· < needle) _ _ _ hwithin ha
  have hb' := @leaf_point _ _ _ h hv _ hc _ hroot (· ≤ needle) _ _ _ hwithin hb
  rw [← hoffset, hstart, hstop] at ha' hb'
  exact ⟨_, _, by rw [LeafRows.bounds, hbounds]; rfl, ha', hb'⟩

theorem IsWindow.valueAt (hwindow : C.IsWindow lo hi leaf) (h : C.Cut fl)
    (hv : C.concat fl = values.map some) {row : ℕ} (hlo : lo ≤ row) (hhi : row < hi) :
    leaf.valueAt fl row = some (column values row) := by
  obtain ⟨hwf, hoffset, hlen, hvalue⟩ := hwindow.reads h hv
  obtain ⟨_, _, -, -, hstart, hstop, -, -⟩ := hwindow
  have hplace : row - leaf.rowOffset < leaf.root.len := by omega
  rw [LeafRows.valueAt, if_pos (by omega), SortedProbe.valueAt, if_pos hplace,
    (wellFormed_sound hwf).reads _ (Nat.zero_le _) hplace, hvalue row hlo hhi]

theorem IsWindow.readInto (hwindow : C.IsWindow lo hi leaf) (h : C.Cut fl)
    (hv : C.concat fl = values.map some) {first : ℕ} {out : List ℕ} (hlo : lo ≤ first)
    (hhi : first + out.length ≤ hi) : leaf.readInto fl first out =
      some ((List.range' first out.length).map (column values)) := by
  obtain ⟨hwf, hoffset, hlen, hvalue⟩ := hwindow.reads h hv
  obtain ⟨_, _, -, -, hstart, hstop, -, -⟩ := hwindow
  rw [LeafRows.readInto, if_pos (by omega), readInto_eq hwf (by omega)]
  congr 1
  refine List.ext_getElem (by simp) fun k hk _ => ?_
  rw [valuesFrom_length] at hk
  simp only [valuesFrom, List.getElem_map, List.getElem_range, List.getElem_range', Nat.one_mul]
  rw [← hvalue (first + k) (by omega) (by omega)]
  congr 1
  omega

theorem IsWindow.valuesAtLoop (hwindow : C.IsWindow lo hi leaf) (h : C.Cut fl)
    (hv : C.concat fl = values.map some) {fuel : ℕ} {rows out : List ℕ}
    (hfuel : rows.length ≤ fuel) (hout : rows.length = out.length)
    (hin : ∀ row ∈ rows, lo ≤ row ∧ row < hi) :
    leaf.valuesAtLoop fl fuel rows out = some (rows.map (column values)) := by
  induction fuel generalizing rows out with
  | zero =>
    rw [Nat.le_zero, List.length_eq_zero_iff] at hfuel
    rw [hfuel]
    rfl
  | succ fuel ih =>
    cases rows with
    | nil => rfl
    | cons row rest =>
      obtain ⟨hpos, hle, htake⟩ := take_consecutiveRun row rest
      rw [LeafRows.valuesAtLoop]
      generalize consecutiveRun (row :: rest) = run at hpos hle htake ⊢
      -- the rows of the run count up from its first, all within the window
      have hfirst := hin row List.mem_cons_self
      have hlast : row + run ≤ hi := by
        have hmem : row + (run - 1) ∈ (row :: rest).take run := by
          rw [htake, List.mem_range'_1]
          omega
        have hwithin := hin _ (List.mem_of_mem_take hmem)
        omega
      have hvalues : (if run = 1 then (leaf.valueAt fl row).map ([·])
          else leaf.readInto fl row (out.take run)) =
          some ((List.range' row run).map (column values)) := by
        split_ifs with hone
        · rw [hwindow.valueAt h hv hfirst.1 hfirst.2, hone]
          rfl
        · have htaken : (out.take run).length = run := by
            rw [List.length_take, ← hout]
            omega
          rw [hwindow.readInto h hv hfirst.1 (by omega), htaken]
      rw [hvalues, Option.bind_some, ih, Option.map_some, ← htake, ← List.map_append,
        List.take_append_drop]
      · rw [List.length_drop]
        omega
      · rw [List.length_drop, List.length_drop, hout]
      · exact fun i hi => hin i (List.mem_of_mem_drop hi)

theorem IsWindow.valuesAt (hwindow : C.IsWindow lo hi leaf) (h : C.Cut fl)
    (hv : C.concat fl = values.map some) {rows out : List ℕ} (hout : rows.length = out.length)
    (hin : ∀ row ∈ rows, lo ≤ row ∧ row < hi) :
    leaf.valuesAt fl rows out = some (rows.map (column values)) := by
  rw [LeafRows.valuesAt, if_pos hout]
  exact hwindow.valuesAtLoop h hv le_rfl hout hin

end Window

/-! ### What a take reads -/

/-- Bisection counts the ascending rows before a stop. -/
theorem rowsBefore_eq {rows : List ℕ} (hasc : rows.Pairwise (· ≤ ·)) (stop : ℕ) :
    ∃ inside, rowsBefore rows stop = some inside ∧ inside ≤ rows.length ∧
      (∀ row ∈ rows.take inside, row < stop) ∧ ∀ row ∈ rows.drop inside, stop ≤ row := by
  have hread : ReadsOn (fun i => (rows[i]?).map fun row => decide (row < stop))
      (fun i => decide (rows.getD i 0 < stop)) 0 rows.length := by
    intro i _ hi
    simp [List.getElem?_eq_getElem hi, List.getD_eq_getElem?_getD]
  have hdown : DownClosedOn (fun i => rows.getD i 0 < stop) 0 rows.length := by
    intro i j _ hij hj hlt
    rcases Nat.eq_or_lt_of_le hij with rfl | hij
    · exact hlt
    · have hle := List.pairwise_iff_getElem.mp hasc i j (by omega) hj hij
      simp only [List.getD_eq_getElem?_getD, List.getElem?_eq_getElem hj,
        List.getElem?_eq_getElem (show i < rows.length by omega), Option.getD_some] at hlt ⊢
      omega
  obtain ⟨k, hk, hpoint⟩ := bisect_spec (Nat.zero_le _) hread hdown
  refine ⟨k, hk, hpoint.le, ?_, ?_⟩
  · intro row hrow
    obtain ⟨i, hi, rfl⟩ := List.getElem_of_mem hrow
    rw [List.length_take] at hi
    have hlt := hpoint.before i (Nat.zero_le _) (by omega)
    simpa [List.getD_eq_getElem?_getD, List.getElem?_eq_getElem (show i < rows.length by omega)]
      using hlt
  · intro row hrow
    obtain ⟨i, hi, rfl⟩ := List.getElem_of_mem hrow
    rw [List.length_drop] at hi
    have hge := hpoint.after (k + i) (by omega) (by omega)
    simpa [List.getD_eq_getElem?_getD,
      List.getElem?_eq_getElem (show k + i < rows.length by omega)] using hge

/-- The rows before a stop past the first of them: some, and none of the others. -/
theorem rowsBefore_group {first stop : ℕ} {rest : List ℕ} (hasc : (first :: rest).Pairwise (· ≤ ·))
    (hstop : first < stop) :
    ∃ inside, rowsBefore (first :: rest) stop = some inside ∧ 0 < inside ∧
      inside ≤ (first :: rest).length ∧
      (∀ row ∈ (first :: rest).take inside, first ≤ row ∧ row < stop) ∧
      ∀ row ∈ (first :: rest).drop inside, stop ≤ row := by
  obtain ⟨inside, hinside, hle, hbefore, hafter⟩ := rowsBefore_eq hasc stop
  have hleast : ∀ row ∈ first :: rest, first ≤ row := by
    intro row hrow
    rcases List.mem_cons.mp hrow with rfl | hlater
    · exact le_rfl
    · exact (List.pairwise_cons.mp hasc).1 row hlater
  refine ⟨inside, hinside, ?_, hle,
    fun row hrow => ⟨hleast row (List.mem_of_mem_take hrow), hbefore row hrow⟩, hafter⟩
  by_contra hzero
  obtain rfl : inside = 0 := by omega
  have hpast := hafter first List.mem_cons_self
  omega

/-- A leaf's slot is the column's value. -/
theorem leaf_decoded (h : C.Cut fl) (hv : C.concat fl = values.map some) {c : ℕ}
    (hc : c < C.chunks.length) {row : ℕ} (hlo : C.chunks[c].rowOffset ≤ row)
    (hhi : row < C.chunks[c].endRow) (hrow : row < values.length) :
    (C.chunks[c].fetched.decoded fl)[row - C.chunks[c].rowOffset]? =
      some (some (column values row)) := by
  rw [ChunkLeaf.endRow] at hhi
  have hplace : row - C.chunks[c].rowOffset < C.chunks[c].rowCount := by omega
  have hget := h.concat_getElem? hc hplace
  rw [Nat.add_sub_cancel' hlo, hv, List.getElem?_map, List.getElem?_eq_getElem hrow,
    Option.map_some] at hget
  rw [← hget, column, List.getD_eq_getElem?_getD, List.getElem?_eq_getElem hrow, Option.getD_some]

/-- From a leaf at or before the one that holds a row, bisection finds that one. -/
theorem skipped_eq (h : C.Cut fl) {idx row : ℕ} (hidx : idx ≤ C.chunks.length)
    (hbound : C.leafBound idx ≤ row) (hrow : row < C.rowCount) :
    ∃ skipped, partition (C.chunks.length - idx) (fun c =>
        (C.chunks[idx + c]?).map fun leaf => decide (leaf.endRow ≤ row)) = some skipped ∧
      ∃ hc : idx + skipped < C.chunks.length, C.chunks[idx + skipped].rowOffset ≤ row ∧
        row < C.chunks[idx + skipped].endRow := by
  obtain ⟨c, hc, -, hlo, hhi⟩ := h.leafHolding_eq hrow
  have hseg := h.segments
  have hle : idx ≤ c := by
    by_contra hlt
    have hbefore := hseg.le (show c + 1 ≤ idx by omega) hidx
    rw [h.leafBound_succ hc] at hbefore
    omega
  have hsame : idx + (c - idx) = c := by omega
  have hread : ReadsOn (fun i => (C.chunks[idx + i]?).map fun leaf => decide (leaf.endRow ≤ row))
      (fun i => decide (C.leafBound (idx + i + 1) ≤ row)) 0 (C.chunks.length - idx) := by
    intro i _ hi
    have hplace : idx + i < C.chunks.length := by omega
    simp only [List.getElem?_eq_getElem hplace, Option.map_some, h.leafBound_succ hplace]
  have hdown : DownClosedOn (fun i => C.leafBound (idx + i + 1) ≤ row) 0
      (C.chunks.length - idx) := by
    intro i j _ hij hj hle'
    exact le_trans (hseg.le (by omega) (by omega)) hle'
  have hpoint : IsPartitionPoint (fun i => C.leafBound (idx + i + 1) ≤ row) 0
      (C.chunks.length - idx) (c - idx) := by
    refine ⟨Nat.zero_le _, by omega, fun i _ hi => ?_, fun i hi hlast hle' => ?_⟩
    · have hbefore := hseg.le (show idx + i + 1 ≤ c by omega) hc.le
      rw [Cut.leafBound_eq hc] at hbefore
      exact hbefore.trans hlo
    · have hafter := hseg.le (show c + 1 ≤ idx + i + 1 by omega) (by omega)
      rw [h.leafBound_succ hc] at hafter
      omega
  refine ⟨c - idx, bisect_eq hread hdown hpoint, by omega, ?_, ?_⟩
  · simpa only [hsame] using hlo
  · simpa only [hsame] using hhi

theorem takeLoop_eq (h : C.Cut fl) (hv : C.concat fl = values.map some) {fuel idx : ℕ}
    {rows : List ℕ} (hfuel : rows.length ≤ fuel) (hasc : rows.Pairwise (· ≤ ·))
    (hrows : ∀ row ∈ rows, row < values.length) (hidx : idx ≤ C.chunks.length)
    (hbound : ∀ row ∈ rows, C.leafBound idx ≤ row) :
    C.takeLoop fl fuel idx rows = some (rows.map fun row => some (column values row)) := by
  have hlen : values.length = C.rowCount := by
    rw [← h.concat_length, hv, List.length_map]
  induction fuel generalizing idx rows with
  | zero =>
    rw [Nat.le_zero, List.length_eq_zero_iff] at hfuel
    rw [hfuel]
    rfl
  | succ fuel ih =>
    cases rows with
    | nil => rfl
    | cons first rest =>
      have hfirst := hrows first List.mem_cons_self
      obtain ⟨skipped, hskip, hc, hlo, hhi⟩ := skipped_eq h hidx
        (hbound first List.mem_cons_self) (hlen ▸ hfirst)
      obtain ⟨inside, hinside, hpos, -, hbefore, hafter⟩ := rowsBefore_group hasc hhi
      -- the rows up to the leaf's end are taken from it, the rest from the leaves behind
      have hin : ∀ row ∈ (first :: rest).take inside,
          C.chunks[idx + skipped].rowOffset ≤ row := fun row hrow => hlo.trans (hbefore row hrow).1
      have hoffsets : ((first :: rest).take inside).mapM
          (fun row => checkedSub row C.chunks[idx + skipped].rowOffset) =
          some (((first :: rest).take inside).map
            fun row => row - C.chunks[idx + skipped].rowOffset) :=
        mapM_some fun row hrow => checkedSub_of_le (hin row hrow)
      have hpart : (((first :: rest).take inside).map
          fun row => row - C.chunks[idx + skipped].rowOffset).mapM
            (fun offset => (C.chunks[idx + skipped].fetched.decoded fl)[offset]?) =
          some (((first :: rest).take inside).map fun row => some (column values row)) := by
        rw [List.mapM_map]
        exact mapM_some fun row hrow => leaf_decoded h hv hc (hin row hrow) (hbefore row hrow).2
          (hrows row (List.mem_of_mem_take hrow))
      have hbound' : ∀ row ∈ (first :: rest).drop inside, C.leafBound (idx + skipped) ≤ row := by
        intro row hrow
        rw [Cut.leafBound_eq hc]
        exact (hlo.trans hhi.le).trans (hafter row hrow)
      have hlater : C.takeLoop fl fuel (idx + skipped) ((first :: rest).drop inside) =
          some (((first :: rest).drop inside).map fun row => some (column values row)) :=
        ih (by simp only [List.length_drop, List.length_cons] at hfuel ⊢; omega)
          (hasc.sublist (List.drop_sublist inside _))
          (fun row hrow => hrows row (List.mem_of_mem_drop hrow)) hc.le hbound'
      rw [takeLoop, if_pos (hlen ▸ hfirst)]
      simp only [hskip, Option.bind_eq_bind, Option.bind_some, List.getElem?_eq_getElem hc, hinside,
        hoffsets, hpart, hlater]
      rw [← List.map_append, List.take_append_drop]

theorem take_eq (h : C.Cut fl) (hv : C.concat fl = values.map some) {rows : List ℕ}
    (hasc : rows.Pairwise (· ≤ ·)) (hrows : ∀ row ∈ rows, row < values.length) :
    C.take fl rows = some (rows.map fun row => some (column values row)) :=
  takeLoop_eq h hv le_rfl hasc hrows (Nat.zero_le _) fun row _ => by
    rw [h.segments.first]
    exact Nat.zero_le row

end ColumnChunks

end EncodedSearch
