/-
A column cut into chunk leaves (`encoded-search/src/layout.rs`).

A leaf is fetched on first use and resolved to a probe, or declines; a search
that needs a leaf that declines answers nothing, for its caller to scan instead.
The cells that keep what was fetched hold what a fetch yields, and are that
value here.

* `bounds_answers`, `lowerBound_answers`, `boundsIn_answers` — the sorted
  searches answer with the partition points of the joined values;
* `valuesAt_answers`, `countEq_answers` — reads and counts of any column.

A failing step is `none`; a search that declines is `some none`.
-/
import VortexRdf.Probe

open Bisect Buffers

namespace EncodedSearch

/-- A fetched chunk leaf: its resolved probe, or, when its encoding declines,
the values it decodes to and which of them are valid. -/
inductive FetchedLeaf
  | probe (root : Node)
  | declined (values : Words) (valid : List Bool)

/-- The resolved probe; `none` when the encoding declined it. -/
def FetchedLeaf.resolved : FetchedLeaf → Option Node
  | .probe root => some root
  | .declined _ _ => none

/-- One flat chunk leaf: its first row in the column, and its rows. -/
structure ChunkLeaf where
  rowOffset : ℕ
  rowCount : ℕ
  fetched : FetchedLeaf

/-- The column row past the leaf's last row. -/
def ChunkLeaf.endRow (leaf : ChunkLeaf) : ℕ := leaf.rowOffset + leaf.rowCount

/-- The flat chunk leaves of one column. -/
structure ColumnChunks where
  chunks : List ChunkLeaf
  rowCount : ℕ

/-- A row window of a column inside one chunk leaf, in the leaf's rows. -/
structure LeafRows where
  root : Node
  rowOffset : ℕ
  start : ℕ
  stop : ℕ

/-- How many of a decoded leaf's valid `values` equal `needle`. -/
def countDecodedEq (w : WordWidth) (values : List ℕ) (valid : List Bool) (needle : ℕ) : ℕ :=
  if needle < 2 ^ w.bits then
    ((values.zip valid).filter fun (v, ok) => v == needle && ok).length
  else 0

/-- The length of the run of consecutive rows that `rows` starts with, at least
one. -/
def consecutiveRun : List ℕ → ℕ
  | a :: b :: rest => if b = a + 1 then consecutiveRun (b :: rest) + 1 else 1
  | _ => 1

variable (fl : FastLanes)

/-- The window's rows equal to `needle`, absolute. -/
def LeafRows.bounds (l : LeafRows) (needle : ℕ) : Option (ℕ × ℕ) :=
  (SortedProbe.boundsIn fl l.root l.start l.stop needle).map fun (lo, hi) =>
    (l.rowOffset + lo, l.rowOffset + hi)

/-- Bisection over the leaves' last values. -/
def firstReachingLoop (last : ℕ → Option (Option ℕ)) (needle : ℕ) :
    ℕ → ℕ → ℕ → Option (Option ℕ)
  | 0, lo, _ => some (some lo)
  | fuel + 1, lo, hi =>
    if lo < hi then do
      let mid := lo + (hi - lo) / 2
      match ← last mid with
      | none => some none
      | some v =>
        if v < needle then firstReachingLoop last needle fuel (mid + 1) hi
        else firstReachingLoop last needle fuel lo mid
    else some (some lo)

/-- The values at the rows from `i` to `stop` of one leaf, a run of consecutive
rows at a time. -/
def leafRunsLoop (root : Node) (rowOffset : ℕ) (rows : List ℕ) (stop : ℕ) :
    ℕ → ℕ → List ℕ → Option (List ℕ)
  | 0, _, values => some values
  | fuel + 1, i, values =>
    if i < stop then do
      let piece ← sliceOf rows i stop
      let run := consecutiveRun piece
      let row ← rows[i]?
      let place ← checkedSub row rowOffset
      if run = 1 then do
        let v ← SortedProbe.valueAt fl root place
        let values ← writeAt values i [v]
        leafRunsLoop root rowOffset rows stop fuel (i + run) values
      else do
        let part ← sliceOf values i (i + run)
        let part ← SortedProbe.readInto fl root place part
        let values ← writeAt values i part
        leafRunsLoop root rowOffset rows stop fuel (i + run) values
    else some values

namespace ColumnChunks

variable (C : ColumnChunks)

/-- The chunk's resolved probe; `some none` when its encoding declines. -/
def chunkProbe (idx : ℕ) : Option (Option Node) :=
  (C.chunks[idx]?).map fun leaf => leaf.fetched.resolved

/-- Chunk `idx`'s last value. -/
def chunkLast (idx : ℕ) : Option (Option ℕ) := do
  match ← C.chunkProbe idx with
  | none => some none
  | some root => do
    let last ← checkedSub root.len 1
    let v ← SortedProbe.valueAt fl root last
    some (some v)

/-- Index of the first chunk of `lo..hi` whose last value is `>= needle`. -/
def firstReaching (lo hi needle : ℕ) : Option (Option ℕ) :=
  firstReachingLoop (C.chunkLast fl) needle (hi - lo) lo hi

/-- Global row of the first value `>= needle`. -/
def lowerBound (needle : ℕ) : Option (Option ℕ) := do
  match ← C.firstReaching fl 0 C.chunks.length needle with
  | none => some none
  | some lo =>
    if lo = C.chunks.length then some (some C.rowCount)
    else do
      match ← C.chunkProbe lo with
      | none => some none
      | some root => do
        let leaf ← C.chunks[lo]?
        let place ← root.lowerBound fl needle
        some (some (leaf.rowOffset + place))

/-- The lower bound of `needle + 1`, the row count when `needle` is `u64::MAX`. -/
def upperBound (needle : ℕ) : Option (Option ℕ) :=
  match checkedSucc needle with
  | some next => C.lowerBound fl next
  | none => some (some C.rowCount)

/-- Global `[lo, hi)` of `needle`. -/
def bounds (needle : ℕ) : Option (Option (ℕ × ℕ)) := do
  match ← C.firstReaching fl 0 C.chunks.length needle with
  | none => some none
  | some idx =>
    if idx = C.chunks.length then some (some (C.rowCount, C.rowCount))
    else do
      match ← C.chunkProbe idx with
      | none => some none
      | some root => do
        let leaf ← C.chunks[idx]?
        let (lo, hi) ← root.bounds fl needle
        let lower := leaf.rowOffset + lo
        if hi < leaf.rowCount then some (some (lower, leaf.rowOffset + hi))
        else do
          -- A run that reaches the chunk's end may continue into the next ones.
          let upper ← C.upperBound fl needle
          some (upper.map fun upper => (lower, max upper lower))

/-- Index of the chunk leaf holding `row`: the leaf count for a row past every
leaf. -/
def leafHolding (row : ℕ) : Option ℕ :=
  partition C.chunks.length fun c => (C.chunks[c]?).map fun leaf => decide (leaf.endRow ≤ row)

/-- The part of the window `lo..hi` in the leaf holding its first row whose
value is `>= needle`: the first leaf whose last row in the window reaches the
needle. -/
def windowLeaf (lo hi needle : ℕ) : Option (Option LeafRows) := do
  let first ← C.leafHolding lo
  let lastRow ← checkedSub hi 1
  let last ← C.leafHolding lastRow
  match ← C.firstReaching fl first (max last first) needle with
  | none => some none
  | some c => do
    let leaf ← C.chunks[c]?
    match ← C.chunkProbe c with
    | none => some none
    | some root => do
      let stop ← checkedSub (min hi leaf.endRow) leaf.rowOffset
      some (some ⟨root, leaf.rowOffset, max lo leaf.rowOffset - leaf.rowOffset, stop⟩)

/-- `bounds` restricted to `lo..hi`, in absolute rows. -/
def boundsIn (lo hi needle : ℕ) : Option (Option (ℕ × ℕ)) :=
  if hi ≤ C.rowCount then
    if lo < hi then do
      match ← C.windowLeaf fl lo hi needle with
      | none => some none
      | some leaf => do
        let (a, b) ← leaf.bounds fl needle
        if b < leaf.rowOffset + leaf.stop ∨ b = hi then some (some (a, b))
        else
          match checkedSucc needle with
          | some next => do
            match ← C.windowLeaf fl b hi next with
            | none => some none
            | some leaf => do
              let (upper, _) ← leaf.bounds fl next
              some (some (a, upper))
          | none => some (some (a, hi))
    else some (some (lo, lo))
  else none

/-- Exact value at global `row`. -/
def valueAt (row : ℕ) : Option (Option ℕ) :=
  if row < C.rowCount then do
    let holding ← C.leafHolding row
    let last ← checkedSub C.chunks.length 1
    let leaf ← C.chunks[min holding last]?
    match ← C.chunkProbe (min holding last) with
    | none => some none
    | some root => do
      let place ← checkedSub row leaf.rowOffset
      let v ← SortedProbe.valueAt fl root place
      some (some v)
  else none

/-- The values at the rows from `i` on, leaf by leaf. -/
def valuesAtLoop (rows : List ℕ) : ℕ → ℕ → List ℕ → Option (Option (List ℕ))
  | 0, _, values => some (some values)
  | fuel + 1, i, values =>
    if i < rows.length then do
      let row ← rows[i]?
      if row < C.rowCount then do
        let idx ← C.leafHolding row
        let leaf ← C.chunks[idx]?
        let inLeaf := (rows.drop i).takeWhile fun row =>
          decide (leaf.rowOffset ≤ row ∧ row < leaf.endRow)
        match ← C.chunkProbe idx with
        | none => some none
        | some root => do
          let values ← leafRunsLoop fl root leaf.rowOffset rows (i + inLeaf.length) inLeaf.length i
            values
          valuesAtLoop rows fuel (i + inLeaf.length) values
      else none
    else some (some values)

/-- Exact values at global `rows`, in their order. -/
def valuesAt (rows : List ℕ) : Option (Option (List ℕ)) :=
  match rows with
  | [row] => (C.valueAt fl row).map fun v => v.map fun v => [v]
  | rows => C.valuesAtLoop fl rows rows.length 0 (List.replicate rows.length 0)

/-- How many of a leaf's values at `a..b` equal `needle`: through its probe, or
decoded. -/
def leafCount (fetched : FetchedLeaf) (a b needle : ℕ) : Option ℕ :=
  match fetched with
  | .probe root => SortedProbe.countEq fl root a (b - a) needle
  | .declined values valid => do
    let part ← sliceOf values.words a b
    let mask ← sliceOf valid a b
    some (countDecodedEq values.width part mask needle)

/-- The rows from `place` on, counted leaf by leaf. -/
def countEqLoop (hi needle : ℕ) : ℕ → ℕ → ℕ → Option ℕ
  | 0, _, count => some count
  | fuel + 1, place, count =>
    if place < hi then do
      let idx ← C.leafHolding place
      let leaf ← C.chunks[idx]?
      let stop := min hi leaf.endRow
      let a ← checkedSub place leaf.rowOffset
      let b ← checkedSub stop leaf.rowOffset
      let n ← leafCount fl leaf.fetched a b needle
      countEqLoop hi needle fuel stop (count + n)
    else some count

/-- How many of the values at the rows `lo..hi` equal `needle`. -/
def countEq (lo hi needle : ℕ) : Option ℕ :=
  if hi ≤ C.rowCount then C.countEqLoop fl hi needle (hi - lo) lo 0 else none

end ColumnChunks

/-! ### The joined column -/

/-- A leaf's values, a null slot holding none. -/
def FetchedLeaf.decoded : FetchedLeaf → List (Option ℕ)
  | .probe root => (valuesFrom (root.value fl) 0 root.len).map some
  | .declined values valid => values.words.zipWith (fun v ok => if ok then some v else none) valid

/-- A fetched leaf holds as many values as its layout says, and its probe is well
formed. -/
def ChunkLeaf.Holds (leaf : ChunkLeaf) : Prop :=
  match leaf.fetched with
  | .probe root => root.WellFormed fl ∧ root.len = leaf.rowCount
  | .declined values valid => values.len = leaf.rowCount ∧ valid.length = leaf.rowCount

namespace ColumnChunks

/-- The column is cut into leaves that follow each other, none of them empty. -/
structure Cut (C : ColumnChunks) : Prop where
  follow : ChunksFollow (fun c : Fin C.chunks.length => C.chunks[c].rowOffset)
    (fun c => C.chunks[c].rowCount) C.rowCount
  holds : ∀ leaf ∈ C.chunks, leaf.Holds fl

/-- The values of each leaf. -/
def parts (C : ColumnChunks) : List (List (Option ℕ)) :=
  C.chunks.map fun leaf => leaf.fetched.decoded fl

/-- The values of the leaves, joined. -/
def concat (C : ColumnChunks) : List (Option ℕ) := (C.parts fl).flatten

/-- No leaf's encoding declines. -/
def Resolved (C : ColumnChunks) : Prop := ∀ leaf ∈ C.chunks, leaf.fetched.resolved ≠ none

/-- A search answers as `p` says, or declines because a leaf does. -/
def Answers {α : Type} (C : ColumnChunks) (act : Option (Option α)) (p : α → Prop) : Prop :=
  (∃ a, act = some (some a) ∧ p a) ∨ (act = some none ∧ ¬ C.Resolved)

/-- Row where leaf `c` begins, or the row count past the last. -/
def leafBound (C : ColumnChunks) : ℕ → ℕ :=
  chunkBound (fun c : Fin C.chunks.length => C.chunks[c].rowOffset) C.rowCount

variable {fl} {C : ColumnChunks}

theorem decoded_length {leaf : ChunkLeaf} (h : leaf.Holds fl) :
    (leaf.fetched.decoded fl).length = leaf.rowCount := by
  rw [ChunkLeaf.Holds] at h
  rcases hf : leaf.fetched with root | ⟨values, valid⟩
  · rw [hf] at h
    rw [FetchedLeaf.decoded, List.length_map, valuesFrom_length, h.2]
  · rw [hf] at h
    have hlen : values.words.length = leaf.rowCount := h.1
    rw [FetchedLeaf.decoded, List.length_zipWith, hlen, h.2, Nat.min_self]

namespace Cut

theorem segments (h : C.Cut fl) : Segments C.leafBound C.chunks.length := h.follow.segments

theorem leafBound_eq {c : ℕ} (hc : c < C.chunks.length) :
    C.leafBound c = C.chunks[c].rowOffset := ChunksFollow.chunkBound_eq _ _ ⟨c, hc⟩

theorem leafBound_length (C : ColumnChunks) : C.leafBound C.chunks.length = C.rowCount :=
  ChunksFollow.chunkBound_count _ _

theorem leafBound_succ (h : C.Cut fl) {c : ℕ} (hc : c < C.chunks.length) :
    C.leafBound (c + 1) = C.chunks[c].endRow := (h.follow.next ⟨c, hc⟩).symm

theorem rowCount_pos (h : C.Cut fl) {c : ℕ} (hc : c < C.chunks.length) :
    0 < C.chunks[c].rowCount := h.follow.held ⟨c, hc⟩

theorem parts_length (C : ColumnChunks) : (C.parts fl).length = C.chunks.length :=
  List.length_map _

theorem parts_next (h : C.Cut fl) : ∀ c (hc : c < (C.parts fl).length),
    C.leafBound (c + 1) = C.leafBound c + ((C.parts fl)[c]).length := by
  intro c hc
  have hc' : c < C.chunks.length := by rwa [parts_length] at hc
  have hlen := decoded_length (h.holds _ (List.getElem_mem hc'))
  rw [h.leafBound_succ hc', leafBound_eq hc', ChunkLeaf.endRow, ← hlen]
  simp only [parts, List.getElem_map]

theorem concat_length (h : C.Cut fl) : (C.concat fl).length = C.rowCount := by
  have hlen := length_flatten_take h.segments.first h.parts_next le_rfl
  rw [List.take_length, parts_length, leafBound_length] at hlen
  exact hlen

theorem concat_getElem? (h : C.Cut fl) {c k : ℕ} (hc : c < C.chunks.length)
    (hk : k < C.chunks[c].rowCount) :
    (C.concat fl)[C.chunks[c].rowOffset + k]? = (C.chunks[c].fetched.decoded fl)[k]? := by
  have hc' : c < (C.parts fl).length := by rwa [parts_length]
  have hpart : (C.parts fl)[c] = C.chunks[c].fetched.decoded fl := List.getElem_map _
  have hlen := decoded_length (h.holds _ (List.getElem_mem hc))
  have hget := @flatten_getElem? _ _ _ h.segments.first h.parts_next c k hc'
    (by rw [hpart, hlen]; exact hk)
  rwa [hpart, leafBound_eq hc] at hget

/-- The search for a row's leaf finds it. -/
theorem leafHolding_eq (h : C.Cut fl) {row : ℕ} (hrow : row < C.rowCount) :
    ∃ c, ∃ hc : c < C.chunks.length, C.leafHolding row = some c ∧
      C.chunks[c].rowOffset ≤ row ∧ row < C.chunks[c].endRow := by
  obtain ⟨c, hc, hlo, hhi⟩ := h.segments.exists_segment
    (show row < C.leafBound C.chunks.length by rw [leafBound_length]; exact hrow)
  refine ⟨c, hc, ?_, by rwa [← leafBound_eq hc], by rwa [← h.leafBound_succ hc]⟩
  refine bisect_eq (fun r _ hr => ?_) ?_ (h.segments.end_point hc hlo hhi)
  · simp only [List.getElem?_eq_getElem hr, Option.map_some, h.leafBound_succ hr]
  · intro i j _ hij hj hle
    exact le_trans (h.segments.le (by omega) (by omega)) hle

theorem chunkProbe_eq {c : ℕ} (hc : c < C.chunks.length) :
    C.chunkProbe c = some C.chunks[c].fetched.resolved := by
  rw [chunkProbe, List.getElem?_eq_getElem hc, Option.map_some]

end Cut

section Joined

variable {values : List ℕ}

/-- The joined values, by row. -/
def column (values : List ℕ) (row : ℕ) : ℕ := values.getD row 0

theorem column_of_getElem? {row v : ℕ} (h : values[row]? = some v) : column values row = v := by
  rw [column, List.getD_eq_getElem?_getD, h, Option.getD_some]

/-- A resolved leaf's values are the column's at its rows. -/
theorem leaf_value (h : C.Cut fl) (hv : C.concat fl = values.map some) {c : ℕ}
    (hc : c < C.chunks.length) {root : Node} (hroot : C.chunks[c].fetched.resolved = some root)
    {k : ℕ} (hk : k < C.chunks[c].rowCount) :
    root.value fl k = column values (C.chunks[c].rowOffset + k) := by
  have hget := h.concat_getElem? hc hk
  have hholds := h.holds _ (List.getElem_mem hc)
  rw [ChunkLeaf.Holds] at hholds
  rcases hf : C.chunks[c].fetched with root' | ⟨words, valid⟩
  · rw [hf] at hholds hroot hget
    obtain rfl : root' = root := Option.some_inj.mp hroot
    rw [hv, List.getElem?_map, FetchedLeaf.decoded, List.getElem?_map,
      valuesFrom_getElem? _ _ (by rw [hholds.2]; exact hk), Nat.zero_add, Option.map_some] at hget
    obtain ⟨v, hval, hsome⟩ := Option.map_eq_some_iff.mp hget
    rw [column_of_getElem? hval, Option.some_inj.mp hsome]
  · rw [hf] at hroot
    exact absurd hroot (by simp [FetchedLeaf.resolved])

theorem leaf_wellFormed (h : C.Cut fl) {c : ℕ} (hc : c < C.chunks.length) {root : Node}
    (hroot : C.chunks[c].fetched.resolved = some root) :
    root.WellFormed fl ∧ root.len = C.chunks[c].rowCount := by
  have hholds := h.holds _ (List.getElem_mem hc)
  rw [ChunkLeaf.Holds] at hholds
  rcases hf : C.chunks[c].fetched with root' | ⟨words, valid⟩
  · rw [hf] at hholds hroot
    obtain rfl : root' = root := Option.some_inj.mp hroot
    exact hholds
  · rw [hf] at hroot
    exact absurd hroot (by simp [FetchedLeaf.resolved])

/-- Every value of the column is a `u64`. -/
theorem column_le (h : C.Cut fl) (hv : C.concat fl = values.map some) {row : ℕ}
    (hrow : row < C.rowCount) : column values row ≤ u64Max := by
  obtain ⟨c, hc, -, hlo, hhi⟩ := h.leafHolding_eq hrow
  rw [ChunkLeaf.endRow] at hhi
  obtain ⟨k, rfl⟩ : ∃ k, row = C.chunks[c].rowOffset + k :=
    ⟨row - C.chunks[c].rowOffset, by omega⟩
  rcases hf : C.chunks[c].fetched with root | ⟨words, valid⟩
  · have hroot : C.chunks[c].fetched.resolved = some root := by rw [hf]; rfl
    obtain ⟨hwf, hlen⟩ := leaf_wellFormed h hc hroot
    rw [← leaf_value h hv hc hroot (by omega)]
    exact (wellFormed_sound hwf).value_le k (by omega)
  · have hget := h.concat_getElem? hc (show k < C.chunks[c].rowCount by omega)
    rw [hv, hf, FetchedLeaf.decoded, List.getElem?_map, List.getElem?_zipWith] at hget
    rcases hw : words.words[k]? with _ | v
    · rw [hw] at hget
      simp only [Option.map_eq_none_iff] at hget
      rw [column, List.getD_eq_getElem?_getD, hget]
      exact Nat.zero_le _
    · rcases hm : valid[k]? with _ | ok
      · rw [hw, hm] at hget
        simp only [Option.map_eq_none_iff] at hget
        rw [column, List.getD_eq_getElem?_getD, hget]
        exact Nat.zero_le _
      · rw [hw, hm] at hget
        obtain ⟨v', hval, hsome⟩ := Option.map_eq_some_iff.mp hget
        rw [column_of_getElem? hval]
        split_ifs at hsome with hok
        obtain rfl : v' = v := Option.some_inj.mp hsome
        exact WordWidth.le_u64Max (words.fits _ (List.mem_of_getElem? hw))

/-! ### Sorted searches -/

theorem chunkLast_answers (h : C.Cut fl) (hv : C.concat fl = values.map some) {c : ℕ}
    (hc : c < C.chunks.length) :
    C.Answers (C.chunkLast fl c) fun v => v = column values (C.leafBound (c + 1) - 1) := by
  rw [chunkLast, Cut.chunkProbe_eq hc]
  rcases hroot : C.chunks[c].fetched.resolved with _ | root
  · exact .inr ⟨rfl, fun hres => hres _ (List.getElem_mem hc) hroot⟩
  · obtain ⟨hwf, hlen⟩ := leaf_wellFormed h hc hroot
    have hpos := h.rowCount_pos hc
    have hlast : root.len - 1 < root.len := by omega
    refine .inl ⟨root.value fl (root.len - 1), ?_, ?_⟩
    · simp only [Option.bind_eq_bind, Option.bind_some, checkedSub_of_le (show 1 ≤ root.len by omega),
        SortedProbe.valueAt, if_pos hlast, (wellFormed_sound hwf).reads _ (Nat.zero_le _) hlast]
    · rw [leaf_value h hv hc hroot (by omega), h.leafBound_succ hc, ChunkLeaf.endRow, hlen]
      congr 1
      omega

theorem firstReachingLoop_answers {last : ℕ → Option (Option ℕ)} {f : ℕ → ℕ} {needle : ℕ} :
    ∀ (fuel : ℕ) {lo hi : ℕ}, lo ≤ hi → hi - lo ≤ fuel →
      (∀ c, lo ≤ c → c < hi → C.Answers (last c) fun v => v = f c) → AscendingOn f lo hi →
      C.Answers (firstReachingLoop last needle fuel lo hi)
        fun c => IsPartitionPoint (fun c => f c < needle) lo hi c := by
  intro fuel
  induction fuel with
  | zero =>
    intro lo hi hle hfuel _ _
    obtain rfl : lo = hi := by omega
    exact .inl ⟨lo, rfl, .empty _ lo⟩
  | succ fuel ih =>
    intro lo hi hle hfuel hlast hasc
    rw [firstReachingLoop]
    by_cases hlt : lo < hi
    · rw [if_pos hlt]
      have hmid : lo + (hi - lo) / 2 < hi := by omega
      rcases hlast _ (Nat.le_add_right lo _) hmid with ⟨v, hread, rfl⟩ | ⟨hread, hdecl⟩
      · simp only [hread, Option.bind_eq_bind, Option.bind_some]
        by_cases hv : f (lo + (hi - lo) / 2) < needle
        · rw [if_pos hv]
          rcases @ih (lo + (hi - lo) / 2 + 1) hi hmid (by omega) (fun c h₁ h₂ => hlast c (by omega) h₂)
            (hasc.mono (by omega) le_rfl) with ⟨c, hc, hpoint⟩ | hdecl
          · refine .inl ⟨c, hc, hpoint.widen (by omega) le_rfl (fun i h₁ h₂ => ?_)
              fun i h₁ h₂ => absurd h₂ (Nat.not_lt_of_le h₁)⟩
            exact lt_of_le_of_lt (hasc i _ h₁ (by omega) hmid) hv
          · exact .inr hdecl
        · rw [if_neg hv]
          rcases @ih lo (lo + (hi - lo) / 2) (Nat.le_add_right _ _) (by omega)
            (fun c h₁ h₂ => hlast c h₁ (by omega))
            (hasc.mono le_rfl (by omega)) with ⟨c, hc, hpoint⟩ | hdecl
          · refine .inl ⟨c, hc, hpoint.widen le_rfl (Nat.le_of_lt hmid)
              (fun i h₁ h₂ => absurd h₂ (Nat.not_lt_of_le h₁)) fun i h₁ h₂ hlt' => hv ?_⟩
            exact lt_of_le_of_lt (hasc _ i (by omega) h₁ h₂) hlt'
          · exact .inr hdecl
      · exact .inr ⟨by simp only [hread, Option.bind_eq_bind, Option.bind_some], hdecl⟩
    · rw [if_neg hlt]
      obtain rfl : lo = hi := by omega
      exact .inl ⟨lo, rfl, .empty _ lo⟩

/-- The first leaf of a range whose last value reaches the needle. -/
theorem firstReaching_answers (h : C.Cut fl) (hv : C.concat fl = values.map some)
    {first last : ℕ} (hle : first ≤ last) (hlast : last ≤ C.chunks.length)
    (hasc : AscendingOn (fun c => column values (C.leafBound (c + 1) - 1)) first last)
    (needle : ℕ) :
    C.Answers (C.firstReaching fl first last needle) fun c =>
      IsPartitionPoint (fun c => column values (C.leafBound (c + 1) - 1) < needle) first last c :=
  firstReachingLoop_answers _ hle le_rfl
    (fun _ _ h₂ => chunkLast_answers h hv (lt_of_lt_of_le h₂ hlast)) hasc

/-- A resolved leaf's values ascend where the column does. -/
theorem leaf_ascending (h : C.Cut fl) (hv : C.concat fl = values.map some) {c : ℕ}
    (hc : c < C.chunks.length) {root : Node} (hroot : C.chunks[c].fetched.resolved = some root)
    {lo hi a b : ℕ} (hasc : AscendingOn (column values) lo hi)
    (ha : lo ≤ C.chunks[c].rowOffset + a) (hb : C.chunks[c].rowOffset + b ≤ hi)
    (hlen : b ≤ C.chunks[c].rowCount) : AscendingOn (root.value fl) a b := by
  intro i j h₁ h₂ h₃
  rw [leaf_value h hv hc hroot (by omega), leaf_value h hv hc hroot (by omega)]
  exact hasc _ _ (by omega) (by omega) (by omega)

/-- A leaf's point is the column's, at the leaf's rows. -/
theorem leaf_point (h : C.Cut fl) (hv : C.concat fl = values.map some) {c : ℕ}
    (hc : c < C.chunks.length) {root : Node} (hroot : C.chunks[c].fetched.resolved = some root)
    {q : ℕ → Prop} {a b k : ℕ} (hb : b ≤ C.chunks[c].rowCount)
    (hk : IsPartitionPoint (fun i => q (root.value fl i)) a b k) :
    IsPartitionPoint (fun i => q (column values i)) (C.chunks[c].rowOffset + a)
      (C.chunks[c].rowOffset + b) (C.chunks[c].rowOffset + k) := by
  have hge := hk.ge
  have hle := hk.le
  refine ⟨by omega, by omega, fun i h₁ h₂ => ?_, fun i h₁ h₂ => ?_⟩
  · obtain ⟨j, rfl⟩ : ∃ j, i = C.chunks[c].rowOffset + j := ⟨i - C.chunks[c].rowOffset, by omega⟩
    have := hk.before j (by omega) (by omega)
    rwa [leaf_value h hv hc hroot (by omega)] at this
  · obtain ⟨j, rfl⟩ : ∃ j, i = C.chunks[c].rowOffset + j := ⟨i - C.chunks[c].rowOffset, by omega⟩
    have := hk.after j (by omega) (by omega)
    rwa [leaf_value h hv hc hroot (by omega)] at this

theorem lowerBound_answers (h : C.Cut fl) (hv : C.concat fl = values.map some)
    (hasc : AscendingOn (column values) 0 C.rowCount) (needle : ℕ) :
    C.Answers (C.lowerBound fl needle) fun k =>
      IsPartitionPoint (fun i => column values i < needle) 0 C.rowCount k := by
  have hseg := h.segments
  have hlen := Cut.leafBound_length C
  rw [← hlen] at hasc
  rw [lowerBound]
  rcases firstReaching_answers h hv (Nat.zero_le _) le_rfl (hseg.range_lasts_ascending hasc) needle
    with ⟨c, hc, hpoint⟩ | ⟨hc, hdecl⟩
  · simp only [hc, Option.bind_eq_bind, Option.bind_some]
    by_cases hend : c = C.chunks.length
    · rw [if_pos hend]
      subst hend
      refine .inl ⟨C.rowCount, rfl, ?_⟩
      have := hseg.point_past_range hasc hpoint
      rwa [hlen] at this
    · have hlt : c < C.chunks.length := lt_of_le_of_ne hpoint.le hend
      rw [if_neg hend, Cut.chunkProbe_eq hlt]
      rcases hroot : C.chunks[c].fetched.resolved with _ | root
      · exact .inr ⟨rfl, fun hres => hres _ (List.getElem_mem hlt) hroot⟩
      · obtain ⟨hwf, hroots⟩ := leaf_wellFormed h hlt hroot
        have hbound := h.leafBound_succ hlt
        have hstart := Cut.leafBound_eq hlt
        have hle := hseg.le (Nat.succ_le_of_lt hlt) le_rfl
        rw [ChunkLeaf.endRow] at hbound
        have hrasc : AscendingOn (root.value fl) 0 root.len := by
          rw [hroots]
          exact leaf_ascending h hv hlt hroot hasc (Nat.zero_le _) (by
            rw [← hbound]; exact hle) le_rfl
        obtain ⟨k, hk, hkpoint⟩ := (wellFormed_sound hwf).lower hrasc needle
        refine .inl ⟨C.chunks[c].rowOffset + k, ?_, ?_⟩
        · simp only [List.getElem?_eq_getElem hlt, Option.bind_some, hk]
        · rw [hroots] at hkpoint
          have hcol := @leaf_point _ _ _ h hv _ hlt _ hroot (· < needle) _ _ _ le_rfl hkpoint
          rw [Nat.add_zero, ← hbound, ← hstart] at hcol
          have := hseg.point_of_range hasc hpoint hlt hcol
          rwa [hlen, hstart] at this
  · exact .inr ⟨by simp only [hc, Option.bind_eq_bind, Option.bind_some], hdecl⟩

/-- The bound above a needle is the bound of its successor. -/
theorem upperBound_answers (h : C.Cut fl) (hv : C.concat fl = values.map some)
    (hasc : AscendingOn (column values) 0 C.rowCount) {needle : ℕ} (hneedle : needle ≤ u64Max) :
    C.Answers (C.upperBound fl needle) fun k =>
      IsPartitionPoint (fun i => column values i ≤ needle) 0 C.rowCount k := by
  rw [upperBound, checkedSucc]
  by_cases hmax : needle < u64Max
  · rw [if_pos hmax]
    rcases lowerBound_answers h hv hasc (needle + 1) with ⟨k, hk, hkpoint⟩ | hdecl
    · exact .inl ⟨k, hk, hkpoint.congr fun i _ _ => Nat.lt_succ_iff⟩
    · exact .inr hdecl
  · rw [if_neg hmax]
    refine .inl ⟨_, rfl, .atEnd (Nat.zero_le _) fun i _ hi' => ?_⟩
    have := column_le h hv hi'
    omega

theorem bounds_answers (h : C.Cut fl) (hv : C.concat fl = values.map some)
    (hasc : AscendingOn (column values) 0 C.rowCount) {needle : ℕ} (hneedle : needle ≤ u64Max) :
    C.Answers (C.bounds fl needle) fun r =>
      IsPartitionPoint (fun i => column values i < needle) 0 C.rowCount r.1 ∧
      IsPartitionPoint (fun i => column values i ≤ needle) 0 C.rowCount r.2 := by
  have hseg := h.segments
  have hlen := Cut.leafBound_length C
  have hasc' := hasc
  rw [← hlen] at hasc'
  rw [bounds]
  rcases firstReaching_answers h hv (Nat.zero_le _) le_rfl (hseg.range_lasts_ascending hasc') needle
    with ⟨c, hc, hpoint⟩ | ⟨hc, hdecl⟩
  · simp only [hc, Option.bind_eq_bind, Option.bind_some]
    -- past the last leaf both bounds are the end
    by_cases hend : c = C.chunks.length
    · rw [if_pos hend]
      subst hend
      have hpast := hseg.point_past_range hasc' hpoint
      rw [hlen] at hpast
      exact .inl ⟨_, rfl, hpast, .atEnd (Nat.zero_le _) fun i h₀ hi =>
        Nat.le_of_lt (hpast.before i h₀ hi)⟩
    · have hlt : c < C.chunks.length := lt_of_le_of_ne hpoint.le hend
      rw [if_neg hend, Cut.chunkProbe_eq hlt]
      rcases hroot : C.chunks[c].fetched.resolved with _ | root
      · exact .inr ⟨rfl, fun hres => hres _ (List.getElem_mem hlt) hroot⟩
      · obtain ⟨hwf, hroots⟩ := leaf_wellFormed h hlt hroot
        have hbound := h.leafBound_succ hlt
        have hstart := Cut.leafBound_eq hlt
        have hle := hseg.le (Nat.succ_le_of_lt hlt) le_rfl
        rw [ChunkLeaf.endRow] at hbound
        have hfit : C.chunks[c].rowOffset + C.chunks[c].rowCount ≤ C.rowCount := by
          rw [← hbound, ← hlen]
          exact hle
        have hrasc : AscendingOn (root.value fl) 0 root.len := by
          rw [hroots]
          exact leaf_ascending h hv hlt hroot hasc (Nat.zero_le _) hfit le_rfl
        obtain ⟨lo, hi, hb, hlo, hhi⟩ := bounds_spec hwf hrasc hneedle
        rw [hroots] at hlo hhi
        have hlower : IsPartitionPoint (fun i => column values i < needle) 0 C.rowCount
            (C.chunks[c].rowOffset + lo) := by
          have hcol := @leaf_point _ _ _ h hv _ hlt _ hroot (· < needle) _ _ _ le_rfl hlo
          rw [Nat.add_zero, ← hbound, ← hstart] at hcol
          have := hseg.point_of_range hasc' hpoint hlt hcol
          rwa [hlen, hstart] at this
        simp only [List.getElem?_eq_getElem hlt, Option.bind_some, hb]
        -- an upper bound inside the leaf is the column's; one at its end is searched for
        by_cases hin : hi < C.chunks[c].rowCount
        · rw [if_pos hin]
          refine .inl ⟨_, rfl, hlower, ?_⟩
          have hcol := @leaf_point _ _ _ h hv _ hlt _ hroot (· ≤ needle) _ _ _ le_rfl hhi
          refine hcol.widen (Nat.zero_le _) hfit (fun i h₀ hi' => ?_) fun i hi' hrow hle' => ?_
          · exact Nat.le_of_lt (hlower.before i h₀ (by omega))
          · -- The row past the needle's is in this leaf, and every later one follows it.
            have hpast := hcol.after (C.chunks[c].rowOffset + hi) le_rfl (by omega)
            exact hpast (le_trans (hasc _ i (Nat.zero_le _) (by omega) hrow) hle')
        · rw [if_neg hin]
          rcases upperBound_answers h hv hasc hneedle with ⟨k, hk, hkpoint⟩ | ⟨hk, hdecl⟩
          · have hmono : C.chunks[c].rowOffset + lo ≤ k := by
              by_contra hlt'
              have hk' := hkpoint.after k le_rfl (by have := hlower.le; omega)
              exact hk' (Nat.le_of_lt (hlower.before k (Nat.zero_le _) (by omega)))
            refine .inl ⟨(C.chunks[c].rowOffset + lo, k), ?_, hlower, hkpoint⟩
            simp only [hk, Option.bind_some, Option.map_some, Nat.max_eq_left hmono]
          · exact .inr ⟨by simp only [hk, Option.bind_some, Option.map_none], hdecl⟩
  · exact .inr ⟨by simp only [hc, Option.bind_eq_bind, Option.bind_some], hdecl⟩

/-- What the search of a window learns from the leaf it picks: the leaf's part
`a..b` of the window, and the needle's bounds in it, of which the first is the
window's. -/
def PicksLeaf (fl : FastLanes) (values : List ℕ) (lo hi needle : ℕ) (leaf : LeafRows) : Prop :=
  ∃ a x y, lo ≤ a ∧ a ≤ x ∧ leaf.rowOffset + leaf.stop ≤ hi ∧
    leaf.bounds fl needle = some (x, y) ∧
    IsPartitionPoint (fun i => column values i < needle) lo hi x ∧
    IsPartitionPoint (fun i => column values i ≤ needle) a (leaf.rowOffset + leaf.stop) y

theorem windowLeaf_answers (h : C.Cut fl) (hv : C.concat fl = values.map some) {lo hi : ℕ}
    (hlt : lo < hi) (hhi : hi ≤ C.rowCount) (hasc : AscendingOn (column values) lo hi)
    (needle : ℕ) :
    C.Answers (C.windowLeaf fl lo hi needle) (PicksLeaf fl values lo hi needle) := by
  have hseg := h.segments
  obtain ⟨first, hf, hfirst, hflo, hfhi⟩ := h.leafHolding_eq (show lo < C.rowCount by omega)
  obtain ⟨last, hl, hlast, hllo, hlhi⟩ := h.leafHolding_eq (show hi - 1 < C.rowCount by omega)
  rw [← Cut.leafBound_eq hf] at hflo
  rw [← h.leafBound_succ hf] at hfhi
  rw [← Cut.leafBound_eq hl] at hllo
  rw [← h.leafBound_succ hl] at hlhi
  have hspan := hseg.spans hlt hf hflo hfhi hl hllo hlhi
  rw [windowLeaf, hfirst, checkedSub_of_le (show 1 ≤ hi by omega)]
  simp only [Option.bind_eq_bind, Option.bind_some, hlast, Nat.max_eq_left hspan.le]
  rcases firstReaching_answers h hv hspan.le (by omega) (hseg.lasts_ascending hspan hasc) needle
    with ⟨c, hc, hpoint⟩ | ⟨hc, hdecl⟩
  · have hclt : c < C.chunks.length := lt_of_le_of_lt hpoint.le hl
    simp only [hc, Option.bind_some, List.getElem?_eq_getElem hclt, Cut.chunkProbe_eq hclt]
    rcases hroot : C.chunks[c].fetched.resolved with _ | root
    · exact .inr ⟨rfl, fun hres => hres _ (List.getElem_mem hclt) hroot⟩
    · obtain ⟨hwf, hroots⟩ := leaf_wellFormed h hclt hroot
      have hbound := h.leafBound_succ hclt
      have hstart := Cut.leafBound_eq hclt
      have hfc := hseg.le (show first + 1 ≤ c + 1 from Nat.succ_le_succ hpoint.ge) (by omega)
      have hcl := hseg.le (show c ≤ last from hpoint.le) (by omega)
      have hpos := h.rowCount_pos hclt
      set off := C.chunks[c].rowOffset with hoff
      set stop := C.chunks[c].endRow with hend
      have hend' : stop = off + C.chunks[c].rowCount := rfl
      have hlastle := hspan.last_le
      simp only [checkedSub_of_le (show off ≤ min hi stop by omega), Option.bind_some]
      -- The leaf's part of the window, in the leaf's rows.
      have hab : max lo off - off ≤ min hi stop - off := by omega
      have hlen : min hi stop - off ≤ C.chunks[c].rowCount := by omega
      have hlasc : AscendingOn (root.value fl) (max lo off - off) (min hi stop - off) :=
        leaf_ascending h hv hclt hroot hasc (by omega) (by omega) hlen
      obtain ⟨x, y, hb, hx, hy⟩ := boundsIn_spec (wellFormed_sound hwf) hab
        (by omega) hlasc needle
      have hx' := @leaf_point _ _ _ h hv _ hclt _ hroot (· < needle) _ _ _ hlen hx
      have hy' := @leaf_point _ _ _ h hv _ hclt _ hroot (· ≤ needle) _ _ _ hlen hy
      rw [← hoff] at hx' hy'
      have hge := hx'.ge
      have hwhole := hseg.point_of_segment hspan hasc hpoint (k := off + x) (by
        rw [hstart, hbound, show max lo off = off + (max lo off - off) by omega,
          show min hi stop = off + (min hi stop - off) by omega]
        exact hx')
      refine .inl ⟨_, rfl, off + (max lo off - off), off + x, off + y, by omega, hge,
        show off + (min hi stop - off) ≤ hi by omega, ?_, hwhole, hy'⟩
      rw [LeafRows.bounds, hb]
      rfl
  · exact .inr ⟨by simp only [hc, Option.bind_some], hdecl⟩

theorem boundsIn_answers (h : C.Cut fl) (hv : C.concat fl = values.map some) {lo hi : ℕ}
    (hle : lo ≤ hi) (hhi : hi ≤ C.rowCount) (hasc : AscendingOn (column values) lo hi) {needle : ℕ}
    (hneedle : needle ≤ u64Max) :
    C.Answers (C.boundsIn fl lo hi needle) fun r =>
      IsPartitionPoint (fun i => column values i < needle) lo hi r.1 ∧
      IsPartitionPoint (fun i => column values i ≤ needle) lo hi r.2 := by
  rw [boundsIn, if_pos hhi]
  rcases Nat.eq_or_lt_of_le hle with rfl | hlt
  · rw [if_neg (Nat.lt_irrefl lo)]
    exact .inl ⟨_, rfl, .empty _ lo, .empty _ lo⟩
  rw [if_pos hlt]
  rcases windowLeaf_answers h hv hlt hhi hasc needle with
    ⟨leaf, hleaf, a, x, y, hloa, hax, hstop, hb, hx, hy⟩ | ⟨hleaf, hdecl⟩
  · simp only [hleaf, Option.bind_eq_bind, Option.bind_some, hb]
    -- Rows of the window before the leaf's part lie below the needle.
    have hbefore : ∀ i, lo ≤ i → i < y → column values i ≤ needle := by
      intro i hi' hiy
      by_cases hia : i < a
      · exact Nat.le_of_lt (hx.before i hi' (by omega))
      · exact hy.before i (by omega) hiy
    have hyge := hy.ge
    have hyle := hy.le
    by_cases hend : y < leaf.rowOffset + leaf.stop ∨ y = hi
    · rw [if_pos hend]
      refine .inl ⟨_, rfl, hx, by omega, by omega, hbefore, fun i hyi hi' hle' => ?_⟩
      rcases hend with hin | rfl
      · have hpast := hy.after y le_rfl hin
        exact hpast (le_trans (hasc y i (by omega) hyi hi') hle')
      · omega
    · rw [if_neg hend]
      obtain ⟨hout, hne⟩ : leaf.rowOffset + leaf.stop ≤ y ∧ y ≠ hi := by
        constructor
        · exact Nat.le_of_not_lt fun hin => hend (.inl hin)
        · exact fun heq => hend (.inr heq)
      rw [checkedSucc]
      by_cases hmax : needle < u64Max
      · rw [if_pos hmax]
        simp only
        rcases windowLeaf_answers h hv (show y < hi by omega) hhi (hasc.mono (by omega) le_rfl)
          (needle + 1) with ⟨leaf', hleaf', a', x', y', -, -, -, hb', hx', -⟩ | ⟨hleaf', hdecl⟩
        · simp only [hleaf', Option.bind_some, hb']
          refine .inl ⟨_, rfl, hx, ?_⟩
          have hpoint : IsPartitionPoint (fun i => column values i ≤ needle) y hi x' :=
            hx'.congr fun i _ _ => Nat.lt_succ_iff
          exact hpoint.widen (by omega) le_rfl hbefore fun i h₁ h₂ => absurd h₂ (by omega)
        · exact .inr ⟨by simp only [hleaf', Option.bind_some], hdecl⟩
      · rw [if_neg hmax]
        refine .inl ⟨_, rfl, hx, .atEnd hle fun i _ hi' => ?_⟩
        have := column_le h hv (show i < C.rowCount by omega)
        omega
  · exact .inr ⟨by simp only [hleaf, Option.bind_eq_bind, Option.bind_some], hdecl⟩

/-! ### Reads -/

/-- The run a list of rows starts with is consecutive. -/
theorem consecutiveRun_spec : ∀ {rows : List ℕ} {row : ℕ}, rows[0]? = some row →
    0 < consecutiveRun rows ∧ consecutiveRun rows ≤ rows.length ∧
      ∀ k, k < consecutiveRun rows → rows[k]? = some (row + k) := by
  intro rows
  induction rows with
  | nil => exact fun h => absurd h (by simp)
  | cons a rest ih =>
    intro row hrow
    obtain rfl : a = row := by simpa using hrow
    have hone : ∀ k, k < 1 → (a :: rest)[k]? = some (a + k) := by
      intro k hk
      obtain rfl : k = 0 := by omega
      rfl
    cases rest with
    | nil => exact ⟨Nat.one_pos, le_rfl, hone⟩
    | cons b rest =>
      rw [consecutiveRun]
      by_cases hb : b = a + 1
      · rw [if_pos hb]
        obtain ⟨hpos, hle, hrun⟩ := @ih b rfl
        refine ⟨Nat.succ_pos _, Nat.succ_le_succ hle, fun k hk => ?_⟩
        cases k with
        | zero => rfl
        | succ k =>
          rw [List.getElem?_cons_succ, hrun k (by omega), hb]
          congr 1
          omega
      · rw [if_neg hb]
        exact ⟨Nat.one_pos, by simp, hone⟩

/-- The rows from `i` to `stop` lie in leaf `c`. -/
def RowsIn (C : ColumnChunks) (rows : List ℕ) (i stop c : ℕ) : Prop :=
  ∃ hc : c < C.chunks.length, ∀ j, i ≤ j → j < stop →
    ∃ row, rows[j]? = some row ∧ C.chunks[c].rowOffset ≤ row ∧ row < C.chunks[c].endRow

theorem leafRunsLoop_spec (h : C.Cut fl) (hv : C.concat fl = values.map some) {rows out : List ℕ}
    (hout : out.length = rows.length) {c stop : ℕ} (hc : c < C.chunks.length) {root : Node}
    (hroot : C.chunks[c].fetched.resolved = some root) (hstop : stop ≤ rows.length) :
    ∀ (fuel : ℕ) {i : ℕ}, i ≤ stop → stop - i ≤ fuel → C.RowsIn rows i stop c →
      leafRunsLoop fl root C.chunks[c].rowOffset rows stop fuel i
          (filled (fun j => column values (rows.getD j 0)) 0 out i) =
        some (filled (fun j => column values (rows.getD j 0)) 0 out stop) := by
  intro fuel
  induction fuel with
  | zero =>
    intro i hi hfuel _
    obtain rfl : i = stop := by omega
    rfl
  | succ fuel ih =>
    intro i hi hfuel hrows
    rw [leafRunsLoop]
    by_cases hlt : i < stop
    · rw [if_pos hlt]
      obtain ⟨hwf, hroots⟩ := leaf_wellFormed h hc hroot
      obtain ⟨_, hin⟩ := hrows
      obtain ⟨row, hrow, hlo, hhi⟩ := hin i le_rfl hlt
      have hpiece := sliceOf_eq hi hstop
      have hhead : ((rows.drop i).take (stop - i))[0]? = some row := by
        rw [List.getElem?_take_of_lt (by omega), List.getElem?_drop, Nat.add_zero, hrow]
      obtain ⟨hpos, hlen, hrun⟩ := consecutiveRun_spec hhead
      set run := consecutiveRun ((rows.drop i).take (stop - i)) with hrundef
      rw [List.length_take, List.length_drop] at hlen
      -- The rows of the run, and the leaf's values at them.
      have hget : ∀ k, k < run → rows[i + k]? = some (row + k) := by
        intro k hk
        have := hrun k hk
        rwa [List.getElem?_take_of_lt (by omega), List.getElem?_drop] at this
      have hlastrow : row + (run - 1) < C.chunks[c].endRow := by
        obtain ⟨row', hrow', -, hhi'⟩ := hin (i + (run - 1)) (by omega) (by omega)
        rw [hget (run - 1) (by omega), Option.some_inj] at hrow'
        omega
      rw [ChunkLeaf.endRow] at hlastrow hhi
      have hvalue : ∀ k, k < run → root.value fl (row - C.chunks[c].rowOffset + k) =
          column values (rows.getD (0 + i + k) 0) := by
        intro k hk
        rw [leaf_value h hv hc hroot (by omega), Nat.zero_add, List.getD_eq_getElem?_getD,
          hget k hk, Option.getD_some]
        congr 1
        omega
      have hnext := @ih (i + run) (by omega) (by omega)
        ⟨hc, fun j h₁ h₂ => hin j (by omega) h₂⟩
      simp only [hpiece, Option.bind_eq_bind, Option.bind_some, ← hrundef, hrow,
        checkedSub_of_le hlo]
      by_cases hone : run = 1
      · rw [if_pos hone]
        have hread : SortedProbe.valueAt fl root (row - C.chunks[c].rowOffset) =
            some (root.value fl (row - C.chunks[c].rowOffset)) := by
          rw [SortedProbe.valueAt, if_pos (by omega)]
          exact (wellFormed_sound hwf).reads _ (Nat.zero_le _) (by omega)
        have hwrite := @writeAt_filled _ (fun j => column values (rows.getD j 0)) 0 out
          [root.value fl (row - C.chunks[c].rowOffset)] i (by simp only [List.length_singleton]; omega)
          (by
            have := hvalue 0 (by omega)
            rw [Nat.add_zero, Nat.add_zero] at this
            rw [this]
            rfl)
        simp only [hread, hwrite, Option.bind_some, List.length_singleton, ← hone, hnext]
      · rw [if_neg hone]
        have hpart := sliceOf_eq (Nat.le_add_right i run) (show i + run ≤ (filled
          (fun j => column values (rows.getD j 0)) 0 out i).length by
            rw [filled_length _ _ (by omega)]; omega)
        rw [Nat.add_sub_cancel_left] at hpart
        have hplen := List.length_take_of_le (show run ≤ ((filled
          (fun j => column values (rows.getD j 0)) 0 out i).drop i).length by
            rw [List.length_drop, filled_length _ _ (by omega)]; omega)
        have hread := @readInto_eq _ _ hwf (row - C.chunks[c].rowOffset)
          (((filled (fun j => column values (rows.getD j 0)) 0 out i).drop i).take run)
          (by rw [hplen]; omega)
        rw [hplen] at hread
        have hwrite := @writeAt_filled _ (fun j => column values (rows.getD j 0)) 0 out
          (valuesFrom (root.value fl) (row - C.chunks[c].rowOffset) run) i
        rw [valuesFrom_length] at hwrite
        have hwrite' := hwrite (by omega) (valuesFrom_congr fun k hk => hvalue k hk)
        simp only [hpart, hread, hwrite', Option.bind_some, hnext]
    · rw [if_neg hlt]
      obtain rfl : i = stop := by omega
      rfl

theorem valuesAtLoop_answers (h : C.Cut fl) (hv : C.concat fl = values.map some)
    {rows out : List ℕ} (hout : out.length = rows.length) (hrows : ∀ row ∈ rows, row < C.rowCount) :
    ∀ (fuel : ℕ) {i : ℕ}, i ≤ rows.length → rows.length - i ≤ fuel →
      C.Answers (C.valuesAtLoop fl rows fuel i
          (filled (fun j => column values (rows.getD j 0)) 0 out i))
        fun r => r = rows.map (column values) := by
  have hdone : filled (fun j => column values (rows.getD j 0)) 0 out rows.length =
      rows.map (column values) := by
    rw [← hout, filled_length_self, hout, ← valuesFrom_map (column values)]
    congr 1
    exact (eq_valuesFrom fun k hk => by
      rw [Nat.zero_add, List.getElem?_eq_getElem hk, List.getD_eq_getElem?_getD,
        List.getElem?_eq_getElem hk, Option.getD_some]).symm
  intro fuel
  induction fuel with
  | zero =>
    intro i hi hfuel
    obtain rfl : i = rows.length := by omega
    exact .inl ⟨_, rfl, hdone⟩
  | succ fuel ih =>
    intro i hi hfuel
    rw [valuesAtLoop]
    by_cases hlt : i < rows.length
    · have hrow := hrows rows[i] (List.getElem_mem hlt)
      obtain ⟨c, hc, hhold, hlo, hhi⟩ := h.leafHolding_eq hrow
      rw [if_pos hlt, List.getElem?_eq_getElem hlt]
      simp only [Option.bind_eq_bind, Option.bind_some]
      rw [if_pos hrow]
      simp only [hhold, Option.bind_some, List.getElem?_eq_getElem hc, Cut.chunkProbe_eq hc]
      set inLeaf := (rows.drop i).takeWhile fun row =>
        decide (C.chunks[c].rowOffset ≤ row ∧ row < C.chunks[c].endRow) with hinLeaf
      rcases hroot : C.chunks[c].fetched.resolved with _ | root
      · exact .inr ⟨rfl, fun hres => hres _ (List.getElem_mem hc) hroot⟩
      · -- the rows from here on that this leaf holds are read in one go
        have hin : ∀ k, k < inLeaf.length → ∃ row, rows[i + k]? = some row ∧
            C.chunks[c].rowOffset ≤ row ∧ row < C.chunks[c].endRow := by
          intro k hk
          obtain ⟨row, hget, hq⟩ := takeWhile_getElem? hk
          rw [List.getElem?_drop] at hget
          exact ⟨row, hget, of_decide_eq_true hq⟩
        have hpos : 0 < inLeaf.length := by
          rw [hinLeaf, List.drop_eq_getElem_cons hlt, List.takeWhile_cons,
            if_pos (decide_eq_true ⟨hlo, hhi⟩)]
          exact Nat.succ_pos _
        have hlen : i + inLeaf.length ≤ rows.length := by
          have hsub : inLeaf.Sublist (rows.drop i) := List.takeWhile_sublist _
          have := hsub.length_le
          rw [List.length_drop] at this
          omega
        have hruns := leafRunsLoop_spec h hv hout hc hroot hlen inLeaf.length
          (Nat.le_add_right i _) (by omega) ⟨hc, fun j h₁ h₂ => by
            obtain ⟨row, hget, hrow⟩ := hin (j - i) (by omega)
            rw [Nat.add_sub_cancel' h₁] at hget
            exact ⟨row, hget, hrow⟩⟩
        simp only [hruns, Option.bind_some]
        exact ih hlen (by omega)
    · rw [if_neg hlt]
      obtain rfl : i = rows.length := by omega
      exact .inl ⟨_, rfl, hdone⟩

theorem valueAt_answers (h : C.Cut fl) (hv : C.concat fl = values.map some) {row : ℕ}
    (hrow : row < C.rowCount) :
    C.Answers (C.valueAt fl row) fun v => v = column values row := by
  obtain ⟨c, hc, hhold, hlo, hhi⟩ := h.leafHolding_eq hrow
  rw [valueAt, if_pos hrow, hhold, checkedSub_of_le (show 1 ≤ C.chunks.length by omega)]
  simp only [Option.bind_eq_bind, Option.bind_some,
    Nat.min_eq_left (show c ≤ C.chunks.length - 1 by omega), List.getElem?_eq_getElem hc,
    Cut.chunkProbe_eq hc]
  rcases hroot : C.chunks[c].fetched.resolved with _ | root
  · exact .inr ⟨rfl, fun hres => hres _ (List.getElem_mem hc) hroot⟩
  · obtain ⟨hwf, hroots⟩ := leaf_wellFormed h hc hroot
    rw [ChunkLeaf.endRow] at hhi
    refine .inl ⟨root.value fl (row - C.chunks[c].rowOffset), ?_, ?_⟩
    · simp only [checkedSub_of_le hlo, Option.bind_some, SortedProbe.valueAt,
        if_pos (show row - C.chunks[c].rowOffset < root.len by omega),
        (wellFormed_sound hwf).reads _ (Nat.zero_le _)
          (show row - C.chunks[c].rowOffset < root.len by omega)]
    · rw [leaf_value h hv hc hroot (by omega), Nat.add_sub_cancel' hlo]

theorem valuesAt_answers (h : C.Cut fl) (hv : C.concat fl = values.map some) {rows : List ℕ}
    (hrows : ∀ row ∈ rows, row < C.rowCount) :
    C.Answers (C.valuesAt fl rows) fun r => r = rows.map (column values) := by
  have hloop := @valuesAtLoop_answers _ _ _ h hv _ (List.replicate rows.length 0)
    List.length_replicate hrows rows.length 0 (Nat.zero_le _) (Nat.sub_le _ _)
  rw [filled_zero] at hloop
  match rows with
  | [] => exact hloop
  | [row] =>
    rw [valuesAt]
    rcases valueAt_answers h hv (hrows row (List.mem_singleton_self row)) with
      ⟨v, hval, rfl⟩ | ⟨hval, hdecl⟩
    · exact .inl ⟨_, by rw [hval]; rfl, rfl⟩
    · exact .inr ⟨by rw [hval]; rfl, hdecl⟩
  | _ :: _ :: _ => exact hloop

end Joined

/-! ### Counts -/

/-- The joined slots, by row. -/
def slot (cells : List (Option ℕ)) (row : ℕ) : Option ℕ := (cells[row]?).join

theorem window_slots {cells : List (Option ℕ)} {lo len : ℕ} (hle : lo + len ≤ cells.length) :
    valuesFrom (slot cells) lo len = (cells.drop lo).take len := by
  have hlen : ((cells.drop lo).take len).length = len := by
    rw [List.length_take, List.length_drop]
    omega
  conv_lhs => rw [← hlen]
  refine (eq_valuesFrom fun k hk => ?_).symm
  rw [hlen] at hk
  rw [List.getElem?_take_of_lt hk, List.getElem?_drop, slot,
    List.getElem?_eq_getElem (show lo + k < cells.length by omega)]
  rfl

theorem leaf_slot (h : C.Cut fl) {c k : ℕ} (hc : c < C.chunks.length)
    (hk : k < C.chunks[c].rowCount) :
    slot (C.concat fl) (C.chunks[c].rowOffset + k) = ((C.chunks[c].fetched.decoded fl)[k]?).join := by
  rw [slot, h.concat_getElem? hc hk]

/-- A decoded leaf counts its valid slots only. -/
theorem countDecodedEq_eq (w : WordWidth) (needle : ℕ) : ∀ (part : List ℕ) (mask : List Bool),
    (∀ v ∈ part, v < 2 ^ w.bits) → countDecodedEq w part mask needle =
      (part.zipWith (fun v ok => if ok then some v else none) mask).count (some needle) := by
  intro part mask hfit
  rw [countDecodedEq]
  split_ifs with hn
  · clear hfit
    induction part generalizing mask with
    | nil => rfl
    | cons v part ih =>
      cases mask with
      | nil => rfl
      | cons ok mask =>
        have hrest := ih mask
        rw [List.zip_cons_cons, List.zipWith_cons_cons, List.count_cons, ← hrest, List.filter_cons]
        cases ok <;> by_cases hv : v = needle <;> simp [hv]
  · symm
    rw [List.count_eq_zero]
    intro hmem
    obtain ⟨i, hi, heq⟩ := List.mem_iff_getElem.mp hmem
    rw [List.getElem_zipWith] at heq
    split_ifs at heq with hok
    rw [← Option.some_inj.mp heq] at hn
    exact hn (hfit _ (List.getElem_mem _))

theorem leafCount_eq (h : C.Cut fl) {c a b : ℕ} (hc : c < C.chunks.length) (hab : a ≤ b)
    (hb : b ≤ C.chunks[c].rowCount) (needle : ℕ) :
    leafCount fl C.chunks[c].fetched a b needle = some ((valuesFrom (slot (C.concat fl))
      (C.chunks[c].rowOffset + a) (b - a)).count (some needle)) := by
  have hholds := h.holds _ (List.getElem_mem hc)
  have hslot : ∀ k, k < b - a → slot (C.concat fl) (C.chunks[c].rowOffset + a + k) =
      ((C.chunks[c].fetched.decoded fl)[a + k]?).join := fun k hk => by
    rw [Nat.add_assoc, leaf_slot h hc (by omega)]
  rw [ChunkLeaf.Holds] at hholds
  rcases hf : C.chunks[c].fetched with root | ⟨words, valid⟩
  · rw [hf] at hholds hslot
    obtain ⟨hwf, hlen⟩ := hholds
    have hvalues : valuesFrom (slot (C.concat fl)) (C.chunks[c].rowOffset + a) (b - a) =
        (valuesFrom (root.value fl) a (b - a)).map some := by
      rw [valuesFrom_map]
      apply valuesFrom_congr
      intro k hk
      rw [hslot k hk, FetchedLeaf.decoded, List.getElem?_map,
        valuesFrom_getElem? _ _ (by omega), Nat.zero_add]
      rfl
    rw [leafCount, countEq_eq hwf (by omega), hvalues,
      List.count_map_of_injective _ _ (Option.some_injective ℕ)]
  · rw [hf] at hholds hslot
    obtain ⟨hwords, hvalid⟩ := hholds
    rw [Words.len] at hwords
    have hvalues : valuesFrom (slot (C.concat fl)) (C.chunks[c].rowOffset + a) (b - a) =
        ((words.words.drop a).take (b - a)).zipWith (fun v ok => if ok then some v else none)
          ((valid.drop a).take (b - a)) := by
      apply List.ext_getElem?
      intro k
      by_cases hk : k < b - a
      · rw [valuesFrom_getElem? _ _ hk, hslot k hk, FetchedLeaf.decoded, List.getElem?_zipWith,
          List.getElem?_zipWith, List.getElem?_take_of_lt hk, List.getElem?_take_of_lt hk,
          List.getElem?_drop, List.getElem?_drop,
          List.getElem?_eq_getElem (show a + k < words.words.length by omega),
          List.getElem?_eq_getElem (show a + k < valid.length by omega)]
        rfl
      · rw [List.getElem?_eq_none_iff.mpr (by rw [valuesFrom_length]; omega),
          List.getElem?_eq_none_iff.mpr (by
            rw [List.length_zipWith, List.length_take, List.length_take]; omega)]
    rw [leafCount, sliceOf_eq hab (by omega), sliceOf_eq hab (by omega), hvalues]
    simp only [Option.bind_eq_bind, Option.bind_some, Option.some_inj]
    exact countDecodedEq_eq _ _ _ _ fun v hv => words.fits v (List.mem_of_mem_drop (List.mem_of_mem_take hv))

theorem countEqLoop_spec (h : C.Cut fl) {lo hi : ℕ} (hhi : hi ≤ C.rowCount) (needle : ℕ) :
    ∀ (fuel : ℕ) {p : ℕ}, p ≤ hi - lo → hi - lo - p ≤ fuel → lo ≤ hi →
      C.countEqLoop fl hi needle fuel (lo + p)
          ((valuesFrom (slot (C.concat fl)) lo p).count (some needle)) =
        some ((valuesFrom (slot (C.concat fl)) lo (hi - lo)).count (some needle)) := by
  intro fuel
  induction fuel with
  | zero =>
    intro p hp hfuel _
    obtain rfl : p = hi - lo := by omega
    rfl
  | succ fuel ih =>
    intro p hp hfuel hle
    rw [countEqLoop]
    by_cases hlt : lo + p < hi
    · obtain ⟨c, hc, hhold, hclo, hchi⟩ := h.leafHolding_eq (show lo + p < C.rowCount by omega)
      have hend : C.chunks[c].endRow = C.chunks[c].rowOffset + C.chunks[c].rowCount := rfl
      rw [if_pos hlt]
      simp only [hhold, Option.bind_eq_bind, Option.bind_some, List.getElem?_eq_getElem hc,
        checkedSub_of_le hclo,
        checkedSub_of_le (show C.chunks[c].rowOffset ≤ min hi C.chunks[c].endRow by omega)]
      rw [leafCount_eq h hc (by omega) (by omega), Nat.add_sub_cancel' hclo, Option.bind_some]
      -- The rows of this leaf, behind those counted.
      obtain ⟨m, hm⟩ : ∃ m, min hi C.chunks[c].endRow = lo + p + m :=
        ⟨min hi C.chunks[c].endRow - (lo + p), by omega⟩
      have hrows : min hi C.chunks[c].endRow - C.chunks[c].rowOffset -
          (lo + p - C.chunks[c].rowOffset) = m := by omega
      rw [hrows, hm, ← List.count_append, ← valuesFrom_add, Nat.add_assoc]
      exact ih (by omega) (by omega) hle
    · obtain rfl : p = hi - lo := by omega
      rw [if_neg hlt]

theorem countEq_answers (h : C.Cut fl) {lo hi : ℕ} (hle : lo ≤ hi) (hhi : hi ≤ C.rowCount)
    (needle : ℕ) : C.countEq fl lo hi needle =
      some (((C.concat fl).drop lo |>.take (hi - lo)).count (some needle)) := by
  have hloop := countEqLoop_spec h hhi needle (hi - lo) (Nat.zero_le (hi - lo)) le_rfl hle
  rw [Nat.add_zero, valuesFrom_zero, List.count_nil] at hloop
  rw [countEq, if_pos hhi, hloop]
  have hlen := h.concat_length
  rw [← window_slots (show lo + (hi - lo) ≤ (C.concat fl).length by omega)]

end ColumnChunks

namespace SampleColumn

/-- The two chunks of the sample column as two leaves. -/
def leaves : ColumnChunks where
  chunks := [⟨0, 5, .probe runs⟩, ⟨5, 2, .probe framed⟩]
  rowCount := 7

theorem leaves_cut : leaves.Cut .ofZeros := by
  refine ⟨⟨rfl, by decide, by decide, by decide⟩, fun leaf hleaf => ?_⟩
  rcases List.mem_cons.mp hleaf with rfl | hleaf
  · exact ⟨runs_wellFormed, rfl⟩
  · rw [List.mem_singleton.mp hleaf]
    exact ⟨⟨show 2 ≤ u64Max by decide, by decide⟩, rfl⟩

end SampleColumn

/-! ### Searches of the joined values -/

namespace ColumnChunks

section Joined

variable {C : ColumnChunks} {values : List ℕ}

theorem window_column {lo len : ℕ} (hle : lo + len ≤ values.length) :
    (values.drop lo).take len = valuesFrom (column values) lo len := by
  have hlen : ((values.drop lo).take len).length = len := by
    rw [List.length_take, List.length_drop]
    omega
  conv_rhs => rw [← hlen]
  apply eq_valuesFrom
  intro k hk
  rw [hlen] at hk
  rw [List.getElem?_take_of_lt hk, List.getElem?_drop, column, List.getD_eq_getElem?_getD,
    List.getElem?_eq_getElem (by omega), Option.getD_some]

theorem whole_column : values = valuesFrom (column values) 0 values.length := by
  have := @window_column values 0 values.length (by omega)
  rwa [List.drop_zero, List.take_length] at this

theorem Answers.imp {α : Type} {act : Option (Option α)} {p q : α → Prop} (h : C.Answers act p)
    (hpq : ∀ a, p a → q a) : C.Answers act q := by
  rcases h with ⟨a, hact, hp⟩ | hdecl
  · exact .inl ⟨a, hact, hpq a hp⟩
  · exact .inr hdecl

/-- **A column cut into leaves searches as its joined values do.**  Over
ascending values, the bounds are where a scan of them stops, and over an
ascending window, where a scan of the window stops; reads and counts are those
of the values, sorted or not.  A search other than a count answers so, or
declines because a leaf does. -/
theorem columnSearches_agree (fl : FastLanes) {C : ColumnChunks} (h : C.Cut fl)
    (hv : C.concat fl = values.map some) :
    (∀ needle, needle ≤ u64Max → values.Pairwise (· ≤ ·) →
      C.Answers (C.lowerBound fl needle)
        (fun k => k = values.findIdx fun v => decide (needle ≤ v)) ∧
      C.Answers (C.bounds fl needle)
        (fun r => r = (values.findIdx (fun v => decide (needle ≤ v)),
          values.findIdx fun v => decide (needle < v)))) ∧
    (∀ lo hi needle, lo ≤ hi → hi ≤ values.length → needle ≤ u64Max →
      ((values.drop lo).take (hi - lo)).Pairwise (· ≤ ·) →
      C.Answers (C.boundsIn fl lo hi needle)
        (fun r => r = (lo + ((values.drop lo).take (hi - lo)).findIdx fun v => decide (needle ≤ v),
          lo + ((values.drop lo).take (hi - lo)).findIdx fun v => decide (needle < v)))) ∧
    (∀ rows : List ℕ, (∀ row ∈ rows, row < values.length) →
      C.Answers (C.valuesAt fl rows) (fun r => rows.mapM (fun row => values[row]?) = some r)) ∧
    ∀ lo hi needle, lo ≤ hi → hi ≤ values.length →
      C.countEq fl lo hi needle = some (((values.drop lo).take (hi - lo)).count needle) := by
  have hlen : values.length = C.rowCount := by
    rw [← h.concat_length, hv, List.length_map]
  refine ⟨fun needle hneedle hasc => ?_, fun lo hi needle hle hhi hneedle hasc => ?_,
    fun rows hrows => ?_, fun lo hi needle hle hhi => ?_⟩
  · rw [@whole_column values] at hasc
    -- a point of a partition is where the first value past it stands
    have hasc' : AscendingOn (column values) 0 C.rowCount := fun i j h₁ h₂ h₃ => by
      have := ascendingOn_of_pairwise hasc i j h₁ h₂ (by omega)
      simpa only [Nat.zero_add] using this
    have hge : ∀ {k}, IsPartitionPoint (fun i => column values i < needle) 0 C.rowCount k →
        k = values.findIdx fun v => decide (needle ≤ v) := fun hk => by
      have := findIdx_window_ge hk
      rwa [Nat.zero_add, Nat.sub_zero, ← hlen, ← whole_column, eq_comm] at this
    have hgt : ∀ {k}, IsPartitionPoint (fun i => column values i ≤ needle) 0 C.rowCount k →
        k = values.findIdx fun v => decide (needle < v) := fun hk => by
      have := findIdx_window_gt hk
      rwa [Nat.zero_add, Nat.sub_zero, ← hlen, ← whole_column, eq_comm] at this
    exact ⟨(lowerBound_answers h hv hasc' needle).imp fun k hk => hge hk,
      (bounds_answers h hv hasc' hneedle).imp fun r hr => Prod.ext (hge hr.1) (hgt hr.2)⟩
  · have hwin := window_column (show lo + (hi - lo) ≤ values.length by omega)
    rw [hwin] at hasc ⊢
    have hasc' : AscendingOn (column values) lo hi := fun i j h₁ h₂ h₃ => by
      have := ascendingOn_of_pairwise hasc (i - lo) (j - lo) (Nat.zero_le _) (by omega) (by omega)
      simpa only [Nat.add_sub_cancel' h₁, Nat.add_sub_cancel' (le_trans h₁ h₂)] using this
    exact (boundsIn_answers h hv hle (by omega) hasc' hneedle).imp fun r hr =>
      Prod.ext (findIdx_window_ge hr.1).symm (findIdx_window_gt hr.2).symm
  · refine (valuesAt_answers h hv fun row hrow => by rw [← hlen]; exact hrows row hrow).imp ?_
    rintro r rfl
    apply mapM_some
    intro row hrow
    rw [column, List.getD_eq_getElem?_getD, List.getElem?_eq_getElem (hrows row hrow),
      Option.getD_some]
  · rw [countEq_answers h hle (by omega), hv, ← List.map_drop, ← List.map_take,
      List.count_map_of_injective _ _ (Option.some_injective ℕ)]

/-- A run of 9 that ends in the second leaf. -/
theorem columnSearches_agree_leaves :
    (∀ needle, needle ≤ u64Max → [4, 4, 9, 9, 9, 9, 11].Pairwise (· ≤ ·) →
      SampleColumn.leaves.Answers (SampleColumn.leaves.lowerBound .ofZeros needle)
        (fun k => k = [4, 4, 9, 9, 9, 9, 11].findIdx fun v => decide (needle ≤ v)) ∧
      SampleColumn.leaves.Answers (SampleColumn.leaves.bounds .ofZeros needle)
        (fun r => r = ([4, 4, 9, 9, 9, 9, 11].findIdx (fun v => decide (needle ≤ v)),
          [4, 4, 9, 9, 9, 9, 11].findIdx fun v => decide (needle < v)))) ∧
    (∀ lo hi needle, lo ≤ hi → hi ≤ 7 → needle ≤ u64Max →
      (([4, 4, 9, 9, 9, 9, 11].drop lo).take (hi - lo)).Pairwise (· ≤ ·) →
      SampleColumn.leaves.Answers (SampleColumn.leaves.boundsIn .ofZeros lo hi needle)
        (fun r => r = (lo + (([4, 4, 9, 9, 9, 9, 11].drop lo).take (hi - lo)).findIdx
            fun v => decide (needle ≤ v),
          lo + (([4, 4, 9, 9, 9, 9, 11].drop lo).take (hi - lo)).findIdx
            fun v => decide (needle < v)))) ∧
    (∀ rows : List ℕ, (∀ row ∈ rows, row < 7) →
      SampleColumn.leaves.Answers (SampleColumn.leaves.valuesAt .ofZeros rows)
        (fun r => rows.mapM (fun row => [4, 4, 9, 9, 9, 9, 11][row]?) = some r)) ∧
    ∀ lo hi needle, lo ≤ hi → hi ≤ 7 → SampleColumn.leaves.countEq .ofZeros lo hi needle =
      some ((([4, 4, 9, 9, 9, 9, 11].drop lo).take (hi - lo)).count needle) :=
  columnSearches_agree .ofZeros SampleColumn.leaves_cut (by decide)

end Joined

end ColumnChunks

end EncodedSearch
