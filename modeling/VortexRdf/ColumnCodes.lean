/-
What reads of a chunked column at positions yield.

* `takeCodes_eq`, `readCodes_eq` — codes are the column's values, in the order of the rows;
* `leavesHoldingLoop_eq` — the leaves counted are those that hold the rows;
* `listedLoop_spec`, `listedFrom_answers` — a walk of a run, leaf by leaf, keeps the rows it lists;
* `columnReads_exact` — reads of a column at positions are the column's values.
-/
import VortexRdf.ColumnReads

open Bisect Buffers

namespace EncodedSearch

variable {fl : FastLanes} {C : ColumnChunks} {values : List ℕ}

/-! ### What the reads of a column yield -/

namespace ColumnReads

open ColumnChunks

theorem takenCodes_eq (h : C.Cut fl) (hv : C.concat fl = values.map some) {rows : List ℕ}
    (hasc : rows.Pairwise (· ≤ ·)) (hrows : ∀ row ∈ rows, row < values.length) :
    takenCodes fl C rows = some (rows.map (column values)) := by
  rw [takenCodes, take_eq h hv hasc hrows, Option.map_some, List.map_map]
  rfl

theorem leafCodes_eq (h : C.Cut fl) (hv : C.concat fl = values.map some) {rows : List ℕ}
    {first last : ℕ} (hasc : rows.Pairwise (· ≤ ·)) (hle : first ≤ last)
    (hlast : last < values.length) (hrows : ∀ row ∈ rows, first ≤ row ∧ row ≤ last) :
    leafCodes fl C rows first last = some (rows.map (column values)) := by
  have hlen : values.length = C.rowCount := by
    rw [← h.concat_length, hv, List.length_map]
  rcases leafRows_cases h (show first < last + 1 by omega) (show last + 1 ≤ C.rowCount by omega)
    with ⟨leaf, hleaf, hwindow⟩ | ⟨hleaf, -⟩
  · simp only [leafCodes, hleaf, Option.bind_eq_bind, Option.bind_some]
    exact hwindow.valuesAt h hv List.length_replicate.symm fun row hrow =>
      ⟨(hrows row hrow).1, Nat.lt_succ_of_le (hrows row hrow).2⟩
  · simp only [leafCodes, hleaf, Option.bind_eq_bind, Option.bind_some]
    exact takenCodes_eq h hv hasc fun row hrow => lt_of_le_of_lt (hrows row hrow).2 hlast

/-- The last of ascending rows is not below any. -/
theorem le_last {rows : List ℕ} (hasc : rows.Pairwise (· ≤ ·)) {last : ℕ}
    (hlast : last + 1 = rows.length) :
    ∃ hlt : last < rows.length, ∀ row ∈ rows, row ≤ rows[last] := by
  refine ⟨by omega, fun row hrow => ?_⟩
  obtain ⟨i, hi, rfl⟩ := List.getElem_of_mem hrow
  rcases Nat.eq_or_lt_of_le (show i ≤ last by omega) with rfl | hlt
  · exact le_rfl
  · exact List.pairwise_iff_getElem.mp hasc i last hi (by omega) hlt

/-- The rows of one leaf, in the order they are asked for. -/
theorem leafGroup (h : C.Cut fl) {first : ℕ} {rest : List ℕ}
    (hasc : (first :: rest).Pairwise (· ≤ ·)) (hrow : first < C.rowCount) :
    ∃ c, ∃ hc : c < C.chunks.length, ∃ inside, C.leafHolding first = some c ∧
      C.leafEnd first = some C.chunks[c].endRow ∧ C.chunks[c].rowOffset ≤ first ∧
      rowsBefore (first :: rest) C.chunks[c].endRow = some inside ∧ 0 < inside ∧
      inside ≤ (first :: rest).length ∧
      (∀ row ∈ (first :: rest).take inside, first ≤ row ∧ row < C.chunks[c].endRow) ∧
      ∀ row ∈ (first :: rest).drop inside, C.chunks[c].endRow ≤ row := by
  obtain ⟨c, hc, hholding, hend, hlo, hhi⟩ := leafEnd_eq h hrow
  obtain ⟨inside, hinside, hpos, hle, hbefore, hafter⟩ := rowsBefore_group hasc hhi
  exact ⟨c, hc, inside, hholding, hend, hlo, hinside, hpos, hle, hbefore, hafter⟩

theorem takeCodesLoop_eq (h : C.Cut fl) (hv : C.concat fl = values.map some) {fuel : ℕ}
    {rows : List ℕ} (hfuel : rows.length ≤ fuel) (hasc : rows.Pairwise (· ≤ ·))
    (hrows : ∀ row ∈ rows, row < values.length) :
    takeCodesLoop fl C fuel rows = some (rows.map (column values)) := by
  have hlen : values.length = C.rowCount := by
    rw [← h.concat_length, hv, List.length_map]
  induction fuel generalizing rows with
  | zero =>
    rw [Nat.le_zero, List.length_eq_zero_iff] at hfuel
    rw [hfuel]
    rfl
  | succ fuel ih =>
    cases rows with
    | nil => rfl
    | cons first rest =>
      have hfirst := hrows first List.mem_cons_self
      obtain ⟨c, hc, inside, -, hend, hlo, hinside, hpos, hle, hbefore, hafter⟩ :=
        leafGroup h hasc (hlen ▸ hfirst)
      have hlength : inside - 1 + 1 = ((first :: rest).take inside).length := by
        rw [List.length_take]
        omega
      have hgroup := hasc.sublist (List.take_sublist inside (first :: rest))
      obtain ⟨hlast, hleLast⟩ := le_last hgroup hlength
      have hlastMem := List.getElem_mem hlast
      have hcodes := leafCodes_eq h hv hgroup (hbefore _ hlastMem).1
        (hrows _ (List.mem_of_mem_take hlastMem))
        fun row hrow => ⟨(hbefore row hrow).1, hleLast row hrow⟩
      have hlater : takeCodesLoop fl C fuel ((first :: rest).drop inside) =
          some (((first :: rest).drop inside).map (column values)) :=
        ih (by simp only [List.length_drop, List.length_cons] at hfuel ⊢; omega)
          (hasc.sublist (List.drop_sublist inside _))
          fun row hrow => hrows row (List.mem_of_mem_drop hrow)
      rw [takeCodesLoop]
      simp only [hend, Option.bind_eq_bind, Option.bind_some, hinside,
        List.getElem?_eq_getElem hlast, hcodes, hlater]
      rw [← List.map_append, List.take_append_drop]

/-- The codes at ascending rows are the column's values there. -/
theorem takeCodes_eq (h : C.Cut fl) (hv : C.concat fl = values.map some) {rows : List ℕ}
    (hasc : rows.Pairwise (· ≤ ·)) (hrows : ∀ row ∈ rows, row < values.length) :
    takeCodes fl C rows = some (rows.map (column values)) := by
  rw [takeCodes]
  split_ifs
  · exact takenCodes_eq h hv hasc hrows
  · exact takeCodesLoop_eq h hv le_rfl hasc hrows

/-- The codes at a range of rows are the column's values there. -/
theorem readCodes_eq (h : C.Cut fl) (hv : C.concat fl = values.map some) {lo hi : ℕ}
    (hhi : hi ≤ values.length) :
    readCodes fl C lo hi = some ((List.range' lo (hi - lo)).map (column values)) := by
  have hlen : values.length = C.rowCount := by
    rw [← h.concat_length, hv, List.length_map]
  have htaken : takeCodes fl C (List.range' lo (hi - lo)) =
      some ((List.range' lo (hi - lo)).map (column values)) := by
    refine takeCodes_eq h hv ?_ fun row hrow => ?_
    · exact List.pairwise_le_range'
    · have hmem := List.mem_range'_1.mp hrow
      omega
  rw [readCodes]
  split_ifs with hempty hshort
  · rw [Nat.sub_eq_zero_of_le hempty]
    rfl
  · rcases leafRows_cases h (show lo < hi by omega) (show hi ≤ C.rowCount by omega)
      with ⟨leaf, hleaf, hwindow⟩ | ⟨hleaf, -⟩
    · simp only [hleaf, Option.bind_eq_bind, Option.bind_some]
      have hwithin : lo + (List.replicate (hi - lo) 0).length ≤ hi := by
        rw [List.length_replicate]
        omega
      have hread := hwindow.readInto h hv le_rfl hwithin
      rwa [List.length_replicate] at hread
    · simp only [hleaf, Option.bind_eq_bind, Option.bind_some, htaken]
  · exact htaken

/-- The leaves counted are those that hold some of the rows. -/
theorem leavesHoldingLoop_eq (h : C.Cut fl) {fuel : ℕ} {rows : List ℕ}
    (hfuel : rows.length ≤ fuel) (hasc : rows.Pairwise (· ≤ ·))
    (hrows : ∀ row ∈ rows, row < C.rowCount) :
    leavesHoldingLoop C fuel rows = some (rows.map C.leafHolding).toFinset.card := by
  induction fuel generalizing rows with
  | zero =>
    rw [Nat.le_zero, List.length_eq_zero_iff] at hfuel
    rw [hfuel]
    rfl
  | succ fuel ih =>
    cases rows with
    | nil => rfl
    | cons first rest =>
      obtain ⟨c, hc, inside, hholding, hend, hlo, hinside, hpos, hle, hbefore, hafter⟩ :=
        leafGroup h hasc (hrows first List.mem_cons_self)
      have hlater : leavesHoldingLoop C fuel ((first :: rest).drop inside) =
          some (((first :: rest).drop inside).map C.leafHolding).toFinset.card :=
        ih (by simp only [List.length_drop, List.length_cons] at hfuel ⊢; omega)
          (hasc.sublist (List.drop_sublist inside _))
          fun row hrow => hrows row (List.mem_of_mem_drop hrow)
      -- the rows of the group have the first one's leaf, the others another
      have hsame : ∀ row ∈ (first :: rest).take inside, C.leafHolding row = some c := by
        intro row hrow
        obtain ⟨c', hc', hholding', hlo', hhi'⟩ :=
          h.leafHolding_eq (hrows row (List.mem_of_mem_take hrow))
        obtain ⟨hfirst, hbound⟩ := hbefore row hrow
        rw [hholding']
        congr 1
        rw [← Cut.leafBound_eq hc] at hlo
        rw [← Cut.leafBound_eq hc'] at hlo'
        rw [← h.leafBound_succ hc] at hbound
        rw [← h.leafBound_succ hc'] at hhi'
        by_contra hne
        rcases Nat.lt_or_gt_of_ne hne with hlt | hgt
        · have hbelow := h.segments.le (show c' + 1 ≤ c by omega) hc.le
          omega
        · have habove := h.segments.le (show c + 1 ≤ c' by omega) hc'.le
          omega
      have hother : ∀ row ∈ (first :: rest).drop inside, C.leafHolding row ≠ some c := by
        intro row hrow hclash
        obtain ⟨c', hc', hholding', -, hhi'⟩ :=
          h.leafHolding_eq (hrows row (List.mem_of_mem_drop hrow))
        obtain rfl : c' = c := Option.some_inj.mp (hholding'.symm.trans hclash)
        have hpast := hafter row hrow
        omega
      have hgroup : (((first :: rest).take inside).map C.leafHolding).toFinset = {some c} := by
        ext x
        simp only [List.mem_toFinset, List.mem_map, Finset.mem_singleton]
        constructor
        · rintro ⟨row, hrow, rfl⟩
          exact hsame row hrow
        · rintro rfl
          refine ⟨first, ?_, hholding⟩
          obtain ⟨k, rfl⟩ : ∃ k, inside = k + 1 := ⟨inside - 1, by omega⟩
          exact List.mem_cons_self
      have hdisjoint : Disjoint ({some c} : Finset (Option ℕ))
          (((first :: rest).drop inside).map C.leafHolding).toFinset := by
        rw [Finset.disjoint_singleton_left, List.mem_toFinset, List.mem_map]
        rintro ⟨row, hrow, hclash⟩
        exact hother row hrow hclash
      have hcard : ((first :: rest).map C.leafHolding).toFinset.card =
          (((first :: rest).drop inside).map C.leafHolding).toFinset.card + 1 := by
        rw [← List.take_append_drop inside (first :: rest), List.map_append,
          List.toFinset_append, List.take_append_drop, hgroup,
          Finset.card_union_of_disjoint hdisjoint, Finset.card_singleton, Nat.add_comm]
      rw [leavesHoldingLoop]
      simp only [hend, Option.bind_eq_bind, Option.bind_some, hinside, hlater]
      rw [hcard]

/-! ### Which rows a run lists -/

/-- The values of a run of rows. -/
def runOf (values : List ℕ) (lo hi : ℕ) : List ℕ := (values.drop lo).take (hi - lo)

theorem mem_runOf {lo hi row : ℕ} (hle : lo ≤ hi) (hhi : hi ≤ values.length) :
    row ∈ runOf values lo hi ↔ ∃ i, lo ≤ i ∧ i < hi ∧ column values i = row := by
  rw [runOf, window_column (by omega)]
  simp only [valuesFrom, List.mem_map, List.mem_range]
  constructor
  · rintro ⟨k, hk, rfl⟩
    exact ⟨lo + k, by omega, by omega, rfl⟩
  · rintro ⟨i, hlo, hi', rfl⟩
    exact ⟨i - lo, by omega, by rw [Nat.add_sub_cancel' hlo]⟩

/-- The values of the run before `place` are below every row left. -/
def Behind (values : List ℕ) (lo place : ℕ) (pending : List ℕ) : Prop :=
  ∀ row ∈ pending, ∀ i, lo ≤ i → i < place → column values i < row

theorem Behind.mono {lo place : ℕ} {pending later : List ℕ} (h : Behind values lo place pending)
    (hsub : ∀ row ∈ later, row ∈ pending) : Behind values lo place later :=
  fun row hrow => h row (hsub row hrow)

/-- Rows past every value of a run are not listed. -/
theorem Behind.filter_eq_nil {lo hi : ℕ} {pending : List ℕ} (h : Behind values lo hi pending)
    (hle : lo ≤ hi) (hhi : hi ≤ values.length) :
    pending.filter (fun row => decide (row ∈ runOf values lo hi)) = [] := by
  rw [List.filter_eq_nil_iff]
  intro row hrow hlisted
  obtain ⟨i, hlo, hi', heq⟩ := (mem_runOf hle hhi).mp (of_decide_eq_true hlisted)
  have hlt := h row hrow i hlo hi'
  omega

section Listed

variable {lo hi : ℕ} (hle : lo ≤ hi) (hhi : hi ≤ values.length)
  (hasc : AscendingOn (column values) lo hi)

include hle hhi hasc

/-- A row that a window reaches is listed where the window holds it. -/
theorem listed_iff {place stop row a b : ℕ} (hlo : lo ≤ place) (hstop : stop ≤ hi)
    (hbehind : ∀ i, lo ≤ i → i < place → column values i < row)
    (ha : IsPartitionPoint (fun i => column values i < row) place stop a)
    (hb : IsPartitionPoint (fun i => column values i ≤ row) place stop b) (hreached : a ≠ stop) :
    row ∈ runOf values lo hi ↔ a < b := by
  have halt : a < stop := lt_of_le_of_ne ha.le hreached
  have hage := ha.ge
  have hnot := ha.after a le_rfl halt
  rw [mem_runOf hle hhi]
  constructor
  · rintro ⟨i, hlo', hi', rfl⟩
    by_contra hba
    -- the window's row at its bound is past the needle, and so are those after it
    have hpast := hb.after a (by omega) halt
    by_cases hai : a ≤ i
    · exact hpast (hasc a i (by omega) hai hi')
    · rcases Nat.lt_or_ge i place with hbefore | hin
      · exact absurd rfl (Nat.ne_of_lt (hbehind i hlo' hbefore))
      · exact absurd rfl (Nat.ne_of_lt (ha.before i hin (by omega)))
  · intro hab
    refine ⟨a, by omega, by omega, ?_⟩
    have hle' := hb.before a hage hab
    omega

/-- The rows that fall in a window: those listed are kept, and those left are past it. -/
theorem listedLoop_spec (h : C.Cut fl) (hv : C.concat fl = values.map some) {place stop : ℕ}
    {leaf : LeafRows} (hwindow : C.IsWindow place stop leaf) (hlo : lo ≤ place) (hstop : stop ≤ hi)
    {pending : List ℕ} (hpending : pending.Pairwise (· < ·))
    (hbehind : Behind values lo place pending) (kept : List ℕ) :
    ∃ done rest, pending = done ++ rest ∧ listedLoop fl leaf stop kept pending =
        some (kept ++ done.filter (fun row => decide (row ∈ runOf values lo hi)), rest) ∧
      Behind values lo stop rest := by
  induction pending generalizing kept with
  | nil => exact ⟨[], [], rfl, by simp [listedLoop], fun row hrow => by simp at hrow⟩
  | cons row rest ih =>
    have hwindowAsc : AscendingOn (column values) place stop :=
      fun i j h₁ h₂ h₃ => hasc i j (by omega) h₂ (by omega)
    obtain ⟨a, b, hbounds, ha, hb⟩ := hwindow.bounds h hv hwindowAsc row
    obtain ⟨hafter, hrest⟩ := List.pairwise_cons.mp hpending
    by_cases hreached : a = stop
    · refine ⟨[], row :: rest, rfl, by simp [listedLoop, hbounds, hreached], ?_⟩
      subst hreached
      have hrow : ∀ i, lo ≤ i → i < a → column values i < row := by
        intro i hloi hia
        rcases Nat.lt_or_ge i place with hbefore | hin
        · exact hbehind row List.mem_cons_self i hloi hbefore
        · exact ha.before i hin hia
      intro row' hrow' i hloi hia
      rcases List.mem_cons.mp hrow' with rfl | hlater
      · exact hrow i hloi hia
      · exact (hrow i hloi hia).trans (hafter row' hlater)
    · have hlisted := listed_iff hle hhi hasc hlo hstop (hbehind row List.mem_cons_self) ha hb
        hreached
      obtain ⟨done, left, hsplit, hloop, hleft⟩ := ih hrest
        (hbehind.mono fun row' hrow' => List.mem_cons_of_mem row hrow')
        (if a < b then kept ++ [row] else kept)
      refine ⟨row :: done, left, by rw [hsplit]; rfl, ?_, hleft⟩
      simp only [listedLoop, hbounds, Option.bind_eq_bind, Option.bind_some, if_neg hreached, hloop]
      by_cases hab : a < b
      · simp [hab, hlisted.mpr hab]
      · have hnot : row ∉ runOf values lo hi := fun hin => hab (hlisted.mp hin)
        simp [hab, hnot]

/-- The walk keeps the listed rows, or declines because a leaf does: each turn walks one leaf, and
the next begins where the next row may be. -/
theorem listedFrom_answers (h : C.Cut fl) (hv : C.concat fl = values.map some) {fuel place : ℕ}
    (hfuel : hi - place ≤ fuel) (hlo : lo ≤ place) (hplace : place ≤ hi) {pending : List ℕ}
    (hpending : pending.Pairwise (· < ·)) (hsmall : ∀ row ∈ pending, row ≤ u64Max)
    (hbehind : Behind values lo place pending) (kept : List ℕ) :
    C.Answers (listedFrom fl C hi fuel place kept pending) fun r =>
      r = kept ++ pending.filter fun row => decide (row ∈ runOf values lo hi) := by
  have hlen : values.length = C.rowCount := by
    rw [← h.concat_length, hv, List.length_map]
  have hfinished : ∀ pending kept, Behind values lo hi pending →
      kept = kept ++ pending.filter fun row => decide (row ∈ runOf values lo hi) := by
    intro pending kept hpast
    rw [hpast.filter_eq_nil hle hhi, List.append_nil]
  induction fuel generalizing place kept pending with
  | zero =>
    obtain rfl : place = hi := by omega
    exact .inl ⟨kept, rfl, hfinished pending kept hbehind⟩
  | succ fuel ih =>
    rw [listedFrom]
    by_cases hmore : place < hi ∧ pending ≠ []
    · rw [if_pos hmore]
      obtain ⟨c, hc, -, hend, -, hleaf⟩ := leafEnd_eq h (show place < C.rowCount by omega)
      simp only [hend, Option.bind_eq_bind, Option.bind_some]
      have hlt : place < min C.chunks[c].endRow hi := by omega
      rcases leafRows_cases h hlt (show min C.chunks[c].endRow hi ≤ C.rowCount by omega)
        with ⟨leaf, hrows, hwindow⟩ | ⟨hrows, hdeclined | ⟨stop, hstop, hspan⟩⟩
      · obtain ⟨done, rest, rfl, hloop, hleft⟩ := listedLoop_spec hle hhi hasc h hv hwindow hlo
          (Nat.min_le_right _ _) hpending hbehind kept
        simp only [hrows, hloop, Option.bind_some]
        cases rest with
        | nil => exact .inl ⟨_, rfl, by rw [List.append_nil]⟩
        | cons next rest =>
          have hafterAsc : AscendingOn (column values) (min C.chunks[c].endRow hi) hi :=
            fun i j h₁ h₂ h₃ => hasc i j (by omega) h₂ h₃
          have hnext : next ≤ u64Max := hsmall next (by simp)
          have hleftPairwise := (List.pairwise_append.mp hpending).2.1
          rcases boundsIn_answers h hv (Nat.min_le_right _ _) (show hi ≤ C.rowCount by omega)
            hafterAsc hnext with ⟨hit, hhit, hpoint, -⟩ | ⟨hhit, hdeclined⟩
          · simp only [seek, hhit, Option.map_some, Option.bind_some]
            have hge := hpoint.ge
            -- what the search passes is below the next row, and so below those after it
            have hbehindNext : Behind values lo hit.1 (next :: rest) := by
              have hfirst : ∀ i, lo ≤ i → i < hit.1 → column values i < next := by
                intro i hloi hi'
                rcases Nat.lt_or_ge i (min C.chunks[c].endRow hi) with hbefore | hin
                · exact hleft next List.mem_cons_self i hloi hbefore
                · exact hpoint.before i hin hi'
              intro row hrow i hloi hi'
              rcases List.mem_cons.mp hrow with rfl | hlater
              · exact hfirst i hloi hi'
              · exact (hfirst i hloi hi').trans
                  ((List.pairwise_cons.mp hleftPairwise).1 row hlater)
            refine (ih (by omega) (by omega) hpoint.le hleftPairwise
              (fun row hrow => hsmall row (List.mem_append_right done hrow)) hbehindNext _).imp ?_
            rintro r rfl
            rw [List.filter_append, List.append_assoc]
          · simp only [seek, hhit, Option.map_some, Option.map_none, Option.bind_some]
            exact .inr ⟨rfl, hdeclined⟩
      · simp only [hrows, Option.bind_some]
        exact .inr ⟨rfl, hdeclined⟩
      · rw [hend] at hstop
        obtain rfl := Option.some_inj.mp hstop
        omega
    · rw [if_neg hmore]
      refine .inl ⟨kept, rfl, hfinished pending kept ?_⟩
      rcases Nat.lt_or_ge place hi with hlt | hge
      · have hnil : pending = [] := by
          by_contra hne
          exact hmore ⟨hlt, hne⟩
        rw [hnil]
        exact fun row hrow => by simp at hrow
      · obtain rfl : place = hi := by omega
        exact hbehind

end Listed

/-- Of ascending rows, the ones a run lists. -/
theorem listedIn_answers (h : C.Cut fl) (hv : C.concat fl = values.map some) {lo hi : ℕ}
    (hle : lo ≤ hi) (hhi : hi ≤ values.length) (hasc : AscendingOn (column values) lo hi)
    {rows : List ℕ} (hne : rows ≠ []) (hrows : rows.Pairwise (· < ·))
    (hsmall : ∀ row ∈ rows, row ≤ u64Max) :
    C.Answers (listedIn fl C rows lo hi) fun r =>
      r = rows.filter fun row => decide (row ∈ runOf values lo hi) := by
  have hlen : values.length = C.rowCount := by
    rw [← h.concat_length, hv, List.length_map]
  obtain ⟨first, rest, rfl⟩ := List.exists_cons_of_ne_nil hne
  simp only [listedIn, List.head?_cons, Option.bind_eq_bind, Option.bind_some]
  rcases boundsIn_answers h hv hle (show hi ≤ C.rowCount by omega) hasc
    (hsmall first List.mem_cons_self) with ⟨hit, hhit, hpoint, -⟩ | ⟨hhit, hdeclined⟩
  · simp only [seek, hhit, Option.map_some, Option.bind_some]
    have hge := hpoint.ge
    have hbehind : Behind values lo hit.1 (first :: rest) := by
      intro row hrow i hloi hi'
      rcases List.mem_cons.mp hrow with rfl | hlater
      · exact hpoint.before i hloi hi'
      · exact (hpoint.before i hloi hi').trans ((List.pairwise_cons.mp hrows).1 row hlater)
    refine (listedFrom_answers hle hhi hasc h hv (by omega) hge hpoint.le hrows hsmall hbehind
      []).imp ?_
    rintro r rfl
    rw [List.nil_append]
  · simp only [seek, hhit, Option.map_some, Option.map_none, Option.bind_some]
    exact .inr ⟨rfl, hdeclined⟩

/-- **Reads of a column at positions are the column's values.**  Of ascending rows, those kept are
the ones an ascending run lists too, each once; codes are read in the order of the rows asked for;
and the leaves counted are those that hold them. -/
theorem columnReads_exact (fl : FastLanes) {C : ColumnChunks} {values : List ℕ} (h : C.Cut fl)
    (hv : C.concat fl = values.map some) :
    (∀ (rows : List ℕ) (lo hi : ℕ), rows ≠ [] → rows.Pairwise (· < ·) →
      (∀ row ∈ rows, row ≤ u64Max) → lo ≤ hi → hi ≤ values.length →
      (runOf values lo hi).Pairwise (· ≤ ·) →
      C.Answers (listedIn fl C rows lo hi) fun r =>
        r.Pairwise (· < ·) ∧ ∀ row, row ∈ r ↔ row ∈ rows ∧ row ∈ runOf values lo hi) ∧
    (∀ rows : List ℕ, rows.Pairwise (· ≤ ·) → (∀ row ∈ rows, row < values.length) →
      ∃ codes, takeCodes fl C rows = some codes ∧
        rows.mapM (fun row => values[row]?) = some codes) ∧
    (∀ lo hi : ℕ, hi ≤ values.length → readCodes fl C lo hi = some (runOf values lo hi)) ∧
    ∀ rows : List ℕ, rows.Pairwise (· ≤ ·) → (∀ row ∈ rows, row < values.length) →
      leavesHolding C rows = some (rows.map C.leafHolding).toFinset.card := by
  have hlen : values.length = C.rowCount := by
    rw [← h.concat_length, hv, List.length_map]
  refine ⟨?_, ?_, ?_, ?_⟩
  · intro rows lo hi hne hrows hsmall hle hhi hrun
    have hasc : AscendingOn (column values) lo hi := by
      rw [runOf, window_column (by omega)] at hrun
      intro i j hloi hij hj
      have hordered := ascendingOn_of_pairwise hrun (i - lo) (j - lo) (Nat.zero_le _) (by omega)
        (by omega)
      simpa only [Nat.add_sub_cancel' hloi, Nat.add_sub_cancel' (hloi.trans hij)] using hordered
    refine (listedIn_answers h hv hle hhi hasc hne hrows hsmall).imp ?_
    rintro r rfl
    exact ⟨hrows.filter _, fun row => by simp⟩
  · intro rows hasc hrows
    refine ⟨_, takeCodes_eq h hv hasc hrows, mapM_some fun row hrow => ?_⟩
    rw [column, List.getD_eq_getElem?_getD, List.getElem?_eq_getElem (hrows row hrow),
      Option.getD_some]
  · intro lo hi hhi
    rw [readCodes_eq h hv hhi]
    congr 1
    by_cases hle : lo ≤ hi
    · rw [runOf, window_column (by omega), valuesFrom, List.range'_eq_map_range, List.map_map]
      rfl
    · rw [runOf, Nat.sub_eq_zero_of_le (Nat.le_of_not_le hle)]
      rfl
  · intro rows hasc hrows
    exact leavesHoldingLoop_eq h le_rfl hasc fun row hrow => hlen ▸ hrows row hrow

/-- Rows asked for on both sides of a leaf's end. -/
theorem columnReads_exact_leaves :
    SampleColumn.leaves.Answers (listedIn .ofZeros SampleColumn.leaves [3, 4, 9, 10] 0 7)
      (fun r => r.Pairwise (· < ·) ∧ ∀ row, row ∈ r ↔ row ∈ [3, 4, 9, 10] ∧
        row ∈ runOf [4, 4, 9, 9, 9, 9, 11] 0 7) ∧
    readCodes .ofZeros SampleColumn.leaves 2 6 = some (runOf [4, 4, 9, 9, 9, 9, 11] 2 6) := by
  have hv : SampleColumn.leaves.concat .ofZeros = [4, 4, 9, 9, 9, 9, 11].map some := by decide
  obtain ⟨hlisted, -, hread, -⟩ := columnReads_exact .ofZeros SampleColumn.leaves_cut hv
  exact ⟨hlisted [3, 4, 9, 10] 0 7 (by decide) (by decide) (by decide) (by decide) (by decide)
    (by decide), hread 2 6 (by decide)⟩

end ColumnReads

end EncodedSearch
