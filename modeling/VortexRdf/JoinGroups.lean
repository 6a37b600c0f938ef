/-
Rows grouped by slot, and the right column of a join grouped by code.

* `Groups.build_spec` — the rows of a slot are the places that have it;
* `Indexes` — an index that finds each code's rows in the right column;
* `dense_indexes`, `hashed_indexes`, `build_indexes` — every index built is one.
-/
import VortexRdf.CountingSort
import VortexRdf.Joins

namespace Columns

open EquiJoins Store

/-! ### The counting passes -/

namespace Groups

variable {slots : ℕ} {rowSlots : List ℕ}

/-- The rows in a slot's bucket are the places that have it. -/
theorem bucket_zipIdx (rowSlots : List ℕ) (k : ℕ) :
    CountingSort.bucket rowSlots.zipIdx k = positions rowSlots k := by
  induction rowSlots using List.reverseRecOn with
  | nil => rfl
  | append_singleton rowSlots slot ih =>
    rw [List.zipIdx_append, CountingSort.bucket_append, ih, positions_append, List.zipIdx_singleton,
      CountingSort.bucket_singleton]
    by_cases hk : slot = k <;> simp [hk]

theorem countPass_eq (slots : ℕ) (rowSlots : List ℕ) :
    countPass slots rowSlots = CountingSort.count (slots + 2) rowSlots.zipIdx := by
  rw [countPass, CountingSort.count]
  conv_lhs => rw [← List.zipIdx_map_fst 0 rowSlots]
  rw [List.foldl_map]

/-- Slot `k` holds the rows that have it, ascending, and the last slot none. -/
theorem build_spec (h : ∀ k ∈ rowSlots, k < slots) :
    (build slots rowSlots).rows.length = rowSlots.length ∧ ∀ k ≤ slots,
      (build slots rowSlots).rowsOf k = positions rowSlots k ∧
      (build slots rowSlots).count k = rowSlots.count k := by
  have hrows : ∀ row ∈ rowSlots.zipIdx, row.1 < slots := fun row hrow =>
    h row.1 (List.fst_mem_of_mem_zipIdx hrow)
  have hall : CountingSort.keysBefore rowSlots.zipIdx slots = rowSlots.length := by
    rw [CountingSort.keysBefore_all hrows, List.length_zipIdx]
  have hbucket : ∀ k, (CountingSort.bucket rowSlots.zipIdx k).length = rowSlots.count k := by
    intro k
    rw [bucket_zipIdx, length_positions]
  obtain ⟨hlen, hzero, hcount⟩ := CountingSort.count_spec (Nat.succ_pos (slots + 1))
    fun row hrow => (Nat.succ_lt_succ (hrows row hrow)).trans (Nat.lt_succ_self (slots + 1))
  obtain ⟨hlen', hsum⟩ := CountingSort.sum_spec (show slots < _ by rw [hlen]; omega) hzero
    fun k _ => hcount k
  rw [← countPass_eq] at hlen' hsum hlen
  change (sumPass slots (countPass slots rowSlots)).length = _ at hlen'
  change ∀ k ≤ slots, (sumPass slots (countPass slots rowSlots)).getD k 0 = _ at hsum
  -- the starts are the sums, with one more for the end of the last slot
  obtain ⟨starts, hstarts⟩ : ∃ starts, starts = (sumPass slots (countPass slots rowSlots)).set
    (slots + 1) ((sumPass slots (countPass slots rowSlots)).getD slots 0) := ⟨_, rfl⟩
  have hget : ∀ k ≤ slots, starts.getD k 0 = CountingSort.keysBefore rowSlots.zipIdx k := by
    intro k hk
    rw [hstarts, CountingSort.getD_set, if_neg (by omega), hsum k hk]
  have hlast : starts.getD (slots + 1) 0 = rowSlots.length := by
    rw [hstarts, CountingSort.getD_set, if_pos ⟨rfl, by omega⟩, hsum slots le_rfl, hall]
  have htake : (starts.take slots).length = slots := by
    rw [List.length_take, hstarts, List.length_set, hlen', hlen]
    omega
  have hnext : ∀ k < slots, (starts.take slots).getD k 0 =
      CountingSort.keysBefore rowSlots.zipIdx k := by
    intro k hk
    rw [List.getD_eq_getElem?_getD, List.getElem?_take_of_lt hk, ← List.getD_eq_getElem?_getD,
      hget k hk.le]
  have hout : (List.replicate (starts.getD slots 0) 0).length = rowSlots.zipIdx.length := by
    rw [List.length_replicate, hget slots le_rfl, hall, List.length_zipIdx]
  obtain ⟨hfilled, hslices⟩ := CountingSort.scatter_spec hrows htake.ge hnext hout
  have hbuild : build slots rowSlots = ⟨starts, (CountingSort.scatter rowSlots.zipIdx
      (starts.take slots) (List.replicate (starts.getD slots 0) 0)).2⟩ := by
    rw [build, ← hstarts]
    rfl
  rw [hbuild]
  refine ⟨hfilled.trans List.length_zipIdx, fun k hk => ?_⟩
  rcases Nat.lt_or_eq_of_le hk with hlt | rfl
  · constructor
    · rw [rowsOf, List.drop_take, hget k hk, hget (k + 1) hlt, CountingSort.keysBefore_succ,
        Nat.add_sub_cancel_left, ← bucket_zipIdx]
      exact hslices k hlt
    · rw [count, hget k hk, hget (k + 1) hlt, CountingSort.keysBefore_succ,
        Nat.add_sub_cancel_left, hbucket]
  · -- the slot past the last holds no row
    have hnone : rowSlots.count k = 0 := List.count_eq_zero.mpr fun hmem => (h k hmem).false
    have hempty : positions rowSlots k = [] := by
      rw [← List.length_eq_zero_iff, length_positions, hnone]
    constructor
    · rw [rowsOf, hlast, hget k le_rfl, hall, hempty, List.drop_eq_nil_iff, List.length_take]
      exact Nat.min_le_left _ _
    · rw [count, hlast, hget k le_rfl, hall, Nat.sub_self, hnone]

end Groups

/-! ### Indexes of a column -/

/-- The index finds the rows of every code in the right column. -/
structure Indexes (index : RightIndex) (right : List TermCode) : Prop where
  length : index.groups.rows.length = right.length
  rows : ∀ code, index.rowsFor code = positions right code
  count : ∀ code, index.groups.count (index.slots.slot code) = right.count code

variable {right : List TermCode}

/-- Rows grouped by a slot that tells the codes of the column apart. -/
theorem indexes_of_slots {slots : Slots} {width : ℕ} {rowSlots : List ℕ}
    (hlen : rowSlots.length = right.length) (hrows : ∀ k ∈ rowSlots, k < width)
    (hslot : ∀ code, slots.slot code ≤ width ∧
      ∀ j : ℕ, rowSlots[j]? = some (slots.slot code) ↔ right[j]? = some code) :
    Indexes ⟨slots, .build width rowSlots⟩ right := by
  obtain ⟨hbuilt, hspec⟩ := Groups.build_spec hrows
  have hpositions : ∀ code, positions rowSlots (slots.slot code) = positions right code := by
    intro code
    refine (positions_eq_iff (sortedLT_positions right code)).mpr fun j => ?_
    rw [mem_positions, (hslot code).2 j]
  refine ⟨hbuilt.trans hlen, fun code => ?_, fun code => ?_⟩
  · exact ((hspec _ (hslot code).1).1).trans (hpositions code)
  · refine ((hspec _ (hslot code).1).2).trans ?_
    rw [← length_positions, hpositions, length_positions]

/-! ### The table over a span -/

theorem dense_indexes {least most : TermCode}
    (h : ∀ c ∈ right, least ≤ c ∧ c ≤ most) :
    Indexes (.dense right least ((most - least).toNat + 1)) right := by
  have hsub : ∀ c, least ≤ c → (c - least).toNat = c.toNat - least.toNat := fun c hc =>
    UInt64.toNat_sub_of_le _ _ hc
  refine indexes_of_slots (List.length_map ..) ?_ fun code => ⟨Nat.min_le_right _ _, fun j => ?_⟩
  · intro k hk
    obtain ⟨c, hc, rfl⟩ := List.mem_map.mp hk
    obtain ⟨hlo, hhi⟩ := h c hc
    rw [hsub c hlo, hsub most (UInt64.le_trans hlo hhi)]
    have := UInt64.le_iff_toNat_le.mp hhi
    omega
  · rw [List.getElem?_map, Option.map_eq_some_iff]
    constructor
    · rintro ⟨c, hc, hslot⟩
      obtain ⟨hlo, hhi⟩ := h c (List.mem_of_getElem? hc)
      rw [hc, Option.some.injEq, ← UInt64.toNat_inj]
      have hlo' := UInt64.le_iff_toNat_le.mp hlo
      have hhi' := UInt64.le_iff_toNat_le.mp hhi
      rw [hsub c hlo, hsub most (UInt64.le_trans hlo hhi), Slots.slot, UInt64.toNat_sub] at hslot
      have := code.toNat_lt
      have := most.toNat_lt
      -- a code below the span wraps past it, so only the row's own code has its slot
      omega
    · intro hc
      obtain ⟨hlo, hhi⟩ := h code (List.mem_of_getElem? hc)
      refine ⟨code, hc, ?_⟩
      rw [hsub most (UInt64.le_trans hlo hhi), Slots.slot, hsub code hlo]
      have := UInt64.le_iff_toNat_le.mp hhi
      omega

theorem min_max_spec (a b : TermCode) : (min a b ≤ a ∧ min a b ≤ b) ∧ a ≤ max a b ∧ b ≤ max a b := by
  change ((if a ≤ b then a else b) ≤ a ∧ (if a ≤ b then a else b) ≤ b) ∧
    a ≤ (if a ≤ b then b else a) ∧ b ≤ (if a ≤ b then b else a)
  split_ifs with h
  · exact ⟨⟨UInt64.le_refl a, h⟩, h, UInt64.le_refl b⟩
  · have hba : b ≤ a := by
      rw [UInt64.le_iff_toNat_le] at h ⊢
      omega
    exact ⟨⟨hba, UInt64.le_refl b⟩, UInt64.le_refl a, hba⟩

theorem codeRange_spec {codes : List TermCode} {least most : TermCode}
    (h : codeRange codes = some (least, most)) : ∀ c ∈ codes, least ≤ c ∧ c ≤ most := by
  have hfold : ∀ (rest : List TermCode) (lo hi : TermCode),
      (rest.foldl (fun range c => (min range.1 c, max range.2 c)) (lo, hi)).1 ≤ lo ∧
      hi ≤ (rest.foldl (fun range c => (min range.1 c, max range.2 c)) (lo, hi)).2 ∧
      ∀ c ∈ rest, (rest.foldl (fun range c => (min range.1 c, max range.2 c)) (lo, hi)).1 ≤ c ∧
        c ≤ (rest.foldl (fun range c => (min range.1 c, max range.2 c)) (lo, hi)).2 := by
    intro rest
    induction rest with
    | nil => exact fun lo hi => ⟨UInt64.le_refl _, UInt64.le_refl _, fun _ hc => absurd hc List.not_mem_nil⟩
    | cons c rest ih =>
      intro lo hi
      obtain ⟨hlo, hhi, hrest⟩ := ih (min lo c) (max hi c)
      obtain ⟨⟨hmin, -⟩, -, -⟩ := min_max_spec lo c
      obtain ⟨-, hmax, -⟩ := min_max_spec hi c
      rw [List.foldl_cons]
      refine ⟨UInt64.le_trans hlo hmin, UInt64.le_trans hmax hhi, fun c' hc' => ?_⟩
      rcases List.mem_cons.mp hc' with rfl | htail
      · obtain ⟨⟨-, hmin⟩, -, -⟩ := min_max_spec lo c'
        obtain ⟨-, -, hmax⟩ := min_max_spec hi c'
        exact ⟨UInt64.le_trans hlo hmin, UInt64.le_trans hmax hhi⟩
      · exact hrest c' htail
  cases codes with
  | nil => cases h
  | cons first rest =>
    have hrange : codeRange (first :: rest) = some (rest.foldl
        (fun range c => (min range.1 c, max range.2 c)) (first, first)) := rfl
    rw [hrange, Option.some.injEq] at h
    obtain ⟨hlo, hhi, hrest⟩ := hfold rest first first
    rw [h] at hlo hhi hrest
    intro c hc
    rcases List.mem_cons.mp hc with rfl | htail
    · exact ⟨hlo, hhi⟩
    · exact hrest c htail

/-! ### The map of distinct codes -/

/-- The map numbers the codes seen, and each row has its code's slot. -/
structure Hashed (right : List TermCode) (map : List (TermCode × ℕ)) (rowSlots : List ℕ) : Prop where
  length : rowSlots.length = right.length
  rows : ∀ (j : ℕ) code, right[j]? = some code →
    ∃ k, map.lookup code = some k ∧ rowSlots[j]? = some k
  lt : ∀ code k, map.lookup code = some k → k < map.length
  inj : ∀ code code' k, map.lookup code = some k → map.lookup code' = some k → code = code'

variable {map : List (TermCode × ℕ)}

theorem Hashed.seen {rowSlots : List ℕ}
    (h : Hashed right map rowSlots) {code : TermCode} {k : ℕ} (hk : map.lookup code = some k) :
    Hashed (right ++ [code]) map (rowSlots ++ [k]) := by
  refine ⟨by simp [h.length], fun j c hc => ?_, h.lt, h.inj⟩
  rcases Nat.lt_or_ge j right.length with hj | hj
  · rw [List.getElem?_append_left hj] at hc
    obtain ⟨k', hk', hrow⟩ := h.rows j c hc
    exact ⟨k', hk', by rw [List.getElem?_append_left (by rw [h.length]; exact hj), hrow]⟩
  · obtain rfl : j = right.length := by
      have := (List.getElem?_eq_some_iff.mp hc).1
      rw [List.length_append, List.length_singleton] at this
      omega
    rw [List.getElem?_concat_length, Option.some.injEq] at hc
    subst hc
    exact ⟨k, hk, by rw [← h.length, List.getElem?_concat_length]⟩

theorem lookup_concat {code c : TermCode} {k n : ℕ}
    (hnew : map.lookup code = none) : (map ++ [(code, n)]).lookup c = some k ↔
      map.lookup c = some k ∨ c = code ∧ k = n := by
  have hone : [(code, n)].lookup c = if c = code then some n else none := by
    by_cases hc : c = code
    · simp [List.lookup, hc]
    · simp [List.lookup, hc, beq_eq_false_iff_ne.mpr hc]
  rw [List.lookup_append, hone]
  by_cases hc : c = code
  · subst hc
    simp [hnew, eq_comm]
  · simp [hc]

/-- A new code takes the next slot. -/
theorem Hashed.entered {rowSlots : List ℕ}
    (h : Hashed right map rowSlots) {code : TermCode} (hnew : map.lookup code = none) :
    Hashed right (map ++ [(code, map.length)]) rowSlots := by
  refine ⟨h.length, fun j c hc => ?_, fun c k hk => ?_, fun c c' k hk hk' => ?_⟩
  · obtain ⟨k, hk, hrow⟩ := h.rows j c hc
    exact ⟨k, (lookup_concat hnew).mpr (Or.inl hk), hrow⟩
  · rw [List.length_append, List.length_singleton]
    rcases (lookup_concat hnew).mp hk with hold | ⟨-, rfl⟩
    · have := h.lt c k hold
      omega
    · omega
  · rcases (lookup_concat hnew).mp hk with hold | ⟨rfl, rfl⟩
    · rcases (lookup_concat hnew).mp hk' with hold' | ⟨rfl, rfl⟩
      · exact h.inj c c' k hold hold'
      · exact absurd (h.lt c _ hold) (lt_irrefl _)
    · rcases (lookup_concat hnew).mp hk' with hold' | ⟨rfl, -⟩
      · exact absurd (h.lt c' _ hold') (lt_irrefl _)
      · rfl

theorem hashPass_append (right : List TermCode) (code : TermCode) :
    RightIndex.hashPass (right ++ [code]) =
      match (RightIndex.hashPass right).1.lookup code with
      | some k => ((RightIndex.hashPass right).1, (RightIndex.hashPass right).2 ++ [k])
      | none => ((RightIndex.hashPass right).1 ++ [(code, (RightIndex.hashPass right).1.length)],
          (RightIndex.hashPass right).2 ++ [(RightIndex.hashPass right).1.length]) := by
  rw [RightIndex.hashPass, List.foldl_append]
  rfl

theorem hashPass_spec (right : List TermCode) :
    Hashed right (RightIndex.hashPass right).1 (RightIndex.hashPass right).2 := by
  induction right using List.reverseRecOn with
  | nil => exact ⟨rfl, by simp, by simp [RightIndex.hashPass], by simp [RightIndex.hashPass]⟩
  | append_singleton right code ih =>
    rw [hashPass_append]
    cases hk : (RightIndex.hashPass right).1.lookup code with
    | some k => exact ih.seen hk
    | none => exact (ih.entered hk).seen ((lookup_concat hk).mpr (Or.inr ⟨rfl, rfl⟩))

theorem hashed_indexes (right : List TermCode) : Indexes (.hashed right) right := by
  have h := hashPass_spec right
  rw [RightIndex.hashed]
  rcases hpass : RightIndex.hashPass right with ⟨map, rowSlots⟩
  rw [hpass] at h
  change Indexes ⟨.hashed map, .build map.length rowSlots⟩ right
  have hrow : ∀ {j k : ℕ}, rowSlots[j]? = some k →
      ∃ code, right[j]? = some code ∧ map.lookup code = some k := by
    intro j k hk
    have hj := (List.getElem?_eq_some_iff.mp hk).1
    rw [h.length] at hj
    obtain ⟨k', hk', hrow⟩ := h.rows j right[j] (List.getElem?_eq_getElem hj)
    rw [hk, Option.some.injEq] at hrow
    subst hrow
    exact ⟨right[j], List.getElem?_eq_getElem hj, hk'⟩
  refine indexes_of_slots h.length (fun k hk => ?_) fun code => ?_
  · obtain ⟨j, hj⟩ := List.mem_iff_getElem?.mp hk
    obtain ⟨code, -, hcode⟩ := hrow hj
    exact h.lt code k hcode
  · rw [Slots.slot]
    cases hk : map.lookup code with
    | some k =>
      refine ⟨(h.lt code k hk).le, fun j => ⟨fun hj => ?_, fun hj => ?_⟩⟩
      · obtain ⟨code', hright, hcode'⟩ := hrow hj
        rw [hright, h.inj code' code k hcode' hk]
      · obtain ⟨k', hk', hj'⟩ := h.rows j code hj
        rw [hk, Option.some.injEq] at hk'
        rw [hj', ← hk']
        rfl
    | none =>
      refine ⟨le_rfl, fun j => ⟨fun hj => ?_, fun hj => ?_⟩⟩
      · obtain ⟨code', -, hcode'⟩ := hrow hj
        exact absurd (h.lt code' _ hcode') (lt_irrefl _)
      · obtain ⟨k', hk', -⟩ := h.rows j code hj
        rw [hk] at hk'
        cases hk'

/-- Whichever index is built, it finds every code's rows. -/
theorem build_indexes (right : List TermCode) : Indexes (CodeGroups.build right).index right := by
  rw [CodeGroups.build, Slots.ofSpan]
  cases hrange : codeRange right with
  | none => exact hashed_indexes right
  | some range =>
    by_cases hfits : denseTableFits (range.2 - range.1) right.length = true
    · simp only [if_pos hfits]
      exact dense_indexes (codeRange_spec hrange)
    · simp only [if_neg hfits]
      exact hashed_indexes right

end Columns
