/-
A read sent chunk by chunk: every row is sent, in order, whatever the pace learns.

* `Delivered` — chunks within their limits that read as the rows' terms;
* `sendAll_spec` — steps that each carry the next rows deliver them all;
* `Pace.Kept` — a pace offers at least one row, and no more than the read's limits;
* `payloads_deliver` — a dictionary's codes, shared quads and lookups, from any limits accepted.
-/
import VortexRdf.SharedPayloads

namespace TermPayloads

open Dictionary Programs Sharing Store Terms
open Columns (saturatingMul)

/-! ### All rows -/

/-- Chunks within their limits, whose entries read in order are the terms expected. -/
structure Delivered (limits : Limits) (W : ℕ) (expected : List (Option Str)) (payloads : List Payload) :
    Prop where
  rows : ∀ p ∈ payloads, ∃ held, 1 ≤ held ∧ held ≤ limits.rows ∧ p.terms.length = W * held ∧
    (p.bytes ≤ limits.chunkBytes ∨ held = 1)
  bounds : ∀ p ∈ payloads, ∀ b ∈ p.bounds, IsI32 b ∧ 0 ≤ b ∧ b ≤ p.text.length
  entries : ∀ p ∈ payloads, ∀ e ∈ p.terms, IsI32 e ∧ (p.read e = some none ↔ e = -1)
  reads : payloads.flatMap (fun p => p.terms.map p.read) = expected.map some

theorem Payload.read_none_iff (p : Payload) (e : ℤ) : p.read e = some none ↔ e = -1 := by
  constructor
  · intro h
    rw [read] at h
    split_ifs at h with hpos hnone
    · obtain ⟨t, -, ht⟩ := Option.map_eq_some_iff.mp h
      cases ht
    · exact hnone
    · obtain ⟨t, -, ht⟩ := Option.map_eq_some_iff.mp h
      cases ht
  · rintro rfl
    rfl

section Steps

variable {limits : Limits} {W total : ℕ} {expected : List (Option Str)}

theorem Carries.weaken {narrow : Limits} {payload : Payload} {held : ℕ}
    (h : Carries narrow W expected payload held) (hrows : narrow.rows ≤ limits.rows)
    (hbytes : narrow.chunkBytes = limits.chunkBytes) : Carries limits W expected payload held :=
  ⟨h.some_row, h.rows_le.trans hrows, h.held_le, hbytes ▸ h.bytes_le, h.bounds, h.entries, h.reads⟩

/-- The chunk that carries the first rows, before those that deliver the rest. -/
theorem Delivered.cons {payload : Payload} {held : ℕ} {payloads : List Payload}
    (h : Carries limits W expected payload held)
    (hrest : Delivered limits W (expected.drop (W * held)) payloads) :
    Delivered limits W expected (payload :: payloads) := by
  have hlen : payload.terms.length = W * held := by
    have hmap := congrArg List.length h.reads
    rw [List.length_map, List.length_map, List.length_take_of_le h.held_le] at hmap
    exact hmap
  refine ⟨?_, ?_, ?_, ?_⟩
  · intro p hp
    rcases List.mem_cons.mp hp with rfl | hp
    · exact ⟨held, h.some_row, h.rows_le, hlen, h.bytes_le⟩
    · exact hrest.rows p hp
  · intro p hp
    rcases List.mem_cons.mp hp with rfl | hp
    · exact h.bounds
    · exact hrest.bounds p hp
  · intro p hp
    rcases List.mem_cons.mp hp with rfl | hp
    · exact fun e he => ⟨h.entries e he, p.read_none_iff e⟩
    · exact hrest.entries p hp
  · rw [List.flatMap_cons, h.reads, hrest.reads, ← List.map_append, List.take_append_drop]

theorem delivered_nil : Delivered limits W [] [] :=
  ⟨fun _ hp => absurd hp List.not_mem_nil, fun _ hp => absurd hp List.not_mem_nil,
    fun _ hp => absurd hp List.not_mem_nil, rfl⟩

/-- From any row on, steps that each carry the next rows deliver all of them. -/
theorem sendAll_spec {σ : Type} {keeps : ReadState → Prop} {inv : σ → Prop}
    {step : σ → ℕ → Reads ((Payload × ℕ) × σ)} (hW : 0 < W) (hlen : expected.length = W * total)
    (hstep : ∀ state row, inv state → row < total → ∃ payload held next,
      Computes keeps (step state row) (.ok ((payload, held), next)) ∧ inv next ∧
        Carries limits W (expected.drop (W * row)) payload held)
    {fuel row : ℕ} {state : σ} (hinv : inv state) (hrow : row ≤ total) (hfuel : total - row < fuel) :
    ∃ payloads, Computes keeps (sendAll step total fuel state row) (.ok (some payloads)) ∧
      Delivered limits W (expected.drop (W * row)) payloads := by
  induction fuel generalizing row state with
  | zero => exact absurd hfuel (Nat.not_lt_zero _)
  | succ fuel ih =>
    rw [sendAll]
    by_cases hmore : row < total
    · obtain ⟨payload, held, next, hrun, hnext, hcarries⟩ := hstep state row hinv hmore
      have hpos := hcarries.some_row
      have hheld : held ≤ total - row := by
        have hle := hcarries.held_le
        rw [List.length_drop, hlen, ← Nat.mul_sub] at hle
        exact Nat.le_of_mul_le_mul_left hle hW
      obtain ⟨payloads, hrest, hdelivered⟩ := @ih (row + held) next hnext (by omega) (by omega)
      refine ⟨payload :: payloads, ?_, ?_⟩
      · rw [if_pos hmore]
        exact hrun.bind_ok (hrest.bind_ok (Computes.pure _))
      · refine Delivered.cons hcarries ?_
        rw [List.drop_drop, ← Nat.mul_add]
        exact hdelivered
    · refine ⟨[], ?_, ?_⟩
      · rw [if_neg hmore]
        exact Computes.pure _
      · rw [List.drop_eq_nil_of_le (hlen.trans_le (Nat.mul_le_mul_left W (Nat.le_of_not_lt hmore)))]
        exact delivered_nil

end Steps

/-! ### The pace -/

section Paces

variable {limits : Limits}

/-- A pace of a read offers at least one row, and no more than the read's limits. -/
structure Pace.Kept (limits : Limits) (pace : Pace) : Prop where
  limits_eq : pace.limits = limits
  pos : 0 < pace.rows
  le : pace.rows ≤ limits.rows

theorem paced_pos {rows : ℕ} (h : 0 < rows) (offered held bytes chunkBytes : ℕ) :
    0 < paced rows offered held bytes chunkBytes := by
  rw [paced]
  split_ifs
  · exact Nat.lt_of_lt_of_le Nat.one_pos (Nat.le_max_right _ _)
  · refine Nat.lt_min.mpr ⟨Nat.mul_pos h Nat.two_pos, ?_⟩
    unfold usizeMax
    omega
  · exact h

theorem Pace.Kept.new (hlimits : limits.Valid) : (Pace.new limits).Kept limits :=
  ⟨rfl, hlimits.rows_pos, le_rfl⟩

theorem Pace.Kept.learn {pace : Pace} (h : pace.Kept limits) (hlimits : limits.Valid)
    (left held bytes : ℕ) : (pace.learn left held bytes).Kept limits := by
  obtain rfl := h.limits_eq
  exact ⟨rfl, Nat.lt_min.mpr ⟨paced_pos h.pos _ _ _ _, hlimits.rows_pos⟩, Nat.min_le_right _ _⟩

theorem Pace.Kept.valid {pace : Pace} (h : pace.Kept limits) (hlimits : limits.Valid) :
    pace.nextLimits.Valid := by
  obtain rfl := h.limits_eq
  exact ⟨h.pos, h.le.trans hlimits.rows_le, hlimits.bytes_le, hlimits.large_le⟩

/-- A read whose encoder carries the next rows under any limits is delivered at its pace. -/
theorem paceRun_spec {keeps : ReadState → Prop} {encode : ℕ → Limits → Reads (Payload × ℕ)}
    {W total fuel : ℕ} {expected : List (Option Str)} (hlimits : limits.Valid) (hW : 0 < W)
    (hlen : expected.length = W * total)
    (hencode : ∀ row limits, limits.Valid → row < total → ∃ payload held,
      Computes keeps (encode row limits) (.ok (payload, held)) ∧
        Carries limits W (expected.drop (W * row)) payload held) (hfuel : total < fuel) :
    ∃ payloads, Computes keeps (sendAll (paceStep encode total) total fuel (.new limits) 0)
        (.ok (some payloads)) ∧ Delivered limits W expected payloads := by
  refine @sendAll_spec limits W total expected Pace keeps (Pace.Kept limits) (paceStep encode total) hW hlen
    (fun pace row hpace hrow => ?_) fuel 0 (.new limits) (.new hlimits) (Nat.zero_le _) hfuel
  obtain ⟨payload, held, hrun, hcarries⟩ := hencode row pace.nextLimits (hpace.valid hlimits) hrow
  refine ⟨payload, held, _, hrun.bind_ok (Computes.pure _), hpace.learn hlimits _ _ _, ?_⟩
  have hbytes : pace.nextLimits.chunkBytes = limits.chunkBytes := by
    rw [← hpace.limits_eq]
    rfl
  exact hcarries.weaken hpace.le hbytes

end Paces

/-! ### Each read -/

section Reads

variable {limits : Limits} {fuel : ℕ}

theorem termsOf_drop (dict : DictReader) (k : ℕ) (codes : List TermCode) :
    termsOf dict (codes.drop k) = (termsOf dict codes).drop k := List.map_drop

theorem codes_length (columns : CodeColumns) : columns.codes.length = 4 * columns.rows := by
  rw [CodeColumns.codes_eq, List.length_map, List.length_range]

theorem sendCodes_spec (dict : DictReader) (columns : CodeColumns) (hlimits : limits.Valid)
    (hin : ∀ code ∈ columns.codes, code < dict.terms.length) (hfuel : columns.rows < fuel) :
    ∃ payloads, Computes dict.Faithful (sendCodes dict columns limits fuel) (.ok (some payloads)) ∧
      Delivered limits 4 (termsOf dict columns.codes) payloads := by
  have hlen : (termsOf dict columns.codes).length = 4 * columns.rows :=
    (List.length_map _).trans (codes_length columns)
  refine paceRun_spec hlimits (Nat.succ_pos 3) hlen (fun row limits hvalid hrow => ?_) hfuel
  have hpos : 0 < (columns.drop row).rows := Nat.sub_pos_of_lt hrow
  have hnone : none ∉ termsOf dict (columns.drop row).codes := by
    rw [CodeColumns.codes_drop]
    intro hmem
    obtain ⟨code, hcode, hget⟩ := List.mem_map.mp hmem
    rw [List.getElem?_eq_none_iff] at hget
    exact Nat.not_lt.mpr hget (hin code (List.mem_of_mem_drop hcode))
  have hchunk := encodeCodes_spec dict hvalid (columns.drop row) hpos hnone
  rwa [CodeColumns.codes_drop, termsOf_drop] at hchunk

theorem sendShared_spec (heap : ArcHeap) (quads : List SharedQuad) (hlimits : limits.Valid)
    (hfuel : quads.length < fuel) : ∃ payloads,
      Computes (fun _ => True) (sendShared heap quads limits fuel) (.ok (some payloads)) ∧
        Delivered limits 4 (sharedTerms heap quads) payloads := by
  refine paceRun_spec hlimits (Nat.succ_pos 3) (sharedTerms_length quads)
    (fun row limits hvalid hrow => ?_) hfuel
  have hpos : 0 < (quads.drop row).length := by
    rw [List.length_drop]
    exact Nat.sub_pos_of_lt hrow
  have hdrop : sharedTerms heap (quads.drop row) = (sharedTerms heap quads).drop (4 * row) := by
    have hfirst : (sharedTerms heap (quads.take row)).length = 4 * row := by
      rw [sharedTerms_length, List.length_take, Nat.min_eq_left hrow.le]
    have hsplit : sharedTerms heap quads =
        sharedTerms heap (quads.take row) ++ sharedTerms heap (quads.drop row) := by
      rw [sharedTerms, sharedTerms, sharedTerms, ← List.flatMap_append, List.take_append_drop]
    rw [hsplit, ← hfirst, List.drop_left]
  have hcarries := encodeShared_spec heap hvalid hpos
  rw [hdrop] at hcarries
  exact ⟨_, _, Computes.pure _, hcarries⟩

theorem sendLookup_spec (dict : DictReader) (codes : List TermCode) (hlimits : limits.Valid)
    (hfuel : codes.length < fuel) : ∃ payloads,
      Computes dict.Faithful (sendLookup dict codes limits fuel) (.ok (some payloads)) ∧
        Delivered limits 1 (termsOf dict codes) payloads := by
  have hlen : (termsOf dict codes).length = 1 * codes.length :=
    (List.length_map _).trans (Nat.one_mul _).symm
  refine paceRun_spec hlimits Nat.one_pos hlen (fun row limits hvalid hrow => ?_) hfuel
  have hpos : 0 < (codes.drop row).length := by
    rw [List.length_drop]
    exact Nat.sub_pos_of_lt hrow
  have hchunk := encodeLookup_spec dict hvalid hpos
  rw [termsOf_drop] at hchunk
  rwa [Nat.one_mul]

/-- The slices its caller cuts deliver a lookup too. -/
theorem sendSlices_spec (dict : DictReader) (codes : List TermCode) (hlimits : limits.Valid)
    (hfuel : codes.length < fuel) : ∃ payloads,
      Computes dict.Faithful (sendSlices dict codes limits fuel) (.ok (some payloads)) ∧
        Delivered limits 1 (termsOf dict codes) payloads := by
  have hlen : (termsOf dict codes).length = 1 * codes.length :=
    (List.length_map _).trans (Nat.one_mul _).symm
  refine @sendAll_spec limits 1 codes.length _ ℕ dict.Faithful (fun slice => 0 < slice ∧ slice ≤ limits.rows)
    (sliceStep dict codes limits) Nat.one_pos hlen (fun slice row hslice hrow => ?_) fuel 0 limits.rows
    ⟨hlimits.rows_pos, le_rfl⟩ (Nat.zero_le _) hfuel
  obtain ⟨hpos, hle⟩ := hslice
  obtain ⟨offered, hoffered⟩ : ∃ offered, offered = min slice (codes.length - row) := ⟨_, rfl⟩
  have hsome : 0 < offered := hoffered.symm ▸ Nat.lt_min.mpr ⟨hpos, Nat.sub_pos_of_lt hrow⟩
  have hfits : offered ≤ limits.rows := hoffered.trans_le ((Nat.min_le_left _ _).trans hle)
  have hmax : max offered 1 = offered := Nat.max_eq_left hsome
  have hvalid : Limits.Valid { limits with rows := max offered 1 } := by
    rw [hmax]
    exact ⟨hsome, hfits.trans hlimits.rows_le, hlimits.bytes_le, hlimits.large_le⟩
  have hlength : ((codes.drop row).take offered).length = offered := by
    refine List.length_take_of_le ?_
    rw [List.length_drop, hoffered]
    exact Nat.min_le_right _ _
  obtain ⟨payload, held, hrun, hcarries⟩ := encodeLookup_spec dict hvalid (hlength.symm ▸ hsome)
  rw [termsOf_take, termsOf_drop, ← Nat.one_mul row] at hcarries
  refine ⟨payload, held, min limits.rows (Pace.nextSlice offered held payload.bytes limits.chunkBytes), ?_,
    ⟨Nat.lt_min.mpr ⟨hlimits.rows_pos, paced_pos hsome _ _ _ _⟩, Nat.min_le_left _ _⟩, ?_⟩
  · rw [sliceStep]
    dsimp only
    rw [← hoffered]
    exact hrun.bind_ok (Computes.pure _)
  · exact hcarries.of_take.weaken (hmax.trans_le hfits) rfl

/-- **Packed term chunks read back as the rows they were cut from.** Under any limits accepted,
the chunks of a dictionary's rows of codes, of shared quads and of a lookup's codes (at a
read's pace, and in the slices a lookup's caller cuts) are sent to the last row. Each holds a
row at least and no more than the limits allow, keeps to the byte budget unless it holds one
row, and has bounds and entries that fit 32 bits and lie inside it; the entries read in order
are the rows' terms, −1 where a lookup's code has none. -/
theorem payloads_deliver {rows chunkBytes largeTerm : ℕ}
    (h : Limits.new rows chunkBytes largeTerm = .ok limits) :
    (∀ dict : DictReader, ∀ columns : CodeColumns, ∀ fuel,
      (∀ code ∈ columns.codes, code < dict.terms.length) → columns.rows < fuel →
      ∃ payloads, Computes dict.Faithful (sendCodes dict columns limits fuel) (.ok (some payloads)) ∧
        Delivered limits 4 (termsOf dict columns.codes) payloads) ∧
    (∀ heap quads fuel, quads.length < fuel →
      ∃ payloads, Computes (fun _ => True) (sendShared heap quads limits fuel) (.ok (some payloads)) ∧
        Delivered limits 4 (sharedTerms heap quads) payloads) ∧
    ∀ dict : DictReader, ∀ codes fuel, codes.length < fuel →
      (∃ payloads, Computes dict.Faithful (sendLookup dict codes limits fuel) (.ok (some payloads)) ∧
        Delivered limits 1 (termsOf dict codes) payloads) ∧
      ∃ payloads, Computes dict.Faithful (sendSlices dict codes limits fuel) (.ok (some payloads)) ∧
        Delivered limits 1 (termsOf dict codes) payloads := by
  have hlimits := Limits.new_valid h
  refine ⟨fun dict columns fuel hin hfuel => ?_, fun heap quads fuel hfuel => ?_,
    fun dict codes fuel hfuel => ⟨?_, ?_⟩⟩
  · exact sendCodes_spec dict columns hlimits hin hfuel
  · exact sendShared_spec heap quads hlimits hfuel
  · exact sendLookup_spec dict codes hlimits hfuel
  · exact sendSlices_spec dict codes hlimits hfuel

end Reads

namespace Letters

theorem resident_lt : ∀ t ∈ (DictAccess.resident sixLetters).terms, t.length < 2 ^ 32 := by
  decide

theorem fileBacked_lt : ∀ t ∈ (DictAccess.fileBacked threeWindows).terms, t.length < 2 ^ 32 := by
  decide

/-- Six letters in memory. -/
def resident : DictReader := ⟨.resident sixLetters, resident_lt⟩

/-- Six letters in a file of three windows. -/
def fileBacked : DictReader := ⟨.fileBacked threeWindows, fileBacked_lt⟩

theorem rows_equal : ∀ column ∈ [[0, 1, 2], [3, 3, 3], [5, 4, 3], [0, 0, 0]],
    column.length = 3 := by
  decide

def rows : CodeColumns := ⟨[[0, 1, 2], [3, 3, 3], [5, 4, 3], [0, 0, 0]], 3, rfl, rows_equal⟩

end Letters

/-- Three rows of letters under a budget of four bytes, and a lookup past the last letter. -/
theorem payloads_deliver_letters :
    (∃ payloads, Computes Letters.fileBacked.Faithful (sendCodes Letters.fileBacked Letters.rows ⟨2, 4, 1⟩ 4)
      (.ok (some payloads)) ∧ Delivered ⟨2, 4, 1⟩ 4 (termsOf Letters.fileBacked Letters.rows.codes) payloads) ∧
    ∃ payloads, Computes Letters.resident.Faithful (sendLookup Letters.resident [2, 9, 2] ⟨2, 4, 1⟩ 4)
      (.ok (some payloads)) ∧ Delivered ⟨2, 4, 1⟩ 1 (termsOf Letters.resident [2, 9, 2]) payloads := by
  have hlimits : Limits.new 2 4 1 = .ok ⟨2, 4, 1⟩ := rfl
  have hdeliver := payloads_deliver hlimits
  exact ⟨hdeliver.1 Letters.fileBacked Letters.rows 4 (by decide) (by decide),
    (hdeliver.2.2 Letters.resident [2, 9, 2] 4 (by decide)).1⟩

end TermPayloads
