/-
A chunk of a dictionary's codes holds the first rows that fit, at least one.

* `fittingRows_spec` — the rows cut keep their distinct terms within the budget;
* `encodeDistinct_spec` — the chunk reads as the terms of the positions it holds;
* `encodeCodes_spec`, `encodeLookup_spec` — so for rows of codes, and for a lookup's codes.
-/
import VortexRdf.PayloadTexts

namespace TermPayloads

open Dictionary Programs Sharing Store Terms

/-! ### Rows that fit -/

section Fitting

variable {lengths slots : List ℕ} {budget width m n made : ℕ}

theorem take_succ_sum (h : m < lengths.length) :
    (lengths.take (m + 1)).sum = (lengths.take m).sum + lengths.getD m 0 := by
  rw [List.take_add_one, List.sum_append, List.getElem?_eq_getElem h, List.getD_eq_getElem _ _ h]
  simp

/-- A slot's term counts where it was made. -/
theorem countSlots_spec (h : Made made slots n) (hn : n ≤ lengths.length) :
    slots.foldl (countSlot lengths) (made, (lengths.take made).sum) = (n, (lengths.take n).sum) := by
  induction h with
  | nil m => rfl
  | @fresh m n slots h ih =>
    have hlt : m < lengths.length := (Nat.lt_of_succ_le h.le).trans_le hn
    rw [List.foldl_cons, countSlot, if_pos rfl, ← take_succ_sum hlt]
    exact ih hn
  | @old m n slot slots hslot h ih =>
    rw [List.foldl_cons, countSlot, if_neg (Nat.ne_of_lt hslot)]
    exact ih hn

/-- The rows walked either all fit, or fit up to the one that passes the budget. -/
theorem fittingLoop_spec {fuel left row : ℕ} (h : Made made slots n)
    (hn : n ≤ lengths.length) (hlen : slots.length = width * left) (hfuel : left < fuel)
    (hfits : (lengths.take made).sum ≤ budget) :
    (fittingLoop width lengths budget fuel slots row (made, (lengths.take made).sum) = none ∧
        (lengths.take n).sum ≤ budget) ∨
      ∃ k m, fittingLoop width lengths budget fuel slots row (made, (lengths.take made).sum) =
        some (max (row + k) 1) ∧ k < left ∧ Made made (slots.take (width * k)) m ∧
        (lengths.take m).sum ≤ budget := by
  induction fuel generalizing slots row made left with
  | zero => exact absurd hfuel (Nat.not_lt_zero _)
  | succ fuel ih =>
    rw [fittingLoop]
    by_cases hnil : slots = []
    · left
      subst hnil
      cases h
      exact ⟨if_pos rfl, hfits⟩
    · have hleft : 0 < left := by
        rcases Nat.eq_zero_or_pos left with rfl | hpos
        · exact absurd (List.eq_nil_of_length_eq_zero hlen) hnil
        · exact hpos
      have hrow : width ≤ slots.length := by
        rw [hlen]
        exact Nat.le_mul_of_pos_right width hleft
      have hsplit : Made made (slots.take width ++ slots.drop width) n := by
        rwa [List.take_append_drop]
      obtain ⟨k, hfirst, hrest⟩ := hsplit.split
      rw [if_neg hnil]
      simp only [countSlots_spec hfirst (hrest.le.trans hn)]
      by_cases hover : budget < (lengths.take k).sum
      · right
        -- this row passes the budget, so the rows before it are the ones that fit
        refine ⟨0, made, if_pos hover, hleft, ?_, hfits⟩
        rw [Nat.mul_zero, List.take_zero]
        exact .nil made
      · rw [if_neg hover]
        have hlen' : (slots.drop width).length = width * (left - 1) := by
          rw [List.length_drop, hlen, Nat.mul_sub_one]
        rcases @ih (slots.drop width) k (left - 1) (row + 1) hrest hlen' (by omega)
            (Nat.le_of_not_lt hover) with hall | ⟨j, m, hrun, hj, hmade, hsum⟩
        · exact Or.inl hall
        · refine Or.inr ⟨j + 1, m, ?_, by omega, ?_, hsum⟩
          · rw [hrun, Nat.add_assoc, Nat.add_comm 1 j]
          · have htake : slots.take (width * (j + 1)) =
                slots.take width ++ (slots.drop width).take (width * j) := by
              rw [Nat.mul_succ, Nat.add_comm, List.take_add]
            rw [htake]
            exact hfirst.append hmade

/-- The rows cut are at least one, and more only where their terms are within the budget. -/
theorem fittingRows_spec {rows : ℕ} (hwidth : 0 < width) (hrows : 0 < rows) (h : Made 0 slots n)
    (hn : n ≤ lengths.length) (hlen : slots.length = width * rows) :
    ∃ held m, fittingRows slots width lengths budget = held ∧ 0 < held ∧ held ≤ rows ∧
      Made 0 (slots.take (width * held)) m ∧ m ≤ n ∧ ((lengths.take m).sum ≤ budget ∨ held = 1) := by
  have hfuel : rows < slots.length + 1 := by
    rw [hlen]
    exact Nat.lt_succ_of_le (Nat.le_mul_of_pos_left rows hwidth)
  have hbound : ∀ {held k : ℕ}, Made 0 (slots.take (width * held)) k → k ≤ n := by
    intro held k hk
    have hsplit : Made 0 (slots.take (width * held) ++ slots.drop (width * held)) n := by
      rwa [List.take_append_drop]
    obtain ⟨k', hk', hrest⟩ := hsplit.split
    exact (hk.unique hk').trans_le hrest.le
  have hloop := @fittingLoop_spec lengths slots budget width n 0 (slots.length + 1) rows 0 h hn
    hlen hfuel (Nat.zero_le _)
  rw [List.take_zero, List.sum_nil] at hloop
  rw [fittingRows]
  rcases hloop with ⟨hrun, hall⟩ | ⟨k, m, hrun, hk, hmade, hsum⟩
  · have hwhole : slots.take (width * rows) = slots := List.take_of_length_le hlen.le
    refine ⟨rows, n, ?_, hrows, le_rfl, hwhole.symm ▸ h, le_rfl, Or.inl hall⟩
    rw [hrun, Option.getD_none, hlen, Nat.mul_div_cancel_left rows hwidth]
  · rw [hrun, Option.getD_some, Nat.zero_add]
    rcases Nat.eq_zero_or_pos k with rfl | hpos
    · -- the first row alone passes the budget, and is sent
      have hsplit : Made 0 (slots.take (width * 1) ++ slots.drop (width * 1)) n := by
        rwa [List.take_append_drop]
      obtain ⟨m', hmade', -⟩ := hsplit.split
      exact ⟨1, m', rfl, Nat.one_pos, hrows, hmade', hbound hmade', Or.inr rfl⟩
    · exact ⟨k, m, Nat.max_eq_left hpos, hpos, hk.le, hmade, hbound hmade, Or.inl hsum⟩

end Fitting

/-! ### Limits -/

/-- What a chunk's limits promise. -/
structure Limits.Valid (limits : Limits) : Prop where
  rows_pos : 0 < limits.rows
  rows_le : limits.rows ≤ I32_MAX / 4
  bytes_le : limits.chunkBytes ≤ I32_MAX
  large_le : 4 * limits.largeTerm ≤ limits.chunkBytes

theorem Limits.new_valid {rows chunkBytes largeTerm : ℕ} {limits : Limits}
    (h : Limits.new rows chunkBytes largeTerm = .ok limits) : limits.Valid := by
  rw [Limits.new] at h
  split_ifs at h with hvalid
  obtain rfl := Except.ok.inj h
  rw [Bool.and_eq_true, Bool.and_eq_true, Bool.and_eq_true, decide_eq_true_eq, decide_eq_true_eq,
    decide_eq_true_eq] at hvalid
  obtain ⟨⟨⟨⟨hpos, hrows⟩, -⟩, hbytes⟩, hlarge⟩ := hvalid
  obtain ⟨row, hrow, hle⟩ := (Option.any_eq_true _ _).mp hlarge
  rw [checkedMul] at hrow
  split_ifs at hrow
  obtain rfl := Option.some.inj hrow
  exact ⟨hpos, hrows, hbytes, (Nat.mul_comm 4 largeTerm).trans_le (of_decide_eq_true hle)⟩

/-! ### A chunk -/

/-- A chunk that carries the first rows of those expected, each of `W` positions. -/
structure Carries (limits : Limits) (W : ℕ) (expected : List (Option Str)) (payload : Payload)
    (held : ℕ) : Prop where
  some_row : 1 ≤ held
  rows_le : held ≤ limits.rows
  held_le : W * held ≤ expected.length
  bytes_le : payload.bytes ≤ limits.chunkBytes ∨ held = 1
  bounds : ∀ b ∈ payload.bounds, IsI32 b ∧ 0 ≤ b ∧ b ≤ payload.text.length
  entries : ∀ e ∈ payload.terms, IsI32 e
  reads : payload.terms.map payload.read = (expected.take (W * held)).map some

theorem Payload.Laid.bounds {p : Payload} (h : p.Laid) :
    ∀ b ∈ p.bounds, IsI32 b ∧ 0 ≤ b ∧ b ≤ p.text.length := by
  intro b hb
  obtain ⟨hpos, hle⟩ := h.inside b hb
  have htext := h.text_le
  unfold I32_MAX at htext
  exact ⟨⟨by omega, by omega⟩, hpos, hle⟩

section Distinct

variable {dict : DictReader} {codes distinct : List TermCode} {slots : List ℕ} {d : Decoded}
  {largeTerm budget W : ℕ} {limits : Limits}

theorem termsOf_take (k : ℕ) (codes : List TermCode) :
    termsOf dict (codes.take k) = (termsOf dict codes).take k := List.map_take

/-- The positions' entries read as their codes' terms. -/
theorem withTerms_reads (hslots : slots.map (distinct[·]?) = codes.map some)
    (h : ∀ i t, (termsOf dict distinct)[i]? = some t →
      d.payload.read (d.entries.getD i NONE) = some t ∧ IsI32 (d.entries.getD i NONE)) :
    (∀ e ∈ (d.payload.withTerms slots d.entries).terms, IsI32 e) ∧
      (d.payload.withTerms slots d.entries).terms.map (d.payload.withTerms slots d.entries).read =
        (termsOf dict codes).map some := by
  have hterm : ∀ slot ∈ slots, ∃ t, (termsOf dict distinct)[slot]? = some t := by
    intro slot hslot
    have hmem : distinct[slot]? ∈ codes.map some := hslots ▸ List.mem_map_of_mem hslot
    obtain ⟨code, -, hcode⟩ := List.mem_map.mp hmem
    exact ⟨_, by rw [termsOf, List.getElem?_map, ← hcode]; rfl⟩
  constructor
  · intro e he
    obtain ⟨slot, hslot, rfl⟩ := List.mem_map.mp he
    obtain ⟨t, ht⟩ := hterm slot hslot
    exact (h slot t ht).2
  · have hread : ∀ slot ∈ slots, d.payload.read (d.entries.getD slot NONE) =
        (distinct[slot]?).map fun code => dict.terms[code]? := by
      intro slot hslot
      obtain ⟨t, ht⟩ := hterm slot hslot
      rw [(h slot t ht).1, ← ht, termsOf, List.getElem?_map]
    calc (slots.map fun slot => d.entries.getD slot NONE).map d.payload.read
        = slots.map fun slot => (distinct[slot]?).map fun code => dict.terms[code]? := by
          rw [List.map_map]
          exact List.map_congr_left hread
      _ = (slots.map (distinct[·]?)).map (Option.map fun code => dict.terms[code]?) := by
          rw [List.map_map]
          rfl
      _ = (termsOf dict codes).map some := by
          rw [hslots, termsOf, List.map_map, List.map_map]
          rfl

/-- A distinct code is some position's, so one is outside the dictionary as a position's is. -/
theorem none_mem_iff (hslots : slots.map (distinct[·]?) = codes.map some)
    (hmade : Made 0 slots distinct.length) :
    none ∈ termsOf dict distinct ↔ none ∈ termsOf dict codes := by
  have hcodes : ∀ code, code ∈ distinct ↔ code ∈ codes := by
    intro code
    have hmem : some code ∈ slots.map (distinct[·]?) ↔ code ∈ codes := by
      rw [hslots]
      exact List.mem_map_of_injective (Option.some_injective _)
    rw [← hmem, List.mem_map]
    constructor
    · intro hcode
      obtain ⟨i, hi⟩ := List.mem_iff_getElem?.mp hcode
      obtain ⟨hlt, -⟩ := List.getElem?_eq_some_iff.mp hi
      exact ⟨i, hmade.mem i (Nat.zero_le i) hlt, hi⟩
    · rintro ⟨slot, -, hslot⟩
      exact List.mem_of_getElem? hslot
  simp only [termsOf, List.mem_map, hcodes]

theorem size_lt (dict : DictReader) (code : TermCode) : size dict.terms[code]? < 2 ^ 32 := by
  cases h : dict.terms[code]? with
  | none => exact Nat.two_pow_pos 32
  | some t => exact dict.term_lt t (List.mem_of_getElem? h)

/-- Lengths of 32 bits, no more of them than a chunk has positions, add up in 64. -/
theorem sum_size_le (dict : DictReader) {codes : List TermCode} (hcount : codes.length ≤ I32_MAX) :
    ((termsOf dict codes).map size).sum ≤ usizeMax := by
  have hle : ∀ n ∈ (termsOf dict codes).map size, n ≤ 2 ^ 32 := by
    intro n hn
    obtain ⟨t, ht, rfl⟩ := List.mem_map.mp hn
    obtain ⟨code, -, rfl⟩ := List.mem_map.mp ht
    exact (size_lt dict code).le
  have hsum := List.sum_le_card_nsmul _ _ hle
  rw [List.length_map, termsOf, List.length_map, smul_eq_mul] at hsum
  unfold I32_MAX at hcount
  unfold usizeMax
  rw [termsOf]
  omega

theorem sum_small_le (codes : List TermCode) (largeTerm : ℕ) :
    ((termsOf dict codes).map (smallSize largeTerm)).sum ≤ ((termsOf dict codes).map size).sum ∧
      ((termsOf dict codes).map (smallSize largeTerm)).sum ≤ codes.length * largeTerm := by
  constructor
  · exact List.sum_le_sum fun t _ => smallSize_le largeTerm t
  · have hle : ∀ n ∈ (termsOf dict codes).map (smallSize largeTerm), n ≤ largeTerm := by
      intro n hn
      obtain ⟨t, -, rfl⟩ := List.mem_map.mp hn
      exact smallSize_le_large largeTerm t
    have hsum := List.sum_le_card_nsmul _ _ hle
    rwa [List.length_map, termsOf, List.length_map, smul_eq_mul] at hsum

/-- The text a decode's terms share is short where they fit the chunk, or are one row's. -/
theorem fitting_small (hlimits : limits.Valid)
    (h : ((termsOf dict codes).map size).sum ≤ limits.chunkBytes ∨ codes.length ≤ 4) :
    ((termsOf dict codes).map (smallSize limits.largeTerm)).sum ≤ I32_MAX := by
  obtain ⟨hsize, hlarge⟩ := @sum_small_le dict codes limits.largeTerm
  rcases h with hfits | hfew
  · exact hsize.trans (hfits.trans hlimits.bytes_le)
  · have hmul := Nat.mul_le_mul_right limits.largeTerm hfew
    exact hlarge.trans (hmul.trans (hlimits.large_le.trans hlimits.bytes_le))

theorem usedSlots_eq {n : ℕ} (h : Made 0 slots n) : usedSlots slots = n := by
  rw [usedSlots]
  cases hmax : slots.max? with
  | none =>
    obtain rfl := List.max?_eq_none_iff.mp hmax
    cases h
    rfl
  | some slot =>
    obtain ⟨hmem, hle⟩ := List.max?_eq_some_iff.mp hmax
    have hlt := h.lt slot hmem
    show slot + 1 = n
    by_contra hne
    have hlast := hle (n - 1) (h.mem (n - 1) (Nat.zero_le _) (by omega))
    omega

/-- A decode whose terms are within the budget is the chunk of its positions. -/
theorem decoded_carries (hd : d.Spec dict distinct limits.largeTerm budget)
    (hslots : slots.map (distinct[·]?) = codes.map some)
    (hbudget : ((termsOf dict distinct).map size).sum ≤ budget)
    (hsmall : ((termsOf dict distinct).map (smallSize limits.largeTerm)).sum ≤ I32_MAX)
    (hcount : distinct.length ≤ I32_MAX) {held : ℕ} (hpos : 1 ≤ held) (hrows : held ≤ limits.rows)
    (hheld : codes.length = W * held)
    (hbytes : ((termsOf dict distinct).map size).sum ≤ limits.chunkBytes ∨ held = 1)
    (rest : List TermCode) :
    Carries limits W (termsOf dict (codes ++ rest)) (d.payload.withTerms slots d.entries) held := by
  obtain ⟨hlaid, hsum, hentries⟩ := hd.copied hbudget hsmall hcount
  obtain ⟨hi32, hreads⟩ := withTerms_reads hslots hentries
  have hlen : (termsOf dict codes).length = W * held := (List.length_map _).trans hheld
  have happend : termsOf dict (codes ++ rest) = termsOf dict codes ++ termsOf dict rest := List.map_append
  refine ⟨hpos, hrows, ?_, ?_, hlaid.bounds, hi32, ?_⟩
  · rw [happend, List.length_append, hlen]
    exact Nat.le_add_right _ _
  · rcases hbytes with hle | hone
    · exact Or.inl (hsum.trans_le hle)
    · exact Or.inr hone
  · rw [happend, ← hlen, List.take_left]
    exact hreads

/-- The first positions' slots hold their codes among the first distinct ones. -/
theorem slots_take {k m : ℕ} (hslots : slots.map (distinct[·]?) = codes.map some)
    (hmade : Made 0 (slots.take k) m) :
    (slots.take k).map ((distinct.take m)[·]?) = (codes.take k).map some := by
  rw [@List.map_take _ _ some, ← hslots, ← List.map_take]
  refine List.map_congr_left fun slot hslot => ?_
  rw [List.getElem?_take, if_pos (hmade.lt slot hslot)]

/-- The chunk of the first positions carries the first rows of them. -/
theorem encodeDistinct_spec (dict : DictReader) (code : ℕ → TermCode) {limits : Limits}
    (hlimits : limits.Valid) (hW : 0 < W) (hfour : W ≤ 4) {rows : ℕ} (hpos : 0 < rows)
    (hrows : rows ≤ limits.rows) : ∃ payload held missed,
      Computes dict.Faithful (encodeDistinct W dict (W * rows) code limits)
        (.ok (payload, W * held, missed)) ∧
      Carries limits W (termsOf dict ((List.range (W * rows)).map code)) payload held ∧ held ≤ rows ∧
      (missed = true ↔ none ∈ (termsOf dict ((List.range (W * rows)).map code)).take (W * held)) := by
  obtain ⟨codes, hcodes⟩ : ∃ codes, codes = (List.range (W * rows)).map code := ⟨_, rfl⟩
  have hlen : codes.length = W * rows := by rw [hcodes, List.length_map, List.length_range]
  have hpositions : W * rows ≤ I32_MAX := by
    have hmul := Nat.mul_le_mul hfour (hrows.trans hlimits.rows_le)
    exact hmul.trans (Nat.mul_div_le I32_MAX 4)
  obtain ⟨distinct, slots, hfound⟩ : ∃ distinct slots, distinctCodes W codes = (distinct, slots) :=
    ⟨_, _, rfl⟩
  have hspec := distinctCodes_spec W codes
  rw [hfound] at hspec
  obtain ⟨hslots, hmade⟩ := hspec
  have hslots_len : slots.length = W * rows := by
    have hmap := congrArg List.length hslots
    rw [List.length_map, List.length_map, hlen] at hmap
    exact hmap
  have hdistinct : distinct.length ≤ W * rows := by
    have hle := hmade.le_length
    rwa [Nat.zero_add, hslots_len] at hle
  have hnonzero : W * rows ≠ 0 := Nat.mul_ne_zero hW.ne' hpos.ne'
  rw [encodeDistinct, if_neg hnonzero, ← hcodes, hfound]
  obtain ⟨first, hfirst, hd⟩ := decode_spec dict distinct limits.largeTerm limits.chunkBytes
  have hlengths : first.lengths.length = distinct.length := by
    rw [hd.lengths, List.length_map, termsOf, List.length_map]
  by_cases hpassed : first.passed = false
  · -- everything fits, in one decode
    have hfits : ((termsOf dict distinct).map size).sum ≤ limits.chunkBytes := by
      rw [hd.passed] at hpassed
      exact Nat.le_of_not_lt (of_decide_eq_false hpassed)
    have hcarries := @decoded_carries dict codes distinct slots first limits.chunkBytes W limits hd hslots
      hfits (fitting_small hlimits (Or.inl hfits)) (hdistinct.trans hpositions) rows hpos hrows hlen
      (Or.inl hfits) []
    rw [List.append_nil] at hcarries
    refine ⟨_, rows, first.missed, hfirst.bind_ok ?_, hcarries, le_rfl, ?_⟩
    · rw [if_pos hpassed]
      exact Computes.pure _
    · rw [hd.missed, none_mem_iff hslots hmade, List.take_of_length_le]
      exact (List.length_map _).trans_le hlen.le
  · -- the rows that fit are decoded again
    obtain ⟨held, m, hheld, hheld_pos, hheld_le, hmade', hm, hsum⟩ :=
      @fittingRows_spec first.lengths slots limits.chunkBytes W distinct.length rows hW hpos hmade
        hlengths.ge hslots_len
    have hused := usedSlots_eq hmade'
    obtain ⟨second, hsecond, hd'⟩ := decode_spec dict (distinct.take m) limits.largeTerm usizeMax
    have htake : (distinct.take m).length = m := List.length_take_of_le hm
    have hkept : W * held ≤ W * rows := Nat.mul_le_mul_left W hheld_le
    have hslots' := slots_take hslots hmade'
    have hkept_len : (codes.take (W * held)).length = W * held := List.length_take_of_le (hlen ▸ hkept)
    have hcount : (distinct.take m).length ≤ I32_MAX := htake.trans_le (hm.trans (hdistinct.trans hpositions))
    have hmeasured : (first.lengths.take m).sum = ((termsOf dict (distinct.take m)).map size).sum := by
      rw [hd.lengths, ← List.map_take, termsOf_take]
    rw [hmeasured] at hsum
    have hbudget := @sum_size_le dict (distinct.take m) hcount
    -- one row's distinct terms are four at most
    have hfew : held = 1 → (distinct.take m).length ≤ 4 := by
      intro hone
      have hle := hmade'.le_length
      rw [List.length_take, hone, Nat.zero_add, Nat.mul_one] at hle
      exact htake.trans_le (hle.trans ((Nat.min_le_left _ _).trans hfour))
    have hsmall := fitting_small hlimits (hsum.imp_right hfew)
    have hcarries := @decoded_carries dict (codes.take (W * held)) (distinct.take m)
      (slots.take (W * held)) second usizeMax W limits hd' hslots' hbudget hsmall hcount held hheld_pos
      (hheld_le.trans hrows) hkept_len hsum (codes.drop (W * held))
    rw [List.take_append_drop] at hcarries
    refine ⟨_, held, second.missed, hfirst.bind_ok ?_, hcarries, hheld_le, ?_⟩
    · rw [if_neg hpassed, hheld]
      dsimp only
      rw [hused]
      exact hsecond.bind_ok (Computes.pure _)
    · have hmade'' : Made 0 (slots.take (W * held)) (distinct.take m).length := htake.symm ▸ hmade'
      rw [hd'.missed, none_mem_iff hslots' hmade'', termsOf_take]

end Distinct

/-! ### Rows of codes -/

theorem Carries.of_take {limits : Limits} {W n held : ℕ} {expected : List (Option Str)} {payload : Payload}
    (h : Carries limits W (expected.take n) payload held) : Carries limits W expected payload held := by
  have hle := h.held_le
  rw [List.length_take] at hle
  refine ⟨h.some_row, h.rows_le, hle.trans (Nat.min_le_right _ _), h.bytes_le, h.bounds, h.entries, ?_⟩
  rw [h.reads, List.take_take, Nat.min_eq_left (hle.trans (Nat.min_le_left _ _))]

namespace CodeColumns

/-- The codes of a row. -/
def row (columns : CodeColumns) (r : ℕ) : List TermCode := columns.columns.map fun column => column.getD r 0

/-- The codes of the rows, row by row. -/
def codes (columns : CodeColumns) : List TermCode := (List.range columns.rows).flatMap columns.row

theorem row_eq (columns : CodeColumns) (r : ℕ) :
    columns.row r = (List.range 4).map fun c => columns.codeAt (4 * r + c) := by
  refine List.ext_getElem? fun c => ?_
  rw [row, List.getElem?_map, List.getElem?_map]
  rcases Nat.lt_or_ge c 4 with hlt | hge
  · have hmod : (4 * r + c) % 4 = c := by omega
    have hdiv : (4 * r + c) / 4 = r := by omega
    have hcolumn : c < columns.columns.length := columns.four.symm ▸ hlt
    rw [List.getElem?_range hlt, List.getElem?_eq_getElem hcolumn, Option.map_some, Option.map_some,
      codeAt, hmod, hdiv, List.getD_eq_getElem _ _ hcolumn]
  · rw [List.getElem?_eq_none (columns.four.trans_le hge),
      List.getElem?_eq_none (List.length_range.trans_le hge)]
    rfl

theorem codes_eq (columns : CodeColumns) :
    columns.codes = (List.range (4 * columns.rows)).map columns.codeAt := by
  rw [codes]
  induction columns.rows with
  | zero => rfl
  | succ n ih =>
    rw [List.range_succ, List.flatMap_append, ih, List.flatMap_singleton, row_eq, Nat.mul_succ,
      List.range_add, List.map_append, List.map_map]
    rfl

theorem codeAt_drop (columns : CodeColumns) (r position : ℕ) :
    (columns.drop r).codeAt position = columns.codeAt (4 * r + position) := by
  have hmod : (4 * r + position) % 4 = position % 4 := by omega
  have hdiv : (4 * r + position) / 4 = r + position / 4 := by omega
  have hcolumn : (columns.columns.map (List.drop r)).getD (position % 4) [] =
      (columns.columns.getD (position % 4) []).drop r := by
    rw [List.getD_eq_getElem?_getD, List.getD_eq_getElem?_getD, List.getElem?_map]
    cases columns.columns[position % 4]? with
    | none => exact List.drop_nil.symm
    | some column => rfl
  rw [codeAt, codeAt, hmod, hdiv]
  show ((columns.columns.map (List.drop r)).getD (position % 4) []).getD (position / 4) 0 = _
  rw [hcolumn, List.getD_eq_getElem?_getD, List.getElem?_drop, ← List.getD_eq_getElem?_getD]

theorem codes_drop (columns : CodeColumns) (r : ℕ) :
    (columns.drop r).codes = columns.codes.drop (4 * r) := by
  rw [codes_eq, codes_eq, ← List.map_drop]
  refine List.ext_getElem? fun i => ?_
  rw [List.getElem?_map, List.getElem?_map, List.getElem?_drop]
  have hrows : (columns.drop r).rows = columns.rows - r := rfl
  rcases Nat.lt_or_ge i (4 * (columns.rows - r)) with hlt | hge
  · have hlt' : 4 * r + i < 4 * columns.rows := by omega
    rw [hrows, List.getElem?_range hlt, List.getElem?_range hlt', Option.map_some, Option.map_some,
      codeAt_drop]
  · have hge' : 4 * columns.rows ≤ 4 * r + i := by omega
    rw [hrows, List.getElem?_eq_none (List.length_range.trans_le hge),
      List.getElem?_eq_none (List.length_range.trans_le hge')]
    rfl

end CodeColumns

section Chunks

variable (dict : DictReader) {limits : Limits}

/-- The first rows that fit, when every code has a term. -/
theorem encodeCodes_spec (hlimits : limits.Valid) (columns : CodeColumns) (hpos : 0 < columns.rows)
    (hin : none ∉ termsOf dict columns.codes) : ∃ payload held,
      Computes dict.Faithful (encodeCodes dict columns limits) (.ok (payload, held)) ∧
        Carries limits 4 (termsOf dict columns.codes) payload held := by
  obtain ⟨rows, hrows⟩ : ∃ rows, rows = min columns.rows limits.rows := ⟨_, rfl⟩
  have hle : rows ≤ columns.rows := hrows.trans_le (Nat.min_le_left _ _)
  have hle' : rows ≤ limits.rows := hrows.trans_le (Nat.min_le_right _ _)
  have hsome : 0 < rows := hrows.symm ▸ Nat.lt_min.mpr ⟨hpos, hlimits.rows_pos⟩
  have hcodes : (List.range (4 * rows)).map columns.codeAt = columns.codes.take (4 * rows) := by
    rw [CodeColumns.codes_eq, ← List.map_take, List.take_range, Nat.min_eq_left (Nat.mul_le_mul_left 4 hle)]
  obtain ⟨payload, held, missed, hrun, hcarries, -, hmissed⟩ :=
    @encodeDistinct_spec 4 dict columns.codeAt limits hlimits (Nat.succ_pos 3) le_rfl rows hsome hle'
  rw [hcodes, termsOf_take] at hcarries hmissed
  refine ⟨payload, held, ?_, hcarries.of_take⟩
  have hfound : missed = false := by
    rw [← Bool.not_eq_true, hmissed]
    exact fun hmem => hin (List.mem_of_mem_take (List.mem_of_mem_take hmem))
  rw [encodeCodes]
  dsimp only
  rw [← hrows]
  refine hrun.bind_ok ?_
  dsimp only
  rw [hfound, Nat.mul_div_cancel_left held (Nat.succ_pos 3)]
  exact Computes.pure _

/-- The first codes that fit, with or without a term. -/
theorem encodeLookup_spec (hlimits : limits.Valid) {codes : List TermCode} (hpos : 0 < codes.length) :
    ∃ payload held, Computes dict.Faithful (encodeLookup dict codes limits) (.ok (payload, held)) ∧
      Carries limits 1 (termsOf dict codes) payload held := by
  obtain ⟨count, hcount⟩ : ∃ count, count = min codes.length limits.rows := ⟨_, rfl⟩
  have hle : count ≤ codes.length := hcount.trans_le (Nat.min_le_left _ _)
  have hle' : count ≤ limits.rows := hcount.trans_le (Nat.min_le_right _ _)
  have hsome : 0 < count := hcount.symm ▸ Nat.lt_min.mpr ⟨hpos, hlimits.rows_pos⟩
  have hcodes : (List.range count).map (fun position => codes.getD position 0) = codes.take count := by
    refine List.ext_getElem? fun i => ?_
    rw [List.getElem?_map, List.getElem?_take]
    split_ifs with hi
    · have hlt := hi.trans_le hle
      rw [List.getElem?_range hi, Option.map_some, List.getD_eq_getElem _ _ hlt,
        List.getElem?_eq_getElem hlt]
    · rw [List.getElem?_eq_none (List.length_range.trans_le (Nat.le_of_not_lt hi))]
      rfl
  obtain ⟨payload, held, missed, hrun, hcarries, -, -⟩ := @encodeDistinct_spec 1 dict
    (fun position => codes.getD position 0) limits hlimits Nat.one_pos (Nat.le_add_left 1 3) count hsome hle'
  rw [Nat.one_mul] at hrun hcarries
  rw [hcodes, termsOf_take] at hcarries
  refine ⟨payload, held, ?_, hcarries.of_take⟩
  rw [Nat.one_mul] at hrun
  rw [encodeLookup]
  dsimp only
  rw [← hcount]
  exact hrun.bind_ok (Computes.pure _)

end Chunks

end TermPayloads
