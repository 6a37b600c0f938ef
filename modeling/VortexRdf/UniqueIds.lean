/-
Unique row ids sorted in the arithmetic of the target.

`LazyIds` sorts ids as natural numbers.  Here the same sort runs on `u64` ids of a target
whose `usize` has 32 or 64 bits: a subtraction below zero, a sum past its type, a shift by
the width, an index past a buffer and an allocation past half the address space all fail.

* `sortUniqueIdsOn` — the sort, every step checked;
* `setBits_spec` — the ids set in the bitmap;
* `readWords_spec` — the bitmap read back over the ids;
* `sort_unique_ids_sorts` — on distinct ids nothing fails, and the ids come back ascending.
-/
import VortexRdf.LazyIds

namespace Indexes

open Ascending Buffers Builds Terms
open Store hiding Row

/-! ### Checked arithmetic -/

/-- The width of a target's `usize`. -/
inductive Target where
  | bits32
  | bits64
deriving DecidableEq

def Target.usizeMax : Target → ℕ
  | bits32 => 2 ^ 32 - 1
  | bits64 => 2 ^ 64 - 1

/-- `x as usize`, which drops what the target does not hold. -/
def Target.toUsize (target : Target) (x : ℕ) : ℕ := x % (target.usizeMax + 1)

variable {target : Target}

theorem Target.toUsize_eq {x : ℕ} (h : x ≤ target.usizeMax) :
    target.toUsize x = x := Nat.mod_eq_of_lt (Nat.lt_succ_of_le h)

theorem Target.usizeMax_le (target : Target) : target.usizeMax ≤ ROW_ID_MAX := by
  cases target <;> decide

/-- A value of a type whose greatest is `most`, none when it overflows. -/
def fit (most x : ℕ) : Option ℕ := if x ≤ most then some x else none

theorem fit_eq {most x : ℕ} (h : x ≤ most) : fit most x = some x := if_pos h

def checkedSub (a b : ℕ) : Option ℕ := if b ≤ a then some (a - b) else none

theorem checkedSub_eq {a b : ℕ} (h : b ≤ a) : checkedSub a b = some (a - b) := if_pos h

/-- `1 << bits` of a `u64`. -/
def bitMask (bits : ℕ) : Option ℕ := if bits < 64 then some (1 <<< bits) else none

/-- `vec![0u64; len]`, which may not take more than half the address space. -/
def zeroWords (target : Target) (len : ℕ) : Option (List ℕ) :=
  if len * 8 ≤ target.usizeMax / 2 then some (List.replicate len 0) else none

/-! ### The sort -/

/-- The least and the greatest of some ids. -/
def spanOf (ids : List RowId) : RowId × RowId :=
  ids.foldl (fun span id => (min span.1 id, max span.2 id)) (ROW_ID_MAX, 0)

/-- One id set in the bitmap. -/
def setBit (target : Target) (least : RowId) (words : List ℕ) (id : RowId) : Option (List ℕ) := do
  let bit ← checkedSub id least
  let place := target.toUsize (bit / 64)
  let word ← words[place]?
  let mask ← bitMask (bit % 64)
  pure (words.set place (word ||| mask))

/-- The bits of word `w` written over the ids from `next` on, lowest first. -/
def readWord (target : Target) (least w : ℕ) :
    ℕ → ℕ → List RowId × ℕ → Option (List RowId × ℕ)
  | 0, word, state => if word = 0 then some state else none
  | fuel + 1, word, (ids, next) =>
    if word = 0 then some (ids, next)
    else do
      let shift ← fit ROW_ID_MAX (w * 64)
      let first ← fit ROW_ID_MAX (least + shift)
      let id ← fit ROW_ID_MAX (first + Bits.trailingZeros 64 word)
      if next < ids.length then
        let after ← fit target.usizeMax (next + 1)
        readWord target least w fuel (Bits.clearLowest word) (ids.set next id, after)
      else none

/-- The words read back in turn, the first of them word `w`. -/
def readWords (target : Target) (least : ℕ) :
    ℕ → List ℕ → List RowId × ℕ → Option (List RowId × ℕ)
  -- the counter is asked once more before the words are found to be out
  | w, [], state => (fit ROW_ID_MAX (w + 1)).map fun _ => state
  | w, word :: words, state => do
    let after ← fit ROW_ID_MAX (w + 1)
    let read ← readWord target least w 64 word state
    readWords target least after words read

/-- Unique row ids sorted in place, and how. -/
def sortUniqueIdsOn (target : Target) (ids : List RowId) : Option (SortPath × List RowId) :=
  if ids.SortedLE then some (.ascending, ids)
  else do
    let span := spanOf ids
    let reach ← checkedSub span.2 span.1
    if ids.length ≤ reach / BITMAP_BITS_PER_ID then
      pure (.compared, ids.mergeSort (· ≤ ·))
    else do
      let len ← fit ROW_ID_MAX (reach / 64 + 1)
      let words ← zeroWords target (target.toUsize len)
      let words ← ids.foldlM (setBit target span.1) words
      let (sorted, next) ← readWords target span.1 0 words (ids, 0)
      -- the assertion that every id was read back once
      if next = sorted.length then pure (.bitmap, sorted) else none

/-- A slice of row ids in a target's memory: each a `u64`, together no more than half the
address space. -/
structure IdSlice (target : Target) where
  ids : List RowId
  wide : ∀ id ∈ ids, id ≤ ROW_ID_MAX
  fits : ids.length * 8 ≤ target.usizeMax / 2

theorem IdSlice.length_le (slice : IdSlice target) :
    slice.ids.length ≤ target.usizeMax := by
  have := slice.fits
  omega

/-! ### Writing the ids back -/

/-- A write of a value and those behind it, one after the other. -/
theorem writeAt_cons {α : Type*} {buf : List α} {place : ℕ} (v : α) (values : List α)
    (h : place < buf.length) :
    writeAt buf place (v :: values) = writeAt (buf.set place v) (place + 1) values := by
  have hlen : (buf.set place v).length = buf.length := List.length_set
  have htake : (buf.set place v).take (place + 1) = buf.take place ++ [v] := by
    rw [List.take_add_one, List.take_set_of_le le_rfl, List.getElem?_set_self h,
      Option.toList_some]
  have hdrop : (buf.set place v).drop (place + 1 + values.length) =
      buf.drop (place + 1 + values.length) := List.drop_set_of_lt (by omega)
  rw [writeAt, writeAt, List.length_cons, hlen, htake, hdrop, Nat.add_right_comm place 1,
    ← Nat.add_assoc, List.append_assoc (buf.take place) [v], List.singleton_append]

theorem writeAt_cons_none {α : Type*} {buf : List α} {place : ℕ} (v : α) (values : List α)
    (h : ¬place < buf.length) : writeAt buf place (v :: values) = none :=
  if_neg (by rw [List.length_cons]; omega)

theorem writeAt_nil {α : Type*} {buf : List α} {place : ℕ} (h : place ≤ buf.length) :
    writeAt buf place [] = some buf := by
  rw [writeAt, List.length_nil, Nat.add_zero, if_pos h, List.append_nil, List.take_append_drop]

/-- A write in two goes. -/
theorem writeAt_bind {α : Type*} : ∀ {xs : List α} {buf : List α} {place : ℕ} (ys : List α),
    place ≤ buf.length →
      (writeAt buf place xs).bind (fun buf => writeAt buf (place + xs.length) ys) =
        writeAt buf place (xs ++ ys)
  | [], buf, place, ys, h => by
    rw [writeAt_nil h, Option.bind_some, List.length_nil, Nat.add_zero, List.nil_append]
  | v :: xs, buf, place, ys, h => by
    by_cases hlt : place < buf.length
    · have hrest : place + 1 ≤ (buf.set place v).length := by
        rw [List.length_set]
        omega
      rw [writeAt_cons v xs hlt, List.cons_append, writeAt_cons v (xs ++ ys) hlt,
        ← writeAt_bind ys hrest, List.length_cons, Nat.add_assoc place 1, Nat.add_comm 1]
    · rw [writeAt_cons_none v xs hlt, List.cons_append, writeAt_cons_none v _ hlt]
      rfl

/-! ### What the steps compute -/

/-- The set bits of a word are its lowest and those of the word without it. -/
theorem setRange_cons {word : ℕ} (hzero : word ≠ 0) (hw : ∀ i, word.testBit i = true → i < 64) :
    (List.range 64).filter word.testBit = Bits.trailingZeros 64 word ::
      (List.range 64).filter (Bits.clearLowest word).testBit := by
  obtain ⟨hset, -, hlow⟩ := Bits.lowest_spec hzero hw
  have hclear : ∀ i, (Bits.clearLowest word).testBit i = true → i < 64 := by
    intro i hi
    rw [Bits.testBit_clearLowest hset hlow, Bool.and_eq_true] at hi
    exact hw i hi.1
  have hlen : ∀ w : ℕ, ((List.range 64).filter w.testBit).length ≤ 64 := fun w =>
    (List.length_filter_le _ _).trans (List.length_range).le
  rw [← Bits.setBits_eq hw ((hlen word).trans (Nat.le_succ 64)), Bits.setBits, if_neg hzero,
    Bits.setBits_eq hclear (hlen _)]

/-- The ids of the set bits of word `w`. -/
def wordIds (least w word : ℕ) : List RowId :=
  ((List.range 64).filter word.testBit).map fun i => least + w * 64 + i

/-- A word read back writes the ids of its bits. -/
theorem readWord_spec {least w : ℕ} : ∀ {fuel word : ℕ} {ids : List RowId}
    {next : ℕ}, ids.length ≤ target.usizeMax → next ≤ ids.length →
      (∀ i, word.testBit i = true → i < 64) →
      ((List.range 64).filter word.testBit).length ≤ fuel →
      (∀ id ∈ wordIds least w word, id ≤ ROW_ID_MAX) →
      readWord target least w fuel word (ids, next) =
        (writeAt ids next (wordIds least w word)).map fun out =>
          (out, next + (wordIds least w word).length)
  | fuel, word, ids, next, hlen, hnext, hw, hfuel, hids => by
    by_cases hzero : word = 0
    · have hnil : wordIds least w word = [] := by
        rw [wordIds, List.filter_eq_nil_iff.mpr fun i _ => by
          rw [hzero, Nat.zero_testBit]; exact Bool.false_ne_true, List.map_nil]
      rw [hnil, writeAt_nil hnext, Option.map_some]
      cases fuel with
      | zero => exact if_pos hzero
      | succ fuel => exact if_pos hzero
    · have hcons := setRange_cons hzero hw
      have hwordIds : wordIds least w word =
          (least + w * 64 + Bits.trailingZeros 64 word) ::
            wordIds least w (Bits.clearLowest word) := by
        rw [wordIds, hcons, List.map_cons, wordIds]
      obtain ⟨hset, -, hlow⟩ := Bits.lowest_spec hzero hw
      cases fuel with
      | zero =>
        rw [hcons, List.length_cons] at hfuel
        exact absurd hfuel (by omega)
      | succ fuel =>
        rw [hwordIds] at hids
        have hfirst := hids _ List.mem_cons_self
        rw [readWord, if_neg hzero, hwordIds]
        -- the id read fits its type, so do the sums it is made of
        have hbase : least + w * 64 ≤ ROW_ID_MAX := (Nat.le_add_right _ _).trans hfirst
        have hshift : w * 64 ≤ ROW_ID_MAX := (Nat.le_add_left _ _).trans hbase
        rw [fit_eq hshift]
        dsimp only [Option.bind_eq_bind, Option.bind_some]
        rw [fit_eq hbase, Option.bind_some, fit_eq hfirst, Option.bind_some]
        split_ifs with hroom
        · have hclear : ∀ i, (Bits.clearLowest word).testBit i = true → i < 64 := by
            intro i hi
            rw [Bits.testBit_clearLowest hset hlow, Bool.and_eq_true] at hi
            exact hw i hi.1
          rw [hcons, List.length_cons] at hfuel
          have hset' : (ids.set next (least + w * 64 + Bits.trailingZeros 64 word)).length =
              ids.length := List.length_set
          rw [fit_eq (by omega), Option.bind_some, readWord_spec (by omega) (by omega) hclear
            (by omega) fun id hid => hids id (List.mem_cons_of_mem _ hid), writeAt_cons _ _ hroom,
            List.length_cons, Nat.add_assoc next 1, Nat.add_comm 1]
        · rw [writeAt_cons_none _ _ hroom]
          rfl

/-- The ids of the set bits of words, the first of them word `w`. -/
def wordsIds (least : ℕ) : ℕ → List ℕ → List RowId
  | _, [] => []
  | w, word :: words => wordIds least w word ++ wordsIds least (w + 1) words

/-- The words read back write the ids of their bits. -/
theorem readWords_spec {least : ℕ} : ∀ {words : List ℕ} {w : ℕ}
    {ids : List RowId} {next : ℕ}, ids.length ≤ target.usizeMax → next ≤ ids.length →
      w + words.length < ROW_ID_MAX → Bits.Fits 64 words →
      (∀ id ∈ wordsIds least w words, id ≤ ROW_ID_MAX) →
      readWords target least w words (ids, next) =
        (writeAt ids next (wordsIds least w words)).map fun out =>
          (out, next + (wordsIds least w words).length)
  | [], w, ids, next, _, hnext, hw, _, _ => by
    rw [List.length_nil] at hw
    rw [readWords, fit_eq (by omega), wordsIds, writeAt_nil hnext]
    rfl
  | word :: words, w, ids, next, hlen, hnext, hw, hfits, hids => by
    rw [List.length_cons] at hw
    have hword := hfits word List.mem_cons_self
    have hhere := fun id hid => hids id (List.mem_append_left _ hid)
    have hbehind := fun id hid => hids id (List.mem_append_right _ hid)
    have hcount : ((List.range 64).filter word.testBit).length ≤ 64 :=
      (List.length_filter_le _ _).trans (List.length_range).le
    rw [readWords, fit_eq (by omega), wordsIds, ← writeAt_bind _ hnext]
    dsimp only [Option.bind_eq_bind, Option.bind_some]
    rw [readWord_spec hlen hnext hword hcount hhere, Option.bind_map]
    cases hwrite : writeAt ids next (wordIds least w word) with
    | none => rfl
    | some out =>
      have hout := writeAt_length hwrite
      have hroom : next + (wordIds least w word).length ≤ ids.length := by
        by_contra hover
        rw [writeAt, if_neg hover] at hwrite
        cases hwrite
      dsimp only [Option.bind_some, Function.comp_apply]
      rw [readWords_spec (by omega) (by omega) (by omega)
        (fun word hmem => hfits word (List.mem_cons_of_mem _ hmem)) hbehind, List.length_append,
        Nat.add_assoc]

/-- The ids of a bitmap's bits are its listing. -/
theorem wordsIds_eq {least : ℕ} : ∀ {words : List ℕ} {w : ℕ}, Bits.Fits 64 words →
    wordsIds least w words =
      ((words.zipIdx w).flatMap fun place => (Bits.setBits 64 64 place.1).map (place.2 * 64 + ·)).map
        (least + ·)
  | [], _, _ => rfl
  | word :: words, w, hfits => by
    have hcount : ((List.range 64).filter word.testBit).length ≤ 64 :=
      (List.length_filter_le _ _).trans (List.length_range).le
    rw [wordsIds, wordsIds_eq fun word hmem => hfits word (List.mem_cons_of_mem _ hmem),
      List.zipIdx_cons, List.flatMap_cons, List.map_append, wordIds,
      Bits.setBits_eq (hfits word List.mem_cons_self) hcount, List.map_map]
    refine congrArg (· ++ _) (List.map_congr_left fun i _ => ?_)
    exact Nat.add_assoc least (w * 64) i

/-- Ids within the bitmap's span are set in it. -/
theorem setBits_spec {least reach : ℕ} : ∀ {ids : List RowId} {words : List ℕ},
    (∀ id ∈ ids, least ≤ id ∧ id ≤ least + reach) → words.length = reach / 64 + 1 →
      words.length ≤ target.usizeMax →
      ids.foldlM (setBit target least) words = some (Bits.setAll 64 words (ids.map (· - least)))
  | [], words, _, _, _ => rfl
  | id :: ids, words, hspan, hwords, hsmall => by
    obtain ⟨hlo, hhi⟩ := hspan id List.mem_cons_self
    have hplace : (id - least) / 64 < words.length := by
      have hle : (id - least) / 64 ≤ reach / 64 :=
        Nat.div_le_div_right (Nat.sub_le_iff_le_add'.mpr hhi)
      rw [hwords]
      exact Nat.lt_succ_of_le hle
    have hstep : setBit target least words id =
        some (words.modify ((id - least) / 64) (· ||| 1 <<< ((id - least) % 64))) := by
      rw [setBit, checkedSub_eq hlo]
      dsimp only [Option.bind_eq_bind, Option.bind_some]
      rw [Target.toUsize_eq (hplace.le.trans hsmall), List.getElem?_eq_getElem hplace, Option.bind_some,
        bitMask,
        if_pos (Nat.mod_lt _ (by decide)), Option.bind_some, List.modify_eq_set_getElem?,
        List.getElem?_eq_getElem hplace]
      rfl
    have hlen : (words.modify ((id - least) / 64) (· ||| 1 <<< ((id - least) % 64))).length =
        words.length := List.length_modify _ _ _
    rw [List.foldlM_cons, hstep, List.map_cons]
    exact setBits_spec (fun id hid => hspan id (List.mem_cons_of_mem _ hid)) (hlen.trans hwords)
      (hlen.le.trans hsmall)

/-! ### The sort is right -/

/-- Ids within a span of under a word an id are read back from its bitmap in base order. -/
theorem bitmapPath_spec {ids : List RowId} (hnodup : ids.Nodup)
    (hwide : ∀ id ∈ ids, id ≤ ROW_ID_MAX) (hfits : ids.length * 8 ≤ target.usizeMax / 2)
    {least reach : ℕ} (hspan : ∀ id ∈ ids, least ≤ id ∧ id ≤ least + reach)
    (hreach : reach / 64 < ids.length) : ∃ words,
    fit ROW_ID_MAX (reach / 64 + 1) = some (reach / 64 + 1) ∧
    zeroWords target (target.toUsize (reach / 64 + 1)) =
      some (List.replicate (reach / 64 + 1) 0) ∧
    ids.foldlM (setBit target least) (List.replicate (reach / 64 + 1) 0) = some words ∧
    readWords target least 0 words (ids, 0) = some (inOrder ids, (inOrder ids).length) := by
  have htarget := target.usizeMax_le
  have hwords : reach / 64 + 1 ≤ target.usizeMax := by omega
  have hzero : Bits.Fits 64 (List.replicate (reach / 64 + 1) 0) := by
    intro word hword i hi
    rw [List.eq_of_mem_replicate hword, Nat.zero_testBit] at hi
    cases hi
  have hlen : (List.replicate (reach / 64 + 1) 0).length = reach / 64 + 1 := List.length_replicate
  refine ⟨_, fit_eq (hwords.trans htarget), ?_, setBits_spec hspan hlen (hlen.le.trans hwords), ?_⟩
  · rw [Target.toUsize_eq hwords]
    exact if_pos (by omega)
  have hset := Bits.fits_setAll (by decide) hzero (ids.map (· - least))
  have hmaps := bitmap_spec hnodup hspan
  -- what is read back is the ids, so it is as wide and as many as they are
  have hlisted := (@wordsIds_eq least _ 0 hset).trans hmaps
  have hperm := inOrder_perm ids
  have hsetlen := Bits.length_setAll 64 (List.replicate (reach / 64 + 1) 0) (ids.map (· - least))
  have hmost : 2 ^ 64 - 1 = (ROW_ID_MAX : ℕ) := rfl
  have hhalf : target.usizeMax / 2 < 2 ^ 64 - 1 := by
    have : target.usizeMax ≤ 2 ^ 64 - 1 := htarget
    omega
  rw [readWords_spec (by omega) (Nat.zero_le _) (by rw [hsetlen, hlen, ← hmost]; omega) hset
    (fun id hid => hwide id (hperm.mem_iff.mp (by rwa [← hlisted]))), hlisted, Nat.zero_add,
    writeAt, if_pos (by rw [hperm.length_eq, Nat.zero_add]), hperm.length_eq, List.take_zero,
    List.nil_append, Nat.zero_add, List.drop_length, List.append_nil]
  rfl

/-- Distinct ids of a slice come back in base order, by the path their spread allows. -/
theorem sortUniqueIdsOn_eq (slice : IdSlice target) (hnodup : slice.ids.Nodup) :
    ∃ path, sortUniqueIdsOn target slice.ids = some (path, inOrder slice.ids) ∧
      sortUniqueIds slice.ids = (path, some (inOrder slice.ids)) := by
  have heq := sortUniqueIds_eq hnodup
  rw [sortUniqueIds] at heq ⊢
  rw [sortUniqueIdsOn]
  by_cases hsorted : slice.ids.SortedLE
  · rw [if_pos hsorted] at heq ⊢
    have hids : slice.ids = inOrder slice.ids := Option.some.inj heq
    rw [if_pos hsorted, ← hids]
    exact ⟨_, rfl, rfl⟩
  rw [if_neg hsorted] at heq ⊢
  rw [if_neg hsorted]
  obtain ⟨-, -, hall⟩ := @span_spec slice.ids (ROW_ID_MAX, 0)
  obtain ⟨id, hid⟩ := List.exists_mem_of_ne_nil slice.ids fun hnil =>
    hsorted (hnil ▸ List.Pairwise.nil.sortedLE)
  dsimp only [spanOf] at heq ⊢
  generalize slice.ids.foldl (fun span id => (min span.1 id, max span.2 id)) (ROW_ID_MAX, 0) =
    span at hall heq ⊢
  have hordered : span.1 ≤ span.2 := (hall id hid).1.trans (hall id hid).2
  rw [checkedSub_eq hordered]
  by_cases hsparse : slice.ids.length ≤ (span.2 - span.1) / BITMAP_BITS_PER_ID
  · rw [if_pos hsparse] at heq ⊢
    dsimp only [Option.bind_eq_bind, Option.bind_some]
    rw [if_pos hsparse]
    exact ⟨_, rfl, rfl⟩
  rw [if_neg hsparse] at heq ⊢
  dsimp only [Option.bind_eq_bind, Option.bind_some]
  rw [if_neg hsparse]
  have hspan : ∀ id ∈ slice.ids, span.1 ≤ id ∧ id ≤ span.1 + (span.2 - span.1) := by
    intro id hid
    rw [Nat.add_sub_cancel' hordered]
    exact hall id hid
  obtain ⟨words, hlen, hzero, hset, hread⟩ := bitmapPath_spec hnodup slice.wide slice.fits hspan
    (Nat.lt_of_not_le hsparse)
  refine ⟨.bitmap, ?_, congrArg (Prod.mk SortPath.bitmap) heq⟩
  rw [hlen, Option.bind_some, hzero, Option.bind_some, hset, Option.bind_some, hread,
    Option.bind_some]
  exact if_pos rfl

/-- Distinct row ids come back as their ascending permutation, whichever way they are
sorted, and no step of the sort overflows or leaves its buffer. -/
theorem sort_unique_ids_sorts (target : Target) (slice : IdSlice target)
    (hnodup : slice.ids.Nodup) : ∃ path sorted,
    sortUniqueIdsOn target slice.ids = some (path, sorted) ∧ sorted.Perm slice.ids ∧
      sorted.SortedLT := by
  obtain ⟨path, hsort, -⟩ := sortUniqueIdsOn_eq slice hnodup
  exact ⟨path, _, hsort, inOrder_perm _, inOrder_sorted hnodup⟩

/-- Ids at the top of the `u64` range, out of order. -/
def topIds : List RowId := [ROW_ID_MAX, ROW_ID_MAX - 130, ROW_ID_MAX - 3]

theorem topIds_wide : ∀ id ∈ topIds, id ≤ ROW_ID_MAX := by decide

theorem topIds_fits : topIds.length * 8 ≤ Target.bits64.usizeMax / 2 := by decide

theorem sort_unique_ids_sorts_top : ∃ path sorted,
    sortUniqueIdsOn .bits64 topIds = some (path, sorted) ∧ sorted.Perm topIds ∧ sorted.SortedLT :=
  sort_unique_ids_sorts .bits64 ⟨topIds, topIds_wide, topIds_fits⟩ (by decide)

end Indexes
