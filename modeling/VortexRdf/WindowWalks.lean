/-
A window walked part by part.

The matches of a table come in parts, some counted before they are read.  A walk skips a
counted part that ends before the window, takes any other, and stops once the window is
full, unless it counts the whole.

* `WindowPart`, `WindowCursor.walk` — the parts, and a walk over them;
* `slice` — the rows from an offset on, to a limit where there is one;
* `WindowCursor.Reads` — the cursor holds the slice of what it has seen;
* `walk_spec` — a walk keeps it so, to the last part or to a full window;
* `windowCursor_slices` — the window of live rows, however they are cut and counted.
-/
import VortexRdf.ResidualCounts

namespace Store

open Masks MaskOps

/-! ### Walks -/

/-- A part's matches, in order, and whether they are counted before they are read. -/
structure WindowPart where
  rows : List RowId
  counted : Bool

/-- The part's live rows. -/
def WindowPart.live {M : Type*} [MaskOps M] (deleted : Option M) (part : WindowPart) : WindowPart :=
  { part with rows := part.rows.filter fun row => deleted.all fun deleted => !value deleted row }

/-- A walk over parts, and whether it reached the last: one that counts the whole does. -/
def WindowCursor.walk (whole : Bool) : List WindowPart → WindowCursor → WindowCursor × Bool
  | [], cursor => (cursor, true)
  | part :: parts, cursor =>
    if !whole && cursor.isFull then (cursor, false)
    else if part.counted && cursor.endsBefore part.rows.length then
      walk whole parts (cursor.skip part.rows.length)
    else walk whole parts (cursor.take part.rows)

/-- The rows from an offset on: so many, or to the last. -/
def slice {α : Type*} (offset : ℕ) (limit : Option ℕ) (l : List α) : List α :=
  match limit with
  | some limit => page offset limit l
  | none => l.drop offset

/-! ### What the cursor has read -/

/-- The cursor has seen some matches, and holds the slice of them. -/
structure WindowCursor.Reads (cursor : WindowCursor) (offset : ℕ) (limit : Option ℕ)
    (seen : List RowId) : Prop where
  offset_eq : cursor.offset = offset
  limit_eq : cursor.limit = limit
  seen_eq : cursor.seen = seen.length
  rows_eq : cursor.rows = slice offset limit seen

namespace WindowCursor.Reads

variable {cursor : WindowCursor} {offset : ℕ} {limit : Option ℕ} {seen found : List RowId}

theorem new (offset : ℕ) (limit : Option ℕ) : (WindowCursor.new offset limit).Reads offset limit [] where
  offset_eq := rfl
  limit_eq := rfl
  seen_eq := rfl
  rows_eq := by
    cases limit with
    | none => exact List.drop_nil.symm
    | some limit => exact (WindowCursor.Holds.new offset limit).rows_eq

theorem holds {l : ℕ} (h : cursor.Reads offset (some l) seen) : cursor.Holds offset l seen :=
  ⟨h.offset_eq, h.limit_eq, h.seen_eq, h.rows_eq⟩

theorem ofHolds {l : ℕ} (h : cursor.Holds offset l seen) : cursor.Reads offset (some l) seen :=
  ⟨h.offset_eq, h.limit_eq, h.seen_eq, h.rows_eq⟩

/-- Matches that end before the window are none of its rows. -/
theorem skip (h : cursor.Reads offset limit seen) (hsmall : (seen ++ found).length ≤ usizeMax)
    (hends : cursor.endsBefore found.length = true) :
    (cursor.skip found.length).Reads offset limit (seen ++ found) := by
  cases limit with
  | some limit => exact ofHolds (h.holds.skip hsmall hends)
  | none =>
    rw [List.length_append] at hsmall
    rw [endsBefore, decide_eq_true_iff, h.seen_eq, h.offset_eq, saturatingAdd, min_eq_left hsmall] at hends
    refine ⟨h.offset_eq, h.limit_eq, by rw [WindowCursor.skip, h.seen_eq, List.length_append], ?_⟩
    show cursor.rows = (seen ++ found).drop offset
    rw [h.rows_eq, List.drop_of_length_le (by rw [List.length_append]; exact hends), slice,
      List.drop_of_length_le (by omega)]

/-- A part taken adds its rows in the window. -/
theorem take (h : cursor.Reads offset limit seen) (hsmall : found.length ≤ usizeMax) :
    (cursor.take found).Reads offset limit (seen ++ found) := by
  cases limit with
  | some limit => exact ofHolds (h.holds.take hsmall)
  | none =>
    refine ⟨h.offset_eq, h.limit_eq, by rw [List.length_append, ← h.seen_eq]; rfl, ?_⟩
    have hrows : (cursor.take found).rows = cursor.rows ++
        (found.drop (min (cursor.offset - cursor.seen) found.length)).take
          (min (saturatingAdd (min (cursor.offset - cursor.seen) found.length) usizeMax)
            found.length - min (cursor.offset - cursor.seen) found.length) := by
      simp only [WindowCursor.take, h.limit_eq]
    rw [hrows, h.rows_eq, slice, slice, List.drop_append, h.offset_eq, h.seen_eq,
      min_saturatingAdd hsmall, min_eq_right (Nat.le_add_left_of_le hsmall)]
    congr 1
    -- without a limit the part is taken to its end
    rw [List.take_of_length_le (by rw [List.length_drop])]
    rcases le_total (offset - seen.length) found.length with hle | hle
    · rw [min_eq_left hle]
    · rw [min_eq_right hle, List.drop_of_length_le le_rfl, List.drop_of_length_le hle]

/-- A full window is that of whatever comes behind too. -/
theorem full (h : cursor.Reads offset limit seen) (hfull : cursor.isFull = true) (rest : List RowId) :
    cursor.rows = slice offset limit (seen ++ rest) ∧ ∃ l, limit = some l ∧ cursor.rows.length = l := by
  cases limit with
  | none =>
    rw [isFull, h.limit_eq] at hfull
    cases hfull
  | some l =>
    have hrows := h.holds.rows_eq
    rw [isFull, h.limit_eq, Option.any_some, decide_eq_true_iff] at hfull
    refine ⟨?_, l, rfl, le_antisymm ?_ hfull⟩
    · rw [hrows] at hfull ⊢
      exact (page_of_full offset l hfull rest).symm
    · rw [hrows, page]
      exact List.length_take_le _ _

end WindowCursor.Reads

/-! ### What a walk reads -/

section Walks

variable {cursor : WindowCursor} {offset : ℕ} {limit : Option ℕ} {seen : List RowId}

/-- A walk ends with the slice of every match, and stops early at a full window alone. -/
theorem walk_spec (whole : Bool) {parts : List WindowPart} (h : cursor.Reads offset limit seen)
    (hsmall : (seen ++ parts.flatMap WindowPart.rows).length ≤ usizeMax) :
    (cursor.walk whole parts).1.rows = slice offset limit (seen ++ parts.flatMap WindowPart.rows) ∧
    (cursor.walk whole parts).1.seen ≤ (seen ++ parts.flatMap WindowPart.rows).length ∧
    ((cursor.walk whole parts).2 = true →
      (cursor.walk whole parts).1.seen = (seen ++ parts.flatMap WindowPart.rows).length) ∧
    ((cursor.walk whole parts).2 = false →
      whole = false ∧ ∃ l, limit = some l ∧ (cursor.walk whole parts).1.rows.length = l) := by
  induction parts generalizing cursor seen with
  | nil =>
    rw [List.flatMap_nil, List.append_nil]
    exact ⟨h.rows_eq, h.seen_eq.le, fun _ => h.seen_eq, fun hended => absurd hended.symm Bool.false_ne_true⟩
  | cons part parts ih =>
    rw [List.flatMap_cons, ← List.append_assoc] at hsmall ⊢
    have hpart : (seen ++ part.rows).length ≤ usizeMax := by
      rw [List.length_append] at hsmall
      exact (Nat.le_add_right _ _).trans hsmall
    have hrows : part.rows.length ≤ usizeMax := by
      rw [List.length_append] at hpart
      exact (Nat.le_add_left _ _).trans hpart
    rw [WindowCursor.walk]
    split_ifs with hfull hskip
    · rw [Bool.and_eq_true, Bool.not_eq_true'] at hfull
      obtain ⟨hslice, hlimit⟩ := h.full hfull.2 (part.rows ++ parts.flatMap WindowPart.rows)
      rw [← List.append_assoc] at hslice
      refine ⟨hslice, ?_, fun hended => absurd hended id, fun _ => ⟨hfull.1, hlimit⟩⟩
      rw [h.seen_eq, List.length_append, List.length_append, Nat.add_assoc]
      exact Nat.le_add_right _ _
    · rw [Bool.and_eq_true] at hskip
      exact ih (h.skip hpart hskip.2) hsmall
    · exact ih (h.take hrows) hsmall

theorem flatMap_live {M : Type*} [MaskOps M] (deleted : Option M) (parts : List WindowPart) :
    (parts.map (WindowPart.live deleted)).flatMap WindowPart.rows =
      (parts.flatMap WindowPart.rows).filter fun row => deleted.all fun deleted => !value deleted row := by
  rw [List.flatMap_map, List.filter_flatMap]
  rfl

/-- **The streaming window is a slice**: however live rows are cut into parts, whichever of
the parts are counted before they are read, and whether or not the walk counts the whole,
the window is the slice of the rows; a walk that stops before the last part holds as many
rows as its limit, and the total it hands back is that of the live rows, or below it. -/
theorem windowCursor_slices {M : Type*} [MaskOps M] (deleted : Option M) (offset : ℕ) (limit : Option ℕ)
    (whole : Bool) (parts : List WindowPart)
    (hsmall : (parts.flatMap WindowPart.rows).length ≤ usizeMax) :
    ∃ cursor ended, (WindowCursor.new offset limit).walk whole (parts.map (WindowPart.live deleted)) =
        (cursor, ended) ∧
      (cursor.finish ended).1 = slice offset limit ((parts.flatMap WindowPart.rows).filter fun row =>
        deleted.all fun deleted => !value deleted row) ∧
      Live.Of ((parts.flatMap WindowPart.rows).filter fun row =>
        deleted.all fun deleted => !value deleted row).length (cursor.finish ended).2 ∧
      (ended = false → whole = false ∧ ∃ l, limit = some l ∧ cursor.rows.length = l) := by
  have hlive : ((parts.map (WindowPart.live deleted)).flatMap WindowPart.rows).length ≤ usizeMax := by
    rw [flatMap_live]
    exact (List.length_filter_le _ _).trans hsmall
  obtain ⟨hrows, hle, hends, hstops⟩ := walk_spec whole (WindowCursor.Reads.new offset limit)
    (by rwa [List.nil_append])
  rw [List.nil_append, flatMap_live] at hrows hle hends
  refine ⟨_, _, rfl, hrows, ?_, hstops⟩
  rw [WindowCursor.finish]
  split_ifs with hended
  · exact hends hended
  · exact hle

theorem windowCursor_slices_sample : ∃ cursor ended,
    (WindowCursor.new 1 (some 2)).walk false ([⟨[4], true⟩, ⟨[5, 6], false⟩, ⟨[7, 8], true⟩].map
      (WindowPart.live (some (fromIndices 9 [5] : BitMask)))) = (cursor, ended) ∧
    (cursor.finish ended).1 = slice 1 (some 2) ([4, 5, 6, 7, 8].filter fun row =>
      (some (fromIndices 9 [5] : BitMask)).all fun deleted => !value deleted row) ∧
    Live.Of ([4, 5, 6, 7, 8].filter fun row =>
      (some (fromIndices 9 [5] : BitMask)).all fun deleted => !value deleted row).length
        (cursor.finish ended).2 ∧
    (ended = false → false = false ∧ ∃ l, some 2 = some l ∧ cursor.rows.length = l) :=
  windowCursor_slices (some (fromIndices 9 [5])) 1 (some 2) false
    [⟨[4], true⟩, ⟨[5, 6], false⟩, ⟨[7, 8], true⟩] (by decide)

end Walks

end Store
