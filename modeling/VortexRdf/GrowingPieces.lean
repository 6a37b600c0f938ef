/-
The iterator over growing pieces.

Ranges are cut into pieces as they are asked for: a piece is cut from the range in hand, and the
next range is taken up where that one is at its end.

* `Yields` — what an iterator yields, call after call, up to its end;
* `PieceIterator.next` — the iterator's next piece;
* `yields_growingPieces` — it yields the pieces of each range in turn, and ends;
* `growing_pieces_tile` — the pieces tile every range, in order.
-/
import VortexRdf.FileFilterFolds

namespace Store

/-- The items that calls of `next` yield one after the other, the last call yielding none. -/
inductive Yields {σ α : Type} (next : σ → Option (α × σ)) : σ → List α → Prop where
  | done {s : σ} (h : next s = none) : Yields next s []
  | item {s s' : σ} {a : α} {as : List α} (h : next s = some (a, s')) (rest : Yields next s' as) :
      Yields next s (a :: as)

/-- What is yielded depends on the next call alone. -/
theorem Yields.congr {σ α : Type} {next : σ → Option (α × σ)} {s s' : σ} {as : List α}
    (h : Yields next s as) (hnext : next s' = next s) : Yields next s' as := by
  cases h with
  | done h => exact .done (hnext.trans h)
  | item h rest => exact .item (hnext.trans h) rest

/-! ### The iterator -/

/-- The ranges left, each beside its index; what is left of the range in hand; and the rows of the
next piece. -/
structure PieceIterator where
  ranges : List (ℕ × RowRange)
  current : Option (ℕ × RowRange)
  size : ℕ

namespace PieceIterator

/-- A list's ranges beside their indices, the first of which is `index`. -/
def enumerate (index : ℕ) : List RowRange → List (ℕ × RowRange)
  | [] => []
  | range :: ranges => (index, range) :: enumerate (index + 1) ranges

/-- The piece cut from the range in hand, unless that is at its end. -/
def cut (it : PieceIterator) : Option ((ℕ × RowRange) × PieceIterator) :=
  match it.current with
  | none => none
  | some (index, rest) =>
    if rest.start < rest.stop then
      let stop := min (saturatingAdd rest.start it.size) rest.stop
      some ((index, ⟨rest.start, stop⟩),
        { it with
          current := some (index, ⟨stop, rest.stop⟩)
          size := min (it.size * PIECE_GROWTH) usizeMax })
    else none

/-- A turn of the loop for each range taken up. -/
def nextFrom (size : ℕ) :
    List (ℕ × RowRange) → Option (ℕ × RowRange) → Option ((ℕ × RowRange) × PieceIterator)
  | [], current => cut ⟨[], current, size⟩
  | range :: ranges, current =>
    match cut ⟨range :: ranges, current, size⟩ with
    | some found => some found
    | none => nextFrom size ranges (some range)

def next (it : PieceIterator) : Option ((ℕ × RowRange) × PieceIterator) :=
  nextFrom it.size it.ranges it.current

/-- The iterator `growing_pieces` returns. -/
def growing (ranges : List RowRange) (first : ℕ) : PieceIterator :=
  ⟨enumerate 0 ranges, none, max first 1⟩

/-! ### What it yields -/

theorem next_of_cut {it : PieceIterator} {found : (ℕ × RowRange) × PieceIterator}
    (h : it.cut = some found) : it.next = some found := by
  obtain ⟨ranges, current, size⟩ := it
  cases ranges with
  | nil => exact h
  | cons range ranges => simp only [next, nextFrom, h]

variable {ranges : List (ℕ × RowRange)}

/-- A range at its end is left for the next one. -/
theorem next_of_end {range : ℕ × RowRange}
    {current : Option (ℕ × RowRange)} {size : ℕ}
    (h : cut ⟨range :: ranges, current, size⟩ = none) :
    next ⟨range :: ranges, current, size⟩ = next ⟨ranges, some range, size⟩ := by
  simp only [next, nextFrom, h]

theorem cut_end {index size : ℕ} {rest : RowRange}
    (h : ¬rest.start < rest.stop) : cut ⟨ranges, some (index, rest), size⟩ = none := by
  simp only [cut, if_neg h]

theorem cut_eq {index size : ℕ} {rest : RowRange}
    (h : rest.start < rest.stop) : cut ⟨ranges, some (index, rest), size⟩ =
      some ((index, ⟨rest.start, min (saturatingAdd rest.start size) rest.stop⟩),
        ⟨ranges, some (index, ⟨min (saturatingAdd rest.start size) rest.stop, rest.stop⟩),
          min (size * PIECE_GROWTH) usizeMax⟩) := by
  simp only [cut, if_pos h]

/-- What is left of a range is yielded in growing pieces, and then what is yielded at its end, with
the size that is reached. -/
theorem yields_pieces {index : ℕ} {after : ℕ → List (ℕ × RowRange)}
    (hend : ∀ (rest : RowRange) (size : ℕ), 0 < size → ¬rest.start < rest.stop →
      Yields next ⟨ranges, some (index, rest), size⟩ (after size))
    (fuel : ℕ) (rest : RowRange) (size : ℕ) (hsize : 0 < size) (hstop : rest.stop ≤ usizeMax)
    (hfuel : rest.stop - rest.start ≤ fuel) :
    Yields next ⟨ranges, some (index, rest), size⟩
      ((cutGrowing fuel rest size).1.map (fun piece => (index, piece)) ++
        after (cutGrowing fuel rest size).2) := by
  induction fuel generalizing rest size with
  | zero => exact hend rest size hsize (by omega)
  | succ fuel ih =>
    rw [cutGrowing]
    split_ifs with hlt
    · refine .item (next_of_cut (cut_eq hlt)) ?_
      refine ih ⟨_, rest.stop⟩ _ ?_ hstop ?_
      · rw [PIECE_GROWTH, usizeMax]
        omega
      · -- a piece of some rows leaves fewer
        rw [min_saturatingAdd hstop]
        dsimp only
        omega
    · exact hend rest size hsize hlt

theorem yields_current (ranges : List RowRange) (index later : ℕ) (rest : RowRange) (size : ℕ)
    (hsize : 0 < size) (hstop : rest.stop ≤ usizeMax) (hbound : ∀ r ∈ ranges, r.stop ≤ usizeMax) :
    Yields next ⟨enumerate later ranges, some (index, rest), size⟩
      ((cutGrowing (rest.stop - rest.start) rest size).1.map (fun piece => (index, piece)) ++
        growingPiecesFrom ranges later (cutGrowing (rest.stop - rest.start) rest size).2) := by
  induction ranges generalizing index later rest size with
  | nil =>
    have hend : ∀ (rest : RowRange) (size : ℕ), 0 < size → ¬rest.start < rest.stop →
        Yields next ⟨[], some (index, rest), size⟩ (growingPiecesFrom [] later size) :=
      fun rest size _ hlt => .done (cut_end hlt : cut ⟨[], some (index, rest), size⟩ = none)
    exact yields_pieces hend _ rest size hsize hstop le_rfl
  | cons range ranges ih =>
    -- at its end, the range in hand gives way to the next
    refine yields_pieces (fun rest size hsize hlt => ?_) _ rest size hsize hstop le_rfl
    have hnext := ih later (later + 1) range size hsize (hbound range List.mem_cons_self)
      (fun r hr => hbound r (List.mem_cons_of_mem range hr))
    exact hnext.congr (next_of_end (cut_end hlt))

/-- The iterator yields the pieces of the ranges in turn, and ends. -/
theorem yields_growingPieces {ranges : List RowRange} (hbound : ∀ r ∈ ranges, r.stop ≤ usizeMax)
    (first : ℕ) : Yields next (growing ranges first) (growingPiecesFrom ranges 0 (max first 1)) := by
  have hsize : 0 < max first 1 := by omega
  cases ranges with
  | nil => exact .done rfl
  | cons range ranges =>
    have hrest := yields_current ranges 0 1 range (max first 1) hsize
      (hbound range List.mem_cons_self) (fun r hr => hbound r (List.mem_cons_of_mem range hr))
    exact hrest.congr (next_of_end rfl)

end PieceIterator

/-! ### The pieces of a list of ranges -/

/-- The pieces of a range are not empty, and tile it. -/
theorem cutGrowing_tile {rest : RowRange} {size : ℕ} (hsize : 0 < size)
    (hstop : rest.stop ≤ usizeMax) (hle : rest.start ≤ rest.stop) :
    Tiles rest.start (cutGrowing (rest.stop - rest.start) rest size).1 rest.stop := by
  rw [cutGrowing_eq]
  exact growingPiecesLoop_tile hsize le_rfl hle hstop

theorem cutGrowing_piece (fuel : ℕ) (rest : RowRange) (size : ℕ) (hsize : 0 < size)
    (hstop : rest.stop ≤ usizeMax) :
    ∀ piece ∈ (cutGrowing fuel rest size).1,
      rest.start ≤ piece.start ∧ piece.start < piece.stop ∧ piece.stop ≤ rest.stop := by
  induction fuel generalizing rest size with
  | zero => simp [cutGrowing]
  | succ fuel ih =>
    rw [cutGrowing]
    split_ifs with hlt
    · intro piece hpiece
      rcases List.mem_cons.mp hpiece with rfl | hlater
      · rw [min_saturatingAdd hstop]
        dsimp only
        omega
      · have hgrown : 0 < min (size * PIECE_GROWTH) usizeMax := by
          rw [PIECE_GROWTH, usizeMax]
          omega
        have hin := ih ⟨min (saturatingAdd rest.start size) rest.stop, rest.stop⟩ _ hgrown hstop
          piece hlater
        rw [min_saturatingAdd hstop] at hin
        dsimp only at hin
        omega
    · simp

/-- A piece is of the range its index names. -/
theorem growingPiecesFrom_inside {ranges : List RowRange} {size : ℕ} (index : ℕ) (hsize : 0 < size)
    (hbound : ∀ r ∈ ranges, r.stop ≤ usizeMax) :
    ∀ piece ∈ growingPiecesFrom ranges index size, piece.2.start < piece.2.stop ∧
      index ≤ piece.1 ∧ ∃ range, ranges[piece.1 - index]? = some range ∧
        range.start ≤ piece.2.start ∧ piece.2.stop ≤ range.stop := by
  induction ranges generalizing index size with
  | nil => simp [growingPiecesFrom]
  | cons range ranges ih =>
    have hrange := hbound range List.mem_cons_self
    intro piece hpiece
    rw [growingPiecesFrom] at hpiece
    rcases List.mem_append.mp hpiece with hfirst | hlater
    · obtain ⟨cut, hcut, rfl⟩ := List.mem_map.mp hfirst
      obtain ⟨hstart, hlt, hstop⟩ := cutGrowing_piece _ _ _ hsize hrange cut hcut
      exact ⟨hlt, le_rfl, range, by simp, hstart, hstop⟩
    · obtain ⟨hlt, hindex, owner, howner, hstart, hstop⟩ := ih (index + 1) (cutGrowing_pos _ _ hsize)
        (fun r hr => hbound r (List.mem_cons_of_mem range hr)) piece hlater
      refine ⟨hlt, by omega, owner, ?_, hstart, hstop⟩
      rw [show piece.1 - index = piece.1 - (index + 1) + 1 by omega, List.getElem?_cons_succ]
      exact howner

/-- The pieces of one range tile it. -/
theorem growingPiecesFrom_owned {ranges : List RowRange} {size i : ℕ} {range : RowRange}
    (index : ℕ) (hsize : 0 < size) (hbound : ∀ r ∈ ranges, r.stop ≤ usizeMax) (hrange : ranges[i]? = some range)
    (hle : range.start ≤ range.stop) :
    Tiles range.start (((growingPiecesFrom ranges index size).filter
      fun piece => piece.1 == index + i).map Prod.snd) range.stop := by
  induction ranges generalizing index size i with
  | nil => simp at hrange
  | cons first ranges ih =>
    have hlaterBound : ∀ r ∈ ranges, r.stop ≤ usizeMax :=
      fun r hr => hbound r (List.mem_cons_of_mem first hr)
    have hpos := cutGrowing_pos (first.stop - first.start) first hsize
    rw [growingPiecesFrom, List.filter_append, List.map_append]
    cases i with
    | zero =>
      obtain rfl : first = range := by simpa using hrange
      -- the pieces of later ranges have later indices
      have hnone : (growingPiecesFrom ranges (index + 1)
          (cutGrowing (first.stop - first.start) first size).2).filter
          (fun piece => piece.1 == index + 0) = [] := by
        rw [List.filter_eq_nil_iff]
        intro piece hpiece hsame
        have hindex := (growingPiecesFrom_inside _ hpos hlaterBound piece hpiece).2.1
        have heq := eq_of_beq hsame
        omega
      have hall : ((cutGrowing (first.stop - first.start) first size).1.map
          fun piece => (index, piece)).filter (fun piece => piece.1 == index + 0) =
          (cutGrowing (first.stop - first.start) first size).1.map fun piece => (index, piece) := by
        rw [List.filter_eq_self]
        simp
      rw [hnone, hall, List.map_nil, List.append_nil, List.map_map]
      rw [show Prod.snd ∘ (fun piece : RowRange => (index, piece)) = id from rfl, List.map_id]
      exact cutGrowing_tile hsize (hbound first List.mem_cons_self) hle
    | succ i =>
      have hnone : ((cutGrowing (first.stop - first.start) first size).1.map
          fun piece => (index, piece)).filter (fun piece => piece.1 == index + (i + 1)) = [] := by
        rw [List.filter_eq_nil_iff]
        intro piece hpiece hsame
        obtain ⟨cut, -, rfl⟩ := List.mem_map.mp hpiece
        have heq := eq_of_beq hsame
        dsimp only at heq
        omega
      rw [hnone, List.map_nil, List.nil_append, show index + (i + 1) = index + 1 + i by omega]
      exact ih (index + 1) hpos hlaterBound (by simpa using hrange)

/-- Pieces come in order: their ranges' indices, and their rows. -/
def InOrder (p q : ℕ × RowRange) : Prop := p.1 ≤ q.1 ∧ p.2.stop ≤ q.2.start

theorem cutGrowing_ordered (fuel : ℕ) (rest : RowRange) (size : ℕ) (hsize : 0 < size)
    (hstop : rest.stop ≤ usizeMax) :
    (cutGrowing fuel rest size).1.Pairwise fun p q => p.stop ≤ q.start := by
  induction fuel generalizing rest size with
  | zero => simp [cutGrowing]
  | succ fuel ih =>
    rw [cutGrowing]
    split_ifs with hlt
    · have hgrown : 0 < min (size * PIECE_GROWTH) usizeMax := by
        rw [PIECE_GROWTH, usizeMax]
        omega
      refine List.pairwise_cons.mpr ⟨?_, ih _ _ hgrown hstop⟩
      intro piece hpiece
      exact (cutGrowing_piece fuel
        ⟨min (saturatingAdd rest.start size) rest.stop, rest.stop⟩ _ hgrown hstop piece hpiece).1
    · simp

theorem growingPiecesFrom_ordered {ranges : List RowRange} {index size : ℕ} (hsize : 0 < size)
    (hbound : ∀ r ∈ ranges, r.stop ≤ usizeMax)
    (hascending : ranges.Pairwise fun a b => a.start < a.stop → b.start < b.stop →
      a.stop ≤ b.start) :
    (growingPiecesFrom ranges index size).Pairwise InOrder := by
  induction ranges generalizing index size with
  | nil => simp [growingPiecesFrom]
  | cons range ranges ih =>
    have hrange := hbound range List.mem_cons_self
    have hlaterBound : ∀ r ∈ ranges, r.stop ≤ usizeMax :=
      fun r hr => hbound r (List.mem_cons_of_mem range hr)
    obtain ⟨hbefore, hrest⟩ := List.pairwise_cons.mp hascending
    have hpos := cutGrowing_pos (range.stop - range.start) range hsize
    rw [growingPiecesFrom, List.pairwise_append]
    refine ⟨?_, ih hpos hlaterBound hrest, ?_⟩
    · rw [List.pairwise_map]
      exact (cutGrowing_ordered _ _ _ hsize hrange).imp fun hle => ⟨le_rfl, hle⟩
    · intro p hp q hq
      obtain ⟨cut, hcut, rfl⟩ := List.mem_map.mp hp
      obtain ⟨hstart, hlt, hstop⟩ := cutGrowing_piece _ _ _ hsize hrange cut hcut
      obtain ⟨hlt', hindex, owner, howner, hstart', hstop'⟩ :=
        growingPiecesFrom_inside _ hpos hlaterBound q hq
      have howned := hbefore owner (List.mem_of_getElem? howner) (by omega) (by omega)
      exact ⟨by dsimp only; omega, by dsimp only; omega⟩

/-- For ranges in ascending order, whatever the first size, the iterator ends; what it yields are
pieces that are not empty, each of the range its index names, in order, and they tile each range. -/
theorem growing_pieces_tile (ranges : List RowRange) (first : ℕ)
    (hbound : ∀ r ∈ ranges, r.stop ≤ usizeMax)
    (hascending : ranges.Pairwise fun a b => a.start < a.stop → b.start < b.stop →
      a.stop ≤ b.start) :
    ∃ pieces, Yields PieceIterator.next (PieceIterator.growing ranges first) pieces ∧
      (∀ p ∈ pieces, p.2.start < p.2.stop) ∧
      (∀ p ∈ pieces, ∃ range, ranges[p.1]? = some range ∧ range.start ≤ p.2.start ∧
        p.2.stop ≤ range.stop) ∧
      pieces.Pairwise (fun p q => p.1 ≤ q.1 ∧ p.2.stop ≤ q.2.start) ∧
      ∀ i range, ranges[i]? = some range → range.start ≤ range.stop →
        Tiles range.start ((pieces.filter fun p => p.1 == i).map Prod.snd) range.stop := by
  have hsize : 0 < max first 1 := by omega
  have hinside := growingPiecesFrom_inside 0 hsize hbound
  refine ⟨_, PieceIterator.yields_growingPieces hbound first, fun p hp => (hinside p hp).1, ?_,
    growingPiecesFrom_ordered hsize hbound hascending, ?_⟩
  · intro p hp
    obtain ⟨-, -, range, hrange, hin⟩ := hinside p hp
    exact ⟨range, by simpa using hrange, hin⟩
  · intro i range hrange hle
    have howned := growingPiecesFrom_owned 0 hsize hbound hrange hle
    simpa using howned

/-- An empty range among others, up to the largest row. -/
theorem growing_pieces_tile_of_sample :
    ∃ pieces, Yields PieceIterator.next (PieceIterator.growing
      [⟨0, 10⟩, ⟨10, 10⟩, ⟨usizeMax - 1, usizeMax⟩] 0) pieces ∧
        ∀ p ∈ pieces, p.2.start < p.2.stop := by
  obtain ⟨pieces, hyields, hne, -⟩ := growing_pieces_tile
    [⟨0, 10⟩, ⟨10, 10⟩, ⟨usizeMax - 1, usizeMax⟩] 0 (by simp [usizeMax])
    (by simp [usizeMax])
  exact ⟨pieces, hyields, hne⟩

end Store
