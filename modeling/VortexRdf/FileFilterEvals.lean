/-
A split's mask keeps the rows that pass its filter, of those it starts with.

* `MaskOf` — a mask by the test its bits are;
* `QuadFile.Reads` — the rows a file's quad table holds, and what its reader answers of
  them;
* `evaluateConjuncts_spec` — the conjuncts keep the rows that pass, in whatever order they
  are tested;
* `everyRowZones_spec` — every row of a zone taken whole passes;
* `evaluateFilterSplit_spec`, `splitStartMask_spec` — a split's mask, and what it starts with.
-/
import VortexRdf.FileFilters
import VortexRdf.ResidualAnswers

namespace Store

open Dictionary Terms Masks MaskOps Buffers Ascending

/-! ### Masks by their bits -/

section Masks

variable {M : Type} [MaskOps M]

/-- A mask of so many rows, set where a test holds. -/
structure MaskOf (n : ℕ) (p : ℕ → Bool) (m : M) : Prop where
  len_eq : len m = n
  value_eq : ∀ i < n, value m i = p i

variable {n : ℕ} {p q : ℕ → Bool} {m m' : M}

theorem MaskOf.congr (h : MaskOf n p m) (heq : ∀ i < n, p i = q i) : MaskOf n q m :=
  ⟨h.len_eq, fun i hi => (h.value_eq i hi).trans (heq i hi)⟩

theorem MaskOf.setBits_eq (h : MaskOf n p m) : setBits m = (List.range n).filter p := by
  rw [setBits, h.len_eq]
  exact List.filter_congr fun i hi => h.value_eq i (List.mem_range.mp hi)

section Lawful

variable [LawfulMask M]

theorem MaskOf.trueCount_eq (h : MaskOf n p m) : trueCount m = ((List.range n).filter p).length := by
  rw [LawfulMask.trueCount_eq, h.setBits_eq]

theorem MaskOf.allFalse_iff (h : MaskOf n p m) : allFalse m = true ↔ ∀ i < n, p i = false := by
  rw [allFalse, decide_eq_true_iff, h.trueCount_eq, List.length_eq_zero_iff, List.filter_eq_nil_iff]
  simp

theorem MaskOf.not (h : MaskOf n p m) : MaskOf n (fun i => !p i) (MaskOps.not m) :=
  ⟨(LawfulMask.len_not m).trans h.len_eq, fun i hi => by
    rw [LawfulMask.value_not m i (h.len_eq ▸ hi), h.value_eq i hi]⟩

theorem maskOf_newTrue (n : ℕ) : MaskOf n (fun _ => true) (newTrue n : M) :=
  ⟨LawfulMask.len_newTrue n, fun i hi => LawfulMask.value_newTrue n i hi⟩

theorem MaskOf.slice (h : MaskOf n p m) {lo hi : ℕ} (hle : lo ≤ hi) (hin : hi ≤ n) :
    MaskOf (hi - lo) (fun i => p (lo + i)) (MaskOps.slice m lo hi) := by
  obtain rfl := h.len_eq
  refine ⟨LawfulMask.len_slice m lo hi hle hin, fun i hi' => ?_⟩
  rw [LawfulMask.value_slice m lo hi i hle hin hi', h.value_eq _ (by omega)]

theorem maskOf_fromIndices {places : List ℕ} (hsorted : places.SortedLT) (hin : ∀ k ∈ places, k < n) :
    MaskOf n (fun i => decide (i ∈ places)) (fromIndices n places : M) :=
  ⟨LawfulMask.len_fromIndices n places, fun i hi =>
    LawfulMask.value_fromIndices n places i hin hsorted hi⟩

/-- The row ids a mask keeps over a range. -/
theorem MaskOf.keptIds_eq {range : RowRange} (h : MaskOf (range.stop - range.start) p m) :
    keptIds m range = range.toList.filter fun row => p (row - range.start) := by
  have hrange : range.toList = (List.range (range.stop - range.start)).map fun i =>
      range.start + i := List.range'_eq_map_range
  have hfilter : range.toList.filter (fun row => p (row - range.start)) =
      ((List.range (range.stop - range.start)).filter p).map fun place => range.start + place := by
    rw [hrange, List.filter_map]
    refine congrArg (List.map _) (List.filter_congr fun i _ => ?_)
    rw [Function.comp_apply, Nat.add_sub_cancel_left]
  rw [hfilter, keptIds]
  cases hindices : indices m with
  | all =>
    have hall := LawfulMask.indices_all m hindices
    rw [List.filter_eq_self.mpr fun i hi => ?_]
    · exact hrange
    · have hlt := List.mem_range.mp hi
      rw [← h.value_eq i hlt, hall i (h.len_eq ▸ hlt)]
  | none =>
    have hnone := LawfulMask.indices_none m hindices
    rw [List.filter_eq_nil_iff.mpr fun i hi => ?_, List.map_nil]
    have hlt := List.mem_range.mp hi
    rw [← h.value_eq i hlt, hnone i (h.len_eq ▸ hlt)]
    exact Bool.false_ne_true
  | some places =>
    dsimp only
    rw [LawfulMask.indices_some m places hindices, h.setBits_eq]

end Lawful

section Meet

variable [MaskMeet M] [LawfulMeet M]

theorem MaskOf.bitand (h : MaskOf n p m) (h' : MaskOf n q m') :
    MaskOf n (fun i => p i && q i) (MaskMeet.bitand m m') := by
  have hlen : len m = len m' := h.len_eq.trans h'.len_eq.symm
  refine ⟨(LawfulMeet.len_bitand m m' hlen).trans h.len_eq, fun i hi => ?_⟩
  rw [LawfulMeet.value_bitand m m' i hlen (h.len_eq ▸ hi), h.value_eq i hi, h'.value_eq i hi]

theorem MaskOf.collect {k : ℕ} (h : MaskOf n p m) (h' : MaskOf k q m') :
    MaskOf (n + k) (fun i => if i < n then p i else q (i - n)) (MaskMeet.collect m m') := by
  obtain rfl := h.len_eq
  obtain rfl := h'.len_eq
  refine ⟨LawfulMeet.len_collect m m', fun i hi => ?_⟩
  rw [LawfulMeet.value_collect m m' i hi]
  split_ifs with hlt
  · exact h.value_eq i hlt
  · exact h'.value_eq _ (by omega)

end Meet

end Masks

section Unions

variable {M : Type} [MaskOps M] [MaskUnion M] [LawfulUnion M] {n : ℕ} {p q : ℕ → Bool} {m m' : M}

theorem MaskOf.union (h : MaskOf n p m) (h' : MaskOf n q m') :
    MaskOf n (fun i => p i || q i) (MaskUnion.union m m') := by
  have hlen : len m = len m' := h.len_eq.trans h'.len_eq.symm
  refine ⟨(LawfulUnion.len_union m m' hlen).trans h.len_eq, fun i hi => ?_⟩
  rw [LawfulUnion.value_union m m' i hlen (h.len_eq ▸ hi), h.value_eq i hi, h'.value_eq i hi]

end Unions

/-! ### The rows of a file -/

def cellsAt (rows : List (ColumnName → Scalar)) (i : ℕ) : ColumnName → Scalar :=
  rows.getD i fun _ => .null

/-- A file's quad table holds some rows: its splits run through them, its statistics rule
out no row that passes a conjunct, an evaluated conjunct keeps just the rows that pass,
and its zone maps describe its code columns. -/
structure QuadFile.Reads {M : Type} [MaskOps M] (rows : List (ColumnName → Scalar))
    (file : QuadFile M) : Prop where
  rowCount : file.rowCount = rows.length
  small : rows.length ≤ usizeMax
  tiles : Tiles 0 file.splits rows.length
  prunes : ∀ (range : RowRange) conjunct (mask : M), range.Within rows.length →
    len mask = range.stop - range.start → ∃ pruned,
      file.pruningEvaluation range conjunct mask = some pruned ∧ len pruned = len mask ∧
      ∀ i < len mask, value mask i = true →
        conjunct.admits (cellsAt rows (range.start + i)) = true → value pruned i = true
  evaluates : ∀ (range : RowRange) conjunct (mask : M), range.Within rows.length →
    len mask = range.stop - range.start → ∃ found,
      file.filterEvaluation range conjunct mask = some found ∧ len found = len mask ∧
      ∀ i < len mask, value found i =
        (value mask i && conjunct.admits (cellsAt rows (range.start + i)))
  zoned : file.zones.Describe (fun name i => cellsAt rows i name) rows.length

/-! ### One split -/

section Orders

variable {M : Type} {file : QuadFile M} {filter : PushedFilter} {range : RowRange}

theorem priorOrder_perm : (priorOrder filter).Perm (List.range filter.conjuncts.length) := by
  rw [priorOrder]
  cases filter.eqs with
  | none => exact List.Perm.refl _
  | some eqs => exact List.mergeSort_perm _ _

theorem sequence_perm : (sequence file filter range).Perm (List.range filter.conjuncts.length) := by
  rw [sequence]
  split_ifs
  · exact priorOrder_perm
  · exact (List.mergeSort_perm _ _).trans priorOrder_perm

/-- The conjuncts in the order a split tests them. -/
theorem sequence_conjuncts : ∃ ordered,
    ((sequence file filter range).mapM fun i => filter.conjuncts[i]?) = some ordered ∧
      ordered.Perm filter.conjuncts := by
  have hperm := @sequence_perm M file filter range
  have hin : ∀ i ∈ sequence file filter range, filter.conjuncts[i]? =
      some (filter.conjuncts.getD i .litFalse) := by
    intro i hi
    have hlt := List.mem_range.mp (hperm.mem_iff.mp hi)
    rw [List.getD_eq_getElem?_getD, List.getElem?_eq_getElem hlt, Option.getD_some]
  refine ⟨(sequence file filter range).map fun i => filter.conjuncts.getD i .litFalse,
    mapM_some hin, (hperm.map _).trans ?_⟩
  refine List.Perm.of_eq (List.ext_getElem? fun i => ?_)
  by_cases hlt : i < filter.conjuncts.length
  · rw [List.getElem?_map, List.getElem?_range hlt, Option.map_some, List.getD_eq_getElem?_getD,
      List.getElem?_eq_getElem hlt, Option.getD_some]
  · rw [List.getElem?_eq_none (by rw [List.length_map, List.length_range]; omega),
      List.getElem?_eq_none (by omega)]

end Orders

section Splits

variable {M : Type} [MaskOps M] {file : QuadFile M}
  {rows : List (ColumnName → Scalar)} {filter : PushedFilter} {range : RowRange}
  {p : ℕ → Bool} {start : M}

/-- The conjuncts evaluated in turn keep the rows that pass each. -/
theorem evaluateMask_spec [LawfulMask M] (conjuncts : List Conjunct) (h : file.Reads rows) (hrange : range.Within rows.length)
    (hstart : MaskOf (range.stop - range.start) p start) : ∃ found,
      evaluateMask file range conjuncts start = some found ∧
      MaskOf (range.stop - range.start) (fun i => p i && conjuncts.all fun conjunct =>
        conjunct.admits (cellsAt rows (range.start + i))) found := by
  induction conjuncts generalizing p start with
  | nil => exact ⟨start, rfl, hstart.congr fun i _ => (Bool.and_true _).symm⟩
  | cons conjunct conjuncts ih =>
    rw [evaluateMask]
    split_ifs with hempty
    · refine ⟨start, rfl, hstart.congr fun i hi => ?_⟩
      rw [hstart.allFalse_iff.mp hempty i hi, Bool.false_and]
    · obtain ⟨found, hfound, hlen, hvalue⟩ := h.evaluates range conjunct start hrange hstart.len_eq
      have hmask : MaskOf (range.stop - range.start) (fun i =>
          p i && conjunct.admits (cellsAt rows (range.start + i))) found := by
        refine ⟨hlen.trans hstart.len_eq, fun i hi => ?_⟩
        rw [hvalue i (hstart.len_eq ▸ hi), hstart.value_eq i hi]
      obtain ⟨last, hlast, hof⟩ := ih hmask
      refine ⟨last, by rw [hfound, Option.bind_some, hlast], hof.congr fun i _ => ?_⟩
      rw [List.all_cons, Bool.and_assoc]

variable [MaskMeet M] [LawfulMeet M]

/-- The statistics drop no row that passes every conjunct. -/
theorem pruneMask_spec (conjuncts : List Conjunct) (h : file.Reads rows) (hrange : range.Within rows.length)
    (hstart : MaskOf (range.stop - range.start) p start) : ∃ q left,
      pruneMask file range conjuncts start = some left ∧
      MaskOf (range.stop - range.start) q left ∧ ∀ i < range.stop - range.start,
        (q i && conjuncts.all fun conjunct => conjunct.admits (cellsAt rows (range.start + i))) =
          (p i && conjuncts.all fun conjunct => conjunct.admits (cellsAt rows (range.start + i))) := by
  induction conjuncts generalizing p start with
  | nil => exact ⟨p, start, rfl, hstart, fun _ _ => rfl⟩
  | cons conjunct conjuncts ih =>
    rw [pruneMask]
    split_ifs with hempty
    · exact ⟨p, start, rfl, hstart, fun _ _ => rfl⟩
    · obtain ⟨pruned, hpruned, hlen, hkeeps⟩ := h.prunes range conjunct start hrange hstart.len_eq
      have hmask : MaskOf (range.stop - range.start) (value pruned) pruned :=
        ⟨hlen.trans hstart.len_eq, fun _ _ => rfl⟩
      obtain ⟨q, left, hleft, hq, hsame⟩ := ih (hstart.bitand hmask)
      refine ⟨q, left, by rw [hpruned, Option.bind_some, hleft], hq, fun i hi => ?_⟩
      have hi' : i < len start := hstart.len_eq ▸ hi
      have hstep := hsame i hi
      rw [List.all_cons]
      cases hadmits : conjunct.admits (cellsAt rows (range.start + i)) with
      | false => rw [Bool.false_and, Bool.and_false, Bool.and_false]
      | true =>
        rw [Bool.true_and, hstep]
        cases hp : p i with
        | false => rfl
        | true =>
          have hkept := hkeeps i hi' ((hstart.value_eq i hi).trans hp) hadmits
          rw [hkept, Bool.and_true]

variable [LawfulMask M]

/-- The rows of a split that pass every conjunct, whatever order they are tested in. -/
theorem evaluateConjuncts_spec (filter : PushedFilter) (h : file.Reads rows) (hrange : range.Within rows.length)
    (hstart : MaskOf (range.stop - range.start) p start) : ∃ found,
      evaluateConjuncts file filter range start = some found ∧
      MaskOf (range.stop - range.start) (fun i =>
        p i && filter.admits (cellsAt rows (range.start + i))) found := by
  obtain ⟨ordered, hordered, hperm⟩ := @sequence_conjuncts M file filter range
  obtain ⟨q, left, hleft, hq, hsame⟩ := pruneMask_spec ordered h hrange hstart
  obtain ⟨found, hfound, hof⟩ := evaluateMask_spec ordered h hrange hq
  refine ⟨found, by rw [evaluateConjuncts, hordered, Option.bind_some, hleft, Option.bind_some, hfound],
    hof.congr fun i hi => ?_⟩
  rw [hsame i hi, PushedFilter.admits, hperm.all_eq]

end Splits

/-! ### Zones taken whole -/

theorem mapM_parts {α β : Type*} {f : α → Option β} : ∀ {l : List α} {found : List β},
    l.mapM f = some found → List.Forall₂ (fun a b => f a = some b) l found
  | [], found, h => by
    obtain rfl : [] = found := Option.some.inj h
    exact .nil
  | a :: l, found, h => by
    rw [List.mapM_cons] at h
    obtain ⟨b, hb, h⟩ := Option.bind_eq_some_iff.mp h
    obtain ⟨rest, hrest, h⟩ := Option.bind_eq_some_iff.mp h
    obtain rfl : b :: rest = found := Option.some.inj h
    exact .cons hb (mapM_parts hrest)

/-- Some runs up to a row, one behind another, which hold the rows of a test. -/
structure SlicesOf (stop : ℕ) (c : ℕ → Bool) (slices : List (ℕ × ℕ)) : Prop where
  within : ∀ run ∈ slices, run.1 < run.2 ∧ run.2 ≤ stop
  apart : slices.Pairwise fun a b => a.2 ≤ b.1
  holds : ∀ i, (slices.any fun run => decide (run.1 ≤ i) && decide (i < run.2)) = c i

variable {slices : List (ℕ × ℕ)}

theorem SlicesOf.push {stop : ℕ} {c : ℕ → Bool} (h : SlicesOf stop c slices)
    {a b : ℕ} (hrun : a < b) (hstop : stop ≤ a) :
    SlicesOf b (fun i => c i || decide (a ≤ i) && decide (i < b)) (pushSlice slices (a, b)) := by
  have happend : SlicesOf b (fun i => c i || decide (a ≤ i) && decide (i < b))
      (slices ++ [(a, b)]) := by
    refine ⟨?_, ?_, fun i => ?_⟩
    · intro other hother
      rcases List.mem_append.mp hother with hother | hother
      · have := h.within other hother
        omega
      · obtain rfl := List.mem_singleton.mp hother
        exact ⟨hrun, le_rfl⟩
    · refine List.pairwise_append.mpr ⟨h.apart, List.pairwise_singleton _ _, fun a ha b hb => ?_⟩
      obtain rfl := List.mem_singleton.mp hb
      exact ((h.within a ha).2).trans hstop
    · rw [List.any_append, h.holds i, List.any_cons, List.any_nil, Bool.or_false]
  rw [pushSlice]
  rcases List.eq_nil_or_concat slices with rfl | ⟨before, last, rfl⟩
  · exact happend
  · rw [List.concat_eq_append, List.getLast?_append_of_ne_nil _ (List.cons_ne_nil last []),
      List.getLast?_singleton, List.dropLast_concat]
    rw [List.concat_eq_append] at h happend
    dsimp only
    split_ifs with hjoin
    · -- the last run and this one are side by side
      obtain ⟨hbefore, -, hlast⟩ := List.pairwise_append.mp h.apart
      have hend := h.within last (List.mem_append_right _ List.mem_cons_self)
      refine ⟨?_, ?_, fun i => ?_⟩
      · intro other hother
        rcases List.mem_append.mp hother with hother | hother
        · have := h.within other (List.mem_append_left _ hother)
          omega
        · obtain rfl := List.mem_singleton.mp hother
          exact ⟨hend.1.trans (hjoin ▸ hrun), le_rfl⟩
      · refine List.pairwise_append.mpr ⟨hbefore, List.pairwise_singleton _ _, fun a ha b hb => ?_⟩
        obtain rfl := List.mem_singleton.mp hb
        exact hlast a ha last List.mem_cons_self
      · have hold := h.holds i
        rw [List.any_append, List.any_cons, List.any_nil, Bool.or_false] at hold ⊢
        rw [← hold, Bool.or_assoc]
        refine congrArg (_ || ·) ?_
        rw [Bool.eq_iff_iff]
        simp only [Bool.or_eq_true, Bool.and_eq_true, decide_eq_true_eq]
        omega
    · exact happend

theorem SlicesOf.widen {stop stop' : ℕ} {c : ℕ → Bool}
    (h : SlicesOf stop c slices) (hle : stop ≤ stop') : SlicesOf stop' c slices :=
  ⟨fun run hrun => ⟨(h.within run hrun).1, (h.within run hrun).2.trans hle⟩, h.apart, h.holds⟩

theorem SlicesOf.congr {stop : ℕ} {c c' : ℕ → Bool}
    (h : SlicesOf stop c slices) (heq : ∀ i, c i = c' i) : SlicesOf stop c' slices :=
  ⟨h.within, h.apart, fun i => (h.holds i).trans (heq i)⟩

/-- A part of a range holds a row of it. -/
theorem parts_hold_row {set : ZoneSet} {r : RowRange} (hr : r.Within set.rowCount) :
    ∀ part ∈ set.parts r, part.rows.start < part.rows.stop := by
  intro part hpart
  have hlen : 0 < set.zoneLen := set.first.zones.zoned
  have hstop : min r.stop set.rowCount = r.stop := min_eq_left hr.inBase
  rw [ZoneSet.parts] at hpart
  dsimp only at hpart
  rw [hstop] at hpart
  split_ifs at hpart with hempty
  · cases hpart
  · obtain ⟨zone, hzone, rfl⟩ := List.mem_map.mp hpart
    obtain ⟨hlo, hhi⟩ := List.mem_range'_1.mp hzone
    have hwhole : set.zoneRows zone = ⟨zone * set.zoneLen, min ((zone + 1) * set.zoneLen) set.rowCount⟩ := rfl
    have hfirst : r.start < (zone + 1) * set.zoneLen := by
      have := Nat.lt_mul_div_succ r.start hlen
      have hmul : set.zoneLen * (r.start / set.zoneLen + 1) ≤ (zone + 1) * set.zoneLen := by
        rw [Nat.mul_comm]
        exact Nat.mul_le_mul_right _ (by omega)
      omega
    have hlast : zone * set.zoneLen ≤ r.stop - 1 := by
      refine le_trans (Nat.mul_le_mul_right _ ?_) (Nat.div_mul_le_self (r.stop - 1) set.zoneLen)
      omega
    have hnext : (zone + 1) * set.zoneLen = zone * set.zoneLen + set.zoneLen := Nat.succ_mul _ _
    have hin := hr.inBase
    rw [hwhole]
    dsimp only
    omega

/-- Whether a row lies in a part of some that are taken whole. -/
def inWhole (set : ZoneSet) (parts : List ZonePart) (row : ℕ) : Bool :=
  parts.any fun part => set.classOf part.zone == .all && part.rows.contains row

theorem foldl_slices (set : ZoneSet) {first : ℕ} {parts : List ZonePart} {start stop : ℕ}
    (hfirst : first ≤ start) (htiles : Tiles start (parts.map ZonePart.rows) stop)
    (hrows : ∀ part ∈ parts, part.rows.start < part.rows.stop) {c : ℕ → Bool}
    (h : SlicesOf (start - first) c slices) :
    SlicesOf (stop - first) (fun i => c i || inWhole set parts (first + i))
      ((parts.filter fun part => set.classOf part.zone == .all).foldl
        (fun slices part => pushSlice slices (part.rows.start - first, part.rows.stop - first)) slices) := by
  induction parts generalizing start c slices with
  | nil =>
    obtain rfl : start = stop := htiles
    exact h.congr fun i => (Bool.or_false _).symm
  | cons part parts ih =>
    obtain ⟨hstart, hle, hrest⟩ := htiles
    obtain ⟨hpart, hlater⟩ := List.forall_mem_cons.mp hrows
    rw [List.filter_cons]
    split_ifs with hclass
    · rw [List.foldl_cons]
      have hrun : part.rows.start - first < part.rows.stop - first := by omega
      have hpush := h.push hrun (by rw [hstart])
      refine (ih (by omega) hrest hlater hpush).congr fun i => ?_
      rw [inWhole, inWhole, List.any_cons, hclass, Bool.true_and, Bool.or_assoc]
      refine congrArg (_ || ·) (congrArg (· || _) ?_)
      rw [RowRange.contains, Bool.eq_iff_iff]
      simp only [Bool.and_eq_true, decide_eq_true_eq]
      omega
    · refine (ih (by omega) hrest hlater (h.widen (by omega))).congr fun i => ?_
      rw [inWhole, inWhole, List.any_cons, Bool.eq_false_iff.mpr hclass, Bool.false_and, Bool.false_or]

theorem forall₂_exists_left {α β : Type*} {R : α → β → Prop} {l : List α} {l' : List β}
    (h : List.Forall₂ R l l') : ∀ a ∈ l, ∃ b ∈ l', R a b := by
  induction h with
  | nil => exact fun a ha => absurd ha List.not_mem_nil
  | cons hab _ ih =>
    refine List.forall_mem_cons.mpr ⟨⟨_, List.mem_cons_self, hab⟩, fun a ha => ?_⟩
    obtain ⟨b, hb, hr⟩ := ih a ha
    exact ⟨b, List.mem_cons_of_mem _ hb, hr⟩

theorem forall₂_exists_right {α β : Type*} {R : α → β → Prop} {l : List α} {l' : List β}
    (h : List.Forall₂ R l l') : ∀ b ∈ l', ∃ a ∈ l, R a b :=
  forall₂_exists_left h.flip

/-- A conjunct a zone is taken whole for passes where its slot holds its code. -/
theorem admits_of_code {conjunct : Conjunct} {eq : ColumnName × TermCode} {slot : QuadColumn}
    (heq : conjunct.codeEq = some eq) (hslot : primarySlot eq.1 = some slot)
    {row : ColumnName → Scalar} (hrow : row slot.name = .num eq.2) : conjunct.admits row = true := by
  cases conjunct with
  | litFalse => cases heq
  | test passes => cases heq
  | eq eq' =>
    obtain ⟨name, value⟩ := eq'
    cases value with
    | num code =>
      obtain rfl : (name, code) = eq := Option.some.inj heq
      have hname : slot.name = name := primarySlot_name hslot
      rw [Conjunct.admits, ← hname, hrow]
      simp
    | str _ => cases heq
    | null => cases heq

section Whole

variable {M : Type} [MaskOps M] {file : QuadFile M} {rows : List (ColumnName → Scalar)}
  {filter : PushedFilter} {range : RowRange} {p : ℕ → Bool} {start : M}

/-- Every row of a zone taken whole passes the filter. -/
theorem everyRow_spec (h : file.Reads rows) {set : ZoneSet}
    (hset : (everyRowStep file filter).bind (everyRowSet file) = some set) :
    set.rowCount = rows.length ∧ ∀ zone, set.classOf zone = .all → ∀ i ∈ (set.zoneRows zone).rows,
      filter.admits (cellsAt rows i) = true := by
  obtain ⟨columns, hcolumns, hset⟩ := Option.bind_eq_some_iff.mp hset
  -- each conjunct is an equality of a slot with a code
  have hparts : ∀ conjunct ∈ filter.conjuncts, ∃ eq slot, conjunct.codeEq = some eq ∧
      primarySlot eq.1 = some slot ∧ (slot, eq.2) ∈ columns := by
    rw [everyRowStep] at hcolumns
    split_ifs at hcolumns
    cases hslots : filter.eqs.bind fun eqs => eqs.mapM fun eq =>
        (primarySlot eq.1).map fun slot => (slot, eq.2) with
    | none => rw [hslots] at hcolumns; cases hcolumns
    | some slots =>
      rw [hslots] at hcolumns
      dsimp only at hcolumns
      split_ifs at hcolumns
      obtain rfl := Option.some.inj hcolumns
      obtain ⟨eqs, heqs, hslots⟩ := Option.bind_eq_some_iff.mp hslots
      intro conjunct hconjunct
      obtain ⟨eq, heq, hcode⟩ := forall₂_exists_left (mapM_parts heqs) conjunct hconjunct
      obtain ⟨column, hcolumn, hslot⟩ := forall₂_exists_left (mapM_parts hslots) eq heq
      obtain ⟨slot, hname, rfl⟩ := Option.map_eq_some_iff.mp hslot
      exact ⟨eq, slot, hcode, hname, hcolumn⟩
  rw [everyRowSet] at hset
  cases hchecks : columns.zipIdx.mapM fun column =>
      (file.zones column.1.1).map fun zones => (⟨column.2, column.1.2, zones⟩ : ZoneCheck) with
  | none => rw [hchecks] at hset; cases hset
  | some checks =>
    rw [hchecks] at hset
    dsimp only at hset
    have hall := mapM_parts hchecks
    -- each check is of a slot's zones, and speaks for one of the columns
    have hmade : ∀ check ∈ checks, ∃ slot, file.zones slot = some check.zones := by
      intro check hcheck
      obtain ⟨column, -, hcolumn⟩ := forall₂_exists_right hall check hcheck
      obtain ⟨zones, hzones, rfl⟩ := Option.map_eq_some_iff.mp hcolumn
      exact ⟨column.1.1, hzones⟩
    have hspoken : ∀ column ∈ columns, ∃ check ∈ checks, file.zones column.1 = some check.zones ∧
        check.code = column.2 := by
      intro column hcolumn
      obtain ⟨k, hk⟩ := List.getElem?_of_mem hcolumn
      obtain ⟨check, hcheck, hof⟩ := forall₂_exists_left hall (column, k)
        (List.mk_mem_zipIdx_iff_getElem?.mpr hk)
      obtain ⟨zones, hzones, rfl⟩ := Option.map_eq_some_iff.mp hof
      exact ⟨_, hcheck, hzones, rfl⟩
    have hnew : set.checks = checks ∧ set.unzoned = 0 ∧ set.boundsOnly = false := by
      cases checks with
      | nil => cases hset
      | cons first rest =>
        rw [ZoneSet.new] at hset
        split_ifs at hset
        obtain rfl := Option.some.inj hset
        exact ⟨rfl, rfl, rfl⟩
    obtain ⟨hsame, hzero, hbounds⟩ := hnew
    refine ⟨?_, fun zone hclass i hi => ?_⟩
    · obtain ⟨slot, hslot⟩ := hmade set.first (hsame ▸ List.mem_cons_self)
      obtain ⟨column, -, hdescribes⟩ := h.zoned slot _ hslot
      exact hdescribes.rowCount
    · rw [ZoneSet.classOf, hbounds, if_neg Bool.false_ne_true, hsame] at hclass
      have hloop := @classLoop_spec zone checks set.unzoned
      rw [hclass] at hloop
      rw [PushedFilter.admits, List.all_eq_true]
      intro conjunct hconjunct
      obtain ⟨eq, slot, heq, hslot, hcolumn⟩ := hparts conjunct hconjunct
      obtain ⟨check, hcheck, hzones, hcode⟩ := hspoken _ hcolumn
      obtain ⟨column, hcell, hdescribes⟩ := h.zoned slot _ hzones
      have hzone : i ∈ (check.zones.zoneRows zone).rows := by
        rwa [zoneRows_check (hsame ▸ hcheck)]
      have hlt : i < rows.length := by
        have hmem := RowRange.mem_rows.mp hzone
        have hstop : (check.zones.zoneRows zone).stop ≤ check.zones.rowCount := min_le_right _ _
        have hcount := hdescribes.rowCount
        omega
      have hheld := eqHolds_sound hdescribes (hloop.2 check hcheck) hzone
      refine admits_of_code heq hslot ((hcell i hlt).trans (congrArg Scalar.num ?_))
      exact (of_decide_eq_true hheld.symm).trans hcode

variable [LawfulMask M] [MaskMeet M] [LawfulMeet M]

/-- The rows of a split taken whole pass the filter; the rest is left to be evaluated. -/
theorem everyRowZones_spec (filter : PushedFilter) (h : file.Reads rows) (hrange : range.Within rows.length)
    (hstart : MaskOf (range.stop - range.start) p start) : ∃ q : ℕ → Bool,
      (∀ i < range.stop - range.start, q i = true →
        filter.admits (cellsAt rows (range.start + i)) = true) ∧
      MaskOf (range.stop - range.start) (fun i => p i && !q i)
        (everyRowZones file filter range start).2 ∧
      match (everyRowZones file filter range start).1 with
      | some all => MaskOf (range.stop - range.start) (fun i => p i && q i) all
      | none => ∀ i < range.stop - range.start, q i = false := by
  -- a split with nothing taken whole is evaluated as it starts
  have hnone : (∀ i < range.stop - range.start, (fun _ => false) i = true →
        filter.admits (cellsAt rows (range.start + i)) = true) ∧
      MaskOf (range.stop - range.start) (fun i => p i && !(fun _ => false) i) start ∧
      ∀ i < range.stop - range.start, (fun _ : ℕ => false) i = false :=
    ⟨fun _ _ hfalse => absurd hfalse Bool.false_ne_true,
      hstart.congr fun i _ => (Bool.and_true _).symm, fun _ _ => rfl⟩
  rw [everyRowZones]
  cases hset : (everyRowStep file filter).bind (everyRowSet file) with
  | none => exact ⟨fun _ => false, hnone⟩
  | some set =>
    dsimp only
    split_ifs with hempty hslices hall
    · exact ⟨fun _ => false, hnone⟩
    · exact ⟨fun _ => false, hnone⟩
    · exact ⟨fun _ => false, hnone⟩
    · obtain ⟨hcount, hpass⟩ := everyRow_spec h hset
      have hwithin : range.Within set.rowCount := hcount ▸ hrange
      obtain ⟨htiles, hzones⟩ := parts_tile set hwithin
      have hnil : SlicesOf (range.start - range.start) (fun _ => false) [] :=
        ⟨fun run hrun => absurd hrun List.not_mem_nil, List.Pairwise.nil, fun _ => rfl⟩
      have hof := foldl_slices set (le_refl range.start) htiles (parts_hold_row hwithin) hnil
      have hmask : MaskOf (range.stop - range.start) (fun i => inWhole set (set.parts range) (range.start + i))
          (fromSlices (len start) ((((set.parts range).filter fun part =>
            set.classOf part.zone == .all).foldl (fun slices part => pushSlice slices
              (part.rows.start - range.start, part.rows.stop - range.start)) [])) : M) := by
        rw [hstart.len_eq]
        refine ⟨LawfulMask.len_fromSlices _ _, fun i hi => ?_⟩
        rw [LawfulMask.value_fromSlices _ _ i hof.within hof.apart hi, hof.holds i, Bool.false_or]
      refine ⟨fun i => inWhole set (set.parts range) (range.start + i), fun i hi hwhole => ?_, ?_, ?_⟩
      · obtain ⟨part, hpart, hin⟩ := List.any_eq_true.mp hwhole
        obtain ⟨hclass, hrow⟩ := Bool.and_eq_true_iff.mp hin
        exact hpass part.zone (beq_iff_eq.mp hclass) _
          (hzones part hpart (RowRange.contains_iff.mp hrow))
      · refine (hstart.bitand (hstart.bitand hmask).not).congr fun i _ => ?_
        cases p i <;> simp
      · exact hstart.bitand hmask

variable [MaskUnion M] [LawfulUnion M]

/-- A split's mask keeps the rows that pass, of those it started with. -/
theorem evaluateFilterSplit_spec (filter : PushedFilter) (h : file.Reads rows) (hrange : range.Within rows.length)
    (hstart : MaskOf (range.stop - range.start) p start) : ∃ found,
      evaluateFilterSplit file filter range start = some found ∧
      MaskOf (range.stop - range.start) (fun i =>
        p i && filter.admits (cellsAt rows (range.start + i))) found := by
  obtain ⟨q, hadmits, hrest, hall⟩ := everyRowZones_spec filter h hrange hstart
  obtain ⟨found, hfound, hof⟩ := evaluateConjuncts_spec filter h hrange hrest
  rw [evaluateFilterSplit, hfound, Option.map_some]
  cases hzones : (everyRowZones file filter range start).1 with
  | none =>
    rw [hzones] at hall
    refine ⟨found, rfl, hof.congr fun i hi => ?_⟩
    rw [hall i hi, Bool.not_false, Bool.and_true]
  | some all =>
    rw [hzones] at hall
    refine ⟨_, rfl, (hof.union hall).congr fun i hi => ?_⟩
    have hpass := hadmits i hi
    cases hq : q i with
    | false => rw [Bool.not_false, Bool.and_true, Bool.and_false, Bool.or_false]
    | true => rw [hpass hq, Bool.not_true, Bool.and_false, Bool.false_and, Bool.false_or]

end Whole

/-! ### The rows of a selection that pass -/

section Pieces

variable {M : Type} [MaskOps M] [LawfulMask M] [MaskMeet M] [LawfulMeet M] {deleted : Option M}
  {n : ℕ} {ids : Option (List RowId)} {range : RowRange}

/-- A split starts from the selected rows that are live. -/
theorem splitStartMask_spec (hids : ∀ l ∈ ids, IdsWithin n l) (hrange : range.Within n)
    (hdeleted : ∀ d ∈ deleted, len d = n) :
    MaskOf (range.stop - range.start) (fun i => (ids.all fun l => decide (range.start + i ∈ l)) &&
      live deleted (range.start + i)) (splitStartMask ids deleted range) := by
  have hmask : MaskOf (range.stop - range.start)
      (fun i => ids.all fun l => decide (range.start + i ∈ l))
      (selectedMask ids range : M) := by
    cases ids with
    | none => exact maskOf_newTrue _
    | some l =>
      have hl := (hids l rfl).ascending
      have hpairs : ((l.filter range.contains).map (· - range.start)).SortedLT := by
        refine (List.pairwise_map.mpr ?_).sortedLT
        refine (hl.pairwise.sublist List.filter_sublist).imp_of_mem fun ha _ hab => ?_
        exact Nat.sub_lt_sub_right
          (RowRange.mem_rows.mp (RowRange.contains_iff.mp (List.mem_filter.mp ha).2)).1 hab
      refine (maskOf_fromIndices hpairs fun k hk => ?_).congr fun i hi => ?_
      · obtain ⟨row, hrow, rfl⟩ := List.mem_map.mp hk
        have := RowRange.mem_rows.mp (RowRange.contains_iff.mp (List.mem_filter.mp hrow).2)
        omega
      · rw [Option.all_some, Bool.eq_iff_iff, decide_eq_true_iff, decide_eq_true_iff, List.mem_map]
        constructor
        · rintro ⟨row, hrow, rfl⟩
          have hin := RowRange.mem_rows.mp (RowRange.contains_iff.mp (List.mem_filter.mp hrow).2)
          rw [Nat.add_sub_cancel' hin.1]
          exact (List.mem_filter.mp hrow).1
        · intro hmem
          refine ⟨range.start + i, List.mem_filter.mpr ⟨hmem, RowRange.contains_iff.mpr
            (RowRange.mem_rows.mpr ⟨?_, ?_⟩)⟩, ?_⟩
          · exact Nat.le_add_right _ _
          · omega
          · exact Nat.add_sub_cancel_left _ _
  unfold splitStartMask
  cases deleted with
  | none => exact hmask.congr fun i _ => (Bool.and_true _).symm
  | some d =>
    have hd : MaskOf n (value d) d := ⟨hdeleted d rfl, fun _ _ => rfl⟩
    exact hmask.bitand (hd.slice hrange.ordered hrange.inBase).not

end Pieces

end Store
