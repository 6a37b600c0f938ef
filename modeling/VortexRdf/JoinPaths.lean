/-
Every path of the join is the nested loop.

* `capped`, `columnsOf` — a count against a cap, and pairs as two index columns;
* `Indexes.join_eq`, `Indexes.matchCount_eq`, `gather_spec` — a probe of any index;
* `runPairsLoop_spec`, `mergeJoin_eq`, `mergeJoinLen_eq` — the merge;
* `NestedLoop` — what each way to join two columns gives;
* `joins_are_nestedLoop` — all of them do.
-/
import VortexRdf.AscendingLists
import VortexRdf.JoinGroups

namespace Columns

open Ascending EquiJoins Store

/-! ### Counts and caps -/

/-- A result, refused with the count when that exceeds the cap. -/
def capped {α : Type} (pairs : ℕ) (maxPairs : Option ℕ) (out : α) : Except ℕ α :=
  if ∃ max ∈ maxPairs, max < pairs then .error pairs else .ok out

/-- Pairs as two index columns. -/
def columnsOf (pairs : List (ℕ × ℕ)) : List ℕ × List ℕ := (pairs.map Prod.fst, pairs.map Prod.snd)

theorem withinCap_bind {α : Type} (pairs : ℕ) (maxPairs : Option ℕ) (out : α) :
    (do withinCap pairs maxPairs; return out) = capped pairs maxPairs out := by
  cases maxPairs with
  | none => simp [withinCap, capped]
  | some max => by_cases h : max < pairs <;> simp [withinCap, capped, h]

theorem foldl_saturatingAdd (counts : List ℕ) : ∀ {total : ℕ}, total ≤ usizeMax →
    counts.foldl saturatingAdd total = min (total + counts.sum) usizeMax := by
  induction counts with
  | nil =>
    intro total h
    simpa using h
  | cons c counts ih =>
    intro total h
    rw [List.foldl_cons, ih (show saturatingAdd total c ≤ usizeMax from Nat.min_le_right _ _),
      saturatingAdd, List.sum_cons]
    omega

/-! ### A probe of an index -/

section Index

variable {index : RightIndex} {left right : List TermCode}

theorem Indexes.matchCount_eq (h : Indexes index right) :
    index.matchCount left = min (joinPairs 0 left right).length usizeMax := by
  have hcounts : (left.map fun code => index.groups.count (index.slots.slot code)) =
      left.map fun code => right.count code := List.map_congr_left fun code _ => h.count code
  rw [RightIndex.matchCount]
  simp only [hcounts, h.length]
  by_cases hproduct : left.length * right.length ≤ usizeMax
  · have hle := (length_joinPairs_le 0 left right).trans hproduct
    rw [if_pos hproduct, ← length_joinPairs 0, Nat.min_eq_left hle]
    exact Nat.mod_eq_of_lt (Nat.lt_succ_of_le hle)
  · rw [if_neg hproduct, foldl_saturatingAdd _ (Nat.zero_le _), Nat.zero_add, ← length_joinPairs 0]

theorem Indexes.join_eq (h : Indexes index right) (maxPairs : Option ℕ) :
    index.join left maxPairs = capped (min (joinPairs 0 left right).length usizeMax) maxPairs
      (columnsOf (joinPairs 0 left right)) := by
  have hfold : ∀ (left : List TermCode) (start : ℕ) (outL outR : List ℕ),
      (left.zipIdx start).foldl
        (fun out place =>
          let rows := index.rowsFor place.1
          if rows.isEmpty then (out.1, out.2)
          else (out.1 ++ List.replicate rows.length place.2, out.2 ++ rows)) (outL, outR) =
        (outL ++ (joinPairs start left right).map Prod.fst,
          outR ++ (joinPairs start left right).map Prod.snd) := by
    intro left
    induction left with
    | nil => simp
    | cons code left ih =>
      intro start outL outR
      have hrow : (let rows := index.rowsFor code
          if rows.isEmpty then (outL, outR)
          else (outL ++ List.replicate rows.length start, outR ++ rows)) =
          (outL ++ ((positions right code).map fun j => (start, j)).map Prod.fst,
            outR ++ ((positions right code).map fun j => (start, j)).map Prod.snd) := by
        rw [h.rows code, List.map_map, List.map_map]
        by_cases hempty : (positions right code).isEmpty = true
        · rw [List.isEmpty_iff] at hempty
          simp [hempty]
        · simp [hempty, Function.comp_def, List.map_const']
      rw [List.zipIdx_cons, List.foldl_cons]
      refine (congrArg (fun out => List.foldl _ out _) hrow).trans ((ih (start + 1) _ _).trans ?_)
      rw [joinPairs_cons, List.map_append, List.map_append, List.append_assoc, List.append_assoc]
  have hjoin : index.join left maxPairs = withinCap (index.matchCount left) maxPairs >>= fun _ =>
      pure (left.zipIdx.foldl (fun out place =>
        let rows := index.rowsFor place.1
        if rows.isEmpty then (out.1, out.2)
        else (out.1 ++ List.replicate rows.length place.2, out.2 ++ rows)) ([], [])) := rfl
  rw [hjoin, h.matchCount_eq, hfold left 0 [] []]
  exact withinCap_bind ..

theorem Indexes.gatherLeft_eq (h : Indexes index right) {column : List TermCode}
    (hlen : column.length = left.length) : index.gatherLeft left column =
      (joinPairs 0 left right).map fun p => column.getD p.1 0 := by
  have hfold : ∀ (left column' : List TermCode) (start : ℕ) (out : List TermCode),
      column'.length = left.length → column.drop start = column' →
      (left.zip column').foldl (fun out pair =>
        out ++ List.replicate (index.groups.count (index.slots.slot pair.1)) pair.2) out =
        out ++ (joinPairs start left right).map fun p => column.getD p.1 0 := by
    intro left
    induction left with
    | nil =>
      intro column' start out _ _
      simp
    | cons code left ih =>
      intro column' start out hlen' hdrop
      cases column' with
      | nil => cases hlen'
      | cons value column' =>
        have hvalue : column.getD start 0 = value := by
          rw [List.getD_eq_getElem?_getD, ← List.head?_drop, hdrop]
          rfl
        have hnext : column.drop (start + 1) = column' := by
          rw [← List.tail_drop, hdrop]
          rfl
        rw [List.zip_cons_cons, List.foldl_cons]
        refine (ih column' (start + 1) _ (Nat.succ.inj hlen') hnext).trans ?_
        simp only [joinPairs_cons, List.map_append, List.map_map, ← List.append_assoc, h.count code,
          ← length_positions, Function.comp_def, hvalue, List.map_const']
  exact (hfold left column 0 [] hlen rfl).trans (List.nil_append _)

theorem Indexes.gatherRight_eq (h : Indexes index right) (column : List TermCode) :
    index.gatherRight left column = (joinPairs 0 left right).map fun p => column.getD p.2 0 := by
  have hfold : ∀ (left : List TermCode) (start : ℕ) (out : List TermCode),
      left.foldl (fun out code => out ++ (index.rowsFor code).map fun r => column.getD r 0) out =
        out ++ (joinPairs start left right).map fun p => column.getD p.2 0 := by
    intro left
    induction left with
    | nil => simp
    | cons code left ih =>
      intro start out
      rw [List.foldl_cons, ih (start + 1), joinPairs_cons, List.map_append, List.map_map,
        ← List.append_assoc, h.rows code]
      rfl
  rw [RightIndex.gatherRight, hfold left 0 [], List.nil_append]

end Index

/-! ### The merge of two ascending columns -/

/-- The codes ascend. -/
def Ascends (codes : List TermCode) : Prop :=
  ∀ (i j : ℕ) a b, i ≤ j → codes[i]? = some a → codes[j]? = some b → a.toNat ≤ b.toNat

theorem isSorted_ascends : ∀ {codes : List TermCode}, isSorted codes = true → Ascends codes
  | [], _ => fun i j a b _ ha _ => by simp at ha
  | [c], _ => fun i j a b hij ha hb => by
    obtain ⟨hi, rfl⟩ := List.getElem?_eq_some_iff.mp ha
    obtain ⟨hj, rfl⟩ := List.getElem?_eq_some_iff.mp hb
    simp
  | a :: b :: rest, h => by
    rw [isSorted, Bool.and_eq_true, decide_eq_true_eq, UInt64.le_iff_toNat_le] at h
    have htail := isSorted_ascends h.2
    intro i j x y hij hx hy
    cases i with
    | zero =>
      obtain rfl : a = x := Option.some.inj hx
      cases j with
      | zero =>
        obtain rfl : a = y := Option.some.inj hy
        exact le_rfl
      | succ j => exact h.1.trans (htail 0 j b y (Nat.zero_le j) rfl hy)
    | succ i =>
      cases j with
      | zero => omega
      | succ j => exact htail i j x y (by omega) hx hy

/-- The run of a code: its rows from where it starts, and greater codes past it. -/
theorem runEnd_spec {codes : List TermCode} (h : Ascends codes) {i : ℕ} {code : TermCode}
    (hi : codes[i]? = some code) : i < runEnd codes i code ∧
      (∀ x, i ≤ x → x < runEnd codes i code → codes[x]? = some code) ∧
      ∀ x b, runEnd codes i code ≤ x → codes[x]? = some b → code.toNat < b.toNat := by
  have hend : runEnd codes i code = i + partitionPoint (· == code) (codes.drop i) := rfl
  have hrun : ∀ x, i ≤ x → x < runEnd codes i code → codes[x]? = some code := by
    intro x hix hx
    obtain ⟨a, ha, heq⟩ := @holds_before_partitionPoint _ (· == code) (codes.drop i) (x - i) (by omega)
    rw [List.getElem?_drop, Nat.add_sub_cancel' hix] at ha
    rw [ha, beq_iff_eq.mp heq]
  have hpos : i < runEnd codes i code := by
    by_contra hnot
    have hfirst : (codes.drop i)[partitionPoint (· == code) (codes.drop i)]? = some code := by
      rw [List.getElem?_drop, ← hend, show runEnd codes i code = i by omega, hi]
    simpa using fails_at_partitionPoint hfirst
  refine ⟨hpos, hrun, fun x b hx hb => ?_⟩
  -- the first row past the run has another code, so a greater one
  obtain ⟨c, hc⟩ : ∃ c, codes[runEnd codes i code]? = some c :=
    ⟨_, List.getElem?_eq_getElem (hx.trans_lt (List.getElem?_eq_some_iff.mp hb).1)⟩
  have hne : (c == code) = false := by
    refine @fails_at_partitionPoint _ (· == code) (codes.drop i) c ?_
    rw [List.getElem?_drop, ← hend, hc]
  have hle := h i _ code c hpos.le hi hc
  have hlast := h _ x c b hx hc hb
  have hneq : code.toNat ≠ c.toNat := fun heq => by
    rw [UInt64.toNat_inj] at heq
    simp [heq] at hne
  omega

/-- The pairs of two runs. -/
def runPairs (runs : (ℕ × ℕ) × (ℕ × ℕ)) : List (ℕ × ℕ) :=
  (List.range' runs.1.1 (runs.1.2 - runs.1.1)).flatMap fun i =>
    (List.range' runs.2.1 (runs.2.2 - runs.2.1)).map fun j => (i, j)

theorem joinPairs_of_no_match {start : ℕ} : ∀ {left right : List TermCode},
    (∀ a ∈ left, ∀ j : ℕ, right[j]? ≠ some a) → joinPairs start left right = []
  | [], _, _ => rfl
  | a :: left, right, h => by
    rw [joinPairs_cons_of_no_match (h a List.mem_cons_self)]
    exact joinPairs_of_no_match fun a' ha' => h a' (List.mem_cons_of_mem a ha')

/-- The rows past a run are what is left of the column behind it. -/
theorem drop_eq_run {codes : List TermCode} {i stop : ℕ} {code : TermCode} (hle : i ≤ stop)
    (h : ∀ x, i ≤ x → x < stop → codes[x]? = some code) :
    codes.drop i = List.replicate (stop - i) code ++ codes.drop stop := by
  refine List.ext_getElem? fun x => ?_
  rw [List.getElem?_drop, List.getElem?_append, List.length_replicate]
  by_cases hx : x < stop - i
  · rw [if_pos hx, List.getElem?_replicate_of_lt hx, h (i + x) (by omega) (by omega)]
  · rw [if_neg hx, List.getElem?_drop]
    congr 1
    omega

variable {left right : List TermCode}

/-- The runs from rows `i` and `j` on, where every right row before `j` is less than
every left row from `i` on, hold the pairs of the left rows from `i` on. -/
theorem runPairsLoop_spec (hleft : Ascends left)
    (hright : Ascends right) : ∀ (fuel i j : ℕ), (left.length - i) + (right.length - j) ≤ fuel →
    (∀ (x y : ℕ) a b, i ≤ x → left[x]? = some a → y < j → right[y]? = some b → b.toNat < a.toNat) →
    (runPairsLoop left right fuel i j).flatMap runPairs = joinPairs i (left.drop i) right
  | fuel, i, j, hfuel, hpast => by
    cases hi : left[i]? with
    | none =>
      rw [List.drop_eq_nil_of_le (List.getElem?_eq_none_iff.mp hi), joinPairs_nil]
      cases fuel with
      | zero => rfl
      | succ fuel => simp [runPairsLoop, hi]
    | some a =>
      have hilt := (List.getElem?_eq_some_iff.mp hi).1
      have hdrop : left.drop i = a :: left.drop (i + 1) := by
        rw [List.drop_eq_getElem_cons hilt, (List.getElem?_eq_some_iff.mp hi).2]
      cases hj : right[j]? with
      | none =>
        -- every right row is behind, so nothing matches
        have hnone : joinPairs i (left.drop i) right = [] := by
          refine joinPairs_of_no_match fun c hc y hy => ?_
          obtain ⟨x, hx⟩ := List.mem_iff_getElem?.mp hc
          rw [List.getElem?_drop] at hx
          have hylt := (List.getElem?_eq_some_iff.mp hy).1
          have hjge := List.getElem?_eq_none_iff.mp hj
          exact (hpast (i + x) y c c (by omega) hx (by omega) hy).false
        rw [hnone]
        cases fuel with
        | zero => rfl
        | succ fuel => simp [runPairsLoop, hi, hj]
      | some b =>
        have hjlt := (List.getElem?_eq_some_iff.mp hj).1
        cases fuel with
        | zero => omega
        | succ fuel =>
          rw [runPairsLoop, hi, hj]
          simp only
          by_cases hab : a < b
          · -- a left row below the right one matches nothing
            have hlt := UInt64.lt_iff_toNat_lt.mp hab
            have hnone : ∀ y : ℕ, right[y]? ≠ some a := by
              intro y hy
              rcases Nat.lt_or_ge y j with hyj | hyj
              · exact (hpast i y a a le_rfl hi hyj hy).false
              · have := hright j y b a hyj hj hy
                omega
            rw [if_pos hab, runPairsLoop_spec hleft hright fuel (i + 1) j (by omega)
              fun x y c d hx => hpast x y c d (by omega), hdrop, joinPairs_cons_of_no_match hnone]
          · rw [if_neg hab]
            by_cases hba : b < a
            · have hlt := UInt64.lt_iff_toNat_lt.mp hba
              rw [if_pos hba]
              refine runPairsLoop_spec hleft hright fuel i (j + 1) (by omega) ?_
              intro x y c d hx hc hy hd
              have hac := hleft i x a c hx hi hc
              rcases Nat.lt_or_ge y j with hyj | hyj
              · exact hpast x y c d hx hc hyj hd
              · obtain rfl : y = j := by omega
                rw [hj, Option.some.injEq] at hd
                subst hd
                omega
            · obtain rfl : a = b := by
                rw [UInt64.lt_iff_toNat_lt] at hab hba
                rw [← UInt64.toNat_inj]
                omega
              obtain ⟨hl, hlrun, hlpast⟩ := runEnd_spec hleft hi
              obtain ⟨hr, hrrun, hrpast⟩ := runEnd_spec hright hj
              have hpositions : positions right a =
                  List.range' j (runEnd right j a - j) := by
                refine (positions_eq_iff (List.sortedLT_range' _ _ one_ne_zero)).mpr fun y => ?_
                rw [List.mem_range'_1]
                constructor
                · intro hy
                  have hge : j ≤ y := by
                    by_contra hlt
                    exact (hpast i y a a le_rfl hi (by omega) hy).false
                  refine ⟨hge, ?_⟩
                  by_contra hnot
                  exact (hrpast y a (by omega) hy).false
                · rintro ⟨hge, hlt⟩
                  exact hrrun y hge (by omega)
              have hrest : ∀ (x y : ℕ) c d, runEnd left i a ≤ x → left[x]? = some c →
                  y < runEnd right j a → right[y]? = some d → d.toNat < c.toNat := by
                intro x y c d hx hc hy hd
                have hac := hlpast x c hx hc
                rcases Nat.lt_or_ge y j with hyj | hyj
                · exact hpast x y c d (by omega) hc hyj hd
                · rw [hrrun y hyj hy, Option.some.injEq] at hd
                  rw [← hd]
                  exact hac
              rw [if_neg hba, List.flatMap_cons, runPairsLoop_spec hleft hright fuel _ _ (by omega) hrest,
                drop_eq_run hl.le hlrun, joinPairs_append, joinPairs_replicate, List.length_replicate,
                Nat.add_sub_cancel' hl.le, hpositions]
              rfl

theorem forEachRunPair_spec (hleft : Ascends left)
    (hright : Ascends right) :
    (forEachRunPair left right).flatMap runPairs = joinPairs 0 left right :=
  runPairsLoop_spec hleft hright _ 0 0 (by omega) fun _ _ _ _ _ _ hy => absurd hy (Nat.not_lt_zero _)

theorem mergeJoinLen_eq (hleft : Ascends left)
    (hright : Ascends right) :
    mergeJoinLen left right = min (joinPairs 0 left right).length usizeMax := by
  have hfold : ∀ (runs : List ((ℕ × ℕ) × (ℕ × ℕ))) (total : ℕ), total ≤ usizeMax →
      runs.foldl (fun total run =>
        saturatingAdd total (saturatingMul (run.1.2 - run.1.1) (run.2.2 - run.2.1))) total =
        min (total + (runs.flatMap runPairs).length) usizeMax := by
    intro runs
    induction runs with
    | nil =>
      intro total h
      simpa using h
    | cons run runs ih =>
      intro total h
      have hrun : (runPairs run).length = (run.1.2 - run.1.1) * (run.2.2 - run.2.1) := by
        simp [runPairs, List.length_flatMap]
      rw [List.foldl_cons]
      refine (ih _ (Nat.min_le_right _ _)).trans ?_
      rw [List.flatMap_cons, List.length_append, hrun, saturatingMul]
      omega
  refine (hfold _ 0 (Nat.zero_le _)).trans ?_
  rw [Nat.zero_add, forEachRunPair_spec hleft hright]

theorem mergeJoin_eq (hleft : Ascends left) (hright : Ascends right)
    (maxPairs : Option ℕ) : mergeJoin left right maxPairs =
      capped (min (joinPairs 0 left right).length usizeMax) maxPairs
        (columnsOf (joinPairs 0 left right)) := by
  have hrun : ∀ (rows : List ℕ) (first count : ℕ) (out : List ℕ × List ℕ),
      rows.foldl (fun out li => (out.1 ++ List.replicate count li,
        out.2 ++ List.range' first count)) out =
        (out.1 ++ (rows.flatMap fun i => (List.range' first count).map fun j => (i, j)).map Prod.fst,
          out.2 ++ (rows.flatMap fun i =>
            (List.range' first count).map fun j => (i, j)).map Prod.snd) := by
    intro rows first count
    induction rows with
    | nil => simp
    | cons row rows ih =>
      intro out
      rw [List.foldl_cons, ih, List.flatMap_cons, List.map_append, List.map_append]
      simp [Function.comp_def, List.map_const', List.append_assoc]
  have hfold : ∀ (runs : List ((ℕ × ℕ) × (ℕ × ℕ))) (out : List ℕ × List ℕ),
      runs.foldl (fun out run =>
        (List.range' run.1.1 (run.1.2 - run.1.1)).foldl
          (fun out li => (out.1 ++ List.replicate (run.2.2 - run.2.1) li,
            out.2 ++ List.range' run.2.1 (run.2.2 - run.2.1)))
          (out.1, out.2)) out =
        (out.1 ++ (runs.flatMap runPairs).map Prod.fst,
          out.2 ++ (runs.flatMap runPairs).map Prod.snd) := by
    intro runs
    induction runs with
    | nil => simp
    | cons run runs ih =>
      intro out
      rw [List.foldl_cons]
      refine (ih _).trans ?_
      simp only [hrun, List.flatMap_cons, List.map_append, List.append_assoc]
      rfl
  have hjoin : mergeJoin left right maxPairs =
      withinCap (mergeJoinLen left right) maxPairs >>= fun _ =>
        pure ((forEachRunPair left right).foldl (fun out run =>
          (List.range' run.1.1 (run.1.2 - run.1.1)).foldl
            (fun out li => (out.1 ++ List.replicate (run.2.2 - run.2.1) li,
              out.2 ++ List.range' run.2.1 (run.2.2 - run.2.1)))
            (out.1, out.2)) ([], [])) := rfl
  rw [hjoin, hfold, mergeJoinLen_eq hleft hright, forEachRunPair_spec hleft hright]
  exact withinCap_bind ..

/-! ### All paths -/

/-- The codes of a column at one side of some pairs. -/
def valuesAt (column : List TermCode) (indices : List ℕ) : List TermCode :=
  indices.map fun i => column.getD i 0

theorem take_eq {column : List TermCode} {indices : List ℕ} (h : ∀ i ∈ indices, i < column.length) :
    take column indices = .ok (valuesAt column indices) := by
  have hnone : indices.findIdx? (fun i => decide (column.length ≤ i)) = none := by
    rw [List.findIdx?_eq_none_iff]
    intro i hi
    simpa using h i hi
  rw [take, hnone]
  rfl

/-- A way to join two columns, under any cap: its count, its pairs, and columns gathered
at them. -/
structure NestedLoop (left right : List TermCode) (join : Option ℕ → Except ℕ (List ℕ × List ℕ))
    (count : ℕ) : Prop where
  counted : count = min (joinPairs 0 left right).length usizeMax
  pairs : ∀ maxPairs, join maxPairs = capped count maxPairs (columnsOf (joinPairs 0 left right))

theorem Indexes.nestedLoop {index : RightIndex}
    (h : Indexes index right) : NestedLoop left right (index.join left) (index.matchCount left) where
  counted := h.matchCount_eq
  pairs maxPairs := by rw [h.matchCount_eq, h.join_eq]

theorem mergeJoin_nestedLoop (hleft : isSorted left = true)
    (hright : isSorted right = true) :
    NestedLoop left right (mergeJoin left right) (mergeJoinLen left right) where
  counted := mergeJoinLen_eq (isSorted_ascends hleft) (isSorted_ascends hright)
  pairs maxPairs := by
    rw [mergeJoinLen_eq (isSorted_ascends hleft) (isSorted_ascends hright),
      mergeJoin_eq (isSorted_ascends hleft) (isSorted_ascends hright)]

theorem equiJoin_nestedLoop (left right : List TermCode) :
    NestedLoop left right (equiJoinIndices left right) (joinCount left right) := by
  unfold equiJoinIndices joinCount
  by_cases hempty : (left.isEmpty || right.isEmpty) = true
  · have hnone : joinPairs 0 left right = [] := by
      rcases Bool.or_eq_true_iff.mp hempty with hl | hr
      · rw [List.isEmpty_iff.mp hl, joinPairs_nil]
      · refine joinPairs_of_no_match fun a _ j => ?_
        simp [List.isEmpty_iff.mp hr]
    simp only [if_pos hempty]
    refine ⟨by simp [hnone], fun maxPairs => ?_⟩
    simp [capped, hnone, columnsOf]
  · simp only [if_neg hempty]
    by_cases hsorted : (isSorted left && isSorted right) = true
    · simp only [if_pos hsorted]
      rw [Bool.and_eq_true] at hsorted
      exact mergeJoin_nestedLoop hsorted.1 hsorted.2
    · simp only [if_neg hsorted]
      exact (build_indexes right).nestedLoop

/-- The pairs of consecutive slices joined one after the other, each slice's left
indices counted from where it starts. -/
def sliceJoins (groups : CodeGroups) : ℕ → List (List TermCode) → List (Except ℕ (List ℕ × List ℕ))
  | _, [] => []
  | start, slice :: slices =>
    ((groups.join slice none).map fun out => (out.1.map (start + ·), out.2)) ::
      sliceJoins groups (start + slice.length) slices

theorem sliceJoins_eq (right : List TermCode) : ∀ (slices : List (List TermCode)) (start : ℕ),
    ∃ outs : List (List ℕ × List ℕ), sliceJoins (.build right) start slices = outs.map .ok ∧
      ((outs.map Prod.fst).flatten, (outs.map Prod.snd).flatten) =
        columnsOf (joinPairs start slices.flatten right)
  | [], _ => ⟨[], rfl, rfl⟩
  | slice :: slices, start => by
    obtain ⟨outs, houts, hcolumns⟩ := sliceJoins_eq right slices (start + slice.length)
    refine ⟨columnsOf (joinPairs start slice right) :: outs, ?_, ?_⟩
    · have hslice : (CodeGroups.build right).join slice none =
          .ok (columnsOf (joinPairs 0 slice right)) := by
        rw [CodeGroups.join, (build_indexes right).join_eq, capped, if_neg (by simp)]
      rw [sliceJoins, hslice, houts, List.map_cons]
      congr 1
      rw [joinPairs_start start]
      simp [Except.map, columnsOf, Function.comp_def]
    · rw [Prod.mk.injEq] at hcolumns
      rw [List.flatten_cons, joinPairs_append]
      simp only [columnsOf, List.map_append, List.map_cons, List.flatten_cons, hcolumns]

/-- Columns gathered by the build side are those taken at the pairs. -/
theorem gather_spec {leftColumns rightColumns : List (List TermCode)}
    (hleft : ∀ column ∈ leftColumns, column.length = left.length)
    (hright : ∀ column ∈ rightColumns, column.length = right.length) (maxPairs : Option ℕ) :
    (CodeGroups.build right).gather left leftColumns rightColumns maxPairs =
      some (capped (min (joinPairs 0 left right).length usizeMax) maxPairs
        (leftColumns.map (fun column => valuesAt column (columnsOf (joinPairs 0 left right)).1) ++
          rightColumns.map fun column => valuesAt column (columnsOf (joinPairs 0 left right)).2)) := by
  have h := build_indexes right
  have hpanics : (leftColumns.all (fun column => column.length == left.length) &&
      rightColumns.all fun column => column.length == (CodeGroups.build right).len) = true := by
    rw [Bool.and_eq_true, List.all_eq_true, List.all_eq_true]
    refine ⟨fun column hmem => ?_, fun column hmem => ?_⟩
    · simpa using hleft column hmem
    · rw [CodeGroups.len, h.length]
      simpa using hright column hmem
  have hl : leftColumns.map ((CodeGroups.build right).index.gatherLeft left) =
      leftColumns.map fun column => valuesAt column (columnsOf (joinPairs 0 left right)).1 := by
    refine List.map_congr_left fun column hmem => ?_
    rw [h.gatherLeft_eq (hleft column hmem), valuesAt, columnsOf, List.map_map]
    rfl
  have hr : rightColumns.map ((CodeGroups.build right).index.gatherRight left) =
      rightColumns.map fun column => valuesAt column (columnsOf (joinPairs 0 left right)).2 := by
    refine List.map_congr_left fun column _ => ?_
    rw [h.gatherRight_eq, valuesAt, columnsOf, List.map_map]
    rfl
  rw [CodeGroups.gather, if_pos hpanics, RightIndex.gather, h.matchCount_eq, withinCap_bind, hl, hr]

/-- Every path of the join of two columns, its counts, its caps, its slices and the columns
it gathers are those of the nested loop. -/
theorem joins_are_nestedLoop (left right : List TermCode) :
    NestedLoop left right (equiJoinIndices left right) (joinCount left right) ∧
    (isSorted left = true → isSorted right = true →
      NestedLoop left right (mergeJoin left right) (mergeJoinLen left right)) ∧
    (∀ least most, codeRange right = some (least, most) →
      NestedLoop left right ((RightIndex.dense right least ((most - least).toNat + 1)).join left)
        ((RightIndex.dense right least ((most - least).toNat + 1)).matchCount left)) ∧
    NestedLoop left right ((RightIndex.hashed right).join left)
      ((RightIndex.hashed right).matchCount left) ∧
    NestedLoop left right ((CodeGroups.build right).join left) ((CodeGroups.build right).count left) ∧
    (∀ slices : List (List TermCode), slices.flatten = left →
      ∃ outs : List (List ℕ × List ℕ), sliceJoins (.build right) 0 slices = outs.map .ok ∧
        ((outs.map Prod.fst).flatten, (outs.map Prod.snd).flatten) =
          columnsOf (joinPairs 0 left right)) ∧
    ∀ leftColumns rightColumns : List (List TermCode),
      (∀ column ∈ leftColumns, column.length = left.length) →
      (∀ column ∈ rightColumns, column.length = right.length) →
      (∀ column ∈ leftColumns, take column (columnsOf (joinPairs 0 left right)).1 =
        .ok (valuesAt column (columnsOf (joinPairs 0 left right)).1)) ∧
      (∀ column ∈ rightColumns, take column (columnsOf (joinPairs 0 left right)).2 =
        .ok (valuesAt column (columnsOf (joinPairs 0 left right)).2)) ∧
      ∀ maxPairs, (CodeGroups.build right).gather left leftColumns rightColumns maxPairs =
        some (capped (joinCount left right) maxPairs
          (leftColumns.map (fun column => valuesAt column (columnsOf (joinPairs 0 left right)).1) ++
            rightColumns.map fun column =>
              valuesAt column (columnsOf (joinPairs 0 left right)).2)) := by
  refine ⟨equiJoin_nestedLoop left right, mergeJoin_nestedLoop,
    fun least most hrange => (dense_indexes (codeRange_spec hrange)).nestedLoop,
    (hashed_indexes right).nestedLoop, (build_indexes right).nestedLoop, ?_, ?_⟩
  · rintro slices rfl
    exact sliceJoins_eq right slices 0
  · intro leftColumns rightColumns hleft hright
    have hpairs : ∀ p ∈ joinPairs 0 left right, p.1 < left.length ∧ p.2 < right.length := by
      rintro ⟨i, j⟩ hmem
      obtain ⟨a, -, hi, hj⟩ := mem_joinPairs.mp hmem
      exact ⟨(List.getElem?_eq_some_iff.mp hi).1, (List.getElem?_eq_some_iff.mp hj).1⟩
    refine ⟨fun column hmem => take_eq fun i hi => ?_, fun column hmem => take_eq fun j hj => ?_,
      fun maxPairs => ?_⟩
    · obtain ⟨p, hp, rfl⟩ := List.mem_map.mp hi
      rw [hleft column hmem]
      exact (hpairs p hp).1
    · obtain ⟨p, hp, rfl⟩ := List.mem_map.mp hj
      rw [hright column hmem]
      exact (hpairs p hp).2
    · rw [gather_spec hleft hright, (equiJoin_nestedLoop left right).counted]

end Columns
