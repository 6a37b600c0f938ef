/-
Point reads of a probe at many indices.

* `SortedProbe.readAt` — the values at some indices, each run of consecutive ones read in
  one pass;
* `readAt_spec` — they are the values at the indices, in their order.
-/
import VortexRdf.ColumnChunks

open Bisect Buffers

namespace EncodedSearch

namespace SortedProbe

variable (fl : FastLanes) (root : Node)

def readAtLoop : ℕ → List ℕ → List ℕ → Option (List ℕ)
  | _, [], _ => some []
  | 0, _, _ => none
  | fuel + 1, index :: rest, out =>
    let run := consecutiveRun (index :: rest)
    (if run = 1 then (valueAt fl root index).map ([·])
      else readInto fl root index (out.take run)).bind fun values =>
        (readAtLoop fuel ((index :: rest).drop run) (out.drop run)).map (values ++ ·)

/-- The exact values at `indices`, in their order, into `out`. -/
def readAt (indices out : List ℕ) : Option (List ℕ) :=
  if indices.length = out.length then readAtLoop fl root indices.length indices out else none

end SortedProbe

/-- The run a list starts with, taken off it. -/
theorem take_consecutiveRun (a : ℕ) (rest : List ℕ) :
    0 < consecutiveRun (a :: rest) ∧ consecutiveRun (a :: rest) ≤ (a :: rest).length ∧
      (a :: rest).take (consecutiveRun (a :: rest)) = List.range' a (consecutiveRun (a :: rest)) := by
  obtain ⟨hpos, hle, hrun⟩ := @ColumnChunks.consecutiveRun_spec (a :: rest) a rfl
  refine ⟨hpos, hle, List.ext_getElem? fun k => ?_⟩
  by_cases hk : k < consecutiveRun (a :: rest)
  · rw [List.getElem?_take_of_lt hk, hrun k hk, List.getElem?_range' hk, Nat.one_mul]
  · rw [List.getElem?_eq_none (by rw [List.length_take]; omega),
      List.getElem?_eq_none (by rw [List.length_range']; omega)]

variable {fl : FastLanes} {root : Node}

theorem readAtLoop_spec (hroot : root.WellFormed fl) {fuel : ℕ}
    {indices out : List ℕ} (hfuel : indices.length ≤ fuel) (hout : indices.length = out.length)
    (hin : ∀ i ∈ indices, i < root.len) :
    SortedProbe.readAtLoop fl root fuel indices out = some (indices.map (root.value fl)) := by
  induction fuel generalizing indices out with
  | zero =>
    rw [Nat.le_zero, List.length_eq_zero_iff] at hfuel
    rw [hfuel]
    rfl
  | succ fuel ih =>
    cases indices with
    | nil => rfl
    | cons index rest =>
      obtain ⟨hpos, hle, htake⟩ := take_consecutiveRun index rest
      rw [SortedProbe.readAtLoop]
      generalize consecutiveRun (index :: rest) = run at hpos hle htake ⊢
      have hsplit := List.take_append_drop run (index :: rest)
      -- the indices of the run count up from its first, all within the column
      have hlast : index + run ≤ root.len := by
        have hmem : index + (run - 1) ∈ (index :: rest).take run := by
          rw [htake, List.mem_range'_1]
          omega
        have := hin _ (List.mem_of_mem_take hmem)
        omega
      have hvalues : (if run = 1 then (SortedProbe.valueAt fl root index).map ([·])
          else SortedProbe.readInto fl root index (out.take run)) =
          some ((List.range' index run).map (root.value fl)) := by
        split_ifs with hone
        · have hindex : index < root.len := by omega
          rw [SortedProbe.valueAt, if_pos hindex,
            (wellFormed_sound hroot).reads index (Nat.zero_le _) hindex, hone]
          rfl
        · have htaken : (out.take run).length = run := by
            rw [List.length_take, ← hout]
            omega
          have hbound := hroot.len_le
          rw [SortedProbe.readInto, if_pos ⟨by omega, by omega⟩,
            wellFormed_readsWindows hroot index _ (by omega), htaken, List.range'_eq_map_range,
            List.map_map]
          rfl
      rw [hvalues, Option.bind_some, ih, Option.map_some, ← htake, ← List.map_append, hsplit]
      · rw [List.length_drop]
        omega
      · rw [List.length_drop, List.length_drop, hout]
      · exact fun i hi => hin i (List.mem_of_mem_drop hi)

/-- The values read at some indices are the column's there. -/
theorem readAt_spec (hroot : root.WellFormed fl) {indices out : List ℕ}
    (hout : indices.length = out.length) (hin : ∀ i ∈ indices, i < root.len) :
    SortedProbe.readAt fl root indices out = some (indices.map (root.value fl)) := by
  rw [SortedProbe.readAt, if_pos hout]
  exact readAtLoop_spec hroot le_rfl hout hin

end EncodedSearch
