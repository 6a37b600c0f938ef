/-
Log-structured sorted runs.

A growing collection kept as sorted runs, the oldest first: what is added is
sorted into a run of its own, which takes in the runs before it while it holds at
least half of their length.

* `absorb`, `push` — the runs a new one takes in, and the runs with it;
* `push_perm`, `push_ordered` — nothing is lost or repeated, every run stays
  sorted, and each is under half of the one before it;
* `equalRange`, `equalRange_eq_filter` — the members of a run with one key, by one
  search and a walk.
-/
import VortexRdf.AscendingLists

namespace SortedRuns

open Ascending

variable {α : Type*}

/-- The runs left of some, the newest first, and the run that takes in the
others. -/
def absorb (le : α → α → Bool) : List (List α) → List α → List (List α) × List α
  | [], run => ([], run)
  | last :: older, run =>
    if last.length ≤ run.length * 2 then absorb le older (last.merge run le)
    else (last :: older, run)

/-- The runs, the oldest first, with a sorted one added. -/
def push (le : α → α → Bool) (runs : List (List α)) (fresh : List α) : List (List α) :=
  let (kept, run) := absorb le runs.reverse fresh
  kept.reverse ++ if run = [] then [] else [run]

/-- Each run is shorter than half of the one before it. -/
def Halving (runs : List (List α)) : Prop :=
  runs.IsChain fun older newer => newer.length * 2 < older.length

/-- Sorted runs, none of them empty, each under half of the one before it. -/
structure Ordered (le : α → α → Bool) (runs : List (List α)) : Prop where
  sorted : ∀ run ∈ runs, run.Pairwise fun a b => le a b = true
  nonempty : ∀ run ∈ runs, run ≠ []
  halving : Halving runs

variable {le : α → α → Bool} {runs : List (List α)} {fresh : List α}

theorem ordered_nil : Ordered le [] where
  sorted _ h := nomatch h
  nonempty _ h := nomatch h
  halving := List.isChain_nil

/-! ### Nothing lost or repeated -/

theorem absorb_perm (le : α → α → Bool) (newest : List (List α)) (run : List α) :
    ((absorb le newest run).1.flatten ++ (absorb le newest run).2).Perm
      (newest.flatten ++ run) := by
  induction newest generalizing run with
  | nil => exact List.Perm.refl _
  | cons last older ih =>
    rw [absorb]
    split_ifs with hlen
    · have hmerge : (last.merge run le).Perm (run ++ last) :=
        (List.merge_perm_append le).trans List.perm_append_comm
      refine (ih (last.merge run le)).trans ?_
      calc (older.flatten ++ last.merge run le).Perm (older.flatten ++ (run ++ last)) :=
            hmerge.append_left _
        _ = (older.flatten ++ run) ++ last := (List.append_assoc _ _ _).symm
        _ |>.Perm (last ++ (older.flatten ++ run)) := List.perm_append_comm
        _ = (last :: older).flatten ++ run := by rw [List.flatten_cons, List.append_assoc]
    · exact List.Perm.refl _

theorem push_perm (le : α → α → Bool) (runs : List (List α)) (fresh : List α) :
    (push le runs fresh).flatten.Perm (runs.flatten ++ fresh) := by
  have hlast : ∀ run : List α, (if run = [] then [] else [run]).flatten = run := by
    intro run
    split_ifs with h
    · exact h.symm
    · exact List.flatten_singleton
  have habsorb := absorb_perm le runs.reverse fresh
  rw [push, List.flatten_append, hlast]
  exact ((List.reverse_perm _).flatten.append_right _).trans
    (habsorb.trans ((List.reverse_perm runs).flatten.append_right _))

/-! ### Sorted, and halving -/

/-- The run that took in others is sorted, and is under half of the last one
left. -/
theorem absorb_ordered (htrans : ∀ a b c, le a b → le b c → le a c)
    (htotal : ∀ a b, le a b || le b a) {newest : List (List α)} {run : List α}
    (hsorted : ∀ run ∈ newest, run.Pairwise fun a b => le a b = true)
    (hrun : run.Pairwise fun a b => le a b = true) :
    (absorb le newest run).1 <:+ newest ∧
      ((absorb le newest run).2.Pairwise fun a b => le a b = true) ∧
      ∀ last ∈ (absorb le newest run).1.head?, (absorb le newest run).2.length * 2 < last.length := by
  induction newest generalizing run with
  | nil => exact ⟨List.suffix_rfl, hrun, fun last h => nomatch h⟩
  | cons last older ih =>
    rw [absorb]
    split_ifs with hlen
    · have hmerged := List.pairwise_merge htrans htotal last run
        (hsorted last List.mem_cons_self) hrun
      obtain ⟨hsuffix, hrest⟩ :=
        ih (fun run h => hsorted run (List.mem_cons_of_mem _ h)) hmerged
      exact ⟨hsuffix.trans (List.suffix_cons _ _), hrest⟩
    · refine ⟨List.suffix_rfl, hrun, fun last' h => ?_⟩
      obtain rfl := Option.some_inj.mp h
      exact not_le.mp hlen

theorem push_ordered (htrans : ∀ a b c, le a b → le b c → le a c)
    (htotal : ∀ a b, le a b || le b a) (h : Ordered le runs)
    (hfresh : fresh.Pairwise fun a b => le a b = true) : Ordered le (push le runs fresh) := by
  have hsorted : ∀ run ∈ runs.reverse, run.Pairwise fun a b => le a b = true :=
    fun run hrun => h.sorted run (List.mem_reverse.mp hrun)
  obtain ⟨hsuffix, hrun, hhead⟩ := absorb_ordered htrans htotal hsorted hfresh
  rw [push]
  generalize absorb le runs.reverse fresh = absorbed at hsuffix hrun hhead
  obtain ⟨kept, run⟩ := absorbed
  have hkept : kept.reverse <+: runs := by
    rw [← List.reverse_reverse runs]
    exact List.reverse_prefix.mpr hsuffix
  have hhalving : Halving kept.reverse := by
    obtain ⟨rest, hrest⟩ := hkept
    have hall := h.halving
    rw [← hrest] at hall
    exact hall.left_of_append
  have hlast : ∀ last ∈ kept.reverse.getLast?, run.length * 2 < last.length := by
    rw [List.getLast?_reverse]
    exact hhead
  dsimp only
  split_ifs with hempty
  · rw [List.append_nil]
    exact ⟨fun r hr => h.sorted r (hkept.subset hr), fun r hr => h.nonempty r (hkept.subset hr),
      hhalving⟩
  · constructor
    · intro r hr
      rcases List.mem_append.mp hr with hr | hr
      · exact h.sorted r (hkept.subset hr)
      · rw [List.mem_singleton.mp hr]
        exact hrun
    · intro r hr
      rcases List.mem_append.mp hr with hr | hr
      · exact h.nonempty r (hkept.subset hr)
      · rw [List.mem_singleton.mp hr]
        exact hempty
    · refine hhalving.append (List.isChain_singleton _) ?_
      intro last hl r hr
      obtain rfl := Option.some_inj.mp hr
      exact hlast last hl

/-! ### The members with one key -/

section Keys

variable {κ : Type*} [LinearOrder κ]

/-- The members of a run whose key is `k`: a search for the first not below it and a
walk while it lasts. -/
def equalRange (key : α → κ) (k : κ) (run : List α) : List α :=
  (run.drop (partitionPoint (fun a => decide (key a < k)) run)).takeWhile
    fun a => decide (key a = k)

theorem equalRange_eq_filter {key : α → κ} {run : List α} (h : (run.map key).SortedLE) (k : κ) :
    equalRange key k run = run.filter fun a => decide (key a = k) := by
  rw [equalRange, drop_partitionPoint]
  induction run with
  | nil => rfl
  | cons a run ih =>
    have hle : ∀ b ∈ run, key a ≤ key b := by
      intro b hb
      exact List.rel_of_pairwise_cons h.pairwise (List.mem_map_of_mem hb)
    have hrest := ih (List.Pairwise.of_cons h.pairwise).sortedLE
    rcases lt_trichotomy (key a) k with hlt | heq | hgt
    · rw [List.dropWhile_cons_of_pos (by simpa using hlt), hrest,
        List.filter_cons_of_neg (by simpa using hlt.ne)]
    · -- the walk starts here and the search would have found nothing below
      have hdrop : run.dropWhile (fun b => decide (key b < k)) = run := by
        cases run with
        | nil => rfl
        | cons b run =>
          have hb := heq ▸ hle b List.mem_cons_self
          rw [List.dropWhile_cons_of_neg (by simpa using hb)]
      rw [List.dropWhile_cons_of_neg (by simpa using heq.ge),
        List.takeWhile_cons_of_pos (by simpa using heq), List.filter_cons_of_pos (by simpa using heq),
        ← hrest, hdrop]
    · have hnone : (a :: run).filter (fun b => decide (key b = k)) = [] := by
        refine List.filter_eq_nil_iff.mpr fun b hb => ?_
        rcases List.mem_cons.mp hb with rfl | hb
        · simpa using hgt.ne'
        · simpa using (hgt.trans_le (hle b hb)).ne'
      rw [List.dropWhile_cons_of_neg (by simpa using hgt.le),
        List.takeWhile_cons_of_neg (by simpa using hgt.ne'), hnone]

end Keys

end SortedRuns
