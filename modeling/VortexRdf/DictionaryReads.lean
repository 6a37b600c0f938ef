/-
What the reads of a dictionary answer.

Each way to read a code's term gives what looking the code up in the sorted terms
gives, or its hold on the windows has given up.

* `lookup` — the term of a code, or the error of one outside the dictionary;
* `window_terms`, `chunkOf_spec` — the chunk a rank falls in, and its term there;
* `DictCursor.strAt_eq`, `HeldWindows.strAt_spec` — the two reads in place;
* `decodeMany_eq`, `decodeMany_isError` — the terms of the distinct codes.
-/
import VortexRdf.TermChunks
import Mathlib.Data.List.GetD

namespace Dictionary

open Ascending Store Terms

/-- The term of a code among the sorted terms. -/
def lookup (terms : List Str) (code : TermCode) : Except VortexRdfError Str :=
  (checkCode code terms.length).map fun rank => terms.getD rank []

section Lookup

variable {terms : List Str} {code : ℕ}

theorem checkCode_of_lt {len : ℕ} (h : code < len) : checkCode code len = .ok code := by
  rw [checkCode, codeRank, if_pos h]

theorem checkCode_of_ge {len : ℕ} (h : len ≤ code) : ∃ e, checkCode code len = .error e := by
  rw [checkCode, codeRank, if_neg (Nat.not_lt.mpr h)]
  exact ⟨_, rfl⟩

theorem lookup_of_lt (h : code < terms.length) : lookup terms code = .ok (terms.getD code []) := by
  rw [lookup, checkCode_of_lt h]
  rfl

theorem lookup_of_ge (h : terms.length ≤ code) : ∃ e, lookup terms code = .error e := by
  obtain ⟨e, he⟩ := checkCode_of_ge h
  exact ⟨e, by rw [lookup, he]; rfl⟩

end Lookup

/-! ### Chunks -/

theorem startsFrom_ge {chunks : List TermChunk} {w s : ℕ} : ∀ {start : ℕ},
    (startsFrom start chunks)[w]? = some s → start ≤ s := by
  induction chunks generalizing w with
  | nil =>
    intro start h
    simp [startsFrom] at h
  | cons chunk chunks ih =>
    intro start h
    cases w with
    | zero => exact (Option.some.inj h).le
    | succ w => exact (Nat.le_add_right _ _).trans (ih h)

/-- A chunk's terms lie in the whole from its start on. -/
theorem window_terms {j w s : ℕ} {chunks : List TermChunk} {chunk : TermChunk} {start : ℕ}
    (hs : (startsFrom start chunks)[w]? = some s) (hchunk : chunks[w]? = some chunk)
    (hsj : s ≤ j) (hj : j < s + chunk.length) :
    chunk.getD (j - s) [] = chunks.flatten.getD (j - start) [] := by
  induction chunks generalizing start w with
  | nil => simp at hchunk
  | cons first chunks ih =>
    cases w with
    | zero =>
      obtain rfl : start = s := Option.some.inj hs
      obtain rfl : first = chunk := Option.some.inj hchunk
      rw [List.flatten_cons, List.getD_append _ _ _ _ (by omega)]
    | succ w =>
      have hstart : start + first.length ≤ s := startsFrom_ge hs
      rw [ih hs hchunk, List.flatten_cons, List.getD_append_right _ _ _ _ (by omega),
        Nat.sub_sub]

/-- The last chunk that starts no later than a rank holds it. -/
theorem partitionPoint_starts : ∀ {chunks : List TermChunk} {start i : ℕ}, start ≤ i →
    i < start + chunks.flatten.length →
    ∃ w s chunk, partitionPoint (· ≤ i) (startsFrom start chunks) = w + 1 ∧
      (startsFrom start chunks)[w]? = some s ∧ chunks[w]? = some chunk ∧
      s ≤ i ∧ i < s + chunk.length
  | [], _, _, hstart, hi => by simp at hi; omega
  | chunk :: chunks, start, i, hstart, hi => by
    rw [List.flatten_cons, List.length_append] at hi
    have hpoint : partitionPoint (· ≤ i) (startsFrom start (chunk :: chunks)) =
        partitionPoint (· ≤ i) (startsFrom (start + chunk.length) chunks) + 1 := by
      simp [partitionPoint, startsFrom, hstart]
    by_cases hnext : start + chunk.length ≤ i
    · obtain ⟨w, s, chunk', hw, hs, hchunk, hin⟩ := partitionPoint_starts hnext (show i < start + chunk.length + chunks.flatten.length by omega)
      exact ⟨w + 1, s, chunk', by rw [hpoint, hw], hs, hchunk, hin⟩
    · refine ⟨0, start, chunk, ?_, rfl, rfl, hstart, by omega⟩
      rw [hpoint]
      cases chunks with
      | nil => rfl
      | cons chunk' chunks => simp [partitionPoint, startsFrom, hnext]

/-- The chunk `w` that starts at `s` holds the rank `i`. -/
structure Holds (chunks : List TermChunk) (w s i : ℕ) : Prop where
  starts : (startsFrom 0 chunks).getD w 0 = s
  le : s ≤ i
  lt : i < s + (chunks.getD w []).length
  terms : ∀ j, s ≤ j → j < s + (chunks.getD w []).length →
    (chunks.getD w []).strAt (j - s) = chunks.flatten.getD j []

theorem chunkOf_spec {chunks : List TermChunk} {i : ℕ} (hi : i < chunks.flatten.length) :
    ∃ w s, chunkOf (startsFrom 0 chunks) i = (w, i - s) ∧ Holds chunks w s i := by
  obtain ⟨w, s, chunk, hw, hs, hchunk, hle, hlt⟩ :=
    partitionPoint_starts (Nat.zero_le i) (by omega : i < 0 + chunks.flatten.length)
  have hstart : (startsFrom 0 chunks).getD w 0 = s := by rw [List.getD_eq_getElem?_getD, hs]; rfl
  have hget : chunks.getD w [] = chunk := by rw [List.getD_eq_getElem?_getD, hchunk]; rfl
  refine ⟨w, s, by rw [chunkOf, hw, Nat.add_sub_cancel, hstart], hstart, hle, by rwa [hget], ?_⟩
  intro j hsj hj
  rw [hget] at hj ⊢
  rw [TermChunk.strAt, window_terms hs hchunk hsj hj, Nat.sub_zero]

theorem DictCursor.strAt_eq (dict : TermDictionary) {i : ℕ} (hi : i < dict.terms.length) :
    DictCursor.strAt dict i = dict.terms.getD i [] := by
  obtain ⟨chunks, hlen⟩ := dict
  change i < chunks.flatten.length at hi
  obtain ⟨w, s, hchunk, hholds⟩ := chunkOf_spec hi
  have hmany : ((chunks.getD (chunkOf (startsFrom 0 chunks) i).1 []).strAt
      (chunkOf (startsFrom 0 chunks) i).2) = chunks.flatten.getD i [] := by
    rw [hchunk]
    exact hholds.terms i hholds.le hholds.lt
  rw [DictCursor.strAt.eq_def]
  split
  · rename_i first heq
    obtain rfl : chunks = [first] := heq
    rw [TermDictionary.terms, List.flatten_singleton]
    rfl
  · exact hmany

/-! ### Windows read in place -/

/-- Every window held is the file's. -/
def HeldWindows.Faithful (fb : FileBackedDict) (held : HeldWindows) : Prop :=
  ∀ w chunk, held.held w = some chunk → chunk = fb.windowChunk w

theorem HeldWindows.take_spec {fb : FileBackedDict} {held : HeldWindows} (h : held.Faithful fb)
    (w : ℕ) : (∃ held', held.take fb w = (.ok (), held') ∧ held'.Faithful fb ∧
        held'.held w = some (fb.windowChunk w)) ∨
      ∃ e held', held.take fb w = (.error e, held') ∧ held'.Faithful fb ∧ held'.gaveUp = true := by
  rw [take, FileBackedDict.windowChunkNow]
  by_cases hwaits : fb.waits w = true
  · rw [if_pos hwaits]
    exact Or.inr ⟨_, _, rfl, h, rfl⟩
  · rw [if_neg hwaits]
    by_cases hbudget : fb.budget < saturatingAdd held.charged (fb.charge w)
    · simp only [if_pos hbudget]
      exact Or.inr ⟨_, _, rfl, h, rfl⟩
    · simp only [if_neg hbudget]
      refine Or.inl ⟨_, rfl, ?_, Function.update_self ..⟩
      intro w' chunk hchunk
      change Function.update held.held w (some (fb.windowChunk w)) w' = some chunk at hchunk
      by_cases hw : w' = w
      · rw [hw, Function.update_self] at hchunk
        rw [hw, Option.some.inj hchunk]
      · rw [Function.update_of_ne hw] at hchunk
        exact h w' chunk hchunk

/-- A read in place answers as the sorted terms do, or the hold has given up. -/
theorem HeldWindows.strAt_spec {fb : FileBackedDict} {held : HeldWindows} (h : held.Faithful fb)
    (code : TermCode) : (∃ t held', strAt fb code held = (.ok t, held') ∧ held'.Faithful fb ∧
        lookup fb.terms code = .ok t) ∨
      ∃ e held', strAt fb code held = (.error e, held') ∧ held'.Faithful fb ∧
        (lookup fb.terms code = .error e ∨ held'.gaveUp = true) := by
  rw [strAt.eq_def]
  by_cases hcode : code < fb.terms.length
  · rw [checkCode_of_lt hcode]
    obtain ⟨w, s, hchunk, hholds⟩ := chunkOf_spec (show code < fb.windows.flatten.length from hcode)
    have hterm : (fb.windowChunk w).strAt (code - s) = fb.terms.getD code [] :=
      hholds.terms code hholds.le hholds.lt
    have hlookup : lookup fb.terms code = .ok ((fb.windowChunk w).strAt (code - s)) := by
      rw [lookup_of_lt hcode, hterm]
    rw [FileBackedDict.starts]
    simp only [hchunk]
    cases hheld : held.held w with
    | some chunk =>
      obtain rfl := h w chunk hheld
      exact Or.inl ⟨_, held, rfl, h, hlookup⟩
    | none =>
      rcases take_spec h w with ⟨held', htake, hfaithful, hw⟩ | ⟨e, held', htake, hfaithful, hgave⟩
      · refine Or.inl ⟨_, held', by rw [htake], hfaithful, ?_⟩
        rw [hw]
        exact hlookup
      · exact Or.inr ⟨e, held', by rw [htake], hfaithful, Or.inr hgave⟩
  · obtain ⟨e, he⟩ := checkCode_of_ge (Nat.le_of_not_lt hcode)
    exact Or.inr ⟨e, held, by rw [he], h, Or.inl (by rw [lookup, he]; rfl)⟩

/-! ### The distinct codes' terms -/

theorem outOfOrder_eq_none : ∀ {codes : List TermCode}, codes.SortedLT →
    FileBackedDict.outOfOrder codes = none
  | [], _ => rfl
  | [_], _ => rfl
  | a :: b :: rest, h => by
    have hlt : a < b := head_lt h List.mem_cons_self
    rw [FileBackedDict.outOfOrder, if_neg (Nat.not_le.mpr hlt), outOfOrder_eq_none (tail h)]

theorem checkCandidates_eq_ok {codes : List TermCode} {len : ℕ} (h : codes.SortedLT)
    (hlt : ∀ code ∈ codes, code < len) : FileBackedDict.checkCandidates codes len = .ok () := by
  have hfind : (codes.head?.toList ++ codes.getLast?.toList).find?
      (fun code => (codeRank code len).isNone) = none := by
    rw [List.find?_eq_none]
    intro code hcode
    have hmem : code ∈ codes := by
      rcases List.mem_append.mp hcode with hhead | hlast
      · exact List.mem_of_mem_head? (Option.mem_toList.mp hhead)
      · exact List.mem_of_mem_getLast? (Option.mem_toList.mp hlast)
    rw [codeRank, if_pos (hlt code hmem)]
    simp
  rw [FileBackedDict.checkCandidates, outOfOrder_eq_none h]
  simp only [hfind]

theorem visitLoop_eq (fb : FileBackedDict) : ∀ (fuel : ℕ) {codes : List TermCode},
    codes.length ≤ fuel → codes.SortedLT → (∀ code ∈ codes, code < fb.terms.length) →
    fb.visitLoop fuel codes = .ok (codes.map fun code => fb.terms.getD code [])
  | 0, [], _, _, _ => rfl
  | _ + 1, [], _, _, _ => rfl
  | fuel + 1, code :: codes, hfuel, hsorted, hlt => by
    obtain ⟨w, s, hchunk, hholds⟩ :=
      chunkOf_spec (show code < fb.windows.flatten.length from hlt code List.mem_cons_self)
    have hw : (chunkOf fb.starts code).1 = w := by rw [FileBackedDict.starts, hchunk]
    have hs : fb.starts.getD w 0 = s := hholds.starts
    obtain ⟨stop, hstop⟩ : ∃ stop, stop = s + (fb.windowChunk w).length := ⟨_, rfl⟩
    obtain ⟨run, hrun⟩ : ∃ run, run = partitionPoint (· < stop) (code :: codes) := ⟨_, rfl⟩
    have hcode : code < stop := hstop ▸ hholds.lt
    have hpos : run ≠ 0 := by
      rw [hrun, partitionPoint, List.takeWhile_cons_of_pos (by simpa using hcode)]
      exact Nat.succ_ne_zero _
    have htake : (code :: codes).take run = (code :: codes).takeWhile (· < stop) := by
      rw [hrun, take_partitionPoint]
    -- the codes of the run ascend from the first, so they lie in its window too
    have hterms : ((code :: codes).take run).map (fun c => (fb.windowChunk w).strAt (c - s)) =
        ((code :: codes).take run).map fun c => fb.terms.getD c [] := by
      refine List.map_congr_left fun c hc => hholds.terms c ?_ ?_
      · rcases List.mem_cons.mp (List.mem_of_mem_take hc) with rfl | hmem
        · exact hholds.le
        · exact hholds.le.trans (head_lt hsorted hmem).le
      · rw [htake] at hc
        have hlt := List.all_eq_true.mp List.all_takeWhile c hc
        rw [decide_eq_true_eq, hstop] at hlt
        exact hlt
    have hlen : ((code :: codes).drop run).length ≤ fuel := by
      rw [List.length_drop]
      rw [List.length_cons] at hfuel ⊢
      omega
    have hrest := visitLoop_eq fb fuel hlen (sublist hsorted (List.drop_sublist run _))
      fun c hc => hlt c (List.mem_of_mem_drop hc)
    rw [FileBackedDict.visitLoop]
    simp only [hw, hs, ← hstop, ← hrun, if_neg hpos, hrest, hterms]
    rw [Except.map, ← List.map_append, List.take_append_drop]

theorem decodeMany_eq (fb : FileBackedDict) {codes : List TermCode} (hsorted : codes.SortedLT)
    (hlt : ∀ code ∈ codes, code < fb.terms.length) :
    fb.decodeMany codes = .ok (codes.map fun code => fb.terms.getD code []) := by
  rw [FileBackedDict.decodeMany]
  cases hlast : codes.getLast? with
  | none =>
    rw [List.getLast?_eq_none_iff] at hlast
    rw [hlast]
    rfl
  | some max =>
    have hmax := hlt max (List.mem_of_mem_getLast? hlast)
    simp only [checkCode_of_lt hmax, FileBackedDict.visitTerms, checkCandidates_eq_ok hsorted hlt,
      visitLoop_eq fb codes.length le_rfl hsorted hlt]
    rfl

theorem decodeMany_isError (fb : FileBackedDict) {codes : List TermCode} (hsorted : codes.SortedLT)
    {code : TermCode} (hmem : code ∈ codes) (hge : fb.terms.length ≤ code) :
    ∃ e, fb.decodeMany codes = .error e := by
  obtain ⟨max, hlast⟩ : ∃ max, codes.getLast? = some max :=
    ⟨_, List.getLast?_eq_getLast_of_ne_nil (List.ne_nil_of_mem hmem)⟩
  have hle : code ≤ max := by
    obtain ⟨init, rfl⟩ := List.getLast?_eq_some_iff.mp hlast
    rcases List.mem_append.mp hmem with hinit | hself
    · exact (List.pairwise_append.mp hsorted.pairwise).2.2 code hinit max (by simp) |>.le
    · exact (List.mem_singleton.mp hself).le
  obtain ⟨e, he⟩ := checkCode_of_ge (hge.trans hle)
  refine ⟨e, ?_⟩
  rw [FileBackedDict.decodeMany]
  simp only [hlast, he]
  rfl

end Dictionary
