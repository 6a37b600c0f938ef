/-
The resident dictionary's lookups as functions of its sorted terms.

* `lookupTolerant` — the lookup of a spelling, then of its canonical one;
* `encodeExact_eq`, `lowerBound_eq`, `prefixRange_eq`, `encode_eq` — one lookup each;
* `byteOrder_spec` — the positions of a batch in the byte order of their terms;
* `encodeMany_eq` — a batch answers as the lookups one at a time, its first malformed
  miss the error;
* `decodeManyWith_eq` — every position with its term.
-/
import VortexRdf.CountingSort
import VortexRdf.TermSearch

namespace Dictionary

open Ascending Bisect Store Terms
open scoped Lexicographic

/-- The rank of a spelling, or else of its canonical spelling. -/
def lookupTolerant (ox : Oxrdf) (terms : List Str) (t : Str) :
    Except VortexRdfError (Option TermCode) :=
  match rankOf terms t with
  | some code => .ok (some code)
  | none => (tolerantFallback ox t).map fun canonical => canonical.bind (rankOf terms)

/-! ### The order of a batch -/

/-- The positions of a batch, their terms ascending. -/
structure ByteOrder (ts : List Str) (order : List ℕ) : Prop where
  perm : order.Perm (List.range ts.length)
  ascending : order.Pairwise fun a b => ts.getD a [] ≤ ts.getD b []

theorem byteOrder_spec (ts : List Str) : ByteOrder ts (byteOrder ts) where
  perm := List.mergeSort_perm _ _
  ascending := by
    have h := @List.pairwise_mergeSort ℕ (fun a b => decide (ts.getD a [] ≤ ts.getD b []))
      (fun a b c hab hbc => by
        rw [decide_eq_true_eq] at hab hbc ⊢
        exact hab.trans hbc)
      (fun a b => by
        rw [Bool.or_eq_true, decide_eq_true_eq, decide_eq_true_eq]
        exact le_total _ _)
      (List.range ts.length)
    exact h.imp fun hle => of_decide_eq_true hle

theorem ByteOrder.mem_iff {ts : List Str} {order : List ℕ} (h : ByteOrder ts order) (p : ℕ) :
    p ∈ order ↔ p < ts.length := by
  rw [h.perm.mem_iff, List.mem_range]

/-! ### One lookup -/

namespace TermDictionary

variable {dict : TermDictionary}

theorem bytesInto_eq {i : ℕ} (hi : i < dict.len) : dict.bytesInto i = dict.terms.getD i [] :=
  DictCursor.strAt_eq dict hi

theorem len_le_usizeMax (dict : TermDictionary) : dict.len ≤ usizeMax := dict.len_le

/-- Read through the chunks, the terms below a string are those before its rank. -/
theorem below_point (h : dict.terms.SortedLT) (needle : Str) :
    IsPartitionPoint (fun i => decide (dict.bytesInto i < needle) = true) 0 dict.len
      (rankBelow dict.terms needle) := by
  refine (rankBelow_point h needle).congr fun i _ hi => ?_
  rw [bytesInto_eq hi, decide_eq_true_eq]

theorem encodeExact_eq (h : dict.terms.SortedLT) (t : Str) :
    dict.encodeExact t = rankOf dict.terms t := by
  have hpoint : IsPartitionPoint (fun i => compareBytes (dict.bytesInto i) t = .lt) 0 dict.len
      (rankBelow dict.terms t) := by
    refine (rankBelow_point h t).congr fun i _ hi => ?_
    rw [bytesInto_eq hi, compareBytes_eq_lt_iff]
  have hone : ∀ i, 0 ≤ i → i < dict.len → compareBytes (dict.bytesInto i) t = .eq →
      i = rankBelow dict.terms t := by
    intro i _ hi heq
    rw [compareBytes_eq_eq_iff, bytesInto_eq hi] at heq
    rw [← heq, rankBelow_getD h hi]
  have hhit : rankBelow dict.terms t < dict.len ∧
      compareBytes (dict.bytesInto (rankBelow dict.terms t)) t = .eq ↔
      dict.terms[rankBelow dict.terms t]? = some t := by
    rw [List.getElem?_eq_some_iff]
    constructor
    · rintro ⟨hlt, heq⟩
      rw [compareBytes_eq_eq_iff, bytesInto_eq hlt, List.getD_eq_getElem _ _ hlt] at heq
      exact ⟨hlt, heq⟩
    · rintro ⟨hlt, heq⟩
      refine ⟨hlt, ?_⟩
      rw [compareBytes_eq_eq_iff, bytesInto_eq hlt, List.getD_eq_getElem _ _ hlt]
      exact heq
  rw [encodeExact, findBy_eq hpoint hone, rankOf]
  simp only [hhit]

theorem lowerBound_eq (h : dict.terms.SortedLT) (needle : Str) :
    dict.lowerBound needle = rankBelow dict.terms needle :=
  lowerBoundBy_eq (below_point h needle)

theorem prefixRange_eq (h : dict.terms.SortedLT) (pre : Str) :
    dict.prefixRange pre = prefixCodes dict.terms pre := by
  have hbound : dict.lowerBound = rankBelow dict.terms := funext (lowerBound_eq h)
  rw [prefixRange, hbound]
  rfl

theorem encode_eq (h : dict.terms.SortedLT) (ox : Oxrdf) (t : Str) :
    dict.encode ox t = lookupTolerant ox dict.terms t := by
  have hexact : dict.encodeExact = rankOf dict.terms := funext (encodeExact_eq h)
  rw [encode, hexact]
  rfl

/-! ### A batch -/

/-- The exact lookups of the positions left, the bound before them no higher than any
of theirs. -/
theorem encodeSorted_spec (h : dict.terms.SortedLT) {ts : List Str} {order : List ℕ} {start : ℕ}
    {codes : List (Option TermCode)}
    (hsorted : order.Pairwise fun a b => ts.getD a [] ≤ ts.getD b [])
    (hstart : ∀ p ∈ order, p < codes.length ∧ start ≤ rankBelow dict.terms (ts.getD p [])) :
    (dict.encodeSorted ts order start codes).length = codes.length ∧
    ∀ p, (dict.encodeSorted ts order start codes).getD p none =
      if p ∈ order ∧ (rankOf dict.terms (ts.getD p [])).isSome then rankOf dict.terms (ts.getD p [])
      else codes.getD p none := by
  induction order generalizing start codes with
  | nil => simp [encodeSorted]
  | cons place order ih =>
    obtain ⟨hplace, hbound⟩ := hstart place List.mem_cons_self
    obtain ⟨needle, hneedle⟩ : ∃ needle, needle = ts.getD place [] := ⟨_, rfl⟩
    have hrank : nextLowerBoundBy start dict.len (order.length + 1)
        (fun i => dict.bytesInto i < needle) = rankBelow dict.terms needle := by
      refine nextLowerBoundBy_eq dict.len_le_usizeMax ?_
      exact (below_point h needle).narrow (Nat.zero_le _) le_rfl (hneedle ▸ hbound)
        (rankBelow_le _ _)
    -- the search lands on the needle's rank, so its hit is the exact lookup's
    have hhit : (rankBelow dict.terms needle < dict.len ∧
        dict.bytesInto (rankBelow dict.terms needle) = needle) ↔
        dict.terms[rankBelow dict.terms needle]? = some needle := by
      rw [List.getElem?_eq_some_iff]
      constructor
      · rintro ⟨hlt, heq⟩
        rw [bytesInto_eq hlt, List.getD_eq_getElem _ _ hlt] at heq
        exact ⟨hlt, heq⟩
      · rintro ⟨hlt, heq⟩
        exact ⟨hlt, by rw [bytesInto_eq hlt, List.getD_eq_getElem _ _ hlt]; exact heq⟩
    have hnext : ∀ p ∈ order, rankBelow dict.terms needle ≤ rankBelow dict.terms (ts.getD p []) := by
      intro p hp
      rw [hneedle]
      exact rankBelow_mono h (List.rel_of_pairwise_cons hsorted hp)
    rw [encodeSorted]
    simp only [← hneedle, hrank, hhit]
    by_cases hfound : dict.terms[rankBelow dict.terms needle]? = some needle
    · have hof : rankOf dict.terms needle = some (rankBelow dict.terms needle) := by
        rw [rankOf, if_pos hfound]
      rw [if_pos hfound]
      obtain ⟨hlen, hget⟩ := @ih (rankBelow dict.terms needle)
        (codes.set place (some (rankBelow dict.terms needle))) hsorted.of_cons
        fun p hp => ⟨by rw [List.length_set]; exact (hstart p (List.mem_cons_of_mem _ hp)).1,
          hnext p hp⟩
      refine ⟨by rw [hlen, List.length_set], fun p => ?_⟩
      rw [hget, CountingSort.getD_set]
      by_cases hp : p = place
      · have hanswer : rankOf dict.terms (ts.getD p []) = some (rankBelow dict.terms needle) := by
          rw [hp, ← hneedle, hof]
        have hwritten : place = p ∧ place < codes.length := ⟨hp.symm, hplace⟩
        rw [hanswer, if_pos hwritten, ite_self, if_pos ⟨List.mem_cons.mpr (Or.inl hp), rfl⟩]
      · have hmem : p ∈ place :: order ↔ p ∈ order := by simp [hp]
        rw [if_neg (show ¬ (place = p ∧ _) from fun hand => hp hand.1.symm)]
        simp only [hmem]
    · have hof : rankOf dict.terms needle = none := by rw [rankOf, if_neg hfound]
      rw [if_neg hfound]
      obtain ⟨hlen, hget⟩ := @ih (rankBelow dict.terms needle) codes
        hsorted.of_cons fun p hp => ⟨(hstart p (List.mem_cons_of_mem _ hp)).1, hnext p hp⟩
      refine ⟨hlen, fun p => ?_⟩
      rw [hget]
      by_cases hp : p = place
      · have hmiss : rankOf dict.terms (ts.getD p []) = none := by rw [hp, ← hneedle, hof]
        rw [hmiss, if_neg (by simp), if_neg (by simp)]
      · have hmem : p ∈ place :: order ↔ p ∈ order := by simp [hp]
        simp only [hmem]

/-- The exact lookups of a whole batch. -/
theorem encodeSorted_all (h : dict.terms.SortedLT) {ts : List Str} {order : List ℕ}
    (horder : ByteOrder ts order) :
    dict.encodeSorted ts order 0 (List.replicate ts.length none) = ts.map (rankOf dict.terms) := by
  obtain ⟨hlen, hget⟩ := @encodeSorted_spec dict h ts order 0 (List.replicate ts.length none)
    horder.ascending fun p hp => ⟨by rw [List.length_replicate]; exact (horder.mem_iff p).mp hp,
      Nat.zero_le _⟩
  rw [List.length_replicate] at hlen
  refine List.ext_getElem (by rw [hlen, List.length_map]) fun p hp hp' => ?_
  rw [List.length_map] at hp'
  have hval := hget p
  rw [List.getD_eq_getElem _ _ hp, List.getD_eq_getElem _ _ hp'] at hval
  rw [hval, List.getElem_map, List.getD_eq_getElem _ _ (by rwa [List.length_replicate]),
    List.getElem_replicate]
  by_cases hsome : (rankOf dict.terms ts[p]).isSome
  · rw [if_pos ⟨(horder.mem_iff p).mpr hp', hsome⟩]
  · rw [if_neg fun hand => hsome hand.2, Option.not_isSome_iff_eq_none.mp hsome]

/-- The lookups of a batch whose exact ones are known, the misses in input order. -/
theorem mapM_misses (ox : Oxrdf) (terms ts : List Str) :
    ((ts.map (rankOf terms)).zip ts).mapM (fun p => match p.1 with
      | some code => Except.ok (some code)
      | none => (tolerantFallback ox p.2).map fun canonical => canonical.bind (rankOf terms)) =
      ts.mapM (lookupTolerant ox terms) := by
  induction ts with
  | nil => rfl
  | cons t ts ih =>
    rw [List.map_cons, List.zip_cons_cons, List.mapM_cons, List.mapM_cons, ih]
    rfl

theorem encodeMany_eq (h : dict.terms.SortedLT) (ox : Oxrdf) (ts : List Str) :
    dict.encodeMany ox ts = ts.mapM (lookupTolerant ox dict.terms) := by
  have hexact : dict.encodeExact = rankOf dict.terms := funext (encodeExact_eq h)
  rw [encodeMany, encodeSorted_all h (byteOrder_spec ts), hexact]
  exact mapM_misses ox dict.terms ts

/-- A decoded batch: each position with the term of its code, if any. -/
theorem decodeManyWith_eq (codes : List TermCode) :
    dict.decodeManyWith codes = codes.zipIdx.map fun p => (p.2, dict.terms[p.1]?) := by
  rw [decodeManyWith]
  refine List.map_congr_left fun p _ => ?_
  rcases Nat.lt_or_ge p.1 dict.terms.length with hlt | hge
  · have hget : dict.terms[p.1]? = some (DictCursor.strAt dict p.1) := by
      rw [DictCursor.strAt_eq dict hlt, List.getD_eq_getElem _ _ hlt, List.getElem?_eq_getElem hlt]
    have hrank : codeRank p.1 dict.len = some p.1 := by rw [codeRank, TermDictionary.len, if_pos hlt]
    simp only [hget, hrank, Option.map_some]
  · rw [List.getElem?_eq_none hge]
    simp [codeRank, TermDictionary.len, Nat.not_lt.mpr hge]

end TermDictionary

end Dictionary
