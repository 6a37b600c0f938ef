/-
The searches of a sorted dictionary, and the resident one's answers.

A search probes ranks and reads one term a probe: it bisects, stops at the first
hit, or steps out from where the search before it landed.

* `lowerBoundBy`, `gallopLowerBoundBy`, `nextLowerBoundBy`, `findBy` — the searches,
  each with the partition point it finds;
* `prefixSuccessor`, `prefixRangeFrom`, `tolerantFallback` — what turns a lookup into
  another;
* `TermDictionary.encodeExact`, `lowerBound`, `prefixRange`, `encode`, `encodeMany`,
  `decodeManyWith` — the lookups of the resident dictionary.
-/
import VortexRdf.DictionaryReads
import VortexRdf.Joins
import VortexRdf.Lexicographic
import VortexRdf.PartitionPoint

namespace Dictionary

open Ascending Bisect Store Terms
open Columns (saturatingMul)
open scoped Lexicographic

/-! ### Searches -/

/-- Bisection of `[lo, hi)`, at most `fuel` splits. -/
def lowerBoundLoop (isBelow : ℕ → Bool) : ℕ → ℕ → ℕ → ℕ
  | 0, lo, _ => lo
  | fuel + 1, lo, hi =>
    if lo < hi then
      let mid := lo + (hi - lo) / 2
      if isBelow mid then lowerBoundLoop isBelow fuel (mid + 1) hi
      else lowerBoundLoop isBelow fuel lo mid
    else lo

def lowerBoundBy (lo hi : ℕ) (isBelow : ℕ → Bool) : ℕ := lowerBoundLoop isBelow (hi - lo) lo hi

/-- The steps out from `lo`, each twice the one before; every position before `lo` is
below. -/
def gallopLoop (isBelow : ℕ → Bool) (stop : ℕ) : ℕ → ℕ → ℕ → ℕ
  | 0, _, _ => stop
  | fuel + 1, lo, step =>
    if lo < stop then
      let probe := min (saturatingAdd lo (step - 1)) (stop - 1)
      if isBelow probe then gallopLoop isBelow stop fuel (probe + 1) (saturatingMul step 2)
      else lowerBoundBy lo probe isBelow
    else stop

def gallopLowerBoundBy (start stop : ℕ) (isBelow : ℕ → Bool) : ℕ :=
  gallopLoop isBelow stop (stop - start) start 1

/-- The bound of the next of `left` sorted needles. -/
def nextLowerBoundBy (start stop left : ℕ) (isBelow : ℕ → Bool) : ℕ :=
  if stop - start < saturatingMul left left then gallopLowerBoundBy start stop isBelow
  else lowerBoundBy start stop isBelow

def findLoop (cmp : ℕ → Ordering) : ℕ → ℕ → ℕ → Option ℕ
  | 0, _, _ => none
  | fuel + 1, lo, hi =>
    if lo < hi then
      let mid := lo + (hi - lo) / 2
      match cmp mid with
      | .lt => findLoop cmp fuel (mid + 1) hi
      | .eq => some mid
      | .gt => findLoop cmp fuel lo mid
    else none

def findBy (lo hi : ℕ) (cmp : ℕ → Ordering) : Option ℕ := findLoop cmp (hi - lo) lo hi

section Searches

variable {isBelow : ℕ → Bool} {lo hi k : ℕ}

theorem lowerBoundLoop_eq : ∀ {fuel lo hi : ℕ}, hi - lo ≤ fuel →
    IsPartitionPoint (fun i => isBelow i = true) lo hi k → lowerBoundLoop isBelow fuel lo hi = k
  | 0, lo, hi, hfuel, h => by
    have hge := h.ge
    have hle := h.le
    rw [lowerBoundLoop]
    omega
  | fuel + 1, lo, hi, hfuel, h => by
    have hge := h.ge
    have hle := h.le
    rw [lowerBoundLoop]
    by_cases hlt : lo < hi
    · rw [if_pos hlt]
      have hmid : lo + (hi - lo) / 2 < hi := by omega
      have hside := h.lt_iff (Nat.le_add_right lo _) hmid
      by_cases hbelow : isBelow (lo + (hi - lo) / 2) = true
      · have hk := hside.mpr hbelow
        simp only [hbelow, if_true]
        exact lowerBoundLoop_eq (by omega) (h.narrow (by omega) le_rfl hk hle)
      · have hk := mt hside.mp hbelow
        simp only [hbelow, Bool.false_eq_true, if_false]
        exact lowerBoundLoop_eq (by omega) (h.narrow le_rfl hmid.le hge (by omega))
    · rw [if_neg hlt]
      omega

/-- The bisection returns the partition point of its range. -/
theorem lowerBoundBy_eq (h : IsPartitionPoint (fun i => isBelow i = true) lo hi k) :
    lowerBoundBy lo hi isBelow = k :=
  lowerBoundLoop_eq le_rfl h

theorem gallopLoop_eq {stop : ℕ} (hstop : stop ≤ usizeMax) : ∀ {fuel lo step : ℕ},
    stop - lo ≤ fuel → 1 ≤ step → IsPartitionPoint (fun i => isBelow i = true) lo stop k →
    gallopLoop isBelow stop fuel lo step = k
  | 0, lo, step, hfuel, _, h => by
    have hge := h.ge
    have hle := h.le
    rw [gallopLoop]
    omega
  | fuel + 1, lo, step, hfuel, hstep, h => by
    have hge := h.ge
    have hle := h.le
    rw [gallopLoop]
    by_cases hlt : lo < stop
    · rw [if_pos hlt]
      obtain ⟨probe, hprobe⟩ : ∃ probe, probe = min (saturatingAdd lo (step - 1)) (stop - 1) :=
        ⟨_, rfl⟩
      -- a saturated step still probes inside the range
      have hin : lo ≤ probe ∧ probe < stop := by
        rw [hprobe, saturatingAdd]
        omega
      simp only [← hprobe]
      have hside := h.lt_iff hin.1 hin.2
      by_cases hbelow : isBelow probe = true
      · have hk := hside.mpr hbelow
        rw [if_pos hbelow]
        have hdouble : 1 ≤ saturatingMul step 2 := by
          have hmax : 1 ≤ usizeMax := by decide
          rw [saturatingMul]
          omega
        exact gallopLoop_eq hstop (by omega) hdouble (h.narrow (by omega) le_rfl hk hle)
      · have hk := mt hside.mp hbelow
        rw [if_neg hbelow]
        exact lowerBoundBy_eq (h.narrow le_rfl hin.2.le hge (by omega))
    · rw [if_neg hlt]
      omega

/-- Either way the next search returns the partition point of its range. -/
theorem nextLowerBoundBy_eq {left : ℕ} (hhi : hi ≤ usizeMax)
    (h : IsPartitionPoint (fun i => isBelow i = true) lo hi k) :
    nextLowerBoundBy lo hi left isBelow = k := by
  rw [nextLowerBoundBy]
  split_ifs with hmany
  · exact gallopLoop_eq hhi le_rfl le_rfl h
  · exact lowerBoundBy_eq h

theorem findLoop_eq {cmp : ℕ → Ordering} : ∀ {fuel lo hi : ℕ}, hi - lo ≤ fuel →
    IsPartitionPoint (fun i => cmp i = .lt) lo hi k → (∀ i, lo ≤ i → i < hi → cmp i = .eq → i = k) →
    findLoop cmp fuel lo hi = if k < hi ∧ cmp k = .eq then some k else none
  | 0, lo, hi, hfuel, h, _ => by
    have hge := h.ge
    rw [findLoop, if_neg (by omega)]
  | fuel + 1, lo, hi, hfuel, h, hone => by
    have hge := h.ge
    have hle := h.le
    rw [findLoop]
    by_cases hlt : lo < hi
    · rw [if_pos hlt]
      obtain ⟨mid, hmid⟩ : ∃ mid, mid = lo + (hi - lo) / 2 := ⟨_, rfl⟩
      have hin : lo ≤ mid ∧ mid < hi := by omega
      simp only [← hmid]
      cases hcmp : cmp mid with
      | lt =>
        have hk := (h.lt_iff hin.1 hin.2).mpr hcmp
        exact findLoop_eq (by omega) (h.narrow (by omega) le_rfl hk hle)
          fun i hi₁ => hone i (by omega)
      | eq =>
        obtain rfl := hone mid hin.1 hin.2 hcmp
        simp [hin.2, hcmp]
      | gt =>
        have hk := mt (h.lt_iff hin.1 hin.2).mp (by simp [hcmp])
        -- a hit is before the probe, for the probe itself is none
        have hhit : k < mid ∧ cmp k = .eq ↔ k < hi ∧ cmp k = .eq := by
          refine ⟨fun hand => ⟨by omega, hand.2⟩, fun hand => ⟨?_, hand.2⟩⟩
          refine Nat.lt_of_le_of_ne (by omega) fun heq => ?_
          rw [heq, hcmp] at hand
          exact nomatch hand.2
        have hrest : findLoop cmp fuel lo mid = if k < mid ∧ cmp k = .eq then some k else none :=
          findLoop_eq (by omega) (h.narrow le_rfl hin.2.le hge (by omega))
            fun i hi₁ hi₂ => hone i hi₁ (by omega)
        simp only [hrest, hhit]
    · rw [if_neg hlt, if_neg (by omega)]

/-- The early-exit bisection returns the one hit, which is the partition point. -/
theorem findBy_eq {cmp : ℕ → Ordering} (h : IsPartitionPoint (fun i => cmp i = .lt) lo hi k)
    (hone : ∀ i, lo ≤ i → i < hi → cmp i = .eq → i = k) :
    findBy lo hi cmp = if k < hi ∧ cmp k = .eq then some k else none :=
  findLoop_eq le_rfl h hone

end Searches

/-! ### Ranks -/

/-- The order of two spellings, byte by byte. -/
def compareBytes (a b : Str) : Ordering := if a < b then .lt else if a = b then .eq else .gt

theorem compareBytes_eq_lt_iff {a b : Str} : compareBytes a b = .lt ↔ a < b := by
  rw [compareBytes]
  split_ifs with hlt heq <;> simp [*]

theorem compareBytes_eq_eq_iff {a b : Str} : compareBytes a b = .eq ↔ a = b := by
  rw [compareBytes]
  split_ifs with hlt heq
  · simp [ne_of_lt hlt]
  · simp [heq]
  · simp [heq]

theorem compareBytes_eq_gt_iff {a b : Str} : compareBytes a b = .gt ↔ b < a := by
  rw [compareBytes]
  split_ifs with hlt heq
  · simp [hlt.le]
  · simp [heq]
  · simp [lt_of_le_of_ne (not_lt.mp hlt) (Ne.symm heq)]

/-- How many terms lie below a string. -/
def rankBelow (terms : List Str) (needle : Str) : ℕ := partitionPoint (· < needle) terms

/-- The rank of a term among the sorted ones. -/
def rankOf (terms : List Str) (t : Str) : Option ℕ :=
  if terms[rankBelow terms t]? = some t then some (rankBelow terms t) else none

section Ranks

variable {terms : List Str}

theorem getD_lt_iff (h : terms.SortedLT) {i j : ℕ} (hi : i < terms.length) (hj : j < terms.length) :
    terms.getD i [] < terms.getD j [] ↔ i < j := by
  rw [List.getD_eq_getElem _ _ hi, List.getD_eq_getElem _ _ hj]
  exact h.strictMono_get.lt_iff_lt (a := ⟨i, hi⟩) (b := ⟨j, hj⟩)

theorem getD_le_iff (h : terms.SortedLT) {i j : ℕ} (hi : i < terms.length) (hj : j < terms.length) :
    terms.getD i [] ≤ terms.getD j [] ↔ i ≤ j := by
  rw [← not_lt, getD_lt_iff h hj hi, not_lt]

theorem rankBelow_le (terms : List Str) (needle : Str) : rankBelow terms needle ≤ terms.length :=
  partitionPoint_le _ terms

/-- The terms below a string are those of the ranks before its own. -/
theorem rankBelow_point (h : terms.SortedLT) (needle : Str) :
    IsPartitionPoint (fun i => terms.getD i [] < needle) 0 terms.length (rankBelow terms needle) where
  ge := Nat.zero_le _
  le := rankBelow_le terms needle
  before i _ hi := by
    obtain ⟨t, ht, hlt⟩ := holds_before_partitionPoint hi
    rw [List.getD_eq_getElem?_getD, ht]
    exact of_decide_eq_true hlt
  after i hi hlen hlt := by
    have hk : rankBelow terms needle < terms.length := lt_of_le_of_lt hi hlen
    have hfail := fails_at_partitionPoint (List.getElem?_eq_getElem hk)
    rw [decide_eq_false_iff_not, not_lt, ← List.getD_eq_getElem _ [] hk] at hfail
    exact absurd (lt_of_le_of_lt (hfail.trans ((getD_le_iff h hk hlen).mpr hi)) hlt) (lt_irrefl _)

theorem lt_rankBelow_iff (h : terms.SortedLT) {needle : Str} {i : ℕ} (hi : i < terms.length) :
    i < rankBelow terms needle ↔ terms.getD i [] < needle :=
  (rankBelow_point h needle).lt_iff (Nat.zero_le i) hi

theorem rankBelow_getD (h : terms.SortedLT) {i : ℕ} (hi : i < terms.length) :
    rankBelow terms (terms.getD i []) = i := by
  refine (rankBelow_point h (terms.getD i [])).unique ⟨Nat.zero_le i, hi.le, ?_, ?_⟩
  · intro j _ hj
    exact (getD_lt_iff h (by omega) hi).mpr hj
  · intro j hij hj hlt
    exact absurd ((getD_lt_iff h hj hi).mp hlt) (Nat.not_lt.mpr hij)

theorem rankBelow_mono (h : terms.SortedLT) {a b : Str} (hab : a ≤ b) :
    rankBelow terms a ≤ rankBelow terms b := by
  by_contra hlt
  have hb : rankBelow terms b < terms.length := lt_of_lt_of_le (Nat.lt_of_not_le hlt) (rankBelow_le _ _)
  have hbelow := (lt_rankBelow_iff h hb).mp (Nat.lt_of_not_le hlt)
  exact absurd ((lt_rankBelow_iff h hb).mpr (lt_of_lt_of_le hbelow hab)) (lt_irrefl _)

theorem rankOf_eq_some_iff (h : terms.SortedLT) {t : Str} {k : ℕ} :
    rankOf terms t = some k ↔ terms[k]? = some t := by
  rw [rankOf]
  constructor
  · intro hk
    split_ifs at hk with hhit
    obtain rfl := Option.some.inj hk
    exact hhit
  · intro ht
    obtain ⟨hk, hget⟩ := List.getElem?_eq_some_iff.mp ht
    have hrank : rankBelow terms t = k := by
      rw [← hget, ← List.getD_eq_getElem _ [] hk, rankBelow_getD h hk]
    rw [hrank, if_pos ht]

theorem rankOf_getD (h : terms.SortedLT) {i : ℕ} (hi : i < terms.length) :
    rankOf terms (terms.getD i []) = some i := by
  rw [rankOf_eq_some_iff h, List.getD_eq_getElem _ _ hi, List.getElem?_eq_getElem hi]

theorem rankOf_eq_none_iff (h : terms.SortedLT) {t : Str} : rankOf terms t = none ↔ t ∉ terms := by
  rw [Option.eq_none_iff_forall_ne_some, List.mem_iff_getElem?]
  simp only [ne_eq, rankOf_eq_some_iff h, not_exists]

end Ranks

/-! ### What turns a lookup into another -/

/-- The prefix without its trailing `0xff` bytes, its last byte raised; none when
nothing is left to raise. -/
def prefixSuccessor (pre : Str) : Option Str :=
  match (pre.reverse.dropWhile (· == 0xff)) with
  | [] => none
  | last :: rest => some (rest.reverse ++ [last + 1])

structure CodeRange where
  start : TermCode
  stop : TermCode
deriving DecidableEq, Repr

def CodeRange.contains (range : CodeRange) (code : TermCode) : Bool :=
  range.start ≤ code && code < range.stop

def prefixRangeFrom (lo : TermCode) (hi : Option TermCode) (stop : TermCode) : CodeRange :=
  ⟨lo, max (hi.getD stop) lo⟩

/-- The spelling a failed exact lookup retries with. -/
def tolerantFallback (ox : Oxrdf) (t : Str) : Except VortexRdfError (Option Str) :=
  (canonicalSpelling ox t).map fun canonical => if canonical ≠ t then some canonical else none

/-- The codes of the terms that begin with `pre`. -/
def prefixCodes (terms : List Str) (pre : Str) : CodeRange :=
  prefixRangeFrom (rankBelow terms pre) ((prefixSuccessor pre).map (rankBelow terms)) terms.length

theorem prefixSuccessor_spec (pre : Str) :
    (prefixSuccessor pre = none ∧ ∀ b ∈ pre, b = 0xff) ∨
      ∃ q b f, pre = q ++ b :: f ∧ b ≠ 0xff ∧ (∀ c ∈ f, c = 0xff) ∧
        prefixSuccessor pre = some (q ++ [b + 1]) := by
  have hsplit := List.takeWhile_append_dropWhile (p := (· == (0xff : UInt8))) (l := pre.reverse)
  have htail : ∀ c ∈ pre.reverse.takeWhile (· == (0xff : UInt8)), c = 0xff := by
    intro c hc
    simpa using List.all_eq_true.mp List.all_takeWhile c hc
  rw [prefixSuccessor]
  cases hdrop : pre.reverse.dropWhile (· == (0xff : UInt8)) with
  | nil =>
    rw [hdrop, List.append_nil] at hsplit
    refine Or.inl ⟨rfl, fun b hb => htail b ?_⟩
    rw [hsplit]
    exact List.mem_reverse.mpr hb
  | cons last rest =>
    have hlast : last ≠ 0xff := by
      have hhead := List.head_dropWhile_not (p := (· == (0xff : UInt8))) (l := pre.reverse)
        (by rw [hdrop]; exact List.cons_ne_nil _ _)
      simpa [hdrop] using hhead
    rw [hdrop] at hsplit
    refine Or.inr ⟨rest.reverse, last, (pre.reverse.takeWhile (· == (0xff : UInt8))).reverse, ?_,
      hlast, fun c hc => htail c (List.mem_reverse.mp hc), rfl⟩
    have hrev := congrArg List.reverse hsplit
    rw [List.reverse_append, List.reverse_reverse, List.reverse_cons, List.append_assoc] at hrev
    exact hrev.symm

/-- A code of the dictionary is in the range of a prefix just when its term begins
with it. -/
theorem mem_prefixCodes {terms : List Str} (h : terms.SortedLT) (pre : Str) {code : ℕ}
    (hcode : code < terms.length) :
    (prefixCodes terms pre).contains code = true ↔ pre <+: terms.getD code [] := by
  have hlow : rankBelow terms pre ≤ code ↔ pre ≤ terms.getD code [] := by
    rw [← not_lt, lt_rankBelow_iff h hcode, not_lt]
  rw [prefixCodes, prefixRangeFrom, CodeRange.contains, Bool.and_eq_true, decide_eq_true_eq,
    decide_eq_true_eq, hlow]
  rcases prefixSuccessor_spec pre with ⟨hnone, htop⟩ | ⟨q, b, f, hpre, hb, hf, hsome⟩
  · have hhigh : code < max terms.length (rankBelow terms pre) := lt_max_of_lt_left hcode
    rw [hnone, Lexicographic.tops_le_iff fun b hb => by rw [htop b hb]; exact Lexicographic.isTop_byte]
    exact and_iff_left hhigh
  · have hbetween := Lexicographic.between_iff_begins (q := q) (t := terms.getD code [])
      (Lexicographic.byte_next hb) fun c hc => by rw [hf c hc]; exact Lexicographic.isTop_byte
    rw [hsome, hpre, Option.map_some, Option.getD_some, ← hbetween, ← hpre]
    -- past the prefix itself the end of the range is the rank of its successor
    have hhigh : code < max (rankBelow terms (q ++ [b + 1])) (rankBelow terms pre) ↔
        terms.getD code [] < q ++ [b + 1] ∨ terms.getD code [] < pre := by
      rw [lt_max_iff, lt_rankBelow_iff h hcode, lt_rankBelow_iff h hcode]
    rw [hhigh]
    constructor
    · rintro ⟨hge, hlt | hlt⟩
      · exact ⟨hge, hlt⟩
      · exact absurd hlt (not_lt.mpr hge)
    · rintro ⟨hge, hlt⟩
      exact ⟨hge, Or.inl hlt⟩

/-! ### The resident dictionary -/

namespace TermDictionary

variable (dict : TermDictionary) (ox : Oxrdf)

def len : ℕ := dict.terms.length

/-- A single-term read finds the term's chunk as a cursor does. -/
def bytesInto (i : ℕ) : Str := DictCursor.strAt dict i

def encodeExact (t : Str) : Option TermCode := findBy 0 dict.len fun i => compareBytes (dict.bytesInto i) t

def lowerBound (needle : Str) : TermCode :=
  lowerBoundBy 0 dict.len fun i => dict.bytesInto i < needle

def prefixRange (pre : Str) : CodeRange :=
  prefixRangeFrom (dict.lowerBound pre) ((prefixSuccessor pre).map dict.lowerBound) dict.len

def encode (t : Str) : Except VortexRdfError (Option TermCode) :=
  match dict.encodeExact t with
  | some code => .ok (some code)
  | none => (tolerantFallback ox t).map fun canonical => canonical.bind dict.encodeExact

/-- The exact lookups of the terms at `order`, each from where the one before
landed. -/
def encodeSorted (terms : List Str) : List ℕ → ℕ → List (Option TermCode) → List (Option TermCode)
  | [], _, codes => codes
  | place :: order, start, codes =>
    let needle := terms.getD place []
    let rank := nextLowerBoundBy start dict.len (order.length + 1) fun i => dict.bytesInto i < needle
    encodeSorted terms order rank
      (if rank < dict.len ∧ dict.bytesInto rank = needle then codes.set place (some rank) else codes)

end TermDictionary

/-- The positions of the terms in their byte order; equal terms may come in any. -/
def byteOrder (terms : List Str) : List ℕ :=
  (List.range terms.length).mergeSort fun a b => terms.getD a [] ≤ terms.getD b []

namespace TermDictionary

variable (dict : TermDictionary) (ox : Oxrdf)

def encodeMany (terms : List Str) : Except VortexRdfError (List (Option TermCode)) :=
  let codes := dict.encodeSorted terms (byteOrder terms) 0 (List.replicate terms.length none)
  (codes.zip terms).mapM fun (code, t) =>
    match code with
    | some code => .ok (some code)
    | none => (tolerantFallback ox t).map fun canonical => canonical.bind dict.encodeExact

/-- The visits of the codes, each with its position. -/
def decodeManyWith (codes : List TermCode) : List (ℕ × Option Str) :=
  codes.zipIdx.map fun (code, i) => (i, (codeRank code dict.len).map (DictCursor.strAt dict))

end TermDictionary

end Dictionary
