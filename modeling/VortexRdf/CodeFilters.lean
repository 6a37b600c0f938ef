/-
Candidate codes filtered by a predicate.

Most candidates are decided by their kind or by the code range of a prefix, and only
the others are read.

* `kindVerdicts`, `iriPrefixToDecide`, `decideIris`, `splitVerdicts` — the steps of a
  filter;
* `Settled` — every verdict is the evaluation's but for the candidates left to read;
* `TermDictionary.filterCodes` — the resident dictionary's filter;
* `filterCodes_evaluates` — it passes and leaves undecided what the evaluation of each
  candidate's spelling does.
-/
import VortexRdf.Predicates
import VortexRdf.ResidentLookups

namespace Dictionary

open Ascending Store Terms
open scoped Lexicographic
open FileBackedDict (checkCandidates)

section Steps

variable {fl : Floats} (predicate : TermPredicate fl)

/-- Each candidate's verdict from its kind, unknown where its spelling decides, and the
places of those candidates. -/
def kindVerdicts (kinds : KindRanges) (codes : List TermCode) : List Verdict × List ℕ :=
  (codes.map fun code => (predicate.kindVerdict (kinds.kindOfCode code)).getD .unknown,
    (codes.zipIdx.filter fun p => (predicate.kindVerdict (kinds.kindOfCode p.1)).isNone).map (·.2))

def iriPrefixToDecide (bracketedIris : Bool) (kinds : KindRanges) (codes : List TermCode)
    (read : List ℕ) : Option Str :=
  if !bracketedIris then none
  else predicate.iriPrefix.bind fun pre =>
    if read.any fun place => kinds.iris.contains (codes.getD place 0) then some pre else none

/-- The addresses taken out of the candidates to read, each with its verdict from the
range of those that pass. -/
def decideIris (verdicts : List Verdict) (read : List ℕ) (codes : List TermCode)
    (iris passing : CodeRange) : List Verdict × List ℕ :=
  (read.foldl (fun verdicts place =>
      if iris.contains (codes.getD place 0) then
        verdicts.set place (Verdict.ofBool (passing.contains (codes.getD place 0)))
      else verdicts) verdicts,
    read.filter fun place => !iris.contains (codes.getD place 0))

/-- The candidates that pass, and those left undecided. -/
def splitVerdicts (codes : List TermCode) (verdicts : List Verdict) :
    List TermCode × List TermCode :=
  (((codes.zip verdicts).filter fun p => p.2 = .true).map (·.1),
    ((codes.zip verdicts).filter fun p => p.2 = .unknown).map (·.1))

/-- The verdicts of the places left to read, from their spellings. -/
def readVerdicts (spelling : TermCode → Str) (codes : List TermCode) (verdicts : List Verdict)
    (read : List ℕ) : List Verdict :=
  read.foldl (fun verdicts place =>
    verdicts.set place (predicate.eval (spelling (codes.getD place 0)))) verdicts

end Steps

/-! ### The resident dictionary -/

namespace TermDictionary

variable (dict : TermDictionary)

def kindRanges : KindRanges :=
  KindRanges.new 0 (decide (0 < dict.len) && (dict.bytesInto 0).isEmpty)
    (dict.prefixRange [QUOTE]) (dict.prefixRange [0x3c]) (dict.prefixRange BLANK_PREFIX) dict.len

/-- `predicate` over candidates that ascend strictly inside the dictionary. -/
def filterCodes {fl : Floats} (bracketedIris : Bool) (predicate : TermPredicate fl)
    (codes : List TermCode) : Except VortexRdfError (List TermCode × List TermCode) := do
  checkCandidates codes dict.len
  let kinds := dict.kindRanges
  let (verdicts, read) := kindVerdicts predicate kinds codes
  let (verdicts, read) :=
    match iriPrefixToDecide predicate bracketedIris kinds codes read with
    | some pre => decideIris verdicts read codes kinds.iris (dict.prefixRange (0x3c :: pre))
    | none => (verdicts, read)
  return splitVerdicts codes (readVerdicts predicate (DictCursor.strAt dict) codes verdicts read)

end TermDictionary

/-! ### Kinds of codes -/

/-- The kind ranges of the sorted terms. -/
def kindRangesOf (terms : List Str) : KindRanges :=
  KindRanges.new 0 (terms.head?.any List.isEmpty) (prefixCodes terms [QUOTE])
    (prefixCodes terms [0x3c]) (prefixCodes terms BLANK_PREFIX) terms.length

/-- A spelling with a blank node's first byte begins as one. -/
def BlanksSpelled (terms : List Str) : Prop :=
  ∀ t ∈ terms, t.head? = some 0x5f → BLANK_PREFIX <+: t

/-- Every address is spelled `<`, its text, `>`. -/
def IrisBracketed (terms : List Str) : Prop :=
  ∀ t ∈ terms, t.head? = some 0x3c → [0x3e] <:+ t

theorem TermDictionary.kindRanges_eq {dict : TermDictionary} (h : dict.terms.SortedLT) :
    dict.kindRanges = kindRangesOf dict.terms := by
  have hprefix : dict.prefixRange = prefixCodes dict.terms := funext (prefixRange_eq h)
  have hfirst : (decide (0 < dict.len) && (dict.bytesInto 0).isEmpty) =
      dict.terms.head?.any List.isEmpty := by
    cases hterms : dict.terms with
    | nil => simp [TermDictionary.len, hterms]
    | cons t rest =>
      have hpos : 0 < dict.len := by rw [TermDictionary.len, hterms]; exact Nat.succ_pos _
      rw [bytesInto_eq hpos, hterms]
      simp [hpos]
  rw [kindRanges, hprefix, hfirst]
  rfl

section Kinds

variable {terms : List Str}

theorem singleton_begins {b : UInt8} {t : Str} : [b] <+: t ↔ t.head? = some b := by
  cases t with
  | nil => simp
  | cons a t => simp [eq_comm]

/-- A code's kind, read off the ranges, is its spelling's. -/
theorem kindOfCode_eq (h : terms.SortedLT) (hblank : BlanksSpelled terms) {code : ℕ}
    (hcode : code < terms.length) :
    (kindRangesOf terms).kindOfCode code = kindOf (terms.getD code []) := by
  obtain ⟨t, ht⟩ : ∃ t, t = terms.getD code [] := ⟨_, rfl⟩
  have hmem : t ∈ terms := by
    rw [ht, List.getD_eq_getElem _ _ hcode]
    exact List.getElem_mem hcode
  have hliteral : (prefixCodes terms [QUOTE]).contains code = true ↔ kindOf t = .literal := by
    rw [mem_prefixCodes h _ hcode, ← ht, singleton_begins, kindOf_literal_iff]
  have hiri : (prefixCodes terms [0x3c]).contains code = true ↔ kindOf t = .iri := by
    rw [mem_prefixCodes h _ hcode, ← ht, singleton_begins, kindOf_iri_iff]
  have hblanks : (prefixCodes terms BLANK_PREFIX).contains code = true ↔ kindOf t = .blank := by
    rw [mem_prefixCodes h _ hcode, ← ht, kindOf_blank_iff]
    constructor
    · rintro ⟨rest, hrest⟩
      rw [← hrest]
      rfl
    · exact hblank t hmem
  rw [← ht, KindRanges.kindOfCode]
  simp only [kindRangesOf, KindRanges.new, hliteral, hiri, hblanks]
  cases hk : kindOf t <;> simp

/-- Among bracketed addresses the codes of `<` and a prefix are those that pass it. -/
theorem eval_of_prefixCodes {fl : Floats} {predicate : TermPredicate fl} (h : terms.SortedLT)
    (hbracketed : IrisBracketed terms) {pre : Str} (hpre : predicate.iriPrefix = some pre)
    {code : ℕ} (hcode : code < terms.length)
    (hiri : (prefixCodes terms [0x3c]).contains code = true) :
    predicate.eval (terms.getD code []) =
      Verdict.ofBool ((prefixCodes terms (0x3c :: pre)).contains code) := by
  have hmem : terms.getD code [] ∈ terms := by
    rw [List.getD_eq_getElem _ _ hcode]
    exact List.getElem_mem hcode
  rw [mem_prefixCodes h _ hcode, singleton_begins] at hiri
  rw [eval_of_iriPrefix hpre (kindOf_iri_iff.mpr hiri) (hbracketed _ hmem hiri)]
  congr 1
  rw [Bool.eq_iff_iff, List.isPrefixOf_iff_prefix, mem_prefixCodes h _ hcode]

end Kinds

/-! ### Verdicts settled -/

/-- Every verdict is its candidate's but for those left to read. -/
structure Settled (value : ℕ → Verdict) (count : ℕ) (verdicts : List Verdict) (read : List ℕ) :
    Prop where
  length : verdicts.length = count
  rest : ∀ p < count, p ∉ read → verdicts.getD p .unknown = value p

/-- Writes at some places of a list, each of a value of its own. -/
theorem foldl_set_spec {α : Type} (writes : ℕ → Bool) (value : ℕ → α) (d : α) (read : List ℕ) :
    ∀ l : List α,
    (read.foldl (fun l place => if writes place then l.set place (value place) else l) l).length =
        l.length ∧
      ∀ p, (read.foldl (fun l place => if writes place then l.set place (value place) else l) l).getD
        p d = if p ∈ read ∧ writes p = true ∧ p < l.length then value p else l.getD p d := by
  induction read with
  | nil => simp
  | cons place read ih =>
    intro l
    rw [List.foldl_cons]
    by_cases hwrite : writes place = true
    · rw [if_pos hwrite]
      obtain ⟨hlen, hget⟩ := ih (l.set place (value place))
      refine ⟨by rw [hlen, List.length_set], fun p => ?_⟩
      rw [hget, List.length_set, CountingSort.getD_set]
      by_cases hp : p = place
      · subst hp
        by_cases hin : p < l.length
        · rw [if_pos (show p = p ∧ p < l.length from ⟨rfl, hin⟩), ite_self,
            if_pos ⟨List.mem_cons_self, hwrite, hin⟩]
        · rw [if_neg fun hand => hin hand.2.2, if_neg fun hand => hin hand.2,
            if_neg fun hand => hin hand.2.2]
      · have hmem : p ∈ place :: read ↔ p ∈ read := by simp [hp]
        rw [if_neg (show ¬ (place = p ∧ _) from fun hand => hp hand.1.symm)]
        simp only [hmem]
    · rw [if_neg hwrite]
      obtain ⟨hlen, hget⟩ := ih l
      refine ⟨hlen, fun p => ?_⟩
      rw [hget]
      by_cases hp : p = place
      · subst hp
        simp [hwrite]
      · have hmem : p ∈ place :: read ↔ p ∈ read := by simp [hp]
        simp only [hmem]

section Filters

variable {fl : Floats} {predicate : TermPredicate fl} {terms : List Str} {codes : List TermCode}

/-- What the evaluation answers for the candidate at a place. -/
def evalAt (predicate : TermPredicate fl) (terms : List Str) (codes : List TermCode) (p : ℕ) :
    Verdict :=
  predicate.eval (terms.getD (codes.getD p 0) [])

theorem mem_toRead {kinds : KindRanges} {p : ℕ} :
    p ∈ (kindVerdicts predicate kinds codes).2 ↔ p < codes.length ∧
      predicate.kindVerdict (kinds.kindOfCode (codes.getD p 0)) = none := by
  rw [kindVerdicts]
  simp only [List.mem_map, List.mem_filter, Option.isNone_iff_eq_none, Prod.exists,
    exists_eq_right, List.mem_zipIdx_iff_getElem?]
  constructor
  · rintro ⟨code, hcode, hnone⟩
    obtain ⟨hp, hget⟩ := List.getElem?_eq_some_iff.mp hcode
    rw [List.getD_eq_getElem _ _ hp, hget]
    exact ⟨hp, hnone⟩
  · rintro ⟨hp, hnone⟩
    rw [List.getD_eq_getElem _ _ hp] at hnone
    exact ⟨codes[p], List.getElem?_eq_getElem hp, hnone⟩

theorem getD_lt (hin : ∀ code ∈ codes, code < terms.length) {p : ℕ} (hp : p < codes.length) :
    codes.getD p 0 < terms.length := by
  rw [List.getD_eq_getElem _ _ hp]
  exact hin _ (List.getElem_mem hp)

/-- What the kinds leave to read apart, the verdicts are settled. -/
theorem kindVerdicts_settled (h : terms.SortedLT) (hblank : BlanksSpelled terms)
    (hin : ∀ code ∈ codes, code < terms.length) :
    Settled (evalAt predicate terms codes) codes.length
      (kindVerdicts predicate (kindRangesOf terms) codes).1
      (kindVerdicts predicate (kindRangesOf terms) codes).2 where
  length := List.length_map _
  rest p hp hout := by
    rw [mem_toRead, not_and] at hout
    obtain ⟨v, hv⟩ := Option.ne_none_iff_exists'.mp (hout hp)
    have hcode := getD_lt hin hp
    rw [kindOfCode_eq h hblank hcode] at hv
    rw [kindVerdicts, evalAt, eval_of_kindVerdict hv, List.getD_eq_getElem _ _ (by simpa using hp),
      List.getElem_map, ← List.getD_eq_getElem _ 0 hp, kindOfCode_eq h hblank hcode, hv]
    rfl

/-- Addresses decided by the range of a prefix are settled too. -/
theorem decideIris_settled (h : terms.SortedLT) (hbracketed : IrisBracketed terms)
    (hin : ∀ code ∈ codes, code < terms.length) {pre : Str} (hpre : predicate.iriPrefix = some pre)
    {verdicts : List Verdict} {read : List ℕ}
    (hsettled : Settled (evalAt predicate terms codes) codes.length verdicts read) :
    Settled (evalAt predicate terms codes) codes.length
      (decideIris verdicts read codes (prefixCodes terms [0x3c]) (prefixCodes terms (0x3c :: pre))).1
      (decideIris verdicts read codes (prefixCodes terms [0x3c])
        (prefixCodes terms (0x3c :: pre))).2 := by
  obtain ⟨hlen, hget⟩ := foldl_set_spec
    (fun place => (prefixCodes terms [0x3c]).contains (codes.getD place 0))
    (fun place => Verdict.ofBool ((prefixCodes terms (0x3c :: pre)).contains (codes.getD place 0)))
    .unknown read verdicts
  refine ⟨hlen.trans hsettled.length, fun p hp hout => ?_⟩
  rw [decideIris] at hout ⊢
  rw [hget, hsettled.length]
  by_cases hmem : p ∈ read
  · have hiri : (prefixCodes terms [0x3c]).contains (codes.getD p 0) = true := by
      by_contra hno
      exact hout (List.mem_filter.mpr ⟨hmem, by simpa using hno⟩)
    rw [if_pos ⟨hmem, hiri, hp⟩, evalAt,
      eval_of_prefixCodes h hbracketed hpre (getD_lt hin hp) hiri]
  · rw [if_neg fun hand => hmem hand.1, hsettled.rest p hp hmem]

/-- Once the places left are read every verdict is the evaluation's. -/
theorem readVerdicts_eq {spelling : TermCode → Str}
    (hspelling : ∀ code ∈ codes, spelling code = terms.getD code []) {verdicts : List Verdict}
    {read : List ℕ} (hsettled : Settled (evalAt predicate terms codes) codes.length verdicts read) :
    readVerdicts predicate spelling codes verdicts read =
      codes.map fun code => predicate.eval (terms.getD code []) := by
  obtain ⟨hlen, hget⟩ := foldl_set_spec (fun _ => true)
    (fun place => predicate.eval (spelling (codes.getD place 0))) .unknown read verdicts
  have hfold : readVerdicts predicate spelling codes verdicts read =
      read.foldl (fun l place => if (fun _ => true) place = true then
        l.set place (predicate.eval (spelling (codes.getD place 0))) else l) verdicts := rfl
  rw [← hfold] at hlen hget
  refine List.ext_getElem (by rw [hlen, hsettled.length, List.length_map]) fun p hp hp' => ?_
  rw [List.length_map] at hp'
  rw [List.getElem_map, ← List.getD_eq_getElem _ .unknown hp, hget, hsettled.length]
  by_cases hmem : p ∈ read
  · rw [if_pos ⟨hmem, rfl, hp'⟩, List.getD_eq_getElem _ _ hp', hspelling _ (List.getElem_mem hp')]
  · rw [if_neg fun hand => hmem hand.1, hsettled.rest p hp' hmem, evalAt,
      List.getD_eq_getElem _ _ hp']

theorem splitVerdicts_eq (f : TermCode → Verdict) : splitVerdicts codes (codes.map f) =
    (codes.filter fun code => f code = .true, codes.filter fun code => f code = .unknown) := by
  have hzip : ∀ v : Verdict, ((codes.zip (codes.map f)).filter fun p => p.2 = v).map (·.1) =
      codes.filter fun code => f code = v := by
    intro v
    induction codes with
    | nil => rfl
    | cons code codes ih =>
      rw [List.map_cons, List.zip_cons_cons]
      by_cases hv : f code = v
      · rw [List.filter_cons_of_pos (by simpa using hv), List.filter_cons_of_pos (by simpa using hv),
          List.map_cons, ih]
      · rw [List.filter_cons_of_neg (by simpa using hv), List.filter_cons_of_neg (by simpa using hv),
          ih]
  rw [splitVerdicts, hzip, hzip]

/-- The places decided, by kind and then by a prefix. -/
theorem decided_settled (h : terms.SortedLT) (hblank : BlanksSpelled terms) {bracketedIris : Bool}
    (hbracketed : bracketedIris = true → IrisBracketed terms)
    (hin : ∀ code ∈ codes, code < terms.length) {verdicts : List Verdict} {read : List ℕ}
    (hfirst : kindVerdicts predicate (kindRangesOf terms) codes = (verdicts, read)) :
    Settled (evalAt predicate terms codes) codes.length verdicts read ∧
    ∀ pre, iriPrefixToDecide predicate bracketedIris (kindRangesOf terms) codes read = some pre →
      Settled (evalAt predicate terms codes) codes.length
        (decideIris verdicts read codes (kindRangesOf terms).iris (prefixCodes terms (0x3c :: pre))).1
        (decideIris verdicts read codes (kindRangesOf terms).iris
          (prefixCodes terms (0x3c :: pre))).2 := by
  have hsettled := @kindVerdicts_settled fl predicate terms codes h hblank hin
  rw [hfirst] at hsettled
  refine ⟨hsettled, fun pre hdecide => ?_⟩
  rw [iriPrefixToDecide] at hdecide
  cases hflag : bracketedIris with
  | false => simp [hflag] at hdecide
  | true =>
    obtain ⟨p, hp, hsome⟩ : ∃ p, predicate.iriPrefix = some p ∧ p = pre := by
      simp only [hflag, Bool.not_true, Bool.false_eq_true, if_false] at hdecide
      obtain ⟨p, hp, hif⟩ := Option.bind_eq_some_iff.mp hdecide
      split_ifs at hif
      exact ⟨p, hp, Option.some.inj hif⟩
    exact decideIris_settled h (hbracketed hflag) hin (hsome ▸ hp) hsettled

end Filters

/-- What the filter of the candidates answers over the sorted terms. -/
def filtered {fl : Floats} (predicate : TermPredicate fl) (terms : List Str) (codes : List TermCode) :
    List TermCode × List TermCode :=
  (codes.filter fun code => predicate.eval (terms.getD code []) = .true,
    codes.filter fun code => predicate.eval (terms.getD code []) = .unknown)

theorem TermDictionary.filterCodes_eq {dict : TermDictionary} (h : dict.terms.SortedLT)
    (hblank : BlanksSpelled dict.terms) {bracketedIris : Bool}
    (hbracketed : bracketedIris = true → IrisBracketed dict.terms) {fl : Floats}
    (predicate : TermPredicate fl) {codes : List TermCode} (hcodes : codes.SortedLT)
    (hin : ∀ code ∈ codes, code < dict.terms.length) :
    dict.filterCodes bracketedIris predicate codes = .ok (filtered predicate dict.terms codes) := by
  have hprefix : dict.prefixRange = prefixCodes dict.terms := funext (prefixRange_eq h)
  rcases hfirst : kindVerdicts predicate (kindRangesOf dict.terms) codes with ⟨verdicts, read⟩
  obtain ⟨hsettled, hdecided⟩ := decided_settled h hblank hbracketed hin hfirst
  have hspelling : ∀ code ∈ codes, DictCursor.strAt dict code = dict.terms.getD code [] :=
    fun code hcode => DictCursor.strAt_eq dict (hin code hcode)
  have hcheck : checkCandidates codes dict.len = .ok () := checkCandidates_eq_ok hcodes hin
  rw [filterCodes, hcheck, kindRanges_eq h, hprefix, filtered]
  simp only [hfirst]
  cases hpre : iriPrefixToDecide predicate bracketedIris (kindRangesOf dict.terms) codes read with
  | none =>
    have hread := readVerdicts_eq hspelling hsettled
    simp only [hread, splitVerdicts_eq]
    rfl
  | some pre =>
    have hread := readVerdicts_eq hspelling (hdecided pre hpre)
    simp only [hread, splitVerdicts_eq]
    rfl

/-! ### The filter evaluates -/

/-- Lean's floating-point types, reading whole numbers only. -/
def leanFloats : Floats where
  F32 := Float32
  F64 := Float
  parse32 s := (digitsValue s).map Float32.ofInt
  parse64 s := (digitsValue s).map Float.ofInt
  isFinite32 := Float32.isFinite
  isFinite64 := Float.isFinite
  partialCmp32 a b := if a < b then some .lt else if a == b then some .eq
    else if b < a then some .gt else none
  partialCmp64 a b := if a < b then some .lt else if a == b then some .eq
    else if b < a then some .gt else none
  widen := Float32.toFloat
  narrow := Float.toFloat32
  ofInt := Float.ofInt
  add := (· + ·)
  div := (· / ·)
  nextUp f := Float32.ofBits (f.toBits + 1)
  nextDown f := Float32.ofBits (f.toBits - 1)

/-- A graph's empty name, a literal, two addresses and a blank node. -/
def everyKind : TermDictionary :=
  ⟨[[[], [QUOTE, 0x61, QUOTE]], [[0x3c, 0x61, 0x3e], [0x3c, 0x62, 0x3e]], [[0x5f, 0x3a, 0x61]]],
    by decide⟩

/-- `STR(?x)` begins with `a`. -/
def beginsWithA : TermPredicate leanFloats := .text ⟨.pre [0x61], none, true⟩

theorem everyKind_sorted : everyKind.terms.SortedLT := List.Pairwise.sortedLT (by decide)

theorem everyKind_blanks : BlanksSpelled everyKind.terms :=
  (by decide : ∀ t ∈ everyKind.terms, t.head? = some 0x5f → BLANK_PREFIX <+: t)

theorem everyKind_bracketed : IrisBracketed everyKind.terms :=
  (by decide : ∀ t ∈ everyKind.terms, t.head? = some 0x3c → [0x3e] <:+ t)

/-- **Filtering codes evaluates each candidate's spelling**: it passes those the
predicate holds of and leaves undecided those it does not decide, and the verdicts it
takes from kinds and from the range of a prefix are the evaluation's. -/
theorem filterCodes_evaluates {dict : TermDictionary} (h : dict.terms.SortedLT)
    (hblank : BlanksSpelled dict.terms) {bracketedIris : Bool}
    (hbracketed : bracketedIris = true → IrisBracketed dict.terms) {fl : Floats}
    (predicate : TermPredicate fl) {codes : List TermCode} (hcodes : codes.SortedLT)
    (hin : ∀ code ∈ codes, code < dict.len) :
    (∃ passed undecided, dict.filterCodes bracketedIris predicate codes = .ok (passed, undecided) ∧
      passed.SortedLT ∧ undecided.SortedLT ∧
      (∀ code, code ∈ passed ↔
        code ∈ codes ∧ predicate.eval (dict.terms.getD code []) = .true) ∧
      ∀ code, code ∈ undecided ↔
        code ∈ codes ∧ predicate.eval (dict.terms.getD code []) = .unknown) ∧
    (∀ code < dict.len, ∀ verdict,
      predicate.kindVerdict (dict.kindRanges.kindOfCode code) = some verdict →
      predicate.eval (dict.terms.getD code []) = verdict) ∧
    (bracketedIris = true → ∀ pre, predicate.iriPrefix = some pre → ∀ code < dict.len,
      dict.kindRanges.iris.contains code = true →
      predicate.eval (dict.terms.getD code []) =
        Verdict.ofBool ((dict.prefixRange (0x3c :: pre)).contains code)) := by
  refine ⟨⟨_, _, TermDictionary.filterCodes_eq h hblank hbracketed predicate hcodes hin,
    Ascending.filter hcodes _, Ascending.filter hcodes _, fun code => ?_, fun code => ?_⟩, ?_, ?_⟩
  · rw [List.mem_filter, decide_eq_true_eq]
  · rw [List.mem_filter, decide_eq_true_eq]
  · intro code hcode verdict hverdict
    rw [TermDictionary.kindRanges_eq h, kindOfCode_eq h hblank hcode] at hverdict
    exact eval_of_kindVerdict hverdict
  · intro hflag pre hpre code hcode hiri
    rw [TermDictionary.kindRanges_eq h] at hiri
    rw [TermDictionary.prefixRange_eq h]
    exact eval_of_prefixCodes h (hbracketed hflag) hpre hcode hiri

theorem filterCodes_evaluates_everyKind :
    ∃ passed undecided, everyKind.filterCodes true beginsWithA [0, 1, 2, 3, 4] =
      .ok (passed, undecided) ∧ 2 ∈ passed ∧ 0 ∈ undecided := by
  obtain ⟨⟨passed, undecided, hrun, -, -, hpassed, hundecided⟩, -⟩ :=
    @filterCodes_evaluates everyKind everyKind_sorted everyKind_blanks true
      (fun _ => everyKind_bracketed) leanFloats beginsWithA [0, 1, 2, 3, 4]
      (List.Pairwise.sortedLT (by decide)) (by decide)
  exact ⟨passed, undecided, hrun, (hpassed 2).mpr ⟨by decide, by decide⟩,
    (hundecided 0).mpr ⟨by decide, by decide⟩⟩

end Dictionary
