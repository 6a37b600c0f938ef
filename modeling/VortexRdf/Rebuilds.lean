/-
A Dictionary store rebuilt from its codes.

The terms the live base rows use are decoded once each and merged with the tail's own; every
base code moves to its term's new rank and the rows are sorted as integers.

* `markUsed`, `markTail` — the ranks in use, and the tail's terms the dictionary lacks;
* `mergeRanks`, `Merging` — the used terms merged with the fresh ones, each old rank beside
  its new one;
* `rebuildFromCodes`, `rebuildFromCodes_eq` — the rebuild is the dataset of the rows' quads.
-/
import VortexRdf.InternedBuilds
import VortexRdf.ResidentLookups
import VortexRdf.TailMatch

namespace Builds

open Dictionary DistinctSort Programs Store Terms
open scoped Lexicographic

/-! ### The terms in use -/

def unknownCode (code : TermCode) : VortexRdfError :=
  .serialization [.text ("code " ++ toString code ++ " names no term of the dictionary")]

/-- The ranks of the codes, marked. -/
def markUsed (dict : TermDictionary) : List TermCode → List Bool → Except VortexRdfError (List Bool)
  | [], used => .ok used
  | code :: codes, used =>
    match codeRank code dict.len with
    | some rank => markUsed dict codes (used.set rank true)
    | none => .error (unknownCode code)

/-- The tail's terms: those the dictionary holds are marked, the others are fresh. -/
def markTail (dict : TermDictionary) (terms : List Str) (used : List Bool) : List Bool × List Str :=
  terms.foldl (fun state t =>
    match (dict.encodeExact t).bind fun code => codeRank code dict.len with
    | some rank => (state.1.set rank true, state.2)
    | none => (state.1, state.2 ++ [t])) (used, [])

def decode (dict : TermDictionary) (code : TermCode) : Option Str :=
  (codeRank code dict.len).map dict.bytesInto

/-- The terms merged so far, the new rank of each old one among them, and the fresh terms
still to come. -/
structure Merged where
  terms : List Str
  newRankOf : List ℕ
  fresh : List Str

/-- A used term after the fresh ones below it. -/
def mergeRank (dict : TermDictionary) (m : Merged) (rank : ℕ) : Except VortexRdfError Merged :=
  match decode dict rank with
  | none => .error (unknownCode rank)
  | some term =>
    let terms := m.terms ++ m.fresh.takeWhile (· < term)
    .ok ⟨terms ++ [term], m.newRankOf.set rank terms.length, m.fresh.dropWhile (· < term)⟩

def mergeRanks (dict : TermDictionary) : List ℕ → Merged → Except VortexRdfError Merged
  | [], m => .ok m
  | rank :: ranks, m =>
    match mergeRank dict m rank with
    | .error e => .error e
    | .ok m => mergeRanks dict ranks m

/-- A code of the old dictionary as the new one's. -/
def recode (dict : TermDictionary) (newRankOf : List ℕ) (code : TermCode) :
    Except VortexRdfError TermCode :=
  match codeRank code dict.len with
  | some rank => .ok (newRankOf.getD rank usizeMax)
  | none => .error (unknownCode code)

/-- The new code of a tail term, found among the merged terms. -/
def codeOf (terms : List Str) (t : Str) : Except VortexRdfError TermCode :=
  match rankOf terms t with
  | some rank => .ok rank
  | none => .error (.serialization [.text "tail term ", .display t, .text " lost"])

def rebuildFromCodes (dict : TermDictionary) (base : QuadCodes) (tail : List RawQuad)
    (indexes : List IndexType) : Except VortexRdfError BuiltArray := do
  let used ← markUsed dict (base.s ++ base.p ++ base.o ++ base.g) (List.replicate dict.len false)
  let (used, fresh) := markTail dict (distinctSort (tail.flatMap fun q => (rawRow q).terms)) used
  let merged ← mergeRanks dict ((List.range dict.len).filter fun rank => used.getD rank false)
    ⟨[], List.replicate dict.len usizeMax, fresh⟩
  let terms := merged.terms ++ merged.fresh
  let freshDict ← fromSortedColumn terms
  let baseRows ← base.rows.mapM (Row.mapM (recode dict merged.newRankOf))
  let tailRows ← tail.mapM fun q => (rawRow q).mapM (codeOf terms)
  let codes := QuadCodes.ofRows (distinctSort (baseRows ++ tailRows))
  let components ← buildComponents indexes codes
  return ⟨buildCodeChunk codes 0 codes.s.length true, components, freshDict⟩

/-! ### What is marked -/

section Marks

variable {dict : TermDictionary}

theorem codeRank_of_lt {code len : ℕ} (h : code < len) : codeRank code len = some code := by
  rw [codeRank, if_pos h]

theorem markUsed_spec {codes : List TermCode} : ∀ {used : List Bool},
    (∀ code ∈ codes, code < dict.len) → used.length = dict.len → ∃ used',
      markUsed dict codes used = .ok used' ∧ used'.length = dict.len ∧
      ∀ rank < dict.len, used'.getD rank false = true ↔ used.getD rank false = true ∨ rank ∈ codes := by
  induction codes with
  | nil =>
    intro used _ hlen
    exact ⟨used, rfl, hlen, by simp⟩
  | cons code codes ih =>
    intro used hlt hlen
    have hcode := hlt code List.mem_cons_self
    obtain ⟨used', hmark, hlen', hused⟩ := @ih (used.set code true)
      (fun c hc => hlt c (List.mem_cons_of_mem _ hc)) (by rw [List.length_set, hlen])
    refine ⟨used', by rw [markUsed, codeRank_of_lt hcode]; exact hmark, hlen', fun rank hrank => ?_⟩
    rw [hused rank hrank, CountingSort.getD_set, hlen]
    by_cases heq : code = rank
    · rw [if_pos ⟨heq, hcode⟩]
      simp [heq]
    · rw [if_neg (show ¬ (code = rank ∧ _) from fun hand => heq hand.1)]
      simp [Ne.symm heq]

theorem markTail_spec (h : dict.terms.SortedLT) {terms : List Str} : ∀ {used : List Bool}
    {fresh : List Str}, used.length = dict.len → ∃ used',
      terms.foldl (fun state t =>
        match (dict.encodeExact t).bind fun code => codeRank code dict.len with
        | some rank => (state.1.set rank true, state.2)
        | none => (state.1, state.2 ++ [t])) (used, fresh) =
        (used', fresh ++ terms.filter (· ∉ dict.terms)) ∧
      ∀ rank < dict.len, used'.getD rank false = true ↔
        used.getD rank false = true ∨ dict.terms.getD rank [] ∈ terms := by
  induction terms with
  | nil =>
    intro used fresh _
    exact ⟨used, by simp, by simp⟩
  | cons t terms ih =>
    intro used fresh hlen
    rw [List.foldl_cons, TermDictionary.encodeExact_eq h]
    cases hrank : rankOf dict.terms t with
    | none =>
      have hmem : t ∉ dict.terms := (rankOf_eq_none_iff h).mp hrank
      obtain ⟨used', hfold, hused⟩ := @ih used (fresh ++ [t]) hlen
      refine ⟨used', ?_, fun rank hlt => ?_⟩
      · rw [List.filter_cons_of_pos (by simpa using hmem)]
        simpa using hfold
      · have hne : dict.terms.getD rank [] ≠ t := fun heq => hmem (by
          rw [← heq, List.getD_eq_getElem _ _ hlt]
          exact List.getElem_mem hlt)
        rw [hused rank hlt, List.mem_cons, or_iff_right hne]
    | some k =>
      have hget := (rankOf_eq_some_iff h).mp hrank
      have hk : k < dict.len := (List.getElem?_eq_some_iff.mp hget).1
      have hmem : t ∈ dict.terms := List.mem_of_getElem? hget
      have hterm : dict.terms.getD k [] = t := by rw [List.getD_eq_getElem?_getD, hget]; rfl
      obtain ⟨used', hfold, hused⟩ := @ih (used.set k true) fresh (by rw [List.length_set, hlen])
      refine ⟨used', ?_, fun rank hlt => ?_⟩
      · rw [List.filter_cons_of_neg (by simpa using hmem), Option.bind_some, codeRank_of_lt hk]
        exact hfold
      · rw [hused rank hlt, CountingSort.getD_set, hlen, List.mem_cons]
        by_cases heq : k = rank
        · rw [if_pos ⟨heq, hk⟩]
          exact iff_of_true (Or.inl rfl) (Or.inr (Or.inl (heq ▸ hterm)))
        · have hne : dict.terms.getD rank [] ≠ t := fun hsame => heq (Option.some.inj (by
            rw [← hrank, ← hsame, rankOf_getD h hlt]))
          rw [if_neg (show ¬ (k = rank ∧ _) from fun hand => heq hand.1), or_iff_right hne]

end Marks

/-! ### The merge of the terms -/

section Merge

variable {dict : TermDictionary} {fresh : List Str}

theorem dropWhile_suffix {α : Type} (p : α → Bool) (l : List α) : l.dropWhile p <:+ l :=
  ⟨l.takeWhile p, List.takeWhile_append_dropWhile⟩

theorem decode_of_lt {rank : ℕ} (h : rank < dict.len) :
    decode dict rank = some (spell dict.terms rank) := by
  rw [decode, codeRank_of_lt h, Option.map_some, TermDictionary.bytesInto, DictCursor.strAt_eq dict h, spell]

/-- The terms at the ranks done and the fresh ones below them, in order, with the place of
each rank done. -/
structure Merging (dict : TermDictionary) (fresh : List Str) (done todo : List ℕ) (m : Merged) :
    Prop where
  sorted : (m.terms ++ m.fresh).SortedLT
  rest : m.fresh <:+ fresh
  below : ∀ x ∈ m.terms, ∀ rank ∈ todo, x < spell dict.terms rank
  mem : ∀ x, x ∈ m.terms ++ m.fresh ↔ x ∈ fresh ∨ ∃ rank ∈ done, spell dict.terms rank = x
  ranks : ∀ rank ∈ done, m.terms[m.newRankOf.getD rank usizeMax]? = some (spell dict.terms rank)
  len : m.newRankOf.length = dict.len

theorem Merging.start (hfresh : fresh.SortedLT) (todo : List ℕ) :
    Merging dict fresh [] todo ⟨[], List.replicate dict.len usizeMax, fresh⟩ :=
  ⟨hfresh, List.suffix_rfl, by simp, by simp, by simp, List.length_replicate⟩

/-- A rank merged: its term comes after those before it and the fresh ones below it. -/
theorem Merging.step {done todo : List ℕ} {rank : ℕ} {m : Merged} (hdict : dict.terms.SortedLT)
    (hnew : ∀ x ∈ fresh, x ∉ dict.terms) (hrank : rank < dict.len)
    (htodo : ∀ next ∈ todo, rank < next ∧ next < dict.len)
    (h : Merging dict fresh done (rank :: todo) m) :
    ∃ m', mergeRank dict m rank = .ok m' ∧ Merging dict fresh (done ++ [rank]) todo m' := by
  obtain ⟨x, hx⟩ : ∃ x, x = spell dict.terms rank := ⟨_, rfl⟩
  have hget : x = dict.terms[rank] := by rw [hx, spell, List.getD_eq_getElem _ _ hrank]
  have hlt : ∀ t ∈ m.terms, t < x := fun t ht => by
    rw [hx]
    exact h.below t ht rank List.mem_cons_self
  have hnotin : x ∉ m.terms ++ m.fresh := by
    intro hmem
    rcases List.mem_append.mp hmem with hterms | hfresh
    · exact lt_irrefl _ (hlt x hterms)
    · refine hnew x (h.rest.subset hfresh) ?_
      rw [hget]
      exact List.getElem_mem hrank
  -- what is merged so far lies below the term, so it goes behind the new terms below it
  have htake : (m.terms ++ m.fresh).takeWhile (· < x) = m.terms ++ m.fresh.takeWhile (· < x) :=
    List.takeWhile_append_of_pos (by simpa using hlt)
  have hdrop : (m.terms ++ m.fresh).dropWhile (· < x) = m.fresh.dropWhile (· < x) :=
    List.dropWhile_append_of_pos (by simpa using hlt)
  have hsorted := @sortedLT_insert _ _ _ h.sorted x hnotin (· < x) fun t => decide_eq_true_iff
  rw [htake, hdrop] at hsorted
  have hall : m.terms ++ m.fresh.takeWhile (· < x) ++ [x] ++ m.fresh.dropWhile (· < x) =
      m.terms ++ m.fresh.takeWhile (· < x) ++ x :: m.fresh.dropWhile (· < x) := by simp
  refine ⟨_, by rw [mergeRank, decode_of_lt hrank], ?_⟩
  simp only [← hx]
  refine ⟨?_, ?_, ?_, ?_, ?_, ?_⟩
  · rw [hall]
    exact hsorted
  · exact (dropWhile_suffix _ _).trans h.rest
  · intro t ht next hnext
    have hterm : x < spell dict.terms next := by
      rw [hget, spell, List.getD_eq_getElem _ _ (htodo next hnext).2]
      exact hdict.getElem_lt_getElem_iff.mpr (htodo next hnext).1
    simp only [List.mem_append, List.mem_singleton] at ht
    rcases ht with (hold | hbelow) | rfl
    · exact h.below t hold next (List.mem_cons_of_mem _ hnext)
    · exact lt_trans (by simpa using List.mem_takeWhile_imp hbelow) hterm
    · exact hterm
  · intro t
    have hsplit : t ∈ m.fresh ↔ t ∈ m.fresh.takeWhile (· < x) ∨ t ∈ m.fresh.dropWhile (· < x) := by
      rw [← List.mem_append, List.takeWhile_append_dropWhile]
    have hmem := h.mem t
    rw [List.mem_append, hsplit] at hmem
    simp only [List.mem_append, List.mem_singleton, or_and_right, exists_or, exists_eq_left, ← hx]
    rw [eq_comm, ← or_assoc, ← hmem]
    tauto
  · intro r hr
    simp only [CountingSort.getD_set, h.len]
    by_cases heq : rank = r
    · rw [if_pos ⟨heq, hrank⟩, ← heq, List.getElem?_concat_length, ← hx]
    · rw [if_neg (show ¬ (rank = r ∧ _) from fun hand => heq hand.1)]
      have hold := h.ranks r ((List.mem_append.mp hr).resolve_right (by simpa using Ne.symm heq))
      rw [List.append_assoc, List.getElem?_append_left (List.getElem?_eq_some_iff.mp hold).1, hold]
  · rw [List.length_set, h.len]

theorem mergeRanks_spec (hdict : dict.terms.SortedLT) (hnew : ∀ x ∈ fresh, x ∉ dict.terms)
    {todo : List ℕ} : ∀ {done : List ℕ} {m : Merged}, todo.SortedLT →
    (∀ rank ∈ todo, rank < dict.len) → Merging dict fresh done todo m →
    ∃ m', mergeRanks dict todo m = .ok m' ∧ Merging dict fresh (done ++ todo) [] m' := by
  induction todo with
  | nil =>
    intro done m _ _ h
    exact ⟨m, rfl, by rwa [List.append_nil]⟩
  | cons rank todo ih =>
    intro done m hsorted hlt h
    obtain ⟨hnext, hsorted⟩ := List.pairwise_cons.mp hsorted.pairwise
    obtain ⟨m', hm', h'⟩ := h.step hdict hnew (hlt rank List.mem_cons_self)
      fun next hmem => ⟨hnext next hmem, hlt next (List.mem_cons_of_mem _ hmem)⟩
    obtain ⟨m'', hm'', h''⟩ := ih hsorted.sortedLT
      (fun next hmem => hlt next (List.mem_cons_of_mem _ hmem)) h'
    refine ⟨m'', by rw [mergeRanks, hm']; exact hm'', ?_⟩
    rwa [List.append_assoc] at h''

end Merge

/-! ### The rebuild -/

section Rebuild

variable {dict : TermDictionary}

/-- The quads of some base rows, and a tail's. -/
def liveQuads (dict : TermDictionary) (rows : List (Row TermCode)) (tail : List RawQuad) :
    List (Row Str) := rows.map (Row.map (spell dict.terms)) ++ tail.map rawRow

variable {rows : List (Row TermCode)}

theorem mem_columns {code : TermCode} :
    code ∈ (QuadCodes.ofRows rows).s ++ (QuadCodes.ofRows rows).p ++ (QuadCodes.ofRows rows).o ++
      (QuadCodes.ofRows rows).g ↔ ∃ r ∈ rows, code ∈ r.terms := by
  simp only [QuadCodes.ofRows_eq, List.mem_append, List.mem_map, Row.terms, List.mem_cons,
    List.not_mem_nil, or_false, or_assoc, and_or_left, exists_or, @eq_comm _ code]

theorem mem_termsOf_liveQuads {tail : List RawQuad} {t : Str} :
    t ∈ termsOf (liveQuads dict rows tail) ↔ (∃ r ∈ rows, ∃ code ∈ r.terms, spell dict.terms code = t) ∨
      t ∈ tail.flatMap fun q => (rawRow q).terms := by
  have hterms : ∀ r : Row TermCode, (r.map (spell dict.terms)).terms = r.terms.map (spell dict.terms) :=
    fun _ => rfl
  rw [mem_termsOf, liveQuads]
  simp only [List.mem_append, or_and_right, exists_or, List.mem_map, List.mem_flatMap,
    exists_exists_and_eq_and, hterms]

/-- The merged terms are the terms still used, and a used rank's new place is its term's. -/
theorem mergeRanks_live (hdict : dict.terms.SortedLT)
    (hrows : ∀ r ∈ rows, ∀ code ∈ r.terms, code < dict.len) (tail : List RawQuad) :
    ∃ used used' fresh merged, markUsed dict ((QuadCodes.ofRows rows).s ++ (QuadCodes.ofRows rows).p ++
        (QuadCodes.ofRows rows).o ++ (QuadCodes.ofRows rows).g) (List.replicate dict.len false) = .ok used ∧
      markTail dict (distinctSort (tail.flatMap fun q => (rawRow q).terms)) used = (used', fresh) ∧
      mergeRanks dict ((List.range dict.len).filter fun rank => used'.getD rank false)
        ⟨[], List.replicate dict.len usizeMax, fresh⟩ = .ok merged ∧
      merged.terms ++ merged.fresh = termsOf (liveQuads dict rows tail) ∧
      ∀ r ∈ rows, ∀ code ∈ r.terms, merged.newRankOf.getD code usizeMax =
        (termsOf (liveQuads dict rows tail)).idxOf (spell dict.terms code) := by
  obtain ⟨tailTerms, htail⟩ : ∃ l, l = distinctSort (tail.flatMap fun q => (rawRow q).terms) := ⟨_, rfl⟩
  obtain ⟨used, hused, hlen, hmarked⟩ := @markUsed_spec dict _ (List.replicate dict.len false)
    (fun code hcode => by
      obtain ⟨r, hr, hmem⟩ := mem_columns.mp hcode
      exact hrows r hr code hmem) List.length_replicate
  obtain ⟨used', hmark, hmarked'⟩ := @markTail_spec dict hdict tailTerms used [] hlen
  rw [List.nil_append] at hmark
  obtain ⟨fresh, hfresh⟩ : ∃ l, l = tailTerms.filter (· ∉ dict.terms) := ⟨_, rfl⟩
  have hnew : ∀ x ∈ fresh, x ∉ dict.terms := fun x hx => by
    rw [hfresh] at hx
    simpa using (List.mem_filter.mp hx).2
  have hsorted : fresh.SortedLT := by
    rw [hfresh, htail]
    exact ((sortedLT_distinctSort _).pairwise.sublist List.filter_sublist).sortedLT
  obtain ⟨todo, htodo⟩ : ∃ l, l = (List.range dict.len).filter fun rank => used'.getD rank false :=
    ⟨_, rfl⟩
  have hrange : ∀ rank, rank ∈ todo ↔ rank < dict.len ∧ used'.getD rank false = true := by
    simp [htodo]
  obtain ⟨merged, hmerged, h⟩ := @mergeRanks_spec dict fresh hdict hnew todo [] _
    (by
      rw [htodo]
      exact ((List.sortedLT_range _).pairwise.sublist List.filter_sublist).sortedLT)
    (fun rank hrank => ((hrange rank).mp hrank).1) (Merging.start hsorted todo)
  rw [List.nil_append] at h
  -- a rank is used by a base row, or it is a term of the tail
  have hrank : ∀ rank, rank ∈ todo ↔ rank < dict.len ∧ ((∃ r ∈ rows, rank ∈ r.terms) ∨
      spell dict.terms rank ∈ tailTerms) := by
    intro rank
    rw [hrange]
    refine and_congr_right fun hlt => ?_
    rw [hmarked' rank hlt, hmarked rank hlt, mem_columns, List.getD_replicate _ hlt]
    simp [spell]
  have hterms : merged.terms ++ merged.fresh = termsOf (liveQuads dict rows tail) := by
    refine h.sorted.eq_of_mem_iff (sortedLT_termsOf _) fun t => ?_
    have htailMem : (t ∈ tail.flatMap fun q => (rawRow q).terms) ↔ t ∈ tailTerms := by
      rw [htail, mem_distinctSort]
    rw [h.mem, mem_termsOf_liveQuads, htailMem]
    constructor
    · rintro (hmem | ⟨rank, hin, rfl⟩)
      · rw [hfresh] at hmem
        exact Or.inr (List.mem_filter.mp hmem).1
      · rcases ((hrank rank).mp hin).2 with ⟨r, hr, hmem⟩ | hmem
        · exact Or.inl ⟨r, hr, rank, hmem, rfl⟩
        · exact Or.inr hmem
    · rintro (⟨r, hr, code, hcode, rfl⟩ | hmem)
      · exact Or.inr ⟨code, (hrank code).mpr ⟨hrows r hr code hcode, Or.inl ⟨r, hr, hcode⟩⟩, rfl⟩
      · by_cases hold : t ∈ dict.terms
        · obtain ⟨rank, hlt, hget⟩ := List.mem_iff_getElem.mp hold
          have hspell : spell dict.terms rank = t := by rw [spell, List.getD_eq_getElem _ _ hlt, hget]
          exact Or.inr ⟨rank, (hrank rank).mpr ⟨hlt, Or.inr (hspell ▸ hmem)⟩, hspell⟩
        · refine Or.inl ?_
          rw [hfresh]
          exact List.mem_filter.mpr ⟨hmem, by simpa using hold⟩
  refine ⟨used, used', fresh, merged, hused, ?_, ?_, hterms, fun r hr code hcode => ?_⟩
  · rw [← htail, hfresh]
    exact hmark
  · rw [← htodo]
    exact hmerged
  · have hat := h.ranks code ((hrank code).mpr ⟨hrows r hr code hcode, Or.inl ⟨r, hr, hcode⟩⟩)
    obtain ⟨hlt, hget⟩ := List.getElem?_eq_some_iff.mp hat
    have hlt' : merged.newRankOf.getD code usizeMax < (merged.terms ++ merged.fresh).length := by
      rw [List.length_append]
      omega
    have hplace : (merged.terms ++ merged.fresh)[merged.newRankOf.getD code usizeMax] =
        spell dict.terms code := by rw [List.getElem_append_left hlt, hget]
    rw [← hterms, ← hplace, h.sorted.nodup.idxOf_getElem]

/-- The rebuild from codes is the dataset of the quads they spell. -/
theorem rebuildFromCodes_eq (hdict : dict.terms.SortedLT)
    (hrows : ∀ r ∈ rows, ∀ code ∈ r.terms, code < dict.len) (tail : List RawQuad)
    (indexes : List IndexType) : rebuildFromCodes dict (QuadCodes.ofRows rows) tail indexes =
      built (liveQuads dict rows tail) indexes := by
  obtain ⟨used, used', fresh, merged, hused, hmark, hmerged, hterms, hranks⟩ :=
    mergeRanks_live hdict hrows tail
  -- each code becomes its term's place among the live terms, and each tail term too
  have hbase : rows.mapM (Row.mapM (recode dict merged.newRankOf)) = .ok (rows.map (Row.map fun code =>
      (termsOf (liveQuads dict rows tail)).idxOf (spell dict.terms code))) := by
    refine mapM_eq_ok fun r hr => Row.mapM_eq_ok fun code hcode => ?_
    rw [recode, codeRank_of_lt (hrows r hr code hcode), ← hranks r hr code hcode]
  have htail : (tail.mapM fun q => (rawRow q).mapM (codeOf (termsOf (liveQuads dict rows tail)))) =
      .ok (tail.map fun q => (rawRow q).map (termsOf (liveQuads dict rows tail)).idxOf) := by
    refine mapM_eq_ok fun q hq => Row.mapM_eq_ok fun t ht => ?_
    have hmem : t ∈ termsOf (liveQuads dict rows tail) :=
      mem_termsOf_liveQuads.mpr (Or.inr (List.mem_flatMap.mpr ⟨q, hq, ht⟩))
    rw [codeOf, (rankOf_eq_some_iff (sortedLT_termsOf _)).mpr (List.getElem?_idxOf hmem)]
  have hcodes : (rows.map (Row.map fun code =>
      (termsOf (liveQuads dict rows tail)).idxOf (spell dict.terms code)) ++
      tail.map fun q => (rawRow q).map (termsOf (liveQuads dict rows tail)).idxOf) =
      (liveQuads dict rows tail).map (Row.map (termsOf (liveQuads dict rows tail)).idxOf) := by
    rw [liveQuads, List.map_append, List.map_map, List.map_map]
    rfl
  rw [rebuildFromCodes, hused]
  change (do
    let state := markTail dict (distinctSort (tail.flatMap fun q => (rawRow q).terms)) used
    let merged ← mergeRanks dict ((List.range dict.len).filter fun rank => state.1.getD rank false)
      ⟨[], List.replicate dict.len usizeMax, state.2⟩
    let terms := merged.terms ++ merged.fresh
    let freshDict ← fromSortedColumn terms
    let baseRows ← (QuadCodes.ofRows rows).rows.mapM (Row.mapM (recode dict merged.newRankOf))
    let tailRows ← tail.mapM fun q => (rawRow q).mapM (codeOf terms)
    let codes := QuadCodes.ofRows (distinctSort (baseRows ++ tailRows))
    let components ← buildComponents indexes codes
    return (⟨buildCodeChunk codes 0 codes.s.length true, components, freshDict⟩ : BuiltArray)) = _
  rw [hmark, QuadCodes.rows_ofRows]
  simp only [hmerged]
  change (do
    let freshDict ← fromSortedColumn (merged.terms ++ merged.fresh)
    let baseRows ← rows.mapM (Row.mapM (recode dict merged.newRankOf))
    let tailRows ← tail.mapM fun q => (rawRow q).mapM (codeOf (merged.terms ++ merged.fresh))
    let codes := QuadCodes.ofRows (distinctSort (baseRows ++ tailRows))
    let components ← buildComponents indexes codes
    return (⟨buildCodeChunk codes 0 codes.s.length true, components, freshDict⟩ : BuiltArray)) = _
  rw [hterms, hbase, htail, built]
  cases fromSortedColumn (termsOf (liveQuads dict rows tail)) with
  | error e => rfl
  | ok freshDict =>
    change (do
      let components ← buildComponents indexes (QuadCodes.ofRows (distinctSort (_ ++ _)))
      return (⟨buildCodeChunk (QuadCodes.ofRows (distinctSort (_ ++ _))) 0
        (QuadCodes.ofRows (distinctSort (_ ++ _))).s.length true, components, freshDict⟩ :
          BuiltArray)) = _
    rw [hcodes, ← codeRows, QuadCodes.length_ofRows, buildCodeChunk_ofRows]
    rfl

end Rebuild

end Builds
