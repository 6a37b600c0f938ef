/-
Datasets built in memory.

The interning builder holds each term once under a provisional code and ranks the terms at
the end; a rebuild from sorted quads collects their terms and looks each one up.

* `internTerm`, `Interning` — terms numbered in arrival order, and quads as their numbers;
* `rankTable` — the rank of each number, from the numbers in rank order;
* `InterningQuadBuilder`, `finishInterned` — the interning builder;
* `buildPartsFromRaws` — the rebuild from sorted quads;
* `finishInterned_eq`, `buildPartsFromRaws_eq` — both build the dataset of their quads.
-/
import VortexRdf.Builds
import VortexRdf.CountingSort

namespace Builds

open Dictionary DistinctSort Programs Store Terms
open scoped Lexicographic

/-! ### Terms numbered as they arrive -/

section Interning

/-- The number of a term, which is new when no term before has it, and the terms then held. -/
def internTerm (terms : List Str) (t : Str) : ℕ × List Str :=
  if t ∈ terms then (terms.idxOf t, terms) else (terms.length, terms ++ [t])

def internRow (terms : List Str) (q : Row Str) : Row ℕ × List Str :=
  let (s, terms) := internTerm terms q.s
  let (p, terms) := internTerm terms q.p
  let (o, terms) := internTerm terms q.o
  let (g, terms) := internTerm terms q.g
  (⟨s, p, o, g⟩, terms)

/-- The term of a number. -/
def spell (terms : List Str) (id : ℕ) : Str := terms.getD id []

variable {terms : List Str}

theorem spell_append (more : List Str) {id : ℕ} (hid : id < terms.length) :
    spell (terms ++ more) id = spell terms id := by
  rw [spell, spell, List.getD_append _ _ _ _ hid]

/-- The terms held before and after, each new one among `ts`. -/
structure Extends (terms terms' ts : List Str) : Prop where
  more : terms <+: terms'
  nodup : terms'.Nodup
  used : ∀ t ∈ terms', t ∈ terms ∨ t ∈ ts

theorem internTerm_spec (h : terms.Nodup) (t : Str) :
    Extends terms (internTerm terms t).2 [t] ∧ (internTerm terms t).1 < (internTerm terms t).2.length ∧
      spell (internTerm terms t).2 (internTerm terms t).1 = t := by
  rw [internTerm]
  split_ifs with hmem
  · refine ⟨⟨List.prefix_rfl, h, fun t' ht' => Or.inl ht'⟩, List.idxOf_lt_length_of_mem hmem, ?_⟩
    rw [spell, List.getD_eq_getElem _ _ (List.idxOf_lt_length_of_mem hmem), List.getElem_idxOf]
  · refine ⟨⟨List.prefix_append _ _, ?_, fun t' ht' => List.mem_append.mp ht'⟩, by simp, ?_⟩
    · exact List.Nodup.append h (List.nodup_singleton t) (by simpa using hmem)
    · simp [spell]

theorem Extends.trans {terms' terms'' ts ts' : List Str} (h : Extends terms terms' ts)
    (h' : Extends terms' terms'' ts') : Extends terms terms'' (ts ++ ts') := by
  refine ⟨h.more.trans h'.more, h'.nodup, fun t ht => ?_⟩
  rcases h'.used t ht with hold | hnew
  · exact (h.used t hold).imp_right (List.mem_append_left _)
  · exact Or.inr (List.mem_append_right _ hnew)

theorem Extends.spell_eq {terms' ts : List Str} (h : Extends terms terms' ts) {id : ℕ}
    (hid : id < terms.length) : id < terms'.length ∧ spell terms' id = spell terms id := by
  obtain ⟨more, rfl⟩ := h.more
  exact ⟨by rw [List.length_append]; omega, spell_append more hid⟩

theorem internRow_spec (h : terms.Nodup) (q : Row Str) :
    Extends terms (internRow terms q).2 q.terms ∧
      (∀ id ∈ (internRow terms q).1.terms, id < (internRow terms q).2.length) ∧
      (internRow terms q).1.map (spell (internRow terms q).2) = q := by
  rw [internRow]
  rcases hs : internTerm terms q.s with ⟨s, terms₁⟩
  obtain ⟨hext, hlt, hspell⟩ := internTerm_spec h q.s
  rcases hp : internTerm terms₁ q.p with ⟨p, terms₂⟩
  rw [hs] at hext hlt hspell
  obtain ⟨hext₂, hlt₂, hspell₂⟩ := internTerm_spec hext.nodup q.p
  rcases ho : internTerm terms₂ q.o with ⟨o, terms₃⟩
  rw [hp] at hext₂ hlt₂ hspell₂
  obtain ⟨hext₃, hlt₃, hspell₃⟩ := internTerm_spec hext₂.nodup q.o
  rcases hg : internTerm terms₃ q.g with ⟨g, terms₄⟩
  rw [ho] at hext₃ hlt₃ hspell₃
  obtain ⟨hext₄, hlt₄, hspell₄⟩ := internTerm_spec hext₃.nodup q.g
  rw [hg] at hext₄ hlt₄ hspell₄
  simp only [hp, ho, hg] at hext hlt hspell hext₂ hlt₂ hspell₂ hext₃ hlt₃ hspell₃ ⊢
  -- each number still names its term once the later ones are held
  obtain ⟨hlt₃', hspell₃'⟩ := hext₄.spell_eq hlt₃
  obtain ⟨hlt₂', hspell₂'⟩ := (hext₃.trans hext₄).spell_eq hlt₂
  obtain ⟨hlt', hspell'⟩ := (hext₂.trans (hext₃.trans hext₄)).spell_eq hlt
  refine ⟨?_, ?_, ?_⟩
  · exact hext.trans (hext₂.trans (hext₃.trans hext₄))
  · intro id hid
    simp only [Row.terms, List.mem_cons, List.not_mem_nil, or_false] at hid
    rcases hid with rfl | rfl | rfl | rfl <;> assumption
  · rw [Row.map, hspell', hspell₂', hspell₃', hspell, hspell₂, hspell₃, hspell₄]

/-- Quads as rows of numbers of the terms they use. -/
structure Interning (terms : List Str) (ids : List (Row ℕ)) (quads : List (Row Str)) : Prop where
  nodup : terms.Nodup
  inRange : ∀ r ∈ ids, ∀ id ∈ r.terms, id < terms.length
  spelled : ids.map (Row.map (spell terms)) = quads
  used : ∀ t ∈ terms, ∃ q ∈ quads, t ∈ q.terms

theorem Interning.nil : Interning [] [] [] :=
  ⟨List.nodup_nil, by simp, rfl, by simp⟩

theorem map_spell {terms' ts : List Str} (h : Extends terms terms' ts) {r : Row ℕ}
    (hr : ∀ id ∈ r.terms, id < terms.length) : r.map (spell terms') = r.map (spell terms) := by
  have hone : ∀ id ∈ r.terms, spell terms' id = spell terms id := fun id hid => (h.spell_eq (hr id hid)).2
  simp only [Row.terms, List.forall_mem_cons] at hone
  rw [Row.map, Row.map, hone.1, hone.2.1, hone.2.2.1, hone.2.2.2.1]

theorem Interning.push {ids : List (Row ℕ)} {quads : List (Row Str)}
    (h : Interning terms ids quads) (q : Row Str) :
    Interning (internRow terms q).2 (ids ++ [(internRow terms q).1]) (quads ++ [q]) := by
  obtain ⟨hext, hlt, hspell⟩ := internRow_spec h.nodup q
  refine ⟨hext.nodup, fun r hr id hid => ?_, ?_, fun t ht => ?_⟩
  · rcases List.mem_append.mp hr with hold | hnew
    · exact (h.inRange r hold id hid).trans_le hext.more.length_le
    · rw [List.mem_singleton.mp hnew] at hid
      exact hlt id hid
  · rw [List.map_append, List.map_singleton, hspell, ← h.spelled]
    congr 1
    exact List.map_congr_left fun r hr => map_spell hext (h.inRange r hr)
  · rcases hext.used t ht with hold | hnew
    · obtain ⟨q', hq', ht'⟩ := h.used t hold
      exact ⟨q', List.mem_append_left _ hq', ht'⟩
    · exact ⟨q, by simp, hnew⟩

/-- The terms held are the quads'. -/
theorem Interning.termsOf_eq {ids : List (Row ℕ)} {quads : List (Row Str)}
    (h : Interning terms ids quads) : distinctSort terms = termsOf quads := by
  refine distinctSort_congr fun t => ?_
  rw [List.mem_flatMap]
  refine ⟨h.used t, fun ⟨q, hq, ht⟩ => ?_⟩
  rw [← h.spelled] at hq
  obtain ⟨r, hr, rfl⟩ := List.mem_map.mp hq
  have hmem : ∀ id ∈ r.terms, spell terms id ∈ terms := by
    intro id hid
    rw [spell, List.getD_eq_getElem _ _ (h.inRange r hr id hid)]
    exact List.getElem_mem _
  simp only [Row.terms, Row.map, List.mem_cons, List.not_mem_nil, or_false] at ht hmem
  rcases ht with rfl | rfl | rfl | rfl <;> exact hmem _ (by simp)

end Interning

/-! ### Ranks of the numbers -/

/-- Each number's rank, from the numbers in rank order. -/
def rankTable (order : List ℕ) (size : ℕ) : List ℕ :=
  order.zipIdx.foldl (fun ranks p => ranks.set p.1 p.2) (List.replicate size 0)

theorem foldl_ranks {order : List ℕ} : ∀ {start : ℕ} {ranks : List ℕ}, order.Nodup →
    (∀ id ∈ order, id < ranks.length) → ∀ id,
    ((order.zipIdx start).foldl (fun ranks p => ranks.set p.1 p.2) ranks).getD id 0 =
      if id ∈ order then start + order.idxOf id else ranks.getD id 0 := by
  induction order with
  | nil => simp
  | cons first order ih =>
    intro start ranks hnodup hlt id
    obtain ⟨hfirst, hnodup⟩ := List.nodup_cons.mp hnodup
    rw [List.zipIdx_cons, List.foldl_cons, ih hnodup fun id hid => by
      rw [List.length_set]
      exact hlt id (List.mem_cons_of_mem _ hid)]
    by_cases heq : first = id
    · subst heq
      rw [if_neg hfirst, if_pos List.mem_cons_self, CountingSort.getD_set,
        if_pos ⟨rfl, hlt first List.mem_cons_self⟩, List.idxOf_cons_self, Nat.add_zero]
    · have hmem : id ∈ first :: order ↔ id ∈ order := by simp [Ne.symm heq]
      rw [CountingSort.getD_set, if_neg (show ¬ (first = id ∧ _) from fun hand => heq hand.1),
        List.idxOf_cons_ne _ heq]
      simp only [hmem]
      split_ifs
      · omega
      · rfl

theorem rankTable_getD {order : List ℕ} {size : ℕ} (hnodup : order.Nodup)
    (hlt : ∀ id ∈ order, id < size) {id : ℕ} (hid : id ∈ order) :
    (rankTable order size).getD id 0 = order.idxOf id := by
  rw [rankTable, foldl_ranks hnodup (by simpa using hlt), if_pos hid, Nat.zero_add]

/-- The numbers in their terms' order. -/
def rankedOrder (terms : List Str) : List ℕ := (distinctSort terms).map terms.idxOf

section RankedOrder

variable {terms : List Str}

theorem rankedOrder_nodup (terms : List Str) : (rankedOrder terms).Nodup := by
  refine List.Nodup.map_on (fun t ht t' ht' h => ?_) (sortedLT_distinctSort terms).nodup
  exact (List.idxOf_inj (mem_distinctSort.mp ht)).mp h

theorem rankedOrder_lt {id : ℕ} (h : id ∈ rankedOrder terms) : id < terms.length := by
  obtain ⟨t, ht, rfl⟩ := List.mem_map.mp h
  exact List.idxOf_lt_length_of_mem (mem_distinctSort.mp ht)

/-- A number's rank is its term's among the sorted terms. -/
theorem rankTable_rankedOrder (hnodup : terms.Nodup) {id : ℕ} (hid : id < terms.length) :
    (rankTable (rankedOrder terms) terms.length).getD id 0 =
      (distinctSort terms).idxOf (spell terms id) := by
  obtain ⟨t, ht⟩ : ∃ t, t = spell terms id := ⟨_, rfl⟩
  have hspell : spell terms id = terms[id] := List.getD_eq_getElem _ _ hid
  have hmem : t ∈ distinctSort terms := by
    rw [mem_distinctSort, ht, hspell]
    exact List.getElem_mem hid
  have hnumber : terms.idxOf t = id := by rw [ht, hspell, hnodup.idxOf_getElem]
  have hk := List.idxOf_lt_length_of_mem hmem
  have hk' : (distinctSort terms).idxOf t < (rankedOrder terms).length := by
    rw [rankedOrder, List.length_map]
    exact hk
  have hat : (rankedOrder terms)[(distinctSort terms).idxOf t] = id := by
    simp only [rankedOrder, List.getElem_map, List.getElem_idxOf, hnumber]
  have hin : id ∈ rankedOrder terms := List.mem_iff_getElem.mpr ⟨_, hk', hat⟩
  rw [rankTable_getD (rankedOrder_nodup terms) (fun _ => rankedOrder_lt) hin, ← ht]
  rw [← hat, (rankedOrder_nodup terms).idxOf_getElem]

/-- The rows of ranks are the quads'. -/
theorem Interning.codeRows_eq {ids : List (Row ℕ)} {quads : List (Row Str)}
    (h : Interning terms ids quads) :
    distinctSort (ids.map (Row.map fun id =>
      (rankTable (rankedOrder terms) terms.length).getD id 0)) = codeRows quads := by
  have hrows : ids.map (Row.map fun id => (rankTable (rankedOrder terms) terms.length).getD id 0) =
      quads.map (Row.map (termsOf quads).idxOf) := by
    rw [← h.termsOf_eq, ← h.spelled, List.map_map]
    refine List.map_congr_left fun r hr => ?_
    have hone : ∀ id ∈ r.terms, (rankTable (rankedOrder terms) terms.length).getD id 0 =
        (distinctSort terms).idxOf (spell terms id) :=
      fun id hid => rankTable_rankedOrder h.nodup (h.inRange r hr id hid)
    simp only [Row.terms, List.forall_mem_cons] at hone
    rw [Function.comp_apply, Row.map, Row.map, Row.map, hone.1, hone.2.1, hone.2.2.1, hone.2.2.2.1]
  rw [hrows, codeRows]

end RankedOrder

/-! ### The interning builder -/

/-- The provisional codes, in arrival order, and the quads as them. -/
structure InterningQuadBuilder where
  codes : List (Str × TermCode)
  quads : List (Row TermCode)

namespace InterningQuadBuilder

def new : InterningQuadBuilder := ⟨[], []⟩

def intern (b : InterningQuadBuilder) (t : Str) : TermCode × InterningQuadBuilder :=
  match b.codes.find? (·.1 == t) with
  | some entry => (entry.2, b)
  | none => (b.codes.length, { b with codes := b.codes ++ [(t, b.codes.length)] })

def push (b : InterningQuadBuilder) (q : RawQuad) : InterningQuadBuilder :=
  let (s, b) := b.intern q.s
  let (p, b) := b.intern q.p
  let (o, b) := b.intern q.o
  let (g, b) := b.intern q.g
  { b with quads := b.quads ++ [⟨s, p, o, g⟩] }

/-- A builder fed every quad of a stream; a stream error is returned. -/
def fromStream : List (Except VortexRdfError RawQuad) → InterningQuadBuilder →
    Except VortexRdfError InterningQuadBuilder
  | [], b => .ok b
  | .error e :: _, _ => .error e
  | .ok q :: quads, b => fromStream quads (b.push q)

/-- The dictionary, and the quads' codes in order, each quad once. -/
def finish (b : InterningQuadBuilder) : Except VortexRdfError (TermDictionary × QuadCodes) := do
  let entries := sortBy (fun entry : Str × TermCode => toLex entry) b.codes
  let rankOf := rankTable (entries.map (·.2)) entries.length
  let dict ← fromSortedColumn (entries.map (·.1))
  let quads := distinctSort (b.quads.map (Row.map fun code => rankOf.getD code 0))
  return (dict, QuadCodes.ofRows quads)

end InterningQuadBuilder

def finishInterned (b : InterningQuadBuilder) (indexes : List IndexType) :
    Except VortexRdfError BuiltArray := do
  let (dict, codes) ← b.finish
  let components ← buildComponents indexes codes
  return ⟨buildCodeChunk codes 0 codes.s.length true, components, dict⟩

/-- The in-memory build of a stream. -/
def buildInMemory (quads : List (Except VortexRdfError RawQuad)) (indexes : List IndexType) :
    Except VortexRdfError BuiltArray := do
  finishInterned (← InterningQuadBuilder.fromStream quads .new) indexes

/-- The builder holds the terms under their numbers. -/
structure InterningQuadBuilder.Holds (b : InterningQuadBuilder) (terms : List Str)
    (quads : List (Row Str)) : Prop where
  codes : b.codes = terms.zipIdx
  interning : Interning terms b.quads quads

theorem find?_zipIdx {terms : List Str} (t : Str) : ∀ start : ℕ,
    (terms.zipIdx start).find? (·.1 == t) =
      if t ∈ terms then some (t, start + terms.idxOf t) else none := by
  induction terms with
  | nil => simp
  | cons first terms ih =>
    intro start
    rw [List.zipIdx_cons, List.find?_cons]
    by_cases heq : first = t
    · subst heq
      simp
    · have hmem : t ∈ first :: terms ↔ t ∈ terms := by simp [Ne.symm heq]
      rw [List.idxOf_cons_ne _ heq]
      simp only [beq_eq_false_iff_ne.mpr heq, hmem, ih]
      split_ifs
      · rw [Nat.add_right_comm, Nat.add_assoc]
      · rfl

theorem InterningQuadBuilder.intern_eq {b : InterningQuadBuilder} {terms : List Str}
    (h : b.codes = terms.zipIdx) (t : Str) :
    b.intern t = ((internTerm terms t).1, { b with codes := (internTerm terms t).2.zipIdx }) := by
  rw [intern, h, find?_zipIdx, internTerm]
  by_cases hmem : t ∈ terms
  · rw [if_pos hmem, if_pos hmem]
    dsimp only
    rw [Nat.zero_add, ← h]
  · rw [if_neg hmem, if_neg hmem]
    dsimp only
    rw [List.length_zipIdx, List.zipIdx_append, List.zipIdx_singleton, Nat.zero_add]

theorem InterningQuadBuilder.Holds.push {b : InterningQuadBuilder} {terms : List Str}
    {quads : List (Row Str)} (h : b.Holds terms quads) (q : RawQuad) :
    (b.push q).Holds (internRow terms (rawRow q)).2 (quads ++ [rawRow q]) := by
  have hnext := h.interning.push (rawRow q)
  have hstep : ∀ (terms : List Str) (t : Str),
      InterningQuadBuilder.intern { b with codes := terms.zipIdx } t =
        ((internTerm terms t).1, { b with codes := (internTerm terms t).2.zipIdx }) :=
    fun terms t => @intern_eq { b with codes := terms.zipIdx } terms rfl t
  simp only [InterningQuadBuilder.push, intern_eq h.codes, hstep]
  exact ⟨rfl, hnext⟩

/-- The quads of a stream, or its first error. -/
def collected : List (Except VortexRdfError RawQuad) → Except VortexRdfError (List RawQuad)
  | [] => .ok []
  | .error e :: _ => .error e
  | .ok q :: stream => (collected stream).map (q :: ·)

theorem InterningQuadBuilder.fromStream_spec {stream : List (Except VortexRdfError RawQuad)} :
    ∀ {b : InterningQuadBuilder} {terms : List Str} {quads : List (Row Str)}, b.Holds terms quads →
    (∃ e, collected stream = .error e ∧ fromStream stream b = .error e) ∨
    ∃ rest b' terms', collected stream = .ok rest ∧ fromStream stream b = .ok b' ∧
      b'.Holds terms' (quads ++ rest.map rawRow) := by
  induction stream with
  | nil =>
    intro b terms quads h
    exact Or.inr ⟨[], b, terms, rfl, rfl, by simpa using h⟩
  | cons item stream ih =>
    intro b terms quads h
    cases item with
    | error e => exact Or.inl ⟨e, rfl, rfl⟩
    | ok q =>
      rw [collected, fromStream]
      rcases ih (h.push q) with ⟨e, hcollected, hstream⟩ | ⟨rest, b', terms', hcollected, hstream, h'⟩
      · exact Or.inl ⟨e, by rw [hcollected]; rfl, hstream⟩
      · refine Or.inr ⟨q :: rest, b', terms', by rw [hcollected]; rfl, hstream, ?_⟩
        rwa [List.append_assoc] at h'

theorem zipIdx_eq_map {terms : List Str} (h : terms.Nodup) :
    terms.zipIdx = terms.map fun t => (t, terms.idxOf t) := by
  refine List.ext_getElem (by simp) fun i hi hi' => ?_
  rw [List.length_zipIdx] at hi
  rw [List.getElem_zipIdx, List.getElem_map, h.idxOf_getElem, Nat.zero_add]

theorem distinctSort_perm {terms : List Str} (h : terms.Nodup) : (distinctSort terms).Perm terms :=
  (List.perm_ext_iff_of_nodup (sortedLT_distinctSort terms).nodup h).mpr fun _ => mem_distinctSort

/-- The numbered terms, sorted. -/
theorem sortBy_codes {terms : List Str} (h : terms.Nodup) :
    sortBy (fun entry : Str × TermCode => toLex entry) terms.zipIdx =
      (distinctSort terms).map fun t => (t, terms.idxOf t) := by
  refine sortBy_eq (fun a _ b _ hab => toLex.injective hab) ?_ ?_
  · rw [zipIdx_eq_map h]
    exact (distinctSort_perm h).map _
  · rw [List.map_map]
    refine List.Pairwise.sortedLE (List.pairwise_map.mpr ?_)
    exact (sortedLT_distinctSort terms).pairwise.imp fun hlt => Prod.Lex.toLex_le_toLex.mpr (Or.inl hlt)

theorem InterningQuadBuilder.Holds.finish_eq {b : InterningQuadBuilder} {terms : List Str}
    {quads : List (Row Str)} (h : b.Holds terms quads) : b.finish = do
      let dict ← fromSortedColumn (termsOf quads)
      return (dict, QuadCodes.ofRows (codeRows quads)) := by
  have hnodup := h.interning.nodup
  have hentries := sortBy_codes hnodup
  have hterms : ((distinctSort terms).map fun t => (t, terms.idxOf t)).map (·.1) = termsOf quads := by
    rw [List.map_map, ← h.interning.termsOf_eq]
    exact List.map_id _
  have horder : ((distinctSort terms).map fun t => (t, terms.idxOf t)).map (·.2) =
      rankedOrder terms := by
    rw [List.map_map]
    rfl
  have hsize : ((distinctSort terms).map fun t => (t, terms.idxOf t)).length = terms.length := by
    rw [List.length_map, (distinctSort_perm hnodup).length_eq]
  have hrows := h.interning.codeRows_eq
  rw [InterningQuadBuilder.finish, h.codes, hentries, hterms, horder, hsize]
  simp only [hrows]

/-- The interning build is the dataset of its quads. -/
theorem finishInterned_eq {b : InterningQuadBuilder} {terms : List Str} {quads : List (Row Str)}
    (h : b.Holds terms quads) (indexes : List IndexType) :
    finishInterned b indexes = built quads indexes := by
  rw [finishInterned, h.finish_eq, built]
  cases fromSortedColumn (termsOf quads) with
  | error e => rfl
  | ok dict =>
    change (do
      let components ← buildComponents indexes (QuadCodes.ofRows (codeRows quads))
      return (⟨buildCodeChunk (QuadCodes.ofRows (codeRows quads)) 0
        (QuadCodes.ofRows (codeRows quads)).s.length true, components, dict⟩ : BuiltArray)) = _
    rw [QuadCodes.length_ofRows, buildCodeChunk_ofRows]
    rfl

theorem buildInMemory_eq (stream : List (Except VortexRdfError RawQuad)) (indexes : List IndexType) :
    buildInMemory stream indexes =
      collected stream >>= fun quads => built (quads.map rawRow) indexes := by
  rw [buildInMemory]
  rcases @InterningQuadBuilder.fromStream_spec stream .new [] [] ⟨rfl, Interning.nil⟩ with
    ⟨e, hcollected, hstream⟩ | ⟨quads, b, terms, hcollected, hstream, h⟩
  · rw [hcollected, hstream]
    rfl
  · rw [hcollected, hstream]
    exact finishInterned_eq h indexes

/-! ### The rebuild from sorted quads -/

/-- The unique terms of some quads, sorted. -/
def sortedUniqueTerms (quads : List RawQuad) : List Str :=
  sortBy id (quads.foldl (fun set q =>
    (((set.insert q.s).insert q.p).insert q.o).insert q.g) ([] : List Str))

/-- A dictionary beside the code of each of its terms. -/
def freeze (sorted : List Str) : Except VortexRdfError (TermDictionary × List (Str × TermCode)) := do
  return (← fromSortedColumn sorted, sorted.zipIdx)

/-- One column of the quads' codes; a term the map lacks is an error. -/
def encodeColumn (codeMap : List (Str × TermCode)) (termOf : RawQuad → Str) (quads : List RawQuad) :
    Except VortexRdfError (List TermCode) :=
  quads.mapM fun q =>
    match codeMap.find? (·.1 == termOf q) with
    | some entry => .ok entry.2
    | none => .error (.serialization [.text "Term missing from dictionary during encoding: ",
        .display (termOf q)])

def encodeQuads (quads : List RawQuad) (codeMap : List (Str × TermCode)) :
    Except VortexRdfError QuadCodes := do
  return ⟨← encodeColumn codeMap RawQuad.s quads, ← encodeColumn codeMap RawQuad.p quads,
    ← encodeColumn codeMap RawQuad.o quads, ← encodeColumn codeMap RawQuad.g quads⟩

/-- A Dictionary store's parts from sorted quads, each once. -/
def buildPartsFromRaws (raws : List RawQuad) (indexes : List IndexType) :
    Except VortexRdfError BuiltArray := do
  let (dict, codeMap) ← freeze (sortedUniqueTerms raws)
  let codes ← encodeQuads raws codeMap
  let components ← buildComponents indexes codes
  return ⟨buildCodeChunk codes 0 raws.length true, components, dict⟩

theorem foldl_insert_spec {quads : List RawQuad} : ∀ {set : List Str}, set.Nodup →
    (quads.foldl (fun set q => (((set.insert q.s).insert q.p).insert q.o).insert q.g) set).Nodup ∧
    ∀ t, t ∈ quads.foldl (fun set q => (((set.insert q.s).insert q.p).insert q.o).insert q.g) set ↔
      t ∈ set ∨ ∃ q ∈ quads, t ∈ (rawRow q).terms := by
  induction quads with
  | nil => simp
  | cons q quads ih =>
    intro set hset
    obtain ⟨hnodup, hmem⟩ := ih ((((hset.insert (a := q.s)).insert (a := q.p)).insert (a := q.o)).insert
      (a := q.g))
    refine ⟨hnodup, fun t => ?_⟩
    rw [List.foldl_cons, hmem]
    simp only [List.mem_insert_iff, rawRow, Row.terms, List.mem_cons, List.not_mem_nil, or_false,
      exists_eq_or_imp]
    generalize (∃ q ∈ quads, t = q.s ∨ t = q.p ∨ t = q.o ∨ t = q.g) = later
    tauto

theorem sortedUniqueTerms_eq (quads : List RawQuad) :
    sortedUniqueTerms quads = termsOf (quads.map rawRow) := by
  obtain ⟨hnodup, hmem⟩ := @foldl_insert_spec quads [] List.nodup_nil
  refine sortBy_eq (fun _ _ _ _ h => h) ?_ ?_
  · refine (List.perm_ext_iff_of_nodup (sortedLT_termsOf _).nodup hnodup).mpr fun t => ?_
    rw [hmem, mem_termsOf]
    simp
  · rw [List.map_id]
    exact (sortedLT_termsOf _).sortedLE

theorem encodeColumn_eq {terms : List Str} {termOf : RawQuad → Str} {quads : List RawQuad}
    (h : ∀ q ∈ quads, termOf q ∈ terms) :
    encodeColumn terms.zipIdx termOf quads = .ok (quads.map fun q => terms.idxOf (termOf q)) := by
  refine mapM_eq_ok fun q hq => ?_
  rw [find?_zipIdx, if_pos (h q hq)]
  dsimp only
  rw [Nat.zero_add]

/-- The rebuild from sorted quads is their dataset. -/
theorem buildPartsFromRaws_eq {raws : List RawQuad} (h : (raws.map rawRow).SortedLT)
    (indexes : List IndexType) : buildPartsFromRaws raws indexes = built (raws.map rawRow) indexes := by
  have hterms := sortedUniqueTerms_eq raws
  have hmem : ∀ q ∈ raws, ∀ t ∈ (rawRow q).terms, t ∈ termsOf (raws.map rawRow) :=
    fun q hq t ht => mem_termsOf.mpr ⟨_, List.mem_map_of_mem hq, ht⟩
  have hcodes : encodeQuads raws (termsOf (raws.map rawRow)).zipIdx =
      .ok (QuadCodes.ofRows (codeRows (raws.map rawRow))) := by
    rw [codeRows_eq, distinctSort_of_sortedLT h, QuadCodes.ofRows_eq, encodeQuads,
      encodeColumn_eq fun q hq => hmem q hq _ (by simp [Row.terms, rawRow]),
      encodeColumn_eq fun q hq => hmem q hq _ (by simp [Row.terms, rawRow]),
      encodeColumn_eq fun q hq => hmem q hq _ (by simp [Row.terms, rawRow]),
      encodeColumn_eq fun q hq => hmem q hq _ (by simp [Row.terms, rawRow])]
    simp only [List.map_map]
    rfl
  have hlen : raws.length = (codeRows (raws.map rawRow)).length := by
    rw [codeRows_eq, distinctSort_of_sortedLT h, List.length_map, List.length_map]
  rw [buildPartsFromRaws, freeze, hterms, built]
  cases fromSortedColumn (termsOf (raws.map rawRow)) with
  | error e => rfl
  | ok dict =>
    change (do
      let codes ← encodeQuads raws (termsOf (raws.map rawRow)).zipIdx
      let components ← buildComponents indexes codes
      return (⟨buildCodeChunk codes 0 raws.length true, components, dict⟩ : BuiltArray)) = _
    rw [hcodes, hlen]
    change (do
      let components ← buildComponents indexes (QuadCodes.ofRows (codeRows (raws.map rawRow)))
      return (⟨buildCodeChunk (QuadCodes.ofRows (codeRows (raws.map rawRow))) 0 _ true, components,
        dict⟩ : BuiltArray)) = _
    rw [buildCodeChunk_ofRows]
    rfl

end Builds
