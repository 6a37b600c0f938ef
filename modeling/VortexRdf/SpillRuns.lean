/-
The quad runs of the out-of-core build.

Terms are interned as they arrive, quads are kept as their ids, and each full buffer is
sorted in its terms' order and spilled as records of four little-endian ids. Once the terms
are ranked the runs are read back as ranks.

* `TermInterner`, `FrozenTerms` — the interner, and its terms ranked;
* `QuadSpiller`, `sortBuf` — the buffers, sorted term by term or as ranks among their own;
* `SpilledQuads`, `QuadRuns`, `QuadRunReader` — the runs, read back as ranks;
* `sortBuf_spec` — a buffer sorted is its quads in order, each once;
* `ingest_spec`, `merger_spec` — the runs of a stream merge into its code rows.
-/
import VortexRdf.InternedBuilds
import VortexRdf.Records
import VortexRdf.RunMerges
import VortexRdf.TermSearch

namespace Builds

open Dictionary DistinctSort Programs Records RunMerges Store Terms
open scoped Lexicographic

/-! ### The interner -/

/-- Every distinct term once, by provisional id. -/
structure TermInterner where
  terms : List Str

/-- The terms in order, and the rank of each id's term. -/
structure FrozenTerms where
  sorted : List Str
  rankOf : List ℕ

namespace TermInterner

def new : TermInterner := ⟨[]⟩

def intern (i : TermInterner) (t : Str) : Except VortexRdfError (ℕ × TermInterner) :=
  match i.terms.idxOf? t with
  | some id => .ok (id, i)
  | none =>
    if TERM_CAP < i.terms.length + 1 then .error (tooManyTerms (i.terms.length + 1))
    else .ok (i.terms.length, ⟨i.terms ++ [t]⟩)

def internQuad (i : TermInterner) (q : RawQuad) : Except VortexRdfError (Row ℕ × TermInterner) := do
  let (s, i) ← i.intern q.s
  let (p, i) ← i.intern q.p
  let (o, i) ← i.intern q.o
  let (g, i) ← i.intern q.g
  return (⟨s, p, o, g⟩, i)

/-- Two ids in their terms' order. -/
def cmpTerms (i : TermInterner) (a b : ℕ) : Ordering :=
  if a = b then .eq else compareBytes (spell i.terms a) (spell i.terms b)

def finish (i : TermInterner) : FrozenTerms :=
  let order := sortBy (spell i.terms) (List.range i.terms.length)
  ⟨order.map (spell i.terms), rankTable order i.terms.length⟩

end TermInterner

/-! ### The spiller -/

def QUAD_RECORD_BYTES : ℕ := 16

/-- The bytes of a quad record. -/
def writeIds (r : Row ℕ) : List UInt8 := leBytes 4 r.s ++ leBytes 4 r.p ++ leBytes 4 r.o ++ leBytes 4 r.g

/-- The ids of a quad record. -/
def readIds (bytes : List UInt8) : Row ℕ :=
  ⟨ofLe (bytes.take 4), ofLe ((bytes.drop 4).take 4), ofLe ((bytes.drop 8).take 4),
    ofLe ((bytes.drop 12).take 4)⟩

/-- The values an array of `u32`s holds once it has `n`, the new ones zero. -/
def resize (l : List ℕ) (n : ℕ) : List ℕ := (l ++ List.replicate (n - l.length) 0).take n

/-- The ids of a buffer and its runs, with what a sort of the buffer reuses: the rank of
each term among the buffer's, and the sort that last saw each term. -/
structure QuadSpiller where
  capacity : ℕ
  buf : List (Row ℕ)
  runs : List (List UInt8)
  ranks : List ℕ
  seen : List ℕ
  sorts : ℕ

namespace QuadSpiller

def new (capacity : ℕ) : QuadSpiller := ⟨max capacity 1, [], [], [], [], 0⟩

/-- The ids not seen by this sort, each marked as it is met. -/
def findDistinct (sort : ℕ) : List ℕ → List ℕ → List ℕ → List ℕ × List ℕ
  | [], seen, distinct => (seen, distinct)
  | id :: ids, seen, distinct =>
    if seen.getD id 0 = sort then findDistinct sort ids seen distinct
    else findDistinct sort ids (seen.set id sort) (distinct ++ [id])

/-- Two quads term by term, from the first role whose ids differ. -/
def cmpQuads (terms : TermInterner) (a b : Row ℕ) : Ordering :=
  match (a.terms.zip b.terms).find? fun pair => pair.1 != pair.2 with
  | some pair => terms.cmpTerms pair.1 pair.2
  | none => .eq

def sortBuf (s : QuadSpiller) (terms : TermInterner) : QuadSpiller :=
  let next := (s.sorts + 1) % 2 ^ 32
  let sort := if next = 0 then 1 else next
  let cleared := if next = 0 then s.seen.map fun _ => 0 else s.seen
  let (seen, distinct) :=
    findDistinct sort (s.buf.flatMap Row.terms) (resize cleared terms.terms.length) []
  let ranks := resize s.ranks terms.terms.length
  if s.buf.length < min (distinct.length * 2) usizeMax then
    { s with
      buf := dedup (s.buf.mergeSort fun a b => (cmpQuads terms a b).isLE)
      ranks, seen, sorts := sort }
  else
    -- the buffer's terms repeat: ranked among themselves, its quads sort as integers
    let distinct := distinct.mergeSort fun a b => (terms.cmpTerms a b).isLE
    let ranks := distinct.zipIdx.foldl (fun ranks p => ranks.set p.1 p.2) ranks
    let asRanks := s.buf.map (Row.map fun id => ranks.getD id 0)
    { s with
      buf := (distinctSort asRanks).map (Row.map fun rank => distinct.getD rank 0)
      ranks, seen, sorts := sort }

def flushRun (s : QuadSpiller) (terms : TermInterner) : QuadSpiller :=
  let s := s.sortBuf terms
  { s with runs := s.runs ++ [s.buf.flatMap writeIds], buf := [] }

/-- A quad's ids added, a full buffer spilled first. -/
def push (s : QuadSpiller) (ids : Row ℕ) (terms : TermInterner) : QuadSpiller :=
  let s := if s.buf.length = s.capacity then s.flushRun terms else s
  { s with buf := s.buf ++ [ids] }

end QuadSpiller

/-- A build's quads before its terms are ranked: the one buffer as it stands, or runs. -/
inductive SpilledQuads where
  | memory (quads : List (Row ℕ))
  | spilled (runs : List (List UInt8))

def QuadSpiller.finish (s : QuadSpiller) (terms : TermInterner) : SpilledQuads :=
  if s.runs = [] then .memory s.buf
  else .spilled (if s.buf = [] then s.runs else (s.flushRun terms).runs)

/-! ### The runs read back -/

/-- The rank of an id's term. -/
def rankIn (rankOf : List ℕ) (id : ℕ) : Except VortexRdfError ℕ :=
  match rankOf[id]? with
  | some rank => .ok rank
  | none => .error (.deserialization [.text ("spill record names term " ++ toString id ++
      ", past the " ++ toString rankOf.length ++ " terms")])

/-- A build's quads as ranks: held so, or mapped as its runs are read. -/
inductive QuadRuns where
  | memory (ranks : List (Row ℕ))
  | spilled (runs : List (List UInt8)) (rankOf : List ℕ)

def SpilledQuads.ranked (rankOf : List ℕ) : SpilledQuads → Except VortexRdfError QuadRuns
  | memory quads => do return .memory (distinctSort (← quads.mapM (Row.mapM (rankIn rankOf))))
  | spilled runs => .ok (.spilled runs rankOf)

inductive QuadRunReader where
  | memory (ranks : List (Row ℕ)) (at_ : ℕ)
  | file (bytes : List UInt8) (rankOf : List ℕ)

def cutRecord (what : String) : VortexRdfError :=
  .deserialization [.text ("Unexpected EOF while reading spill record " ++ what)]

namespace QuadRunReader

def next : QuadRunReader → Except VortexRdfError (Option (Row ℕ × QuadRunReader))
  | memory ranks i =>
    match ranks[i]? with
    | none => .ok none
    | some quad => .ok (some (quad, memory ranks (i + 1)))
  | file bytes rankOf => do
    match ← readRecord (cutRecord "quad") QUAD_RECORD_BYTES bytes with
    | none => return none
    | some (record, rest) => return some (← (readIds record).mapM (rankIn rankOf), file rest rankOf)

def left : QuadRunReader → ℕ
  | memory ranks i => ranks.length - i
  | file bytes _ => bytes.length

end QuadRunReader

instance : RunRead QuadRunReader VortexRdfError (Row ℕ) where
  next := QuadRunReader.next
  left := QuadRunReader.left
  left_lt {r x r'} h := by
    cases r with
    | memory ranks i =>
      rw [QuadRunReader.next] at h
      cases hget : ranks[i]? with
      | none =>
        rw [hget] at h
        cases h
      | some quad =>
        rw [hget] at h
        cases h
        have hlt := (List.getElem?_eq_some_iff.mp hget).1
        rw [QuadRunReader.left, QuadRunReader.left]
        omega
    | file bytes rankOf =>
      rw [QuadRunReader.next] at h
      cases hread : readRecord (cutRecord "quad") QUAD_RECORD_BYTES bytes with
      | error e =>
        rw [hread] at h
        cases h
      | ok found =>
        rw [hread] at h
        cases found with
        | none => cases h
        | some record =>
          obtain ⟨record, rest⟩ := record
          have hlt := length_of_readRecord (by decide) hread
          cases hrow : (readIds record).mapM (rankIn rankOf) with
          | error e =>
            change (do
              let row ← (readIds record).mapM (rankIn rankOf)
              return some (row, QuadRunReader.file rest rankOf)) = _ at h
            rw [hrow] at h
            cases h
          | ok row =>
            change (do
              let row ← (readIds record).mapM (rankIn rankOf)
              return some (row, QuadRunReader.file rest rankOf)) = _ at h
            rw [hrow] at h
            cases h
            exact hlt

/-- A merge of the runs. -/
def QuadRuns.merger : QuadRuns → Except VortexRdfError (RunMerger QuadRunReader (Row ℕ))
  | memory ranks => RunMerger.new [.memory ranks 0]
  | spilled runs rankOf => RunMerger.new (runs.map fun bytes => .file bytes rankOf)

/-! ### Interning with a cap -/

section Interner

variable {i : TermInterner}

/-- Too many terms for a dictionary, each held or among `ts`. -/
def Overfull (terms ts : List Str) : Prop :=
  ∃ held : List Str, held.Nodup ∧ TERM_CAP < held.length ∧ ∀ t ∈ held, t ∈ terms ∨ t ∈ ts

theorem intern_cases (h : i.terms.Nodup) (hcap : i.terms.length ≤ TERM_CAP) (t : Str) :
    (i.intern t = .ok ((internTerm i.terms t).1, ⟨(internTerm i.terms t).2⟩) ∧
      (internTerm i.terms t).2.length ≤ TERM_CAP) ∨
    (∃ e, i.intern t = .error e) ∧ Overfull i.terms [t] := by
  rw [TermInterner.intern, internTerm]
  by_cases hmem : t ∈ i.terms
  · have hlt := List.idxOf_lt_length_of_mem hmem
    have hfind : i.terms.idxOf? t = some (i.terms.idxOf t) := by
      refine List.idxOf?_eq_some_iff.mpr ⟨hlt, List.getElem_idxOf hlt, fun j hj heq => ?_⟩
      have hle : i.terms.idxOf t = j := by rw [← heq, h.idxOf_getElem]
      omega
    rw [hfind, if_pos hmem]
    exact Or.inl ⟨rfl, hcap⟩
  · have hfind : i.terms.idxOf? t = none := List.idxOf?_eq_none_iff.mpr hmem
    rw [hfind, if_neg hmem]
    dsimp only
    split_ifs with hfull
    · refine Or.inr ⟨⟨_, rfl⟩, i.terms ++ [t], ?_, by rwa [List.length_append], fun t' ht' =>
        List.mem_append.mp ht'⟩
      exact List.Nodup.append h (List.nodup_singleton t) (by simpa using hmem)
    · exact Or.inl ⟨rfl, by rw [List.length_append]; exact Nat.le_of_not_lt hfull⟩

theorem Overfull.of_extends {terms terms' ts ts' : List Str} (h : Extends terms terms' ts)
    (hfull : Overfull terms' ts') : Overfull terms (ts ++ ts') := by
  obtain ⟨held, hnodup, hlen, hmem⟩ := hfull
  refine ⟨held, hnodup, hlen, fun t ht => ?_⟩
  rcases hmem t ht with hold | hnew
  · exact (h.used t hold).imp_right (List.mem_append_left _)
  · exact Or.inr (List.mem_append_right _ hnew)

theorem Overfull.mono {terms ts ts' : List Str} (h : Overfull terms ts) (hsub : ts ⊆ ts') :
    Overfull terms ts' := by
  obtain ⟨held, hnodup, hlen, hmem⟩ := h
  exact ⟨held, hnodup, hlen, fun t ht => (hmem t ht).imp_right fun hin => hsub hin⟩

/-- A quad's terms are interned as by an interner without a cap, or they are too many. -/
theorem internQuad_cases (h : i.terms.Nodup) (hcap : i.terms.length ≤ TERM_CAP) (q : RawQuad) :
    (i.internQuad q = .ok ((internRow i.terms (rawRow q)).1, ⟨(internRow i.terms (rawRow q)).2⟩) ∧
      (internRow i.terms (rawRow q)).2.length ≤ TERM_CAP) ∨
    (∃ e, i.internQuad q = .error e) ∧ Overfull i.terms (rawRow q).terms := by
  have hterms : (rawRow q).terms = [q.s] ++ ([q.p] ++ ([q.o] ++ [q.g])) := rfl
  rw [TermInterner.internQuad, internRow, hterms]
  rcases intern_cases h hcap q.s with ⟨hs, hcap₁⟩ | ⟨⟨e, hs⟩, hfull⟩
  swap
  · exact Or.inr ⟨⟨e, by rw [hs, error_bind]⟩, hfull.mono (by simp)⟩
  obtain ⟨hext, -, -⟩ := internTerm_spec h q.s
  rw [hs, ok_bind]
  dsimp only [rawRow]
  generalize internTerm i.terms q.s = held at hext hcap₁ ⊢
  obtain ⟨s, terms₁⟩ := held
  rcases @intern_cases ⟨terms₁⟩ hext.nodup hcap₁ q.p with ⟨hp, hcap₂⟩ | ⟨⟨e, hp⟩, hfull⟩
  swap
  · exact Or.inr ⟨⟨e, by rw [hp, error_bind]⟩, (hfull.of_extends hext).mono (by simp)⟩
  obtain ⟨hext', -, -⟩ := internTerm_spec hext.nodup q.p
  have hext₂ := hext.trans hext'
  rw [hp, ok_bind]
  dsimp only at hext₂ hcap₂ ⊢
  generalize internTerm terms₁ q.p = held at hext₂ hcap₂ ⊢
  obtain ⟨p, terms₂⟩ := held
  rcases @intern_cases ⟨terms₂⟩ hext₂.nodup hcap₂ q.o with ⟨ho, hcap₃⟩ | ⟨⟨e, ho⟩, hfull⟩
  swap
  · exact Or.inr ⟨⟨e, by rw [ho, error_bind]⟩, (hfull.of_extends hext₂).mono (by simp)⟩
  obtain ⟨hext', -, -⟩ := internTerm_spec hext₂.nodup q.o
  have hext₃ := hext₂.trans hext'
  rw [ho, ok_bind]
  dsimp only at hext₃ hcap₃ ⊢
  generalize internTerm terms₂ q.o = held at hext₃ hcap₃ ⊢
  obtain ⟨o, terms₃⟩ := held
  rcases @intern_cases ⟨terms₃⟩ hext₃.nodup hcap₃ q.g with ⟨hg, hcap₄⟩ | ⟨⟨e, hg⟩, hfull⟩
  swap
  · exact Or.inr ⟨⟨e, by rw [hg, error_bind]⟩, (hfull.of_extends hext₃).mono (by simp)⟩
  rw [hg, ok_bind]
  exact Or.inl ⟨rfl, hcap₄⟩

end Interner

/-! ### A buffer sorted -/

section Sorts

variable {i : TermInterner}

theorem length_resize (l : List ℕ) (n : ℕ) : (resize l n).length = n := by
  rw [resize, List.length_take, List.length_append, List.length_replicate]
  omega

theorem mem_resize {l : List ℕ} {n x : ℕ} (h : x ∈ resize l n) : x ∈ l ∨ x = 0 := by
  rcases List.mem_append.mp (List.mem_of_mem_take h) with hold | hnew
  · exact Or.inl hold
  · exact Or.inr (List.eq_of_mem_replicate hnew)

/-- The marks before the sort are of sorts before it. -/
theorem findDistinct_spec {sort : ℕ} {ids : List ℕ} : ∀ {seen distinct : List ℕ},
    (∀ id ∈ ids, id < seen.length) →
    (∀ id, id < seen.length → (seen.getD id 0 = sort ↔ id ∈ distinct)) → distinct.Nodup →
    ∃ seen' distinct', QuadSpiller.findDistinct sort ids seen distinct = (seen', distinct') ∧
      distinct'.Nodup ∧ (∀ id, id ∈ distinct' ↔ id ∈ distinct ∨ id ∈ ids) ∧
      ∀ mark ∈ seen', mark ∈ seen ∨ mark = sort := by
  induction ids with
  | nil =>
    intro seen distinct _ _ hnodup
    exact ⟨seen, distinct, rfl, hnodup, by simp, fun mark hmark => Or.inl hmark⟩
  | cons id ids ih =>
    intro seen distinct hlt hmarked hnodup
    have hid := hlt id List.mem_cons_self
    rw [QuadSpiller.findDistinct]
    split_ifs with hseen
    · obtain ⟨seen', distinct', hfind, hnodup', hmem, hmarks⟩ :=
        ih (fun id' h' => hlt id' (List.mem_cons_of_mem _ h')) hmarked hnodup
      refine ⟨seen', distinct', hfind, hnodup', fun id' => ?_, hmarks⟩
      rw [hmem, List.mem_cons]
      constructor
      · exact Or.imp_right Or.inr
      · rintro (hold | rfl | hnew)
        · exact Or.inl hold
        · exact Or.inl ((hmarked id' hid).mp hseen)
        · exact Or.inr hnew
    · have hnew : id ∉ distinct := fun hmem => hseen ((hmarked id hid).mpr hmem)
      obtain ⟨seen', distinct', hfind, hnodup', hmem, hmarks⟩ := @ih (seen.set id sort) (distinct ++ [id])
        (fun id' h' => by
          rw [List.length_set]
          exact hlt id' (List.mem_cons_of_mem _ h'))
        (fun id' h' => by
          rw [List.length_set] at h'
          rw [CountingSort.getD_set, List.mem_append, List.mem_singleton]
          by_cases heq : id = id'
          · rw [if_pos ⟨heq, hid⟩]
            exact iff_of_true rfl (Or.inr heq.symm)
          · rw [if_neg (show ¬ (id = id' ∧ _) from fun hand => heq hand.1), hmarked id' h']
            exact (or_iff_left (Ne.symm heq)).symm)
        (List.Nodup.append hnodup (List.nodup_singleton id) (by simpa using hnew))
      refine ⟨seen', distinct', hfind, hnodup', fun id' => ?_, fun mark hmark => ?_⟩
      · rw [hmem, List.mem_append, List.mem_singleton, List.mem_cons, or_assoc]
      · rcases hmarks mark hmark with hset | rfl
        · exact (List.mem_or_eq_of_mem_set hset)
        · exact Or.inr rfl

theorem compareBytes_isLE {a b : Str} : (compareBytes a b).isLE = decide (a ≤ b) := by
  rw [compareBytes]
  split_ifs with hlt heq
  · exact (decide_eq_true hlt.le).symm
  · exact (decide_eq_true heq.le).symm
  · exact (decide_eq_false fun hle => (lt_or_eq_of_le hle).elim hlt heq).symm

theorem spell_injOn {terms : List Str} (h : terms.Nodup) {a b : ℕ} (ha : a < terms.length)
    (hb : b < terms.length) (heq : spell terms a = spell terms b) : a = b := by
  rw [spell, spell, List.getD_eq_getElem _ _ ha, List.getD_eq_getElem _ _ hb] at heq
  exact (h.getElem_inj_iff).mp heq

/-- The rows' ids are ids of the terms. -/
def Known (terms : List Str) (rows : List (Row ℕ)) : Prop :=
  ∀ r ∈ rows, ∀ id ∈ r.terms, id < terms.length

theorem map_spell_injOn {terms : List Str} (h : terms.Nodup) {a b : Row ℕ}
    (ha : ∀ id ∈ a.terms, id < terms.length) (hb : ∀ id ∈ b.terms, id < terms.length)
    (heq : a.map (spell terms) = b.map (spell terms)) : a = b := by
  simp only [Row.terms, List.forall_mem_cons] at ha hb
  rw [Row.map, Row.map, Row.mk.injEq] at heq
  exact Row.ext (spell_injOn h ha.1 hb.1 heq.1) (spell_injOn h ha.2.1 hb.2.1 heq.2.1)
    (spell_injOn h ha.2.2.1 hb.2.2.1 heq.2.2.1) (spell_injOn h ha.2.2.2.1 hb.2.2.2.1 heq.2.2.2)

theorem cmpTerms_isLE (a b : ℕ) :
    (i.cmpTerms a b).isLE = decide (spell i.terms a ≤ spell i.terms b) := by
  rw [TermInterner.cmpTerms]
  split_ifs with heq
  · rw [heq]
    exact (decide_eq_true (le_refl _)).symm
  · exact compareBytes_isLE

theorem row_le_iff {α : Type} [LinearOrder α] {r r' : Row α} : r ≤ r' ↔ r.s < r'.s ∨ r.s = r'.s ∧
    (r.p < r'.p ∨ r.p = r'.p ∧ (r.o < r'.o ∨ r.o = r'.o ∧ r.g ≤ r'.g)) := by
  change r.spog ≤ r'.spog ↔ _
  simp only [Row.spog, key, Prod.Lex.toLex_le_toLex]

/-- Quads compare as their terms do. -/
theorem cmpQuads_isLE (h : i.terms.Nodup) {a b : Row ℕ} (ha : ∀ id ∈ a.terms, id < i.terms.length)
    (hb : ∀ id ∈ b.terms, id < i.terms.length) : (QuadSpiller.cmpQuads i a b).isLE =
      decide (a.map (spell i.terms) ≤ b.map (spell i.terms)) := by
  simp only [Row.terms, List.forall_mem_cons] at ha hb
  have hne : ∀ {x y : ℕ}, x < i.terms.length → y < i.terms.length → x ≠ y →
      spell i.terms x ≠ spell i.terms y := fun hx hy hxy heq => hxy (spell_injOn h hx hy heq)
  have hpair : ∀ {x y : ℕ}, x < i.terms.length → y < i.terms.length → x ≠ y →
      ((i.cmpTerms x y).isLE = true ↔ spell i.terms x < spell i.terms y) := by
    intro x y hx hy hxy
    rw [cmpTerms_isLE, decide_eq_true_iff]
    exact ⟨fun hle => lt_of_le_of_ne hle (hne hx hy hxy), le_of_lt⟩
  rw [Bool.eq_iff_iff, decide_eq_true_iff, row_le_iff]
  simp only [QuadSpiller.cmpQuads, Row.terms, List.zip_cons_cons, List.zip_nil_left, Row.map]
  by_cases hs : a.s = b.s
  swap
  · rw [List.find?_cons_of_pos (by simpa using hs)]
    have hneq := hne ha.1 hb.1 hs
    simp only [hpair ha.1 hb.1 hs, hneq, false_and, or_false]
  rw [List.find?_cons_of_neg (by simpa using hs)]
  by_cases hp : a.p = b.p
  swap
  · rw [List.find?_cons_of_pos (by simpa using hp)]
    have hneq := hne ha.2.1 hb.2.1 hp
    simp only [hpair ha.2.1 hb.2.1 hp, hneq, hs, lt_irrefl, false_and, or_false, false_or, true_and]
  rw [List.find?_cons_of_neg (by simpa using hp)]
  by_cases ho : a.o = b.o
  swap
  · rw [List.find?_cons_of_pos (by simpa using ho)]
    have hneq := hne ha.2.2.1 hb.2.2.1 ho
    simp only [hpair ha.2.2.1 hb.2.2.1 ho, hneq, hs, hp, lt_irrefl, false_and, or_false, false_or,
      true_and]
  rw [List.find?_cons_of_neg (by simpa using ho)]
  by_cases hg : a.g = b.g
  swap
  · rw [List.find?_cons_of_pos (by simpa using hg)]
    simp only [cmpTerms_isLE, decide_eq_true_iff, hs, hp, ho, lt_irrefl, false_or, true_and]
  rw [List.find?_cons_of_neg (by simpa using hg), List.find?_nil]
  simp [hs, hp, ho, hg]

/-- A sort that compares as a key does. -/
theorem mergeSort_eq_sortBy {α β : Type} [LinearOrder α] {k : β → α} {le : β → β → Bool} {l : List β}
    (h : ∀ a ∈ l, ∀ b ∈ l, le a b = decide (k a ≤ k b)) : l.mergeSort le = sortBy k l := by
  have hmap := @List.map_mergeSort β β le (fun a b => decide (k a ≤ k b)) id l h
  rwa [List.map_id, List.map_id] at hmap

/-- The buffer compared term by term. -/
theorem sortByTerms_spec (h : i.terms.Nodup) {buf : List (Row ℕ)} (hbuf : Known i.terms buf) :
    (∀ r, r ∈ dedup (buf.mergeSort fun a b => (QuadSpiller.cmpQuads i a b).isLE) ↔ r ∈ buf) ∧
    ((dedup (buf.mergeSort fun a b => (QuadSpiller.cmpQuads i a b).isLE)).map
      (Row.map (spell i.terms))).SortedLT := by
  have hsort : (buf.mergeSort fun a b => (QuadSpiller.cmpQuads i a b).isLE) =
      sortBy (Row.map (spell i.terms)) buf :=
    mergeSort_eq_sortBy fun a ha b hb => cmpQuads_isLE h (hbuf a ha) (hbuf b hb)
  rw [hsort]
  refine ⟨fun r => by rw [mem_dedup, mem_sortBy], dedup_ascends (fun a ha b hb => ?_) (sortBy_ascends _ _)⟩
  exact map_spell_injOn h (hbuf a (mem_sortBy.mp ha)) (hbuf b (mem_sortBy.mp hb))

/-- The buffer ranked among its own terms, sorted as ranks and read back as ids. -/
theorem sortByRanks_spec {buf : List (Row ℕ)} {distinct ranks : List ℕ}
    (hmem : ∀ id, id ∈ distinct ↔ id ∈ buf.flatMap Row.terms)
    (hranks : ∀ id ∈ distinct, ranks.getD id 0 = distinct.idxOf id)
    (hsorted : (distinct.map (spell i.terms)).SortedLT) :
    (∀ r, r ∈ (distinctSort (buf.map (Row.map fun id => ranks.getD id 0))).map
        (Row.map fun rank => distinct.getD rank 0) ↔ r ∈ buf) ∧
    (((distinctSort (buf.map (Row.map fun id => ranks.getD id 0))).map
      (Row.map fun rank => distinct.getD rank 0)).map (Row.map (spell i.terms))).SortedLT := by
  have hin : ∀ r ∈ buf, ∀ id ∈ r.terms, id ∈ distinct := fun r hr id hid =>
    (hmem id).mpr (List.mem_flatMap.mpr ⟨r, hr, hid⟩)
  have hback : ∀ id ∈ distinct, distinct.getD (ranks.getD id 0) 0 = id := by
    intro id hid
    have hlt := List.idxOf_lt_length_of_mem hid
    rw [hranks id hid, List.getD_eq_getElem _ _ hlt, List.getElem_idxOf]
  have hrow : ∀ r ∈ buf, (r.map fun id => ranks.getD id 0).map (fun rank => distinct.getD rank 0) = r := by
    intro r hr
    have hone : ∀ id ∈ r.terms, distinct.getD (ranks.getD id 0) 0 = id := fun id hid =>
      hback id (hin r hr id hid)
    simp only [Row.terms, List.forall_mem_cons] at hone
    exact Row.ext hone.1 hone.2.1 hone.2.2.1 hone.2.2.2.1
  constructor
  · intro r
    simp only [List.mem_map, mem_distinctSort, exists_exists_and_eq_and]
    constructor
    · rintro ⟨r', hr', rfl⟩
      rwa [hrow r' hr']
    · exact fun hr => ⟨r, hr, hrow r hr⟩
  · rw [List.map_map]
    refine List.Pairwise.sortedLT (List.pairwise_map.mpr ?_)
    refine (sortedLT_distinctSort _).pairwise.imp_of_mem fun {x y} hx hy hlt => ?_
    obtain ⟨r, hr, rfl⟩ := List.mem_map.mp (mem_distinctSort.mp hx)
    obtain ⟨r', hr', rfl⟩ := List.mem_map.mp (mem_distinctSort.mp hy)
    -- ranks ascend with the terms they rank
    have hrank : ∀ r ∈ buf, ∀ rank ∈ (r.map fun id => ranks.getD id 0).terms, rank < distinct.length := by
      intro r hr rank hrank
      obtain ⟨id, hid, rfl⟩ : ∃ id ∈ r.terms, ranks.getD id 0 = rank := List.mem_map.mp hrank
      rw [hranks id (hin r hr id hid)]
      exact List.idxOf_lt_length_of_mem (hin r hr id hid)
    have hspell : ∀ rank < distinct.length, spell i.terms (distinct.getD rank 0) =
        (distinct.map (spell i.terms)).getD rank [] := by
      intro rank hlt
      rw [List.getD_eq_getElem _ _ hlt, List.getD_eq_getElem _ _ (by rwa [List.length_map]),
        List.getElem_map]
    have hlt' := map_lt_map (f := fun rank => spell i.terms (distinct.getD rank 0))
      (fun a ha b hb hab => by
        rw [hspell a (hrank r hr a ha), hspell b (hrank r' hr' b hb)]
        refine (getD_lt_iff hsorted ?_ ?_).mpr hab
        · rw [List.length_map]
          exact hrank r hr a ha
        · rw [List.length_map]
          exact hrank r' hr' b hb) hlt
    exact hlt'

/-- What the sorts before leave to the next: marks of sorts that are past. -/
structure Marked (s : QuadSpiller) : Prop where
  marks : ∀ mark ∈ s.seen, mark ≤ s.sorts
  bounded : s.sorts < 2 ^ 32

/-- **A buffer sorted**: its quads in their terms' order, each once. -/
theorem sortBuf_spec {s : QuadSpiller} (h : i.terms.Nodup) (hbuf : Known i.terms s.buf)
    (hmarked : Marked s) :
    (∀ r, r ∈ (s.sortBuf i).buf ↔ r ∈ s.buf) ∧
    ((s.sortBuf i).buf.map (Row.map (spell i.terms))).SortedLT ∧ Marked (s.sortBuf i) ∧
    (s.sortBuf i).runs = s.runs ∧ (s.sortBuf i).capacity = s.capacity := by
  have hbounded := hmarked.bounded
  obtain ⟨next, hnext⟩ : ∃ next, next = (s.sorts + 1) % 2 ^ 32 := ⟨_, rfl⟩
  obtain ⟨sort, hsort⟩ : ∃ sort, sort = if next = 0 then 1 else next := ⟨_, rfl⟩
  obtain ⟨cleared, hcleared⟩ : ∃ cleared, cleared = if next = 0 then s.seen.map fun _ => 0 else s.seen :=
    ⟨_, rfl⟩
  -- a wrapped stamp clears the marks; any other is past them all
  have hstale : ∀ mark ∈ cleared, mark < sort := by
    intro mark hmark
    rw [hcleared] at hmark
    split_ifs at hmark hsort with hzero
    · obtain ⟨_, -, rfl⟩ := List.mem_map.mp hmark
      omega
    · have hle := hmarked.marks mark hmark
      omega
  have hpos : 0 < sort ∧ sort < 2 ^ 32 := by
    split_ifs at hsort <;> omega
  obtain ⟨seen, distinct, hfind, hnodup, hmem, hmarks⟩ := @findDistinct_spec sort
    (s.buf.flatMap Row.terms) (resize cleared i.terms.length) []
    (fun id hid => by
      obtain ⟨r, hr, hid⟩ := List.mem_flatMap.mp hid
      rw [length_resize]
      exact hbuf r hr id hid)
    (fun id hid => by
      refine iff_of_false (fun heq => ?_) (by simp)
      have hget : (resize cleared i.terms.length).getD id 0 ∈ resize cleared i.terms.length := by
        rw [List.getD_eq_getElem _ _ hid]
        exact List.getElem_mem hid
      rcases mem_resize hget with hold | hzero
      · exact absurd heq (hstale _ hold).ne
      · omega)
    List.nodup_nil
  simp only [List.not_mem_nil, false_or] at hmem
  have hmarks' : ∀ mark ∈ seen, mark ≤ sort := by
    intro mark hmark
    rcases hmarks mark hmark with hold | rfl
    · rcases mem_resize hold with hcleared | rfl
      · exact (hstale mark hcleared).le
      · exact Nat.zero_le _
    · exact le_refl _
  rw [QuadSpiller.sortBuf, ← hnext, ← hsort, ← hcleared, hfind]
  dsimp only
  split_ifs with hrepeat
  · obtain ⟨hrows, hascends⟩ := sortByTerms_spec h hbuf
    exact ⟨hrows, hascends, ⟨hmarks', hpos.2⟩, rfl, rfl⟩
  · have hlt : ∀ id ∈ distinct, id < i.terms.length := by
      intro id hid
      obtain ⟨r, hr, hid⟩ := List.mem_flatMap.mp ((hmem id).mp hid)
      exact hbuf r hr id hid
    have hinj : ∀ a ∈ distinct, ∀ b ∈ distinct, spell i.terms a = spell i.terms b → a = b :=
      fun a ha b hb => spell_injOn h (hlt a ha) (hlt b hb)
    have hsort : (distinct.mergeSort fun a b => (i.cmpTerms a b).isLE) =
        sortBy (spell i.terms) distinct := mergeSort_eq_sortBy fun a _ b _ => cmpTerms_isLE a b
    rw [hsort]
    have hperm := sortBy_perm (spell i.terms) distinct
    have hnodup' := hperm.nodup_iff.mpr hnodup
    have hascends : ((sortBy (spell i.terms) distinct).map (spell i.terms)).SortedLT := by
      have hdistinct := List.Nodup.map_on (fun a ha b hb => hinj a (hperm.mem_iff.mp ha) b
        (hperm.mem_iff.mp hb)) hnodup'
      exact (sortBy_ascends _ _).sortedLT_of_nodup hdistinct
    obtain ⟨hrows, hsorted⟩ := sortByRanks_spec (fun id => by rw [mem_sortBy, hmem])
      (fun id hid => by
        rw [foldl_ranks hnodup' (fun id hid => by
          rw [length_resize]
          exact hlt id (mem_sortBy.mp hid)), if_pos hid, Nat.zero_add])
      hascends
    exact ⟨hrows, hsorted, ⟨hmarks', hpos.2⟩, rfl, rfl⟩

end Sorts

/-! ### The runs of a stream -/

section Spilling

/-- The quads spilled so far, each run in its terms' order, and those still buffered. -/
structure Spilling (terms : List Str) (s : QuadSpiller) (ids : List (Row ℕ)) : Prop where
  marked : Marked s
  parts : ∃ parts : List (List (Row ℕ)), s.runs = parts.map (·.flatMap writeIds) ∧
    (∀ part ∈ parts, (part.map (Row.map (spell terms))).SortedLT) ∧
    ∀ r, r ∈ ids ↔ r ∈ parts.flatten ∨ r ∈ s.buf

variable {i : TermInterner} {s : QuadSpiller} {ids : List (Row ℕ)}

theorem Spilling.new (capacity : ℕ) : Spilling [] (QuadSpiller.new capacity) [] :=
  ⟨⟨by simp [QuadSpiller.new], by simp [QuadSpiller.new]⟩, [], rfl, by simp, by simp [QuadSpiller.new]⟩

theorem Known.buf (hids : Known i.terms ids) (h : Spilling i.terms s ids) : Known i.terms s.buf := by
  obtain ⟨-, parts, -, -, hmem⟩ := h
  exact fun r hr => hids r ((hmem r).mpr (Or.inr hr))

theorem Spilling.flushRun (hnodup : i.terms.Nodup) (hids : Known i.terms ids)
    (h : Spilling i.terms s ids) :
    Spilling i.terms (s.flushRun i) ids ∧ (s.flushRun i).buf = [] ∧ (s.flushRun i).runs ≠ [] := by
  obtain ⟨hrows, hsorted, hmarked, hruns, -⟩ := sortBuf_spec hnodup (hids.buf h) h.marked
  obtain ⟨parts, hparts, hpart, hmem⟩ := h.parts
  refine ⟨⟨⟨hmarked.marks, hmarked.bounded⟩, parts ++ [(s.sortBuf i).buf], ?_, ?_, fun r => ?_⟩, rfl, ?_⟩
  · rw [QuadSpiller.flushRun, List.map_append, List.map_singleton, ← hparts, hruns]
  · intro part hin
    rcases List.mem_append.mp hin with hold | hnew
    · exact hpart part hold
    · rw [List.mem_singleton.mp hnew]
      exact hsorted
  · rw [hmem, List.flatten_append, List.flatten_singleton, List.mem_append, hrows, QuadSpiller.flushRun]
    simp
  · rw [QuadSpiller.flushRun]
    exact List.append_ne_nil_of_right_ne_nil _ (List.cons_ne_nil _ _)

theorem Spilling.push (hnodup : i.terms.Nodup) (hids : Known i.terms ids)
    (h : Spilling i.terms s ids) (r : Row ℕ) : Spilling i.terms (s.push r i) (ids ++ [r]) := by
  have hadd : ∀ s' : QuadSpiller, Spilling i.terms s' ids →
      Spilling i.terms { s' with buf := s'.buf ++ [r] } (ids ++ [r]) := by
    intro s' h'
    obtain ⟨parts, hparts, hpart, hmem⟩ := h'.parts
    refine ⟨⟨h'.marked.marks, h'.marked.bounded⟩, parts, hparts, hpart, fun r' => ?_⟩
    rw [List.mem_append, hmem, List.mem_append, or_assoc]
  rw [QuadSpiller.push]
  split_ifs with hfull
  · exact hadd _ (h.flushRun hnodup hids).1
  · exact hadd _ h

/-- More terms leave the runs as they are. -/
theorem Spilling.extends {terms terms' ts : List Str} (hext : Extends terms terms' ts)
    (hids : Known terms ids) (h : Spilling terms s ids) : Spilling terms' s ids := by
  obtain ⟨parts, hparts, hpart, hmem⟩ := h.parts
  refine ⟨h.marked, parts, hparts, fun part hin => ?_, hmem⟩
  have hsame : part.map (Row.map (spell terms')) = part.map (Row.map (spell terms)) := by
    refine List.map_congr_left fun r hr => map_spell hext (hids r ((hmem r).mpr (Or.inl ?_)))
    exact List.mem_flatten.mpr ⟨part, hin, hr⟩
  rw [hsame]
  exact hpart part hin

/-- Every quad of a stream interned and spilled; a stream error is returned. -/
def ingest : List (Except VortexRdfError RawQuad) → TermInterner → QuadSpiller →
    Except VortexRdfError (TermInterner × QuadSpiller)
  | [], i, s => .ok (i, s)
  | .error e :: _, _, _ => .error e
  | .ok q :: stream, i, s =>
    match i.internQuad q with
    | .error e => .error e
    | .ok (ids, i) => ingest stream i (s.push ids i)

/-- The ids of a stream's quads are spilled, unless the stream has an error or its terms
are too many. -/
theorem ingest_spec {stream : List (Except VortexRdfError RawQuad)} :
    ∀ {i : TermInterner} {s : QuadSpiller} {ids : List (Row ℕ)} {quads : List (Row Str)},
    Interning i.terms ids quads → i.terms.length ≤ TERM_CAP → Spilling i.terms s ids →
    (∃ rest i' s' ids', collected stream = .ok rest ∧ ingest stream i s = .ok (i', s') ∧
      Interning i'.terms ids' (quads ++ rest.map rawRow) ∧ i'.terms.length ≤ TERM_CAP ∧
      Spilling i'.terms s' ids') ∨
    (∃ e, ingest stream i s = .error e) ∧ ∀ rest, collected stream = .ok rest →
      TERM_CAP < (termsOf (quads ++ rest.map rawRow)).length := by
  induction stream with
  | nil =>
    intro i s ids quads hinterning hcap hspilling
    exact Or.inl ⟨[], i, s, ids, rfl, rfl, by simpa using hinterning, hcap, hspilling⟩
  | cons item stream ih =>
    intro i s ids quads hinterning hcap hspilling
    cases item with
    | error e =>
      refine Or.inr ⟨⟨e, rfl⟩, fun rest hrest => ?_⟩
      rw [collected] at hrest
      cases hrest
    | ok q =>
      have hcollected : ∀ rest, collected (.ok q :: stream) = .ok rest →
          ∃ rest', collected stream = .ok rest' ∧ rest = q :: rest' := by
        intro rest hrest
        rw [collected] at hrest
        cases htail : collected stream with
        | error e =>
          rw [htail] at hrest
          cases hrest
        | ok rest' =>
          rw [htail] at hrest
          exact ⟨rest', rfl, (Except.ok.inj hrest).symm⟩
      rw [ingest]
      rcases internQuad_cases hinterning.nodup hcap q with ⟨hok, hcap'⟩ | ⟨⟨e, herror⟩, hfull⟩
      · obtain ⟨hext, hlt, -⟩ := internRow_spec hinterning.nodup (rawRow q)
        have hnext := hinterning.push (rawRow q)
        have hspilling' := (hspilling.extends hext hinterning.inRange).push (i := ⟨_⟩) hext.nodup
          (fun r hr id hid => (hinterning.inRange r hr id hid).trans_le hext.more.length_le)
          (internRow i.terms (rawRow q)).1
        simp only [hok]
        rcases ih hnext hcap' hspilling' with ⟨rest, i', s', ids', hrest, hingest, hrow⟩ | ⟨herror, hcount⟩
        · refine Or.inl ⟨q :: rest, i', s', ids', by rw [collected, hrest]; rfl, hingest, ?_⟩
          rwa [List.append_assoc] at hrow
        · refine Or.inr ⟨herror, fun rest hrest => ?_⟩
          obtain ⟨rest', hrest', rfl⟩ := hcollected rest hrest
          have hlong := hcount rest' hrest'
          rwa [List.append_assoc] at hlong
      · refine Or.inr ⟨⟨e, by rw [herror]⟩, fun rest hrest => ?_⟩
        obtain ⟨rest', -, rfl⟩ := hcollected rest hrest
        -- the terms held and the one refused are all among the stream's
        obtain ⟨held, hnodup, hlen, hmem⟩ := hfull
        have hsub : held ⊆ termsOf (quads ++ (q :: rest').map rawRow) := by
          intro t ht
          rw [mem_termsOf]
          rcases hmem t ht with hold | hnew
          · obtain ⟨q', hq', ht'⟩ := hinterning.used t hold
            exact ⟨q', List.mem_append_left _ hq', ht'⟩
          · exact ⟨rawRow q, by simp, hnew⟩
        exact hlen.trans_le (hnodup.subperm hsub).length_le

end Spilling

/-! ### The runs read back -/

section ReadBack

theorem spell_idxOf {terms : List Str} {t : Str} (h : t ∈ terms) : spell terms (terms.idxOf t) = t := by
  rw [spell, List.getD_eq_getElem _ _ (List.idxOf_lt_length_of_mem h), List.getElem_idxOf]

/-- The terms frozen: sorted, and each id's rank. -/
theorem finish_eq {i : TermInterner} (h : i.terms.Nodup) :
    i.finish = ⟨distinctSort i.terms, rankTable (rankedOrder i.terms) i.terms.length⟩ := by
  have hspell : (rankedOrder i.terms).map (spell i.terms) = distinctSort i.terms := by
    rw [rankedOrder, List.map_map]
    refine (List.map_congr_left fun t ht => ?_).trans (List.map_id _)
    exact spell_idxOf (mem_distinctSort.mp ht)
  have horder : sortBy (spell i.terms) (List.range i.terms.length) = rankedOrder i.terms := by
    refine sortBy_eq (fun a ha b hb => spell_injOn h (List.mem_range.mp ha) (List.mem_range.mp hb)) ?_ ?_
    · refine (List.perm_ext_iff_of_nodup (rankedOrder_nodup _) List.nodup_range).mpr fun id => ?_
      rw [List.mem_range]
      refine ⟨rankedOrder_lt, fun hid => List.mem_map.mpr ⟨spell i.terms id, ?_, ?_⟩⟩
      · rw [mem_distinctSort, spell, List.getD_eq_getElem _ _ hid]
        exact List.getElem_mem hid
      · rw [spell, List.getD_eq_getElem _ _ hid, h.idxOf_getElem]
    · rw [hspell]
      exact (sortedLT_distinctSort _).sortedLE
  rw [TermInterner.finish, horder, hspell]

theorem readIds_writeIds {r : Row ℕ} (h : ∀ id ∈ r.terms, id < 2 ^ 32) : readIds (writeIds r) = r := by
  simp only [Row.terms, List.forall_mem_cons] at h
  have hone : ∀ id, id < 2 ^ 32 → ofLe (leBytes 4 id) = id := fun id hid => ofLe_leBytes hid
  have hlen := length_leBytes 4
  have hs : (writeIds r).take 4 = leBytes 4 r.s := by
    rw [writeIds, List.append_assoc, List.append_assoc, List.take_left' (hlen _)]
  have hp : ((writeIds r).drop 4).take 4 = leBytes 4 r.p := by
    rw [writeIds, List.append_assoc, List.append_assoc, List.drop_left' (hlen _), List.take_left' (hlen _)]
  have ho : ((writeIds r).drop 8).take 4 = leBytes 4 r.o := by
    rw [writeIds, List.append_assoc, List.drop_left' (by rw [List.length_append, hlen, hlen]),
      List.take_left' (hlen _)]
  have hg : ((writeIds r).drop 12).take 4 = leBytes 4 r.g := by
    rw [writeIds, List.drop_left' (by simp only [List.length_append, hlen]),
      List.take_of_length_le (hlen _).le]
  rw [readIds, hs, hp, ho, hg, hone _ h.1, hone _ h.2.1, hone _ h.2.2.1, hone _ h.2.2.2.1]

theorem length_writeIds (r : Row ℕ) : (writeIds r).length = QUAD_RECORD_BYTES := by
  simp only [writeIds, List.length_append, length_leBytes]
  rfl

theorem rankIn_eq {rankOf : List ℕ} {id : ℕ} (h : id < rankOf.length) :
    rankIn rankOf id = .ok (rankOf.getD id 0) := by
  rw [rankIn, List.getElem?_eq_getElem h, List.getD_eq_getElem _ _ h]

theorem reads_file {rankOf : List ℕ} (hcap : rankOf.length ≤ TERM_CAP) {part : List (Row ℕ)}
    (h : ∀ r ∈ part, ∀ id ∈ r.terms, id < rankOf.length) :
    Reads (QuadRunReader.file (part.flatMap writeIds) rankOf)
      (part.map (Row.map fun id => rankOf.getD id 0)) := by
  induction part with
  | nil =>
    refine Reads.nil ?_
    change QuadRunReader.next _ = _
    rw [QuadRunReader.next, List.flatMap_nil, readRecord_nil]
    rfl
  | cons r part ih =>
    have hcap' : TERM_CAP < 2 ^ 32 := by decide
    have hr := h r List.mem_cons_self
    refine Reads.cons ?_ (ih fun r' hr' => h r' (List.mem_cons_of_mem _ hr'))
    change QuadRunReader.next _ = _
    rw [QuadRunReader.next, List.flatMap_cons, readRecord_append _ (by decide) (length_writeIds r), ok_bind]
    dsimp only
    rw [readIds_writeIds fun id hid => by
      have hlt := hr id hid
      omega]
    rw [Row.mapM_eq_ok fun id hid => rankIn_eq (hr id hid), ok_bind]
    rfl

theorem reads_memory {ranks : List (Row ℕ)} {items : List (Row ℕ)} : ∀ {i : ℕ}, ranks.drop i = items →
    Reads (QuadRunReader.memory ranks i) items := by
  induction items with
  | nil =>
    intro i hdrop
    refine Reads.nil ?_
    change QuadRunReader.next _ = _
    rw [QuadRunReader.next, List.getElem?_eq_none (List.drop_eq_nil_iff.mp hdrop)]
  | cons quad items ih =>
    intro i hdrop
    have hget : ranks[i]? = some quad := by
      rw [← List.head?_drop, hdrop]
      rfl
    refine Reads.cons ?_ (ih (i := i + 1) ?_)
    · change QuadRunReader.next _ = _
      rw [QuadRunReader.next, hget]
    · rw [← List.tail_drop, hdrop, List.tail_cons]

theorem length_rankTable (order : List ℕ) (n : ℕ) : (rankTable order n).length = n := by
  have hfold : ∀ (pairs : List (ℕ × ℕ)) (ranks : List ℕ),
      (pairs.foldl (fun ranks p => ranks.set p.1 p.2) ranks).length = ranks.length := by
    intro pairs
    induction pairs with
    | nil => exact fun _ => rfl
    | cons p pairs ih =>
      intro ranks
      rw [List.foldl_cons, ih, List.length_set]
  rw [rankTable, hfold, List.length_replicate]

section Merged

variable {terms : List Str} {ids : List (Row ℕ)} {quads : List (Row Str)} {rankOf : List ℕ}

/-- Ids of a build's rows have ranks. -/
theorem known_ranks (h : Interning terms ids quads)
    (hrankOf : rankOf = rankTable (rankedOrder terms) terms.length) {part : List (Row ℕ)}
    (hin : ∀ r ∈ part, r ∈ ids) : ∀ r ∈ part, ∀ id ∈ r.terms, id < rankOf.length := by
  intro r hr id hid
  rw [hrankOf, length_rankTable]
  exact h.inRange r (hin r hr) id hid

/-- A part in its terms' order is in its ranks' order too. -/
theorem ranked_sorted (h : Interning terms ids quads)
    (hrankOf : rankOf = rankTable (rankedOrder terms) terms.length) {part : List (Row ℕ)}
    (hsorted : (part.map (Row.map (spell terms))).SortedLT) (hin : ∀ r ∈ part, r ∈ ids) :
    (part.map (Row.map fun id => rankOf.getD id 0)).SortedLE := by
  have hsame : part.map (Row.map fun id => rankOf.getD id 0) =
      (part.map (Row.map (spell terms))).map (Row.map (distinctSort terms).idxOf) := by
    rw [List.map_map]
    refine List.map_congr_left fun r hr => ?_
    have hone : ∀ id ∈ r.terms, rankOf.getD id 0 = (distinctSort terms).idxOf (spell terms id) :=
      fun id hid => by
        rw [hrankOf]
        exact rankTable_rankedOrder h.nodup (h.inRange r (hin r hr) id hid)
    simp only [Row.terms, List.forall_mem_cons] at hone
    rw [Function.comp_apply, Row.map, Row.map, Row.map, hone.1, hone.2.1, hone.2.2.1, hone.2.2.2.1]
  have hmem : ∀ q ∈ part.map (Row.map (spell terms)), ∀ t ∈ q.terms, t ∈ distinctSort terms := by
    intro q hq t ht
    obtain ⟨r, hr, rfl⟩ := List.mem_map.mp hq
    obtain ⟨id, hid, rfl⟩ : ∃ id ∈ r.terms, spell terms id = t := List.mem_map.mp ht
    have hlt := h.inRange r (hin r hr) id hid
    rw [mem_distinctSort, spell, List.getD_eq_getElem _ _ hlt]
    exact List.getElem_mem hlt
  rw [hsame]
  refine (List.Pairwise.sortedLT (List.pairwise_map.mpr ?_)).sortedLE
  refine hsorted.pairwise.imp_of_mem fun hq hq' hlt => map_lt_map (fun a ha b hb hab => ?_) hlt
  exact idxOf_lt_idxOf (sortedLT_distinctSort _) (hmem _ hq a ha) (hmem _ hq' b hb) hab

/-- Spilled runs, each of the quads' ids in its terms' order and together all of them, merge into
the code rows. -/
theorem spilled_merger (h : Interning terms ids quads) (hcap : terms.length ≤ TERM_CAP)
    (hrankOf : rankOf = rankTable (rankedOrder terms) terms.length)
    (hcode : distinctSort (ids.map (Row.map fun id => rankOf.getD id 0)) = codeRows quads)
    {runs : List (List UInt8)} {parts : List (List (Row ℕ))}
    (hruns : runs = parts.map (·.flatMap writeIds))
    (hpart : ∀ part ∈ parts, (part.map (Row.map (spell terms))).SortedLT)
    (hmem : ∀ r, r ∈ ids ↔ r ∈ parts.flatten) :
    ∃ m, (QuadRuns.spilled runs rankOf).merger = .ok m ∧ Merges m (codeRows quads) := by
  have hlen : rankOf.length = terms.length := by rw [hrankOf, length_rankTable]
  have hin : ∀ part ∈ parts, ∀ r ∈ part, r ∈ ids := fun part hpart r hr =>
    (hmem r).mpr (List.mem_flatten.mpr ⟨part, hpart, hr⟩)
  have hreads : List.Forall₂ Reads (runs.map fun bytes => QuadRunReader.file bytes rankOf)
      (parts.map (List.map (Row.map fun id => rankOf.getD id 0))) := by
    rw [hruns, List.map_map, List.forall₂_map_left_iff, List.forall₂_map_right_iff, List.forall₂_same]
    exact fun part hpart => reads_file (hlen.trans_le hcap) (known_ranks h hrankOf (hin part hpart))
  obtain ⟨m, hm, hmerges⟩ := new_merges hreads (fun ranked hranked => by
    obtain ⟨part, hin', rfl⟩ := List.mem_map.mp hranked
    exact ranked_sorted h hrankOf (hpart part hin') (hin part hin'))
  refine ⟨m, hm, ?_⟩
  have hall : distinctSort (parts.map (List.map (Row.map fun id => rankOf.getD id 0))).flatten =
      codeRows quads := by
    rw [← List.map_flatten, ← hcode]
    refine distinctSort_congr fun r => ?_
    simp only [List.mem_map, hmem]
  rwa [hall] at hmerges

/-- Rows that never left memory merge into the code rows. -/
theorem memory_merger (h : Interning terms ids quads)
    (hrankOf : rankOf = rankTable (rankedOrder terms) terms.length)
    (hcode : distinctSort (ids.map (Row.map fun id => rankOf.getD id 0)) = codeRows quads)
    {buf : List (Row ℕ)} (hbuf : ∀ r, r ∈ buf ↔ r ∈ ids) :
    ∃ runs m, (SpilledQuads.memory buf).ranked rankOf = .ok runs ∧ runs.merger = .ok m ∧
      Merges m (codeRows quads) := by
  have hmap : buf.mapM (Row.mapM (rankIn rankOf)) =
      .ok (buf.map (Row.map fun id => rankOf.getD id 0)) := by
    refine mapM_eq_ok fun r hr => Row.mapM_eq_ok fun id hid => rankIn_eq ?_
    exact known_ranks h hrankOf (fun r hr => (hbuf r).mp hr) r hr id hid
  have hall : distinctSort (buf.map (Row.map fun id => rankOf.getD id 0)) = codeRows quads := by
    rw [← hcode]
    refine distinctSort_congr fun r => ?_
    simp only [List.mem_map, hbuf]
  obtain ⟨m, hm, hmerges⟩ := @new_merges QuadRunReader VortexRdfError (Row ℕ) _ _
    [.memory (codeRows quads) 0] [codeRows quads]
    (List.Forall₂.cons (reads_memory List.drop_zero) List.Forall₂.nil)
    (fun part hpart => by
      rw [List.mem_singleton.mp hpart]
      exact (sortedLT_distinctSort _).sortedLE)
  refine ⟨.memory (codeRows quads), m, ?_, hm, ?_⟩
  · rw [SpilledQuads.ranked, hmap, ok_bind, hall]
    rfl
  · have hrows : (codeRows quads).SortedLT := sortedLT_distinctSort _
    rwa [List.flatten_singleton, distinctSort_of_sortedLT hrows] at hmerges

end Merged

/-- The runs of a build's quads merge into its code rows. -/
theorem merger_spec {i : TermInterner} {s : QuadSpiller} {ids : List (Row ℕ)} {quads : List (Row Str)}
    (h : Interning i.terms ids quads) (hcap : i.terms.length ≤ TERM_CAP)
    (hspilling : Spilling i.terms s ids) :
    ∃ runs m, (s.finish i).ranked i.finish.rankOf = .ok runs ∧ runs.merger = .ok m ∧
      Merges m (codeRows quads) := by
  obtain ⟨rankOf, hrankOf⟩ : ∃ rankOf, rankOf = rankTable (rankedOrder i.terms) i.terms.length := ⟨_, rfl⟩
  have hcode := h.codeRows_eq
  rw [← hrankOf] at hcode
  rw [finish_eq h.nodup]
  dsimp only
  rw [← hrankOf, QuadSpiller.finish]
  split_ifs with hnone hempty
  · -- nothing spilled
    obtain ⟨parts, hparts, -, hmem⟩ := hspilling.parts
    have hnil : parts = [] := by
      rw [hnone] at hparts
      exact List.map_eq_nil_iff.mp hparts.symm
    refine memory_merger h hrankOf hcode fun r => ?_
    rw [hmem, hnil]
    simp
  · -- the last rows filled a run
    obtain ⟨parts, hparts, hpart, hmem⟩ := hspilling.parts
    obtain ⟨m, hm, hmerges⟩ := spilled_merger h hcap hrankOf hcode hparts hpart fun r => by
      rw [hmem, hempty]
      simp
    exact ⟨_, m, rfl, hm, hmerges⟩
  · -- the last rows are a run of their own
    obtain ⟨hflushed, hbuf, -⟩ := hspilling.flushRun h.nodup h.inRange
    obtain ⟨parts, hparts, hpart, hmem⟩ := hflushed.parts
    obtain ⟨m, hm, hmerges⟩ := spilled_merger h hcap hrankOf hcode hparts hpart fun r => by
      rw [hmem, hbuf]
      simp
    exact ⟨_, m, rfl, hm, hmerges⟩

end ReadBack

end Builds
