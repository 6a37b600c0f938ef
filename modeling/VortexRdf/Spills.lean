/-
Spilling over any run of a build.

Terms are interned, quads pushed and buffers flushed in any order; index entries are pushed
in the order of their rows, from any first row id.

* `SpillStep`, `Spilled` — a step of an ingest, and the states its runs reach;
* `Spilled.sound` — the buffer's ids are known, and the marks of past sorts are past;
* `Consecutive`, `pushAll_spec` — entries of consecutive rows, pushed;
* `spilling_is_exact` — a buffer sorts to its distinct quads in their terms' order, and the
  runs of entries merge into all of them in key and row order.
-/
import Mathlib.Logic.Relation
import VortexRdf.EntryRuns

namespace Builds

open DistinctSort Programs Records RunMerges Store Terms
open scoped Lexicographic

/-! ### The quads of an ingest -/

/-- A step of an ingest: a term interned, a quad of known terms pushed, or the buffer
flushed. -/
inductive SpillStep : TermInterner × QuadSpiller → TermInterner × QuadSpiller → Prop
  | intern {i i' : TermInterner} {s : QuadSpiller} {t : Str} {id : ℕ}
      (h : i.intern t = .ok (id, i')) : SpillStep (i, s) (i', s)
  | push {i : TermInterner} {s : QuadSpiller} {ids : Row ℕ}
      (h : ∀ id ∈ ids.terms, id < i.terms.length) : SpillStep (i, s) (i, s.push ids i)
  | flush {i : TermInterner} {s : QuadSpiller} : SpillStep (i, s) (i, s.flushRun i)

/-- The states the runs of an ingest reach. -/
def Spilled (capacity : ℕ) : TermInterner × QuadSpiller → Prop :=
  Relation.ReflTransGen SpillStep (TermInterner.new, QuadSpiller.new capacity)

/-- What every step keeps. -/
structure SpillSound (i : TermInterner) (s : QuadSpiller) : Prop where
  nodup : i.terms.Nodup
  cap : i.terms.length ≤ TERM_CAP
  known : Known i.terms s.buf
  marked : Marked s

theorem SpillSound.flushRun {i : TermInterner} {s : QuadSpiller} (h : SpillSound i s) :
    SpillSound i (s.flushRun i) ∧ (s.flushRun i).buf = [] := by
  obtain ⟨-, -, hmarked, -⟩ := sortBuf_spec h.nodup h.known h.marked
  refine ⟨⟨h.nodup, h.cap, fun r hr => ?_, ⟨hmarked.marks, hmarked.bounded⟩⟩, rfl⟩
  exact absurd hr List.not_mem_nil

theorem SpillSound.step {state state' : TermInterner × QuadSpiller} (h : SpillSound state.1 state.2)
    (hstep : SpillStep state state') : SpillSound state'.1 state'.2 := by
  cases hstep with
  | @intern i i' s t id hintern =>
    obtain ⟨hext, -, -⟩ := internTerm_spec h.nodup t
    rcases intern_cases h.nodup h.cap t with ⟨hok, hcap⟩ | ⟨⟨e, herror⟩, -⟩
    · rw [hok] at hintern
      obtain ⟨-, rfl⟩ := Prod.mk.inj (Except.ok.inj hintern)
      -- ids stay those of their terms as the terms grow
      exact ⟨hext.nodup, hcap, fun r hr id hid =>
        lt_of_lt_of_le (h.known r hr id hid) hext.more.length_le, h.marked⟩
    · rw [herror] at hintern
      cases hintern
  | @push i s ids hids =>
    have hadd : ∀ s' : QuadSpiller, SpillSound i s' →
        SpillSound i { s' with buf := s'.buf ++ [ids] } := by
      intro s' h'
      refine ⟨h'.nodup, h'.cap, fun r hr => ?_, ⟨h'.marked.marks, h'.marked.bounded⟩⟩
      rcases List.mem_append.mp hr with hold | hnew
      · exact h'.known r hold
      · rw [List.mem_singleton.mp hnew]
        exact hids
    show SpillSound i (s.push ids i)
    rw [QuadSpiller.push]
    split_ifs with hfull
    · exact hadd _ (SpillSound.flushRun h).1
    · exact hadd _ h
  | flush => exact (SpillSound.flushRun h).1

theorem Spilled.sound {capacity : ℕ} {state : TermInterner × QuadSpiller}
    (h : Spilled capacity state) : SpillSound state.1 state.2 := by
  induction h with
  | refl =>
    refine ⟨List.nodup_nil, Nat.zero_le _, fun r hr => absurd hr List.not_mem_nil, ?_, ?_⟩
    · exact fun mark hmark => absurd hmark List.not_mem_nil
    · exact Nat.two_pow_pos 32
  | tail _ hstep ih => exact ih.step hstep

/-! ### The entries of consecutive rows -/

section Entries

variable {E : Type} [IndexEntry E] [LinearOrder E]

/-- Entries of consecutive rows from row `lo` on, their ranks `u32`s and their row ids
`u64`s. -/
structure Consecutive (lo : ℕ) (entries : List E) : Prop where
  numbered : entries.map IndexEntry.rowId = List.range' lo entries.length
  fits : ∀ e ∈ entries, IndexEntry.Fits e
  within : lo + entries.length ≤ ROW_ID_MAX + 1

theorem new_from (name : String) {capacity lo : ℕ} (h : capacity ≤ ROW_OFFSET_MAX)
    (hlo : lo ≤ ROW_ID_MAX + 1) : ∃ s : EntrySpiller E,
    EntrySpiller.new name capacity = .ok s ∧ NumberedFrom lo s [] := by
  obtain ⟨s, hs, hnumbering⟩ := @new_spec E _ _ name capacity h
  exact ⟨s, hs, hnumbering.capacity, hnumbering.room, rfl, hlo, hnumbering.fits, hnumbering.parts⟩

/-- Entries pushed one after another never fail. -/
theorem pushAll_spec {lo : ℕ} {entries : List E} : ∀ {done : List E} {s : EntrySpiller E},
    NumberedFrom lo s done → Consecutive lo (done ++ entries) →
      ∃ s', entries.foldlM EntrySpiller.push s = .ok s' ∧ NumberedFrom lo s' (done ++ entries) := by
  induction entries with
  | nil =>
    intro done s h _
    rw [List.append_nil]
    exact ⟨s, rfl, h⟩
  | cons e entries ih =>
    intro done s h hall
    have hnumbered := hall.numbered
    have hwithin := hall.within
    rw [List.length_append, List.length_cons] at hwithin
    have hrow : IndexEntry.rowId e = lo + done.length := by
      have hget := congrArg (fun rows : List ℕ => rows[done.length]?) hnumbered
      beta_reduce at hget
      rw [List.getElem?_map, List.getElem?_append_right le_rfl, Nat.sub_self,
        List.getElem?_cons_zero, List.getElem?_range' (by rw [List.length_append]; simp),
        Nat.one_mul] at hget
      exact Option.some.inj hget
    have hfits := hall.fits e (List.mem_append_right _ List.mem_cons_self)
    obtain ⟨s', hpush, h'⟩ := h.push hrow hfits (by omega)
    rw [List.append_cons] at hall
    obtain ⟨s'', hrest, h''⟩ := ih h' hall
    refine ⟨s'', ?_, by rwa [List.append_cons]⟩
    rw [List.foldlM_cons, hpush]
    exact hrest

omit [LinearOrder E] in
/-- Entries of consecutive rows are all different. -/
theorem Consecutive.nodup {lo : ℕ} {entries : List E} (h : Consecutive lo entries) :
    (entries.map IndexEntry.rowId).Nodup := by
  rw [h.numbered]
  exact List.nodup_range'

/-- What spilling some entries and merging the runs read back gives: a capacity past the
row offsets is refused, and under any other the entries themselves, each by its key and
then its row id, in batches of any size. -/
def SpillsAndMerges {K : Type} [LinearOrder K] (entryKey : E → K) (capacity : ℕ)
    (entries : List E) : Prop :=
  ∀ name : String,
    (ROW_OFFSET_MAX < capacity → ∃ e,
      (EntrySpiller.new name capacity : Except _ (EntrySpiller E)) = .error e) ∧
    (capacity ≤ ROW_OFFSET_MAX → ∃ (s s' : EntrySpiller E) (m : RunMerger (EntryRunReader E) E)
      (merged : List E),
      EntrySpiller.new name capacity = .ok s ∧ entries.foldlM EntrySpiller.push s = .ok s' ∧
      s'.intoMerger = .ok m ∧ merged.Perm entries ∧
      (merged.map fun e => toLex (entryKey e, IndexEntry.rowId e)).SortedLT ∧
      ∀ n, ∃ m', m.nextBatch n = .ok (merged.take n, m'))

/-- Entries ordered by their keys and their rows spill and merge. -/
theorem spillsAndMerges {K : Type} [LinearOrder K] (entryKey : E → K) (capacity : ℕ) {lo : ℕ}
    {entries : List E} (h : Consecutive lo entries)
    (horder : ∀ a b : E, IndexEntry.rowId a ≠ IndexEntry.rowId b → a < b →
      toLex (entryKey a, IndexEntry.rowId a) < toLex (entryKey b, IndexEntry.rowId b)) :
    SpillsAndMerges entryKey capacity entries := by
  intro name
  refine ⟨fun hover => new_refused name hover, fun hcapacity => ?_⟩
  have hwithin := h.within
  obtain ⟨s, hs, hnone⟩ := @new_from E _ _ name capacity lo hcapacity (by omega)
  obtain ⟨s', hpushed, hall⟩ := pushAll_spec hnone h
  obtain ⟨m, hm, hmerges⟩ := hall.intoMerger
  rw [List.nil_append] at hmerges
  have hnodup : entries.Nodup := List.Nodup.of_map _ h.nodup
  have hsorted := sortedLT_distinctSort entries
  have hperm : (distinctSort entries).Perm entries :=
    (List.perm_ext_iff_of_nodup hsorted.nodup hnodup).mpr fun e => mem_distinctSort
  refine ⟨s, s', m, _, hs, hpushed, hm, hperm, ?_, fun n => ?_⟩
  · refine List.Pairwise.sortedLT (List.pairwise_map.mpr ?_)
    refine hsorted.pairwise.imp_of_mem fun {a b} ha hb hab => horder a b (fun hrow => ?_) hab
    have heq := List.inj_on_of_nodup_map h.nodup (mem_distinctSort.mp ha) (mem_distinctSort.mp hb) hrow
    exact absurd hab (heq ▸ lt_irrefl a)
  · obtain ⟨m', hbatch, -⟩ := @nextBatch_spec _ _ _ _ _ n _ _ hmerges
    exact ⟨m', hbatch⟩

end Entries

/-- Reference entries of different rows never come to their graphs. -/
theorem refEntry_order (a b : RefEntry) (hrow : IndexEntry.rowId a ≠ IndexEntry.rowId b)
    (hab : a < b) : toLex (a.1, IndexEntry.rowId a) < toLex (b.1, IndexEntry.rowId b) := by
  rcases Prod.Lex.lt_iff.mp hab with hkey | ⟨hkey, hrest⟩
  · exact Prod.Lex.lt_iff.mpr (Or.inl hkey)
  · rcases Prod.Lex.lt_iff.mp hrest with hlt | ⟨heq, -⟩
    · exact Prod.Lex.lt_iff.mpr (Or.inr ⟨hkey, hlt⟩)
    · exact absurd heq hrow

theorem copyEntry_order (a b : CopyEntry) (_ : IndexEntry.rowId a ≠ IndexEntry.rowId b)
    (hab : a < b) : toLex (a.1, IndexEntry.rowId a) < toLex (b.1, IndexEntry.rowId b) := hab

/-- Whatever was interned, pushed and flushed before, a sort leaves the buffer's distinct
quads, each once, in the order of their terms; and entries of consecutive rows, spilled
and merged, come back whole in the order of their keys and rows. -/
theorem spilling_is_exact {capacity : ℕ} {i : TermInterner} {s : QuadSpiller}
    (hspilled : Spilled capacity (i, s)) {lo : ℕ} {refs : List RefEntry} {copies : List CopyEntry}
    (hrefs : Consecutive lo refs) (hcopies : Consecutive lo copies) :
    (∀ r, r ∈ (s.sortBuf i).buf ↔ r ∈ s.buf) ∧
    ((s.sortBuf i).buf.map (Row.map (spell i.terms))).SortedLT ∧
    SpillsAndMerges (fun e : RefEntry => e.1) capacity refs ∧
    SpillsAndMerges (fun e : CopyEntry => e.1) capacity copies := by
  have hsound := hspilled.sound
  obtain ⟨hrows, hsorted, -⟩ := sortBuf_spec hsound.nodup hsound.known hsound.marked
  exact ⟨hrows, hsorted, spillsAndMerges _ capacity hrefs refEntry_order,
    spillsAndMerges _ capacity hcopies copyEntry_order⟩

/-- Two terms, the later one interned first. -/
def twoTerms : TermInterner := ⟨[[98], [97]]⟩

/-- Two quads, the first of them twice, then both again, the second twice. -/
def pushed : List (Row ℕ) :=
  [⟨0, 0, 0, 0⟩, ⟨1, 0, 1, 0⟩, ⟨0, 0, 0, 0⟩, ⟨0, 1, 1, 0⟩, ⟨0, 0, 0, 0⟩, ⟨0, 1, 1, 0⟩]

/-- A full buffer of three quads, three quads spilled before them. -/
def sixQuads : QuadSpiller := pushed.foldl (fun s ids => s.push ids twoTerms) (QuadSpiller.new 3)

theorem spilled_pushes {capacity : ℕ} {i : TermInterner} {s : QuadSpiller} {quads : List (Row ℕ)}
    (h : Spilled capacity (i, s)) (hknown : ∀ ids ∈ quads, ∀ id ∈ ids.terms, id < i.terms.length) :
    Spilled capacity (i, quads.foldl (fun s ids => s.push ids i) s) := by
  induction quads generalizing s with
  | nil => exact h
  | cons ids quads ih =>
    obtain ⟨hids, hrest⟩ := List.forall_mem_cons.mp hknown
    exact ih (.tail h (.push hids)) hrest

theorem spilled_sixQuads : Spilled 3 (twoTerms, sixQuads) := by
  have hfirst : SpillStep (TermInterner.new, QuadSpiller.new 3) (⟨[[98]]⟩, QuadSpiller.new 3) :=
    @SpillStep.intern _ _ _ [98] 0 rfl
  have hsecond : SpillStep (⟨[[98]]⟩, QuadSpiller.new 3) (twoTerms, QuadSpiller.new 3) :=
    @SpillStep.intern _ _ _ [97] 1 rfl
  exact spilled_pushes (.tail (.tail .refl hfirst) hsecond) (by decide)

/-- Entries of one value and of another in the last four rows there can be. -/
def lastRefs : List RefEntry :=
  [refEntry 5 (ROW_ID_MAX - 3) 1, refEntry 4 (ROW_ID_MAX - 2) 0, refEntry 5 (ROW_ID_MAX - 1) 0,
    refEntry 4 ROW_ID_MAX 0]

def lastCopies : List CopyEntry :=
  [copyEntry (key 2 1 0 0) (ROW_ID_MAX - 3), copyEntry (key 1 1 1 0) (ROW_ID_MAX - 2),
    copyEntry (key 2 1 0 0) (ROW_ID_MAX - 1), copyEntry (key 0 1 1 0) ROW_ID_MAX]

theorem consecutive_lastRefs : Consecutive (ROW_ID_MAX - 3) lastRefs := by
  refine ⟨rfl, fun e he => ?_, by decide⟩
  simp only [lastRefs, List.mem_cons, List.not_mem_nil, or_false] at he
  rcases he with rfl | rfl | rfl | rfl <;> exact ⟨by decide, by decide⟩

theorem consecutive_lastCopies : Consecutive (ROW_ID_MAX - 3) lastCopies := by
  refine ⟨rfl, fun e he => ?_, by decide⟩
  simp only [lastCopies, List.mem_cons, List.not_mem_nil, or_false] at he
  rcases he with rfl | rfl | rfl | rfl <;> exact ⟨by decide, by decide, by decide, by decide⟩

theorem spilling_is_exact_sample :
    (∀ r, r ∈ (sixQuads.sortBuf twoTerms).buf ↔ r ∈ sixQuads.buf) ∧
    ((sixQuads.sortBuf twoTerms).buf.map (Row.map (spell twoTerms.terms))).SortedLT ∧
    SpillsAndMerges (fun e : RefEntry => e.1) 3 lastRefs ∧
    SpillsAndMerges (fun e : CopyEntry => e.1) 3 lastCopies :=
  spilling_is_exact spilled_sixQuads consecutive_lastRefs consecutive_lastCopies

end Builds
