/-
Batched probes: patterns, each with its own keeps and window, answered in input order.

A probe is a match, then its keeps, then its window.  What each step needs of the one before is
told it, so a compare the window or the count may stop short of is left pending.

* `Probe`, `Probe.parse` — a probe, and one spelled as text;
* `VortexRdfStore.runProbe`, `.countProbe`, `.matchMany`, `.countMany` — the probes of a view;
* `parse_spec` — a probe's slots, or the first that does not parse, named;
* `runProbe_spec`, `countProbe_spec` — what a probe shows and counts, or the keeps' refusal.

`none` stands for a panic, a failed assertion among them, or an error of the array library.
-/
import VortexRdf.ViewKeeps

namespace Views

open Ascending Buffers Builds Dictionary Indexes Masks MaskOps Terms
open EncodedSearch (FastLanes)
open Store hiding Row
open scoped Lexicographic

/-! ### Probes -/

/-- A pattern with the narrowing of its match: keeps by column, then a window. -/
structure Probe where
  pattern : QuadPattern
  keeps : List (QuadColumn × Keep)
  /-- The rows to skip. -/
  offset : ℕ
  /-- The rows to take; none takes every row after the offset. -/
  limit : Option ℕ

namespace Probe

/-- A probe of a pattern with no narrowing. -/
def new (pattern : QuadPattern) : Probe := ⟨pattern, [], 0, none⟩

def keep (probe : Probe) (column : QuadColumn) (keep : Keep) : Probe :=
  { probe with keeps := probe.keeps ++ [(column, keep)] }

def window (probe : Probe) (offset : ℕ) (limit : Option ℕ) : Probe :=
  { probe with offset := offset, limit := limit }

/-- The rows of the match the window reaches. -/
def reach (probe : Probe) : ℕ :=
  match probe.limit with
  | some limit => saturatingAdd probe.offset limit
  | none => usizeMax

def windowed (probe : Probe) : Bool := decide (probe.offset ≠ 0) || probe.limit.isSome

/-- A slot of a spelled pattern: free, or its spelling parsed, an error naming the slot. -/
def slot {α : Type} (place : String) (parse : Str → Trust → Except VortexRdfError α) :
    Option Str → Except VortexRdfError (Option α)
  | none => .ok none
  | some spelling => (inPlace place (parse spelling .input)).map some

/-- A probe of a pattern spelled as text. -/
def parse (ox : Oxrdf) (subject predicate object graph : Option Str) : Except VortexRdfError Probe := do
  let subject ← slot "pattern subject" (Terms.subject ox) subject
  let predicate ← slot "pattern predicate" (Terms.namedNode ox) predicate
  let object ← slot "pattern object" (Terms.term ox) object
  let graph ← slot "pattern graph" (Terms.graphName ox) graph
  return .new ⟨subject, predicate, object, graph⟩

end Probe

section Probes

variable {ox : Oxrdf} {V M : Type} [LinearOrder V] [TermColumn V] [MaskOps M] (fl : FastLanes)
  (zonesEnabled : Bool) (finish : Finish) (shape : ArrayShape)

namespace VortexRdfStore

variable (store : VortexRdfStore ox V M)

/-- A probe's view before its window. -/
def runPatternAndKeeps (probe : Probe) (need : IdsNeed) : Attempt (VortexRdfStore ox V M) :=
  -- the keeps resolve the whole selection, whatever the window takes of it
  let need := if need.countsOrWindows && !probe.keeps.isEmpty then .countOrWindow usizeMax else need
  Attempt.andThen (store.matchPatternFor fl zonesEnabled finish shape probe.pattern need) fun matched =>
    if probe.keeps.isEmpty then some (.ok matched) else matched.keepMany fl probe.keeps

/-- A probe's view: its pattern, its keeps and its window. -/
def runProbe (probe : Probe) : Attempt (VortexRdfStore ox V M) :=
  let need := if probe.windowed then IdsNeed.countOrWindow probe.reach else .rows
  Attempt.andThen (store.runPatternAndKeeps fl zonesEnabled finish shape probe need) fun view =>
    (if probe.windowed then
        (view.windowCutting fl probe.offset (probe.limit.getD usizeMax)).map fun cut => cut.getD view
      else some view).bind fun view =>
        if view.quads.isPendingWithoutPlan then none else some (.ok view)

/-- The rows of a probe's view, counted no further than its window reaches. -/
def countProbe (probe : Probe) : Attempt ℕ :=
  let need := if probe.limit.isSome then IdsNeed.countOrWindow probe.reach else .count
  Attempt.andThen (store.runPatternAndKeeps fl zonesEnabled finish shape probe need) fun view =>
    match probe.limit with
    | some limit => (view.sizeCapped fl (saturatingAdd probe.offset limit)).map fun counted =>
        .ok (counted - probe.offset)
    | none => (view.size fl).map fun size => .ok (size - probe.offset)

/-- The views of some probes, in input order; the first error ends them. -/
def matchMany (store : VortexRdfStore ox V M) : List Probe → Attempt (List (VortexRdfStore ox V M))
  | [] => some (.ok [])
  | probe :: probes =>
    Attempt.andThen (store.runProbe fl zonesEnabled finish shape probe) fun view =>
      Attempt.andThen (store.matchMany probes) fun views => some (.ok (view :: views))

def countMany (store : VortexRdfStore ox V M) : List Probe → Attempt (List ℕ)
  | [] => some (.ok [])
  | probe :: probes =>
    Attempt.andThen (store.countProbe fl zonesEnabled finish shape probe) fun count =>
      Attempt.andThen (store.countMany probes) fun counts => some (.ok (count :: counts))

end VortexRdfStore

end Probes

/-! ### Spelled patterns -/

section Spellings

variable (ox : Oxrdf)

theorem map_error {α β : Type} {f : α → β} {parsed : Except VortexRdfError α} {e : VortexRdfError} :
    parsed.map f = .error e ↔ parsed = .error e := by
  cases parsed with
  | error e' => exact ⟨fun h => congrArg _ (Except.error.inj h), fun h => congrArg _ (Except.error.inj h)⟩
  | ok a => exact ⟨nofun, nofun⟩

/-- A parser that refuses a typed spelling says it is invalid input. -/
def RefusesInput {α : Type} (parse : Str → Trust → Except VortexRdfError α) : Prop :=
  ∀ spelling e, parse spelling .input = .error e → ∃ message, e = .invalidInput message

variable {ox}

theorem namedNode_refuses : RefusesInput (Terms.namedNode ox) := by
  intro spelling e h
  rw [Terms.namedNode] at h
  split at h
  · cases h
  · exact ⟨_, (Except.error.inj h).symm⟩

theorem blankNode_refuses : RefusesInput (Terms.blankNode ox) := by
  intro spelling e h
  rw [Terms.blankNode] at h
  split at h
  · cases h
  · exact ⟨_, (Except.error.inj h).symm⟩

theorem subject_refuses : RefusesInput (Terms.subject ox) := by
  intro spelling e h
  rw [Terms.subject] at h
  split_ifs at h
  · exact blankNode_refuses _ _ (map_error.mp h)
  · exact namedNode_refuses _ _ (map_error.mp h)

theorem literal_refuses : RefusesInput (Terms.literal ox) := by
  intro spelling e h
  rw [Terms.literal] at h
  cases hform : splitLiteral spelling with
  | none =>
    rw [hform] at h
    exact ⟨_, (Except.error.inj h).symm⟩
  | some form =>
    rw [hform] at h
    cases form with
    | simple value => cases h
    | language value lang =>
      dsimp only at h
      split at h
      · cases h
      · exact ⟨_, (Except.error.inj h).symm⟩
    | typed value datatype => exact namedNode_refuses _ _ (map_error.mp h)

theorem term_refuses : RefusesInput (Terms.term ox) := by
  intro spelling e h
  rw [Terms.term] at h
  split_ifs at h with _ _ hinput
  · exact blankNode_refuses _ _ (map_error.mp h)
  · exact literal_refuses _ _ (map_error.mp h)
  · exact namedNode_refuses _ _ (map_error.mp h)
  · exact absurd (.inl rfl) hinput

theorem graphName_refuses : RefusesInput (Terms.graphName ox) := by
  intro spelling e h
  rw [Terms.graphName] at h
  split_ifs at h
  · exact blankNode_refuses _ _ (map_error.mp h)
  · exact namedNode_refuses _ _ (map_error.mp h)

/-- What a slot holds: a term its spelling parses to, or nothing where it is free. -/
def Filled {α : Type} (parse : Str → Trust → Except VortexRdfError α) (spelling : Option Str)
    (term : Option α) : Prop :=
  match spelling, term with
  | some spelling, some term => parse spelling .input = .ok term
  | none, none => True
  | _, _ => False

/-- A slot that does not parse: the spelling is bound, and refused for a reason the slot leads. -/
def Unparsed {α : Type} (place : String) (parse : Str → Trust → Except VortexRdfError α)
    (spelling : Option Str) (e : VortexRdfError) : Prop :=
  ∃ text message, spelling = some text ∧ parse text .input = .error (.invalidInput message) ∧
    e = .invalidInput (.text (place ++ ": ") :: message)

/-- A slot parses, or is named by its error. -/
theorem slot_spec {α : Type} {parse : Str → Trust → Except VortexRdfError α} (h : RefusesInput parse)
    (place : String) (spelling : Option Str) :
    (∃ term, Probe.slot place parse spelling = .ok term ∧ Filled parse spelling term) ∨
      ∃ e, Probe.slot place parse spelling = .error e ∧ Unparsed place parse spelling e := by
  cases spelling with
  | none => exact .inl ⟨none, rfl, trivial⟩
  | some spelling =>
    rw [Probe.slot]
    cases hparse : parse spelling .input with
    | ok term => exact .inl ⟨some term, rfl, hparse⟩
    | error e =>
      obtain ⟨message, rfl⟩ := h spelling e hparse
      exact .inr ⟨_, rfl, spelling, message, rfl, hparse, rfl⟩

/-- The slots of a spelled pattern, in order, and the term each holds. -/
structure Spells (ox : Oxrdf) (subject predicate object graph : Option Str) (pattern : QuadPattern) :
    Prop where
  subject : Filled (Terms.subject ox) subject pattern.subject
  predicate : Filled (Terms.namedNode ox) predicate pattern.predicate
  object : Filled (Terms.term ox) object pattern.object
  graph : Filled (Terms.graphName ox) graph pattern.graph

/-- The first slot of a spelled pattern that does not parse, and its error. -/
inductive FirstUnparsed (ox : Oxrdf) (subject predicate object graph : Option Str) (e : VortexRdfError) :
    Prop
  | subject (h : Unparsed "pattern subject" (Terms.subject ox) subject e)
  | predicate (s : Option NamedOrBlankNode) (hs : Filled (Terms.subject ox) subject s)
      (h : Unparsed "pattern predicate" (Terms.namedNode ox) predicate e)
  | object (s : Option NamedOrBlankNode) (hs : Filled (Terms.subject ox) subject s)
      (p : Option NamedNode) (hp : Filled (Terms.namedNode ox) predicate p)
      (h : Unparsed "pattern object" (Terms.term ox) object e)
  | graph (s : Option NamedOrBlankNode) (hs : Filled (Terms.subject ox) subject s)
      (p : Option NamedNode) (hp : Filled (Terms.namedNode ox) predicate p)
      (o : Option Term) (ho : Filled (Terms.term ox) object o)
      (h : Unparsed "pattern graph" (Terms.graphName ox) graph e)

/-- **A spelled pattern** parses to a probe of its slots' terms with no narrowing, or is refused
by the first slot that does not parse, which its error names. -/
theorem parse_spec (subject predicate object graph : Option Str) :
    (∃ pattern, Probe.parse ox subject predicate object graph = .ok (.new pattern) ∧
      Spells ox subject predicate object graph pattern) ∨
    ∃ e, Probe.parse ox subject predicate object graph = .error e ∧
      FirstUnparsed ox subject predicate object graph e := by
  rw [Probe.parse]
  obtain ⟨s, hs, hsubject⟩ | ⟨e, hs, hrefused⟩ := slot_spec subject_refuses "pattern subject" subject
  · obtain ⟨p, hp, hpredicate⟩ | ⟨e, hp, hrefused⟩ :=
      slot_spec namedNode_refuses "pattern predicate" predicate
    · obtain ⟨o, ho, hobject⟩ | ⟨e, ho, hrefused⟩ := slot_spec term_refuses "pattern object" object
      · obtain ⟨g, hg, hgraph⟩ | ⟨e, hg, hrefused⟩ :=
          slot_spec graphName_refuses "pattern graph" graph
        · rw [hs, hp, ho, hg]
          exact .inl ⟨⟨s, p, o, g⟩, rfl, hsubject, hpredicate, hobject, hgraph⟩
        · rw [hs, hp, ho, hg]
          exact .inr ⟨e, rfl, .graph s hsubject p hpredicate o hobject hrefused⟩
      · rw [hs, hp, ho]
        exact .inr ⟨e, rfl, .object s hsubject p hpredicate hrefused⟩
    · rw [hs, hp]
      exact .inr ⟨e, rfl, .predicate s hsubject hrefused⟩
  · rw [hs]
    exact .inr ⟨e, rfl, .subject hrefused⟩

end Spellings

/-! ### What a probe shows and counts -/

section Specs

variable {ox : Oxrdf} {V M : Type} [LinearOrder V] [TermColumn V] [Inhabited V] [MaskOps M]
  [LawfulMask M] {fl : FastLanes} {finish : Finish} {store : VortexRdfStore ox V M}
  {ids tailIds : List RowId}

omit [Inhabited V] [MaskOps M] [LawfulMask M] in
theorem SameData.fitsUsize {view : VortexRdfStore ox V M} (h : SameData store view)
    (hfits : store.FitsUsize) : view.FitsUsize := by
  rw [VortexRdfStore.FitsUsize, h.tailLen, QuadsSource.baseLen, h.base]
  exact hfits

omit [Inhabited V] [MaskOps M] [LawfulMask M] in
theorem SameData.keepsAll {view : VortexRdfStore ox V M} (h : SameData store view)
    (keeps : List (QuadColumn × Keep)) : view.keepsAll keeps = store.keepsAll keeps := by
  funext id
  simp only [VortexRdfStore.keepsAll, h.keepsRow]

/-- Whether a base row holds every bound term of a probe's pattern, its codes in its keeps. -/
def VortexRdfStore.probes (store : VortexRdfStore ox V M) (probe : Probe) (id : RowId) : Bool :=
  admits ox probe.pattern (store.baseQuad id) && store.keepsAll probe.keeps id

/-- Whether a probe's keeps refuse a view: it has some, and the view is not addressed by code. -/
def VortexRdfStore.refuses (store : VortexRdfStore ox V M) (probe : Probe) (e : VortexRdfError) : Prop :=
  probe.keeps ≠ [] ∧ store.ensureCodeView "keep" = .error e

/-- The view before a probe's window: the rows of the match its keeps admit, where they do not
refuse it. -/
theorem runPatternAndKeeps_spec (h : store.Shows fl finish ids tailIds) (zonesEnabled : Bool)
    (shape : ArrayShape) (probe : Probe) (need : IdsNeed) :
    (∃ e, store.refuses probe e ∧
      store.runPatternAndKeeps fl zonesEnabled finish shape probe need = some (.error e)) ∨
    ((∀ e, ¬ store.refuses probe e) ∧ ∃ view ids',
      store.runPatternAndKeeps fl zonesEnabled finish shape probe need = some (.ok view) ∧
      SameData store view ∧
      view.Shows fl finish ids'
        (tailIds.filter fun id => admits ox probe.pattern (store.tailQuad id)) ∧
      inOrder ids' = (inOrder ids).filter (store.probes probe) ∧
      (need = .rows → view.quads.isPendingWithoutPlan = false)) := by
  obtain ⟨matched, found, hmatch, hsame, hshows, hbase, hread⟩ := matchPatternFor_spec h zonesEnabled
    shape probe.pattern
      (if need.countsOrWindows && !probe.keeps.isEmpty then .countOrWindow usizeMax else need)
  rw [VortexRdfStore.runPatternAndKeeps, hmatch, Attempt.andThen_ok]
  cases hkeeps : probe.keeps with
  | nil =>
    have hfree : ∀ e, ¬ store.refuses probe e := fun e hrefused => hrefused.1 hkeeps
    refine .inr ⟨hfree, matched, found, rfl, hsame, hshows, ?_, ?_⟩
    · rw [hbase]
      refine List.filter_congr fun id _ => ?_
      rw [VortexRdfStore.probes, hkeeps, VortexRdfStore.keepsAll, List.all_nil, Bool.and_true]
    · intro hneed
      refine hread ?_
      rw [hneed]
      rfl
  | cons kept keeps =>
    cases hcode : store.ensureCodeView "keep" with
    | error e =>
      have hrefused := (keep_spec hshows kept.1 kept.2).1 e ((hsame.ensureCodeView "keep").trans hcode)
      refine .inl ⟨e, ⟨by rw [hkeeps]; exact List.cons_ne_nil _ _, hcode⟩, ?_⟩
      show matched.keepMany fl ((kept.1, kept.2) :: keeps) = _
      rw [VortexRdfStore.keepMany, hrefused]
      rfl
    | ok =>
      have hcode' := (hsame.ensureCodeView "keep").trans hcode
      have hnone := (keep_spec hshows kept.1 kept.2).2 hcode' |>.1
      rw [hnone] at hshows ⊢
      obtain ⟨view, hview, hkept⟩ :=
        keepMany_spec (kept :: keeps) hshows hcode' (.inr (List.cons_ne_nil _ _))
      obtain ⟨ids', hids, hfilter⟩ := hkept.shows
      refine .inr ⟨fun e hrefused => ?_, view, ids', hview, hsame.trans hkept.same, hids, ?_,
        fun _ => hkept.read⟩
      · rw [VortexRdfStore.refuses, hcode] at hrefused
        cases hrefused.2
      · rw [hfilter, hbase, List.filter_filter, hsame.keepsAll]
        refine List.filter_congr fun id _ => ?_
        rw [VortexRdfStore.probes, hkeeps, Bool.and_comm]

/-- The rows a probe's window takes of those behind its offset. -/
def Probe.take (probe : Probe) : ℕ := probe.limit.getD usizeMax

/-- What a probe's window needs of the view it cuts. -/
def Probe.need (probe : Probe) : IdsNeed :=
  if probe.windowed then .countOrWindow probe.reach else .rows

/-- **A probe** shows its window of the view its match and keeps make, which shows the rows that
match its pattern and pass its keeps, or is refused by its keeps. -/
theorem runProbe_spec (h : store.Shows fl finish ids tailIds) (hfits : store.FitsUsize)
    (zonesEnabled : Bool) (shape : ArrayShape) (probe : Probe) :
    (∃ e, store.refuses probe e ∧
      store.runProbe fl zonesEnabled finish shape probe = some (.error e)) ∨
    ((∀ e, ¬ store.refuses probe e) ∧ ∃ whole view found,
      store.runPatternAndKeeps fl zonesEnabled finish shape probe probe.need = some (.ok whole) ∧
      SameData store whole ∧
      whole.Shows fl finish found
        (tailIds.filter fun id => admits ox probe.pattern (store.tailQuad id)) ∧
      inOrder found = (inOrder ids).filter (store.probes probe) ∧
      store.runProbe fl zonesEnabled finish shape probe = some (.ok view) ∧ SameData store view ∧
      view.Shows fl finish (page probe.offset probe.take found)
        (page (probe.offset - found.length) (probe.take - (page probe.offset probe.take found).length)
          (tailIds.filter fun id => admits ox probe.pattern (store.tailQuad id)))) := by
  rw [VortexRdfStore.runProbe]
  obtain ⟨e, hrefused, hrun⟩ | ⟨hfree, view, found, hrun, hsame, hshows, hbase, hread⟩ :=
    runPatternAndKeeps_spec h zonesEnabled shape probe probe.need
  · refine .inl ⟨e, hrefused, ?_⟩
    rw [← Probe.need, hrun]
    rfl
  · refine .inr ⟨hfree, ?_⟩
    rw [← Probe.need, hrun, Attempt.andThen_ok]
    obtain ⟨cut, hcut, hcutSame, hcutShows, hcutRead⟩ :=
      window_spec hshows (hsame.fitsUsize hfits) probe.offset probe.take
    split_ifs with hwindowed
    · rw [VortexRdfStore.window] at hcut
      refine ⟨view, cut, found, rfl, hsame, hshows, hbase, ?_, hsame.trans hcutSame, hcutShows⟩
      rw [← Probe.take, hcut, Option.bind_some, hcutRead, if_neg Bool.false_ne_true]
    · rw [Probe.need, if_neg hwindowed] at hread
      rw [Probe.windowed, Bool.or_eq_true, not_or, decide_eq_true_eq, not_not, Bool.not_eq_true,
        Option.isSome_eq_false_iff, Option.isNone_iff_eq_none] at hwindowed
      obtain ⟨hoffset, hlimit⟩ := hwindowed
      have htake : probe.take = usizeMax := by rw [Probe.take, hlimit, Option.getD_none]
      have hall := shown_fits hshows (hsame.fitsUsize hfits)
      have hpage : page probe.offset probe.take found = found := page_of_full (by omega) hoffset
      have htail : page (probe.offset - found.length) (probe.take - found.length)
          (tailIds.filter fun id => admits ox probe.pattern (store.tailQuad id)) =
            tailIds.filter fun id => admits ox probe.pattern (store.tailQuad id) :=
        page_of_full (by omega) (by omega)
      refine ⟨view, view, found, rfl, hsame, hshows, hbase, ?_, hsame, by rwa [hpage, htail]⟩
      rw [Option.bind_some, hread rfl, if_neg Bool.false_ne_true]

/-- **A probe's count** is the size of its view, however far the count reads; it is refused
where the view is. -/
theorem countProbe_spec (h : store.Shows fl finish ids tailIds) (hfits : store.FitsUsize)
    (zonesEnabled : Bool) (shape : ArrayShape) (probe : Probe) :
    (∃ e, store.refuses probe e ∧
      store.countProbe fl zonesEnabled finish shape probe = some (.error e)) ∨
    ((∀ e, ¬ store.refuses probe e) ∧
      store.countProbe fl zonesEnabled finish shape probe = some (.ok (page probe.offset probe.take
        (((inOrder ids).filter (store.probes probe)) ++
          tailIds.filter fun id => admits ox probe.pattern (store.tailQuad id))).length)) := by
  rw [VortexRdfStore.countProbe]
  obtain ⟨e, hrefused, hrun⟩ | ⟨hfree, view, found, hrun, hsame, hshows, hbase, -⟩ :=
    runPatternAndKeeps_spec h zonesEnabled shape probe
      (if probe.limit.isSome then IdsNeed.countOrWindow probe.reach else .count)
  · refine .inl ⟨e, hrefused, ?_⟩
    rw [hrun]
    rfl
  · refine .inr ⟨hfree, ?_⟩
    have hviewFits := hsame.fitsUsize hfits
    have hall := shown_fits hshows hviewFits
    have hlen : found.length = ((inOrder ids).filter (store.probes probe)).length := by
      rw [← hbase, (inOrder_perm found).length_eq]
    rw [hrun, Attempt.andThen_ok, page_length, List.length_append, ← hlen]
    cases hlimit : probe.limit with
    | some limit =>
      have htake : probe.take = limit := by rw [Probe.take, hlimit, Option.getD_some]
      dsimp only
      rw [sizeCapped_spec hshows hviewFits, Option.map_some, htake, Store.saturatingAdd]
      exact congrArg some (congrArg Except.ok (by omega))
    | none =>
      have htake : probe.take = usizeMax := by rw [Probe.take, hlimit, Option.getD_none]
      dsimp only
      rw [size_spec hshows hviewFits, Option.map_some, htake]
      exact congrArg some (congrArg Except.ok (by omega))

/-- **A batch's counts** are the sizes of its views, probe by probe in input order; the first
probe whose keeps refuse the view ends both batches with its error. -/
theorem countMany_sizes (h : store.Shows fl finish ids tailIds) (hfits : store.FitsUsize)
    (zonesEnabled : Bool) (shape : ArrayShape) (probes : List Probe) :
    (∃ e, (∃ before probe after, probes = before ++ probe :: after ∧ store.refuses probe e ∧
        ∀ earlier ∈ before, ∀ e, ¬ store.refuses earlier e) ∧
      store.matchMany fl zonesEnabled finish shape probes = some (.error e) ∧
      store.countMany fl zonesEnabled finish shape probes = some (.error e)) ∨
    ((∀ probe ∈ probes, ∀ e, ¬ store.refuses probe e) ∧ ∃ views counts,
      store.matchMany fl zonesEnabled finish shape probes = some (.ok views) ∧
      store.countMany fl zonesEnabled finish shape probes = some (.ok counts) ∧
      List.Forall₂ (fun view count => VortexRdfStore.size fl view = some count) views counts ∧
      views.length = probes.length) := by
  induction probes with
  | nil => exact .inr ⟨fun _ hprobe => absurd hprobe List.not_mem_nil, [], [], rfl, rfl, .nil, rfl⟩
  | cons probe probes ih =>
    rw [VortexRdfStore.matchMany, VortexRdfStore.countMany]
    obtain ⟨e, hrefused, hrun⟩ |
      ⟨hfree, -, view, found, -, -, -, hbase, hrun, hsame, hshows⟩ :=
        runProbe_spec h hfits zonesEnabled shape probe
    · obtain ⟨e', hrefused', hcount⟩ | ⟨hfree, -⟩ := countProbe_spec h hfits zonesEnabled shape probe
      · obtain rfl : e = e' := Except.error.inj (hrefused.2.symm.trans hrefused'.2)
        rw [hrun, hcount]
        exact .inl ⟨e, ⟨[], probe, probes, rfl, hrefused, nofun⟩, rfl, rfl⟩
      · exact absurd hrefused (hfree e)
    · obtain ⟨e, hrefused, -⟩ | ⟨-, hcount⟩ := countProbe_spec h hfits zonesEnabled shape probe
      · exact absurd hrefused (hfree e)
      · have hsize := size_spec hshows (hsame.fitsUsize hfits)
        rw [← List.length_append, ← page_append, page_length, List.length_append,
          ← (inOrder_perm found).length_eq, hbase] at hsize
        rw [page_length, List.length_append] at hcount
        rw [hrun, hcount, Attempt.andThen_ok, Attempt.andThen_ok]
        obtain ⟨e, ⟨before, refused, after, hsplit, hrefused, hbefore⟩, hmatch, hcounts⟩ |
          ⟨hall, views, counts, hmatch, hcounts, hsizes, hlen⟩ := ih
        · rw [hmatch, hcounts]
          refine .inl ⟨e, ⟨probe :: before, refused, after, by rw [hsplit]; rfl, hrefused, ?_⟩, rfl, rfl⟩
          exact List.forall_mem_cons.mpr ⟨hfree, hbefore⟩
        · rw [hmatch, hcounts]
          exact .inr ⟨List.forall_mem_cons.mpr ⟨hfree, hall⟩, _, _, rfl, rfl, .cons hsize hsizes,
            congrArg (· + 1) hlen⟩

/-- A probe of the predicate, and one of the object with a keep and a window. -/
def ViewSample.probes : List Probe :=
  [.new IndexSample.pattern, ((Probe.new objectPattern).keep .o (.range 0 3)).window 0 (some 1)]

theorem ViewSample.unrefused (probe : Probe) (e : VortexRdfError) : ¬ untailed.refuses probe e := by
  rintro ⟨-, ⟨⟩⟩

theorem countMany_sizes_untailed : ∃ views counts,
    ViewSample.untailed.matchMany .ofZeros true List.length allBound ViewSample.probes =
      some (.ok views) ∧
    ViewSample.untailed.countMany .ofZeros true List.length allBound ViewSample.probes =
      some (.ok counts) ∧
    List.Forall₂ (fun view count => VortexRdfStore.size .ofZeros view = some count) views counts ∧
    views.length = 2 := by
  obtain ⟨e, ⟨_, probe, _, -, hrefused, -⟩, -⟩ | ⟨-, hviews⟩ := countMany_sizes
    ViewSample.untailed_shows (by show 2 + 0 ≤ usizeMax; decide) true allBound ViewSample.probes
  · exact absurd hrefused (ViewSample.unrefused probe e)
  · exact hviews

end Specs

end Views
