/-
Batches of spellings and of codes against a file's windows.

* `Routed`, `routed_all` — after the bounds have answered what they can, every other hit
  is left to the read of its window;
* `windowHits_eq` — a window's read finds the hits of its positions;
* `encodeMany_computes` — a batch answers as the lookups one at a time;
* `decodeManyCached_computes` — the terms of ascending codes;
* `decodeManyWith_computes` — every position visited once, with its term;
* `fileBacked_answers_resident` — the file-backed dictionary answers as the resident one.
-/
import VortexRdf.TermRoundTrip
import VortexRdf.WindowLookups

namespace Dictionary

open Ascending Bisect Programs Store Terms
open scoped Lexicographic

/-! ### Positions routed to windows -/

section Reads

variable {w place : ℕ} {reads : List (ℕ × List ℕ)}

theorem mem_pushRead {read : ℕ × List ℕ} (h : read ∈ FileBackedDict.pushRead w place reads) :
    read ∈ reads ∨ read = (w, [place]) ∨
      ∃ places, (w, places) ∈ reads ∧ read = (w, places ++ [place]) := by
  induction reads with
  | nil => exact Or.inr (Or.inl (List.mem_singleton.mp h))
  | cons first rest ih =>
    obtain ⟨last, places⟩ := first
    cases rest with
    | nil =>
      rw [FileBackedDict.pushRead] at h
      split_ifs at h with heq
      · exact Or.inr (Or.inr ⟨places, by simp [heq], by rw [List.mem_singleton.mp h, heq]⟩)
      · rcases List.mem_cons.mp h with hfirst | hlast
        · exact Or.inl (by simp [hfirst])
        · exact Or.inr (Or.inl (List.mem_singleton.mp hlast))
    | cons second rest =>
      rw [FileBackedDict.pushRead] at h
      rcases List.mem_cons.mp h with hfirst | hrest
      · exact Or.inl (by simp [hfirst])
      · rcases ih hrest with hold | hnew | ⟨places', hmem, heq⟩
        · exact Or.inl (List.mem_cons_of_mem _ hold)
        · exact Or.inr (Or.inl hnew)
        · exact Or.inr (Or.inr ⟨places', List.mem_cons_of_mem _ hmem, heq⟩)
      · simp

/-- The position added is in a read, and none is lost. -/
theorem pushRead_covers (w place : ℕ) (reads : List (ℕ × List ℕ)) :
    (∃ read ∈ FileBackedDict.pushRead w place reads, place ∈ read.2) ∧
      ∀ p, (∃ read ∈ reads, p ∈ read.2) → ∃ read ∈ FileBackedDict.pushRead w place reads, p ∈ read.2 := by
  induction reads with
  | nil => exact ⟨⟨(w, [place]), List.mem_singleton_self _, List.mem_singleton_self _⟩, by simp⟩
  | cons first rest ih =>
    obtain ⟨last, places⟩ := first
    cases rest with
    | nil =>
      rw [FileBackedDict.pushRead]
      split_ifs with heq
      · refine ⟨⟨_, List.mem_singleton_self _, by simp⟩, fun p hp => ?_⟩
        obtain ⟨read, hread, hp⟩ := hp
        rw [List.mem_singleton.mp hread] at hp
        exact ⟨_, List.mem_singleton_self _, List.mem_append_left _ hp⟩
      · refine ⟨⟨(w, [place]), by simp, by simp⟩, fun p hp => ?_⟩
        obtain ⟨read, hread, hp⟩ := hp
        exact ⟨read, List.mem_cons.mpr (Or.inl (List.mem_singleton.mp hread)), hp⟩
    | cons second rest =>
      rw [FileBackedDict.pushRead]
      · obtain ⟨⟨read, hread, hplace⟩, hkeep⟩ := ih
        refine ⟨⟨read, List.mem_cons_of_mem _ hread, hplace⟩, fun p hp => ?_⟩
        obtain ⟨read', hread', hp⟩ := hp
        rcases List.mem_cons.mp hread' with hfirst | hrest
        · exact ⟨read', List.mem_cons.mpr (Or.inl hfirst), hp⟩
        · obtain ⟨read'', hread'', hp''⟩ := hkeep p ⟨read', hrest, hp⟩
          exact ⟨read'', List.mem_cons_of_mem _ hread'', hp''⟩
      · simp

end Reads

section Batch

variable {fb : WindowedDict} {ts : List Str}

/-- The exact lookup of the term at a position. -/
def answerAt (terms ts : List Str) (p : ℕ) : Option TermCode := rankOf terms (ts.getD p [])

/-- A read's positions lie strictly between its window's bounds, in byte order. -/
structure InWindow (fb : FileBackedDict) (ts : List Str) (read : ℕ × List ℕ) : Prop where
  window : ∃ window, ∀ p ∈ read.2, Located fb (ts.getD p []) read.1 window ∧
    window.first < ts.getD p [] ∧ ts.getD p [] ≠ window.last
  ascending : read.2.Pairwise fun a b => ts.getD a [] ≤ ts.getD b []
  nonempty : read.2 ≠ []

/-- The positions `done` answered from the bounds or left to a read. -/
structure Routed (fb : FileBackedDict) (ts : List Str) (done : List ℕ)
    (codes : List (Option TermCode)) (reads : List (ℕ × List ℕ)) : Prop where
  length : codes.length = ts.length
  right : ∀ p, codes.getD p none = none ∨ codes.getD p none = answerAt fb.terms ts p
  covered : ∀ p ∈ done, codes.getD p none = answerAt fb.terms ts p ∨ ∃ read ∈ reads, p ∈ read.2
  inWindow : ∀ read ∈ reads, InWindow fb ts read
  within : ∀ read ∈ reads, ∀ p ∈ read.2, p ∈ done

variable {codes : List (Option TermCode)} {reads : List (ℕ × List ℕ)}

theorem Routed.answered {done : List ℕ}
    (h : Routed fb.toFileBackedDict ts done codes reads) {place : ℕ}
    (hplace : place < ts.length) {code : TermCode} (hcode : answerAt fb.terms ts place = some code) :
    Routed fb.toFileBackedDict ts (done ++ [place]) (codes.set place (some code)) reads := by
  have hget : ∀ p, (codes.set place (some code)).getD p none = codes.getD p none ∨
      p = place ∧ (codes.set place (some code)).getD p none = answerAt fb.terms ts p := by
    intro p
    rw [CountingSort.getD_set]
    by_cases hp : place = p ∧ place < codes.length
    · rw [if_pos hp]
      exact Or.inr ⟨hp.1.symm, by rw [← hp.1, hcode]⟩
    · rw [if_neg hp]
      exact Or.inl rfl
  refine ⟨by rw [List.length_set, h.length], fun p => ?_, fun p hp => ?_, h.inWindow,
    fun read hread p hp => List.mem_append_left _ (h.within read hread p hp)⟩
  · rcases hget p with hold | ⟨-, hnew⟩
    · rw [hold]
      exact h.right p
    · exact Or.inr hnew
  · rcases List.mem_append.mp hp with hdone | hself
    · rcases hget p with hold | ⟨-, hnew⟩
      · rw [hold]
        exact h.covered p hdone
      · exact Or.inl hnew
    · rw [List.mem_singleton.mp hself, CountingSort.getD_set,
        if_pos ⟨rfl, by rw [h.length]; exact hplace⟩]
      exact Or.inl hcode.symm

theorem Routed.missed {done : List ℕ}
    (h : Routed fb.toFileBackedDict ts done codes reads) {place : ℕ}
    (hmiss : answerAt fb.terms ts place = none) :
    Routed fb.toFileBackedDict ts (done ++ [place]) codes reads := by
  refine ⟨h.length, h.right, fun p hp => ?_, h.inWindow,
    fun read hread p hp => List.mem_append_left _ (h.within read hread p hp)⟩
  rcases List.mem_append.mp hp with hdone | hself
  · exact h.covered p hdone
  · rw [List.mem_singleton.mp hself, hmiss]
    rcases h.right place with hnone | hanswer
    · exact Or.inl hnone
    · exact Or.inl (hanswer.trans hmiss)

theorem Routed.pushed {done : List ℕ}
    (h : Routed fb.toFileBackedDict ts done codes reads) {place w : ℕ}
    {window : Window} (hdone : ∀ p ∈ done, ts.getD p [] ≤ ts.getD place [])
    (hlocated : Located fb.toFileBackedDict (ts.getD place []) w window)
    (hfirst : window.first < ts.getD place []) (hlast : ts.getD place [] ≠ window.last) :
    Routed fb.toFileBackedDict ts (done ++ [place]) codes
      (FileBackedDict.pushRead w place reads) := by
  obtain ⟨hself, hkeep⟩ := pushRead_covers w place reads
  refine ⟨h.length, h.right, fun p hp => ?_, fun read hread => ?_, fun read hread p hp => ?_⟩
  · rcases List.mem_append.mp hp with hdone | hplace
    · exact (h.covered p hdone).imp id (hkeep p)
    · rw [List.mem_singleton.mp hplace]
      exact Or.inr hself
  · rcases mem_pushRead hread with hold | rfl | ⟨places, hmem, rfl⟩
    · exact h.inWindow read hold
    · refine ⟨⟨window, fun p hp => ?_⟩, List.pairwise_singleton _ _, List.cons_ne_nil _ _⟩
      rw [List.mem_singleton.mp hp]
      exact ⟨hlocated, hfirst, hlast⟩
    · have hread := h.inWindow _ hmem
      obtain ⟨window', hwindow'⟩ := hread.window
      -- the read's window is the position's, for both are window `w`
      have hsame : window' = window := by
        obtain ⟨p, hp⟩ := List.exists_mem_of_ne_nil _ hread.nonempty
        have hbounds := (hwindow' p hp).1.bounds
        rw [hlocated.bounds] at hbounds
        exact (Option.some.inj hbounds).symm
      refine ⟨⟨window, fun p hp => ?_⟩, List.pairwise_append.mpr ⟨hread.ascending,
        List.pairwise_singleton _ _, fun a ha b hb => ?_⟩, by simp⟩
      · rcases List.mem_append.mp hp with hold | hnew
        · exact hsame ▸ hwindow' p hold
        · rw [List.mem_singleton.mp hnew]
          exact ⟨hlocated, hfirst, hlast⟩
      · rw [List.mem_singleton.mp hb]
        exact hdone a (h.within _ hmem a ha)
  · rcases mem_pushRead hread with hold | rfl | ⟨places, hmem, rfl⟩
    · exact List.mem_append_left _ (h.within read hold p hp)
    · exact List.mem_append_right _ hp
    · rcases List.mem_append.mp hp with hold | hnew
      · exact List.mem_append_left _ (h.within _ hmem p hold)
      · exact List.mem_append_right _ hnew

theorem Routed.step {done : List ℕ} {state : List (Option TermCode) × List (ℕ × List ℕ)}
    (h : Routed fb.toFileBackedDict ts done state.1 state.2) {place : ℕ} (hplace : place < ts.length)
    (hdone : ∀ p ∈ done, ts.getD p [] ≤ ts.getD place []) :
    Routed fb.toFileBackedDict ts (done ++ [place]) (fb.routeTerm ts state place).1
      (fb.routeTerm ts state place).2 := by
  rw [FileBackedDict.routeTerm]
  rcases locate_spec fb (ts.getD place []) with ⟨hlocate, hrank⟩ | ⟨w, window, hlocate, hlocated⟩
  · rw [hlocate]
    refine h.missed ?_
    rw [answerAt, rankOf, hrank]
    simp
  · obtain ⟨hbefore, hfirst, hlast, -⟩ := rankOf_located fb hlocated
    rw [hlocate]
    dsimp only
    cases hcmp : compareBytes (ts.getD place []) window.first with
    | lt => exact h.missed (hbefore (compareBytes_eq_lt_iff.mp hcmp))
    | eq => exact h.answered hplace (hfirst (compareBytes_eq_eq_iff.mp hcmp))
    | gt =>
      dsimp only
      split_ifs with heq
      · refine h.answered hplace ((hlast heq).trans ?_)
        have := hlocated.pos
        congr 1
        omega
      · exact h.pushed hdone hlocated (compareBytes_eq_gt_iff.mp hcmp) heq

theorem Routed.run {rest : List ℕ} : ∀ {done : List ℕ}
    {state : List (Option TermCode) × List (ℕ × List ℕ)},
    Routed fb.toFileBackedDict ts done state.1 state.2 → (∀ p ∈ rest, p < ts.length) →
    (done ++ rest).Pairwise (fun a b => ts.getD a [] ≤ ts.getD b []) →
    Routed fb.toFileBackedDict ts (done ++ rest) (rest.foldl (fb.routeTerm ts) state).1
      (rest.foldl (fb.routeTerm ts) state).2 := by
  induction rest with
  | nil =>
    intro done state h _ _
    rw [List.append_nil]
    exact h
  | cons place rest ih =>
    intro done state h hlt hsorted
    have hdone : ∀ p ∈ done, ts.getD p [] ≤ ts.getD place [] := fun p hp =>
      (List.pairwise_append.mp hsorted).2.2 p hp place List.mem_cons_self
    have hcut : done ++ place :: rest = (done ++ [place]) ++ rest := by simp
    rw [hcut] at hsorted ⊢
    rw [List.foldl_cons]
    exact ih (h.step (hlt place List.mem_cons_self) hdone)
      (fun p hp => hlt p (List.mem_cons_of_mem _ hp)) hsorted

theorem routed_all (fb : WindowedDict) (ts : List Str) :
    Routed fb.toFileBackedDict ts (byteOrder ts)
      ((byteOrder ts).foldl (fb.routeTerm ts) (List.replicate ts.length none, [])).1
      ((byteOrder ts).foldl (fb.routeTerm ts) (List.replicate ts.length none, [])).2 := by
  have horder := byteOrder_spec ts
  have hfirst : Routed fb.toFileBackedDict ts [] (List.replicate ts.length none) [] := by
    refine ⟨List.length_replicate, fun p => Or.inl ?_, by simp, by simp, by simp⟩
    rw [List.getD_eq_getElem?_getD, List.getElem?_replicate]
    split_ifs <;> rfl
  exact @Routed.run fb ts (byteOrder ts) [] (List.replicate ts.length none, []) hfirst
    (fun p hp => (horder.mem_iff p).mp hp) horder.ascending

/-! ### The hits of a window -/

theorem windowHits_eq {w : ℕ} {window : Window} (places : List ℕ) : ∀ {start : ℕ},
    (∀ p ∈ places, Located fb.toFileBackedDict (ts.getD p []) w window ∧
      window.first < ts.getD p [] ∧ ts.getD p [] ≠ window.last) →
    places.Pairwise (fun a b => ts.getD a [] ≤ ts.getD b []) → 1 ≤ start →
    (∀ p ∈ places, start ≤ rankBelow fb.terms (ts.getD p []) - window.start) →
    FileBackedDict.windowHits ts (fb.windowChunk w) window places start =
      places.filterMap fun p => (answerAt fb.terms ts p).map fun code => (p, code) := by
  induction places with
  | nil =>
    intro start _ _ _ _
    rfl
  | cons place places ih =>
    intro start hin hsorted hone hstart
    obtain ⟨hlocated, hfirst, hlast⟩ := hin place List.mem_cons_self
    obtain ⟨k, hk⟩ : ∃ k, k = rankBelow fb.terms (ts.getD place []) - window.start := ⟨_, rfl⟩
    have hrank := hlocated.inside hfirst
    have hback : window.start + k = rankBelow fb.terms (ts.getD place []) := by omega
    have hstop := hlocated.stop_le
    have hlen : fb.terms.length ≤ usizeMax := fb.len_le
    have hsearch : nextLowerBoundBy start (window.rows - 1) (places.length + 1)
        (fun i => (fb.windowChunk w).strAt i < ts.getD place []) = k := by
      refine nextLowerBoundBy_eq (by omega) ?_
      have hpoint := inside_point hlocated hfirst
      rw [← hk] at hpoint
      exact hpoint.narrow hone le_rfl (hk ▸ hstart place List.mem_cons_self) hpoint.le
    have hanswer := rankOf_inside fb hlocated hfirst hlast
    rw [← hk, ← hback] at hanswer
    have hrest := ih (fun p hp => hin p (List.mem_cons_of_mem _ hp)) hsorted.of_cons
      (show 1 ≤ k by omega) fun p hp => by
        have hmono := rankBelow_mono fb.terms_sorted (List.rel_of_pairwise_cons hsorted hp)
        omega
    rw [FileBackedDict.windowHits]
    simp only [hsearch]
    rw [hrest]
    by_cases hhit : k < window.rows - 1 ∧ (fb.windowChunk w).strAt k = ts.getD place []
    · rw [if_pos hhit] at hanswer ⊢
      have hsome : answerAt fb.terms ts place = some (window.start + k) := hanswer
      rw [List.filterMap_cons_some (by rw [hsome]; rfl)]
      rfl
    · rw [if_neg hhit] at hanswer ⊢
      have hnone : answerAt fb.terms ts place = none := hanswer
      rw [List.filterMap_cons_none (by rw [hnone]; rfl)]
      rfl

/-- Right hits written into the answers of the bounds complete them. -/
theorem foldl_hits {answer : ℕ → Option TermCode} {hits : List (ℕ × TermCode)}
    (hright : ∀ hit ∈ hits, answer hit.1 = some hit.2) (codes : List (Option TermCode)) :
    (hits.foldl (fun codes hit => codes.set hit.1 (some hit.2)) codes).length = codes.length ∧
    ∀ p, (hits.foldl (fun codes hit => codes.set hit.1 (some hit.2)) codes).getD p none =
      if p ∈ hits.map (·.1) ∧ p < codes.length then answer p else codes.getD p none := by
  have hfold : hits.foldl (fun codes hit => codes.set hit.1 (some hit.2)) codes =
      (hits.map (·.1)).foldl (fun l place => if (fun _ => true) place = true then
        l.set place (answer place) else l) codes := by
    rw [List.foldl_map]
    refine List.foldl_ext _ _ codes fun codes hit hhit => ?_
    rw [if_pos rfl, hright hit hhit]
  obtain ⟨hlen, hget⟩ := foldl_set_spec (fun _ => true) answer none (hits.map (·.1)) codes
  rw [hfold]
  exact ⟨hlen, fun p => by rw [hget]; simp only [true_and]⟩

/-- The hits of every read complete the answers of the bounds. -/
theorem Routed.completed
    (h : Routed fb.toFileBackedDict ts (byteOrder ts) codes reads) :
    (reads.flatMap fun read => read.2.filterMap fun p =>
        (answerAt fb.terms ts p).map fun code => (p, code)).foldl
      (fun codes hit => codes.set hit.1 (some hit.2)) codes = ts.map (rankOf fb.terms) := by
  have horder := byteOrder_spec ts
  obtain ⟨hits, hhits⟩ : ∃ hits, hits = reads.flatMap fun read => read.2.filterMap fun p =>
      (answerAt fb.terms ts p).map fun code => (p, code) := ⟨_, rfl⟩
  have hmem : ∀ hit, hit ∈ hits ↔
      (∃ read ∈ reads, hit.1 ∈ read.2) ∧ answerAt fb.terms ts hit.1 = some hit.2 := by
    intro hit
    rw [hhits, List.mem_flatMap]
    constructor
    · rintro ⟨read, hread, hin⟩
      obtain ⟨p, hp, hsome⟩ := List.mem_filterMap.mp hin
      obtain ⟨code, hcode, rfl⟩ := Option.map_eq_some_iff.mp hsome
      exact ⟨⟨read, hread, hp⟩, hcode⟩
    · rintro ⟨⟨read, hread, hp⟩, hcode⟩
      refine ⟨read, hread, List.mem_filterMap.mpr ⟨hit.1, hp, ?_⟩⟩
      rw [hcode]
      rfl
  obtain ⟨hlen, hget⟩ := foldl_hits (fun hit hhit => ((hmem hit).mp hhit).2) codes
  rw [← hhits]
  refine List.ext_getElem (by rw [hlen, h.length, List.length_map]) fun p hp hp' => ?_
  rw [List.length_map] at hp'
  have hanswer : answerAt fb.terms ts p = rankOf fb.terms ts[p] := by
    rw [answerAt, List.getD_eq_getElem _ _ hp']
  rw [List.getElem_map, ← hanswer, ← List.getD_eq_getElem _ none hp, hget, h.length]
  split_ifs with hhit
  · rfl
  · rcases h.covered p ((horder.mem_iff p).mpr hp') with hright | hread
    · exact hright
    · -- a position left to a read that has no hit has no code
      have hnone : answerAt fb.terms ts p = none := by
        cases hcode : answerAt fb.terms ts p with
        | none => rfl
        | some code =>
          exact absurd ⟨List.mem_map.mpr ⟨(p, code), (hmem (p, code)).mpr ⟨hread, hcode⟩, rfl⟩, hp'⟩
            hhit
      rcases h.right p with hmiss | hright
      · rw [hmiss, hnone]
      · exact hright

theorem readHits_computes
    (h : Routed fb.toFileBackedDict ts (byteOrder ts) codes reads) {read : ℕ × List ℕ}
    (hread : read ∈ reads) :
    Answered fb.toFileBackedDict (do
        let chunk ← fb.readChunk read.1
        return FileBackedDict.windowHits ts chunk (fb.bounds.getD read.1 ⟨0, 0, [], []⟩) read.2 1)
      (.ok (read.2.filterMap fun p => (answerAt fb.terms ts p).map fun code => (p, code))) := by
  obtain ⟨⟨window, hwindow⟩, hascending, hnonempty⟩ := h.inWindow read hread
  obtain ⟨p, hp⟩ := List.exists_mem_of_ne_nil _ hnonempty
  have hbounds : fb.bounds.getD read.1 ⟨0, 0, [], []⟩ = window := by
    rw [List.getD_eq_getElem?_getD, (hwindow p hp).1.bounds]
    rfl
  have hstart : ∀ p ∈ read.2, 1 ≤ rankBelow fb.terms (ts.getD p []) - window.start := by
    intro p hp
    have := (hwindow p hp).1.inside (hwindow p hp).2.1
    omega
  refine (readChunk_computes fb.toFileBackedDict read.1).bind_ok ?_
  rw [hbounds, windowHits_eq read.2 hwindow hascending le_rfl hstart]
  exact Computes.pure _

/-- A batch of spellings, the misses looked up by their canonical spellings in input
order. -/
theorem encodeMany_computes (fb : WindowedDict) (ox : Oxrdf) (ts : List Str) :
    Answered fb.toFileBackedDict (fb.encodeMany ox ts) (ts.mapM (lookupTolerant ox fb.terms)) := by
  rw [FileBackedDict.encodeMany]
  have hrouted := routed_all fb ts
  generalize (byteOrder ts).foldl (fb.routeTerm ts) (List.replicate ts.length none, []) = state
    at hrouted ⊢
  obtain ⟨codes, reads⟩ := state
  have hhits := Computes.mapM (l := reads) fun read hread => readHits_computes hrouted hread
  rw [mapM_eq_ok fun read _ => rfl] at hhits
  refine hhits.bind_ok ?_
  dsimp only
  rw [← List.flatMap_def, hrouted.completed, ← TermDictionary.mapM_misses]
  refine Computes.mapM fun p _ => ?_
  cases p.1 with
  | some code => exact Computes.pure _
  | none => exact encodeCanonical_computes fb ox p.2

end Batch

/-! ### Codes -/

section Codes

variable (fb : WindowedDict)

theorem map_eq_bind {α β ε : Type} (e : Except ε α) (f : α → β) :
    e.map f = e >>= fun a => .ok (f a) := by
  cases e <;> rfl

/-- Read through the cache, the visits are those without one. -/
theorem visitLoopCached_computes (fuel : ℕ) : ∀ codes : List TermCode,
    Answered fb.toFileBackedDict (fb.visitLoopCached fuel codes) (fb.visitLoop fuel codes) := by
  induction fuel with
  | zero =>
    intro codes
    cases codes with
    | nil => exact Computes.pure []
    | cons code codes => exact Computes.pure []
  | succ fuel ih =>
    intro codes
    cases codes with
    | nil => exact Computes.pure []
    | cons code codes =>
      rw [FileBackedDict.visitLoopCached, FileBackedDict.visitLoop]
      split_ifs with hrun
      · exact Computes.lift _
      · refine (readChunk_computes fb.toFileBackedDict _).bind_ok ?_
        rw [map_eq_bind]
        exact (ih _).bind fun terms _ => Computes.pure _

theorem visitTermsCached_computes (codes : List TermCode) :
    Answered fb.toFileBackedDict (fb.visitTermsCached codes) (fb.visitTerms codes) :=
  (Computes.lift _).bind fun _ _ => visitLoopCached_computes fb _ codes

theorem decodeManyCached_computes (codes : List TermCode) :
    Answered fb.toFileBackedDict (fb.decodeManyCached codes) (fb.decodeMany codes) := by
  rw [FileBackedDict.decodeManyCached, FileBackedDict.decodeMany]
  cases codes.getLast? with
  | none => exact Computes.pure []
  | some max => exact (Computes.lift _).bind fun _ _ => visitTermsCached_computes fb codes

end Codes

/-! ### Codes in any order -/

section Positions

variable {fb : WindowedDict} {codes : List TermCode}

/-- A position with its code's term, if any. -/
def visitAt (terms : List Str) (codes : List TermCode) (place : ℕ) : ℕ × Option Str :=
  (place, terms[codes.getD place 0]?)

theorem visits_eq (terms : List Str) (l : List (TermCode × ℕ)) (h : ∀ p ∈ l, codes[p.2]? = some p.1) :
    (l.map fun p => (p.2, terms[p.1]?)) = (l.map (·.2)).map (visitAt terms codes) := by
  rw [List.map_map]
  refine List.map_congr_left fun p hp => ?_
  rw [Function.comp_apply, visitAt, List.getD_eq_getElem?_getD, h p hp]
  rfl

theorem mem_located {w place : ℕ} (h : (w, place) ∈ fb.located codes) :
    ∃ code, codes[place]? = some code ∧ code < fb.terms.length ∧
      w = (chunkOf fb.starts code).1 := by
  obtain ⟨p, hp, hsome⟩ := List.mem_filterMap.mp h
  obtain ⟨rank, hrank, heq⟩ := Option.map_eq_some_iff.mp hsome
  rw [codeRank] at hrank
  split_ifs at hrank with hlt
  obtain rfl := Option.some.inj hrank
  obtain ⟨rfl, rfl⟩ := Prod.mk.inj heq
  exact ⟨p.1, List.mem_zipIdx_iff_getElem?.mp hp, hlt, rfl⟩

theorem located_places (fb : WindowedDict) (codes : List TermCode) :
    (fb.located codes).map (·.2) =
      (codes.zipIdx.filter fun p => !(codeRank p.1 fb.len).isNone).map (·.2) := by
  rw [FileBackedDict.located]
  induction codes.zipIdx with
  | nil => rfl
  | cons p l ih =>
    cases hrank : codeRank p.1 fb.len with
    | none =>
      rw [List.filterMap_cons_none (by rw [hrank]; rfl), List.filter_cons_of_neg (by simp [hrank]), ih]
    | some rank =>
      rw [List.filterMap_cons_some (by rw [hrank]; rfl), List.filter_cons_of_pos (by simp [hrank]),
        List.map_cons, List.map_cons, ih]

/-- The out-of-range positions and the located ones are all of them. -/
theorem outside_append_located (fb : WindowedDict) (codes : List TermCode) :
    (((codes.zipIdx.filter fun p => (codeRank p.1 fb.len).isNone).map
        fun p => (p.2, (none : Option Str))) ++
      ((fb.located codes).map (·.2)).map (visitAt fb.terms codes)).Perm
      (codes.zipIdx.map fun p => (p.2, fb.terms[p.1]?)) := by
  have hget : ∀ p ∈ codes.zipIdx, codes[p.2]? = some p.1 :=
    fun p hp => List.mem_zipIdx_iff_getElem?.mp hp
  have houtside : ((codes.zipIdx.filter fun p => (codeRank p.1 fb.len).isNone).map
      fun p => (p.2, (none : Option Str))) =
      ((codes.zipIdx.filter fun p => (codeRank p.1 fb.len).isNone).map (·.2)).map
        (visitAt fb.terms codes) := by
    rw [← visits_eq fb.terms _ fun p hp => hget p (List.mem_filter.mp hp).1]
    refine List.map_congr_left fun p hp => ?_
    have hnone := (List.mem_filter.mp hp).2
    rw [codeRank] at hnone
    split_ifs at hnone with hlt
    · cases hnone
    · rw [List.getElem?_eq_none (Nat.le_of_not_lt hlt)]
  rw [houtside, located_places, visits_eq fb.terms _ hget, ← List.map_append, ← List.map_append]
  exact ((List.filter_append_perm _ _).map _).map _

theorem visitPositions_computes {w : ℕ} {places : List ℕ}
    (h : ∀ place ∈ places, (w, place) ∈ fb.located codes) :
    Answered fb.toFileBackedDict (fb.visitPositions codes w places)
      (.ok (places.map (visitAt fb.terms codes))) := by
  refine (readChunk_computes fb.toFileBackedDict w).bind_ok ?_
  have hplaces : (places.map fun place =>
      (place, some ((fb.windowChunk w).strAt (codes.getD place 0 - fb.starts.getD w 0)))) =
      places.map (visitAt fb.terms codes) := by
    refine List.map_congr_left fun place hplace => ?_
    obtain ⟨code, hcode, hlt, hw⟩ := mem_located (h place hplace)
    obtain ⟨w', s, hchunk, hholds⟩ := chunkOf_spec (show code < fb.windows.flatten.length from hlt)
    obtain rfl : w = w' := by rw [hw, FileBackedDict.starts, hchunk]
    have hget : codes.getD place 0 = code := by rw [List.getD_eq_getElem?_getD, hcode]; rfl
    have hterm : (fb.windowChunk w).strAt (code - s) = fb.terms.getD code [] :=
      hholds.terms code hholds.le hholds.lt
    rw [visitAt, hget, FileBackedDict.starts, hholds.starts, hterm, List.getD_eq_getElem _ _ hlt,
      List.getElem?_eq_getElem hlt]
  rw [hplaces]
  exact Computes.pure _

theorem foldl_min_le (ws : List ℕ) : ∀ w : ℕ, ws.foldl min w ≤ w ∧ ∀ x ∈ ws, ws.foldl min w ≤ x := by
  induction ws with
  | nil => simp
  | cons y ws ih =>
    intro w
    obtain ⟨hfirst, hrest⟩ := ih (min w y)
    rw [List.foldl_cons]
    refine ⟨hfirst.trans (min_le_left w y), fun x hx => ?_⟩
    rcases List.mem_cons.mp hx with rfl | hx
    · exact hfirst.trans (min_le_right w x)
    · exact hrest x hx

theorem lt_foldl_max (ws : List ℕ) : ∀ hi : ℕ, hi ≤ ws.foldl (fun hi w => max hi (w + 1)) hi ∧
    ∀ x ∈ ws, x < ws.foldl (fun hi w => max hi (w + 1)) hi := by
  induction ws with
  | nil => simp
  | cons y ws ih =>
    intro hi
    obtain ⟨hfirst, hrest⟩ := ih (max hi (y + 1))
    rw [List.foldl_cons]
    refine ⟨(le_max_left hi (y + 1)).trans hfirst, fun x hx => ?_⟩
    rcases List.mem_cons.mp hx with rfl | hx
    · exact (le_max_right hi (x + 1)).trans hfirst
    · exact hrest x hx

/-- The places window by window, in the order of a counting sort. -/
theorem touched_flatMap {slots : ℕ} {rows : List (ℕ × ℕ)} (h : ∀ row ∈ rows, row.1 < slots)
    (f : ℕ → ℕ × Option Str) :
    (((List.range slots).filter fun k =>
        (CountingSort.sort slots rows).1.getD k 0 < (CountingSort.sort slots rows).1.getD (k + 1) 0).flatMap
      fun k => (CountingSort.bucket rows k).map f).Perm ((rows.map (·.2)).map f) := by
  obtain ⟨hstarts, -⟩ := CountingSort.sort_spec h
  have hall : ((List.range slots).filter fun k =>
        (CountingSort.sort slots rows).1.getD k 0 < (CountingSort.sort slots rows).1.getD (k + 1) 0).flatMap
      (fun k => (CountingSort.bucket rows k).map f) =
      (List.range slots).flatMap fun k => (CountingSort.bucket rows k).map f := by
    have hle : ∀ k ∈ List.range slots, k < slots := fun k hk => List.mem_range.mp hk
    generalize List.range slots = ks at hle ⊢
    induction ks with
    | nil => rfl
    | cons k ks ih =>
      have hk : k < slots := hle k List.mem_cons_self
      have hrest := ih fun k' hk' => hle k' (List.mem_cons_of_mem _ hk')
      by_cases htouched : (CountingSort.sort slots rows).1.getD k 0 <
          (CountingSort.sort slots rows).1.getD (k + 1) 0
      · rw [List.filter_cons_of_pos (by simpa using htouched), List.flatMap_cons, List.flatMap_cons,
          hrest]
      · -- no row has this key
        have hempty : CountingSort.bucket rows k = [] := by
          rw [hstarts k hk.le, hstarts (k + 1) hk, CountingSort.keysBefore_succ] at htouched
          exact List.eq_nil_of_length_eq_zero (by omega)
        rw [List.filter_cons_of_neg (by simpa using htouched), List.flatMap_cons, hempty, hrest]
        rfl
  rw [hall, ← List.map_flatMap]
  exact (CountingSort.buckets_perm h).map f

/-- Every position is visited once, with the term of its code if it has one. -/
theorem decodeManyWith_computes (fb : WindowedDict) (codes : List TermCode) : ∃ visits,
    Answered fb.toFileBackedDict (fb.decodeManyWith codes) (.ok visits) ∧
      visits.Perm (codes.zipIdx.map fun p => (p.2, fb.terms[p.1]?)) := by
  have hall := outside_append_located fb codes
  obtain ⟨outside, houtside⟩ : ∃ outside : List (ℕ × Option Str), outside =
      (codes.zipIdx.filter fun p => (codeRank p.1 fb.len).isNone).map fun p => (p.2, none) := ⟨_, rfl⟩
  rw [← houtside] at hall
  rw [FileBackedDict.decodeManyWith, ← houtside]
  cases hws : (fb.located codes).map (·.1) with
  | nil =>
    rw [List.map_eq_nil_iff.mp hws] at hall
    exact ⟨outside, Computes.pure _, by simpa using hall⟩
  | cons w ws =>
    obtain ⟨lo, hlo⟩ : ∃ lo, lo = (w :: ws).foldl min w := ⟨_, rfl⟩
    obtain ⟨hi, hhi⟩ : ∃ hi, hi = (w :: ws).foldl (fun hi w => max hi (w + 1)) 0 := ⟨_, rfl⟩
    have hwithin : ∀ row ∈ fb.located codes, lo ≤ row.1 ∧ row.1 < hi := by
      intro row hrow
      have hmem : row.1 ∈ w :: ws := hws ▸ List.mem_map_of_mem hrow
      exact ⟨hlo ▸ (foldl_min_le _ w).2 _ hmem, hhi ▸ (lt_foldl_max _ 0).2 _ hmem⟩
    dsimp only
    rw [← hlo, ← hhi]
    split_ifs with hone
    · -- all positions are of one window
      have hplaces : ∀ place ∈ (fb.located codes).map (·.2), (lo, place) ∈ fb.located codes := by
        intro place hplace
        obtain ⟨row, hrow, rfl⟩ := List.mem_map.mp hplace
        have := hwithin row hrow
        have heq : row = (lo, row.2) := Prod.ext (show row.1 = lo by omega) rfl
        rwa [heq] at hrow
      exact ⟨_, (visitPositions_computes hplaces).bind_ok (Computes.pure _), hall⟩
    · obtain ⟨rows, hrows⟩ : ∃ rows, rows = (fb.located codes).map fun p => (p.1 - lo, p.2) := ⟨_, rfl⟩
      have hsmall : ∀ row ∈ rows, row.1 < hi - lo := by
        intro row hrow
        rw [hrows] at hrow
        obtain ⟨p, hp, rfl⟩ := List.mem_map.mp hrow
        have := hwithin p hp
        change p.1 - lo < hi - lo
        omega
      -- a window's places are its bucket's
      have hbucket : ∀ k, ∀ place ∈ CountingSort.bucket rows k, (lo + k, place) ∈ fb.located codes := by
        intro k place hplace
        obtain ⟨row, hrow, rfl⟩ := List.mem_map.mp hplace
        obtain ⟨hmem, hk⟩ := List.mem_filter.mp hrow
        rw [hrows] at hmem
        obtain ⟨p, hp, rfl⟩ := List.mem_map.mp hmem
        have hk : p.1 - lo = k := of_decide_eq_true hk
        have := hwithin p hp
        have heq : p = (lo + k, p.2) := Prod.ext (show p.1 = lo + k by omega) rfl
        rwa [heq] at hp
      have htouched := touched_flatMap hsmall (visitAt fb.terms codes)
      have hplaces : rows.map (·.2) = (fb.located codes).map (·.2) := by
        rw [hrows, List.map_map]
        rfl
      rw [hplaces, List.flatMap_def] at htouched
      rw [← hrows]
      refine ⟨_, Computes.bind_ok ?_ (Computes.pure _), (htouched.append_left outside).trans hall⟩
      rw [← mapM_eq_ok fun k _ => rfl]
      refine Computes.mapM fun k hk => ?_
      rw [(CountingSort.sort_spec hsmall).2 k (List.mem_range.mp (List.mem_filter.mp hk).1)]
      exact visitPositions_computes (hbucket k)

end Positions

/-! ### Filters -/

theorem sortedLT_of_outOfOrder : ∀ {codes : List TermCode},
    FileBackedDict.outOfOrder codes = none → codes.SortedLT
  | [], _ => List.Pairwise.sortedLT List.Pairwise.nil
  | [a], _ => List.Pairwise.sortedLT (List.pairwise_singleton _ a)
  | a :: b :: rest, h => by
    rw [FileBackedDict.outOfOrder] at h
    split_ifs at h with hle
    have hrest := sortedLT_of_outOfOrder h
    refine List.Pairwise.sortedLT (List.pairwise_cons.mpr ⟨fun c hc => ?_, hrest.pairwise⟩)
    rcases List.mem_cons.mp hc with rfl | hc
    · exact Nat.lt_of_not_le hle
    · exact (Nat.lt_of_not_le hle).trans (head_lt hrest hc)

/-- Candidates that pass the check ascend strictly inside the dictionary. -/
theorem checkCandidates_spec {codes : List TermCode} {len : ℕ}
    (h : FileBackedDict.checkCandidates codes len = .ok ()) :
    codes.SortedLT ∧ ∀ code ∈ codes, code < len := by
  rw [FileBackedDict.checkCandidates] at h
  cases hout : FileBackedDict.outOfOrder codes with
  | some pair => simp [hout] at h
  | none =>
    have hsorted := sortedLT_of_outOfOrder hout
    refine ⟨hsorted, fun code hcode => ?_⟩
    cases hfind : (codes.head?.toList ++ codes.getLast?.toList).find?
        (fun code => (codeRank code len).isNone) with
    | some code => simp [hout, hfind] at h
    | none =>
      obtain ⟨max, hlast⟩ : ∃ max, codes.getLast? = some max :=
        ⟨_, List.getLast?_eq_getLast_of_ne_nil (List.ne_nil_of_mem hcode)⟩
      have hmax : max < len := by
        have hin := List.find?_eq_none.mp hfind max (by simp [hlast])
        rw [codeRank] at hin
        split_ifs at hin with hlt
        · exact hlt
        · exact absurd rfl hin
      obtain ⟨init, rfl⟩ := List.getLast?_eq_some_iff.mp hlast
      rcases List.mem_append.mp hcode with hinit | hself
      · exact ((List.pairwise_append.mp hsorted.pairwise).2.2 code hinit max (by simp)).trans hmax
      · exact List.mem_singleton.mp hself ▸ hmax

section Filter

variable {fl : Floats} {predicate : TermPredicate fl} {kinds : KindRanges} {codes : List TermCode}

theorem map_getD_range (codes : List TermCode) :
    (List.range codes.length).map (fun place => codes.getD place 0) = codes := by
  refine List.ext_getElem (by simp) fun p hp hp' => ?_
  rw [List.getElem_map, List.getElem_range, List.getD_eq_getElem _ _ hp']

/-- The places left to read ascend. -/
theorem toRead_sublist : (kindVerdicts predicate kinds codes).2.Sublist (List.range codes.length) := by
  have hplaces : codes.zipIdx.map (·.2) = List.range codes.length := by
    rw [List.zipIdx_map_snd, List.range_eq_range']
  rw [kindVerdicts, ← hplaces]
  exact List.filter_sublist.map _

/-- The terms read, each at its place, are the verdicts the resident filter takes. -/
theorem foldl_spellings {terms : List Str} {spelling : TermCode → Str} {verdicts : List Verdict}
    {read : List ℕ}
    (hspelling : ∀ place ∈ read, spelling (codes.getD place 0) = terms.getD (codes.getD place 0) []) :
    (read.zip ((read.map fun place => codes.getD place 0).map fun code => terms.getD code [])).foldl
        (fun verdicts read => verdicts.set read.1 (predicate.eval read.2)) verdicts =
      readVerdicts predicate spelling codes verdicts read := by
  rw [readVerdicts]
  induction read generalizing verdicts with
  | nil => rfl
  | cons place read ih =>
    rw [List.map_cons, List.map_cons, List.zip_cons_cons, List.foldl_cons, List.foldl_cons,
      ih fun p hp => hspelling p (List.mem_cons_of_mem _ hp),
      hspelling place List.mem_cons_self]

end Filter

/-- The file's filter is the resident one, the error of candidates out of order or out of
range included. -/
theorem filterCodes_computes (fb : WindowedDict) {dict : TermDictionary}
    (hterms : dict.terms = fb.terms) {fl : Floats} (bracketedIris : Bool)
    (predicate : TermPredicate fl) (codes : List TermCode) :
    Answered fb.toFileBackedDict (fb.filterCodes bracketedIris predicate codes)
      (dict.filterCodes bracketedIris predicate codes) := by
  have hsorted : dict.terms.SortedLT := hterms ▸ fb.terms_sorted
  have hlen : dict.len = fb.len := congrArg List.length hterms
  have hrange : dict.prefixRange = prefixCodes fb.terms := by
    rw [← hterms]
    exact funext (TermDictionary.prefixRange_eq hsorted)
  have hkinds : dict.kindRanges = kindRangesOf fb.terms := by
    rw [TermDictionary.kindRanges_eq hsorted, hterms]
  rw [FileBackedDict.filterCodes, TermDictionary.filterCodes, hlen, hkinds, hrange]
  refine (Computes.lift _).bind fun _ hcheck => ?_
  obtain ⟨hcodes, hin⟩ := checkCandidates_spec hcheck
  refine (kindRanges_computes fb).bind_ok ?_
  -- whatever is left to read is visited in order, inside the dictionary
  have hvisit : ∀ (verdicts : List Verdict) {read : List ℕ}, read.Sublist (List.range codes.length) →
      Answered fb.toFileBackedDict (do
          let spellings ← fb.visitTermsCached (read.map fun place => codes.getD place 0)
          return splitVerdicts codes ((read.zip spellings).foldl
            (fun verdicts read => verdicts.set read.1 (predicate.eval read.2)) verdicts))
        (.ok (splitVerdicts codes
          (readVerdicts predicate (DictCursor.strAt dict) codes verdicts read))) := by
    intro verdicts read hread
    have hsub : (read.map fun place => codes.getD place 0).Sublist codes := by
      have hmap := hread.map fun place => codes.getD place 0
      rwa [map_getD_range] at hmap
    have hlt : ∀ code ∈ read.map fun place => codes.getD place 0, code < fb.terms.length :=
      fun code hcode => hin code (hsub.mem hcode)
    have hterm : ∀ place ∈ read, DictCursor.strAt dict (codes.getD place 0) =
        fb.terms.getD (codes.getD place 0) [] := by
      intro place hplace
      rw [← hterms]
      refine DictCursor.strAt_eq dict ?_
      rw [hterms]
      exact hlt _ (List.mem_map_of_mem hplace)
    have hspellings := visitTermsCached_computes fb (read.map fun place => codes.getD place 0)
    rw [FileBackedDict.visitTerms, checkCandidates_eq_ok (sublist hcodes hsub) hlt] at hspellings
    change Answered _ _ (fb.visitLoop _ _) at hspellings
    rw [visitLoop_eq fb.toFileBackedDict _ le_rfl (sublist hcodes hsub) hlt] at hspellings
    refine hspellings.bind_ok ?_
    rw [foldl_spellings hterm]
    exact Computes.pure _
  have hread := @toRead_sublist fl predicate (kindRangesOf fb.terms) codes
  rcases hfirst : kindVerdicts predicate (kindRangesOf fb.terms) codes with ⟨verdicts, read⟩
  rw [hfirst] at hread
  simp only [hfirst]
  cases hpre : iriPrefixToDecide predicate bracketedIris (kindRangesOf fb.terms) codes read with
  | none =>
    refine Computes.bind_ok (a := (verdicts, read)) ?_ (hvisit verdicts hread)
    rw [FileBackedDict.decideRead, hpre]
    exact Computes.pure _
  | some pre =>
    refine Computes.bind_ok (a := decideIris verdicts read codes (kindRangesOf fb.terms).iris
      (prefixCodes fb.terms (0x3c :: pre))) ?_ (hvisit _ (List.filter_sublist.trans hread))
    rw [FileBackedDict.decideRead, hpre]
    exact (prefixRange_computes fb _).bind_ok (Computes.pure _)

/-! ### The file answers as the resident dictionary -/

/-- One letter, two and three, each a window. -/
def threeWindows : WindowedDict where
  windows := [[[0x61]], [[0x63], [0x65]], [[0x67], [0x69], [0x6b]]]
  len_le := by decide
  readsWait := false
  waits _ := false
  heapBytes _ := 64
  budget := 1 <<< 20
  nonempty := by decide
  sorted := List.Pairwise.sortedLT (by decide)

/-- The same letters in one chunk. -/
def sixLetters : TermDictionary :=
  ⟨[[[0x61], [0x63], [0x65], [0x67], [0x69], [0x6b]]], by decide⟩

/-- **The file-backed dictionary answers as the resident one.** From a fresh cache on, and
whatever the lookups before have left in it, a lookup by spelling, a batch, a bound, a
prefix's range, the kind ranges and a filter are those of the dictionary in memory over the
same terms; codes in any order are each visited once; ascending ones give their terms. -/
theorem fileBacked_answers_resident (fb : WindowedDict) {dict : TermDictionary}
    (hterms : dict.terms = fb.terms) (ox : Oxrdf) (fl : Floats) :
    (∀ budget, ReadState.Faithful fb.toFileBackedDict ⟨WindowCache.new budget, none⟩) ∧
    (∀ t, Answered fb.toFileBackedDict (fb.encodeExact t) (.ok (dict.encodeExact t))) ∧
    (∀ t, Answered fb.toFileBackedDict (fb.encode ox t) (dict.encode ox t)) ∧
    (∀ ts, Answered fb.toFileBackedDict (fb.encodeMany ox ts) (dict.encodeMany ox ts)) ∧
    (∀ needle, Answered fb.toFileBackedDict (fb.lowerBound needle) (.ok (dict.lowerBound needle))) ∧
    (∀ pre, Answered fb.toFileBackedDict (fb.prefixRange pre) (.ok (dict.prefixRange pre))) ∧
    Answered fb.toFileBackedDict fb.kindRanges (.ok dict.kindRanges) ∧
    (∀ bracketedIris, ∀ predicate : TermPredicate fl, ∀ codes,
      Answered fb.toFileBackedDict (fb.filterCodes bracketedIris predicate codes)
        (dict.filterCodes bracketedIris predicate codes)) ∧
    (∀ codes, ∃ visits, Answered fb.toFileBackedDict (fb.decodeManyWith codes) (.ok visits) ∧
      (visits.map (·.1)).Perm (List.range codes.length) ∧
      visits.Perm (dict.decodeManyWith codes)) ∧
    ∀ codes, codes.SortedLT → (∀ code ∈ codes, code < fb.len) →
      Answered fb.toFileBackedDict (fb.decodeManyCached codes)
        (.ok (codes.map fun code => fb.terms.getD code [])) := by
  have h : dict.terms.SortedLT := hterms ▸ fb.terms_sorted
  refine ⟨fun budget => ⟨WindowCache.kept_new _ budget, by simp⟩, fun t => ?_, fun t => ?_,
    fun ts => ?_, fun needle => ?_, fun pre => ?_, ?_, fun bracketedIris predicate codes => ?_,
    fun codes => ?_, fun codes hcodes hin => ?_⟩
  · rw [TermDictionary.encodeExact_eq h, hterms]
    exact encodeExact_computes fb t
  · rw [TermDictionary.encode_eq h, hterms]
    exact encode_computes fb ox t
  · rw [TermDictionary.encodeMany_eq h, hterms]
    exact encodeMany_computes fb ox ts
  · rw [TermDictionary.lowerBound_eq h, hterms]
    exact lowerBound_computes fb needle
  · rw [TermDictionary.prefixRange_eq h, hterms]
    exact prefixRange_computes fb pre
  · rw [TermDictionary.kindRanges_eq h, hterms]
    exact kindRanges_computes fb
  · exact filterCodes_computes fb hterms bracketedIris predicate codes
  · obtain ⟨visits, hvisits, hperm⟩ := decodeManyWith_computes fb codes
    -- the visits are the codes' places in some order
    have hplaces := hperm.map (·.1)
    rw [List.map_map] at hplaces
    have hsnd : codes.zipIdx.map ((·.1) ∘ fun p => (p.2, fb.terms[p.1]?)) = List.range codes.length := by
      rw [show ((·.1) ∘ fun p : TermCode × ℕ => (p.2, fb.terms[p.1]?)) = (·.2) from rfl,
        List.zipIdx_map_snd, List.range_eq_range']
    refine ⟨visits, hvisits, hsnd ▸ hplaces, ?_⟩
    rw [TermDictionary.decodeManyWith_eq, hterms]
    exact hperm
  · have hdecode := decodeManyCached_computes fb codes
    rwa [decodeMany_eq fb.toFileBackedDict hcodes hin] at hdecode

/-- Two lookups one after the other: the last letter of a window, then one past a gap. -/
theorem fileBacked_answers_resident_letters :
    (∃ s', threeWindows.encodeExact [0x69] ⟨WindowCache.new 4096, none⟩ = (.ok (some 4), s') ∧
      ReadState.Faithful threeWindows.toFileBackedDict s') ∧
    Answered threeWindows.toFileBackedDict (threeWindows.decodeManyCached [0, 2, 5])
      (.ok [[0x61], [0x65], [0x6b]]) := by
  obtain ⟨hnew, hexact, -, -, -, -, -, -, -, hmany⟩ :=
    @fileBacked_answers_resident threeWindows sixLetters rfl ntriples leanFloats
  exact ⟨hexact [0x69] _ (hnew 4096), hmany [0, 2, 5] (List.Pairwise.sortedLT (by decide)) (by decide)⟩

end Dictionary
