/-
Runs of a sorted file's subject column.

A file sorted by `(s, p, o, g)` holds a subject's rows in one run, a predicate's in one run
inside it, and so on: each is found by a search of its column's chunks.  A role that is
free, has no code or whose chunks decline ends the narrowing, and stays in the pattern.

* `locateSubjectRun`, `narrowSubjectRun`, `locateSubject` — a bound subject's run, narrowed
  by the roles behind it, which leave the pattern;
* `locateSubjectCodeRange`, `locateSubjectCodeRuns` — the rows of a range or a set of codes;
* `narrowLoop_spec` — the run in step with the roles answered;
* `pushRun_spec` — runs kept apart, those that abut made one;
* `locating_subjects_is_exact` — each location is the rows it names.

`none` stands for a panic or an error of the array library.
-/
import VortexRdf.ColumnChunks
import VortexRdf.IndexAnswers

namespace Store

open Terms

/-- The code a code column is searched for; none under a string layout. -/
def PatternCodes.probeCode (ox : Oxrdf) (codes : PatternCodes) (term : TermRef) :
    Except VortexRdfError (Option Dictionary.TermCode) :=
  if codes.probesByString then .ok none else codes.code ox term

/-- The bound roles behind the subject, up to the first free one. -/
def QuadPattern.prefixBehindSubject (pattern : QuadPattern) : List TermRef :=
  ([pattern.predicate.map .predicate, pattern.object.map .object,
    pattern.graph.map .graph].takeWhile Option.isSome).reduceOption

/-- The pattern without the first roles behind its subject. -/
def QuadPattern.clearPrefixBehindSubject (pattern : QuadPattern) (answered : ℕ) : QuadPattern where
  subject := pattern.subject
  predicate := if 0 < answered then none else pattern.predicate
  object := if 1 < answered then none else pattern.object
  graph := if 2 < answered then none else pattern.graph

end Store

namespace Indexes

open Bisect Buffers Builds Dictionary Terms
open EncodedSearch (ColumnChunks FastLanes)
open Store hiding Row

/-! ### The file -/

/-- A file's quads: whether they are sorted by `(s, p, o, g)`, and the chunks of the columns
that have probes. -/
structure NativeFile where
  quadsSorted : Bool
  columnChunks : QuadColumn → Option ColumnChunks

section Locate

variable (fl : FastLanes) (ox : Oxrdf) (file : NativeFile)

/-- The subject column's chunks, of a file sorted by subject. -/
def sortedSubjectChunks : Option ColumnChunks :=
  if file.quadsSorted then file.columnChunks .s else none

def subjectCodeBounds (chunks : ColumnChunks) (code : TermCode) : Option (Option RowRange) :=
  (chunks.bounds fl code).map fun found => found.map fun run => ⟨run.1, run.2⟩

/-- The rows of a subject in a sorted file; none declines. -/
def locateSubjectRun (codes : PatternCodes) (subject : NamedOrBlankNode) :
    Option (Option RowRange) :=
  if file.quadsSorted then
    match codes.probeCode ox (.subject subject) with
    | .ok (some needle) =>
      match sortedSubjectChunks file with
      | none => some none
      | some chunks => subjectCodeBounds fl chunks needle
    | _ => some none
  else some none

/-- A run narrowed by some roles in turn, and how many of them answered. -/
def narrowLoop (codes : PatternCodes) : List TermRef → RowRange → ℕ →
    Option (Except VortexRdfError (RowRange × ℕ))
  | [], run, answered => some (.ok (run, answered))
  | term :: terms, run, answered =>
    if run.stop ≤ run.start then some (.ok (run, answered))
    else
      match file.columnChunks term.role with
      | none => some (.ok (run, answered))
      | some chunks =>
        match codes.probeCode ox term with
        | .error error => some (.error error)
        | .ok none => some (.ok (run, answered))
        | .ok (some needle) =>
          (chunks.boundsIn fl run.start run.stop needle).bind fun found =>
            match found with
            | none => some (.ok (run, answered))
            | some narrowed => narrowLoop codes terms ⟨narrowed.1, narrowed.2⟩ (answered + 1)

/-- A subject's run narrowed by the roles behind it, and the pattern without them. -/
def narrowSubjectRun (codes : PatternCodes) (pattern : QuadPattern) (run : RowRange) :
    Option (Except VortexRdfError (RowRange × QuadPattern)) :=
  (narrowLoop fl ox file codes pattern.prefixBehindSubject run 0).map fun done =>
    done.map fun found => (found.1, pattern.clearPrefixBehindSubject found.2)

/-- A bound subject's rows, narrowed, and what they leave of the pattern; none, with the
pattern as it was, when no subject is bound or the location declines. -/
def locateSubject (codes : PatternCodes) (pattern : QuadPattern) :
    Option (Except VortexRdfError (Option RowRange × QuadPattern)) :=
  match pattern.subject with
  | none => some (.ok (none, pattern))
  | some subject =>
    (locateSubjectRun fl ox file codes subject).bind fun located =>
      match located with
      | none => some (.ok (none, pattern))
      | some run =>
        (narrowSubjectRun fl ox file codes { pattern with subject := none } run).map fun done =>
          done.map fun found => (some found.1, found.2)

/-- The rows whose subject code is in `lo..hi`; none declines. -/
def locateSubjectCodeRange (lo hi : TermCode) : Option (Option RowRange) :=
  match sortedSubjectChunks file with
  | none => some none
  | some chunks =>
    (chunks.lowerBound fl lo).bind fun start =>
      match start with
      | none => some none
      | some start =>
        (chunks.lowerBound fl hi).map fun stop =>
          stop.map fun stop => ⟨start, max stop start⟩

/-- Runs with one more behind them, made one with the last where they abut. -/
def pushRun (runs : List RowRange) (run : RowRange) : List RowRange :=
  match runs.getLast? with
  | some last =>
    if last.stop = run.start then runs.dropLast ++ [⟨last.start, run.stop⟩] else runs ++ [run]
  | none => [run]

def codeRunsLoop (chunks : ColumnChunks) : List TermCode → List RowRange →
    Option (Option (List RowRange))
  | [], runs => some (some runs)
  | code :: codes, runs =>
    (subjectCodeBounds fl chunks code).bind fun found =>
      match found with
      | none => some none
      | some run =>
        if run.stop ≤ run.start then codeRunsLoop chunks codes runs
        else codeRunsLoop chunks codes (pushRun runs run)

/-- The rows whose subject code is one of some ascending codes, as runs; none declines. -/
def locateSubjectCodeRuns (codes : List TermCode) : Option (Option (List RowRange)) :=
  match sortedSubjectChunks file with
  | none => some none
  | some chunks => codeRunsLoop fl chunks codes []

end Locate

/-! ### The rows of a file -/

/-- A file of some rows: its columns' chunks hold the rows' codes, in order, and a file that
says so is sorted by `(s, p, o, g)`. -/
structure NativeFile.Reads (fl : FastLanes) (rows : List (Row TermCode)) (file : NativeFile) :
    Prop where
  columns : ∀ role handle, file.columnChunks role = some handle → handle.Cut fl ∧
    handle.rowCount = rows.length ∧
    handle.concat fl = (rows.map fun row => roleValue row role).map some
  sorted : file.quadsSorted = true → (rows.map Row.spog).SortedLE

section Columns

variable {rows : List (Row TermCode)} {role : QuadColumn}

theorem column_roleValue (i : ℕ) :
    ColumnChunks.column (rows.map fun row => roleValue row role) i =
      roleValue (rows.getD i default) role := by
  have hdefault : (0 : TermCode) = roleValue (default : Row TermCode) role := by
    cases role <;> rfl
  rw [ColumnChunks.column, hdefault, List.getD_map]

/-- Rows sorted by `(s, p, o, g)` ascend in the first role and, inside the run of one value,
in the next. -/
theorem spog_nested (h : (rows.map Row.spog).SortedLE) :
    NestedOn ([QuadColumn.s, .p, .o, .g].map fun role i => roleValue (rows.getD i default) role) 0
      rows.length := by
  have hasc := ascendingOn_getD h (Row.spog default)
  rw [List.length_map] at hasc
  simp only [List.getD_map] at hasc
  exact nestedOn_cons hasc fun _ _ hpog => nestedOn_cons hpog fun _ _ hog =>
    nestedOn_cons hog fun _ _ hg => nestedOn_singleton hg

end Columns

section Bounds

variable {fl : FastLanes} {file : NativeFile} {rows : List (Row TermCode)}

/-- A code's search gives the run of its rows; it declines when a leaf resolves no probe. -/
theorem subjectCodeBounds_spec (h : file.Reads fl rows) (hsorted : file.quadsSorted = true)
    {handle : ColumnChunks} (hhandle : file.columnChunks .s = some handle) {code : TermCode}
    (hcode : code ≤ EncodedSearch.u64Max) :
    (∃ run, subjectCodeBounds fl handle code = some (some run) ∧
      IsRun (fun i => (rows.getD i default).s = code) 0 rows.length run.start run.stop) ∨
    (subjectCodeBounds fl handle code = some none ∧ ¬handle.Resolved) := by
  obtain ⟨hcut, hcount, hconcat⟩ := h.columns .s handle hhandle
  have hasc : AscendingOn (ColumnChunks.column (rows.map fun row => roleValue row .s)) 0
      handle.rowCount := by
    rw [hcount, funext column_roleValue]
    exact (spog_nested (h.sorted hsorted)).1
  rw [subjectCodeBounds]
  rcases ColumnChunks.bounds_answers hcut hconcat hasc hcode with ⟨run, hrun, hlo, hhi⟩ | ⟨hrun, hnot⟩
  · refine .inl ⟨_, by rw [hrun]; rfl, ?_⟩
    have hpoints := IsRun.of_points hlo hhi
    rw [hcount] at hpoints
    exact hpoints.congr fun i _ _ => by rw [column_roleValue]; rfl
  · exact .inr ⟨by rw [hrun]; rfl, hnot⟩

/-- A code's lower bound is where the subjects reach it. -/
theorem subjectLowerBound_spec (h : file.Reads fl rows) (hsorted : file.quadsSorted = true)
    {handle : ColumnChunks} (hhandle : file.columnChunks .s = some handle) (code : TermCode) :
    (∃ place, handle.lowerBound fl code = some (some place) ∧
      IsPartitionPoint (fun i => (rows.getD i default).s < code) 0 rows.length place) ∨
    (handle.lowerBound fl code = some none ∧ ¬handle.Resolved) := by
  obtain ⟨hcut, hcount, hconcat⟩ := h.columns .s handle hhandle
  have hasc : AscendingOn (ColumnChunks.column (rows.map fun row => roleValue row .s)) 0
      handle.rowCount := by
    rw [hcount, funext column_roleValue]
    exact (spog_nested (h.sorted hsorted)).1
  rcases ColumnChunks.lowerBound_answers hcut hconcat hasc code with ⟨place, hplace, hpoint⟩ | hnone
  · rw [hcount] at hpoint
    exact .inl ⟨place, hplace, hpoint.congr fun i _ _ => by rw [column_roleValue]; rfl⟩
  · exact .inr hnone

end Bounds

/-! ### A range of codes -/

theorem forall_mem_none {α : Type} {P : α → Prop} : ∀ a ∈ (none : Option α), P a := by
  intro a h
  cases h

section Range

variable {fl : FastLanes} {file : NativeFile} {rows : List (Row TermCode)}

theorem sortedSubjectChunks_some {handle : ColumnChunks}
    (h : sortedSubjectChunks file = some handle) :
    file.quadsSorted = true ∧ file.columnChunks .s = some handle := by
  rw [sortedSubjectChunks] at h
  split_ifs at h with hsorted
  exact ⟨hsorted, h⟩

/-- The rows of a code range, whatever codes it runs from and to. -/
theorem locateSubjectCodeRange_spec (h : file.Reads fl rows) (lo hi : TermCode) :
    ∃ found, locateSubjectCodeRange fl file lo hi = some found ∧
      (∀ range ∈ found, range.Within rows.length ∧ ∀ i < rows.length,
        (range.start ≤ i ∧ i < range.stop ↔
          lo ≤ (rows.getD i default).s ∧ (rows.getD i default).s < hi)) ∧
      (found = none → ∀ handle, sortedSubjectChunks file = some handle → ¬handle.Resolved) := by
  rw [locateSubjectCodeRange]
  cases hchunks : sortedSubjectChunks file with
  | none =>
    refine ⟨none, rfl, forall_mem_none, fun _ handle hhandle => ?_⟩
    cases hhandle
  | some handle =>
    obtain ⟨hsorted, hhandle⟩ := sortedSubjectChunks_some hchunks
    have hdeclined : ¬handle.Resolved → ∀ handle', some handle = some handle' → ¬handle'.Resolved := by
      rintro hnot handle' hsame
      rwa [← Option.some.inj hsame]
    dsimp only
    rcases subjectLowerBound_spec h hsorted hhandle lo with ⟨start, hstart, hlo⟩ | ⟨hstart, hnot⟩
    · rw [hstart, Option.bind_some]
      dsimp only
      rcases subjectLowerBound_spec h hsorted hhandle hi with ⟨stop, hstop, hhi⟩ | ⟨hstop, hnot⟩
      · rw [hstop, Option.map_some]
        refine ⟨_, rfl, fun range hrange => ?_, fun hnone => by cases hnone⟩
        obtain rfl := Option.some.inj hrange
        refine ⟨⟨le_max_right _ _, max_le hhi.le hlo.le⟩, fun i hi => ?_⟩
        have hbelow : lo ≤ (rows.getD i default).s ↔ start ≤ i := by
          rw [← not_lt, ← not_lt, hlo.lt_iff (Nat.zero_le i) hi]
        dsimp only
        rw [hbelow, ← hhi.lt_iff (Nat.zero_le i) hi, lt_max_iff]
        omega
      · rw [hstop]
        exact ⟨none, rfl, forall_mem_none, fun _ => hdeclined hnot⟩
    · rw [hstart]
      exact ⟨none, rfl, forall_mem_none, fun _ => hdeclined hnot⟩

end Range

/-! ### A set of codes -/

/-- Runs that each hold a row, in order, none touching the next. -/
structure Apart (runs : List RowRange) : Prop where
  nonempty : ∀ run ∈ runs, run.start < run.stop
  apart : runs.Pairwise fun a b => a.stop < b.start

/-- Whether some run holds a row. -/
def Covered (runs : List RowRange) (i : ℕ) : Prop := ∃ run ∈ runs, run.start ≤ i ∧ i < run.stop

theorem covered_append {runs runs' : List RowRange} {i : ℕ} :
    Covered (runs ++ runs') i ↔ Covered runs i ∨ Covered runs' i := by
  simp only [Covered, List.mem_append, or_and_right, exists_or]

theorem covered_singleton {run : RowRange} {i : ℕ} :
    Covered [run] i ↔ run.start ≤ i ∧ i < run.stop := by
  simp only [Covered, List.mem_singleton, exists_eq_left]

/-- A run behind the others joins the last where they abut, and stands apart otherwise. -/
theorem pushRun_spec {runs : List RowRange} {run : RowRange} (h : Apart runs)
    (hrun : run.start < run.stop) (hbehind : ∀ before ∈ runs, before.stop ≤ run.start) :
    Apart (pushRun runs run) ∧
      ∀ i, Covered (pushRun runs run) i ↔ Covered runs i ∨ (run.start ≤ i ∧ i < run.stop) := by
  rw [pushRun]
  rcases List.eq_nil_or_concat' runs with rfl | ⟨front, last, rfl⟩
  · refine ⟨⟨fun r hr => ?_, List.pairwise_singleton _ _⟩, fun i => ?_⟩
    · rwa [List.mem_singleton.mp hr]
    · rw [List.getLast?_nil, covered_singleton]
      exact ⟨.inr, fun hi => hi.resolve_left fun ⟨r, hr, _⟩ => absurd hr List.not_mem_nil⟩
  · have hlast := h.nonempty last (List.mem_append_right _ List.mem_cons_self)
    obtain ⟨hfront, -, hbefore⟩ := List.pairwise_append.mp h.apart
    have hends := hbehind last (List.mem_append_right _ List.mem_cons_self)
    rw [List.getLast?_concat]
    dsimp only
    split_ifs with habut
    · rw [List.dropLast_concat]
      refine ⟨⟨fun r hr => ?_, ?_⟩, fun i => ?_⟩
      · rcases List.mem_append.mp hr with hr | hr
        · exact h.nonempty r (List.mem_append_left _ hr)
        · rw [List.mem_singleton.mp hr]
          dsimp only
          omega
      · refine List.pairwise_append.mpr ⟨hfront, List.pairwise_singleton _ _, fun a ha b hb => ?_⟩
        rw [List.mem_singleton.mp hb]
        exact hbefore a ha last List.mem_cons_self
      · rw [covered_append, covered_append, covered_singleton, covered_singleton, or_assoc]
        refine or_congr_right ?_
        dsimp only
        omega
    · refine ⟨⟨fun r hr => ?_, ?_⟩, fun i => by rw [covered_append, covered_singleton]⟩
      · rcases List.mem_append.mp hr with hr | hr
        · exact h.nonempty r hr
        · rwa [List.mem_singleton.mp hr]
      · refine List.pairwise_append.mpr ⟨h.apart, List.pairwise_singleton _ _, fun a ha b hb => ?_⟩
        rw [List.mem_singleton.mp hb]
        rcases List.mem_append.mp ha with hfronted | hlasted
        · -- a run before the last ends before the last begins
          have := hbefore a hfronted last List.mem_cons_self
          omega
        · rw [List.mem_singleton.mp hlasted]
          omega

section Set

variable {fl : FastLanes} {file : NativeFile} {rows : List (Row TermCode)}

/-- The runs of the codes done and of the codes still to come. -/
theorem codeRunsLoop_spec (h : file.Reads fl rows) (hsorted : file.quadsSorted = true)
    {handle : ColumnChunks} (hhandle : file.columnChunks .s = some handle) {codes : List TermCode}
    (hcodes : ∀ code ∈ codes, code ≤ EncodedSearch.u64Max) {done : List TermCode}
    (hascend : (done ++ codes).Pairwise (· < ·)) {runs : List RowRange} (happart : Apart runs)
    (hwithin : ∀ run ∈ runs, run.stop ≤ rows.length)
    (hcovered : ∀ i < rows.length, Covered runs i ↔ (rows.getD i default).s ∈ done) :
    ∃ found, codeRunsLoop fl handle codes runs = some found ∧
      (∀ runs ∈ found, Apart runs ∧ (∀ run ∈ runs, run.stop ≤ rows.length) ∧
        ∀ i < rows.length, Covered runs i ↔ (rows.getD i default).s ∈ done ++ codes) ∧
      (found = none → ¬handle.Resolved) := by
  induction codes generalizing done runs with
  | nil =>
    refine ⟨some runs, rfl, fun runs' hruns' => ?_, fun hnone => by cases hnone⟩
    rw [← Option.some.inj hruns', List.append_nil]
    exact ⟨happart, hwithin, hcovered⟩
  | cons code codes ih =>
    obtain ⟨hcode, hrest⟩ := List.forall_mem_cons.mp hcodes
    have happend : done ++ code :: codes = (done ++ [code]) ++ codes := by
      rw [List.append_assoc, List.singleton_append]
    rw [codeRunsLoop]
    rcases subjectCodeBounds_spec h hsorted hhandle hcode with ⟨run, hrun, hisRun⟩ | ⟨hrun, hnot⟩
    · rw [hrun, Option.bind_some]
      dsimp only
      rw [happend] at hascend
      have hmem : ∀ i, (rows.getD i default).s ∈ done ++ [code] ↔
          (rows.getD i default).s ∈ done ∨ (rows.getD i default).s = code := by
        intro i
        rw [List.mem_append, List.mem_singleton]
      split_ifs with hempty
      · -- no row holds the code
        have hcovered' : ∀ i < rows.length, Covered runs i ↔ (rows.getD i default).s ∈ done ++ [code] := by
          intro i hi
          rw [hcovered i hi, hmem, hisRun.holds_iff i (Nat.zero_le i) hi]
          exact ⟨.inl, fun hor => hor.resolve_right fun hin => by omega⟩
        rw [happend]
        exact ih hrest hascend happart hwithin hcovered'
      · have hsome : run.start < run.stop := Nat.lt_of_not_le hempty
        have hbehind : ∀ before ∈ runs, before.stop ≤ run.start := by
          intro before hbefore
          by_contra hover
          -- the last row of the run before would come after a row of a greater code
          have hrow := happart.nonempty before hbefore
          have hend := hwithin before hbefore
          have hheld : (rows.getD (before.stop - 1) default).s ∈ done :=
            (hcovered (before.stop - 1) (by omega)).mp ⟨before, hbefore, by omega, by omega⟩
          have hless : (rows.getD (before.stop - 1) default).s < code :=
            (List.pairwise_append.mp (List.pairwise_append.mp hascend).1).2.2 _ hheld code
              List.mem_cons_self
          have hstart : (rows.getD run.start default).s = code := hisRun.holds le_rfl hsome
          have hasc := (spog_nested (h.sorted hsorted)).1 run.start (before.stop - 1) (Nat.zero_le _)
            (by omega) (by omega)
          exact absurd (hstart.symm.trans_le hasc) (Nat.not_le.mpr hless)
        obtain ⟨hpushed, hpushedCovered⟩ := pushRun_spec happart hsome hbehind
        have hcovered' : ∀ i < rows.length,
            Covered (pushRun runs run) i ↔ (rows.getD i default).s ∈ done ++ [code] := by
          intro i hi
          rw [hpushedCovered, hcovered i hi, hmem, hisRun.holds_iff i (Nat.zero_le i) hi]
        have hwithin' : ∀ r ∈ pushRun runs run, r.stop ≤ rows.length := by
          intro r hr
          have hlast : Covered (pushRun runs run) (r.stop - 1) := by
            have := hpushed.nonempty r hr
            exact ⟨r, hr, by omega, by omega⟩
          rw [hpushedCovered] at hlast
          have hstop := hisRun.le_stop
          rcases hlast with ⟨before, hbefore, -, hlt⟩ | hin
          · have := hwithin before hbefore
            omega
          · omega
        rw [happend]
        exact ih hrest hascend hpushed hwithin' hcovered'
    · rw [hrun]
      exact ⟨none, rfl, forall_mem_none, fun _ => hnot⟩

/-- The runs of a set of codes: apart, and over exactly the rows of its codes. -/
theorem locateSubjectCodeRuns_spec (h : file.Reads fl rows) {codes : List TermCode}
    (hascend : codes.SortedLT) (hcodes : ∀ code ∈ codes, code ≤ EncodedSearch.u64Max) :
    ∃ found, locateSubjectCodeRuns fl file codes = some found ∧
      (∀ runs ∈ found, Apart runs ∧ (∀ run ∈ runs, run.stop ≤ rows.length) ∧
        ∀ i < rows.length, Covered runs i ↔ (rows.getD i default).s ∈ codes) ∧
      (found = none → ∀ handle, sortedSubjectChunks file = some handle → ¬handle.Resolved) := by
  rw [locateSubjectCodeRuns]
  cases hchunks : sortedSubjectChunks file with
  | none =>
    refine ⟨none, rfl, forall_mem_none, fun _ handle hhandle => ?_⟩
    cases hhandle
  | some handle =>
    obtain ⟨hsorted, hhandle⟩ := sortedSubjectChunks_some hchunks
    have hnone : ∀ i < rows.length, Covered [] i ↔ (rows.getD i default).s ∈ ([] : List TermCode) := by
      intro i _
      exact ⟨fun ⟨r, hr, _⟩ => absurd hr List.not_mem_nil, fun hi => absurd hi List.not_mem_nil⟩
    obtain ⟨found, hfound, hruns, hdeclined⟩ := codeRunsLoop_spec h hsorted hhandle hcodes
      (show ([] ++ codes).Pairwise (· < ·) from hascend.pairwise)
      ⟨fun r hr => absurd hr List.not_mem_nil, List.Pairwise.nil⟩
      (fun r hr => absurd hr List.not_mem_nil) hnone
    refine ⟨found, hfound, hruns, fun hdone handle' hsame => ?_⟩
    rw [← Option.some.inj hsame]
    exact hdeclined hdone

end Set

/-! ### A subject and the roles behind it -/

/-- The codes a prelude resolved: each bound term's probe answers, with the code of the rows
that hold the term where it has one. -/
def Probes {ox : Oxrdf} (layout : IndexedLayout ox TermCode) (codes : PatternCodes)
    (terms : List TermRef) : Prop :=
  ∀ term ∈ terms, ∃ found, codes.probeCode ox term = .ok found ∧
    ∀ code ∈ found, layout.spelling code = some (term.writeNt ox)

/-- The roles behind a subject, in order. -/
def rolesBehind : List QuadColumn := [.p, .o, .g]

theorem prefixBehindSubject_roles (pattern : QuadPattern) :
    (pattern.prefixBehindSubject.map TermRef.role) <+: rolesBehind := by
  obtain ⟨s, p, o, g⟩ := pattern
  cases p <;> cases o <;> cases g <;>
    simp [QuadPattern.prefixBehindSubject, List.reduceOption, rolesBehind, TermRef.role]

/-- The bound terms are those of the roles answered and those still bound. -/
theorem boundRoles_cleared {pattern : QuadPattern} (hsubject : pattern.subject = none) {answered : ℕ}
    (hanswered : answered ≤ pattern.prefixBehindSubject.length) (term : TermRef) :
    term ∈ pattern.boundRoles ↔ term ∈ pattern.prefixBehindSubject.take answered ∨
      term ∈ (pattern.clearPrefixBehindSubject answered).boundRoles := by
  obtain ⟨s, p, o, g⟩ := pattern
  obtain rfl : s = none := hsubject
  have hfour : ∀ n : ℕ, n ≤ 3 → n = 0 ∨ n = 1 ∨ n = 2 ∨ n = 3 := by omega
  cases p <;> cases o <;> cases g <;>
    simp only [QuadPattern.prefixBehindSubject, List.reduceOption, Option.map_none, Option.map_some,
      List.takeWhile_cons, List.takeWhile_nil, Option.isSome_none, Option.isSome_some,
      Bool.false_eq_true, if_false, if_true, List.filterMap_nil, List.filterMap_cons, id,
      List.length_nil, List.length_cons, Nat.zero_add] at hanswered ⊢ <;>
    rcases hfour answered (by omega) with rfl | rfl | rfl | rfl <;>
    first
    | omega
    | simp [QuadPattern.boundRoles, QuadPattern.clearPrefixBehindSubject, List.reduceOption, or_assoc]

section Narrow

variable {ox : Oxrdf} {layout : IndexedLayout ox TermCode} {fl : FastLanes} {file : NativeFile}
  {rows : List (Row TermCode)} {codes : PatternCodes}

variable (ox file codes) in
/-- A role cannot be searched for: its column has no chunks, or none with a probe, or its term has
no code. -/
def Unsearched (term : TermRef) : Prop :=
  codes.probeCode ox term = .ok none ∨
    ∀ handle, file.columnChunks term.role = some handle → ¬handle.Resolved

variable (layout file rows codes) in
/-- What a narrowing of a run comes to: some of the roles answered, in order, and the run of
the rows that hold their terms; the next role cannot be searched for, or has no row to be. -/
def NarrowedTo (terms : List TermRef) (run : RowRange) (answered : ℕ)
    (done : Option (Except VortexRdfError (RowRange × ℕ))) : Prop :=
  ∃ found k, done = some (.ok (found, answered + k)) ∧ k ≤ terms.length ∧
    found.Within rows.length ∧
    IsRun (fun i => ∀ term ∈ terms.take k, layout.holds (rows.getD i default) term = true)
      run.start run.stop found.start found.stop ∧
    ∀ term, terms[k]? = some term → found.stop ≤ found.start ∨ Unsearched ox file codes term

variable {run : RowRange}

/-- Stopping leaves the run whole and answers no role. -/
theorem NarrowedTo.stop {terms : List TermRef} (hrun : run.Within rows.length)
    (hnext : ∀ term, terms[0]? = some term → run.stop ≤ run.start ∨ Unsearched ox file codes term)
    (answered : ℕ) :
    NarrowedTo layout file rows codes terms run answered (some (.ok (run, answered))) := by
  refine ⟨run, 0, rfl, Nat.zero_le _, hrun, (IsRun.whole hrun.ordered).congr fun i _ _ => ?_, hnext⟩
  rw [List.take_zero]
  exact ⟨fun _ term hterm => absurd hterm List.not_mem_nil, fun _ => trivial⟩

/-- The narrowed run holds the rows of the roles it answered, and no others. -/
theorem narrowLoop_spec (h : file.Reads fl rows) {terms : List TermRef}
    (hprobes : Probes layout codes terms) (hrun : run.Within rows.length)
    (hnested : NestedOn (terms.map fun term i => roleValue (rows.getD i default) term.role)
      run.start run.stop) (answered : ℕ) :
    NarrowedTo layout file rows codes terms run answered
      (narrowLoop fl ox file codes terms run answered) := by
  induction terms generalizing run answered with
  | nil => exact NarrowedTo.stop hrun (by rintro _ ⟨⟩) answered
  | cons term terms ih =>
    have hstop : run.stop ≤ run.start ∨ Unsearched ox file codes term →
        NarrowedTo layout file rows codes (term :: terms) run answered
          (some (.ok (run, answered))) := by
      intro hnext
      refine NarrowedTo.stop hrun (fun first hfirst => ?_) answered
      obtain rfl := Option.some.inj hfirst
      exact hnext
    obtain ⟨⟨code, hcode, hspelled⟩, hrest⟩ := List.forall_mem_cons.mp hprobes
    obtain ⟨hasc, hinner⟩ := hnested
    rw [narrowLoop]
    split_ifs with hempty
    · exact hstop (.inl hempty)
    · cases hchunks : file.columnChunks term.role with
      | none =>
        refine hstop (.inr (.inr fun handle hhandle => ?_))
        rw [hchunks] at hhandle
        cases hhandle
      | some handle =>
        dsimp only
        rw [hcode]
        cases code with
        | none => exact hstop (.inr (.inl hcode))
        | some needle =>
          dsimp only
          obtain ⟨hcut, hcount, hconcat⟩ := h.columns term.role handle hchunks
          have hspelling := hspelled needle rfl
          have hcolumn : AscendingOn (ColumnChunks.column (rows.map fun row =>
              roleValue row term.role)) run.start run.stop := by
            rw [funext column_roleValue]
            exact hasc
          rcases ColumnChunks.boundsIn_answers hcut hconcat hrun.ordered (hcount ▸ hrun.inBase)
            hcolumn (layout.fits hspelling rfl) with ⟨narrowed, hnarrowed, hlo, hhi⟩ | ⟨hnarrowed, hnot⟩
          · rw [hnarrowed, Option.bind_some]
            dsimp only
            have hvalue : IsRun (fun i => roleValue (rows.getD i default) term.role = needle)
                run.start run.stop narrowed.1 narrowed.2 :=
              (IsRun.of_points hlo hhi).congr fun i _ _ => by rw [column_roleValue]
            have hholds : ∀ i, layout.holds (rows.getD i default) term = true ↔
                roleValue (rows.getD i default) term.role = needle :=
              fun i => IndexedLayout.holds_iff hspelling _
            have hwithin : RowRange.Within rows.length ⟨narrowed.1, narrowed.2⟩ :=
              ⟨hvalue.le, hvalue.le_stop.trans hrun.inBase⟩
            -- the next role is searched inside the run of this one
            obtain ⟨found, k, hloop, hk, hfound, hisRun, hnext⟩ :=
              ih hrest hwithin (hinner needle _ _ hvalue) (answered + 1)
            have hanswered : answered + 1 + k = answered + (k + 1) := by omega
            refine ⟨found, k + 1, by rw [hloop, hanswered], Nat.succ_le_succ hk, hfound,
              (hvalue.inside hisRun).congr fun i _ _ => ?_, hnext⟩
            rw [List.take_succ_cons, List.forall_mem_cons, hholds]
          · rw [hnarrowed]
            refine hstop (.inr (.inr fun handle' hhandle' => ?_))
            rw [hchunks] at hhandle'
            rwa [← Option.some.inj hhandle']

variable (ox file codes) in
/-- No subject is bound, or its run cannot be searched for: the file is not sorted, the
subject has no code, or its column's chunks have no probe. -/
def Declines (pattern : QuadPattern) : Prop :=
  ∀ subject, pattern.subject = some subject → file.quadsSorted = true →
    codes.probeCode ox (.subject subject) ≠ .ok none →
    ∀ handle, file.columnChunks .s = some handle → ¬handle.Resolved

variable (layout file rows codes) in
/-- What locating a pattern's subject comes to: declined, with the pattern as it was; or a
run which, with what is left of the pattern, names the rows that match the whole of it. -/
def Located (pattern : QuadPattern)
    (done : Option (Except VortexRdfError (Option RowRange × QuadPattern))) : Prop :=
  done = some (.ok (none, pattern)) ∧ Declines ox file codes pattern ∨ ∃ range left, done = some (.ok (some range, left)) ∧
    range.Within rows.length ∧ left.subject = none ∧ ∀ i < rows.length,
      ((range.start ≤ i ∧ i < range.stop) ∧
        ∀ term ∈ left.boundRoles, layout.holds (rows.getD i default) term = true) ↔
      ∀ term ∈ pattern.boundRoles, layout.holds (rows.getD i default) term = true

variable {pattern : QuadPattern}

/-- A subject's run narrowed by the roles behind it. -/
theorem narrowSubjectRun_narrows (h : file.Reads fl rows) (hsorted : file.quadsSorted = true)
    (hsubject : pattern.subject = none)
    (hprobes : Probes layout codes pattern.boundRoles) {needle : TermCode}
    (hrun : IsRun (fun i => (rows.getD i default).s = needle) 0 rows.length run.start run.stop) :
    NarrowedTo layout file rows codes pattern.prefixBehindSubject run 0
      (narrowLoop fl ox file codes pattern.prefixBehindSubject run 0) := by
  have hwithin : run.Within rows.length := ⟨hrun.le, hrun.le_stop⟩
  obtain ⟨roles, hroles⟩ := prefixBehindSubject_roles pattern
  have hnested : NestedOn (pattern.prefixBehindSubject.map fun term i =>
      roleValue (rows.getD i default) term.role) run.start run.stop := by
    have hall := (spog_nested (h.sorted hsorted)).2 needle _ _ hrun
    have hbehind : rolesBehind.map (fun role i => roleValue (rows.getD i default) role) =
        pattern.prefixBehindSubject.map (fun term i => roleValue (rows.getD i default) term.role) ++
          roles.map fun role i => roleValue (rows.getD i default) role := by
      rw [← hroles, List.map_append, List.map_map]
      rfl
    rw [show List.map _ [QuadColumn.p, .o, .g] = rolesBehind.map _ from rfl, hbehind] at hall
    exact hall.left
  have hbehind : Probes layout codes pattern.prefixBehindSubject := by
    intro term hterm
    refine hprobes term ((boundRoles_cleared hsubject le_rfl term).mpr (.inl ?_))
    rwa [List.take_length]
  exact narrowLoop_spec h hbehind hwithin hnested 0

theorem narrowSubjectRun_spec (h : file.Reads fl rows) (hsorted : file.quadsSorted = true)
    (hsubject : pattern.subject = none)
    (hprobes : Probes layout codes pattern.boundRoles) {needle : TermCode}
    (hrun : IsRun (fun i => (rows.getD i default).s = needle) 0 rows.length run.start run.stop) :
    ∃ range left, narrowSubjectRun fl ox file codes pattern run = some (.ok (range, left)) ∧
      range.Within rows.length ∧ left.subject = none ∧ ∀ i < rows.length,
        ((range.start ≤ i ∧ i < range.stop) ∧
          ∀ term ∈ left.boundRoles, layout.holds (rows.getD i default) term = true) ↔
        (rows.getD i default).s = needle ∧
          ∀ term ∈ pattern.boundRoles, layout.holds (rows.getD i default) term = true := by
  obtain ⟨range, k, hloop, hk, hrange, hisRun, -⟩ :=
    narrowSubjectRun_narrows h hsorted hsubject hprobes hrun
  rw [Nat.zero_add] at hloop
  refine ⟨range, pattern.clearPrefixBehindSubject k, by rw [narrowSubjectRun, hloop]; rfl, hrange,
    hsubject, fun i hi => ?_⟩
  have hterms : (∀ term ∈ pattern.boundRoles, layout.holds (rows.getD i default) term = true) ↔
      (∀ term ∈ pattern.prefixBehindSubject.take k, layout.holds (rows.getD i default) term = true) ∧
      ∀ term ∈ (pattern.clearPrefixBehindSubject k).boundRoles,
        layout.holds (rows.getD i default) term = true := by
    rw [← forall_and]
    refine forall_congr' fun term => ?_
    rw [boundRoles_cleared hsubject hk, or_imp]
  have hin := (hrun.inside hisRun).holds_iff i (Nat.zero_le i) hi
  rw [hterms, ← hin, and_assoc]

/-- **A role that can be searched for is answered**: a subject's run is narrowed by the bound roles
behind it in turn up to the first whose term has no code or whose column has no probe, or until it
holds no row; the roles before it are cleared from the pattern, and no other. -/
theorem narrowSubjectRun_answers (h : file.Reads fl rows) (hsorted : file.quadsSorted = true)
    (hsubject : pattern.subject = none)
    (hprobes : Probes layout codes pattern.boundRoles) {needle : TermCode}
    (hrun : IsRun (fun i => (rows.getD i default).s = needle) 0 rows.length run.start run.stop) :
    ∃ range k, narrowSubjectRun fl ox file codes pattern run =
        some (.ok (range, pattern.clearPrefixBehindSubject k)) ∧
      k ≤ pattern.prefixBehindSubject.length ∧
      ∀ term, pattern.prefixBehindSubject[k]? = some term →
        range.stop ≤ range.start ∨ Unsearched ox file codes term := by
  obtain ⟨range, k, hloop, hk, -, -, hnext⟩ :=
    narrowSubjectRun_narrows h hsorted hsubject hprobes hrun
  rw [Nat.zero_add] at hloop
  exact ⟨range, k, by rw [narrowSubjectRun, hloop]; rfl, hk, hnext⟩

/-- A bound subject's rows, narrowed by the roles behind it. -/
theorem locateSubject_spec (h : file.Reads fl rows)
    (hprobes : Probes layout codes pattern.boundRoles) :
    Located layout file rows codes pattern (locateSubject fl ox file codes pattern) := by
  rw [locateSubject]
  cases hsubject : pattern.subject with
  | none =>
    refine .inl ⟨rfl, fun subject hsome => ?_⟩
    rw [hsubject] at hsome
    cases hsome
  | some subject =>
    dsimp only
    -- the bound terms are the subject and those left once it is bound
    have hbound : ∀ term, term ∈ pattern.boundRoles ↔ term = .subject subject ∨
        term ∈ ({ pattern with subject := none } : QuadPattern).boundRoles := by
      intro term
      obtain ⟨s, p, o, g⟩ := pattern
      obtain rfl : s = some subject := hsubject
      simp [QuadPattern.boundRoles, List.reduceOption]
    obtain ⟨code, hcode, hspelled⟩ := hprobes (.subject subject) ((hbound _).mpr (.inl rfl))
    rw [locateSubjectRun]
    split_ifs with hsorted
    · rw [hcode]
      cases code with
      | none =>
        refine .inl ⟨rfl, fun subject' hsome _ hcoded => ?_⟩
        obtain rfl := Option.some.inj (hsubject.symm.trans hsome)
        exact absurd hcode hcoded
      | some needle =>
        dsimp only
        cases hchunks : sortedSubjectChunks file with
        | none =>
          refine .inl ⟨rfl, fun subject' _ _ _ handle hhandle => ?_⟩
          rw [sortedSubjectChunks, if_pos hsorted, hhandle] at hchunks
          cases hchunks
        | some handle =>
          dsimp only
          obtain ⟨-, hhandle⟩ := sortedSubjectChunks_some hchunks
          have hspelling := hspelled needle rfl
          rcases subjectCodeBounds_spec h hsorted hhandle (layout.fits hspelling rfl) with
            ⟨run, hrun, hisRun⟩ | ⟨hrun, hnot⟩
          · rw [hrun, Option.bind_some]
            dsimp only
            -- the subject's run is narrowed by the terms left
            have hbehind : Probes layout codes
                ({ pattern with subject := none } : QuadPattern).boundRoles :=
              fun term hterm => hprobes term ((hbound term).mpr (.inr hterm))
            obtain ⟨range, left, hnarrowed, hrange, hleft, hexact⟩ :=
              narrowSubjectRun_spec h hsorted rfl hbehind hisRun
            refine .inr ⟨range, left, by rw [hnarrowed]; rfl, hrange, hleft, fun i hi => ?_⟩
            have hholds : layout.holds (rows.getD i default) (.subject subject) = true ↔
                (rows.getD i default).s = needle := IndexedLayout.holds_iff hspelling _
            rw [hexact i hi, ← hholds]
            simp only [hbound, forall_eq_or_imp]
          · rw [hrun]
            refine .inl ⟨rfl, fun subject' _ _ _ handle' hhandle' => ?_⟩
            rwa [Option.some.inj (hhandle'.symm.trans hhandle)]
    · exact .inl ⟨rfl, fun subject' _ hsorted' => absurd hsorted' hsorted⟩

end Narrow

/-- **Locating subjects in a sorted file is exact**: over rows in `(s, p, o, g)` order, cut
into any leaves, a bound subject's run narrowed by the roles behind it selects, with what is
left of the pattern, the rows that match the whole of it; a code range selects the rows of
its codes; and a set of codes, in runs that hold rows and do not touch, those of its codes. -/
theorem locating_subjects_is_exact {ox : Oxrdf} {fl : FastLanes}
    (layout : IndexedLayout ox TermCode) {file : NativeFile} {rows : List (Row TermCode)}
    (h : file.Reads fl rows) :
    (∀ codes pattern, Probes layout codes pattern.boundRoles →
      Located layout file rows codes pattern (locateSubject fl ox file codes pattern)) ∧
    (∀ lo hi, ∃ found, locateSubjectCodeRange fl file lo hi = some found ∧
      (∀ range ∈ found, range.Within rows.length ∧ ∀ i < rows.length,
        (range.start ≤ i ∧ i < range.stop ↔
          lo ≤ (rows.getD i default).s ∧ (rows.getD i default).s < hi)) ∧
      (found = none → ∀ handle, sortedSubjectChunks file = some handle → ¬handle.Resolved)) ∧
    ∀ codes : List TermCode, codes.SortedLT → (∀ code ∈ codes, code ≤ EncodedSearch.u64Max) →
      ∃ found, locateSubjectCodeRuns fl file codes = some found ∧
        (∀ runs ∈ found, Apart runs ∧ (∀ run ∈ runs, run.stop ≤ rows.length) ∧
          ∀ i < rows.length, Covered runs i ↔ (rows.getD i default).s ∈ codes) ∧
        (found = none → ∀ handle, sortedSubjectChunks file = some handle → ¬handle.Resolved) :=
  ⟨fun _ _ hprobes => locateSubject_spec h hprobes, locateSubjectCodeRange_spec h,
    fun _ hascend hcodes => locateSubjectCodeRuns_spec h hascend hcodes⟩

/-! ### A file of two rows -/

/-- A column of two codes, a leaf each. -/
def twoLeaves (a b : ℕ) : ColumnChunks where
  chunks := [⟨0, 1, .probe (.constant a 1)⟩, ⟨1, 1, .probe (.constant b 1)⟩]
  rowCount := 2

theorem twoLeaves_cut {a b : ℕ} (ha : a ≤ EncodedSearch.u64Max) (hb : b ≤ EncodedSearch.u64Max) :
    (twoLeaves a b).Cut .ofZeros := by
  refine ⟨⟨rfl, fun c => ?_, fun c => ?_, show 2 ≤ EncodedSearch.u64Max by decide⟩,
    fun leaf hleaf => ?_⟩
  · have hc : c.val < 2 := c.isLt
    obtain ⟨c, hlt⟩ := c
    interval_cases c <;> rfl
  · have hc : c.val < 2 := c.isLt
    obtain ⟨c, hlt⟩ := c
    interval_cases c <;> exact Nat.one_pos
  · rcases List.mem_cons.mp hleaf with rfl | hleaf
    · exact ⟨⟨ha, by decide⟩, rfl⟩
    · rw [List.mem_singleton.mp hleaf]
      exact ⟨⟨hb, by decide⟩, rfl⟩

/-- The file of the sample rows, its graph column without probes. -/
def sampleFile : NativeFile where
  quadsSorted := true
  columnChunks role :=
    if role = .s then some (twoLeaves 1 1) else if role = .p then some (twoLeaves 2 2)
    else if role = .o then some (twoLeaves 1 2) else none

theorem sampleFile_reads : sampleFile.Reads .ofZeros IndexSample.rows := by
  refine ⟨fun role handle hhandle => ?_, fun _ => List.Pairwise.sortedLE (by decide)⟩
  cases role with
  | s | p | o =>
    obtain rfl := Option.some.inj hhandle
    exact ⟨twoLeaves_cut (by decide) (by decide), rfl, rfl⟩
  | g => cases hhandle

theorem locating_subjects_is_exact_two :
    (∀ codes pattern, Probes (dictionaryIndexed ntriples IndexSample.dict IndexSample.dict_sorted)
        codes pattern.boundRoles →
      Located (dictionaryIndexed ntriples IndexSample.dict IndexSample.dict_sorted) sampleFile
        IndexSample.rows codes pattern (locateSubject .ofZeros ntriples sampleFile codes pattern)) ∧
    (∀ lo hi, ∃ found, locateSubjectCodeRange .ofZeros sampleFile lo hi = some found ∧
      (∀ range ∈ found, range.Within IndexSample.rows.length ∧ ∀ i < IndexSample.rows.length,
        (range.start ≤ i ∧ i < range.stop ↔ lo ≤ (IndexSample.rows.getD i default).s ∧
          (IndexSample.rows.getD i default).s < hi)) ∧
      (found = none → ∀ handle, sortedSubjectChunks sampleFile = some handle → ¬handle.Resolved)) ∧
    ∀ codes : List TermCode, codes.SortedLT → (∀ code ∈ codes, code ≤ EncodedSearch.u64Max) →
      ∃ found, locateSubjectCodeRuns .ofZeros sampleFile codes = some found ∧
        (∀ runs ∈ found, Apart runs ∧ (∀ run ∈ runs, run.stop ≤ IndexSample.rows.length) ∧
          ∀ i < IndexSample.rows.length,
            Covered runs i ↔ (IndexSample.rows.getD i default).s ∈ codes) ∧
        (found = none → ∀ handle, sortedSubjectChunks sampleFile = some handle → ¬handle.Resolved) :=
  locating_subjects_is_exact
    (dictionaryIndexed ntriples IndexSample.dict IndexSample.dict_sorted) sampleFile_reads

end Indexes
