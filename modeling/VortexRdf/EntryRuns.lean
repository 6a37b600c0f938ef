/-
The index runs of the out-of-core build.

An index family's entries, a key of ranks beside a row id, are buffered as the rows are
numbered; a full buffer is sorted and spilled behind the run's first row id, each record
with its row id as an offset from it.

* `IndexEntry`, `RefEntry`, `CopyEntry` — the entries of the two kinds of family;
* `EntrySpiller` — the buffers and the runs written;
* `EntryRunReader` — a run read back;
* `Numbering` — a spiller fed the entries of rows numbered from zero;
* `Numbering.push`, `Numbering.intoMerger` — it never fails, and its runs merge into the entries in
  order.
-/
import VortexRdf.SpillRuns

namespace Builds

open DistinctSort Programs Records RunMerges Store Terms

/-! ### Entries -/

/-- Bytes of an index run's header: its first row id. -/
def RUN_HEADER_BYTES : ℕ := 8

def REF_RECORD_BYTES : ℕ := 12

def COPY_RECORD_BYTES : ℕ := 20

/-- Bytes of a row offset inside an index record. -/
def ROW_OFFSET_BYTES : ℕ := 4

/-- `u32::MAX`, the last row offset a record holds. -/
def ROW_OFFSET_MAX : ℕ := 2 ^ 32 - 1

/-- A family's spilled entry; one whose ranks fit their words reads back from its parts. -/
class IndexEntry (E : Type) where
  keyBytes : ℕ
  rowId : E → ℕ
  writeKey : E → List UInt8
  fromParts : List UInt8 → ℕ → E
  Fits : E → Prop
  length_writeKey : ∀ e, (writeKey e).length = keyBytes
  fromParts_writeKey : ∀ {e}, Fits e → fromParts (writeKey e) (rowId e) = e

/-- A value's rank, its row id, and the rank of the graph of that row's quad. -/
abbrev RefEntry : Type := ℕ ×ₗ ℕ ×ₗ ℕ

def refEntry (rank row graph : ℕ) : RefEntry := toLex (rank, toLex (row, graph))

/-- A quad's ranks in the family's key order, and its row id. -/
abbrev CopyEntry : Type := Key ℕ ×ₗ ℕ

def copyEntry (k : Key ℕ) (row : ℕ) : CopyEntry := toLex (k, row)

/-- The first word of some bytes. -/
def leU32 (bytes : List UInt8) : ℕ := ofLe (bytes.take 4)

theorem leU32_append {n : ℕ} (h : n < 2 ^ 32) (rest : List UInt8) : leU32 (leBytes 4 n ++ rest) = n := by
  rw [leU32, List.take_left' (length_leBytes 4 n), ofLe_leBytes h]

theorem drop_leBytes (n : ℕ) (rest : List UInt8) : (leBytes 4 n ++ rest).drop 4 = rest :=
  List.drop_left' (length_leBytes 4 n)

instance : IndexEntry RefEntry where
  keyBytes := REF_RECORD_BYTES - ROW_OFFSET_BYTES
  rowId e := e.2.1
  writeKey e := leBytes 4 e.1 ++ leBytes 4 e.2.2
  fromParts bytes row := refEntry (leU32 bytes) row (leU32 (bytes.drop 4))
  Fits e := e.1 < 2 ^ 32 ∧ e.2.2 < 2 ^ 32
  length_writeKey e := by
    rw [List.length_append, length_leBytes, length_leBytes]
    rfl
  fromParts_writeKey {e} h := by
    have hgraph := leU32_append h.2 []
    rw [List.append_nil] at hgraph
    rw [leU32_append h.1, drop_leBytes, hgraph]
    rfl

instance : IndexEntry CopyEntry where
  keyBytes := COPY_RECORD_BYTES - ROW_OFFSET_BYTES
  rowId e := e.2
  writeKey e := leBytes 4 e.1.1 ++ (leBytes 4 e.1.2.1 ++ (leBytes 4 e.1.2.2.1 ++ leBytes 4 e.1.2.2.2))
  fromParts bytes row := copyEntry (key (leU32 bytes) (leU32 (bytes.drop 4))
    (leU32 ((bytes.drop 4).drop 4)) (leU32 (((bytes.drop 4).drop 4).drop 4))) row
  Fits e := e.1.1 < 2 ^ 32 ∧ e.1.2.1 < 2 ^ 32 ∧ e.1.2.2.1 < 2 ^ 32 ∧ e.1.2.2.2 < 2 ^ 32
  length_writeKey e := by
    simp only [List.length_append, length_leBytes]
    rfl
  fromParts_writeKey {e} h := by
    have hlast := leU32_append h.2.2.2 []
    rw [List.append_nil] at hlast
    simp only [drop_leBytes, leU32_append h.1, leU32_append h.2.1, leU32_append h.2.2.1, hlast]
    rfl

/-! ### The spiller -/

section Spiller

variable {E : Type} [IndexEntry E] [LinearOrder E]

/-- The record of an entry in a run whose first row id is `first`. -/
def recordOf (first : ℕ) (e : E) : List UInt8 :=
  IndexEntry.writeKey e ++ leBytes 4 (IndexEntry.rowId e - first)

/-- The entries buffered, and the runs written. -/
structure EntrySpiller (E : Type) where
  name : String
  capacity : ℕ
  buf : List E
  runs : List (List UInt8)

namespace EntrySpiller

/-- A capacity past the last row offset is refused. -/
def new (name : String) (capacity : ℕ) : Except VortexRdfError (EntrySpiller E) :=
  if ROW_OFFSET_MAX < capacity then
    .error (.invalidInput [.text ("an index spill run of " ++ toString capacity ++
      " entries is past the " ++ toString ROW_OFFSET_MAX ++ " a row offset reaches")])
  else .ok ⟨name, max capacity 1, [], []⟩

def pastOffset (s : EntrySpiller E) (first row : ℕ) : VortexRdfError :=
  .serialization [.text ("index spill run " ++ toString s.runs.length ++ " of " ++ s.name ++
    " spans row ids from " ++ toString first ++ " to " ++ toString row ++ ", past a u32 offset")]

def record (s : EntrySpiller E) (first : ℕ) (e : E) : Except VortexRdfError (List UInt8) :=
  if IndexEntry.rowId e - first ≤ ROW_OFFSET_MAX then .ok (recordOf first e)
  else .error (s.pastOffset first (IndexEntry.rowId e))

def flushRun (s : EntrySpiller E) : Except VortexRdfError (EntrySpiller E) := do
  let buf := sortBy id s.buf
  let first := ((buf.map IndexEntry.rowId).min?).getD 0
  let records ← buf.mapM (s.record first)
  return { s with runs := s.runs ++ [leBytes RUN_HEADER_BYTES first ++ records.flatten], buf := [] }

/-- An entry added, a full buffer spilled first. -/
def push (s : EntrySpiller E) (e : E) : Except VortexRdfError (EntrySpiller E) := do
  let s ← if s.buf.length = s.capacity then s.flushRun else pure s
  return { s with buf := s.buf ++ [e] }

end EntrySpiller

/-! ### The runs read back -/

/-- An index run: the entries held, or a file behind its header. -/
inductive EntryRunReader (E : Type) where
  | memory (entries : List E)
  | file (bytes : List UInt8) (first : ℕ)

namespace EntryRunReader

/-- The run of a file, its header read. -/
def open_ (bytes : List UInt8) : Except VortexRdfError (EntryRunReader E) := do
  match ← readRecord (cutRecord "header") RUN_HEADER_BYTES bytes with
  | none => .error (cutRecord "header")
  | some (header, rest) => return .file rest (ofLe header)

def overflow (offset first : ℕ) : VortexRdfError :=
  .deserialization [.text ("spill record's row offset " ++ toString offset ++ " past row id " ++
    toString first ++ " overflows")]

/-- The entry of a record. -/
def entryOf (first : ℕ) (record : List UInt8) : Except VortexRdfError E :=
  let offset := leU32 (record.drop (IndexEntry.keyBytes E))
  if first + offset ≤ ROW_ID_MAX then
    .ok (IndexEntry.fromParts (record.take (IndexEntry.keyBytes E)) (first + offset))
  else .error (overflow offset first)

def next : EntryRunReader E → Except VortexRdfError (Option (E × EntryRunReader E))
  | memory [] => .ok none
  | memory (e :: entries) => .ok (some (e, memory entries))
  | file bytes first =>
    match readRecord (cutRecord "entry") (IndexEntry.keyBytes E + ROW_OFFSET_BYTES) bytes with
    | .error e => .error e
    | .ok none => .ok none
    | .ok (some (record, rest)) => (entryOf first record).map fun e => some (e, file rest first)

def left : EntryRunReader E → ℕ
  | memory entries => entries.length
  | file bytes _ => bytes.length

end EntryRunReader

instance : RunRead (EntryRunReader E) VortexRdfError E where
  next := EntryRunReader.next
  left := EntryRunReader.left
  left_lt {r x r'} h := by
    cases r with
    | memory entries =>
      cases entries with
      | nil => cases h
      | cons e entries =>
        cases h
        exact Nat.lt_succ_self _
    | file bytes first =>
      rw [EntryRunReader.next] at h
      split at h
      · cases h
      · cases h
      · rename_i record rest hread
        have hlt := length_of_readRecord (by rw [ROW_OFFSET_BYTES]; omega) hread
        cases hentry : (EntryRunReader.entryOf first record : Except VortexRdfError E) with
        | error e =>
          rw [hentry] at h
          cases h
        | ok e =>
          rw [hentry] at h
          cases h
          exact hlt

/-- A merge of the runs, the last buffer's among them; when nothing spilled, it is the one. -/
def EntrySpiller.intoMerger (s : EntrySpiller E) :
    Except VortexRdfError (RunMerger (EntryRunReader E) E) := do
  if s.runs = [] then RunMerger.new [.memory (sortBy id s.buf)]
  else
    let s ← if s.buf = [] then pure s else s.flushRun
    RunMerger.new (← s.runs.mapM EntryRunReader.open_)

/-! ### What the runs hold -/

omit [LinearOrder E] in
theorem length_recordOf (first : ℕ) (e : E) :
    (recordOf first e).length = IndexEntry.keyBytes E + ROW_OFFSET_BYTES := by
  rw [recordOf, List.length_append, IndexEntry.length_writeKey, length_leBytes, ROW_OFFSET_BYTES]

/-- An entry a run of first row id `first` can hold. -/
structure Recordable (first : ℕ) (e : E) : Prop where
  fits : IndexEntry.Fits e
  above : first ≤ IndexEntry.rowId e
  offset : IndexEntry.rowId e - first ≤ ROW_OFFSET_MAX
  row : IndexEntry.rowId e ≤ ROW_ID_MAX

/-- The file of a run. -/
def IsRun (run : List UInt8) (part : List E) : Prop :=
  ∃ first, run = leBytes RUN_HEADER_BYTES first ++ part.flatMap (recordOf first) ∧
    first ≤ ROW_ID_MAX ∧ ∀ e ∈ part, Recordable first e

omit [LinearOrder E] in
theorem entryOf_recordOf {first : ℕ} {e : E} (h : Recordable first e) :
    EntryRunReader.entryOf first (recordOf first e) = .ok e := by
  have hoffset : leU32 (leBytes 4 (IndexEntry.rowId e - first)) = IndexEntry.rowId e - first := by
    have hlt := h.offset
    rw [ROW_OFFSET_MAX] at hlt
    have hword := leU32_append (show IndexEntry.rowId e - first < 2 ^ 32 by omega) []
    rwa [List.append_nil] at hword
  have hrow : first + (IndexEntry.rowId e - first) = IndexEntry.rowId e := Nat.add_sub_cancel' h.above
  rw [EntryRunReader.entryOf, recordOf, List.drop_left' (IndexEntry.length_writeKey e),
    List.take_left' (IndexEntry.length_writeKey e), hoffset, hrow, if_pos h.row, IndexEntry.fromParts_writeKey h.fits]

omit [LinearOrder E] in
theorem reads_entries {first : ℕ} {part : List E} (h : ∀ e ∈ part, Recordable first e) :
    Reads (.file (part.flatMap (recordOf first)) first : EntryRunReader E) part := by
  induction part with
  | nil =>
    refine Reads.nil ?_
    change EntryRunReader.next _ = _
    rw [EntryRunReader.next, List.flatMap_nil, readRecord_nil]
  | cons e part ih =>
    refine Reads.cons ?_ (ih fun e' he' => h e' (List.mem_cons_of_mem _ he'))
    change EntryRunReader.next _ = _
    have hpos : 0 < IndexEntry.keyBytes E + ROW_OFFSET_BYTES := by
      rw [ROW_OFFSET_BYTES]
      omega
    rw [EntryRunReader.next, List.flatMap_cons, readRecord_append _ hpos (length_recordOf first e)]
    dsimp only
    rw [entryOf_recordOf (h e List.mem_cons_self)]
    rfl

omit [LinearOrder E] in
theorem reads_held (entries : List E) : Reads (EntryRunReader.memory entries) entries := by
  induction entries with
  | nil => exact Reads.nil rfl
  | cons e entries ih => exact Reads.cons rfl ih

omit [LinearOrder E] in
/-- A run is opened and read back as its entries. -/
theorem IsRun.reads {run : List UInt8} {part : List E} (h : IsRun run part) :
    ∃ r : EntryRunReader E, EntryRunReader.open_ run = .ok r ∧ Reads r part := by
  obtain ⟨first, rfl, hfirst, hpart⟩ := h
  refine ⟨.file (part.flatMap (recordOf first)) first, ?_, reads_entries hpart⟩
  have hheader : ofLe (leBytes RUN_HEADER_BYTES first) = first := by
    refine ofLe_leBytes (lt_of_le_of_lt hfirst ?_)
    decide
  rw [EntryRunReader.open_, readRecord_append _ (by decide) (length_leBytes _ _), ok_bind]
  dsimp only
  rw [hheader]
  rfl

omit [LinearOrder E] in
theorem open_runs {runs : List (List UInt8)} {parts : List (List E)} (h : List.Forall₂ IsRun runs parts) :
    ∃ readers : List (EntryRunReader E), runs.mapM EntryRunReader.open_ = .ok readers ∧
      List.Forall₂ Reads readers parts := by
  induction h with
  | nil => exact ⟨[], rfl, List.Forall₂.nil⟩
  | cons hrun _ ih =>
    obtain ⟨r, hopen, hreads⟩ := hrun.reads
    obtain ⟨readers, hopened, hall⟩ := ih
    refine ⟨r :: readers, ?_, List.Forall₂.cons hreads hall⟩
    rw [List.mapM_cons, hopen, ok_bind, hopened]
    rfl

/-! ### Entries of rows numbered from zero -/

/-- The entries spilled so far, in sorted runs, and those still buffered. -/
structure Numbering (s : EntrySpiller E) (entries : List E) : Prop where
  capacity : 0 < s.capacity ∧ s.capacity ≤ ROW_OFFSET_MAX
  room : s.buf.length ≤ s.capacity
  numbered : entries.map IndexEntry.rowId = List.range entries.length
  limit : entries.length ≤ rowLimit
  fits : ∀ e ∈ entries, IndexEntry.Fits e
  parts : ∃ flushed parts, entries = flushed ++ s.buf ∧ List.Forall₂ IsRun s.runs parts ∧
    (∀ part ∈ parts, part.SortedLE) ∧ ∀ e, e ∈ parts.flatten ↔ e ∈ flushed

/-- The same of entries of consecutive rows, the first of them row `lo`. -/
structure NumberedFrom (lo : ℕ) (s : EntrySpiller E) (entries : List E) : Prop where
  capacity : 0 < s.capacity ∧ s.capacity ≤ ROW_OFFSET_MAX
  room : s.buf.length ≤ s.capacity
  numbered : entries.map IndexEntry.rowId = List.range' lo entries.length
  limit : lo + entries.length ≤ ROW_ID_MAX + 1
  fits : ∀ e ∈ entries, IndexEntry.Fits e
  parts : ∃ flushed parts, entries = flushed ++ s.buf ∧ List.Forall₂ IsRun s.runs parts ∧
    (∀ part ∈ parts, part.SortedLE) ∧ ∀ e, e ∈ parts.flatten ↔ e ∈ flushed

section Rows

variable {s : EntrySpiller E} {entries : List E} {lo : ℕ}

theorem Numbering.from_zero (h : Numbering s entries) : NumberedFrom 0 s entries := by
  have hlimit : entries.length ≤ ROW_ID_MAX := h.limit
  refine ⟨h.capacity, h.room, ?_, ?_, h.fits, h.parts⟩
  · rw [h.numbered, List.range_eq_range']
  · rw [Nat.zero_add]
    exact hlimit.trans (Nat.le_succ _)

theorem NumberedFrom.numbering (h : NumberedFrom 0 s entries) (hlimit : entries.length ≤ rowLimit) :
    Numbering s entries := by
  refine ⟨h.capacity, h.room, ?_, hlimit, h.fits, h.parts⟩
  rw [h.numbered, List.range_eq_range']

/-- The buffered entries are those of the last rows numbered. -/
theorem NumberedFrom.buffered (h : NumberedFrom lo s entries) : ∀ e ∈ s.buf,
    lo + entries.length - s.buf.length ≤ IndexEntry.rowId e ∧
      IndexEntry.rowId e < lo + entries.length := by
  obtain ⟨flushed, parts, rfl, -, -, -⟩ := h.parts
  have hnumbered := h.numbered
  rw [List.map_append, List.length_append, ← List.range'_append_1] at hnumbered
  obtain ⟨-, hbuf⟩ := List.append_inj hnumbered (by rw [List.length_map, List.length_range'])
  intro e he
  have hmem : IndexEntry.rowId e ∈ s.buf.map IndexEntry.rowId := List.mem_map_of_mem he
  rw [hbuf, List.mem_range'_1] at hmem
  rw [List.length_append]
  omega

theorem NumberedFrom.flushRun (h : NumberedFrom lo s entries) (hne : s.buf ≠ []) :
    ∃ s', s.flushRun = .ok s' ∧ NumberedFrom lo s' entries ∧ s'.buf = [] := by
  have hbuffered := h.buffered
  have hmem : ∀ e, e ∈ sortBy id s.buf ↔ e ∈ s.buf := fun e => mem_sortBy
  obtain ⟨first, hfirst⟩ : ∃ first, ((sortBy id s.buf).map IndexEntry.rowId).min? = some first := by
    refine Option.ne_none_iff_exists'.mp fun hnone => hne ?_
    have hnil := List.map_eq_nil_iff.mp (List.min?_eq_none_iff.mp hnone)
    exact (hnil ▸ sortBy_perm id s.buf).symm.eq_nil
  obtain ⟨hin, hleast⟩ := List.min?_eq_some_iff.mp hfirst
  obtain ⟨e₀, he₀, hrow₀⟩ := List.mem_map.mp hin
  -- a run's rows are numbered one behind another, and there are no more than offsets
  have hrecordable : ∀ e ∈ sortBy id s.buf, Recordable first e := by
    intro e he
    obtain ⟨hlow, hhigh⟩ := hbuffered e ((hmem e).mp he)
    obtain ⟨hlow₀, -⟩ := hbuffered e₀ ((hmem e₀).mp he₀)
    have hcapacity := h.capacity.2
    have hroom := h.room
    have hlimit : lo + entries.length ≤ ROW_ID_MAX + 1 := h.limit
    obtain ⟨flushed, -, hentries, -⟩ := h.parts
    refine ⟨h.fits e ?_, hleast _ (List.mem_map_of_mem he), by omega, by omega⟩
    rw [hentries]
    exact List.mem_append_right _ ((hmem e).mp he)
  have hrecords : (sortBy id s.buf).mapM (s.record first) = .ok ((sortBy id s.buf).map (recordOf first)) :=
    mapM_eq_ok fun e he => if_pos (hrecordable e he).offset
  refine ⟨{ s with
    runs := s.runs ++ [leBytes RUN_HEADER_BYTES first ++ (sortBy id s.buf).flatMap (recordOf first)]
    buf := [] }, ?_, ?_, rfl⟩
  · rw [EntrySpiller.flushRun, hfirst, Option.getD_some]
    rw [hrecords, ok_bind, List.flatMap_def]
    rfl
  · obtain ⟨flushed, parts, hentries, hruns, hsorted, hparts⟩ := h.parts
    refine ⟨h.capacity, Nat.zero_le _, h.numbered, h.limit, h.fits, entries, parts ++ [sortBy id s.buf],
      (List.append_nil _).symm, List.rel_append hruns ?_, ?_, fun e => ?_⟩
    · refine List.Forall₂.cons ⟨first, rfl, ?_, hrecordable⟩ List.Forall₂.nil
      rw [← hrow₀]
      exact (hrecordable e₀ he₀).row
    · intro part hpart
      rcases List.mem_append.mp hpart with hold | hnew
      · exact hsorted part hold
      · rw [List.mem_singleton.mp hnew]
        have hascends := sortBy_ascends id s.buf
        rwa [List.map_id] at hascends
    · rw [List.flatten_append, List.mem_append, hparts, List.flatten_singleton, hmem, hentries,
        List.mem_append]

theorem NumberedFrom.push (h : NumberedFrom lo s entries) {e : E}
    (hrow : IndexEntry.rowId e = lo + entries.length) (hfits : IndexEntry.Fits e)
    (hlimit : lo + entries.length ≤ ROW_ID_MAX) :
    ∃ s', s.push e = .ok s' ∧ NumberedFrom lo s' (entries ++ [e]) := by
  have hadd : ∀ s' : EntrySpiller E, NumberedFrom lo s' entries → s'.buf.length < s'.capacity →
      NumberedFrom lo { s' with buf := s'.buf ++ [e] } (entries ++ [e]) := by
    intro s' h' hroom
    obtain ⟨flushed, parts, hentries, hruns, hsorted, hparts⟩ := h'.parts
    refine ⟨h'.capacity, ?_, ?_, ?_, ?_, flushed, parts, ?_, hruns, hsorted, hparts⟩
    · rw [List.length_append]
      exact hroom
    · rw [List.map_append, h'.numbered, List.length_append, List.length_singleton,
        List.range'_concat, Nat.one_mul, List.map_singleton, hrow]
    · rw [List.length_append]
      exact Nat.succ_le_succ hlimit
    · simpa [or_imp, forall_and, hfits] using h'.fits
    · rw [hentries, List.append_assoc]
  rw [EntrySpiller.push]
  split_ifs with hfull
  · have hpos := h.capacity.1
    obtain ⟨s', hflush, h', hempty⟩ := h.flushRun (List.ne_nil_of_length_pos (by omega))
    rw [hflush, ok_bind]
    refine ⟨_, rfl, hadd s' h' ?_⟩
    rw [hempty]
    exact h'.capacity.1
  · exact ⟨_, rfl, hadd s h (lt_of_le_of_ne h.room hfull)⟩

theorem NumberedFrom.intoMerger (h : NumberedFrom lo s entries) :
    ∃ m, s.intoMerger = .ok m ∧ Merges m (distinctSort entries) := by
  have hspilled : ∀ s' : EntrySpiller E, NumberedFrom lo s' entries → s'.buf = [] →
      ∃ m : RunMerger (EntryRunReader E) E,
        (do RunMerger.new (← s'.runs.mapM EntryRunReader.open_)) = Except.ok m ∧
        Merges m (distinctSort entries) := by
    intro s' h' hempty
    obtain ⟨flushed, parts, hentries, hruns, hsorted, hparts⟩ := h'.parts
    obtain ⟨readers, hopened, hreads⟩ := open_runs hruns
    obtain ⟨m, hm, hmerges⟩ := new_merges hreads hsorted
    refine ⟨m, by rw [hopened, ok_bind, hm], ?_⟩
    rw [hempty, List.append_nil] at hentries
    have hall : distinctSort parts.flatten = distinctSort entries :=
      distinctSort_congr fun e => by rw [hparts, ← hentries]
    rwa [hall] at hmerges
  rw [EntrySpiller.intoMerger]
  split_ifs with hnone hempty
  · -- nothing spilled
    obtain ⟨flushed, parts, hentries, hruns, -, hparts⟩ := h.parts
    rw [hnone, List.forall₂_nil_left_iff] at hruns
    have hflushed : flushed = [] := List.eq_nil_iff_forall_not_mem.mpr fun e he => by
      have hin := (hparts e).mpr he
      rw [hruns] at hin
      exact absurd hin List.not_mem_nil
    rw [hflushed, List.nil_append] at hentries
    have hascends := sortBy_ascends id s.buf
    rw [List.map_id] at hascends
    obtain ⟨m, hm, hmerges⟩ := @new_merges (EntryRunReader E) VortexRdfError E _ _
      [.memory (sortBy id s.buf)] [sortBy id s.buf]
      (List.Forall₂.cons (reads_held _) List.Forall₂.nil)
      (fun part hpart => by rwa [List.mem_singleton.mp hpart])
    refine ⟨m, hm, ?_⟩
    have hall : distinctSort [sortBy id s.buf].flatten = distinctSort entries :=
      distinctSort_congr fun e => by rw [List.flatten_singleton, mem_sortBy, ← hentries]
    rwa [hall] at hmerges
  · exact hspilled s h hempty
  · obtain ⟨s', hflush, h', hempty'⟩ := h.flushRun hempty
    rw [hflush]
    exact hspilled s' h' hempty'

/-- **A row's entry pushed**: the entries numbered so far and it. -/
theorem Numbering.push (h : Numbering s entries) {e : E} (hrow : IndexEntry.rowId e = entries.length)
    (hfits : IndexEntry.Fits e) (hlimit : entries.length < rowLimit) :
    ∃ s', s.push e = .ok s' ∧ Numbering s' (entries ++ [e]) := by
  obtain ⟨s', hpush, hfrom⟩ := h.from_zero.push (hrow.trans (Nat.zero_add _).symm) hfits
    ((Nat.zero_add _).le.trans hlimit.le)
  refine ⟨s', hpush, hfrom.numbering ?_⟩
  rw [List.length_append, List.length_singleton]
  exact hlimit

/-- **The runs of the entries** merge into them in order. -/
theorem Numbering.intoMerger (h : Numbering s entries) :
    ∃ m, s.intoMerger = .ok m ∧ Merges m (distinctSort entries) := h.from_zero.intoMerger

end Rows

theorem new_spec (name : String) {capacity : ℕ} (h : capacity ≤ ROW_OFFSET_MAX) :
    ∃ s : EntrySpiller E, EntrySpiller.new name capacity = .ok s ∧ Numbering s [] := by
  refine ⟨⟨name, max capacity 1, [], []⟩, ?_, ⟨⟨by simp, max_le h (by decide)⟩, by simp, rfl,
    Nat.zero_le _, by simp, [], [], rfl, List.Forall₂.nil, by simp, by simp⟩⟩
  rw [EntrySpiller.new, if_neg (Nat.not_lt.mpr h)]

omit [IndexEntry E] [LinearOrder E] in
theorem new_refused (name : String) {capacity : ℕ} (h : ROW_OFFSET_MAX < capacity) :
    ∃ e, (EntrySpiller.new name capacity : Except _ (EntrySpiller E)) = .error e := by
  rw [EntrySpiller.new, if_pos h]
  exact ⟨_, rfl⟩

end Spiller

end Builds
