/-
A filter of a run-end column (`core/src/kernels.rs`).

A column of runs keeps one value a run and the row past its last; a filter counts each
run's kept rows as the rank of its end in the mask, read in one pass over the mask's
64-bit words as the ends rise.

* `wordOf`, `paddedWords` — a mask's words;
* `WordScan`, `keptRunEnds` — the pass over them;
* `RunEndColumn.decode` — the rows a column of runs stands for;
* `rank`, `keptRunEnds_spec` — each end's rank, and the runs that keep a row;
* `keptRunEnds_decodes` — the kept runs decode to the kept rows.

`none` stands for a panic.
-/
import Mathlib.Data.List.Count
import Mathlib.Data.List.Sort
import Mathlib.Data.Nat.Bitwise
import Mathlib.Data.List.GetD

namespace Kernels

/-! ### Masks by words -/

/-- The word some bits spell, the first bit lowest. -/
def wordOf : List Bool → ℕ
  | [] => 0
  | bit :: bits => bit.toNat + 2 * wordOf bits

def countOnes (word : ℕ) : ℕ := (List.range 64).countP word.testBit

/-- A mask's 64-bit words, and one of its remaining bits, padded with zeros. -/
def paddedWords (mask : List Bool) : List ℕ :=
  (List.range (mask.length / 64 + 1)).map fun k => wordOf ((mask.drop (64 * k)).take 64)

/-- A pass over a mask's words: those left, the word at hand and its place, and the set
bits of the words before it. -/
structure WordScan where
  words : List ℕ
  place : ℕ
  word : ℕ
  before : ℕ

namespace WordScan

def new (mask : List Bool) : WordScan :=
  ⟨(paddedWords mask).tail, 0, (paddedWords mask).headD 0, 0⟩

/-- The scan past its word; past the last word there are zeros. -/
def next (scan : WordScan) : WordScan :=
  ⟨scan.words.tail, scan.place + 1, scan.words.headD 0, scan.before + countOnes scan.word⟩

/-- The scan at the word that holds the bit before `stop`. -/
def advance (stop : ℕ) : ℕ → WordScan → WordScan
  | 0, scan => scan
  | fuel + 1, scan => if (scan.place + 1) * 64 ≤ stop then advance stop fuel scan.next else scan

/-- The set bits before `stop`, which is not before the scan's word. -/
def rankAt (scan : WordScan) (stop : ℕ) : Option ℕ :=
  if scan.place * 64 ≤ stop then
    some (scan.before + countOnes (scan.word &&& (2 ^ (stop - scan.place * 64) - 1)))
  else none

end WordScan

/-- The runs from one on: each run's end among the kept rows where it keeps one, and
whether it does. -/
def keptLoop (offset len : ℕ) : List ℕ → WordScan → ℕ → Option (List ℕ × List Bool)
  | [], _, _ => some ([], [])
  | stop :: ends, scan, ranked =>
    let stop := min (stop - offset) len
    let scan := scan.advance stop (stop / 64)
    (scan.rankAt stop).bind fun rank =>
      (keptLoop offset len ends scan rank).map fun rest =>
        (if ranked < rank then rank :: rest.1 else rest.1, decide (ranked < rank) :: rest.2)

/-- Which of the runs ending at `ends`, in rows from `offset` over `len` rows, keep a row
of a mask, and the ends of those among the kept rows. -/
def keptRunEnds (ends : List ℕ) (offset len : ℕ) (mask : List Bool) : Option (List ℕ × List Bool) :=
  keptLoop offset len ends (.new mask) 0

/-! ### Columns of runs -/

/-- A column of runs, windowed: each run's value beside the row past its last. -/
structure RunEndColumn (α : Type*) where
  ends : List ℕ
  values : List α
  offset : ℕ
  len : ℕ

namespace RunEndColumn

variable {α : Type*}

/-- A row's value, that of the first run that ends past it. -/
def valueAt (column : RunEndColumn α) (row : ℕ) : Option α :=
  column.values[column.ends.findIdx fun stop => decide (column.offset + row < stop)]?

def decode (column : RunEndColumn α) : List α := (List.range column.len).filterMap column.valueAt

end RunEndColumn

/-- The entries of a list a mask keeps. -/
def keep {α : Type*} (mask : List Bool) (l : List α) : List α :=
  (l.zip mask).filterMap fun entry => if entry.2 then some entry.1 else none

/-- A column of runs filtered by a mask: the runs that keep a row. -/
def RunEndColumn.filter {α : Type*} (column : RunEndColumn α) (mask : List Bool) :
    Option (RunEndColumn α) :=
  (keptRunEnds column.ends column.offset column.len mask).map fun kept =>
    ⟨kept.1, keep kept.2 column.values, 0, mask.count true⟩

/-! ### Ranks -/

/-- The set bits of a mask before a row. -/
def rank (mask : List Bool) (row : ℕ) : ℕ := (mask.take row).count true

theorem rank_zero (mask : List Bool) : rank mask 0 = 0 := rfl

theorem rank_mono (mask : List Bool) {a b : ℕ} (h : a ≤ b) : rank mask a ≤ rank mask b :=
  ((List.take_prefix_take_left h).sublist).count_le true

theorem rank_add (mask : List Bool) (a k : ℕ) :
    rank mask (a + k) = rank mask a + ((mask.drop a).take k).count true := by
  rw [rank, rank, List.take_add, List.count_append]

theorem testBit_wordOf : ∀ (bits : List Bool) (i : ℕ), (wordOf bits).testBit i = bits.getD i false
  | [], i => by rw [wordOf, Nat.zero_testBit, List.getD_nil]
  | bit :: bits, 0 => by
    rw [wordOf, Nat.testBit_zero, List.getD_cons_zero]
    cases bit <;> simp
  | bit :: bits, i + 1 => by
    have hhalf : (bit.toNat + 2 * wordOf bits) / 2 = wordOf bits := by
      cases bit <;> simp only [Bool.toNat_false, Bool.toNat_true] <;> omega
    rw [wordOf, Nat.testBit_succ, hhalf, testBit_wordOf bits i, List.getD_cons_succ]

theorem countP_getD : ∀ {bits : List Bool} {n : ℕ}, bits.length ≤ n →
    (List.range n).countP (fun i => bits.getD i false) = bits.count true
  | [], n, _ => by simp
  | bit :: bits, 0, h => absurd h (Nat.not_succ_le_zero _)
  | bit :: bits, n + 1, h => by
    have htail := countP_getD (Nat.le_of_succ_le_succ h)
    rw [List.range_succ_eq_map, List.countP_cons, List.countP_map, List.count_cons, ← htail]
    cases bit <;> rfl

/-- The low bits of a word are the first bits it spells. -/
theorem countOnes_low {bits : List Bool} (hbits : bits.length ≤ 64) (k : ℕ) :
    countOnes (wordOf bits &&& (2 ^ k - 1)) = (bits.take k).count true := by
  rw [← countP_getD ((List.length_take_le' k bits).trans hbits), countOnes]
  refine List.countP_congr fun i _ => ?_
  rw [Nat.testBit_and, Nat.testBit_two_pow_sub_one, testBit_wordOf]
  by_cases hi : i < k
  · rw [decide_eq_true hi, Bool.and_true, List.getD_eq_getElem?_getD, List.getD_eq_getElem?_getD,
      List.getElem?_take_of_lt hi]
  · rw [decide_eq_false hi, Bool.and_false,
      List.getD_eq_default _ _ (by rw [List.length_take]; omega)]

theorem countOnes_wordOf {bits : List Bool} (hbits : bits.length ≤ 64) :
    countOnes (wordOf bits) = bits.count true := by
  rw [← countP_getD hbits, countOnes]
  exact List.countP_congr fun i _ => by rw [testBit_wordOf]

/-! ### The pass -/

/-- The scan stands at a word of the mask, the words before it counted. -/
structure WordScan.At (mask : List Bool) (scan : WordScan) : Prop where
  words_eq : scan.words = (paddedWords mask).drop (scan.place + 1)
  word_eq : scan.word = wordOf ((mask.drop (64 * scan.place)).take 64)
  before_eq : scan.before = rank mask (scan.place * 64)

theorem getD_paddedWords (mask : List Bool) (k : ℕ) :
    (paddedWords mask).getD k 0 = wordOf ((mask.drop (64 * k)).take 64) := by
  by_cases hk : k < mask.length / 64 + 1
  · rw [paddedWords, List.getD_eq_getElem _ _ (by rwa [List.length_map, List.length_range]),
      List.getElem_map, List.getElem_range]
  · rw [paddedWords, List.getD_eq_default _ _ (by rw [List.length_map, List.length_range]; omega),
      List.drop_of_length_le (by omega), List.take_nil, wordOf]

theorem headD_drop (l : List ℕ) (k : ℕ) : (l.drop k).headD 0 = l.getD k 0 := by
  rw [List.headD_eq_head?_getD, List.head?_drop, List.getD_eq_getElem?_getD]

namespace WordScan.At

variable {mask : List Bool} {scan : WordScan}

theorem new (mask : List Bool) : (WordScan.new mask).At mask where
  words_eq := by rw [WordScan.new, Nat.zero_add, List.drop_one]
  word_eq := by
    rw [WordScan.new, ← getD_paddedWords, ← headD_drop, List.drop_zero]
  before_eq := rfl

theorem next (h : scan.At mask) : scan.next.At mask where
  words_eq := by rw [WordScan.next, h.words_eq, List.tail_drop]
  word_eq := by rw [WordScan.next, h.words_eq, headD_drop, getD_paddedWords]
  before_eq := by
    show scan.before + countOnes scan.word = rank mask ((scan.place + 1) * 64)
    rw [h.before_eq, h.word_eq, countOnes_wordOf (List.length_take_le _ _), Nat.mul_comm 64,
      Nat.add_mul, Nat.one_mul, rank_add]

theorem advance (h : scan.At mask) (stop fuel : ℕ) : (scan.advance stop fuel).At mask := by
  induction fuel generalizing scan with
  | zero => exact h
  | succ fuel ih =>
    rw [WordScan.advance]
    split_ifs
    · exact ih h.next
    · exact h

end WordScan.At

/-- The words before `stop` are as many as the fuel. -/
theorem advance_place {scan : WordScan} {stop fuel : ℕ} (hplace : scan.place * 64 ≤ stop)
    (hfuel : stop / 64 ≤ scan.place + fuel) : (scan.advance stop fuel).place = stop / 64 := by
  induction fuel generalizing scan with
  | zero =>
    rw [WordScan.advance]
    omega
  | succ fuel ih =>
    rw [WordScan.advance]
    split_ifs with hnext
    · refine ih hnext ?_
      rw [WordScan.next]
      dsimp only
      omega
    · omega

/-- A rank is read off the word that holds the row. -/
theorem rankAt_spec {mask : List Bool} {scan : WordScan} (h : scan.At mask) {stop : ℕ}
    (hplace : scan.place * 64 ≤ stop) :
    (scan.advance stop (stop / 64)).rankAt stop = some (rank mask stop) := by
  have hat := h.advance stop (stop / 64)
  have hword : (scan.advance stop (stop / 64)).place = stop / 64 := advance_place hplace (by omega)
  have hle : stop / 64 * 64 ≤ stop := Nat.div_mul_le_self stop 64
  have hlow : stop - stop / 64 * 64 ≤ 64 := by omega
  rw [WordScan.rankAt, hword, if_pos hle, hat.before_eq, hat.word_eq, hword,
    countOnes_low (List.length_take_le _ _), List.take_take, min_eq_left hlow, Nat.mul_comm 64,
    ← rank_add, Nat.add_sub_cancel' hle]

/-- What the ranks of the borders say: each run that keeps a row, beside its rank. -/
def keptRanks (ranked : ℕ) : List ℕ → List ℕ × List Bool
  | [] => ([], [])
  | rank :: ranks =>
    let rest := keptRanks rank ranks
    (if ranked < rank then rank :: rest.1 else rest.1, decide (ranked < rank) :: rest.2)

/-- A run's border in the window. -/
def border (offset len stop : ℕ) : ℕ := min (stop - offset) len

theorem keptLoop_spec {mask : List Bool} {offset len : ℕ} {ends : List ℕ}
    (hasc : ends.Pairwise (· ≤ ·)) {scan : WordScan} (h : scan.At mask) {ranked : ℕ}
    (hplace : ∀ stop ∈ ends, scan.place * 64 ≤ border offset len stop) :
    keptLoop offset len ends scan ranked =
      some (keptRanks ranked (ends.map fun stop => rank mask (border offset len stop))) := by
  induction ends generalizing scan ranked with
  | nil => rfl
  | cons stop ends ih =>
    obtain ⟨hfirst, hrest⟩ := List.pairwise_cons.mp hasc
    have hrank := rankAt_spec h (hplace stop List.mem_cons_self)
    rw [border] at hrank
    -- the ends rise, so the scan never stands past a border
    have hnext : ∀ later ∈ ends, (scan.advance (border offset len stop) (border offset len stop / 64)).place *
        64 ≤ border offset len later := by
      intro later hlater
      have hle := hfirst later hlater
      rw [advance_place (hplace stop List.mem_cons_self) (by omega)]
      simp only [border]
      omega
    have hloop := @ih hrest _ (h.advance (border offset len stop) (border offset len stop / 64))
      (rank mask (border offset len stop)) hnext
    rw [border] at hloop
    rw [keptLoop, hrank, Option.bind_some, hloop, Option.map_some]
    rfl

/-- **Each run's end among the kept rows is the rank of its border.** -/
theorem keptRunEnds_spec (mask : List Bool) {ends : List ℕ} (hasc : ends.Pairwise (· ≤ ·))
    (offset len : ℕ) : keptRunEnds ends offset len mask =
      some (keptRanks 0 (ends.map fun stop => rank mask (border offset len stop))) :=
  keptLoop_spec hasc (WordScan.At.new mask) fun _ _ => Nat.zero_le _

/-! ### What the runs decode to -/

section Decode

variable {α : Type*}

/-- The rows from one on that some runs stand for, run by run. -/
def expand (offset len : ℕ) : ℕ → List (ℕ × α) → List α
  | _, [] => []
  | start, (stop, value) :: runs =>
    List.replicate (border offset len stop - start) value ++ expand offset len (border offset len stop) runs

theorem keep_append : ∀ (l l' : List α) (mask : List Bool),
    keep mask (l ++ l') = keep mask l ++ keep (mask.drop l.length) l'
  | [], l', mask => rfl
  | a :: l, l', [] => by
    rw [keep, keep, keep, List.zip_nil_right, List.zip_nil_right, List.drop_nil, List.zip_nil_right]
    rfl
  | a :: l, l', bit :: mask => by
    have htail := keep_append l l' mask
    cases bit with
    | false => exact htail
    | true => exact congrArg (a :: ·) htail

theorem keep_replicate (value : α) : ∀ (n : ℕ) (mask : List Bool),
    keep mask (List.replicate n value) = List.replicate ((mask.take n).count true) value
  | 0, mask => by rw [List.take_zero]; rfl
  | n + 1, [] => by rw [List.take_nil]; rfl
  | n + 1, bit :: mask => by
    have htail := keep_replicate value n mask
    rw [List.replicate_succ, List.take_succ_cons, List.count_cons]
    cases bit with
    | false => exact htail
    | true =>
      show value :: keep mask (List.replicate n value) = _
      rw [htail]
      rfl

theorem border_mono (offset len : ℕ) {a b : ℕ} (h : a ≤ b) :
    border offset len a ≤ border offset len b := by
  rw [border, border]
  omega

/-- The rows of some runs from one on, read one by one or run by run. -/
theorem filterMap_expand (offset len : ℕ) : ∀ {runs : List (ℕ × α)} {start : ℕ},
    (runs.map Prod.fst).Pairwise (· ≤ ·) →
    (∀ run ∈ runs, start ≤ border offset len run.1) →
    (List.range' start (len - start)).filterMap (fun row =>
      (runs.map Prod.snd)[(runs.map Prod.fst).findIdx fun stop => decide (offset + row < stop)]?) =
        expand offset len start runs
  | [], start, _, _ => List.filterMap_eq_nil_iff.mpr fun _ _ => rfl
  | (stop, value) :: runs, start, hasc, hstart => by
    obtain ⟨hfirst, hrest⟩ := List.pairwise_cons.mp hasc
    have hle : start ≤ border offset len stop := hstart _ List.mem_cons_self
    have hlen : border offset len stop ≤ len := min_le_right _ _
    have hnext : ∀ run ∈ runs, border offset len stop ≤ border offset len run.1 := fun run hrun =>
      border_mono offset len (hfirst run.1 (List.mem_map_of_mem hrun))
    have hih := filterMap_expand offset len hrest hnext
    have hcut : List.range' start (len - start) =
        List.range' start (border offset len stop - start) ++
          List.range' (border offset len stop) (len - border offset len stop) := by
      rw [show len - start = (border offset len stop - start) + (len - border offset len stop) by omega,
        ← List.range'_append_1, Nat.add_sub_cancel' hle]
    rw [hcut, List.filterMap_append, expand, ← hih]
    congr 1
    · -- the rows before the border are the run's
      have hrow : ∀ row ∈ List.range' start (border offset len stop - start),
          ((value :: runs.map Prod.snd)[(stop :: runs.map Prod.fst).findIdx
            fun stop => decide (offset + row < stop)]?) = some value := by
        intro row hrow
        have hlt : offset + row < stop := by
          have hmem := List.mem_range'_1.mp hrow
          rw [border] at hmem
          omega
        rw [List.findIdx_cons, decide_eq_true hlt]
        rfl
      rw [List.map_cons, List.map_cons, List.filterMap_congr hrow]
      show List.filterMap (some ∘ fun _ => value) _ = _
      rw [List.filterMap_eq_map, List.map_const', List.length_range']
    · refine List.filterMap_congr fun row hrow => ?_
      have hge : ¬ offset + row < stop := by
        have hmem := List.mem_range'_1.mp hrow
        rw [border] at hmem
        omega
      rw [List.map_cons, List.map_cons, List.findIdx_cons, decide_eq_false hge]
      rfl

/-- A column's rows, run by run. -/
theorem RunEndColumn.decode_eq {column : RunEndColumn α} (hasc : column.ends.Pairwise (· ≤ ·))
    (hvalues : column.values.length = column.ends.length) :
    column.decode = expand column.offset column.len 0 (column.ends.zip column.values) := by
  have hends : (column.ends.zip column.values).map Prod.fst = column.ends :=
    List.map_fst_zip hvalues.ge
  have hvals : (column.ends.zip column.values).map Prod.snd = column.values :=
    List.map_snd_zip hvalues.le
  rw [← @filterMap_expand α column.offset column.len (column.ends.zip column.values) 0
    (by rwa [hends]) fun _ _ => Nat.zero_le _, hends, hvals, Nat.sub_zero, ← List.range_eq_range']
  rfl

/-- The rows of some runs, as many each as its rank is past the one before. -/
def expandRanks : ℕ → List (ℕ × α) → List α
  | _, [] => []
  | ranked, (rank, value) :: runs => List.replicate (rank - ranked) value ++ expandRanks rank runs

/-- The kept rows of some runs are as many a run as its border's rank is past the last. -/
theorem keep_expand (mask : List Bool) (offset len : ℕ) : ∀ {runs : List (ℕ × α)} {start : ℕ},
    (runs.map Prod.fst).Pairwise (· ≤ ·) → (∀ run ∈ runs, start ≤ border offset len run.1) →
    keep (mask.drop start) (expand offset len start runs) =
      expandRanks (rank mask start) (runs.map fun run => (rank mask (border offset len run.1), run.2))
  | [], start, _, _ => rfl
  | (stop, value) :: runs, start, hasc, hstart => by
    obtain ⟨hfirst, hrest⟩ := List.pairwise_cons.mp hasc
    have hle : start ≤ border offset len stop := hstart _ List.mem_cons_self
    have hnext : ∀ run ∈ runs, border offset len stop ≤ border offset len run.1 := fun run hrun =>
      border_mono offset len (hfirst run.1 (List.mem_map_of_mem hrun))
    have hih := keep_expand mask offset len hrest hnext
    have hcount : ((mask.drop start).take (border offset len stop - start)).count true =
        rank mask (border offset len stop) - rank mask start := by
      have hadd := rank_add mask start (border offset len stop - start)
      rw [Nat.add_sub_cancel' hle] at hadd
      omega
    rw [expand, keep_append, keep_replicate, hcount, List.length_replicate, List.drop_drop,
      Nat.add_sub_cancel' hle, hih]
    rfl

/-- The runs that keep a row end at the ranks of some borders, one past another. -/
theorem keptRanks_spec : ∀ {ranks : List ℕ} {ranked : ℕ}, ranks.Pairwise (· ≤ ·) →
    (∀ rank ∈ ranks, ranked ≤ rank) →
    (keptRanks ranked ranks).1.SortedLT ∧
    ∀ rank, rank ∈ (keptRanks ranked ranks).1 ↔ ranked < rank ∧ rank ∈ ranks
  | [], ranked, _, _ => ⟨List.Pairwise.sortedLT List.Pairwise.nil, fun rank => by simp [keptRanks]⟩
  | rank :: ranks, ranked, hasc, hle => by
    obtain ⟨hfirst, hrest⟩ := List.pairwise_cons.mp hasc
    obtain ⟨hsorted, hmem⟩ := keptRanks_spec hrest hfirst
    have hrank := hle rank List.mem_cons_self
    rw [keptRanks]
    dsimp only
    split_ifs with hkeeps
    · refine ⟨(List.pairwise_cons.mpr ⟨fun other hother => ((hmem other).mp hother).1,
        hsorted.pairwise⟩).sortedLT, fun other => ?_⟩
      rw [List.mem_cons, hmem, List.mem_cons]
      constructor
      · rintro (rfl | ⟨hlt, hother⟩)
        · exact ⟨hkeeps, .inl rfl⟩
        · exact ⟨hkeeps.trans hlt, .inr hother⟩
      · rintro ⟨hlt, rfl | hother⟩
        · exact .inl rfl
        · rcases (hfirst other hother).eq_or_lt with rfl | hpast
          · exact .inl rfl
          · exact .inr ⟨hpast, hother⟩
    · obtain rfl : rank = ranked := le_antisymm (Nat.le_of_not_lt hkeeps) hrank
      refine ⟨hsorted, fun other => ?_⟩
      rw [hmem, List.mem_cons]
      refine and_congr_right fun hlt => ?_
      exact (or_iff_right hlt.ne').symm

theorem length_kept : ∀ (ranks : List ℕ) (ranked : ℕ) {values : List α},
    values.length = ranks.length →
    (keep (keptRanks ranked ranks).2 values).length = (keptRanks ranked ranks).1.length
  | [], ranked, [], _ => rfl
  | rank :: ranks, ranked, value :: values, h => by
    have hrest := length_kept ranks rank (Nat.succ.inj h)
    rw [keptRanks]
    dsimp only
    split_ifs with hkeeps
    · rw [decide_eq_true hkeeps]
      exact congrArg Nat.succ hrest
    · rw [decide_eq_false hkeeps]
      exact hrest

/-- The kept runs stand for as many rows each as its rank is past the last. -/
theorem expand_kept {kept : ℕ} : ∀ {ranks : List ℕ} {ranked : ℕ} {values : List α},
    ranks.Pairwise (· ≤ ·) → (∀ rank ∈ ranks, ranked ≤ rank ∧ rank ≤ kept) →
    values.length = ranks.length →
    expand 0 kept ranked ((keptRanks ranked ranks).1.zip (keep (keptRanks ranked ranks).2 values)) =
      expandRanks ranked (ranks.zip values)
  | [], ranked, [], _, _, _ => rfl
  | rank :: ranks, ranked, value :: values, hasc, hle, h => by
    obtain ⟨hfirst, hrest⟩ := List.pairwise_cons.mp hasc
    obtain ⟨hrank, hkept⟩ := hle rank List.mem_cons_self
    have hih := expand_kept hrest
      (fun other hother => ⟨hfirst other hother, (hle other (List.mem_cons_of_mem rank hother)).2⟩)
      (Nat.succ.inj h)
    have hborder : border 0 kept rank = rank := min_eq_left hkept
    rw [keptRanks]
    dsimp only
    split_ifs with hkeeps
    · rw [decide_eq_true hkeeps]
      show List.replicate (border 0 kept rank - ranked) value ++ expand 0 kept (border 0 kept rank) _ = _
      rw [hborder, List.zip_cons_cons, expandRanks, ← hih]
      rfl
    · -- a run that keeps no row ends at the rank before it
      obtain rfl : rank = ranked := le_antisymm (Nat.le_of_not_lt hkeeps) hrank
      rw [decide_eq_false hkeeps, List.zip_cons_cons, expandRanks, Nat.sub_self]
      exact hih

end Decode

/-- **A filtered column of runs decodes to the kept rows**: over runs that ascend, from any
offset and over any length, each new end is the count of kept rows at a run's border, one
past another, and the filtered column decodes to the rows the mask keeps. -/
theorem keptRunEnds_decodes {α : Type*} (column : RunEndColumn α)
    (hasc : column.ends.Pairwise (· ≤ ·)) (hvalues : column.values.length = column.ends.length)
    (mask : List Bool) : ∃ filtered, column.filter mask = some filtered ∧
      filtered.ends.SortedLT ∧
      (∀ kept, kept ∈ filtered.ends ↔ 0 < kept ∧
        ∃ stop ∈ column.ends, kept = rank mask (min (stop - column.offset) column.len)) ∧
      filtered.decode = keep mask column.decode := by
  set ranks := column.ends.map fun stop => rank mask (border column.offset column.len stop) with hranks
  have hranksAsc : ranks.Pairwise (· ≤ ·) :=
    hasc.map _ fun a b hab => rank_mono mask (border_mono _ _ hab)
  obtain ⟨hsorted, hmem⟩ := keptRanks_spec hranksAsc fun _ _ => Nat.zero_le _
  have hlen : column.values.length = ranks.length := by rw [hranks, List.length_map, hvalues]
  refine ⟨_, by rw [RunEndColumn.filter, keptRunEnds_spec mask hasc, Option.map_some], hsorted,
    fun kept => ?_, ?_⟩
  · rw [hmem, hranks, List.mem_map]
    simp only [border, eq_comm]
  · have hzip : (column.ends.zip column.values).map (fun run =>
        (rank mask (border column.offset column.len run.1), run.2)) = ranks.zip column.values := by
      rw [hranks, List.zip_map_left]
      rfl
    have hbound : ∀ rank ∈ ranks, 0 ≤ rank ∧ rank ≤ mask.count true := by
      intro rank' hrank
      obtain ⟨stop, -, rfl⟩ := List.mem_map.mp hrank
      exact ⟨Nat.zero_le _, (List.take_sublist _ _).count_le true⟩
    have hrows := @keep_expand α mask column.offset column.len (column.ends.zip column.values) 0
      (by rwa [List.map_fst_zip hvalues.ge]) fun _ _ => Nat.zero_le _
    rw [RunEndColumn.decode_eq (hsorted.pairwise.imp le_of_lt) (length_kept ranks 0 hlen),
      RunEndColumn.decode_eq hasc hvalues]
    rw [List.drop_zero, rank_zero, hzip] at hrows
    rw [hrows]
    exact expand_kept hranksAsc hbound hlen

/-- Three runs from the second row on, two of five rows kept. -/
theorem keptRunEnds_decodes_sample : ∃ filtered,
    (⟨[2, 3, 6], [10, 20, 30], 1, 5⟩ : RunEndColumn ℕ).filter [true, false, false, true, false] =
      some filtered ∧
    filtered.ends.SortedLT ∧
    (∀ kept, kept ∈ filtered.ends ↔ 0 < kept ∧ ∃ stop ∈ [2, 3, 6],
      kept = rank [true, false, false, true, false] (min (stop - 1) 5)) ∧
    filtered.decode = keep [true, false, false, true, false]
      (⟨[2, 3, 6], [10, 20, 30], 1, 5⟩ : RunEndColumn ℕ).decode :=
  keptRunEnds_decodes ⟨[2, 3, 6], [10, 20, 30], 1, 5⟩ (by decide) rfl [true, false, false, true, false]

end Kernels
