/-
Canonical words and bit-packed words (`encoded-search/src/words.rs`,
`bitpacked.rs`).

A bit-packed node of `len` values from physical position `offset` unpacks them
from FastLanes chunks of 1024.  The unpacking itself is another crate's: it is
the parameter `FastLanes`, with what that format promises of it as fields.  A
bulk read takes each part of a chunk it touches one value at a time, at its
positions, or as the whole chunk (`unpackTier`).

* `PackedNode.new` — what the unchecked unpacks rely on, checked once;
* `readParts` — the parts of a window, which tile it (`readParts_tiles`);
* `packedReadInto_spec`, `packedEqInto_spec` — a bulk read and a search by
  parts agree with the point reads.
-/
import VortexRdf.Sinks

open Bisect Buffers

namespace EncodedSearch

/-! ### Canonical words -/

/-- A canonical buffer of unsigned words, borrowed at its own width. -/
structure Words where
  width : WordWidth
  words : List ℕ
  fits : ∀ v ∈ words, v < 2 ^ width.bits

namespace Words

def len (w : Words) : ℕ := w.words.length

def get (w : Words) (i : ℕ) : Option ℕ := w.words[i]?

/-- The words at `start..start + out.len()`, widened, into `out`. -/
def readInto (w : Words) (start : ℕ) (out : List ℕ) : Option (List ℕ) :=
  sliceOf w.words start (start + out.length)

/-- The words at `start..start + len` equal to `needle`.  A needle wider than
the words matches none of them. -/
def eqInto {σ : Type} [EqSink σ] (w : Words) (start len needle base : ℕ) (s : σ) : Option σ := do
  let words ← sliceOf w.words start (start + len)
  if needle < 2 ^ w.width.bits then some (EqSink.matching w.width base words needle s) else some s

/-- First index whose value is `>= needle`, the length for a needle past the
width's maximum. -/
def lowerBound (w : Words) (needle : ℕ) : Option ℕ :=
  if needle < 2 ^ w.width.bits then partition w.len (below w.get needle) else some w.len

/-- The word at `i`, as a column. -/
def value (w : Words) (i : ℕ) : ℕ := w.words.getD i 0

theorem get_reads (w : Words) : ReadsOn w.get w.value 0 w.len := by
  intro i _ hi
  rw [get, value, List.getD_eq_getElem?_getD, List.getElem?_eq_getElem hi, Option.getD_some]

theorem value_lt (w : Words) (i : ℕ) : w.value i < 2 ^ w.width.bits := by
  rw [value, List.getD_eq_getElem?_getD]
  rcases h : w.words[i]? with _ | v
  · exact Nat.two_pow_pos _
  · exact w.fits v (List.mem_of_getElem? h)

theorem slice_eq (w : Words) {start len : ℕ} (h : start + len ≤ w.len) :
    sliceOf w.words start (start + len) = some (valuesFrom w.value start len) := by
  rw [sliceOf_eq (Nat.le_add_right _ _) h, Nat.add_sub_cancel_left, Option.some_inj]
  have hlen : ((w.words.drop start).take len).length = len := by
    rw [List.length_take, List.length_drop]
    exact min_eq_left (by simp only [Words.len] at h; omega)
  conv_rhs => rw [← hlen]
  apply eq_valuesFrom
  intro k hk
  rw [hlen] at hk
  rw [List.getElem?_take_of_lt hk, List.getElem?_drop]
  exact w.get_reads (start + k) (Nat.zero_le _) (by omega)

theorem readInto_spec (w : Words) {start : ℕ} {out : List ℕ} (h : start + out.length ≤ w.len) :
    w.readInto start out = some (valuesFrom w.value start out.length) := w.slice_eq h

theorem eqInto_spec {σ : Type} [EqSink σ] [LawfulEqSink σ] (w : Words) {start len : ℕ}
    (h : start + len ≤ w.len) (needle base : ℕ) (s : σ) :
    w.eqInto start len needle base s = some (gather w.value needle start len base s) := by
  rw [eqInto, w.slice_eq h]
  simp only [Option.bind_eq_bind, Option.bind_some]
  split_ifs with hn
  · rw [matching_valuesFrom]
  · rw [gather_none]
    intro k _ heq
    exact hn (heq ▸ w.value_lt (start + k))

theorem lowerBound_spec (w : Words) (hasc : AscendingOn w.value 0 w.len) (needle : ℕ) :
    ∃ k, w.lowerBound needle = some k ∧
      IsPartitionPoint (fun i => w.value i < needle) 0 w.len k := by
  rw [lowerBound]
  split_ifs with hn
  · exact partition_below_spec w.get_reads hasc needle
  · exact ⟨w.len, rfl, .atEnd (Nat.zero_le _) fun i _ _ =>
      lt_of_lt_of_le (w.value_lt i) (Nat.le_of_not_lt hn)⟩

end Words

/-! ### FastLanes chunks -/

/-- Values per FastLanes chunk. -/
def FL_CHUNK : ℕ := 1024

/-- Words a chunk of 1024 values packs into at `bitWidth` bits apiece. -/
def chunkWords (w : WordWidth) (bitWidth : ℕ) : ℕ := 128 * bitWidth / w.bytes

/-- The FastLanes kernels the nodes call: unpacking one value, a whole chunk, or
a chunk at some positions, all of the same packing, and the two steps that undo
a delta block.  Each works on words of its width. -/
structure FastLanes where
  unpackSingle : WordWidth → List ℕ → ℕ → ℕ → ℕ
  unpack : WordWidth → ℕ → List ℕ → List ℕ
  unpackIndices : WordWidth → ℕ → List ℕ → List ℕ → List ℕ
  undelta : WordWidth → List ℕ → List ℕ → List ℕ
  untranspose : WordWidth → List ℕ → List ℕ
  unpack_length : ∀ w bitWidth words, (unpack w bitWidth words).length = FL_CHUNK
  unpack_lt : ∀ w bitWidth words, ∀ v ∈ unpack w bitWidth words, v < 2 ^ w.bits
  unpackIndices_eq : ∀ w bitWidth words positions, bitWidth ≤ w.bits →
    words.length = chunkWords w bitWidth → (∀ i ∈ positions, i < FL_CHUNK) →
    unpackIndices w bitWidth words positions =
      positions.map fun i => (unpack w bitWidth words).getD i 0
  unpackSingle_eq : ∀ w packed bitWidth index, bitWidth ≤ w.bits →
    (index / FL_CHUNK + 1) * chunkWords w bitWidth ≤ packed.length →
    unpackSingle w packed bitWidth index =
      (unpack w bitWidth ((packed.drop (index / FL_CHUNK * chunkWords w bitWidth)).take
        (chunkWords w bitWidth))).getD (index % FL_CHUNK) 0
  untranspose_length : ∀ w words, (untranspose w words).length = FL_CHUNK
  untranspose_lt : ∀ w words, ∀ v ∈ untranspose w words, v < 2 ^ w.bits

/-- The kernels on all-zero words: every packing of zeros unpacks to zeros. -/
def FastLanes.ofZeros : FastLanes where
  unpackSingle _ _ _ _ := 0
  unpack _ _ _ := List.replicate FL_CHUNK 0
  unpackIndices _ _ _ positions := positions.map fun _ => 0
  undelta _ _ _ := List.replicate FL_CHUNK 0
  untranspose _ _ := List.replicate FL_CHUNK 0
  unpack_length _ _ _ := List.length_replicate
  unpack_lt _ _ _ _ h := by rw [(List.mem_replicate.mp h).2]; exact Nat.two_pow_pos _
  unpackIndices_eq _ _ _ positions _ _ h := by
    refine List.map_congr_left fun i hi => ?_
    rw [List.getD_eq_getElem?_getD, List.getElem?_replicate, if_pos (h i hi), Option.getD_some]
  unpackSingle_eq _ _ _ index _ _ := by
    rw [List.getD_eq_getElem?_getD, List.getElem?_replicate,
      if_pos (Nat.mod_lt index (by decide)), Option.getD_some]
  untranspose_length _ _ := List.length_replicate
  untranspose_lt _ _ _ h := by rw [(List.mem_replicate.mp h).2]; exact Nat.two_pow_pos _

/-- `a.div_ceil(b)`. -/
def divCeil (a b : ℕ) : ℕ := (a + b - 1) / b

/-- Bit-packed words plus the packing parameters; what the unchecked unpacks
rely on holds of every value. -/
structure PackedNode where
  packed : Words
  bitWidth : ℕ
  offset : ℕ
  len : ℕ
  width_le : bitWidth ≤ 8 * packed.width.bytes
  holds : divCeil (offset + len) FL_CHUNK * chunkWords packed.width bitWidth ≤ packed.len

/-- The node of `len` values from physical position `offset` of `packed`;
`none` unless the width fits the words and `packed` holds every FastLanes chunk
the values reach. -/
def PackedNode.new (packed : Words) (bitWidth offset len : ℕ) : Option PackedNode :=
  if width_le : bitWidth ≤ 8 * packed.width.bytes then
    if offset + len ≤ u64Max then
      if divCeil (offset + len) FL_CHUNK * (128 * bitWidth / packed.width.bytes) ≤ u64Max then
        if holds : divCeil (offset + len) FL_CHUNK * chunkWords packed.width bitWidth
            ≤ packed.len then
          some { packed, bitWidth, offset, len, width_le, holds }
        else none
      else none
    else none
  else none

/-- How a bulk read takes the values it wants from one FastLanes chunk. -/
inductive Tier
  | oneByOne
  | positions
  | chunk
  deriving DecidableEq, Repr

/-- The most values of one chunk that a bulk read unpacks at their positions. -/
def unpackCrossover : WordWidth → ℕ
  | .u8 => 16
  | .u16 => 32
  | .u32 => 96
  | .u64 => 128

/-- The most values of one chunk that a bulk read unpacks one by one. -/
def UNPACK_ONE_BY_ONE : ℕ := 6

/-- The largest `unpackCrossover`. -/
def PART_MAX : ℕ := unpackCrossover .u64

/-- The tier that takes `values` values from one chunk. -/
def unpackTier (w : WordWidth) (values : ℕ) : Tier :=
  if values ≤ UNPACK_ONE_BY_ONE then .oneByOne
  else if values ≤ unpackCrossover w then .positions
  else .chunk

/-- Every position of a FastLanes chunk, in order. -/
def POSITIONS : List ℕ := List.range FL_CHUNK

/-- The FastLanes chunks that physical positions `first..last` touch: each
chunk's index and the part of its positions in range. -/
def chunkParts (first last : ℕ) : List (ℕ × ℕ × ℕ) :=
  (List.range' (first / FL_CHUNK) (divCeil last FL_CHUNK - first / FL_CHUNK)).map fun c =>
    (c, max first (c * FL_CHUNK) - c * FL_CHUNK, min last (c * FL_CHUNK + FL_CHUNK) - c * FL_CHUNK)

/-- The column of values held in blocks of 1024. -/
def blockColumn (blocks : ℕ → List ℕ) (index : ℕ) : ℕ :=
  (blocks (index / FL_CHUNK)).getD (index % FL_CHUNK) 0

theorem blockColumn_eq (blocks : ℕ → List ℕ) (c : ℕ) {k : ℕ} (hk : k < FL_CHUNK) :
    blockColumn blocks (c * FL_CHUNK + k) = (blocks c).getD k 0 := by
  have hdiv : (c * FL_CHUNK + k) / FL_CHUNK = c := by simp only [FL_CHUNK] at hk ⊢; omega
  have hmod : (c * FL_CHUNK + k) % FL_CHUNK = k := by simp only [FL_CHUNK] at hk ⊢; omega
  rw [blockColumn, hdiv, hmod]

theorem blockColumn_lt {blocks : ℕ → List ℕ} {bound index : ℕ} (hbound : 0 < bound)
    (h : ∀ v ∈ blocks (index / FL_CHUNK), v < bound) : blockColumn blocks index < bound := by
  rw [blockColumn, List.getD_eq_getElem?_getD]
  rcases hv : (blocks (index / FL_CHUNK))[index % FL_CHUNK]? with _ | v
  · exact hbound
  · exact h v (List.mem_of_getElem? hv)

/-- A slice of a block is a window of the column. -/
theorem slice_block {blocks : ℕ → List ℕ} {c start stop : ℕ} (hlen : (blocks c).length = FL_CHUNK)
    (hle : start ≤ stop) (hstop : stop ≤ FL_CHUNK) :
    sliceOf (blocks c) start stop =
      some (valuesFrom (blockColumn blocks) (c * FL_CHUNK + start) (stop - start)) := by
  rw [sliceOf_eq hle (by rw [hlen]; exact hstop), Option.some_inj]
  have htake : (((blocks c).drop start).take (stop - start)).length = stop - start := by
    rw [List.length_take, List.length_drop, hlen]
    omega
  conv_rhs => rw [← htake]
  apply eq_valuesFrom
  intro k hk
  rw [htake] at hk
  have hpos : start + k < (blocks c).length := by omega
  rw [List.getElem?_take_of_lt hk, List.getElem?_drop, Nat.add_assoc,
    blockColumn_eq blocks c (by omega), List.getD_eq_getElem?_getD, List.getElem?_eq_getElem hpos,
    Option.getD_some]

namespace PackedNode

variable (fl : FastLanes) (p : PackedNode)

/-- The packed value at physical `index`; reading past the buffer is `none`. -/
def unpack (index : ℕ) : Option ℕ :=
  if (index / FL_CHUNK + 1) * chunkWords p.packed.width p.bitWidth ≤ p.packed.len then
    some (fl.unpackSingle p.packed.width p.packed.words p.bitWidth index)
  else none

/-- FastLanes chunk `c`, whole. -/
def unpackChunk (c : ℕ) : Option (List ℕ) := do
  let words ← sliceOf p.packed.words (c * chunkWords p.packed.width p.bitWidth)
    ((c + 1) * chunkWords p.packed.width p.bitWidth)
  some (fl.unpack p.packed.width p.bitWidth words)

/-- The values at positions `start..stop` of FastLanes chunk `c`, at most
`PART_MAX` of them. -/
def unpackPositions (c start stop : ℕ) : Option (List ℕ) :=
  if stop - start ≤ PART_MAX then do
    let words ← sliceOf p.packed.words (c * chunkWords p.packed.width p.bitWidth)
      ((c + 1) * chunkWords p.packed.width p.bitWidth)
    let positions ← sliceOf POSITIONS start stop
    some (fl.unpackIndices p.packed.width p.bitWidth words positions)
  else none

/-- The values at positions `start..stop` of FastLanes chunk `c`, at most the
crossover of them. -/
def readShortPart (c start stop : ℕ) : Option (List ℕ) :=
  match unpackTier p.packed.width (stop - start) with
  | .oneByOne => (List.range' start (stop - start)).mapM fun i => p.unpack fl (c * FL_CHUNK + i)
  | .positions => p.unpackPositions fl c start stop
  | .chunk => none

/-- One part of a read of more values than the crossover. -/
def readLongPart (c start stop : ℕ) : Option (List ℕ) :=
  if unpackTier p.packed.width (stop - start) = .chunk then do
    let chunk ← p.unpackChunk fl c
    sliceOf chunk start stop
  else p.readShortPart fl c start stop

/-- The values at physical positions `first..first + n`, a chunk part at a time,
each with its offset in the window. -/
def readParts (first n : ℕ) : Option (List (ℕ × List ℕ)) :=
  match unpackTier p.packed.width n with
  | .oneByOne => do
    let values ← (List.range' first n).mapM (p.unpack fl)
    some [(0, values)]
  | .positions =>
    (chunkParts first (first + n)).mapM fun (c, start, stop) => do
      let place ← checkedSub (c * FL_CHUNK + start) first
      let values ← p.readShortPart fl c start stop
      some (place, values)
  | .chunk =>
    (chunkParts first (first + n)).mapM fun (c, start, stop) => do
      let place ← checkedSub (c * FL_CHUNK + start) first
      let values ← p.readLongPart fl c start stop
      some (place, values)

/-- The packed value at `i`, its patches left out. -/
def valueAt (i : ℕ) : Option ℕ :=
  if p.bitWidth = 0 then some 0 else p.unpack fl (i + p.offset)

/-- The packed values at `start..start + out.len()`, its patches left out. -/
def readInto (start : ℕ) (out : List ℕ) : Option (List ℕ) :=
  if p.bitWidth = 0 then some (List.replicate out.length 0)
  else if unpackTier p.packed.width out.length = .oneByOne then
    (List.range' (p.offset + start) out.length).mapM (p.unpack fl)
  else do
    let parts ← p.readParts fl (p.offset + start) out.length
    parts.foldlM (fun out part => writeAt out part.1 part.2) out

/-- The values at `start..start + len` equal to `needle`, each chunk part
compared in the stored words. -/
def eqInto {σ : Type} [EqSink σ] (start len needle base : ℕ) (s : σ) : Option σ :=
  if p.bitWidth = 0 then some (if needle = 0 then EqSink.run base (base + len) s else s)
  -- A needle wider than the words matches none of them.
  else if needle < 2 ^ p.packed.width.bits then do
    let parts ← p.readParts fl (p.offset + start) len
    some (parts.foldl (fun s part =>
      EqSink.matching p.packed.width (base + part.1) part.2 needle s) s)
  else some s

/-! ### The unpacks read one column -/

/-- The values of FastLanes chunk `c`. -/
def chunkOf (c : ℕ) : List ℕ :=
  fl.unpack p.packed.width p.bitWidth
    ((p.packed.words.drop (c * chunkWords p.packed.width p.bitWidth)).take
      (chunkWords p.packed.width p.bitWidth))

/-- The packed values by physical position. -/
def physical : ℕ → ℕ := blockColumn (p.chunkOf fl)

/-- The packed values by logical position. -/
def value (i : ℕ) : ℕ := if p.bitWidth = 0 then 0 else p.physical fl (i + p.offset)

variable {fl p}

theorem physical_lt (index : ℕ) : p.physical fl index < 2 ^ p.packed.width.bits :=
  blockColumn_lt (Nat.two_pow_pos _) (fl.unpack_lt _ _ _)

theorem value_lt (i : ℕ) : p.value fl i < 2 ^ p.packed.width.bits := by
  rw [value]
  split_ifs
  · exact Nat.two_pow_pos _
  · exact physical_lt _

theorem holds_chunk {c : ℕ} (h : c * FL_CHUNK < p.offset + p.len) :
    (c + 1) * chunkWords p.packed.width p.bitWidth ≤ p.packed.len := by
  refine le_trans (Nat.mul_le_mul_right _ ?_) p.holds
  rw [divCeil, Nat.le_div_iff_mul_le (by decide)]
  simp only [FL_CHUNK] at h ⊢
  omega

theorem slice_chunkWords {c : ℕ} (h : c * FL_CHUNK < p.offset + p.len) :
    sliceOf p.packed.words (c * chunkWords p.packed.width p.bitWidth)
        ((c + 1) * chunkWords p.packed.width p.bitWidth) =
      some ((p.packed.words.drop (c * chunkWords p.packed.width p.bitWidth)).take
        (chunkWords p.packed.width p.bitWidth)) := by
  have hlen := holds_chunk h
  rw [sliceOf_eq (Nat.mul_le_mul_right _ (Nat.le_add_right c 1)) hlen, Nat.add_mul, Nat.one_mul,
    Nat.add_sub_cancel_left]

theorem chunkWords_length {c : ℕ} (h : c * FL_CHUNK < p.offset + p.len) :
    ((p.packed.words.drop (c * chunkWords p.packed.width p.bitWidth)).take
      (chunkWords p.packed.width p.bitWidth)).length = chunkWords p.packed.width p.bitWidth := by
  have hlen := holds_chunk h
  rw [Nat.add_mul, Nat.one_mul, Words.len] at hlen
  rw [List.length_take, List.length_drop]
  omega

theorem unpack_eq {index : ℕ} (h : index < p.offset + p.len) :
    p.unpack fl index = some (p.physical fl index) := by
  have hc : index / FL_CHUNK * FL_CHUNK < p.offset + p.len :=
    lt_of_le_of_lt (Nat.div_mul_le_self _ _) h
  have hlen := holds_chunk hc
  rw [unpack, if_pos hlen, fl.unpackSingle_eq _ _ _ _ p.width_le hlen]
  rfl

theorem mapM_unpack_eq {first n : ℕ} (h : first + n ≤ p.offset + p.len) :
    (List.range' first n).mapM (p.unpack fl) = some (valuesFrom (p.physical fl) first n) := by
  have hread : ∀ i ∈ List.range' first n, p.unpack fl i = some (p.physical fl i) := by
    intro i hi
    have := List.mem_range'_1.mp hi
    exact unpack_eq (by omega)
  rw [mapM_some hread, List.range'_eq_map_range, List.map_map]
  rfl

/-! ### The parts of a window -/

section Parts

variable {c start stop : ℕ}

theorem unpackPositions_eq (hle : start ≤ stop) (hstop : stop ≤ FL_CHUNK)
    (hn : stop - start ≤ PART_MAX) (h : c * FL_CHUNK < p.offset + p.len) :
    p.unpackPositions fl c start stop =
      some (valuesFrom (p.physical fl) (c * FL_CHUNK + start) (stop - start)) := by
  have hpos : sliceOf POSITIONS start stop = some (List.range' start (stop - start)) := by
    rw [sliceOf_eq hle (by rw [POSITIONS, List.length_range]; exact hstop), POSITIONS,
      List.range_eq_range', List.drop_range',
      List.take_range'_of_length_ge (Nat.sub_le_sub_right hstop start)]
    simp
  rw [unpackPositions, if_pos hn, slice_chunkWords h, hpos]
  simp only [Option.bind_eq_bind, Option.bind_some, Option.some_inj]
  rw [fl.unpackIndices_eq _ _ _ _ p.width_le (chunkWords_length h), List.range'_eq_map_range,
    List.map_map]
  · refine List.map_congr_left fun k hk => ?_
    have hk' := List.mem_range.mp hk
    show (p.chunkOf fl c).getD (start + k) 0 = _
    rw [Nat.add_assoc, physical, blockColumn_eq _ c (by omega)]
  · intro i hi
    have := List.mem_range'_1.mp hi
    omega

theorem crossover_le (w : WordWidth) : unpackCrossover w ≤ PART_MAX := by cases w <;> decide

theorem readShortPart_eq (hle : start ≤ stop) (hstop : stop ≤ FL_CHUNK)
    (hn : unpackTier p.packed.width (stop - start) ≠ .chunk)
    (h : c * FL_CHUNK + stop ≤ p.offset + p.len) (hc : c * FL_CHUNK < p.offset + p.len) :
    p.readShortPart fl c start stop =
      some (valuesFrom (p.physical fl) (c * FL_CHUNK + start) (stop - start)) := by
  rw [readShortPart]
  rcases ht : unpackTier p.packed.width (stop - start) with _ | _ | _
  · simp only
    have hread : ∀ i ∈ List.range' start (stop - start),
        p.unpack fl (c * FL_CHUNK + i) = some (p.physical fl (c * FL_CHUNK + i)) := by
      intro i hi
      have := List.mem_range'_1.mp hi
      exact unpack_eq (by omega)
    rw [mapM_some hread, List.range'_eq_map_range, List.map_map]
    simp only [valuesFrom, Function.comp_def, Nat.add_assoc]
  · have hcross : stop - start ≤ unpackCrossover p.packed.width := by
      by_contra hc'
      rw [unpackTier, if_neg hc'] at ht
      split_ifs at ht
    exact unpackPositions_eq hle hstop (le_trans hcross (crossover_le _)) hc
  · exact absurd ht hn

theorem readLongPart_eq (hle : start ≤ stop) (hstop : stop ≤ FL_CHUNK)
    (h : c * FL_CHUNK + stop ≤ p.offset + p.len) (hc : c * FL_CHUNK < p.offset + p.len) :
    p.readLongPart fl c start stop =
      some (valuesFrom (p.physical fl) (c * FL_CHUNK + start) (stop - start)) := by
  rw [readLongPart]
  split_ifs with ht
  · rw [unpackChunk, slice_chunkWords hc]
    exact @slice_block (p.chunkOf fl) c _ _ (fl.unpack_length _ _ _) hle hstop
  · exact readShortPart_eq hle hstop ht h hc

end Parts

/-- The place in a window where chunk `c`'s part begins. -/
def place (first last c : ℕ) : ℕ := min last (max first (c * FL_CHUNK)) - first

theorem chunkParts_tiling (first n : ℕ) :
    Tiling (fun part : ℕ × ℕ × ℕ => part.1 * FL_CHUNK + part.2.1 - first)
      (fun part => part.2.2 - part.2.1) n 0 (chunkParts first (first + n)) := by
  -- Chunk by chunk, from any chunk the window touches to its last.
  have key : ∀ m c, first / FL_CHUNK ≤ c → c + m = max c (divCeil (first + n) FL_CHUNK) →
      Tiling (fun part : ℕ × ℕ × ℕ => part.1 * FL_CHUNK + part.2.1 - first)
        (fun part => part.2.2 - part.2.1) n (place first (first + n) c)
        ((List.range' c m).map fun c => (c, max first (c * FL_CHUNK) - c * FL_CHUNK,
          min (first + n) (c * FL_CHUNK + FL_CHUNK) - c * FL_CHUNK)) := by
    intro m
    induction m with
    | zero =>
      intro c _ hm
      have hend : place first (first + n) c = n := by
        simp only [place, divCeil, FL_CHUNK] at hm ⊢
        omega
      rw [hend]
      exact .nil
    | succ m ih =>
      intro c hc hm
      rw [List.range'_succ, List.map_cons]
      refine .cons_of_eq ?_ ?_
      · simp only [place, divCeil, FL_CHUNK] at hm hc ⊢
        omega
      · have hnext : place first (first + n) c + (min (first + n) (c * FL_CHUNK + FL_CHUNK)
            - c * FL_CHUNK - (max first (c * FL_CHUNK) - c * FL_CHUNK))
            = place first (first + n) (c + 1) := by
          simp only [place, divCeil, FL_CHUNK] at hm hc ⊢
          omega
        rw [hnext]
        exact ih (c + 1) (by omega) (by omega)
  have hstart : place first (first + n) (first / FL_CHUNK) = 0 := by
    simp only [place, FL_CHUNK]
    omega
  have h := key (divCeil (first + n) FL_CHUNK - first / FL_CHUNK) (first / FL_CHUNK) le_rfl
    (by omega)
  rwa [hstart] at h

/-- Every part lies in its chunk and in the window. -/
theorem mem_chunkParts {first last : ℕ} (hle : first ≤ last) {part : ℕ × ℕ × ℕ}
    (h : part ∈ chunkParts first last) :
    part.2.1 ≤ part.2.2 ∧ part.2.2 ≤ FL_CHUNK ∧ part.1 * FL_CHUNK + part.2.2 ≤ last ∧
      first ≤ part.1 * FL_CHUNK + part.2.1 ∧ part.1 * FL_CHUNK < last := by
  obtain ⟨c, hc, rfl⟩ := List.mem_map.mp h
  have hc' := List.mem_range'_1.mp hc
  simp only [divCeil, FL_CHUNK] at hc' ⊢
  omega

theorem mapM_parts_eq {first n : ℕ} {read : ℕ → ℕ → ℕ → Option (List ℕ)} (f : ℕ → ℕ)
    (hread : ∀ part ∈ chunkParts first (first + n), read part.1 part.2.1 part.2.2 =
      some (valuesFrom f (part.1 * FL_CHUNK + part.2.1) (part.2.2 - part.2.1))) :
    ∃ parts, ((chunkParts first (first + n)).mapM fun (c, start, stop) => do
        let place ← checkedSub (c * FL_CHUNK + start) first
        let values ← read c start stop
        some (place, values)) = some parts ∧ Tiles f first n parts := by
  have hsome : ∀ part ∈ chunkParts first (first + n), (do
        let place ← checkedSub (part.1 * FL_CHUNK + part.2.1) first
        let values ← read part.1 part.2.1 part.2.2
        some (place, values)) = some (part.1 * FL_CHUNK + part.2.1 - first,
          valuesFrom f (part.1 * FL_CHUNK + part.2.1) (part.2.2 - part.2.1)) := by
    intro part hpart
    obtain ⟨-, -, -, hfirst, -⟩ := mem_chunkParts (Nat.le_add_right _ _) hpart
    simp only [checkedSub_of_le hfirst, hread part hpart, Option.bind_eq_bind, Option.bind_some]
  refine ⟨_, mapM_some hsome, .map ?_, ?_⟩
  · simpa only [valuesFrom_length] using chunkParts_tiling first n
  · intro part hpart
    obtain ⟨part, hmem, rfl⟩ := List.mem_map.mp hpart
    obtain ⟨-, -, -, hfirst, -⟩ := mem_chunkParts (Nat.le_add_right _ _) hmem
    simp only [valuesFrom_length, Nat.add_sub_cancel' hfirst]

/-- The parts a read hands over tile its window. -/
theorem readParts_tiles (fl : FastLanes) (p : PackedNode) {first n : ℕ}
    (h : first + n ≤ p.offset + p.len) :
    ∃ parts, p.readParts fl first n = some parts ∧ Tiles (p.physical fl) first n parts := by
  rw [readParts]
  rcases ht : unpackTier p.packed.width n with _ | _ | _
  · refine ⟨[(0, valuesFrom (p.physical fl) first n)], ?_, ?_⟩
    · simp only [mapM_unpack_eq h, Option.bind_eq_bind, Option.bind_some]
    · refine ⟨.cons_of_eq rfl ?_, fun part hpart => ?_⟩
      · rw [valuesFrom_length, Nat.zero_add]
        exact .nil
      · rw [List.mem_singleton.mp hpart, valuesFrom_length, Nat.add_zero]
  · apply mapM_parts_eq
    intro part hpart
    obtain ⟨hle, hstop, hlast, hfirst, hc⟩ := mem_chunkParts (Nat.le_add_right _ _) hpart
    refine readShortPart_eq hle hstop ?_ (by omega) (by omega)
    -- A part of a read of at most the crossover holds at most the crossover.
    have hn : part.2.2 - part.2.1 ≤ n := by omega
    have hcross : n ≤ unpackCrossover p.packed.width := by
      by_contra hc'
      rw [unpackTier, if_neg hc'] at ht
      split_ifs at ht
    rw [unpackTier, if_pos (le_trans hn hcross)]
    split_ifs <;> simp
  · apply mapM_parts_eq
    intro part hpart
    obtain ⟨hle, hstop, hlast, -, hc⟩ := mem_chunkParts (Nat.le_add_right _ _) hpart
    exact readLongPart_eq hle hstop (by omega) (by omega)

/-! ### Point reads, bulk reads and searches agree -/

theorem valueAt_eq {i : ℕ} (h : i < p.len) : p.valueAt fl i = some (p.value fl i) := by
  rw [valueAt, value]
  split_ifs
  · rfl
  · exact unpack_eq (by omega)

theorem physical_values (hw : p.bitWidth ≠ 0) (start len : ℕ) :
    valuesFrom (p.physical fl) (p.offset + start) len = valuesFrom (p.value fl) start len := by
  apply valuesFrom_congr
  intro k _
  rw [value, if_neg hw]
  congr 1
  omega

theorem packedReadInto_spec {start : ℕ} {out : List ℕ} (h : start + out.length ≤ p.len) :
    p.readInto fl start out = some (valuesFrom (p.value fl) start out.length) := by
  rw [readInto]
  split_ifs with hw ht
  · rw [valuesFrom_eq_replicate fun k _ => by rw [value, if_pos hw]]
  · rw [mapM_unpack_eq (by omega), physical_values hw]
  · obtain ⟨parts, hparts, htiles⟩ := readParts_tiles fl p
      (show p.offset + start + out.length ≤ p.offset + p.len by omega)
    simp only [hparts, Option.bind_eq_bind, Option.bind_some, htiles.writeAt]
    rw [physical_values hw]

theorem packedEqInto_spec {σ : Type} [EqSink σ] [LawfulEqSink σ] {start len : ℕ}
    (h : start + len ≤ p.len) (needle base : ℕ) (s : σ) :
    p.eqInto fl start len needle base s =
      some (gather (p.value fl) needle start len base s) := by
  rw [eqInto]
  split_ifs with hw hz hn
  · rw [gather_run]
    intro k _
    rw [value, if_pos hw, hz]
  · rw [gather_none]
    intro k _
    rw [value, if_pos hw]
    exact fun h => hz h.symm
  · obtain ⟨parts, hparts, htiles⟩ := readParts_tiles fl p
      (show p.offset + start + len ≤ p.offset + p.len by omega)
    simp only [hparts, Option.bind_eq_bind, Option.bind_some]
    rw [gather_tiles htiles]
    congr 1
    apply gather_congr
    intro k _
    rw [value, if_neg hw, show start + k + p.offset = p.offset + start + k by omega]
  · rw [gather_none]
    intro k _ heq
    exact hn (heq ▸ value_lt (start + k))

end PackedNode

end EncodedSearch
