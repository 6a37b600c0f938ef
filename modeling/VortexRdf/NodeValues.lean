/-
What a well-formed probe tree holds.

* `Node.WellFormed` — what the encodings promise of a tree: run ends ascend and
  cover the rows, codes and indices point inside their values, sums stay in a
  `u64`, patch positions ascend, chunks follow each other;
* `Node.value` — the column a tree encodes;
* `wellFormed_sound` — every in-bounds point read answers, with a `u64`, and
  over ascending values the lower bound is the partition point.  The two go
  through one induction: a patched read is itself a search.
-/
import VortexRdf.Node
import VortexRdf.Segments

open Bisect Buffers

namespace EncodedSearch

variable (fl : FastLanes)

/-- The value at `i`. -/
def Node.value (n : Node) (i : ℕ) : ℕ := (n.valueAt fl i).getD 0

/-! ### Well-formed trees -/

/-- The rows where runs begin and end: run `r` spans `runBound ends r` to
`runBound ends (r + 1)`. -/
def runBound (ends : ℕ → ℕ) : ℕ → ℕ
  | 0 => 0
  | r + 1 => ends r

/-- Run ends ascend and cover the window `offset..offset + len`. -/
structure RunsCover (ends : ℕ → ℕ) (runs offset len : ℕ) : Prop where
  ascending : StrictAscendingOn (runBound ends) 0 (runs + 1)
  covers : 0 < len → offset + len ≤ runBound ends runs
  fits : offset + len ≤ u64Max

/-- Patched positions ascend. -/
structure PatchesAscend (keys : ℕ → ℕ) (patches values offset len : ℕ) : Prop where
  ascending : StrictAscendingOn keys 0 patches
  paired : values = patches
  fits : offset + len ≤ u64Max

/-- The rows where chunks begin, and where the last one ends. -/
def chunkBound {count : ℕ} (start : Fin count → ℕ) (len c : ℕ) : ℕ :=
  if h : c < count then start ⟨c, h⟩ else len

/-- Chunks follow each other from row 0 to the length, none of them empty. -/
structure ChunksFollow {count : ℕ} (start size : Fin count → ℕ) (len : ℕ) : Prop where
  first : chunkBound start len 0 = 0
  next : ∀ c : Fin count, start c + size c = chunkBound start len (c + 1)
  held : ∀ c, 0 < size c
  fits : len ≤ u64Max

/-- The blocks that `offset + len` values span have their deltas and bases. -/
structure DeltaBlocks (bases deltas : ℕ) (width : WordWidth) (offset len : ℕ) : Prop where
  offset_lt : offset < FL_CHUNK
  deltas_le : divCeil (offset + len) FL_CHUNK * FL_CHUNK ≤ deltas
  bases_le : divCeil (offset + len) FL_CHUNK * width.lanes ≤ bases
  fits : offset + len ≤ u64Max

/-- Every position's index points at a run value of its chunk. -/
structure RunIndices (values indices offsets : ℕ) (indexAt offsetAt : ℕ → ℕ)
    (base offset len : ℕ) : Prop where
  offsets_lt : ∀ i, i < len → (offset + i) / FL_CHUNK < offsets
  indices_le : offset + len ≤ indices
  base_le : ∀ i, i < len → base ≤ offsetAt ((offset + i) / FL_CHUNK)
  values_lt : ∀ i, i < len →
    offsetAt ((offset + i) / FL_CHUNK) - base + indexAt (offset + i) < values
  fits : offset + len ≤ u64Max

/-- What the encodings of a tree promise of it. -/
def Node.WellFormed : Node → Prop
  | .primitive w => w.len ≤ u64Max
  | .constant value len => value ≤ u64Max ∧ len ≤ u64Max
  | .sequence base multiplier len =>
    len ≤ u64Max ∧ 0 < multiplier ∧ ∀ i, i < len → base + i * multiplier ≤ u64Max
  | .runEnd ends values offset len =>
    ends.WellFormed ∧ values.WellFormed ∧ ends.len = values.len ∧
      RunsCover (ends.value fl) ends.len offset len
  | .foR reference child =>
    child.WellFormed ∧ ∀ i, i < child.len → reference + child.value fl i ≤ u64Max
  | .chunkedFoR references offset child =>
    references.WellFormed ∧ child.WellFormed ∧ offset + child.len ≤ u64Max ∧
      ∀ i, i < child.len → (offset + i) / FL_CHUNK < references.len
  | .bitPacked p => p.offset + p.len ≤ u64Max
  | .patched p indices values offset =>
    indices.WellFormed ∧ values.WellFormed ∧ p.offset + p.len ≤ u64Max ∧
      PatchesAscend (indices.value fl) indices.len values.len offset p.len
  | .slice child start len => child.WellFormed ∧ start + len ≤ child.len
  | .chunked _ start node len =>
    (∀ c, (node c).WellFormed) ∧ ChunksFollow start (fun c => (node c).len) len
  | .dict codes values =>
    codes.WellFormed ∧ values.WellFormed ∧ ∀ i, i < codes.len → codes.value fl i < values.len
  | .delta bases deltas width offset len =>
    bases.WellFormed ∧ deltas.WellFormed ∧ DeltaBlocks bases.len deltas.len width offset len
  | .sparse fill indices values offset len =>
    indices.WellFormed ∧ values.WellFormed ∧ fill ≤ u64Max ∧
      PatchesAscend (indices.value fl) indices.len values.len offset len
  | .rle values indices offsets base offset len =>
    values.WellFormed ∧ indices.WellFormed ∧ offsets.WellFormed ∧
      RunIndices values.len indices.len offsets.len (indices.value fl) (offsets.value fl)
        base offset len

/-- What a resolved tree promises its callers: every in-bounds point read
answers, with a `u64`, and over ascending values the lower bound is the
partition point. -/
structure Node.Sound (n : Node) : Prop where
  reads : ReadsOn (n.valueAt fl) (n.value fl) 0 n.len
  value_le : ∀ i, i < n.len → n.value fl i ≤ u64Max
  lower : AscendingOn (n.value fl) 0 n.len → ∀ needle, ∃ k, n.lowerBound fl needle = some k ∧
    IsPartitionPoint (fun i => n.value fl i < needle) 0 n.len k

variable {fl}

theorem Node.WellFormed.len_le {n : Node} (h : n.WellFormed fl) : n.len ≤ u64Max := by
  induction n with
  | primitive w => exact h
  | constant value len => exact h.2
  | sequence base multiplier len => exact h.1
  | runEnd ends values offset len => exact le_trans (Nat.le_add_left _ _) h.2.2.2.fits
  | foR reference child ih => exact ih h.1
  | chunkedFoR references offset child _ ih => exact ih h.2.1
  | bitPacked p => exact le_trans (Nat.le_add_left _ _) h
  | patched p indices values offset => exact le_trans (Nat.le_add_left _ _) h.2.2.1
  | slice child start len ih =>
    exact le_trans (Nat.le_add_left _ _) (le_trans h.2 (ih h.1))
  | chunked count start node len => exact h.2.fits
  | dict codes values ih _ => exact ih h.1
  | delta bases deltas width offset len => exact le_trans (Nat.le_add_left _ _) h.2.2.fits
  | sparse fill indices values offset len => exact le_trans (Nat.le_add_left _ _) h.2.2.2.fits
  | rle values indices offsets base offset len =>
    exact le_trans (Nat.le_add_left _ _) h.2.2.2.fits

theorem Node.value_of_valueAt {n : Node} {i v : ℕ} (h : n.valueAt fl i = some v) :
    n.value fl i = v := by rw [Node.value, h, Option.getD_some]

/-- Soundness, from the column the point reads give. -/
theorem Node.Sound.of_column {n : Node} {f : ℕ → ℕ}
    (hread : ∀ i, i < n.len → n.valueAt fl i = some (f i))
    (hle : ∀ i, i < n.len → f i ≤ u64Max)
    (hlower : ReadsOn (n.valueAt fl) f 0 n.len → AscendingOn f 0 n.len → ∀ needle, ∃ k,
      n.lowerBound fl needle = some k ∧ IsPartitionPoint (fun i => f i < needle) 0 n.len k) :
    n.Sound fl := by
  have heq : ∀ i, i < n.len → n.value fl i = f i := fun i hi => value_of_valueAt (hread i hi)
  refine ⟨fun i _ hi => by rw [hread i hi, heq i hi],
    fun i hi => by rw [heq i hi]; exact hle i hi, fun hasc needle => ?_⟩
  have hasc' : AscendingOn f 0 n.len := fun i j h₁ h₂ h₃ => by
    rw [← heq i (by omega), ← heq j h₃]
    exact hasc i j h₁ h₂ h₃
  obtain ⟨k, hk, hpoint⟩ := hlower (fun i _ hi => hread i hi) hasc' needle
  exact ⟨k, hk, hpoint.congr fun i _ hi => by rw [heq i hi]⟩

/-- Soundness of a node whose lower bound bisects its point reads. -/
theorem Node.Sound.of_partition {n : Node} {f : ℕ → ℕ}
    (hread : ∀ i, i < n.len → n.valueAt fl i = some (f i))
    (hle : ∀ i, i < n.len → f i ≤ u64Max)
    (hlower : ∀ needle, n.lowerBound fl needle = partition n.len (below (n.valueAt fl) needle)) :
    n.Sound fl := by
  refine .of_column hread hle fun hreads hasc needle => ?_
  rw [hlower]
  exact partition_below_spec hreads hasc needle

/-! ### Leaves -/

theorem WordWidth.le_u64Max {w : WordWidth} {v : ℕ} (h : v < 2 ^ w.bits) : v ≤ u64Max := by
  have := WordWidth.lt_u64 h
  rw [u64Max]
  omega

theorem sound_primitive (w : Words) : (Node.primitive w).Sound fl :=
  .of_column (fun i hi => w.get_reads i (Nat.zero_le i) hi)
    (fun i _ => WordWidth.le_u64Max (w.value_lt i))
    fun _ hasc needle => w.lowerBound_spec hasc needle

theorem sound_constant {value len : ℕ} (h : value ≤ u64Max) :
    (Node.constant value len).Sound fl := by
  refine @Node.Sound.of_column fl _ (fun _ => value) (fun i _ => rfl) (fun i _ => h) ?_
  intro _ _ needle
  refine ⟨_, rfl, ?_⟩
  split_ifs with hlt
  · exact .atEnd (Nat.zero_le _) fun _ _ _ => hlt
  · exact .atStart (Nat.zero_le _) fun _ _ _ => hlt

theorem divCeil_le_iff {a b k : ℕ} (hb : 0 < b) : divCeil a b ≤ k ↔ a ≤ k * b := by
  rw [divCeil, Nat.div_le_iff_le_mul_add_pred hb, Nat.mul_comm b k]
  omega

theorem sequence_valueAt {base multiplier len : ℕ}
    (h : ∀ i, i < len → base + i * multiplier ≤ u64Max) {i : ℕ} (hi : i < len) :
    (Node.sequence base multiplier len).valueAt fl i = some (base + i * multiplier) := by
  have := h i hi
  rw [u64Max] at this
  rw [Node.valueAt, Nat.mod_eq_of_lt (by omega)]

theorem sound_sequence {base multiplier len : ℕ} (hm : 0 < multiplier)
    (h : ∀ i, i < len → base + i * multiplier ≤ u64Max) :
    (Node.sequence base multiplier len).Sound fl := by
  refine .of_column (fun _ hi => sequence_valueAt h hi) h fun _ _ needle => ?_
  rw [Node.lowerBound]
  split_ifs with hle
  · exact ⟨0, rfl, .atStart (Nat.zero_le _) fun i _ _ => by omega⟩
  · rw [checkedDivCeil, if_neg (Nat.ne_of_gt hm)]
    refine ⟨_, rfl, Nat.zero_le _, Nat.min_le_right _ _, fun i _ hi => ?_, fun i hi hlen => ?_⟩
    · have hq : ¬ divCeil (needle - base) multiplier ≤ i := by rw [clampToLen] at hi; omega
      rw [divCeil_le_iff hm] at hq
      omega
    · have hq : divCeil (needle - base) multiplier ≤ i := by
        rw [clampToLen] at hi
        simp only [Node.len] at hlen
        omega
      rw [divCeil_le_iff hm] at hq
      omega

theorem sound_bitPacked (p : PackedNode) : (Node.bitPacked p).Sound fl :=
  .of_column (fun _ hi => PackedNode.valueAt_eq hi)
    (fun i _ => WordWidth.le_u64Max (PackedNode.value_lt i))
    fun hreads hasc needle => searchAscending_spec hreads hasc needle

/-! ### Nodes over a child -/

theorem saturatingAdd_eq {a b : ℕ} (h : a + b ≤ u64Max) : saturatingAdd a b = a + b :=
  Nat.min_eq_left h

variable {child : Node}

theorem foR_valueAt {reference : ℕ} (hc : child.Sound fl)
    (h : ∀ i, i < child.len → reference + child.value fl i ≤ u64Max) {i : ℕ}
    (hi : i < child.len) :
    (Node.foR reference child).valueAt fl i = some (reference + child.value fl i) := by
  rw [Node.valueAt, hc.reads i (Nat.zero_le i) hi]
  simp only [Option.bind_eq_bind, Option.bind_some, saturatingAdd_eq (h i hi)]

theorem sound_foR {reference : ℕ} (hc : child.Sound fl)
    (h : ∀ i, i < child.len → reference + child.value fl i ≤ u64Max) :
    (Node.foR reference child).Sound fl := by
  refine .of_column (fun i hi => foR_valueAt hc h hi) h fun _ hasc needle => ?_
  rw [Node.lowerBound]
  split_ifs with hle
  · exact ⟨0, rfl, .atStart (Nat.zero_le _) fun i _ _ => by omega⟩
  · have hchild : AscendingOn (child.value fl) 0 child.len := fun i j h₁ h₂ h₃ =>
      Nat.le_of_add_le_add_left (hasc i j h₁ h₂ h₃)
    obtain ⟨k, hk, hpoint⟩ := hc.lower hchild (needle - reference)
    exact ⟨k, hk, hpoint.congr fun i _ _ => by omega⟩

theorem chunkedForValueAt_eq {references : Node} {offset i : ℕ} (hr : references.Sound fl)
    (hc : child.Sound fl) (hi : i < child.len) (h : (offset + i) / FL_CHUNK < references.len) :
    chunkedForValueAt (references.valueAt fl) (child.valueAt fl) offset i =
      some (wrappingAdd (child.value fl i) (references.value fl ((offset + i) / FL_CHUNK))) := by
  rw [chunkedForValueAt, hc.reads i (Nat.zero_le i) hi, hr.reads _ (Nat.zero_le _) h]
  rfl

theorem wrappingAdd_le (a b : ℕ) : wrappingAdd a b ≤ u64Max :=
  Nat.le_of_lt_succ (Nat.mod_lt _ (Nat.two_pow_pos 64))

theorem sound_chunkedFoR {references : Node} {offset : ℕ} (hr : references.Sound fl)
    (hc : child.Sound fl) (h : ∀ i, i < child.len → (offset + i) / FL_CHUNK < references.len) :
    (Node.chunkedFoR references offset child).Sound fl :=
  .of_partition (fun i hi => chunkedForValueAt_eq hr hc hi (h i hi))
    (fun _ _ => wrappingAdd_le _ _) fun _ => rfl

theorem slice_valueAt {start len : ℕ} (hc : child.Sound fl)
    (h : start + len ≤ child.len) {i : ℕ} (hi : i < len) :
    (Node.slice child start len).valueAt fl i = some (child.value fl (start + i)) := by
  rw [Node.valueAt, hc.reads _ (Nat.zero_le _) (by omega)]

theorem sound_slice {start len : ℕ} (hc : child.Sound fl)
    (h : start + len ≤ child.len) : (Node.slice child start len).Sound fl := by
  refine .of_partition (fun i hi => slice_valueAt hc h hi) (fun i hi => ?_) fun _ => rfl
  have hi' : i < len := hi
  exact hc.value_le _ (by omega)

theorem dictValueAt_eq {codes values : Node} (hc : codes.Sound fl) (hv : values.Sound fl)
    {i : ℕ} (hi : i < codes.len) (h : codes.value fl i < values.len) :
    dictValueAt (codes.valueAt fl) (values.valueAt fl) i =
      some (values.value fl (codes.value fl i)) := by
  rw [dictValueAt, hc.reads i (Nat.zero_le i) hi]
  exact hv.reads _ (Nat.zero_le _) h

theorem sound_dict {codes values : Node} (hc : codes.Sound fl) (hv : values.Sound fl)
    (h : ∀ i, i < codes.len → codes.value fl i < values.len) :
    (Node.dict codes values).Sound fl :=
  .of_partition (fun i hi => dictValueAt_eq hc hv hi (h i hi))
    (fun i hi => hv.value_le _ (h i hi)) fun _ => rfl

variable {indices : Node}

theorem rleValueAt_eq {values offsets : Node} {base offset len : ℕ}
    (hv : values.Sound fl) (hx : indices.Sound fl) (ho : offsets.Sound fl)
    (h : RunIndices values.len indices.len offsets.len (indices.value fl) (offsets.value fl)
      base offset len) {i : ℕ} (hi : i < len) :
    rleValueAt (values.valueAt fl) (indices.valueAt fl) (offsets.valueAt fl) base offset i =
      some (values.value fl (offsets.value fl ((offset + i) / FL_CHUNK) - base +
        indices.value fl (offset + i))) := by
  have hpos : offset + i < indices.len := lt_of_lt_of_le (by omega) h.indices_le
  simp only [rleValueAt, ho.reads _ (Nat.zero_le _) (h.offsets_lt i hi),
    checkedSub_of_le (h.base_le i hi), hx.reads _ (Nat.zero_le _) hpos, Option.bind_eq_bind,
    Option.bind_some]
  exact hv.reads _ (Nat.zero_le _) (h.values_lt i hi)

theorem sound_rle {values offsets : Node} {base offset len : ℕ} (hv : values.Sound fl)
    (hx : indices.Sound fl) (ho : offsets.Sound fl)
    (h : RunIndices values.len indices.len offsets.len (indices.value fl) (offsets.value fl)
      base offset len) : (Node.rle values indices offsets base offset len).Sound fl :=
  .of_partition (fun _ hi => rleValueAt_eq hv hx ho h hi)
    (fun i hi => hv.value_le _ (h.values_lt i hi)) fun _ => rfl

/-! ### Delta blocks -/

/-- The values of delta block `b`. -/
def deltaValues (fl : FastLanes) (bases deltas : ℕ → ℕ) (width : WordWidth) (b : ℕ) : List ℕ :=
  fl.untranspose width (fl.undelta width
    (valuesFrom (fun i => width.narrow (deltas i)) (b * FL_CHUNK) FL_CHUNK)
    (valuesFrom (fun i => width.narrow (bases i)) (b * width.lanes) width.lanes))

/-- The values of a delta node by physical position. -/
def deltaPhysical (fl : FastLanes) (bases deltas : ℕ → ℕ) (width : WordWidth) : ℕ → ℕ :=
  blockColumn (deltaValues fl bases deltas width)

theorem mapM_valueAt {n : Node} {g : ℕ → ℕ} (hn : n.Sound fl) {start len : ℕ}
    (h : start + len ≤ n.len) :
    ((List.range len).mapM fun k => (n.valueAt fl (start + k)).map g) =
      some (valuesFrom (fun i => g (n.value fl i)) start len) := by
  apply mapM_some
  intro k hk
  have hk' := List.mem_range.mp hk
  rw [hn.reads _ (Nat.zero_le _) (by omega), Option.map_some]

theorem lt_divCeil {index size total : ℕ} (hsize : 0 < size) (h : index < total) :
    index / size < divCeil total size := by
  by_contra hle
  have hle' := (divCeil_le_iff hsize).mp (Nat.le_of_not_lt hle)
  exact absurd (lt_of_lt_of_le h hle') (Nat.not_lt_of_le (Nat.div_mul_le_self _ _))

theorem deltaBlock_eq {bases deltas : Node} {width : WordWidth} {offset len : ℕ}
    (hb : bases.Sound fl) (hd : deltas.Sound fl)
    (h : DeltaBlocks bases.len deltas.len width offset len) {b : ℕ}
    (hlt : b < divCeil (offset + len) FL_CHUNK) :
    deltaBlock fl (bases.valueAt fl) (deltas.valueAt fl) width offset len b =
      some (deltaValues fl (bases.value fl) (deltas.value fl) width b) := by
  have hdeltas : b * FL_CHUNK + FL_CHUNK ≤ deltas.len := by
    refine le_trans ?_ h.deltas_le
    rw [← Nat.succ_mul]
    exact Nat.mul_le_mul_right _ hlt
  have hbases : b * width.lanes + width.lanes ≤ bases.len := by
    refine le_trans ?_ h.bases_le
    rw [← Nat.succ_mul]
    exact Nat.mul_le_mul_right _ hlt
  rw [deltaBlock, if_pos hlt, decodeBlock, mapM_valueAt hd hdeltas, mapM_valueAt hb hbases]
  rfl

theorem deltaValues_length (bases deltas : ℕ → ℕ) (width : WordWidth) (b : ℕ) :
    (deltaValues fl bases deltas width b).length = FL_CHUNK := fl.untranspose_length _ _

theorem deltaPhysical_le (bases deltas : ℕ → ℕ) (width : WordWidth) (index : ℕ) :
    deltaPhysical fl bases deltas width index ≤ u64Max :=
  WordWidth.le_u64Max (blockColumn_lt (Nat.two_pow_pos _) (fl.untranspose_lt _ _))

theorem deltaValueAt_eq {bases deltas : Node} {width : WordWidth} {offset len : ℕ}
    (hb : bases.Sound fl) (hd : deltas.Sound fl)
    (h : DeltaBlocks bases.len deltas.len width offset len) {i : ℕ} (hi : i < len) :
    deltaValueAt fl (bases.valueAt fl) (deltas.valueAt fl) width offset len i =
      some (deltaPhysical fl (bases.value fl) (deltas.value fl) width (offset + i)) := by
  have hblock := deltaBlock_eq hb hd h
    (lt_divCeil (by decide) (show offset + i < offset + len by omega))
  have hmod : (offset + i) % FL_CHUNK <
      (deltaValues fl (bases.value fl) (deltas.value fl) width ((offset + i) / FL_CHUNK)).length := by
    rw [deltaValues_length]
    exact Nat.mod_lt _ (by decide)
  simp only [deltaValueAt, hblock, Option.bind_eq_bind, Option.bind_some]
  rw [deltaPhysical, blockColumn, List.getD_eq_getElem?_getD, List.getElem?_eq_getElem hmod,
    Option.getD_some]

theorem sound_delta {bases deltas : Node} {width : WordWidth} {offset len : ℕ}
    (hb : bases.Sound fl) (hd : deltas.Sound fl)
    (h : DeltaBlocks bases.len deltas.len width offset len) :
    (Node.delta bases deltas width offset len).Sound fl :=
  .of_partition (fun _ hi => deltaValueAt_eq hb hd h hi)
    (fun _ _ => deltaPhysical_le _ _ _ _) fun _ => rfl

/-! ### Patched positions -/

/-- The patch of key `key`, if there is one. -/
def patchOf (keys : ℕ → ℕ) (patches key : ℕ) : Option ℕ :=
  (List.range patches).find? fun place => decide (keys place = key)

/-- The value at logical `i`: its patch's, if it has one. -/
def patchedValue (keys values : ℕ → ℕ) (patches offset : ℕ) (unpatched : ℕ → ℕ) (i : ℕ) : ℕ :=
  ((patchOf keys patches (i + offset)).map values).getD (unpatched i)

section Patches

variable {keys values : ℕ → ℕ} {patches offset key : ℕ}

theorem patchOf_eq_some (h : StrictAscendingOn keys 0 patches) {place : ℕ}
    (hlt : place < patches) : patchOf keys patches (keys place) = some place := by
  rw [patchOf, List.find?_eq_some_iff_append]
  obtain ⟨m, rfl⟩ : ∃ m, patches = place + (1 + m) := ⟨patches - place - 1, by omega⟩
  refine ⟨by simp, List.range place, (List.range m).map (place + 1 + ·), ?_, fun a ha => ?_⟩
  · rw [List.range_add, List.range_add]
    simp [Function.comp_def, Nat.add_assoc]
  · have ha' := List.mem_range.mp ha
    have := h a place (Nat.zero_le a) ha' hlt
    simp only [Bool.not_eq_true', decide_eq_false_iff_not]
    omega

theorem patchOf_eq_none (h : ∀ place, place < patches → keys place ≠ key) :
    patchOf keys patches key = none := by
  rw [patchOf, List.find?_eq_none]
  intro place hplace
  simpa using h place (List.mem_range.mp hplace)

theorem patchOf_succ (h : StrictAscendingOn keys 0 (patches + 1)) :
    patchOf keys (patches + 1) key =
      if keys patches = key then some patches else patchOf keys patches key := by
  split_ifs with hkey
  · rw [← hkey, patchOf_eq_some h (Nat.lt_succ_self patches)]
  · rw [patchOf, patchOf, List.range_succ, List.find?_append]
    simp [hkey]

theorem patchLookup_eq {indices : Node} {replacements : Node} {i : ℕ} (hx : indices.Sound fl)
    (hv : replacements.Sound fl)
    (hasc : StrictAscendingOn (indices.value fl) 0 indices.len)
    (hpair : replacements.len = indices.len) :
    patchLookup indices.len (indices.lowerBound fl) (indices.valueAt fl)
        (replacements.valueAt fl) offset i =
      some ((patchOf (indices.value fl) indices.len (i + offset)).map (replacements.value fl)) := by
  obtain ⟨place, hplace, hpoint⟩ := hx.lower hasc.ascendingOn (i + offset)
  simp only [patchLookup, hplace, Option.bind_eq_bind, Option.bind_some]
  split_ifs with hlt
  · simp only [hx.reads place (Nat.zero_le _) hlt, Option.bind_some]
    split_ifs with hkey
    · rw [hv.reads place (Nat.zero_le _) (by omega), ← hkey, patchOf_eq_some hasc hlt]
      rfl
    · -- The first key not below the searched one is another key.
      rw [patchOf_eq_none]
      · rfl
      · intro q hq heq
        have hge := hpoint.after place le_rfl hlt
        rcases Nat.lt_trichotomy q place with hqp | rfl | hqp
        · exact absurd (hpoint.before q (Nat.zero_le _) hqp) (by omega)
        · exact hkey heq
        · have := hasc place q (Nat.zero_le _) hqp hq
          omega
  · rw [patchOf_eq_none]
    · rfl
    · intro q hq heq
      have := hpoint.before q (Nat.zero_le _) (by omega)
      omega

theorem patchedValue_le (h : ∀ place, place < patches → values place ≤ u64Max)
    {unpatched : ℕ → ℕ} {i : ℕ} (hu : unpatched i ≤ u64Max) :
    patchedValue keys values patches offset unpatched i ≤ u64Max := by
  rw [patchedValue]
  rcases hp : patchOf keys patches (i + offset) with _ | place
  · exact hu
  · exact h place (List.mem_range.mp (List.mem_of_find?_eq_some hp))

end Patches

theorem patchedValueAt_eq {p : PackedNode} {values : Node} {offset i : ℕ}
    (hx : indices.Sound fl) (hv : values.Sound fl)
    (h : PatchesAscend (indices.value fl) indices.len values.len offset p.len) (hi : i < p.len) :
    patchedValueAt (patchLookup indices.len (indices.lowerBound fl) (indices.valueAt fl)
        (values.valueAt fl) offset) (p.valueAt fl) i =
      some (patchedValue (indices.value fl) (values.value fl) indices.len offset (p.value fl) i) := by
  rw [patchedValueAt, patchLookup_eq hx hv h.ascending h.paired, patchedValue]
  simp only [Option.bind_eq_bind, Option.bind_some]
  rcases patchOf (indices.value fl) indices.len (i + offset) with _ | place
  · exact PackedNode.valueAt_eq hi
  · rfl

theorem sound_patched {p : PackedNode} {values : Node} {offset : ℕ}
    (hx : indices.Sound fl) (hv : values.Sound fl)
    (h : PatchesAscend (indices.value fl) indices.len values.len offset p.len) :
    (Node.patched p indices values offset).Sound fl :=
  .of_column (fun _ hi => patchedValueAt_eq hx hv h hi)
    (fun i _ => patchedValue_le
      (fun place hlt => hv.value_le place (by rw [h.paired]; exact hlt))
      (WordWidth.le_u64Max (PackedNode.value_lt i)))
    fun hreads hasc needle => searchAscending_spec hreads hasc needle

theorem sparseValueAt_eq {fill : ℕ} {values : Node} {offset len i : ℕ}
    (hx : indices.Sound fl) (hv : values.Sound fl)
    (h : PatchesAscend (indices.value fl) indices.len values.len offset len) :
    sparseValueAt (patchLookup indices.len (indices.lowerBound fl) (indices.valueAt fl)
        (values.valueAt fl) offset) fill i =
      some (patchedValue (indices.value fl) (values.value fl) indices.len offset
        (fun _ => fill) i) := by
  rw [sparseValueAt, patchLookup_eq hx hv h.ascending h.paired]
  rfl

theorem sound_sparse {fill : ℕ} {values : Node} {offset len : ℕ}
    (hx : indices.Sound fl) (hv : values.Sound fl) (hfill : fill ≤ u64Max)
    (h : PatchesAscend (indices.value fl) indices.len values.len offset len) :
    (Node.sparse fill indices values offset len).Sound fl :=
  .of_partition (fun _ _ => sparseValueAt_eq hx hv h)
    (fun _ _ => patchedValue_le
      (fun place hlt => hv.value_le place (by rw [h.paired]; exact hlt)) hfill)
    fun _ => rfl

/-! ### Runs -/

/-- The run that position `pos` lies in. -/
def runOf (ends : ℕ → ℕ) (runs pos : ℕ) : ℕ :=
  (List.range runs).countP fun r => decide (ends r ≤ pos)

namespace RunsCover

variable {ends : ℕ → ℕ} {runs offset len : ℕ}

theorem ends_ascending (h : RunsCover ends runs offset len) : StrictAscendingOn ends 0 runs :=
  fun i j _ hij hj => h.ascending (i + 1) (j + 1) (Nat.zero_le _) (by omega) (by omega)

theorem runOf_point (h : RunsCover ends runs offset len) (pos : ℕ) :
    IsPartitionPoint (fun r => ends r ≤ pos) 0 runs (runOf ends runs pos) := by
  obtain ⟨k, hk⟩ := exists_isPartitionPoint (Nat.zero_le runs)
    (h.ends_ascending.ascendingOn.downClosedOn_le pos)
  rwa [runOf, hk.countP_eq]

/-- A position is before run `r` as its run is. -/
theorem runOf_lt_iff (h : RunsCover ends runs offset len) {pos r : ℕ} (hr : r ≤ runs) :
    runOf ends runs pos < r ↔ pos < runBound ends r := by
  cases r with
  | zero => simp [runBound]
  | succ r =>
    have := (h.runOf_point pos).lt_iff (Nat.zero_le r) hr
    simp only [runBound]
    omega

theorem runOf_lt (h : RunsCover ends runs offset len) {i : ℕ} (hi : i < len) :
    runOf ends runs (i + offset) < runs := by
  rw [h.runOf_lt_iff le_rfl]
  have := h.covers (by omega)
  omega

/-- A run that the window reaches holds the window's first position, or begins
inside the window. -/
theorem runOf_max (h : RunsCover ends runs offset len) (hlen : 0 < len) {r : ℕ}
    (hlo : runOf ends runs offset ≤ r) (hhi : r ≤ runOf ends runs (offset + len - 1)) :
    runOf ends runs (max (runBound ends r) offset) = r ∧
      max (runBound ends r) offset < offset + len := by
  have hruns : r < runs := by
    have := @runOf_lt _ _ _ _ h (len - 1) (by omega)
    rw [show len - 1 + offset = offset + len - 1 by omega] at this
    omega
  have hstart : runBound ends r ≤ offset + len - 1 :=
    Nat.le_of_not_lt fun hlt => Nat.not_lt_of_le hhi ((h.runOf_lt_iff (by omega)).mpr hlt)
  have hafter : ∀ pos, runOf ends runs pos < r + 1 ↔ pos < runBound ends (r + 1) :=
    fun pos => h.runOf_lt_iff hruns
  have hnext : offset < runBound ends (r + 1) := (hafter offset).mp (by omega)
  have hstep := h.ascending r (r + 1) (Nat.zero_le r) (Nat.lt_succ_self r) (by omega)
  refine ⟨?_, by omega⟩
  apply Nat.le_antisymm
  · exact Nat.le_of_lt_succ ((hafter _).mpr (by omega))
  · exact Nat.le_of_not_lt fun hlt => by
      have := (h.runOf_lt_iff (by omega)).mp hlt
      omega

/-- A partition point of the window's run values is one of its rows, where the
run behind it begins. -/
theorem point_of_runs (h : RunsCover ends runs offset len) {values : ℕ → ℕ} {q : ℕ → Prop}
    {span k : ℕ} (hlen : 0 < len)
    (hspan : runOf ends runs offset + span = runOf ends runs (offset + len - 1) + 1)
    (hk : IsPartitionPoint (fun j => q (values (runOf ends runs offset + j))) 0 span k) :
    IsPartitionPoint (fun i => q (values (runOf ends runs (i + offset)))) 0 len
      (min (runBound ends (runOf ends runs offset + k) - offset) len) := by
  have hlast := @runOf_lt _ _ _ _ h (len - 1) (by omega)
  rw [show len - 1 + offset = offset + len - 1 by omega] at hlast
  have hmono : ∀ {a b}, a ≤ b → b < offset + len → runOf ends runs a ≤ runOf ends runs b := by
    intro a b hab hb
    have hb' := @runOf_lt _ _ _ _ h
    exact List.countP_mono_left fun r _ hra => by
      simp only [decide_eq_true_eq] at hra ⊢
      omega
  have hpoint : IsPartitionPoint (fun r => q (values r)) (runOf ends runs offset)
      (runOf ends runs offset + span) (runOf ends runs offset + k) := hk.shift
  refine hpoint.pullback (Nat.min_le_right _ _) (fun i hi => ⟨?_, ?_⟩) (fun i hi => Iff.rfl) ?_
  · exact hmono (by omega) (by omega)
  · have := @hmono (i + offset) (offset + len - 1) (by omega) (by omega)
    omega
  · intro i hi
    have hkle := hk.le
    have := @runOf_lt_iff _ _ _ _ h (i + offset) (runOf ends runs offset + k) (by omega)
    omega

/-- The window's run values ascend as its rows do. -/
theorem runs_ascending (h : RunsCover ends runs offset len) {values : ℕ → ℕ} {span : ℕ}
    (hlen : 0 < len)
    (hspan : runOf ends runs offset + span = runOf ends runs (offset + len - 1) + 1)
    (hasc : AscendingOn (fun i => values (runOf ends runs (i + offset))) 0 len) :
    AscendingOn (fun j => values (runOf ends runs offset + j)) 0 span := by
  intro a b _ hab hb
  obtain ⟨hra, hla⟩ := @runOf_max _ _ _ _ h hlen (runOf ends runs offset + a) (by omega) (by omega)
  obtain ⟨hrb, hlb⟩ := @runOf_max _ _ _ _ h hlen (runOf ends runs offset + b) (by omega) (by omega)
  set ia := max (runBound ends (runOf ends runs offset + a)) offset with hia
  set ib := max (runBound ends (runOf ends runs offset + b)) offset with hib
  have hruns : runOf ends runs offset + b ≤ runs := by
    have := @runOf_lt _ _ _ _ h (len - 1) (by omega)
    rw [show len - 1 + offset = offset + len - 1 by omega] at this
    omega
  have hle : ia ≤ ib := by
    rcases Nat.eq_or_lt_of_le hab with rfl | hlt
    · exact le_rfl
    · have := h.ascending (runOf ends runs offset + a) (runOf ends runs offset + b)
        (Nat.zero_le _) (by omega) (by omega)
      omega
  have := hasc (ia - offset) (ib - offset) (Nat.zero_le _) (by omega) (by omega)
  simpa only [show ia - offset + offset = ia by omega, show ib - offset + offset = ib by omega,
    hra, hrb] using this

end RunsCover

section RunEnd

variable {endAt valueAt : ℕ → Option ℕ} {ends values : ℕ → ℕ} {runs offset len : ℕ}

theorem windowRuns_eq (h : RunsCover ends runs offset len) (hread : ReadsOn endAt ends 0 runs)
    (hlen : 0 < len) :
    ∃ span, windowRuns runs endAt offset len = some (runOf ends runs offset, span) ∧
      runOf ends runs offset + span = runOf ends runs (offset + len - 1) + 1 := by
  have hlast := @RunsCover.runOf_lt _ _ _ _ h (len - 1) (by omega)
  rw [show len - 1 + offset = offset + len - 1 by omega] at hlast
  have hwhole : endsWithRuns runs endAt offset len =
      some (decide (offset = 0 ∧ ends (runs - 1) = len)) := by
    rw [endsWithRuns]
    by_cases ho : offset = 0
    · rw [if_pos ⟨ho, by omega⟩, hread _ (Nat.zero_le _) (by omega)]
      simp [ho]
    · simp [ho]
  rw [windowRuns, if_neg (Nat.ne_of_gt hlen), hwhole]
  simp only [Option.bind_eq_bind, Option.bind_some]
  by_cases hw : offset = 0 ∧ ends (runs - 1) = len
  · -- Every run lies in the window: the first begins it, the last ends it.
    obtain ⟨rfl, hend⟩ := hw
    have hfirst : runOf ends runs 0 = 0 := by
      have hone := h.ascending 0 1 le_rfl Nat.one_pos (by omega)
      have := (@RunsCover.runOf_lt_iff _ _ _ _ h 0 1 (by omega)).mpr
        (by simpa only [runBound] using hone)
      omega
    have hprev := h.ascending (runs - 1) runs (Nat.zero_le _) (by omega) (by omega)
    have hbound : runBound ends runs = len := by
      obtain ⟨m, rfl⟩ : ∃ m, runs = m + 1 := ⟨runs - 1, by omega⟩
      exact hend
    have hnot := (@RunsCover.runOf_lt_iff _ _ _ _ h (0 + len - 1) (runs - 1) (by omega)).not.mpr
      (by omega)
    refine ⟨runs, ?_, by omega⟩
    simp [hend, hfirst]
  · rw [decide_eq_false hw]
    have hpoint : ∀ pos, partition runs (atMost endAt pos) = some (runOf ends runs pos) :=
      fun pos => bisect_eq (atMost_reads hread)
        (h.ends_ascending.ascendingOn.downClosedOn_le pos) (h.runOf_point pos)
    have hmono : runOf ends runs offset ≤ runOf ends runs (offset + len - 1) :=
      List.countP_mono_left fun r _ hr => by
        simp only [decide_eq_true_eq] at hr ⊢
        omega
    refine ⟨runOf ends runs (offset + len - 1) + 1 - runOf ends runs offset, ?_, by omega⟩
    simp only [hpoint, Bool.false_eq_true, if_false, Option.bind_some]
    rw [Nat.min_eq_left (by omega), checkedSub_of_le (by omega)]
    rfl

theorem runStart_eq (hread : ReadsOn endAt ends 0 runs) {run : ℕ} (hrun : run ≤ runs) :
    runStart endAt run offset len = some (min (runBound ends run - offset) len) := by
  cases run with
  | zero => simp [runStart, runBound]
  | succ run =>
    rw [runStart, if_neg (Nat.succ_ne_zero run), Nat.add_sub_cancel,
      hread run (Nat.zero_le _) hrun]
    rfl

theorem runendLowerBound_spec (h : RunsCover ends runs offset len)
    (hread : ReadsOn endAt ends 0 runs) (hvalues : ReadsOn valueAt values 0 runs)
    (hasc : AscendingOn (fun i => values (runOf ends runs (i + offset))) 0 len) (needle : ℕ) :
    ∃ k, runendLowerBound runs endAt valueAt offset len needle = some k ∧
      IsPartitionPoint (fun i => values (runOf ends runs (i + offset)) < needle) 0 len k := by
  rcases Nat.eq_zero_or_pos len with rfl | hlen
  · exact ⟨0, rfl, .empty _ 0⟩
  obtain ⟨span, hw, hspan⟩ := windowRuns_eq h hread hlen
  have hlast := @RunsCover.runOf_lt _ _ _ _ h (len - 1) (by omega)
  rw [show len - 1 + offset = offset + len - 1 by omega] at hlast
  have hreads : ReadsOn (fun k => valueAt (runOf ends runs offset + k))
      (fun k => values (runOf ends runs offset + k)) 0 span :=
    fun k _ hk => hvalues _ (Nat.zero_le _) (by omega)
  obtain ⟨k, hk, hpoint⟩ := searchAscending_spec hreads (h.runs_ascending hlen hspan hasc) needle
  have hkle := hpoint.le
  refine ⟨_, ?_, @RunsCover.point_of_runs _ _ _ _ h values (· < needle) _ _ hlen hspan hpoint⟩
  simp only [runendLowerBound, hw, Option.bind_eq_bind, Option.bind_some, hk]
  exact runStart_eq hread (by omega)

end RunEnd

theorem runEnd_valueAt {ends values : Node} {offset len : ℕ} (he : ends.Sound fl)
    (hv : values.Sound fl) (hpair : ends.len = values.len)
    (h : RunsCover (ends.value fl) ends.len offset len) {i : ℕ} (hi : i < len) :
    (Node.runEnd ends values offset len).valueAt fl i =
      some (values.value fl (runOf (ends.value fl) ends.len (i + offset))) := by
  have hrun : partition ends.len (atMost (ends.valueAt fl) (i + offset)) =
      some (runOf (ends.value fl) ends.len (i + offset)) :=
    bisect_eq (atMost_reads he.reads) (h.ends_ascending.ascendingOn.downClosedOn_le _)
      (h.runOf_point _)
  rw [Node.valueAt, hrun]
  exact hv.reads _ (Nat.zero_le _) (by rw [← hpair]; exact h.runOf_lt hi)

theorem sound_runEnd {ends values : Node} {offset len : ℕ} (he : ends.Sound fl)
    (hv : values.Sound fl) (hpair : ends.len = values.len)
    (h : RunsCover (ends.value fl) ends.len offset len) :
    (Node.runEnd ends values offset len).Sound fl :=
  .of_column (fun _ hi => runEnd_valueAt he hv hpair h hi)
    (fun _ hi => hv.value_le _ (by rw [← hpair]; exact h.runOf_lt hi))
    fun _ hasc needle =>
      runendLowerBound_spec h he.reads (fun k h₁ h₂ => hv.reads k h₁ (by omega)) hasc needle

/-! ### Chunks -/

namespace ChunksFollow

variable {count : ℕ} {start size : Fin count → ℕ} {len : ℕ}

theorem chunkBound_eq (start : Fin count → ℕ) (len : ℕ) (c : Fin count) :
    chunkBound start len c = start c := dif_pos c.isLt

theorem chunkBound_count (start : Fin count → ℕ) (len : ℕ) : chunkBound start len count = len :=
  dif_neg (Nat.lt_irrefl count)

theorem segments (h : ChunksFollow start size len) : Segments (chunkBound start len) count := by
  refine ⟨h.first, .of_succ fun c _ hc => ?_⟩
  have hnext := h.next ⟨c, by omega⟩
  have hheld := h.held ⟨c, by omega⟩
  have hbound := chunkBound_eq start len ⟨c, by omega⟩
  simp only at hnext hbound
  omega

/-- Every row is in a chunk. -/
theorem exists_chunk (h : ChunksFollow start size len) {i : ℕ} (hi : i < len) :
    ∃ c : Fin count, start c ≤ i ∧ i < start c + size c := by
  obtain ⟨c, hc, hlo, hhi⟩ := h.segments.exists_segment (show i < chunkBound start len count by
    rw [chunkBound_count]; exact hi)
  refine ⟨⟨c, hc⟩, ?_, ?_⟩
  · rwa [← chunkBound_eq start len ⟨c, hc⟩]
  · rwa [h.next]

/-- The search for a row's chunk finds it. -/
theorem partition_eq (h : ChunksFollow start size len) {c : Fin count} {i : ℕ}
    (hlo : start c ≤ i) (hhi : i < start c + size c) :
    partition count (startsBy start i) = some (c.val + 1) := by
  refine bisect_eq (fun r _ hr => ?_) (h.segments.downClosed i) (h.segments.point c.isLt ?_ ?_)
  · rw [startsBy, dif_pos hr, ← chunkBound_eq start len ⟨r, hr⟩]
  · rwa [chunkBound_eq]
  · rwa [← h.next]

end ChunksFollow

section Chunked

variable {count : ℕ} {start : Fin count → ℕ} {node : Fin count → Node} {len : ℕ}

theorem chunked_valueAt (h : ChunksFollow start (fun c => (node c).len) len)
    (hn : ∀ c, (node c).Sound fl) {c : Fin count} {i : ℕ} (hlo : start c ≤ i)
    (hhi : i < start c + (node c).len) :
    (Node.chunked count start node len).valueAt fl i =
      some ((node c).value fl (i - start c)) := by
  rw [Node.valueAt, h.partition_eq hlo hhi]
  simp only [checkedSub_of_le (Nat.le_add_left 1 _), Option.bind_eq_bind, Option.bind_some,
    Nat.add_sub_cancel]
  rw [dif_pos c.isLt]
  simp only [Fin.eta, checkedSub_of_le hlo, Option.bind_some]
  exact (hn c).reads _ (Nat.zero_le _) (by omega)

theorem chunked_value (h : ChunksFollow start (fun c => (node c).len) len)
    (hn : ∀ c, (node c).Sound fl) (c : Fin count) {k : ℕ} (hk : k < (node c).len) :
    (Node.chunked count start node len).value fl (start c + k) = (node c).value fl k := by
  rw [Node.value_of_valueAt (chunked_valueAt h hn (Nat.le_add_right _ _) (by omega)),
    Nat.add_sub_cancel_left]

/-- The value before a chunk border is the last one of the chunk it ends. -/
theorem chunked_last (h : ChunksFollow start (fun c => (node c).len) len)
    (hn : ∀ c, (node c).Sound fl) (c : Fin count) :
    (Node.chunked count start node len).value fl (chunkBound start len (c + 1) - 1) =
      (node c).value fl ((node c).len - 1) := by
  have hheld := h.held c
  rw [← h.next c, show start c + (node c).len - 1 = start c + ((node c).len - 1) by omega,
    chunked_value h hn c (by omega)]

theorem chunked_lowerBound (h : ChunksFollow start (fun c => (node c).len) len)
    (hn : ∀ c, (node c).Sound fl)
    (hasc : AscendingOn ((Node.chunked count start node len).value fl) 0 len) (needle : ℕ) :
    ∃ k, (Node.chunked count start node len).lowerBound fl needle = some k ∧
      IsPartitionPoint (fun i => (Node.chunked count start node len).value fl i < needle)
        0 len k := by
  set f := (Node.chunked count start node len).value fl with hf
  have hseg := h.segments
  have hcount := ChunksFollow.chunkBound_count start len
  have hlast : ∀ c : Fin count, f (chunkBound start len (c + 1) - 1) =
      (node c).value fl ((node c).len - 1) := chunked_last h hn
  have hread : ReadsOn (chunkLast (fun c => (node c).len) fun c => (node c).valueAt fl)
      (fun c => f (chunkBound start len (c + 1) - 1)) 0 count := by
    intro c _ hc
    have hheld := h.held ⟨c, hc⟩
    have hc' := hlast ⟨c, hc⟩
    rw [chunkLast, dif_pos hc]
    simp only [hc', checkedSub_of_le (Nat.succ_le_of_lt hheld), Option.bind_eq_bind, Option.bind_some,
      (hn ⟨c, hc⟩).reads _ (Nat.zero_le _) (Nat.sub_lt hheld Nat.one_pos)]
  rw [← hcount] at hasc
  obtain ⟨c, hc, hpoint⟩ := partition_below_spec hread (hseg.range_lasts_ascending hasc) needle
  rw [Node.lowerBound]
  simp only [hc, Option.bind_eq_bind, Option.bind_some]
  by_cases hlt : c < count
  · rw [dif_pos hlt]
    have hstart := ChunksFollow.chunkBound_eq start len ⟨c, hlt⟩
    have hnext := h.next ⟨c, hlt⟩
    have hle : chunkBound start len (c + 1) ≤ chunkBound start len count := hseg.le hlt le_rfl
    simp only at hstart hnext
    have hchunk : ∀ k, k < (node ⟨c, hlt⟩).len →
        f (start ⟨c, hlt⟩ + k) = (node ⟨c, hlt⟩).value fl k := fun k hk => chunked_value h hn _ hk
    have hcasc : AscendingOn ((node ⟨c, hlt⟩).value fl) 0 (node ⟨c, hlt⟩).len := by
      intro a b _ hab hb
      rw [← hchunk a (by omega), ← hchunk b hb]
      exact hasc _ _ (Nat.zero_le _) (by omega) (lt_of_lt_of_le (by omega) hle)
    obtain ⟨k, hk, hkpoint⟩ := (hn ⟨c, hlt⟩).lower hcasc needle
    simp only [hk, Option.bind_some]
    have hshift : IsPartitionPoint (fun i => f i < needle) (start ⟨c, hlt⟩)
        (start ⟨c, hlt⟩ + (node ⟨c, hlt⟩).len) (start ⟨c, hlt⟩ + k) :=
      (hkpoint.congr fun i _ hi => by rw [hchunk i hi]).shift
    rw [hnext, ← hstart] at hshift
    have hwhole := hseg.point_of_range hasc hpoint hlt hshift
    rw [hcount, hstart] at hwhole
    exact ⟨_, rfl, hwhole⟩
  · rw [dif_neg hlt]
    obtain rfl : c = count := le_antisymm hpoint.le (Nat.le_of_not_lt hlt)
    have hwhole := hseg.point_past_range hasc hpoint
    rw [hcount] at hwhole
    exact ⟨len, rfl, hwhole⟩

theorem sound_chunked (h : ChunksFollow start (fun c => (node c).len) len)
    (hn : ∀ c, (node c).Sound fl) : (Node.chunked count start node len).Sound fl := by
  refine ⟨fun i _ hi => ?_, fun i hi => ?_, chunked_lowerBound h hn⟩
  · obtain ⟨c, hlo, hhi⟩ := h.exists_chunk hi
    have hv := chunked_valueAt h hn hlo hhi
    rw [hv, Node.value_of_valueAt hv]
  · obtain ⟨c, hlo, hhi⟩ := h.exists_chunk hi
    rw [Node.value_of_valueAt (chunked_valueAt h hn hlo hhi)]
    exact (hn c).value_le _ (by omega)

end Chunked

/-- **A well-formed tree answers every in-bounds point read, and over ascending
values its lower bound is the partition point.** -/
theorem wellFormed_sound {n : Node} (h : n.WellFormed fl) : n.Sound fl := by
  induction n with
  | primitive w => exact sound_primitive w
  | constant value len => exact sound_constant h.1
  | sequence base multiplier len => exact sound_sequence h.2.1 h.2.2
  | runEnd ends values offset len ihe ihv =>
    obtain ⟨he, hv, hpair, hruns⟩ := h
    exact sound_runEnd (ihe he) (ihv hv) hpair hruns
  | foR reference child ih => exact sound_foR (ih h.1) h.2
  | chunkedFoR references offset child ihr ihc =>
    obtain ⟨hr, hc, -, hcover⟩ := h
    exact sound_chunkedFoR (ihr hr) (ihc hc) hcover
  | bitPacked p => exact sound_bitPacked p
  | patched p indices values offset ihx ihv =>
    obtain ⟨hx, hv, -, hpatches⟩ := h
    exact sound_patched (ihx hx) (ihv hv) hpatches
  | slice child start len ih => exact sound_slice (ih h.1) h.2
  | chunked count start node len ih => exact sound_chunked h.2 fun c => ih c (h.1 c)
  | dict codes values ihc ihv =>
    obtain ⟨hc, hv, hcodes⟩ := h
    exact sound_dict (ihc hc) (ihv hv) hcodes
  | delta bases deltas width offset len ihb ihd =>
    obtain ⟨hb, hd, hblocks⟩ := h
    exact sound_delta (ihb hb) (ihd hd) hblocks
  | sparse fill indices values offset len ihx ihv =>
    obtain ⟨hx, hv, hfill, hpatches⟩ := h
    exact sound_sparse (ihx hx) (ihv hv) hfill hpatches
  | rle values indices offsets base offset len ihv ihx iho =>
    obtain ⟨hv, hx, ho, hindices⟩ := h
    exact sound_rle (ihv hv) (ihx hx) (iho ho) hindices

end EncodedSearch
