/-
Bulk reads and equality searches of a well-formed tree.

* `Node.ReadsWindows` — `readInto` yields the values the point reads give;
* `Node.GathersMatches` — `eqInto` hands its sink the offsets of the needle, in
  order, whatever the sink;
* `wellFormed_readsWindows`, `wellFormed_gathersMatches` — both of every
  well-formed tree, by induction over the tree.  The window of a node over runs,
  chunks or blocks is cut into pieces that lie one behind another, and each
  piece carries the buffer, or the sink, over its own positions.
-/
import VortexRdf.NodeValues

open Bisect Buffers

namespace EncodedSearch

variable (fl : FastLanes)

-- The equations of the two recursions, made once here and not by each proof that unfolds them.
section
attribute [local simp] Node.readInto Node.eqInto
end

/-- A bulk read of any window yields its values. -/
def Node.ReadsWindows (n : Node) : Prop :=
  ∀ start (out : List ℕ), start + out.length ≤ n.len →
    n.readInto fl start out = some (valuesFrom (n.value fl) start out.length)

/-- An equality search of any window gathers its matches. -/
def Node.GathersMatches (n : Node) : Prop :=
  ∀ (σ : Type) [EqSink σ] [LawfulEqSink σ] (start len needle base : ℕ) (s : σ),
    start + len ≤ n.len →
    n.eqInto fl start len needle base s = some (gather (n.value fl) needle start len base s)

variable {fl}

/-- Bulk reads, from the column the point reads give; an empty read is not
dispatched. -/
theorem Node.ReadsWindows.of_column {n : Node} {f : ℕ → ℕ}
    (hf : ∀ i, i < n.len → n.valueAt fl i = some (f i))
    (h : ∀ start (out : List ℕ), out.length ≠ 0 → start + out.length ≤ n.len →
      n.readInto fl start out = some (valuesFrom f start out.length)) : n.ReadsWindows fl := by
  intro start out hle
  by_cases hz : out.length = 0
  · unfold Node.readInto
    rw [if_pos hz, hz, List.length_eq_zero_iff.mp hz]
    rfl
  · rw [h start out hz hle]
    refine congrArg some (valuesFrom_congr fun k hk => ?_)
    rw [Node.value_of_valueAt (hf _ (by omega))]

theorem Node.GathersMatches.of_column {n : Node} {f : ℕ → ℕ}
    (hf : ∀ i, i < n.len → n.valueAt fl i = some (f i))
    (h : ∀ (σ : Type) [EqSink σ] [LawfulEqSink σ] (start len needle base : ℕ) (s : σ),
      len ≠ 0 → start + len ≤ n.len →
      n.eqInto fl start len needle base s = some (gather f needle start len base s)) :
    n.GathersMatches fl := by
  intro σ _ _ start len needle base s hle
  by_cases hz : len = 0
  · unfold Node.eqInto
    rw [if_pos hz, hz, gather_zero]
  · rw [h σ start len needle base s hz hle]
    refine congrArg some (gather_congr (fun k hk => ?_) s)
    rw [Node.value_of_valueAt (hf _ (by omega))]

/-! ### The pieces of a run-end window -/

section Runs

variable {endAt valueAt : ℕ → Option ℕ} {ends values : ℕ → ℕ} {runs offset len : ℕ}

/-- A run's offsets in the window hold the run's value. -/
def HoldsRun (f : ℕ → ℕ) (start : ℕ) (run : ℕ × ℕ × ℕ) : Prop :=
  run.1 ≤ run.2.1 ∧ ∀ k, run.1 ≤ k → k < run.2.1 → f (start + k) = run.2.2

theorem runsLoop_spec (h : RunsCover ends runs offset len) (hread : ReadsOn endAt ends 0 runs)
    (hvalues : ReadsOn valueAt values 0 runs) {start n : ℕ} (hn : start + n ≤ len) :
    ∀ (left : ℕ) {run p : ℕ}, p ≤ n → left = runs - run →
      (p = n ∨ run = runOf ends runs (start + offset + p)) →
      ∃ pieces, runsLoop endAt valueAt (start + offset) (start + offset + n) left run
          (start + offset + p) = some pieces ∧
        Tiling (fun run : ℕ × ℕ × ℕ => run.1) (fun run => run.2.1 - run.1) n p pieces ∧
        ∀ piece ∈ pieces,
          HoldsRun (fun i => values (runOf ends runs (i + offset))) start piece := by
  intro left
  induction left with
  | zero =>
    intro run p hp hleft hrun
    have hend : p = n := by
      rcases hrun with hrun | hrun
      · exact hrun
      · by_contra hne
        have := @RunsCover.runOf_lt _ _ _ _ h (start + p) (by omega)
        rw [show start + p + offset = start + offset + p by omega] at this
        omega
    subst hend
    exact ⟨[], by rw [runsLoop, if_neg (Nat.lt_irrefl _)], .nil, fun _ hmem => by simp at hmem⟩
  | succ left ih =>
    intro run p hp hleft hrun
    rw [runsLoop]
    by_cases hlt : p < n
    · obtain rfl : run = runOf ends runs (start + offset + p) := by
        rcases hrun with hrun | hrun
        · omega
        · exact hrun
      set run := runOf ends runs (start + offset + p) with hrundef
      have hruns : run < runs := by omega
      have hpoint := h.runOf_point (start + offset + p)
      have hpast : start + offset + p < ends run :=
        Nat.lt_of_not_le (hpoint.after run le_rfl hruns)
      -- The piece of this run: up to its end, or to the window's.
      set stop := max (start + offset + p) (min (ends run) (start + offset + n)) with hstop
      obtain ⟨q, hq⟩ : ∃ q, stop = start + offset + q := ⟨stop - (start + offset), by omega⟩
      have hhold : ∀ k, p ≤ k → k < q → runOf ends runs (start + k + offset) = run := by
        intro k hpk hkq
        apply IsPartitionPoint.unique (h.runOf_point (start + k + offset))
        refine ⟨Nat.zero_le _, hpoint.le, fun r h₀ hr => ?_, fun r hr hrr => ?_⟩
        · exact le_trans (hpoint.before r h₀ hr) (by omega)
        · have := h.ends_ascending.ascendingOn run r (Nat.zero_le _) hr hrr
          omega
      have hnext : q = n ∨ run + 1 = runOf ends runs (start + offset + q) := by
        by_cases hqn : q = n
        · exact .inl hqn
        · right
          have hends : ends run = start + offset + q := by omega
          apply IsPartitionPoint.unique _ (h.runOf_point (start + offset + q))
          refine ⟨Nat.zero_le _, hruns, fun r _ hr => ?_, fun r hr hrr => ?_⟩
          · rw [← hends]
            exact h.ends_ascending.ascendingOn r run (Nat.zero_le _) (by omega) hruns
          · have := h.ends_ascending run r (Nat.zero_le _) hr hrr
            omega
      obtain ⟨pieces, hpieces, htiling, hholds⟩ := @ih (run + 1) q (by omega) (by omega) hnext
      refine ⟨(p, q, values run) :: pieces, ?_, ?_, ?_⟩
      · rw [if_pos (by omega)]
        simp only [hread run (Nat.zero_le _) hruns, hvalues run (Nat.zero_le _) hruns,
          checkedClamp_of_le (show start + offset + p ≤ start + offset + n by omega),
          Option.bind_eq_bind, Option.bind_some, ← hstop, hq, hpieces,
          Nat.add_sub_cancel_left]
      · refine .cons_of_eq rfl ?_
        rwa [show p + (q - p) = q by omega]
      · intro piece hpiece
        rcases List.mem_cons.mp hpiece with rfl | hmem
        · refine ⟨show p ≤ q by omega, fun k hpk hkq => ?_⟩
          simp only [hhold k hpk hkq]
        · exact hholds piece hmem
    · obtain rfl : p = n := by omega
      exact ⟨[], by rw [if_neg (Nat.lt_irrefl _)], .nil, fun _ hmem => by simp at hmem⟩

theorem runsIn_spec (h : RunsCover ends runs offset len) (hread : ReadsOn endAt ends 0 runs)
    (hvalues : ReadsOn valueAt values 0 runs) {start n : ℕ} (hn : start + n ≤ len) :
    ∃ pieces, runsIn runs endAt valueAt offset start n = some pieces ∧
      Tiling (fun run : ℕ × ℕ × ℕ => run.1) (fun run => run.2.1 - run.1) n 0 pieces ∧
      ∀ piece ∈ pieces,
        HoldsRun (fun i => values (runOf ends runs (i + offset))) start piece := by
  have hrun : partition runs (atMost endAt (start + offset)) =
      some (runOf ends runs (start + offset)) :=
    bisect_eq (atMost_reads hread) (h.ends_ascending.ascendingOn.downClosedOn_le _)
      (h.runOf_point _)
  have hloop := @runsLoop_spec _ _ _ _ _ _ _ h hread hvalues _ _ hn
    (runs - runOf ends runs (start + offset)) (runOf ends runs (start + offset)) 0
    (Nat.zero_le n) rfl (.inr rfl)
  rw [Nat.add_zero] at hloop
  rw [runsIn, hrun]
  exact hloop

end Runs

/-! ### Bulk reads -/

theorem reads_primitive (w : Words) : (Node.primitive w).ReadsWindows fl := by
  refine .of_column (fun i hi => w.get_reads i (Nat.zero_le i) hi) fun start out hz hle => ?_
  rw [Node.readInto, if_neg hz]
  exact w.readInto_spec hle

theorem reads_constant (value len : ℕ) : (Node.constant value len).ReadsWindows fl := by
  refine @Node.ReadsWindows.of_column fl _ (fun _ => value) (fun _ _ => rfl)
    fun start out hz _ => ?_
  rw [Node.readInto, if_neg hz, valuesFrom_eq_replicate fun k _ => rfl]

/-- A node read one position at a time. -/
theorem reads_pointwise {n : Node} (hn : n.Sound fl)
    (h : ∀ start (out : List ℕ), out.length ≠ 0 → n.readInto fl start out =
      (List.range out.length).mapM fun k => n.valueAt fl (start + k)) : n.ReadsWindows fl := by
  refine .of_column (fun i hi => hn.reads i (Nat.zero_le i) hi) fun start out hz hle => ?_
  rw [h start out hz]
  apply mapM_some
  intro k hk
  have hk' := List.mem_range.mp hk
  exact hn.reads _ (Nat.zero_le _) (by omega)

theorem reads_bitPacked (p : PackedNode) : (Node.bitPacked p).ReadsWindows fl := by
  refine .of_column (fun _ hi => PackedNode.valueAt_eq hi) fun start out hz hle => ?_
  rw [Node.readInto, if_neg hz]
  exact PackedNode.packedReadInto_spec hle

variable {child : Node}

theorem reads_foR {reference : ℕ} (hc : child.Sound fl)
    (h : ∀ i, i < child.len → reference + child.value fl i ≤ u64Max)
    (hr : child.ReadsWindows fl) : (Node.foR reference child).ReadsWindows fl := by
  refine .of_column (fun _ hi => foR_valueAt hc h hi) fun start out hz hle => ?_
  rw [Node.readInto, if_neg hz, hr start out hle]
  simp only [Option.bind_eq_bind, Option.bind_some, valuesFrom_map]
  refine congrArg some (valuesFrom_congr fun k hk => saturatingAdd_eq (h _ ?_))
  exact lt_of_lt_of_le (by omega) hle

theorem reads_chunkedFoR {references : Node} {offset : ℕ} (hr : references.Sound fl)
    (hc : child.Sound fl) (h : ∀ i, i < child.len → (offset + i) / FL_CHUNK < references.len)
    (hread : child.ReadsWindows fl) :
    (Node.chunkedFoR references offset child).ReadsWindows fl := by
  refine .of_column (fun i hi => chunkedForValueAt_eq hr hc hi (h i hi)) fun start out hz hle => ?_
  rw [Node.readInto, if_neg hz, hread start out hle]
  simp only [Option.bind_eq_bind, Option.bind_some]
  apply mapM_zipIdx_valuesFrom
  intro k hk
  have hcover := h (start + k) (lt_of_lt_of_le (by omega) hle)
  rw [Nat.add_assoc offset, hr.reads _ (Nat.zero_le _) hcover, Option.map_some]

theorem reads_slice {place len : ℕ} (hc : child.Sound fl)
    (h : place + len ≤ child.len) (hr : child.ReadsWindows fl) :
    (Node.slice child place len).ReadsWindows fl := by
  refine .of_column (fun _ hi => slice_valueAt hc h hi) fun start out hz hle => ?_
  have hle' : start + out.length ≤ len := hle
  rw [Node.readInto, if_neg hz, hr (place + start) out (by omega)]
  exact congrArg some (valuesFrom_congr fun k _ => by rw [Nat.add_assoc])

theorem reads_dict {codes values : Node} (hc : codes.Sound fl) (hv : values.Sound fl)
    (h : ∀ i, i < codes.len → codes.value fl i < values.len) (hr : codes.ReadsWindows fl) :
    (Node.dict codes values).ReadsWindows fl := by
  refine .of_column (fun i hi => dictValueAt_eq hc hv hi (h i hi)) fun start out hz hle => ?_
  rw [Node.readInto, if_neg hz, hr start out hle]
  simp only [Option.bind_eq_bind, Option.bind_some]
  exact mapM_valuesFrom fun k hk =>
    hv.reads _ (Nat.zero_le _) (h _ (lt_of_lt_of_le (by omega) hle))

theorem reads_runEnd {ends values : Node} {offset len : ℕ} (he : ends.Sound fl)
    (hv : values.Sound fl) (hpair : ends.len = values.len)
    (h : RunsCover (ends.value fl) ends.len offset len) :
    (Node.runEnd ends values offset len).ReadsWindows fl := by
  refine .of_column (fun _ hi => runEnd_valueAt he hv hpair h hi) fun start out hz hle => ?_
  obtain ⟨pieces, hpieces, htiling, hholds⟩ := runsIn_spec h he.reads
    (fun k h₁ h₂ => hv.reads k h₁ (by omega)) hle
  rw [Node.readInto, if_neg hz, hpieces]
  simp only [Option.bind_eq_bind, Option.bind_some]
  rw [← filled_length_self, ← filled_zero _ start out]
  refine htiling.foldlM fun piece hpiece hend => ?_
  obtain ⟨hrun, hvalue⟩ := hholds piece hpiece
  have hsize := List.length_replicate (n := piece.2.1 - piece.1) (a := piece.2.2)
  conv_rhs => rw [← hsize]
  refine writeAt_filled (by rw [hsize]; exact hend) ?_
  rw [hsize, valuesFrom_eq_replicate]
  intro k hk
  have := hvalue (piece.1 + k) (Nat.le_add_right _ _) (by omega)
  simpa only [Nat.add_assoc] using this

/-! ### The pieces of a chunked window -/

section Chunks

variable {count : ℕ} {start size : Fin count → ℕ} {len : ℕ}

/-- A window's piece lies in its chunk, at the window's rows. -/
def InChunk (start size : Fin count → ℕ) (lo : ℕ) (window : Fin count × ℕ × ℕ × ℕ) : Prop :=
  window.2.1 + window.2.2.1 ≤ size window.1 ∧ start window.1 + window.2.1 = lo + window.2.2.2

theorem chunkWindowsLoop_spec (h : ChunksFollow start size len) {lo n : ℕ} (hn : lo + n ≤ len) :
    ∀ (left : ℕ) {c done : ℕ}, done ≤ n → left = count - c →
      (done = n ∨ ∃ hc : c < count, start ⟨c, hc⟩ ≤ lo + done ∧
        lo + done < start ⟨c, hc⟩ + size ⟨c, hc⟩) →
      ∃ windows, chunkWindowsLoop start size lo n left c done = some windows ∧
        Tiling (fun w : Fin count × ℕ × ℕ × ℕ => w.2.2.2) (fun w => w.2.2.1) n done windows ∧
        ∀ w ∈ windows, InChunk start size lo w := by
  intro left
  induction left with
  | zero =>
    intro c done hdone hleft hc
    obtain rfl : done = n := by
      rcases hc with hc | ⟨hc, -⟩
      · exact hc
      · omega
    exact ⟨[], rfl, .nil, fun _ hmem => by simp at hmem⟩
  | succ left ih =>
    intro c done hdone hleft hc
    have hlt : c < count := by omega
    rw [chunkWindowsLoop, dif_pos hlt]
    by_cases hd : done < n
    · obtain ⟨hlo, hhi⟩ : start ⟨c, hlt⟩ ≤ lo + done ∧
          lo + done < start ⟨c, hlt⟩ + size ⟨c, hlt⟩ := by
        rcases hc with hc | ⟨hc, hwin⟩
        · omega
        · exact hwin
      set take := min (size ⟨c, hlt⟩ - (lo + done - start ⟨c, hlt⟩)) (n - done) with htake
      have hle : done + take ≤ n := by omega
      have hleft' : left = count - (c + 1) := by omega
      have hnext : done + take = n ∨ ∃ hc' : c + 1 < count, start ⟨c + 1, hc'⟩ ≤ lo + (done + take) ∧
          lo + (done + take) < start ⟨c + 1, hc'⟩ + size ⟨c + 1, hc'⟩ := by
        by_cases hend : done + take = n
        · exact .inl hend
        · right
          -- The window passes the chunk's end, where the next chunk begins.
          have hborder := h.next ⟨c, hlt⟩
          by_cases hc' : c + 1 < count
          · have hstart := ChunksFollow.chunkBound_eq start len ⟨c + 1, hc'⟩
            have hheld := h.held ⟨c + 1, hc'⟩
            simp only at hborder hstart
            exact ⟨hc', by omega, by omega⟩
          · rw [chunkBound, dif_neg hc'] at hborder
            omega
      obtain ⟨windows, hwindows, htiling, hin⟩ := ih hle hleft' hnext
      refine ⟨(⟨c, hlt⟩, lo + done - start ⟨c, hlt⟩, take, done) :: windows, ?_,
        .cons_of_eq rfl htiling, ?_⟩
      · rw [if_pos hd]
        simp only [checkedSub_of_le hlo, checkedSub_of_le
          (show lo + done - start ⟨c, hlt⟩ ≤ size ⟨c, hlt⟩ by omega), Option.bind_eq_bind,
          Option.bind_some, ← htake, hwindows]
      · intro w hw
        rcases List.mem_cons.mp hw with rfl | hw
        · refine ⟨?_, ?_⟩ <;> simp only <;> omega
        · exact hin w hw
    · obtain rfl : done = n := by omega
      exact ⟨[], by rw [if_neg (Nat.lt_irrefl _)], .nil, fun _ hmem => by simp at hmem⟩

theorem chunkWindows_spec (h : ChunksFollow start size len) {lo n : ℕ} (hpos : n ≠ 0)
    (hn : lo + n ≤ len) :
    ∃ windows, chunkWindows start size lo n = some windows ∧
      Tiling (fun w : Fin count × ℕ × ℕ × ℕ => w.2.2.2) (fun w => w.2.2.1) n 0 windows ∧
      ∀ w ∈ windows, InChunk start size lo w := by
  obtain ⟨c, hlo, hhi⟩ := h.exists_chunk (show lo < len by omega)
  have hloop := @chunkWindowsLoop_spec _ _ _ _ h _ _ hn (count - c) c 0 (Nat.zero_le n) rfl
    (.inr ⟨c.isLt, hlo, hhi⟩)
  rw [chunkWindows, h.partition_eq hlo hhi]
  simp only [checkedSub_of_le (Nat.le_add_left 1 _), Option.bind_eq_bind, Option.bind_some,
    Nat.add_sub_cancel]
  exact hloop

end Chunks

theorem reads_chunked {count : ℕ} {start : Fin count → ℕ} {node : Fin count → Node} {len : ℕ}
    (h : ChunksFollow start (fun c => (node c).len) len) (hn : ∀ c, (node c).Sound fl)
    (hr : ∀ c, (node c).ReadsWindows fl) : (Node.chunked count start node len).ReadsWindows fl := by
  refine .of_column (fun i hi => (sound_chunked h hn).reads i (Nat.zero_le i) hi)
    fun lo out hz hle => ?_
  obtain ⟨windows, hwindows, htiling, hin⟩ := chunkWindows_spec h hz hle
  rw [Node.readInto, if_neg hz, hwindows]
  simp only [Option.bind_eq_bind, Option.bind_some]
  rw [← filled_length_self, ← filled_zero _ lo out]
  refine htiling.foldlM fun w hw hend => ?_
  obtain ⟨hfit, hplace⟩ := hin w hw
  have hfit' : w.2.1 + w.2.2.1 ≤ (node w.1).len := hfit
  have hpart := sliceOf_eq (Nat.le_add_right w.2.2.2 w.2.2.1) (show w.2.2.2 + w.2.2.1 ≤
    (filled ((Node.chunked count start node len).value fl) lo out w.2.2.2).length by
      rw [filled_length _ _ (by omega)]; exact hend)
  rw [Nat.add_sub_cancel_left] at hpart
  have hlen := List.length_take_of_le (show w.2.2.1 ≤ ((filled
    ((Node.chunked count start node len).value fl) lo out w.2.2.2).drop w.2.2.2).length by
      rw [List.length_drop, filled_length _ _ (by omega)]; omega)
  simp only [hpart, Option.bind_some]
  rw [hr w.1 w.2.1 _ (by rw [hlen]; exact hfit), hlen]
  have hvalues : valuesFrom ((node w.1).value fl) w.2.1 w.2.2.1 = valuesFrom
      ((Node.chunked count start node len).value fl) (lo + w.2.2.2) w.2.2.1 := by
    apply valuesFrom_congr
    intro k hk
    rw [← hplace, Nat.add_assoc, chunked_value h hn w.1 (by omega)]
  rw [hvalues]
  have hwrite := @writeAt_filled _ ((Node.chunked count start node len).value fl) lo out
    (valuesFrom ((Node.chunked count start node len).value fl) (lo + w.2.2.2) w.2.2.1) w.2.2.2
  rw [valuesFrom_length] at hwrite
  exact hwrite hend rfl

/-! ### Delta blocks copied, patches written over -/

theorem deltaCopy_spec {block : ℕ → Option (List ℕ)} {blocks : ℕ → List ℕ} {first : ℕ}
    {out : List ℕ} (hlen : ∀ b, (blocks b).length = FL_CHUNK)
    (hblock : ∀ k, k < out.length → block ((first + k) / FL_CHUNK) =
      some (blocks ((first + k) / FL_CHUNK))) :
    ∀ (fuel : ℕ) {done : ℕ}, done ≤ out.length → out.length - done ≤ fuel →
      deltaCopy block fuel (first + done) done (filled (blockColumn blocks) first out done) =
        some (valuesFrom (blockColumn blocks) first out.length) := by
  intro fuel
  induction fuel with
  | zero =>
    intro done hdone hfuel
    obtain rfl : done = out.length := by omega
    rw [filled_length_self]
    rfl
  | succ fuel ih =>
    intro done hdone hfuel
    rw [deltaCopy, filled_length _ _ hdone]
    split_ifs with hlt
    · set take := min (FL_CHUNK - (first + done) % FL_CHUNK) (out.length - done) with htake
      have hmod : (first + done) % FL_CHUNK < FL_CHUNK := Nat.mod_lt _ (by decide)
      have hpart := @slice_block blocks ((first + done) / FL_CHUNK)
        ((first + done) % FL_CHUNK) ((first + done) % FL_CHUNK + take) (hlen _)
        (Nat.le_add_right _ _) (by omega)
      rw [Nat.add_sub_cancel_left, Nat.mul_comm, Nat.div_add_mod] at hpart
      have hwrite := @writeAt_filled _ (blockColumn blocks) first out
        (valuesFrom (blockColumn blocks) (first + done) take) done
      rw [valuesFrom_length] at hwrite
      have hrest := @ih (done + take) (by omega) (by omega)
      rw [← Nat.add_assoc] at hrest
      simp only [hblock done hlt, hpart, hwrite (by omega) rfl, hrest, Option.bind_eq_bind,
        Option.bind_some]
    · obtain rfl : done = out.length := by omega
      rw [filled_length_self]

theorem reads_delta {bases deltas : Node} {width : WordWidth} {offset len : ℕ}
    (hb : bases.Sound fl) (hd : deltas.Sound fl)
    (h : DeltaBlocks bases.len deltas.len width offset len) :
    (Node.delta bases deltas width offset len).ReadsWindows fl := by
  refine .of_column (fun _ hi => deltaValueAt_eq hb hd h hi) fun start out hz hle => ?_
  have hle' : start + out.length ≤ len := hle
  rw [Node.readInto, if_neg hz]
  have hcopy := @deltaCopy_spec (deltaBlock fl (bases.valueAt fl) (deltas.valueAt fl) width offset len)
    (deltaValues fl (bases.value fl) (deltas.value fl) width) (offset + start) out
    (deltaValues_length _ _ _) (fun k hk => deltaBlock_eq hb hd h (lt_divCeil (by decide) (by omega)))
    out.length 0 (Nat.zero_le _) (Nat.sub_le _ _)
  rw [filled_zero, Nat.add_zero] at hcopy
  rw [hcopy]
  exact congrArg some (valuesFrom_congr fun k _ => by rw [Nat.add_assoc]; rfl)

section Patches

variable {indices values : Node} {offset : ℕ}

/-- Patches behind the window change nothing in it. -/
theorem patchedValue_of_past {keys replacement : ℕ → ℕ} {m patches i : ℕ} (f : ℕ → ℕ)
    (hm : m ≤ patches) (h : ∀ place, m ≤ place → place < patches → keys place ≠ i + offset) :
    patchedValue keys replacement patches offset f i = patchedValue keys replacement m offset f i := by
  obtain ⟨d, rfl⟩ : ∃ d, patches = m + d := ⟨patches - m, by omega⟩
  rw [patchedValue, patchedValue]
  congr 2
  rw [patchOf, patchOf, List.range_add, List.find?_append]
  rw [show ((List.range d).map (m + ·)).find? (fun place => decide (keys place = i + offset)) = none
    from List.find?_eq_none.mpr fun place hplace => by
      obtain ⟨k, hk, rfl⟩ := List.mem_map.mp hplace
      simpa using h (m + k) (Nat.le_add_right _ _) (by have := List.mem_range.mp hk; omega)]
  exact Option.or_none

theorem overwriteLoop_spec (hx : indices.Sound fl) (hv : values.Sound fl)
    (hasc : StrictAscendingOn (indices.value fl) 0 indices.len) (hpair : values.len = indices.len)
    (f : ℕ → ℕ) {start len : ℕ} :
    ∀ (left : ℕ) {place : ℕ}, place + left = indices.len →
      (∀ q, place ≤ q → q < indices.len → start + offset ≤ indices.value fl q) →
      overwriteLoop (indices.valueAt fl) (values.valueAt fl) (start + offset) (start + offset + len)
          left place (valuesFrom (patchedValue (indices.value fl) (values.value fl) place offset f)
            start len) =
        some (valuesFrom (patchedValue (indices.value fl) (values.value fl) indices.len offset f)
          start len) := by
  intro left
  induction left with
  | zero =>
    intro place hplace _
    obtain rfl : place = indices.len := by omega
    rfl
  | succ left ih =>
    intro place hplace hge
    have hlt : place < indices.len := by omega
    rw [overwriteLoop, hx.reads place (Nat.zero_le _) hlt]
    simp only [Option.bind_eq_bind, Option.bind_some]
    split_ifs with hstop
    · -- Every patch from here on lies behind the window.
      refine congrArg some (valuesFrom_congr fun k hk => (patchedValue_of_past f (by omega) ?_).symm)
      intro q hq hqlt heq
      have := hasc.ascendingOn place q (Nat.zero_le _) hq hqlt
      omega
    · have hkey := hge place le_rfl hlt
      have hprefix : StrictAscendingOn (indices.value fl) 0 (place + 1) :=
        fun i j h₁ h₂ h₃ => hasc i j h₁ h₂ (by omega)
      set k := indices.value fl place - (start + offset) with hk
      have hnew : patchedValue (indices.value fl) (values.value fl) (place + 1) offset f (start + k) =
          values.value fl place := by
        rw [patchedValue, patchOf_succ hprefix, if_pos (by omega)]
        rfl
      have hwrite := @writeAt_singleton _ len
        (patchedValue (indices.value fl) (values.value fl) place offset f) start
        (patchedValue (indices.value fl) (values.value fl) (place + 1) offset f) k
        (by omega) (fun j hj hjk => by
          rw [patchedValue, patchedValue, patchOf_succ hprefix, if_neg (by omega)])
      rw [hnew] at hwrite
      simp only [checkedSub_of_le hkey, hv.reads place (Nat.zero_le _) (by omega), ← hk, hwrite,
        Option.bind_some]
      exact ih (by omega) fun q hq hqlt => hge q (by omega) hqlt

theorem patchOverwrite_spec (hx : indices.Sound fl) (hv : values.Sound fl)
    (hasc : StrictAscendingOn (indices.value fl) 0 indices.len) (hpair : values.len = indices.len)
    (f : ℕ → ℕ) (start len : ℕ) :
    patchOverwrite indices.len (indices.lowerBound fl) (indices.valueAt fl) (values.valueAt fl)
        offset start (valuesFrom f start len) =
      some (valuesFrom (patchedValue (indices.value fl) (values.value fl) indices.len offset f)
        start len) := by
  obtain ⟨place, hplace, hpoint⟩ := hx.lower hasc.ascendingOn (start + offset)
  -- No patch before the first one searched for lies in the window.
  have hnone : valuesFrom f start len = valuesFrom
      (patchedValue (indices.value fl) (values.value fl) place offset f) start len := by
    apply valuesFrom_congr
    intro k _
    rw [patchedValue, patchOf_eq_none]
    · rfl
    · intro q hq heq
      have := hpoint.before q (Nat.zero_le _) hq
      omega
  rw [patchOverwrite, hplace, valuesFrom_length, hnone]
  refine overwriteLoop_spec hx hv hasc hpair f (indices.len - place) ?_ fun q hq hqlt => ?_
  · have := hpoint.le
    omega
  · exact Nat.le_of_not_lt (hpoint.after q hq hqlt)

end Patches

theorem reads_patched {p : PackedNode} {indices values : Node} {offset : ℕ}
    (hx : indices.Sound fl) (hv : values.Sound fl)
    (h : PatchesAscend (indices.value fl) indices.len values.len offset p.len) :
    (Node.patched p indices values offset).ReadsWindows fl := by
  refine .of_column (fun _ hi => patchedValueAt_eq hx hv h hi) fun start out hz hle => ?_
  rw [Node.readInto, if_neg hz, PackedNode.packedReadInto_spec hle]
  exact patchOverwrite_spec hx hv h.ascending h.paired _ _ _

theorem reads_sparse {fill : ℕ} {indices values : Node} {offset len : ℕ}
    (hx : indices.Sound fl) (hv : values.Sound fl)
    (h : PatchesAscend (indices.value fl) indices.len values.len offset len) :
    (Node.sparse fill indices values offset len).ReadsWindows fl := by
  refine .of_column (fun _ _ => sparseValueAt_eq hx hv h) fun start out hz _ => ?_
  have hfill : List.replicate out.length fill = valuesFrom (fun _ => fill) start out.length :=
    (valuesFrom_eq_replicate fun _ _ => rfl).symm
  rw [Node.readInto, if_neg hz, hfill]
  exact patchOverwrite_spec hx hv h.ascending h.paired _ _ _

/-- **A bulk read of any window of a well-formed tree yields the values its
point reads give.** -/
theorem wellFormed_readsWindows {n : Node} (h : n.WellFormed fl) : n.ReadsWindows fl := by
  induction n with
  | primitive w => exact reads_primitive w
  | constant value len => exact reads_constant value len
  | sequence base multiplier len =>
    exact reads_pointwise (wellFormed_sound h) fun _ _ hz => by rw [Node.readInto, if_neg hz]
  | runEnd ends values offset len =>
    obtain ⟨he, hv, hpair, hruns⟩ := h
    exact reads_runEnd (wellFormed_sound he) (wellFormed_sound hv) hpair hruns
  | foR reference child ih => exact reads_foR (wellFormed_sound h.1) h.2 (ih h.1)
  | chunkedFoR references offset child _ ih =>
    obtain ⟨hr, hc, -, hcover⟩ := h
    exact reads_chunkedFoR (wellFormed_sound hr) (wellFormed_sound hc) hcover (ih hc)
  | bitPacked p => exact reads_bitPacked p
  | patched p indices values offset =>
    obtain ⟨hx, hv, -, hpatches⟩ := h
    exact reads_patched (wellFormed_sound hx) (wellFormed_sound hv) hpatches
  | slice child start len ih => exact reads_slice (wellFormed_sound h.1) h.2 (ih h.1)
  | chunked count start node len ih =>
    exact reads_chunked h.2 (fun c => wellFormed_sound (h.1 c)) fun c => ih c (h.1 c)
  | dict codes values ih =>
    obtain ⟨hc, hv, hcodes⟩ := h
    exact reads_dict (wellFormed_sound hc) (wellFormed_sound hv) hcodes (ih hc)
  | delta bases deltas width offset len =>
    obtain ⟨hb, hd, hblocks⟩ := h
    exact reads_delta (wellFormed_sound hb) (wellFormed_sound hd) hblocks
  | sparse fill indices values offset len =>
    obtain ⟨hx, hv, -, hpatches⟩ := h
    exact reads_sparse (wellFormed_sound hx) (wellFormed_sound hv) hpatches
  | rle values indices offsets base offset len =>
    exact reads_pointwise (wellFormed_sound h) fun _ _ hz => by rw [Node.readInto, if_neg hz]

/-! ### Equality searches -/

section Gather

variable {σ : Type} [EqSink σ] [LawfulEqSink σ]

/-- A search by reading its window a block at a time gathers its matches. -/
theorem eqIntoReadLoop_spec {read : ℕ → List ℕ → Option (List ℕ)} {f : ℕ → ℕ} {n : ℕ}
    (hread : ∀ start (out : List ℕ), start + out.length ≤ n →
      read start out = some (valuesFrom f start out.length)) {start len : ℕ}
    (hn : start + len ≤ n) (needle base : ℕ) (s : σ) :
    ∀ (fuel : ℕ) {p : ℕ} {block : List ℕ}, p ≤ len → len - p ≤ fuel → block.length = FL_CHUNK →
      eqIntoReadLoop read start (start + len) needle base fuel (start + p) block
          (gather f needle start p base s) =
        some (gather f needle start len base s) := by
  intro fuel
  induction fuel with
  | zero =>
    intro p block hp hfuel _
    obtain rfl : p = len := by omega
    rfl
  | succ fuel ih =>
    intro p block hp hfuel hblock
    rw [eqIntoReadLoop]
    split_ifs with hlt
    · set take := min (start + len - (start + p)) FL_CHUNK with htake
      have hpos : 0 < FL_CHUNK := by decide
      have hlen : (block.take take).length = take := by
        rw [List.length_take, hblock]
        omega
      have hvalues := hread (start + p) (block.take take) (by rw [hlen]; omega)
      rw [hlen] at hvalues
      simp only [hvalues, Option.bind_eq_bind, Option.bind_some]
      rw [show base + (start + p) - start = base + p by omega, matching_valuesFrom, ← gather_add,
        Nat.add_assoc start]
      refine ih (by omega) (by omega) ?_
      rw [List.length_append, valuesFrom_length, List.length_drop, hblock]
      omega
    · obtain rfl : p = len := by omega
      rfl

theorem eqIntoRead_spec {n : Node} (hr : n.ReadsWindows fl) {start len : ℕ}
    (hn : start + len ≤ n.len) (needle base : ℕ) (s : σ) :
    eqIntoRead (n.readInto fl) start len needle base s =
      some (gather (n.value fl) needle start len base s) :=
  eqIntoReadLoop_spec hr hn needle base s len (Nat.zero_le len) (Nat.sub_le len 0)
    (List.length_replicate)

end Gather

/-- A node searched by reading. -/
theorem gathers_read {n : Node} (hs : n.Sound fl) (hr : n.ReadsWindows fl)
    (h : ∀ (σ : Type) [EqSink σ] (start len needle base : ℕ) (s : σ), len ≠ 0 →
      n.eqInto fl start len needle base s =
        eqIntoRead (n.readInto fl) start len needle base s) : n.GathersMatches fl := by
  refine .of_column (fun i hi => hs.reads i (Nat.zero_le i) hi)
    fun σ _ _ start len needle base s hz hle => ?_
  rw [h σ start len needle base s hz]
  exact eqIntoRead_spec hr hle needle base s

theorem gathers_primitive (w : Words) : (Node.primitive w).GathersMatches fl := by
  refine .of_column (fun i hi => w.get_reads i (Nat.zero_le i) hi)
    fun σ _ _ start len needle base s hz hle => ?_
  rw [Node.eqInto, if_neg hz]
  exact w.eqInto_spec hle needle base s

theorem gathers_constant (value len : ℕ) : (Node.constant value len).GathersMatches fl := by
  refine @Node.GathersMatches.of_column fl _ (fun _ => value) (fun _ _ => rfl)
    fun σ _ _ start len needle base s hz hle => ?_
  rw [Node.eqInto, if_neg hz]
  split_ifs with heq
  · rw [gather_run fun k _ => heq]
  · rw [gather_none fun k _ => heq]

theorem gathers_sequence {first multiplier len : ℕ} (hm : 0 < multiplier)
    (h : ∀ i, i < len → first + i * multiplier ≤ u64Max) :
    (Node.sequence first multiplier len).GathersMatches fl := by
  refine .of_column (fun _ hi => sequence_valueAt h hi)
    fun σ _ _ start n needle base s hz hle => ?_
  rw [Node.eqInto, if_neg hz]
  by_cases hfirst : first ≤ needle
  · rw [if_pos hfirst]
    simp only [checkedDiv_of_ne (Nat.ne_of_gt hm), Option.bind_eq_bind, Option.bind_some]
    set place := (needle - first) / multiplier with hplace
    have hdiv := Nat.div_add_mod (needle - first) multiplier
    rw [← hplace, Nat.mul_comm] at hdiv
    -- The needle is at the quotient, if it divides and lies in the window.
    have hat : ∀ i, first + i * multiplier = needle ↔
        (needle - first) % multiplier = 0 ∧ i = place := by
      intro i
      constructor
      · intro heq
        have hstep : needle - first = i * multiplier := by omega
        rw [hplace, hstep]
        exact ⟨Nat.mul_mod_left _ _, (Nat.mul_div_cancel _ hm).symm⟩
      · rintro ⟨hmod, rfl⟩
        omega
    by_cases hin : (needle - first) % multiplier = 0 ∧ start ≤ place ∧ place < start + n
    · obtain ⟨hmod, hlo, hhi⟩ := hin
      rw [if_pos ⟨hmod, hlo, hhi⟩, gather, matchesFrom_singleton (j := place - start) (by omega)]
      · rw [List.foldl_cons, List.foldl_nil, LawfulEqSink.run_eq,
          show base + place - start = base + (place - start) by omega]
        rfl
      · intro k _
        rw [hat]
        omega
    · rw [if_neg hin, gather_none]
      intro k hk heq
      obtain ⟨hmod, hk'⟩ := (hat _).mp heq
      exact hin ⟨hmod, by omega, by omega⟩
  · rw [if_neg hfirst, gather_none]
    intro k _ heq
    omega

theorem gathers_bitPacked (p : PackedNode) : (Node.bitPacked p).GathersMatches fl := by
  refine .of_column (fun _ hi => PackedNode.valueAt_eq hi)
    fun σ _ _ start len needle base s hz hle => ?_
  rw [Node.eqInto, if_neg hz]
  exact PackedNode.packedEqInto_spec hle needle base s

theorem gathers_foR {reference : ℕ} (hc : child.Sound fl)
    (h : ∀ i, i < child.len → reference + child.value fl i ≤ u64Max)
    (hg : child.GathersMatches fl) : (Node.foR reference child).GathersMatches fl := by
  refine .of_column (fun _ hi => foR_valueAt hc h hi)
    fun σ _ _ start len needle base s hz hle => ?_
  rw [Node.eqInto, if_neg hz]
  split_ifs with hle'
  · rw [hg σ start len (needle - reference) base s hle]
    exact congrArg some (gather_congr (fun k _ => by omega) s)
  · rw [gather_none fun k _ heq => by omega]

theorem gathers_slice {place len : ℕ} (hc : child.Sound fl)
    (h : place + len ≤ child.len) (hg : child.GathersMatches fl) :
    (Node.slice child place len).GathersMatches fl := by
  refine .of_column (fun _ hi => slice_valueAt hc h hi)
    fun σ _ _ start n needle base s hz hle => ?_
  have hle' : start + n ≤ len := hle
  rw [Node.eqInto, if_neg hz, hg σ (place + start) n needle base s (by omega)]
  exact congrArg some (gather_congr (fun k _ => by rw [Nat.add_assoc]) s)

theorem gathers_runEnd {ends values : Node} {offset len : ℕ} (he : ends.Sound fl)
    (hv : values.Sound fl) (hpair : ends.len = values.len)
    (h : RunsCover (ends.value fl) ends.len offset len) :
    (Node.runEnd ends values offset len).GathersMatches fl := by
  refine .of_column (fun _ hi => runEnd_valueAt he hv hpair h hi)
    fun σ _ _ start n needle base s hz hle => ?_
  obtain ⟨pieces, hpieces, htiling, hholds⟩ := runsIn_spec h he.reads
    (fun k h₁ h₂ => hv.reads k h₁ (by omega)) hle
  rw [Node.eqInto, if_neg hz, hpieces]
  simp only [Option.bind_eq_bind, Option.bind_some, Option.some_inj]
  set f := fun i => values.value fl (runOf (ends.value fl) ends.len (i + offset)) with hf
  refine @Tiling.foldl _ _ _ _ _ _ _ _ (fun p => gather f needle start p base s) htiling
    fun piece hpiece hend => ?_
  obtain ⟨hrun, hvalue⟩ := hholds piece hpiece
  have hpiece' : ∀ k, k < piece.2.1 - piece.1 → f (start + piece.1 + k) = piece.2.2 := by
    intro k hk
    rw [Nat.add_assoc]
    exact hvalue (piece.1 + k) (Nat.le_add_right _ _) (by omega)
  rw [gather_add]
  split_ifs with heq
  · rw [gather_run fun k hk => (hpiece' k hk).trans heq,
      show base + piece.1 + (piece.2.1 - piece.1) = base + piece.2.1 by omega]
  · rw [gather_none fun k hk => fun hk' => heq ((hpiece' k hk).symm.trans hk')]

theorem gathers_chunked {count : ℕ} {start : Fin count → ℕ} {node : Fin count → Node} {len : ℕ}
    (h : ChunksFollow start (fun c => (node c).len) len) (hn : ∀ c, (node c).Sound fl)
    (hg : ∀ c, (node c).GathersMatches fl) :
    (Node.chunked count start node len).GathersMatches fl := by
  refine .of_column (fun i hi => (sound_chunked h hn).reads i (Nat.zero_le i) hi)
    fun σ _ _ lo n needle base s hz hle => ?_
  obtain ⟨windows, hwindows, htiling, hin⟩ := chunkWindows_spec h hz hle
  rw [Node.eqInto, if_neg hz, hwindows]
  simp only [Option.bind_eq_bind, Option.bind_some]
  refine @Tiling.foldlM _ _ _ _ _ _ _ _ (fun p => gather
    ((Node.chunked count start node len).value fl) needle lo p base s) htiling fun w hw hend => ?_
  obtain ⟨hfit, hplace⟩ := hin w hw
  have hfit' : w.2.1 + w.2.2.1 ≤ (node w.1).len := hfit
  rw [hg w.1 σ w.2.1 w.2.2.1 needle (base + w.2.2.2) _ hfit', gather_add]
  refine congrArg some (gather_congr (fun k hk => ?_) _)
  rw [← hplace, Nat.add_assoc, chunked_value h hn w.1 (by omega)]

/-- The codes a dictionary holds a needle under. -/
theorem codeOf_gather (f : ℕ → ℕ) (needle len : ℕ) :
    (gather f needle 0 len 0 CodeOf.none = .none ∧ ∀ c, c < len → f c ≠ needle) ∨
    (∃ code, gather f needle 0 len 0 CodeOf.none = .one code ∧ code < len ∧
      ∀ c, c < len → (f c = needle ↔ c = code)) ∨
    gather f needle 0 len 0 CodeOf.none = .several := by
  have hmem : ∀ c, c ∈ matchesFrom f needle 0 len 0 ↔ c < len ∧ f c = needle := by
    intro c
    rw [mem_matchesFrom]
    constructor
    · rintro ⟨k, hk, hfk, rfl⟩
      simpa [hk] using hfk
    · rintro ⟨hc, hfc⟩
      exact ⟨c, hc, by simpa using hfc, by simp⟩
  have hgather : gather f needle 0 len 0 CodeOf.none =
      (matchesFrom f needle 0 len 0).foldl (fun s c => CodeOf.add c s) CodeOf.none := rfl
  rw [hgather, CodeOf.foldl_none]
  rcases hm : matchesFrom f needle 0 len 0 with _ | ⟨code, _ | ⟨code', rest⟩⟩
  · refine .inl ⟨rfl, fun c hc hfc => ?_⟩
    have := (hmem c).mpr ⟨hc, hfc⟩
    rw [hm] at this
    exact List.not_mem_nil this
  · refine .inr (.inl ⟨code, rfl, ?_, fun c hc => ?_⟩)
    · exact ((hmem code).mp (by rw [hm]; exact List.mem_singleton_self code)).1
    · rw [← List.mem_singleton (a := c), ← hm, hmem]
      exact ⟨fun hfc => ⟨hc, hfc⟩, fun hfc => hfc.2⟩
  · exact .inr (.inr rfl)

theorem gathers_dict {codes values : Node} (hc : codes.Sound fl) (hv : values.Sound fl)
    (h : ∀ i, i < codes.len → codes.value fl i < values.len) (hr : codes.ReadsWindows fl)
    (hgc : codes.GathersMatches fl) (hgv : values.GathersMatches fl) :
    (Node.dict codes values).GathersMatches fl := by
  have hread := reads_dict hc hv h hr
  have hsound := sound_dict hc hv h
  refine .of_column (fun i hi => hsound.reads i (Nat.zero_le i) hi)
    fun σ _ _ start len needle base s hz hle => ?_
  have hreading := @eqIntoRead_spec fl σ _ _ _ hread _ _ hle needle base s
  have hcode : ∀ k, k < len → (Node.dict codes values).value fl (start + k) =
      values.value fl (codes.value fl (start + k)) := fun k hk => by
    have hin : start + k < codes.len := lt_of_lt_of_le (by omega) hle
    exact Node.value_of_valueAt (dictValueAt_eq hc hv hin (h _ hin))
  rw [Node.eqInto, if_neg hz]
  split_ifs with hsmall
  · rw [hgv CodeOf 0 values.len needle 0 CodeOf.none (by omega)]
    simp only [Option.bind_eq_bind, Option.bind_some]
    rcases codeOf_gather (values.value fl) needle values.len with
      ⟨hg, hno⟩ | ⟨code, hg, hlt, hone⟩ | hg
    · rw [hg]
      simp only
      rw [gather_none fun k hk heq => ?_]
      have hin : start + k < codes.len := lt_of_lt_of_le (by omega) hle
      exact hno _ (h _ hin) ((hcode k hk).symm.trans heq)
    · rw [hg]
      simp only
      rw [hgc σ start len code base s hle]
      refine congrArg some (gather_congr (fun k hk => ?_) s)
      have hin : start + k < codes.len := lt_of_lt_of_le (by omega) hle
      rw [hcode k hk, hone _ (h _ hin)]
    · rw [hg]
      exact hreading
  · exact hreading

/-- **An equality search of any window of a well-formed tree hands its sink the
offsets of the needle, in ascending order, each once.** -/
theorem wellFormed_gathersMatches {n : Node} (h : n.WellFormed fl) : n.GathersMatches fl := by
  induction n with
  | primitive w => exact gathers_primitive w
  | constant value len => exact gathers_constant value len
  | sequence base multiplier len => exact gathers_sequence h.2.1 h.2.2
  | runEnd ends values offset len =>
    obtain ⟨he, hv, hpair, hruns⟩ := h
    exact gathers_runEnd (wellFormed_sound he) (wellFormed_sound hv) hpair hruns
  | foR reference child ih => exact gathers_foR (wellFormed_sound h.1) h.2 (ih h.1)
  | bitPacked p => exact gathers_bitPacked p
  | slice child start len ih => exact gathers_slice (wellFormed_sound h.1) h.2 (ih h.1)
  | chunked count start node len ih =>
    exact gathers_chunked h.2 (fun c => wellFormed_sound (h.1 c)) fun c => ih c (h.1 c)
  | dict codes values ihc ihv =>
    obtain ⟨hc, hv, hcodes⟩ := h
    exact gathers_dict (wellFormed_sound hc) (wellFormed_sound hv) hcodes
      (wellFormed_readsWindows hc) (ihc hc) (ihv hv)
  | chunkedFoR _ _ _ | patched _ _ _ _ | delta _ _ _ _ _ | sparse _ _ _ _ _ | rle _ _ _ _ _ _ =>
    exact gathers_read (wellFormed_sound h) (wellFormed_readsWindows h)
      fun _ _ _ _ _ _ _ hz => by rw [Node.eqInto, if_neg hz] <;> simp

end EncodedSearch
