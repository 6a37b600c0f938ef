/-
Resolution of a chunked array into a probe tree (`encoded-search/src/resolve.rs`).

Consecutive chunks that are contiguous slices of one parent become one slice of it, and
empty chunks are dropped.

* `Encoded`, `Encoded.values` — arrays of chunks and slices over those of other encodings;
* `mergeRun`, `chunksLoop`, `resolveChunked` — the walk over the chunks;
* `Node.Decodes` — a node that holds a list of values;
* `Pieces` — chunks that hold a list of values, one behind another;
* `mergeRun_spec`, `chunksLoop_spec` — what a merged run and the walk hold;
* `chunked_preservesColumn` — the node of a chunked array holds its values.

Other encodings are leaves here, with whatever node they resolve to.
-/
import VortexRdf.NodeValues

namespace EncodedSearch

open Bisect Buffers

variable (fl : FastLanes)

/-- The node holds these values. -/
structure Node.Decodes (n : Node) (values : List ℕ) : Prop where
  wellFormed : n.WellFormed fl
  len : n.len = values.length
  value : ∀ i, i < n.len → values[i]? = some (n.value fl i)

/-- An array of another encoding: its values, and the node it resolves to, if any. -/
structure Plain where
  values : List ℕ
  node : Option Node
  decodes : ∀ n, node = some n → n.Decodes fl values

/-- An encoded array; `unsigned` says whether its type is a non-nullable unsigned one. -/
inductive Encoded where
  | plain (array : Plain fl)
  /-- The rows `start..stop` of the array at an address. -/
  | slice (unsigned : Bool) (addr : ℕ) (parent : Encoded) (start stop : ℕ)
  | shared (source : Encoded)
  | chunked (unsigned : Bool) (chunks : List Encoded)

/-- A slice's parent, by its address and as it resolves, and its rows. -/
structure SliceParts where
  addr : ℕ
  start : ℕ
  stop : ℕ
  parent : Option Node

/-- What the walk over chunks asks of one: its length, its own resolution, and its parts
when it is a slice. -/
structure ChunkView where
  len : ℕ
  node : Option Node
  parts : Option SliceParts

structure Chunk where
  start : ℕ
  node : Node

/-! ### The walk -/

/-- Where each chunk starts: the lengths before it added up. -/
def chunkOffsets : ℕ → List ChunkView → List (ℕ × ChunkView)
  | _, [] => []
  | start, view :: views => (start, view) :: chunkOffsets (start + view.len) views

/-- The run of slices that continue a window ending at `stop` of the array at `addr`:
where the window ends then, and the chunks left. -/
def mergeRun (addr : ℕ) : ℕ → List (ℕ × ChunkView) → ℕ × List (ℕ × ChunkView)
  | stop, [] => (stop, [])
  | stop, next :: rest =>
    match next.2.parts with
    | none => (stop, next :: rest)
    | some parts =>
      if parts.addr ≠ addr ∨ parts.start ≠ stop then (stop, next :: rest)
      else mergeRun addr parts.stop rest

def chunksLoop : ℕ → List (ℕ × ChunkView) → Option (List Chunk)
  | 0, _ => some []
  | _ + 1, [] => some []
  | fuel + 1, (offset, child) :: rest =>
    if child.len = 0 then chunksLoop fuel rest
    else
      match child.parts with
      | some parts => do
        let (stop, rest) := mergeRun parts.addr parts.stop rest
        let parent ← parts.parent
        let chunks ← chunksLoop fuel rest
        some (⟨offset, .slice parent parts.start (stop - parts.start)⟩ :: chunks)
      | none => do
        let node ← child.node
        let chunks ← chunksLoop fuel rest
        some (⟨offset, node⟩ :: chunks)

def chunkedNode (found : List Chunk) (len : ℕ) : Node :=
  .chunked found.length (fun c => (found.get c).start) (fun c => (found.get c).node) len

def totalLen (views : List ChunkView) : ℕ := (views.map ChunkView.len).sum

def resolveChunked (views : List ChunkView) : Option Node :=
  (chunksLoop views.length (chunkOffsets 0 views)).map fun found => chunkedNode found (totalLen views)

variable {fl}

namespace Encoded

mutual

def view : Encoded fl → ChunkView
  | .plain array => ⟨array.values.length, array.node, none⟩
  | .slice unsigned addr parent start stop =>
    let found := parent.view.node
    ⟨stop - start, if unsigned then found.map fun n => .slice n start (stop - start) else none,
      some ⟨addr, start, stop, found⟩⟩
  | .shared source => ⟨source.view.len, source.view.node, none⟩
  | .chunked unsigned chunks =>
    let views := viewAll chunks
    ⟨totalLen views, if unsigned then resolveChunked views else none, none⟩

def viewAll : List (Encoded fl) → List ChunkView
  | [] => []
  | chunk :: chunks => chunk.view :: viewAll chunks

end

/-- `resolve_node` -/
def resolve (array : Encoded fl) : Option Node := array.view.node

mutual

/-- The values an array decodes to. -/
def values : Encoded fl → List ℕ
  | .plain array => array.values
  | .slice _ _ parent start stop => (parent.values.drop start).take (stop - start)
  | .shared source => source.values
  | .chunked _ chunks => valuesAll chunks

def valuesAll : List (Encoded fl) → List ℕ
  | [] => []
  | chunk :: chunks => chunk.values ++ valuesAll chunks

end

/-- An array as it lies in memory: a slice's parent is the array at its address and holds
its rows, and a length is a `u64`. -/
inductive Valid (heap : ℕ → Encoded fl) : Encoded fl → Prop
  | plain (array : Plain fl) : Valid heap (.plain array)
  | slice (unsigned : Bool) (addr start stop : ℕ) (hparent : Valid heap (heap addr))
      (hle : start ≤ stop) (hstop : stop ≤ (heap addr).values.length) :
      Valid heap (.slice unsigned addr (heap addr) start stop)
  | shared (source : Encoded fl) (hsource : Valid heap source) : Valid heap (.shared source)
  | chunked (unsigned : Bool) (chunks : List (Encoded fl)) (hchunks : ∀ chunk ∈ chunks, Valid heap chunk)
      (hlen : (valuesAll chunks).length ≤ u64Max) : Valid heap (.chunked unsigned chunks)

theorem viewAll_eq (chunks : List (Encoded fl)) : viewAll chunks = chunks.map view := by
  induction chunks with
  | nil => rw [viewAll, List.map_nil]
  | cons chunk chunks ih => rw [viewAll, ih, List.map_cons]

theorem valuesAll_eq (chunks : List (Encoded fl)) : valuesAll chunks = (chunks.map values).flatten := by
  induction chunks with
  | nil => rw [valuesAll, List.map_nil, List.flatten_nil]
  | cons chunk chunks ih => rw [valuesAll, ih, List.map_cons, List.flatten_cons]

end Encoded

/-! ### What the nodes hold -/

theorem window_get {values : List ℕ} {start len i : ℕ} (hi : i < len) :
    ((values.drop start).take len)[i]? = values[start + i]? := by
  rw [List.getElem?_take_of_lt hi, List.getElem?_drop]

theorem slice_decodes {n : Node} {values : List ℕ} (hn : n.Decodes fl values) {start stop : ℕ}
    (hle : start ≤ stop) (hstop : stop ≤ values.length) :
    (Node.slice n start (stop - start)).Decodes fl ((values.drop start).take (stop - start)) := by
  have hlen : start + (stop - start) ≤ n.len := by rw [hn.len]; omega
  refine ⟨⟨hn.wellFormed, hlen⟩, ?_, fun i hi => ?_⟩
  · rw [List.length_take, List.length_drop]
    show stop - start = _
    omega
  · have hi' : i < stop - start := hi
    have hread := slice_valueAt (wellFormed_sound hn.wellFormed) hlen hi'
    rw [window_get hi', hn.value _ (by omega), Node.value_of_valueAt hread]

/-- Chunks from `start` on that hold some values between them, none of them empty. -/
def Pieces (fl : FastLanes) : ℕ → List Chunk → List ℕ → Prop
  | _, [], values => values = []
  | start, chunk :: found, values => chunk.start = start ∧ ∃ head tail, values = head ++ tail ∧
      head ≠ [] ∧ chunk.node.Decodes fl head ∧ Pieces fl (start + head.length) found tail

theorem Pieces.sum_len {start : ℕ} {found : List Chunk} {values : List ℕ}
    (h : Pieces fl start found values) : (found.map fun chunk => chunk.node.len).sum = values.length := by
  induction found generalizing start values with
  | nil =>
    obtain rfl : values = [] := h
    rfl
  | cons chunk found ih =>
    obtain ⟨-, head, tail, rfl, -, hhead, htail⟩ := h
    rw [List.map_cons, List.sum_cons, ih htail, hhead.len, List.length_append]

/-- A chunk starts behind the ones before it, and holds the values there. -/
theorem Pieces.get {start : ℕ} {found : List Chunk} {values : List ℕ}
    (h : Pieces fl start found values) {c : ℕ} {chunk : Chunk} (hc : found[c]? = some chunk) :
    chunk.start = start + ((found.take c).map fun chunk => chunk.node.len).sum ∧
      0 < chunk.node.len ∧ chunk.node.WellFormed fl ∧ ∀ i, i < chunk.node.len →
        values[((found.take c).map fun chunk => chunk.node.len).sum + i]? =
          some (chunk.node.value fl i) := by
  induction found generalizing start values c with
  | nil => cases hc
  | cons first found ih =>
    obtain ⟨hstart, head, tail, rfl, hne, hhead, htail⟩ := h
    cases c with
    | zero =>
      obtain rfl : first = chunk := Option.some.inj hc
      refine ⟨hstart, ?_, hhead.wellFormed, fun i hi => ?_⟩
      · rw [hhead.len]
        exact List.length_pos_iff.mpr hne
      · show (head ++ tail)[0 + i]? = _
        rw [Nat.zero_add, List.getElem?_append_left (by rw [← hhead.len]; exact hi), hhead.value i hi]
    | succ c =>
      obtain ⟨hstart', hpos, hwell, hvalues⟩ := ih htail hc
      have hsum : ((List.take (c + 1) (first :: found)).map fun chunk => chunk.node.len).sum =
          head.length + ((found.take c).map fun chunk => chunk.node.len).sum := by
        rw [List.take_succ_cons, List.map_cons, List.sum_cons, hhead.len]
      rw [hsum]
      refine ⟨by rw [hstart']; omega, hpos, hwell, fun i hi => ?_⟩
      rw [Nat.add_assoc, List.getElem?_append_right (Nat.le_add_right _ _), Nat.add_sub_cancel_left]
      exact hvalues i hi

/-- Each chunk starts at the sum of the lengths before it. -/
theorem Pieces.start_eq {found : List Chunk} {values : List ℕ} (h : Pieces fl 0 found values)
    (c : Fin found.length) : (found.get c).start =
      ((found.take c).map fun chunk => chunk.node.len).sum := by
  have hstart := (h.get (List.getElem?_eq_getElem c.isLt)).1
  rwa [Nat.zero_add] at hstart

theorem Pieces.follow {found : List Chunk} {values : List ℕ} (h : Pieces fl 0 found values)
    (hfits : values.length ≤ u64Max) :
    ChunksFollow (fun c => (found.get c).start) (fun c => (found.get c).node.len) values.length := by
  have hnext : ∀ c : Fin found.length, (found.get c).start + (found.get c).node.len =
      ((found.take (c + 1)).map fun chunk => chunk.node.len).sum := by
    intro c
    rw [h.start_eq c, List.take_succ_eq_append_getElem c.isLt, List.map_append, List.sum_append]
    simp
  refine ⟨?_, fun c => ?_, fun c => (h.get (List.getElem?_eq_getElem c.isLt)).2.1, hfits⟩
  · rw [chunkBound]
    split_ifs with hpos
    · rw [h.start_eq ⟨0, hpos⟩]
      rfl
    · have hnil : found = [] := List.length_eq_zero_iff.mp (by omega)
      rw [← h.sum_len, hnil]
      rfl
  · rw [hnext c, chunkBound]
    split_ifs with hlt
    · rw [h.start_eq ⟨c + 1, hlt⟩]
    · rw [← h.sum_len, List.take_of_length_le (by omega)]

theorem chunked_decodes {found : List Chunk} {values : List ℕ} (h : Pieces fl 0 found values)
    (hfits : values.length ≤ u64Max) : (chunkedNode found values.length).Decodes fl values := by
  have hfollow := h.follow hfits
  have hwell : ∀ c : Fin found.length, (found.get c).node.WellFormed fl :=
    fun c => (h.get (List.getElem?_eq_getElem c.isLt)).2.2.1
  refine ⟨⟨hwell, hfollow⟩, rfl, fun i hi => ?_⟩
  have hi' : i < values.length := hi
  obtain ⟨c, hlow, hhigh⟩ := hfollow.exists_chunk hi'
  have hread := chunked_valueAt hfollow (fun c => wellFormed_sound (hwell c)) hlow hhigh
  obtain ⟨-, -, -, hvalues⟩ := h.get (List.getElem?_eq_getElem c.isLt)
  have hvalue := hvalues (i - (found.get c).start) (by rw [← List.get_eq_getElem]; omega)
  rw [← h.start_eq c, Nat.add_sub_cancel' hlow] at hvalue
  rw [hvalue]
  exact congrArg some (Node.value_of_valueAt hread).symm

/-! ### What the walk holds -/

theorem mem_chunkOffsets {views : List ChunkView} {start : ℕ} {next : ℕ × ChunkView}
    (h : next ∈ chunkOffsets start views) : next.2 ∈ views := by
  induction views generalizing start with
  | nil => cases h
  | cons view views ih =>
    rcases List.mem_cons.mp h with rfl | hrest
    · exact List.mem_cons_self
    · exact List.mem_cons_of_mem view (ih hrest)

theorem length_chunkOffsets (views : List ChunkView) (start : ℕ) :
    (chunkOffsets start views).length = views.length := by
  induction views generalizing start with
  | nil => rfl
  | cons view views ih => exact congrArg (· + 1) (ih _)

/-- A view of an array with these values; a slice's are its rows of the array at its
parent's address. -/
structure ChunkView.Holds (heap : ℕ → Encoded fl) (values : List ℕ) (view : ChunkView) : Prop where
  len : view.len = values.length
  node : ∀ n, view.node = some n → n.Decodes fl values
  parts : ∀ parts, view.parts = some parts →
    parts.start ≤ parts.stop ∧ parts.stop ≤ (heap parts.addr).values.length ∧
      values = ((heap parts.addr).values.drop parts.start).take (parts.stop - parts.start) ∧
      ∀ n, parts.parent = some n → n.Decodes fl (heap parts.addr).values

/-- Views from `start` on, of chunks with these values. -/
def Follow (heap : ℕ → Encoded fl) : ℕ → List (ℕ × ChunkView) → List (List ℕ) → Prop
  | _, [], vals => vals = []
  | start, (offset, view) :: views, vals => offset = start ∧ ∃ values rest, vals = values :: rest ∧
      view.Holds heap values ∧ Follow heap (start + values.length) views rest

variable {heap : ℕ → Encoded fl}

variable {vals : List (List ℕ)}

theorem follow_offsets {views : List ChunkView}
    (h : List.Forall₂ (fun view values => view.Holds heap values) views vals) (start : ℕ) :
    Follow heap start (chunkOffsets start views) vals := by
  induction h generalizing start with
  | nil => rfl
  | cons hhead _ ih =>
    refine ⟨rfl, _, _, rfl, hhead, ?_⟩
    rw [hhead.len]
    exact ih _

theorem window_append {values : List ℕ} {a b c : ℕ} (hab : a ≤ b) (hbc : b ≤ c) :
    (values.drop a).take (b - a) ++ (values.drop b).take (c - b) = (values.drop a).take (c - a) := by
  have hsum : c - a = (b - a) + (c - b) := by omega
  have hdrop : values.drop b = (values.drop a).drop (b - a) := by
    rw [List.drop_drop, Nat.add_sub_cancel' hab]
  rw [hsum, hdrop, List.take_add]

variable {views : List (ℕ × ChunkView)}

/-- The merged run holds the parent's rows from the window's end on, and the chunks left
follow behind them. -/
theorem mergeRun_spec {addr stop start : ℕ}
    (h : Follow heap start views vals) (hstop : stop ≤ (heap addr).values.length) :
    ∃ stop' rest merged left, mergeRun addr stop views = (stop', rest) ∧ vals = merged ++ left ∧
      stop ≤ stop' ∧ stop' ≤ (heap addr).values.length ∧
      merged.flatten = ((heap addr).values.drop stop).take (stop' - stop) ∧
      Follow heap (start + merged.flatten.length) rest left ∧ rest.length ≤ views.length := by
  induction views generalizing stop start vals with
  | nil => exact ⟨stop, [], [], vals, rfl, rfl, le_rfl, hstop, by simp, h, le_rfl⟩
  | cons next views ih =>
    obtain ⟨offset, view⟩ := next
    -- the run ends where it stands
    have hends : ∃ stop' rest merged left, (stop, (offset, view) :: views) = (stop', rest) ∧
        vals = merged ++ left ∧ stop ≤ stop' ∧ stop' ≤ (heap addr).values.length ∧
        merged.flatten = ((heap addr).values.drop stop).take (stop' - stop) ∧
        Follow heap (start + merged.flatten.length) rest left ∧
        rest.length ≤ ((offset, view) :: views).length :=
      ⟨stop, _, [], vals, rfl, rfl, le_rfl, hstop, by simp, h, le_rfl⟩
    rw [mergeRun]
    cases hparts : view.parts with
    | none => exact hends
    | some parts =>
      dsimp only
      split_ifs with hother
      · exact hends
      · push Not at hother
        obtain ⟨haddr, hstart⟩ := hother
        obtain ⟨-, values, rest, rfl, hview, hrest⟩ := h
        obtain ⟨hle, hlast, hvalues, -⟩ := hview.parts parts hparts
        rw [haddr, hstart] at hvalues
        rw [haddr] at hlast
        rw [hstart] at hle
        obtain ⟨stop', rest', merged, left, hrun, rfl, hle', hlast', hmerged, hfollow, hlen⟩ :=
          ih hrest hlast
        refine ⟨stop', rest', values :: merged, left, hrun, rfl, hle.trans hle', hlast', ?_, ?_,
          Nat.le_succ_of_le hlen⟩
        · rw [List.flatten_cons, hmerged, hvalues, window_append hle hle']
        · rwa [List.flatten_cons, List.length_append, ← Nat.add_assoc]

/-- The chunks found hold the values of the chunks walked. -/
theorem chunksLoop_spec {fuel start : ℕ}
    (hfuel : views.length ≤ fuel) (h : Follow heap start views vals) {found : List Chunk}
    (hfound : chunksLoop fuel views = some found) : Pieces fl start found vals.flatten := by
  induction fuel generalizing start views vals found with
  | zero =>
    obtain rfl : views = [] := List.length_eq_zero_iff.mp (Nat.le_zero.mp hfuel)
    obtain rfl : vals = [] := h
    obtain rfl : [] = found := Option.some.inj hfound
    rfl
  | succ fuel ih =>
    cases views with
    | nil =>
      obtain rfl : vals = [] := h
      obtain rfl : [] = found := Option.some.inj hfound
      rfl
    | cons next views =>
      obtain ⟨offset, view⟩ := next
      obtain ⟨rfl, values, rest, rfl, hview, hrest⟩ := h
      have hlen : views.length ≤ fuel := Nat.le_of_succ_le_succ hfuel
      rw [chunksLoop] at hfound
      rw [List.flatten_cons]
      split_ifs at hfound with hempty
      · -- an empty view is passed over
        have hnil : values = [] := List.length_eq_zero_iff.mp (hview.len.symm.trans hempty)
        rw [hnil, List.length_nil, Nat.add_zero] at hrest
        rw [hnil, List.nil_append]
        exact ih hlen hrest hfound
      have hne : values ≠ [] := by
        rintro rfl
        exact hempty hview.len
      cases hparts : view.parts with
      | none =>
        simp only [hparts, Option.bind_eq_bind, Option.bind_eq_some_iff] at hfound
        obtain ⟨n, hn, chunks, hchunks, heq⟩ := hfound
        obtain rfl := Option.some.inj heq
        exact ⟨rfl, values, _, rfl, hne, hview.node n hn, ih hlen hrest hchunks⟩
      | some parts =>
        -- a slice of a parent is merged with the slices that follow it there
        obtain ⟨hle, hlast, hvalues, hparent⟩ := hview.parts parts hparts
        obtain ⟨stop, left, merged, vals', hrun, rfl, hle', hlast', hmerged, hfollow, hleft⟩ :=
          mergeRun_spec hrest hlast
        simp only [hparts, hrun, Option.bind_eq_bind, Option.bind_eq_some_iff] at hfound
        obtain ⟨n, hn, chunks, hchunks, heq⟩ := hfound
        obtain rfl := Option.some.inj heq
        have hhead : values ++ merged.flatten =
            ((heap parts.addr).values.drop parts.start).take (stop - parts.start) := by
          rw [hmerged, hvalues, window_append hle hle']
        refine ⟨rfl, values ++ merged.flatten, vals'.flatten, ?_, ?_, ?_, ?_⟩
        · rw [List.flatten_append, List.append_assoc]
        · exact List.append_ne_nil_of_left_ne_nil hne _
        · rw [hhead]
          exact slice_decodes (hparent n hn) (hle.trans hle') hlast'
        · rw [List.length_append, ← Nat.add_assoc]
          exact ih (hleft.trans hlen) hfollow hchunks

theorem mem_of_mergeRun {addr stop : ℕ} {next : ℕ × ChunkView}
    (h : next ∈ (mergeRun addr stop views).2) : next ∈ views := by
  induction views generalizing stop with
  | nil => exact h
  | cons first views ih =>
    rw [mergeRun] at h
    cases hparts : first.2.parts with
    | none => simpa only [hparts] using h
    | some parts =>
      simp only [hparts] at h
      split_ifs at h with hother
      · exact h
      · exact List.mem_cons_of_mem first (ih h)

/-- The walk ends in chunks when every chunk that is not empty resolves. -/
theorem chunksLoop_isSome {fuel : ℕ}
    (h : ∀ next ∈ views, next.2.len ≠ 0 → (∃ n, next.2.node = some n) ∧
      ∀ parts, next.2.parts = some parts → ∃ n, parts.parent = some n) :
    ∃ found, chunksLoop fuel views = some found := by
  induction fuel generalizing views with
  | zero => exact ⟨[], rfl⟩
  | succ fuel ih =>
    cases views with
    | nil => exact ⟨[], rfl⟩
    | cons next views =>
      obtain ⟨offset, view⟩ := next
      rw [chunksLoop]
      split_ifs with hempty
      · exact ih fun next hnext => h next (List.mem_cons_of_mem _ hnext)
      obtain ⟨⟨n, hn⟩, hparents⟩ := h (offset, view) List.mem_cons_self hempty
      cases hparts : view.parts with
      | none =>
        obtain ⟨chunks, hchunks⟩ := ih fun next hnext => h next (List.mem_cons_of_mem _ hnext)
        exact ⟨⟨offset, n⟩ :: chunks, by simp [show view.node = some n from hn, hchunks]⟩
      | some parts =>
        obtain ⟨n, hparent⟩ := hparents parts hparts
        obtain ⟨chunks, hchunks⟩ := @ih (mergeRun parts.addr parts.stop views).2 fun next hnext =>
          h next (List.mem_cons_of_mem _ (mem_of_mergeRun hnext))
        exact ⟨⟨offset, _⟩ :: chunks, by simp [hparent, hchunks]; rfl⟩

/-! ### Arrays -/

theorem totalLen_eq {views : List ChunkView}
    (h : List.Forall₂ (fun view values => view.Holds heap values) views vals) :
    totalLen views = vals.flatten.length := by
  rw [totalLen]
  induction h with
  | nil => rfl
  | cons hhead _ ih => rw [List.map_cons, List.sum_cons, ih, List.flatten_cons, List.length_append,
      hhead.len]

theorem resolveChunked_decodes {views : List ChunkView}
    (h : List.Forall₂ (fun view values => view.Holds heap values) views vals)
    (hfits : vals.flatten.length ≤ u64Max) {n : Node} (hn : resolveChunked views = some n) :
    ∃ found, n = chunkedNode found vals.flatten.length ∧ Pieces fl 0 found vals.flatten ∧
      n.Decodes fl vals.flatten := by
  obtain ⟨found, hfound, rfl⟩ := Option.map_eq_some_iff.mp hn
  have hlen := length_chunkOffsets views 0
  have hpieces := chunksLoop_spec hlen.le (follow_offsets h 0) hfound
  rw [totalLen_eq h]
  exact ⟨found, rfl, hpieces, chunked_decodes hpieces hfits⟩

namespace Encoded

theorem forall₂_of_mem {chunks : List (Encoded fl)}
    (h : ∀ chunk ∈ chunks, chunk.view.Holds heap chunk.values) :
    List.Forall₂ (fun view values => ChunkView.Holds heap values view) (chunks.map view)
      (chunks.map values) := by
  rw [List.forall₂_map_left_iff, List.forall₂_map_right_iff]
  exact List.forall₂_same.mpr h

/-- The view of an array has its values. -/
theorem view_holds {array : Encoded fl} (h : array.Valid heap) :
    array.view.Holds heap array.values := by
  induction h with
  | plain array =>
    rw [view, values]
    exact ⟨rfl, array.decodes, fun parts hparts => by cases hparts⟩
  | slice unsigned addr start stop hparent hle hstop ih =>
    rw [view, values]
    refine ⟨?_, fun n hn => ?_, fun parts hparts => ?_⟩
    · show stop - start = _
      rw [List.length_take, List.length_drop]
      omega
    · dsimp only at hn
      split_ifs at hn
      obtain ⟨found, hfound, rfl⟩ := Option.map_eq_some_iff.mp hn
      exact slice_decodes (ih.node found hfound) hle hstop
    · obtain rfl := Option.some.inj hparts
      exact ⟨hle, hstop, rfl, ih.node⟩
  | shared source hsource ih =>
    rw [view, values]
    exact ⟨ih.len, ih.node, fun parts hparts => by cases hparts⟩
  | chunked unsigned chunks hchunks hlen ih =>
    have hviews := forall₂_of_mem ih
    rw [valuesAll_eq] at hlen
    rw [view, values, viewAll_eq, valuesAll_eq]
    refine ⟨totalLen_eq hviews, fun n hn => ?_, fun parts hparts => by cases hparts⟩
    dsimp only at hn
    split_ifs at hn
    obtain ⟨-, -, -, hdecodes⟩ := resolveChunked_decodes hviews hlen hn
    exact hdecodes

theorem chunked_resolve (chunks : List (Encoded fl)) :
    (Encoded.chunked true chunks).resolve = resolveChunked (chunks.map view) := by
  rw [resolve, view, viewAll_eq]
  rfl

/-- A slice resolves through its parent. -/
theorem parent_of_resolve {array : Encoded fl} {n : Node} (hn : array.resolve = some n)
    {parts : SliceParts} (hparts : array.view.parts = some parts) : ∃ n, parts.parent = some n := by
  cases array with
  | plain array => rw [view] at hparts; cases hparts
  | shared source => rw [view] at hparts; cases hparts
  | chunked unsigned chunks => rw [view] at hparts; cases hparts
  | slice unsigned addr parent start stop =>
    rw [view] at hparts
    obtain rfl := Option.some.inj hparts
    rw [resolve, view] at hn
    dsimp only at hn
    split_ifs at hn
    obtain ⟨found, hfound, -⟩ := Option.map_eq_some_iff.mp hn
    exact ⟨found, hfound⟩

end Encoded

/-- **Merging adjacent pieces preserves the column.** A chunked array's node, its runs of
contiguous slices of one parent merged and its empty chunks dropped, holds the array's values
in order, each chunk starting at the sum of the lengths before it and none of them empty; and
the array resolves when each of its chunks does that is not empty. -/
theorem chunked_preservesColumn (heap : ℕ → Encoded fl) {chunks : List (Encoded fl)}
    (h : (Encoded.chunked true chunks).Valid heap) :
    (∀ n, (Encoded.chunked true chunks).resolve = some n →
      n.Decodes fl (chunks.map Encoded.values).flatten ∧
      ∃ found, n = chunkedNode found (chunks.map Encoded.values).flatten.length ∧
        ∀ c : Fin found.length, 0 < (found.get c).node.len ∧
          (found.get c).start = ((found.take c).map fun chunk => chunk.node.len).sum) ∧
    ((∀ chunk ∈ chunks, chunk.values ≠ [] → ∃ n, chunk.resolve = some n) →
      ∃ n, (Encoded.chunked true chunks).resolve = some n) := by
  obtain ⟨hchunks, hfits⟩ : (∀ chunk ∈ chunks, chunk.Valid heap) ∧
      (Encoded.valuesAll chunks).length ≤ u64Max := by
    cases h with
    | chunked _ _ hchunks hlen => exact ⟨hchunks, hlen⟩
  have hviews := Encoded.forall₂_of_mem fun chunk hchunk => Encoded.view_holds (hchunks chunk hchunk)
  rw [Encoded.valuesAll_eq] at hfits
  rw [Encoded.chunked_resolve]
  refine ⟨fun n hn => ?_, fun hall => ?_⟩
  · obtain ⟨found, rfl, hpieces, hdecodes⟩ := resolveChunked_decodes hviews hfits hn
    refine ⟨hdecodes, found, rfl, fun c => ⟨?_, hpieces.start_eq c⟩⟩
    exact (hpieces.get (List.getElem?_eq_getElem c.isLt)).2.1
  · have hsome : ∀ next ∈ chunkOffsets 0 (chunks.map Encoded.view), next.2.len ≠ 0 →
        (∃ n, next.2.node = some n) ∧
        ∀ parts, next.2.parts = some parts → ∃ n, parts.parent = some n := by
      intro next hnext hlen
      have hmem : next.2 ∈ chunks.map Encoded.view := mem_chunkOffsets hnext
      obtain ⟨chunk, hchunk, heq⟩ := List.mem_map.mp hmem
      rw [← heq] at hlen ⊢
      have hne : chunk.values ≠ [] := by
        intro hnil
        rw [(Encoded.view_holds (hchunks chunk hchunk)).len, hnil] at hlen
        exact hlen rfl
      obtain ⟨n, hn⟩ := hall chunk hchunk hne
      exact ⟨⟨n, hn⟩, fun parts hparts => Encoded.parent_of_resolve hn hparts⟩
    obtain ⟨found, hfound⟩ := @chunksLoop_isSome _ (chunks.map Encoded.view).length hsome
    exact ⟨_, by rw [resolveChunked, hfound]; rfl⟩

theorem odd_decodes (fl : FastLanes) : (Node.sequence 5 2 4).Decodes fl [5, 7, 9, 11] := by
  refine ⟨⟨by decide, by decide, fun i hi => ?_⟩, rfl, fun i hi => ?_⟩
  · rw [u64Max]
    omega
  · have hi' : i < 4 := hi
    interval_cases i <;> rfl

/-- The sequence 5, 7, 9, 11. -/
def oddNumbers (fl : FastLanes) : Plain fl where
  values := [5, 7, 9, 11]
  node := some (.sequence 5 2 4)
  decodes _ hn := Option.some.inj hn ▸ odd_decodes fl

/-- Three slices of it, the first two contiguous, and an empty chunk. -/
def oddChunks (fl : FastLanes) : List (Encoded fl) :=
  [.slice true 0 (.plain (oddNumbers fl)) 1 3, .slice true 0 (.plain (oddNumbers fl)) 3 4,
    .plain ⟨[], none, fun _ hn => absurd hn.symm (Option.some_ne_none _)⟩,
    .slice true 0 (.plain (oddNumbers fl)) 0 1]

theorem chunked_preservesColumn_sample :
    ∃ n, (Encoded.chunked true (oddChunks FastLanes.ofZeros)).resolve = some n ∧
      n.Decodes FastLanes.ofZeros [7, 9, 11, 5] := by
  have hslice : ∀ start stop, start ≤ stop → stop ≤ 4 →
      (Encoded.slice true 0 (.plain (oddNumbers FastLanes.ofZeros)) start stop).Valid
        fun _ => .plain (oddNumbers FastLanes.ofZeros) :=
    fun start stop hle hstop => .slice true 0 start stop (.plain _) hle (by
      rw [Encoded.values]
      exact hstop)
  have hvalid : (Encoded.chunked true (oddChunks FastLanes.ofZeros)).Valid
      fun _ => .plain (oddNumbers FastLanes.ofZeros) := by
    refine .chunked true _ (fun chunk hchunk => ?_) ?_
    · simp only [oddChunks, List.mem_cons, List.not_mem_nil, or_false] at hchunk
      rcases hchunk with rfl | rfl | rfl | rfl
      · exact hslice 1 3 (by decide) (by decide)
      · exact hslice 3 4 (by decide) (by decide)
      · exact .plain _
      · exact hslice 0 1 (by decide) (by decide)
    · rw [Encoded.valuesAll_eq]
      simp [oddChunks, Encoded.values, oddNumbers, u64Max]
  obtain ⟨hdecodes, hresolves⟩ := chunked_preservesColumn _ hvalid
  obtain ⟨n, hn⟩ := hresolves fun chunk hchunk hne => by
    simp only [oddChunks, List.mem_cons, List.not_mem_nil, or_false] at hchunk
    rcases hchunk with rfl | rfl | rfl | rfl
    · exact ⟨_, rfl⟩
    · exact ⟨_, rfl⟩
    · exact absurd rfl hne
    · exact ⟨_, rfl⟩
  refine ⟨n, hn, ?_⟩
  have hvalues : ((oddChunks FastLanes.ofZeros).map Encoded.values).flatten = [7, 9, 11, 5] := by
    simp [oddChunks, Encoded.values, oddNumbers]
  rw [← hvalues]
  exact (hdecodes n hn).1

end EncodedSearch
