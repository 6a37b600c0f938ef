/-
Buffers as lists: slices, writes in place, and runs of a virtual column.

A column is a function of its positions.  Bulk reads of it fill a buffer part by
part, and equality searches report positions part by part; the lemmas here say
how the parts of a window make up the window.

* `sliceOf`, `writeAt` — `buf[a..b]` and a write over `buf[at..]`, failing out
  of range;
* `valuesFrom` — the values of a column in a window, cut by `valuesFrom_add`;
* `matchesFrom` — the offsets of a needle in a window, cut by
  `matchesFrom_add`;
* `Tiling` — pieces that lie one behind another, and the rule for a fold over
  them;
* `chunks` — consecutive pieces of a list, of a size but for the last;
* `Chunked` — values cut, in order, into pieces of at most a size.
-/
import Mathlib.Tactic

namespace Buffers

variable {α : Type*}

/-- `buf[lo..hi]`. -/
def sliceOf (buf : List α) (lo hi : ℕ) : Option (List α) :=
  if lo ≤ hi ∧ hi ≤ buf.length then some ((buf.drop lo).take (hi - lo)) else none

/-- `buf` with `values` written over the positions from `place` on. -/
def writeAt (buf : List α) (place : ℕ) (values : List α) : Option (List α) :=
  if place + values.length ≤ buf.length then
    some (buf.take place ++ values ++ buf.drop (place + values.length))
  else none

theorem sliceOf_append {a b c : List α} :
    sliceOf (a ++ b ++ c) a.length (a.length + b.length) = some b := by
  rw [sliceOf, if_pos (by simp)]
  simp [List.append_assoc]

theorem sliceOf_eq {buf : List α} {lo hi : ℕ} (hlo : lo ≤ hi) (hhi : hi ≤ buf.length) :
    sliceOf buf lo hi = some ((buf.drop lo).take (hi - lo)) := if_pos ⟨hlo, hhi⟩

theorem writeAt_append {a b c values : List α} (h : values.length = b.length) :
    writeAt (a ++ b ++ c) a.length values = some (a ++ values ++ c) := by
  have hdrop : (a ++ (b ++ c)).drop (a.length + b.length) = c := by
    rw [← List.append_assoc, ← List.length_append, List.drop_left]
  rw [writeAt, if_pos (by simp [h]), h, List.append_assoc a b c, List.take_left, hdrop]

theorem writeAt_length {buf values out : List α} {place : ℕ}
    (h : writeAt buf place values = some out) : out.length = buf.length := by
  rw [writeAt] at h
  split_ifs at h with hle
  rw [Option.some_inj] at h
  subst h
  simp only [List.length_append, List.length_take, List.length_drop]
  omega

/-! ### The values of a window -/

/-- The values of the column `f` at `start..start + len`. -/
def valuesFrom (f : ℕ → α) (start len : ℕ) : List α :=
  (List.range len).map fun k => f (start + k)

@[simp] theorem valuesFrom_length (f : ℕ → α) (start len : ℕ) :
    (valuesFrom f start len).length = len := by simp [valuesFrom]

@[simp] theorem valuesFrom_zero (f : ℕ → α) (start : ℕ) : valuesFrom f start 0 = [] := rfl

variable {len : ℕ}

theorem valuesFrom_getElem? (f : ℕ → α) (start : ℕ) {k : ℕ} (h : k < len) :
    (valuesFrom f start len)[k]? = some (f (start + k)) := by
  simp [valuesFrom, List.getElem?_range h]

/-- A window is its first part followed by the rest. -/
theorem valuesFrom_add (f : ℕ → α) (start a b : ℕ) :
    valuesFrom f start (a + b) = valuesFrom f start a ++ valuesFrom f (start + a) b := by
  simp only [valuesFrom, List.range_add, List.map_append, List.map_map, Function.comp_def,
    Nat.add_assoc]

variable {f : ℕ → α} {start : ℕ}

theorem valuesFrom_congr {g : ℕ → α} {start' : ℕ}
    (h : ∀ k, k < len → f (start + k) = g (start' + k)) :
    valuesFrom f start len = valuesFrom g start' len :=
  List.map_congr_left fun k hk => h k (List.mem_range.mp hk)

theorem valuesFrom_eq_replicate {v : α}
    (h : ∀ k, k < len → f (start + k) = v) : valuesFrom f start len = List.replicate len v := by
  rw [List.eq_replicate_iff]
  refine ⟨valuesFrom_length f start len, fun x hx => ?_⟩
  obtain ⟨k, hk, rfl⟩ := List.mem_map.mp hx
  exact h k (List.mem_range.mp hk)

theorem valuesFrom_map {β : Type*} (g : α → β) (f : ℕ → α) (start len : ℕ) :
    (valuesFrom f start len).map g = valuesFrom (fun i => g (f i)) start len := by
  simp [valuesFrom, Function.comp_def]

/-- A list read by its positions is a window of the column it holds. -/
theorem eq_valuesFrom {l : List α}
    (h : ∀ k, k < l.length → l[k]? = some (f (start + k))) :
    l = valuesFrom f start l.length := by
  apply List.ext_getElem?
  intro k
  by_cases hk : k < l.length
  · rw [h k hk, valuesFrom_getElem? f start hk]
  · rw [List.getElem?_eq_none_iff.mpr (by omega),
      List.getElem?_eq_none_iff.mpr (by simpa using hk)]

/-! ### The offsets of a needle in a window -/

variable [DecidableEq α]

/-- The offsets `base + k` of the values at `start + k`, below `len`, that
equal `needle`. -/
def matchesFrom (f : ℕ → α) (needle : α) (start len base : ℕ) : List ℕ :=
  ((List.range len).filter fun k => decide (f (start + k) = needle)).map (base + ·)

@[simp] theorem matchesFrom_zero (f : ℕ → α) (needle : α) (start base : ℕ) :
    matchesFrom f needle start 0 base = [] := rfl

theorem mem_matchesFrom {needle : α} {base i : ℕ} :
    i ∈ matchesFrom f needle start len base ↔
      ∃ k, k < len ∧ f (start + k) = needle ∧ base + k = i := by
  simp only [matchesFrom, List.mem_map, List.mem_filter, List.mem_range, decide_eq_true_eq,
    and_assoc]

/-- The matches of a window are those of its first part, then those of the
rest. -/
theorem matchesFrom_add (f : ℕ → α) (needle : α) (start a b base : ℕ) :
    matchesFrom f needle start (a + b) base =
      matchesFrom f needle start a base ++ matchesFrom f needle (start + a) b (base + a) := by
  simp only [matchesFrom, List.range_add, List.filter_append, List.map_append, List.filter_map,
    List.map_map, Function.comp_def, Nat.add_assoc]

theorem matchesFrom_congr {g : ℕ → α} {needle needle' : α} {start' base : ℕ}
    (h : ∀ k, k < len → (f (start + k) = needle ↔ g (start' + k) = needle')) :
    matchesFrom f needle start len base = matchesFrom g needle' start' len base := by
  simp only [matchesFrom]
  congr 1
  apply List.filter_congr
  intro k hk
  simp only [h k (List.mem_range.mp hk)]

theorem matchesFrom_eq_nil {needle : α} {base : ℕ}
    (h : ∀ k, k < len → f (start + k) ≠ needle) : matchesFrom f needle start len base = [] := by
  rw [List.eq_nil_iff_forall_not_mem]
  intro i hi
  obtain ⟨k, hk, heq, -⟩ := mem_matchesFrom.mp hi
  exact h k hk heq

theorem matchesFrom_eq_range' {needle : α} {base : ℕ}
    (h : ∀ k, k < len → f (start + k) = needle) :
    matchesFrom f needle start len base = List.range' base len := by
  rw [matchesFrom, List.filter_eq_self.mpr]
  · rw [List.range'_eq_map_range]
  · intro k hk
    exact decide_eq_true (h k (List.mem_range.mp hk))

/-- Matches are reported in ascending order, each once. -/
theorem matchesFrom_pairwise (f : ℕ → α) (needle : α) (start len base : ℕ) :
    (matchesFrom f needle start len base).Pairwise (· < ·) := by
  rw [matchesFrom, List.pairwise_map]
  exact (List.pairwise_lt_range.filter _).imp fun h => Nat.add_lt_add_left h base

/-- Every match of a column is among the matches of a part, when the part holds
every position of the needle. -/
theorem matchesFrom_singleton {needle : α} {base j : ℕ} (hj : j < len)
    (h : ∀ k, k < len → (f (start + k) = needle ↔ k = j)) :
    matchesFrom f needle start len base = [base + j] := by
  obtain ⟨m, rfl⟩ : ∃ m, len = j + (1 + m) := ⟨len - j - 1, by omega⟩
  rw [matchesFrom_add, matchesFrom_add, matchesFrom_eq_nil, matchesFrom_eq_range',
    matchesFrom_eq_nil]
  · simp
  · intro k hk
    have := (h (j + 1 + k) (by omega)).not.mpr (by omega)
    simpa [Nat.add_assoc] using this
  · intro k hk
    have := (h (j + k) (by omega)).mpr (by omega)
    simpa [Nat.add_assoc] using this
  · intro k hk
    exact (h k (by omega)).not.mpr (by omega)

/-! ### Parts read one after another -/

omit [DecidableEq α]

/-- A list of reads that all answer reads the list of their answers. -/
theorem mapM_some {β : Type*} {g : β → Option α} {f : β → α} {l : List β}
    (h : ∀ i ∈ l, g i = some (f i)) : l.mapM g = some (l.map f) := by
  induction l with
  | nil => rfl
  | cons b l ih =>
    rw [List.mapM_cons, h b List.mem_cons_self, ih fun i hi => h i (List.mem_cons_of_mem b hi)]
    rfl

/-- A list of reads of a column, each of the value at its own position. -/
theorem mapM_valuesFrom {β : Type*} {g : α → Option β} {h : α → β}
    (hg : ∀ k, k < len → g (f (start + k)) = some (h (f (start + k)))) :
    (valuesFrom f start len).mapM g = some (valuesFrom (fun i => h (f i)) start len) := by
  have hread : ∀ v ∈ valuesFrom f start len, g v = some (h v) := by
    intro v hv
    obtain ⟨k, hk, rfl⟩ := List.mem_map.mp hv
    exact hg k (List.mem_range.mp hk)
  rw [mapM_some hread, valuesFrom_map]

theorem mapM_zipIdx_valuesFrom {β : Type*} {g : α × ℕ → Option β} {h : ℕ → β}
    (hg : ∀ k, k < len → g (f (start + k), k) = some (h (start + k))) :
    (valuesFrom f start len).zipIdx.mapM g = some (valuesFrom h start len) := by
  have hread : ∀ p ∈ (valuesFrom f start len).zipIdx, g p = some (h (start + p.2)) := by
    rintro ⟨v, k⟩ hp
    have hget := List.mem_zipIdx_iff_getElem?.mp hp
    have hk : k < len := by
      have := (List.getElem?_eq_some_iff.mp hget).1
      rwa [valuesFrom_length] at this
    rw [valuesFrom_getElem? f start hk, Option.some_inj] at hget
    obtain rfl : f (start + k) = v := hget
    exact hg k hk
  have hsnd := List.zipIdx_map_snd 0 (valuesFrom f start len)
  rw [valuesFrom_length, ← List.range_eq_range'] at hsnd
  rw [mapM_some hread, Option.some_inj]
  conv_rhs => rw [valuesFrom, ← hsnd, List.map_map]
  rfl

/-! ### Pieces that lie one behind another -/

/-- The pieces begin at `p` and lie one behind another up to `stop`: each begins
where the one before it ends. -/
inductive Tiling {ρ : Type*} (place size : ρ → ℕ) (stop : ℕ) : ℕ → List ρ → Prop
  | nil : Tiling place size stop stop []
  | cons {piece : ρ} {pieces : List ρ}
      (h : Tiling place size stop (place piece + size piece) pieces) :
      Tiling place size stop (place piece) (piece :: pieces)

namespace Tiling

variable {ρ β : Type*} {place size : ρ → ℕ} {stop p : ℕ} {pieces : List ρ}

theorem le (h : Tiling place size stop p pieces) : p ≤ stop := by
  induction h with
  | nil => exact le_rfl
  | cons _ ih => omega

theorem cons_of_eq {piece : ρ} (hp : place piece = p)
    (h : Tiling place size stop (p + size piece) pieces) :
    Tiling place size stop p (piece :: pieces) := by
  subst hp
  exact .cons h

theorem map {ρ' : Type*} {g : ρ' → ρ} {pieces : List ρ'}
    (h : Tiling (fun r => place (g r)) (fun r => size (g r)) stop p pieces) :
    Tiling place size stop p (pieces.map g) := by
  induction h with
  | nil => exact .nil
  | cons _ ih => exact .cons ih

/-- Steps that each carry the state over one piece carry it over all of them. -/
theorem foldlM {step : β → ρ → Option β} {state : ℕ → β} (h : Tiling place size stop p pieces)
    (hstep : ∀ piece ∈ pieces, place piece + size piece ≤ stop →
      step (state (place piece)) piece = some (state (place piece + size piece))) :
    pieces.foldlM step (state p) = some (state stop) := by
  induction h with
  | nil => rfl
  | @cons piece pieces h ih =>
    rw [List.foldlM_cons, hstep piece List.mem_cons_self h.le]
    exact ih fun q hq => hstep q (List.mem_cons_of_mem piece hq)

theorem foldl {step : β → ρ → β} {state : ℕ → β} (h : Tiling place size stop p pieces)
    (hstep : ∀ piece ∈ pieces, place piece + size piece ≤ stop →
      step (state (place piece)) piece = state (place piece + size piece)) :
    pieces.foldl step (state p) = state stop := by
  induction h with
  | nil => rfl
  | @cons piece pieces h ih =>
    rw [List.foldl_cons, hstep piece List.mem_cons_self h.le]
    exact ih fun q hq => hstep q (List.mem_cons_of_mem piece hq)

end Tiling

/-! ### A buffer filled from its front -/

/-- The buffer `out`, its first `p` positions holding the column's values from
`start` on. -/
def filled (f : ℕ → α) (start : ℕ) (out : List α) (p : ℕ) : List α :=
  valuesFrom f start p ++ out.drop p

@[simp] theorem filled_zero (f : ℕ → α) (start : ℕ) (out : List α) :
    filled f start out 0 = out := rfl

@[simp] theorem filled_length_self (f : ℕ → α) (start : ℕ) (out : List α) :
    filled f start out out.length = valuesFrom f start out.length := by
  rw [filled, List.drop_length, List.append_nil]

theorem filled_length (f : ℕ → α) (start : ℕ) {out : List α} {p : ℕ} (h : p ≤ out.length) :
    (filled f start out p).length = out.length := by
  rw [filled, List.length_append, valuesFrom_length, List.length_drop]
  omega

/-- Writing the next values fills the buffer over them. -/
theorem writeAt_filled {out values : List α} {p : ℕ}
    (hle : p + values.length ≤ out.length)
    (hvalues : values = valuesFrom f (start + p) values.length) :
    writeAt (filled f start out p) p values = some (filled f start out (p + values.length)) := by
  have hcut : out.drop p = (out.drop p).take values.length ++ out.drop (p + values.length) := by
    rw [← List.drop_drop, List.take_append_drop]
  have hp : p = (valuesFrom f start p).length := (valuesFrom_length f start p).symm
  rw [filled, hcut, ← List.append_assoc]
  conv_lhs => arg 2; rw [hp]
  rw [writeAt_append (by rw [List.length_take, List.length_drop]; omega), filled, valuesFrom_add,
    ← hvalues]

/-- A write of one value changes the column at its position only. -/
theorem writeAt_singleton {g : ℕ → α} {k : ℕ} (hk : k < len)
    (h : ∀ j, j < len → j ≠ k → f (start + j) = g (start + j)) :
    writeAt (valuesFrom f start len) k [g (start + k)] = some (valuesFrom g start len) := by
  obtain ⟨m, rfl⟩ : ∃ m, len = k + (1 + m) := ⟨len - k - 1, by omega⟩
  have hsplit : ∀ e : ℕ → α, valuesFrom e start (k + (1 + m)) =
      valuesFrom e start k ++ [e (start + k)] ++ valuesFrom e (start + (k + 1)) m := by
    intro e
    rw [valuesFrom_add, valuesFrom_add, List.append_assoc, Nat.add_assoc]
    rfl
  have hwrite := @writeAt_append _ (valuesFrom f start k) [f (start + k)]
    (valuesFrom f (start + (k + 1)) m) [g (start + k)] rfl
  rw [valuesFrom_length, ← hsplit] at hwrite
  rw [hwrite, hsplit g]
  congr 2
  · exact congrArg (· ++ _) (valuesFrom_congr fun j hj => h j (by omega) (by omega))
  · apply valuesFrom_congr
    intro j hj
    rw [Nat.add_assoc]
    exact h (k + 1 + j) (by omega) (by omega)

/-- Parts of a window, each with its offset, that together are its values. -/
structure Tiles (f : ℕ → α) (start stop : ℕ) (parts : List (ℕ × List α)) : Prop where
  tiling : Tiling Prod.fst (fun part => part.2.length) stop 0 parts
  values : ∀ part ∈ parts, part.2 = valuesFrom f (start + part.1) part.2.length

/-- Parts that tile a window, written each at its offset, write the window. -/
theorem Tiles.writeAt {out : List α} {parts : List (ℕ × List α)}
    (h : Tiles f start out.length parts) :
    parts.foldlM (fun out part => Buffers.writeAt out part.1 part.2) out =
      some (valuesFrom f start out.length) := by
  have hfold := @Tiling.foldlM _ _ _ _ _ _ _
    (fun out part => Buffers.writeAt out part.1 part.2) (filled f start out) h.tiling
    fun part hpart hle => writeAt_filled hle (h.values part hpart)
  rwa [filled_zero, filled_length_self] at hfold

/-! ### Lists of parts -/

theorem takeWhile_getElem? {q : α → Bool} : ∀ {l : List α} {k : ℕ}, k < (l.takeWhile q).length →
    ∃ v, l[k]? = some v ∧ q v = true := by
  intro l
  induction l with
  | nil => exact fun h => absurd h (Nat.not_lt_zero _)
  | cons v l ih =>
    intro k hk
    by_cases hv : q v = true
    · rw [List.takeWhile_cons_of_pos hv, List.length_cons] at hk
      cases k with
      | zero => exact ⟨v, rfl, hv⟩
      | succ k => exact ih (Nat.lt_of_succ_lt_succ hk)
    · rw [List.takeWhile_cons_of_neg hv] at hk
      exact absurd hk (Nat.not_lt_zero _)

/-- Where each part of a list begins, once the parts are joined. -/
theorem length_flatten_take {parts : List (List α)} {b : ℕ → ℕ} (h₀ : b 0 = 0)
    (hb : ∀ c (hc : c < parts.length), b (c + 1) = b c + parts[c].length) :
    ∀ {c : ℕ}, c ≤ parts.length → (parts.take c).flatten.length = b c := by
  intro c
  induction c with
  | zero => exact fun _ => by rw [h₀]; rfl
  | succ c ih =>
    intro hc
    rw [hb c hc, ← ih (by omega), ← List.take_concat_get' parts c hc, List.flatten_append,
      List.length_append]
    simp

theorem flatten_getElem? {parts : List (List α)} {b : ℕ → ℕ} (h₀ : b 0 = 0)
    (hb : ∀ c (hc : c < parts.length), b (c + 1) = b c + parts[c].length) {c k : ℕ}
    (hc : c < parts.length) (hk : k < parts[c].length) :
    parts.flatten[b c + k]? = parts[c][k]? := by
  have hlen := length_flatten_take h₀ hb (Nat.le_of_lt hc)
  have hcut : parts.flatten = (parts.take c).flatten ++ (parts[c] ++ (parts.drop (c + 1)).flatten) := by
    rw [← List.flatten_cons, ← List.drop_eq_getElem_cons hc, ← List.flatten_append,
      List.take_append_drop]
  rw [hcut, List.getElem?_append_right (by omega), hlen, Nat.add_sub_cancel_left,
    List.getElem?_append_left hk]

/-! ### Consecutive pieces -/

/-- At most `fuel` pieces of `size` values each, the last one shorter. -/
def chunksLoop (size : ℕ) : ℕ → List α → List (List α)
  | 0, _ => []
  | _ + 1, [] => []
  | fuel + 1, v :: values =>
    (v :: values).take size :: chunksLoop size fuel ((v :: values).drop size)

/-- `values.chunks(size)`. -/
def chunks (size : ℕ) (values : List α) : List (List α) := chunksLoop size values.length values

variable {size : ℕ}

theorem chunksLoop_flatten (hsize : 0 < size) : ∀ {fuel : ℕ} {values : List α},
    values.length ≤ fuel → (chunksLoop size fuel values).flatten = values := by
  intro fuel
  induction fuel with
  | zero =>
    intro values h
    rw [List.length_eq_zero_iff.mp (Nat.le_zero.mp h)]
    rfl
  | succ fuel ih =>
    intro values h
    cases values with
    | nil => rfl
    | cons v values =>
      rw [chunksLoop, List.flatten_cons, ih, List.take_append_drop]
      simp only [List.length_drop, List.length_cons] at h ⊢
      omega

theorem length_le_of_mem_chunksLoop : ∀ {fuel : ℕ} {values piece : List α},
    piece ∈ chunksLoop size fuel values → piece.length ≤ size := by
  intro fuel
  induction fuel with
  | zero => exact fun h => absurd h (by simp [chunksLoop])
  | succ fuel ih =>
    intro values piece h
    cases values with
    | nil => exact absurd h (by simp [chunksLoop])
    | cons v values =>
      rcases List.mem_cons.mp h with rfl | h
      · exact List.length_take_le _ _
      · exact ih h

theorem chunks_flatten (hsize : 0 < size) (values : List α) :
    (chunks size values).flatten = values := chunksLoop_flatten hsize le_rfl

theorem length_le_of_mem_chunks {values piece : List α}
    (h : piece ∈ chunks size values) : piece.length ≤ size := length_le_of_mem_chunksLoop h

/-! ### Values in chunks -/

/-- Some values cut into chunks of at most `size` of them, in order, none of them empty. -/
structure Chunked (size : ℕ) (values : List α) (pieces : List (List α)) : Prop where
  flatten : pieces.flatten = values
  capped : ∀ piece ∈ pieces, piece.length ≤ size
  nonempty : ∀ piece ∈ pieces, piece ≠ []

theorem ne_nil_of_mem_chunksLoop (hsize : 0 < size) : ∀ {fuel : ℕ} {values piece : List α},
    piece ∈ chunksLoop size fuel values → piece ≠ [] := by
  intro fuel
  induction fuel with
  | zero => exact fun h => absurd h (by simp [chunksLoop])
  | succ fuel ih =>
    intro values piece h
    cases values with
    | nil => exact absurd h (by simp [chunksLoop])
    | cons v values =>
      rcases List.mem_cons.mp h with rfl | h
      · rw [← List.length_pos_iff, List.length_take, List.length_cons]
        omega
      · exact ih h

theorem chunked_chunks (hsize : 0 < size) (values : List α) :
    Chunked size values (chunks size values) :=
  ⟨chunks_flatten hsize values, fun _ h => length_le_of_mem_chunks h,
    fun _ h => ne_nil_of_mem_chunksLoop hsize h⟩

theorem Chunked.map {β : Type*} {values : List α} {pieces : List (List α)}
    (h : Chunked size values pieces) (f : α → β) :
    Chunked size (values.map f) (pieces.map (List.map f)) where
  flatten := by rw [← List.map_flatten, h.flatten]
  capped piece hpiece := by
    obtain ⟨piece, hmem, rfl⟩ := List.mem_map.mp hpiece
    rw [List.length_map]
    exact h.capped piece hmem
  nonempty piece hpiece := by
    obtain ⟨piece, hmem, rfl⟩ := List.mem_map.mp hpiece
    rw [ne_eq, List.map_eq_nil_iff]
    exact h.nonempty piece hmem

/-- A value of a chunk is one of the values. -/
theorem Chunked.mem {values : List α} {pieces : List (List α)}
    (h : Chunked size values pieces) {piece : List α} (hpiece : piece ∈ pieces) {a : α}
    (ha : a ∈ piece) : a ∈ values := by
  rw [← h.flatten]
  exact List.mem_flatten.mpr ⟨piece, hpiece, ha⟩

end Buffers
