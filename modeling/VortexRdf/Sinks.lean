/-
What an equality search gathers (`EqSink` in `encoded-search/src/search.rs`,
`CodeOf` in `node.rs`).

A search hands a sink the matching offsets of its window in ascending order,
either as whole runs or as the positions of a needle among some values.  The
three sinks count them, append them, or keep at most one of them.

`LawfulEqSink` says what the searches rely on: both methods are the pushes, one
by one, of the offsets they are handed.  Every statement about a search is then
about one list of offsets, whatever gathers it.
-/
import VortexRdf.Search
import VortexRdf.Buffers

open Buffers

namespace EncodedSearch

/-- The width of a stored unsigned word. -/
inductive WordWidth
  | u8
  | u16
  | u32
  | u64
  deriving DecidableEq, Repr

/-- `size_of::<T>()`. -/
def WordWidth.bytes : WordWidth → ℕ
  | .u8 => 1
  | .u16 => 2
  | .u32 => 4
  | .u64 => 8

/-- Bits per word. -/
def WordWidth.bits (w : WordWidth) : ℕ := 8 * w.bytes

theorem WordWidth.bits_le (w : WordWidth) : w.bits ≤ 64 := by cases w <;> decide

/-- A word of any width is a `u64`. -/
theorem WordWidth.lt_u64 {w : WordWidth} {v : ℕ} (h : v < 2 ^ w.bits) : v < 2 ^ 64 :=
  lt_of_lt_of_le h (Nat.pow_le_pow_right (by decide) w.bits_le)

/-- What an equality search gathers from its window. -/
class EqSink (σ : Type) where
  /-- Every offset in `start..stop` matches. -/
  run : ℕ → ℕ → σ → σ
  /-- Offset `place + k` matches where `values[k] == needle`. -/
  matching : WordWidth → ℕ → List ℕ → ℕ → σ → σ

/-- The offsets `place + k` where `values[k]` is the needle. -/
def matchingOffsets (place : ℕ) (values : List ℕ) (needle : ℕ) : List ℕ :=
  (values.zipIdx.filter fun (v, _) => v == needle).map fun (_, k) => place + k

/-- Both methods of a sink are pushes of the offsets they are handed. -/
class LawfulEqSink (σ : Type) [EqSink σ] where
  /-- Gather one offset. -/
  push : σ → ℕ → σ
  run_eq : ∀ (start len : ℕ) (s : σ),
    EqSink.run start (start + len) s = (List.range' start len).foldl push s
  matching_eq : ∀ (w : WordWidth) (place : ℕ) (values : List ℕ) (needle : ℕ) (s : σ),
    EqSink.matching w place values needle s =
      (matchingOffsets place values needle).foldl push s

/-- Counts the matching offsets. -/
structure Count where
  total : ℕ
  deriving DecidableEq, Repr

/-- Appends the matching offsets. -/
structure Offsets where
  out : List ℕ
  deriving DecidableEq, Repr

/-- The codes a dictionary holds a needle under: none, one, or several. -/
inductive CodeOf
  | none
  | one (code : ℕ)
  | several
  deriving DecidableEq, Repr

def CodeOf.add (code : ℕ) : CodeOf → CodeOf
  | .none => .one code
  | _ => .several

/-- One block of a narrow tally, in a byte. -/
def tally (block : List ℕ) (needle : ℕ) : ℕ :=
  block.foldl (fun t v => (t + if v = needle then 1 else 0) % 256) 0

instance : EqSink Count where
  run start stop s := ⟨s.total + (stop - start)⟩
  matching w _ values needle s :=
    if w.bytes < WordWidth.u64.bytes then
      -- Narrow words are tallied in a byte, 255 at a time.
      ⟨s.total + ((chunks 255 values).map fun block => tally block needle).sum⟩
    else ⟨s.total + (values.filter fun v => v == needle).length⟩

instance : EqSink Offsets where
  run start stop s := ⟨s.out ++ List.range' start (stop - start)⟩
  matching _ place values needle s := ⟨s.out ++ matchingOffsets place values needle⟩

instance : EqSink CodeOf where
  -- Two codes settle it.
  run start stop s := (List.range' start (min 2 (stop - start))).foldl (fun s c => s.add c) s
  matching _ place values needle s :=
    (matchingOffsets place values needle).foldl (fun s c => s.add c) s

/-! ### Each sink pushes what it is handed -/

theorem matchingOffsets_length (place : ℕ) (values : List ℕ) (needle : ℕ) :
    (matchingOffsets place values needle).length = values.count needle := by
  rw [matchingOffsets, List.length_map, ← List.countP_eq_length_filter, List.count]
  conv_rhs => rw [← List.zipIdx_map_fst 0 values, List.countP_map]
  rfl

/-- The offsets of a needle among the values of a window are its matches. -/
theorem matchingOffsets_valuesFrom (f : ℕ → ℕ) (needle start place : ℕ) : ∀ len : ℕ,
    matchingOffsets place (valuesFrom f start len) needle =
      matchesFrom f needle start len place := by
  intro len
  induction len with
  | zero => rfl
  | succ len ih =>
    rw [valuesFrom_add, matchesFrom_add, matchingOffsets, List.zipIdx_append, List.filter_append,
      List.map_append]
    congr 1
    by_cases h : f (start + len) = needle <;> simp [valuesFrom, matchesFrom, h]

/-- A byte tally of at most 255 values counts them. -/
theorem tally_eq_count {block : List ℕ} (needle : ℕ) (h : block.length ≤ 255) :
    tally block needle = block.count needle := by
  have key : ∀ (l : List ℕ) (t : ℕ), t + l.length ≤ 255 →
      l.foldl (fun t v => (t + if v = needle then 1 else 0) % 256) t = t + l.count needle := by
    intro l
    induction l with
    | nil => exact fun t _ => by simp
    | cons v l ih =>
      intro t ht
      rw [List.length_cons] at ht
      rw [List.foldl_cons, List.count_cons, Nat.mod_eq_of_lt (by split_ifs <;> omega),
        ih _ (by split_ifs <;> omega)]
      simp only [beq_iff_eq]
      omega
  rw [tally, key block 0 (by omega), Nat.zero_add]

/-- Tallied in bytes or compared word by word, the count is the count. -/
theorem Count.matching_eq (w : WordWidth) (place : ℕ) (values : List ℕ) (needle : ℕ) (s : Count) :
    EqSink.matching w place values needle s = ⟨s.total + values.count needle⟩ := by
  have hnarrow : ((chunks 255 values).map fun block => tally block needle).sum
      = values.count needle := by
    conv_rhs => rw [← chunks_flatten (by decide : 0 < 255) values, List.count_flatten]
    congr 1
    exact List.map_congr_left fun block hb => tally_eq_count needle (length_le_of_mem_chunks hb)
  show (if w.bytes < WordWidth.u64.bytes then _ else _) = _
  split_ifs
  · rw [hnarrow]
  · rw [List.count, List.countP_eq_length_filter]

theorem Count.foldl_push (l : List ℕ) (s : Count) :
    l.foldl (fun s _ => ⟨s.total + 1⟩) s = ⟨s.total + l.length⟩ := by
  induction l generalizing s with
  | nil => rfl
  | cons v l ih =>
    rw [List.foldl_cons, ih, List.length_cons, Count.mk.injEq]
    show s.total + 1 + l.length = s.total + (l.length + 1)
    omega

instance : LawfulEqSink Count where
  push s _ := ⟨s.total + 1⟩
  run_eq start len s := by
    rw [Count.foldl_push, List.length_range']
    show Count.mk _ = _
    rw [Nat.add_sub_cancel_left]
  matching_eq w place values needle s := by
    rw [Count.matching_eq, Count.foldl_push, matchingOffsets_length]

theorem Offsets.foldl_push (l : List ℕ) (s : Offsets) :
    l.foldl (fun s i => ⟨s.out ++ [i]⟩) s = ⟨s.out ++ l⟩ := by
  induction l generalizing s with
  | nil => simp
  | cons v l ih =>
    rw [List.foldl_cons, ih, List.append_assoc, List.singleton_append]

instance : LawfulEqSink Offsets where
  push s i := ⟨s.out ++ [i]⟩
  run_eq start len s := by
    rw [Offsets.foldl_push]
    show Offsets.mk _ = _
    rw [Nat.add_sub_cancel_left]
  matching_eq w place values needle s := by
    rw [Offsets.foldl_push]
    rfl

theorem CodeOf.foldl_several (l : List ℕ) :
    l.foldl (fun s c => CodeOf.add c s) .several = .several := by
  induction l with
  | nil => rfl
  | cons v l ih => exact ih

/-- Past the second code, a search for a needle's codes has settled. -/
theorem CodeOf.foldl_two (a b : ℕ) (l : List ℕ) (s : CodeOf) :
    (a :: b :: l).foldl (fun s c => CodeOf.add c s) s = .several := by
  rw [List.foldl_cons, List.foldl_cons]
  cases s with
  | none => exact foldl_several l
  | one _ => exact foldl_several l
  | several => exact foldl_several l

/-- The codes found for a needle, from none known before. -/
theorem CodeOf.foldl_none (l : List ℕ) :
    l.foldl (fun s c => CodeOf.add c s) CodeOf.none =
      match l with
      | [] => .none
      | [c] => .one c
      | _ => .several := by
  match l with
  | [] => rfl
  | [c] => rfl
  | a :: b :: l => exact CodeOf.foldl_two a b l .none

instance : LawfulEqSink CodeOf where
  push s c := CodeOf.add c s
  run_eq start len s := by
    show (List.range' start (min 2 (start + len - start))).foldl _ s = _
    rw [Nat.add_sub_cancel_left]
    match len with
    | 0 => rfl
    | 1 => rfl
    | len + 2 =>
      rw [Nat.min_eq_left (by omega), List.range'_succ, List.range'_succ, List.range'_succ,
        List.range'_succ, CodeOf.foldl_two, CodeOf.foldl_two]
  matching_eq w place values needle s := rfl

/-! ### Windows handed over part by part -/

variable {σ : Type} [EqSink σ] [LawfulEqSink σ]

/-- The sink `s` after the matches of a window. -/
def gather (f : ℕ → ℕ) (needle start len base : ℕ) (s : σ) : σ :=
  (matchesFrom f needle start len base).foldl LawfulEqSink.push s

@[simp] theorem gather_zero (f : ℕ → ℕ) (needle start base : ℕ) (s : σ) :
    gather f needle start 0 base s = s := rfl

theorem gather_add (f : ℕ → ℕ) (needle start a b base : ℕ) (s : σ) :
    gather f needle start (a + b) base s =
      gather f needle (start + a) b (base + a) (gather f needle start a base s) := by
  rw [gather, matchesFrom_add, List.foldl_append]
  rfl

theorem gather_congr {f g : ℕ → ℕ} {needle needle' start start' len base : ℕ}
    (h : ∀ k, k < len → (f (start + k) = needle ↔ g (start' + k) = needle')) (s : σ) :
    gather f needle start len base s = gather g needle' start' len base s := by
  rw [gather, matchesFrom_congr h, gather]

theorem gather_none {f : ℕ → ℕ} {needle start len base : ℕ}
    (h : ∀ k, k < len → f (start + k) ≠ needle) (s : σ) :
    gather f needle start len base s = s := by
  rw [gather, matchesFrom_eq_nil h]
  rfl

/-- A run of the needle is gathered as a run. -/
theorem gather_run {f : ℕ → ℕ} {needle start len base : ℕ}
    (h : ∀ k, k < len → f (start + k) = needle) (s : σ) :
    gather f needle start len base s = EqSink.run base (base + len) s := by
  rw [gather, matchesFrom_eq_range' h, LawfulEqSink.run_eq]

/-- The values of a window, handed over, gather its matches. -/
theorem matching_valuesFrom (w : WordWidth) (f : ℕ → ℕ) (needle start len base : ℕ) (s : σ) :
    EqSink.matching w base (valuesFrom f start len) needle s =
      gather f needle start len base s := by
  rw [LawfulEqSink.matching_eq, matchingOffsets_valuesFrom, gather]

/-- Parts that tile a window gather its matches. -/
theorem gather_tiles {f : ℕ → ℕ} {start stop : ℕ} {parts : List (ℕ × List ℕ)}
    (h : Tiles f start stop parts) (w : WordWidth) (needle base : ℕ) (s : σ) :
    parts.foldl (fun s part => EqSink.matching w (base + part.1) part.2 needle s) s =
      gather f needle start stop base s := by
  refine @Tiling.foldl _ _ _ _ _ _ _ _ (fun p => gather f needle start p base s) h.tiling ?_
  intro part hpart _
  rw [h.values part hpart, valuesFrom_length, matching_valuesFrom, ← gather_add]

/-- A count gathers how many values of the window are the needle. -/
theorem gather_count (f : ℕ → ℕ) (needle start len base : ℕ) (s : Count) :
    gather f needle start len base s = ⟨s.total + (valuesFrom f start len).count needle⟩ := by
  rw [← matchingOffsets_length base, matchingOffsets_valuesFrom]
  exact Count.foldl_push _ s

/-- Offsets gather the window's matches, behind what they held. -/
theorem gather_offsets (f : ℕ → ℕ) (needle start len base : ℕ) (s : Offsets) :
    gather f needle start len base s = ⟨s.out ++ matchesFrom f needle start len base⟩ :=
  Offsets.foldl_push _ s

end EncodedSearch
