/-
The distinct codes of a run of codes, found through a cache of each column's recent ones.

A code repeated far apart may take two slots, but every slot holds the code of the
positions that have it, and slots are made in the order of the positions.

* `distinctCodes` — the codes with a slot, and each position's slot;
* `Made` — slots made in order, from a number of them made before;
* `distinctCodes_spec` — each position's slot holds its code, and slots are made in order.
-/
import VortexRdf.RowSelection
import VortexRdf.TermChunks

namespace Sharing

open Dictionary Store

/-! ### The cache -/

/-- Buckets in each column's cache of recent codes. -/
def BUCKETS : ℕ := 256

/-- The slot an empty bucket holds. -/
def NO_SLOT : ℕ := usizeMax

/-- The recent codes of each column's buckets with their slots, the distinct codes and the
slots of the positions so far. -/
structure Found where
  recent : ℕ → ℕ → TermCode × ℕ
  distinct : List TermCode
  slots : List ℕ

def Found.new : Found := ⟨fun _ _ => (0, NO_SLOT), [], []⟩

def bucketOf (code : TermCode) : ℕ := code &&& (BUCKETS - 1)

/-- The recent codes with one of a bucket overwritten. -/
def overwritten (recent : ℕ → ℕ → TermCode × ℕ) (column bucket : ℕ) (entry : TermCode × ℕ) :
    ℕ → ℕ → TermCode × ℕ :=
  fun c b => if c = column ∧ b = bucket then entry else recent c b

/-- A code met at a position. -/
def Found.meet (W : ℕ) (f : Found) (position : ℕ) (code : TermCode) : Found :=
  let entry := f.recent (position % W) (bucketOf code)
  if entry.2 = NO_SLOT ∨ entry.1 ≠ code then
    { recent := overwritten f.recent (position % W) (bucketOf code) (code, f.distinct.length)
      distinct := f.distinct ++ [code]
      slots := f.slots ++ [f.distinct.length] }
  else { f with slots := f.slots ++ [entry.2] }

def meetAll (W : ℕ) : List TermCode → ℕ → Found → Found
  | [], _, f => f
  | code :: rest, position, f => meetAll W rest (position + 1) (f.meet W position code)

/-- The distinct codes, in the order first met, and each position's slot. -/
def distinctCodes (W : ℕ) (codes : List TermCode) : List TermCode × List ℕ :=
  let found := meetAll W codes 0 .new
  (found.distinct, found.slots)

/-! ### Slots made in order -/

/-- With `m` slots made before, these positions' slots are old ones or the next, and `n`
are made after. -/
inductive Made : ℕ → List ℕ → ℕ → Prop
  | nil (m : ℕ) : Made m [] m
  | fresh {m n : ℕ} {slots : List ℕ} (h : Made (m + 1) slots n) : Made m (m :: slots) n
  | old {m n slot : ℕ} {slots : List ℕ} (hslot : slot < m) (h : Made m slots n) :
    Made m (slot :: slots) n

namespace Made

variable {m n k : ℕ} {slots more : List ℕ}

theorem le (h : Made m slots n) : m ≤ n := by
  induction h with
  | nil m => exact le_rfl
  | fresh h ih => exact (Nat.le_succ _).trans ih
  | old hslot h ih => exact ih

theorem append (h : Made m slots k) (hmore : Made k more n) : Made m (slots ++ more) n := by
  induction h with
  | nil m => exact hmore
  | fresh h ih => exact .fresh (ih hmore)
  | old hslot h ih => exact .old hslot (ih hmore)

theorem split (h : Made m (slots ++ more) n) : ∃ k, Made m slots k ∧ Made k more n := by
  induction slots generalizing m with
  | nil => exact ⟨m, .nil m, h⟩
  | cons slot slots ih =>
    rw [List.cons_append] at h
    cases h with
    | fresh h =>
      obtain ⟨k, hslots, hmore⟩ := ih h
      exact ⟨k, .fresh hslots, hmore⟩
    | old hslot h =>
      obtain ⟨k, hslots, hmore⟩ := ih h
      exact ⟨k, .old hslot hslots, hmore⟩

theorem lt (h : Made m slots n) : ∀ slot ∈ slots, slot < n := by
  induction h with
  | nil m => exact fun slot hslot => absurd hslot List.not_mem_nil
  | fresh h ih =>
    intro slot hslot
    rcases List.mem_cons.mp hslot with rfl | hrest
    · exact h.le
    · exact ih slot hrest
  | old hlt h ih =>
    intro slot hslot
    rcases List.mem_cons.mp hslot with rfl | hrest
    · exact hlt.trans_le h.le
    · exact ih slot hrest

/-- How many are made is settled by the slots. -/
theorem unique (h : Made m slots n) (h' : Made m slots k) : n = k := by
  induction h with
  | nil m =>
    cases h'
    rfl
  | fresh h ih =>
    cases h' with
    | fresh h' => exact ih h'
    | old hslot h' => exact absurd hslot (Nat.lt_irrefl _)
  | old hslot h ih =>
    cases h' with
    | fresh h' => exact absurd hslot (Nat.lt_irrefl _)
    | old hslot' h' => exact ih h'

/-- Every slot made is some position's. -/
theorem mem (h : Made m slots n) : ∀ slot, m ≤ slot → slot < n → slot ∈ slots := by
  induction h with
  | nil m => exact fun slot hle hlt => absurd hlt (Nat.not_lt.mpr hle)
  | fresh h ih =>
    intro slot hle hlt
    rcases Nat.eq_or_lt_of_le hle with rfl | hmore
    · exact List.mem_cons_self
    · exact List.mem_cons_of_mem _ (ih slot hmore hlt)
  | old hslot h ih => exact fun slot hle hlt => List.mem_cons_of_mem _ (ih slot hle hlt)

theorem le_length (h : Made m slots n) : n ≤ m + slots.length := by
  induction h with
  | nil m => exact le_rfl
  | fresh h ih =>
    rw [List.length_cons]
    omega
  | old hslot h ih =>
    rw [List.length_cons]
    omega

end Made

/-! ### What is found -/

/-- Each position's slot holds its code, slots are made in order, and a bucket that is not
empty holds a slot's code. -/
structure Found.Sound (f : Found) (codes : List TermCode) : Prop where
  holds : f.slots.map (f.distinct[·]?) = codes.map some
  made : Made 0 f.slots f.distinct.length
  cached : ∀ c b, (f.recent c b).2 ≠ NO_SLOT → f.distinct[(f.recent c b).2]? = some (f.recent c b).1

theorem getElem?_append_of_some {α : Type} {l : List α} {i : ℕ} {a : α} (h : l[i]? = some a)
    (more : List α) : (l ++ more)[i]? = some a := by
  obtain ⟨hlt, -⟩ := List.getElem?_eq_some_iff.mp h
  rw [List.getElem?_append_left hlt, h]

theorem Found.Sound.meet {f : Found} {codes : List TermCode} (h : f.Sound codes) (W position : ℕ)
    (code : TermCode) : (f.meet W position code).Sound (codes ++ [code]) := by
  rw [Found.meet]
  split_ifs with hmiss
  · refine ⟨?_, h.made.append (.fresh (by rw [List.length_append]; exact .nil _)), ?_⟩
    · have hkept : f.slots.map ((f.distinct ++ [code])[·]?) = f.slots.map (f.distinct[·]?) := by
        refine List.map_congr_left fun slot hslot => ?_
        exact List.getElem?_append_left (h.made.lt slot hslot)
      rw [List.map_append, List.map_append, hkept, h.holds]
      simp
    · intro c b hslot
      simp only [overwritten] at hslot ⊢
      split_ifs at hslot ⊢ with hentry
      · exact List.getElem?_concat_length
      · exact getElem?_append_of_some (h.cached c b hslot) [code]
  · push Not at hmiss
    obtain ⟨hslot, hcode⟩ := hmiss
    have hholds := h.cached (position % W) (bucketOf code) hslot
    obtain ⟨hlt, -⟩ := List.getElem?_eq_some_iff.mp hholds
    refine ⟨?_, h.made.append (.old hlt (.nil _)), h.cached⟩
    rw [List.map_append, List.map_append, h.holds]
    simp only [List.map_cons, List.map_nil, hholds, hcode]

theorem Found.Sound.meetAll {f : Found} {codes : List TermCode} (h : f.Sound codes) (W : ℕ)
    (more : List TermCode) (position : ℕ) : (meetAll W more position f).Sound (codes ++ more) := by
  induction more generalizing f codes position with
  | nil => rwa [List.append_nil]
  | cons code more ih =>
    have hnext := ih (h.meet W position code) (position + 1)
    rwa [List.append_assoc, List.singleton_append] at hnext

theorem distinctCodes_spec (W : ℕ) (codes : List TermCode) :
    (distinctCodes W codes).2.map ((distinctCodes W codes).1[·]?) = codes.map some ∧
      Made 0 (distinctCodes W codes).2 (distinctCodes W codes).1.length := by
  have hnew : Found.new.Sound [] := ⟨rfl, .nil 0, fun c b hslot => absurd rfl hslot⟩
  have hall := hnew.meetAll W codes 0
  rw [List.nil_append] at hall
  exact ⟨hall.holds, hall.made⟩

/-- Two codes of one bucket evict each other. -/
example : distinctCodes 1 [7, 0, 7, 263, 0, 7, 263] =
    ([7, 0, 263, 7, 263], [0, 1, 0, 2, 1, 3, 4]) := by
  decide

end Sharing
