/-
The value counts of a zone: its distinct values with their rows, or too many to record.

The counts are gathered in batches, merged, stored as a state and read back, in any
order.

* `Counts.add`, `addAll`, `recorded` — one value's rows, a batch's, and the record;
* `stateOf`, `pairs`, `decodeState` — the state a record is stored as;
* `accumulate`, `mergePartials`, `toScalar`, `partialFromScalar` — the aggregate;
* `Counts.Exact` — counts that are right, or past their limits for good;
* `Build`, `run_exact` — any way of gathering the counts keeps them so;
* `valueCounts_exactOrAbsent` — the record is exact or absent, however built.
-/
import VortexRdf.Tallies

namespace Store

open Ascending Tallies

def VALUE_COUNTS_ID : String := "vortexrdf.value_counts"

/-- Distinct values a zone records at most. -/
def MAX_VALUES : ℕ := 16

def U32_MAX : ℕ := 2 ^ 32 - 1

/-- A zone's counts so far, ascending by value, or too many values to record. -/
inductive Counts where
  | values (pairs : List (ℕ × ℕ))
  | tooMany
  deriving DecidableEq

namespace Counts

def new : Counts := .values []

def isTooMany : Counts → Bool
  | values _ => false
  | tooMany => true

/-- Count `n` rows of a value; the counts are `u64`. -/
def add (counts : Counts) (value n max : ℕ) : Counts :=
  match counts with
  | tooMany => tooMany
  | values pairs =>
    match searchByKey pairs value with
    | .ok place => values (pairs.modify place fun pair => (pair.1, (pair.2 + n) % 2 ^ 64))
    | .error place =>
      if max ≤ pairs.length then tooMany else values (pairs.insertIdx place (value, n))

/-- Count what is left of a batch, a run of one value at a time. -/
def addAllLoop (max : ℕ) : ℕ → List ℕ → Counts → Counts
  | 0, _, counts => counts
  | fuel + 1, rest, counts =>
    match rest with
    | [] => counts
    | value :: _ =>
      if counts.isTooMany then counts
      else
        let run := (rest.takeWhile (· == value)).length
        addAllLoop max fuel (rest.drop run) (counts.add value run max)

def addAll (counts : Counts) (batch : List ℕ) (max : ℕ) : Counts :=
  addAllLoop max batch.length batch counts

/-- A pair as a state holds it, its count a `u32`. -/
def narrowed (pair : ℕ × ℕ) : Option (ℕ × ℕ) := if pair.2 ≤ U32_MAX then some pair else none

def recorded : Counts → Option (List (ℕ × ℕ))
  | tooMany => none
  | values pairs => pairs.mapM narrowed

end Counts

/-! ### States -/

/-- A stored state: null, or a list of values and one of counts. -/
abbrev State : Type := Option (List ℕ × List ℕ)

def stateOf (values counts : List ℕ) : State := some (values, counts)

/-- The values with their counts, where the two make a state the aggregate writes. -/
def pairs (values counts : List ℕ) : Option (List (ℕ × ℕ)) :=
  if values.length = counts.length ∧ values.length ≤ MAX_VALUES ∧ values.IsChain (· < ·) ∧
      counts.all (0 < ·) then some (values.zip counts)
  else none

def decodeState : State → Option (List (ℕ × ℕ))
  | none => none
  | some (values, counts) => pairs values counts

/-! ### The aggregate -/

/-- A batch of a column: one value throughout, its values, or another kind's. -/
inductive Columnar where
  | constant (value : Option ℕ) (len : ℕ)
  | primitive (values : List ℕ)
  | other (dtype : String)

def accumulate (max : ℕ) (counts : Counts) : Columnar → Except String Counts
  | .constant (some value) len => .ok (counts.add value len max)
  | .constant none _ => .ok .tooMany
  | .primitive values => .ok (counts.addAll values max)
  | .other dtype => .error (VALUE_COUNTS_ID ++ " counts u64 columns, not " ++ dtype)

/-- The second partial's values counted into the first. -/
def mergePartials (max : ℕ) : Counts → Counts → Counts
  | .values merged, .values second =>
    second.foldl (fun out pair => out.add pair.1 pair.2 max) (.values merged)
  | _, _ => .tooMany

def toScalar (counts : Counts) : State :=
  match counts.recorded with
  | none => none
  | some recorded => stateOf (recorded.map Prod.fst) (recorded.map Prod.snd)

def partialFromScalar (state : State) : Counts :=
  match decodeState state with
  | none => .tooMany
  | some pairs => .values pairs

/-! ### Counts that are right -/

/-- More distinct values than are recorded, or more rows of one than a state holds. -/
def PastLimit (max : ℕ) (f : ℕ → ℕ) : Prop :=
  (∃ keys : Finset ℕ, max < keys.card ∧ ∀ v ∈ keys, 0 < f v) ∨ ∃ v, U32_MAX < f v

theorem PastLimit.mono {max : ℕ} {f g : ℕ → ℕ} (h : PastLimit max f) (hle : ∀ v, f v ≤ g v) :
    PastLimit max g := by
  rcases h with ⟨keys, hcard, hkeys⟩ | ⟨v, hv⟩
  · exact Or.inl ⟨keys, hcard, fun v hv => lt_of_lt_of_le (hkeys v hv) (hle v)⟩
  · exact Or.inr ⟨v, lt_of_lt_of_le hv (hle v)⟩

theorem pastLimit_of_lists {max : ℕ} {f : ℕ → ℕ} {pairs : List (ℕ × ℕ)} (h : Lists pairs f)
    (hlen : max < pairs.length) : PastLimit max f := by
  refine Or.inl ⟨(pairs.map Prod.fst).toFinset, by rwa [h.card_keys], fun v hv => ?_⟩
  exact (h.mem_keys_iff v).mp (List.mem_toFinset.mp hv)

/-- The counts are those of a count function, or it is past their limits. -/
def Counts.Exact (max : ℕ) (f : ℕ → ℕ) : Counts → Prop
  | values pairs => Lists pairs f ∧ pairs.length ≤ max
  | tooMany => PastLimit max f

section Exact

variable {max : ℕ} {f g : ℕ → ℕ} {counts other : Counts} {value n : ℕ}

theorem new_exact (max : ℕ) : Counts.new.Exact max fun _ => 0 := ⟨lists_nil, Nat.zero_le max⟩

theorem bump_ge (f : ℕ → ℕ) (value n v : ℕ) : f v ≤ bump f value n v := Nat.le_add_right _ _

/-- Rows of one value more keep the counts right. -/
theorem add_exact (h : counts.Exact max f) (hn : 0 < n) (hfit : f value + n ≤ 2 ^ 64 - 1) :
    (counts.add value n max).Exact max (bump f value n) := by
  cases counts with
  | tooMany => exact PastLimit.mono h (bump_ge f value n)
  | values pairs =>
    obtain ⟨hlists, hlen⟩ := h
    obtain ⟨low, high, rfl, hlow, hfound | ⟨hhigh, hplace⟩⟩ :=
      searchByKey_split hlists.ascending value
    · obtain ⟨m, rest, rfl, hplace⟩ := hfound
      obtain ⟨-, rfl⟩ := (hlists.mem_iff value m).mp (by simp)
      have hwrap : (f value + n) % 2 ^ 64 = f value + n := Nat.mod_eq_of_lt (by omega)
      simp only [Counts.add, hplace, modify_middle, hwrap]
      refine ⟨hlists.raise, ?_⟩
      rw [List.length_append, List.length_cons] at hlen ⊢
      exact hlen
    · obtain ⟨-, hnext⟩ := hlists.insert hlow hhigh hn
      have hmore : (low ++ (value, n) :: high).length = (low ++ high).length + 1 := by
        rw [List.length_append, List.length_append, List.length_cons]
        omega
      simp only [Counts.add, hplace, insertIdx_middle]
      split_ifs with hfull
      · -- with this value there is one more than is recorded
        exact pastLimit_of_lists hnext (by omega)
      · exact ⟨hnext, by omega⟩

/-- A run of the batch's first value, and what is left behind it. -/
theorem run_split (value : ℕ) (rest : List ℕ) :
    ∃ run, ((value :: rest).takeWhile (· == value)).length = run ∧ 0 < run ∧
      ((value :: rest).drop run).length < (value :: rest).length ∧
      ∀ v, (value :: rest).count v =
        (if v = value then run else 0) + ((value :: rest).drop run).count v := by
  have hrun : (value :: rest).takeWhile (· == value) = value :: rest.takeWhile (· == value) := by
    rw [List.takeWhile_cons, if_pos (by simp)]
  refine ⟨_, rfl, by simp [hrun], ?_, fun v => ?_⟩
  · rw [List.length_drop, hrun, List.length_cons, List.length_cons]
    omega
  · have hall : (value :: rest).takeWhile (· == value) =
        List.replicate ((value :: rest).takeWhile (· == value)).length value := by
      refine List.eq_replicate_iff.mpr ⟨rfl, fun u hu => ?_⟩
      simpa using List.all_eq_true.mp List.all_takeWhile u hu
    have hdrop : (value :: rest).drop ((value :: rest).takeWhile (· == value)).length =
        (value :: rest).dropWhile (· == value) := drop_partitionPoint _ _
    have hsplit := List.takeWhile_append_dropWhile (p := (· == value)) (l := value :: rest)
    have hcount : (value :: rest).count v = ((value :: rest).takeWhile (· == value)).count v +
        ((value :: rest).dropWhile (· == value)).count v := by
      rw [← List.count_append, hsplit]
    rw [hcount, hdrop, hall, List.count_replicate, List.length_replicate]
    by_cases hv : v = value
    · rw [if_pos hv, if_pos (by simp [hv])]
    · rw [if_neg hv, if_neg (by simpa using Ne.symm hv)]

theorem addAllLoop_exact {fuel : ℕ} {rest : List ℕ} (hfuel : rest.length ≤ fuel)
    (h : counts.Exact max f) (hfit : ∀ v, f v + rest.count v ≤ 2 ^ 64 - 1) :
    (counts.addAllLoop max fuel rest).Exact max fun v => f v + rest.count v := by
  have hmono : ∀ v, f v ≤ f v + rest.count v := fun v => Nat.le_add_right _ _
  induction fuel generalizing rest counts f with
  | zero =>
    obtain rfl : rest = [] := List.length_eq_zero_iff.mp (Nat.le_zero.mp hfuel)
    simpa [Counts.addAllLoop] using h
  | succ fuel ih =>
    cases rest with
    | nil => simpa [Counts.addAllLoop] using h
    | cons value rest =>
      rw [Counts.addAllLoop]
      dsimp only
      split_ifs with hmany
      · cases counts with
        | values pairs => cases hmany
        | tooMany => exact PastLimit.mono h hmono
      · obtain ⟨run, hrun, hpos, hless, hcount⟩ := run_split value rest
        rw [hrun]
        have hsum : ∀ v, bump f value run v + ((value :: rest).drop run).count v =
            f v + (value :: rest).count v := by
          intro v
          rw [bump, hcount v]
          omega
        have hvalue : f value + run ≤ 2 ^ 64 - 1 := by
          have := hfit value
          rw [hcount value, if_pos rfl] at this
          omega
        have hrest : ((value :: rest).drop run).length ≤ fuel := by omega
        have hnext := ih hrest (add_exact h hpos hvalue)
          (fun v => by rw [hsum]; exact hfit v) fun v => Nat.le_add_right _ _
        simpa only [hsum] using hnext

/-- A batch keeps the counts right. -/
theorem addAll_exact {batch : List ℕ} (h : counts.Exact max f)
    (hfit : ∀ v, f v + batch.count v ≤ 2 ^ 64 - 1) :
    (counts.addAll batch max).Exact max fun v => f v + batch.count v :=
  addAllLoop_exact le_rfl h hfit

theorem mergePartials_exact (h : counts.Exact max f) (hother : other.Exact max g)
    (hfit : ∀ v, f v + g v ≤ 2 ^ 64 - 1) :
    (mergePartials max counts other).Exact max fun v => f v + g v := by
  cases counts with
  | tooMany => exact PastLimit.mono h fun v => Nat.le_add_right _ _
  | values merged =>
    cases other with
    | tooMany => exact PastLimit.mono hother fun v => Nat.le_add_left _ _
    | values second =>
      have hstep : ∀ (c : Counts) (f : ℕ → ℕ) (v n : ℕ), c.Exact max f → 0 < n →
          f v + n ≤ 2 ^ 64 - 1 → (c.add v n max).Exact max (bump f v n) :=
        fun c f v n hc hn hle => add_exact hc hn hle
      exact foldl_listed (fun c f => Counts.Exact max f c)
        (fun out pair => out.add pair.1 pair.2 max) hstep h hother.1 hfit

/-! ### Records -/

theorem recorded_values (pairs : List (ℕ × ℕ)) : (Counts.values pairs).recorded =
    if ∀ pair ∈ pairs, pair.2 ≤ U32_MAX then some pairs else none := by
  rw [Counts.recorded]
  induction pairs with
  | nil => rfl
  | cons pair pairs ih =>
    have hall : (∀ each ∈ pair :: pairs, each.2 ≤ U32_MAX) ↔
        pair.2 ≤ U32_MAX ∧ ∀ each ∈ pairs, each.2 ≤ U32_MAX := List.forall_mem_cons
    rw [List.mapM_cons, ih, Counts.narrowed]
    simp only [hall]
    by_cases hpair : pair.2 ≤ U32_MAX
    · by_cases hpairs : ∀ each ∈ pairs, each.2 ≤ U32_MAX
      · rw [if_pos hpair, if_pos hpairs, if_pos ⟨hpair, hpairs⟩]
        rfl
      · have hnot : ¬ (pair.2 ≤ U32_MAX ∧ ∀ each ∈ pairs, each.2 ≤ U32_MAX) :=
          fun hboth => hpairs hboth.2
        rw [if_pos hpair, if_neg hpairs, if_neg hnot]
        rfl
    · have hnot : ¬ (pair.2 ≤ U32_MAX ∧ ∀ each ∈ pairs, each.2 ≤ U32_MAX) :=
        fun hboth => hpair hboth.1
      rw [if_neg hpair, if_neg hnot]
      rfl

/-- The record of a zone's rows: every value's count, when neither the values nor any
count pass their limits. -/
def recordOf (max : ℕ) (rows : List ℕ) : Option (List (ℕ × ℕ)) :=
  if rows.toFinset.card ≤ max ∧ ∀ v ∈ rows, rows.count v ≤ U32_MAX then some (ofRows rows) else none

theorem recorded_exact {rows : List ℕ} (h : counts.Exact max rows.count) :
    counts.recorded = recordOf max rows := by
  rw [recordOf]
  cases counts with
  | tooMany =>
    rw [if_neg]
    · rfl
    rintro ⟨hcard, hcounts⟩
    rcases h with ⟨keys, hkeys, hpos⟩ | ⟨v, hv⟩
    · have hsub : keys ⊆ rows.toFinset := fun v hv =>
        List.mem_toFinset.mpr (List.count_pos_iff.mp (hpos v hv))
      have := Finset.card_le_card hsub
      omega
    · have hmem : v ∈ rows := List.count_pos_iff.mp (lt_of_le_of_lt (Nat.zero_le _) hv)
      exact absurd (hcounts v hmem) (Nat.not_le.mpr hv)
  | values pairs =>
    obtain ⟨hlists, hlen⟩ := h
    have hall : (∀ pair ∈ pairs, pair.2 ≤ U32_MAX) ↔ ∀ v ∈ rows, rows.count v ≤ U32_MAX := by
      constructor
      · intro hpairs v hv
        exact hpairs (v, rows.count v) ((hlists.mem_iff v _).mpr ⟨List.count_pos_iff.mpr hv, rfl⟩)
      · rintro hrows ⟨v, n⟩ hpair
        obtain ⟨hpos, rfl⟩ := (hlists.mem_iff v n).mp hpair
        exact hrows v (List.count_pos_iff.mp hpos)
    rw [recorded_values, hlists.eq_of_rows.symm, ← hlists.length_eq]
    simp only [hall, hlen, true_and]

/-! ### Stored partials -/

/-- A state reads back as the record it was written from. -/
theorem decodeState_toScalar (h : counts.Exact max f) (hmax : max ≤ MAX_VALUES) :
    decodeState (toScalar counts) = counts.recorded := by
  cases counts with
  | tooMany => rfl
  | values pairs =>
    obtain ⟨hlists, hlen⟩ := h
    have hchain : (pairs.map Prod.fst).IsChain (· < ·) :=
      (List.pairwise_map.mpr hlists.ascending).isChain
    have hcounts : (pairs.map Prod.snd).all (0 < ·) = true := by
      refine List.all_eq_true.mpr fun n hn => ?_
      obtain ⟨⟨v, k⟩, hpair, rfl⟩ := List.mem_map.mp hn
      exact decide_eq_true ((hlists.mem_iff v k).mp hpair).1
    rw [toScalar, recorded_values]
    by_cases hall : ∀ pair ∈ pairs, pair.2 ≤ U32_MAX
    · have hwritten : (pairs.map Prod.fst).length = (pairs.map Prod.snd).length ∧
          (pairs.map Prod.fst).length ≤ MAX_VALUES ∧ (pairs.map Prod.fst).IsChain (· < ·) ∧
          (pairs.map Prod.snd).all (0 < ·) = true := by
        refine ⟨by rw [List.length_map, List.length_map], ?_, hchain, hcounts⟩
        rw [List.length_map]
        exact hlen.trans hmax
      have hzip : (pairs.map Prod.fst).zip (pairs.map Prod.snd) = pairs := by
        rw [List.zip_map']
        exact List.map_id pairs
      rw [if_pos hall]
      show Store.pairs _ _ = _
      rw [Store.pairs, if_pos hwritten, hzip]
    · rw [if_neg hall]
      rfl

/-- A partial stored and read back: itself, or one too many to record. -/
theorem partialFromScalar_toScalar (h : counts.Exact max f) (hmax : max ≤ MAX_VALUES) :
    partialFromScalar (toScalar counts) =
      if counts.recorded.isSome then counts else .tooMany := by
  rw [partialFromScalar, decodeState_toScalar h hmax]
  cases counts with
  | tooMany => rfl
  | values pairs =>
    rw [recorded_values]
    by_cases hall : ∀ pair ∈ pairs, pair.2 ≤ U32_MAX
    · rw [if_pos hall]
      rfl
    · rw [if_neg hall]
      rfl

theorem stored_exact (h : counts.Exact max f) (hmax : max ≤ MAX_VALUES) :
    (partialFromScalar (toScalar counts)).Exact max f := by
  rw [partialFromScalar_toScalar h hmax]
  cases counts with
  | tooMany => exact h
  | values pairs =>
    rw [recorded_values]
    by_cases hall : ∀ pair ∈ pairs, pair.2 ≤ U32_MAX
    · rw [if_pos hall]
      exact h
    · rw [if_neg hall]
      -- a count no state holds is more than any record has
      push Not at hall
      obtain ⟨⟨v, n⟩, hpair, hn⟩ := hall
      obtain ⟨-, rfl⟩ := (h.1.mem_iff v n).mp hpair
      exact Or.inr ⟨v, hn⟩

end Exact

/-! ### Ways of building a record -/

/-- A way the counts of a column are gathered. -/
inductive Build where
  | empty
  | batch (first : Build) (rows : Columnar)
  | merge (first second : Build)
  | stored (first : Build)

/-- A batch of a `u64` column, a constant of no rows left out. -/
def Columnar.Counted : Columnar → Prop
  | constant (some _) len => 0 < len
  | primitive _ => True
  | _ => False

def Columnar.rows : Columnar → List ℕ
  | constant (some value) len => List.replicate len value
  | primitive values => values
  | _ => []

namespace Build

def run (max : ℕ) : Build → Except String Counts
  | empty => .ok Counts.new
  | batch first rows => do
    let counts ← first.run max
    accumulate max counts rows
  | merge first second => do
    let first ← first.run max
    let second ← second.run max
    return mergePartials max first second
  | stored first => do
    let counts ← first.run max
    return partialFromScalar (toScalar counts)

/-- The rows counted. -/
def rows : Build → List ℕ
  | empty => []
  | batch first rows => first.rows ++ rows.rows
  | merge first second => first.rows ++ second.rows
  | stored first => first.rows

def Counted : Build → Prop
  | empty => True
  | batch first rows => first.Counted ∧ rows.Counted
  | merge first second => first.Counted ∧ second.Counted
  | stored first => first.Counted

end Build

theorem accumulate_exact {max : ℕ} {f : ℕ → ℕ} {counts : Counts} {batch : Columnar}
    (h : counts.Exact max f) (hbatch : batch.Counted)
    (hfit : ∀ v, f v + batch.rows.count v ≤ 2 ^ 64 - 1) :
    ∃ next, accumulate max counts batch = .ok next ∧
      next.Exact max fun v => f v + batch.rows.count v := by
  cases batch with
  | other dtype => cases hbatch
  | primitive values => exact ⟨_, rfl, addAll_exact h hfit⟩
  | constant value len =>
    cases value with
    | none => cases hbatch
    | some value =>
      have hcount : (fun v => f v + (List.replicate len value).count v) = bump f value len := by
        funext v
        rw [List.count_replicate, bump]
        by_cases hv : v = value
        · rw [if_pos hv, if_pos (by simp [hv])]
        · rw [if_neg hv, if_neg (by simpa using Ne.symm hv)]
      refine ⟨_, rfl, ?_⟩
      show Counts.Exact max (fun v => f v + (List.replicate len value).count v) _
      rw [hcount]
      refine add_exact h hbatch ?_
      have := hfit value
      rwa [show (Columnar.constant (some value) len).rows.count value = len from
        List.count_replicate_self] at this

/-- Counts gathered in any way are right. -/
theorem run_exact {max : ℕ} (hmax : max ≤ MAX_VALUES) {b : Build} (hb : b.Counted)
    (hrows : b.rows.length < 2 ^ 64) :
    ∃ counts, b.run max = .ok counts ∧ counts.Exact max b.rows.count := by
  have happend : ∀ l l' : List ℕ, (fun v => l.count v + l'.count v) = (l ++ l').count := by
    intro l l'
    funext v
    exact List.count_append.symm
  have hfit : ∀ l l' : List ℕ, (l ++ l').length < 2 ^ 64 →
      ∀ v, l.count v + l'.count v ≤ 2 ^ 64 - 1 := by
    intro l l' hlen v
    have hle := List.count_le_length (a := v) (l := l ++ l')
    rw [List.count_append] at hle
    omega
  induction b with
  | empty =>
    have hzero : (fun _ => 0) = Build.empty.rows.count := rfl
    exact ⟨_, rfl, hzero ▸ new_exact max⟩
  | batch first batch ih =>
    obtain ⟨hfirst, hbatch⟩ := hb
    have hlen : (first.rows ++ batch.rows).length < 2 ^ 64 := hrows
    obtain ⟨counts, hrun, hexact⟩ := ih hfirst (by rw [List.length_append] at hlen; omega)
    obtain ⟨next, hnext, hright⟩ := accumulate_exact hexact hbatch (hfit _ _ hlen)
    refine ⟨next, by rw [Build.run, hrun]; exact hnext, ?_⟩
    rwa [happend] at hright
  | merge first second ih ih' =>
    obtain ⟨hfirst, hsecond⟩ := hb
    have hlen : (first.rows ++ second.rows).length < 2 ^ 64 := hrows
    obtain ⟨counts, hrun, hexact⟩ := ih hfirst (by rw [List.length_append] at hlen; omega)
    obtain ⟨other, hrun', hexact'⟩ := ih' hsecond (by rw [List.length_append] at hlen; omega)
    have hright := mergePartials_exact hexact hexact' (hfit _ _ hlen)
    refine ⟨_, by rw [Build.run, hrun, hrun']; rfl, ?_⟩
    rwa [happend] at hright
  | stored first ih =>
    obtain ⟨counts, hrun, hexact⟩ := ih hb hrows
    exact ⟨_, by rw [Build.run, hrun]; rfl, stored_exact hexact hmax⟩

theorem recordOf_eq_some_iff {max : ℕ} {rows : List ℕ} {pairs : List (ℕ × ℕ)} :
    recordOf max rows = some pairs ↔
      rows.toFinset.card ≤ max ∧ (∀ v ∈ rows, rows.count v ≤ U32_MAX) ∧ Lists pairs rows.count := by
  rw [recordOf]
  constructor
  · intro h
    split_ifs at h with hfits
    obtain rfl := Option.some.inj h
    exact ⟨hfits.1, hfits.2, lists_ofRows rows⟩
  · rintro ⟨hcard, hcounts, hlists⟩
    rw [if_pos ⟨hcard, hcounts⟩, hlists.eq_of_rows]

/-- **Value counts are exact or absent, however built.** In whatever batches, partials and
merges a zone's rows are counted, stored and read back or not, the record lists every value
with its rows when there are at most `max` of them and no count passes a `u32`, and there is
none otherwise; a partial reads back as itself, or when it has no record as one too many to
record. -/
theorem valueCounts_exactOrAbsent {max : ℕ} (hmax : max ≤ MAX_VALUES) {b : Build}
    (hb : b.Counted) (hrows : b.rows.length < 2 ^ 64) :
    ∃ counts, b.run max = .ok counts ∧
      (∀ pairs, counts.recorded = some pairs ↔ b.rows.toFinset.card ≤ max ∧
        (∀ v ∈ b.rows, b.rows.count v ≤ U32_MAX) ∧ Lists pairs b.rows.count) ∧
      (counts.recorded = none ↔
        ¬ (b.rows.toFinset.card ≤ max ∧ ∀ v ∈ b.rows, b.rows.count v ≤ U32_MAX)) ∧
      decodeState (toScalar counts) = counts.recorded ∧
      partialFromScalar (toScalar counts) = if counts.recorded.isSome then counts else .tooMany := by
  obtain ⟨counts, hrun, hexact⟩ := run_exact hmax hb hrows
  have hrecord : counts.recorded = recordOf max b.rows := recorded_exact hexact
  refine ⟨counts, hrun, fun pairs => by rw [hrecord, recordOf_eq_some_iff], ?_,
    decodeState_toScalar hexact hmax, partialFromScalar_toScalar hexact hmax⟩
  rw [hrecord, recordOf]
  by_cases hfits : b.rows.toFinset.card ≤ max ∧ ∀ v ∈ b.rows, b.rows.count v ≤ U32_MAX
  · rw [if_pos hfits]
    exact iff_of_false (Option.some_ne_none _) fun hnot => hnot hfits
  · rw [if_neg hfits]
    exact iff_of_true rfl hfits

/-- Five rows counted in two partials, one of them stored. -/
def buildSample : Build :=
  .merge (.stored (.batch .empty (.primitive [5, 3, 5]))) (.batch .empty (.constant (some 3) 2))

theorem valueCounts_exactOrAbsent_sample :
    buildSample.run MAX_VALUES = .ok (.values [(3, 3), (5, 2)]) ∧
      Lists [(3, 3), (5, 2)] buildSample.rows.count ∧
      decodeState (toScalar (.values [(3, 3), (5, 2)])) = some [(3, 3), (5, 2)] := by
  have hcounts : buildSample.run MAX_VALUES = .ok (.values [(3, 3), (5, 2)]) := rfl
  obtain ⟨counts, hrun, hsome, -, hdecode, -⟩ := @valueCounts_exactOrAbsent MAX_VALUES le_rfl
    buildSample ⟨⟨trivial, trivial⟩, ⟨trivial, Nat.two_pos⟩⟩ (by decide)
  obtain rfl := Except.ok.inj (hrun.symm.trans hcounts)
  exact ⟨hcounts, ((hsome _).mp rfl).2.2, hdecode⟩

/-- Seventeen values that an aggregate of seventeen records are not read back, and no rows of
a constant are a count of none. -/
theorem valueCounts_wideAggregate :
    (List.range 17).toFinset.card ≤ 17 ∧ (∀ v ∈ List.range 17, (List.range 17).count v ≤ U32_MAX) ∧
    (Build.batch .empty (.primitive (List.range 17))).run 17 =
      .ok (.values ((List.range 17).map fun v => (v, 1))) ∧
    (Build.stored (.batch .empty (.primitive (List.range 17)))).run 17 = .ok .tooMany ∧
    (Build.batch .empty (.constant (some 7) 0)).run MAX_VALUES = .ok (.values [(7, 0)]) ∧
    (Build.stored (.batch .empty (.constant (some 7) 0))).run MAX_VALUES = .ok .tooMany :=
  ⟨by decide, by decide, rfl, rfl, rfl, rfl⟩

end Store
