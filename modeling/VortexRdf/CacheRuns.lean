/-
The window cache over a whole run of lookups and inserts.

A run starts from an empty cache and takes any lookups and inserts, each insert with any
chunk and any charge.  The cache's sums are of charges within the budget, so each is at
most twice the budget.

* `CacheOp`, `step`, `after` — an operation, what it does, and the cache a run leaves;
* `step_cases` — the four things an operation can do;
* `dropped_spec` — the windows an insert drops: the oldest, and no more than it needs;
* `Traced` — what every cache of a run satisfies; the stamps follow the operations;
* `holdsChunk_step` — a window is held by being inserted, and no longer once evicted;
* `window_cache_never_lies` — the cache of any run.
-/
import VortexRdf.WindowCache

namespace Dictionary

namespace WindowCache

/-! ### Runs -/

inductive CacheOp where
  | get (w : ℕ)
  | insert (w : ℕ) (chunk : TermChunk) (charge : ℕ)

def CacheOp.window : CacheOp → ℕ
  | get w => w
  | insert w _ _ => w

/-- An operation: the chunk it gives its caller, and the cache it leaves. -/
def step (cache : WindowCache) : CacheOp → Option TermChunk × WindowCache
  | .get w => cache.get w
  | .insert w chunk charge =>
    let (used, cache) := cache.insert w chunk charge
    (some used, cache)

/-- The cache after some operations on an empty one. -/
def after (budget : ℕ) (ops : List CacheOp) : WindowCache :=
  ops.foldl (fun cache op => (cache.step op).2) (new budget)

/-- What operation `k` of a run gave its caller. -/
def answer (budget : ℕ) (ops : List CacheOp) (k : ℕ) : Option TermChunk :=
  ops[k]?.bind fun op => ((after budget (ops.take k)).step op).1

/-- The windows an insert drops for its charge, in the order it drops them. -/
def dropped (charge : ℕ) : ℕ → WindowCache → List CachedWindow
  | 0, _ => []
  | fuel + 1, cache =>
    if cache.budget < cache.bytes + charge then
      match cache.windows.argmin CachedWindow.lastUse with
      | none => []
      | some oldest => oldest :: dropped charge fuel (cache.remove oldest)
    else []

def Holds (cache : WindowCache) (w : ℕ) : Prop := ∃ held ∈ cache.windows, held.window = w

def HoldsChunk (cache : WindowCache) (w : ℕ) (chunk : TermChunk) : Prop :=
  ∃ held ∈ cache.windows, held.window = w ∧ held.chunk = chunk

/-- The cache with window `w` marked the most recently used. -/
def touched (cache : WindowCache) (w : ℕ) : WindowCache :=
  { cache with
    clock := cache.clock + 1
    windows := cache.windows.map (CachedWindow.touch w (cache.clock + 1)) }

/-- What is left of the cache once a charge fits. -/
def left (cache : WindowCache) (charge : ℕ) : WindowCache :=
  evict charge cache.windows.length cache

/-- The cache with a window kept in the room made for it. -/
def put (cache : WindowCache) (w : ℕ) (chunk : TermChunk) (charge : ℕ) : WindowCache :=
  { cache.left charge with
    clock := (cache.left charge).clock + 1
    bytes := (cache.left charge).bytes + charge
    windows := (cache.left charge).windows ++ [⟨w, chunk, charge, (cache.left charge).clock + 1⟩] }

variable {read : ℕ → TermChunk} {cache : WindowCache}

theorem HoldsChunk.holds {w : ℕ} {chunk : TermChunk} (h : cache.HoldsChunk w chunk) :
    cache.Holds w := by
  obtain ⟨held, hheld, hw, -⟩ := h
  exact ⟨held, hheld, hw⟩

/-- A lookup finds the one window held under its index. -/
theorem get_of_mem (h : Kept read cache) {held : CachedWindow} (hheld : held ∈ cache.windows) :
    cache.get held.window = (some held.chunk, cache.touched held.window) := by
  rw [get]
  cases hfind : cache.windows.find? (·.window == held.window) with
  | none => exact absurd (List.find?_eq_none.mp hfind held hheld) (by simp)
  | some cached =>
    have hw : cached.window = held.window := by simpa using List.find?_some hfind
    rw [h.eq_of_window (List.mem_of_find?_eq_some hfind) hheld hw]
    rfl

theorem get_of_not_holds {w : ℕ} (h : ¬cache.Holds w) : cache.get w = (none, cache) := by
  rw [get, List.find?_eq_none.mpr]
  intro held hheld heq
  exact h ⟨held, hheld, by simpa using heq⟩

/-- What an operation does: it hits, misses, is too large to be kept, or is put in. -/
theorem step_cases (h : Kept read cache) (op : CacheOp) :
    (∃ held ∈ cache.windows, held.window = op.window ∧
      cache.step op = (some held.chunk, cache.touched op.window)) ∨
    (¬cache.Holds op.window ∧ op = .get op.window ∧ cache.step op = (none, cache)) ∨
    (¬cache.Holds op.window ∧ ∃ chunk charge, op = .insert op.window chunk charge ∧
      cache.budget < charge ∧ cache.step op = (some chunk, cache)) ∨
    (¬cache.Holds op.window ∧ ∃ chunk charge, op = .insert op.window chunk charge ∧
      charge ≤ cache.budget ∧ cache.step op = (some chunk, cache.put op.window chunk charge)) := by
  by_cases hholds : cache.Holds op.window
  · obtain ⟨held, hheld, hw⟩ := hholds
    have hget := get_of_mem h hheld
    refine Or.inl ⟨held, hheld, hw, ?_⟩
    rw [hw] at hget
    cases op with
    | get w => exact hget
    | insert w chunk charge =>
      show (some (cache.insert w chunk charge).1, (cache.insert w chunk charge).2) = _
      rw [insert, show cache.get w = _ from hget]
  · have hget := get_of_not_holds hholds
    refine Or.inr ?_
    cases op with
    | get w => exact Or.inl ⟨hholds, rfl, hget⟩
    | insert w chunk charge =>
      have hinsert : cache.insert w chunk charge = if cache.budget < charge then (chunk, cache) else
          (chunk, cache.put w chunk charge) := by
        rw [insert, show cache.get w = _ from hget]
        rfl
      refine Or.inr ?_
      by_cases hover : cache.budget < charge
      · refine Or.inl ⟨hholds, chunk, charge, rfl, hover, ?_⟩
        show (some (cache.insert w chunk charge).1, (cache.insert w chunk charge).2) = _
        rw [hinsert, if_pos hover]
      · refine Or.inr ⟨hholds, chunk, charge, rfl, Nat.le_of_not_lt hover, ?_⟩
        show (some (cache.insert w chunk charge).1, (cache.insert w chunk charge).2) = _
        rw [hinsert, if_neg hover]
        rfl

/-! ### What an insert drops -/

/-- The windows dropped are the oldest ones, each dropped because the charge did not fit
without it. -/
theorem dropped_spec {charge : ℕ} : ∀ {fuel : ℕ} {cache : WindowCache}, Kept read cache →
    cache.windows.length ≤ fuel →
    cache.windows.Perm (dropped charge fuel cache ++ (evict charge fuel cache).windows) ∧
      (dropped charge fuel cache).Pairwise (fun a b => a.lastUse < b.lastUse) ∧
      ∀ front oldest back, dropped charge fuel cache = front ++ oldest :: back →
        cache.budget + (front.map CachedWindow.bytes).sum < cache.bytes + charge
  | 0, cache, h, hfuel => by
    have hnil : cache.windows = [] := List.length_eq_zero_iff.mp (Nat.le_zero.mp hfuel)
    refine ⟨List.Perm.refl _, List.Pairwise.nil, fun front oldest back heq => ?_⟩
    exact absurd heq.symm (List.append_ne_nil_of_right_ne_nil front (List.cons_ne_nil _ _))
  | fuel + 1, cache, h, hfuel => by
    rw [dropped, evict]
    by_cases hfull : cache.budget < cache.bytes + charge
    · rw [if_pos hfull, if_pos hfull]
      cases hmin : cache.windows.argmin CachedWindow.lastUse with
      | none =>
        refine ⟨List.Perm.refl _, List.Pairwise.nil, fun front oldest back heq => ?_⟩
        exact absurd heq.symm (List.append_ne_nil_of_right_ne_nil front (List.cons_ne_nil _ _))
      | some oldest =>
        have hmem := List.argmin_mem hmin
        have hstep := h.remove hmin
        have hperm := h.remove_perm hmem
        have hshorter : (cache.remove oldest).windows.length + 1 = cache.windows.length := by
          rw [hperm.length_eq, List.length_cons]
        obtain ⟨hrest, hsorted, hneed⟩ := @dropped_spec charge fuel _ hstep.kept (by omega)
        have hout : oldest ∉ (cache.remove oldest).windows := fun hin => by
          simpa using (List.mem_filter.mp hin).2
        refine ⟨hperm.trans (hrest.cons oldest), List.pairwise_cons.mpr ⟨?_, hsorted⟩, ?_⟩
        · intro gone hgone
          exact hstep.oldest oldest hmem hout gone (hrest.mem_iff.mpr (List.mem_append_left _ hgone))
        · intro front last back heq
          cases front with
          | nil => exact hfull
          | cons first front =>
            obtain ⟨hfirst, hrest⟩ := List.cons.inj heq
            subst hfirst
            have hrec := hneed front last back hrest
            have hsum := (hperm.map CachedWindow.bytes).sum_eq
            have hleft := hstep.kept.bytes
            have hwhole := h.bytes
            rw [List.map_cons, List.sum_cons] at hsum ⊢
            have hbudget : (cache.remove oldest).budget = cache.budget := rfl
            omega
    · rw [if_neg hfull, if_neg hfull]
      refine ⟨List.Perm.refl _, List.Pairwise.nil, fun front oldest back heq => ?_⟩
      exact absurd heq.symm (List.append_ne_nil_of_right_ne_nil front (List.cons_ne_nil _ _))

/-- The room made for a charge the budget holds. -/
theorem left_spec (h : Kept read cache) {charge : ℕ} (hcharge : charge ≤ cache.budget) :
    Trimmed read cache (cache.left charge) ∧
      (cache.left charge).bytes + charge ≤ (cache.left charge).budget :=
  evict_spec h hcharge le_rfl

/-! ### What every cache of a run satisfies -/

/-- One past the last operation of a run on a window, zero when there is none. -/
def lastOp (ops : List CacheOp) (w : ℕ) : ℕ :=
  ops.length - ops.reverse.findIdx fun op => op.window == w

theorem lastOp_concat (ops : List CacheOp) (op : CacheOp) (w : ℕ) :
    lastOp (ops ++ [op]) w = if op.window = w then ops.length + 1 else lastOp ops w := by
  rw [lastOp, List.reverse_concat, List.findIdx_cons, List.length_append, List.length_singleton]
  by_cases hw : op.window = w
  · rw [if_pos hw, beq_iff_eq.mpr hw]
    rfl
  · rw [if_neg hw, beq_eq_false_iff_ne.mpr hw, lastOp]
    exact Nat.add_sub_add_right _ _ _

theorem lastOp_le (ops : List CacheOp) (w : ℕ) : lastOp ops w ≤ ops.length := Nat.sub_le _ _

theorem after_concat (budget : ℕ) (ops : List CacheOp) (op : CacheOp) :
    after budget (ops ++ [op]) = ((after budget ops).step op).2 := by
  rw [after, List.foldl_concat, ← after]

/-- A cache of a run: sound, and its stamps in the order of the last operations. -/
structure Traced (budget : ℕ) (ops : List CacheOp) (cache : WindowCache) : Prop where
  kept : ∃ read, Kept read cache
  budget_eq : cache.budget = budget
  clock_le : cache.clock ≤ ops.length
  order : ∀ a ∈ cache.windows, ∀ b ∈ cache.windows, a.lastUse < b.lastUse →
    lastOp ops a.window < lastOp ops b.window

theorem kept_touched (h : Kept read cache) (w : ℕ) : Kept read (cache.touched w) := h.restamp w

theorem kept_put (h : Kept read cache) {w charge : ℕ} (chunk : TermChunk)
    (habsent : ¬cache.Holds w) (hcharge : charge ≤ cache.budget) :
    ∃ read, Kept read (cache.put w chunk charge) := by
  -- no window held is `w`, so the cache is also one of the reads with the chunk in it
  have hupdate : Kept (Function.update read w chunk) cache := by
    refine ⟨fun held hheld => ?_, h.nodup, h.bytes, h.within, h.stamps, h.stamped⟩
    rw [Function.update_of_ne fun heq => habsent ⟨held, hheld, heq⟩]
    exact h.chunks held hheld
  have hinsert : cache.insert w chunk charge = (chunk, cache.put w chunk charge) := by
    rw [insert, get_of_not_holds habsent]
    dsimp only
    rw [if_neg (Nat.not_lt.mpr hcharge)]
    rfl
  obtain ⟨cache', heq, hkept⟩ := insert_spec hupdate w charge
  rw [Function.update_self, hinsert] at heq
  rw [(Prod.mk.inj heq).2]
  exact ⟨_, hkept⟩

theorem traced_step {budget : ℕ} {ops : List CacheOp} (h : Traced budget ops cache)
    (op : CacheOp) : Traced budget (ops ++ [op]) (cache.step op).2 := by
  obtain ⟨read, hkept⟩ := h.kept
  have hlen : (ops ++ [op]).length = ops.length + 1 := by
    rw [List.length_append, List.length_singleton]
  have hclock := h.clock_le
  have hle := lastOp_le ops
  -- an operation on a window that is not held leaves the order of those that are
  have hother : ¬cache.Holds op.window → ∀ a ∈ cache.windows,
      lastOp (ops ++ [op]) a.window = lastOp ops a.window := by
    intro habsent a ha
    rw [lastOp_concat, if_neg fun heq : op.window = a.window => habsent ⟨a, ha, heq.symm⟩]
  have hsame : ¬cache.Holds op.window → Traced budget (ops ++ [op]) cache := by
    intro habsent
    refine ⟨h.kept, h.budget_eq, by omega, fun a ha b hb hab => ?_⟩
    rw [hother habsent a ha, hother habsent b hb]
    exact h.order a ha b hb hab
  rcases step_cases hkept op with ⟨held, hheld, hw, hstep⟩ | ⟨habsent, -, hstep⟩ |
    ⟨habsent, chunk, charge, -, -, hstep⟩ | ⟨habsent, chunk, charge, -, hcharge, hstep⟩
  · rw [hstep]
    refine ⟨⟨read, kept_touched hkept _⟩, h.budget_eq, ?_, ?_⟩
    · show cache.clock + 1 ≤ _
      omega
    · intro a ha b hb hab
      replace ⟨a, ha, hea⟩ := List.mem_map.mp ha
      replace ⟨b, hb, heb⟩ := List.mem_map.mp hb
      subst hea heb
      rw [lastUse_touch, lastUse_touch] at hab
      rw [window_touch, window_touch, lastOp_concat, lastOp_concat]
      have hstamped := hkept.stamped
      by_cases hwa : a.window = op.window
      · rw [if_pos hwa] at hab
        by_cases hwb : b.window = op.window
        · rw [if_pos hwb] at hab
          omega
        · rw [if_neg hwb] at hab
          have := hstamped b hb
          omega
      · rw [if_neg hwa] at hab
        rw [if_neg (Ne.symm hwa)]
        by_cases hwb : b.window = op.window
        · rw [if_pos hwb.symm]
          have := hle a.window
          omega
        · rw [if_neg hwb] at hab
          rw [if_neg (Ne.symm hwb)]
          exact h.order a ha b hb hab
  · rw [hstep]
    exact hsame habsent
  · rw [hstep]
    exact hsame habsent
  · obtain ⟨htrim, -⟩ := left_spec hkept hcharge
    rw [hstep]
    refine ⟨kept_put hkept chunk habsent hcharge, htrim.budget.trans h.budget_eq, ?_, ?_⟩
    · show (cache.left charge).clock + 1 ≤ _
      rw [htrim.clock]
      omega
    · intro a ha b hb hab
      have hself : lastOp (ops ++ [op]) op.window = ops.length + 1 := by
        rw [lastOp_concat, if_pos rfl]
      rcases List.mem_append.mp ha with ha | ha
      · have ha' := htrim.sublist.subset ha
        rw [hother habsent a ha']
        rcases List.mem_append.mp hb with hb | hb
        · have hb' := htrim.sublist.subset hb
          rw [hother habsent b hb']
          exact h.order a ha' b hb' hab
        · rw [List.mem_singleton.mp hb, hself]
          have := hle a.window
          omega
      · -- the window put in has the newest stamp
        rw [List.mem_singleton.mp ha] at hab
        dsimp only at hab
        rcases List.mem_append.mp hb with hb | hb
        · have := htrim.kept.stamped b hb
          omega
        · rw [List.mem_singleton.mp hb] at hab
          exact absurd hab (Nat.lt_irrefl _)

theorem traced_after (budget : ℕ) (ops : List CacheOp) : Traced budget ops (after budget ops) := by
  induction ops using List.reverseRecOn with
  | nil =>
    refine ⟨⟨fun _ => default, kept_new _ budget⟩, rfl, le_rfl, fun a ha => ?_⟩
    exact absurd ha List.not_mem_nil
  | append_singleton ops op ih =>
    rw [after_concat]
    exact traced_step ih op

/-! ### Windows held are windows inserted and not evicted -/

/-- A window held after an operation was put in by it, or was held and stays. -/
theorem holdsChunk_step (h : Kept read cache) (op : CacheOp) (w : ℕ) (chunk : TermChunk) :
    (cache.step op).2.HoldsChunk w chunk ↔
      (∃ charge, op = .insert w chunk charge ∧ ¬cache.Holds w ∧ charge ≤ cache.budget) ∨
        (cache.HoldsChunk w chunk ∧ (cache.step op).2.Holds w) := by
  have hsame : (cache.step op).2 = cache →
      (¬∃ charge, op = .insert w chunk charge ∧ ¬cache.Holds w ∧ charge ≤ cache.budget) →
      ((cache.step op).2.HoldsChunk w chunk ↔
        (∃ charge, op = .insert w chunk charge ∧ ¬cache.Holds w ∧ charge ≤ cache.budget) ∨
          (cache.HoldsChunk w chunk ∧ (cache.step op).2.Holds w)) := by
    intro hstep hno
    rw [hstep, or_iff_right hno]
    exact ⟨fun hc => ⟨hc, hc.holds⟩, And.left⟩
  rcases step_cases h op with ⟨held, hheld, hw, hstep⟩ | ⟨habsent, hop, hstep⟩ |
    ⟨habsent, chunk', charge', hop, hover, hstep⟩ | ⟨habsent, chunk', charge', hop, hcharge, hstep⟩
  · -- a window held is only touched, with the chunk it had
    have hno : ¬∃ charge, op = .insert w chunk charge ∧ ¬cache.Holds w ∧ charge ≤ cache.budget := by
      rintro ⟨charge, rfl, habsent, -⟩
      exact habsent ⟨held, hheld, hw⟩
    rw [or_iff_right hno, hstep]
    constructor
    · rintro ⟨held', hheld', hw', hchunk⟩
      obtain ⟨old, hold, rfl⟩ := List.mem_map.mp hheld'
      refine ⟨⟨old, hold, ?_, ?_⟩, ⟨_, hheld', hw'⟩⟩
      · rwa [window_touch] at hw'
      · rwa [chunk_touch] at hchunk
    · rintro ⟨⟨old, hold, hw', hchunk⟩, -⟩
      refine ⟨_, List.mem_map_of_mem hold, ?_, ?_⟩
      · rwa [window_touch]
      · rwa [chunk_touch]
  · refine hsame (by rw [hstep]) ?_
    rintro ⟨charge, rfl, -, -⟩
    cases hop
  · refine hsame (by rw [hstep]) ?_
    rintro ⟨charge, rfl, -, hle⟩
    obtain ⟨-, -, rfl⟩ := CacheOp.insert.inj hop
    omega
  · -- an insert: the chunk is new, or its window was held and is not among those dropped
    obtain ⟨htrim, -⟩ := left_spec h hcharge
    rw [hstep]
    constructor
    · rintro ⟨held, hheld, hw, hchunk⟩
      rcases List.mem_append.mp hheld with hold | hnew
      · exact Or.inr ⟨⟨held, htrim.sublist.subset hold, hw, hchunk⟩, ⟨held, hheld, hw⟩⟩
      · rw [List.mem_singleton.mp hnew] at hw hchunk
        dsimp only at hw hchunk
        subst hw hchunk
        exact Or.inl ⟨charge', hop, habsent, hcharge⟩
    · rintro (⟨charge, rfl, -, -⟩ | ⟨⟨old, hold, hw, hchunk⟩, ⟨held, hheld, hwheld⟩⟩)
      · obtain ⟨-, rfl, -⟩ := CacheOp.insert.inj hop
        exact ⟨_, List.mem_append_right _ (List.mem_singleton_self _), rfl, rfl⟩
      · rcases List.mem_append.mp hheld with hstays | hnew
        · have heq := h.eq_of_window hold (htrim.sublist.subset hstays) (hw.trans hwheld.symm)
          exact ⟨old, List.mem_append_left _ (heq ▸ hstays), hw, hchunk⟩
        · rw [List.mem_singleton.mp hnew] at hwheld
          exact absurd ⟨old, hold, hw.trans hwheld.symm⟩ habsent

/-- Operation `k` of a run put a window in: it was not held, and within the budget. -/
def Inserted (budget : ℕ) (ops : List CacheOp) (k w : ℕ) (chunk : TermChunk) : Prop :=
  ∃ charge, ops[k]? = some (.insert w chunk charge) ∧ ¬(after budget (ops.take k)).Holds w ∧
    charge ≤ budget

/-- Operation `k` of a run evicted a window. -/
def Evicted (budget : ℕ) (ops : List CacheOp) (k w : ℕ) : Prop :=
  (after budget (ops.take k)).Holds w ∧ ¬(after budget (ops.take (k + 1))).Holds w

section Prefixes

variable {budget : ℕ} {ops : List CacheOp} {j k w : ℕ} {chunk : TermChunk}

theorem inserted_take (h : k < j) :
    Inserted budget (ops.take j) k w chunk ↔ Inserted budget ops k w chunk := by
  rw [Inserted, Inserted, List.getElem?_take_of_lt h, List.take_take, min_eq_left h.le]

theorem evicted_take (h : k < j) : Evicted budget (ops.take j) k w ↔ Evicted budget ops k w := by
  rw [Evicted, Evicted, List.take_take, List.take_take, min_eq_left h.le,
    min_eq_left (Nat.succ_le_of_lt h)]

/-- The windows held after a run are those put in and not evicted since. -/
theorem holdsChunk_after : (after budget ops).HoldsChunk w chunk ↔
    ∃ k, Inserted budget ops k w chunk ∧
      ∀ i, k < i → i < ops.length → ¬Evicted budget ops i w := by
  induction ops using List.reverseRecOn with
  | nil =>
    constructor
    · rintro ⟨held, hheld, -⟩
      exact absurd hheld List.not_mem_nil
    · rintro ⟨k, ⟨charge, hk, -⟩, -⟩
      cases hk
  | append_singleton ops op ih =>
    have htraced := traced_after budget ops
    obtain ⟨read, hkept⟩ := htraced.kept
    have htake : (ops ++ [op]).take ops.length = ops := List.take_left
    have hall : (ops ++ [op]).take (ops.length + 1) = ops ++ [op] :=
      List.take_of_length_le (by rw [List.length_append, List.length_singleton])
    have hlast : (ops ++ [op])[ops.length]? = some op := List.getElem?_concat_length
    have hlen : (ops ++ [op]).length = ops.length + 1 := by
      rw [List.length_append, List.length_singleton]
    -- what happened before the last operation is the same in both runs
    have hinserted : ∀ {i}, i < ops.length →
        (Inserted budget ops i w chunk ↔ Inserted budget (ops ++ [op]) i w chunk) := by
      intro i hi
      have := @inserted_take budget (ops ++ [op]) ops.length i w chunk hi
      rwa [htake] at this
    have hevicted : ∀ {i}, i < ops.length →
        (Evicted budget ops i w ↔ Evicted budget (ops ++ [op]) i w) := by
      intro i hi
      have := @evicted_take budget (ops ++ [op]) ops.length i w hi
      rwa [htake] at this
    rw [after_concat, holdsChunk_step hkept, htraced.budget_eq, ih]
    constructor
    · rintro (⟨charge, rfl, habsent, hcharge⟩ | ⟨⟨k, hk, hstay⟩, hholds⟩)
      · refine ⟨ops.length, ⟨charge, hlast, by rwa [htake], hcharge⟩, fun i hi hi' => ?_⟩
        omega
      · have hlt : k < ops.length := by
          obtain ⟨charge, hget, -⟩ := hk
          exact (List.getElem?_eq_some_iff.mp hget).1
        refine ⟨k, (hinserted hlt).mp hk, fun i hki hi => ?_⟩
        rcases Nat.lt_succ_iff_lt_or_eq.mp (hlen ▸ hi) with hi | rfl
        · exact fun hev => hstay i hki hi ((hevicted hi).mpr hev)
        · rintro ⟨-, hgone⟩
          rw [hall, after_concat] at hgone
          exact hgone hholds
    · rintro ⟨k, ⟨charge, hget, habsent, hcharge⟩, hstay⟩
      have hk : k < ops.length + 1 := hlen ▸ (List.getElem?_eq_some_iff.mp hget).1
      rcases Nat.lt_succ_iff_lt_or_eq.mp hk with hlt | rfl
      · have hold := ih.mpr ⟨k, (hinserted hlt).mpr ⟨charge, hget, habsent, hcharge⟩,
          fun i hki hi hev => hstay i hki (by omega) ((hevicted hi).mp hev)⟩
        refine Or.inr ⟨ih.mp hold, ?_⟩
        by_contra hgone
        refine hstay ops.length hlt (by omega) ⟨by rw [htake]; exact hold.holds, ?_⟩
        rwa [hall, after_concat]
      · rw [hlast] at hget
        rw [htake] at habsent
        exact Or.inl ⟨charge, Option.some.inj hget, habsent, hcharge⟩

end Prefixes

/-- A lookup gives the chunk held. -/
theorem get_eq_some_iff (h : Kept read cache) (w : ℕ) (chunk : TermChunk) :
    (cache.get w).1 = some chunk ↔ cache.HoldsChunk w chunk := by
  constructor
  · intro hget
    by_cases hholds : cache.Holds w
    · obtain ⟨held, hheld, rfl⟩ := hholds
      rw [get_of_mem h hheld] at hget
      exact ⟨held, hheld, rfl, Option.some.inj hget⟩
    · rw [get_of_not_holds hholds] at hget
      cases hget
  · rintro ⟨held, hheld, rfl, rfl⟩
    rw [get_of_mem h hheld]

/-- An operation on a window held gives its chunk. -/
theorem step_of_holdsChunk (h : Kept read cache) {op : CacheOp} {chunk : TermChunk}
    (hholds : cache.HoldsChunk op.window chunk) : (cache.step op).1 = some chunk := by
  obtain ⟨held, hheld, hw, rfl⟩ := hholds
  have habsent : cache.Holds op.window := ⟨held, hheld, hw⟩
  rcases step_cases h op with ⟨held', hheld', hw', hstep⟩ | ⟨hnot, -⟩ | ⟨hnot, -⟩ | ⟨hnot, -⟩
  · rw [hstep, h.eq_of_window hheld' hheld (hw'.trans hw.symm)]
  · exact absurd habsent hnot
  · exact absurd habsent hnot
  · exact absurd habsent hnot

/-! ### Any run -/

/-- Two windows of a run's cache were last used in the order of their stamps. -/
theorem Traced.order_iff {budget : ℕ} {ops : List CacheOp} (h : Traced budget ops cache)
    {a b : CachedWindow} (ha : a ∈ cache.windows) (hb : b ∈ cache.windows) :
    a.lastUse < b.lastUse ↔ lastOp ops a.window < lastOp ops b.window := by
  obtain ⟨read, hkept⟩ := h.kept
  refine ⟨h.order a ha b hb, fun hlt => ?_⟩
  rcases Nat.lt_trichotomy a.lastUse b.lastUse with hab | hab | hab
  · exact hab
  · rw [List.inj_on_of_nodup_map hkept.stamps ha hb hab] at hlt
    exact absurd hlt (Nat.lt_irrefl _)
  · have := h.order b hb a ha hab
    omega

/-- A window and what is charged for it, without its stamp. -/
def CachedWindow.entry (held : CachedWindow) : ℕ × TermChunk × ℕ :=
  (held.window, held.chunk, held.bytes)

/-- An insert of a window held, or charged past the budget, evicts nothing. -/
theorem insert_keeps {w charge : ℕ} (h : Kept read cache) (chunk : TermChunk)
    (hw : cache.Holds w ∨ cache.budget < charge) :
    (cache.insert w chunk charge).2.windows.map CachedWindow.entry =
      cache.windows.map CachedWindow.entry := by
  rcases step_cases h (.insert w chunk charge) with ⟨held, -, -, hstep⟩ | ⟨-, hop, -⟩ |
    ⟨-, chunk', charge', -, -, hstep⟩ | ⟨habsent, chunk', charge', hop, hcharge, -⟩
  · have hcache : (cache.insert w chunk charge).2 = cache.touched w := congrArg Prod.snd hstep
    rw [hcache]
    show List.map _ (List.map _ _) = _
    rw [List.map_map]
    refine List.map_congr_left fun held _ => ?_
    show CachedWindow.entry _ = _
    rw [CachedWindow.entry, window_touch, chunk_touch, bytes_touch, CachedWindow.entry]
  · cases hop
  · have hcache : (cache.insert w chunk charge).2 = cache := congrArg Prod.snd hstep
    rw [hcache]
  · obtain ⟨-, -, rfl⟩ := CacheOp.insert.inj hop
    rcases hw with hw | hw
    · exact absurd hw habsent
    · omega

/-- An insert that keeps its window drops the least recently used ones for it, one at a
time while the charge does not fit. -/
theorem insert_drops {budget : ℕ} {ops : List CacheOp} (h : Traced budget ops cache)
    {w charge : ℕ} (chunk : TermChunk) (habsent : ¬cache.Holds w) (hcharge : charge ≤ budget) :
    ∃ gone stays, cache.windows.Perm (gone ++ stays) ∧
      (cache.insert w chunk charge).2.windows = stays ++ [⟨w, chunk, charge, cache.clock + 1⟩] ∧
      (gone.Pairwise fun a b => lastOp ops a.window < lastOp ops b.window) ∧
      (∀ a ∈ gone, ∀ b ∈ stays, lastOp ops a.window < lastOp ops b.window) ∧
      ∀ front last back, gone = front ++ last :: back →
        budget + (front.map CachedWindow.bytes).sum < cache.bytes + charge := by
  obtain ⟨read, hkept⟩ := h.kept
  have hroom : charge ≤ cache.budget := h.budget_eq ▸ hcharge
  obtain ⟨hperm, hsorted, hneed⟩ := @dropped_spec read charge _ _ hkept le_rfl
  obtain ⟨htrim, -⟩ := left_spec hkept hroom
  have hgone : ∀ a ∈ dropped charge cache.windows.length cache, a ∈ cache.windows := fun a ha =>
    hperm.mem_iff.mpr (List.mem_append_left _ ha)
  have hstays : ∀ b ∈ (cache.left charge).windows, b ∈ cache.windows := fun b hb =>
    htrim.sublist.subset hb
  have hinsert : (cache.insert w chunk charge).2 = cache.put w chunk charge := by
    rw [insert, get_of_not_holds habsent]
    dsimp only
    rw [if_neg (Nat.not_lt.mpr hroom)]
    rfl
  refine ⟨_, _, hperm, ?_, ?_, ?_, h.budget_eq ▸ hneed⟩
  · rw [hinsert, put, htrim.clock]
    rfl
  · exact hsorted.imp_of_mem fun ha hb hab => (h.order_iff (hgone _ ha) (hgone _ hb)).mp hab
  · intro a ha b hb
    -- a window dropped does not stay: no window is held twice
    have hdisjoint := (List.nodup_append.mp (hperm.nodup_iff.mp (List.Nodup.of_map _ hkept.nodup))).2.2
    have hout : a ∉ (cache.left charge).windows := fun hin => hdisjoint a ha a hin rfl
    exact (h.order_iff (hgone a ha) (hstays b hb)).mp (htrim.oldest a (hgone a ha) hout b hb)

/-- Over any run of lookups and inserts from an empty cache: the recorded total is that of
the windows held and within the budget; stamps are distinct and in the order of last use;
an insert evicts only the least recently used windows it needs the room of, and none when
its window is held or past the budget; a lookup gives the chunk last put in and not evicted
since, which is what every caller has been given. -/
theorem window_cache_never_lies (budget : ℕ) (ops : List CacheOp) :
    ((after budget ops).bytes = ((after budget ops).windows.map CachedWindow.bytes).sum ∧
      (after budget ops).bytes ≤ budget ∧
      ((after budget ops).windows.map CachedWindow.window).Nodup ∧
      ((after budget ops).windows.map CachedWindow.lastUse).Nodup ∧
      (∀ a ∈ (after budget ops).windows, ∀ b ∈ (after budget ops).windows,
        (a.lastUse < b.lastUse ↔ lastOp ops a.window < lastOp ops b.window)) ∧
      (after budget ops).clock ≤ ops.length) ∧
    (∀ w chunk charge, (after budget ops).Holds w ∨ budget < charge →
      ((after budget ops).insert w chunk charge).2.windows.map CachedWindow.entry =
        (after budget ops).windows.map CachedWindow.entry) ∧
    (∀ w chunk charge, ¬(after budget ops).Holds w → charge ≤ budget → ∃ gone stays,
      (after budget ops).windows.Perm (gone ++ stays) ∧
      ((after budget ops).insert w chunk charge).2.windows =
        stays ++ [⟨w, chunk, charge, (after budget ops).clock + 1⟩] ∧
      (gone.Pairwise fun a b => lastOp ops a.window < lastOp ops b.window) ∧
      (∀ a ∈ gone, ∀ b ∈ stays, lastOp ops a.window < lastOp ops b.window) ∧
      ∀ front last back, gone = front ++ last :: back →
        budget + (front.map CachedWindow.bytes).sum < (after budget ops).bytes + charge) ∧
    (∀ w chunk, ((after budget ops).get w).1 = some chunk ↔
      ∃ k, Inserted budget ops k w chunk ∧
        ∀ i, k < i → i < ops.length → ¬Evicted budget ops i w) ∧
    (∀ k w chunk, Inserted budget ops k w chunk → answer budget ops k = some chunk ∧
      ∀ j op, ops[j]? = some op → op.window = w → k < j →
        (∀ i, k < i → i < j → ¬Evicted budget ops i w) → answer budget ops j = some chunk) := by
  have htraced := traced_after budget ops
  obtain ⟨read, hkept⟩ := htraced.kept
  refine ⟨⟨hkept.bytes, hkept.within.trans_eq htraced.budget_eq, hkept.nodup, hkept.stamps,
    fun a ha b hb => htraced.order_iff ha hb, htraced.clock_le⟩, fun w chunk charge hw => ?_,
    fun w chunk charge => insert_drops htraced chunk, fun w chunk => ?_, fun k w chunk hk => ?_⟩
  · exact insert_keeps hkept chunk (hw.imp_right htraced.budget_eq.trans_lt)
  · rw [get_eq_some_iff hkept, holdsChunk_after]
  · constructor
    · -- the insert answers with the chunk it was given
      obtain ⟨charge, hget, habsent, hcharge⟩ := hk
      obtain ⟨read', hkept'⟩ := (traced_after budget (ops.take k)).kept
      rw [answer, hget, Option.bind_some]
      rcases step_cases hkept' (.insert w chunk charge) with ⟨held, hheld, hw, -⟩ | ⟨-, hop, -⟩ |
        ⟨-, chunk', charge', hop, -, hstep⟩ | ⟨-, chunk', charge', hop, -, hstep⟩
      · exact absurd ⟨held, hheld, hw⟩ habsent
      · cases hop
      · rw [hstep, (CacheOp.insert.inj hop).2.1]
      · rw [hstep, (CacheOp.insert.inj hop).2.1]
    · intro j op hget hw hkj hstay
      -- later the window still holds it, as nothing evicted it in between
      have hj : j ≤ ops.length := (List.getElem?_eq_some_iff.mp hget).1.le
      obtain ⟨read', hkept'⟩ := (traced_after budget (ops.take j)).kept
      have hholds : (after budget (ops.take j)).HoldsChunk op.window chunk := by
        rw [hw]
        refine holdsChunk_after.mpr ⟨k, (inserted_take hkj).mpr hk, fun i hki hi => ?_⟩
        rw [List.length_take, min_eq_left hj] at hi
        exact fun hev => hstay i hki hi ((evicted_take hi).mp hev)
      rw [answer, hget, Option.bind_some]
      exact step_of_holdsChunk hkept' hholds

end WindowCache

end Dictionary
