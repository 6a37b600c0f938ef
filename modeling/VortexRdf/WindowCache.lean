/-
The cache of a file's rebuilt windows.

A cache holds windows up to a budget of bytes; a lookup stamps a window, and room is
made by dropping the window with the oldest stamp.

* `WindowCache`, `get`, `insert` — the cache and its two operations;
* `Kept` — every window held is the file's, held once, charged once, in the budget, and
  stamped apart from the others;
* `get_spec`, `insert_spec` — each operation answers with the file's window and keeps
  all of it;
* `evict_spec` — what is dropped is older than all that stays.
-/
import Mathlib.Data.List.MinMax
import VortexRdf.TermChunks

namespace Dictionary

structure CachedWindow where
  window : ℕ
  chunk : TermChunk
  bytes : ℕ
  lastUse : ℕ
deriving DecidableEq

/-- The window with its stamp renewed, if its index is `w`. -/
def CachedWindow.touch (w stamp : ℕ) (held : CachedWindow) : CachedWindow :=
  if held.window = w then { held with lastUse := stamp } else held

structure WindowCache where
  budget : ℕ
  /-- The windows' total charge. -/
  bytes : ℕ
  /-- The last stamp handed out. -/
  clock : ℕ
  windows : List CachedWindow

namespace WindowCache

def new (budget : ℕ) : WindowCache := ⟨budget, 0, 0, []⟩

def get (cache : WindowCache) (w : ℕ) : Option TermChunk × WindowCache :=
  match cache.windows.find? (·.window == w) with
  | none => (none, cache)
  | some cached =>
    (some cached.chunk, { cache with
      clock := cache.clock + 1
      windows := cache.windows.map (CachedWindow.touch w (cache.clock + 1)) })

def remove (cache : WindowCache) (oldest : CachedWindow) : WindowCache :=
  { cache with
    bytes := cache.bytes - oldest.bytes
    windows := cache.windows.filter (·.window != oldest.window) }

/-- The windows dropped, the oldest first, until `charge` fits; at most `fuel`. -/
def evict (charge : ℕ) : ℕ → WindowCache → WindowCache
  | 0, cache => cache
  | fuel + 1, cache =>
    if cache.budget < cache.bytes + charge then
      match cache.windows.argmin CachedWindow.lastUse with
      | none => cache
      | some oldest => evict charge fuel (cache.remove oldest)
    else cache

/-- The chunk kept for a window under its charge, and the chunk to use: the one already
there, if any. -/
def insert (cache : WindowCache) (w : ℕ) (chunk : TermChunk) (charge : ℕ) :
    TermChunk × WindowCache :=
  match cache.get w with
  | (some kept, cache) => (kept, cache)
  | (none, cache) =>
    if cache.budget < charge then (chunk, cache)
    else
      let cache := evict charge cache.windows.length cache
      (chunk, { cache with
        clock := cache.clock + 1
        bytes := cache.bytes + charge
        windows := cache.windows ++ [⟨w, chunk, charge, cache.clock + 1⟩] })

/-! ### What the operations keep -/

/-- The cache holds what `read` gives, each window once and charged as `charge` says. -/
structure Kept (read : ℕ → TermChunk) (cache : WindowCache) : Prop where
  chunks : ∀ held ∈ cache.windows, held.chunk = read held.window
  nodup : (cache.windows.map CachedWindow.window).Nodup
  bytes : cache.bytes = (cache.windows.map CachedWindow.bytes).sum
  within : cache.bytes ≤ cache.budget
  stamps : (cache.windows.map CachedWindow.lastUse).Nodup
  stamped : ∀ held ∈ cache.windows, held.lastUse ≤ cache.clock

variable {read : ℕ → TermChunk} {cache : WindowCache}

theorem kept_new (read : ℕ → TermChunk) (budget : ℕ) : Kept read (new budget) where
  chunks _ h := nomatch h
  nodup := List.nodup_nil
  bytes := rfl
  within := Nat.zero_le _
  stamps := List.nodup_nil
  stamped _ h := nomatch h

section Touch

variable (w stamp : ℕ) (held : CachedWindow)

@[simp] theorem window_touch : (held.touch w stamp).window = held.window := by
  rw [CachedWindow.touch]
  split_ifs <;> rfl

@[simp] theorem chunk_touch : (held.touch w stamp).chunk = held.chunk := by
  rw [CachedWindow.touch]
  split_ifs <;> rfl

@[simp] theorem bytes_touch : (held.touch w stamp).bytes = held.bytes := by
  rw [CachedWindow.touch]
  split_ifs <;> rfl

theorem lastUse_touch :
    (held.touch w stamp).lastUse = if held.window = w then stamp else held.lastUse := by
  rw [CachedWindow.touch]
  split_ifs <;> rfl

end Touch

theorem Kept.eq_of_window (h : Kept read cache) {a b : CachedWindow} (ha : a ∈ cache.windows)
    (hb : b ∈ cache.windows) (hab : a.window = b.window) : a = b :=
  List.inj_on_of_nodup_map h.nodup ha hb hab

/-- One window restamped past every stamp handed out. -/
theorem Kept.restamp (h : Kept read cache) (w : ℕ) :
    Kept read { cache with
      clock := cache.clock + 1
      windows := cache.windows.map (CachedWindow.touch w (cache.clock + 1)) } := by
  refine ⟨?_, ?_, ?_, h.within, ?_, ?_⟩
  · intro held hheld
    obtain ⟨held', hmem, rfl⟩ := List.mem_map.mp hheld
    rw [chunk_touch, window_touch]
    exact h.chunks held' hmem
  · simpa [List.map_map, Function.comp_def] using h.nodup
  · simpa [List.map_map, Function.comp_def] using h.bytes
  · -- only one window has the index, and its stamp is past the others
    rw [List.map_map]
    refine List.Nodup.map_on ?_ (List.Nodup.of_map _ h.nodup)
    intro a ha b hb hab
    rw [Function.comp_apply, Function.comp_apply, lastUse_touch, lastUse_touch] at hab
    have hca := h.stamped a ha
    have hcb := h.stamped b hb
    split_ifs at hab with hwa hwb hwb
    · exact h.eq_of_window ha hb (hwa.trans hwb.symm)
    · omega
    · omega
    · exact List.inj_on_of_nodup_map h.stamps ha hb hab
  · intro held hheld
    obtain ⟨held', hmem, rfl⟩ := List.mem_map.mp hheld
    have hle := h.stamped held' hmem
    rw [lastUse_touch]
    dsimp only
    split_ifs <;> omega

theorem get_spec (h : Kept read cache) (w : ℕ) :
    (cache.get w = (none, cache) ∧ ∀ held ∈ cache.windows, held.window ≠ w) ∨
      ∃ cache', cache.get w = (some (read w), cache') ∧ Kept read cache' := by
  rw [get]
  cases hfind : cache.windows.find? (·.window == w) with
  | none =>
    refine Or.inl ⟨rfl, fun held hheld heq => ?_⟩
    exact List.find?_eq_none.mp hfind held hheld (by simp [heq])
  | some cached =>
    have hw : cached.window = w := by simpa using List.find?_some hfind
    have hchunk := h.chunks cached (List.mem_of_find?_eq_some hfind)
    rw [hw] at hchunk
    exact Or.inr ⟨_, by simp only [hchunk], h.restamp w⟩

/-- What is left of a cache keeps its windows, and every window dropped is older than
all of them. -/
structure Trimmed (read : ℕ → TermChunk) (cache left : WindowCache) : Prop where
  kept : Kept read left
  budget : left.budget = cache.budget
  clock : left.clock = cache.clock
  sublist : left.windows.Sublist cache.windows
  oldest : ∀ held ∈ cache.windows, held ∉ left.windows →
    ∀ stays ∈ left.windows, held.lastUse < stays.lastUse

theorem Kept.trimmed (h : Kept read cache) : Trimmed read cache cache :=
  ⟨h, rfl, rfl, List.Sublist.refl _, fun _ hheld hout => absurd hheld hout⟩

theorem Kept.filter_window (h : Kept read cache) {oldest : CachedWindow}
    (hmem : oldest ∈ cache.windows) : cache.windows.filter (·.window != oldest.window) =
      cache.windows.filter (· != oldest) := by
  refine List.filter_congr fun held hheld => ?_
  by_cases heq : held = oldest
  · simp [heq]
  · have hne : held.window ≠ oldest.window := fun hw => heq (h.eq_of_window hheld hmem hw)
    rw [bne_iff_ne.mpr hne, bne_iff_ne.mpr heq]

/-- A window removed leaves the others. -/
theorem Kept.remove_perm (h : Kept read cache) {oldest : CachedWindow}
    (hmem : oldest ∈ cache.windows) :
    cache.windows.Perm (oldest :: (cache.remove oldest).windows) := by
  rw [WindowCache.remove, h.filter_window hmem,
    ← (List.Nodup.of_map _ h.nodup).erase_eq_filter]
  exact List.perm_cons_erase hmem

theorem Kept.remove (h : Kept read cache) {oldest : CachedWindow}
    (hmin : cache.windows.argmin CachedWindow.lastUse = some oldest) :
    Trimmed read cache (cache.remove oldest) := by
  have hmem : oldest ∈ cache.windows := List.argmin_mem hmin
  have hfilter := h.filter_window hmem
  have hperm : cache.windows.Perm (oldest :: cache.windows.filter (· != oldest)) := by
    rw [← hfilter]
    exact h.remove_perm hmem
  have hbytes := (hperm.map CachedWindow.bytes).sum_eq
  rw [← h.bytes, List.map_cons, List.sum_cons] at hbytes
  have hsub : (cache.windows.filter (· != oldest)).Sublist cache.windows := List.filter_sublist
  have hleft : cache.remove oldest = { cache with
      bytes := cache.bytes - oldest.bytes, windows := cache.windows.filter (· != oldest) } := by
    rw [WindowCache.remove, hfilter]
  have hwithin := h.within
  rw [hleft]
  refine ⟨⟨?_, h.nodup.sublist (hsub.map _), ?_, ?_, h.stamps.sublist (hsub.map _), ?_⟩, rfl, rfl,
    hsub, ?_⟩
  · exact fun held hheld => h.chunks held (hsub.subset hheld)
  · dsimp only
    omega
  · dsimp only
    omega
  · exact fun held hheld => h.stamped held (hsub.subset hheld)
  · intro held hheld hout stays hstays
    have hself : held = oldest := by
      by_contra hne
      exact hout (List.mem_filter.mpr ⟨hheld, bne_iff_ne.mpr hne⟩)
    obtain ⟨hin, hne⟩ := List.mem_filter.mp hstays
    rw [hself]
    refine lt_of_le_of_ne (List.le_of_mem_argmin hin hmin) fun heq => bne_iff_ne.mp hne ?_
    exact (List.inj_on_of_nodup_map h.stamps hmem hin heq).symm

theorem Trimmed.trans {left rest : WindowCache} (h : Trimmed read cache left)
    (h' : Trimmed read left rest) : Trimmed read cache rest where
  kept := h'.kept
  budget := h'.budget.trans h.budget
  clock := h'.clock.trans h.clock
  sublist := h'.sublist.trans h.sublist
  oldest held hheld hout stays hstays := by
    by_cases hleft : held ∈ left.windows
    · exact h'.oldest held hleft hout stays hstays
    · exact h.oldest held hheld hleft stays (h'.sublist.subset hstays)

/-- Enough is dropped for the charge to fit, when the budget has room for it alone. -/
theorem evict_spec {charge : ℕ} : ∀ {fuel : ℕ} {cache : WindowCache}, Kept read cache →
    charge ≤ cache.budget → cache.windows.length ≤ fuel →
    Trimmed read cache (evict charge fuel cache) ∧
      (evict charge fuel cache).bytes + charge ≤ (evict charge fuel cache).budget
  | 0, cache, h, hcharge, hfuel => by
    have hnil : cache.windows = [] := List.length_eq_zero_iff.mp (Nat.le_zero.mp hfuel)
    have hzero : cache.bytes = 0 := by rw [h.bytes, hnil]; rfl
    exact ⟨h.trimmed, by rw [evict]; omega⟩
  | fuel + 1, cache, h, hcharge, hfuel => by
    rw [evict]
    by_cases hfull : cache.budget < cache.bytes + charge
    · rw [if_pos hfull]
      cases hmin : cache.windows.argmin CachedWindow.lastUse with
      | none =>
        have hnil : cache.windows = [] := List.argmin_eq_none.mp hmin
        have hzero : cache.bytes = 0 := by rw [h.bytes, hnil]; rfl
        omega
      | some oldest =>
        have hstep := h.remove hmin
        have hshorter : (cache.remove oldest).windows.length < cache.windows.length := by
          refine List.length_filter_lt_length_iff_exists.mpr ⟨oldest, List.argmin_mem hmin, ?_⟩
          simp
        obtain ⟨hrest, hroom⟩ := @evict_spec charge fuel _ hstep.kept (hstep.budget ▸ hcharge)
          (by omega)
        exact ⟨hstep.trans hrest, hroom⟩
    · rw [if_neg hfull]
      exact ⟨h.trimmed, Nat.le_of_not_lt hfull⟩

/-- The chunk to use is the file's, whether the window was there, is kept or is past the
budget. -/
theorem insert_spec (h : Kept read cache) (w charge : ℕ) :
    ∃ cache', cache.insert w (read w) charge = (read w, cache') ∧ Kept read cache' := by
  rw [insert]
  rcases get_spec h w with ⟨hget, habsent⟩ | ⟨cache', hget, hkept⟩
  · rw [hget]
    by_cases hcharge : cache.budget < charge
    · simp only [if_pos hcharge]
      exact ⟨cache, rfl, h⟩
    · simp only [if_neg hcharge]
      obtain ⟨htrim, hroom⟩ := @evict_spec read charge _ _ h (Nat.le_of_not_lt hcharge) le_rfl
      refine ⟨_, rfl, ?_⟩
      have hk := htrim.kept
      refine ⟨?_, ?_, ?_, hroom, ?_, ?_⟩
      · intro held hheld
        rcases List.mem_append.mp hheld with hold | hnew
        · exact hk.chunks held hold
        · rw [List.mem_singleton.mp hnew]
      · rw [List.map_append, List.map_singleton]
        refine List.nodup_append.mpr ⟨hk.nodup, List.nodup_singleton w, ?_⟩
        rintro a ha b hb rfl
        obtain ⟨held, hheld, rfl⟩ := List.mem_map.mp ha
        exact habsent held (htrim.sublist.subset hheld) (List.mem_singleton.mp hb)
      · dsimp only
        rw [List.map_append, List.sum_append, ← hk.bytes]
        rfl
      · rw [List.map_append, List.map_singleton]
        refine List.nodup_append.mpr ⟨hk.stamps, List.nodup_singleton _, ?_⟩
        rintro a ha b hb rfl
        obtain ⟨held, hheld, rfl⟩ := List.mem_map.mp ha
        have hle := hk.stamped held hheld
        rw [List.mem_singleton.mp hb] at hle
        dsimp only at hle
        omega
      · intro held hheld
        rcases List.mem_append.mp hheld with hold | hnew
        · exact (hk.stamped held hold).trans (Nat.le_succ _)
        · rw [List.mem_singleton.mp hnew]
  · rw [hget]
    exact ⟨cache', rfl, hkept⟩

end WindowCache

end Dictionary
