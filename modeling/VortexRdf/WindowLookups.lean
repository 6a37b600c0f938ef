/-
What the file-backed lookups answer.

From any state of the window cache a lookup by spelling gives what the sorted terms do,
and leaves the cache faithful.

* `WindowedDict` — a file's ascending terms in windows none of which is empty;
* `ReadState.Faithful` — the cache holds the file's windows and the kind ranges found
  are the terms';
* `window_at`, `IsWindow` — the window of a rank, and its bounds;
* `locate_spec`, `inside_point` — the window a spelling falls in, and its rank there;
* `encodeExact_computes`, `lowerBound_computes`, … — one lookup each.
-/
import VortexRdf.Windows

namespace Dictionary

open Ascending Bisect Programs Store Terms
open scoped Lexicographic

/-- A file's ascending terms, cut into windows that each hold one. -/
structure WindowedDict extends FileBackedDict where
  nonempty : ∀ chunk ∈ windows, chunk ≠ []
  sorted : windows.flatten.SortedLT

theorem WindowedDict.terms_sorted (fb : WindowedDict) : fb.terms.SortedLT := fb.sorted

/-- The cache holds the file's windows, and the kind ranges found are the terms'. -/
structure ReadState.Faithful (fb : FileBackedDict) (s : ReadState) : Prop where
  cache : s.cache.Kept fb.windowChunk
  kinds : ∀ kinds, s.kinds = some kinds → kinds = kindRangesOf fb.terms

/-! ### Windows -/

theorem startsFrom_stop_le {chunks : List TermChunk} {chunk : TermChunk} {w s start : ℕ}
    (hs : (startsFrom start chunks)[w]? = some s) (hchunk : chunks[w]? = some chunk) :
    s + chunk.length ≤ start + chunks.flatten.length := by
  induction chunks generalizing start w with
  | nil => simp at hchunk
  | cons first chunks ih =>
    rw [List.flatten_cons, List.length_append]
    cases w with
    | zero =>
      obtain rfl : start = s := Option.some.inj hs
      obtain rfl : first = chunk := Option.some.inj hchunk
      omega
    | succ w =>
      have := ih hs hchunk
      omega

theorem startsFrom_mono {chunks : List TermChunk} {w w' s s' start : ℕ} (hww : w ≤ w')
    (hs : (startsFrom start chunks)[w]? = some s) (hs' : (startsFrom start chunks)[w']? = some s') :
    s ≤ s' := by
  induction chunks generalizing start w w' with
  | nil => simp [startsFrom] at hs
  | cons first chunks ih =>
    cases w' with
    | zero =>
      obtain rfl : w = 0 := Nat.le_zero.mp hww
      rw [hs] at hs'
      exact (Option.some.inj hs').le
    | succ w' =>
      cases w with
      | zero =>
        obtain rfl : start = s := Option.some.inj hs
        exact (Nat.le_add_right _ _).trans (startsFrom_ge hs')
      | succ w => exact ih (Nat.le_of_succ_le_succ hww) hs hs'

/-- Window `w` of a file: where it starts, and its terms among the file's. -/
structure IsWindow (fb : FileBackedDict) (w : ℕ) (window : Window) : Prop where
  bounds : fb.bounds[w]? = some window
  start : fb.starts[w]? = some window.start
  rows : (fb.windowChunk w).length = window.rows
  pos : 0 < window.rows
  stop_le : window.start + window.rows ≤ fb.terms.length
  strAt : ∀ i < window.rows, (fb.windowChunk w).strAt i = fb.terms.getD (window.start + i) []
  first : window.first = fb.terms.getD window.start []
  last : window.last = fb.terms.getD (window.start + (window.rows - 1)) []

section Windows

variable {fb : WindowedDict}

theorem isWindow_of_bounds {w : ℕ} {window : Window}
    (h : fb.bounds[w]? = some window) : IsWindow fb.toFileBackedDict w window := by
  have hbounds := h
  rw [FileBackedDict.bounds, List.getElem?_zipWith_eq_some] at h
  obtain ⟨start, chunk, hstart, hchunk, rfl⟩ := h
  have hget : fb.windowChunk w = chunk := by
    rw [FileBackedDict.windowChunk, List.getD_eq_getElem?_getD, hchunk]
    rfl
  have hne : chunk ≠ [] := fb.nonempty chunk (List.mem_of_getElem? hchunk)
  have hpos : 0 < chunk.length := List.length_pos_of_ne_nil hne
  have hstop := startsFrom_stop_le hstart hchunk
  have hterm : ∀ i < chunk.length, chunk.getD i [] = fb.terms.getD (start + i) [] := by
    intro i hi
    have hwindow := window_terms hstart hchunk (Nat.le_add_right start i) (Nat.add_lt_add_left hi start)
    rwa [Nat.add_sub_cancel_left, Nat.sub_zero] at hwindow
  refine ⟨hbounds, hstart, by rw [hget]; rfl, hpos, by rwa [Nat.zero_add] at hstop, ?_, ?_, ?_⟩
  · intro i hi
    rw [hget]
    exact hterm i hi
  · have hfirst := hterm 0 hpos
    rw [Nat.add_zero] at hfirst
    change chunk.headD [] = fb.terms.getD start []
    rw [← hfirst]
    cases chunk with
    | nil => exact absurd rfl hne
    | cons t rest => rfl
  · have hlast := hterm (chunk.length - 1) (by omega)
    change chunk.getLastD [] = fb.terms.getD (start + (chunk.length - 1)) []
    rw [← hlast, List.getLastD_eq_getLast?, List.getLast?_eq_getElem?, List.getD_eq_getElem?_getD]

/-- Every rank lies in a window. -/
theorem window_at {i : ℕ} (hi : i < fb.terms.length) :
    ∃ w window, chunkOf fb.starts i = (w, i - window.start) ∧ IsWindow fb.toFileBackedDict w window ∧
      window.start ≤ i ∧ i < window.start + window.rows := by
  obtain ⟨w, s, chunk, hw, hs, hchunk, hle, hlt⟩ := partitionPoint_starts (Nat.zero_le i)
    (show i < 0 + fb.windows.flatten.length by rw [Nat.zero_add]; exact hi)
  have hbounds : fb.bounds[w]? = some (FileBackedDict.boundsOf s chunk) := by
    rw [FileBackedDict.bounds, List.getElem?_zipWith_eq_some]
    exact ⟨s, chunk, hs, hchunk, rfl⟩
  refine ⟨w, _, ?_, isWindow_of_bounds hbounds, hle, hlt⟩
  have hget : fb.starts.getD w 0 = s := by
    rw [FileBackedDict.starts, List.getD_eq_getElem?_getD, hs]
    rfl
  rw [chunkOf, FileBackedDict.starts, hw, Nat.add_sub_cancel, ← FileBackedDict.starts, hget]
  rfl

theorem IsWindow.start_mono {w w' : ℕ} {a b : Window} (ha : IsWindow fb.toFileBackedDict w a)
    (hb : IsWindow fb.toFileBackedDict w' b) (h : w ≤ w') : a.start ≤ b.start :=
  startsFrom_mono h ha.start hb.start

/-- The terms of the windows before the located one are below the spelling. -/
theorem below_of_locate {needle : Str} {i w : ℕ} {window : Window} (hi : i < fb.terms.length)
    (hwindow : IsWindow fb.toFileBackedDict w window) (hin : i < window.start + window.rows)
    (hw : w < partitionPoint (fun window : Window => window.last < needle) fb.bounds) :
    fb.terms.getD i [] < needle := by
  obtain ⟨window', hget, hlast⟩ := holds_before_partitionPoint hw
  rw [hwindow.bounds] at hget
  obtain rfl := Option.some.inj hget
  have hpos := hwindow.pos
  have hstop := hwindow.stop_le
  refine lt_of_le_of_lt ?_ (of_decide_eq_true hlast)
  rw [hwindow.last]
  exact (getD_le_iff fb.terms_sorted hi (by omega)).mpr (by omega)

/-- The window a spelling falls in: all terms before it are below the spelling, and its
last one is not. -/
structure Located (fb : FileBackedDict) (needle : Str) (w : ℕ) (window : Window) : Prop
    extends IsWindow fb w window where
  start_le : window.start ≤ rankBelow fb.terms needle
  le_last : rankBelow fb.terms needle ≤ window.start + (window.rows - 1)

theorem locate_spec (fb : WindowedDict) (needle : Str) :
    (fb.locate needle = none ∧ rankBelow fb.terms needle = fb.terms.length) ∨
      ∃ w window, fb.locate needle = some (w, window) ∧
        Located fb.toFileBackedDict needle w window := by
  obtain ⟨k, hk⟩ : ∃ k, k = partitionPoint (fun window : Window => window.last < needle) fb.bounds :=
    ⟨_, rfl⟩
  rw [FileBackedDict.locate, ← hk]
  cases hget : fb.bounds[k]? with
  | none =>
    refine Or.inl ⟨rfl, ?_⟩
    refine (rankBelow_point fb.terms_sorted needle).unique ⟨Nat.zero_le _, le_rfl, fun i _ hi => ?_,
      fun i hle hlt => absurd hlt (Nat.not_lt.mpr hle)⟩
    obtain ⟨w, window, -, hwindow, -, hin⟩ := @window_at fb _ hi
    have hw : w < fb.bounds.length := (List.getElem?_eq_some_iff.mp hwindow.bounds).1
    exact below_of_locate hi hwindow hin (hk ▸ hw.trans_le (List.getElem?_eq_none_iff.mp hget))
  | some window =>
    have hwindow := isWindow_of_bounds hget
    have hpos := hwindow.pos
    have hstop := hwindow.stop_le
    refine Or.inr ⟨k, window, rfl, hwindow, ?_, ?_⟩
    · by_contra hlt
      have hi : rankBelow fb.terms needle < fb.terms.length := by omega
      obtain ⟨w, window', -, hwindow', hle, hin⟩ := @window_at fb _ hi
      have hw : w < k := by
        by_contra hge
        have := hwindow.start_mono hwindow' (Nat.le_of_not_lt hge)
        omega
      have hbelow := below_of_locate hi hwindow' hin (hk ▸ hw)
      exact absurd ((lt_rankBelow_iff fb.terms_sorted hi).mpr hbelow) (lt_irrefl _)
    · have hfail : ¬ window.last < needle := by
        rw [hk] at hget
        have hfail := fails_at_partitionPoint hget
        rwa [decide_eq_false_iff_not] at hfail
      by_contra hlt
      rw [hwindow.last] at hfail
      exact hfail ((lt_rankBelow_iff fb.terms_sorted (by omega)).mp (by omega))

variable {needle : Str} {w : ℕ} {window : Window}

theorem Located.start_lt (h : Located fb.toFileBackedDict needle w window) :
    window.start < fb.terms.length := by
  have := h.stop_le
  have := h.pos
  omega

/-- Past the first term the rank is inside the window. -/
theorem Located.inside (h : Located fb.toFileBackedDict needle w window)
    (hfirst : window.first < needle) : window.start < rankBelow fb.terms needle := by
  rw [h.first] at hfirst
  exact (lt_rankBelow_iff fb.terms_sorted h.start_lt).mpr hfirst

/-- The rank of a spelling past the first term, found strictly between the bounds. -/
theorem inside_point (h : Located fb.toFileBackedDict needle w window)
    (hfirst : window.first < needle) :
    IsPartitionPoint (fun i => decide ((fb.windowChunk w).strAt i < needle) = true) 1
      (window.rows - 1) (rankBelow fb.terms needle - window.start) := by
  have hin := h.inside hfirst
  have hlast := h.le_last
  have hpos := h.pos
  have hstop := h.stop_le
  have hpoint := (rankBelow_point fb.terms_sorted needle).narrow (Nat.zero_le (window.start + 1))
    (show window.start + (window.rows - 1) ≤ fb.terms.length by omega)
    (Nat.succ_le_of_lt hin) hlast
  have hsplit : rankBelow fb.terms needle =
      window.start + (rankBelow fb.terms needle - window.start) := by omega
  rw [hsplit] at hpoint
  refine hpoint.unshift.congr fun i _ hi => ?_
  rw [decide_eq_true_eq, h.strAt i (by omega)]

end Windows

/-! ### One lookup -/

/-- Programs that keep the cache faithful and end as expected. -/
abbrev Answered {α : Type} (fb : FileBackedDict) (p : Reads α) (expected : Except VortexRdfError α) :
    Prop :=
  Computes (ReadState.Faithful fb) p expected

theorem readChunk_computes (fb : FileBackedDict) (w : ℕ) :
    Answered fb (fb.readChunk w) (.ok (fb.windowChunk w)) := by
  intro s hs
  rw [FileBackedDict.readChunk]
  rcases WindowCache.get_spec hs.cache w with ⟨hget, -⟩ | ⟨cache, hget, hkept⟩
  · obtain ⟨cache, hinsert, hkept⟩ := WindowCache.insert_spec hs.cache w (fb.charge w)
    rw [hget]
    simp only [hinsert]
    exact ⟨_, rfl, hkept, hs.kinds⟩
  · rw [hget]
    exact ⟨_, rfl, hkept, hs.kinds⟩

section Lookups

variable (fb : WindowedDict)

/-- A spelling at the rank of its own bound is the term there. -/
theorem rankOf_of_point {terms : List Str} {t : Str} {k : ℕ} (hk : rankBelow terms t = k)
    (hlt : k < terms.length) :
    rankOf terms t = if terms.getD k [] = t then some k else none := by
  rw [rankOf, hk, List.getElem?_eq_getElem hlt, List.getD_eq_getElem _ _ hlt]
  simp

/-- Strictly between the bounds a hit is where the search lands, before the last term. -/
theorem rankOf_inside {t : Str} {w : ℕ} {window : Window}
    (h : Located fb.toFileBackedDict t w window) (hfirst : window.first < t) (hlast : t ≠ window.last) :
    rankOf fb.terms t = if rankBelow fb.terms t - window.start < window.rows - 1 ∧
        (fb.windowChunk w).strAt (rankBelow fb.terms t - window.start) = t then
      some (rankBelow fb.terms t) else none := by
  have hin := h.inside hfirst
  have hle := h.le_last
  have hstop := h.stop_le
  have hk : rankBelow fb.terms t < fb.terms.length := by have := h.pos; omega
  rw [rankOf_of_point rfl hk]
  rcases Nat.lt_or_eq_of_le hle with hbefore | hat
  · have hat : (fb.windowChunk w).strAt (rankBelow fb.terms t - window.start) =
        fb.terms.getD (rankBelow fb.terms t) [] := by
      rw [h.strAt _ (by omega), Nat.add_sub_cancel' hin.le]
    rw [hat]
    by_cases hhit : fb.terms.getD (rankBelow fb.terms t) [] = t
    · rw [if_pos hhit, if_pos ⟨by omega, hhit⟩]
    · rw [if_neg hhit, if_neg fun hand => hhit hand.2]
  · -- the bound is the last term, which is not the spelling
    rw [if_neg (by rw [hat, ← h.last]; exact Ne.symm hlast), if_neg (by omega)]

/-- The exact lookup of a spelling, by where it lies in its window. -/
theorem rankOf_located {t : Str} {w : ℕ} {window : Window}
    (h : Located fb.toFileBackedDict t w window) :
    (t < window.first → rankOf fb.terms t = none) ∧
    (t = window.first → rankOf fb.terms t = some window.start) ∧
    (t = window.last → rankOf fb.terms t = some (window.start + (window.rows - 1))) ∧
    (window.first < t → t ≠ window.last →
      (findBy 1 (window.rows - 1) fun i => compareBytes ((fb.windowChunk w).strAt i) t).map
        (window.start + ·) = rankOf fb.terms t) := by
  have hsorted := fb.terms_sorted
  have hpos := h.pos
  have hstop := h.stop_le
  have hstart := h.start_le
  have hle := h.le_last
  have hlt := h.start_lt
  refine ⟨fun hbefore => ?_, fun heq => ?_, fun heq => ?_, fun hfirst hlast => ?_⟩
  · have hk : rankBelow fb.terms t = window.start := by
      refine le_antisymm (Nat.le_of_not_lt fun hgt => ?_) hstart
      have hbelow := (lt_rankBelow_iff hsorted hlt).mp hgt
      rw [← h.first] at hbelow
      exact lt_asymm hbelow hbefore
    rw [rankOf_of_point hk hlt, ← h.first, if_neg (ne_of_gt hbefore)]
  · rw [heq, h.first, rankOf_getD hsorted hlt]
  · rw [heq, h.last, rankOf_getD hsorted (by omega)]
  · have hin := h.inside hfirst
    have hpoint := inside_point h hfirst
    have hcmp : IsPartitionPoint (fun i => compareBytes ((fb.windowChunk w).strAt i) t = .lt) 1
        (window.rows - 1) (rankBelow fb.terms t - window.start) :=
      hpoint.congr fun i _ _ => by rw [decide_eq_true_eq, compareBytes_eq_lt_iff]
    have hone : ∀ i, 1 ≤ i → i < window.rows - 1 → compareBytes ((fb.windowChunk w).strAt i) t = .eq →
        i = rankBelow fb.terms t - window.start := by
      intro i _ hi heq
      rw [compareBytes_eq_eq_iff, h.strAt i (by omega)] at heq
      rw [← heq, rankBelow_getD hsorted (by omega)]
      omega
    have hback : window.start + (rankBelow fb.terms t - window.start) = rankBelow fb.terms t :=
      Nat.add_sub_cancel' hin.le
    rw [findBy_eq hcmp hone, rankOf_inside fb h hfirst hlast]
    simp only [compareBytes_eq_eq_iff]
    split_ifs with hhit
    · rw [Option.map_some, hback]
    · rfl

theorem encodeExact_computes (t : Str) :
    Answered fb.toFileBackedDict (fb.encodeExact t) (.ok (rankOf fb.terms t)) := by
  rw [FileBackedDict.encodeExact]
  rcases locate_spec fb t with ⟨hlocate, hrank⟩ | ⟨w, window, hlocate, h⟩
  · have hnone : rankOf fb.terms t = none := by rw [rankOf, hrank]; simp
    rw [hlocate, hnone]
    exact Computes.pure none
  · obtain ⟨hbefore, hfirst, hlast, hinside⟩ := rankOf_located fb h
    rw [hlocate]
    dsimp only
    cases hcmp : compareBytes t window.first with
    | lt =>
      rw [hbefore (compareBytes_eq_lt_iff.mp hcmp)]
      exact Computes.pure none
    | eq =>
      rw [hfirst (compareBytes_eq_eq_iff.mp hcmp)]
      exact Computes.pure _
    | gt =>
      dsimp only
      split_ifs with heq
      · rw [hlast heq]
        exact Computes.pure _
      · refine (readChunk_computes fb.toFileBackedDict w).bind_ok ?_
        rw [← hinside (compareBytes_eq_gt_iff.mp hcmp) heq]
        exact Computes.pure _

theorem lowerBound_computes (needle : Str) :
    Answered fb.toFileBackedDict (fb.lowerBound needle) (.ok (rankBelow fb.terms needle)) := by
  rw [FileBackedDict.lowerBound]
  rcases locate_spec fb needle with ⟨hlocate, hrank⟩ | ⟨w, window, hlocate, h⟩
  · rw [hlocate, hrank]
    exact Computes.pure _
  · rw [hlocate]
    dsimp only
    split_ifs with hle
    · have hrank : rankBelow fb.terms needle = window.start := by
        refine le_antisymm (Nat.le_of_not_lt fun hgt => ?_) h.start_le
        have hbelow := (lt_rankBelow_iff fb.terms_sorted h.start_lt).mp hgt
        rw [← h.first] at hbelow
        exact absurd hbelow (not_lt.mpr hle)
      rw [hrank]
      exact Computes.pure _
    · have hfirst : window.first < needle := not_le.mp hle
      have hin := h.inside hfirst
      refine (readChunk_computes fb.toFileBackedDict w).bind_ok ?_
      rw [lowerBoundBy_eq (inside_point h hfirst), Nat.add_sub_cancel' hin.le]
      exact Computes.pure _

theorem prefixRange_computes (pre : Str) :
    Answered fb.toFileBackedDict (fb.prefixRange pre) (.ok (prefixCodes fb.terms pre)) := by
  rw [FileBackedDict.prefixRange, prefixCodes]
  refine (lowerBound_computes fb pre).bind_ok ?_
  cases prefixSuccessor pre with
  | none => exact Computes.pure _
  | some successor => exact (lowerBound_computes fb successor).bind_ok (Computes.pure _)

theorem bounds_head (fb : WindowedDict) :
    (fb.bounds.head?.any fun window => window.first.isEmpty) = fb.terms.head?.any List.isEmpty := by
  cases hwindows : fb.windows with
  | nil => simp [FileBackedDict.bounds, FileBackedDict.terms, hwindows]
  | cons chunk rest =>
    have hne : chunk ≠ [] := fb.nonempty chunk (by rw [hwindows]; exact List.mem_cons_self)
    obtain ⟨t, chunk, rfl⟩ := List.exists_cons_of_ne_nil hne
    simp [FileBackedDict.bounds, FileBackedDict.starts, FileBackedDict.terms, hwindows, startsFrom,
      FileBackedDict.boundsOf]

theorem kindRanges_computes :
    Answered fb.toFileBackedDict fb.kindRanges (.ok (kindRangesOf fb.terms)) := by
  have hkeep : Answered fb.toFileBackedDict (ReadState.keepKinds (kindRangesOf fb.terms))
      (.ok (kindRangesOf fb.terms)) := by
    intro s hs
    have hget : s.kinds.getD (kindRangesOf fb.terms) = kindRangesOf fb.terms := by
      cases hk : s.kinds with
      | none => rfl
      | some kinds => exact hs.kinds kinds hk
    rw [ReadState.keepKinds, hget]
    exact ⟨_, rfl, hs.cache, fun kinds hk => (Option.some.inj hk).symm⟩
  rw [FileBackedDict.kindRanges]
  intro s hs
  have hfound : ReadState.kindsFound s = (.ok s.kinds, s) := rfl
  rw [Prog.bind_ok hfound]
  cases hk : s.kinds with
  | some kinds =>
    rw [hs.kinds kinds hk]
    exact ⟨s, rfl, hs⟩
  | none =>
    refine (prefixRange_computes fb _).bind_ok ?_ s hs
    refine (prefixRange_computes fb _).bind_ok ?_
    refine (prefixRange_computes fb _).bind_ok ?_
    rw [bounds_head]
    exact hkeep

variable (ox : Oxrdf)

theorem encodeCanonical_computes (t : Str) : Answered fb.toFileBackedDict (fb.encodeCanonical ox t)
    ((tolerantFallback ox t).map fun canonical => canonical.bind (rankOf fb.terms)) := by
  rw [FileBackedDict.encodeCanonical]
  have hmap : (tolerantFallback ox t).map (fun canonical => canonical.bind (rankOf fb.terms)) =
      tolerantFallback ox t >>= fun canonical => .ok (canonical.bind (rankOf fb.terms)) := by
    cases tolerantFallback ox t <;> rfl
  rw [hmap]
  refine (Computes.lift _).bind fun canonical _ => ?_
  cases canonical with
  | none => exact Computes.pure none
  | some canonical => exact encodeExact_computes fb canonical

theorem encode_computes (t : Str) :
    Answered fb.toFileBackedDict (fb.encode ox t) (lookupTolerant ox fb.terms t) := by
  rw [FileBackedDict.encode, lookupTolerant]
  refine (encodeExact_computes fb t).bind_ok ?_
  cases rankOf fb.terms t with
  | some code => exact Computes.pure _
  | none => exact encodeCanonical_computes fb ox t

end Lookups

end Dictionary
