/-
Counting sort of rows under small keys.

The rows of each key are counted, the counts summed to where each key's rows start, and
each row written where the next one of its key goes.

* `count`, `sum`, `scatter` — the three passes;
* `bucket`, `keysBefore` — the rows of a key, and how many rows have a smaller one;
* `count_spec`, `sum_spec`, `scatter_spec` — what each pass leaves;
* `sort_spec` — the rows of a key lie together, in input order;
* `buckets_perm` — the buckets hold every row once.
-/
import Mathlib

namespace CountingSort

/-! ### Writes into a slice -/

section Slices

variable {α : Type*} {l : List α} {s c p : ℕ} {x : α}

theorem getD_set (l : List α) (i j : ℕ) (x d : α) :
    (l.set i x).getD j d = if i = j ∧ i < l.length then x else l.getD j d := by
  rw [List.getD_eq_getElem?_getD, List.getD_eq_getElem?_getD, List.getElem?_set]
  by_cases hij : i = j
  · subst hij
    by_cases hi : i < l.length
    · simp [hi]
    · simp [hi]
  · simp [hij]

theorem slice_set_outside (h : p < s ∨ s + c ≤ p) :
    ((l.set p x).drop s).take c = (l.drop s).take c := by
  refine List.ext_getElem? fun j => ?_
  rw [List.getElem?_take, List.getElem?_take, List.getElem?_drop, List.getElem?_drop]
  by_cases hj : j < c
  · rw [if_pos hj, if_pos hj, List.getElem?_set_ne (by omega)]
  · rw [if_neg hj, if_neg hj]

theorem slice_set_next (h : s + c < l.length) :
    ((l.set (s + c) x).drop s).take (c + 1) = (l.drop s).take c ++ [x] := by
  rw [List.take_add_one, slice_set_outside (Or.inr le_rfl), List.getElem?_drop,
    List.getElem?_set_self h]
  rfl

end Slices

/-! ### The passes -/

variable {β : Type*}

/-- How many rows each key has, counted one place on. -/
def count (size : ℕ) (rows : List (ℕ × β)) : List ℕ :=
  rows.foldl (fun counts row => counts.set (row.1 + 1) (counts.getD (row.1 + 1) 0 + 1))
    (List.replicate size 0)

/-- The counts summed to where each key starts. -/
def sum (turns : ℕ) (counts : List ℕ) : List ℕ :=
  (List.range turns).foldl
    (fun starts k => starts.set (k + 1) (starts.getD (k + 1) 0 + starts.getD k 0)) counts

/-- Each row written where the next one of its key goes. -/
def scatter (rows : List (ℕ × β)) (next : List ℕ) (out : List β) : List ℕ × List β :=
  rows.foldl (fun state row =>
    (state.1.set row.1 (state.1.getD row.1 0 + 1), state.2.set (state.1.getD row.1 0) row.2))
    (next, out)

/-- The starts of the keys below `slots`, and the rows in their order. -/
def sort (slots : ℕ) (rows : List (ℕ × ℕ)) : List ℕ × List ℕ :=
  let starts := sum slots (count (slots + 1) rows)
  (starts, (scatter rows starts (List.replicate rows.length 0)).2)

/-- The rows of a key, in input order. -/
def bucket (rows : List (ℕ × β)) (k : ℕ) : List β := (rows.filter (·.1 = k)).map (·.2)

/-- How many rows have a smaller key. -/
def keysBefore (rows : List (ℕ × β)) (k : ℕ) : ℕ := rows.countP (·.1 < k)

variable {slots : ℕ} {rows : List (ℕ × β)}

theorem bucket_append (rows rows' : List (ℕ × β)) (k : ℕ) :
    bucket (rows ++ rows') k = bucket rows k ++ bucket rows' k := by
  rw [bucket, List.filter_append, List.map_append]
  rfl

theorem bucket_singleton (row : ℕ × β) (k : ℕ) :
    bucket [row] k = if row.1 = k then [row.2] else [] := by
  rw [bucket, List.filter_singleton]
  by_cases hk : row.1 = k <;> simp [hk]

theorem length_bucket_append_singleton (rows : List (ℕ × β)) (row : ℕ × β) (k : ℕ) :
    (bucket (rows ++ [row]) k).length = (bucket rows k).length + if row.1 = k then 1 else 0 := by
  rw [bucket_append, List.length_append, bucket_singleton]
  split_ifs <;> rfl

theorem length_bucket_le {rows rows' : List (ℕ × β)} (h : rows <+: rows') (k : ℕ) :
    (bucket rows k).length ≤ (bucket rows' k).length := by
  obtain ⟨rest, rfl⟩ := h
  rw [bucket_append, List.length_append]
  exact Nat.le_add_right _ _

theorem keysBefore_zero (rows : List (ℕ × β)) : keysBefore rows 0 = 0 := by
  simp [keysBefore]

theorem keysBefore_succ (rows : List (ℕ × β)) (k : ℕ) :
    keysBefore rows (k + 1) = keysBefore rows k + (bucket rows k).length := by
  induction rows with
  | nil => rfl
  | cons row rest ih =>
    have hcons : row :: rest = [row] ++ rest := rfl
    rw [hcons, bucket_append, List.length_append, bucket_singleton, keysBefore, keysBefore,
      List.countP_append, List.countP_append]
    rw [keysBefore, keysBefore] at ih
    rw [ih, List.countP_singleton, List.countP_singleton]
    rcases Nat.lt_trichotomy row.1 k with hlt | heq | hgt
    · simp [hlt, hlt.ne, Nat.lt_succ_of_lt hlt]
      omega
    · simp [heq]
      omega
    · simp [Nat.not_lt.mpr hgt.le, hgt.ne', Nat.not_lt.mpr (Nat.succ_le_of_lt hgt)]

theorem keysBefore_mono (rows : List (ℕ × β)) {k k' : ℕ} (h : k ≤ k') :
    keysBefore rows k ≤ keysBefore rows k' := by
  induction h with
  | refl => exact le_rfl
  | step _ ih => exact ih.trans (by rw [keysBefore_succ]; omega)

theorem keysBefore_all (h : ∀ row ∈ rows, row.1 < slots) : keysBefore rows slots = rows.length := by
  rw [keysBefore, List.countP_eq_length]
  simpa using h

theorem count_spec {size : ℕ} (hsize : 0 < size) (h : ∀ row ∈ rows, row.1 + 1 < size) :
    (count size rows).length = size ∧ (count size rows).getD 0 0 = 0 ∧
      ∀ k, (count size rows).getD (k + 1) 0 = (bucket rows k).length := by
  induction rows using List.reverseRecOn with
  | nil =>
    refine ⟨List.length_replicate, ?_, fun k => ?_⟩
    · simp [count, hsize]
    · rw [count, List.foldl_nil, List.getD_eq_getElem?_getD, List.getElem?_replicate]
      split_ifs <;> rfl
  | append_singleton rows row ih =>
    obtain ⟨hlen, hzero, hcount⟩ := ih fun row' hrow => h row' (List.mem_append_left _ hrow)
    have hrow : row.1 + 1 < size := h row (by simp)
    rw [count, List.foldl_append, List.foldl_cons, List.foldl_nil, ← count]
    refine ⟨by rw [List.length_set, hlen], by rw [getD_set, if_neg (by simp), hzero], fun k => ?_⟩
    rw [getD_set, hlen, length_bucket_append_singleton, hcount, hcount]
    by_cases hk : row.1 = k
    · rw [if_pos ⟨by rw [hk], hrow⟩, if_pos hk, hk]
    · rw [if_neg (by omega), if_neg hk, Nat.add_zero]

theorem sum_spec {counts : List ℕ} {turns : ℕ} (hlen : turns < counts.length)
    (hzero : counts.getD 0 0 = 0) (hcount : ∀ k < turns, counts.getD (k + 1) 0 = (bucket rows k).length) :
    (sum turns counts).length = counts.length ∧
      ∀ k ≤ turns, (sum turns counts).getD k 0 = keysBefore rows k := by
  -- after `n` turns the first `n` starts are summed and the counts past them are left
  have hturns : ∀ n ≤ turns, (sum n counts).length = counts.length ∧
      ∀ k, (sum n counts).getD k 0 = if k ≤ n then keysBefore rows k else counts.getD k 0 := by
    intro n
    induction n with
    | zero =>
      intro _
      refine ⟨rfl, fun k => ?_⟩
      by_cases hk : k ≤ 0
      · obtain rfl : k = 0 := by omega
        rw [if_pos hk, keysBefore_zero]
        exact hzero
      · rw [if_neg hk]
        rfl
    | succ n ih =>
      intro hn
      obtain ⟨hlen', hget⟩ := ih (by omega)
      rw [sum, List.range_succ, List.foldl_append, List.foldl_cons, List.foldl_nil, ← sum]
      refine ⟨by rw [List.length_set, hlen'], fun k => ?_⟩
      rw [getD_set, hlen', hget (n + 1), hget n, hget k]
      by_cases hk : n + 1 = k
      · subst hk
        rw [if_pos ⟨rfl, by omega⟩, if_neg (by omega), if_pos le_rfl, if_pos le_rfl,
          hcount n (by omega), keysBefore_succ, Nat.add_comm]
      · rw [if_neg (by omega)]
        by_cases hkn : k ≤ n
        · rw [if_pos hkn, if_pos (by omega)]
        · rw [if_neg hkn, if_neg (by omega)]
  obtain ⟨hlen', hget⟩ := hturns turns le_rfl
  exact ⟨hlen', fun k hk => by rw [hget, if_pos hk]⟩

/-- What the scatter has done after the rows `done` of all of them. -/
structure Scattered (slots : ℕ) (all done : List (ℕ × β)) (next : List ℕ) (out : List β) : Prop where
  nextLength : slots ≤ next.length
  next : ∀ k < slots, next.getD k 0 = keysBefore all k + (bucket done k).length
  length : out.length = all.length
  slices : ∀ k < slots, (out.drop (keysBefore all k)).take (bucket done k).length = bucket done k

theorem Scattered.step {all done rest : List (ℕ × β)} {next : List ℕ} {out : List β} {row : ℕ × β}
    (h : Scattered slots all done next out) (hall : all = done ++ row :: rest)
    (hslots : ∀ row ∈ all, row.1 < slots) :
    Scattered slots all (done ++ [row]) (next.set row.1 (next.getD row.1 0 + 1))
      (out.set (next.getD row.1 0) row.2) := by
  have hrow : row.1 < slots := hslots row (by simp [hall])
  have hpre : done ++ [row] <+: all := ⟨rest, by simp [hall]⟩
  have hself : (bucket (done ++ [row]) row.1).length = (bucket done row.1).length + 1 := by
    rw [length_bucket_append_singleton, if_pos rfl]
  have hother : ∀ {k}, row.1 ≠ k → bucket (done ++ [row]) k = bucket done k := by
    intro k hk
    rw [bucket_append, bucket_singleton, if_neg hk, List.append_nil]
  have hle : keysBefore all slots = all.length := keysBefore_all hslots
  have hroom : ∀ k, keysBefore all k + (bucket (done ++ [row]) k).length ≤ keysBefore all (k + 1) := by
    intro k
    rw [keysBefore_succ]
    exact Nat.add_le_add_left (length_bucket_le hpre k) _
  have hlong := h.nextLength
  refine ⟨by rwa [List.length_set], fun k hk => ?_, by rw [List.length_set, h.length], fun k hk => ?_⟩
  · rw [getD_set]
    by_cases hks : row.1 = k
    · subst hks
      rw [if_pos ⟨rfl, by omega⟩, h.next _ hrow, hself]
      omega
    · rw [if_neg fun hand => hks hand.1, h.next k hk, hother hks]
  · rw [h.next row.1 hrow]
    by_cases hks : row.1 = k
    · subst hks
      -- its own slice grows by one, still short of the next key's
      have hlt : keysBefore all row.1 + (bucket done row.1).length < out.length := by
        have hsame := hroom row.1
        have hmono := keysBefore_mono all (show row.1 + 1 ≤ slots from hrow)
        rw [hself] at hsame
        rw [h.length]
        omega
      rw [hself, slice_set_next hlt, h.slices _ hrow, bucket_append, bucket_singleton, if_pos rfl]
    · -- the row is written into another key's slice
      have hout : keysBefore all row.1 + (bucket done row.1).length < keysBefore all k ∨
          keysBefore all k + (bucket done k).length ≤
            keysBefore all row.1 + (bucket done row.1).length := by
        have hks' := hroom k
        have hss := hroom row.1
        rw [hother hks] at hks'
        rw [hself] at hss
        rcases Nat.lt_or_gt_of_ne hks with hlt | hgt
        · have := keysBefore_mono all (show row.1 + 1 ≤ k from hlt)
          left
          omega
        · have := keysBefore_mono all (show k + 1 ≤ row.1 from hgt)
          right
          omega
      rw [hother hks, slice_set_outside hout, h.slices k hk]

theorem scatter_spec (hslots : ∀ row ∈ rows, row.1 < slots) {next : List ℕ} {out : List β}
    (hlen : slots ≤ next.length) (hnext : ∀ k < slots, next.getD k 0 = keysBefore rows k)
    (hout : out.length = rows.length) :
    (scatter rows next out).2.length = rows.length ∧ ∀ k < slots,
      ((scatter rows next out).2.drop (keysBefore rows k)).take (bucket rows k).length =
        bucket rows k := by
  have hrun : ∀ (rest done : List (ℕ × β)) (next : List ℕ) (out : List β), rows = done ++ rest →
      Scattered slots rows done next out →
      Scattered slots rows rows (scatter rest next out).1 (scatter rest next out).2 := by
    intro rest
    induction rest with
    | nil =>
      intro done next out hall h
      obtain rfl : rows = done := by simpa using hall
      exact h
    | cons row rest ih =>
      intro done next out hall h
      exact ih (done ++ [row]) _ _ (by simpa using hall) (h.step hall hslots)
  have hfirst : Scattered slots rows [] next out :=
    ⟨hlen, fun k hk => hnext k hk, hout, fun _ _ => rfl⟩
  have hall := hrun rows [] next out (List.nil_append rows).symm hfirst
  exact ⟨hall.length, hall.slices⟩

/-- The rows of a key lie from its start to the next one's, in input order. -/
theorem sort_spec {rows : List (ℕ × ℕ)} (h : ∀ row ∈ rows, row.1 < slots) :
    (∀ k ≤ slots, (sort slots rows).1.getD k 0 = keysBefore rows k) ∧
    ∀ k < slots, ((sort slots rows).2.take ((sort slots rows).1.getD (k + 1) 0)).drop
      ((sort slots rows).1.getD k 0) = bucket rows k := by
  obtain ⟨hlen, hzero, hcount⟩ := count_spec (Nat.succ_pos slots)
    fun row hrow => Nat.add_lt_add_right (h row hrow) 1
  obtain ⟨hlen', hstarts⟩ := sum_spec (by rw [hlen]; exact Nat.lt_succ_self slots) hzero
    fun k _ => hcount k
  have hscatter := scatter_spec h (by rw [hlen', hlen]; exact Nat.le_succ slots)
    (fun k hk => hstarts k hk.le) (List.length_replicate (a := 0))
  refine ⟨hstarts, fun k hk => ?_⟩
  have hk₁ := hstarts k hk.le
  have hk₂ := hstarts (k + 1) hk
  change ((scatter rows _ _).2.take ((sum slots (count (slots + 1) rows)).getD (k + 1) 0)).drop
    ((sum slots (count (slots + 1) rows)).getD k 0) = _
  rw [hk₁, hk₂, List.drop_take, keysBefore_succ, Nat.add_sub_cancel_left]
  exact hscatter.2 k hk

/-- The buckets of all keys, one after the other, are the rows rearranged. -/
theorem buckets_perm (h : ∀ row ∈ rows, row.1 < slots) :
    ((List.range slots).flatMap (bucket rows)).Perm (rows.map (·.2)) := by
  induction rows with
  | nil => simp [bucket]
  | cons row rest ih =>
    have hrow : row.1 < slots := h row List.mem_cons_self
    have hrest := ih fun row' hrow' => h row' (List.mem_cons_of_mem _ hrow')
    have hsplit : ∀ k, bucket (row :: rest) k = bucket [row] k ++ bucket rest k :=
      fun k => bucket_append [row] rest k
    have hone : (List.range slots).flatMap (bucket [row]) = [row.2] := by
      have hfun : bucket [row] = fun k => if row.1 = k then [row.2] else [] :=
        funext fun k => bucket_singleton row k
      rw [hfun]
      have hfilter : (List.range slots).flatMap (fun k => if row.1 = k then [row.2] else []) =
          ((List.range slots).filter (· = row.1)).map fun _ => row.2 := by
        induction List.range slots with
        | nil => rfl
        | cons k ks ih =>
          rw [List.flatMap_cons, ih]
          by_cases hk : row.1 = k
          · simp [hk]
          · simp [hk, Ne.symm hk]
      have hcount : (List.range slots).filter (· = row.1) = [row.1] := by
        rw [List.filter_eq, List.count_eq_one_of_mem List.nodup_range (List.mem_range.mpr hrow)]
        rfl
      rw [hfilter, hcount]
      rfl
    calc ((List.range slots).flatMap (bucket (row :: rest))).Perm
          ((List.range slots).flatMap (bucket [row]) ++ (List.range slots).flatMap (bucket rest)) := by
            rw [show bucket (row :: rest) = fun k => bucket [row] k ++ bucket rest k from funext hsplit]
            exact (List.flatMap_append_perm _ _ _).symm
      _ |>.Perm ([row.2] ++ rest.map (·.2)) := by
            rw [hone]
            exact hrest.append_left _

end CountingSort
