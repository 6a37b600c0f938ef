/-
A chunk's entries read back as the terms they were pushed for.

* `push_spec` — a distinct term pushed: its entry reads as it, and the others as before;
* `decode_spec` — the distinct codes decoded, in whatever order they are visited.
-/
import VortexRdf.TermPayloads

namespace TermPayloads

open Dictionary Programs Sharing Store Terms

/-! ### 32-bit numbers -/

/-- An `i32`. -/
def IsI32 (n : ℤ) : Prop := -2 ^ 31 ≤ n ∧ n < 2 ^ 31

theorem bmod_of_isI32 {m : ℕ} (hm : m = 2 ^ 32) {n : ℤ} (h : IsI32 n) : n.bmod m = n := by
  obtain ⟨hle, hlt⟩ := h
  exact Int.bmod_eq_of_le_mul_two (by omega) (by omega)

theorem asI32_eq {n : ℕ} (h : n ≤ I32_MAX) : asI32 n = n := by
  unfold I32_MAX at h
  exact bmod_of_isI32 rfl ⟨by omega, by omega⟩

theorem subI32_eq {n : ℕ} (h : n ≤ I32_MAX) : subI32 (-1) n = -1 - (n : ℤ) := by
  unfold I32_MAX at h
  exact bmod_of_isI32 rfl ⟨by omega, by omega⟩

/-! ### A term pushed -/

namespace Payload

variable {p : Payload}

/-- Bounds in pairs, inside a text that 32 bits address. -/
structure Laid (p : Payload) : Prop where
  even : p.bounds.length % 2 = 0
  inside : ∀ b ∈ p.bounds, 0 ≤ b ∧ b ≤ p.text.length
  text_le : p.text.length ≤ I32_MAX

/-- The distinct terms of a chunk. -/
def count (p : Payload) : ℕ := p.bounds.length / 2 + p.large.length

theorem empty_laid : empty.Laid :=
  ⟨rfl, fun _ hb => absurd hb List.not_mem_nil, Nat.zero_le _⟩

theorem empty_count : empty.count = 0 := by simp [count, empty]

theorem text_length_le (p : Payload) : p.text.length ≤ p.bytes := Nat.le_add_right _ _

/-- What is read stays so when the text, the bounds and the large terms grow. -/
theorem read_of_grown {p' : Payload} {text : Str} {bounds : List ℤ} {large : List Str}
    (htext : p'.text = p.text ++ text) (hbounds : p'.bounds = p.bounds ++ bounds)
    (hlarge : p'.large = p.large ++ large) {entry : ℤ} {t : Option Str}
    (h : p.read entry = some t) : p'.read entry = some t := by
  rw [read] at h ⊢
  split_ifs at h ⊢ with hpos hnone
  · obtain ⟨s, hs, rfl⟩ := Option.map_eq_some_iff.mp h
    refine Option.map_eq_some_iff.mpr ⟨s, ?_, rfl⟩
    obtain ⟨start, hstart, hrest⟩ := Option.bind_eq_some_iff.mp hs
    obtain ⟨stop, hstop, hbetween⟩ := Option.bind_eq_some_iff.mp hrest
    rw [distinct, hbounds, getElem?_append_of_some hstart, Option.bind_some,
      getElem?_append_of_some hstop, Option.bind_some]
    rw [textBetween] at hbetween ⊢
    split_ifs at hbetween with hin
    obtain ⟨hzero, hle, hend⟩ := hin
    have hin' : 0 ≤ start ∧ start ≤ stop ∧ stop ≤ p'.text.length := by
      refine ⟨hzero, hle, hend.trans ?_⟩
      rw [htext, List.length_append]
      omega
    rw [if_pos hin', ← hbetween, htext, List.drop_append_of_le_length (by omega),
      List.take_append_of_le_length]
    rw [List.length_drop]
    omega
  · exact h
  · obtain ⟨s, hs, rfl⟩ := Option.map_eq_some_iff.mp h
    rw [hlarge, getElem?_append_of_some hs]
    rfl

/-- What a distinct term's push leaves. -/
structure Pushed (p : Payload) (term : Str) (largeTerm : ℕ) (p' : Payload) (entry : ℤ) : Prop where
  laid : p'.Laid
  reads : p'.read entry = some (some term)
  others : ∀ e t, p.read e = some t → p'.read e = some t
  entry_i32 : IsI32 entry
  bytes : p'.bytes = p.bytes + term.length
  count : p'.count = p.count + 1
  terms : p'.terms = p.terms
  text : p'.text.length = p.text.length + if term.length ≤ largeTerm then term.length else 0

variable {term : Str} {largeTerm : ℕ}

/-- A large term's push, without the 32 bits. -/
theorem push_large (hlarge : largeTerm < term.length)
    (hcount : p.large.length < I32_MAX) : p.push term largeTerm =
      ({ p with large := p.large ++ [term] }, -2 - (p.large.length : ℤ)) := by
  have hlen : (p.large ++ [term]).length = p.large.length + 1 := List.length_append
  have hentry : subI32 (-1) (asI32 (p.large ++ [term]).length) = -2 - (p.large.length : ℤ) := by
    rw [hlen, asI32_eq hcount, subI32_eq hcount]
    push_cast
    ring
  rw [push, if_pos hlarge]
  simp only [hentry]

/-- A small term's push, without the 32 bits. -/
theorem push_small (hsmall : ¬largeTerm < term.length)
    (htext : p.text.length + term.length ≤ I32_MAX) (heven : p.bounds.length % 2 = 0)
    (hcount : p.bounds.length / 2 < I32_MAX) : p.push term largeTerm =
      ({ p with text := p.text ++ term
                bounds := p.bounds ++ [(p.text.length : ℤ), (p.text.length + term.length : ℕ)] },
        ((p.bounds.length / 2 : ℕ) : ℤ)) := by
  have hbefore : p.text.length ≤ I32_MAX := (Nat.le_add_right _ _).trans htext
  have hbounds : ∀ start stop : ℤ, (p.bounds ++ [start, stop]).length / 2 - 1 = p.bounds.length / 2 := by
    intro start stop
    rw [List.length_append, List.length_cons, List.length_singleton]
    omega
  rw [push, if_neg hsmall]
  simp only [hbounds, asI32_eq hcount.le]
  rw [List.length_append, asI32_eq htext, asI32_eq hbefore]

theorem entry_isI32 {n : ℕ} (h : n < I32_MAX) : IsI32 n ∧ IsI32 (-2 - (n : ℤ)) := by
  unfold I32_MAX at h
  exact ⟨⟨by omega, by omega⟩, ⟨by omega, by omega⟩⟩

/-- The last large term is read back by its entry. -/
theorem read_large {n : ℕ} {p' : Payload} (hp' : p'.large = p.large ++ [term])
    (hn : n = p.large.length) : p'.read (-2 - (n : ℤ)) = some (some term) := by
  have hindex : (-2 - (-2 - (n : ℤ))).toNat = p.large.length := by omega
  rw [read, if_neg (by omega), if_neg (by omega), hindex, hp', List.getElem?_concat_length]
  rfl

/-- The last term of the shared text is read back between its bounds. -/
theorem read_small (heven : p.bounds.length % 2 = 0) {p' : Payload}
    (htext : p'.text = p.text ++ term)
    (hbounds : p'.bounds = p.bounds ++ [(p.text.length : ℤ), (p.text.length + term.length : ℕ)]) :
    p'.read ((p.bounds.length / 2 : ℕ) : ℤ) = some (some term) := by
  have hfirst : 2 * (p.bounds.length / 2) = p.bounds.length := by omega
  have hone : p.bounds.length + 1 - p.bounds.length = 1 := by omega
  have hwidth : ((p.text.length + term.length : ℕ) : ℤ) - (p.text.length : ℤ) = term.length := by
    push_cast
    ring
  have hin : (0 : ℤ) ≤ p.text.length ∧ (p.text.length : ℤ) ≤ (p.text.length + term.length : ℕ) ∧
      ((p.text.length + term.length : ℕ) : ℤ) ≤ p'.text.length := by
    rw [htext, List.length_append]
    omega
  rw [read, if_pos (Int.natCast_nonneg _), Int.toNat_natCast, distinct, hfirst, hbounds,
    List.getElem?_append_right le_rfl, Nat.sub_self,
    List.getElem?_append_right (Nat.le_add_right _ 1), hone]
  simp only [List.getElem?_cons_zero, List.getElem?_cons_succ, Option.bind_some]
  rw [textBetween, if_pos hin, hwidth, htext, Int.toNat_natCast, Int.toNat_natCast, List.drop_left,
    List.take_length]
  rfl

theorem pushed_large (h : p.Laid) (hlarge : largeTerm < term.length)
    (halone : p.large.length < I32_MAX) :
    p.Pushed term largeTerm (p.push term largeTerm).1 (p.push term largeTerm).2 := by
  rw [push_large hlarge halone]
  refine ⟨⟨h.even, h.inside, h.text_le⟩, read_large rfl rfl, fun e t ht => ?_, (entry_isI32 halone).2,
    ?_, ?_, rfl, ?_⟩
  · refine @read_of_grown p _ [] [] [term] ?_ ?_ ?_ e t ht
    · exact (List.append_nil _).symm
    · exact (List.append_nil _).symm
    · rfl
  · simp only [bytes, List.map_append, List.sum_append, List.map_singleton, List.sum_singleton]
    omega
  · simp only [count, List.length_append, List.length_singleton]
    omega
  · rw [if_neg (Nat.not_le.mpr hlarge), Nat.add_zero]

theorem pushed_small (h : p.Laid) (hlarge : ¬largeTerm < term.length)
    (hroom : p.text.length + term.length ≤ I32_MAX) (hpairs : p.bounds.length / 2 < I32_MAX) :
    p.Pushed term largeTerm (p.push term largeTerm).1 (p.push term largeTerm).2 := by
  rw [push_small hlarge hroom h.even hpairs]
  refine ⟨⟨?_, fun b hb => ?_, ?_⟩, read_small h.even rfl rfl, fun e t ht => ?_, (entry_isI32 hpairs).1,
    ?_, ?_, rfl, ?_⟩
  · have heven := h.even
    simp only [List.length_append, List.length_cons, List.length_nil]
    omega
  · simp only [List.length_append]
    rcases List.mem_append.mp hb with hold | hnew
    · have hin := h.inside b hold
      omega
    · simp only [List.mem_cons, List.not_mem_nil, or_false] at hnew
      omega
  · rw [List.length_append]
    exact hroom
  · refine @read_of_grown p _ term [_, _] [] ?_ rfl ?_ e t ht
    · rfl
    · exact (List.append_nil _).symm
  · simp only [bytes, List.length_append]
    omega
  · simp only [count, List.length_append, List.length_cons, List.length_nil]
    omega
  · rw [if_pos (Nat.le_of_not_lt hlarge), List.length_append]

theorem push_spec (h : p.Laid)
    (hroom : p.text.length + (if term.length ≤ largeTerm then term.length else 0) ≤ I32_MAX)
    (hcount : p.count < I32_MAX) :
    p.Pushed term largeTerm (p.push term largeTerm).1 (p.push term largeTerm).2 := by
  rw [count] at hcount
  by_cases hlarge : largeTerm < term.length
  · -- it travels alone
    exact pushed_large h hlarge ((Nat.le_add_left _ _).trans_lt hcount)
  · rw [if_pos (Nat.le_of_not_lt hlarge)] at hroom
    exact pushed_small h hlarge hroom ((Nat.le_add_right _ _).trans_lt hcount)

end Payload

/-! ### The distinct codes decoded -/

/-- The bytes of a code's term, if it has one. -/
def size (t : Option Str) : ℕ := (t.getD []).length

/-- The bytes a code's term takes of the shared text. -/
def smallSize (largeTerm : ℕ) (t : Option Str) : ℕ := if size t ≤ largeTerm then size t else 0

theorem smallSize_le (largeTerm : ℕ) (t : Option Str) : smallSize largeTerm t ≤ size t := by
  rw [smallSize]
  split_ifs
  · exact le_rfl
  · exact Nat.zero_le _

theorem smallSize_le_large (largeTerm : ℕ) (t : Option Str) : smallSize largeTerm t ≤ largeTerm := by
  rw [smallSize]
  split_ifs with h
  · exact h
  · exact Nat.zero_le _

/-- The bytes of visited terms. -/
def total (visits : List (ℕ × Option Str)) : ℕ := (visits.map fun v => size v.2).sum

def smallTotal (largeTerm : ℕ) (visits : List (ℕ × Option Str)) : ℕ :=
  (visits.map fun v => smallSize largeTerm v.2).sum

/-- What is measured of the visited terms, whether they pass the budget or not. -/
structure Decoding.Measured (d : Decoding) (len : ℕ) (visits : List (ℕ × Option Str)) : Prop where
  lengths_len : d.lengths.length = len
  entries_len : d.entries.length = len
  bytes : d.bytes = total visits
  missed : d.missed = true ↔ ∃ v ∈ visits, v.2 = none
  lengths : ∀ v ∈ visits, d.lengths.getD v.1 0 = size v.2
  others : ∀ i, i ∉ visits.map (·.1) → d.lengths.getD i 0 = 0

/-- What is copied of the visited terms, while they are within the budget. -/
structure Decoding.Copied (d : Decoding) (largeTerm : ℕ) (visits : List (ℕ × Option Str)) : Prop where
  laid : d.payload.Laid
  terms : d.payload.terms = []
  bytes : d.payload.bytes = total visits
  text : d.payload.text.length = smallTotal largeTerm visits
  count : d.payload.count ≤ visits.length
  entries : ∀ v ∈ visits, d.payload.read (d.entries.getD v.1 NONE) = some v.2 ∧
    IsI32 (d.entries.getD v.1 NONE)
  others : ∀ i, i ∉ visits.map (·.1) → d.entries.getD i NONE = NONE

section Visits

variable {d : Decoding} {largeTerm budget len : ℕ} {visits rest : List (ℕ × Option Str)}

theorem none_isI32 : IsI32 NONE := by
  rw [NONE]
  exact ⟨by norm_num, by norm_num⟩

theorem getD_set_self {α : Type} {l : List α} {i : ℕ} (h : i < l.length) (a b : α) :
    (l.set i a).getD i b = a := by
  rw [List.getD_eq_getElem?_getD, List.getElem?_set_self h, Option.getD_some]

theorem getD_set_ne {α : Type} {l : List α} {i j : ℕ} (h : i ≠ j) (a b : α) :
    (l.set i a).getD j b = l.getD j b := by
  rw [List.getD_eq_getElem?_getD, List.getD_eq_getElem?_getD, List.getElem?_set_ne h]

theorem total_append (more : List (ℕ × Option Str)) : total (visits ++ more) = total visits + total more := by
  rw [total, List.map_append, List.sum_append]
  rfl

theorem smallTotal_append (more : List (ℕ × Option Str)) :
    smallTotal largeTerm (visits ++ more) = smallTotal largeTerm visits + smallTotal largeTerm more := by
  rw [smallTotal, List.map_append, List.sum_append]
  rfl

theorem total_single (v : ℕ × Option Str) : total [v] = size v.2 := Nat.add_zero _

theorem smallTotal_single (v : ℕ × Option Str) : smallTotal largeTerm [v] = smallSize largeTerm v.2 :=
  Nat.add_zero _

/-- A visit leaves the lengths and entries of the other positions. -/
theorem ne_of_fresh {v w : ℕ × Option Str} (hfresh : v.1 ∉ visits.map (·.1)) (hw : w ∈ visits) :
    v.1 ≠ w.1 := by
  intro heq
  exact hfresh (heq ▸ List.mem_map_of_mem hw)

theorem not_mem_of_append {v : ℕ × Option Str} {i : ℕ} (hi : i ∉ (visits ++ [v]).map (·.1)) :
    i ∉ visits.map (·.1) ∧ v.1 ≠ i := by
  rw [List.map_append, List.mem_append, not_or] at hi
  exact ⟨hi.1, fun heq => hi.2 (List.mem_singleton.mpr heq.symm)⟩

theorem visit_measured (h : d.Measured len visits) {v : ℕ × Option Str} (hlt : v.1 < len)
    (hfresh : v.1 ∉ visits.map (·.1)) :
    (d.visit largeTerm budget v).Measured len (visits ++ [v]) := by
  obtain ⟨i, t⟩ := v
  have hlengths : ∀ lengths : List ℕ, lengths.getD i 0 = size t →
      (∀ w ∈ visits, lengths.getD w.1 0 = d.lengths.getD w.1 0) →
      ∀ w ∈ visits ++ [(i, t)], lengths.getD w.1 0 = size w.2 := by
    intro lengths hself hothers w hw
    rcases List.mem_append.mp hw with hold | hnew
    · rw [hothers w hold, h.lengths w hold]
    · obtain rfl := List.mem_singleton.mp hnew
      exact hself
  cases t with
  | none =>
    -- a code outside the dictionary keeps the length 0 of a place not visited
    have hself : d.lengths.getD i 0 = size none := h.others i hfresh
    refine ⟨h.lengths_len, h.entries_len, ?_, ?_, hlengths _ hself fun w _ => rfl, fun j hj => ?_⟩
    · rw [total_append, total_single]
      exact h.bytes
    · exact ⟨fun _ => ⟨(i, none), List.mem_append_right _ List.mem_cons_self, rfl⟩, fun _ => rfl⟩
    · exact h.others j (not_mem_of_append hj).1
  | some term =>
    have hself : (d.lengths.set i term.length).getD i 0 = size (some term) :=
      getD_set_self (h.lengths_len.symm ▸ hlt) _ _
    have hset := hlengths _ hself fun w hw => getD_set_ne (ne_of_fresh hfresh hw) _ _
    have hothers : ∀ j, j ∉ (visits ++ [(i, some term)]).map (·.1) →
        (d.lengths.set i term.length).getD j 0 = 0 := by
      intro j hj
      obtain ⟨hold, hne⟩ := not_mem_of_append hj
      rw [getD_set_ne hne, h.others j hold]
    have hbytes : d.bytes + term.length = total (visits ++ [(i, some term)]) := by
      rw [total_append, total_single, h.bytes]
      rfl
    have hmissed : d.missed = true ↔ ∃ w ∈ visits ++ [(i, some term)], w.2 = none := by
      rw [h.missed]
      constructor
      · rintro ⟨w, hw, hnone⟩
        exact ⟨w, List.mem_append_left _ hw, hnone⟩
      · rintro ⟨w, hw, hnone⟩
        rcases List.mem_append.mp hw with hold | hnew
        · exact ⟨w, hold, hnone⟩
        · obtain rfl := List.mem_singleton.mp hnew
          cases hnone
    rw [Decoding.visit]
    dsimp only
    -- past the budget the term is measured and not copied
    split_ifs with hfits
    · exact ⟨List.length_set.trans h.lengths_len, List.length_set.trans h.entries_len, hbytes, hmissed,
        hset, hothers⟩
    · exact ⟨List.length_set.trans h.lengths_len, h.entries_len, hbytes, hmissed, hset, hothers⟩

theorem visit_copied (h : d.Copied largeTerm visits) (hm : d.Measured len visits)
    {v : ℕ × Option Str} (hlt : v.1 < len) (hfresh : v.1 ∉ visits.map (·.1))
    (hbudget : total (visits ++ [v]) ≤ budget) (hroom : smallTotal largeTerm (visits ++ [v]) ≤ I32_MAX)
    (hcount : visits.length < I32_MAX) :
    (d.visit largeTerm budget v).Copied largeTerm (visits ++ [v]) := by
  obtain ⟨i, t⟩ := v
  rw [total_append, total_single] at hbudget
  rw [smallTotal_append, smallTotal_single, ← h.text] at hroom
  cases t with
  | none =>
    refine ⟨h.laid, h.terms, ?_, ?_, ?_, fun w hw => ?_, fun j hj => ?_⟩
    · rw [total_append, total_single]
      exact h.bytes
    · rw [smallTotal_append, smallTotal_single]
      exact h.text.trans (Nat.add_zero _).symm
    · exact h.count.trans (by rw [List.length_append]; exact Nat.le_add_right _ _)
    · rcases List.mem_append.mp hw with hold | hnew
      · exact h.entries w hold
      · obtain rfl := List.mem_singleton.mp hnew
        -- its entry is the one it had, of no term
        have hnone : d.entries.getD i NONE = NONE := h.others i hfresh
        show d.payload.read (d.entries.getD i NONE) = some none ∧ IsI32 (d.entries.getD i NONE)
        rw [hnone]
        exact ⟨rfl, none_isI32⟩
    · exact h.others j (not_mem_of_append hj).1
  | some term =>
    -- within the budget the term is pushed, and the others are read as before
    have hfits : d.bytes + term.length ≤ budget := by
      rw [hm.bytes]
      exact hbudget
    obtain ⟨p, e, hpushed⟩ : ∃ p e, d.payload.push term largeTerm = (p, e) := ⟨_, _, rfl⟩
    have hpush := @Payload.push_spec d.payload term largeTerm h.laid hroom (h.count.trans_lt hcount)
    rw [hpushed] at hpush
    rw [Decoding.visit]
    dsimp only
    rw [if_pos hfits, hpushed]
    have hin : i < d.entries.length := hm.entries_len.symm ▸ hlt
    refine ⟨hpush.laid, hpush.terms.trans h.terms, ?_, ?_, ?_, fun w hw => ?_, fun j hj => ?_⟩
    · rw [total_append, total_single, ← h.bytes]
      exact hpush.bytes
    · rw [smallTotal_append, smallTotal_single, ← h.text]
      exact hpush.text
    · rw [List.length_append, List.length_singleton]
      exact hpush.count.le.trans (Nat.succ_le_succ h.count)
    · rcases List.mem_append.mp hw with hold | hnew
      · obtain ⟨hread, hi32⟩ := h.entries w hold
        dsimp only
        rw [getD_set_ne (ne_of_fresh hfresh hold)]
        exact ⟨hpush.others _ _ hread, hi32⟩
      · obtain rfl := List.mem_singleton.mp hnew
        dsimp only
        rw [getD_set_self hin]
        exact ⟨hpush.reads, hpush.entry_i32⟩
    · obtain ⟨hold, hne⟩ := not_mem_of_append hj
      dsimp only
      rw [getD_set_ne hne]
      exact h.others j hold

theorem fresh_of_nodup {v : ℕ × Option Str} (hnodup : ((visits ++ [v] ++ rest).map (·.1)).Nodup) :
    v.1 ∉ visits.map (·.1) := by
  rw [List.map_append, List.map_append, List.append_assoc, List.nodup_append] at hnodup
  exact fun hmem => hnodup.2.2 _ hmem _ List.mem_cons_self rfl

theorem visits_measured (h : d.Measured len visits) (hlt : ∀ v ∈ rest, v.1 < len)
    (hnodup : ((visits ++ rest).map (·.1)).Nodup) :
    (rest.foldl (Decoding.visit largeTerm budget) d).Measured len (visits ++ rest) := by
  induction rest generalizing d visits with
  | nil => rwa [List.append_nil]
  | cons v rest ih =>
    rw [List.append_cons] at hnodup ⊢
    have hfresh := fresh_of_nodup hnodup
    exact ih (visit_measured h (hlt v List.mem_cons_self) hfresh)
      (fun w hw => hlt w (List.mem_cons_of_mem v hw)) hnodup

theorem visits_copied (h : d.Copied largeTerm visits) (hm : d.Measured len visits)
    (hlt : ∀ v ∈ rest, v.1 < len) (hnodup : ((visits ++ rest).map (·.1)).Nodup)
    (hbudget : total (visits ++ rest) ≤ budget) (hroom : smallTotal largeTerm (visits ++ rest) ≤ I32_MAX)
    (hcount : (visits ++ rest).length ≤ I32_MAX) :
    (rest.foldl (Decoding.visit largeTerm budget) d).Copied largeTerm (visits ++ rest) := by
  induction rest generalizing d visits with
  | nil => rwa [List.append_nil]
  | cons v rest ih =>
    rw [List.append_cons] at hnodup hbudget hroom hcount ⊢
    have hfresh := fresh_of_nodup hnodup
    have hfits : total (visits ++ [v]) ≤ budget := by
      rw [total_append] at hbudget
      exact (Nat.le_add_right _ _).trans hbudget
    have hsmall : smallTotal largeTerm (visits ++ [v]) ≤ I32_MAX := by
      rw [smallTotal_append] at hroom
      exact (Nat.le_add_right _ _).trans hroom
    have hlen : visits.length < I32_MAX := by
      rw [List.length_append, List.length_append, List.length_singleton] at hcount
      omega
    have hv := hlt v List.mem_cons_self
    exact ih (visit_copied h hm hv hfresh hfits hsmall hlen) (visit_measured hm hv hfresh)
      (fun w hw => hlt w (List.mem_cons_of_mem v hw)) hnodup hbudget hroom hcount

theorem getD_replicate_self {α : Type} (len i : ℕ) (a : α) : (List.replicate len a).getD i a = a := by
  rw [List.getD_eq_getElem?_getD, List.getElem?_getD_replicate_default_eq]

theorem new_measured (len : ℕ) : (Decoding.new len).Measured len [] := by
  have hmissed : (Decoding.new len).missed = true ↔ ∃ v ∈ ([] : List (ℕ × Option Str)), v.2 = none := by
    constructor
    · intro h
      cases h
    · rintro ⟨v, hv, -⟩
      cases hv
  exact ⟨List.length_replicate, List.length_replicate, rfl, hmissed,
    fun _ hv => absurd hv List.not_mem_nil, fun i _ => getD_replicate_self len i 0⟩

theorem new_copied (len : ℕ) : (Decoding.new len).Copied largeTerm [] :=
  ⟨Payload.empty_laid, rfl, rfl, rfl, Payload.empty_count.le, fun _ hv => absurd hv List.not_mem_nil,
    fun i _ => getD_replicate_self len i NONE⟩

end Visits

/-! ### A decode -/

/-- The terms of codes, if they have one. -/
def termsOf (dict : DictReader) (codes : List TermCode) : List (Option Str) :=
  codes.map fun code => dict.terms[code]?

/-- What is decoded of distinct codes: their terms' lengths, and, where these keep to the budget,
a chunk with each one's entry. -/
structure Decoded.Spec (d : Decoded) (dict : DictReader) (codes : List TermCode) (largeTerm budget : ℕ) :
    Prop where
  lengths : d.lengths = (termsOf dict codes).map size
  passed : d.passed = decide (budget < ((termsOf dict codes).map size).sum)
  missed : d.missed = true ↔ none ∈ termsOf dict codes
  copied : ((termsOf dict codes).map size).sum ≤ budget →
    ((termsOf dict codes).map (smallSize largeTerm)).sum ≤ I32_MAX → codes.length ≤ I32_MAX →
    d.payload.Laid ∧ d.payload.bytes = ((termsOf dict codes).map size).sum ∧
      ∀ i t, (termsOf dict codes)[i]? = some t →
        d.payload.read (d.entries.getD i NONE) = some t ∧ IsI32 (d.entries.getD i NONE)

/-- The visits of a batch in order. -/
def inOrder (dict : DictReader) (codes : List TermCode) : List (ℕ × Option Str) :=
  codes.zipIdx.map fun p => (p.2, dict.terms[p.1]?)

theorem decodeManyWith_computes (dict : DictReader) (codes : List TermCode) : ∃ visits,
    Computes dict.Faithful (dict.decodeManyWith codes) (.ok visits) ∧ visits.Perm (inOrder dict codes) := by
  obtain ⟨access, hlt⟩ := dict
  cases access with
  | resident resident => exact ⟨_, Computes.pure _, .of_eq (resident.decodeManyWith_eq codes)⟩
  | fileBacked fb => exact Dictionary.decodeManyWith_computes fb codes

theorem inOrder_snd (dict : DictReader) (codes : List TermCode) :
    (inOrder dict codes).map (·.2) = termsOf dict codes := by
  rw [inOrder, termsOf, List.map_map]
  conv_rhs => rw [← List.zipIdx_map_fst 0 codes, List.map_map]
  rfl

theorem inOrder_fst (dict : DictReader) (codes : List TermCode) :
    (inOrder dict codes).map (·.1) = List.range codes.length := by
  rw [inOrder, List.map_map, List.range_eq_range', ← List.zipIdx_map_snd]
  rfl

theorem mem_inOrder {dict : DictReader} {codes : List TermCode} {i : ℕ} {t : Option Str}
    (h : (termsOf dict codes)[i]? = some t) : (i, t) ∈ inOrder dict codes := by
  rw [termsOf, List.getElem?_map] at h
  obtain ⟨code, hcode, rfl⟩ := Option.map_eq_some_iff.mp h
  exact List.mem_map.mpr ⟨(code, i), List.mem_zipIdx_iff_getElem?.mpr hcode, rfl⟩

theorem decode_spec (dict : DictReader) (codes : List TermCode) (largeTerm budget : ℕ) : ∃ d,
    Computes dict.Faithful (decode dict codes largeTerm budget) (.ok d) ∧
      d.Spec dict codes largeTerm budget := by
  obtain ⟨visits, hvisits, hperm⟩ := decodeManyWith_computes dict codes
  refine ⟨_, hvisits.bind_ok (Computes.pure _), ?_⟩
  -- the visits are the codes' places in some order, each once
  have hfst : (visits.map (·.1)).Perm (List.range codes.length) :=
    inOrder_fst dict codes ▸ hperm.map (·.1)
  have hlt : ∀ v ∈ visits, v.1 < codes.length := fun v hv =>
    List.mem_range.mp (hfst.subset (List.mem_map_of_mem hv))
  have hnodup : (visits.map (·.1)).Nodup := hfst.nodup_iff.mpr List.nodup_range
  have hsnd : (visits.map (·.2)).Perm (termsOf dict codes) := inOrder_snd dict codes ▸ hperm.map (·.2)
  have hsum : ∀ f : Option Str → ℕ, (visits.map fun v => f v.2).sum = ((termsOf dict codes).map f).sum := by
    intro f
    have hmap := (hsnd.map f).sum_eq
    rwa [List.map_map] at hmap
  have hm := @visits_measured (.new codes.length) largeTerm budget codes.length [] visits
    (new_measured codes.length) hlt hnodup
  rw [List.nil_append] at hm
  obtain ⟨d, hd⟩ : ∃ d, d = visits.foldl (Decoding.visit largeTerm budget) (.new codes.length) := ⟨_, rfl⟩
  rw [← hd] at hm ⊢
  have hmem : ∀ i t, (termsOf dict codes)[i]? = some t → (i, t) ∈ visits :=
    fun i t ht => hperm.symm.subset (mem_inOrder ht)
  have hlen : (termsOf dict codes).length = codes.length := List.length_map _
  refine ⟨?_, ?_, ?_, fun hbudget hsmall hcount => ?_⟩
  · refine List.ext_getElem? fun i => ?_
    rw [List.getElem?_map]
    cases ht : (termsOf dict codes)[i]? with
    | none =>
      rw [List.getElem?_eq_none_iff, hlen, ← hm.lengths_len] at ht
      exact List.getElem?_eq_none ht
    | some t =>
      have hi : i < d.lengths.length := hm.lengths_len ▸ hlt _ (hmem i t ht)
      have hsize := hm.lengths _ (hmem i t ht)
      rw [List.getD_eq_getElem?_getD, List.getElem?_eq_getElem hi] at hsize
      rw [List.getElem?_eq_getElem hi]
      exact congrArg some hsize
  · show decide (budget < d.bytes) = _
    rw [hm.bytes, total, hsum size]
  · rw [hm.missed]
    constructor
    · rintro ⟨v, hv, hnone⟩
      exact hsnd.subset (List.mem_map.mpr ⟨v, hv, hnone⟩)
    · intro hnone
      obtain ⟨v, hv, hsome⟩ := List.mem_map.mp (hsnd.symm.subset hnone)
      exact ⟨v, hv, hsome⟩
  · have hc := @visits_copied (.new codes.length) largeTerm budget codes.length [] visits
      (new_copied codes.length) (new_measured codes.length) hlt hnodup ((hsum size).trans_le hbudget)
      ((hsum (smallSize largeTerm)).trans_le hsmall) ?_
    · rw [List.nil_append, ← hd] at hc
      exact ⟨hc.laid, hc.bytes.trans (hsum size), fun i t ht => hc.entries _ (hmem i t ht)⟩
    · have hvisits_len := hfst.length_eq
      rw [List.length_map, List.length_range] at hvisits_len
      rw [List.nil_append, hvisits_len]
      exact hcount

end TermPayloads
