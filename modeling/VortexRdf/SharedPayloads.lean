/-
A chunk of quads whose terms are shared pointers.

* `Sending.Holds` — the entries sent so far read as the terms they were sent for;
* `putTerm_holds`, `sendRow_rows` — a term and a row more;
* `encodeShared_spec` — the chunk carries the first rows that fit, at least one.
-/
import VortexRdf.PayloadChunks

namespace TermPayloads

open Dictionary Programs Sharing Store Terms

/-! ### Terms sent so far -/

/-- The terms of quads, in order. -/
def sharedTerms (heap : ArcHeap) (quads : List SharedQuad) : List (Option Str) :=
  quads.flatMap fun quad => quad.terms.map fun term => some (heap.text term)

/-- The entries sent read as these terms, and a key's entry as the text it points to. -/
structure Sending.Holds (heap : ArcHeap) (s : Sending) (terms : List (Option Str)) : Prop where
  laid : s.payload.Laid
  bytes : s.payload.bytes = s.bytes
  count : s.payload.count ≤ s.payload.terms.length
  reads : s.payload.terms.map s.payload.read = terms.map some
  entries : ∀ e ∈ s.payload.terms, IsI32 e
  sent : ∀ key entry, s.sent key = some entry →
    s.payload.read entry = some (some (heap.text key)) ∧ IsI32 entry

section Row

variable {heap : ArcHeap} {s : Sending} {terms : List (Option Str)} {largeTerm : ℕ}

theorem holds_new : Sending.new.Holds heap [] :=
  ⟨Payload.empty_laid, rfl, Payload.empty_count.le, rfl, fun _ he => absurd he List.not_mem_nil,
    fun _ _ h => absurd h.symm (Option.some_ne_none _)⟩

/-- The bytes a term yet to be sent takes of the shared text. -/
def smallBytes (heap : ArcHeap) (largeTerm : ℕ) (row : List (Arc × Option ℤ)) : ℕ :=
  ((row.filter fun term => term.2.isNone).map fun term =>
    smallSize largeTerm (some (heap.text term.1))).sum

/-- What finding an entry leaves: the entries before as they were, and one that reads as its text. -/
structure Sending.Found (heap : ArcHeap) (s : Sending) (terms : List (Option Str)) (largeTerm : ℕ)
    (term : Arc) (sentAs : Option ℤ) (s' : Sending) (entry : ℤ) : Prop where
  holds : s'.payload.Laid ∧ s'.payload.bytes = s'.bytes
  sent : ∀ key entry, s'.sent key = some entry →
    s'.payload.read entry = some (some (heap.text key)) ∧ IsI32 entry
  unchanged : s'.payload.terms = s.payload.terms ∧ s'.held = s.held
  count : s'.payload.count ≤ s.payload.count + 1
  kept : ∀ e t, s.payload.read e = some t → s'.payload.read e = some t
  reads : s'.payload.read entry = some (some (heap.text term)) ∧ IsI32 entry
  bytes : s'.bytes ≤ s.bytes + if sentAs.isNone then (heap.text term).length else 0
  text : s'.payload.text.length ≤ s.payload.text.length +
    if sentAs.isNone then smallSize largeTerm (some (heap.text term)) else 0

theorem add_found (h : s.Holds heap terms) {term : Arc}
    (hroom : s.payload.text.length + smallSize largeTerm (some (heap.text term)) ≤ I32_MAX)
    (hcount : s.payload.count < I32_MAX) :
    s.Found heap terms largeTerm term none (s.add heap largeTerm term).1 (s.add heap largeTerm term).2 := by
  have hpush := @Payload.push_spec s.payload (heap.text term) largeTerm h.laid hroom hcount
  refine ⟨⟨hpush.laid, ?_⟩, fun key entry hkey => ?_, ⟨hpush.terms, rfl⟩, hpush.count.le, hpush.others,
    ⟨hpush.reads, hpush.entry_i32⟩, le_rfl, hpush.text.le⟩
  · exact hpush.bytes.trans (congrArg (· + (heap.text term).length) h.bytes)
  · obtain ⟨hread, hi32⟩ := h.sent key entry hkey
    exact ⟨hpush.others _ _ hread, hi32⟩

/-- An entry there already. -/
theorem found_self (h : s.Holds heap terms) {term : Arc} {sentAs : Option ℤ} {entry : ℤ}
    (hread : s.payload.read entry = some (some (heap.text term)) ∧ IsI32 entry) :
    s.Found heap terms largeTerm term sentAs s entry :=
  ⟨⟨h.laid, h.bytes⟩, h.sent, ⟨rfl, rfl⟩, Nat.le_add_right _ _, fun _ _ ht => ht, hread,
    Nat.le_add_right _ _, Nat.le_add_right _ _⟩

theorem entryOf_found (h : s.Holds heap terms) {term : Arc} {sentAs : Option ℤ}
    (hsent : ∀ entry, sentAs = some entry →
      s.payload.read entry = some (some (heap.text term)) ∧ IsI32 entry)
    (hroom : s.payload.text.length +
      (if sentAs.isNone then smallSize largeTerm (some (heap.text term)) else 0) ≤ I32_MAX)
    (hcount : s.payload.count < I32_MAX) :
    s.Found heap terms largeTerm term sentAs (s.entryOf heap largeTerm term sentAs).1
      (s.entryOf heap largeTerm term sentAs).2 := by
  cases sentAs with
  | some entry => exact found_self h (hsent entry rfl)
  | none =>
    have hadd := @add_found heap s terms largeTerm h term hroom hcount
    cases hshared : heap.shared term with
    | none =>
      rw [Sending.entryOf]
      simp only [hshared]
      exact hadd
    | some key =>
      have hkey : key = term := by
        rw [ArcHeap.shared] at hshared
        split_ifs at hshared
        exact (Option.some.inj hshared).symm
      subst hkey
      rw [Sending.entryOf]
      simp only [hshared]
      rw [Sending.entryOr]
      cases hfound : s.sent key with
      | some entry => exact found_self h (h.sent key entry hfound)
      | none =>
        refine ⟨hadd.holds, fun key' entry hkey' => ?_, hadd.unchanged, hadd.count, hadd.kept, hadd.reads,
          hadd.bytes, hadd.text⟩
        by_cases heq : key' = key
        · subst heq
          simp only [Function.update_self] at hkey'
          obtain rfl := Option.some.inj hkey'
          exact hadd.reads
        · simp only [Function.update_of_ne heq] at hkey'
          exact hadd.sent key' entry hkey'

theorem length_eq (h : s.Holds heap terms) : s.payload.terms.length = terms.length := by
  have hlen := congrArg List.length h.reads
  rwa [List.length_map, List.length_map] at hlen

theorem putTerm_holds (h : s.Holds heap terms) {term : Arc × Option ℤ}
    (hsent : ∀ entry, term.2 = some entry →
      s.payload.read entry = some (some (heap.text term.1)) ∧ IsI32 entry)
    (hroom : s.payload.text.length +
      (if term.2.isNone then smallSize largeTerm (some (heap.text term.1)) else 0) ≤ I32_MAX)
    (hcount : terms.length < I32_MAX) :
    (s.putTerm heap largeTerm term).Holds heap (terms ++ [some (heap.text term.1)]) := by
  have hlt : s.payload.count < I32_MAX := (h.count.trans_eq (length_eq h)).trans_lt hcount
  have hfound := @entryOf_found heap s terms largeTerm h term.1 term.2 hsent hroom hlt
  rw [Sending.putTerm]
  obtain ⟨found, hfound_eq⟩ : ∃ found, found = s.entryOf heap largeTerm term.1 term.2 := ⟨_, rfl⟩
  rw [← hfound_eq] at hfound ⊢
  have hterms : (found.1.appendEntry found.2).payload.terms = s.payload.terms ++ [found.2] := by
    rw [← hfound.unchanged.1]
    rfl
  have hread : ∀ e, (found.1.appendEntry found.2).payload.read e = found.1.payload.read e := fun _ => rfl
  refine ⟨⟨hfound.holds.1.even, hfound.holds.1.inside, hfound.holds.1.text_le⟩, hfound.holds.2, ?_, ?_, ?_,
    hfound.sent⟩
  · rw [hterms, List.length_append, List.length_singleton]
    exact hfound.count.trans (Nat.succ_le_succ h.count)
  · rw [hterms, List.map_append, List.map_append, ← h.reads]
    congr 1
    · refine List.map_congr_left fun e he => ?_
      have hmem : s.payload.read e ∈ s.payload.terms.map s.payload.read := List.mem_map_of_mem he
      rw [h.reads] at hmem
      obtain ⟨t, -, ht⟩ := List.mem_map.mp hmem
      rw [hread, ← ht]
      exact hfound.kept e t ht.symm
    · rw [List.map_singleton, List.map_singleton, hread, hfound.reads.1]
  · intro e he
    rw [hterms, List.mem_append, List.mem_singleton] at he
    rcases he with hold | rfl
    · exact h.entries e hold
    · exact hfound.reads.2

theorem smallBytes_cons (term : Arc × Option ℤ) (row : List (Arc × Option ℤ)) :
    smallBytes heap largeTerm (term :: row) =
      (if term.2.isNone then smallSize largeTerm (some (heap.text term.1)) else 0) +
        smallBytes heap largeTerm row := by
  rw [smallBytes, List.filter_cons]
  split_ifs
  · rw [List.map_cons, List.sum_cons]
    rfl
  · rw [Nat.zero_add]
    rfl

theorem newBytes_cons (term : Arc × Option ℤ) (row : List (Arc × Option ℤ)) :
    Sending.newBytes heap (term :: row) =
      (if term.2.isNone then (heap.text term.1).length else 0) + Sending.newBytes heap row := by
  rw [Sending.newBytes, List.filter_cons]
  split_ifs
  · rw [List.map_cons, List.sum_cons]
    rfl
  · rw [Nat.zero_add]
    rfl

/-- A row's terms, each found or pushed. -/
theorem row_holds {row : List (Arc × Option ℤ)} (h : s.Holds heap terms)
    (hsent : ∀ term ∈ row, ∀ entry, term.2 = some entry →
      s.payload.read entry = some (some (heap.text term.1)) ∧ IsI32 entry)
    (hroom : s.payload.text.length + smallBytes heap largeTerm row ≤ I32_MAX)
    (hcount : terms.length + row.length ≤ I32_MAX) :
    (row.foldl (Sending.putTerm heap largeTerm) s).Holds heap
        (terms ++ row.map fun term => some (heap.text term.1)) ∧
      (row.foldl (Sending.putTerm heap largeTerm) s).held = s.held ∧
      (row.foldl (Sending.putTerm heap largeTerm) s).bytes ≤ s.bytes + Sending.newBytes heap row := by
  induction row generalizing s terms with
  | nil =>
    rw [List.map_nil, List.append_nil]
    exact ⟨h, rfl, Nat.le_add_right _ _⟩
  | cons term row ih =>
    rw [smallBytes_cons] at hroom
    rw [List.length_cons] at hcount
    have hroom' : s.payload.text.length +
        (if term.2.isNone then smallSize largeTerm (some (heap.text term.1)) else 0) ≤ I32_MAX := by
      omega
    have hlt : terms.length < I32_MAX := by omega
    have hsent' := hsent term List.mem_cons_self
    have hput := putTerm_holds h hsent' hroom' hlt
    have hcount' : s.payload.count < I32_MAX := (h.count.trans_eq (length_eq h)).trans_lt hlt
    have hfound := @entryOf_found heap s terms largeTerm h term.1 term.2 hsent' hroom' hcount'
    have hnext := @ih (s.putTerm heap largeTerm term) (terms ++ [some (heap.text term.1)]) hput
      (fun other hother entry hentry => ?_) ?_ ?_
    · obtain ⟨hholds, hheld, hbytes⟩ := hnext
      rw [List.foldl_cons, List.map_cons, List.append_cons]
      refine ⟨hholds, hheld.trans hfound.unchanged.2, hbytes.trans ?_⟩
      have hterm : (s.putTerm heap largeTerm term).bytes ≤ _ := hfound.bytes
      rw [newBytes_cons]
      omega
    · obtain ⟨hread, hi32⟩ := hsent other (List.mem_cons_of_mem term hother) entry hentry
      exact ⟨hfound.kept _ _ hread, hi32⟩
    · have htext : (s.putTerm heap largeTerm term).payload.text.length ≤ _ := hfound.text
      omega
    · rw [List.length_append, List.length_singleton]
      omega

end Row

/-! ### Rows -/

section Rows

variable {heap : ArcHeap} {limits : Limits} {s : Sending}

/-- The rows sent so far: within the budget, or a single one. -/
structure Sending.Rows (heap : ArcHeap) (limits : Limits) (s : Sending) (quads : List SharedQuad) : Prop where
  holds : s.Holds heap (sharedTerms heap quads)
  held : s.held = quads.length
  budget : s.bytes ≤ limits.chunkBytes ∨ s.held = 1
  start : s.held = 0 → s.bytes = 0

theorem sharedTerms_length (quads : List SharedQuad) :
    (sharedTerms heap quads).length = 4 * quads.length := by
  induction quads with
  | nil => rfl
  | cons quad quads ih =>
    rw [sharedTerms, List.flatMap_cons, List.length_append, List.length_cons, Nat.mul_succ, Nat.add_comm]
    exact congrArg (· + 4) ih

theorem sentAs_sent {terms : List (Option Str)} (h : s.Holds heap terms) (quad : SharedQuad) :
    ∀ term ∈ s.sentAs heap quad, ∀ entry, term.2 = some entry →
      s.payload.read entry = some (some (heap.text term.1)) ∧ IsI32 entry := by
  intro term hterm entry hentry
  obtain ⟨arc, -, rfl⟩ := List.mem_map.mp hterm
  obtain ⟨key, hkey, hsent⟩ := Option.bind_eq_some_iff.mp hentry
  rw [ArcHeap.shared] at hkey
  split_ifs at hkey
  obtain rfl := Option.some.inj hkey
  exact h.sent arc entry hsent

/-- A row's share of the text is no more than its new bytes, nor than four small terms. -/
theorem smallBytes_le (largeTerm : ℕ) (row : List (Arc × Option ℤ)) :
    smallBytes heap largeTerm row ≤ Sending.newBytes heap row ∧
      smallBytes heap largeTerm row ≤ row.length * largeTerm := by
  induction row with
  | nil => exact ⟨le_rfl, Nat.zero_le _⟩
  | cons term row ih =>
    have hsize := smallSize_le largeTerm (some (heap.text term.1))
    have hlarge := smallSize_le_large largeTerm (some (heap.text term.1))
    rw [smallBytes_cons, newBytes_cons, List.length_cons, Nat.succ_mul]
    rw [size, Option.getD_some] at hsize
    obtain ⟨hnew, hmul⟩ := ih
    split_ifs <;> constructor <;> omega

theorem sendRow_rows {quads : List SharedQuad} (hlimits : limits.Valid) (h : s.Rows heap limits quads)
    {quad : SharedQuad} (hlt : quads.length < limits.rows)
    (hfits : ¬(0 < s.held ∧ limits.chunkBytes < s.bytes + Sending.newBytes heap (s.sentAs heap quad))) :
    Sending.Rows heap limits
      { (s.sentAs heap quad).foldl (Sending.putTerm heap limits.largeTerm) s with
        held := ((s.sentAs heap quad).foldl (Sending.putTerm heap limits.largeTerm) s).held + 1 }
      (quads ++ [quad]) := by
  have hlen : (s.sentAs heap quad).length = 4 := rfl
  have hsmall := @smallBytes_le heap limits.largeTerm (s.sentAs heap quad)
  rw [hlen] at hsmall
  have hroom : s.payload.text.length + smallBytes heap limits.largeTerm (s.sentAs heap quad) ≤ I32_MAX := by
    have htext := s.payload.text_length_le
    rw [h.holds.bytes] at htext
    rcases Nat.eq_zero_or_pos s.held with hzero | hpos
    · -- nothing is in the text yet
      have hstart := h.start hzero
      have hlarge := hlimits.large_le
      have hbytes := hlimits.bytes_le
      omega
    · have hle : s.bytes + Sending.newBytes heap (s.sentAs heap quad) ≤ limits.chunkBytes :=
        Nat.le_of_not_lt fun hover => hfits ⟨hpos, hover⟩
      have hbytes := hlimits.bytes_le
      omega
  have hcount : (sharedTerms heap quads).length + (s.sentAs heap quad).length ≤ I32_MAX := by
    have hrows := hlimits.rows_le
    rw [sharedTerms_length, hlen]
    omega
  obtain ⟨hholds, hheld, hbytes⟩ := row_holds h.holds (sentAs_sent h.holds quad) hroom hcount
  have hterms : sharedTerms heap (quads ++ [quad]) =
      sharedTerms heap quads ++ (s.sentAs heap quad).map fun term => some (heap.text term.1) := by
    rw [sharedTerms, List.flatMap_append, List.flatMap_singleton]
    rfl
  rw [← hterms] at hholds
  refine ⟨⟨hholds.laid, hholds.bytes, hholds.count, hholds.reads, hholds.entries, hholds.sent⟩, ?_, ?_,
    fun hzero => absurd hzero (Nat.succ_ne_zero _)⟩
  · rw [List.length_append, List.length_singleton, ← h.held, ← hheld]
  · rcases Nat.eq_zero_or_pos s.held with hzero | hpos
    · right
      show _ + 1 = 1
      rw [hheld, hzero]
    · left
      exact hbytes.trans (Nat.le_of_not_lt fun hover => hfits ⟨hpos, hover⟩)

/-- The rows sent are the first ones, and the first row always is. -/
theorem sendRows_rows {quads rest : List SharedQuad} (hlimits : limits.Valid)
    (h : s.Rows heap limits quads) (hle : quads.length + rest.length ≤ limits.rows) :
    ∃ k, (sendRows heap limits rest s).Rows heap limits (quads ++ rest.take k) ∧ k ≤ rest.length ∧
      (quads = [] → rest ≠ [] → 0 < k) := by
  induction rest generalizing s quads with
  | nil =>
    refine ⟨0, ?_, le_rfl, fun _ hne => absurd rfl hne⟩
    rw [List.take_nil, List.append_nil, sendRows]
    exact h
  | cons quad rest ih =>
    rw [sendRows]
    by_cases hfits : 0 < s.held ∧ limits.chunkBytes < s.bytes + Sending.newBytes heap (s.sentAs heap quad)
    · refine ⟨0, ?_, Nat.zero_le _, fun hnil _ => ?_⟩
      · rw [List.take_zero, List.append_nil]
        simp only [if_pos hfits]
        exact h
      · have hheld := h.held
        rw [hnil] at hheld
        exact absurd (hfits.1.trans_eq hheld) (Nat.lt_irrefl 0)
    · rw [List.length_cons] at hle
      have hrow := sendRow_rows hlimits h (by omega) hfits
      obtain ⟨k, hrows, hk, -⟩ := ih hrow (by rw [List.length_append, List.length_singleton]; omega)
      refine ⟨k + 1, ?_, Nat.succ_le_succ hk, fun _ _ => Nat.succ_pos k⟩
      simp only [if_neg hfits]
      rwa [List.take_succ_cons, List.append_cons]

theorem encodeShared_spec (heap : ArcHeap) (hlimits : limits.Valid) {quads : List SharedQuad}
    (hpos : 0 < quads.length) :
    Carries limits 4 (sharedTerms heap quads) (encodeShared heap quads limits).1
      (encodeShared heap quads limits).2 := by
  have hnew : Sending.new.Rows heap limits [] :=
    ⟨holds_new, rfl, Or.inl (Nat.zero_le _), fun _ => rfl⟩
  have hlen : (quads.take limits.rows).length ≤ limits.rows := List.length_take_le _ _
  obtain ⟨k, hrows, hk, hsome⟩ := @sendRows_rows heap limits .new [] (quads.take limits.rows) hlimits hnew
    (by rw [List.length_nil, Nat.zero_add]; exact hlen)
  have hk_pos : 0 < k := by
    refine hsome rfl fun hnil => ?_
    have hlimit := hlimits.rows_pos
    have hzero := congrArg List.length hnil
    rw [List.length_take, List.length_nil] at hzero
    omega
  have hkle : k ≤ quads.length := by
    rw [List.length_take] at hk
    omega
  have htake : (quads.take limits.rows).take k = quads.take k := by
    rw [List.take_take, Nat.min_eq_left (hk.trans hlen)]
  rw [List.nil_append, htake] at hrows
  rw [encodeShared]
  obtain ⟨sending, hsending⟩ : ∃ sending, sending = sendRows heap limits (quads.take limits.rows) .new :=
    ⟨_, rfl⟩
  rw [← hsending] at hrows ⊢
  have hheld : sending.held = k := by
    rw [hrows.held, List.length_take, Nat.min_eq_left hkle]
  have hsplit : sharedTerms heap quads = sharedTerms heap (quads.take k) ++ sharedTerms heap (quads.drop k) := by
    rw [sharedTerms, sharedTerms, sharedTerms, ← List.flatMap_append, List.take_append_drop]
  have hfirst : (sharedTerms heap (quads.take k)).length = 4 * k := by
    rw [sharedTerms_length, List.length_take, Nat.min_eq_left hkle]
  dsimp only
  refine ⟨hheld.symm ▸ hk_pos, hheld.trans_le (hk.trans hlen), ?_, ?_, hrows.holds.laid.bounds,
    hrows.holds.entries, ?_⟩
  · rw [hheld, sharedTerms_length]
    exact Nat.mul_le_mul_left 4 hkle
  · rw [hrows.holds.bytes]
    exact hrows.budget
  · rw [hheld, hsplit, ← hfirst, List.take_left]
    exact hrows.holds.reads

end Rows

end TermPayloads
