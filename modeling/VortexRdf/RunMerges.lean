/-
Sorted runs merged, each value once.

A merger holds the head of every run in a heap, gives the least one and puts its run's
next item in its place; an item equal to the last one given is skipped.

* `RunRead`, `Reads` — a run read item by item, and the items it holds;
* `RunMerger`, `pull`, `next`, `nextBatch` — the merger;
* `heads`, `Many`, `Holding` — the items not given yet, and the heap of their heads;
* `pull_spec` — one pull gives the least of them;
* `Merges`, `new_merges`, `next_spec`, `nextBatch_spec` — what a merger gives is the runs'
  items sorted, each once.
-/
import VortexRdf.DistinctSort
import Mathlib.Data.Prod.Lex

namespace RunMerges

open DistinctSort

/-! ### Heads -/

section Heads

variable {β : Type}

/-- The first item of each part, with the part's place. -/
def heads : ℕ → List (List β) → List (β ×ₗ ℕ)
  | _, [] => []
  | i, [] :: parts => heads (i + 1) parts
  | i, (x :: _) :: parts => toLex (x, i) :: heads (i + 1) parts

variable {parts : List (List β)}

theorem mem_heads {head : β ×ₗ ℕ} : ∀ {i : ℕ}, head ∈ heads i parts →
    ∃ j rest, (ofLex head).2 = i + j ∧ parts[j]? = some ((ofLex head).1 :: rest) := by
  induction parts with
  | nil =>
    intro i h
    cases h
  | cons part parts ih =>
    intro i h
    cases part with
    | nil =>
      obtain ⟨j, rest, hplace, hpart⟩ := ih h
      exact ⟨j + 1, rest, by omega, hpart⟩
    | cons x items =>
      rcases List.mem_cons.mp h with rfl | h
      · exact ⟨0, items, rfl, rfl⟩
      · obtain ⟨j, rest, hplace, hpart⟩ := ih h
        exact ⟨j + 1, rest, by omega, hpart⟩

theorem heads_mem {x : β} {rest : List β} : ∀ {i j : ℕ},
    parts[j]? = some (x :: rest) → toLex (x, i + j) ∈ heads i parts := by
  induction parts with
  | nil =>
    intro i j h
    simp at h
  | cons part parts ih =>
    intro i j h
    cases j with
    | zero =>
      obtain rfl : part = x :: rest := Option.some.inj h
      exact List.mem_cons_self
    | succ j =>
      have hmem : toLex (x, i + 1 + j) ∈ heads (i + 1) parts := ih h
      rw [show i + (j + 1) = i + 1 + j by omega]
      cases part with
      | nil => exact hmem
      | cons y items => exact List.mem_cons_of_mem _ hmem

/-- The heads before and after one part gives its first item. -/
theorem heads_set {x : β} {rest : List β} : ∀ {i j : ℕ},
    parts[j]? = some (x :: rest) → ∃ others, (heads i parts).Perm (toLex (x, i + j) :: others) ∧
      (heads i (parts.set j rest)).Perm
        ((rest.head?.toList.map fun y => toLex (y, i + j)) ++ others) := by
  induction parts with
  | nil =>
    intro i j h
    simp at h
  | cons part parts ih =>
    intro i j h
    cases j with
    | zero =>
      obtain rfl : part = x :: rest := Option.some.inj h
      refine ⟨heads (i + 1) parts, List.Perm.refl _, ?_⟩
      cases rest with
      | nil => exact List.Perm.refl _
      | cons y items => exact List.Perm.refl _
    | succ j =>
      obtain ⟨others, hbefore, hafter⟩ := @ih (i + 1) j h
      rw [show i + 1 + j = i + (j + 1) by omega] at hbefore hafter
      cases part with
      | nil => exact ⟨others, hbefore, hafter⟩
      | cons y items =>
        refine ⟨toLex (y, i) :: others, (hbefore.cons _).trans (List.Perm.swap ..), ?_⟩
        exact (hafter.cons _).trans List.perm_middle.symm

theorem flatten_set {x : β} {rest : List β} : ∀ {j : ℕ},
    parts[j]? = some (x :: rest) → parts.flatten.Perm (x :: (parts.set j rest).flatten) := by
  induction parts with
  | nil =>
    intro j h
    simp at h
  | cons part parts ih =>
    intro j h
    cases j with
    | zero =>
      obtain rfl : part = x :: rest := Option.some.inj h
      exact List.Perm.refl _
    | succ j =>
      rw [List.set_cons_succ, List.flatten_cons, List.flatten_cons]
      exact ((ih h).append_left part).trans List.perm_middle

end Heads

/-! ### Runs -/

/-- A run read in order, with a bound on how much of it is left. -/
class RunRead (R : Type) (ε β : outParam Type) where
  next : R → Except ε (Option (β × R))
  left : R → ℕ
  left_lt : ∀ {r x r'}, next r = .ok (some (x, r')) → left r' < left r

variable {R ε β : Type} [RunRead R ε β]

/-- The items a run still holds. -/
inductive Reads : R → List β → Prop
  | nil {r : R} : RunRead.next r = .ok none → Reads r []
  | cons {r r' : R} {x : β} {items : List β} :
      RunRead.next r = .ok (some (x, r')) → Reads r' items → Reads r (x :: items)

theorem Reads.length_le {r : R} {items : List β} (h : Reads r items) :
    items.length ≤ RunRead.left r := by
  induction h with
  | nil _ => exact Nat.zero_le _
  | cons hnext _ ih => exact Nat.succ_le_of_lt (lt_of_le_of_lt ih (RunRead.left_lt hnext))

/-! ### The merger -/

variable [LinearOrder β]

/-- The runs, the heap of their heads with the least first, and the item given last. -/
structure RunMerger (R β : Type) where
  runs : List R
  heap : List (β ×ₗ ℕ)
  last : Option β

def push (x : β) (run : ℕ) (heap : List (β ×ₗ ℕ)) : List (β ×ₗ ℕ) :=
  heap.orderedInsert (· ≤ ·) (toLex (x, run))

/-- The heads of the runs from `run` on, put on the heap. -/
def prime : List R → ℕ → List (β ×ₗ ℕ) → Except ε (List R × List (β ×ₗ ℕ))
  | [], _, heap => .ok ([], heap)
  | r :: rs, run, heap =>
    match RunRead.next r with
    | .error e => .error e
    | .ok none => (prime rs (run + 1) heap).map fun p => (r :: p.1, p.2)
    | .ok (some (x, r')) => (prime rs (run + 1) (push x run heap)).map fun p => (r' :: p.1, p.2)

namespace RunMerger

/-- A lone run reads straight through; several fill the heap with their heads. -/
def new (runs : List R) : Except ε (RunMerger R β) :=
  if 1 < runs.length then (prime runs 0 []).map fun p => ⟨p.1, p.2, none⟩
  else .ok ⟨runs, [], none⟩

/-- A run's next item, if it has one, put on the heap. -/
def refill (m : RunMerger R β) (run : ℕ) : Except ε (RunMerger R β) :=
  match m.runs[run]? with
  | none => .ok m  -- not reached: the heap's runs are the merger's
  | some r =>
    match RunRead.next r with
    | .error e => .error e
    | .ok none => .ok m
    | .ok (some (x, r')) => .ok { m with runs := m.runs.set run r', heap := push x run m.heap }

/-- The next item in global order, repeats and all. -/
def pull (m : RunMerger R β) : Except ε (Option (β × RunMerger R β)) :=
  match m.runs with
  | [r] =>
    match RunRead.next r with
    | .error e => .error e
    | .ok none => .ok none
    | .ok (some (x, r')) => .ok (some (x, { m with runs := [r'] }))
  | _ =>
    match m.heap with
    | [] => .ok none
    | head :: heap =>
      (refill { m with heap := heap } (ofLex head).2).map fun m => some ((ofLex head).1, m)

/-- A repeat of the item given last is skipped; at most `fuel` pulls. -/
def nextLoop : ℕ → RunMerger R β → Except ε (Option (β × RunMerger R β))
  | 0, _ => .ok none  -- not reached: `left` bounds the pulls
  | fuel + 1, m =>
    match m.pull with
    | .error e => .error e
    | .ok none => .ok none
    | .ok (some (x, m)) =>
      if m.last = some x then nextLoop fuel m else .ok (some (x, { m with last := some x }))

/-- A bound on the items not given yet. -/
def left (m : RunMerger R β) : ℕ := m.heap.length + (m.runs.map RunRead.left).sum

def next (m : RunMerger R β) : Except ε (Option (β × RunMerger R β)) := nextLoop (m.left + 1) m

/-- Up to `n` items, fewer at the end. -/
def nextBatch : ℕ → RunMerger R β → Except ε (List β × RunMerger R β)
  | 0, m => .ok ([], m)
  | n + 1, m =>
    match m.next with
    | .error e => .error e
    | .ok none => .ok ([], m)
    | .ok (some (x, m)) => (nextBatch n m).map fun p => (x :: p.1, p.2)

end RunMerger

/-! ### What is left to give -/

/-- Several runs: each one's items behind its head are still to read, and the heap holds
the heads. -/
structure Many (m : RunMerger R β) (parts : List (List β)) : Prop where
  reads : List.Forall₂ (fun r part => Reads r part.tail) m.runs parts
  heap : m.heap.Perm (heads 0 parts)
  least : m.heap.Pairwise (· ≤ ·)

/-- The merger still has the parts' items to give, run by run. -/
structure Holding (m : RunMerger R β) (parts : List (List β)) : Prop where
  runs : (∃ r items, m.runs = [r] ∧ m.heap = [] ∧ parts = [items] ∧ Reads r items) ∨
    m.runs.length ≠ 1 ∧ Many m parts
  sorted : ∀ part ∈ parts, part.SortedLE
  above : ∀ x ∈ parts.flatten, ∀ l, m.last = some l → l ≤ x

omit [LinearOrder β] in
theorem forall₂_getElem {runs : List R} {parts : List (List β)}
    (h : List.Forall₂ (fun r part => Reads r part.tail) runs parts) {j : ℕ} {part : List β}
    (hj : parts[j]? = some part) : ∃ r, runs[j]? = some r ∧ Reads r part.tail := by
  induction h generalizing j with
  | nil => simp at hj
  | cons hread _ ih =>
    cases j with
    | zero =>
      obtain rfl := Option.some.inj hj
      exact ⟨_, rfl, hread⟩
    | succ j => exact ih hj

omit [LinearOrder β] in
theorem forall₂_set {runs : List R} {parts : List (List β)}
    (h : List.Forall₂ (fun r part => Reads r part.tail) runs parts) {r : R} {part : List β}
    (hread : Reads r part.tail) :
    ∀ j : ℕ, List.Forall₂ (fun r part => Reads r part.tail) (runs.set j r) (parts.set j part) := by
  induction h with
  | nil => exact fun _ => List.Forall₂.nil
  | cons hhead htail ih =>
    intro j
    cases j with
    | zero => exact List.Forall₂.cons hread htail
    | succ j => exact List.Forall₂.cons hhead (ih j)

omit [LinearOrder β] in
theorem length_le_of_reads {runs : List R} {parts : List (List β)}
    (h : List.Forall₂ (fun r part => Reads r part.tail) runs parts) (i : ℕ) :
    parts.flatten.length ≤ (heads i parts).length + (runs.map RunRead.left).sum := by
  induction h generalizing i with
  | nil => exact Nat.zero_le _
  | @cons r part runs parts hread _ ih =>
    have hlen := hread.length_le
    have hrest := ih (i + 1)
    rw [List.flatten_cons, List.length_append, List.map_cons, List.sum_cons]
    cases part with
    | nil =>
      rw [heads, List.length_nil]
      omega
    | cons x items =>
      rw [heads, List.length_cons, List.length_cons]
      rw [List.tail_cons] at hlen
      omega

theorem Holding.length_le {m : RunMerger R β} {parts : List (List β)} (h : Holding m parts) :
    parts.flatten.length ≤ m.left := by
  rw [RunMerger.left]
  rcases h.runs with ⟨r, items, hruns, hheap, rfl, hread⟩ | ⟨-, hmany⟩
  · have hlen := hread.length_le
    rw [hruns, hheap]
    simpa using hlen
  · have hlen := length_le_of_reads hmany.reads 0
    rwa [← hmany.heap.length_eq] at hlen

/-- The items in the other parts are no less than the head on top of the heap. -/
theorem Many.le_of_mem {m : RunMerger R β} {parts : List (List β)} (h : Many m parts)
    (hsorted : ∀ part ∈ parts, part.SortedLE) {head : β ×ₗ ℕ} {heap : List (β ×ₗ ℕ)}
    (hheap : m.heap = head :: heap) {y : β} (hy : y ∈ parts.flatten) : (ofLex head).1 ≤ y := by
  obtain ⟨part, hpart, hy⟩ := List.mem_flatten.mp hy
  obtain ⟨j, hj⟩ := List.mem_iff_getElem?.mp hpart
  obtain ⟨z, rest, rfl⟩ : ∃ z rest, part = z :: rest := List.exists_cons_of_ne_nil (List.ne_nil_of_mem hy)
  have hmem : toLex (z, 0 + j) ∈ m.heap := h.heap.mem_iff.mpr (heads_mem hj)
  have hle : head ≤ toLex (z, 0 + j) := by
    have hleast := h.least
    rw [hheap] at hmem hleast
    rcases List.mem_cons.mp hmem with heq | hmem
    · exact heq.ge
    · exact (List.pairwise_cons.mp hleast).1 _ hmem
  have hz : (ofLex head).1 ≤ z := Prod.Lex.monotone_fst _ _ hle
  rcases List.mem_cons.mp hy with rfl | hy
  · exact hz
  · exact hz.trans ((List.pairwise_cons.mp (hsorted _ hpart).pairwise).1 y hy)

/-- The head given, its run's next item takes its place. -/
theorem Many.refill_spec {m : RunMerger R β} {parts : List (List β)} (h : Many m parts)
    {head : β ×ₗ ℕ} {heap : List (β ×ₗ ℕ)} (hheap : m.heap = head :: heap) :
    ∃ rest m', parts[(ofLex head).2]? = some ((ofLex head).1 :: rest) ∧
      RunMerger.refill { m with heap := heap } (ofLex head).2 = .ok m' ∧
      m'.last = m.last ∧ m'.runs.length = m.runs.length ∧
      Many m' (parts.set (ofLex head).2 rest) := by
  have hmem : head ∈ heads 0 parts := h.heap.mem_iff.mp (by rw [hheap]; exact List.mem_cons_self)
  obtain ⟨j, rest, hplace, hpart⟩ := mem_heads hmem
  rw [Nat.zero_add] at hplace
  rw [hplace]
  obtain ⟨r, hrun, hread⟩ := forall₂_getElem h.reads hpart
  rw [List.tail_cons] at hread
  obtain ⟨others, hbefore, hafter⟩ := @heads_set β parts _ rest 0 j hpart
  rw [Nat.zero_add] at hbefore hafter
  -- the other heads stay on the heap
  have hothers : heap.Perm others := by
    have hheads := h.heap.symm
    rw [hheap] at hheads
    have heq : toLex ((ofLex head).1, j) = head := by rw [← hplace]; rfl
    rw [heq] at hbefore
    exact (hheads.symm.trans hbefore).cons_inv
  have hleast : heap.Pairwise (· ≤ ·) := by
    have hleast := h.least
    rw [hheap] at hleast
    exact hleast.of_cons
  rw [RunMerger.refill]
  simp only [hrun]
  cases hread with
  | nil hnext =>
    rw [hnext]
    have hreads := h.reads
    refine ⟨[], _, hpart, rfl, rfl, rfl, ?_, hothers.trans hafter.symm, hleast⟩
    have hset := @forall₂_set R ε β _ m.runs parts hreads r [] (Reads.nil hnext) j
    obtain ⟨hlt, rfl⟩ := List.getElem?_eq_some_iff.mp hrun
    rwa [List.set_getElem_self] at hset
  | @cons _ r' y items hnext htail =>
    rw [hnext]
    refine ⟨y :: items, _, hpart, rfl, rfl, List.length_set, forall₂_set h.reads htail j, ?_, ?_⟩
    · exact (List.perm_orderedInsert _ _ _).trans ((hothers.cons _).trans hafter.symm)
    · exact List.Pairwise.orderedInsert _ _ hleast

/-- One pull gives the least item left, and leaves the others. -/
theorem Holding.pull_spec {m : RunMerger R β} {parts : List (List β)} (h : Holding m parts) :
    (m.pull = .ok none ∧ parts.flatten = []) ∨
    ∃ x m' parts', m.pull = .ok (some (x, m')) ∧ Holding m' parts' ∧ m'.last = m.last ∧
      parts.flatten.Perm (x :: parts'.flatten) ∧ ∀ y ∈ parts'.flatten, x ≤ y := by
  rw [RunMerger.pull.eq_def]
  rcases h.runs with ⟨r, items, hruns, hheap, rfl, hread⟩ | ⟨hlen, hmany⟩
  · simp only [hruns]
    cases hread with
    | nil hnext =>
      rw [hnext]
      exact Or.inl ⟨rfl, rfl⟩
    | @cons _ r' x items hnext htail =>
      rw [hnext]
      have hsorted := h.sorted _ (List.mem_singleton_self _)
      have hle : ∀ y ∈ items, x ≤ y := (List.pairwise_cons.mp hsorted.pairwise).1
      refine Or.inr ⟨x, _, [items], rfl, ⟨Or.inl ⟨r', items, rfl, hheap, rfl, htail⟩, ?_, ?_⟩, rfl,
        List.Perm.refl _, by simpa using hle⟩
      · intro part hpart
        rw [List.mem_singleton.mp hpart]
        exact hsorted.pairwise.of_cons.sortedLE
      · intro y hy
        exact h.above y (List.mem_cons_of_mem x hy)
  · split
    · rename_i r heq
      rw [heq] at hlen
      exact absurd rfl hlen
    · cases hheap : m.heap with
      | nil =>
        -- no run has a head, so none has an item
        refine Or.inl ⟨rfl, ?_⟩
        have hheads : heads 0 parts = [] := by
          have hperm := hmany.heap
          rw [hheap] at hperm
          exact List.nil_perm.mp hperm
        by_contra hne
        obtain ⟨y, hy⟩ := List.exists_mem_of_ne_nil _ hne
        obtain ⟨part, hpart, hy⟩ := List.mem_flatten.mp hy
        obtain ⟨j, hj⟩ := List.mem_iff_getElem?.mp hpart
        obtain ⟨z, rest, rfl⟩ := List.exists_cons_of_ne_nil (List.ne_nil_of_mem hy)
        have hmem := @heads_mem β parts z rest 0 j hj
        rw [hheads] at hmem
        cases hmem
      | cons head heap =>
        obtain ⟨rest, m', hpart, hrefill, hlast, hruns, hmany'⟩ := hmany.refill_spec hheap
        have hperm := flatten_set hpart
        have hmem : (ofLex head).1 :: rest ∈ parts := List.mem_of_getElem? hpart
        simp only [hrefill]
        refine Or.inr ⟨(ofLex head).1, m', parts.set (ofLex head).2 rest, rfl,
          ⟨Or.inr ⟨by rwa [hruns], hmany'⟩, ?_, ?_⟩, hlast, hperm, ?_⟩
        · intro part hpart'
          rcases List.mem_or_eq_of_mem_set hpart' with hold | rfl
          · exact h.sorted part hold
          · exact (h.sorted _ hmem).pairwise.of_cons.sortedLE
        · intro y hy l hl
          exact h.above y (hperm.mem_iff.mpr (List.mem_cons_of_mem _ hy)) l (hlast ▸ hl)
        · intro y hy
          exact hmany.le_of_mem h.sorted hheap (hperm.mem_iff.mpr (List.mem_cons_of_mem _ hy))

/-! ### What a merger gives -/

/-- The merger gives `l` from here on. -/
def Merges (m : RunMerger R β) (l : List β) : Prop :=
  ∃ parts, Holding m parts ∧ l = distinctSort (parts.flatten.filter fun x => some x ≠ m.last)

/-- After a pull that is given, the rest. -/
theorem Holding.given {m : RunMerger R β} {parts : List (List β)} (h : Holding m parts)
    {x : β} (hx : ∀ y ∈ parts.flatten, x ≤ y) :
    Merges { m with last := some x } (distinctSort (parts.flatten.filter fun y => y ≠ x)) := by
  refine ⟨parts, ⟨?_, h.sorted, fun y hy l hl => ?_⟩, ?_⟩
  · rcases h.runs with ⟨r, items, hrun⟩ | ⟨hlen, hreads, hheap, hleast⟩
    · exact Or.inl ⟨r, items, hrun⟩
    · exact Or.inr ⟨hlen, hreads, hheap, hleast⟩
  · exact Option.some.inj hl ▸ hx y hy
  · congr 1
    refine List.filter_congr fun y _ => ?_
    simp

theorem nextLoop_spec {l : List β} : ∀ {fuel : ℕ} {m : RunMerger R β} {parts : List (List β)},
    Holding m parts → parts.flatten.length < fuel →
    l = distinctSort (parts.flatten.filter fun x => some x ≠ m.last) →
    (RunMerger.nextLoop fuel m = .ok none ∧ l = []) ∨
    ∃ x m' l', RunMerger.nextLoop fuel m = .ok (some (x, m')) ∧ l = x :: l' ∧ Merges m' l' := by
  intro fuel
  induction fuel with
  | zero =>
    intro m parts _ hlt
    exact absurd hlt (Nat.not_lt_zero _)
  | succ fuel ih =>
    intro m parts h hlt hl
    rw [RunMerger.nextLoop]
    rcases h.pull_spec with ⟨hpull, hnil⟩ | ⟨x, m', parts', hpull, h', hlast, hperm, hle⟩
    · rw [hpull]
      rw [hnil] at hl
      exact Or.inl ⟨rfl, hl.trans (distinctSort_of_sortedLT (List.Pairwise.sortedLT List.Pairwise.nil))⟩
    · have hlen := hperm.length_eq
      rw [List.length_cons] at hlen
      simp only [hpull]
      split_ifs with hrepeat
      · -- the item given last again
        refine ih h' (by omega) (hl.trans (distinctSort_congr fun y => ?_))
        rw [hlast] at hrepeat ⊢
        simp only [List.mem_filter, hperm.mem_iff, List.mem_cons, decide_eq_true_eq]
        constructor
        · rintro ⟨rfl | hy, hne⟩
          · exact absurd hrepeat.symm hne
          · exact ⟨hy, hne⟩
        · rintro ⟨hy, hne⟩
          exact ⟨Or.inr hy, hne⟩
      · refine Or.inr ⟨x, _, distinctSort (parts'.flatten.filter fun y => y ≠ x), rfl, ?_,
          h'.given hle⟩
        rw [hl]
        refine distinctSort_cons (fun y => ?_) fun y hy => ?_
        · rw [hlast] at hrepeat
          simp only [List.mem_filter, hperm.mem_iff, List.mem_cons, decide_eq_true_eq]
          constructor
          · rintro ⟨rfl | hy, hne⟩
            · exact Or.inl rfl
            · by_cases hyx : y = x
              · exact Or.inl hyx
              · exact Or.inr ⟨hy, hyx⟩
          · rintro (rfl | ⟨hy, hyx⟩)
            · exact ⟨Or.inl rfl, fun heq => hrepeat heq.symm⟩
            · -- what is left is no less than `x`, which is no less than the last item
              refine ⟨Or.inr hy, fun heq => hyx (le_antisymm ?_ (hle y hy))⟩
              exact h.above x (hperm.mem_iff.mpr List.mem_cons_self) y heq.symm
        · have hmem := List.mem_filter.mp hy
          exact lt_of_le_of_ne (hle y hmem.1) (Ne.symm (of_decide_eq_true hmem.2))

theorem next_spec {m : RunMerger R β} {l : List β} (h : Merges m l) :
    (m.next = .ok none ∧ l = []) ∨
    ∃ x m' l', m.next = .ok (some (x, m')) ∧ l = x :: l' ∧ Merges m' l' := by
  obtain ⟨parts, hholding, hl⟩ := h
  exact nextLoop_spec hholding (Nat.lt_succ_of_le hholding.length_le) hl

theorem nextBatch_spec {n : ℕ} : ∀ {m : RunMerger R β} {l : List β}, Merges m l →
    ∃ m', m.nextBatch n = .ok (l.take n, m') ∧ Merges m' (l.drop n) := by
  induction n with
  | zero =>
    intro m l h
    exact ⟨m, rfl, h⟩
  | succ n ih =>
    intro m l h
    rw [RunMerger.nextBatch]
    rcases next_spec h with ⟨hnext, rfl⟩ | ⟨x, m', l', hnext, rfl, h'⟩
    · rw [hnext]
      exact ⟨m, rfl, h⟩
    · obtain ⟨m'', hbatch, h''⟩ := ih h'
      simp only [hnext, hbatch]
      exact ⟨m'', rfl, h''⟩

/-! ### A new merger -/

theorem prime_spec {rs : List R} {parts : List (List β)} (h : List.Forall₂ Reads rs parts) :
    ∀ {i : ℕ} {heap : List (β ×ₗ ℕ)}, heap.Pairwise (· ≤ ·) → ∃ runs heap',
      prime rs i heap = .ok (runs, heap') ∧
      List.Forall₂ (fun r part => Reads r part.tail) runs parts ∧
      heap'.Perm (heap ++ heads i parts) ∧ heap'.Pairwise (· ≤ ·) := by
  induction h with
  | nil =>
    intro i heap hleast
    exact ⟨[], heap, rfl, List.Forall₂.nil, by rw [heads, List.append_nil], hleast⟩
  | @cons r part rs parts hread _ ih =>
    intro i heap hleast
    rw [prime]
    cases hread with
    | nil hnext =>
      obtain ⟨runs, heap', hprime, hreads, hperm, hleast'⟩ := @ih (i + 1) heap hleast
      rw [hnext]
      simp only [hprime]
      exact ⟨_, heap', rfl, List.Forall₂.cons (Reads.nil hnext) hreads, hperm, hleast'⟩
    | @cons _ r' x items hnext htail =>
      obtain ⟨runs, heap', hprime, hreads, hperm, hleast'⟩ :=
        @ih (i + 1) (push x i heap) (List.Pairwise.orderedInsert _ _ hleast)
      rw [hnext]
      simp only [hprime]
      refine ⟨_, heap', rfl, List.Forall₂.cons htail hreads, ?_, hleast'⟩
      refine hperm.trans (((List.perm_orderedInsert _ _ _).append_right _).trans ?_)
      exact List.perm_middle.symm

/-- **A merger of sorted runs** gives their items sorted, each once. -/
theorem new_merges {rs : List R} {parts : List (List β)} (h : List.Forall₂ Reads rs parts)
    (hsorted : ∀ part ∈ parts, part.SortedLE) :
    ∃ m : RunMerger R β, RunMerger.new rs = .ok m ∧ Merges m (distinctSort parts.flatten) := by
  have hall : ∀ l : List β, l.filter (fun x => some x ≠ none) = l := fun l =>
    List.filter_eq_self.mpr fun x _ => by simp
  rw [RunMerger.new]
  split_ifs with hlen
  · obtain ⟨runs, heap, hprime, hreads, hperm, hleast⟩ := prime_spec h (i := 0) List.Pairwise.nil
    simp only [hprime]
    refine ⟨_, rfl, parts, ⟨Or.inr ⟨?_, hreads, hperm, hleast⟩, hsorted, by simp⟩, by rw [hall]⟩
    rw [hreads.length_eq, ← h.length_eq]
    omega
  · refine ⟨_, rfl, parts, ⟨?_, hsorted, by simp⟩, by rw [hall]⟩
    cases h with
    | nil =>
      exact Or.inr ⟨by simp, List.Forall₂.nil, List.Perm.refl _, List.Pairwise.nil⟩
    | @cons r part rs parts hread hrest =>
      cases hrest with
      | nil => exact Or.inl ⟨r, part, rfl, rfl, rfl, hread⟩
      | cons _ _ =>
        simp at hlen

end RunMerges
