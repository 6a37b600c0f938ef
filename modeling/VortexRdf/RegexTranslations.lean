/-
The translation is exact.

* `Atom` — what a quantifier follows: a leaf or a group;
* `descent_ends` — the descent reads a tree and writes it;
* `alternation_reads`, `sequence_reads` — it reads every tree of the grammar;
* `translation_is_exact` — a pattern is translated exactly when it spells a tree of the grammar, to
  a text that spells that tree in the other dialect.
-/
import VortexRdf.RegexLeaves

namespace RegexFilter

open Regex Translator

/-! ### Trees the grammar allows -/

/-- A tree whose groups are nested, under `open` groups, and whose counts are, as deep and as large
as is allowed. -/
structure Within (nested depth : ℕ) (numbers : List ℕ) : Prop where
  depth_le : nested + depth ≤ MAX_GROUP_DEPTH
  numbers_le : ∀ n ∈ numbers, n ≤ MAX_REPEAT

theorem Within.append {nested d d' : ℕ} {ns ns' : List ℕ} (h : Within nested d ns)
    (h' : Within nested d' ns') : Within nested (max d d') (ns ++ ns') where
  depth_le := by
    have hd := h.depth_le
    have hd' := h'.depth_le
    omega
  numbers_le := by
    intro n hn
    exact (List.mem_append.mp hn).elim (h.numbers_le n) (h'.numbers_le n)

theorem within_append_iff {nested d d' : ℕ} {ns ns' : List ℕ} :
    Within nested (max d d') (ns ++ ns') ↔ Within nested d ns ∧ Within nested d' ns' := by
  constructor
  · intro h
    have hd := h.depth_le
    exact ⟨⟨by omega, fun n hn => h.numbers_le n (by simp [hn])⟩,
      ⟨by omega, fun n hn => h.numbers_le n (by simp [hn])⟩⟩
  · rintro ⟨h, h'⟩
    exact h.append h'

/-- The text read from `t` up to `t'` spells a sequence, which is written. -/
def ReadsSequence (t t' : Translator) : Prop :=
  ∃ (s : Sequence) (u : List Char), t.chars = u ++ t'.chars ∧ s.Spells Python u ∧
    Within t.depth s.depth s.numbers ∧ t' = t.passed t'.chars (s.write written) s.leaves

def ReadsAlternation (t t' : Translator) : Prop :=
  ∃ (a : Alternation) (u : List Char), t.chars = u ++ t'.chars ∧ a.Spells Python u ∧
    Within t.depth a.depth a.numbers ∧ t' = t.passed t'.chars (a.write written) a.leaves

/-- What a quantifier follows. -/
inductive Atom where
  | leaf (x : Leaf)
  | group (capturing : Bool) (body : Alternation)

namespace Atom

def quantifiable : Atom → Bool
  | leaf x => !x.isAnchor
  | group _ _ => true

def Spells : Atom → List Char → Prop
  | leaf x, u => Python x u
  | group capturing body, u => ∃ v, body.Spells Python v ∧
      u = '(' :: (groupMark capturing ++ (v ++ [')']))

def depth : Atom → ℕ
  | leaf _ => 0
  | group _ body => body.depth + 1

def numbers : Atom → List ℕ
  | leaf _ => []
  | group _ body => body.numbers

def leaves : Atom → List Leaf
  | leaf x => [x]
  | group _ body => body.leaves

def write : Atom → List Char
  | leaf x => written x
  | group capturing body => '(' :: (groupMark capturing ++ (body.write written ++ [')']))

/-- The sequence that begins with the atom. -/
def followed (x : Atom) (r : Option Repeat) (rest : Sequence) : Sequence :=
  match x with
  | leaf x => .leaf x r rest
  | group capturing body => .group capturing body r rest

theorem followed_spells {x : Atom} {r : Option Repeat} {rest : Sequence} {u v w : List Char}
    (hu : x.Spells u) (hr : x.quantifiable = false → r = none) (hv : SuffixSpells r v)
    (hw : rest.Spells Python w) : (x.followed r rest).Spells Python (u ++ (v ++ w)) := by
  cases x with
  | leaf x =>
    exact ⟨u, v, w, hu, fun hanchor => hr (by simp [quantifiable, hanchor]), hv, hw, rfl⟩
  | group capturing body =>
    obtain ⟨b, hb, rfl⟩ := hu
    exact ⟨b, v, w, hb, hv, hw, by simp⟩

theorem followed_write (x : Atom) (r : Option Repeat) (rest : Sequence) :
    (x.followed r rest).write written = x.write ++ (writeSuffix r ++ rest.write written) := by
  cases x <;> simp [followed, write, Sequence.write]

theorem followed_leaves (x : Atom) (r : Option Repeat) (rest : Sequence) :
    (x.followed r rest).leaves = x.leaves ++ rest.leaves := by
  cases x <;> simp [followed, leaves, Sequence.leaves]

theorem followed_depth (x : Atom) (r : Option Repeat) (rest : Sequence) :
    (x.followed r rest).depth = max x.depth rest.depth := by
  cases x <;> simp [followed, depth, Sequence.depth]

theorem followed_numbers (x : Atom) (r : Option Repeat) (rest : Sequence) :
    (x.followed r rest).numbers = x.numbers ++ (numbersOf r ++ rest.numbers) := by
  cases x <;> simp [followed, numbers, Sequence.numbers]

end Atom

/-- The text read from `t` up to `p.2` spells an atom, which is written. -/
def ReadsAtom (t : Translator) (p : Bool × Translator) : Prop :=
  ∃ (x : Atom) (u : List Char), t.chars = u ++ p.2.chars ∧ u ≠ [] ∧ x.Spells u ∧
    Within t.depth x.depth x.numbers ∧ p.1 = x.quantifiable ∧
    p.2 = t.passed p.2.chars x.write x.leaves

/-! ### The descent reads a tree -/

theorem python_ne_nil {x : Leaf} {u : List Char} (h : Python x u) : u ≠ [] := by
  obtain ⟨c, v, rfl, -⟩ := python_unambiguous.head h
  exact List.cons_ne_nil c v

/-- A group's beginning is its mark. -/
theorem openGroup_ends (t : Translator) :
    Ends (fun t' => ∃ capturing, t.chars = groupMark capturing ++ t'.chars ∧
      t' = t.wrote t'.chars ('(' :: groupMark capturing)) (openGroup t) := by
  unfold openGroup
  split
  · rename_i rest hchars
    exact ⟨false, hchars, rfl⟩
  · simp
  · exact ⟨true, rfl, rfl⟩

/-- A group is closed by its parenthesis, one level further out. -/
theorem closeGroup_ends (t : Translator) :
    Ends (fun p : Bool × Translator => t.chars = ')' :: p.2.chars ∧ p.1 = true ∧
      p.2 = { t.wrote p.2.chars [')'] with depth := t.depth - 1 }) (closeGroup t) := by
  unfold closeGroup
  split
  · rename_i rest hchars
    exact ⟨hchars, rfl, rfl⟩
  · simp

/-- A sequence's reading, once its first atom and its quantifier are read. -/
theorem ReadsSequence.cons {t t₁ t₂ t' : Translator} {q : Bool} {r : Option Repeat} {v : List Char}
    (hatom : ReadsAtom t (q, t₁)) (hr : SuffixSpells r v) (hq : q = false → r = none)
    (hn : ∀ n ∈ numbersOf r, n ≤ MAX_REPEAT) (hv : t₁.chars = v ++ t₂.chars)
    (ht₂ : t₂ = t₁.wrote t₂.chars (writeSuffix r)) (hrest : ReadsSequence t₂ t') :
    ReadsSequence t t' := by
  obtain ⟨x, u, hu, -, hx, hwithin, hquantifiable, ht₁⟩ := hatom
  obtain ⟨s, w, hw, hs, hwithin', ht'⟩ := hrest
  simp only at hu hquantifiable ht₁
  have hdepth : t₂.depth = t.depth := by
    rw [ht₂, ht₁]
    rfl
  rw [hdepth] at hwithin'
  refine ⟨x.followed r s, u ++ (v ++ w), ?_, ?_, ?_, ?_⟩
  · rw [hu, hv, hw]
    simp
  · exact Atom.followed_spells hx (fun h => hq (hquantifiable.trans h)) hr hs
  · rw [Atom.followed_depth, Atom.followed_numbers]
    refine ⟨?_, ?_⟩
    · have hd := hwithin.depth_le
      have hd' := hwithin'.depth_le
      omega
    · intro n hmem
      simp only [List.mem_append] at hmem
      rcases hmem with h | h | h
      · exact hwithin.numbers_le n h
      · exact hn n h
      · exact hwithin'.numbers_le n h
  · rw [Atom.followed_write, Atom.followed_leaves]
    have hquantified : t₂ = t.passed t₂.chars (x.write ++ writeSuffix r) x.leaves := by
      rw [← passed_wrote t t₁.chars, ← ht₁]
      exact ht₂
    rw [ht']
    conv_lhs => rw [hquantified]
    rw [passed_passed, List.append_assoc, passed_chars]

section Descent

variable {fuel : ℕ} {t : Translator}

/-- With fuel for three calls a character, each of the three reads what it is for, or refuses. -/
structure Descends (fuel : ℕ) : Prop where
  alternation : ∀ t : Translator, t.depth ≤ MAX_GROUP_DEPTH → 3 * t.chars.length + 2 ≤ fuel →
    Ends (ReadsAlternation t) (Translator.alternation fuel t)
  sequence : ∀ t : Translator, t.depth ≤ MAX_GROUP_DEPTH → 3 * t.chars.length + 1 ≤ fuel →
    Ends (ReadsSequence t) (Translator.sequence fuel t)
  atom : ∀ t : Translator, t.depth ≤ MAX_GROUP_DEPTH → 3 * t.chars.length ≤ fuel → 0 < fuel →
    t.chars.head? ≠ some '|' → t.chars.head? ≠ some ')' → Ends (ReadsAtom t) (Translator.atom fuel t)

/-- A sequence, and after a bar the alternation behind it. -/
theorem alternation_ends_succ (ih : Descends fuel) (hdepth : t.depth ≤ MAX_GROUP_DEPTH)
    (hfuel : 3 * t.chars.length + 2 ≤ fuel + 1) :
    Ends (ReadsAlternation t) (alternation (fuel + 1) t) := by
  rw [alternation]
  refine (ih.sequence t hdepth (by omega)).bind ?_
  rintro t₁ ⟨s, u, hu, hs, hwithin, ht₁⟩
  have hdepth₁ : t₁.depth = t.depth := by
    rw [ht₁]
    rfl
  split
  · rename_i rest hchars
    have hless : 3 * rest.length + 2 ≤ fuel := by
      rw [hu, hchars] at hfuel
      simp only [List.length_append, List.length_cons] at hfuel
      omega
    refine (ih.alternation _ (by rw [← hdepth₁] at hdepth; exact hdepth) hless).imp ?_
    rintro t' ⟨a, v, hv, ha, hwithin', ht'⟩
    have hrest : rest = v ++ t'.chars := hv
    have hwithin'' : Within t.depth a.depth a.numbers := hdepth₁ ▸ hwithin'
    refine ⟨.or s a, u ++ '|' :: v, ?_, ⟨u, v, hs, ha, rfl⟩, hwithin.append hwithin'', ?_⟩
    · rw [hu, hchars, hrest]
      simp
    · rw [ht', ht₁, passed_wrote, passed_passed]
      simp [Alternation.write, Alternation.leaves]
  · exact ⟨.last s, u, hu, hs, hwithin, ht₁⟩

/-- An atom, its quantifier, and the sequence behind them. -/
theorem sequence_ends_succ (ih : Descends fuel) (hdepth : t.depth ≤ MAX_GROUP_DEPTH)
    (hfuel : 3 * t.chars.length + 1 ≤ fuel + 1) : Ends (ReadsSequence t) (sequence (fuel + 1) t) := by
  have hnil : ReadsSequence t t :=
    ⟨.nil, [], rfl, rfl, ⟨hdepth, by simp [Sequence.numbers]⟩,
      by simp [passed, marked, Sequence.write, Sequence.leaves]⟩
  rw [Translator.sequence]
  split
  · exact hnil
  · rename_i c rest hchars
    split
    · exact hnil
    · rename_i hc
      push Not at hc
      have hlength : t.chars.length = rest.length + 1 := by rw [hchars, List.length_cons]
      refine (ih.atom t hdepth (by omega) (by omega) (by simpa [hchars] using hc.1)
        (by simpa [hchars] using hc.2)).bind ?_
      rintro ⟨q, t₁⟩ hatom
      refine (quantifier_ends q t₁).bind ?_
      rintro t₂ ⟨r, v, hr, hq, hn, hv, ht₂⟩
      obtain ⟨x, u, hu, hne, -, -, -, ht₁⟩ := id hatom
      -- the atom is not empty, so fewer characters are left
      have hless : 3 * t₂.chars.length + 1 ≤ fuel := by
        have hpos := List.length_pos_iff.mpr hne
        have hlen := congrArg List.length hu
        have hlen' := congrArg List.length hv
        simp only [List.length_append] at hlen hlen'
        omega
      have hdepth₂ : t₂.depth = t.depth := by
        rw [ht₂]
        simp only at ht₁
        rw [ht₁]
        rfl
      refine (ih.sequence t₂ (hdepth₂ ▸ hdepth) hless).imp ?_
      intro t' hrest
      exact ReadsSequence.cons hatom hr hq hn hv ht₂ hrest

/-- A group around an alternation one level deeper, or an atom without one. -/
theorem atom_ends_succ (ih : Descends fuel) (hdepth : t.depth ≤ MAX_GROUP_DEPTH)
    (hfuel : 3 * t.chars.length ≤ fuel + 1) (hbar : t.chars.head? ≠ some '|')
    (hclose : t.chars.head? ≠ some ')') : Ends (ReadsAtom t) (atom (fuel + 1) t) := by
  rw [atom]
  split
  · simp
  · rename_i c rest hchars
    have hlength : t.chars.length = rest.length + 1 := by rw [hchars, List.length_cons]
    split
    · rename_i hopen
      split
      · simp
      · rename_i hnested
        -- a group: what marks it, its body, its end
        refine (openGroup_ends _).bind ?_
        rintro t₁ ⟨capturing, hmark, ht₁⟩
        simp only at hmark
        have hdepth₁ : t₁.depth = t.depth + 1 := by
          rw [ht₁]
          rfl
        have hless : 3 * t₁.chars.length + 2 ≤ fuel := by
          have hlen := congrArg List.length hmark
          simp only [List.length_append] at hlen
          omega
        refine (ih.alternation t₁ (by omega) hless).bind ?_
        rintro t₂ ⟨a, u, hu, ha, hwithin, ht₂⟩
        refine (closeGroup_ends t₂).imp ?_
        rintro ⟨q, t'⟩ ⟨hend, hq, ht'⟩
        simp only at hend hq ht'
        refine ⟨.group capturing a, '(' :: (groupMark capturing ++ (u ++ [')'])), ?_,
          List.cons_ne_nil _ _, ⟨u, ha, rfl⟩, ⟨?_, hwithin.numbers_le⟩, hq, ?_⟩
        · simp only
          rw [hchars, hopen, hmark, hu, hend]
          simp
        · have hd := hwithin.depth_le
          simp only [Atom.depth]
          omega
        · simp only
          rw [ht', ht₂, ht₁]
          simp [wrote, passed, marked, Atom.write, Atom.leaves]
    · rename_i hopen
      -- neither a group nor the end of one
      have hc : c ∉ ['(', ')', '|'] := by
        simp only [hchars, List.head?_cons, ne_eq, Option.some.injEq] at hbar hclose
        simp [hopen, hbar, hclose]
      refine (simpleAtom_ends hc _).imp ?_
      rintro ⟨q, t'⟩ ⟨x, u, hu, hx, hq, ht'⟩
      simp only at hu hq ht'
      refine ⟨.leaf x, u, hchars.trans hu, python_ne_nil hx, hx,
        ⟨hdepth, by simp [Atom.numbers]⟩, hq, ?_⟩
      simp only
      rw [ht']
      rfl

/-- The three descend together. -/
theorem descent_ends (fuel : ℕ) : Descends fuel := by
  induction fuel with
  | zero =>
    refine ⟨fun t _ h => by omega, fun t _ h => by omega, fun t _ _ h => by omega⟩
  | succ fuel ih =>
    refine ⟨?_, ?_, ?_⟩
    · intro t hdepth hfuel
      exact alternation_ends_succ ih hdepth hfuel
    · intro t hdepth hfuel
      exact sequence_ends_succ ih hdepth hfuel
    · intro t hdepth hfuel _ hbar hclose
      exact atom_ends_succ ih hdepth hfuel hbar hclose

end Descent

/-! ### Every tree is read -/

/-- A group's body does not begin with a question mark. -/
theorem openGroup_reads {capturing : Bool} {body : Alternation} {u s : List Char}
    (hu : body.Spells Python u) {t : Translator}
    (hchars : t.chars = groupMark capturing ++ (u ++ ')' :: s)) :
    openGroup t = .ok (t.wrote (u ++ ')' :: s) ('(' :: groupMark capturing)) := by
  cases capturing with
  | false => simp [openGroup, hchars, groupMark]
  | true =>
    have hplain : t.chars = u ++ ')' :: s := hchars
    have hno : ∀ q, t.chars ≠ '?' :: q := by
      intro q heq
      rw [hplain] at heq
      rcases Alternation.head python_unambiguous hu with rfl | ⟨c, w, rfl, hc⟩
      · simp at heq
      · obtain ⟨rfl, -⟩ := List.cons_eq_cons.mp heq
        rcases hc with h | h | h
        · cases h
        · cases h
        · exact absurd h (by decide)
    unfold openGroup
    split
    · rename_i q heq
      exact absurd heq (hno _)
    · rename_i q _ heq
      exact absurd heq (hno q)
    · rw [hplain]
      rfl

/-- Once an atom is read, its quantifier is, and the sequence goes on. -/
theorem sequence_cons {t : Translator} {c : Char} {q v x text : List Char} {b : Bool}
    {r : Option Repeat} {xs : List Leaf} {fuel : ℕ} (hchars : t.chars = c :: q)
    (hc : c ≠ '|' ∧ c ≠ ')') (hatom : atom fuel t = .ok (b, t.passed (v ++ x) text xs))
    (hv : SuffixSpells r v) (hb : b = false → r = none) (hn : ∀ n ∈ numbersOf r, n ≤ MAX_REPEAT)
    (hx : AfterSuffix x) :
    sequence (fuel + 1) t = sequence fuel (t.passed x (text ++ writeSuffix r) xs) := by
  have hquantifier := quantifier_reads hv hb hn (t := t.passed (v ++ x) text xs) rfl hx
  rw [Translator.sequence, hchars]
  simp only [hc.1, hc.2, or_self, if_false]
  rw [hatom]
  simp only [bind, Except.bind]
  rw [hquantifier, passed_wrote]

/-- A group is read where its body is. -/
theorem atom_group {t : Translator} {capturing : Bool} {body : Alternation} {u s : List Char}
    (fuel : ℕ) (hu : body.Spells Python u)
    (hchars : t.chars = '(' :: (groupMark capturing ++ (u ++ ')' :: s)))
    (hdepth : t.depth + 1 ≤ MAX_GROUP_DEPTH)
    (hbody : ∀ t' : Translator, t'.chars = u ++ ')' :: s → t'.depth = t.depth + 1 →
      alternation fuel t' = .ok (t'.passed (')' :: s) (body.write written) body.leaves)) :
    atom (fuel + 1) t = .ok (true, t.passed s
      ('(' :: (groupMark capturing ++ (body.write written ++ [')']))) body.leaves) := by
  have hopen := openGroup_reads hu (t := { t with
    chars := groupMark capturing ++ (u ++ ')' :: s), depth := t.depth + 1 }) rfl
  rw [atom, hchars]
  simp only [if_true, if_neg (Nat.not_lt.mpr hdepth)]
  rw [hopen]
  simp only [bind, Except.bind]
  rw [hbody _ rfl rfl]
  simp [closeGroup, wrote, passed, marked]

mutual

theorem sequence_reads (s : Sequence) {u rest : List Char} (h : s.Spells Python u)
    (hrest : AfterSequence rest) {t : Translator} (hchars : t.chars = u ++ rest)
    (hwithin : Within t.depth s.depth s.numbers) {fuel : ℕ}
    (hfuel : 3 * t.chars.length + 1 ≤ fuel) :
    sequence fuel t = .ok (t.passed rest (s.write written) s.leaves) := by
  obtain ⟨fuel, rfl⟩ : ∃ n, fuel = n + 1 := ⟨fuel - 1, by omega⟩
  match s with
  | .nil =>
    cases h
    obtain rfl : t.chars = rest := hchars
    have hsame : t.passed t.chars (Sequence.nil.write written) Sequence.nil.leaves = t := by
      simp [passed, marked, Sequence.write, Sequence.leaves]
    rw [hsame, Translator.sequence]
    split
    · rfl
    · rename_i c q heq
      rw [if_pos (hrest c (by simp [heq]))]
  | .leaf x r s =>
    obtain ⟨a, v, w, hx, hr, hv, hw, rfl⟩ := h
    rw [List.append_assoc, List.append_assoc] at hchars
    obtain ⟨c, q, rfl, hc, hread⟩ := simpleAtom_reads hx (v ++ (w ++ rest))
    simp at hc
    rw [List.cons_append] at hchars
    have hlength : t.chars.length = (q ++ (v ++ (w ++ rest))).length + 1 := by
      rw [hchars, List.length_cons]
    obtain ⟨fuel, rfl⟩ : ∃ n, fuel = n + 1 := ⟨fuel - 1, by omega⟩
    -- the atom, its quantifier, then the rest with what is left of the fuel
    have hatom : atom (fuel + 1) t =
        .ok (!x.isAnchor, t.passed (v ++ (w ++ rest)) (written x) [x]) := by
      rw [atom, hchars]
      simp only [if_neg hc.1]
      exact hread { t with chars := q ++ (v ++ (w ++ rest)) } rfl
    have hnumbers : ∀ n ∈ numbersOf r, n ≤ MAX_REPEAT := fun n hn =>
      hwithin.numbers_le n (by simp [Sequence.numbers, hn])
    rw [sequence_cons hchars ⟨hc.2.2, hc.2.1⟩ hatom hv
      (fun hanchor => hr (by simpa using hanchor)) hnumbers (Sequence.afterSuffix python_unambiguous hw hrest)]
    have hless : 3 * (w ++ rest).length + 1 ≤ fuel + 1 := by
      simp only [List.length_append] at hlength ⊢
      omega
    rw [sequence_reads s hw hrest (t := t.passed (w ++ rest) (written x ++ writeSuffix r) [x]) rfl
      ⟨hwithin.depth_le, fun n hn => hwithin.numbers_le n (by simp [Sequence.numbers, hn])⟩ hless,
      passed_passed]
    simp [Sequence.write, Sequence.leaves]
  | .group capturing body r s =>
    obtain ⟨a, v, w, ha, hv, hw, rfl⟩ := h
    have hopened : t.chars = '(' :: (groupMark capturing ++ (a ++ ')' :: (v ++ (w ++ rest)))) := by
      simpa using hchars
    have hlength := congrArg List.length hopened
    simp only [List.length_append, List.length_cons] at hlength
    obtain ⟨fuel, rfl⟩ : ∃ n, fuel = n + 1 := ⟨fuel - 1, by omega⟩
    have hdepth := hwithin.depth_le
    simp only [Sequence.depth] at hdepth
    -- the body is one level deeper, and ends at its parenthesis
    have hinside : Within (t.depth + 1) body.depth body.numbers :=
      ⟨by omega, fun n hn => hwithin.numbers_le n (by simp [Sequence.numbers, hn])⟩
    have hatom := atom_group fuel ha hopened (by omega) fun t' ht' hdepth' =>
      alternation_reads body ha (by simp [AfterAlternation]) ht' (hdepth' ▸ hinside)
        (by rw [ht']; simp only [List.length_append, List.length_cons]; omega)
    have hnumbers : ∀ n ∈ numbersOf r, n ≤ MAX_REPEAT := fun n hn =>
      hwithin.numbers_le n (by simp [Sequence.numbers, hn])
    rw [sequence_cons hopened (by decide) hatom hv (by simp) hnumbers
      (Sequence.afterSuffix python_unambiguous hw hrest)]
    have hless : 3 * (w ++ rest).length + 1 ≤ fuel + 1 := by
      simp only [List.length_append]
      omega
    rw [sequence_reads s hw hrest (t := t.passed (w ++ rest) _ body.leaves) rfl
      ⟨by rw [passed_depth]; omega,
        fun n hn => hwithin.numbers_le n (by simp [Sequence.numbers, hn])⟩ hless, passed_passed]
    simp [Sequence.write, Sequence.leaves]

theorem alternation_reads (a : Alternation) {u rest : List Char} (h : a.Spells Python u)
    (hrest : AfterAlternation rest) {t : Translator} (hchars : t.chars = u ++ rest)
    (hwithin : Within t.depth a.depth a.numbers) {fuel : ℕ}
    (hfuel : 3 * t.chars.length + 2 ≤ fuel) :
    alternation fuel t = .ok (t.passed rest (a.write written) a.leaves) := by
  obtain ⟨fuel, rfl⟩ : ∃ n, fuel = n + 1 := ⟨fuel - 1, by omega⟩
  match a with
  | .last s =>
    have hread : sequence fuel t = .ok (t.passed rest (s.write written) s.leaves) :=
      sequence_reads s h hrest.afterSequence hchars hwithin (by omega)
    have hno : ∀ q, rest ≠ '|' :: q := by
      rintro q rfl
      exact absurd (hrest '|' rfl) (by decide)
    rw [alternation, hread]
    simp only [bind, Except.bind, passed_chars]
    rfl
  | .or s a =>
    obtain ⟨v, w, hv, hw, rfl⟩ := h
    rw [List.append_assoc, List.cons_append] at hchars
    obtain ⟨hfirst, hsecond⟩ := within_append_iff.mp hwithin
    have hbar : AfterSequence ('|' :: (w ++ rest)) := by simp [AfterSequence]
    have hread : sequence fuel t =
        .ok (t.passed ('|' :: (w ++ rest)) (s.write written) s.leaves) :=
      sequence_reads s hv hbar hchars hfirst (by omega)
    have hless : 3 * (w ++ rest).length + 2 ≤ fuel := by
      rw [hchars] at hfuel
      simp only [List.length_append, List.length_cons] at hfuel ⊢
      omega
    have hlast := alternation_reads a hw hrest
      (t := t.passed (w ++ rest) (s.write written ++ ['|']) s.leaves) rfl hsecond hless
    rw [alternation, hread]
    simp only [bind, Except.bind, passed_chars, passed_wrote]
    rw [hlast, passed_passed]
    simp [Alternation.write, Alternation.leaves]

end

/-! ### The translation -/

/-- A pattern of the allow-list grammar, with the tree it spells. -/
def Allowed (pattern : List Char) (a : Alternation) : Prop :=
  a.Spells Python pattern ∧ Within 0 a.depth a.numbers

/-- What is recorded of a tree. -/
def translated (a : Alternation) : Translation where
  rust := a.write written
  unicodeSensitive := a.leaves.any usesUnicode
  hasDollar := a.leaves.any isDollar
  hasNonBoundary := a.leaves.any isNonBoundary

variable {pattern : List Char}

theorem run_of_allowed {a : Alternation} (h : Allowed pattern a) :
    Translation.run pattern = .ok (translated a) := by
  have hread : alternation (Translation.fuelFor pattern) (Translation.start pattern) =
      .ok ((Translation.start pattern).passed [] (a.write written) a.leaves) :=
    alternation_reads a h.1 (by simp [AfterAlternation]) (List.append_nil pattern).symm h.2
      (Nat.le_refl _)
  rw [Translation.run, hread]
  simp [bind, Except.bind, translated, passed, marked, Translation.start]

theorem run_ends (pattern : List Char) :
    Ends (fun r => ∃ a, Allowed pattern a ∧ r = translated a) (Translation.run pattern) := by
  refine ((descent_ends _).alternation (Translation.start pattern) (Nat.zero_le _) (Nat.le_refl _)).bind ?_
  rintro t ⟨a, u, hu, ha, hwithin, ht⟩
  split
  · rename_i hend
    have hwhole : pattern = u := by simpa [Translation.start, hend] using hu
    refine ⟨a, ⟨hwhole ▸ ha, hwithin⟩, ?_⟩
    rw [ht]
    simp [translated, passed, marked, Translation.start]
  · simp

/-- A pattern has one tree at most. -/
theorem Allowed.unique {a b : Alternation} (ha : Allowed pattern a)
    (hb : b.Spells Python pattern) : b = a :=
  Alternation.unique_of_spells python_unambiguous hb ha.1

theorem of_eq_some {t : Translation} :
    Translation.of pattern = some t ↔ ∃ a, Allowed pattern a ∧ t = translated a := by
  constructor
  · intro h
    have hrun : Translation.run pattern = .ok t := by
      unfold Translation.of at h
      cases hrun : Translation.run pattern with
      | error e =>
        rw [hrun] at h
        cases h
      | ok t' =>
        rw [hrun] at h
        cases h
        rfl
    exact (run_ends pattern).of_ok hrun
  · rintro ⟨a, ha, rfl⟩
    rw [Translation.of, run_of_allowed ha]
    rfl

theorem translated_spells {a : Alternation} (ha : Allowed pattern a) :
    (a.map expand).Spells Rust (translated a).rust :=
  Alternation.write_spells (fun _ _ h => written_spells h) expand_isAnchor a ha.1

theorem any_iff_mem {xs : List Leaf} {f : Leaf → Bool} {y : Leaf}
    (hf : ∀ x, f x = true ↔ x = y) : xs.any f = true ↔ y ∈ xs := by
  simp [List.any_eq_true, hf]

theorem isDollar_iff (x : Leaf) : isDollar x = true ↔ x = .anchor .lineEnd := by
  cases x with
  | anchor a => cases a <;> simp [isDollar]
  | _ => simp [isDollar]

theorem isNonBoundary_iff (x : Leaf) : isNonBoundary x = true ↔ x = .anchor .nonBoundary := by
  cases x with
  | anchor a => cases a <;> simp [isNonBoundary]
  | _ => simp [isNonBoundary]

/-- The translation ends on every pattern, and accepts the grammar's patterns alone, to the end.
What it writes has, in the other dialect, the one tree the pattern has, its shorthands expanded to
their ASCII members; and it records what occurs in that tree. -/
theorem translation_is_exact (pattern : List Char) :
    Translation.run pattern ≠ .error .exhausted ∧
    ((∃ t, Translation.of pattern = some t) ↔ ∃ a, Allowed pattern a) ∧
    (∀ t, Translation.of pattern = some t → ∃ a, Allowed pattern a ∧
      (∀ b : Alternation, b.Spells Python pattern → b = a) ∧
      (a.map expand).Spells Rust t.rust ∧
      (∀ b : Alternation, b.Spells Rust t.rust → b = a.map expand) ∧
      t.rust = a.write written ∧
      (t.unicodeSensitive = true ↔ ∃ x ∈ a.leaves, usesUnicode x = true) ∧
      (t.hasDollar = true ↔ .anchor .lineEnd ∈ a.leaves) ∧
      (t.hasNonBoundary = true ↔ .anchor .nonBoundary ∈ a.leaves)) ∧
    ∀ l ∈ SHORTHAND_LETTERS, ∀ c, (asciiItems l).any (holds c) = true ↔
      c.toNat < 128 ∧ shorthandHolds l c = true := by
  refine ⟨(run_ends pattern).not_exhausted, ?_, ?_, fun l hl c => asciiItems_members hl c⟩
  · constructor
    · rintro ⟨t, ht⟩
      obtain ⟨a, ha, -⟩ := of_eq_some.mp ht
      exact ⟨a, ha⟩
    · rintro ⟨a, ha⟩
      exact ⟨translated a, of_eq_some.mpr ⟨a, ha, rfl⟩⟩
  · intro t ht
    obtain ⟨a, ha, rfl⟩ := of_eq_some.mp ht
    have hspells := translated_spells ha
    exact ⟨a, ha, fun b hb => ha.unique hb, hspells,
      fun b hb => Alternation.unique_of_spells rust_unambiguous hb hspells, rfl,
      List.any_eq_true, any_iff_mem isDollar_iff, any_iff_mem isNonBoundary_iff⟩

/-- Groups, classes, lazy counts, a shorthand and a dollar. -/
theorem translation_is_exact_of_sample :
    ∃ a, Allowed "(?:\\d+|[^a-z\\-]{2,3}?)$".toList a ∧
      (a.map expand).Spells Rust
        "(?:[0-9]+|[^a-z\\-]{2,3}?)$".toList := by
  obtain ⟨a, ha, -, hspells, -⟩ := (translation_is_exact
    "(?:\\d+|[^a-z\\-]{2,3}?)$".toList).2.2.1
    ⟨"(?:[0-9]+|[^a-z\\-]{2,3}?)$".toList, true, true, false⟩ (by decide +kernel)
  exact ⟨a, ha, hspells⟩

end RegexFilter
