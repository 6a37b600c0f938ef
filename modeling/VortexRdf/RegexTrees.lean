/-
Regular expressions as trees, and the texts that spell them.

Alternatives, groups and repetitions are spelled alike in every dialect; how a dialect spells the
leaves between them is a parameter.

* `Leaf`, `Sequence`, `Alternation` — the trees, with their leaves, their depth and their counts;
* `Spells` — a text spells a tree, in the dialect that spells its leaves;
* `write`, `map`, `write_spells` — a tree written out, leaf by leaf, spells the mapped tree;
* `Unambiguous`, `spells_unique` — where no leaf's text begins another's, a text spells one tree.
-/
import Mathlib.Tactic

namespace Regex

/-! ### Trees -/

inductive Item where
  | char (c : Char)
  | range (lo hi : Char)
  | shorthand (letter : Char)

inductive Anchor where
  | lineStart
  | lineEnd
  | textStart
  | boundary
  | nonBoundary

inductive Leaf where
  | literal (c : Char)
  | dot
  | shorthand (letter : Char)
  | cls (negated : Bool) (items : List Item)
  | anchor (a : Anchor)

/-- Anchors are not repeated. -/
def Leaf.isAnchor : Leaf → Bool
  | anchor _ => true
  | _ => false

inductive Count where
  | star
  | plus
  | optional
  | exactly (n : ℕ)
  | atLeast (n : ℕ)
  | between (lo hi : ℕ)

structure Repeat where
  count : Count
  isLazy : Bool

mutual

inductive Sequence where
  | nil
  | leaf (x : Leaf) (r : Option Repeat) (rest : Sequence)
  | group (capturing : Bool) (body : Alternation) (r : Option Repeat) (rest : Sequence)

inductive Alternation where
  | last (s : Sequence)
  | or (s : Sequence) (rest : Alternation)

end

def Count.numbers : Count → List ℕ
  | exactly n => [n]
  | atLeast n => [n]
  | between lo hi => [lo, hi]
  | _ => []

def numbersOf : Option Repeat → List ℕ
  | none => []
  | some r => r.count.numbers

mutual

def Sequence.leaves : Sequence → List Leaf
  | .nil => []
  | .leaf x _ rest => x :: rest.leaves
  | .group _ body _ rest => body.leaves ++ rest.leaves

def Alternation.leaves : Alternation → List Leaf
  | .last s => s.leaves
  | .or s rest => s.leaves ++ rest.leaves

end

mutual

/-- How deep groups are nested. -/
def Sequence.depth : Sequence → ℕ
  | .nil => 0
  | .leaf _ _ rest => rest.depth
  | .group _ body _ rest => max (body.depth + 1) rest.depth

def Alternation.depth : Alternation → ℕ
  | .last s => s.depth
  | .or s rest => max s.depth rest.depth

end

mutual

/-- The numbers its counts hold. -/
def Sequence.numbers : Sequence → List ℕ
  | .nil => []
  | .leaf _ r rest => numbersOf r ++ rest.numbers
  | .group _ body r rest => body.numbers ++ (numbersOf r ++ rest.numbers)

def Alternation.numbers : Alternation → List ℕ
  | .last s => s.numbers
  | .or s rest => s.numbers ++ rest.numbers

end

/-! ### Texts -/

structure Numeral (n : ℕ) (w : List Char) : Prop where
  ne_nil : w ≠ []
  digits : ∀ c ∈ w, c.isDigit = true
  value : Nat.ofDigitChars 10 w 0 = n

def Count.Spells : Count → List Char → Prop
  | star, w => w = ['*']
  | plus, w => w = ['+']
  | optional, w => w = ['?']
  | exactly n, w => ∃ d, Numeral n d ∧ w = '{' :: (d ++ ['}'])
  | atLeast n, w => ∃ d, Numeral n d ∧ w = '{' :: (d ++ [',', '}'])
  | between lo hi, w => ∃ d d', Numeral lo d ∧ Numeral hi d' ∧ lo ≤ hi ∧
      w = '{' :: (d ++ ',' :: (d' ++ ['}']))

def lazyMark (isLazy : Bool) : List Char := if isLazy then ['?'] else []

def SuffixSpells : Option Repeat → List Char → Prop
  | none, w => w = []
  | some r, w => ∃ v, r.count.Spells v ∧ w = v ++ lazyMark r.isLazy

def groupMark (capturing : Bool) : List Char := if capturing then [] else ['?', ':']

mutual

def Sequence.Spells (d : Leaf → List Char → Prop) : Sequence → List Char → Prop
  | .nil, w => w = []
  | .leaf x r rest, w => ∃ u v t, d x u ∧ (x.isAnchor = true → r = none) ∧ SuffixSpells r v ∧
      rest.Spells d t ∧ w = u ++ (v ++ t)
  | .group capturing body r rest, w => ∃ u v t, body.Spells d u ∧ SuffixSpells r v ∧
      rest.Spells d t ∧ w = '(' :: (groupMark capturing ++ (u ++ ')' :: (v ++ t)))

def Alternation.Spells (d : Leaf → List Char → Prop) : Alternation → List Char → Prop
  | .last s, w => s.Spells d w
  | .or s rest, w => ∃ u v, s.Spells d u ∧ rest.Spells d v ∧ w = u ++ '|' :: v

end

/-! ### Written out -/

def Count.write : Count → List Char
  | star => ['*']
  | plus => ['+']
  | optional => ['?']
  | exactly n => '{' :: (Nat.toDigits 10 n ++ ['}'])
  | atLeast n => '{' :: (Nat.toDigits 10 n ++ [',', '}'])
  | between lo hi => '{' :: (Nat.toDigits 10 lo ++ ',' :: (Nat.toDigits 10 hi ++ ['}']))

def writeSuffix : Option Repeat → List Char
  | none => []
  | some r => r.count.write ++ lazyMark r.isLazy

mutual

def Sequence.write (f : Leaf → List Char) : Sequence → List Char
  | .nil => []
  | .leaf x r rest => f x ++ (writeSuffix r ++ rest.write f)
  | .group capturing body r rest =>
      '(' :: (groupMark capturing ++ (body.write f ++ ')' :: (writeSuffix r ++ rest.write f)))

def Alternation.write (f : Leaf → List Char) : Alternation → List Char
  | .last s => s.write f
  | .or s rest => s.write f ++ '|' :: rest.write f

end

mutual

def Sequence.map (g : Leaf → Leaf) : Sequence → Sequence
  | .nil => .nil
  | .leaf x r rest => .leaf (g x) r (rest.map g)
  | .group capturing body r rest => .group capturing (body.map g) r (rest.map g)

def Alternation.map (g : Leaf → Leaf) : Alternation → Alternation
  | .last s => .last (s.map g)
  | .or s rest => .or (s.map g) (rest.map g)

end

theorem numeral_toDigits (n : ℕ) : Numeral n (Nat.toDigits 10 n) where
  ne_nil := Nat.toDigits_ne_nil
  digits _ hc := Nat.isDigit_of_mem_toDigits (by decide) (by decide) hc
  value := by simp

/-- A count that is spelled is written so that it is spelled. -/
theorem Count.write_spells {k : Count} {w : List Char} (h : k.Spells w) : k.Spells k.write := by
  cases k with
  | star => rfl
  | plus => rfl
  | optional => rfl
  | exactly n => exact ⟨_, numeral_toDigits n, rfl⟩
  | atLeast n => exact ⟨_, numeral_toDigits n, rfl⟩
  | between lo hi =>
    obtain ⟨_, _, -, -, hle, -⟩ := h
    exact ⟨_, _, numeral_toDigits lo, numeral_toDigits hi, hle, rfl⟩

theorem writeSuffix_spells {r : Option Repeat} {w : List Char} (h : SuffixSpells r w) :
    SuffixSpells r (writeSuffix r) := by
  cases r with
  | none => rfl
  | some r =>
    obtain ⟨v, hv, -⟩ := h
    exact ⟨_, Count.write_spells hv, rfl⟩

section Written

variable {d d' : Leaf → List Char → Prop} {f : Leaf → List Char} {g : Leaf → Leaf}

mutual

/-- Where each leaf is written as the mapped leaf is spelled, so is the tree. -/
theorem Sequence.write_spells (hleaf : ∀ x u, d x u → d' (g x) (f x))
    (hanchor : ∀ x, (g x).isAnchor = x.isAnchor) (s : Sequence) {w : List Char}
    (h : s.Spells d w) : (s.map g).Spells d' (s.write f) := by
  match s with
  | .nil => rfl
  | .leaf x r rest =>
    obtain ⟨u, v, t, hx, hr, hv, ht, -⟩ := h
    exact ⟨f x, writeSuffix r, rest.write f, hleaf x u hx, by rwa [hanchor], writeSuffix_spells hv,
      Sequence.write_spells hleaf hanchor rest ht, rfl⟩
  | .group capturing body r rest =>
    obtain ⟨u, v, t, hu, hv, ht, -⟩ := h
    exact ⟨body.write f, writeSuffix r, rest.write f,
      Alternation.write_spells hleaf hanchor body hu, writeSuffix_spells hv,
      Sequence.write_spells hleaf hanchor rest ht, rfl⟩

theorem Alternation.write_spells (hleaf : ∀ x u, d x u → d' (g x) (f x))
    (hanchor : ∀ x, (g x).isAnchor = x.isAnchor) (a : Alternation) {w : List Char}
    (h : a.Spells d w) : (a.map g).Spells d' (a.write f) := by
  match a with
  | .last s => exact Sequence.write_spells hleaf hanchor s h
  | .or s rest =>
    obtain ⟨u, v, hu, hv, -⟩ := h
    exact ⟨s.write f, rest.write f, Sequence.write_spells hleaf hanchor s hu,
      Alternation.write_spells hleaf hanchor rest hv, rfl⟩

end

end Written

/-! ### One tree at most -/

theorem takeWhile_isDigit {u s : List Char} (hu : ∀ c ∈ u, c.isDigit = true) {c : Char}
    (hc : c.isDigit = false) : (u ++ c :: s).takeWhile Char.isDigit = u := by
  rw [List.takeWhile_append_of_pos hu, List.takeWhile_cons_of_neg (by simp [hc])]
  simp

theorem Numeral.unique {n m : ℕ} {u v s t : List Char} {c c' : Char} (hu : Numeral n u)
    (hv : Numeral m v) (hc : c.isDigit = false) (hc' : c'.isDigit = false)
    (h : u ++ c :: s = v ++ c' :: t) : u = v ∧ n = m ∧ c = c' ∧ s = t := by
  have huv : u = v := by
    rw [← takeWhile_isDigit (s := s) hu.digits hc, h, takeWhile_isDigit hv.digits hc']
  subst huv
  obtain ⟨rfl, rfl⟩ := List.cons_eq_cons.mp (List.append_cancel_left h)
  exact ⟨rfl, hu.value.symm.trans hv.value, rfl, rfl⟩

theorem Numeral.not_brace {n : ℕ} {u s t : List Char} (hu : Numeral n u) :
    '}' :: s ≠ u ++ t := by
  intro h
  obtain ⟨c, u', rfl⟩ := List.exists_cons_of_ne_nil hu.ne_nil
  obtain ⟨rfl, -⟩ := List.cons_eq_cons.mp h
  have hdigit := hu.digits '}' List.mem_cons_self
  revert hdigit
  decide

/-- What a count's text begins with. -/
def Count.mark : Count → Char
  | star => '*'
  | plus => '+'
  | optional => '?'
  | _ => '{'

theorem Count.head {k : Count} {u : List Char} (h : k.Spells u) : ∃ v, u = k.mark :: v := by
  cases k with
  | star => exact ⟨_, h⟩
  | plus => exact ⟨_, h⟩
  | optional => exact ⟨_, h⟩
  | exactly n =>
    obtain ⟨d, -, rfl⟩ := h
    exact ⟨_, rfl⟩
  | atLeast n =>
    obtain ⟨d, -, rfl⟩ := h
    exact ⟨_, rfl⟩
  | between lo hi =>
    obtain ⟨d, d', -, -, -, rfl⟩ := h
    exact ⟨_, rfl⟩

/-- A count of numbers spelled in braces: its digits, and what follows them. -/
theorem Count.braces {k : Count} {u : List Char} (h : k.Spells u) (hmark : k.mark = '{') :
    ∃ n d c v, Numeral n d ∧ c.isDigit = false ∧ u = '{' :: (d ++ c :: v) ∧
      ((k = .exactly n ∧ c = '}' ∧ v = []) ∨ (k = .atLeast n ∧ c = ',' ∧ v = ['}']) ∨
        ∃ m d', k = .between n m ∧ c = ',' ∧ Numeral m d' ∧ v = d' ++ ['}']) := by
  cases k with
  | star => cases hmark
  | plus => cases hmark
  | optional => cases hmark
  | exactly n =>
    obtain ⟨d, hd, rfl⟩ := h
    exact ⟨n, d, _, _, hd, by decide, rfl, .inl ⟨rfl, rfl, rfl⟩⟩
  | atLeast n =>
    obtain ⟨d, hd, rfl⟩ := h
    exact ⟨n, d, _, _, hd, by decide, rfl, .inr (.inl ⟨rfl, rfl, rfl⟩)⟩
  | between lo hi =>
    obtain ⟨d, d', hd, hd', -, rfl⟩ := h
    exact ⟨lo, d, _, _, hd, by decide, rfl, .inr (.inr ⟨hi, d', rfl, rfl, hd', rfl⟩)⟩

theorem Count.unique {k k' : Count} {u v s t : List Char} (hu : k.Spells u) (hv : k'.Spells v)
    (h : u ++ s = v ++ t) : k = k' ∧ u = v := by
  have hmark : k.mark = k'.mark := by
    obtain ⟨u', rfl⟩ := Count.head hu
    obtain ⟨v', rfl⟩ := Count.head hv
    exact (List.cons_eq_cons.mp h).1
  by_cases hbrace : k.mark = '{'
  · obtain ⟨n, d, c, w, hd, hc, rfl, hk⟩ := Count.braces hu hbrace
    obtain ⟨m, d', c', w', hd', hc', rfl, hk'⟩ := Count.braces hv (hmark ▸ hbrace)
    have htail : d ++ c :: (w ++ s) = d' ++ c' :: (w' ++ t) := by simpa using h
    obtain ⟨rfl, rfl, rfl, hrest⟩ := hd.unique hd' hc hc' htail
    -- what follows the first number tells the three kinds apart
    rcases hk with ⟨rfl, rfl, rfl⟩ | ⟨rfl, rfl, rfl⟩ | ⟨hi, e, rfl, rfl, he, rfl⟩
    · rcases hk' with ⟨rfl, -, rfl⟩ | ⟨-, hclash, -⟩ | ⟨_, _, -, hclash, -⟩
      · exact ⟨rfl, rfl⟩
      · cases hclash
      · cases hclash
    · rcases hk' with ⟨-, hclash, -⟩ | ⟨rfl, -, rfl⟩ | ⟨hi', e', rfl, -, he', rfl⟩
      · cases hclash
      · exact ⟨rfl, rfl⟩
      · exact absurd (by simpa using hrest) (he'.not_brace (s := s) (t := '}' :: t))
    · rcases hk' with ⟨-, hclash, -⟩ | ⟨rfl, -, rfl⟩ | ⟨hi', e', rfl, -, he', rfl⟩
      · cases hclash
      · exact absurd (by simpa using hrest.symm) (he.not_brace (s := t) (t := '}' :: s))
      · have hlast : e ++ '}' :: s = e' ++ '}' :: t := by simpa using hrest
        obtain ⟨rfl, rfl, -, -⟩ := he.unique he' (by decide) (by decide) hlast
        exact ⟨rfl, rfl⟩
  · cases k <;> cases k' <;> simp_all [Count.mark, Count.Spells]

/-- What a tree's text may begin with, but for a leaf's. -/
def isMark (c : Char) : Bool := ['(', ')', '|', '*', '+', '?', '{'].contains c

/-- No leaf's text begins with a mark, nor another's. -/
structure Unambiguous (d : Leaf → List Char → Prop) : Prop where
  head : ∀ {x u}, d x u → ∃ c v, u = c :: v ∧ isMark c = false
  unique : ∀ {x y u v s t}, d x u → d y v → u ++ s = v ++ t → x = y ∧ u = v

/-- What follows a suffix begins none. -/
def AfterSuffix (t : List Char) : Prop := ∀ c ∈ t.head?, ['*', '+', '?', '{'].contains c = false

/-- What follows a sequence. -/
def AfterSequence (t : List Char) : Prop := ∀ c ∈ t.head?, c = '|' ∨ c = ')'

def AfterAlternation (t : List Char) : Prop := ∀ c ∈ t.head?, c = ')'

theorem AfterAlternation.afterSequence {t : List Char} (h : AfterAlternation t) :
    AfterSequence t := fun c hc => .inr (h c hc)

theorem AfterSequence.afterSuffix {t : List Char} (h : AfterSequence t) : AfterSuffix t := by
  intro c hc
  rcases h c hc with rfl | rfl <;> decide

theorem SuffixSpells.unique {r r' : Option Repeat} {u v s t : List Char} (hu : SuffixSpells r u)
    (hv : SuffixSpells r' v) (hs : AfterSuffix s) (ht : AfterSuffix t) (h : u ++ s = v ++ t) :
    r = r' ∧ u = v := by
  have hcount : ∀ {k : Count} {w}, k.Spells w → ∀ {l q}, ¬AfterSuffix (w ++ l ++ q) := by
    intro k w hk l q hafter
    obtain ⟨w', rfl⟩ := Count.head hk
    have hmark := hafter k.mark (by simp)
    cases k <;> simp [Count.mark] at hmark
  cases r with
  | none =>
    cases hu
    cases r' with
    | none => exact ⟨rfl, hv.symm⟩
    | some r' =>
      obtain ⟨w, hw, rfl⟩ := hv
      rw [List.nil_append] at h
      rw [h] at hs
      exact absurd hs (hcount hw)
  | some r =>
    obtain ⟨w, hw, rfl⟩ := hu
    cases r' with
    | none =>
      cases hv
      rw [List.nil_append] at h
      rw [← h] at ht
      exact absurd ht (hcount hw)
    | some r' =>
      obtain ⟨w', hw', rfl⟩ := hv
      obtain ⟨k, l⟩ := r
      obtain ⟨k', l'⟩ := r'
      rw [List.append_assoc, List.append_assoc] at h
      obtain ⟨rfl, rfl⟩ := Count.unique hw hw' h
      have hrest := List.append_cancel_left h
      -- a lazy mark is no beginning of what follows
      have hmark : ∀ q, ¬AfterSuffix ('?' :: q) := fun q hq => by simpa using hq '?' (by simp)
      cases l <;> cases l' <;> simp [lazyMark] at hrest
      · exact ⟨rfl, rfl⟩
      · rw [hrest] at hs
        exact absurd hs (hmark t)
      · rw [← hrest] at ht
        exact absurd ht (hmark s)
      · exact ⟨rfl, rfl⟩

section Unique

variable {d : Leaf → List Char → Prop}

variable {u : List Char}

/-- A tree's text is empty, or begins as a leaf's does, or a group's or an alternative's. -/
theorem Sequence.head (hd : Unambiguous d) {s : Sequence} (h : s.Spells d u) :
    u = [] ∨ ∃ c v, u = c :: v ∧ (c = '(' ∨ isMark c = false) := by
  cases s with
  | nil => exact .inl h
  | leaf x r rest =>
    obtain ⟨u, v, t, hx, -, -, -, rfl⟩ := h
    obtain ⟨c, u', rfl, hc⟩ := hd.head hx
    exact .inr ⟨c, _, rfl, .inr hc⟩
  | group capturing body r rest =>
    obtain ⟨u, v, t, -, -, -, rfl⟩ := h
    exact .inr ⟨'(', _, rfl, .inl rfl⟩

theorem Alternation.head (hd : Unambiguous d) {a : Alternation}
    (h : a.Spells d u) : u = [] ∨ ∃ c v, u = c :: v ∧ (c = '(' ∨ c = '|' ∨ isMark c = false) := by
  cases a with
  | last s => exact (Sequence.head hd h).imp_right fun ⟨c, v, hu, hc⟩ => ⟨c, v, hu, by tauto⟩
  | or s rest =>
    obtain ⟨u, v, hu, -, rfl⟩ := h
    rcases Sequence.head hd hu with rfl | ⟨c, w, rfl, hc⟩
    · exact .inr ⟨'|', _, rfl, by simp⟩
    · exact .inr ⟨c, _, rfl, by tauto⟩

theorem Sequence.nil_of_spells (hd : Unambiguous d) {s : Sequence} (h : s.Spells d []) :
    s = .nil := by
  cases s with
  | nil => rfl
  | leaf x r rest =>
    obtain ⟨u, v, t, hx, -, -, -, hnil⟩ := h
    obtain ⟨c, u', rfl, -⟩ := hd.head hx
    cases hnil
  | group capturing body r rest =>
    obtain ⟨u, v, t, -, -, -, hnil⟩ := h
    cases hnil

/-- What follows a leaf or a group in a sequence begins no suffix. -/
theorem Sequence.afterSuffix (hd : Unambiguous d) {s : Sequence} {t : List Char}
    (h : s.Spells d u) (ht : AfterSequence t) : AfterSuffix (u ++ t) := by
  rcases Sequence.head hd h with rfl | ⟨c, v, rfl, hc⟩
  · exact ht.afterSuffix
  · intro c' hc'
    obtain rfl : c = c' := by simpa using hc'
    rcases hc with rfl | hc
    · decide
    · simp [isMark] at hc
      simp [hc]

/-- A group's mark is told from its body's beginning. -/
theorem groupMark_unique (hd : Unambiguous d) {b b' : Bool} {a a' : Alternation}
    {v s t : List Char} (hu : a.Spells d u) (hv : a'.Spells d v)
    (h : groupMark b ++ (u ++ ')' :: s) = groupMark b' ++ (v ++ ')' :: t)) : b = b' := by
  have hno : ∀ {a : Alternation} {u s q}, a.Spells d u → u ++ ')' :: s ≠ '?' :: q := by
    intro a u s q hu heq
    rcases Alternation.head hd hu with rfl | ⟨c, w, rfl, hc⟩
    · simp at heq
    · obtain ⟨rfl, -⟩ := List.cons_eq_cons.mp heq
      rcases hc with h | h | h
      · cases h
      · cases h
      · exact absurd h (by decide)
  cases b <;> cases b' <;> simp only [groupMark] at h
  · rfl
  · exact absurd h.symm (hno hv)
  · exact absurd h (hno hu)
  · rfl

/-- No sequence but the empty one begins as what follows a sequence. -/
theorem Sequence.eq_nil (hd : Unambiguous d) {b : Sequence} {s v t : List Char}
    (hv : b.Spells d v) (hs : AfterSequence s) (h : s = v ++ t) : v = [] := by
  rcases Sequence.head hd hv with rfl | ⟨c, w, rfl, hc⟩
  · rfl
  · rw [h] at hs
    rcases hs c (by simp) with rfl | rfl
    · rcases hc with hc | hc
      · cases hc
      · exact absurd hc (by decide)
    · rcases hc with hc | hc
      · cases hc
      · exact absurd hc (by decide)

mutual

theorem Sequence.spells_unique (hd : Unambiguous d) (a b : Sequence) {u v s t : List Char}
    (hu : a.Spells d u) (hv : b.Spells d v) (hs : AfterSequence s) (ht : AfterSequence t)
    (h : u ++ s = v ++ t) : a = b ∧ u = v := by
  match a, b with
  | .nil, b =>
    cases hu
    obtain rfl := Sequence.eq_nil hd hv hs h
    exact ⟨(Sequence.nil_of_spells hd hv).symm, rfl⟩
  | .leaf x r a, .nil =>
    cases hv
    obtain rfl := Sequence.eq_nil hd hu ht h.symm
    exact ⟨Sequence.nil_of_spells hd hu, rfl⟩
  | .group c body r a, .nil =>
    cases hv
    obtain rfl := Sequence.eq_nil hd hu ht h.symm
    exact ⟨Sequence.nil_of_spells hd hu, rfl⟩
  | .leaf x r a, .leaf y r' b =>
    obtain ⟨u₁, u₂, u₃, hx, -, hr, ha, rfl⟩ := hu
    obtain ⟨v₁, v₂, v₃, hy, -, hr', hb, rfl⟩ := hv
    obtain ⟨rfl, rfl⟩ := hd.unique hx hy (by simpa only [List.append_assoc] using h)
    have hafter := List.append_cancel_left (by simpa only [List.append_assoc] using h)
    obtain ⟨rfl, rfl⟩ := hr.unique hr' (Sequence.afterSuffix hd ha hs)
      (Sequence.afterSuffix hd hb ht) hafter
    obtain ⟨rfl, rfl⟩ := Sequence.spells_unique hd a b ha hb hs ht (List.append_cancel_left hafter)
    exact ⟨rfl, rfl⟩
  | .leaf x r a, .group c body r' b =>
    obtain ⟨u₁, u₂, u₃, hx, -, hr, ha, rfl⟩ := hu
    obtain ⟨v₁, v₂, v₃, -, -, -, rfl⟩ := hv
    -- no leaf begins like a group
    obtain ⟨c', w, rfl, hmark⟩ := hd.head hx
    obtain ⟨rfl, -⟩ := List.cons_eq_cons.mp h
    exact absurd hmark (by decide)
  | .group c body r a, .leaf y r' b =>
    obtain ⟨u₁, u₂, u₃, -, -, -, rfl⟩ := hu
    obtain ⟨v₁, v₂, v₃, hy, -, hr, hb, rfl⟩ := hv
    obtain ⟨c', w, rfl, hmark⟩ := hd.head hy
    obtain ⟨rfl, -⟩ := List.cons_eq_cons.mp h
    exact absurd hmark (by decide)
  | .group c body r a, .group c' body' r' b =>
    obtain ⟨u₁, u₂, u₃, hbody, hr, ha, rfl⟩ := hu
    obtain ⟨v₁, v₂, v₃, hbody', hr', hb, rfl⟩ := hv
    simp only [List.append_assoc, List.cons_append] at h
    have hopen := (List.cons_eq_cons.mp h).2
    obtain rfl := groupMark_unique hd hbody hbody' hopen
    -- each body ends where its group does, so the bodies agree before the rest does
    have hclosed : AfterAlternation (')' :: (u₂ ++ (u₃ ++ s))) := by simp [AfterAlternation]
    have hclosed' : AfterAlternation (')' :: (v₂ ++ (v₃ ++ t))) := by simp [AfterAlternation]
    have hinside := List.append_cancel_left hopen
    obtain ⟨rfl, rfl⟩ :=
      Alternation.spells_unique hd body body' hbody hbody' hclosed hclosed' hinside
    have hafter := (List.cons_eq_cons.mp (List.append_cancel_left hinside)).2
    obtain ⟨rfl, rfl⟩ := hr.unique hr' (Sequence.afterSuffix hd ha hs)
      (Sequence.afterSuffix hd hb ht) hafter
    obtain ⟨rfl, rfl⟩ := Sequence.spells_unique hd a b ha hb hs ht (List.append_cancel_left hafter)
    exact ⟨rfl, rfl⟩

theorem Alternation.spells_unique (hd : Unambiguous d) (a b : Alternation) {u v s t : List Char}
    (hu : a.Spells d u) (hv : b.Spells d v) (hs : AfterAlternation s) (ht : AfterAlternation t)
    (h : u ++ s = v ++ t) : a = b ∧ u = v := by
  have hbar : ∀ q, AfterSequence ('|' :: q) := fun q => by simp [AfterSequence]
  match a, b with
  | .last a, .last b =>
    obtain ⟨rfl, rfl⟩ := Sequence.spells_unique hd a b hu hv hs.afterSequence ht.afterSequence h
    exact ⟨rfl, rfl⟩
  | .last a, .or b rest' =>
    obtain ⟨v₁, v₂, hb, hrest, rfl⟩ := hv
    rw [List.append_assoc, List.cons_append] at h
    obtain ⟨rfl, rfl⟩ := Sequence.spells_unique hd a b hu hb hs.afterSequence (hbar _) h
    have hclash := List.append_cancel_left h
    rw [hclash] at hs
    exact absurd (hs '|' (by simp)) (by decide)
  | .or a rest, .last b =>
    obtain ⟨u₁, u₂, ha, hrest, rfl⟩ := hu
    rw [List.append_assoc, List.cons_append] at h
    obtain ⟨rfl, rfl⟩ := Sequence.spells_unique hd a b ha hv (hbar _) ht.afterSequence h
    have hclash := List.append_cancel_left h
    rw [← hclash] at ht
    exact absurd (ht '|' (by simp)) (by decide)
  | .or a rest, .or b rest' =>
    obtain ⟨u₁, u₂, ha, hrest, rfl⟩ := hu
    obtain ⟨v₁, v₂, hb, hrest', rfl⟩ := hv
    simp only [List.append_assoc, List.cons_append] at h
    obtain ⟨rfl, rfl⟩ := Sequence.spells_unique hd a b ha hb (hbar _) (hbar _) h
    have hafter := (List.cons_eq_cons.mp (List.append_cancel_left h)).2
    obtain ⟨rfl, rfl⟩ := Alternation.spells_unique hd rest rest' hrest hrest' hs ht hafter
    exact ⟨rfl, rfl⟩

end

/-- A text spells one alternation at most. -/
theorem Alternation.unique_of_spells (hd : Unambiguous d) {a b : Alternation}
    (ha : a.Spells d u) (hb : b.Spells d u) : a = b :=
  (Alternation.spells_unique hd a b ha hb (s := []) (t := []) (by simp [AfterAlternation])
    (by simp [AfterAlternation]) rfl).1

end Unique

end Regex
