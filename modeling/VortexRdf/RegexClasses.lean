/-
Character classes, and the texts that spell them.

A class lists its items up to its closing bracket.  A `-` after a character opens a range, unless
the bracket follows it; how a dialect spells a character, a range's end and a shorthand is a
parameter.

* `ItemSpells`, `ItemsSpell`, `ClassSpells` — a text spells an item, a class's items with the
  closing bracket, and a class;
* `itemSpells_unique` — an item's text, with what follows it, tells the item;
* `classSpells_unique` — where a dialect's characters are told apart, so are its classes.
-/
import VortexRdf.RegexTrees

namespace Regex

/-- How a dialect spells what stands in a class: a character, before what follows it; the end of a
range; and the letters of its shorthands. -/
structure ClassDialect where
  char : Char → List Char → List Char → Prop
  last : Char → List Char → Prop
  letter : Char → Prop

/-- A `-` that opens a range. -/
def StartsRange (w : List Char) : Prop := ∃ c v, w = '-' :: c :: v ∧ c ≠ ']'

/-- An item's text, before what follows it. -/
def ItemSpells (k : ClassDialect) : Item → List Char → List Char → Prop
  | .char c, u, rest => k.char c u rest ∧ ¬StartsRange rest
  | .range lo hi, u, rest => ∃ a v, k.char lo a ('-' :: (v ++ rest)) ∧ k.last hi v ∧ lo ≤ hi ∧
      u = a ++ '-' :: v
  | .shorthand letter, u, rest => k.letter letter ∧ ¬StartsRange rest ∧ u = ['\\', letter]

def ItemsSpell (k : ClassDialect) : List Item → List Char → Prop
  | [], w => w = [']']
  | item :: items, w => ∃ u v, ItemSpells k item u v ∧ ItemsSpell k items v ∧ w = u ++ v

def negation (negated : Bool) : List Char := if negated then ['^'] else []

/-- A class has an item, and does not begin with its closing bracket. -/
def ClassSpells (k : ClassDialect) (negated : Bool) (items : List Item) (w : List Char) : Prop :=
  items ≠ [] ∧ ∃ v, ItemsSpell k items v ∧ (negated = false → v.head? ≠ some '^') ∧
    w = '[' :: (negation negated ++ v)

structure ClassDialect.Unambiguous (k : ClassDialect) : Prop where
  char_head : ∀ {c u r}, k.char c u r → ∃ b v, u = b :: v ∧ b ≠ ']'
  last_head : ∀ {c u}, k.last c u → ∃ b v, u = b :: v ∧ b ≠ ']'
  char_unique : ∀ {c c' u u' r r' s t}, k.char c u r → k.char c' u' r' → u ++ s = u' ++ t →
    c = c' ∧ u = u'
  last_unique : ∀ {c c' u u' s t}, k.last c u → k.last c' u' → u ++ s = u' ++ t → c = c' ∧ u = u'
  char_letter : ∀ {l c u r s t}, k.letter l → k.char c u r → u ++ s ≠ '\\' :: l :: t

section Unique

variable {k : ClassDialect}

variable {items : List Item}

/-- The items' text ends with the closing bracket. -/
theorem itemsSpell_end {v : List Char} (h : ItemsSpell k items v) :
    ∃ w, v = w ++ [']'] := by
  induction items generalizing v with
  | nil => exact ⟨[], h⟩
  | cons item items ih =>
    obtain ⟨u, v, -, hv, rfl⟩ := h
    obtain ⟨w, rfl⟩ := ih hv
    exact ⟨u ++ w, by simp⟩

/-- What follows a class does not tell whether a range is opened within it. -/
theorem startsRange_append {v : List Char} (h : ItemsSpell k items v)
    (s : List Char) : StartsRange (v ++ s) ↔ StartsRange v := by
  obtain ⟨w, rfl⟩ := itemsSpell_end h
  cases w with
  | nil => simp [StartsRange]
  | cons b w =>
    cases w with
    | nil => simp [StartsRange]
    | cons b' w => simp [StartsRange]

theorem startsRange_dash (hk : k.Unambiguous) {hi : Char} {v : List Char} (h : k.last hi v)
    (x : List Char) : StartsRange ('-' :: (v ++ x)) := by
  obtain ⟨b, v', rfl, hb⟩ := hk.last_head h
  exact ⟨b, v' ++ x, rfl, hb⟩

theorem itemSpells_head (hk : k.Unambiguous) {item : Item} {u rest : List Char}
    (h : ItemSpells k item u rest) : ∃ b w, u = b :: w ∧ b ≠ ']' := by
  cases item with
  | char c => exact hk.char_head h.1
  | range lo hi =>
    obtain ⟨a, v, hc, -, -, rfl⟩ := h
    obtain ⟨b, w, rfl, hb⟩ := hk.char_head hc
    exact ⟨b, _, rfl, hb⟩
  | shorthand letter =>
    obtain ⟨-, -, rfl⟩ := h
    exact ⟨'\\', _, rfl, by decide⟩

/-- A character or a range begins with a character. -/
theorem itemSpells_char {item : Item} {u rest : List Char} (h : ItemSpells k item u rest)
    (hletter : ∀ l, item ≠ .shorthand l) :
    ∃ c a r w, k.char c a r ∧ u = a ++ w ∧ ((item = .char c ∧ w = [] ∧ ¬StartsRange rest) ∨
      ∃ hi v, item = .range c hi ∧ w = '-' :: v ∧ k.last hi v) := by
  cases item with
  | char c => exact ⟨c, u, rest, [], h.1, by simp, .inl ⟨rfl, rfl, h.2⟩⟩
  | range lo hi =>
    obtain ⟨a, v, hc, hv, -, rfl⟩ := h
    exact ⟨lo, a, _, '-' :: v, hc, rfl, .inr ⟨hi, v, rfl, rfl, hv⟩⟩
  | shorthand letter => exact absurd rfl (hletter letter)

variable {s t : List Char}

theorem itemSpells_not_letter (hk : k.Unambiguous) {item : Item} {u rest : List Char}
    {l : Char} (h : ItemSpells k item u rest) (hletter : ∀ l, item ≠ .shorthand l)
    (hl : k.letter l) : u ++ s ≠ '\\' :: l :: t := by
  obtain ⟨c, a, r, w, hc, rfl, -⟩ := itemSpells_char h hletter
  rw [List.append_assoc]
  exact hk.char_letter hl hc

/-- Two items are told apart by their text, with the dash that follows a character. -/
theorem itemSpells_unique (hk : k.Unambiguous) {item item' : Item} {u u' v v' : List Char}
    (hu : ItemSpells k item u v) (hu' : ItemSpells k item' u' v')
    (hs : StartsRange (v ++ s) ↔ StartsRange v) (ht : StartsRange (v' ++ t) ↔ StartsRange v')
    (h : u ++ (v ++ s) = u' ++ (v' ++ t)) : item = item' ∧ u = u' := by
  by_cases hletter : ∃ l, item = .shorthand l
  · obtain ⟨l, rfl⟩ := hletter
    obtain ⟨hl, -, rfl⟩ := hu
    by_cases hletter' : ∃ l, item' = .shorthand l
    · obtain ⟨l', rfl⟩ := hletter'
      obtain ⟨-, -, rfl⟩ := hu'
      simp only [List.cons_append, List.cons_eq_cons, true_and] at h
      exact ⟨congrArg _ h.1, by rw [h.1]⟩
    · push Not at hletter'
      exact absurd h.symm (itemSpells_not_letter hk hu' hletter' hl)
  · push Not at hletter
    by_cases hletter' : ∃ l, item' = .shorthand l
    · obtain ⟨l', rfl⟩ := hletter'
      obtain ⟨hl, -, rfl⟩ := hu'
      exact absurd h (itemSpells_not_letter hk hu hletter hl)
    · push Not at hletter'
      obtain ⟨c, a, r, w, hc, rfl, hw⟩ := itemSpells_char hu hletter
      obtain ⟨c', a', r', w', hc', rfl, hw'⟩ := itemSpells_char hu' hletter'
      rw [List.append_assoc, List.append_assoc] at h
      obtain ⟨rfl, rfl⟩ := hk.char_unique hc hc' h
      have hrest := List.append_cancel_left h
      rcases hw with ⟨rfl, rfl, hdash⟩ | ⟨hi, x, rfl, rfl, hx⟩
      · rcases hw' with ⟨rfl, rfl, -⟩ | ⟨hi', x', rfl, rfl, hx'⟩
        · exact ⟨rfl, rfl⟩
        · -- the dash would open a range after the character too
          rw [List.nil_append] at hrest
          exact absurd (hs.mp (hrest ▸ startsRange_dash hk hx' _)) hdash
      · rcases hw' with ⟨rfl, rfl, hdash⟩ | ⟨hi', x', rfl, rfl, hx'⟩
        · rw [List.nil_append] at hrest
          exact absurd (ht.mp (hrest ▸ startsRange_dash hk hx _)) hdash
        · obtain ⟨rfl, rfl⟩ := hk.last_unique hx hx' (List.cons_eq_cons.mp hrest).2
          exact ⟨rfl, rfl⟩

theorem not_bracket (hk : k.Unambiguous) {item : Item} {v : List Char}
    (h : ItemsSpell k (item :: items) v) : [']'] ++ s ≠ v ++ t := by
  obtain ⟨u, v, hu, -, rfl⟩ := h
  obtain ⟨b, w, rfl, hb⟩ := itemSpells_head hk hu
  intro heq
  exact hb (List.cons_eq_cons.mp heq).1.symm

theorem itemsSpell_unique (hk : k.Unambiguous) {items' : List Item} {v v' : List Char}
    (hv : ItemsSpell k items v) (hv' : ItemsSpell k items' v') (h : v ++ s = v' ++ t) :
    items = items' ∧ v = v' := by
  induction items generalizing items' v v' with
  | nil =>
    cases hv
    cases items' with
    | nil => exact ⟨rfl, hv'.symm⟩
    | cons item' items' => exact absurd h (not_bracket hk hv')
  | cons item items ih =>
    cases items' with
    | nil =>
      cases hv'
      exact absurd h.symm (not_bracket hk hv)
    | cons item' items' =>
      obtain ⟨u, w, hu, hw, rfl⟩ := hv
      obtain ⟨u', w', hu', hw', rfl⟩ := hv'
      rw [List.append_assoc, List.append_assoc] at h
      obtain ⟨rfl, rfl⟩ := itemSpells_unique hk hu hu' (startsRange_append hw s)
        (startsRange_append hw' t) h
      obtain ⟨rfl, rfl⟩ := ih hw hw' (List.append_cancel_left h)
      exact ⟨rfl, rfl⟩

theorem classSpells_unique (hk : k.Unambiguous) {negated negated' : Bool}
    {items' : List Item} {w w' : List Char} (hw : ClassSpells k negated items w)
    (hw' : ClassSpells k negated' items' w') (h : w ++ s = w' ++ t) :
    negated = negated' ∧ items = items' ∧ w = w' := by
  obtain ⟨-, v, hv, hhead, rfl⟩ := hw
  obtain ⟨-, v', hv', hhead', rfl⟩ := hw'
  simp only [List.cons_append, List.cons_eq_cons, true_and, List.append_assoc] at h
  obtain ⟨x, rfl⟩ := itemsSpell_end hv
  obtain ⟨x', rfl⟩ := itemsSpell_end hv'
  have hnegated : negated = negated' := by
    cases negated <;> cases negated' <;> simp only [negation] at h
    · rfl
    · cases x with
      | nil => simp at h
      | cons b x =>
        simp at h hhead
        exact absurd h.1 hhead
    · cases x' with
      | nil => simp at h
      | cons b x' =>
        simp at h hhead'
        exact absurd h.1.symm hhead'
    · rfl
  subst hnegated
  obtain ⟨rfl, hx⟩ := itemsSpell_unique hk hv hv' (List.append_cancel_left h)
  exact ⟨rfl, rfl, by rw [hx]⟩

end Unique

end Regex
