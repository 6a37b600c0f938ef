/-
The leaves a translator reads, and what it writes for them.

* `Translator.marked`, `passed` — a translator after some text is read, with what was seen of it;
* `item_ends`, `classLoop_ends`, `cls_ends` — what the steps of a class read;
* `item_reads`, `classLoop_reads`, `cls_reads` — the texts they read;
* `simpleAtom_ends`, `simpleAtom_reads` — a leaf's.
-/
import VortexRdf.RegexQuantifiers

namespace RegexFilter

open Regex Translator

namespace Translator

/-! ### Classes -/

/-- The translator with `rest` left and `text` written, and what was seen marked. -/
def marked (t : Translator) (rest text : List Char) (unicode dollar nonBoundary : Bool) :
    Translator where
  chars := rest
  out := t.out ++ text
  unicodeSensitive := t.unicodeSensitive || unicode
  hasDollar := t.hasDollar || dollar
  hasNonBoundary := t.hasNonBoundary || nonBoundary
  depth := t.depth

@[simp] theorem marked_chars (t : Translator) (rest text : List Char) (u d n : Bool) :
    (t.marked rest text u d n).chars = rest := rfl

@[simp] theorem marked_depth (t : Translator) (rest text : List Char) (u d n : Bool) :
    (t.marked rest text u d n).depth = t.depth := rfl

theorem marked_marked (t : Translator) (rest rest' text text' : List Char)
    (u d n u' d' n' : Bool) :
    (t.marked rest text u d n).marked rest' text' u' d' n' =
      t.marked rest' (text ++ text') (u || u') (d || d') (n || n') := by
  simp [marked, Bool.or_assoc]

theorem wrote_eq_marked (t : Translator) (rest text : List Char) :
    t.wrote rest text = t.marked rest text false false false := by
  simp [wrote, marked]

def isShorthand : Item → Bool
  | .shorthand _ => true
  | _ => false

theorem shorthand_eq {e : Char} (he : e ∈ SHORTHAND_LETTERS) :
    shorthand e = some ((shorthand e).getD []) := by
  have hsome : ∀ e ∈ SHORTHAND_LETTERS, (shorthand e).isSome = true :=
    List.all_iff_forall_prop.mp (by decide)
  obtain ⟨text, htext⟩ := Option.isSome_iff_exists.mp (hsome e he)
  rw [htext, Option.getD_some]

theorem shorthand_mem {e : Char} {text : List Char} (h : shorthand e = some text) :
    e ∈ SHORTHAND_LETTERS ∧ text = (shorthand e).getD [] := by
  refine ⟨?_, by rw [h, Option.getD_some]⟩
  have hsome : (SHORTHANDS.lookup e).isSome = true := by
    rw [← Option.isSome_map (f := String.toList), ← shorthand, h, Option.isSome_some]
  rw [List.lookup_isSome_iff] at hsome
  obtain ⟨p, hp, he⟩ := hsome
  have hall : ∀ p ∈ SHORTHANDS, p.1 ∈ SHORTHAND_LETTERS := List.all_iff_forall_prop.mp (by decide)
  exact eq_of_beq he ▸ hall p hp

theorem shorthand_none {e : Char} (h : shorthand e = none) : e ∉ SHORTHAND_LETTERS := by
  intro he
  rw [shorthand_eq he] at h
  cases h

theorem dashStartsRange_iff (w : List Char) : dashStartsRange w = true ↔ StartsRange w := by
  unfold dashStartsRange StartsRange
  split
  · rename_i c v
    simp
  · rename_i h
    constructor
    · intro hfalse
      cases hfalse
    · rintro ⟨c, v, rfl, -⟩
      exact absurd rfl (h c v)

/-- The item a class escape opens. -/
def escapeItem (e : Char) : ClassItem :=
  if e ∈ SHORTHAND_LETTERS then .shorthand ((shorthand e).getD []) else .char e

theorem classEscape_ends (t : Translator) :
    Ends (fun p : ClassItem × Translator => ∃ e, t.chars = e :: p.2.chars ∧
      (e ∈ SHORTHAND_LETTERS ∨ e ∈ ESCAPABLE) ∧ p.1 = escapeItem e ∧
      p.2 = t.marked p.2.chars [] (decide (e ∈ SHORTHAND_LETTERS)) false false)
      (classEscape t) := by
  unfold classEscape
  split
  · simp
  · rename_i e rest hchars
    split
    · rename_i text htext
      obtain ⟨he, rfl⟩ := shorthand_mem htext
      exact ⟨e, hchars, .inl he, by simp [escapeItem, he], by simp [marked, he]⟩
    · rename_i hnone
      have he := shorthand_none hnone
      split
      · rename_i hescapable
        exact ⟨e, hchars, .inr hescapable, by simp [escapeItem, he], by simp [marked, he]⟩
      · simp

theorem classEscape_reads {e : Char} (he : e ∈ SHORTHAND_LETTERS ∨ e ∈ ESCAPABLE) {t : Translator}
    {rest : List Char} (hchars : t.chars = e :: rest) :
    classEscape t = .ok (escapeItem e,
      t.marked rest [] (decide (e ∈ SHORTHAND_LETTERS)) false false) := by
  by_cases hletter : e ∈ SHORTHAND_LETTERS
  · have hsome := shorthand_eq hletter
    simp only [classEscape, hchars]
    rw [hsome]
    simp [escapeItem, hletter, marked]
  · have hnone : shorthand e = none := by
      cases htext : shorthand e with
      | none => rfl
      | some text => exact absurd (shorthand_mem htext).1 hletter
    have hescapable := he.resolve_left hletter
    simp [classEscape, hchars, escapeItem, hletter, marked, hnone, hescapable]

theorem rangeEnd_ends (t : Translator) :
    Ends (fun p : Char × Translator => ∃ v, t.chars = v ++ p.2.chars ∧ pythonClass.last p.1 v ∧
      p.2 = t.marked p.2.chars [] false false false) (rangeEnd t) := by
  unfold rangeEnd
  split
  · simp
  · rename_i c rest hchars
    split
    · rename_i hc
      refine (classEscape_ends _).bind ?_
      rintro ⟨item, t₁⟩ ⟨e, hrest, he, hitem, ht₁⟩
      simp only at hrest hitem ht₁ ⊢
      by_cases hletter : e ∈ SHORTHAND_LETTERS
      · obtain rfl : item = .shorthand ((shorthand e).getD []) := by
          rw [hitem, escapeItem, if_pos hletter]
        simp
      · obtain rfl : item = .char e := by rw [hitem, escapeItem, if_neg hletter]
        refine ⟨['\\', e], ?_, .inr ⟨rfl, he.resolve_left hletter⟩, ?_⟩
        · rw [hchars, hc, hrest]
          rfl
        · simpa [marked, hletter] using ht₁
    · rename_i hc
      split
      · simp
      · rename_i hno
        push Not at hno
        exact ⟨[c], hchars, .inl ⟨rfl, by simp [hc, hno]⟩, by simp [marked]⟩

theorem rangeEnd_reads {c : Char} {v rest : List Char} (hv : pythonClass.last c v)
    {t : Translator} (hchars : t.chars = v ++ rest) :
    rangeEnd t = .ok (c, t.marked rest [] false false false) := by
  unfold rangeEnd
  rw [hchars]
  rcases hv with ⟨rfl, hc⟩ | ⟨rfl, hc⟩
  · simp at hc
    simp [hc, marked]
  · have hletter : c ∉ SHORTHAND_LETTERS := fun h => letter_notMem h hc
    have hescape := classEscape_reads (.inr hc) (t := { t with chars := c :: rest }) rfl
    simp only [List.cons_append, List.nil_append, if_pos]
    rw [hescape]
    simp [escapeItem, hletter, marked, bind, Except.bind]

/-- After a character, a dash may open a range. -/
theorem classItem_char_ends {lo : Char} {a : List Char} (t : Translator)
    (ha : pythonClass.char lo a t.chars) :
    Ends (fun t' => ∃ item u, a ++ t.chars = u ++ t'.chars ∧
      ItemSpells pythonClass item u t'.chars ∧ isShorthand item = false ∧
      t' = t.marked t'.chars (writeItem item) false false false)
      (t.classItem (.char lo)) := by
  unfold classItem
  simp only
  split
  · rename_i hdash
    obtain ⟨c, v, hchars, -⟩ := (dashStartsRange_iff _).mp hdash
    refine (rangeEnd_ends _).bind ?_
    rintro ⟨hi, t₁⟩ ⟨w, hrest, hlast, ht₁⟩
    simp only [hchars, List.tail_cons] at hrest ht₁ ⊢
    split
    · simp
    · rename_i hle
      refine ⟨.range lo hi, a ++ '-' :: w, ?_, ⟨a, w, ?_, hlast, Char.not_lt.mp hle, rfl⟩, rfl, ?_⟩
      · simp [wrote, hrest]
      · rw [hchars, hrest] at ha
        simpa [wrote] using ha
      · rw [ht₁]
        simp [wrote, marked, writeItem]
  · rename_i hdash
    have hno : ¬StartsRange t.chars := fun h => hdash ((dashStartsRange_iff _).mpr h)
    exact ⟨.char lo, a, rfl, ⟨ha, hno⟩, rfl, wrote_eq_marked _ _ _⟩

theorem classItem_shorthand_ends (text : List Char) (t : Translator) :
    Ends (fun t' => ¬StartsRange t'.chars ∧ t' = t.wrote t.chars text)
      (t.classItem (.shorthand text)) := by
  unfold classItem
  simp only
  split
  · simp
  · rename_i hdash
    exact ⟨fun h => hdash ((dashStartsRange_iff _).mpr h), rfl⟩

/-- An item, which `c` opens, is read and written. -/
theorem item_ends {c : Char} {rest : List Char} {t : Translator} (hchars : t.chars = c :: rest)
    (hc : c ≠ '[' ∧ c ≠ ']') (hset : ¬(c ∈ SET_OPERATORS ∧ rest.head? = some c)) :
    Ends (fun t' => ∃ item u, t.chars = u ++ t'.chars ∧ ItemSpells pythonClass item u t'.chars ∧
      t' = t.marked t'.chars (writeItem item) (isShorthand item) false false)
      (readItem c { t with chars := rest }) := by
  unfold readItem classOpen
  split
  · rename_i hescape
    refine (classEscape_ends _).bind ?_
    rintro ⟨item, t₁⟩ ⟨e, hrest, he, hitem, ht₁⟩
    simp only at hrest hitem ht₁ ⊢
    rw [hchars, hescape, hrest]
    by_cases hletter : e ∈ SHORTHAND_LETTERS
    · rw [hitem, escapeItem, if_pos hletter]
      refine (classItem_shorthand_ends _ _).imp ?_
      rintro t' ⟨hdash, rfl⟩
      refine ⟨.shorthand e, ['\\', e], rfl, ⟨hletter, hdash, rfl⟩, ?_⟩
      rw [ht₁]
      simp [wrote, marked, hletter, writeItem, isShorthand]
    · rw [hitem, escapeItem, if_neg hletter]
      have ha : pythonClass.char e ['\\', e] t₁.chars := .inr ⟨rfl, he.resolve_left hletter⟩
      refine (classItem_char_ends t₁ ha).imp ?_
      rintro t' ⟨item', u, hu, hspells, hplain, ht'⟩
      refine ⟨item', u, hu, hspells, ?_⟩
      rw [ht', ht₁, hplain]
      simp [marked, hletter]
  · rename_i hescape
    have ha : pythonClass.char c [c] rest := .inl ⟨rfl, by simp [hc, hescape], hset⟩
    refine (classItem_char_ends { t with chars := rest } ha).imp ?_
    rintro t' ⟨item', u, hu, hspells, hplain, ht'⟩
    refine ⟨item', u, hchars.trans hu, hspells, ?_⟩
    rw [ht', hplain]
    simp [marked]

/-- What follows a class does not change what its items spell. -/
theorem pythonItem_append {item : Item} {items : List Item} {u v : List Char}
    (hv : ItemsSpell pythonClass items v) (s : List Char) :
    ItemSpells pythonClass item u (v ++ s) ↔ ItemSpells pythonClass item u v := by
  have hhead : (v ++ s).head? = v.head? := by
    obtain ⟨w, rfl⟩ := itemsSpell_end hv
    cases w <;> rfl
  cases item with
  | char c => simp only [ItemSpells, startsRange_append hv, pythonClass, hhead]
  | range lo hi => simp only [ItemSpells, pythonClass, List.head?_cons]
  | shorthand l => simp only [ItemSpells, startsRange_append hv]

/-- The text read from `t` up to `t'` spells items with the closing bracket, one at least unless
some were read before. -/
def ReadsItems (n : ℕ) (t t' : Translator) : Prop :=
  ∃ items v, t.chars = v ++ t'.chars ∧ ItemsSpell pythonClass items v ∧ (n = 0 → items ≠ []) ∧
    t' = t.marked t'.chars (items.flatMap writeItem ++ [']']) (items.any isShorthand) false false

/-- The loop reads items to the closing bracket: each turn reads one. -/
theorem classLoop_ends (fuel n : ℕ) (t : Translator) (hfuel : t.chars.length < fuel) :
    Ends (ReadsItems n t) (classLoop fuel n t) := by
  induction fuel generalizing n t with
  | zero => exact absurd hfuel (Nat.not_lt_zero _)
  | succ fuel ih =>
    rw [classLoop]
    split
    · simp
    · rename_i c rest hchars
      split
      · rename_i hend
        obtain ⟨rfl, hn⟩ := hend
        exact ⟨[], [']'], hchars, rfl, fun h => absurd h (Nat.ne_of_gt hn), wrote_eq_marked _ _ _⟩
      · split
        · simp
        · rename_i hc
          split
          · simp
          · rename_i hset
            push Not at hc
            refine (item_ends hchars ⟨hc.2, hc.1⟩ hset).bind ?_
            rintro t₁ ⟨item, u, hu, hspells, ht₁⟩
            -- an item is not empty, so fewer characters are left
            obtain ⟨b, w, rfl, -⟩ := itemSpells_head pythonClass_unambiguous hspells
            have hless : t₁.chars.length < fuel := by
              have hlength := congrArg List.length hu
              simp only [List.length_append, List.length_cons] at hlength
              omega
            refine (ih (n + 1) t₁ hless).imp ?_
            rintro t' ⟨items, v, hv, hitems, -, ht'⟩
            rw [hv, pythonItem_append hitems] at hspells
            refine ⟨item :: items, b :: w ++ v, ?_, ⟨_, v, hspells, hitems, rfl⟩, by simp, ?_⟩
            · rw [hu, hv, List.append_assoc]
            · rw [ht', ht₁, marked_marked]
              simp

theorem negationMarked_eq (t : Translator) : ∃ negated rest, t.chars = negation negated ++ rest ∧
    (negated = false → rest.head? ≠ some '^') ∧
    negationMarked t = t.wrote rest (negation negated) := by
  unfold negationMarked
  split
  · rename_i rest hchars
    exact ⟨true, rest, hchars, by simp, rfl⟩
  · rename_i h
    refine ⟨false, t.chars, rfl, ?_, by simp [wrote, negation]⟩
    intro _ hhead
    obtain ⟨rest, hrest⟩ := List.head?_eq_some_iff.mp hhead
    exact h rest hrest

/-- A class is read and written. -/
theorem cls_ends (t : Translator) :
    Ends (fun t' => ∃ negated items u, '[' :: t.chars = u ++ t'.chars ∧
      ClassSpells pythonClass negated items u ∧ t' = t.marked t'.chars
        (written (.cls negated items)) (items.any isShorthand) false false) (cls t) := by
  obtain ⟨negated, rest, hrest, hhead, hmarked⟩ := negationMarked_eq (t.wrote t.chars ['['])
  unfold cls
  simp only
  split
  · simp
  · refine (classLoop_ends _ 0 _ (Nat.lt_succ_self _)).imp ?_
    rintro t' ⟨items, v, hv, hitems, hne, ht'⟩
    rw [hmarked] at hv ht'
    obtain rfl : rest = v ++ t'.chars := hv
    have hchars : t.chars = negation negated ++ (v ++ t'.chars) := hrest
    refine ⟨negated, items, '[' :: (negation negated ++ v), ?_, ⟨hne rfl, v, hitems, ?_, rfl⟩, ?_⟩
    · rw [hchars]
      simp
    · intro hfalse hv'
      apply hhead hfalse
      obtain ⟨w, rfl⟩ := itemsSpell_end hitems
      cases w <;> exact hv'
    · rw [ht']
      simp [wrote, marked, written]

theorem not_dash {w : List Char} (h : ¬StartsRange w) : dashStartsRange w = false :=
  Bool.eq_false_iff.mpr fun hdash => h ((dashStartsRange_iff w).mp hdash)

theorem classItem_range_reads {lo hi : Char} {v rest : List Char} (hv : pythonClass.last hi v)
    (hle : lo ≤ hi) {t : Translator} (hchars : t.chars = '-' :: (v ++ rest)) :
    t.classItem (.char lo) = .ok (t.marked rest (writeItem (.range lo hi)) false false false) := by
  have hdash := (dashStartsRange_iff _).mpr (startsRange_dash pythonClass_unambiguous hv rest)
  have hend := rangeEnd_reads hv (t := { t with chars := v ++ rest }) rfl
  simp only [classItem, hchars, hdash, if_true, List.tail_cons]
  rw [hend]
  simp [bind, Except.bind, Char.not_lt.mpr hle, wrote, marked, writeItem]

/-- A character of a class opens an item. -/
theorem classOpen_reads {lo : Char} {a rest : List Char} (ha : pythonClass.char lo a rest) :
    ∃ c q, a = c :: q ∧ c ≠ '[' ∧ c ≠ ']' ∧ ¬(c ∈ SET_OPERATORS ∧ (q ++ rest).head? = some c) ∧
      ∀ t : Translator, classOpen c { t with chars := q ++ rest } =
        .ok (.char lo, t.marked rest [] false false false) := by
  rcases ha with ⟨rfl, hc, hset⟩ | ⟨rfl, hc⟩
  · simp at hc
    refine ⟨lo, [], rfl, hc.1, hc.2.1, hset, fun t => ?_⟩
    simp [classOpen, hc, marked]
  · refine ⟨'\\', [lo], rfl, by decide, by decide, by simp [SET_OPERATORS], fun t => ?_⟩
    have hletter : lo ∉ SHORTHAND_LETTERS := fun h => letter_notMem h hc
    rw [classOpen, if_pos rfl, classEscape_reads (.inr hc) rfl]
    simp [escapeItem, hletter, marked]

/-- Every item is read. -/
theorem item_reads {item : Item} {u rest : List Char} (h : ItemSpells pythonClass item u rest) :
    ∃ c q, u = c :: q ∧ c ≠ '[' ∧ c ≠ ']' ∧ ¬(c ∈ SET_OPERATORS ∧ (q ++ rest).head? = some c) ∧
      ∀ t : Translator, readItem c { t with chars := q ++ rest } =
        .ok (t.marked rest (writeItem item) (isShorthand item) false false) := by
  cases item with
  | char lo =>
    obtain ⟨c, q, rfl, hopen, hclose, hset, hread⟩ := classOpen_reads h.1
    refine ⟨c, q, rfl, hopen, hclose, hset, fun t => ?_⟩
    rw [readItem, hread]
    simp [bind, Except.bind, classItem, not_dash h.2, wrote, marked, writeItem, isShorthand]
  | range lo hi =>
    obtain ⟨a, v, ha, hv, hle, rfl⟩ := h
    obtain ⟨c, q, rfl, hopen, hclose, hset, hread⟩ := classOpen_reads ha
    refine ⟨c, q ++ '-' :: v, rfl, hopen, hclose, by simpa using hset, fun t => ?_⟩
    rw [List.append_assoc, List.cons_append, readItem, hread]
    simp only [bind, Except.bind]
    rw [classItem_range_reads hv hle rfl, marked_marked]
    rfl
  | shorthand l =>
    obtain ⟨hl, hdash, rfl⟩ := h
    refine ⟨'\\', [l], rfl, by decide, by decide, by simp [SET_OPERATORS], fun t => ?_⟩
    have hletter : l ∈ SHORTHAND_LETTERS := hl
    rw [readItem, classOpen, if_pos rfl, classEscape_reads (.inl hl) rfl]
    simp [bind, Except.bind, escapeItem, hletter, classItem, not_dash hdash, wrote, marked,
      writeItem, isShorthand]

theorem classLoop_reads {items : List Item} {v rest : List Char}
    (hv : ItemsSpell pythonClass items v) (fuel n : ℕ) (hn : n = 0 → items ≠ []) (t : Translator)
    (hchars : t.chars = v ++ rest) (hfuel : t.chars.length < fuel) :
    classLoop fuel n t = .ok (t.marked rest (items.flatMap writeItem ++ [']'])
      (items.any isShorthand) false false) := by
  induction items generalizing v fuel n t with
  | nil =>
    cases hv
    have hpos : 0 < n := Nat.pos_of_ne_zero fun h => hn h rfl
    cases fuel with
    | zero => exact absurd hfuel (Nat.not_lt_zero _)
    | succ fuel => simp [classLoop, hchars, hpos, wrote, marked]
  | cons item items ih =>
    obtain ⟨u, w, hu, hw, rfl⟩ := hv
    rw [List.append_assoc] at hchars
    obtain ⟨c, q, rfl, hopen, hclose, hset, hread⟩ :=
      item_reads ((pythonItem_append hw rest).mpr hu)
    cases fuel with
    | zero => exact absurd hfuel (Nat.not_lt_zero _)
    | succ fuel =>
      have hless : (w ++ rest).length < fuel := by
        simp only [hchars, List.length_append, List.length_cons] at hfuel ⊢
        omega
      have hrest := ih hw fuel (n + 1) (by simp)
        (t.marked (w ++ rest) (writeItem item) (isShorthand item) false false) rfl hless
      rw [classLoop, hchars]
      simp only [List.cons_append, hopen, hclose, false_and, or_self, if_false, if_neg hset, hread]
      simp only [bind, Except.bind]
      rw [hrest, marked_marked]
      simp

theorem negationMarked_reads {t : Translator} {negated : Bool} {rest : List Char}
    (hchars : t.chars = negation negated ++ rest)
    (hhead : negated = false → rest.head? ≠ some '^') :
    negationMarked t = t.wrote rest (negation negated) := by
  cases negated with
  | false =>
    unfold negationMarked
    split
    · rename_i q heq
      rw [heq] at hchars
      exact absurd (congrArg List.head? hchars).symm (hhead rfl)
    · rw [show rest = t.chars from hchars.symm]
      simp [wrote, negation]
  | true => simp [negationMarked, hchars, negation]

theorem cls_reads {negated : Bool} {items : List Item} {u rest : List Char}
    (hu : ClassSpells pythonClass negated items u) {t : Translator}
    (hchars : '[' :: t.chars = u ++ rest) :
    cls t = .ok (t.marked rest (written (.cls negated items)) (items.any isShorthand)
      false false) := by
  obtain ⟨hne, v, hv, hhead, rfl⟩ := hu
  obtain ⟨item, items, rfl⟩ := List.exists_cons_of_ne_nil hne
  obtain ⟨w, x, hw, hx, hvw⟩ := hv
  obtain ⟨b, w', rfl, hb⟩ := itemSpells_head pythonClass_unambiguous hw
  have hv : ItemsSpell pythonClass (item :: items) v := ⟨_, x, hw, hx, hvw⟩
  have hrest : t.chars = negation negated ++ (v ++ rest) := by simpa using hchars
  have hmarked := negationMarked_reads (t := t.wrote t.chars ['[']) hrest
    (fun h => by simpa [hvw] using hhead h)
  have hstart : (v ++ rest).head? ≠ some ']' := by simpa [hvw] using hb
  have hloop := classLoop_reads hv ((v ++ rest).length + 1) 0 (fun _ => hne)
    ((t.wrote t.chars ['[']).wrote (v ++ rest) (negation negated)) rfl (Nat.lt_succ_self _)
  rw [cls, hmarked]
  refine (if_neg hstart).trans (hloop.trans ?_)
  simp [wrote, marked, written]

/-! ### Leaves -/

def usesUnicode : Leaf → Bool
  | .shorthand _ => true
  | .cls _ items => items.any isShorthand
  | .anchor .boundary => true
  | .anchor .nonBoundary => true
  | _ => false

def isDollar : Leaf → Bool
  | .anchor .lineEnd => true
  | _ => false

def isNonBoundary : Leaf → Bool
  | .anchor .nonBoundary => true
  | _ => false

/-- The translator once leaves are read, and `text` is written. -/
def passed (t : Translator) (rest text : List Char) (leaves : List Leaf) : Translator :=
  t.marked rest text (leaves.any usesUnicode) (leaves.any isDollar) (leaves.any isNonBoundary)

@[simp] theorem passed_chars (t : Translator) (rest text : List Char) (xs : List Leaf) :
    (t.passed rest text xs).chars = rest := rfl

@[simp] theorem passed_depth (t : Translator) (rest text : List Char) (xs : List Leaf) :
    (t.passed rest text xs).depth = t.depth := rfl

theorem passed_passed (t : Translator) (rest rest' text text' : List Char) (xs ys : List Leaf) :
    (t.passed rest text xs).passed rest' text' ys =
      t.passed rest' (text ++ text') (xs ++ ys) := by
  simp [passed, marked_marked]

theorem passed_wrote (t : Translator) (rest rest' text text' : List Char) (xs : List Leaf) :
    (t.passed rest text xs).wrote rest' text' = t.passed rest' (text ++ text') xs := by
  simp [passed, wrote_eq_marked, marked_marked]

theorem escape_reads {e : Char} (he : isEscape e) {t : Translator} {rest : List Char}
    (hchars : t.chars = e :: rest) : escape t = .ok (!(escapeLeaf e).isAnchor,
      t.passed rest (written (escapeLeaf e)) [escapeLeaf e]) := by
  by_cases hletter : e ∈ SHORTHAND_LETTERS
  · have hsome := shorthand_eq hletter
    have hleaf : escapeLeaf e = .shorthand e := by simp [escapeLeaf, hletter]
    simp only [escape, hchars]
    rw [hsome]
    simp [hleaf, Leaf.isAnchor, passed, marked, wrote, written, usesUnicode, isDollar,
      isNonBoundary]
  · have hnone : shorthand e = none := by
      cases htext : shorthand e with
      | none => rfl
      | some text => exact absurd (shorthand_mem htext).1 hletter
    simp only [escape, hchars, hnone]
    rcases he with he | he | he
    · exact absurd he hletter
    · have hanchor : e = 'A' ∨ e = 'b' ∨ e = 'B' := by simpa using he
      rcases hanchor with rfl | rfl | rfl <;>
        simp [escapeLeaf, SHORTHAND_LETTERS, Leaf.isAnchor, passed, marked, wrote, written,
          anchorText, usesUnicode, isDollar, isNonBoundary]
    · have hno : e ∉ ['A', 'b', 'B', 'd', 'w', 's', 'D', 'W', 'S'] :=
        fun hmem => escapable_notMem hmem he
      simp at hno
      simp [hno, he, escapeLeaf, SHORTHAND_LETTERS, Leaf.isAnchor, passed, marked, wrote, written,
        usesUnicode, isDollar, isNonBoundary]

theorem escape_refuses {e : Char} (he : ¬isEscape e) {t : Translator} {rest : List Char}
    (hchars : t.chars = e :: rest) : escape t = .error .refused := by
  simp only [isEscape, not_or] at he
  obtain ⟨hletter, hanchor, hescapable⟩ := he
  have hnone : shorthand e = none := by
    cases htext : shorthand e with
    | none => rfl
    | some text => exact absurd (shorthand_mem htext).1 hletter
  simp at hanchor
  simp [escape, hchars, hnone, hanchor, hescapable]

/-- A character that is read alone. -/
theorem simpleAtom_single {c : Char} (hc : c ∉ ['[', '\\']) (hmark : isMark c = false)
    (t : Translator) : simpleAtom c t = .ok (!(singleLeaf c).isAnchor,
      t.passed t.chars (written (singleLeaf c)) [singleLeaf c]) := by
  simp at hc
  simp only [simpleAtom, if_neg hc.1]
  by_cases hdot : c = '.'
  · subst hdot
    simp [singleLeaf, Leaf.isAnchor, passed, marked, wrote, written, usesUnicode, isDollar,
      isNonBoundary]
  by_cases hstart : c = '^'
  · subst hstart
    simp [singleLeaf, Leaf.isAnchor, passed, marked, wrote, written, anchorText, usesUnicode,
      isDollar, isNonBoundary]
  by_cases hend : c = '$'
  · subst hend
    simp [singleLeaf, Leaf.isAnchor, passed, marked, wrote, written, anchorText, usesUnicode,
      isDollar, isNonBoundary]
  simp [isMark] at hmark
  simp [singleLeaf, hdot, hstart, hend, hc.2, hmark, Leaf.isAnchor, passed, marked, wrote, written,
    usesUnicode, isDollar, isNonBoundary]

/-- A leaf is read and written. -/
theorem simpleAtom_ends {c : Char} (hc : c ∉ ['(', ')', '|']) (t : Translator) :
    Ends (fun p : Bool × Translator => ∃ x u, c :: t.chars = u ++ p.2.chars ∧ Python x u ∧
      p.1 = !x.isAnchor ∧ p.2 = t.passed p.2.chars (written x) [x]) (simpleAtom c t) := by
  by_cases hbracket : c = '['
  · subst hbracket
    refine (cls_ends t).bind ?_
    rintro t' ⟨negated, items, u, hu, hspells, ht'⟩
    refine ⟨.cls negated items, u, hu, hspells, rfl, ?_⟩
    rw [ht']
    simp [passed, marked, usesUnicode, isDollar, isNonBoundary]
  by_cases hslash : c = '\\'
  · subst hslash
    simp only [simpleAtom]
    simp only [show ('\\' : Char) ≠ '[' by decide, show ('\\' : Char) ≠ '.' by decide,
      show ('\\' : Char) ≠ '^' by decide, show ('\\' : Char) ≠ '$' by decide, if_false, if_true]
    cases hchars : t.chars with
    | nil => simp [escape, hchars]
    | cons e rest =>
      by_cases he : isEscape e
      · rw [escape_reads he hchars]
        exact ⟨escapeLeaf e, ['\\', e], rfl, python_escape he, rfl, rfl⟩
      · rw [escape_refuses he hchars]
        simp
  by_cases hmark : isMark c = true
  · have hrepeat : ['*', '+', '?', '{'].contains c = true := by
      simp [isMark] at hmark hc ⊢
      tauto
    have hother : c ≠ '.' ∧ c ≠ '^' ∧ c ≠ '$' := by
      refine ⟨?_, ?_, ?_⟩
      all_goals
        rintro rfl
        exact absurd hmark (by decide)
    simp only [simpleAtom, if_neg hbracket, if_neg hslash, if_neg hother.1, if_neg hother.2.1,
      if_neg hother.2.2, hrepeat, if_true, ends_refused]
  · have hno : c ∉ ['[', '\\'] := by simp [hbracket, hslash]
    rw [simpleAtom_single hno (by simpa using hmark)]
    exact ⟨singleLeaf c, [c], rfl, python_single hno (by simpa using hmark), rfl, rfl⟩

/-- Every leaf is read. -/
theorem simpleAtom_reads {x : Leaf} {u : List Char} (h : Python x u) (rest : List Char) :
    ∃ c q, u = c :: q ∧ c ∉ ['(', ')', '|'] ∧ ∀ t : Translator, t.chars = q ++ rest →
      simpleAtom c t = .ok (!x.isAnchor, t.passed rest (written x) [x]) := by
  rcases python_cases h with ⟨c, hc, hmark, rfl, rfl⟩ | ⟨e, rfl, rfl, he⟩ |
    ⟨negated, items, rfl, hcls⟩
  · refine ⟨c, [], rfl, by simp [isMark] at hmark; simp [hmark], fun t ht => ?_⟩
    obtain rfl : t.chars = rest := ht
    exact simpleAtom_single hc hmark t
  · refine ⟨'\\', [e], rfl, by decide, fun t ht => ?_⟩
    exact escape_reads he ht
  · have hwhole := hcls
    obtain ⟨-, v, -, -, rfl⟩ := hcls
    refine ⟨'[', _, rfl, by decide, fun t ht => ?_⟩
    have hchars : '[' :: t.chars = '[' :: (negation negated ++ v) ++ rest := by
      rw [ht]
      rfl
    have hread := cls_reads hwhole hchars
    simp only [simpleAtom, if_true]
    rw [hread]
    simp [bind, Except.bind, passed, marked, usesUnicode, isDollar, isNonBoundary, Leaf.isAnchor]

end Translator

end RegexFilter
