/-
How the two dialects spell a regular expression.

* `Python` — the allow-list grammar's leaves, as the first dialect reads them;
* `Rust` — the leaves of the other dialect that a translation writes;
* `python_unambiguous`, `rust_unambiguous` — a text spells one tree at most, in either.
-/
import Mathlib.Data.Bool.AllAny
import VortexRdf.RegexClasses
import VortexRdf.RegexTranslator

namespace RegexFilter

open Regex Translator

/-! ### The first dialect -/

def anchorText : Anchor → List Char
  | .lineStart => ['^']
  | .lineEnd => ['$']
  | .textStart => ['\\', 'A']
  | .boundary => ['\\', 'b']
  | .nonBoundary => ['\\', 'B']

def SHORTHAND_LETTERS : List Char := ['d', 'w', 's', 'D', 'W', 'S']

/-- The characters that stand for themselves only under a backslash. -/
def SPECIAL : List Char := ['(', ')', '[', '.', '^', '$', '\\', '*', '+', '?', '{', '|']

/-- The first dialect's classes: no bracket stands in one, and no set operator. -/
def pythonClass : ClassDialect where
  char c w rest := (w = [c] ∧ c ∉ ['[', ']', '\\'] ∧ ¬(c ∈ SET_OPERATORS ∧ rest.head? = some c)) ∨
    (w = ['\\', c] ∧ c ∈ ESCAPABLE)
  last c w := (w = [c] ∧ c ∉ ['[', ']', '\\', '-']) ∨ (w = ['\\', c] ∧ c ∈ ESCAPABLE)
  letter l := l ∈ SHORTHAND_LETTERS

def Python : Leaf → List Char → Prop
  | .literal c, w => (w = [c] ∧ c ∉ SPECIAL) ∨ (w = ['\\', c] ∧ c ∈ ESCAPABLE)
  | .dot, w => w = ['.']
  | .shorthand l, w => l ∈ SHORTHAND_LETTERS ∧ w = ['\\', l]
  | .cls negated items, w => ClassSpells pythonClass negated items w
  | .anchor a, w => w = anchorText a

/-! ### The other dialect -/

def hexDigit (c : Char) : Option ℕ :=
  if c.isDigit then some (c.toNat - '0'.toNat)
  else if 'A' ≤ c ∧ c ≤ 'F' then some (c.toNat - 'A'.toNat + 10)
  else none

/-- A character: itself, under a backslash where it is a metacharacter, or as an escape. -/
inductive RustChar : Char → List Char → Prop where
  | plain {c : Char} (h : c ∉ RUST_META) : RustChar c [c]
  | escape {c : Char} (h : c ∈ RUST_META) : RustChar c ['\\', c]
  | tab : RustChar '\t' ['\\', 't']
  | carriageReturn : RustChar '\r' ['\\', 'r']
  | hex {c h l : Char} {a b : ℕ} (hh : hexDigit h = some a) (hl : hexDigit l = some b)
      (hc : c.toNat = 16 * a + b) : RustChar c ['\\', 'x', h, l]

def rustClass : ClassDialect where
  char c w _ := RustChar c w
  last c w := RustChar c w
  letter _ := False

def Rust : Leaf → List Char → Prop
  | .literal c, w => RustChar c w
  | .dot, w => w = ['.']
  | .shorthand _, _ => False
  | .cls negated items, w => ClassSpells rustClass negated items w
  | .anchor a, w => w = anchorText a

/-! ### One tree at most -/

theorem escapable_notMem {c : Char} (h : c ∈ ['A', 'b', 'B', 'd', 'w', 's', 'D', 'W', 'S']) :
    c ∉ ESCAPABLE := by
  have hall : ∀ c ∈ ['A', 'b', 'B', 'd', 'w', 's', 'D', 'W', 'S'], c ∉ ESCAPABLE :=
    List.all_iff_forall_prop.mp (by decide)
  exact hall c h

theorem letter_notMem {c : Char} (h : c ∈ SHORTHAND_LETTERS) : c ∉ ESCAPABLE := by
  have hall : ∀ c ∈ SHORTHAND_LETTERS, c ∉ ESCAPABLE := List.all_iff_forall_prop.mp (by decide)
  exact hall c h

/-- What one character spells outside a class. -/
def singleLeaf (c : Char) : Leaf :=
  if c = '.' then .dot
  else if c = '^' then .anchor .lineStart
  else if c = '$' then .anchor .lineEnd
  else .literal c

/-- What an escape spells outside a class. -/
def escapeLeaf (e : Char) : Leaf :=
  if e ∈ SHORTHAND_LETTERS then .shorthand e
  else if e = 'A' then .anchor .textStart
  else if e = 'b' then .anchor .boundary
  else if e = 'B' then .anchor .nonBoundary
  else .literal e

def isEscape (e : Char) : Prop :=
  e ∈ SHORTHAND_LETTERS ∨ e ∈ ['A', 'b', 'B'] ∨ e ∈ ESCAPABLE

theorem python_escape {e : Char} (he : isEscape e) : Python (escapeLeaf e) ['\\', e] := by
  unfold escapeLeaf
  by_cases hletter : e ∈ SHORTHAND_LETTERS
  · simp [Python, hletter]
  · simp only [if_neg hletter]
    split
    · rename_i h
      simp [Python, anchorText, h]
    · split
      · rename_i h
        simp [Python, anchorText, h]
      · split
        · rename_i h
          simp [Python, anchorText, h]
        · exact .inr ⟨rfl, by simp_all [isEscape]⟩

theorem python_single {c : Char} (hc : c ∉ ['[', '\\']) (hmark : isMark c = false) :
    Python (singleLeaf c) [c] := by
  unfold singleLeaf
  split
  · rename_i h
    simp [Python, h]
  · split
    · rename_i h
      simp [Python, anchorText, h]
    · split
      · rename_i h
        simp [Python, anchorText, h]
      · simp [isMark] at hmark hc
        exact .inl ⟨rfl, by simp [SPECIAL, *]⟩

variable {u : List Char}

theorem python_cases {x : Leaf} (h : Python x u) :
    (∃ c, c ∉ ['[', '\\'] ∧ isMark c = false ∧ u = [c] ∧ x = singleLeaf c) ∨
      (∃ e, u = ['\\', e] ∧ x = escapeLeaf e ∧ isEscape e) ∨
      ∃ negated items, x = .cls negated items ∧ ClassSpells pythonClass negated items u := by
  cases x with
  | literal c =>
    rcases h with ⟨rfl, hc⟩ | ⟨rfl, hc⟩
    · left
      simp [SPECIAL] at hc
      exact ⟨c, by simp [hc], by simp [isMark, hc], rfl, by simp [singleLeaf, hc]⟩
    · right; left
      have hno : c ∉ ['A', 'b', 'B', 'd', 'w', 's', 'D', 'W', 'S'] :=
        fun hmem => escapable_notMem hmem hc
      simp at hno
      exact ⟨c, rfl, by simp [escapeLeaf, SHORTHAND_LETTERS, hno], .inr (.inr hc)⟩
  | dot => exact .inl ⟨'.', by decide, by decide, h, rfl⟩
  | shorthand l => exact .inr (.inl ⟨l, h.2, by simp [escapeLeaf, h.1], .inl h.1⟩)
  | cls negated items => exact .inr (.inr ⟨negated, items, rfl, h⟩)
  | anchor a =>
    cases a with
    | lineStart => exact .inl ⟨'^', by decide, by decide, h, rfl⟩
    | lineEnd => exact .inl ⟨'$', by decide, by decide, h, rfl⟩
    | textStart => exact .inr (.inl ⟨'A', h, rfl, .inr (.inl (by decide))⟩)
    | boundary => exact .inr (.inl ⟨'b', h, rfl, .inr (.inl (by decide))⟩)
    | nonBoundary => exact .inr (.inl ⟨'B', h, rfl, .inr (.inl (by decide))⟩)

theorem pythonClass_unambiguous : pythonClass.Unambiguous where
  char_head h := by
    rcases h with ⟨rfl, hc, -⟩ | ⟨rfl, -⟩
    · exact ⟨_, [], rfl, by simp at hc; exact hc.2.1⟩
    · exact ⟨_, _, rfl, by decide⟩
  last_head h := by
    rcases h with ⟨rfl, hc⟩ | ⟨rfl, -⟩
    · exact ⟨_, [], rfl, by simp at hc; exact hc.2.1⟩
    · exact ⟨_, _, rfl, by decide⟩
  char_unique h h' heq := by
    have hfirst := heq
    rcases h with ⟨rfl, hc, -⟩ | ⟨rfl, -⟩
    · rcases h' with ⟨rfl, -, -⟩ | ⟨rfl, -⟩
      · simp_all
      · obtain ⟨rfl, -⟩ := List.cons_eq_cons.mp heq
        simp at hc
    · rcases h' with ⟨rfl, hc, -⟩ | ⟨rfl, -⟩
      · obtain ⟨rfl, -⟩ := List.cons_eq_cons.mp heq
        simp at hc
      · simp_all
  last_unique h h' heq := by
    rcases h with ⟨rfl, hc⟩ | ⟨rfl, -⟩
    · rcases h' with ⟨rfl, -⟩ | ⟨rfl, -⟩
      · simp_all
      · obtain ⟨rfl, -⟩ := List.cons_eq_cons.mp heq
        simp at hc
    · rcases h' with ⟨rfl, hc⟩ | ⟨rfl, -⟩
      · obtain ⟨rfl, -⟩ := List.cons_eq_cons.mp heq
        simp at hc
      · simp_all
  char_letter hl h heq := by
    rcases h with ⟨rfl, hc, -⟩ | ⟨rfl, hc⟩
    · obtain ⟨rfl, -⟩ := List.cons_eq_cons.mp heq
      simp at hc
    · simp only [List.cons_append, List.cons_eq_cons, true_and] at heq
      obtain ⟨rfl, -⟩ := heq
      exact letter_notMem hl hc

theorem python_unambiguous : Unambiguous Python where
  head h := by
    rcases python_cases h with ⟨c, -, hc, rfl, -⟩ | ⟨e, rfl, -, -⟩ | ⟨_, _, -, -, v, -, -, rfl⟩
    · exact ⟨c, [], rfl, hc⟩
    · exact ⟨'\\', [e], rfl, by decide⟩
    · exact ⟨'[', _, rfl, by decide⟩
  unique hx hy heq := by
    rcases python_cases hx with ⟨c, hc, -, rfl, rfl⟩ | ⟨e, rfl, rfl, -⟩ | ⟨n, is, rfl, hcls⟩
    · rcases python_cases hy with ⟨c', -, -, rfl, rfl⟩ | ⟨e', rfl, rfl, -⟩ |
        ⟨_, _, rfl, -, v, -, -, rfl⟩
      · obtain ⟨rfl, -⟩ := List.cons_eq_cons.mp heq
        exact ⟨rfl, rfl⟩
      · obtain ⟨rfl, -⟩ := List.cons_eq_cons.mp heq
        simp at hc
      · obtain ⟨rfl, -⟩ := List.cons_eq_cons.mp heq
        simp at hc
    · rcases python_cases hy with ⟨c, hc, -, rfl, rfl⟩ | ⟨e', rfl, rfl, -⟩ |
        ⟨_, _, rfl, -, v, -, -, rfl⟩
      · obtain ⟨rfl, -⟩ := List.cons_eq_cons.mp heq
        simp at hc
      · simp only [List.cons_append, List.cons_eq_cons, true_and] at heq
        obtain ⟨rfl, -⟩ := heq
        exact ⟨rfl, rfl⟩
      · cases (List.cons_eq_cons.mp heq).1
    · have hwhole := hcls
      obtain ⟨-, v, -, -, rfl⟩ := hcls
      rcases python_cases hy with ⟨c, hc, -, rfl, rfl⟩ | ⟨e', rfl, rfl, -⟩ | ⟨n', is', rfl, hcls'⟩
      · obtain ⟨rfl, -⟩ := List.cons_eq_cons.mp heq
        simp at hc
      · cases (List.cons_eq_cons.mp heq).1
      · obtain ⟨rfl, rfl, hv⟩ := classSpells_unique pythonClass_unambiguous hwhole hcls' heq
        exact ⟨rfl, hv⟩

/-! ### The other dialect's characters -/

/-- The character a text begins with, and the length of what spells it. -/
def rustDecode : List Char → Option (Char × ℕ)
  | [] => none
  | c :: rest =>
    if c = '\\' then
      match rest with
      | [] => none
      | e :: rest =>
        if e = 't' then some ('\t', 2)
        else if e = 'r' then some ('\r', 2)
        else if e = 'x' then
          match rest with
          | h :: l :: _ => do
            let a ← hexDigit h
            let b ← hexDigit l
            some (Char.ofNat (16 * a + b), 4)
          | _ => none
        else some (e, 2)
    else some (c, 1)

theorem RustChar.decode {c : Char} (h : RustChar c u) (s : List Char) :
    rustDecode (u ++ s) = some (c, u.length) := by
  cases h with
  | plain hc =>
    have hne : c ≠ '\\' := by
      rintro rfl
      exact hc (by decide)
    simp [rustDecode, hne]
  | escape hc =>
    have ht : c ≠ 't' := by
      rintro rfl
      exact absurd hc (by decide)
    have hr : c ≠ 'r' := by
      rintro rfl
      exact absurd hc (by decide)
    have hx : c ≠ 'x' := by
      rintro rfl
      exact absurd hc (by decide)
    simp [rustDecode, ht, hr, hx]
  | tab => rfl
  | carriageReturn => rfl
  | hex hh hl hc => simp [rustDecode, hh, hl, ← hc]

variable {s t : List Char}

theorem RustChar.unique {c c' : Char} {u' : List Char} (h : RustChar c u)
    (h' : RustChar c' u') (heq : u ++ s = u' ++ t) : c = c' ∧ u = u' := by
  have hdecode := h.decode s
  rw [heq, h'.decode t] at hdecode
  simp only [Option.some.injEq, Prod.mk.injEq] at hdecode
  exact ⟨hdecode.1.symm, (List.append_inj heq hdecode.2.symm).1⟩

/-- What a character's text begins with. -/
theorem RustChar.head {c : Char} (h : RustChar c u) :
    ∃ b v, u = b :: v ∧ (b = '\\' ∨ b ∉ RUST_META) := by
  cases h with
  | plain hc => exact ⟨c, [], rfl, .inr hc⟩
  | escape hc => exact ⟨_, _, rfl, .inl rfl⟩
  | tab => exact ⟨_, _, rfl, .inl rfl⟩
  | carriageReturn => exact ⟨_, _, rfl, .inl rfl⟩
  | hex hh hl hc => exact ⟨_, _, rfl, .inl rfl⟩

theorem RustChar.head_ne {c b : Char} (h : RustChar c u)
    (hb : b ∈ RUST_META ∧ b ≠ '\\') : u ++ s ≠ b :: t := by
  obtain ⟨b', v, rfl, hhead⟩ := h.head
  intro heq
  obtain ⟨rfl, -⟩ := List.cons_eq_cons.mp heq
  exact hhead.elim hb.2 fun h => h hb.1

theorem rustClass_unambiguous : rustClass.Unambiguous where
  char_head h := by
    obtain ⟨b, v, rfl, hb⟩ := RustChar.head h
    refine ⟨b, v, rfl, ?_⟩
    rintro rfl
    exact absurd hb (by decide)
  last_head h := by
    obtain ⟨b, v, rfl, hb⟩ := RustChar.head h
    refine ⟨b, v, rfl, ?_⟩
    rintro rfl
    exact absurd hb (by decide)
  char_unique h h' heq := RustChar.unique h h' heq
  last_unique h h' heq := RustChar.unique h h' heq
  char_letter hl _ _ := hl.elim

theorem RustChar.not_letter {c e : Char} (h : RustChar c u)
    (he : e ∈ ['A', 'b', 'B']) : u ++ s ≠ '\\' :: e :: t := by
  have hall : ∀ e ∈ ['A', 'b', 'B'], e ∉ RUST_META ∧ e ≠ 't' ∧ e ≠ 'r' ∧ e ≠ 'x' :=
    List.all_iff_forall_prop.mp (by decide)
  have hmeta := hall e he
  intro heq
  cases h with
  | plain hc =>
    obtain ⟨rfl, -⟩ := List.cons_eq_cons.mp heq
    exact hc (by decide)
  | escape hc =>
    obtain ⟨rfl, -⟩ := List.cons_eq_cons.mp (List.cons_eq_cons.mp heq).2
    exact hmeta.1 hc
  | _ =>
    obtain ⟨rfl, -⟩ := List.cons_eq_cons.mp (List.cons_eq_cons.mp heq).2
    simp at hmeta

/-- The leaves that have one text each. -/
def fixedText : Leaf → Option (List Char)
  | .dot => some ['.']
  | .anchor a => some (anchorText a)
  | _ => none

theorem fixed_unique {x y : Leaf} {v : List Char} (hx : fixedText x = some u)
    (hy : fixedText y = some v) (heq : u ++ s = v ++ t) : x = y ∧ u = v := by
  rcases x with _ | _ | _ | _ | a <;> cases hx <;> rcases y with _ | _ | _ | _ | b <;> cases hy
  · exact ⟨rfl, rfl⟩
  · cases b <;> simp [anchorText] at heq
  · cases a <;> simp [anchorText] at heq
  · cases a <;> cases b <;> simp [anchorText] at heq <;> exact ⟨rfl, rfl⟩

theorem fixed_not_char {x : Leaf} {c : Char} {v : List Char} (hx : fixedText x = some u)
    (hv : RustChar c v) : v ++ s ≠ u ++ t := by
  rcases x with _ | _ | _ | _ | a <;> cases hx
  · exact hv.head_ne (by decide)
  · cases a with
    | lineStart => exact hv.head_ne (by decide)
    | lineEnd => exact hv.head_ne (by decide)
    | textStart => exact hv.not_letter (by decide)
    | boundary => exact hv.not_letter (by decide)
    | nonBoundary => exact hv.not_letter (by decide)

theorem fixed_not_bracket {x : Leaf} (hx : fixedText x = some u) :
    '[' :: s ≠ u ++ t := by
  rcases x with _ | _ | _ | _ | a <;> cases hx
  · simp
  · cases a <;> simp [anchorText]

theorem rust_cases {x : Leaf} (h : Rust x u) :
    (∃ c, x = .literal c ∧ RustChar c u) ∨ fixedText x = some u ∨
      ∃ negated items v, x = .cls negated items ∧ u = '[' :: v ∧
        ClassSpells rustClass negated items u := by
  cases x with
  | literal c => exact .inl ⟨c, rfl, h⟩
  | dot => exact .inr (.inl (by rw [fixedText, h]))
  | shorthand l => exact h.elim
  | cls negated items =>
    have hwhole := h
    obtain ⟨-, v, -, -, rfl⟩ := h
    exact .inr (.inr ⟨negated, items, _, rfl, rfl, hwhole⟩)
  | anchor a => exact .inr (.inl (by rw [fixedText, h]))

theorem mark_meta {c : Char} (h : isMark c = true) : c ∈ RUST_META := by
  have hmem : ∀ b ∈ ['(', ')', '|', '*', '+', '?', '{'], b ∈ RUST_META :=
    List.all_iff_forall_prop.mp (by decide)
  exact hmem c (List.contains_iff_mem.mp h)

theorem rust_unambiguous : Unambiguous Rust where
  head h := by
    rcases rust_cases h with ⟨c, rfl, hc⟩ | hfixed | ⟨_, _, v, -, rfl, -⟩
    · obtain ⟨b, v, rfl, hb⟩ := hc.head
      refine ⟨b, v, rfl, ?_⟩
      rcases hb with rfl | hb
      · decide
      · exact Bool.eq_false_iff.mpr fun hmark => hb (mark_meta hmark)
    · rename_i x u
      rcases x with _ | _ | _ | _ | a <;> cases hfixed
      · exact ⟨_, _, rfl, by decide⟩
      · cases a <;> exact ⟨_, _, rfl, by decide⟩
    · exact ⟨'[', v, rfl, by decide⟩
  unique hx hy heq := by
    rcases rust_cases hx with ⟨c, rfl, hc⟩ | hfixed | ⟨n, is, v, rfl, rfl, hcls⟩
    · rcases rust_cases hy with ⟨c', rfl, hc'⟩ | hfixed' | ⟨_, _, v', -, rfl, -⟩
      · obtain ⟨rfl, rfl⟩ := hc.unique hc' heq
        exact ⟨rfl, rfl⟩
      · exact absurd heq (fixed_not_char hfixed' hc)
      · exact absurd heq (hc.head_ne (by decide))
    · rcases rust_cases hy with ⟨c', rfl, hc'⟩ | hfixed' | ⟨_, _, v', -, rfl, -⟩
      · exact absurd heq.symm (fixed_not_char hfixed hc')
      · exact fixed_unique hfixed hfixed' heq
      · exact absurd heq.symm (fixed_not_bracket hfixed)
    · rcases rust_cases hy with ⟨c', rfl, hc'⟩ | hfixed' | ⟨n', is', v', rfl, rfl, hcls'⟩
      · exact absurd heq.symm (hc'.head_ne (by decide))
      · exact absurd heq (fixed_not_bracket hfixed')
      · obtain ⟨rfl, rfl, hv⟩ := classSpells_unique rustClass_unambiguous hcls hcls' heq
        exact ⟨rfl, hv⟩

end RegexFilter
