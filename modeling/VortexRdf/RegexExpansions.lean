/-
What a translation writes of a regular expression.

* `expand` — each shorthand as the class of its ASCII members;
* `written` — what a translation writes for a leaf;
* `written_spells` — what is written for a leaf spells the expanded leaf, in the other dialect;
* `asciiItems_members` — the class of a shorthand holds its ASCII members.
-/
import VortexRdf.RegexDialects

namespace RegexFilter

open Regex Translator

/-! ### What is written -/

/-- A shorthand's ASCII members. -/
def asciiItems (letter : Char) : List Item :=
  if letter = 'd' then [.range '0' '9']
  else if letter = 'D' then [.range '\x00' '/', .range ':' '\x7f']
  else if letter = 'w' then [.range '0' '9', .range 'A' 'Z', .char '_', .range 'a' 'z']
  else if letter = 'W' then [.range '\x00' '/', .range ':' '@', .range '[' '^', .char '`',
    .range '\x7b' '\x7f']
  else if letter = 's' then [.range '\t' '\r', .range '\x1c' ' ']
  else if letter = 'S' then [.range '\x00' '\x08', .range '\x0e' '\x1b', .range '!' '\x7f']
  else []

def expandItem : Item → List Item
  | .shorthand l => asciiItems l
  | item => [item]

def expand : Leaf → Leaf
  | .shorthand l => .cls false (asciiItems l)
  | .cls negated items => .cls negated (items.flatMap expandItem)
  | x => x

def writeItem : Item → List Char
  | .char c => escaped c
  | .range lo hi => escaped lo ++ '-' :: escaped hi
  | .shorthand l => (shorthand l).getD []

def written : Leaf → List Char
  | .literal c => escaped c
  | .dot => ['.']
  | .shorthand l => '[' :: ((shorthand l).getD [] ++ [']'])
  | .cls negated items => '[' :: (negation negated ++ (items.flatMap writeItem ++ [']']))
  | .anchor a => anchorText a

/-! ### What is written is spelled so -/

theorem rustChar_escaped (c : Char) : RustChar c (escaped c) := by
  by_cases hc : c ∈ RUST_META
  · rw [escaped, if_pos hc]
    exact .escape hc
  · rw [escaped, if_neg hc]
    exact .plain hc

/-- No text begins so that a dash before it, or after a bracket, would be taken otherwise. -/
def BeginsApart (w : List Char) : Prop := ∀ b ∈ w.head?, b ≠ '-' ∧ b ≠ '^'

theorem BeginsApart.not_startsRange {w : List Char} (h : BeginsApart w) : ¬StartsRange w := by
  rintro ⟨c, v, rfl, -⟩
  exact (h '-' rfl).1 rfl

theorem BeginsApart.of_char {c : Char} {u : List Char} (h : RustChar c u) (v : List Char) :
    BeginsApart (u ++ v) := by
  obtain ⟨b, w, rfl, hb⟩ := h.head
  intro b' hb'
  obtain rfl : b = b' := by simpa using hb'
  constructor
  · rintro rfl
    exact absurd hb (by decide)
  · rintro rfl
    exact absurd hb (by decide)

theorem range_spells {lo hi : Char} {u v x : List Char} {items : List Item} (hlo : RustChar lo u)
    (hhi : RustChar hi v) (hle : lo ≤ hi) (hx : ItemsSpell rustClass items x) :
    ItemsSpell rustClass (.range lo hi :: items) (u ++ '-' :: (v ++ x)) :=
  ⟨u ++ '-' :: v, x, ⟨u, v, hlo, hhi, hle, rfl⟩, hx, by simp⟩

theorem char_spells {c : Char} {u x : List Char} {items : List Item} (hc : RustChar c u)
    (hbegins : BeginsApart x) (hx : ItemsSpell rustClass items x) :
    ItemsSpell rustClass (.char c :: items) (u ++ x) :=
  ⟨u, x, ⟨hc, hbegins.not_startsRange⟩, hx, rfl⟩

theorem plainRange (lo hi : Char) (hlo : lo ∉ RUST_META) (hhi : hi ∉ RUST_META) (hle : lo ≤ hi)
    {items : List Item} {v : List Char} (hv : ItemsSpell rustClass items v) :
    ItemsSpell rustClass (.range lo hi :: items) (lo :: '-' :: hi :: v) :=
  range_spells (.plain hlo) (.plain hhi) hle hv

/-- What two hexadecimal digits spell. -/
def hexCode (h l : Char) : Option ℕ := do
  let a ← hexDigit h
  let b ← hexDigit l
  some (16 * a + b)

theorem rustChar_hex {c h l : Char} (hc : hexCode h l = some c.toNat) :
    RustChar c ['\\', 'x', h, l] := by
  simp only [hexCode, Option.bind_eq_bind, Option.bind_eq_some_iff, Option.some.injEq] at hc
  obtain ⟨a, ha, b, hb, hc⟩ := hc
  exact .hex ha hb hc.symm

theorem hexRange (lo hi h l h' l' : Char) (hlo : hexCode h l = some lo.toNat)
    (hhi : hexCode h' l' = some hi.toNat) (hle : lo ≤ hi) {items : List Item} {v : List Char}
    (hv : ItemsSpell rustClass items v) : ItemsSpell rustClass (.range lo hi :: items)
      ('\\' :: 'x' :: h :: l :: '-' :: '\\' :: 'x' :: h' :: l' :: v) :=
  range_spells (rustChar_hex hlo) (rustChar_hex hhi) hle hv

/-- A shorthand's text, spliced in front of other items. -/
theorem shorthand_spells {l : Char} (hl : l ∈ SHORTHAND_LETTERS) :
    ∃ text, shorthand l = some text ∧ asciiItems l ≠ [] ∧ (∀ v, BeginsApart (text ++ v)) ∧
      ∀ items v, ItemsSpell rustClass items v →
        ItemsSpell rustClass (asciiItems l ++ items) (text ++ v) := by
  simp only [SHORTHAND_LETTERS, List.mem_cons, List.not_mem_nil, or_false] at hl
  rcases hl with rfl | rfl | rfl | rfl | rfl | rfl
  · refine ⟨"0-9".toList, rfl, by decide, fun v => by simp [BeginsApart], ?_⟩
    intro items v hv
    exact plainRange '0' '9' (by decide) (by decide) (by decide) hv
  · refine ⟨"0-9A-Z_a-z".toList, rfl, by decide, fun v => by simp [BeginsApart], ?_⟩
    intro items v hv
    have hlower := plainRange 'a' 'z' (by decide) (by decide) (by decide) hv
    have hline : ItemsSpell rustClass (.char '_' :: .range 'a' 'z' :: items)
        ('_' :: 'a' :: '-' :: 'z' :: v) :=
      char_spells (.plain (by decide)) (by simp [BeginsApart]) hlower
    have hupper := plainRange 'A' 'Z' (by decide) (by decide) (by decide) hline
    exact plainRange '0' '9' (by decide) (by decide) (by decide) hupper
  · refine ⟨"\\t-\\r\\x1C-\\x20".toList, rfl, by decide, fun v => by simp [BeginsApart], ?_⟩
    intro items v hv
    have hspaces := hexRange '\x1c' ' ' '1' 'C' '2' '0' (by decide) (by decide) (by decide) hv
    have hall : ItemsSpell rustClass (.range '\t' '\r' :: .range '\x1c' ' ' :: items) _ :=
      range_spells .tab .carriageReturn (by decide) hspaces
    exact hall
  · refine ⟨"\\x00-\\x2F\\x3A-\\x7F".toList, rfl, by decide, fun v => by simp [BeginsApart], ?_⟩
    intro items v hv
    have hhigh := hexRange ':' '\x7f' '3' 'A' '7' 'F' (by decide) (by decide) (by decide) hv
    exact hexRange '\x00' '/' '0' '0' '2' 'F' (by decide) (by decide) (by decide) hhigh
  · refine ⟨"\\x00-\\x2F\\x3A-\\x40\\x5B-\\x5E\\x60\\x7B-\\x7F".toList, rfl, by decide,
      fun v => by simp [BeginsApart], ?_⟩
    intro items v hv
    have hlast := hexRange '\x7b' '\x7f' '7' 'B' '7' 'F' (by decide) (by decide) (by decide) hv
    have htick : ItemsSpell rustClass (.char '`' :: .range '\x7b' '\x7f' :: items) _ :=
      char_spells (rustChar_hex (h := '6') (l := '0') (by decide)) (by simp [BeginsApart]) hlast
    have hupper := hexRange '[' '^' '5' 'B' '5' 'E' (by decide) (by decide) (by decide) htick
    have hdigits := hexRange ':' '@' '3' 'A' '4' '0' (by decide) (by decide) (by decide) hupper
    exact hexRange '\x00' '/' '0' '0' '2' 'F' (by decide) (by decide) (by decide) hdigits
  · refine ⟨"\\x00-\\x08\\x0E-\\x1B\\x21-\\x7F".toList, rfl, by decide,
      fun v => by simp [BeginsApart], ?_⟩
    intro items v hv
    have hhigh := hexRange '!' '\x7f' '2' '1' '7' 'F' (by decide) (by decide) (by decide) hv
    have hmiddle := hexRange '\x0e' '\x1b' '0' 'E' '1' 'B' (by decide) (by decide) (by decide) hhigh
    exact hexRange '\x00' '\x08' '0' '0' '0' '8' (by decide) (by decide) (by decide) hmiddle

/-- Items written one after the other spell the expanded items. -/
theorem items_written {items : List Item} {v : List Char} (h : ItemsSpell pythonClass items v) :
    ItemsSpell rustClass (items.flatMap expandItem) (items.flatMap writeItem ++ [']']) ∧
      BeginsApart (items.flatMap writeItem ++ [']']) := by
  induction items generalizing v with
  | nil => exact ⟨rfl, by simp [BeginsApart]⟩
  | cons item items ih =>
    simp only [List.flatMap_cons, List.append_assoc]
    obtain ⟨u, w, hitem, hw, -⟩ := h
    obtain ⟨hrest, hbegins⟩ := ih hw
    cases item with
    | char c =>
      exact ⟨char_spells (rustChar_escaped c) hbegins hrest, .of_char (rustChar_escaped c) _⟩
    | range lo hi =>
      obtain ⟨_, _, -, -, hle, -⟩ := hitem
      simp only [writeItem, List.append_assoc, List.cons_append]
      exact ⟨range_spells (rustChar_escaped lo) (rustChar_escaped hi) hle hrest,
        .of_char (rustChar_escaped lo) _⟩
    | shorthand l =>
      obtain ⟨text, htext, -, hbegins, hsplice⟩ := shorthand_spells hitem.1
      simp only [writeItem, htext, Option.getD_some]
      exact ⟨hsplice _ _ hrest, hbegins _⟩

theorem expandItem_ne_nil {item : Item} {items : List Item} {v : List Char}
    (h : ItemsSpell pythonClass (item :: items) v) : expandItem item ≠ [] := by
  cases item with
  | char c => simp [expandItem]
  | range lo hi => simp [expandItem]
  | shorthand l =>
    obtain ⟨_, _, hitem, -⟩ := h
    obtain ⟨-, -, hne, -⟩ := shorthand_spells hitem.1
    exact hne

/-- What is written for a leaf spells the expanded leaf. -/
theorem written_spells {x : Leaf} {u : List Char} (h : Python x u) :
    Rust (expand x) (written x) := by
  cases x with
  | literal c => exact rustChar_escaped c
  | dot => rfl
  | shorthand l =>
    obtain ⟨text, htext, hne, hbegins, hsplice⟩ := shorthand_spells h.1
    have hitems := hsplice [] [']'] rfl
    rw [List.append_nil] at hitems
    refine ⟨hne, _, hitems, fun _ hhead => (hbegins [']'] '^' hhead).2 rfl, ?_⟩
    simp [written, htext, negation]
  | cls negated items =>
    obtain ⟨hne, v, hv, -, -⟩ := h
    obtain ⟨hitems, hbegins⟩ := items_written hv
    refine ⟨?_, _, hitems, fun _ hhead => (hbegins '^' hhead).2 rfl, rfl⟩
    obtain ⟨item, rest, rfl⟩ := List.exists_cons_of_ne_nil hne
    simp [expandItem_ne_nil hv]
  | anchor a => rfl

theorem expand_isAnchor (x : Leaf) : (expand x).isAnchor = x.isAnchor := by
  cases x <;> rfl

/-! ### The members of a shorthand -/

def holds (c : Char) : Item → Bool
  | .char b => c == b
  | .range lo hi => lo ≤ c && c ≤ hi
  | .shorthand _ => false

def SPACES : List Char :=
  [' ', '\t', '\n', '\r', '\x0b', '\x0c', '\x1c', '\x1d', '\x1e', '\x1f']

/-- What a shorthand stands for on ASCII text. -/
def shorthandHolds (letter c : Char) : Bool :=
  if letter = 'd' then c.isDigit
  else if letter = 'D' then !c.isDigit
  else if letter = 'w' then c.isAlphanum || c == '_'
  else if letter = 'W' then !(c.isAlphanum || c == '_')
  else if letter = 's' then SPACES.contains c
  else !(SPACES.contains c)

/-- The last character an item holds. -/
def topOf : Item → Char
  | .char b => b
  | .range _ hi => hi
  | .shorthand l => l

theorem le_top {c : Char} {item : Item} (h : holds c item = true) : c ≤ topOf item := by
  cases item with
  | char b =>
    rw [eq_of_beq h]
    exact Char.le_refl b
  | range lo hi =>
    simp only [holds, Bool.and_eq_true, decide_eq_true_eq] at h
    exact h.2
  | shorthand l => cases h

theorem asciiItems_ascii {l c : Char} (hl : l ∈ SHORTHAND_LETTERS)
    (h : (asciiItems l).any (holds c) = true) : c.toNat < 128 := by
  have htops : ∀ l ∈ SHORTHAND_LETTERS,
      ((asciiItems l).all fun item => decide (topOf item ≤ '\x7f')) = true :=
    List.all_iff_forall_prop.mp (by decide)
  obtain ⟨item, hitem, hc⟩ := List.any_eq_true.mp h
  have htop := List.all_iff_forall_prop.mp (htops l hl) item hitem
  have hle : c ≤ '\x7f' := Char.le_trans (le_top hc) htop
  have hval : c.val.toNat ≤ 127 := UInt32.le_iff_toNat_le.mp (Char.le_def.mp hle)
  exact Nat.lt_succ_of_le hval

/-- The class written for a shorthand holds its ASCII members, and nothing else. -/
theorem asciiItems_members {l : Char} (hl : l ∈ SHORTHAND_LETTERS) (c : Char) :
    (asciiItems l).any (holds c) = true ↔ c.toNat < 128 ∧ shorthandHolds l c = true := by
  have hall : ∀ l ∈ SHORTHAND_LETTERS, ∀ n < 128,
      (asciiItems l).any (holds (Char.ofNat n)) = shorthandHolds l (Char.ofNat n) :=
    List.all_iff_forall_prop.mp (by decide)
  have hsame : c.toNat < 128 → (asciiItems l).any (holds c) = shorthandHolds l c := by
    intro hc
    have hcode := hall l hl c.toNat hc
    rwa [Char.ofNat_toNat] at hcode
  constructor
  · intro h
    have hc := asciiItems_ascii hl h
    exact ⟨hc, hsame hc ▸ h⟩
  · rintro ⟨hc, h⟩
    rw [hsame hc, h]

end RegexFilter
