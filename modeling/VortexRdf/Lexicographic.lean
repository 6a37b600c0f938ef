/-
Strings in lexicographic order, and the range a prefix spans.

Over a linear order of symbols, the strings that begin with a given one are an
interval: from the string itself up to its last symbol raised, when it has one to
raise.

* `append_le_append_iff`, `append_lt_append_iff` — a common beginning cancels;
* `begins_of_between` — what lies between two strings with a common beginning
  begins with it too;
* `tops_le_iff` — a string of greatest symbols is below just what it begins;
* `between_iff_begins` — the interval of a string whose last symbol but for
  greatest ones has a next one;
* the linear order of bytes, and a byte with its next one.
-/
import Mathlib.Data.List.Lex
import Mathlib.Order.Cover
import Mathlib.Tactic

namespace Lexicographic

variable {α : Type*} [LinearOrder α]

variable {t s : List α}

theorem cons_lt_cons_iff {a b : α} :
    a :: s < b :: t ↔ a < b ∨ a = b ∧ s < t :=
  List.cons_lt_cons_iff

theorem nil_le (s : List α) : [] ≤ s := by
  cases s with
  | nil => exact le_refl _
  | cons a s => exact (List.nil_lt_cons a s).le

theorem append_lt_append_iff (p : List α) : p ++ s < p ++ t ↔ s < t := by
  induction p with
  | nil => exact Iff.rfl
  | cons a p ih =>
    rw [List.cons_append, List.cons_append, cons_lt_cons_iff]
    simp [ih]

theorem append_le_append_iff (p : List α) : p ++ s ≤ p ++ t ↔ s ≤ t := by
  rw [← not_lt, ← not_lt, append_lt_append_iff]

theorem le_append (p s : List α) : p ≤ p ++ s := by
  have h := (append_le_append_iff p (s := []) (t := s)).mpr (nil_le s)
  rwa [List.append_nil] at h

/-- A string between two with a common beginning has that beginning. -/
theorem begins_of_between {p u : List α} (hlow : p ++ s ≤ t) (hhigh : t < p ++ u) :
    ∃ r, t = p ++ r := by
  induction p generalizing t with
  | nil => exact ⟨t, rfl⟩
  | cons a p ih =>
    cases t with
    | nil =>
      rw [List.cons_append] at hlow
      exact absurd (List.nil_lt_cons a (p ++ s)) (not_lt.mpr hlow)
    | cons b t =>
      rw [List.cons_append, ← not_lt, cons_lt_cons_iff] at hlow
      rw [List.cons_append, cons_lt_cons_iff] at hhigh
      push Not at hlow
      -- the first symbols agree: neither string leaves room for another
      rcases hhigh with hlt | ⟨rfl, hhigh⟩
      · exact absurd (lt_of_le_of_lt hlow.1 hlt) (lt_irrefl a)
      · obtain ⟨r, rfl⟩ := ih (hlow.2 rfl) hhigh
        exact ⟨r, rfl⟩

theorem begins_of_le_of_le {p u : List α} (hlow : p ++ s ≤ t) (hhigh : t ≤ p ++ u) :
    ∃ r, t = p ++ r := by
  rcases hhigh.lt_or_eq with hlt | heq
  · exact begins_of_between hlow hlt
  · exact ⟨u, heq⟩

theorem head_le_of_cons_le {a b : α} (h : a :: s ≤ b :: t) : a ≤ b := by
  by_contra hba
  rw [← not_lt, cons_lt_cons_iff] at h
  exact h (.inl (not_le.mp hba))

/-- A string of greatest symbols is below just the strings that begin with it. -/
theorem tops_le_iff {f r : List α} (htop : ∀ a ∈ f, IsTop a) : f ≤ r ↔ f <+: r := by
  constructor
  · intro hle
    induction f generalizing r with
    | nil => exact List.nil_prefix
    | cons a f ih =>
      have ha : IsTop a := htop a List.mem_cons_self
      cases r with
      | nil => exact absurd (List.nil_lt_cons a f) (not_lt.mpr hle)
      | cons b r =>
        rw [← not_lt, cons_lt_cons_iff] at hle
        push Not at hle
        obtain rfl : a = b := le_antisymm hle.1 (ha b)
        exact List.cons_prefix_cons.mpr
          ⟨rfl, ih (fun c hc => htop c (List.mem_cons_of_mem a hc)) (hle.2 rfl)⟩
  · rintro ⟨s, rfl⟩
    exact le_append f s

/-- The strings that begin with `q ++ [a] ++ f`, the symbols of `f` greatest and `b`
next to `a`: from it on, those below `q ++ [b]`. -/
theorem between_iff_begins {q f : List α} {a b : α} (hnext : a ⋖ b)
    (htop : ∀ c ∈ f, IsTop c) :
    q ++ a :: f ≤ t ∧ t < q ++ [b] ↔ q ++ a :: f <+: t := by
  constructor
  · rintro ⟨hlow, hhigh⟩
    obtain ⟨r, rfl⟩ := begins_of_between hlow hhigh
    rw [append_le_append_iff] at hlow
    rw [append_lt_append_iff] at hhigh
    cases r with
    | nil => exact absurd (List.nil_lt_cons a f) (not_lt.mpr hlow)
    | cons c r =>
      rw [← not_lt, cons_lt_cons_iff] at hlow
      rw [cons_lt_cons_iff] at hhigh
      push Not at hlow
      have hcb : c < b := hhigh.resolve_right fun h => List.not_lt_nil r h.2
      obtain rfl : a = c := le_antisymm hlow.1 (hnext.le_of_lt hcb)
      have hf : f <+: r := (tops_le_iff htop).mp (hlow.2 rfl)
      exact (List.prefix_append_right_inj q).mpr (List.cons_prefix_cons.mpr ⟨rfl, hf⟩)
  · rintro ⟨s, rfl⟩
    refine ⟨le_append _ _, ?_⟩
    rw [List.append_assoc, append_lt_append_iff, List.cons_append, cons_lt_cons_iff]
    exact Or.inl hnext.lt

/-! ### Bytes -/

scoped instance byteOrder : LinearOrder UInt8 where
  le_refl _ := UInt8.le_refl _
  le_trans _ _ _ := UInt8.le_trans
  le_antisymm _ _ := UInt8.le_antisymm
  le_total := UInt8.le_total
  lt_iff_le_not_ge a b := by
    rw [UInt8.lt_iff_toNat_lt, UInt8.le_iff_toNat_le, UInt8.le_iff_toNat_le]
    omega
  toDecidableLE := inferInstance
  toDecidableEq := inferInstance
  toDecidableLT := inferInstance

theorem isTop_byte : IsTop (0xff : UInt8) := by
  intro b
  rw [UInt8.le_iff_toNat_le]
  have := b.toNat_lt
  change b.toNat ≤ 255
  omega

theorem byte_next {b : UInt8} (h : b ≠ 0xff) : b ⋖ b + 1 := by
  have hne : b.toNat ≠ 255 := fun heq => h (UInt8.toNat_inj.mp heq)
  have hb := b.toNat_lt
  have hsum : (b + 1).toNat = b.toNat + 1 := by
    rw [UInt8.toNat_add]
    change (b.toNat + 1) % 2 ^ 8 = _
    omega
  constructor
  · rw [UInt8.lt_iff_toNat_lt]
    omega
  · intro c hbc hc
    rw [UInt8.lt_iff_toNat_lt] at hbc hc
    omega

end Lexicographic
