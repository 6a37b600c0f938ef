/-
The quantifiers a translator reads, and what it writes for them.

A step reads a text that spells a part of the tree and writes that part in the other dialect, or
refuses the pattern; and it reads every such text.

* `Ends` — a step refuses, or ends with a property;
* `number_ends`, `braces_ends`, `quantifier_ends` — what a quantifier's steps read;
* `number_reads`, `braces_reads`, `quantifier_reads` — the texts they read.
-/
import VortexRdf.RegexExpansions

namespace RegexFilter

open Regex Translator

/-! ### Steps that refuse, or end with a property -/

def Ends {α : Type} (good : α → Prop) : Step α → Prop
  | .ok a => good a
  | .error e => e = .refused

section Ends

variable {α β : Type} {good : α → Prop} {fine : β → Prop} {x : Step α}

@[simp] theorem ends_ok {a : α} : Ends good (.ok a) ↔ good a := Iff.rfl

@[simp] theorem ends_refused : Ends good (.error .refused) := rfl

theorem Ends.bind {f : α → Step β} (hx : Ends good x) (hf : ∀ a, good a → Ends fine (f a)) :
    Ends fine (x >>= f) := by
  cases x with
  | error e => exact hx
  | ok a => exact hf a hx

theorem Ends.imp {better : α → Prop} (hx : Ends good x) (h : ∀ a, good a → better a) :
    Ends better x := by
  cases x with
  | error e => exact hx
  | ok a => exact h a hx

theorem Ends.not_exhausted (hx : Ends good x) : x ≠ .error .exhausted := by
  rintro rfl
  cases hx

theorem Ends.of_ok {a : α} (hx : Ends good x) (h : x = .ok a) : good a := by
  subst h
  exact hx

end Ends

namespace Translator

/-! ### Numbers -/

theorem le_ofDigitChars (w : List Char) (n : ℕ) : n ≤ Nat.ofDigitChars 10 w n := by
  induction w generalizing n with
  | nil => simp
  | cons c w ih =>
    rw [Nat.ofDigitChars_cons]
    have hrest := ih (10 * n + (c.toNat - '0'.toNat))
    omega

theorem checked_ends (n : ℕ) : Ends (· = n) (checked n) := by
  unfold checked
  split <;> simp

/-- The loop reads digits, and their value after `n`. -/
theorem numberLoop_ends (chars : List Char) (n digits : ℕ) :
    Ends (fun p : ℕ × ℕ × List Char => ∃ w, chars = w ++ p.2.2 ∧
      (∀ c ∈ w, c.isDigit = true) ∧ p.1 = Nat.ofDigitChars 10 w n ∧ p.2.1 = digits + w.length)
      (numberLoop chars n digits) := by
  induction chars generalizing n digits with
  | nil => exact ⟨[], by simp⟩
  | cons c cs ih =>
    rw [numberLoop]
    split
    · rename_i hc
      refine (checked_ends _).bind fun tens htens => ?_
      refine (checked_ends _).bind fun m hm => ?_
      refine (ih m (digits + 1)).imp ?_
      rintro ⟨k, d, rest⟩ ⟨w, rfl, hw, rfl, rfl⟩
      refine ⟨c :: w, rfl, by simpa [hc] using hw, ?_, by simp; omega⟩
      rw [Nat.ofDigitChars_cons, hm, htens, Nat.mul_comm 10 n]
    · exact ⟨[], by simp⟩

/-- What follows digits. -/
def AfterDigits (t : List Char) : Prop := ∀ c ∈ t.head?, c.isDigit = false

theorem numberLoop_stops {rest : List Char} (hrest : AfterDigits rest) (n digits : ℕ) :
    numberLoop rest n digits = .ok (n, digits, rest) := by
  cases rest with
  | nil => rfl
  | cons c cs =>
    rw [numberLoop, if_neg (by simp [hrest c rfl])]

/-- A value below the bound never overflows on the way. -/
theorem numberLoop_reads {w rest : List Char} (hw : ∀ c ∈ w, c.isDigit = true)
    (hrest : AfterDigits rest) (n digits : ℕ) (hle : Nat.ofDigitChars 10 w n ≤ MAX_REPEAT) :
    numberLoop (w ++ rest) n digits =
      .ok (Nat.ofDigitChars 10 w n, digits + w.length, rest) := by
  induction w generalizing n digits with
  | nil => simpa using numberLoop_stops hrest n digits
  | cons c w ih =>
    rw [Nat.ofDigitChars_cons] at hle ⊢
    have hstep := (le_ofDigitChars w _).trans hle
    have htens : n * 10 < 4294967296 := by
      simp only [MAX_REPEAT] at hstep
      omega
    have hones : n * 10 + (c.toNat - '0'.toNat) < 4294967296 := by
      simp only [MAX_REPEAT] at hstep
      omega
    rw [List.cons_append, numberLoop, if_pos (hw c List.mem_cons_self)]
    simp only [checked, if_pos htens, if_pos hones, bind, Except.bind]
    rw [Nat.mul_comm n 10, ih (fun d hd => hw d (List.mem_cons_of_mem c hd)) _ _ hle,
      List.length_cons, Nat.add_assoc, Nat.add_comm 1]

theorem number_ends (chars : List Char) :
    Ends (fun p : ℕ × List Char => ∃ w, chars = w ++ p.2 ∧ Numeral p.1 w ∧ p.1 ≤ MAX_REPEAT)
      (number chars) := by
  refine (numberLoop_ends chars 0 0).bind ?_
  rintro ⟨n, digits, rest⟩ ⟨w, hchars, hw, hn, hdigits⟩
  simp only at hchars hn hdigits ⊢
  split
  · rename_i h
    have hne : w ≠ [] := by
      rintro rfl
      simp [hdigits] at h
    exact ⟨w, hchars, ⟨hne, hw, hn.symm⟩, h.2⟩
  · simp

theorem number_reads {n : ℕ} {w rest : List Char} (hw : Numeral n w) (hn : n ≤ MAX_REPEAT)
    (hrest : AfterDigits rest) : number (w ++ rest) = .ok (n, rest) := by
  have hloop := numberLoop_reads hw.digits hrest 0 0 (by rw [hw.value]; exact hn)
  have hlength : 0 < w.length := List.length_pos_iff.mpr hw.ne_nil
  rw [number, hloop]
  simp only [bind, Except.bind, hw.value, Nat.zero_add]
  rw [if_pos ⟨hlength, hn⟩]

/-! ### Quantifiers -/

/-- What stands in braces reads a count, and writes it. -/
theorem braces_ends (t : Translator) :
    Ends (fun t' => ∃ k : Count, ∃ v, k.Spells ('{' :: v) ∧ (∀ n ∈ k.numbers, n ≤ MAX_REPEAT) ∧
      t.chars = v ++ t'.chars ∧ t' = t.wrote t'.chars k.write) (braces t) := by
  refine (number_ends t.chars).bind ?_
  rintro ⟨lo, rest⟩ ⟨d, hchars, hd, hlo⟩
  simp only at hchars hd hlo ⊢
  split
  · rename_i rest'
    exact ⟨.exactly lo, d ++ ['}'], ⟨d, hd, rfl⟩, by simpa [Count.numbers] using hlo,
      by simp [hchars, wrote], rfl⟩
  · rename_i rest'
    exact ⟨.atLeast lo, d ++ [',', '}'], ⟨d, hd, rfl⟩, by simpa [Count.numbers] using hlo,
      by simp [hchars, wrote], rfl⟩
  · rename_i rest' _
    refine (number_ends rest').bind ?_
    rintro ⟨hi, after⟩ ⟨d', hrest', hd', hhi⟩
    simp only at hrest' hd' hhi ⊢
    split
    · rename_i after'
      split
      · simp
      · rename_i hle
        exact ⟨.between lo hi, d ++ ',' :: (d' ++ ['}']),
          ⟨d, d', hd, hd', Nat.le_of_not_lt hle, rfl⟩, by simp [Count.numbers, hlo, hhi],
          by simp [hchars, hrest', wrote], rfl⟩
    · simp
  · simp

theorem braces_reads {k : Count} {v : List Char} (hk : k.Spells ('{' :: v))
    (hn : ∀ n ∈ k.numbers, n ≤ MAX_REPEAT) (t : Translator) {rest : List Char}
    (hchars : t.chars = v ++ rest) : braces t = .ok (t.wrote rest k.write) := by
  have hafter : ∀ c q, c.isDigit = false → AfterDigits (c :: q) := by
    intro c q hc b hb
    obtain rfl : c = b := by simpa using hb
    exact hc
  cases k with
  | star => cases hk
  | plus => cases hk
  | optional => cases hk
  | exactly n =>
    obtain ⟨d, hd, hv⟩ := hk
    obtain rfl := (List.cons_eq_cons.mp hv).2
    rw [List.append_assoc] at hchars
    have hnumber := number_reads hd (hn n (by simp [Count.numbers])) (hafter '}' rest rfl)
    rw [braces, hchars, List.cons_append, List.nil_append, hnumber]
    rfl
  | atLeast n =>
    obtain ⟨d, hd, hv⟩ := hk
    obtain rfl := (List.cons_eq_cons.mp hv).2
    rw [List.append_assoc] at hchars
    have hnumber := number_reads hd (hn n (by simp [Count.numbers])) (hafter ',' ('}' :: rest) rfl)
    rw [braces, hchars, List.cons_append, List.cons_append, List.nil_append, hnumber]
    rfl
  | between lo hi =>
    obtain ⟨d, d', hd, hd', hle, hv⟩ := hk
    obtain rfl := (List.cons_eq_cons.mp hv).2
    simp only [List.append_assoc, List.cons_append, List.nil_append] at hchars
    have hlow := number_reads hd (hn lo (by simp [Count.numbers]))
      (hafter ',' (d' ++ '}' :: rest) rfl)
    have hhigh := number_reads hd' (hn hi (by simp [Count.numbers])) (hafter '}' rest rfl)
    have hno : ∀ q, d' ++ '}' :: rest ≠ '}' :: q := by
      intro q heq
      exact hd'.not_brace heq.symm
    rw [braces, hchars, hlow]
    simp only [bind, Except.bind]
    rw [hhigh]
    simp only [if_neg (Nat.not_lt.mpr hle)]
    rfl

theorem lazyMarked_eq (t : Translator) : ∃ isLazy rest, t.chars = lazyMark isLazy ++ rest ∧
    lazyMarked t = t.wrote rest (lazyMark isLazy) := by
  unfold lazyMarked
  split
  · rename_i rest hchars
    exact ⟨true, rest, hchars, rfl⟩
  · exact ⟨false, t.chars, rfl, by simp [wrote, lazyMark]⟩

theorem noQuantifier_ends (t : Translator) :
    Ends (fun t' => t' = t ∧ AfterSuffix t.chars) (noQuantifier t) := by
  unfold noQuantifier
  split
  · rename_i hchars
    exact ⟨rfl, by simp [AfterSuffix, hchars]⟩
  · rename_i c rest hchars
    split
    · simp
    · rename_i hc
      exact ⟨rfl, by simpa [AfterSuffix, hchars] using hc⟩

theorem noQuantifier_reads {t : Translator} (h : AfterSuffix t.chars) :
    noQuantifier t = .ok t := by
  unfold noQuantifier
  split
  · rfl
  · rename_i c rest hchars
    rw [if_neg]
    simpa using h c (by simp [hchars])

/-- After a count, the lazy mark is read, and no other quantifier follows. -/
theorem quantified_ends (t : Translator) :
    Ends (fun t' => ∃ isLazy, t.chars = lazyMark isLazy ++ t'.chars ∧
      t' = t.wrote t'.chars (lazyMark isLazy)) (quantified t) := by
  obtain ⟨isLazy, rest, hchars, hmarked⟩ := lazyMarked_eq t
  refine (noQuantifier_ends (lazyMarked t)).imp ?_
  rintro t' ⟨rfl, -⟩
  rw [hmarked]
  exact ⟨isLazy, hchars, rfl⟩

theorem quantified_reads {t : Translator} {isLazy : Bool} {rest : List Char}
    (hchars : t.chars = lazyMark isLazy ++ rest) (hrest : AfterSuffix rest) :
    quantified t = .ok (t.wrote rest (lazyMark isLazy)) := by
  have hmarked : lazyMarked t = t.wrote rest (lazyMark isLazy) := by
    cases isLazy with
    | false =>
      -- what follows a suffix is no lazy mark
      have hno : ∀ q, t.chars ≠ '?' :: q := by
        intro q heq
        have hmark := hrest '?' (by rw [← hchars.trans (List.nil_append rest), heq]; rfl)
        simp at hmark
      unfold lazyMarked
      split
      · rename_i q heq
        exact absurd heq (hno q)
      · rw [show rest = t.chars from hchars.symm]
        simp [wrote, lazyMark]
    | true => simp [lazyMarked, hchars, lazyMark]
  rw [quantified, hmarked]
  exact noQuantifier_reads hrest

/-- A quantifier reads a suffix, and writes it. -/
theorem quantifier_ends (quantifiable : Bool) (t : Translator) :
    Ends (fun t' => ∃ r v, SuffixSpells r v ∧ (quantifiable = false → r = none) ∧
      (∀ n ∈ numbersOf r, n ≤ MAX_REPEAT) ∧ t.chars = v ++ t'.chars ∧
      t' = t.wrote t'.chars (writeSuffix r)) (quantifier quantifiable t) := by
  have hnone : ∃ r v, SuffixSpells r v ∧ (quantifiable = false → r = none) ∧
      (∀ n ∈ numbersOf r, n ≤ MAX_REPEAT) ∧ t.chars = v ++ t.chars ∧
      t = t.wrote t.chars (writeSuffix r) :=
    ⟨none, [], rfl, fun _ => rfl, by simp [numbersOf], rfl, by simp [wrote, writeSuffix]⟩
  -- a count, once read, with its lazy mark
  have hcount : ∀ (k : Count) (v : List Char) (t₁ : Translator), k.Spells v →
      (∀ n ∈ k.numbers, n ≤ MAX_REPEAT) → quantifiable = true → t.chars = v ++ t₁.chars →
      t₁ = t.wrote t₁.chars k.write →
      Ends (fun t' => ∃ r v, SuffixSpells r v ∧ (quantifiable = false → r = none) ∧
        (∀ n ∈ numbersOf r, n ≤ MAX_REPEAT) ∧ t.chars = v ++ t'.chars ∧
        t' = t.wrote t'.chars (writeSuffix r)) (quantified t₁) := by
    intro k v t₁ hk hn hquantifiable hchars ht₁
    refine (quantified_ends t₁).imp ?_
    rintro t' ⟨isLazy, hlazy, ht'⟩
    refine ⟨some ⟨k, isLazy⟩, v ++ lazyMark isLazy, ⟨v, hk, rfl⟩, by simp [hquantifiable], hn,
      by rw [hchars, hlazy, List.append_assoc], ?_⟩
    rw [ht', ht₁]
    simp [wrote, writeSuffix]
  unfold quantifier
  split
  · exact hnone
  · rename_i c rest hchars
    split
    · rename_i hc
      split
      · rename_i hquantifiable
        have hmark : c = '*' ∨ c = '+' ∨ c = '?' := by simpa using hc
        rcases hmark with rfl | rfl | rfl
        · exact hcount .star ['*'] _ rfl (by simp [Count.numbers]) hquantifiable hchars rfl
        · exact hcount .plus ['+'] _ rfl (by simp [Count.numbers]) hquantifiable hchars rfl
        · exact hcount .optional ['?'] _ rfl (by simp [Count.numbers]) hquantifiable hchars rfl
      · simp
    · split
      · rename_i hbrace
        split
        · rename_i hquantifiable
          refine (braces_ends _).bind ?_
          rintro t₁ ⟨k, v, hk, hn, hrest, ht₁⟩
          refine hcount k ('{' :: v) t₁ hk hn hquantifiable ?_ ht₁
          rw [hchars, hbrace, List.cons_append]
          exact congrArg (List.cons '{') hrest
        · simp
      · exact hnone

theorem quantifier_reads {r : Option Repeat} {v rest : List Char} {quantifiable : Bool}
    (hr : SuffixSpells r v) (hquantifiable : quantifiable = false → r = none)
    (hn : ∀ n ∈ numbersOf r, n ≤ MAX_REPEAT) {t : Translator} (hchars : t.chars = v ++ rest)
    (hrest : AfterSuffix rest) :
    quantifier quantifiable t = .ok (t.wrote rest (writeSuffix r)) := by
  cases r with
  | none =>
    cases hr
    obtain rfl : t.chars = rest := hchars
    have hsame : t.wrote t.chars (writeSuffix none) = t := by simp [wrote, writeSuffix]
    rw [hsame]
    unfold quantifier
    split
    · rfl
    · rename_i c q heq
      have hno := hrest c (by simp [heq])
      simp at hno
      rw [if_neg (by simp [hno]), if_neg hno.2.2.2]
  | some r =>
    obtain ⟨k, isLazy⟩ := r
    obtain ⟨w, hk, rfl⟩ := hr
    obtain rfl : quantifiable = true := by
      by_contra h
      cases hquantifiable (by simpa using h)
    rw [List.append_assoc] at hchars
    -- the count is read first, then its lazy mark
    have hlazy : quantified (t.wrote (lazyMark isLazy ++ rest) k.write) =
        .ok (t.wrote rest (writeSuffix (some ⟨k, isLazy⟩))) := by
      rw [quantified_reads rfl hrest]
      simp [wrote, writeSuffix]
    rw [← hlazy]
    obtain ⟨w', rfl⟩ := Count.head hk
    by_cases hbrace : k.mark = '{'
    · rw [hbrace] at hk hchars
      have hbraces := braces_reads hk hn { t with chars := w' ++ (lazyMark isLazy ++ rest) } rfl
      simp only [quantifier, hchars, List.cons_append]
      rw [hbraces]
      rfl
    · cases k with
      | star | plus | optional =>
        cases hk
        simp [quantifier, hchars, Count.mark, Count.write]
      | _ => exact absurd rfl hbrace

end Translator

end RegexFilter
