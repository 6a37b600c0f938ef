/-
What a layout's columns spell, and the prelude of a match.

Under a string layout an index column holds the terms themselves and a bound term probes
with its spelling; under the dictionary layout it holds codes, resolved once by the
prelude, which answers that no row matches when the dictionary lacks a bound term.

* `preparePattern` — the prelude under a resident dictionary;
* `residentResolve_spec` — it resolves every bound term, up to one the dictionary lacks;
* `IndexedLayout` — what a layout's values spell, and what its prelude promises;
* `stringIndexed`, `dictionaryIndexed` — the layouts.
-/
import VortexRdf.IndexResolution
import VortexRdf.ResidentLookups

namespace Indexes

open Dictionary Terms
open Store hiding Row
open scoped Lexicographic

/-! ### The prelude -/

/-- What the prelude found: that a bound term has no code, or the codes. -/
inductive Prepared where
  | empty
  | codes (codes : PatternCodes)

section Prelude

variable (ox : Oxrdf)

/-- The code of a term's role, looked up the first time only. -/
def resolve (codes : PatternCodes) (term : TermRef) (f : Str → Option TermCode) :
    Option TermCode × PatternCodes :=
  match codes.roles term.role with
  | some cached => (cached, codes)
  | none =>
    let resolved := f (term.writeNt ox)
    (resolved, { codes with roles := Function.update codes.roles term.role (some resolved) })

/-- The bound terms resolved in turn, up to one without a code. -/
def residentResolve (dict : TermDictionary) : List TermRef → PatternCodes → PatternCodes
  | [], codes => codes
  | term :: terms, codes =>
    let found := resolve ox codes term dict.encodeExact
    match found.1 with
    | none => found.2
    | some _ => residentResolve dict terms found.2

/-- Whether a bound term resolved to no code. -/
def provablyEmpty (codes : PatternCodes) (pattern : QuadPattern) : Bool :=
  !codes.probesByString && pattern.boundRoles.any fun term => codes.roles term.role == some none

/-- The prelude under a resident dictionary. -/
def preparePattern (dict : TermDictionary) (pattern : QuadPattern) : Prepared :=
  let codes := residentResolve ox dict pattern.boundRoles ⟨fun _ => none, .dictionary⟩
  if provablyEmpty codes pattern then .empty else .codes codes

end Prelude

theorem boundRoles_nodup (pattern : QuadPattern) : (pattern.boundRoles.map TermRef.role).Nodup := by
  obtain ⟨s, p, o, g⟩ := pattern
  cases s <;> cases p <;> cases o <;> cases g <;>
    simp [QuadPattern.boundRoles, List.reduceOption, TermRef.role]

section Resident

variable {ox : Oxrdf} {dict : TermDictionary}

/-- Each term is resolved, or the first without a code is. -/
theorem residentResolve_spec {terms : List TermRef} {codes : PatternCodes}
    (hroles : (terms.map TermRef.role).Nodup) (hfresh : ∀ term ∈ terms, codes.roles term.role = none) :
    (residentResolve ox dict terms codes).layout = codes.layout ∧
    (∀ role, role ∉ terms.map TermRef.role →
      (residentResolve ox dict terms codes).roles role = codes.roles role) ∧
    ((∃ term ∈ terms, (residentResolve ox dict terms codes).roles term.role = some none ∧
        dict.encodeExact (term.writeNt ox) = none) ∨
      ∀ term ∈ terms, ∃ code, (residentResolve ox dict terms codes).roles term.role = some (some code) ∧
        dict.encodeExact (term.writeNt ox) = some code) := by
  induction terms generalizing codes with
  | nil => exact ⟨rfl, fun _ _ => rfl, .inr fun term h => absurd h List.not_mem_nil⟩
  | cons term terms ih =>
    obtain ⟨hnot, hrest⟩ := List.nodup_cons.mp hroles
    have hterm := hfresh term List.mem_cons_self
    have hresolve : resolve ox codes term dict.encodeExact =
        (dict.encodeExact (term.writeNt ox), { codes with
          roles := Function.update codes.roles term.role (some (dict.encodeExact (term.writeNt ox))) }) := by
      rw [resolve, hterm]
    rw [residentResolve, hresolve]
    dsimp only
    cases hcode : dict.encodeExact (term.writeNt ox) with
    | none =>
      refine ⟨rfl, fun role hrole => ?_, .inl ⟨term, List.mem_cons_self, ?_, hcode⟩⟩
      · rw [List.map_cons, List.mem_cons, not_or] at hrole
        exact Function.update_of_ne hrole.1 _ _
      · exact Function.update_self _ _ _
    | some code =>
      dsimp only
      have hfresh' : ∀ term' ∈ terms,
          Function.update codes.roles term.role (some (some code)) term'.role = none := by
        intro term' hterm'
        have hne : term'.role ≠ term.role := fun heq => hnot (heq ▸ List.mem_map_of_mem hterm')
        rw [Function.update_of_ne hne]
        exact hfresh term' (List.mem_cons_of_mem _ hterm')
      obtain ⟨hlayout, hothers, hends⟩ := @ih
        { codes with roles := Function.update codes.roles term.role (some (some code)) } hrest hfresh'
      refine ⟨hlayout, fun role hrole => ?_, ?_⟩
      · rw [List.map_cons, List.mem_cons, not_or] at hrole
        rw [hothers role hrole.2]
        exact Function.update_of_ne hrole.1 _ _
      · refine hends.imp ?_ fun hall => ?_
        · rintro ⟨term', hterm', h⟩
          exact ⟨term', List.mem_cons_of_mem _ hterm', h⟩
        · refine List.forall_mem_cons.mpr ⟨⟨code, ?_, hcode⟩, hall⟩
          rw [hothers term.role hnot]
          exact Function.update_self _ _ _

/-- The prelude's codes answer every bound term's probe. -/
theorem prepared_codes {pattern : QuadPattern} {codes : PatternCodes}
    (h : preparePattern ox dict pattern = .codes codes) : ∀ term ∈ pattern.boundRoles,
      ∃ code, codes.probeScalar ox term = .ok (some (.num code)) ∧
        dict.encodeExact (term.writeNt ox) = some code := by
  have hspec := @residentResolve_spec ox dict pattern.boundRoles ⟨fun _ => none, .dictionary⟩
    (boundRoles_nodup pattern) (fun _ _ => rfl)
  rw [preparePattern] at h
  generalize residentResolve ox dict pattern.boundRoles ⟨fun _ => none, .dictionary⟩ = resolved at h hspec
  obtain ⟨hlayout, -, hends⟩ := hspec
  have hstring : resolved.probesByString = false := by
    rw [PatternCodes.probesByString, hlayout]
    rfl
  split_ifs at h with hempty
  obtain rfl := Prepared.codes.inj h
  rcases hends with ⟨term, hterm, hnone, -⟩ | hall
  · -- a term without a code would have been refused
    refine absurd ?_ hempty
    rw [provablyEmpty, hstring, Bool.not_false, Bool.true_and, List.any_eq_true]
    exact ⟨term, hterm, by rw [hnone]; rfl⟩
  · intro term hterm
    obtain ⟨code, hrole, hcode⟩ := hall term hterm
    refine ⟨code, ?_, hcode⟩
    rw [PatternCodes.probeScalar, hstring, PatternCodes.code, hrole]
    rfl

theorem prepared_empty {pattern : QuadPattern} (h : preparePattern ox dict pattern = .empty) :
    ∃ term ∈ pattern.boundRoles, dict.encodeExact (term.writeNt ox) = none := by
  have hspec := @residentResolve_spec ox dict pattern.boundRoles ⟨fun _ => none, .dictionary⟩
    (boundRoles_nodup pattern) (fun _ _ => rfl)
  rw [preparePattern] at h
  generalize residentResolve ox dict pattern.boundRoles ⟨fun _ => none, .dictionary⟩ = resolved at h hspec
  obtain ⟨-, -, hends⟩ := hspec
  split_ifs at h with hempty
  rcases hends with ⟨term, hterm, -, hnone⟩ | hall
  · exact ⟨term, hterm, hnone⟩
  · rw [provablyEmpty, Bool.and_eq_true, List.any_eq_true] at hempty
    obtain ⟨-, term, hterm, hnone⟩ := hempty
    obtain ⟨code, hrole, -⟩ := hall term hterm
    rw [hrole] at hnone
    cases hnone

end Resident

/-! ### Layouts -/

/-- What the values of a layout's index columns spell, no two the same term, and what its
prelude promises: each bound term's probe is the value spelling it, and a pattern is
refused only for a term no value spells. -/
structure IndexedLayout (ox : Oxrdf) (V : Type) [LinearOrder V] [TermColumn V] where
  strategy : LayoutStrategy
  prepare : QuadPattern → Prepared
  spelling : V → Option Str
  spelled : ∀ {v w t}, spelling v = some t → spelling w = some t → v = w
  fits : ∀ {v t n}, spelling v = some t → TermColumn.scalar v = .num n → n ≤ EncodedSearch.u64Max
  prepared : ∀ {pattern codes}, prepare pattern = .codes codes → ∀ term ∈ pattern.boundRoles,
    ∃ v, codes.probeScalar ox term = .ok (some (TermColumn.scalar v)) ∧
      spelling v = some (term.writeNt ox)
  refused : ∀ {pattern}, prepare pattern = .empty → ∃ term ∈ pattern.boundRoles,
    ∀ v, spelling v ≠ some (term.writeNt ox)

/-- The string layouts: a value spells itself. -/
def stringIndexed (ox : Oxrdf) (layout : StringLayout) : IndexedLayout ox Str where
  strategy := layout.strategy
  prepare _ := .codes layout.preparePattern
  spelling := some
  spelled hv hw := Option.some.inj (hv.trans hw.symm)
  fits _ h := Scalar.noConfusion h
  prepared {pattern codes} h term _ := by
    obtain rfl := Prepared.codes.inj h
    refine ⟨term.writeNt ox, ?_, rfl⟩
    cases layout <;> rfl
  refused h := Prepared.noConfusion h

/-- The dictionary layout: a code spells the term of its rank. -/
def dictionaryIndexed (ox : Oxrdf) (dict : TermDictionary) (hsorted : dict.terms.SortedLT) :
    IndexedLayout ox TermCode where
  strategy := .dictionary
  prepare := preparePattern ox dict
  spelling code := dict.terms[code]?
  spelled {v w t} hv hw := by
    rw [← rankOf_eq_some_iff hsorted] at hv hw
    exact Option.some.inj (hv.symm.trans hw)
  fits {v t n} hv hn := by
    obtain ⟨hlt, -⟩ := List.getElem?_eq_some_iff.mp hv
    have hle : dict.terms.length ≤ EncodedSearch.u64Max := dict.len_le
    rw [← Scalar.num.inj hn]
    exact hlt.le.trans hle
  prepared {pattern codes} h term hterm := by
    obtain ⟨code, hresolved, hcode⟩ := prepared_codes h term hterm
    rw [TermDictionary.encodeExact_eq hsorted, rankOf_eq_some_iff hsorted] at hcode
    exact ⟨code, hresolved, hcode⟩
  refused h := by
    obtain ⟨term, hterm, hcode⟩ := prepared_empty h
    refine ⟨term, hterm, fun v hv => ?_⟩
    rw [TermDictionary.encodeExact_eq hsorted] at hcode
    rw [← rankOf_eq_some_iff hsorted, hcode] at hv
    cases hv

end Indexes
