/-
Runs of labelled steps.

A run takes steps in turn, each with its label.  What one step keeps, a whole run keeps; and a
relation one step carries from a machine to another, a whole run carries.

* `Steps` — a run;
* `Steps.keeps` — an invariant of one step holds behind any run;
* `Steps.simulates` — a simulation of one step is one of any run.
-/
import Mathlib.Logic.Relation

namespace Transitions

universe u v w

variable {σ : Type u} {τ : Type v} {L : Type w}

/-- A run: steps in turn, under their labels. -/
inductive Steps (step : σ → L → σ → Prop) : σ → List L → σ → Prop
  | nil (s : σ) : Steps step s [] s
  | cons {s s' s'' : σ} {l : L} {ls : List L} (head : step s l s') (rest : Steps step s' ls s'') :
      Steps step s (l :: ls) s''

variable {step : σ → L → σ → Prop} {step' : τ → L → τ → Prop}

/-- What every step keeps holds behind a run. -/
theorem Steps.keeps {I : σ → Prop} (h : ∀ s l s', I s → step s l s' → I s') {s s' : σ} {ls : List L}
    (hrun : Steps step s ls s') (hs : I s) : I s' := by
  induction hrun with
  | nil => exact hs
  | cons head _ ih => exact ih (h _ _ _ hs head)

/-- A relation that every step of one machine carries over to a step of another, a run carries
over to a run. -/
theorem Steps.simulates {R : σ → τ → Prop}
    (h : ∀ s t l s', R s t → step s l s' → ∃ t', step' t l t' ∧ R s' t') {s s' : σ} {ls : List L}
    (hrun : Steps step s ls s') {t : τ} (hR : R s t) : ∃ t', Steps step' t ls t' ∧ R s' t' := by
  induction hrun generalizing t with
  | nil => exact ⟨t, .nil t, hR⟩
  | cons head _ ih =>
    obtain ⟨t', hstep, hR'⟩ := h _ _ _ _ hR head
    obtain ⟨t'', hrest, hlast⟩ := ih hR'
    exact ⟨t'', .cons hstep hrest, hlast⟩

end Transitions
