/-
Programs over a state that end in a value or an error.

A program that reads through a source may also give up: it then ends in an error
that says nothing about what it was to compute.

* `Prog` — a program over a state, a monad;
* `Triple` — a pre- and two postconditions, one for each way to end, with the rules
  for `pure`, `bind` and a pure step;
* `Answers` — a program that keeps an invariant and ends as it should, or gives up;
* `Answers.bind`, `Answers.parse`, `Answers.mapM` — the rules for such programs;
* `Computes` — a program that keeps an invariant and always ends as it should, with the
  same rules.
-/
import Mathlib.Tactic

namespace Programs

/-- A program over states `σ` that ends in a value or an error. -/
def Prog (ε σ α : Type) : Type := σ → Except ε α × σ

namespace Prog

variable {ε σ α β : Type}

def bind (p : Prog ε σ α) (f : α → Prog ε σ β) : Prog ε σ β := fun s =>
  match p s with
  | (.ok a, s) => f a s
  | (.error e, s) => (.error e, s)

instance : Monad (Prog ε σ) where
  pure a := fun s => (.ok a, s)
  bind := Prog.bind

theorem bind_ok {p : Prog ε σ α} {f : α → Prog ε σ β} {s s' : σ} {a : α}
    (h : p s = (.ok a, s')) : (p >>= f) s = f a s' := by
  change Prog.bind p f s = f a s'
  rw [Prog.bind, h]

theorem bind_error {p : Prog ε σ α} {f : α → Prog ε σ β} {s s' : σ} {e : ε}
    (h : p s = (.error e, s')) : (p >>= f) s = (.error e, s') := by
  change Prog.bind p f s = (.error e, s')
  rw [Prog.bind, h]

theorem id_map (p : Prog ε σ α) : id <$> p = p := by
  funext s
  rcases hrun : p s with ⟨e | a, s'⟩
  · exact bind_error hrun
  · exact bind_ok hrun

theorem bind_assoc {γ : Type} (p : Prog ε σ α) (f : α → Prog ε σ β) (g : β → Prog ε σ γ) :
    p >>= f >>= g = p >>= fun a => f a >>= g := by
  funext s
  rcases hrun : p s with ⟨e | a, s'⟩
  · rw [bind_error hrun, bind_error (bind_error hrun)]
  · rw [bind_ok hrun]
    rcases hrun' : f a s' with ⟨e | b, s''⟩
    · rw [bind_error hrun', bind_error ((bind_ok hrun).trans hrun')]
    · rw [bind_ok hrun', bind_ok ((bind_ok hrun).trans hrun')]

instance : LawfulMonad (Prog ε σ) :=
  LawfulMonad.mk' _ Prog.id_map (fun _ _ => rfl) Prog.bind_assoc

/-- A program with a pure step on its value, which may fail. -/
def parse (p : Prog ε σ α) (f : α → Except ε β) : Prog ε σ β := fun s =>
  match p s with
  | (.ok a, s) => (f a, s)
  | (.error e, s) => (.error e, s)

end Prog

variable {ε σ α β : Type}

/-! ### Triples -/

/-- From a state with `pre`, the program ends in a value and a state with `post`, or
in an error and a state with `fail`. -/
def Triple (pre : σ → Prop) (p : Prog ε σ α) (post : α → σ → Prop) (fail : ε → σ → Prop) : Prop :=
  ∀ s, pre s → (∃ a s', p s = (.ok a, s') ∧ post a s') ∨ ∃ e s', p s = (.error e, s') ∧ fail e s'

variable {pre : σ → Prop} {p : Prog ε σ α} {mid : α → σ → Prop} {fail : ε → σ → Prop}

theorem Triple.pure {post : α → σ → Prop} (a : α) : Triple (post a) (pure a) post fail :=
  fun s hs => Or.inl ⟨a, s, rfl, hs⟩

variable {f : α → Prog ε σ β}

theorem Triple.bind {post : β → σ → Prop} (hp : Triple pre p mid fail)
    (hf : ∀ a, Triple (mid a) (f a) post fail) : Triple pre (p >>= f) post fail := by
  intro s hs
  rcases hp s hs with ⟨a, s', hrun, hmid⟩ | ⟨e, s', hrun, hfail⟩
  · rw [Prog.bind_ok hrun]
    exact hf a s' hmid
  · rw [Prog.bind_error hrun]
    exact Or.inr ⟨e, s', rfl, hfail⟩

theorem Triple.mono {pre' : σ → Prop} {post : α → σ → Prop} {fail' : ε → σ → Prop}
    (h : Triple pre p mid fail) (hpre : ∀ s, pre' s → pre s)
    (hpost : ∀ s, pre' s → ∀ a s', mid a s' → post a s') (hfail : ∀ e s', fail e s' → fail' e s') :
    Triple pre' p post fail' := by
  intro s hs
  rcases h s (hpre s hs) with ⟨a, s', hrun, hmid⟩ | ⟨e, s', hrun, hbad⟩
  · exact Or.inl ⟨a, s', hrun, hpost s hs a s' hmid⟩
  · exact Or.inr ⟨e, s', hrun, hfail e s' hbad⟩

/-! ### Expected answers -/

variable {inv quits : σ → Prop}

/-- From the invariant the program ends in it, as `expected` does, or it fails and
has given up. -/
def Answers (inv quits : σ → Prop) (p : Prog ε σ α) (expected : Except ε α) : Prop :=
  Triple inv p (fun a s => inv s ∧ expected = .ok a)
    fun e s => inv s ∧ (expected = .error e ∨ quits s)

theorem Answers.pure (a : α) : Answers inv quits (pure a : Prog ε σ α) (.ok a) :=
  fun s hs => Or.inl ⟨a, s, rfl, hs, rfl⟩

variable {g : α → Except ε β}

theorem Answers.bind {expected : Except ε α} (hp : Answers inv quits p expected)
    (hf : ∀ a, Answers inv quits (f a) (g a)) :
    Answers inv quits (p >>= f) (expected >>= g) := by
  intro s hs
  rcases hp s hs with ⟨a, s', hrun, hinv, rfl⟩ | ⟨e, s', hrun, hinv, hend⟩
  · rw [Prog.bind_ok hrun]
    exact hf a s' hinv
  · rw [Prog.bind_error hrun]
    refine Or.inr ⟨e, s', rfl, hinv, hend.imp_left ?_⟩
    rintro rfl
    rfl

theorem Answers.parse {expected : Except ε α} (hp : Answers inv quits p expected)
    (f : α → Except ε β) : Answers inv quits (p.parse f) (expected >>= f) := by
  intro s hs
  rcases hp s hs with ⟨a, s', hrun, hinv, rfl⟩ | ⟨e, s', hrun, hinv, hend⟩
  · have hparse : p.parse f s = (f a, s') := by rw [Prog.parse, hrun]
    rw [hparse]
    cases hf : f a with
    | ok b => exact Or.inl ⟨b, s', rfl, hinv, hf⟩
    | error e => exact Or.inr ⟨e, s', rfl, hinv, Or.inl hf⟩
  · have hparse : p.parse f s = (.error e, s') := by rw [Prog.parse, hrun]
    rw [hparse]
    refine Or.inr ⟨e, s', rfl, hinv, hend.imp_left ?_⟩
    rintro rfl
    rfl

/-- The rule for a list's elements, one after the other. -/
theorem Answers.mapM {l : List α}
    (h : ∀ a ∈ l, Answers inv quits (f a) (g a)) : Answers inv quits (l.mapM f) (l.mapM g) := by
  induction l with
  | nil =>
    rw [List.mapM_nil, List.mapM_nil]
    exact Answers.pure []
  | cons a rest ih =>
    rw [List.mapM_cons, List.mapM_cons]
    refine (h a List.mem_cons_self).bind fun b => ?_
    exact (ih fun a' ha' => h a' (List.mem_cons_of_mem a ha')).bind fun bs => Answers.pure (b :: bs)

/-! ### Programs that do not give up -/

/-- A result as a program that leaves the state alone. -/
def Prog.lift (expected : Except ε α) : Prog ε σ α := fun s => (expected, s)

/-- From the invariant the program ends in it, as `expected` does. -/
def Computes (inv : σ → Prop) (p : Prog ε σ α) (expected : Except ε α) : Prop :=
  ∀ s, inv s → ∃ s', p s = (expected, s') ∧ inv s'

theorem Computes.lift (expected : Except ε α) : Computes inv (Prog.lift expected) expected :=
  fun s hs => ⟨s, rfl, hs⟩

theorem Computes.pure (a : α) : Computes inv (pure a : Prog ε σ α) (.ok a) :=
  fun s hs => ⟨s, rfl, hs⟩

theorem Computes.bind {expected : Except ε α} (hp : Computes inv p expected)
    (hf : ∀ a, expected = .ok a → Computes inv (f a) (g a)) :
    Computes inv (p >>= f) (expected >>= g) := by
  intro s hs
  obtain ⟨s', hrun, hinv⟩ := hp s hs
  cases expected with
  | ok a =>
    rw [Prog.bind_ok hrun]
    exact hf a rfl s' hinv
  | error e => exact ⟨s', Prog.bind_error hrun, hinv⟩

/-- After a value that is known. -/
theorem Computes.bind_ok {a : α} (hp : Computes inv p (.ok a))
    {expected : Except ε β} (hf : Computes inv (f a) expected) : Computes inv (p >>= f) expected := by
  intro s hs
  obtain ⟨s', hrun, hinv⟩ := hp s hs
  rw [Prog.bind_ok hrun]
  exact hf s' hinv

theorem Computes.mapM {l : List α}
    (h : ∀ a ∈ l, Computes inv (f a) (g a)) : Computes inv (l.mapM f) (l.mapM g) := by
  induction l with
  | nil =>
    rw [List.mapM_nil, List.mapM_nil]
    exact Computes.pure []
  | cons a rest ih =>
    rw [List.mapM_cons, List.mapM_cons]
    refine (h a List.mem_cons_self).bind fun b _ => ?_
    exact (ih fun a' ha' => h a' (List.mem_cons_of_mem a ha')).bind fun bs _ => Computes.pure (b :: bs)

/-! ### Results that may be errors -/

theorem ok_bind (a : α) (f : α → Except ε β) : (Except.ok a >>= f) = f a := rfl

theorem error_bind (e : ε) (f : α → Except ε β) : (Except.error e >>= f) = Except.error e := rfl

/-! ### Results over a list -/

theorem mapM_eq_ok {v : α → β} {l : List α} (h : ∀ a ∈ l, g a = .ok (v a)) :
    l.mapM g = .ok (l.map v) := by
  induction l with
  | nil => rfl
  | cons a rest ih =>
    rw [List.mapM_cons, h a List.mem_cons_self, ih fun a' ha' => h a' (List.mem_cons_of_mem a ha')]
    rfl

theorem mapM_isError {l : List α} {a : α} {e : ε} (ha : a ∈ l)
    (hbad : g a = .error e) : ∃ e, l.mapM g = .error e := by
  induction l with
  | nil => cases ha
  | cons b rest ih =>
    rw [List.mapM_cons]
    cases hb : g b with
    | error e' => exact ⟨e', rfl⟩
    | ok b' =>
      rcases List.mem_cons.mp ha with rfl | htail
      · rw [hb] at hbad
        cases hbad
      · obtain ⟨e', he'⟩ := ih htail
        exact ⟨e', by rw [he']; rfl⟩

/-- A list's results are an error just when one of them is. -/
theorem mapM_isError_iff {l : List α} :
    (∃ e, l.mapM g = .error e) ↔ ∃ a ∈ l, ∃ e, g a = .error e := by
  constructor
  · rintro ⟨e, he⟩
    induction l generalizing e with
    | nil => cases he
    | cons b rest ih =>
      cases hb : g b with
      | error e' => exact ⟨b, List.mem_cons_self, e', hb⟩
      | ok b' =>
        rw [List.mapM_cons, hb, ok_bind] at he
        cases hrest : rest.mapM g with
        | error e' =>
          obtain ⟨a, ha, hbad⟩ := ih e' hrest
          exact ⟨a, List.mem_cons_of_mem b ha, hbad⟩
        | ok bs =>
          rw [hrest] at he
          cases he
  · rintro ⟨a, ha, e, hbad⟩
    exact mapM_isError ha hbad

end Programs
