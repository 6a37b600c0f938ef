/-
The decoders of code rows against reads without a memo.

Over any source that answers a code as some function does, each decoder gives what
reading every code of every row without a memo gives, unless the source gives up.

* `TermSource.Reads` — a source that answers as a function of the code does;
* `TermMemo.Sound`, `getOrInsert_answers` — a memo holds only such answers, and gives
  them;
* `decodeRows_spec`, `decodeRowsShared_spec` — the decoders into quads and strings.
-/
import VortexRdf.CodeRows

namespace Dictionary

open Programs Store Terms

variable {σ : Type}

/-- The source answers the codes of the rows as `answer` does, or gives up. -/
def TermSource.Reads (src : TermSource σ) (inv : σ → Prop)
    (answer : TermCode → Except VortexRdfError Str) (rows : List CodeRow) : Prop :=
  ∀ codes ∈ rows, ∀ role,
    Answers inv (fun s => src.gaveUp s = true) (src.strAt role (codes role)) (answer (codes role))

/-! ### Memos -/

namespace TermMemo

variable {τ : Type} {answer : TermCode → Except VortexRdfError τ} {memo : TermMemo τ}

/-- Every term the memo holds is the answer for its code. -/
def Sound (answer : TermCode → Except VortexRdfError τ) (memo : TermMemo τ) : Prop :=
  ∀ code term, some (code, term) ∈ memo.slots → answer code = .ok term

theorem new_sound (rows : ℕ) : (new rows : TermMemo τ).Sound answer := by
  intro code term hmem
  cases (List.mem_replicate.mp hmem).2

theorem admitting_sound (rows : ℕ) : (admitting rows : TermMemo τ).Sound answer :=
  new_sound rows

theorem held_eq (h : memo.Sound answer) {code : TermCode} {term : τ}
    (hheld : memo.held code = some term) : answer code = .ok term := by
  rw [held] at hheld
  split at hheld
  · rename_i cached term' hslot
    split_ifs at hheld with hcode
    rw [← hcode, ← Option.some.inj hheld]
    exact h cached term' (List.mem_of_getElem? hslot)
  · cases hheld

theorem keep_sound (h : memo.Sound answer) {code : TermCode} {term : τ}
    (hterm : answer code = .ok term) : (memo.keep code term).Sound answer := by
  rw [keep]
  split_ifs
  · exact h
  · intro code' term' hmem
    rcases List.mem_or_eq_of_mem_set hmem with hold | hnew
    · exact h code' term' hold
    · cases hnew
      exact hterm

theorem getOrInsert_answers {inv quits : σ → Prop} {code : TermCode}
    {decode : Prog VortexRdfError σ τ} (h : Answers inv quits decode (answer code)) :
    Answers (fun s => s.1.Sound answer ∧ inv s.2) (fun s => quits s.2)
      (getOrInsert code decode) (answer code) := by
  rintro ⟨memo, src⟩ ⟨hmemo, hinv⟩
  rw [getOrInsert]
  by_cases hempty : memo.slots.isEmpty = true
  · rw [if_pos hempty]
    rcases h src hinv with ⟨term, src', hrun, hinv', hterm⟩ | ⟨e, src', hrun, hinv', hend⟩
    · exact Or.inl ⟨term, (memo, src'), by rw [hrun], ⟨hmemo, hinv'⟩, hterm⟩
    · exact Or.inr ⟨e, (memo, src'), by rw [hrun], ⟨hmemo, hinv'⟩, hend⟩
  · rw [if_neg hempty]
    cases hheld : memo.held code with
    | some term => exact Or.inl ⟨term, _, rfl, ⟨hmemo, hinv⟩, held_eq hmemo hheld⟩
    | none =>
      rcases h src hinv with ⟨term, src', hrun, hinv', hterm⟩ | ⟨e, src', hrun, hinv', hend⟩
      · refine Or.inl ⟨term, (TermMemo.keep { memo with admission := memo.admission.miss } code term,
          src'), by simp only [hrun], ⟨?_, hinv'⟩, hterm⟩
        exact keep_sound (show Sound answer { memo with admission := memo.admission.miss } from hmemo)
          hterm
      · exact Or.inr ⟨e, (memo, src'), by simp only [hrun], ⟨hmemo, hinv'⟩, hend⟩

end TermMemo

section Memos

variable {T : Role → Type} {answer : (role : Role) → TermCode → Except VortexRdfError (T role)}

/-- Every role's memo is sound, and the source is as it should be. -/
def Memoized (answer : (role : Role) → TermCode → Except VortexRdfError (T role))
    (inv : σ → Prop) (s : Memos T × σ) : Prop :=
  (∀ role, (s.1 role).Sound (answer role)) ∧ inv s.2

theorem atRole_answers {inv quits : σ → Prop} {role : Role} {code : TermCode}
    {decode : Prog VortexRdfError σ (T role)} (h : Answers inv quits decode (answer role code)) :
    Answers (Memoized answer inv) (fun s => quits s.2)
      (atRole role (TermMemo.getOrInsert code decode)) (answer role code) := by
  rintro ⟨memos, src⟩ ⟨hmemos, hinv⟩
  have hother : ∀ {memo : TermMemo (T role)}, memo.Sound (answer role) →
      ∀ role', (Function.update memos role memo role').Sound (answer role') := by
    intro memo hmemo role'
    by_cases hrole : role' = role
    · subst hrole
      rwa [Function.update_self]
    · rw [Function.update_of_ne hrole]
      exact hmemos role'
  rcases TermMemo.getOrInsert_answers h (memos role, src) ⟨hmemos role, hinv⟩ with
    ⟨term, ⟨memo, src'⟩, hrun, ⟨hmemo, hinv'⟩, hterm⟩ |
    ⟨e, ⟨memo, src'⟩, hrun, ⟨hmemo, hinv'⟩, hend⟩
  · exact Or.inl ⟨term, (Function.update memos role memo, src'), by rw [atRole, hrun],
      ⟨hother hmemo, hinv'⟩, hterm⟩
  · exact Or.inr ⟨e, (Function.update memos role memo, src'), by rw [atRole, hrun],
      ⟨hother hmemo, hinv'⟩, hend⟩

end Memos

/-! ### Quads -/

variable {src : TermSource σ} {inv : σ → Prop} {answer : TermCode → Except VortexRdfError Str}

/-- A role's term, read and parsed. -/
def quadAnswer (ox : Oxrdf) (answer : TermCode → Except VortexRdfError Str) :
    (role : Role) → TermCode → Except VortexRdfError (QuadTerm role)
  | .s, code => answer code >>= fun t => subject ox t .stored
  | .p, code => answer code >>= fun t => namedNode ox t .stored
  | .o, code => answer code >>= fun t => term ox t .stored
  | .g, code => answer code >>= fun t => graphName ox t .stored

/-- A row read and parsed without a memo. -/
def rowQuad (ox : Oxrdf) (answer : TermCode → Except VortexRdfError Str) (codes : CodeRow) :
    Except VortexRdfError Quad := do
  let subject ← quadAnswer ox answer .s (codes .s)
  let predicate ← quadAnswer ox answer .p (codes .p)
  let object ← quadAnswer ox answer .o (codes .o)
  let graph ← quadAnswer ox answer .g (codes .g)
  return ⟨subject, predicate, object, graph⟩

theorem quadRow_answers {ox : Oxrdf} {quits : σ → Prop} {codes : CodeRow}
    (h : ∀ role, Answers inv quits (src.strAt role (codes role)) (answer (codes role))) :
    Answers (Memoized (quadAnswer ox answer) inv) (fun s => quits s.2) (quadRow ox src codes)
      (rowQuad ox answer codes) := by
  refine Answers.bind (atRole_answers ((h .s).parse _)) fun subject => ?_
  refine Answers.bind (atRole_answers ((h .p).parse _)) fun predicate => ?_
  refine Answers.bind (atRole_answers ((h .o).parse _)) fun object => ?_
  refine Answers.bind (atRole_answers ((h .g).parse _)) fun graph => ?_
  exact Answers.pure _

theorem rowsLoop_spec {S α : Type} {row : CodeRow → Prog VortexRdfError S α} {gaveUp : S → Bool}
    {inv : S → Prop} {g : CodeRow → Except VortexRdfError α} : ∀ {rows : List CodeRow},
    (∀ codes ∈ rows, Answers inv (fun s => gaveUp s = true) (row codes) (g codes)) →
    ∀ {s : S}, inv s → (rowsLoop row gaveUp rows s).1 = rows.map g ∨
      gaveUp (rowsLoop row gaveUp rows s).2 = true
  | [], _, _, _ => Or.inl rfl
  | codes :: rest, h, s, hs => by
    have hrest := fun codes' hmem => h codes' (List.mem_cons_of_mem codes hmem)
    rcases h codes List.mem_cons_self s hs with ⟨a, s', hrun, hs', hg⟩ | ⟨e, s', hrun, hs', hend⟩
    · rw [rowsLoop, hrun]
      refine (rowsLoop_spec hrest hs').imp_left fun heq => ?_
      rw [List.map_cons, hg, ← heq]
    · rw [rowsLoop, hrun]
      by_cases hgave : gaveUp s' = true
      · simp only [if_pos hgave]
        exact Or.inr hgave
      · simp only [if_neg hgave]
        refine (rowsLoop_spec hrest hs').imp_left fun heq => ?_
        rw [List.map_cons, hend.resolve_right hgave, ← heq]

theorem decodeRows_spec (ox : Oxrdf) {rows : List CodeRow} (h : src.Reads inv answer rows) {s : σ}
    (hs : inv s) : (decodeRows ox src rows s).1 = rows.map (rowQuad ox answer) ∨
      src.gaveUp (decodeRows ox src rows s).2 = true :=
  rowsLoop_spec (fun codes hmem => quadRow_answers (h codes hmem))
    ⟨fun _ => TermMemo.new_sound rows.length, hs⟩

/-! ### Rows of strings -/

/-- A row of strings read without a memo. -/
def rowStrings {R : Type} (fromTerms : Str → Str → Str → Str → R)
    (answer : TermCode → Except VortexRdfError Str) (codes : CodeRow) : Except VortexRdfError R := do
  let s ← answer (codes .s)
  let p ← answer (codes .p)
  let o ← answer (codes .o)
  let g ← answer (codes .g)
  return fromTerms s p o g

theorem stringRow_answers {R : Type} (fromTerms : Str → Str → Str → Str → R) {quits : σ → Prop}
    {codes : CodeRow}
    (h : ∀ role, Answers inv quits (src.strAt role (codes role)) (answer (codes role))) :
    Answers (Memoized (fun _ => answer) inv) (fun s => quits s.2) (stringRow fromTerms src codes)
      (rowStrings fromTerms answer codes) := by
  refine Answers.bind (atRole_answers (h .s)) fun s => ?_
  refine Answers.bind (atRole_answers (h .p)) fun p => ?_
  refine Answers.bind (atRole_answers (h .o)) fun o => ?_
  refine Answers.bind (atRole_answers (h .g)) fun g => ?_
  exact Answers.pure _

theorem decodeRowsShared_spec {R : Type} (fromTerms : Str → Str → Str → Str → R)
    {rows : List CodeRow} (h : src.Reads inv answer rows) {s : σ} (hs : inv s) :
    (decodeRowsShared fromTerms src rows s).1 =
        chunkRows (rows.mapM (rowStrings fromTerms answer)) ∨
      src.gaveUp (decodeRowsShared fromTerms src rows s).2 = true := by
  have hrows := Answers.mapM fun codes hmem => stringRow_answers fromTerms (h codes hmem)
  rcases hrows (fun _ => TermMemo.admitting rows.length, s)
      ⟨fun _ => TermMemo.admitting_sound rows.length, hs⟩ with
    ⟨decoded, s', hrun, -, heq⟩ | ⟨e, s', hrun, -, hend⟩
  · rw [decodeRowsShared, hrun, heq]
    exact Or.inl rfl
  · rw [decodeRowsShared, hrun]
    exact hend.imp_left fun heq => by rw [heq]

end Dictionary
