/-
The decoder of code rows into lines.

The memo of this decoder starts with its slots on `TERM_CODE_MAX` and an empty span, so
that code is taken for one already written, as nothing, until another code of its slot
displaces it.  Apart from this the decoder writes what reading every code would.

* `Fresh`, `spanAnswer` — a column so far with the slot not displaced, and what the
  decoder takes a code's term for after it;
* `SpanMemo.Sound` — a memo holds where such terms lie in the lines;
* `writeTerm_spec`, `writeRows_spec` — one term and all the rows written;
* `lineRows_eq_push`, `lineRows_isOk`, `lineRows_isError` — the lines that come out.
-/
import VortexRdf.RowDecoders

namespace Dictionary

open Programs Store Terms

variable {σ : Type}

/-- No code of a column so far has displaced the one the empty slots hold. -/
def Fresh (past : List TermCode) : Prop :=
  ∀ code ∈ past, SpanMemo.slot code = SpanMemo.slot TERM_CODE_MAX → code = TERM_CODE_MAX

instance (past : List TermCode) : Decidable (Fresh past) := List.decidableBAll _ past

/-- What the decoder takes a code's term for, after the codes before it in its
column. -/
def spanAnswer (answer : TermCode → Except VortexRdfError Str) (past : List TermCode)
    (code : TermCode) : Except VortexRdfError Str :=
  if code = TERM_CODE_MAX ∧ Fresh past then .ok [] else answer code

variable {answer : TermCode → Except VortexRdfError Str} {past : List TermCode} {code : TermCode}

theorem spanAnswer_of_ne (h : code ≠ TERM_CODE_MAX) :
    spanAnswer answer past code = answer code :=
  if_neg fun hcode => h hcode.1

theorem spanAnswer_fresh (h : Fresh past) : spanAnswer answer past TERM_CODE_MAX = .ok [] :=
  if_pos ⟨rfl, h⟩

theorem spanAnswer_displaced (h : ¬ Fresh past) : spanAnswer answer past code = answer code :=
  if_neg fun hcode => h hcode.2

theorem Fresh.of_append {code : TermCode} (h : Fresh (past ++ [code])) : Fresh past :=
  fun code' hmem => h code' (List.mem_append_left _ hmem)

/-- A code leaves the answers of its own and of other slots as they were. -/
theorem spanAnswer_append {code' : TermCode}
    (h : code' = code ∨ SpanMemo.slot code' ≠ SpanMemo.slot code) :
    spanAnswer answer (past ++ [code]) code' = spanAnswer answer past code' := by
  by_cases hmax : code' = TERM_CODE_MAX
  · subst hmax
    have hfresh : Fresh (past ++ [code]) ↔ Fresh past := by
      refine ⟨Fresh.of_append, fun hfresh c hmem => ?_⟩
      rcases List.mem_append.mp hmem with hold | hnew
      · exact hfresh c hold
      · obtain rfl := List.mem_singleton.mp hnew
        rcases h with heq | hne
        · exact fun _ => heq.symm
        · exact fun hslot => absurd hslot.symm hne
    simp only [spanAnswer, hfresh]
  · rw [spanAnswer_of_ne hmax, spanAnswer_of_ne hmax]

/-! ### The memo -/

namespace SpanMemo

variable {memo : SpanMemo} {text : Str}

theorem slot_lt (code : TermCode) : slot code < SPAN_SLOTS :=
  Nat.lt_of_le_of_lt Nat.and_le_right (by decide)

theorem get_put_self (hlen : memo.length = SPAN_SLOTS) (span : ℕ × ℕ) :
    (memo.put code span).get code = some span := by
  rw [get, put, List.getElem?_set_self (by rw [hlen]; exact slot_lt code)]
  exact if_pos rfl

theorem get_put_of_slot_ne {code' : TermCode} (h : slot code' ≠ slot code) (span : ℕ × ℕ) :
    (memo.put code span).get code' = memo.get code' := by
  rw [get, put, List.getElem?_set_ne (Ne.symm h)]
  rfl

theorem get_put_of_ne {code' : TermCode} (hlen : memo.length = SPAN_SLOTS) (hne : code' ≠ code)
    (h : slot code' = slot code) (span : ℕ × ℕ) : (memo.put code span).get code' = none := by
  rw [get, put, h, List.getElem?_set_self (by rw [hlen]; exact slot_lt code)]
  exact if_neg (Ne.symm hne)

/-- The memo of a column with the codes `past` written into `text`. -/
structure Sound (answer : TermCode → Except VortexRdfError Str) (past : List TermCode)
    (text : Str) (memo : SpanMemo) : Prop where
  length : memo.length = SPAN_SLOTS
  held : ∀ code a b, memo.get code = some (a, b) →
    b ≤ text.length ∧ spanAnswer answer past code = .ok ((text.take b).drop a)
  fresh : Fresh past → ∃ span, memo.get TERM_CODE_MAX = some span

theorem new_get {span : ℕ × ℕ} (h : new.get code = some span) :
    code = TERM_CODE_MAX ∧ span = (0, 0) := by
  rw [get, new, List.getElem?_replicate_of_lt (slot_lt code)] at h
  simp only [Option.ite_none_right_eq_some, Option.some.injEq] at h
  exact ⟨h.1.symm, h.2.symm⟩

theorem new_sound : Sound answer [] text new where
  length := List.length_replicate
  held code a b h := by
    obtain ⟨rfl, hspan⟩ := new_get h
    cases hspan
    exact ⟨Nat.zero_le _, spanAnswer_fresh fun _ hmem => absurd hmem List.not_mem_nil⟩
  fresh _ := by
    refine ⟨(0, 0), ?_⟩
    rw [get, new, List.getElem?_replicate_of_lt (slot_lt _)]
    rfl

theorem Sound.append (h : Sound answer past text memo) (more : Str) :
    Sound answer past (text ++ more) memo where
  length := h.length
  held code a b hget := by
    obtain ⟨hb, hanswer⟩ := h.held code a b hget
    refine ⟨hb.trans (by rw [List.length_append]; omega), ?_⟩
    rw [hanswer, List.take_append_of_le_length hb]
  fresh := h.fresh

/-- A code's own answer is read where its slot does not hold it. -/
theorem Sound.read (h : Sound answer past text memo) (hget : memo.get code = none) :
    spanAnswer answer past code = answer code := by
  by_cases hcode : code = TERM_CODE_MAX
  · subst hcode
    refine spanAnswer_displaced fun hfresh => ?_
    obtain ⟨span, hspan⟩ := h.fresh hfresh
    rw [hget] at hspan
    cases hspan
  · exact spanAnswer_of_ne hcode

theorem Sound.put (h : Sound answer past text memo) {t : Str}
    (hterm : spanAnswer answer past code = .ok t) :
    Sound answer (past ++ [code]) (text ++ t)
      (memo.put code (text.length, (text ++ t).length)) where
  length := by rw [SpanMemo.put, List.length_set, h.length]
  held code' a b hget := by
    by_cases hcode : code' = code
    · subst hcode
      rw [get_put_self h.length, Option.some.injEq, Prod.mk.injEq] at hget
      obtain ⟨rfl, rfl⟩ := hget
      rw [spanAnswer_append (Or.inl rfl), hterm, List.take_length, List.drop_left]
      exact ⟨le_rfl, rfl⟩
    · by_cases hslot : slot code' = slot code
      · rw [get_put_of_ne h.length hcode hslot] at hget
        cases hget
      · rw [get_put_of_slot_ne hslot] at hget
        rw [spanAnswer_append (Or.inr hslot)]
        exact (h.append t).held code' a b hget
  fresh hfresh := by
    by_cases hcode : code = TERM_CODE_MAX
    · subst hcode
      exact ⟨_, get_put_self h.length _⟩
    · have hslot : slot TERM_CODE_MAX ≠ slot code := fun hslot =>
        hcode (hfresh code (List.mem_append_right _ (List.mem_singleton_self code)) hslot.symm)
      rw [get_put_of_slot_ne hslot]
      exact h.fresh hfresh.of_append

end SpanMemo

/-! ### One term -/

/-- The lines with a role's term and the space after it. -/
def NQuadLines.write (lines : NQuadLines) (role : Role) (t : Str) : NQuadLines :=
  if role ≠ .g ∨ t ≠ [] then ⟨lines.text ++ t ++ [SPACE], lines.namedGraph || role == .g⟩
  else lines

/-- The state after the codes `past` of each column have been written as `lines`. -/
structure Written (answer : TermCode → Except VortexRdfError Str) (inv : σ → Prop)
    (past : Role → List TermCode) (lines : NQuadLines) (st : LineState σ) : Prop where
  lines : st.lines = lines
  source : inv st.source
  spans : ∀ role, (st.spans role).Sound answer (past role) st.lines.text

variable {src : TermSource σ} {inv quits : σ → Prop} {columns : Role → List TermCode}
  {lines : NQuadLines}

theorem spanOrRead_spec {role : Role} {code : TermCode} {st : LineState σ}
    (h : Answers inv quits (src.strAt role code) (answer code))
    (hst : Written answer inv columns lines st) :
    (∃ t source, spanOrRead src role code st = (.ok t, source) ∧ inv source ∧
      spanAnswer answer (columns role) code = .ok t) ∨
    ∃ e source, spanOrRead src role code st = (.error e, source) ∧ inv source ∧
      (spanAnswer answer (columns role) code = .error e ∨ quits source) := by
  rw [spanOrRead]
  cases hget : (st.spans role).get code with
  | some span =>
    exact Or.inl ⟨_, st.source, rfl, hst.source, ((hst.spans role).held code _ _ hget).2⟩
  | none =>
    rw [(hst.spans role).read hget]
    rcases h st.source hst.source with ⟨t, source, hrun, hinv, ht⟩ | ⟨e, source, hrun, hinv, hend⟩
    · exact Or.inl ⟨t, source, hrun, hinv, ht⟩
    · exact Or.inr ⟨e, source, hrun, hinv, hend⟩

theorem writeTerm_spec {role : Role} {code : TermCode} {st : LineState σ}
    (h : Answers inv quits (src.strAt role code) (answer code))
    (hst : Written answer inv columns lines st) :
    (∃ t st', writeTerm src role code st = (.ok (), st') ∧
      spanAnswer answer (columns role) code = .ok t ∧
      Written answer inv (Function.update columns role (columns role ++ [code]))
        (lines.write role t) st') ∨
    ∃ e st', writeTerm src role code st = (.error e, st') ∧ inv st'.source ∧
      (spanAnswer answer (columns role) code = .error e ∨ quits st'.source) := by
  rcases spanOrRead_spec h hst with ⟨t, source, hread, hinv, ht⟩ | ⟨e, source, hread, hinv, hend⟩
  · obtain ⟨spans, hspans⟩ : ∃ spans, spans = Function.update st.spans role
      ((st.spans role).put code (st.lines.text.length, (st.lines.text ++ t).length)) := ⟨_, rfl⟩
    have hsound : ∀ more : Str, ∀ role',
        (spans role').Sound answer (Function.update columns role (columns role ++ [code]) role')
          (st.lines.text ++ t ++ more) := by
      intro more role'
      rw [hspans]
      by_cases hrole : role' = role
      · subst hrole
        rw [Function.update_self, Function.update_self]
        exact ((hst.spans role').put ht).append more
      · rw [Function.update_of_ne hrole, Function.update_of_ne hrole]
        exact ((hst.spans role').append t).append more
    have hlt : st.lines.text.length < (st.lines.text ++ t).length ↔ t ≠ [] := by
      rw [List.length_append, ← List.length_pos_iff]
      omega
    by_cases hspace : role ≠ .g ∨ t ≠ []
    · refine Or.inl ⟨t, ⟨⟨st.lines.text ++ t ++ [SPACE], st.lines.namedGraph || role == .g⟩, spans,
        source⟩, ?_, ht, ⟨?_, hinv, hsound [SPACE]⟩⟩
      · rw [writeTerm, hread, hspans]
        exact if_pos (hspace.imp_right hlt.mpr)
      · rw [NQuadLines.write, if_pos hspace, hst.lines]
    · obtain rfl : t = [] := by
        by_contra hne
        exact hspace (Or.inr hne)
      have hsound := hsound []
      rw [List.append_nil] at hsound
      refine Or.inl ⟨[], ⟨⟨st.lines.text ++ [], st.lines.namedGraph⟩, spans, source⟩, ?_, ht,
        ⟨?_, hinv, hsound⟩⟩
      · rw [writeTerm, hread, hspans]
        exact if_neg fun hor => hspace (hor.imp_right hlt.mp)
      · rw [NQuadLines.write, if_neg hspace, ← hst.lines, List.append_nil]
  · exact Or.inr ⟨e, { st with source := source }, by rw [writeTerm, hread], hinv, hend⟩

/-! ### Rows -/

/-- The terms of a row after the lines, each as the decoder takes it. -/
def lineTerms (answer : TermCode → Except VortexRdfError Str) (columns : Role → List TermCode)
    (codes : CodeRow) : List Role → NQuadLines → Except VortexRdfError NQuadLines
  | [], lines => .ok lines
  | role :: roles, lines => do
    let t ← spanAnswer answer (columns role) (codes role)
    lineTerms answer columns codes roles (lines.write role t)

def NQuadLines.stop (lines : NQuadLines) : NQuadLines :=
  { lines with text := lines.text ++ LINE_END }

/-- The columns with one more row. -/
def after (columns : Role → List TermCode) (codes : CodeRow) (role : Role) : List TermCode :=
  columns role ++ [codes role]

/-- The lines of rows after others, each term as the decoder takes it. -/
def lineRows (answer : TermCode → Except VortexRdfError Str) :
    (Role → List TermCode) → NQuadLines → List CodeRow → Except VortexRdfError NQuadLines
  | _, lines, [] => .ok lines
  | columns, lines, codes :: rest => do
    let lines ← lineTerms answer columns codes [.s, .p, .o, .g] lines
    lineRows answer (after columns codes) lines.stop rest

theorem lineTerms_congr {columns' : Role → List TermCode} {codes : CodeRow} : ∀ {roles : List Role}
    {lines : NQuadLines}, (∀ role ∈ roles, columns role = columns' role) →
    lineTerms answer columns codes roles lines = lineTerms answer columns' codes roles lines
  | [], _, _ => rfl
  | role :: roles, lines, h => by
    rw [lineTerms, lineTerms, h role List.mem_cons_self]
    congr 1
    funext t
    exact lineTerms_congr fun role' hmem => h role' (List.mem_cons_of_mem role hmem)

theorem writeTerms_spec {codes : CodeRow}
    (h : ∀ role, Answers inv quits (src.strAt role (codes role)) (answer (codes role))) :
    ∀ (roles : List Role) {columns : Role → List TermCode} {lines : NQuadLines} {st : LineState σ},
    roles.Nodup → Written answer inv columns lines st →
    (∃ lines' st' columns', writeTerms src codes roles st = (.ok (), st') ∧
      lineTerms answer columns codes roles lines = .ok lines' ∧
      Written answer inv columns' lines' st' ∧
      ∀ role, columns' role = if role ∈ roles then after columns codes role else columns role) ∨
    ∃ e st', writeTerms src codes roles st = (.error e, st') ∧ inv st'.source ∧
      (lineTerms answer columns codes roles lines = .error e ∨ quits st'.source)
  | [], columns, lines, st, _, hst => Or.inl ⟨lines, st, columns, rfl, rfl, hst, fun _ => rfl⟩
  | role :: roles, columns, lines, st, hnodup, hst => by
    have hnot : ∀ {role'}, role' ∈ roles → role' ≠ role := by
      rintro role' hmem rfl
      exact (List.nodup_cons.mp hnodup).1 hmem
    rcases writeTerm_spec (h role) hst with ⟨t, st₁, hrun, ht, hst₁⟩ | ⟨e, st₁, hrun, hinv, hend⟩
    · have hcongr : lineTerms answer columns codes (role :: roles) lines =
          lineTerms answer (Function.update columns role (columns role ++ [codes role])) codes roles
            (lines.write role t) := by
        rw [lineTerms, ht]
        exact lineTerms_congr fun role' hmem => (Function.update_of_ne (hnot hmem) ..).symm
      rw [hcongr, writeTerms, Prog.bind_ok hrun]
      rcases writeTerms_spec h roles (List.nodup_cons.mp hnodup).2 hst₁ with
        ⟨lines', st', columns', hrun', hlines, hst', hcolumns⟩ | ⟨e, st', hrun', hinv, hend⟩
      · refine Or.inl ⟨lines', st', columns', hrun', hlines, hst', fun role' => ?_⟩
        rw [hcolumns role']
        by_cases hrole : role' = role
        · subst hrole
          rw [if_neg (List.nodup_cons.mp hnodup).1, if_pos List.mem_cons_self,
            Function.update_self, after]
        · simp only [List.mem_cons, hrole, false_or, after, Function.update_of_ne hrole]
      · exact Or.inr ⟨e, st', hrun', hinv, hend⟩
    · rw [writeTerms, Prog.bind_error hrun]
      refine Or.inr ⟨e, st₁, rfl, hinv, hend.imp_left fun hbad => ?_⟩
      rw [lineTerms, hbad]
      rfl

theorem writeRows_spec : ∀ {rows : List CodeRow} {columns : Role → List TermCode}
    {lines : NQuadLines} {st : LineState σ}, src.Reads inv answer rows →
    Written answer inv columns lines st →
    (∃ lines' st', writeRows src rows st = (.ok (), st') ∧
      lineRows answer columns lines rows = .ok lines' ∧ st'.lines = lines') ∨
    ∃ e st', writeRows src rows st = (.error e, st') ∧
      (lineRows answer columns lines rows = .error e ∨ src.gaveUp st'.source = true)
  | [], _, lines, st, _, hst => Or.inl ⟨lines, st, rfl, rfl, hst.lines⟩
  | codes :: rest, columns, lines, st, h, hst => by
    rw [writeRows, writeRow, lineRows]
    rcases writeTerms_spec (h codes List.mem_cons_self) [.s, .p, .o, .g] (by decide) hst
      with ⟨lines', st', columns', hrun, hlines, hst', hcolumns⟩ | ⟨e, st', hrun, hinv, hend⟩
    · have hafter : columns' = after columns codes := by
        funext role
        rw [hcolumns role, if_pos (by cases role <;> decide)]
      have hstop : Written answer inv (after columns codes) lines'.stop
          { st' with lines := st'.lines.stop } :=
        ⟨congrArg NQuadLines.stop hst'.lines, hst'.source,
          fun role => hafter ▸ (hst'.spans role).append LINE_END⟩
      have hrow : (writeTerms src codes [.s, .p, .o, .g] >>= fun _ => writeEnd) st =
          (.ok (), { st' with lines := st'.lines.stop }) := Prog.bind_ok hrun
      rw [Prog.bind_ok hrow, hlines]
      exact writeRows_spec (fun codes' hmem => h codes' (List.mem_cons_of_mem codes hmem)) hstop
    · have hrow : (writeTerms src codes [.s, .p, .o, .g] >>= fun _ => writeEnd) st =
          (.error e, st') := Prog.bind_error hrun
      rw [Prog.bind_error hrow]
      refine Or.inr ⟨e, st', rfl, hend.imp_left fun hbad => ?_⟩
      rw [hbad]
      rfl

/-- The lines of the rows, or the chunk's one error. -/
def chunkLines : Except VortexRdfError NQuadLines → List (Except VortexRdfError NQuadLines)
  | .ok lines => [.ok lines]
  | .error error => [.error error]

theorem nquadLines_spec {rows : List CodeRow} (h : src.Reads inv answer rows) {s : σ} (hs : inv s) :
    (NQuadLines.fromCodes src rows s).1 =
        chunkLines (lineRows answer (fun _ => []) .empty rows) ∨
      src.gaveUp (NQuadLines.fromCodes src rows s).2 = true := by
  have hst : Written answer inv (fun _ => []) .empty
      (⟨.empty, fun _ => SpanMemo.new, s⟩ : LineState σ) :=
    ⟨rfl, hs, fun _ => SpanMemo.new_sound⟩
  rcases writeRows_spec h hst with ⟨lines, st, hrun, hlines, rfl⟩ | ⟨e, st, hrun, hend⟩
  · rw [NQuadLines.fromCodes, hrun, hlines]
    exact Or.inl rfl
  · rw [NQuadLines.fromCodes, hrun]
    exact hend.imp_left fun hbad => by rw [hbad]; rfl

/-! ### The lines that come out -/

theorem lineTerms_eq_ok {codes : CodeRow} {t : Role → Str} : ∀ {roles : List Role}
    {lines : NQuadLines}, (∀ role ∈ roles, spanAnswer answer (columns role) (codes role) = .ok (t role)) →
    lineTerms answer columns codes roles lines =
      .ok (roles.foldl (fun lines role => lines.write role (t role)) lines)
  | [], _, _ => rfl
  | role :: roles, lines, h => by
    rw [lineTerms, h role List.mem_cons_self]
    exact lineTerms_eq_ok fun role' hmem => h role' (List.mem_cons_of_mem role hmem)

theorem lineTerms_isError {codes : CodeRow} {role : Role} {e : VortexRdfError} :
    ∀ (roles : List Role) (lines : NQuadLines), role ∈ roles →
    spanAnswer answer (columns role) (codes role) = .error e →
    ∃ e, lineTerms answer columns codes roles lines = .error e
  | role' :: roles, lines, hmem, hbad => by
    rw [lineTerms]
    cases hterm : spanAnswer answer (columns role') (codes role') with
    | error e' => exact ⟨e', rfl⟩
    | ok t =>
      rcases List.mem_cons.mp hmem with rfl | htail
      · rw [hterm] at hbad
        cases hbad
      · exact lineTerms_isError roles _ htail hbad

/-- A row whose four terms are known is pushed whole. -/
theorem foldl_write (lines : NQuadLines) (t : Role → Str) :
    ([Role.s, .p, .o, .g].foldl (fun lines role => lines.write role (t role)) lines).stop =
      lines.push (t .s) (t .p) (t .o) (t .g) := by
  have hterm : ∀ (lines : NQuadLines) {role : Role}, role ≠ .g → ∀ t, lines.write role t = lines.term t := by
    intro lines role hrole t
    rw [NQuadLines.write, if_pos (Or.inl hrole), NQuadLines.term, beq_eq_false_iff_ne.mpr hrole,
      Bool.or_false]
  have hs := hterm lines (show Role.s ≠ .g by decide) (t .s)
  have hp := hterm (lines.term (t .s)) (show Role.p ≠ .g by decide) (t .p)
  have ho := hterm ((lines.term (t .s)).term (t .p)) (show Role.o ≠ .g by decide) (t .o)
  simp only [List.foldl_cons, List.foldl_nil, hs, hp, ho, NQuadLines.push]
  by_cases hg : t .g = []
  · rw [NQuadLines.write, if_neg (by simp [hg]), NQuadLines.endLine, if_pos hg, NQuadLines.stop]
  · rw [NQuadLines.write, if_pos (Or.inr hg), NQuadLines.endLine, if_neg hg, NQuadLines.stop]
    simp [NQuadLines.term]

/-- Rows whose codes are all answered, none of them the empty slots' code, are
written as they are. -/
theorem lineRows_eq_push {t : TermCode → Str} : ∀ {rows : List CodeRow}
    {columns : Role → List TermCode} {lines : NQuadLines},
    (∀ codes ∈ rows, ∀ role, codes role ≠ TERM_CODE_MAX ∧ answer (codes role) = .ok (t (codes role))) →
    lineRows answer columns lines rows = .ok (rows.foldl (fun lines codes =>
      lines.push (t (codes .s)) (t (codes .p)) (t (codes .o)) (t (codes .g))) lines)
  | [], _, _, _ => rfl
  | codes :: rest, columns, lines, h => by
    have hrow : ∀ role ∈ [Role.s, .p, .o, .g],
        spanAnswer answer (columns role) (codes role) = .ok (t (codes role)) := by
      intro role _
      obtain ⟨hne, hok⟩ := h codes List.mem_cons_self role
      rw [spanAnswer_of_ne hne, hok]
    rw [lineRows, lineTerms_eq_ok hrow]
    refine (lineRows_eq_push fun codes' hmem => h codes' (List.mem_cons_of_mem codes hmem)).trans ?_
    rw [foldl_write lines fun role => t (codes role), List.foldl_cons]

/-- The lines are written when no row's term fails after the rows before it. -/
theorem lineRows_isOk : ∀ {rows : List CodeRow} {columns : Role → List TermCode} {lines : NQuadLines},
    (∀ before codes rest, rows = before ++ codes :: rest → ∀ role,
      ∃ t, spanAnswer answer (columns role ++ column before role) (codes role) = .ok t) →
    ∃ lines', lineRows answer columns lines rows = .ok lines'
  | [], _, lines, _ => ⟨lines, rfl⟩
  | codes :: rest, columns, lines, h => by
    have hrow : ∀ role, ∃ t, spanAnswer answer (columns role) (codes role) = .ok t := by
      intro role
      simpa [column] using h [] codes rest rfl role
    choose t ht using hrow
    rw [lineRows, lineTerms_eq_ok fun role _ => ht role]
    refine lineRows_isOk fun before codes' rest' heq role => ?_
    have := h (codes :: before) codes' rest' (by rw [heq]; rfl) role
    simpa [column, after] using this

theorem lineRows_isError {codes : CodeRow} {rest : List CodeRow} {role : Role} {e : VortexRdfError} :
    ∀ {before : List CodeRow} {columns : Role → List TermCode} {lines : NQuadLines},
    spanAnswer answer (columns role ++ column before role) (codes role) = .error e →
    ∃ e, lineRows answer columns lines (before ++ codes :: rest) = .error e
  | [], columns, lines, h => by
    rw [column, List.map_nil, List.append_nil] at h
    obtain ⟨e', he'⟩ := lineTerms_isError [.s, .p, .o, .g] lines
      (by cases role <;> decide) h
    exact ⟨e', by rw [List.nil_append, lineRows, he']; rfl⟩
  | first :: before, columns, lines, h => by
    rw [List.cons_append, lineRows]
    cases hrow : lineTerms answer columns first [.s, .p, .o, .g] lines with
    | error e' => exact ⟨e', rfl⟩
    | ok lines' =>
      have hafter : spanAnswer answer (after columns first role ++ column before role) (codes role) =
          .error e := by simpa [column, after] using h
      exact lineRows_isError hafter

end Dictionary
