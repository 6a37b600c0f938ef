/-
A file system, and programs of calls to it that may fail or be cut short.

Each call meets an event: what others did before it, and whether it is served, fails, or is in
flight when its program is dropped; a call in flight at a drop takes effect at once, not at all,
or only after the program has cleaned up.  A world keeps the calls made, with the files before
and after each.

* `Path`, `Node`, `FS` — names, what stands under them, and the whole;
* `Call`, `Call.run` — the calls, and what each does when it is served;
* `World`, `perform`, `guarded` — a program's calls, and a file removed unless it ends well;
* `EndsAt`, `Reaches` — where a chain of links ends, and where it leads on its way;
* `perform_cases`, `Triple.perform`, `Triple.guarded` — what a call and a guard leave;
* `Kept` — what a program's calls keep of its history, with the same rules.
-/
import VortexRdf.Programs

namespace FileSystem

open Programs

/-! ### Names and files -/

/-- A last component that names an entry of its directory. -/
structure Name where
  chars : List Char
  proper : chars ≠ ['.', '.']
deriving DecidableEq

structure Path where
  dir : List String
  name : Name
deriving DecidableEq

/-- What a link says.  A link to `..` is taken for the directory it leads to. -/
inductive LinkText where
  | absolute (path : Path)
  | relative (dirs : List String) (name : Name)
deriving DecidableEq

/-- The path a link in `dir` leads to. -/
def join (dir : List String) : LinkText → Path
  | .absolute path => path
  | .relative dirs name => ⟨dir ++ dirs, name⟩

/-- A file name up to its last point; all of it without one, or with one in front alone. -/
def fileStem (name : List Char) : List Char :=
  match name.reverse.dropWhile (· ≠ '.') with
  | [] => name
  | _ :: before => if before = [] then name else before.reverse

/-- Permission bits. -/
abbrev Mode := BitVec 12

inductive Who where
  | owner
  | group
  | others
deriving DecidableEq

def reads (mode : Mode) : Who → Bool
  | .owner => mode.getLsbD 8
  | .group => mode.getLsbD 5
  | .others => mode.getLsbD 2

structure Identity where
  dev : UInt64
  ino : UInt64
deriving DecidableEq

structure File where
  bytes : List UInt8
  mode : Mode
  identity : Identity
deriving DecidableEq

inductive Node where
  | link (text : LinkText)
  | file (f : File)
  | dir (identity : Identity)
  | stream (identity : Identity)
  | special (identity : Identity)
deriving DecidableEq

namespace Node

def isDir : Node → Bool
  | dir _ => true
  | _ => false

def identity : Node → Option Identity
  | link _ => none
  | file f => some f.identity
  | dir identity => some identity
  | stream identity => some identity
  | special identity => some identity

end Node

abbrev FS := Path → Option Node

inductive ErrorKind where
  | notFound
  | alreadyExists
  | permissionDenied
  | readOnlyFilesystem
  | isADirectory
  | invalidInput
  | other
deriving DecidableEq

/-- Where the links at a path end, at most `fuel` names looked up. -/
def follow (fs : FS) : ℕ → Path → Option Path
  | 0, _ => none
  | fuel + 1, p =>
    match fs p with
    | some (.link text) => follow fs fuel (join p.dir text)
    | _ => some p

/-- The links the system itself follows, and the name they end at. -/
def MAX_LOOKUPS : ℕ := 41

/-! ### Calls -/

inductive Call where
  | lstat (p : Path)
  | readLink (p : Path)
  | stat (p : Path)
  | openWrite (p : Path)
  | createNew (p : Path) (mode : Mode)
  | chmod (p : Path) (mode : Mode)
  | fill (p : Path) (bytes : List UInt8)
  | rename (p q : Path)
  | removeFile (p : Path)
  /-- Work that makes no call. -/
  | work

inductive Reply where
  | unit
  | node (n : Node)
  | text (t : LinkText)

/-- When a call in flight at a drop takes effect, against the cleanup. -/
inductive Effect where
  | never
  | before
  | after

inductive Answer where
  | served
  | failed (kind : ErrorKind)
  | dropped (effect : Effect)

structure Event where
  others : FS → FS
  answer : Answer
  umask : Mode
  identity : Identity
  /-- What a write that does not end well leaves. -/
  written : List UInt8

/-- What stands at the end of a path's links. -/
def statReply (fs : FS) (p : Path) : Except ErrorKind Node :=
  match follow fs MAX_LOOKUPS p with
  | none => .error .other
  | some q => (fs q).elim (.error .notFound) .ok

def openReply (fs : FS) (p : Path) : Except ErrorKind Reply :=
  match statReply fs p with
  | .ok (.dir _) => .error .isADirectory
  | .ok (.special _) => .error .other
  | .ok _ => .ok .unit
  | .error e => .error e

/-- A file changed, where there is one. -/
def alter (fs : FS) (p : Path) (change : File → File) : FS :=
  match fs p with
  | some (.file f) => Function.update fs p (some (.file (change f)))
  | _ => fs

/-- A call that is served. -/
def Call.run (e : Event) (fs : FS) : Call → Except ErrorKind Reply × FS
  | lstat p => ((fs p).elim (.error .notFound) fun n => .ok (.node n), fs)
  | readLink p =>
    (match fs p with
      | none => .error .notFound
      | some (.link text) => .ok (.text text)
      | some _ => .error .invalidInput, fs)
  | stat p => ((statReply fs p).map .node, fs)
  | openWrite p => (openReply fs p, fs)
  | createNew p mode =>
    if fs p = none then
      (.ok .unit, Function.update fs p (some (.file ⟨[], mode &&& ~~~e.umask, e.identity⟩)))
    else (.error .alreadyExists, fs)
  | chmod p mode =>
    if fs p = none then (.error .notFound, fs)
    else (.ok .unit, alter fs p ({ · with mode := mode }))
  | fill p bytes => (.ok .unit, alter fs p ({ · with bytes := bytes }))
  | rename p q =>
    match fs p with
    | none => (.error .notFound, fs)
    | some n =>
      if p = q then (.ok .unit, fs)
      else if (fs q).any Node.isDir then (.error .isADirectory, fs)
      else (.ok .unit, Function.update (Function.update fs q (some n)) p none)
  | removeFile p =>
    match fs p with
    | none => (.error .notFound, fs)
    | some n =>
      if n.isDir then (.error .isADirectory, fs) else (.ok .unit, Function.update fs p none)
  | work => (.ok .unit, fs)

/-- What a call that fails, or is never served, leaves. -/
def Call.cut (e : Event) (fs : FS) : Call → FS
  | fill p _ => alter fs p ({ · with bytes := e.written })
  | _ => fs

/-- Calls whose answer that there is nothing is no failure. -/
def Call.isLookup : Call → Bool
  | lstat _ => true
  | stat _ => true
  | _ => false

/-- Calls made without giving the program up in between. -/
def Call.isSync : Call → Bool
  | createNew _ _ => true
  | removeFile _ => true
  | _ => false

/-- The names whose files a call may change. -/
def Call.touches : Call → List Path
  | createNew p _ => [p]
  | chmod p _ => [p]
  | fill p _ => [p]
  | rename p q => [p, q]
  | removeFile p => [p]
  | _ => []

/-! ### Worlds and programs -/

structure Moment where
  call : Call
  failed : Bool
  before : FS
  after : FS

structure World where
  fs : FS
  events : ℕ → Event
  /-- The calls made, the newest first. -/
  trace : List Moment
  /-- A call in flight when its program was dropped, still to take effect. -/
  late : Option (Call × Event)

namespace World

def start (fs : FS) (events : ℕ → Event) : World := ⟨fs, events, [], none⟩

def event (w : World) : Event := w.events w.trace.length

/-- The files a call meets. -/
def met (w : World) : FS := w.event.others w.fs

def passed (w : World) (c : Call) (failed : Bool) (after : FS) : World :=
  { w with fs := after, trace := ⟨c, failed, w.met, after⟩ :: w.trace }

/-- The files once all is over. -/
def settled (w : World) : FS :=
  match w.late with
  | none => w.fs
  | some (c, e) => (c.run e w.fs).2

/-- Nobody else touches the files. -/
def Quiet (w : World) : Prop := ∀ i, (w.events i).others = id

theorem Quiet.met_eq {w : World} (h : w.Quiet) : w.met = w.fs := by
  rw [met, event, h w.trace.length]
  rfl

end World

/-- How a program stops short. -/
inductive Stop (ε : Type) where
  | error (e : ε)
  | dropped

variable {ε α β : Type}

def perform (c : Call) : Prog (Stop ε) World (Except ErrorKind Reply) := fun w =>
  let done := c.run w.event w.met
  let served := (.ok done.1, w.passed c false done.2)
  match w.event.answer with
  | .served => served
  | .failed kind =>
    if c.isLookup && kind == .notFound then served
    else (.ok (.error kind), w.passed c true (c.cut w.event w.met))
  | .dropped effect =>
    if c.isSync then served
    else
      match effect with
      | .never => (.error .dropped, w.passed c false (c.cut w.event w.met))
      | .before => (.error .dropped, w.passed c false done.2)
      | .after => (.error .dropped,
          { w.passed c false (c.cut w.event w.met) with late := some (c, w.event) })

def stop (e : ε) : Prog (Stop ε) World α := fun w => (.error (.error e), w)

/-- A program that removes a file unless it ends well; that it cannot be removed is ignored. -/
def guarded (p : Path) (body : Prog (Stop ε) World α) : Prog (Stop ε) World α := fun w =>
  match body w with
  | (.ok a, w') => (.ok a, w')
  | (.error e, w') => (.error e, ((perform (.removeFile p) : Prog (Stop ε) World _) w').2)

/-! ### Links -/

/-- The links at the first path end at the second. -/
inductive EndsAt (fs : FS) : Path → Path → Prop where
  | here {p : Path} (h : ∀ text, fs p ≠ some (.link text)) : EndsAt fs p p
  | link {p q : Path} {text : LinkText} (h : fs p = some (.link text))
      (hrest : EndsAt fs (join p.dir text) q) : EndsAt fs p q

/-- The links at the first path lead to the second, which may be a link in turn. -/
inductive Reaches (fs : FS) : Path → Path → Prop where
  | here {p : Path} : Reaches fs p p
  | link {p q : Path} {text : LinkText} (h : fs p = some (.link text))
      (hrest : Reaches fs (join p.dir text) q) : Reaches fs p q

theorem EndsAt.not_link {fs : FS} {p q : Path} (h : EndsAt fs p q) (text : LinkText) :
    fs q ≠ some (.link text) := by
  induction h with
  | here h => exact h text
  | link _ _ ih => exact ih

theorem EndsAt.unique {fs : FS} {p q q' : Path} (h : EndsAt fs p q) (h' : EndsAt fs p q') :
    q = q' := by
  induction h with
  | here h =>
    cases h' with
    | here => rfl
    | link h' => exact absurd h' (h _)
  | link h _ ih =>
    cases h' with
    | here h' => exact absurd h (h' _)
    | link h' hrest' =>
      rw [h] at h'
      cases h'
      exact ih hrest'

/-- What is no link is where its links end. -/
theorem statReply_of_not_link {fs : FS} {p : Path} (h : ∀ text, fs p ≠ some (.link text)) :
    statReply fs p = (fs p).elim (.error .notFound) .ok := by
  have hfollow : follow fs MAX_LOOKUPS p = some p := by
    rw [MAX_LOOKUPS, follow]
    split
    · rename_i text hlink
      exact absurd hlink (h text)
    · rfl
  rw [statReply, hfollow]

/-! ### What a call leaves -/

theorem alter_of_ne {fs : FS} {p q : Path} (h : q ≠ p) (change : File → File) :
    alter fs p change q = fs q := by
  cases hp : fs p with
  | none => simp [alter, hp]
  | some n => cases n <;> simp [alter, hp, Function.update_of_ne h]

theorem Call.run_of_untouched {c : Call} {e : Event} {fs : FS} {q : Path} (h : q ∉ c.touches) :
    (c.run e fs).2 q = fs q := by
  cases c with
  | lstat p => rfl
  | readLink p => rfl
  | stat p => rfl
  | openWrite p => rfl
  | work => rfl
  | createNew p mode =>
    have hne : q ≠ p := by simpa [touches] using h
    by_cases hp : fs p = none
    · simp [run, hp, Function.update_of_ne hne]
    · simp [run, hp]
  | chmod p mode =>
    have hne : q ≠ p := by simpa [touches] using h
    by_cases hp : fs p = none
    · simp [run, hp]
    · simp [run, hp, alter_of_ne hne]
  | fill p bytes =>
    have hne : q ≠ p := by simpa [touches] using h
    exact alter_of_ne hne _
  | rename p p' =>
    obtain ⟨hne, hne'⟩ : q ≠ p ∧ q ≠ p' := by simpa [touches] using h
    cases hp : fs p with
    | none => simp [run, hp]
    | some n =>
      by_cases hsame : p = p'
      · subst hsame
        simp [run, hp]
      · by_cases hdir : (fs p').any Node.isDir = true
        · simp [run, hp, hsame, hdir]
        · simp [run, hp, hsame, hdir, Function.update_of_ne hne, Function.update_of_ne hne']
  | removeFile p =>
    have hne : q ≠ p := by simpa [touches] using h
    cases hp : fs p with
    | none => simp [run, hp]
    | some n =>
      by_cases hdir : n.isDir = true
      · simp [run, hp, hdir]
      · simp [run, hp, hdir, Function.update_of_ne hne]

theorem Call.cut_of_untouched {c : Call} {e : Event} {fs : FS} {q : Path} (h : q ∉ c.touches) :
    c.cut e fs q = fs q := by
  cases c with
  | fill p bytes =>
    have hne : q ≠ p := by simpa [touches] using h
    exact alter_of_ne hne _
  | _ => rfl

/-- The worlds a call in flight at a drop may leave. -/
inductive Dropped (c : Call) (w : World) : World → Prop where
  | never : Dropped c w (w.passed c false (c.cut w.event w.met))
  | before : Dropped c w (w.passed c false (c.run w.event w.met).2)
  | after : Dropped c w
      { w.passed c false (c.cut w.event w.met) with late := some (c, w.event) }

theorem perform_cases (c : Call) (w : World) :
    (perform c w : Except (Stop ε) _ × World) =
        (.ok (c.run w.event w.met).1, w.passed c false (c.run w.event w.met).2) ∨
      (∃ kind, ¬(c.isLookup = true ∧ kind = .notFound) ∧ perform c w =
        ((.ok (.error kind), w.passed c true (c.cut w.event w.met)) :
          Except (Stop ε) _ × World)) ∨
      (c.isSync = false ∧ ∃ w', perform c w = ((.error .dropped, w') : Except (Stop ε) _ × World) ∧
        Dropped c w w') := by
  rw [perform]
  cases hanswer : w.event.answer with
  | served => exact .inl rfl
  | failed kind =>
    by_cases hfound : (c.isLookup && kind == .notFound) = true
    · exact .inl (if_pos hfound)
    · refine .inr (.inl ⟨kind, ?_, if_neg hfound⟩)
      rintro ⟨hlookup, rfl⟩
      exact hfound (by rw [hlookup]; rfl)
  | dropped effect =>
    cases hsync : c.isSync with
    | true => exact .inl rfl
    | false =>
      refine .inr (.inr ⟨rfl, ?_⟩)
      cases effect with
      | never => exact ⟨_, rfl, .never⟩
      | before => exact ⟨_, rfl, .before⟩
      | after => exact ⟨_, rfl, .after⟩

variable {pre : World → Prop} {fail : Stop ε → World → Prop}

theorem Triple.perform {c : Call} {post : Except ErrorKind Reply → World → Prop}
    (hserved : ∀ w, pre w →
      post (c.run w.event w.met).1 (w.passed c false (c.run w.event w.met).2))
    (hfailed : ∀ w kind, pre w → ¬(c.isLookup = true ∧ kind = .notFound) →
      post (.error kind) (w.passed c true (c.cut w.event w.met)))
    (hdropped : ∀ w w', pre w → c.isSync = false → Dropped c w w' → fail .dropped w') :
    Triple pre (perform c) post fail := by
  intro w hw
  rcases perform_cases c w with h | ⟨kind, hkind, h⟩ | ⟨hsync, w', h, hdrop⟩
  · exact .inl ⟨_, _, h, hserved w hw⟩
  · exact .inl ⟨_, _, h, hfailed w kind hw hkind⟩
  · exact .inr ⟨_, _, h, hdropped w w' hw hsync hdrop⟩

variable {post : α → World → Prop}

theorem Triple.stop (e : ε) (h : ∀ w, pre w → fail (.error e) w) :
    Triple pre (stop e) post fail :=
  fun w hw => .inr ⟨_, w, rfl, h w hw⟩

/-- From either of two states. -/
theorem Triple.or {pre₁ pre₂ : World → Prop} {p : Prog (Stop ε) World α}
    {post₁ post₂ : α → World → Prop} {fail₁ fail₂ : Stop ε → World → Prop}
    (h₁ : Triple pre₁ p post₁ fail₁) (h₂ : Triple pre₂ p post₂ fail₂) :
    Triple (fun w => pre₁ w ∨ pre₂ w) p (fun a w => post₁ a w ∨ post₂ a w)
      fun e w => fail₁ e w ∨ fail₂ e w := by
  rintro w (hw | hw)
  · exact h₁.mono (fun _ h => h) (fun _ _ _ _ h => .inl h) (fun _ _ h => .inl h) w hw
  · exact h₂.mono (fun _ h => h) (fun _ _ _ _ h => .inr h) (fun _ _ h => .inr h) w hw

/-- A guard adds one call to a program that does not end well: it is made, and served or not. -/
theorem Triple.guarded {p : Path} {body : Prog (Stop ε) World α}
    {broken : Stop ε → World → Prop} (hbody : Triple pre body post broken)
    (hserved : ∀ e w, broken e w → fail e
      (w.passed (.removeFile p) false ((Call.removeFile p).run w.event w.met).2))
    (hfailed : ∀ e w, broken e w → fail e (w.passed (.removeFile p) true w.met)) :
    Triple pre (guarded p body) post fail := by
  intro w hw
  rcases hbody w hw with ⟨a, w', hrun, hpost⟩ | ⟨e, w', hrun, hbroken⟩
  · exact .inl ⟨a, w', by rw [FileSystem.guarded, hrun], hpost⟩
  · refine .inr ⟨e, (FileSystem.perform (.removeFile p) w' : Except (Stop ε) _ × World).2,
      by rw [FileSystem.guarded, hrun], ?_⟩
    rcases perform_cases (ε := ε) (.removeFile p) w' with h | ⟨kind, -, h⟩ | ⟨hsync, -⟩
    · rw [h]
      exact hserved e w' hbroken
    · rw [h]
      exact hfailed e w' hbroken
    · cases hsync

/-! ### Histories -/

/-- The call was served, or left what one that is not served leaves. -/
def Moment.Honest (m : Moment) : Prop :=
  ∃ e, m.after = (m.call.run e m.before).2 ∨ m.after = m.call.cut e m.before

theorem Moment.Honest.untouched {m : Moment} (h : m.Honest) {q : Path} (hq : q ∉ m.call.touches) :
    m.after q = m.before q := by
  obtain ⟨e, hafter | hafter⟩ := h
  · rw [hafter, Call.run_of_untouched hq]
  · rw [hafter, Call.cut_of_untouched hq]

/-- A program's calls keep what its history says. -/
def Kept (I : List Moment → Prop) (p : Prog (Stop ε) World α) : Prop :=
  Triple (fun w => I w.trace) p (fun _ w => I w.trace) fun _ w => I w.trace

variable {I : List Moment → Prop}

theorem Kept.pure (a : α) : Kept I (pure a : Prog (Stop ε) World α) :=
  fun w hw => .inl ⟨a, w, rfl, hw⟩

theorem Kept.stop (e : ε) : Kept I (stop e : Prog (Stop ε) World α) :=
  Triple.stop e fun _ hw => hw

theorem Kept.perform {c : Call}
    (h : ∀ m trace, m.call = c → m.Honest → I trace → I (m :: trace)) :
    Kept I (perform c : Prog (Stop ε) World _) := by
  refine Triple.perform ?_ ?_ ?_
  · intro w hw
    exact h _ _ rfl ⟨w.event, .inl rfl⟩ hw
  · intro w kind hw _
    exact h _ _ rfl ⟨w.event, .inr rfl⟩ hw
  · intro w w' hw _ hdrop
    cases hdrop with
    | never => exact h _ _ rfl ⟨w.event, .inr rfl⟩ hw
    | before => exact h _ _ rfl ⟨w.event, .inl rfl⟩ hw
    | after => exact h _ _ rfl ⟨w.event, .inr rfl⟩ hw

/-- A guard's call is one more. -/
theorem Kept.guarded {p : Path} {body : Prog (Stop ε) World α}
    (hbody : Triple pre body post fun _ w => I w.trace)
    (h : ∀ m trace, m.call = .removeFile p → m.Honest → I trace → I (m :: trace)) :
    Triple pre (guarded p body) post fun _ w => I w.trace :=
  Triple.guarded hbody (fun _ w hw => h _ _ rfl ⟨w.event, .inl rfl⟩ hw)
    fun _ w hw => h _ _ rfl ⟨w.event, .inr rfl⟩ hw

end FileSystem
