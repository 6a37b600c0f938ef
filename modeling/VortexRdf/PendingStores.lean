/-
A store file replaced all or nothing.

The links at a path are followed to the file they end at; the store is written into a
temporary file beside it, under the old file's permissions, and renamed over it once it is
whole.  The temporary file is removed on every way out that does not rename it.

* `PendingStore.createOver`, `PendingStore.write`, `replaceStore` — the calls made;
* `Outcome` — how the files may stand afterwards;
* `Frame` — the names a replacement may replace, and what may be said of the files meanwhile;
* `Frame.Before`, `Frame.Live`, `Frame.Unwinding` — how the files stand on the way: before the
  temporary file is there, while it is, and when it is about to be removed;
* `looks_spec`, `alters_spec` — what one call leaves, whether it is served or not;
* `replacementTargetLoop_spec`, `createBeside_spec` — the links followed, and the temporary
  file made.
-/
import VortexRdf.FileSystems

namespace Pending

open FileSystem Programs

/-! ### The calls of a replacement -/

inductive PendingError where
  | experimentalPatches
  | io (what : String) (path : Path) (kind : ErrorKind) (detail : String)
  | notWritable (what : String) (path : Path) (kind : ErrorKind) (via : Option Path)
  | replacedSinceOpen (path : Path)
  /-- The error of the work that fills the store. -/
  | filling (kind : ErrorKind)

abbrev Io := Prog (Stop PendingError) World

def kindMeansUnwritable (kind : ErrorKind) : Bool :=
  kind == .permissionDenied || kind == .readOnlyFilesystem

def MAX_LINK_HOPS : ℕ := 40

def replacementTargetLoop : ℕ → Path → Io (Except ErrorKind Path)
  | 0, _ => pure (.error .other)
  | hops + 1, target => do
    match ← perform (.lstat target) with
    | .ok (.node (.link _)) =>
      match ← perform (.readLink target) with
      | .ok (.text link) => replacementTargetLoop hops (join target.dir link)
      | .ok _ => pure (.error .other)
      | .error kind => pure (.error kind)
    | _ => pure (.ok target)

def replacementTarget (path : Path) : Io (Except ErrorKind Path) :=
  replacementTargetLoop MAX_LINK_HOPS path

theorem temp_proper (stem uuid : List Char) :
    stem ++ ('.' :: 'w' :: "rite-".toList ++ uuid ++ ".tmp".toList) ≠ ['.', '.'] := by
  intro h
  have hmem : 'w' ∈ ['.', '.'] := by
    rw [← h]
    simp
  revert hmem
  decide

/-- The name beside `target` with the extension `write-<uuid>.tmp`. -/
def tempPath (uuid : List Char) (target : Path) : Path where
  dir := target.dir
  name := ⟨fileStem target.name.chars ++
    ('.' :: 'w' :: "rite-".toList ++ uuid ++ ".tmp".toList), temp_proper _ uuid⟩

/-- A temp file that stands in for an existing store is born private. -/
def createTemp (path : Path) (replacing : Bool) : Io (Except ErrorKind Reply) :=
  perform (.createNew path (if replacing then 0o600 else 0o666))

inductive Sink where
  | replace (target tmp : Path) (opened : Option Identity)
  | inPlace

structure PendingStore where
  path : Path
  sink : Sink

def openInPlace (path : Path) (opened : Option Identity) : Io PendingStore :=
  if opened.isSome then stop (.replacedSinceOpen path)
  else do
    match ← perform (.openWrite path) with
    | .ok _ => pure ⟨path, .inPlace⟩
    | .error kind => stop (.io "open" path kind "")

/-- Asks the old file itself whether it may be written. -/
def probe (path target : Path) : Io Unit := do
  match ← perform (.openWrite target) with
  | .ok _ => pure ()
  | .error kind =>
    if kind = .notFound then pure ()
    else if kindMeansUnwritable kind then
      stop (.notWritable "replace" path kind (if target = path then none else some target))
    else stop (.io "inspect" path kind "")

/-- The permissions of the old file, if there is one. -/
def oldPermissions (path target : Path) (opened : Option Identity) : Io (Option Mode) := do
  match ← perform (.stat target) with
  | .ok (.node (.dir _)) => stop (.io "replace" path .isADirectory "is a directory")
  | .ok (.node (.file f)) =>
    if opened.any (· ≠ f.identity) then stop (.replacedSinceOpen path)
    else do
      probe path target
      pure (some f.mode)
  | .ok _ => stop (.io "replace" path .invalidInput
      "it is not a regular file, a character device or a pipe")
  | .error kind =>
    if kind = .notFound then pure none else stop (.io "inspect" path kind "")

def copyPermissions (path tmp : Path) : Option Mode → Io Unit
  | none => pure ()
  | some mode => do
    match ← perform (.chmod tmp mode) with
    | .ok _ => pure ()
    | .error kind => stop (.io "copy the permissions onto the temporary file of" path kind "")

def createBeside (uuid : List Char) (path target : Path) (opened : Option Identity)
    (permissions : Option Mode) : Io PendingStore := do
  match ← createTemp (tempPath uuid target) permissions.isSome with
  | .ok _ =>
    guarded (tempPath uuid target) do
      copyPermissions path (tempPath uuid target) permissions
      pure ⟨path, .replace target (tempPath uuid target) opened⟩
  | .error kind =>
    if kindMeansUnwritable kind then
      stop (.notWritable "create a temporary file beside" path kind none)
    else stop (.io "create a temporary file beside" path kind "")

def createReplacing (uuid : List Char) (path : Path) (opened : Option Identity) :
    Io PendingStore := do
  match ← replacementTarget path with
  | .error kind => stop (.io "resolve" path kind "")
  | .ok target =>
    let permissions ← oldPermissions path target opened
    createBeside uuid path target opened permissions

namespace PendingStore

/-- `patches` says whether experimental patches are on. -/
def createOver (uuid : List Char) (patches : Bool) (path : Path) (opened : Option Identity) :
    Io PendingStore :=
  if patches then stop .experimentalPatches
  else do
    match ← perform (.stat path) with
    | .ok (.node (.stream _)) => openInPlace path opened
    | _ => createReplacing uuid path opened

end PendingStore

def ensureUnreplaced (path target : Path) : Option Identity → Io Unit
  | none => pure ()
  | some opened => do
    match ← perform (.stat target) with
    | .ok (.node found) =>
      if found.identity = some opened then pure () else stop (.replacedSinceOpen path)
    | .ok _ => stop (.replacedSinceOpen path)
    | .error kind => if kind = .notFound then pure () else stop (.io "inspect" path kind "")

/-- The work that fills the store's file. -/
def fill (file : Path) (bytes : List UInt8) : Io Unit := do
  match ← perform (.fill file bytes) with
  | .ok _ => pure ()
  | .error kind => stop (.filling kind)

def renameOver (path tmp target : Path) : Io Unit := do
  match ← perform (.rename tmp target) with
  | .ok _ => pure ()
  | .error kind => stop (.io "replace" path kind "")

namespace PendingStore

def write (self : PendingStore) (bytes : List UInt8) : Io Unit :=
  match self.sink with
  | .inPlace => fill self.path bytes
  | .replace target tmp opened =>
    guarded tmp do
      fill tmp bytes
      ensureUnreplaced self.path target opened
      renameOver self.path tmp target

/-- What is done while the value is held. -/
def held (self : PendingStore) (body : Io Unit) : Io Unit :=
  match self.sink with
  | .inPlace => body
  | .replace _ tmp _ => guarded tmp body

end PendingStore

/-- The caller's work between the two calls. -/
def build : Io Unit := do
  match ← perform .work with
  | .ok _ => pure ()
  | .error kind => stop (.filling kind)

def replaceStore (uuid : List Char) (patches : Bool) (path : Path) (opened : Option Identity)
    (bytes : List UInt8) : Io Unit := do
  let pending ← PendingStore.createOver uuid patches path opened
  pending.held build
  pending.write bytes

/-! ### The name of the temporary file -/

/-- A stem lacks no more than the last extension. -/
theorem length_le_fileStem (s : List Char) :
    s.length ≤ (fileStem (s ++ ".tmp".toList)).length := by
  have hreverse : (s ++ ".tmp".toList).reverse = 'p' :: 'm' :: 't' :: '.' :: s.reverse := by simp
  rw [fileStem, hreverse]
  by_cases hs : s.reverse = []
  · simp [hs]
  · simp [hs]

theorem tempPath_ne (uuid : List Char) (target : Path) : tempPath uuid target ≠ target := by
  intro h
  have hchars : (fileStem target.name.chars ++ ('.' :: 'w' :: "rite-".toList ++ uuid)) ++
      ".tmp".toList = target.name.chars := by
    rw [List.append_assoc]
    exact congrArg (fun p => p.name.chars) h
  -- the extension is longer than what the stem lacks
  have hle := length_le_fileStem
    (fileStem target.name.chars ++ ('.' :: 'w' :: "rite-".toList ++ uuid))
  rw [hchars, List.length_append] at hle
  simp at hle

/-! ### How the files stand -/

/-- Nobody but its owner may read the file more than the old one. -/
def Modest (old : Option Node) (f : File) : Prop :=
  ∀ g, old = some (.file g) →
    ∀ who, reads f.mode who = true → reads g.mode who = true ∨ who = .owner

def Copied (old : Option Node) (f : File) : Prop := ∀ g, old = some (.file g) → f.mode = g.mode

/-- The whole store under the old file's permissions. -/
def Whole (bytes : List UInt8) (old : Option Node) (f : File) : Prop :=
  Copied old f ∧ f.bytes = bytes

theorem Copied.modest {old : Option Node} {f : File} (h : Copied old f) : Modest old f := by
  intro g hg who hwho
  rw [h g hg] at hwho
  exact .inl hwho

theorem modest_of_private {old : Option Node} {umask : Mode} {f : File}
    (h : f.mode = 0o600 &&& ~~~umask) : Modest old f := by
  intro g hg who hwho
  rw [h] at hwho
  cases who with
  | owner => exact .inr rfl
  | group => simp [reads] at hwho
  | others => simp [reads] at hwho

section States

variable (fs : FS) (path : Path) (uuid : List Char) (bytes : List UInt8)

/-- A temporary file that stands in for an old file is read by its owner alone, but for those
who may read the old one. -/
def Discreet (after : FS) : Prop :=
  ∀ target, EndsAt fs path target → fs (tempPath uuid target) = none →
    ∀ f, after (tempPath uuid target) = some (.file f) → Modest (fs target) f

def Beside (old : Option Node) (target : Path) (after : FS) : Prop :=
  ∃ f, Modest old f ∧ after = Function.update fs (tempPath uuid target) (some (.file f))

def Replaced (old : Option Node) (target : Path) (after : FS) : Prop :=
  ∃ f, Whole bytes old f ∧ after = Function.update fs target (some (.file f))

/-- A file, or nothing, at the end of the links, and nothing at the temporary file's name. -/
structure Place (target : Path) : Prop where
  ends : EndsAt fs path target
  old : ∀ n, fs target = some n → ∃ f, n = .file f
  free : fs (tempPath uuid target) = none

/-- The files may stand as they did; with the new store in the place of the old file; or with
a temporary file that could not be removed. -/
inductive Outcome (w : World) : Prop where
  | kept (h : w.settled = fs)
  | replaced {target : Path} (hplace : Place fs path uuid target)
      (h : Replaced fs bytes (fs target) target w.settled)
  | left {target : Path} (hplace : Place fs path uuid target)
      (h : Beside fs uuid (fs target) target w.settled)
      (hfailed : ∃ m ∈ w.trace, m.call = .removeFile (tempPath uuid target) ∧ m.failed = true)

structure Over (w : World) : Prop where
  outcome : Outcome fs path uuid bytes w
  discreet : ∀ m ∈ w.trace, Discreet fs path uuid m.after

/-- A call that changes nothing. -/
def Looks (c : Call) : Prop := ∀ e, (c.run e fs).2 = fs ∧ c.cut e fs = fs

/-- What a stat of a path finds. -/
def standing (target : Path) : Option Node := (statReply fs target).toOption

end States

theorem standing_of_endsAt {fs : FS} {path target : Path} (h : EndsAt fs path target) :
    standing fs target = fs target := by
  rw [standing, statReply_of_not_link h.not_link]
  cases fs target <;> rfl

/-- What a replacement is held to: the files it finds, what may be said of them at every moment,
and the names it may replace. -/
structure Frame where
  fs : FS
  uuid : List Char
  bytes : List UInt8
  Allowed : FS → Prop
  Site : Path → Prop
  found : Allowed fs
  free : ∀ {target}, Site target → fs (tempPath uuid target) = none
  notDir : ∀ {target}, Site target → (fs target).any Node.isDir = false
  beside : ∀ {target after}, Site target →
    Beside fs uuid (standing fs target) target after → Allowed after
  replaced : ∀ {target after}, Site target →
    Replaced fs bytes (standing fs target) target after → Allowed after

namespace Frame

variable (F : Frame)

/-- The temporary file of a name in its place. -/
def Beside (target : Path) (after : FS) : Prop :=
  Pending.Beside F.fs F.uuid (standing F.fs target) target after

/-- The whole store under a name. -/
def Replaced (target : Path) (after : FS) : Prop :=
  Pending.Replaced F.fs F.bytes (standing F.fs target) target after

/-- How the files may stand afterwards. -/
inductive Outcome (w : World) : Prop where
  | kept (h : w.settled = F.fs)
  | replaced {target : Path} (hsite : F.Site target) (h : F.Replaced target w.settled)
  | left {target : Path} (hsite : F.Site target) (h : F.Beside target w.settled)
      (hfailed : ∃ m ∈ w.trace, m.call = .removeFile (tempPath F.uuid target) ∧ m.failed = true)

structure Over (w : World) : Prop where
  outcome : F.Outcome w
  allowed : ∀ m ∈ w.trace, F.Allowed m.after

/-- Before a temporary file is there. -/
structure Before (w : World) : Prop where
  quiet : w.Quiet
  fs_eq : w.fs = F.fs
  late : w.late = none
  allowed : ∀ m ∈ w.trace, F.Allowed m.after

/-- The temporary file is there. -/
structure Live (target : Path) (good : File → Prop) (w : World) : Prop where
  quiet : w.Quiet
  file : ∃ f, good f ∧ w.fs = Function.update F.fs (tempPath F.uuid target) (some (.file f))
  late : w.late = none
  allowed : ∀ m ∈ w.trace, F.Allowed m.after

/-- The temporary file is about to be removed, if it was not renamed. -/
structure Unwinding (target : Path) (w : World) : Prop where
  quiet : w.Quiet
  state : (F.Replaced target w.fs ∧ w.late = none) ∨
    (F.Beside target w.fs ∧ ∀ c e, w.late = some (c, e) → (c.run e F.fs).2 = F.fs ∧
      (F.Beside target (c.run e w.fs).2 ∨ F.Replaced target (c.run e w.fs).2))
  allowed : ∀ m ∈ w.trace, F.Allowed m.after

end Frame

section Quiet

variable {F : Frame} {path target : Path}

/-! ### The temporary file's end -/

theorem removed_beside (hsite : F.Site target) {after : FS} (e : Event)
    (h : F.Beside target after) :
    ((Call.removeFile (tempPath F.uuid target)).run e after).2 = F.fs := by
  obtain ⟨f, -, rfl⟩ := h
  simp [Call.run, Node.isDir, Function.update_eq_self_iff, F.free hsite]

theorem removed_replaced (hsite : F.Site target) {after : FS} (e : Event)
    (h : F.Replaced target after) :
    ((Call.removeFile (tempPath F.uuid target)).run e after).2 = after := by
  obtain ⟨f, -, rfl⟩ := h
  simp [Call.run, Function.update_of_ne (tempPath_ne F.uuid target), F.free hsite]

theorem allowed_passed {w : World} {c : Call} {failed : Bool} {after : FS}
    (h : ∀ m ∈ w.trace, F.Allowed m.after) (hafter : F.Allowed after) :
    ∀ m ∈ (w.passed c failed after).trace, F.Allowed m.after := by
  intro m hm
  rcases List.mem_cons.mp hm with rfl | hm
  · exact hafter
  · exact h m hm

theorem Frame.Unwinding.removed (hsite : F.Site target) {w : World} (h : F.Unwinding target w) :
    F.Over (w.passed (.removeFile (tempPath F.uuid target)) false
      ((Call.removeFile (tempPath F.uuid target)).run w.event w.met).2) := by
  have hmet := h.quiet.met_eq
  rcases h.state with ⟨hreplaced, hlate⟩ | ⟨hbeside, hlate⟩
  · rw [hmet, removed_replaced hsite w.event hreplaced]
    refine ⟨.replaced hsite ?_, allowed_passed h.allowed (F.replaced hsite hreplaced)⟩
    simpa only [World.settled, World.passed, hlate] using hreplaced
  · rw [hmet, removed_beside hsite w.event hbeside]
    refine ⟨.kept ?_, allowed_passed h.allowed F.found⟩
    -- a call still in flight finds no temporary file
    cases hcall : w.late with
    | none => simp only [World.settled, World.passed, hcall]
    | some call =>
      simp only [World.settled, World.passed, hcall]
      exact (hlate call.1 call.2 hcall).1

theorem Frame.Unwinding.stuck (hsite : F.Site target) {w : World} (h : F.Unwinding target w) :
    F.Over (w.passed (.removeFile (tempPath F.uuid target)) true w.met) := by
  have hfailed : ∃ m ∈ (w.passed (.removeFile (tempPath F.uuid target)) true w.fs).trace,
      m.call = .removeFile (tempPath F.uuid target) ∧ m.failed = true :=
    ⟨_, List.mem_cons_self, rfl, rfl⟩
  rw [h.quiet.met_eq]
  rcases h.state with ⟨hreplaced, hlate⟩ | ⟨hbeside, hlate⟩
  · refine ⟨.replaced hsite ?_, allowed_passed h.allowed (F.replaced hsite hreplaced)⟩
    simpa only [World.settled, World.passed, hlate] using hreplaced
  · refine ⟨?_, allowed_passed h.allowed (F.beside hsite hbeside)⟩
    cases hcall : w.late with
    | none =>
      refine .left hsite ?_ hfailed
      simpa only [World.settled, World.passed, hcall] using hbeside
    | some call =>
      rcases (hlate call.1 call.2 hcall).2 with hstill | hreplaced
      · refine .left hsite ?_ hfailed
        simpa only [World.settled, World.passed, hcall] using hstill
      · refine .replaced hsite ?_
        simpa only [World.settled, World.passed, hcall] using hreplaced

/-- The guard's rule. -/
theorem guarded_over (hsite : F.Site target) {α : Type} {pre : World → Prop}
    {body : Io α} {post : α → World → Prop} (h : Triple pre body post fun _ => F.Unwinding target) :
    Triple pre (guarded (tempPath F.uuid target) body) post fun _ => F.Over :=
  Triple.guarded h (fun _ _ hw => hw.removed hsite) fun _ _ hw => hw.stuck hsite

/-! ### Calls before the temporary file -/

theorem Frame.Before.looked {w : World} (h : F.Before w) {c : Call} {failed : Bool}
    {after : FS} (hafter : after = F.fs) : F.Before (w.passed c failed after) where
  quiet := h.quiet
  fs_eq := hafter
  late := h.late
  allowed := allowed_passed h.allowed (hafter ▸ F.found)

theorem Frame.Before.met_eq {w : World} (h : F.Before w) : w.met = F.fs := by
  rw [h.quiet.met_eq, h.fs_eq]

theorem Frame.Before.over {w : World} (h : F.Before w) : F.Over w where
  outcome := .kept (by simp only [World.settled, h.late, h.fs_eq])
  allowed := h.allowed

theorem Frame.Before.dropped {w w' : World} {c : Call} (h : F.Before w) (hc : Looks F.fs c)
    (hdrop : Dropped c w w') : F.Over w' := by
  have hmet := h.met_eq
  cases hdrop with
  | never =>
    rw [hmet, (hc w.event).2]
    exact (h.looked rfl).over
  | before =>
    rw [hmet, (hc w.event).1]
    exact (h.looked rfl).over
  | after =>
    rw [hmet, (hc w.event).2]
    exact ⟨.kept (hc w.event).1, allowed_passed h.allowed F.found⟩

/-- A call that changes nothing answers from the files, or fails. -/
theorem looks_spec {c : Call} (hc : Looks F.fs c) :
    Triple F.Before (perform c : Io _)
      (fun r w => F.Before w ∧ ((∃ e, r = (c.run e F.fs).1) ∨
        ∃ kind, ¬(c.isLookup = true ∧ kind = .notFound) ∧ r = .error kind))
      fun _ => F.Over := by
  refine Triple.perform ?_ ?_ ?_
  · intro w hw
    rw [hw.met_eq]
    exact ⟨hw.looked (hc w.event).1, .inl ⟨_, rfl⟩⟩
  · intro w kind hw hkind
    rw [hw.met_eq]
    exact ⟨hw.looked (hc w.event).2, .inr ⟨kind, hkind, rfl⟩⟩
  · intro w w' hw _ hdrop
    exact hw.dropped hc hdrop

theorem looks_lstat {fs : FS} (p : Path) : Looks fs (.lstat p) := fun _ => ⟨rfl, rfl⟩

theorem looks_readLink {fs : FS} (p : Path) : Looks fs (.readLink p) := fun _ => ⟨rfl, rfl⟩

theorem looks_stat {fs : FS} (p : Path) : Looks fs (.stat p) := fun _ => ⟨rfl, rfl⟩

theorem looks_openWrite {fs : FS} (p : Path) : Looks fs (.openWrite p) := fun _ => ⟨rfl, rfl⟩

theorem looks_work {fs : FS} : Looks fs .work := fun _ => ⟨rfl, rfl⟩

/-- A link that could not be told for one. -/
def LinkUnread (trace : List Moment) : Prop :=
  ∃ m ∈ trace, ∃ p text, m.call = .lstat p ∧ m.failed = true ∧ m.before p = some (.link text)

theorem stop_before {α : Type} {post : α → World → Prop} (e : PendingError) :
    Triple F.Before (stop e : Io α) post fun _ => F.Over :=
  Triple.stop e fun _ hw => hw.over

/-- A stat that does not fail tells a link from anything else; one that fails is taken for the
chain's end. -/
theorem lstat_spec (p : Path) :
    Triple F.Before (perform (.lstat p) : Io _)
      (fun r w => F.Before w ∧ ((∃ text, r = .ok (.node (.link text)) ∧ F.fs p = some (.link text)) ∨
        ((∀ text, r ≠ .ok (.node (.link text))) ∧
          (LinkUnread w.trace ∨ ∀ text, F.fs p ≠ some (.link text)))))
      fun _ => F.Over := by
  refine Triple.perform ?_ ?_ ?_
  · intro w hw
    rw [hw.met_eq]
    refine ⟨hw.looked rfl, ?_⟩
    cases hp : F.fs p with
    | none => exact .inr ⟨by simp [Call.run, hp], .inr (by simp)⟩
    | some n =>
      cases n with
      | link text => exact .inl ⟨text, by simp [Call.run, hp], rfl⟩
      | file f => exact .inr ⟨by simp [Call.run, hp], .inr (by simp)⟩
      | dir _ => exact .inr ⟨by simp [Call.run, hp], .inr (by simp)⟩
      | stream _ => exact .inr ⟨by simp [Call.run, hp], .inr (by simp)⟩
      | special _ => exact .inr ⟨by simp [Call.run, hp], .inr (by simp)⟩
  · intro w kind hw _
    rw [hw.met_eq]
    refine ⟨hw.looked rfl, .inr ⟨by simp, ?_⟩⟩
    by_cases hlink : ∃ text, F.fs p = some (.link text)
    · obtain ⟨text, hlink⟩ := hlink
      refine .inl ⟨_, List.mem_cons_self, p, text, rfl, rfl, ?_⟩
      show w.met p = _
      rw [hw.met_eq, hlink]
    · exact .inr fun text h => hlink ⟨text, h⟩
  · intro w w' hw _ hdrop
    exact hw.dropped (looks_lstat p) hdrop

/-- The name a chain of links was followed to: on its way, and its end unless a link was not told
for one. -/
structure Found (fs : FS) (path target : Path) (trace : List Moment) : Prop where
  reaches : Reaches fs path target
  ends : LinkUnread trace ∨ EndsAt fs path target

theorem replacementTargetLoop_spec (hops : ℕ) (p : Path) :
    Triple F.Before (replacementTargetLoop hops p)
      (fun r w => F.Before w ∧ ∀ q, r = .ok q → Found F.fs p q w.trace) fun _ => F.Over := by
  induction hops generalizing p with
  | zero =>
    intro w hw
    exact .inl ⟨_, w, rfl, hw, by simp⟩
  | succ hops ih =>
    rw [replacementTargetLoop]
    refine (lstat_spec p).bind fun r => ?_
    rintro w ⟨hw, ⟨text, rfl, hlink⟩ | ⟨hnot, hend⟩⟩
    · refine (looks_spec (looks_readLink p)).bind (fun r => ?_) w hw
      rintro w ⟨hw, ⟨e, rfl⟩ | ⟨kind, -, rfl⟩⟩
      · -- the link's own text, and the chain's next name
        have hread : ((Call.readLink p).run e F.fs).1 = .ok (.text text) := by
          simp [Call.run, hlink]
        rw [hread]
        refine (ih (join p.dir text)).mono (fun _ h => h) ?_ (fun _ _ h => h) w hw
        intro _ _ r w' h
        refine ⟨h.1, fun q hq => ?_⟩
        obtain ⟨hreaches, hends⟩ := h.2 q hq
        exact ⟨.link hlink hreaches, hends.imp_right (.link hlink)⟩
      · exact .inl ⟨_, w, rfl, hw, by simp⟩
    · refine .inl ⟨.ok p, w, ?_, hw, ?_⟩
      · split
        · exact absurd rfl (hnot _)
        · rfl
      · rintro q ⟨⟩
        exact ⟨.here, hend.imp_right .here⟩

theorem probe_spec : Triple F.Before (probe path target) (fun _ => F.Before) fun _ => F.Over := by
  refine (looks_spec (looks_openWrite target)).bind fun r => ?_
  rintro w ⟨hw, -⟩
  cases r with
  | ok _ => exact .inl ⟨(), w, rfl, hw⟩
  | error kind =>
    by_cases hgone : kind = .notFound
    · exact .inl ⟨(), w, by simp only [if_pos hgone]; rfl, hw⟩
    · simp only [if_neg hgone]
      split
      · exact stop_before _ w hw
      · exact stop_before _ w hw

/-- The permissions of the old file, as a stat finds it: nothing, or a file with its own. -/
def PermissionsOf (old : Option Node) (permissions : Option Mode) : Prop :=
  (permissions = none ∧ old = none) ∨ ∃ f, permissions = some f.mode ∧ old = some (.file f)

theorem oldPermissions_spec {opened : Option Identity} :
    Triple F.Before (oldPermissions path target opened)
      (fun permissions w => F.Before w ∧ PermissionsOf (standing F.fs target) permissions)
      fun _ => F.Over := by
  refine (looks_spec (looks_stat target)).bind fun r => ?_
  rintro w ⟨hw, ⟨e, rfl⟩ | ⟨kind, hkind, rfl⟩⟩
  · rw [Call.run, standing]
    cases hold : statReply F.fs target with
    | error kind =>
      by_cases hgone : kind = .notFound
      · exact .inl ⟨none, w, by simp only [Except.map, if_pos hgone]; rfl, hw, .inl ⟨rfl, rfl⟩⟩
      · simp only [Except.map, if_neg hgone]
        exact stop_before _ w hw
    | ok n =>
      cases n with
      | link text => exact stop_before _ w hw
      | dir _ => exact stop_before _ w hw
      | stream _ => exact stop_before _ w hw
      | special _ => exact stop_before _ w hw
      | file f =>
        simp only [Except.map]
        by_cases hother : opened.any (· ≠ f.identity) = true
        · simp only [if_pos hother]
          exact stop_before _ w hw
        · simp only [if_neg hother]
          refine probe_spec.bind (fun _ => ?_) w hw
          intro w hw
          exact .inl ⟨some f.mode, w, rfl, hw, .inr ⟨f, rfl, rfl⟩⟩
  · have hfound : kind ≠ .notFound := fun h => hkind ⟨rfl, h⟩
    simp only [if_neg hfound]
    exact stop_before _ w hw

/-! ### Calls beside the old file -/

variable {good : File → Prop}

theorem Frame.Live.met_eq {w : World} (h : F.Live target good w) :
    w.met = w.fs := h.quiet.met_eq

theorem Frame.Live.unwinding (hgood : ∀ f, good f → Modest (standing F.fs target) f)
    {w : World} (h : F.Live target good w) : F.Unwinding target w where
  quiet := h.quiet
  state := by
    obtain ⟨f, hf, hfs⟩ := h.file
    refine .inr ⟨⟨f, hgood f hf, hfs⟩, ?_⟩
    rw [h.late]
    rintro _ _ ⟨⟩
  allowed := h.allowed

/-- A call that changes the temporary file, and finds nothing to change once it is removed. -/
structure Alters (F : Frame) (target : Path) (good good' : File → Prop) (c : Call) : Prop where
  gone : ∀ e, (c.run e F.fs).2 = F.fs
  run : ∀ e f, good f → ∃ f', good' f' ∧
    (c.run e (Function.update F.fs (tempPath F.uuid target) (some (.file f)))).2 =
      Function.update F.fs (tempPath F.uuid target) (some (.file f'))
  cut : ∀ e f, good f → ∃ f', good f' ∧
    c.cut e (Function.update F.fs (tempPath F.uuid target) (some (.file f))) =
      Function.update F.fs (tempPath F.uuid target) (some (.file f'))

theorem alters_spec {good' : File → Prop} {c : Call} (hsite : F.Site target)
    (hgood : ∀ f, good f → Modest (standing F.fs target) f)
    (hgood' : ∀ f, good' f → Modest (standing F.fs target) f) (hc : Alters F target good good' c) :
    Triple (F.Live target good) (perform c : Io _)
      (fun r w => F.Live target good' w ∨ ((∃ kind, r = .error kind) ∧ F.Live target good w))
      fun _ => F.Unwinding target := by
  have hserved : ∀ w, F.Live target good w →
      F.Live target good' (w.passed c false (c.run w.event w.met).2) := by
    intro w hw
    obtain ⟨f, hf, hfs⟩ := hw.file
    obtain ⟨f', hf', hafter⟩ := hc.run w.event f hf
    rw [hw.met_eq, hfs, hafter]
    exact ⟨hw.quiet, ⟨f', hf', rfl⟩, hw.late,
      allowed_passed hw.allowed (F.beside hsite ⟨f', hgood' f' hf', rfl⟩)⟩
  have hcut : ∀ w failed, F.Live target good w →
      F.Live target good (w.passed c failed (c.cut w.event w.met)) := by
    intro w failed hw
    obtain ⟨f, hf, hfs⟩ := hw.file
    obtain ⟨f', hf', hafter⟩ := hc.cut w.event f hf
    rw [hw.met_eq, hfs, hafter]
    exact ⟨hw.quiet, ⟨f', hf', rfl⟩, hw.late,
      allowed_passed hw.allowed (F.beside hsite ⟨f', hgood f' hf', rfl⟩)⟩
  refine Triple.perform ?_ ?_ ?_
  · intro w hw
    exact .inl (hserved w hw)
  · intro w kind hw _
    exact .inr ⟨⟨kind, rfl⟩, hcut w true hw⟩
  · intro w w' hw _ hdrop
    cases hdrop with
    | never => exact (hcut w false hw).unwinding hgood
    | before => exact (hserved w hw).unwinding hgood'
    | after =>
      have hleft := hcut w false hw
      obtain ⟨f, hf, hfs⟩ := hleft.file
      refine ⟨hw.quiet, .inr ⟨⟨f, hgood f hf, hfs⟩, ?_⟩, hleft.allowed⟩
      rintro _ _ ⟨⟩
      -- the call in flight changes the temporary file, or finds it removed
      obtain ⟨f', hf', hafter⟩ := hc.run w.event f hf
      exact ⟨hc.gone w.event, .inl ⟨f', hgood' f' hf', by rw [← hafter, ← hfs]⟩⟩

theorem alter_temp (f : File) (change : File → File) :
    alter (Function.update F.fs (tempPath F.uuid target) (some (.file f))) (tempPath F.uuid target)
      change = Function.update F.fs (tempPath F.uuid target) (some (.file (change f))) := by
  simp [alter]

theorem alter_gone (hsite : F.Site target) (change : File → File) :
    alter F.fs (tempPath F.uuid target) change = F.fs := by
  simp [alter, F.free hsite]

theorem alters_chmod (hsite : F.Site target) {old : File}
    (hold : standing F.fs target = some (.file old)) : Alters F target (Modest (standing F.fs target))
      (Copied (standing F.fs target)) (.chmod (tempPath F.uuid target) old.mode) where
  gone _ := by simp [Call.run, F.free hsite]
  run _ f _ := by
    refine ⟨{ f with mode := old.mode }, ?_, by simp [Call.run, alter_temp]⟩
    intro g hg
    rw [hold] at hg
    cases hg
    rfl
  cut _ f hf := ⟨f, hf, rfl⟩

theorem alters_fill (hsite : F.Site target) : Alters F target (Copied (standing F.fs target))
    (Whole F.bytes (standing F.fs target)) (.fill (tempPath F.uuid target) F.bytes) where
  gone _ := alter_gone hsite _
  run _ f hf := ⟨{ f with bytes := F.bytes }, ⟨fun g hg => hf g hg, rfl⟩, alter_temp f _⟩
  cut e f hf := ⟨{ f with bytes := e.written }, fun g hg => hf g hg, alter_temp f _⟩

theorem alters_work : Alters F target good good .work where
  gone _ := rfl
  run _ f hf := ⟨f, hf, rfl⟩
  cut _ f hf := ⟨f, hf, rfl⟩

theorem alters_stat (p : Path) : Alters F target good good (.stat p) where
  gone _ := rfl
  run _ f hf := ⟨f, hf, rfl⟩
  cut _ f hf := ⟨f, hf, rfl⟩

theorem stop_live (hgood : ∀ f, good f → Modest (standing F.fs target) f)
    {α : Type} {post : α → World → Prop} (e : PendingError) :
    Triple (F.Live target good) (stop e : Io α) post fun _ => F.Unwinding target :=
  Triple.stop e fun _ hw => hw.unwinding hgood

theorem copyPermissions_spec (hsite : F.Site target) {permissions : Option Mode}
    (hold : PermissionsOf (standing F.fs target) permissions) :
    Triple (F.Live target (Modest (standing F.fs target)))
      (copyPermissions path (tempPath F.uuid target) permissions)
      (fun _ => F.Live target (Copied (standing F.fs target))) fun _ => F.Unwinding target := by
  rcases hold with ⟨rfl, hnone⟩ | ⟨f, rfl, hold⟩
  · intro w hw
    obtain ⟨f, -, hfs⟩ := hw.file
    refine .inl ⟨(), w, rfl, hw.quiet, ⟨f, ?_, hfs⟩, hw.late, hw.allowed⟩
    rw [hnone]
    rintro _ ⟨⟩
  · refine (alters_spec hsite (fun _ h => h) (fun _ h => h.modest)
      (alters_chmod hsite hold)).bind fun r => ?_
    intro w hw
    cases r with
    | ok a =>
      rcases hw with hw | ⟨⟨_, h⟩, _⟩
      · exact .inl ⟨(), w, rfl, hw⟩
      · cases h
    | error kind =>
      rcases hw with hw | ⟨-, hw⟩
      · exact stop_live (fun _ h => h.modest) _ w hw
      · exact stop_live (fun _ h => h) _ w hw

theorem createTemp_spec (hsite : F.fs (tempPath F.uuid target) = none → F.Site target)
    {replacing : Bool} (hreplacing : replacing = false → standing F.fs target = none) :
    Triple F.Before (createTemp (tempPath F.uuid target) replacing)
      (fun r w => ((∃ a, r = .ok a) →
          F.Site target ∧ F.Live target (Modest (standing F.fs target)) w) ∧
        ∀ kind, r = .error kind → F.Before w)
      fun _ => F.Over := by
  refine Triple.perform ?_ ?_ ?_
  · intro w hw
    rw [hw.met_eq, Call.run]
    split
    · rename_i hfree
      have hhere := hsite hfree
      have hmodest : Modest (standing F.fs target)
          ⟨[], (if replacing then 0o600 else 0o666) &&& ~~~w.event.umask, w.event.identity⟩ := by
        cases replacing with
        | true => exact modest_of_private rfl
        | false =>
          intro g hg
          rw [hreplacing rfl] at hg
          cases hg
      refine ⟨fun _ => ⟨hhere, hw.quiet, ⟨_, hmodest, rfl⟩, hw.late, ?_⟩, by simp⟩
      exact allowed_passed hw.allowed (F.beside hhere ⟨_, hmodest, rfl⟩)
    · exact ⟨by simp, fun _ _ => hw.looked rfl⟩
  · intro w kind hw _
    rw [hw.met_eq]
    exact ⟨by simp, fun _ _ => hw.looked rfl⟩
  · intro w w' _ hsync _
    cases hsync

theorem createBeside_spec {opened : Option Identity} {permissions : Option Mode}
    (hsite : F.fs (tempPath F.uuid target) = none → F.Site target)
    (hpermissions : PermissionsOf (standing F.fs target) permissions) :
    Triple F.Before (createBeside F.uuid path target opened permissions)
      (fun pending w => pending = ⟨path, .replace target (tempPath F.uuid target) opened⟩ ∧
        F.Site target ∧ F.Live target (Copied (standing F.fs target)) w)
      fun _ => F.Over := by
  have hreplacing : permissions.isSome = false → standing F.fs target = none := by
    rcases hpermissions with ⟨rfl, hnone⟩ | ⟨f, rfl, _⟩
    · exact fun _ => hnone
    · rintro ⟨⟩
  refine (createTemp_spec hsite hreplacing).bind fun r => ?_
  rintro w ⟨hok, herror⟩
  cases r with
  | ok a =>
    obtain ⟨hhere, hlive⟩ := hok ⟨a, rfl⟩
    refine guarded_over hhere ?_ w hlive
    refine (copyPermissions_spec hhere hpermissions).bind fun _ => ?_
    intro w hw
    exact .inl ⟨_, w, rfl, rfl, hhere, hw⟩
  | error kind =>
    by_cases hdenied : kindMeansUnwritable kind = true
    · simp only [if_pos hdenied]
      exact stop_before _ w (herror kind rfl)
    · simp only [if_neg hdenied]
      exact stop_before _ w (herror kind rfl)

end Quiet

end Pending
