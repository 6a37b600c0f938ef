/-
Whole replacements of a store file.

* `createReplacing_kept` — the calls before the rename change no file but a temporary one;
* `Suits`, `replaceStore_over` — what a replacement leaves, whatever call fails or is cut short,
  over any frame its links suit;
* `Frame.ended`, `Frame.reached` — the frame of the file the links end at, and that of whatever
  name on their way is taken for it;
* `replaceStore_watched` — what it does among others: it renames only after a check;
* `replacing_a_store_is_all_or_nothing` — the first frame and the check;
* `replacing_a_store_leaves_no_part` — the second frame, in every run.
-/
import VortexRdf.PendingStores

namespace Pending

open FileSystem Programs

/-! ### What is kept whatever happens -/

section Watched

variable {path target : Path} {uuid : List Char} {I : List Moment → Prop}

/-- The call changes no file but a temporary one. -/
def Spares (uuid : List Char) (m : Moment) : Prop :=
  ∀ q, (∀ target, q ≠ tempPath uuid target) → m.after q = m.before q

variable (hI : ∀ m trace, Spares uuid m → I trace → I (m :: trace))
include hI

theorem kept_of_touches {c : Call} (hc : ∀ p ∈ c.touches, ∃ target, p = tempPath uuid target) :
    Kept I (perform c : Io _) := by
  refine Kept.perform fun m trace hcall hhonest htrace => hI m trace ?_ htrace
  intro q hq
  refine hhonest.untouched fun hmem => ?_
  rw [hcall] at hmem
  obtain ⟨target, htarget⟩ := hc q hmem
  exact hq target htarget

theorem kept_looking {c : Call} (hc : c.touches = []) : Kept I (perform c : Io _) :=
  kept_of_touches hI fun p hp => by
    rw [hc] at hp
    cases hp

theorem kept_guarded {α : Type} {pre : World → Prop} {body : Io α} {post : α → World → Prop}
    (h : Triple pre body post fun _ w => I w.trace) :
    Triple pre (guarded (tempPath uuid target) body) post fun _ w => I w.trace := by
  refine Kept.guarded h fun m trace hcall hhonest htrace => hI m trace ?_ htrace
  intro q hq
  refine hhonest.untouched fun hmem => ?_
  rw [hcall] at hmem
  exact hq target (List.mem_singleton.mp hmem)

theorem replacementTargetLoop_kept (hops : ℕ) (p : Path) :
    Kept I (replacementTargetLoop hops p) := by
  induction hops generalizing p with
  | zero => exact Kept.pure _
  | succ hops ih =>
    rw [replacementTargetLoop]
    refine (kept_looking hI rfl).bind fun r => ?_
    split
    · refine (kept_looking hI rfl).bind fun r => ?_
      cases r with
      | ok reply =>
        cases reply with
        | text link => exact ih _
        | unit => exact Kept.pure _
        | node n => exact Kept.pure _
      | error kind => exact Kept.pure _
    · exact Kept.pure _

theorem probe_kept : Kept I (probe path target) := by
  refine (kept_looking hI rfl).bind fun r => ?_
  cases r with
  | ok _ => exact Kept.pure ()
  | error kind =>
    dsimp only
    split
    · exact Kept.pure ()
    · split
      · exact Kept.stop _
      · exact Kept.stop _

theorem oldPermissions_kept (opened : Option Identity) :
    Kept I (oldPermissions path target opened) := by
  refine (kept_looking hI rfl).bind fun r => ?_
  split
  · exact Kept.stop _
  · split
    · exact Kept.stop _
    · exact (probe_kept hI).bind fun _ => Kept.pure (some _)
  · exact Kept.stop _
  · split
    · exact Kept.pure none
    · exact Kept.stop _

theorem copyPermissions_kept (permissions : Option Mode) :
    Kept I (copyPermissions path (tempPath uuid target) permissions) := by
  cases permissions with
  | none => exact Kept.pure ()
  | some mode =>
    have hchmod : Kept I (perform (.chmod (tempPath uuid target) mode) : Io _) :=
      kept_of_touches hI fun p hp => ⟨target, List.mem_singleton.mp hp⟩
    refine hchmod.bind fun r => ?_
    cases r with
    | ok _ => exact Kept.pure ()
    | error kind => exact Kept.stop _

theorem createBeside_kept (opened : Option Identity) (permissions : Option Mode) :
    Triple (fun w => I w.trace) (createBeside uuid path target opened permissions)
      (fun pending w => I w.trace ∧
        pending = ⟨path, .replace target (tempPath uuid target) opened⟩)
      fun _ w => I w.trace := by
  have hcreate : Kept I (createTemp (tempPath uuid target) permissions.isSome) :=
    kept_of_touches hI fun p hp => ⟨target, List.mem_singleton.mp hp⟩
  refine hcreate.bind fun r => ?_
  cases r with
  | ok _ =>
    refine kept_guarded hI ((copyPermissions_kept hI permissions).bind fun _ => ?_)
    exact fun w hw => .inl ⟨_, w, rfl, hw, rfl⟩
  | error kind =>
    dsimp only
    split
    · exact Triple.stop _ fun _ hw => hw
    · exact Triple.stop _ fun _ hw => hw

theorem createReplacing_kept (opened : Option Identity) :
    Triple (fun w => I w.trace) (createReplacing uuid path opened)
      (fun pending w => I w.trace ∧
        ∃ target, pending = ⟨path, .replace target (tempPath uuid target) opened⟩)
      fun _ w => I w.trace := by
  refine (replacementTargetLoop_kept hI MAX_LINK_HOPS path).bind fun r => ?_
  cases r with
  | error kind => exact Triple.stop _ fun _ hw => hw
  | ok target =>
    refine (oldPermissions_kept hI opened).bind fun permissions => ?_
    refine (createBeside_kept hI opened permissions).mono (fun _ h => h) ?_ fun _ _ h => h
    rintro _ _ pending w ⟨hw, hpending⟩
    exact ⟨hw, target, hpending⟩

theorem build_kept : Kept I build := by
  refine (kept_looking hI rfl).bind fun r => ?_
  cases r with
  | ok _ => exact Kept.pure ()
  | error kind => exact Kept.stop _

theorem fill_kept (bytes : List UInt8) : Kept I (fill (tempPath uuid target) bytes) := by
  have hfill : Kept I (perform (.fill (tempPath uuid target) bytes) : Io _) :=
    kept_of_touches hI fun p hp => ⟨target, List.mem_singleton.mp hp⟩
  refine hfill.bind fun r => ?_
  cases r with
  | ok _ => exact Kept.pure ()
  | error kind => exact Kept.stop _

end Watched

/-! ### What a run is excused by -/

section Excused

variable {path target : Path} {bytes : List UInt8} {U : List Moment → Prop}
  (hU : ∀ m trace, U trace → U (m :: trace))
include hU

theorem perform_excused (c : Call) : Kept U (perform c : Io _) :=
  Kept.perform fun m trace _ _ h => hU m trace h

theorem fill_excused (file : Path) : Kept U (fill file bytes) := by
  refine (perform_excused hU _).bind fun r => ?_
  cases r with
  | ok _ => exact Kept.pure ()
  | error kind => exact Kept.stop _

theorem ensureUnreplaced_excused (opened : Option Identity) :
    Kept U (ensureUnreplaced path target opened) := by
  cases opened with
  | none => exact Kept.pure ()
  | some opened =>
    refine (perform_excused hU _).bind fun r => ?_
    split
    · split
      · exact Kept.pure ()
      · exact Kept.stop _
    · exact Kept.stop _
    · split
      · exact Kept.pure ()
      · exact Kept.stop _

theorem renameOver_excused (tmp : Path) : Kept U (renameOver path tmp target) := by
  refine (perform_excused hU _).bind fun r => ?_
  cases r with
  | ok _ => exact Kept.pure ()
  | error kind => exact Kept.stop _

theorem write_excused (pending : PendingStore) : Kept U (pending.write bytes) := by
  obtain ⟨path, ⟨target, tmp, opened⟩ | _⟩ := pending
  · refine Kept.guarded ?_ fun m trace _ _ h => hU m trace h
    exact (fill_excused hU tmp).bind fun _ =>
      (ensureUnreplaced_excused hU opened).bind fun _ => renameOver_excused hU tmp
  · exact fill_excused hU path

theorem held_excused (pending : PendingStore) : Kept U (pending.held build) := by
  have hbuild : Kept U build := @build_kept [] U fun m trace _ h => hU m trace h
  obtain ⟨path, ⟨target, tmp, opened⟩ | _⟩ := pending
  · exact Kept.guarded hbuild fun m trace _ _ h => hU m trace h
  · exact hbuild

theorem createFound_excused (uuid : List Char) (opened : Option Identity) :
    Triple (fun w => U w.trace) (do
        let permissions ← oldPermissions path target opened
        createBeside uuid path target opened permissions)
      (fun _ w => U w.trace) fun _ w => U w.trace := by
  have hpermissions : Kept U (oldPermissions path target opened) :=
    @oldPermissions_kept path target uuid U (fun m trace _ h => hU m trace h) opened
  refine hpermissions.bind fun permissions => ?_
  exact (createBeside_kept (fun m trace _ h => hU m trace h) opened permissions).mono (fun _ h => h)
    (fun _ _ _ _ h => h.1) fun _ _ h => h

end Excused

/-! ### Every call that fails or is cut short -/

section Held

variable {F : Frame} {path target : Path} {U : List Moment → Prop}

namespace Frame

/-- The store is open: in place, or beside the file it replaces. -/
inductive Ready (F : Frame) (path : Path) (opened : Option Identity) (pending : PendingStore)
    (w : World) : Prop where
  | inPlace {identity : Identity} (hpending : pending = ⟨path, .inPlace⟩)
      (hstream : statReply F.fs path = .ok (.stream identity)) (hw : F.Before w)
  | beside {target : Path} (hsite : F.Site target)
      (hpending : pending = ⟨path, .replace target (tempPath F.uuid target) opened⟩)
      (hw : F.Live target (Copied (standing F.fs target)) w)

/-- The store is where it was to be: in the stream, or in the old file's place. -/
structure Done (F : Frame) (path : Path) (w : World) : Prop where
  ended : F.Over w
  stored : (∃ identity, statReply F.fs path = .ok (.stream identity)) ∨
    ∃ target, F.Site target ∧ F.Replaced target w.settled

end Frame

/-- The name the links were followed to is one to replace, where a stat finds a file or nothing
and there is none of the temporary file's name; or the run is excused. -/
def Suits (F : Frame) (U : List Moment → Prop) (path : Path) : Prop :=
  ∀ target trace, Found F.fs path target trace → U trace ∨
    ∀ permissions, PermissionsOf (standing F.fs target) permissions →
      F.fs (tempPath F.uuid target) = none → F.Site target

theorem excused_or {α : Type} {pre : World → Prop} {p : Io α} {post : α → World → Prop}
    (h : Triple pre p post fun _ => F.Over) :
    Triple pre p post fun _ w => U w.trace ∨ F.Over w :=
  h.mono (fun _ hw => hw) (fun _ _ _ _ hw => hw) fun _ _ hw => .inr hw

theorem openInPlace_spec {opened : Option Identity} {identity : Identity}
    (hstream : statReply F.fs path = .ok (.stream identity)) :
    Triple F.Before (openInPlace path opened) (F.Ready path opened) fun _ => F.Over := by
  unfold openInPlace
  split
  · exact stop_before _
  · refine (looks_spec (looks_openWrite path)).bind fun r => ?_
    rintro w ⟨hw, -⟩
    cases r with
    | ok _ => exact .inl ⟨_, w, rfl, .inPlace rfl hstream hw⟩
    | error kind => exact stop_before _ w hw

/-- Work while nothing but the temporary file is there. -/
theorem build_spec (hsite : F.Site target) {good : File → Prop}
    (hgood : ∀ f, good f → Modest (standing F.fs target) f) :
    Triple (F.Live target good) build (fun _ => F.Live target good) fun _ => F.Unwinding target := by
  refine (alters_spec hsite hgood hgood alters_work).bind fun r => ?_
  intro w hw
  have hlive : F.Live target good w := hw.elim id fun h => h.2
  cases r with
  | ok _ => exact .inl ⟨(), w, rfl, hlive⟩
  | error kind => exact stop_live hgood _ w hlive

theorem held_spec {opened : Option Identity} (pending : PendingStore) :
    Triple (F.Ready path opened pending) (pending.held build)
      (fun _ => F.Ready path opened pending) fun _ => F.Over := by
  intro w hw
  cases hw with
  | inPlace hpending hstream hw =>
    subst hpending
    refine (looks_spec looks_work).bind (fun r => ?_) w hw
    rintro w ⟨hw, -⟩
    cases r with
    | ok _ => exact .inl ⟨(), w, rfl, .inPlace rfl hstream hw⟩
    | error kind => exact stop_before _ w hw
  | beside hsite hpending hw =>
    subst hpending
    refine (guarded_over hsite (build_spec hsite fun _ h => h.modest)).mono (fun _ h => h) ?_
      (fun _ _ h => h) w hw
    exact fun _ _ _ _ h => .beside hsite rfl h

theorem fill_spec (hsite : F.Site target) :
    Triple (F.Live target (Copied (standing F.fs target))) (fill (tempPath F.uuid target) F.bytes)
      (fun _ => F.Live target (Whole F.bytes (standing F.fs target))) fun _ => F.Unwinding target := by
  refine (alters_spec hsite (fun _ h => h.modest) (fun _ h => h.1.modest)
    (alters_fill hsite)).bind fun r => ?_
  intro w hw
  cases r with
  | ok a =>
    rcases hw with hw | ⟨⟨_, h⟩, _⟩
    · exact .inl ⟨(), w, rfl, hw⟩
    · cases h
  | error kind =>
    rcases hw with hw | ⟨-, hw⟩
    · exact stop_live (fun _ h => h.1.modest) _ w hw
    · exact stop_live (fun _ h => h.modest) _ w hw

theorem ensureUnreplaced_spec (hsite : F.Site target) {good : File → Prop}
    (hgood : ∀ f, good f → Modest (standing F.fs target) f) (opened : Option Identity) :
    Triple (F.Live target good) (ensureUnreplaced path target opened)
      (fun _ => F.Live target good) fun _ => F.Unwinding target := by
  cases opened with
  | none => exact fun w hw => .inl ⟨(), w, rfl, hw⟩
  | some opened =>
    refine (alters_spec hsite hgood hgood (alters_stat target)).bind fun r => ?_
    intro w hw
    have hlive : F.Live target good w := hw.elim id fun h => h.2
    split
    · split
      · exact .inl ⟨(), w, rfl, hlive⟩
      · exact stop_live hgood _ w hlive
    · exact stop_live hgood _ w hlive
    · split
      · exact .inl ⟨(), w, rfl, hlive⟩
      · exact stop_live hgood _ w hlive

/-- The rename puts the temporary file in the old one's place. -/
theorem rename_beside (hsite : F.Site target) (e : Event) (f : File) :
    (Call.rename (tempPath F.uuid target) target).run e
        (Function.update F.fs (tempPath F.uuid target) (some (.file f))) =
      (.ok .unit, Function.update F.fs target (some (.file f))) := by
  have hne := tempPath_ne F.uuid target
  have hfree : Function.update F.fs target (some (.file f)) (tempPath F.uuid target) = none := by
    rw [Function.update_of_ne hne, F.free hsite]
  simp only [Call.run, Function.update_self, if_neg hne, Function.update_of_ne hne.symm,
    F.notDir hsite]
  rw [Function.update_comm hne, Function.update_idem, ← hfree, Function.update_eq_self]
  simp

theorem renameOver_spec (hsite : F.Site target) :
    Triple (F.Live target (Whole F.bytes (standing F.fs target)))
      (renameOver path (tempPath F.uuid target) target) (fun _ => F.Done path)
      fun _ => F.Unwinding target := by
  have hmodest : ∀ f, Whole F.bytes (standing F.fs target) f → Modest (standing F.fs target) f :=
    fun _ h => h.1.modest
  -- a rename that is not served leaves the temporary file as it was
  have hcut : ∀ w failed, F.Live target (Whole F.bytes (standing F.fs target)) w →
      F.Live target (Whole F.bytes (standing F.fs target))
        (w.passed (.rename (tempPath F.uuid target) target) failed w.met) := by
    intro w failed hw
    rw [hw.met_eq]
    obtain ⟨f, hf, hfs⟩ := hw.file
    exact ⟨hw.quiet, ⟨f, hf, hfs⟩, hw.late,
      allowed_passed hw.allowed (F.beside hsite ⟨f, hmodest f hf, hfs⟩)⟩
  have hrun : ∀ w, F.Live target (Whole F.bytes (standing F.fs target)) w → ∃ after,
      F.Replaced target after ∧
        (Call.rename (tempPath F.uuid target) target).run w.event w.met = (.ok .unit, after) := by
    intro w hw
    obtain ⟨f, hf, hfs⟩ := hw.file
    exact ⟨_, ⟨f, hf, rfl⟩, by rw [hw.met_eq, hfs, rename_beside hsite]⟩
  have hperform : Triple (F.Live target (Whole F.bytes (standing F.fs target)))
      (perform (.rename (tempPath F.uuid target) target) : Io _)
      (fun r w => (r = .ok .unit ∧ F.Done path w) ∨
        ((∃ kind, r = .error kind) ∧ F.Live target (Whole F.bytes (standing F.fs target)) w))
      fun _ => F.Unwinding target := by
    refine Triple.perform ?_ ?_ ?_
    · intro w hw
      obtain ⟨after, hreplaced, hafter⟩ := hrun w hw
      rw [hafter]
      have hsettled : F.Replaced target
          (w.passed (.rename (tempPath F.uuid target) target) false after).settled := by
        simpa only [World.settled, World.passed, hw.late] using hreplaced
      exact .inl ⟨rfl, ⟨.replaced hsite hsettled,
        allowed_passed hw.allowed (F.replaced hsite hreplaced)⟩, .inr ⟨target, hsite, hsettled⟩⟩
    · intro w kind hw _
      exact .inr ⟨⟨kind, rfl⟩, hcut w true hw⟩
    · intro w w' hw _ hdrop
      obtain ⟨after, hreplaced, hafter⟩ := hrun w hw
      cases hdrop with
      | never => exact (hcut w false hw).unwinding hmodest
      | before =>
        rw [hafter]
        exact ⟨hw.quiet, .inl ⟨hreplaced, hw.late⟩,
          allowed_passed hw.allowed (F.replaced hsite hreplaced)⟩
      | after =>
        have hleft := hcut w false hw
        obtain ⟨f, hf, hfs⟩ := hleft.file
        refine ⟨hw.quiet, .inr ⟨⟨f, hmodest f hf, hfs⟩, ?_⟩, hleft.allowed⟩
        rintro _ _ ⟨⟩
        refine ⟨by simp [Call.run, F.free hsite], .inr ?_⟩
        show F.Replaced target ((Call.rename (tempPath F.uuid target) target).run w.event w.met).2
        rwa [hafter]
  refine hperform.bind fun r => ?_
  rintro w (⟨rfl, hdone⟩ | ⟨⟨kind, rfl⟩, hlive⟩)
  · exact .inl ⟨(), w, rfl, hdone⟩
  · exact stop_live hmodest _ w hlive

theorem write_spec {opened : Option Identity} (pending : PendingStore) :
    Triple (F.Ready path opened pending) (pending.write F.bytes) (fun _ => F.Done path)
      fun _ => F.Over := by
  intro w hw
  cases hw with
  | inPlace hpending hstream hw =>
    rename_i identity
    subst hpending
    -- a stream takes the bytes where it is: no file changes
    have halter : ∀ change, alter F.fs path change = F.fs := by
      intro change
      unfold alter
      split
      · rename_i f hfile
        rw [statReply_of_not_link (by rw [hfile]; rintro _ ⟨⟩), hfile] at hstream
        cases hstream
      · rfl
    have hlooks : Looks F.fs (.fill path F.bytes) := fun e => ⟨halter _, halter _⟩
    refine (looks_spec hlooks).bind (fun r => ?_) w hw
    rintro w ⟨hw, -⟩
    cases r with
    | ok _ => exact .inl ⟨(), w, rfl, hw.over, .inl ⟨identity, hstream⟩⟩
    | error kind => exact stop_before _ w hw
  | beside hsite hpending hw =>
    subst hpending
    refine guarded_over hsite ?_ w hw
    refine (fill_spec hsite).bind fun _ => ?_
    refine (ensureUnreplaced_spec hsite (fun _ h => h.1.modest) opened).bind fun _ => ?_
    exact renameOver_spec hsite

variable (hU : ∀ m trace, U trace → U (m :: trace)) (hsuits : Suits F U path)
include hU hsuits

theorem createReplacing_spec (opened : Option Identity) :
    Triple F.Before (createReplacing F.uuid path opened)
      (fun pending w => U w.trace ∨ F.Ready path opened pending w)
      fun _ w => U w.trace ∨ F.Over w := by
  refine (excused_or (replacementTargetLoop_spec MAX_LINK_HOPS path)).bind fun r => ?_
  rintro w ⟨hw, hfound⟩
  cases r with
  | error kind => exact .inr ⟨_, w, rfl, .inr hw.over⟩
  | ok target =>
    rcases hsuits target w.trace (hfound target rfl) with hexcused | hsite
    · exact (createFound_excused hU F.uuid opened).mono (fun _ h => h) (fun _ _ _ _ h => .inl h)
        (fun _ _ h => .inl h) w hexcused
    · refine (excused_or oldPermissions_spec).bind (fun permissions => ?_) w hw
      rintro w ⟨hw, hpermissions⟩
      refine (createBeside_spec (hsite permissions hpermissions) hpermissions).mono (fun _ h => h)
        ?_ (fun _ _ h => .inr h) w hw
      rintro _ _ pending w' ⟨hpending, hhere, hlive⟩
      exact .inr (.beside hhere hpending hlive)

theorem createOver_spec (patches : Bool) (opened : Option Identity) :
    Triple F.Before (PendingStore.createOver F.uuid patches path opened)
      (fun pending w => U w.trace ∨ F.Ready path opened pending w)
      fun _ w => U w.trace ∨ F.Over w := by
  unfold PendingStore.createOver
  split
  · exact Triple.stop _ fun _ hw => .inr hw.over
  · refine (excused_or (looks_spec (looks_stat path))).bind fun r => ?_
    rintro w ⟨hw, hreply⟩
    split
    · rename_i identity
      have hstream : statReply F.fs path = .ok (.stream identity) := by
        rcases hreply with ⟨e, hreply⟩ | ⟨kind, -, hreply⟩
        · cases hfound : statReply F.fs path with
          | error kind => simp [Call.run, hfound, Except.map] at hreply
          | ok n => simp_all [Call.run, Except.map]
        · cases hreply
      exact (openInPlace_spec hstream).mono (fun _ h => h) (fun _ _ _ _ h => .inr h)
        (fun _ _ h => .inr h) w hw
    · exact createReplacing_spec hU hsuits opened w hw

theorem replaceStore_spec (patches : Bool) (opened : Option Identity) :
    Triple F.Before (replaceStore F.uuid patches path opened F.bytes)
      (fun _ w => U w.trace ∨ F.Done path w) fun _ w => U w.trace ∨ F.Over w := by
  refine (createOver_spec hU hsuits patches opened).bind fun pending => ?_
  refine (Triple.or (held_excused hU pending) (held_spec pending)).bind fun _ => ?_
  exact Triple.or (write_excused hU pending) (write_spec pending)

/-- A replacement nobody else touches the files of ends over its frame, or is excused. -/
theorem replaceStore_over (patches : Bool) (opened : Option Identity) {events : ℕ → Event}
    (hquiet : (World.start F.fs events).Quiet) :
    let run := replaceStore F.uuid patches path opened F.bytes (World.start F.fs events)
    U run.2.trace ∨ (F.Over run.2 ∧ (run.1 = .ok () → F.Done path run.2)) := by
  have hbefore : F.Before (World.start F.fs events) :=
    ⟨hquiet, rfl, rfl, fun _ hm => absurd hm List.not_mem_nil⟩
  rcases replaceStore_spec hU hsuits patches opened _ hbefore with
    ⟨_, w, hrun, hend⟩ | ⟨e, w, hrun, hend⟩
  · rw [hrun]
    exact hend.imp_right fun hdone => ⟨hdone.ended, fun _ => hdone⟩
  · rw [hrun]
    refine hend.imp_right fun hover => ⟨hover, ?_⟩
    rintro ⟨⟩

end Held

/-! ### The end of the links replaced -/

section Ends

variable {fs : FS} {path target : Path} {uuid : List Char} {bytes : List UInt8}

theorem discreet_self : Discreet fs path uuid fs := by
  intro target _ hfree f hf
  rw [hfree] at hf
  cases hf

theorem Place.discreet_beside (hplace : Place fs path uuid target) {after : FS}
    (h : Beside fs uuid (fs target) target after) : Discreet fs path uuid after := by
  intro target' hends _ f hf
  obtain ⟨f', hmodest, rfl⟩ := h
  obtain rfl := hplace.ends.unique hends
  rw [Function.update_self] at hf
  cases hf
  exact hmodest

theorem Place.discreet_replaced (hplace : Place fs path uuid target) {after : FS}
    (h : Replaced fs bytes (fs target) target after) : Discreet fs path uuid after := by
  intro target' hends hfree f hf
  obtain ⟨f', -, rfl⟩ := h
  obtain rfl := hplace.ends.unique hends
  rw [Function.update_of_ne (tempPath_ne uuid target), hfree] at hf
  cases hf

theorem Place.notDir (hplace : Place fs path uuid target) : (fs target).any Node.isDir = false := by
  cases hold : fs target with
  | none => rfl
  | some n =>
    obtain ⟨g, rfl⟩ := hplace.old n hold
    rfl

variable (fs path uuid bytes)

/-- Only the file the links end at is replaced, and no temporary file is read beyond it. -/
def Frame.ended : Frame where
  fs := fs
  uuid := uuid
  bytes := bytes
  Allowed := Discreet fs path uuid
  Site := Place fs path uuid
  found := discreet_self
  free h := h.free
  notDir h := h.notDir
  beside hplace h := by
    rw [standing_of_endsAt hplace.ends] at h
    exact hplace.discreet_beside h
  replaced hplace h := by
    rw [standing_of_endsAt hplace.ends] at h
    exact hplace.discreet_replaced h

/-- The name replaced is one the links lead to. -/
structure OnTheWay (target : Path) : Prop where
  reaches : Reaches fs path target
  free : fs (tempPath uuid target) = none
  notDir : (fs target).any Node.isDir = false

/-- Whatever name on the way of the links is replaced. -/
def Frame.reached : Frame where
  fs := fs
  uuid := uuid
  bytes := bytes
  Allowed _ := True
  Site := OnTheWay fs path uuid
  found := trivial
  free h := h.free
  notDir h := h.notDir
  beside _ _ := trivial
  replaced _ _ := trivial

/-- The store is where it was to be: in the stream, or in the old file's place. -/
structure Done (w : World) : Prop where
  ended : Over fs path uuid bytes w
  stored : (∃ identity, statReply fs path = .ok (.stream identity)) ∨
    ∃ target, Place fs path uuid target ∧ Replaced fs bytes (fs target) target w.settled

variable {fs path uuid bytes}

theorem over_of_ended {w : World} (h : (Frame.ended fs path uuid bytes).Over w) :
    Pending.Over fs path uuid bytes w where
  outcome := by
    cases h.outcome with
    | kept h => exact .kept h
    | replaced hplace h =>
      have hold := standing_of_endsAt hplace.ends
      exact .replaced hplace (hold ▸ h)
    | left hplace h hfailed =>
      have hold := standing_of_endsAt hplace.ends
      exact .left hplace (hold ▸ h) hfailed
  discreet := h.allowed

theorem done_of_ended {w : World} (h : (Frame.ended fs path uuid bytes).Done path w) :
    Pending.Done fs path uuid bytes w where
  ended := over_of_ended h.1
  stored := by
    refine h.stored.imp_right ?_
    rintro ⟨target, hplace, hreplaced⟩
    have hold := standing_of_endsAt hplace.ends
    exact ⟨target, hplace, hold ▸ hreplaced⟩

theorem LinkUnread.cons (m : Moment) (trace : List Moment) (h : LinkUnread trace) :
    LinkUnread (m :: trace) := by
  obtain ⟨m', hm', hunread⟩ := h
  exact ⟨m', List.mem_cons_of_mem m hm', hunread⟩

theorem suits_ended : Suits (Frame.ended fs path uuid bytes) LinkUnread path := by
  intro target trace hfound
  refine hfound.ends.imp_right fun hends permissions hpermissions hfree => ⟨hends, ?_, hfree⟩
  intro n hn
  have hold : standing fs target = some n := (standing_of_endsAt hends).trans hn
  obtain ⟨-, hnone⟩ | ⟨f, -, hfile⟩ := hpermissions
  · cases hold.symm.trans hnone
  · exact ⟨f, Option.some.inj (hold.symm.trans hfile)⟩

theorem suits_reached : Suits (Frame.reached fs path uuid bytes) (fun _ => False) path := by
  intro target trace hfound
  refine .inr fun permissions hpermissions hfree => ⟨hfound.reaches, hfree, ?_⟩
  show (fs target).any Node.isDir = false
  cases hold : fs target with
  | none => rfl
  | some n =>
    cases n with
    | link text => rfl
    | file f => rfl
    | stream identity => rfl
    | special identity => rfl
    | dir identity =>
      -- a stat would have found the directory
      have hdir : standing fs target = some (.dir identity) := by
        rw [standing, statReply_of_not_link (by rw [hold]; rintro _ ⟨⟩), hold]
        rfl
      obtain ⟨-, hnone⟩ | ⟨f, -, hfile⟩ := hpermissions
      · cases hdir.symm.trans hnone
      · cases hdir.symm.trans hfile

end Ends

/-! ### A replacement among others -/

section Checked

variable {path target : Path} {uuid : List Char} {bytes : List UInt8} {opened : Identity}

/-- The last call found nothing at `target`, or the file that was opened. -/
def CheckedAt (opened : Identity) (target : Path) (earlier : List Moment) : Prop :=
  ∃ check rest, earlier = check :: rest ∧ check.call = .stat target ∧ check.failed = false ∧
    (statReply check.before target = .error .notFound ∨
      ∃ found, statReply check.before target = .ok found ∧ found.identity = some opened)

/-- Every call changes a temporary file at most, or is a rename right after its check. -/
def Watched (uuid : List Char) (opened : Identity) (trace : List Moment) : Prop :=
  ∀ m earlier, m :: earlier <:+ trace → Spares uuid m ∨
    ∃ target, m.call = .rename (tempPath uuid target) target ∧ CheckedAt opened target earlier

theorem Watched.cons {m : Moment} {trace : List Moment} (h : Watched uuid opened trace)
    (hm : Spares uuid m ∨
      ∃ target, m.call = .rename (tempPath uuid target) target ∧ CheckedAt opened target trace) :
    Watched uuid opened (m :: trace) := by
  intro m' earlier hsuffix
  rcases List.suffix_cons_iff.mp hsuffix with heq | hsuffix
  · cases heq
    exact hm
  · exact h m' earlier hsuffix

theorem watched_spares (m : Moment) (trace : List Moment) (hm : Spares uuid m)
    (h : Watched uuid opened trace) : Watched uuid opened (m :: trace) := h.cons (.inl hm)

theorem ensureUnreplaced_watched :
    Triple (fun w => Watched uuid opened w.trace) (ensureUnreplaced path target (some opened))
      (fun _ w => Watched uuid opened w.trace ∧ CheckedAt opened target w.trace)
      fun _ w => Watched uuid opened w.trace := by
  have hspares : ∀ (w : World) failed, Spares uuid ⟨.stat target, failed, w.met, w.met⟩ :=
    fun _ _ _ _ => rfl
  have hstat : Triple (fun w => Watched uuid opened w.trace) (perform (.stat target) : Io _)
      (fun r w => Watched uuid opened w.trace ∧ ((r = .error .notFound ∨
        ∃ found, r = .ok (.node found) ∧ found.identity = some opened) →
          CheckedAt opened target w.trace))
      fun _ w => Watched uuid opened w.trace := by
    refine Triple.perform ?_ ?_ ?_
    · intro w hw
      refine ⟨hw.cons (.inl (hspares w false)), fun hreply => ⟨_, _, rfl, rfl, rfl, ?_⟩⟩
      show statReply w.met target = _ ∨ ∃ found, statReply w.met target = _ ∧ _
      cases hfound : statReply w.met target with
      | error kind => simpa [Call.run, hfound, Except.map] using hreply
      | ok found => simpa [Call.run, hfound, Except.map] using hreply
    · intro w kind hw hkind
      refine ⟨hw.cons (.inl (hspares w true)), ?_⟩
      rintro (h | ⟨found, h, -⟩)
      · cases h
        exact absurd ⟨rfl, rfl⟩ hkind
      · cases h
    · intro w w' hw _ hdrop
      cases hdrop with
      | never => exact hw.cons (.inl (hspares w false))
      | before => exact hw.cons (.inl (hspares w false))
      | after => exact hw.cons (.inl (hspares w false))
  refine hstat.bind fun r => ?_
  rintro w ⟨hw, hchecked⟩
  split
  · rename_i found
    split
    · rename_i hsame
      exact .inl ⟨(), w, rfl, hw, hchecked (.inr ⟨found, rfl, hsame⟩)⟩
    · exact .inr ⟨_, w, rfl, hw⟩
  · exact .inr ⟨_, w, rfl, hw⟩
  · split
    · rename_i hgone
      exact .inl ⟨(), w, rfl, hw, hchecked (.inl (by rw [hgone]))⟩
    · exact .inr ⟨_, w, rfl, hw⟩

theorem renameOver_watched :
    Triple (fun w => Watched uuid opened w.trace ∧ CheckedAt opened target w.trace)
      (renameOver path (tempPath uuid target) target) (fun _ w => Watched uuid opened w.trace)
      fun _ w => Watched uuid opened w.trace := by
  have hrename : Triple (fun w => Watched uuid opened w.trace ∧ CheckedAt opened target w.trace)
      (perform (.rename (tempPath uuid target) target) : Io _)
      (fun _ w => Watched uuid opened w.trace) fun _ w => Watched uuid opened w.trace := by
    refine Triple.perform ?_ ?_ ?_
    · rintro w ⟨hw, hchecked⟩
      exact hw.cons (.inr ⟨target, rfl, hchecked⟩)
    · rintro w kind ⟨hw, hchecked⟩ _
      exact hw.cons (.inr ⟨target, rfl, hchecked⟩)
    · rintro w w' ⟨hw, hchecked⟩ _ hdrop
      cases hdrop with
      | never => exact hw.cons (.inr ⟨target, rfl, hchecked⟩)
      | before => exact hw.cons (.inr ⟨target, rfl, hchecked⟩)
      | after => exact hw.cons (.inr ⟨target, rfl, hchecked⟩)
  refine hrename.bind fun r => ?_
  cases r with
  | ok _ => exact Kept.pure ()
  | error kind => exact Kept.stop _

theorem createOver_watched (patches : Bool) :
    Triple (fun w => Watched uuid opened w.trace)
      (PendingStore.createOver uuid patches path (some opened))
      (fun pending w => Watched uuid opened w.trace ∧
        ∃ target, pending = ⟨path, .replace target (tempPath uuid target) (some opened)⟩)
      fun _ w => Watched uuid opened w.trace := by
  unfold PendingStore.createOver
  split
  · exact Triple.stop _ fun _ hw => hw
  · refine (kept_looking watched_spares rfl).bind fun r => ?_
    split
    · exact Triple.stop _ fun _ hw => hw
    · exact createReplacing_kept watched_spares (some opened)

theorem replaceStore_watched (patches : Bool) :
    Kept (Watched uuid opened) (replaceStore uuid patches path (some opened) bytes) := by
  refine (createOver_watched patches).bind fun pending => ?_
  rintro w ⟨hw, target, rfl⟩
  have hheld : Kept (Watched uuid opened) (guarded (tempPath uuid target) build) :=
    kept_guarded watched_spares (build_kept watched_spares)
  refine (hheld.bind fun _ => ?_) w hw
  refine kept_guarded watched_spares ((fill_kept watched_spares bytes).bind fun _ => ?_)
  exact ensureUnreplaced_watched.bind fun _ => renameOver_watched

end Checked

/-! ### All or nothing -/

/-- Whatever call fails or is cut short, the files stand as they did; or the whole store stands
at the end of the links under the old file's permissions; or a temporary file is left that
could not be removed.  Only its owner may read the temporary file of an existing store beyond
the old permissions.  With an identity, and whatever others do, the file is only replaced right
after a check. -/
theorem replacing_a_store_is_all_or_nothing (uuid : List Char) (patches : Bool) (path : Path)
    (opened : Option Identity) (bytes : List UInt8) (fs : FS) (events : ℕ → Event) :
    ((World.start fs events).Quiet →
      LinkUnread (replaceStore uuid patches path opened bytes (World.start fs events)).2.trace ∨
        (Over fs path uuid bytes
            (replaceStore uuid patches path opened bytes (World.start fs events)).2 ∧
          ((replaceStore uuid patches path opened bytes (World.start fs events)).1 = .ok () →
            Done fs path uuid bytes
              (replaceStore uuid patches path opened bytes (World.start fs events)).2))) ∧
      ∀ identity, opened = some identity → Watched uuid identity
        (replaceStore uuid patches path opened bytes (World.start fs events)).2.trace := by
  constructor
  · intro hquiet
    refine (replaceStore_over LinkUnread.cons
      (@suits_ended fs path uuid bytes) patches opened hquiet).imp_right fun h => ?_
    exact ⟨over_of_ended h.1, fun hok => done_of_ended (h.2 hok)⟩
  · rintro identity rfl
    have hnil : Watched uuid identity (World.start fs events).trace := by
      intro m earlier hsuffix
      cases List.suffix_nil.mp hsuffix
    rcases replaceStore_watched patches _ hnil with ⟨_, w, hrun, hend⟩ | ⟨e, w, hrun, hend⟩
    · rwa [hrun]
    · rwa [hrun]

theorem letter_proper : ['a'] ≠ ['.', '.'] := by decide

theorem other_letter_proper : ['b'] ≠ ['.', '.'] := by decide

def linkPath : Path := ⟨[], ['a'], letter_proper⟩

def storePath : Path := ⟨[], ['b'], other_letter_proper⟩

def oldStore (mode : Mode) : File := ⟨[1, 2, 3], mode, 0, 7⟩

/-- A link to a store. -/
def linkedStore (mode : Mode) : FS :=
  Function.update (Function.update (fun _ => none) storePath (some (.file (oldStore mode))))
    linkPath (some (.link (.relative [] storePath.name)))

def alone (answer : Answer) : Event := ⟨id, answer, 0o022, ⟨0, 8⟩, []⟩

theorem replacing_a_store_is_all_or_nothing_linked :
    Done (linkedStore 0o640) linkPath [] [9] (replaceStore [] false linkPath (some ⟨0, 7⟩) [9]
      (World.start (linkedStore 0o640) fun _ => alone .served)).2 := by
  have hquiet : (World.start (linkedStore 0o640) fun _ => alone .served).Quiet := fun _ => rfl
  have hrun : (replaceStore [] false linkPath (some ⟨0, 7⟩) [9]
      (World.start (linkedStore 0o640) fun _ => alone .served)).1 = .ok () := by rfl
  have hserved : (replaceStore [] false linkPath (some ⟨0, 7⟩) [9]
      (World.start (linkedStore 0o640) fun _ => alone .served)).2.trace.any Moment.failed =
        false := by rfl
  rcases (replacing_a_store_is_all_or_nothing [] false linkPath (some ⟨0, 7⟩) [9]
    (linkedStore 0o640) fun _ => alone .served).1 hquiet with ⟨m, hm, p, text, -, hfailed, -⟩ | h
  · have hany := List.any_eq_true.mpr ⟨m, hm, hfailed⟩
    rw [hserved] at hany
    cases hany
  · exact h.2 hrun

/-- No store is left in part, even where a link was not told for one: some name the links lead to
then gets the whole store under the permissions a stat finds there, and no other file changes. -/
theorem replacing_a_store_leaves_no_part (uuid : List Char) (patches : Bool) (path : Path)
    (opened : Option Identity) (bytes : List UInt8) (fs : FS) (events : ℕ → Event)
    (hquiet : (World.start fs events).Quiet) :
    let run := replaceStore uuid patches path opened bytes (World.start fs events)
    (Frame.reached fs path uuid bytes).Over run.2 ∧
      (run.1 = .ok () → (Frame.reached fs path uuid bytes).Done path run.2) := by
  have hnever : ∀ (_ : Moment) (_ : List Moment), False → False := fun _ _ h => h
  rcases replaceStore_over hnever (@suits_reached fs path uuid bytes) patches opened hquiet with
    h | h
  · exact h.elim
  · exact h

def ownerReads : Option Node → Bool
  | some (.file f) => reads f.mode .owner
  | _ => false

/-- A temporary file whose removal fails stays; and its owner may read it before it has the old
permissions. -/
theorem failed_cleanup_leaves_the_temporary_file :
    ∃ (events : ℕ → Event) (w : World), (World.start (linkedStore 0o200) events).Quiet ∧
      w = (replaceStore [] false linkPath none [9] (World.start (linkedStore 0o200) events)).2 ∧
      linkedStore 0o200 (tempPath [] storePath) = none ∧
      (w.settled (tempPath [] storePath)).isSome = true ∧
      w.settled storePath = linkedStore 0o200 storePath ∧
      (∃ m ∈ w.trace, ownerReads (m.after (tempPath [] storePath)) = true) ∧
      ownerReads (linkedStore 0o200 storePath) = false := by
  -- the store cannot be filled, and then the temporary file not be removed
  refine ⟨fun i => alone (if i < 9 then .served else .failed .permissionDenied), _, fun _ => rfl,
    rfl, rfl, rfl, rfl, ?_, rfl⟩
  exact List.any_eq_true.mp rfl

/-- A link whose stat fails is taken for the store itself: it is replaced, and the store it led to
stays as it was. -/
theorem unread_link_is_replaced :
    ∃ (events : ℕ → Event) (w : World), (World.start (linkedStore 0o640) events).Quiet ∧
      replaceStore [] false linkPath none [9] (World.start (linkedStore 0o640) events) =
        (.ok (), w) ∧
      LinkUnread w.trace ∧
      linkedStore 0o640 linkPath = some (.link (.relative [] storePath.name)) ∧
      w.settled linkPath = some (.file ⟨[9], 0o640, 0, 8⟩) ∧
      w.settled storePath = linkedStore 0o640 storePath := by
  refine ⟨fun i => alone (if i = 1 then .failed .other else .served), _, fun _ => rfl, rfl, ?_, rfl,
    rfl, rfl⟩
  -- the second call of the run
  exact ⟨_, List.mem_of_getElem? (i := 7) rfl, linkPath, _, rfl, rfl, rfl⟩

end Pending
