/-
What a stream of quads hands out, emits and frees over any run.

* `Event.quad`, `Event.terminal`, `Event.closes` — what is read off a run's log;
* `Inv` — what holds between any two steps, whatever calls are under way;
* `inv_destroy`, `inv_pull`, `inv_hand` — the stream's own steps keep it;
* `inv_advance`, `inv_unwind`, `inv_step` — and so does every step of the machine;
* `quadStream_delivers` — every quad once, in order, and the handle freed once.
-/
import VortexRdf.QuadStreams

namespace QuadStreams

variable {Q E : Type}

/-! ### Reading a log -/

namespace Event

def quad : Event Q E → Option Q
  | .handed _ quad => some quad
  | _ => none

def terminal : Event Q E → Option (Terminal E)
  | .emitted terminal => some terminal
  | _ => none

def isFreed : Event Q E → Bool
  | .freed => true
  | _ => false

def isDestroyed : Event Q E → Bool
  | .destroyed => true
  | _ => false

/-- The handle's end or failure seen. -/
def isSeen : Event Q E → Bool
  | .sawEnd => true
  | .sawFailure _ => true
  | _ => false

/-- The stream ended, failed or was destroyed. -/
def closes (event : Event Q E) : Bool := event.isSeen || event.isDestroyed

end Event

def Task.terminal : Task E → Option (Terminal E)
  | .start => none
  | .emit terminal => some terminal

/-- The quads handed out. -/
def handed (log : List (Event Q E)) : List Q := log.filterMap Event.quad

/-- The `end`s and `error`s emitted. -/
def emitted (log : List (Event Q E)) : List (Terminal E) := log.filterMap Event.terminal

def frees (log : List (Event Q E)) : ℕ := log.countP Event.isFreed

section Logs

variable {log : List (Event Q E)} {event : Event Q E}

theorem handed_concat (hquad : event.quad = none) : handed (log ++ [event]) = handed log := by
  rw [handed, List.filterMap_append, List.filterMap_cons_none hquad]
  exact List.append_nil _

theorem emitted_concat (hterminal : event.terminal = none) : emitted (log ++ [event]) = emitted log := by
  rw [emitted, List.filterMap_append, List.filterMap_cons_none hterminal]
  exact List.append_nil _

theorem frees_concat (hfree : event.isFreed = false) : frees (log ++ [event]) = frees log := by
  rw [frees, List.countP_append, List.countP_cons, hfree]
  rfl

/-- A log tells whether the stream is closed after one more event, which closes none that is open. -/
theorem closes_concat {done : Prop} (h : done ↔ ∃ earlier ∈ log, earlier.closes = true)
    (hcloses : event.closes = true → done) :
    done ↔ ∃ earlier ∈ log ++ [event], earlier.closes = true := by
  constructor
  · intro hdone
    obtain ⟨earlier, hearlier, hcloses'⟩ := h.mp hdone
    exact ⟨earlier, List.mem_append_left _ hearlier, hcloses'⟩
  · rintro ⟨earlier, hearlier, hcloses'⟩
    rcases List.mem_append.mp hearlier with hearlier | hearlier
    · exact h.mpr ⟨earlier, hearlier, hcloses'⟩
    · rw [List.mem_singleton.mp hearlier] at hcloses'
      exact hcloses hcloses'

/-- An end or failure seen stays the first that was. -/
theorem seen_concat (h : ∃ before seen after, log = before ++ seen :: after ∧ seen.isSeen = true ∧
    ∀ earlier ∈ before, earlier.isDestroyed = false) :
    ∃ before seen after, log ++ [event] = before ++ seen :: after ∧ seen.isSeen = true ∧
      ∀ earlier ∈ before, earlier.isDestroyed = false := by
  obtain ⟨before, seen, after, rfl, hseen, hearlier⟩ := h
  exact ⟨before, seen, after ++ [event], by rw [List.append_assoc, List.cons_append], hseen, hearlier⟩

theorem pulled_concat {unread : ℕ} {done : Bool}
    (h : ∀ unread done, .pulled unread done ∈ log → unread = 0 ∧ done = false)
    (hpull : ∀ unread done, .pulled unread done = event → unread = 0 ∧ done = false)
    (hmem : .pulled unread done ∈ log ++ [event]) : unread = 0 ∧ done = false := by
  rcases List.mem_append.mp hmem with hmem | hmem
  · exact h unread done hmem
  · exact hpull unread done (List.mem_singleton.mp hmem)

end Logs

/-- Whether a terminal is of the way the stream closed. -/
def Stream.Closed (stream : Stream Q E) : Terminal E → Prop
  | .ended => stream.ended = true
  | .error _ => stream.failed = true

/-! ### What holds between steps -/

structure Inv (rows : List Q) (w : World Q E) : Prop where
  /-- What is handed out, buffered and left to yield are the rows. -/
  kept : w.stream.done = false →
    handed w.log ++ w.stream.buffer.drop w.stream.pos ++ w.left.flatten = rows
  inOrder : handed w.log <+: rows
  whole : w.stream.ended = true → handed w.log = rows
  dropped : w.stream.done = true → w.stream.buffer = []
  chunks : w.stream.chunks = !w.stream.done
  store : w.stream.store = !w.stream.done
  freed : frees w.log = if w.stream.done then 1 else 0
  pulled : ∀ unread done, .pulled unread done ∈ w.log → unread = 0 ∧ done = false
  once : (emitted w.log ++ w.queue.filterMap Task.terminal).length ≤ 1
  terminals : ∀ terminal ∈ emitted w.log ++ w.queue.filterMap Task.terminal, w.stream.Closed terminal
  closed : w.stream.ended = true ∨ w.stream.failed = true → w.stream.done = true
  closes : w.stream.done = true ↔ ∃ event ∈ w.log, event.closes = true
  /-- The end or failure was seen before any `destroy`. -/
  seen : w.stream.ended = true ∨ w.stream.failed = true →
    ∃ before event after, w.log = before ++ event :: after ∧ event.isSeen = true ∧
      ∀ earlier ∈ before, earlier.isDestroyed = false

section Keeps

variable {rows : List Q} {w w' : World Q E}

/-- The invariant speaks of no call under way, nor of the listeners. -/
theorem inv_congr (h : Inv rows w) (hleft : w'.left = w.left) (hqueue : w'.queue = w.queue)
    (hlog : w'.log = w.log) (hstream : w'.stream =
      { w.stream with
        listeners := w'.stream.listeners
        started := w'.stream.started
        draining := w'.stream.draining }) : Inv rows w' := by
  obtain ⟨stream', left', throws', queue', iterations', stack', log'⟩ := w'
  obtain ⟨chunks, store, listeners, buffer, pos, started, draining, done, ended, failed, error⟩ := stream'
  simp only at hleft hqueue hlog hstream
  subst hleft hqueue hlog
  injection hstream with h1 h2 h3 h4 h5 h6 h7 h8 h9 h10 h11
  subst h1 h2 h4 h5 h8 h9 h10 h11
  exact ⟨h.kept, h.inOrder, h.whole, h.dropped, h.chunks, h.store, h.freed, h.pulled, h.once,
    h.terminals, h.closed, h.closes, h.seen⟩

/-! ### The stream's own steps -/

theorem closes_event {event : Event Q E} (h : event.closes = true) :
    event.quad = none ∧ event.terminal = none ∧ event.isFreed = false ∧
      ∀ unread done, .pulled unread done ≠ event := by
  cases event with
  | sawEnd =>
    refine ⟨rfl, rfl, rfl, ?_⟩
    intro _ _ heq
    cases heq
  | sawFailure failure =>
    refine ⟨rfl, rfl, rfl, ?_⟩
    intro _ _ heq
    cases heq
  | destroyed =>
    refine ⟨rfl, rfl, rfl, ?_⟩
    intro _ _ heq
    cases heq
  | handed consumer quad => cases h
  | pulled unread done => cases h
  | freed => cases h
  | emitted terminal => cases h
  | rejected failure => cases h

theorem Inv.not_closed (h : Inv rows w) (hopen : w.stream.done = false) :
    w.stream.ended = false ∧ w.stream.failed = false := by
  constructor
  · rw [← Bool.not_eq_true]
    intro hended
    rw [h.closed (.inl hended)] at hopen
    cases hopen
  · rw [← Bool.not_eq_true]
    intro hfailed
    rw [h.closed (.inr hfailed)] at hopen
    cases hopen

/-- Nothing was emitted, or is to be, of a stream that is open or was destroyed. -/
theorem Inv.silent (h : Inv rows w) (hended : w.stream.ended = false)
    (hfailed : w.stream.failed = false) : emitted w.log ++ w.queue.filterMap Task.terminal = [] := by
  rw [List.eq_nil_iff_forall_not_mem]
  intro terminal hterminal
  have hclosed := h.terminals terminal hterminal
  cases terminal with
  | ended =>
    rw [Stream.Closed, hended] at hclosed
    cases hclosed
  | error failure =>
    rw [Stream.Closed, hfailed] at hclosed
    cases hclosed

/-- An open stream closed by an event: the handle is freed, the buffer and the store dropped. -/
theorem inv_close (h : Inv rows w) (hopen : w.stream.done = false) {event : Event Q E}
    (hcloses : event.closes = true) {tasks : List (Task E)}
    (hlog : w'.log = w.log ++ [event, .freed]) (hqueue : w'.queue = w.queue ++ tasks)
    (hdone : w'.stream.done = true) (hbuffer : w'.stream.buffer = [])
    (hchunks : w'.stream.chunks = false) (hstore : w'.stream.store = false)
    (hwhole : w'.stream.ended = true → handed w.log = rows)
    (hseen : w'.stream.ended = true ∨ w'.stream.failed = true → event.isSeen = true)
    (hone : (tasks.filterMap Task.terminal).length ≤ 1)
    (hterminals : ∀ terminal ∈ tasks.filterMap Task.terminal, w'.stream.Closed terminal) :
    Inv rows w' := by
  obtain ⟨hquad, hterminal, hfree, hpull⟩ := closes_event hcloses
  -- nothing was emitted so far, and the event hands out and emits nothing
  obtain ⟨hended, hfailed⟩ := h.not_closed hopen
  have hsilent := h.silent hended hfailed
  have hquads : handed w'.log = handed w.log := by
    rw [hlog, handed, List.filterMap_append, List.filterMap_cons_none hquad]
    exact List.append_nil _
  have hemitted : emitted w'.log ++ w'.queue.filterMap Task.terminal =
      tasks.filterMap Task.terminal := by
    have hemits : emitted w'.log = emitted w.log := by
      rw [hlog, emitted, List.filterMap_append, List.filterMap_cons_none hterminal]
      exact List.append_nil _
    rw [hemits, hqueue, List.filterMap_append, ← List.append_assoc, hsilent, List.nil_append]
  refine ⟨fun hnot => ?_, ?_, ?_, fun _ => hbuffer, ?_, ?_, ?_, ?_, ?_, ?_, fun _ => hdone, ?_, ?_⟩
  · rw [hdone] at hnot
    cases hnot
  · rw [hquads]
    exact h.inOrder
  · intro hended'
    rw [hquads]
    exact hwhole hended'
  · rw [hchunks, hdone]
    rfl
  · rw [hstore, hdone]
    rfl
  · have hbefore := h.freed
    rw [hopen] at hbefore
    rw [hdone, hlog, frees, List.countP_append, List.countP_cons, hfree]
    change frees w.log + _ = 1
    rw [hbefore]
    rfl
  · intro unread done hmem
    rw [hlog, List.mem_append, List.mem_cons, List.mem_singleton] at hmem
    rcases hmem with hmem | heq | heq
    · exact h.pulled unread done hmem
    · exact absurd heq (hpull unread done)
    · cases heq
  · rw [hemitted]
    exact hone
  · rw [hemitted]
    exact hterminals
  · refine ⟨fun _ => ⟨event, ?_, hcloses⟩, fun _ => hdone⟩
    rw [hlog]
    exact List.mem_append_right _ List.mem_cons_self
  · intro hshut
    refine ⟨w.log, event, [.freed], hlog, hseen hshut, fun earlier hearlier => ?_⟩
    rw [← Bool.not_eq_true]
    intro hdestroyed
    have hcloses' : earlier.closes = true := by rw [Event.closes, hdestroyed, Bool.or_true]
    rw [h.closes.mpr ⟨earlier, hearlier, hcloses'⟩] at hopen
    cases hopen

/-- An event that hands out, emits and frees nothing, and closes no stream that is open. -/
theorem inv_note (h : Inv rows w) {event : Event Q E} (hquad : event.quad = none)
    (hterminal : event.terminal = none) (hfree : event.isFreed = false)
    (hcloses : event.closes = true → w.stream.done = true)
    (hpull : ∀ unread done, .pulled unread done = event → unread = 0 ∧ done = false) :
    Inv rows (w.note event) := by
  have hquads : handed (w.log ++ [event]) = handed w.log := handed_concat hquad
  have hemits : emitted (w.log ++ [event]) = emitted w.log := emitted_concat hterminal
  refine ⟨?_, ?_, ?_, h.dropped, h.chunks, h.store, ?_, ?_, ?_, ?_, h.closed, ?_, ?_⟩
  · intro hopen
    have hkept := h.kept hopen
    rwa [← hquads] at hkept
  · exact hquads.symm ▸ h.inOrder
  · exact fun hended => hquads.trans (h.whole hended)
  · exact (frees_concat hfree).trans h.freed
  · exact fun unread done hmem => pulled_concat h.pulled hpull hmem
  · have honce := h.once
    rwa [← hemits] at honce
  · have hterminals := h.terminals
    rwa [← hemits] at hterminals
  · exact closes_concat h.closes hcloses
  · exact fun hshut => seen_concat (h.seen hshut)

theorem release_open (hchunks : w.stream.chunks = true) : w.release = { w.note .freed with
    stream := { w.stream with chunks := false, store := false, buffer := [], pos := 0 } } := by
  rw [World.release]
  simp only [hchunks, if_true]

theorem inv_destroy (h : Inv rows w) : Inv rows w.destroy := by
  cases hdone : w.stream.done with
  | true =>
    -- closed already: there is no handle, and the buffer is empty
    have hnoted : Inv rows (w.note .destroyed) := by
      refine inv_note h rfl rfl rfl (fun _ => hdone) ?_
      intro _ _ heq
      cases heq
    have hchunks := h.chunks
    have hstore := h.store
    rw [hdone] at hchunks hstore
    have hbuffer := h.dropped hdone
    obtain ⟨hkept, hinOrder, hwhole, hdropped, -, -, hfreed, hpulled, honce, hterminals, hclosed,
      hcloses, hseen⟩ := hnoted
    have hrun : w.destroy = { w.note .destroyed with
        stream := { w.stream with
          done := true
          chunks := false
          store := false
          buffer := []
          pos := 0 } } := by
      rw [World.destroy, World.release]
      simp only [World.note, hchunks, Bool.not_true, Bool.false_eq_true, if_false]
    rw [hrun]
    change w.stream.done = true → _ at hdropped
    refine ⟨fun hopen => ?_, hinOrder, hwhole, fun _ => rfl, rfl, rfl, ?_, hpulled, honce, ?_,
      fun _ => rfl, ?_, hseen⟩
    · cases hopen
    · change frees _ = if w.stream.done = true then 1 else 0 at hfreed
      rw [hdone] at hfreed
      exact hfreed
    · intro terminal hterminal
      have hstream := hterminals terminal hterminal
      cases terminal with
      | ended => exact hstream
      | error failure => exact hstream
    · exact ⟨fun _ => hcloses.mp hdone, fun _ => rfl⟩
  | false =>
    have hchunks := h.chunks
    rw [hdone] at hchunks
    obtain ⟨hended, hfailed⟩ := h.not_closed hdone
    have hrun : w.destroy = { w with
        log := w.log ++ [.destroyed] ++ [.freed]
        stream := { w.stream with
          done := true
          chunks := false
          store := false
          buffer := []
          pos := 0 } } := by
      rw [World.destroy, release_open]
      · rfl
      · exact hchunks
    rw [hrun]
    refine @inv_close _ _ _ w _ h hdone .destroyed rfl [] (List.append_assoc _ _ _)
      (List.append_nil _).symm rfl rfl rfl rfl ?_ ?_ (Nat.zero_le 1) ?_
    · exact fun hended' => absurd (hended.symm.trans hended') Bool.false_ne_true
    · rintro (hended' | hfailed')
      · exact absurd (hended.symm.trans hended') Bool.false_ne_true
      · exact absurd (hfailed.symm.trans hfailed') Bool.false_ne_true
    · exact fun terminal hterminal => absurd hterminal List.not_mem_nil

theorem inv_fail (h : Inv rows w) (hopen : w.stream.done = false) (failure : Failure E) :
    Inv rows (w.fail failure) := by
  have hchunks := h.chunks
  rw [hopen] at hchunks
  obtain ⟨hended, -⟩ := h.not_closed hopen
  have hrun : w.fail failure = { w with
      log := w.log ++ [.sawFailure failure] ++ [.freed]
      queue := w.queue ++ [.emit (.error failure)]
      stream := { w.stream with
        done := true
        failed := true
        error := some failure
        chunks := false
        store := false
        buffer := []
        pos := 0 } } := by
    rw [World.fail, World.finish, release_open]
    · rfl
    · exact hchunks
  rw [hrun]
  refine @inv_close _ _ _ w _ h hopen (.sawFailure failure) rfl [.emit (.error failure)]
    (List.append_assoc _ _ _) rfl rfl rfl rfl rfl ?_ (fun _ => rfl) (Nat.le_refl 1) ?_
  · exact fun hended' => absurd (hended.symm.trans hended') Bool.false_ne_true
  · intro terminal hterminal
    obtain rfl : terminal = .error failure := List.mem_singleton.mp hterminal
    rfl

/-- The handle's end, when every row is handed out. -/
theorem inv_end (h : Inv rows w) (hopen : w.stream.done = false) (hrows : handed w.log = rows) :
    Inv rows (World.finish { w.note .sawEnd with stream := { w.stream with ended := true } } .ended) := by
  have hchunks := h.chunks
  rw [hopen] at hchunks
  have hrun : World.finish { w.note .sawEnd with stream := { w.stream with ended := true } } .ended =
      { w with
        log := w.log ++ [.sawEnd] ++ [.freed]
        queue := w.queue ++ [.emit .ended]
        stream := { w.stream with
          done := true
          ended := true
          chunks := false
          store := false
          buffer := []
          pos := 0 } } := by
    rw [World.finish, release_open]
    · rfl
    · exact hchunks
  rw [hrun]
  refine @inv_close _ _ _ w _ h hopen .sawEnd rfl [.emit .ended]
    (List.append_assoc _ _ _) rfl rfl rfl rfl rfl (fun _ => hrows) (fun _ => rfl) (Nat.le_refl 1) ?_
  intro terminal hterminal
  obtain rfl : terminal = .ended := List.mem_singleton.mp hterminal
  rfl

/-- A pull of an empty buffer. -/
theorem inv_pull (h : Inv rows w) (hempty : w.nextQuad = none) : Inv rows w.pull := by
  rw [World.pull]
  split_ifs with hdone hheld
  · exact h
  · rw [Bool.not_eq_true] at hdone
    exact inv_fail h hdone .noHandle
  · rw [Bool.not_eq_true] at hdone
    have hread : w.stream.buffer.length ≤ w.stream.pos := List.getElem?_eq_none_iff.mp hempty
    have hunread : w.stream.buffer.length - w.stream.pos = 0 := Nat.sub_eq_zero_of_le hread
    have hcalled : Inv rows (w.note (.pulled (w.stream.buffer.length - w.stream.pos) w.stream.done)) := by
      refine inv_note h rfl rfl rfl (fun hcloses => by cases hcloses) ?_
      intro unread done heq
      injection heq with hunread' hdone'
      exact ⟨hunread'.trans hunread, hdone'.trans hdone⟩
    have hkept := hcalled.kept hdone
    change handed _ ++ w.stream.buffer.drop w.stream.pos ++ w.left.flatten = rows at hkept
    rw [List.drop_eq_nil_of_le hread, List.append_nil] at hkept
    simp only
    split
    · rename_i chunk left _ hleft
      rw [hleft, List.flatten_cons, ← List.append_assoc] at hkept
      obtain ⟨-, hinOrder, hwhole, -, hchunks, hstore, hfreed, hpulled, honce, hterminals, hclosed,
        hcloses, hseen⟩ := hcalled
      refine ⟨fun _ => hkept, hinOrder, hwhole, fun hdone' => ?_, hchunks, hstore, hfreed, hpulled,
        honce, ?_, hclosed, hcloses, hseen⟩
      · exact absurd (hdone.symm.trans hdone') Bool.false_ne_true
      · intro terminal hterminal
        have hstream := hterminals terminal hterminal
        cases terminal with
        | ended => exact hstream
        | error failure => exact hstream
    · exact inv_fail hcalled hdone _
    · rename_i hleft _
      rw [hleft, List.flatten_nil, List.append_nil] at hkept
      exact inv_end hcalled hdone hkept

/-- The quad the position is at, handed to a consumer. -/
theorem inv_hand (h : Inv rows w) (hopen : w.stream.done = false) {quad : Q}
    (hnext : w.nextQuad = some quad) (consumer : Consumer) : Inv rows (w.hand consumer quad) := by
  obtain ⟨hpos, hquad⟩ := List.getElem?_eq_some_iff.mp hnext
  have hquads : handed (w.log ++ [.handed consumer quad]) = handed w.log ++ [quad] := by
    rw [handed, List.filterMap_append]
    rfl
  -- the quad moves from the buffer to what was handed out
  have hkept : handed (w.log ++ [.handed consumer quad]) ++ w.stream.buffer.drop (w.stream.pos + 1) ++
      w.left.flatten = rows := by
    have hbefore := h.kept hopen
    rw [List.drop_eq_getElem_cons hpos, hquad] at hbefore
    rw [hquads, List.append_assoc (handed w.log), List.singleton_append]
    exact hbefore
  have hemits : emitted (w.log ++ [.handed consumer quad]) = emitted w.log := emitted_concat rfl
  obtain ⟨hended, hfailed⟩ := h.not_closed hopen
  refine ⟨fun _ => hkept, ?_, ?_, ?_, h.chunks, h.store, ?_, ?_, ?_, ?_, h.closed, ?_, ?_⟩
  · rw [← hkept, List.append_assoc]
    exact List.prefix_append _ _
  · exact fun hended' => absurd (hended.symm.trans hended') Bool.false_ne_true
  · exact fun hdone => absurd (hopen.symm.trans hdone) Bool.false_ne_true
  · exact (frees_concat rfl).trans h.freed
  · exact fun unread done hmem => pulled_concat h.pulled (fun _ _ heq => by cases heq) hmem
  · have honce := h.once
    rwa [← hemits] at honce
  · -- an open stream has emitted nothing
    intro terminal hterminal
    change terminal ∈ emitted (w.log ++ [.handed consumer quad]) ++
      w.queue.filterMap Task.terminal at hterminal
    rw [hemits, h.silent hended hfailed] at hterminal
    cases hterminal
  · exact closes_concat h.closes fun hcloses => by cases hcloses
  · exact fun hshut => seen_concat (h.seen hshut)

/-! ### The calls under way -/

/-- A step that only calls, returns, attaches or detaches. -/
theorem inv_same (h : Inv rows w) (hstream : w'.stream = w.stream) (hleft : w'.left = w.left)
    (hqueue : w'.queue = w.queue) (hlog : w'.log = w.log) : Inv rows w' := by
  refine inv_congr h hleft hqueue hlog ?_
  rw [hstream]

theorem inv_setDraining (h : Inv rows w) (draining : Bool) : Inv rows (w.setDraining draining) :=
  inv_congr h rfl rfl rfl rfl

theorem inv_push (h : Inv rows w) (frame : Frame) : Inv rows (w.push frame) :=
  inv_same h rfl rfl rfl rfl

theorem inv_setIteration (h : Inv rows w) (i : ℕ) (iteration : Iteration) :
    Inv rows (w.setIteration i iteration) := inv_same h rfl rfl rfl rfl

theorem inv_callDrain (h : Inv rows w) : Inv rows w.callDrain := by
  rw [World.callDrain]
  split_ifs
  · exact h
  · exact inv_push (inv_setDraining h true) .drain

theorem inv_leaveIteration (h : Inv rows w) (i : ℕ) : Inv rows (w.leaveIteration i) := by
  rw [World.leaveIteration]
  split_ifs
  · exact inv_setIteration h i .completed
  · exact inv_setIteration (inv_destroy h) i .completed

theorem inv_endIteration (h : Inv rows w) (i : ℕ) : Inv rows (w.endIteration i) := by
  rw [World.endIteration]
  split_ifs
  · refine inv_leaveIteration (inv_note h rfl rfl rfl ?_ ?_) i
    · intro hcloses
      cases hcloses
    · intro _ _ heq
      cases heq
  · exact inv_leaveIteration h i

/-- A turn of any call under way: each consumer hands out the next quad, or pulls when there
is none, unless the stream is done. -/
theorem inv_advance (h : Inv rows w) (frame : Frame) : Inv rows (w.advance frame) := by
  cases frame with
  | user => exact h
  | emitting listeners =>
    cases listeners with
    | nil => exact h
    | cons listener listeners => exact inv_push (inv_push h _) _
  | drain =>
    rw [World.advance]
    split_ifs with hdone
    · exact inv_setDraining h false
    · rw [Bool.not_eq_true] at hdone
      cases hnext : w.nextQuad with
      | some quad => exact inv_push (inv_push (inv_hand h hdone hnext .data) _) _
      | none => exact inv_push (inv_pull h hnext) _
  | starting =>
    rw [World.advance]
    split_ifs
    · exact h
    · exact inv_callDrain h
  | reading =>
    rw [World.advance]
    split_ifs with hdone
    · exact h
    · rw [Bool.not_eq_true] at hdone
      cases hnext : w.nextQuad with
      | some quad => exact inv_hand h hdone hnext .read
      | none => exact inv_push (inv_pull h hnext) _
  | iterating i =>
    rw [World.advance]
    split_ifs with hdone
    · exact inv_endIteration h i
    · rw [Bool.not_eq_true] at hdone
      cases hnext : w.nextQuad with
      | some quad => exact inv_setIteration (inv_hand h hdone hnext .iterator) i .suspended
      | none => exact inv_push (inv_pull h hnext) _

/-- An exception destroys the stream at each drain it passes, and does nothing else. -/
theorem inv_unwind (h : Inv rows w) (stack : List Frame) : Inv rows (World.unwind stack w) := by
  induction stack generalizing w with
  | nil => exact inv_same h rfl rfl rfl rfl
  | cons frame stack ih =>
    cases frame with
    | user => exact inv_same h rfl rfl rfl rfl
    | drain => exact ih (inv_setDraining (inv_destroy h) false)
    | emitting listeners => exact ih h
    | starting => exact ih h
    | reading => exact ih h
    | iterating i => exact ih h

theorem inv_setListeners (h : Inv rows w) (event : EventName) (listeners : List Listener) :
    Inv rows (w.setListeners event listeners) := inv_congr h rfl rfl rfl rfl

theorem inv_on (h : Inv rows w) (event : EventName) (listener : Listener) :
    Inv rows (w.on event listener) := by
  have hattached := inv_setListeners h event (w.stream.listeners event ++ [listener])
  rw [World.on]
  split_ifs
  · exact inv_callDrain hattached
  · exact hattached
  · exact inv_push hattached .user
  · exact hattached

theorem inv_nextStep (h : Inv rows w) (i : ℕ) : Inv rows (w.nextStep i) := by
  rw [World.nextStep]
  split
  · exact inv_push h _
  · exact inv_push h _
  · exact h
  · exact h

theorem inv_exitIteration (h : Inv rows w) (i : ℕ) : Inv rows (w.exitIteration i) := by
  rw [World.exitIteration]
  split
  · exact inv_setIteration h i .completed
  · exact inv_leaveIteration h i
  · exact h
  · exact h

/-- The microtask taken off the queue; a terminal is emitted as it is. -/
theorem inv_runTask {task : Task E} {queue : List (Task E)} (h : Inv rows w)
    (hqueue : w.queue = task :: queue) :
    Inv rows (World.runTask { w with queue := queue } task) := by
  cases task with
  | start =>
    -- a start only sets the flag
    have hstarted : Inv rows { w with queue := queue, stream := { w.stream with started := true } } := by
      obtain ⟨hkept, hinOrder, hwhole, hdropped, hchunks, hstore, hfreed, hpulled, honce, hterminals,
        hclosed, hcloses, hseen⟩ := h
      rw [hqueue] at honce hterminals
      refine ⟨hkept, hinOrder, hwhole, hdropped, hchunks, hstore, hfreed, hpulled, honce, ?_, hclosed,
        hcloses, hseen⟩
      intro terminal hterminal
      have hstream := hterminals terminal hterminal
      cases terminal with
      | ended => exact hstream
      | error failure => exact hstream
    rw [World.runTask]
    split_ifs
    · exact hstarted
    · exact inv_push (inv_push hstarted _) _
  | emit terminal =>
    have hemits : emitted (w.log ++ [.emitted terminal]) ++ queue.filterMap Task.terminal =
        emitted w.log ++ w.queue.filterMap Task.terminal := by
      rw [hqueue, emitted, List.filterMap_append, List.append_assoc]
      rfl
    -- what the queue held is in the log now
    have hquads : handed (w.log ++ [.emitted terminal]) = handed w.log := handed_concat rfl
    have hnoted : Inv rows { w.note (.emitted terminal) with queue := queue } := by
      refine ⟨?_, ?_, ?_, h.dropped, h.chunks, h.store, ?_, ?_, ?_, ?_, h.closed, ?_, ?_⟩
      · intro hopen
        have hkept := h.kept hopen
        rwa [← hquads] at hkept
      · exact hquads.symm ▸ h.inOrder
      · exact fun hended => hquads.trans (h.whole hended)
      · exact (frees_concat rfl).trans h.freed
      · exact fun unread done hmem => pulled_concat h.pulled (fun _ _ heq => by cases heq) hmem
      · exact hemits.symm ▸ h.once
      · exact hemits.symm ▸ h.terminals
      · exact closes_concat h.closes fun hcloses => by cases hcloses
      · exact fun hshut => seen_concat (h.seen hshut)
    cases terminal with
    | ended => exact inv_push hnoted _
    | error failure => exact inv_push hnoted _

theorem inv_act (h : Inv rows w) {stack : List Frame} {choice : Choice}
    (hact : act stack w choice = some w') : Inv rows w' := by
  cases choice with
  | go => cases hact
  | run => cases hact
  | on event listener =>
    obtain rfl := Option.some.inj hact
    exact inv_on h event listener
  | off event listener =>
    obtain rfl := Option.some.inj hact
    exact inv_setListeners h event _
  | read =>
    obtain rfl := Option.some.inj hact
    exact inv_push h .reading
  | destroy =>
    obtain rfl := Option.some.inj hact
    exact inv_destroy h
  | iterate =>
    obtain rfl := Option.some.inj hact
    exact inv_same h rfl rfl rfl rfl
  | next i =>
    obtain rfl := Option.some.inj hact
    exact inv_nextStep h i
  | exit i =>
    obtain rfl := Option.some.inj hact
    exact inv_exitIteration h i
  | ret =>
    obtain rfl := Option.some.inj hact
    exact inv_same h rfl rfl rfl rfl
  | throw =>
    obtain rfl := Option.some.inj hact
    exact inv_unwind h stack

theorem inv_idle (h : Inv rows w) {choice : Choice} (hidle : idle w choice = some w') :
    Inv rows w' := by
  cases choice with
  | run =>
    obtain rfl := Option.some.inj hidle
    exact inv_push h .user
  | go =>
    cases hqueue : w.queue with
    | nil =>
      rw [idle, hqueue] at hidle
      cases hidle
    | cons task queue =>
      rw [idle, hqueue] at hidle
      obtain rfl := Option.some.inj hidle
      exact inv_runTask h hqueue
  | on event listener => cases hidle
  | off event listener => cases hidle
  | read => cases hidle
  | destroy => cases hidle
  | iterate => cases hidle
  | next i => cases hidle
  | exit i => cases hidle
  | ret => cases hidle
  | throw => cases hidle

theorem inv_step (h : Inv rows w) {choice : Choice} (hstep : step w choice = some w') :
    Inv rows w' := by
  unfold step at hstep
  split at hstep
  · exact inv_idle h hstep
  · exact inv_act h hstep
  · rename_i frame stack _ _
    split_ifs at hstep
    obtain rfl := Option.some.inj hstep
    have hpopped : Inv rows { w with stack := stack } := inv_same h rfl rfl rfl rfl
    exact inv_advance hpopped frame

theorem inv_runAll (h : Inv rows w) {choices : List Choice} (hrun : runAll choices w = some w') :
    Inv rows w' := by
  induction choices generalizing w with
  | nil =>
    obtain rfl := Option.some.inj hrun
    exact h
  | cons choice choices ih =>
    obtain ⟨next, hstep, hrest⟩ := Option.bind_eq_some_iff.mp hrun
    exact ih (inv_step h hstep) hrest

end Keeps

theorem inv_new (chunks : List (List Q)) (throws : Option E) :
    Inv chunks.flatten (World.new chunks throws) := by
  refine ⟨fun _ => rfl, List.nil_prefix, ?_, ?_, rfl, rfl, rfl, ?_, Nat.zero_le 1, ?_, ?_, ?_, ?_⟩
  · exact fun hended => absurd hended Bool.false_ne_true
  · exact fun hdone => absurd hdone Bool.false_ne_true
  · exact fun _ _ hmem => absurd hmem List.not_mem_nil
  · exact fun _ hmem => absurd hmem List.not_mem_nil
  · rintro (hended | hfailed)
    · exact absurd hended Bool.false_ne_true
    · exact absurd hfailed Bool.false_ne_true
  · constructor
    · exact fun hdone => absurd hdone Bool.false_ne_true
    · rintro ⟨event, hevent, -⟩
      exact absurd hevent List.not_mem_nil
  · rintro (hended | hfailed)
    · exact absurd hended Bool.false_ne_true
    · exact absurd hfailed Bool.false_ne_true

/-- Where the end or a failure was seen first, no `destroy` was before every one of them. -/
theorem seen_first {log before after : List (Event Q E)} (hlog : log = before ++ .destroyed :: after)
    (hbefore : ∀ event ∈ before, event.isSeen = false) {before' after' : List (Event Q E)}
    {event : Event Q E} (hlog' : log = before' ++ event :: after') (hseen : event.isSeen = true) :
    ∃ earlier ∈ before', earlier.isDestroyed = true := by
  rw [hlog] at hlog'
  rcases List.append_eq_append_iff.mp hlog' with ⟨rest, hsplit, hrest⟩ | ⟨rest, hsplit, hrest⟩
  · cases rest with
    | nil =>
      injection hrest with hevent _
      rw [← hevent] at hseen
      cases hseen
    | cons first rest =>
      injection hrest with hfirst _
      refine ⟨.destroyed, ?_, rfl⟩
      rw [hsplit, hfirst]
      exact List.mem_append_right _ List.mem_cons_self
  · cases rest with
    | nil =>
      injection hrest with hevent _
      rw [hevent] at hseen
      cases hseen
    | cons first rest =>
      injection hrest with hfirst _
      have hmem : event ∈ before := by
        rw [hsplit, hfirst]
        exact List.mem_append_right _ List.mem_cons_self
      rw [hbefore event hmem] at hseen
      cases hseen

/-- **The stream delivers every quad once and frees its handle once.** Over any run of the
stream and the code around it, whatever a handle yields, the quads handed out are, in order,
a prefix of the chunks' rows, and all of them once `end` is emitted; the handle is pulled
only while no quad is unread and the stream is not done; once the stream has ended, failed or
been destroyed, the handle has been freed once, and the buffer and the store are dropped; at
most one `end` or `error` is emitted, and none where a `destroy` came first. -/
theorem quadStream_delivers {chunks : List (List Q)} {throws : Option E} {w : World Q E}
    (h : Reachable chunks throws w) :
    handed w.log <+: chunks.flatten ∧
      (.ended ∈ emitted w.log → handed w.log = chunks.flatten) ∧
      (∀ unread done, .pulled unread done ∈ w.log → unread = 0 ∧ done = false) ∧
      ((∃ event ∈ w.log, event.closes = true) → frees w.log = 1 ∧ w.stream.chunks = false ∧
        w.stream.buffer = [] ∧ w.stream.store = false) ∧
      ((∀ event ∈ w.log, event.closes = false) → frees w.log = 0) ∧
      (emitted w.log).length ≤ 1 ∧
      ∀ before after, w.log = before ++ .destroyed :: after →
        (∀ event ∈ before, event.isSeen = false) → emitted w.log = [] := by
  obtain ⟨choices, hrun⟩ := h
  have hinv := inv_runAll (inv_new chunks throws) hrun
  refine ⟨hinv.inOrder, ?_, hinv.pulled, ?_, ?_, ?_, ?_⟩
  · intro hended
    exact hinv.whole (hinv.terminals .ended (List.mem_append_left _ hended))
  · intro hcloses
    have hdone := hinv.closes.mpr hcloses
    have hfreed := hinv.freed
    have hchunks := hinv.chunks
    have hstore := hinv.store
    rw [hdone] at hfreed hchunks hstore
    exact ⟨hfreed, hchunks, hinv.dropped hdone, hstore⟩
  · intro hopen
    have hdone : w.stream.done = false := by
      rw [← Bool.not_eq_true]
      intro hdone
      obtain ⟨event, hevent, hcloses⟩ := hinv.closes.mp hdone
      rw [hopen event hevent] at hcloses
      cases hcloses
    have hfreed := hinv.freed
    rw [hdone] at hfreed
    exact hfreed
  · have honce := hinv.once
    rw [List.length_append] at honce
    omega
  · intro before after hlog hbefore
    -- were it ended or failed, that was seen before any `destroy`
    have hnot : ¬(w.stream.ended = true ∨ w.stream.failed = true) := by
      intro hshut
      obtain ⟨before', event, after', hlog', hseen, hearlier⟩ := hinv.seen hshut
      obtain ⟨earlier, hmem, hdestroyed⟩ := seen_first hlog hbefore hlog' hseen
      rw [hearlier earlier hmem] at hdestroyed
      cases hdestroyed
    have hended : w.stream.ended = false := by
      rw [← Bool.not_eq_true]
      exact fun hended => hnot (.inl hended)
    have hfailed : w.stream.failed = false := by
      rw [← Bool.not_eq_true]
      exact fun hfailed => hnot (.inr hfailed)
    exact (List.append_eq_nil_iff.mp (hinv.silent hended hfailed)).1

/-- A data listener that reads the second quad while the first is emitted. -/
def readingRun : List Choice :=
  [.on .data 0, .ret, .go, .go, .go, .go, .go, .go, .read, .go, .ret, .go, .go, .go, .go, .go, .ret,
    .go, .go, .go, .go]

theorem quadStream_delivers_sample : ∃ w : World ℕ Unit,
    runAll readingRun (World.new [[1, 2], [], [3]] none) = some w ∧ emitted w.log = [.ended] ∧
      handed w.log = [1, 2, 3] ∧ frees w.log = 1 := by
  obtain ⟨w, hrun, hemitted, hcloses⟩ : ∃ w : World ℕ Unit,
      runAll readingRun (World.new [[1, 2], [], [3]] none) = some w ∧ emitted w.log = [.ended] ∧
        .sawEnd ∈ w.log := ⟨_, rfl, rfl, by decide⟩
  obtain ⟨-, hall, -, hfreed, -⟩ := quadStream_delivers ⟨readingRun, hrun⟩
  refine ⟨w, hrun, hemitted, ?_, (hfreed ⟨.sawEnd, hcloses, rfl⟩).1⟩
  exact hall (hemitted ▸ List.mem_singleton_self _)

end QuadStreams
