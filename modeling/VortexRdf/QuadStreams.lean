/-
The stream of quads over a chunk handle, and the code around it, as a machine.

The stream is read by three consumers: a drain that emits `data`, `read`, and the async
iterations.  Listeners are the caller's code: while one runs it may call the stream again,
or throw.  The machine keeps the calls that are under way on a stack, and a choice says
what the caller's code does next.

* `Stream`, `World` — the stream's fields; the handle, the stack and what has happened;
* `release`, `destroy`, `finish`, `pull` — the stream's own steps;
* `unwind` — an exception on its way through the calls under way;
* `step`, `Reachable` — a step of the machine, and the worlds it comes to.
-/
import Mathlib.Data.List.Basic

namespace QuadStreams

/-! ### The stream -/

inductive EventName where
  | data
  | ended
  | error
  | readable
  | other (name : String)
  deriving DecidableEq

/-- A listener, told by its identity. -/
abbrev Listener := ℕ

/-- Why a pull failed: the handle threw, or there was none. -/
inductive Failure (E : Type) where
  | thrown (error : E)
  | noHandle
  deriving DecidableEq

/-- How the stream closes of itself, each an event emitted in a microtask. -/
inductive Terminal (E : Type) where
  | ended
  | error (failure : Failure E)
  deriving DecidableEq

structure Stream (Q E : Type) where
  /-- Whether `_chunks` still holds the handle. -/
  chunks : Bool
  /-- Whether `_store` still holds the store. -/
  store : Bool
  listeners : EventName → List Listener
  buffer : List Q
  pos : ℕ
  started : Bool
  draining : Bool
  done : Bool
  ended : Bool
  failed : Bool
  error : Option (Failure E)

/-! ### What is around it -/

inductive Consumer where
  | data
  | read
  | iterator
  deriving DecidableEq

/-- What has happened, in order. -/
inductive Event (Q E : Type) where
  | handed (consumer : Consumer) (quad : Q)
  /-- The handle's `next`, with the quads then unread and whether the stream was done. -/
  | pulled (unread : ℕ) (done : Bool)
  | freed
  | sawEnd
  | sawFailure (failure : Failure E)
  | destroyed
  | emitted (terminal : Terminal E)
  | rejected (failure : Option (Failure E))
  deriving DecidableEq

/-- An async iteration: not entered yet, at its `yield`, or over. -/
inductive Iteration where
  | fresh
  | suspended
  | completed
  deriving DecidableEq

/-- A microtask of the stream's. -/
inductive Task (E : Type) where
  | start
  | emit (terminal : Terminal E)
  deriving DecidableEq

/-- A call under way. -/
inductive Frame where
  /-- The caller's code, a listener's or any other. -/
  | user
  /-- `_emit`, with the listeners it has yet to call. -/
  | emitting (listeners : List Listener)
  | drain
  /-- `_start`, once `readable` is emitted. -/
  | starting
  | reading
  | iterating (iteration : ℕ)
  deriving DecidableEq

structure World (Q E : Type) where
  stream : Stream Q E
  /-- The chunks the handle has yet to yield, and what it throws after them, if it does. -/
  left : List (List Q)
  throws : Option E
  queue : List (Task E)
  iterations : List Iteration
  stack : List Frame
  log : List (Event Q E)

/-- A stream made over a handle, its caller's code running. -/
def World.new {Q E : Type} (chunks : List (List Q)) (throws : Option E) : World Q E where
  stream := ⟨true, true, fun _ => [], [], 0, false, false, false, false, false, none⟩
  left := chunks
  throws := throws
  queue := [.start]
  iterations := []
  stack := [.user]
  log := []

namespace World

variable {Q E : Type} (w : World Q E)

def note (event : Event Q E) : World Q E := { w with log := w.log ++ [event] }

def push (frame : Frame) : World Q E := { w with stack := frame :: w.stack }

/-! ### The stream's own steps -/

/-- The handle freed, once, and the buffered chunk and the store dropped. -/
def release : World Q E :=
  let freed : World Q E := if w.stream.chunks then w.note .freed else w
  { freed with
    stream := { w.stream with chunks := false, store := false, buffer := [], pos := 0 } }

def destroy : World Q E :=
  release { w.note .destroyed with stream := { w.stream with done := true } }

def finish (terminal : Terminal E) : World Q E :=
  let released := release { w with stream := { w.stream with done := true } }
  { released with queue := w.queue ++ [.emit terminal] }

/-- The pull that failed. -/
def fail (failure : Failure E) : World Q E :=
  finish { w.note (.sawFailure failure) with
    stream := { w.stream with failed := true, error := some failure } } (.error failure)

/-- The buffer refilled with the handle's next chunk, or the stream ended or failed. -/
def pull : World Q E :=
  if w.stream.done then w
  else if !w.stream.chunks then w.fail .noHandle
  else
    let called := w.note (.pulled (w.stream.buffer.length - w.stream.pos) w.stream.done)
    match w.left, w.throws with
    | chunk :: left, _ => { called with left := left, stream := { w.stream with buffer := chunk, pos := 0 } }
    | [], some error => called.fail (.thrown error)
    | [], none => finish { called.note .sawEnd with stream := { w.stream with ended := true } } .ended

/-- The buffer's next quad, handed to a consumer. -/
def hand (consumer : Consumer) (quad : Q) : World Q E :=
  { w.note (.handed consumer quad) with stream := { w.stream with pos := w.stream.pos + 1 } }

/-- The unread quad the buffer's position is at. -/
def nextQuad : Option Q := w.stream.buffer[w.stream.pos]?

def setDraining (draining : Bool) : World Q E :=
  { w with stream := { w.stream with draining := draining } }

/-- `_drain`, a call while one drains returning at once. -/
def callDrain : World Q E := if w.stream.draining then w else (w.setDraining true).push .drain

def setIteration (i : ℕ) (iteration : Iteration) : World Q E :=
  { w with iterations := w.iterations.set i iteration }

/-! ### Calls under way -/

/-- An iteration left, whether returned from, thrown out of or given up. -/
def leaveIteration (i : ℕ) : World Q E :=
  (if w.stream.ended then w else w.destroy).setIteration i .completed

/-- An iteration over a stream that is done: the failure, if it failed, rejects its step. -/
def endIteration (i : ℕ) : World Q E :=
  (if w.stream.failed then w.note (.rejected w.stream.error) else w).leaveIteration i

/-- One turn of the call on top of the stack, taken off it first. -/
def advance : Frame → World Q E
  | .user => w
  | .emitting [] => w
  | .emitting (_ :: listeners) => (w.push (.emitting listeners)).push .user
  | .drain =>
    if w.stream.done then w.setDraining false
    else
      match w.nextQuad with
      | some quad => ((w.hand .data quad).push .drain).push (.emitting (w.stream.listeners .data))
      | none => w.pull.push .drain
  | .starting => if w.stream.listeners .data = [] then w else w.callDrain
  | .reading =>
    if w.stream.done then w
    else
      match w.nextQuad with
      | some quad => w.hand .read quad
      | none => w.pull.push .reading
  | .iterating i =>
    if w.stream.done then w.endIteration i
    else
      match w.nextQuad with
      | some quad => (w.hand .iterator quad).setIteration i .suspended
      | none => w.pull.push (.iterating i)

/-- An exception on its way to the nearest of the caller's code, which may catch it or throw
it on.  A drain it passes destroys the stream. -/
def unwind : List Frame → World Q E → World Q E
  | [], w => { w with stack := [] }
  | .user :: stack, w => { w with stack := .user :: stack }
  | .drain :: stack, w => unwind stack (w.destroy.setDraining false)
  | .emitting _ :: stack, w => unwind stack w
  | .starting :: stack, w => unwind stack w
  | .reading :: stack, w => unwind stack w
  | .iterating _ :: stack, w => unwind stack w

def setListeners (event : EventName) (listeners : List Listener) : World Q E :=
  { w with stream := { w.stream with
    listeners := fun name => if name = event then listeners else w.stream.listeners name } }

/-- A listener attached: to `data`, a drain once the stream has started; to `readable`, its call. -/
def on (event : EventName) (listener : Listener) : World Q E :=
  let attached := w.setListeners event (w.stream.listeners event ++ [listener])
  if event = .data then (if w.stream.started then attached.callDrain else attached)
  else if event = .readable ∧ w.stream.started ∧ ¬w.stream.done then attached.push .user
  else attached

def off (event : EventName) (listener : Listener) : World Q E :=
  w.setListeners event ((w.stream.listeners event).erase listener)

/-- A step asked of an iteration. -/
def nextStep (i : ℕ) : World Q E :=
  match w.iterations[i]? with
  | some .fresh => w.push (.iterating i)
  | some .suspended => w.push (.iterating i)
  | some .completed => w
  | none => w

/-- An iteration left early. -/
def exitIteration (i : ℕ) : World Q E :=
  match w.iterations[i]? with
  | some .fresh => w.setIteration i .completed
  | some .suspended => w.leaveIteration i
  | some .completed => w
  | none => w

/-- A microtask of the stream's. -/
def runTask : Task E → World Q E
  | .start =>
    let started : World Q E := { w with stream := { w.stream with started := true } }
    if w.stream.done then started
    else (started.push .starting).push (.emitting (w.stream.listeners .readable))
  | .emit .ended => (w.note (.emitted .ended)).push (.emitting (w.stream.listeners .ended))
  | .emit (.error failure) =>
    (w.note (.emitted (.error failure))).push (.emitting (w.stream.listeners .error))

end World

/-! ### The machine -/

/-- What the caller's code does next, or that the calls under way go on. -/
inductive Choice where
  | go
  /-- Code of the caller's runs when nothing else does. -/
  | run
  | on (event : EventName) (listener : Listener)
  | off (event : EventName) (listener : Listener)
  | read
  | destroy
  | iterate
  | next (iteration : ℕ)
  | exit (iteration : ℕ)
  | ret
  | throw
  deriving DecidableEq

variable {Q E : Type}

/-- The caller's code on top of the stack. -/
def act (stack : List Frame) (w : World Q E) : Choice → Option (World Q E)
  | .go => none
  | .run => none
  | .on event listener => some (w.on event listener)
  | .off event listener => some (w.off event listener)
  | .read => some (w.push .reading)
  | .destroy => some w.destroy
  | .iterate => some { w with iterations := w.iterations ++ [.fresh] }
  | .next i => some (w.nextStep i)
  | .exit i => some (w.exitIteration i)
  | .ret => some { w with stack := stack }
  | .throw => some (World.unwind stack w)

/-- Nothing under way: a microtask of the stream's runs, or code of the caller's. -/
def idle (w : World Q E) : Choice → Option (World Q E)
  | .run => some (w.push .user)
  | .go =>
    match w.queue with
    | [] => none
    | task :: queue => some (World.runTask { w with queue := queue } task)
  | _ => none

def step (w : World Q E) (choice : Choice) : Option (World Q E) :=
  match w.stack with
  | [] => idle w choice
  | .user :: stack => act stack w choice
  | frame :: stack => if choice = .go then some (World.advance { w with stack := stack } frame) else none

/-- The choices one after another. -/
def runAll : List Choice → World Q E → Option (World Q E)
  | [], w => some w
  | choice :: choices, w => (step w choice).bind (runAll choices)

/-- The worlds a new stream over a handle may come to. -/
def Reachable (chunks : List (List Q)) (throws : Option E) (w : World Q E) : Prop :=
  ∃ choices, runAll choices (World.new chunks throws) = some w

end QuadStreams
