import Lachesis.Gossip.EventsBuffer
import Lachesis.Utils.DataSemaphore
import Lachesis.Library.Transition

/-!
`dagprocessor.Processor` as a state machine. The callers of `Enqueue`, the checker, the
inserter, the application that answers `CheckParentless` and the caller of `Stop` take
turns in any order; an `Action` is what one of them does at once.
-/

namespace Lachesis.Gossip.Dagprocessor

open Dag Datasemaphore Dagordering

structure Config where
  eventsBufferLimit : Metric
  maxTasks : Nat

/-- The errors given to `Released`: those of the buffer and the checks, and `ErrBusy`. -/
inductive ReleaseError (Err : Type) where
  | drop (err : DropError Err)
  | busy

structure EventCallback (World Err : Type) where
  size : Event → Nat
  process : World → Event → Option Err × World
  released : Option (World → Event → String → Option (ReleaseError Err) → World)
  get : World → EventID → Option Event
  existsEvent : World → EventID → Bool
  checkParents : Option (World → Event → List Event → Option Err × World)
  checkParentless : World → Event → World
  isImportant : Option (Event → Bool)

structure Callback (World Err : Type) where
  event : EventCallback World Err
  highestLamport : World → Nat

structure Shared (World : Type) where
  semaphore : DataSemaphore
  app : World

variable {World Err : Type}

def released (callback : EventCallback World Err) (w : Shared World) (e : Event) (peer : String)
    (err : Option (ReleaseError Err)) : Shared World :=
  let semaphore := w.semaphore.release ⟨1, callback.size e⟩
  match callback.released with
  | some f => ⟨semaphore, f w.app e peer err⟩
  | none => ⟨semaphore, w.app⟩

def bufferCallback (callback : EventCallback World Err) :
    Dagordering.Callback (Shared World) Err where
  size := callback.size
  process w e := ((callback.process w.app e).1, { w with app := (callback.process w.app e).2 })
  released := some fun w e peer err => released callback w e peer (err.map .drop)
  get w id := callback.get w.app id
  existsEvent w id := callback.existsEvent w.app id
  check := callback.checkParents.map fun check w e parents =>
    ((check w.app e parents).1, { w with app := (check w.app e parents).2 })
  isImportant := callback.isImportant

/-- The arguments of `Enqueue`; the two functions may be nil. -/
structure Batch where
  peer : String
  events : List Event
  ordered : Bool
  notifyAnnounces : Bool
  done : Bool

def Batch.metric (size : Event → Nat) (batch : Batch) : Metric :=
  ⟨batch.events.length % 2 ^ 32, (batch.events.map size).sum % 2 ^ 64⟩

structure CheckRes (Err : Type) where
  e : Event
  err : Option Err
  pos : Nat

inductive EnqueueError where
  | busy
  | terminated
  deriving DecidableEq

inductive Caller where
  | acquire
  | check
  | insert
  | returned (err : Option EnqueueError)
  deriving DecidableEq

structure EnqueueCall (Err : Type) where
  batch : Batch
  caller : Caller
  acquired : Bool
  asked : Nat
  answered : List Nat
  checkedC : List (CheckRes Err)

inductive Checker where
  | idle
  | check (b i : Nat)
  | stopped
  deriving DecidableEq

inductive Inserter (Err : Type) where
  | idle
  | select (b processed : Nat) (orderedResults : List (Option (CheckRes Err)))
      (toRequest : List EventID)
  | handle (b processed : Nat) (orderedResults : List (Option (CheckRes Err)))
      (toRequest : List EventID) (res : CheckRes Err)
  | flush (b processed : Nat) (orderedResults : List (Option (CheckRes Err)))
      (toRequest : List EventID)
  | drain (b : Nat) (seen : List Nat)
  | stopped

inductive Stop where
  | running
  | closed
  | terminated
  | returned
  deriving DecidableEq

structure Processor (World Err : Type) where
  stop : Stop
  enqueued : Nat → EnqueueCall Err
  next : Nat
  checkerTasks : List Nat
  inserterTasks : List Nat
  checker : Checker
  inserter : Inserter Err
  buffer : EventsBuffer (Shared World) Err
  direct : List (Event × String)
  dispatched : List (Nat × Nat)
  announced : List (Nat × List EventID)
  finished : List Nat

namespace Processor

def new (eventsSemaphore : DataSemaphore) (app : World) : Processor World Err where
  stop := .running
  enqueued := fun _ => ⟨⟨"", [], false, false, false⟩, .returned none, false, 0, [], []⟩
  next := 0
  checkerTasks := []
  inserterTasks := []
  checker := .idle
  inserter := .idle
  buffer := .new ⟨eventsSemaphore, app⟩
  direct := []
  dispatched := []
  announced := []
  finished := []

def quit (s : Processor World Err) : Prop := s.stop ≠ .running

instance (s : Processor World Err) : Decidable s.quit := inferInstanceAs (Decidable (_ ≠ _))

def update (s : Processor World Err) (b : Nat) (call : EnqueueCall Err) : Processor World Err :=
  { s with enqueued := Function.update s.enqueued b call }

def setCaller (s : Processor World Err) (b : Nat) (caller : Caller) : Processor World Err :=
  s.update b { s.enqueued b with caller := caller }

def pop (s : Processor World Err) (b : Nat) (rest : List (CheckRes Err)) : Processor World Err :=
  s.update b { s.enqueued b with checkedC := rest }

def batch (s : Processor World Err) (b : Nat) : Batch := (s.enqueued b).batch

section Callbacks

variable (cfg : Config) (callback : Callback World Err)

def release (s : Processor World Err) (e : Event) (peer : String) (err : ReleaseError Err) :
    Processor World Err :=
  { s with buffer := { s.buffer with
                        world := released callback.event s.buffer.world e peer (some err) }
           direct := s.direct ++ [(e, peer)] }

def process (s : Processor World Err) (peer : String) (event : Event) (resErr : Option Err) :
    Except Halt (List EventID × Processor World Err) :=
  match resErr with
  -- release event if failed validation
  | some err => .ok ([], s.release callback event peer (.drop (.callback err)))
  | none =>
    let highestLamport := callback.highestLamport s.buffer.world.app
    let maxLamportDiff := (1 + cfg.eventsBufferLimit.num) % 2 ^ 32
    -- release event if it's too far in future
    if (highestLamport + maxLamportDiff) % 2 ^ 32 < event.lamport then
      .ok ([], s.release callback event peer (.drop .spilledEvent))
    else do
      -- push event to the ordering buffer
      let (complete, buffer) ←
        s.buffer.pushEvent (bufferCallback callback.event) cfg.eventsBufferLimit event peer
      let s := { s with buffer := buffer }
      if complete = false ∧ event.lamport ≤ (highestLamport + maxLamportDiff / 10) % 2 ^ 32 then
        .ok (event.parents, s)
      else .ok ([], s)

def record (s : Processor World Err) (b pos : Nat) : Processor World Err :=
  { s with dispatched := s.dispatched ++ [(b, pos)] }

def dispatch (s : Processor World Err) (b : Nat) (res : CheckRes Err) :
    Option (List EventID × Processor World Err) :=
  match s.process cfg callback (s.batch b).peer res.e res.err with
  | .error _ => none
  | .ok (toRequest, s) => some (toRequest, s.record b res.pos)

def releaseBusy (s : Processor World Err) (b : Nat) (e : Event) (pos : Nat) :
    Processor World Err :=
  (s.release callback e (s.batch b).peer .busy).record b pos

def releaseUnseen (b : Nat) (seen : List Nat) : List (Event × Nat) → Processor World Err →
    Processor World Err
  | [], s => s
  | (e, i) :: rest, s =>
    releaseUnseen b seen rest (if i ∈ seen then s else s.releaseBusy callback b e i)

def finish (s : Processor World Err) (b : Nat) : Processor World Err :=
  { s with inserter := .idle
           finished := if (s.batch b).done then s.finished ++ [b] else s.finished }

inductive Action (Err : Type) where
  | enqueue (batch : Batch)
  | acquire (b : Nat)
  | acquireFail (b : Nat)
  | enqueueChecker (b : Nat)
  | enqueueCheckerQuit (b : Nat)
  | enqueueInserter (b : Nat)
  | enqueueInserterQuit (b : Nat)
  | checkerTake
  | checkerQuit
  | check
  | deliver (b pos : Nat) (err : Option Err)
  | inserterTake
  | inserterQuit
  | receive
  | receiveQuit
  | handle
  | flush
  | drain
  | drainEnd
  | finish
  | closeQuit
  | terminate
  | stopReturn
  | clear

/-- What an action leads to; `none` where the actor is not there or would block. -/
def step (s : Processor World Err) : Action Err → Option (Processor World Err)
  | .enqueue batch =>
    some { s.update s.next ⟨batch, .acquire, false, 0, [], []⟩ with next := s.next + 1 }
  | .acquire b =>
    if b < s.next ∧ (s.enqueued b).caller = .acquire then
      match s.buffer.world.semaphore.tryAcquire ((s.batch b).metric callback.event.size) with
      | none => none
      | some semaphore =>
        some { s.update b { s.enqueued b with caller := .check, acquired := true } with
          buffer := { s.buffer with world := { s.buffer.world with semaphore := semaphore } } }
    else none
  | .acquireFail b =>
    if b < s.next ∧ (s.enqueued b).caller = .acquire then
      some (s.setCaller b (.returned (some .busy)))
    else none
  | .enqueueChecker b =>
    if (s.enqueued b).caller = .check ∧ s.checkerTasks.length < cfg.maxTasks then
      some { s.setCaller b .insert with checkerTasks := s.checkerTasks ++ [b] }
    else none
  | .enqueueCheckerQuit b =>
    if (s.enqueued b).caller = .check ∧ s.quit then
      some (s.setCaller b (.returned (some .terminated)))
    else none
  | .enqueueInserter b =>
    if (s.enqueued b).caller = .insert ∧ s.inserterTasks.length < cfg.maxTasks then
      some { s.setCaller b (.returned none) with inserterTasks := s.inserterTasks ++ [b] }
    else none
  | .enqueueInserterQuit b =>
    if (s.enqueued b).caller = .insert ∧ s.quit then
      some (s.setCaller b (.returned (some .terminated)))
    else none
  | .checkerTake =>
    match s.checker, s.checkerTasks with
    | .idle, b :: rest => some { s with checker := .check b 0, checkerTasks := rest }
    | _, _ => none
  | .checkerQuit =>
    match s.checker with
    | .idle => if s.quit then some { s with checker := .stopped } else none
    | _ => none
  | .check =>
    match s.checker with
    | .check b i =>
      match (s.batch b).events[i]? with
      | some e =>
        let app := callback.event.checkParentless s.buffer.world.app e
        some { s.update b { s.enqueued b with asked := i + 1 } with
          checker := .check b (i + 1)
          buffer := { s.buffer with world := { s.buffer.world with app := app } } }
      | none => some { s with checker := .idle }
    | _ => none
  | .deliver b pos err =>
    match (s.batch b).events[pos]? with
    | some e =>
      if pos < (s.enqueued b).asked ∧ pos ∉ (s.enqueued b).answered then
        some (s.update b { s.enqueued b with
          answered := (s.enqueued b).answered ++ [pos]
          checkedC := (s.enqueued b).checkedC ++ [⟨e, err, pos⟩] })
      else none
    | none => none
  | .inserterTake =>
    match s.inserter, s.inserterTasks with
    | .idle, b :: rest =>
      let orderedResults :=
        if (s.batch b).ordered then List.replicate (s.batch b).events.length none else []
      some { s with inserter := .select b 0 orderedResults [], inserterTasks := rest }
    | _, _ => none
  | .inserterQuit =>
    match s.inserter with
    | .idle => if s.quit then some { s with inserter := .stopped } else none
    | _ => none
  | .receive =>
    match s.inserter with
    | .select b processed results toRequest =>
      match (s.enqueued b).checkedC with
      | res :: rest =>
        if processed < (s.batch b).events.length then
          if (s.batch b).ordered then
            some { s.pop b rest with
              inserter := .flush b processed (results.set res.pos (some res)) toRequest }
          else some { s.pop b rest with inserter := .handle b processed results toRequest res }
        else none
      | [] => none
    | _ => none
  | .receiveQuit =>
    match s.inserter with
    | .select b processed _ _ =>
      if processed < (s.batch b).events.length ∧ s.quit then
        some { s with inserter := .drain b [] }
      else none
    | _ => none
  | .handle =>
    match s.inserter with
    | .handle b processed results toRequest res =>
      match s.dispatch cfg callback b res with
      | none => none
      | some (more, s) =>
        some { s with inserter := .select b (processed + 1) results (toRequest ++ more) }
    | _ => none
  | .flush =>
    match s.inserter with
    | .flush b processed results toRequest =>
      match results[processed]? with
      | some (some res) =>
        match s.dispatch cfg callback b res with
        | none => none
        | some (more, s) =>
          -- free the memory
          some { s with
            inserter := .flush b (processed + 1) (results.set processed none)
              (toRequest ++ more) }
      | _ => some { s with inserter := .select b processed results toRequest }
    | _ => none
  | .drain =>
    match s.inserter with
    | .drain b seen =>
      match (s.enqueued b).checkedC with
      | res :: rest =>
        if res.pos ∈ seen then some (s.pop b rest)
        else some { (s.pop b rest).releaseBusy callback b res.e res.pos with
          inserter := .drain b (seen ++ [res.pos]) }
      | [] => none
    | _ => none
  | .drainEnd =>
    match s.inserter with
    | .drain b seen =>
      match (s.enqueued b).checkedC with
      | [] => some ((s.releaseUnseen callback b seen (s.batch b).events.zipIdx).finish b)
      | _ :: _ => none
    | _ => none
  | .finish =>
    match s.inserter with
    | .select b processed _ toRequest =>
      if processed < (s.batch b).events.length then none
      else
        -- request unknown event parents
        let announced := if (s.batch b).notifyAnnounces ∧ toRequest ≠ [] then
          s.announced ++ [(b, toRequest)] else s.announced
        some ({ s with announced := announced }.finish b)
    | _ => none
  | .closeQuit => if s.stop = .running then some { s with stop := .closed } else none
  | .terminate =>
    if s.stop = .closed then
      let semaphore := s.buffer.world.semaphore.terminate
      some { s with
        stop := .terminated
        buffer := { s.buffer with world := { s.buffer.world with semaphore := semaphore } } }
    else none
  | .stopReturn =>
    match s.stop, s.checker, s.inserter with
    | .terminated, .stopped, .stopped =>
      some { s with stop := .returned, buffer := s.buffer.clear (bufferCallback callback.event) }
    | _, _, _ => none
  | .clear => some { s with buffer := s.buffer.clear (bufferCallback callback.event) }

end Callbacks

end Processor

end Lachesis.Gossip.Dagprocessor
