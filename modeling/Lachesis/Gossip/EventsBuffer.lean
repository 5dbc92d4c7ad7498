import Lachesis.Storage
import Lachesis.Halt
import Lachesis.Library.Transition

/-!
`dagordering.EventsBuffer`: events wait until all their parents are connected. The
application behind the callbacks is any state `World`; `calls` is the list of the calls it
got, and tells the instances of one event apart by the serial number of their push.
-/

namespace Lachesis.Gossip.Dagordering

open Dag Simplewlru

/-- The errors an event is dropped with; `callback` is one of `Check` or `Process`. -/
inductive DropError (Err : Type) where
  | duplicateEvent
  | alreadyConnectedEvent
  | spilledEvent
  | callback (err : Err)

structure Pushed where
  serial : Nat
  event : Event
  peer : String
  deriving DecidableEq

structure Mark (Err : Type) where
  err : Option (DropError Err)
  released : Bool

/-- `size` is the method of the application's events. -/
structure Callback (World Err : Type) where
  size : Event → Nat
  process : World → Event → Option Err × World
  released : Option (World → Event → String → Option (DropError Err) → World)
  get : World → EventID → Option Event
  existsEvent : World → EventID → Bool
  check : Option (World → Event → List Event → Option Err × World)
  isImportant : Option (Event → Bool)

inductive Call (Err : Type) where
  | check (e : Pushed)
  | process (e : Pushed)
  | released (e : Pushed) (err : Option (DropError Err))

structure EventsBuffer (World Err : Type) where
  incompletes : Cache EventID Pushed
  marks : Nat → Mark Err
  pushes : Nat
  world : World
  calls : List (Call Err)

namespace EventsBuffer

variable {World Err : Type}

def maxInt32 : Nat := 2 ^ 31 - 1

def new (world : World) : EventsBuffer World Err where
  incompletes := .new maxInt32 maxInt32
  marks := fun _ => ⟨none, false⟩
  pushes := 0
  world := world
  calls := []

def dropEvent (s : EventsBuffer World Err) (e : Pushed) (err : DropError Err) :
    EventsBuffer World Err :=
  match (s.marks e.serial).err with
  | none => { s with marks := Function.update s.marks e.serial ⟨err, (s.marks e.serial).released⟩ }
  | some _ => s

variable (callback : Callback World Err)

def releaseEvent (s : EventsBuffer World Err) (e : Pushed) : EventsBuffer World Err :=
  let mark := s.marks e.serial
  let s : EventsBuffer World Err := match callback.released, mark.released with
    | some released, false =>
      { s with world := released s.world e.event e.peer mark.err
               calls := s.calls ++ [.released e mark.err] }
    | _, _ => s
  { s with marks := Function.update s.marks e.serial { mark with released := true } }

def getIncompleteEventsList (s : EventsBuffer World Err) : List Pushed :=
  s.incompletes.keys.filterMap s.incompletes.peek

def completeEventParents (s : EventsBuffer World Err) (e : Pushed) : Option (List Event) :=
  e.event.parents.mapM (callback.get s.world)

def checkEvent (s : EventsBuffer World Err) (e : Pushed) (parents : List Event) :
    Option Err × EventsBuffer World Err :=
  match callback.check with
  | none => (none, s)
  | some check =>
    let (err, world) := check s.world e.event parents
    (err, { s with world := world, calls := s.calls ++ [.check e] })

def processCompleteEvent (s : EventsBuffer World Err) (e : Pushed) (parents : List Event) :
    Bool × EventsBuffer World Err :=
  -- validate
  match checkEvent callback s e parents with
  | (some err, s) => (false, s.dropEvent e (.callback err))
  | (none, s) =>
    -- process
    match callback.process s.world e.event with
    | (some err, world) =>
      let mark := { s.marks e.serial with err := some (.callback err) }
      let s := { s with world := world
                        calls := s.calls ++ [Call.process e]
                        marks := Function.update s.marks e.serial mark }
      (false, s.dropEvent e (.callback err))
    | (none, world) => (true, { s with world := world, calls := s.calls ++ [.process e] })

def remove (s : EventsBuffer World Err) (id : EventID) : EventsBuffer World Err :=
  { s with incompletes := s.incompletes.remove id }

def buffer (s : EventsBuffer World Err) (e : Pushed) : EventsBuffer World Err :=
  { s with incompletes := s.incompletes.add e.event.id e (callback.size e.event) }

def visitChild (push : Pushed → EventsBuffer World Err → Except Halt (Bool × EventsBuffer World Err))
    (id : EventID) (s : EventsBuffer World Err) (child : Pushed) :
    Except Halt (EventsBuffer World Err) :=
  if id ∈ child.event.parents then do
    let (_, s) ← push child s
    .ok s
  else .ok s

/-- The inner `pushEvent`; its calls of itself are bounded by `fuel`. -/
def pushEventInner : Nat → Pushed → Option (List Pushed) → Bool → EventsBuffer World Err →
    Except Halt (Bool × EventsBuffer World Err)
  | 0, _, _, _, _ => .error .outOfFuel
  | fuel + 1, e, incompleteEventsList, recheck, s =>
    if callback.existsEvent s.world e.event.id then
      let s := s.remove e.event.id
      let s := if recheck then s else s.dropEvent e .alreadyConnectedEvent
      .ok (false, releaseEvent callback s e)
    else
      match completeEventParents callback s e with
      | none => .ok (false, if recheck then s else s.buffer callback e)
      | some parents =>
        match processCompleteEvent callback s e parents with
        | (false, s) => .ok (false, (releaseEvent callback s e).remove e.event.id)
        | (true, s) => do
            let s := releaseEvent callback s e
            -- now child events may become complete, check it again
            let list := incompleteEventsList.getD s.getIncompleteEventsList
            let s ← list.foldlM (visitChild (fun child s =>
              pushEventInner fuel child (some list) true s) e.event.id) s
            .ok (true, s.remove e.event.id)

def victim (s : EventsBuffer World Err) : Option (Entry EventID Pushed) :=
  match callback.isImportant with
  | none => s.incompletes.evictList.head?
  | some isImportant =>
    match s.incompletes.evictList.find? fun ent => ¬ isImportant ent.value.event with
    | some ent => some ent
    | none => s.incompletes.evictList.head?

def evict (s : EventsBuffer World Err) (ent : Entry EventID Pushed) : EventsBuffer World Err :=
  releaseEvent callback ((s.remove ent.key).dropEvent ent.value .spilledEvent) ent.value

def spillRounds (limit : Metric) : Nat → EventsBuffer World Err → EventsBuffer World Err
  | 0, s => s
  | rounds + 1, s =>
    if limit.num < s.incompletes.len ∨ limit.size < s.incompletes.weight then
      match victim callback s with
      | none => s
      | some ent => spillRounds limit rounds (s.evict callback ent)
    else s

def spillIncompletes (limit : Metric) (s : EventsBuffer World Err) : EventsBuffer World Err :=
  spillRounds callback limit s.incompletes.len s

def instantiate (s : EventsBuffer World Err) (de : Event) (peer : String) :
    Pushed × EventsBuffer World Err :=
  (⟨s.pushes, de, peer⟩,
    { s with pushes := s.pushes + 1, marks := Function.update s.marks s.pushes ⟨none, false⟩ })

/-- A nested call is for an event of the list that was not known, so this is fuel enough. -/
def pushEvent (limit : Metric) (s : EventsBuffer World Err) (de : Event) (peer : String) :
    Except Halt (Bool × EventsBuffer World Err) :=
  let (e, s) := s.instantiate de peer
  match s.incompletes.peek e.event.id with
  | some _ => .ok (false, releaseEvent callback (s.dropEvent e .duplicateEvent) e)
  | none => do
      let (complete, s) ← pushEventInner callback (s.incompletes.len + 2) e none false s
      .ok (complete, s.spillIncompletes callback limit)

/-- A push is of an event that is buffered, or it ends with a spill. -/
theorem pushEvent_cases {callback : Callback World Err} {limit : Metric}
    {s : EventsBuffer World Err} {de : Event} {peer : String}
    (P : Except Halt (Bool × EventsBuffer World Err) → Prop)
    (known : ∀ p, s.incompletes.peek de.id = some p →
      P (.ok (false, releaseEvent callback
        ((s.instantiate de peer).2.dropEvent ⟨s.pushes, de, peer⟩ .duplicateEvent)
        ⟨s.pushes, de, peer⟩)))
    (fresh : s.incompletes.peek de.id = none →
      P (pushEventInner callback (s.incompletes.len + 2) ⟨s.pushes, de, peer⟩ none false
        (s.instantiate de peer).2 >>= fun r => .ok (r.1, r.2.spillIncompletes callback limit))) :
    P (s.pushEvent callback limit de peer) := by
  simp only [pushEvent, instantiate]
  cases found : s.incompletes.peek de.id with
  | some p => exact known p found
  | none => exact fresh found

def clear (s : EventsBuffer World Err) : EventsBuffer World Err :=
  s.spillIncompletes callback ⟨0, 0⟩

def isBuffered (s : EventsBuffer World Err) (id : EventID) : Bool :=
  (s.incompletes.peek id).isSome

def total (s : EventsBuffer World Err) : Metric := ⟨s.incompletes.len, s.incompletes.weight⟩

inductive Action where
  | push (de : Event) (peer : String)
  | clear

def step (limit : Metric) (s : EventsBuffer World Err) : Action → Except Halt (EventsBuffer World Err)
  | .push de peer => do
      let (_, s) ← s.pushEvent callback limit de peer
      .ok s
  | .clear => .ok (s.clear callback)

end EventsBuffer

end Lachesis.Gossip.Dagordering
