import Lachesis.Abft.Store

/-!
`abft.Orderer`. The index behind `dagIndex` and whatever the callbacks write to are one
`World`, threaded through every call. A callback may read the store and write the table of
confirmed events. Closing and dropping a database is taken not to fail.
-/

namespace Lachesis.Abft

open Dag Pos

structure OrdererCallbacks (World : Type) where
  applyAtropos : Option (Store → World → Nat → EventID →
    Except Halt (Option Validators × List (EventID × Nat) × World))
  epochDBLoaded : Option (Store → World → Nat → World)

inductive ProcessError where
  /-- ErrWrongFrame: "claimed frame mismatched with calculated" -/
  | wrongFrame
  deriving DecidableEq

inductive BootstrapError where
  /-- "already bootstrapped" -/
  | alreadyBootstrapped
  | election (error : ElectionError)
  deriving DecidableEq

structure Orderer (World : Type) where
  store : Store
  election : Option Election
  callback : OrdererCallbacks World
  world : World

namespace Orderer

section Calls

variable {World : Type} (dagIndex : World → EventID → EventID → Except Halt (Bool × World))
  (input : EventSource)

def externals : Externals (Store × World) where
  observe := fun (store, world) a b => do
    let (hit, world) ← dagIndex world a b
    return (hit, store, world)
  getFrameRoots := fun (store, world) frame => do
    let (roots, store) ← store.getFrameRoots frame
    return (roots, store, world)

def processRoot (p : Orderer World) (root : RootAndSlot) :
    Except Halt (Election.Outcome × Orderer World) :=
  match p.election with
  | none => .error .notBootstrapped
  | some election => do
      let (outcome, election, store, world) ←
        election.processRoot (externals dagIndex) (p.store, p.world) root
      return (outcome, { p with election := some election, store := store, world := world })

def countCaused (id : EventID) : List RootAndSlot → WeightCounter → World →
    Except Halt (WeightCounter × World)
  | [], counter, world => .ok (counter, world)
  | it :: rest, counter, world => do
      let (hit, world) ← dagIndex world id it.id
      let counter := if hit then (counter.count it.slot.validator).2 else counter
      if counter.hasQuorum then return (counter, world)
      else countCaused id rest counter world

def forklessCausedByQuorumOn (p : Orderer World) (e : Event) (frame : Nat) :
    Except Halt (Bool × Orderer World) := do
  let validators ← p.store.getValidators
  let (roots, store) ← p.store.getFrameRoots frame
  let (counter, world) ← countCaused dagIndex e.id roots validators.newCounter p.world
  return (counter.hasQuorum, { p with store := store, world := world })

def climb (e : Event) : Nat → Nat → Orderer World → Except Halt (Nat × Orderer World)
  | 0, frame, p => .ok (frame, p)
  | limit + 1, frame, p => do
      let (met, p) ← p.forklessCausedByQuorumOn dagIndex e frame
      if met then climb e limit (frame + 1) p else return (frame, p)

def selfParentFrame (e : Event) : Except Halt Nat :=
  match e.selfParent with
  | none => .ok 0
  | some id =>
    match input.getEvent id with
    | none => .error (.eventNotFound id)
    | some selfParent => .ok selfParent.frame

def calcFrameIdx (p : Orderer World) (e : Event) (checkOnly : Bool) :
    Except Halt (Nat × Nat × Orderer World) := do
  let selfParentFrame ← selfParentFrame input e
  let maxFrameToCheck := if checkOnly then e.frame else selfParentFrame + 100
  let (frame, p) ← climb dagIndex e (maxFrameToCheck - selfParentFrame) selfParentFrame p
  return (selfParentFrame, if frame = 0 then 1 else frame, p)

def build (p : Orderer World) (e : Event) : Except Halt (Event × Orderer World) := do
  let epoch ← p.store.getEpoch
  if e.epoch ≠ epoch then .error .wrongEpoch
  else
    let validators ← p.store.getValidators
    if validators.exists e.creator = false then .error .notValidator
    else
      let (_, frame, p) ← p.calcFrameIdx dagIndex input e false
      return (e.setFrame frame, p)

def checkAndSaveEvent (p : Orderer World) (e : Event) :
    Except Halt (Except ProcessError Nat × Orderer World) := do
  let (selfParentFrame, frame, p) ← p.calcFrameIdx dagIndex input e true
  if e.frame ≠ frame then return (.error .wrongFrame, p)
  else if selfParentFrame ≠ frame then
    let store ← p.store.addRoots selfParentFrame e
    return (.ok selfParentFrame, { p with store := store })
  else return (.ok selfParentFrame, p)

end Calls

section Decisions

variable {World : Type}

def resetEpochStore (p : Orderer World) (epoch : Nat) : Orderer World :=
  let store := p.store.dropEpochDB.openEpochDB epoch
  match p.callback.epochDBLoaded with
  | none => { p with store := store }
  | some loaded => { p with store := store, world := loaded store p.world epoch }

def sealEpoch (p : Orderer World) (newValidators : Validators) : Except Halt (Orderer World) := do
  let epochState ← p.store.getEpochState
  let store := p.store.setEpochState ⟨epochState.epoch + 1, newValidators⟩
  return { p with store := store }.resetEpochStore (epochState.epoch + 1)

def applyAtropos (p : Orderer World) (frame : Nat) (atropos : EventID) :
    Except Halt (Option Validators × Orderer World) :=
  match p.callback.applyAtropos with
  | none => .ok (none, p)
  | some apply => do
      let (newValidators, confirmedEvent, world) ← apply p.store p.world frame atropos
      let db ← p.store.epochTable
      let store := p.store.setEpochTable { db with confirmedEvent := confirmedEvent }
      return (newValidators, { p with store := store, world := world })

def onFrameDecided (p : Orderer World) (frame : Nat) (atropos : EventID) :
    Except Halt (Bool × Orderer World) := do
  let (newValidators, p) ← p.applyAtropos frame atropos
  let _ ← p.store.getLastDecidedState
  match newValidators with
  | some validators =>
    let p ← p.sealEpoch validators
    let store := p.store.setLastDecidedState ⟨firstFrame - 1⟩
    return (true, { p with store := store, election := some (.reset validators firstFrame) })
  | none =>
    let validators ← p.store.getValidators
    let store := p.store.setLastDecidedState ⟨frame⟩
    return (false, { p with store := store, election := some (.reset validators (frame + 1)) })

end Decisions

section Loops

variable {World : Type} (dagIndex : World → EventID → EventID → Except Halt (Bool × World))
  (input : EventSource)

def processRoots : List RootAndSlot → Orderer World →
    Except Halt (Election.Outcome × Orderer World)
  | [], p => .ok (.ok none, p)
  | it :: rest, p => do
      let (outcome, p) ← p.processRoot dagIndex it
      match outcome with
      | .ok none => processRoots rest p
      | .ok (some res) => return (.ok (some res), p)
      | .error error => return (.error error, p)

def processFrames : Nat → Nat → Orderer World → Except Halt (Election.Outcome × Orderer World)
  | 0, _, _ => .error .outOfFuel
  | fuel + 1, frame, p => do
      let (frameRoots, store) ← p.store.getFrameRoots frame
      let (outcome, p) ← processRoots dagIndex frameRoots { p with store := store }
      match outcome with
      | .ok none =>
        if frameRoots.isEmpty then return (.ok none, p) else processFrames fuel (frame + 1) p
      | .ok (some res) => return (.ok (some res), p)
      | .error error => return (.error error, p)

/-- Every frame gone through holds a stored root. -/
def processKnownRoots (p : Orderer World) : Except Halt (Election.Outcome × Orderer World) := do
  let lastDecidedFrame ← p.store.getLastDecidedFrame
  let db ← p.store.epochTable
  processFrames dagIndex (db.roots.length + 1) (lastDecidedFrame + 1) p

def decideFrames : Nat → Orderer World → Except Halt (Except ElectionError Bool × Orderer World)
  | 0, _ => .error .outOfFuel
  | fuel + 1, p => do
      let (outcome, p) ← p.processKnownRoots dagIndex
      match outcome with
      | .error error => return (.error error, p)
      | .ok none => return (.ok false, p)
      | .ok (some res) =>
        let (isSealed, p) ← p.onFrameDecided res.frame res.atropos
        if isSealed then return (.ok true, p) else decideFrames fuel p

def bootstrapElection (p : Orderer World) :
    Except Halt (Except ElectionError Bool × Orderer World) := do
  let db ← p.store.epochTable
  decideFrames dagIndex (db.roots.length + 1) p

def handleSlots (root : Event) : List Nat → Orderer World →
    Except Halt (Except ElectionError Unit × Orderer World)
  | [], p => .ok (.ok (), p)
  | frame :: rest, p => do
      let (outcome, p) ← p.processRoot dagIndex ⟨root.id, ⟨frame, root.creator⟩⟩
      match outcome with
      | .error error => return (.error error, p)
      | .ok none => handleSlots root rest p
      | .ok (some res) =>
        let (isSealed, p) ← p.onFrameDecided res.frame res.atropos
        if isSealed then return (.ok (), p)
        else
          let (outcome, p) ← p.bootstrapElection dagIndex
          match outcome with
          | .error error => return (.error error, p)
          | .ok true => return (.ok (), p)
          | .ok false => handleSlots root rest p

def handleElection (p : Orderer World) (selfParentFrame : Nat) (root : Event) :
    Except Halt (Except ElectionError Unit × Orderer World) :=
  handleSlots dagIndex root (Store.slots selfParentFrame root.frame) p

/-- An election error is handed to `crit`. -/
def process (p : Orderer World) (e : Event) :
    Except Halt (Option ProcessError × Orderer World) := do
  let (checked, p) ← p.checkAndSaveEvent dagIndex input e
  match checked with
  | .error error => return (some error, p)
  | .ok selfParentFrame =>
    let (handled, p) ← p.handleElection dagIndex selfParentFrame e
    match handled with
    | .error error => .error (.election error)
    | .ok () => return (none, p)

def load (p : Orderer World) (callback : OrdererCallbacks World) :
    Except Halt (Orderer World) := do
  let epoch ← p.store.getEpoch
  let store := p.store.openEpochDB epoch
  let world := match callback.epochDBLoaded with
    | none => p.world
    | some loaded => loaded store p.world epoch
  let validators ← store.getValidators
  let lastDecidedFrame ← store.getLastDecidedFrame
  return { store := store
           election := some (.reset validators (lastDecidedFrame + 1))
           callback := callback
           world := world }

def bootstrap (p : Orderer World) (callback : OrdererCallbacks World) :
    Except Halt (Option BootstrapError × Orderer World) :=
  match p.election with
  | some _ => .ok (some .alreadyBootstrapped, p)
  | none => do
      let p ← p.load callback
      let (outcome, p) ← p.bootstrapElection dagIndex
      match outcome with
      | .error error => return (some (.election error), p)
      | .ok _ => return (none, p)

def reset (p : Orderer World) (epoch : Nat) (validators : Validators) :
    Except Halt (Orderer World) :=
  let p := { p with store := p.store.applyGenesis epoch validators }.resetEpochStore epoch
  match p.election with
  | none => .error .notBootstrapped
  | some _ => .ok { p with election := some (.reset validators firstFrame) }

end Loops

end Orderer

end Lachesis.Abft
