import Lachesis.Abft.Orderer
import Lachesis.Library.StackWalk

/-!
`abft.Lachesis` and `abft.IndexedLachesis`: an orderer whose index is kept up to date with
every event, and whose decisions are told to the application as blocks. The application is
a state `App` that its callbacks change. `blocks` writes down what it was told.
-/

namespace Lachesis.Abft

open Dag Pos Vecfc

structure Block where
  atropos : EventID
  cheaters : List ValidatorID
  deriving DecidableEq

structure BlockCallbacks (App : Type) where
  applyEvent : Option (App → Event → App)
  endBlock : Option (App → Option Validators × App)

structure ConsensusCallbacks (App : Type) where
  beginBlock : Option (App → Block → BlockCallbacks App × App)

structure EmittedBlock where
  frame : Nat
  block : Block
  confirmed : List Event
  deriving DecidableEq

/-- What the orderer's callbacks of a `Lachesis` reach besides the store. -/
structure World (App : Type) where
  dagIndexer : Index
  callback : ConsensusCallbacks App
  app : App
  blocks : List EmittedBlock

namespace World

variable {App : Type}

def forklessCause (w : World App) (aID bID : EventID) : Except Halt (Bool × World App) := do
  let (res, dagIndexer) ← w.dagIndexer.forklessCause aID bID
  return (res, { w with dagIndexer := dagIndexer })

def dropNotFlushed (w : World App) : World App :=
  { w with dagIndexer := w.dagIndexer.dropNotFlushed }

end World

section Blocks

variable {App : Type} (input : EventSource)

/-- The table of confirmed events, the application, and the events confirmed so far. -/
structure Confirming (App : Type) where
  confirmedEvent : List (EventID × Nat)
  app : App
  confirmed : List Event

def confirmEvent (frame : Nat) (onEventConfirmed : Option (App → Event → App))
    (s : Confirming App) (walk : EventID) :
    Except Halt (Option (List EventID) × Confirming App) :=
  match input.getEvent walk with
  | none => .error (.eventNotFound walk)
  | some e =>
    if Store.getEventConfirmedOn s.confirmedEvent e.id ≠ 0 then .ok (none, s)
    else .ok (some e.parents,
      { confirmedEvent := Store.setEventConfirmedOn s.confirmedEvent e.id frame
        app := match onEventConfirmed with
          | none => s.app
          | some apply => apply s.app e
        confirmed := s.confirmed ++ [e] })

def confirmFuel : Nat := 1 + (input.events.map fun e => e.parents.length).sum

def confirmEvents (frame : Nat) (atropos : EventID)
    (onEventConfirmed : Option (App → Event → App)) (confirmedEvent : List (EventID × Nat))
    (app : App) : Except Halt (Confirming App) :=
  StackWalk.walk (confirmEvent input frame onEventConfirmed) .outOfFuel (confirmFuel input)
    [atropos] ⟨confirmedEvent, app, []⟩

def cheaters (validators : Validators) (atroposVecClock : HighestBeforeSeq) : List ValidatorID :=
  (validators.sortedIDs.zipIdx.filter fun (_, creatorIdx) =>
    atroposVecClock.isForkDetected creatorIdx).map Prod.fst

def applyAtropos (store : Store) (w : World App) (decidedFrame : Nat) (atropos : EventID) :
    Except Halt (Option Validators × List (EventID × Nat) × World App) := do
  let (atroposVecClock, dagIndexer) ← w.dagIndexer.getMergedHighestBefore atropos
  let validators ← store.getValidators
  let db ← store.epochTable
  match w.callback.beginBlock with
  | none => return (none, db.confirmedEvent, { w with dagIndexer := dagIndexer })
  | some beginBlock =>
    let block : Block := ⟨atropos, cheaters validators atroposVecClock⟩
    let (blockCallback, app) := beginBlock w.app block
    let done ← confirmEvents input decidedFrame atropos blockCallback.applyEvent
      db.confirmedEvent app
    let (newValidators, app) := match blockCallback.endBlock with
      | none => (none, done.app)
      | some endBlock => endBlock done.app
    let blocks := w.blocks ++ [⟨decidedFrame, block, done.confirmed⟩]
    return (newValidators, done.confirmedEvent,
      { w with dagIndexer := dagIndexer, app := app, blocks := blocks })

def lachesisCallbacks : OrdererCallbacks (World App) where
  applyAtropos := some (applyAtropos input)
  epochDBLoaded := none

/-- The callbacks are set only after the orderer has been bootstrapped. -/
def bootstrapWithOrderer (p : Orderer (World App)) (callback : ConsensusCallbacks App)
    (ordererCallbacks : OrdererCallbacks (World App)) :
    Except Halt (Option BootstrapError × Orderer (World App)) := do
  let (error, p) ← p.bootstrap World.forklessCause ordererCallbacks
  match error with
  | some error => return (some error, p)
  | none =>
    let world := { p.world with callback := callback }
    return (none, { p with world := world })

def lachesisBootstrap (p : Orderer (World App)) (callback : ConsensusCallbacks App) :
    Except Halt (Option BootstrapError × Orderer (World App)) :=
  bootstrapWithOrderer p callback (lachesisCallbacks input)

def resetIndex (store : Store) (w : World App) (_ : Nat) : World App :=
  match store.getValidators, store.epochTable with
  | .ok validators, .ok db =>
    { w with dagIndexer := w.dagIndexer.reset validators db.vectorIndex input }
  | _, _ => w

def indexedCallbacks : OrdererCallbacks (World App) where
  applyAtropos := some (applyAtropos input)
  epochDBLoaded := some (resetIndex input)

end Blocks

/-- `uniqueID.sample` of a counter: its bytes, most significant first, from the left. -/
def sample (counter : Nat) : BitVec 192 :=
  let bytes := (Nat.digits 256 counter).reverse ++ List.replicate 24 0
  BitVec.ofNat 192 (Nat.ofDigits 256 (bytes.take 24).reverse)

structure IndexedLachesis (App : Type) where
  lachesis : Orderer (World App)
  uniqueDirtyID : Nat

namespace IndexedLachesis

variable {App : Type} (input : EventSource)

/-- `NewIndexedLachesis` over a store and a new index, which is loaded by `Bootstrap`. -/
def new (storeCfg : StoreConfig) (indexCfg : IndexConfig) (disk : Disk) (noValidators : Validators)
    (app : App) (blocks : List EmittedBlock) : IndexedLachesis App where
  lachesis :=
    { store := .new storeCfg disk
      election := none
      callback := ⟨none, none⟩
      world :=
        { dagIndexer := .new indexCfg noValidators .empty input
          callback := ⟨none⟩
          app := app
          blocks := blocks } }
  uniqueDirtyID := 0

def bootstrap (p : IndexedLachesis App) (callback : ConsensusCallbacks App) :
    Except Halt (Option BootstrapError × IndexedLachesis App) := do
  let (error, lachesis) ← bootstrapWithOrderer p.lachesis callback (indexedCallbacks input)
  return (error, { p with lachesis := lachesis })

def build (p : IndexedLachesis App) (e : Event) :
    Except Halt (Event × IndexedLachesis App) := do
  let counter := p.uniqueDirtyID + 1
  let e := e.setID (sample counter)
  let dagIndexer ← p.lachesis.world.dagIndexer.add e
  let world := { p.lachesis.world with dagIndexer := dagIndexer }
  let (e, lachesis) ← { p.lachesis with world := world }.build World.forklessCause input e
  return (e, { lachesis := { lachesis with world := lachesis.world.dropNotFlushed }
               uniqueDirtyID := counter })

def flush (lachesis : Orderer (World App)) : Except Halt (Orderer (World App)) := do
  let dagIndexer := lachesis.world.dagIndexer.flush
  let db ← lachesis.store.epochTable
  let store := lachesis.store.setEpochTable { db with vectorIndex := dagIndexer.persisted }
  let world := { lachesis.world with dagIndexer := dagIndexer }
  return { lachesis with store := store, world := world }

def process (p : IndexedLachesis App) (e : Event) :
    Except Halt (Option ProcessError × IndexedLachesis App) := do
  let dagIndexer ← p.lachesis.world.dagIndexer.add e
  let world := { p.lachesis.world with dagIndexer := dagIndexer }
  let (error, lachesis) ← { p.lachesis with world := world }.process World.forklessCause input e
  let lachesis ← match error with
    | some _ => pure lachesis
    | none => flush lachesis
  let lachesis := { lachesis with world := lachesis.world.dropNotFlushed }
  return (error, { p with lachesis := lachesis })

def reset (p : IndexedLachesis App) (epoch : Nat) (validators : Validators) :
    Except Halt (IndexedLachesis App) := do
  let lachesis ← p.lachesis.reset epoch validators
  return { p with lachesis := lachesis }

end IndexedLachesis

end Lachesis.Abft
