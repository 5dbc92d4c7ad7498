import Lachesis.Abft.Election
import Lachesis.Vecfc.Index

/-!
`abft.Store`: the main database with the state of the epoch and of the decided frames, one
database for each epoch, and the cache of frame roots. Writes to the main tables go to
their pointer caches as well, so these never differ from the tables and are not modelled.
-/

namespace Lachesis.Abft

open Dag Pos Simplewlru Vecfc

def firstFrame : Nat := 1

structure EpochState where
  epoch : Nat
  validators : Validators
  deriving DecidableEq

structure LastDecidedState where
  lastDecidedFrame : Nat
  deriving DecidableEq

/-- The tables of one epoch. Roots lie in the order of their keys. -/
structure EpochDB where
  roots : List RootAndSlot
  vectorIndex : VecDb
  confirmedEvent : List (EventID × Nat)
  deriving DecidableEq

def EpochDB.empty : EpochDB := ⟨[], .empty, []⟩

structure StoreConfig where
  rootsNum : Nat
  rootsFrames : Nat

/-- `epochDBs` is what `getEpochDB` finds for each epoch; `opened` is the epoch of the
database that `epochDB` points to. -/
structure Store where
  lastDecidedState : Option LastDecidedState
  epochState : Option EpochState
  epochDBs : Nat → EpochDB
  opened : Option Nat
  frameRoots : Cache Nat (List RootAndSlot)

structure Disk where
  lastDecidedState : Option LastDecidedState
  epochState : Option EpochState
  epochDBs : Nat → EpochDB

namespace Store

def new (cfg : StoreConfig) (disk : Disk) : Store where
  lastDecidedState := disk.lastDecidedState
  epochState := disk.epochState
  epochDBs := disk.epochDBs
  opened := none
  frameRoots := .new cfg.rootsNum cfg.rootsFrames

def disk (s : Store) : Disk where
  lastDecidedState := s.lastDecidedState
  epochState := s.epochState
  epochDBs := s.epochDBs

def getLastDecidedState (s : Store) : Except Halt LastDecidedState :=
  match s.lastDecidedState with
  | none => .error .noGenesis
  | some state => .ok state

def getLastDecidedFrame (s : Store) : Except Halt Nat := do
  let state ← s.getLastDecidedState
  return state.lastDecidedFrame

def setLastDecidedState (s : Store) (state : LastDecidedState) : Store :=
  { s with lastDecidedState := some state }

def getEpochState (s : Store) : Except Halt EpochState :=
  match s.epochState with
  | none => .error .noGenesis
  | some state => .ok state

def setEpochState (s : Store) (state : EpochState) : Store := { s with epochState := some state }

def getEpoch (s : Store) : Except Halt Nat := do
  let state ← s.getEpochState
  return state.epoch

def getValidators (s : Store) : Except Halt Validators := do
  let state ← s.getEpochState
  return state.validators

def applyGenesis (s : Store) (epoch : Nat) (validators : Validators) : Store :=
  (s.setEpochState ⟨epoch, validators⟩).setLastDecidedState ⟨firstFrame - 1⟩

def epochTable (s : Store) : Except Halt EpochDB :=
  match s.opened with
  | none => .error .notBootstrapped
  | some epoch => .ok (s.epochDBs epoch)

def setEpochTable (s : Store) (db : EpochDB) : Store :=
  match s.opened with
  | none => s
  | some epoch => { s with epochDBs := Function.update s.epochDBs epoch db }

def dropEpochDB (s : Store) : Store := s.setEpochTable .empty

def openEpochDB (s : Store) (epoch : Nat) : Store :=
  { s with opened := some epoch, frameRoots := s.frameRoots.purge }

/-- `rootRecordKey`: frame, validator and event, most significant bytes first. -/
def keyLe (left right : RootAndSlot) : Prop :=
  left.slot.frame < right.slot.frame ∨ (left.slot.frame = right.slot.frame ∧
    (left.slot.validator < right.slot.validator ∨
      (left.slot.validator = right.slot.validator ∧ left.id ≤ right.id)))

instance : DecidableRel keyLe := fun _ _ => inferInstanceAs (Decidable (_ ∨ _))

def putRoot (roots : List RootAndSlot) (r : RootAndSlot) : List RootAndSlot :=
  if r ∈ roots then roots else roots.orderedInsert keyLe r

def addRoot (s : Store) (root : Event) (frame : Nat) : Except Halt Store := do
  let db ← s.epochTable
  let r : RootAndSlot := ⟨root.id, ⟨frame, root.creator⟩⟩
  let s := s.setEpochTable { db with roots := putRoot db.roots r }
  match s.frameRoots.get frame with
  | (some rr, cache) =>
    return { s with frameRoots := cache.add frame (rr ++ [r]) (rr ++ [r]).length }
  | (none, cache) => return { s with frameRoots := cache }

def slots (selfParentFrame frame : Nat) : List Nat :=
  List.range' (selfParentFrame + 1) (frame - selfParentFrame)

def addRoots (s : Store) (selfParentFrame : Nat) (root : Event) : Except Halt Store :=
  (slots selfParentFrame root.frame).foldlM (fun s frame => s.addRoot root frame) s

def getFrameRoots (s : Store) (frame : Nat) : Except Halt (List RootAndSlot × Store) :=
  match s.frameRoots.get frame with
  | (some rr, cache) => .ok (rr, { s with frameRoots := cache })
  | (none, cache) => do
      let db ← s.epochTable
      let rr := db.roots.filter fun r => r.slot.frame = frame
      return (rr, { s with frameRoots := cache.add frame rr rr.length })

def getEventConfirmedOn (confirmedEvent : List (EventID × Nat)) (id : EventID) : Nat :=
  (confirmedEvent.lookup id).getD 0

def setEventConfirmedOn (confirmedEvent : List (EventID × Nat)) (id : EventID) (frame : Nat) :
    List (EventID × Nat) :=
  (id, frame) :: confirmedEvent

end Store

end Lachesis.Abft
