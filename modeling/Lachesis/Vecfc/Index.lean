import Lachesis.Storage
import Lachesis.Vecfc.ForklessCause

/-!
The index of `vecfc`: the engine over a flushable database, with an LRU cache in front of
each vector table and one for the answers of `ForklessCause`. `DropNotFlushed` purges the
vector caches and keeps the cached answers.
-/

namespace Lachesis.Vecfc

open Dag Pos Vecengine Simplewlru

structure IndexConfig where
  forklessCausePairs : Nat
  highestBeforeSeqSize : Nat
  lowestAfterSeqSize : Nat

/-- The tables of the vector index as they lie in the epoch database. -/
structure VecDb where
  eventBranch : List (EventID × Nat)
  branchesInfo : List (Unit × BranchesInfo)
  highestBeforeSeq : List (EventID × HighestBeforeSeq)
  lowestAfterSeq : List (EventID × LowestAfterSeq)
  deriving DecidableEq

def VecDb.empty : VecDb := ⟨[], [], [], []⟩

structure VecStore where
  eventBranch : Flushable EventID Nat
  highestBeforeSeq : Flushable EventID HighestBeforeSeq
  lowestAfterSeq : Flushable EventID LowestAfterSeq
  highestBeforeCache : Cache EventID HighestBeforeSeq
  lowestAfterCache : Cache EventID LowestAfterSeq
  deriving DecidableEq

namespace VecStore

def getHighestBefore (s : VecStore) (id : EventID) : Option HighestBeforeSeq × VecStore :=
  match s.highestBeforeCache.get id with
  | (some vec, cache) => (some vec, { s with highestBeforeCache := cache })
  | (none, cache) =>
    match s.highestBeforeSeq.get id with
    | none => (none, { s with highestBeforeCache := cache })
    | some vec => (some vec, { s with highestBeforeCache := cache.add id vec vec.byteLen })

def getLowestAfter (s : VecStore) (id : EventID) : Option LowestAfterSeq × VecStore :=
  match s.lowestAfterCache.get id with
  | (some vec, cache) => (some vec, { s with lowestAfterCache := cache })
  | (none, cache) =>
    match s.lowestAfterSeq.get id with
    | none => (none, { s with lowestAfterCache := cache })
    | some vec => (some vec, { s with lowestAfterCache := cache.add id vec vec.byteLen })

def setHighestBefore (s : VecStore) (id : EventID) (vec : HighestBeforeSeq) : VecStore :=
  { s with highestBeforeSeq := s.highestBeforeSeq.put id vec
           highestBeforeCache := s.highestBeforeCache.add id vec vec.byteLen }

def setLowestAfter (s : VecStore) (id : EventID) (vec : LowestAfterSeq) : VecStore :=
  { s with lowestAfterSeq := s.lowestAfterSeq.put id vec
           lowestAfterCache := s.lowestAfterCache.add id vec vec.byteLen }

def callbacks : Callbacks VecStore where
  getHighestBefore := getHighestBefore
  getLowestAfter := getLowestAfter
  setHighestBefore := setHighestBefore
  setLowestAfter := setLowestAfter
  readEventBranch := fun s id => s.eventBranch.get id
  setEventBranchID := fun s id branchID => { s with eventBranch := s.eventBranch.put id branchID }

end VecStore

structure Index where
  validators : Validators
  source : EventSource
  bi : Option BranchesInfo
  branchesInfo : Flushable Unit BranchesInfo
  store : VecStore
  forklessCauseCache : Cache (EventID × EventID) Bool

namespace Index

def new (cfg : IndexConfig) (validators : Validators) (db : VecDb) (source : EventSource) :
    Index where
  validators := validators
  source := source
  bi := none
  branchesInfo := .wrap db.branchesInfo
  store :=
    { eventBranch := .wrap db.eventBranch
      highestBeforeSeq := .wrap db.highestBeforeSeq
      lowestAfterSeq := .wrap db.lowestAfterSeq
      highestBeforeCache := .new cfg.highestBeforeSeqSize cfg.highestBeforeSeqSize
      lowestAfterCache := .new cfg.lowestAfterSeqSize cfg.lowestAfterSeqSize }
  forklessCauseCache := .new cfg.forklessCausePairs cfg.forklessCausePairs

def reset (vi : Index) (validators : Validators) (db : VecDb) (source : EventSource) :
    Index where
  validators := validators
  source := source
  bi := none
  branchesInfo := .wrap db.branchesInfo
  store :=
    { eventBranch := .wrap db.eventBranch
      highestBeforeSeq := .wrap db.highestBeforeSeq
      lowestAfterSeq := .wrap db.lowestAfterSeq
      highestBeforeCache := vi.store.highestBeforeCache.purge
      lowestAfterCache := vi.store.lowestAfterCache.purge }
  forklessCauseCache := vi.forklessCauseCache.purge

def persisted (vi : Index) : VecDb where
  eventBranch := vi.store.eventBranch.underlying
  branchesInfo := vi.branchesInfo.underlying
  highestBeforeSeq := vi.store.highestBeforeSeq.underlying
  lowestAfterSeq := vi.store.lowestAfterSeq.underlying

def initBranchesInfo (vi : Index) : BranchesInfo × Index :=
  match vi.bi with
  | some bi => (bi, vi)
  | none =>
    let bi := (vi.branchesInfo.get ()).getD (newInitialBranchesInfo vi.validators)
    (bi, { vi with bi := some bi })

def add (vi : Index) (e : Event) : Except Halt Index := do
  let (bi, vi) := vi.initBranchesInfo
  let (bi, store) ← fillEventVectors VecStore.callbacks vi.source vi.validators bi vi.store e
  return { vi with bi := some bi, store := store }

def flush (vi : Index) : Index :=
  let branchesInfo := match vi.bi with
    | none => vi.branchesInfo
    | some bi => vi.branchesInfo.put () bi
  { vi with branchesInfo := branchesInfo.flush
            store := { vi.store with eventBranch := vi.store.eventBranch.flush
                                     highestBeforeSeq := vi.store.highestBeforeSeq.flush
                                     lowestAfterSeq := vi.store.lowestAfterSeq.flush } }

def notFlushedPairs (vi : Index) : Nat :=
  vi.branchesInfo.notFlushedPairs + vi.store.eventBranch.notFlushedPairs +
    vi.store.highestBeforeSeq.notFlushedPairs + vi.store.lowestAfterSeq.notFlushedPairs

def dropNotFlushed (vi : Index) : Index :=
  if vi.notFlushedPairs ≠ 0 then
    { vi with bi := none
              branchesInfo := vi.branchesInfo.dropNotFlushed
              store :=
                { eventBranch := vi.store.eventBranch.dropNotFlushed
                  highestBeforeSeq := vi.store.highestBeforeSeq.dropNotFlushed
                  lowestAfterSeq := vi.store.lowestAfterSeq.dropNotFlushed
                  highestBeforeCache := vi.store.highestBeforeCache.purge
                  lowestAfterCache := vi.store.lowestAfterCache.purge } }
  else { vi with bi := none }

def forklessCause (vi : Index) (aID bID : EventID) : Except Halt (Bool × Index) :=
  match vi.forklessCauseCache.get (aID, bID) with
  | (some res, cache) => .ok (res, { vi with forklessCauseCache := cache })
  | (none, cache) => do
      let (bi, vi) := { vi with forklessCauseCache := cache }.initBranchesInfo
      let (res, store) ← Vecfc.forklessCause VecStore.callbacks vi.validators bi vi.store aID bID
      return (res, { vi with store := store
                             forklessCauseCache := vi.forklessCauseCache.add (aID, bID) res 1 })

def getMergedHighestBefore (vi : Index) (id : EventID) :
    Except Halt (HighestBeforeSeq × Index) := do
  let (bi, vi) := vi.initBranchesInfo
  let (vec, store) ← Vecfc.getMergedHighestBefore VecStore.callbacks vi.validators bi vi.store id
  return (vec, { vi with store := store })

end Index

end Lachesis.Vecfc
