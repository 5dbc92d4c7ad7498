import Lachesis.Kvdb.FlushableOverlay

/-!
`flushable.SyncedPool`: flushables over lazily opened databases that are flushed together.
What `flush` does to the databases is a list of effects, so that it can be stopped after
any of them. A Go map is walked in any order: `Orders` are the orders of one flush.
-/

namespace Lachesis.Kvdb

open SearchTree

abbrev Name := String

def dirtyPrefix : Fin 256 := 0xde

def cleanPrefix : Fin 256 := 0x00

abbrev Disk (S : Type) := Name → Option S

/-- What happens to an underlying database. -/
inductive Effect where
  | openDB (name : Name)
  | put (name : Name) (key value : Bytes)
  | write (name : Name) (batch : List Write)
  | close (name : Name)
  | drop (name : Name)
  deriving DecidableEq

def Effect.run {S : Type} (store : Store S) (fresh : S) (disk : Disk S) :
    Effect → Except Error (Disk S)
  | .openDB name => .ok (Function.update disk name (some ((disk name).getD fresh)))
  | .put name key value =>
    match disk name with
    | none => .error .databaseClosed
    | some db =>
      match store.put db key value with
      | .error err => .error err
      | .ok db => .ok (Function.update disk name (some db))
  | .write name batch =>
    match disk name with
    | none => .error .databaseClosed
    | some db =>
      match store.write db batch with
      | .error err => .error err
      | .ok db => .ok (Function.update disk name (some db))
  | .close _ => .ok disk
  | .drop name => .ok (Function.update disk name none)

def runEffects {S : Type} (store : Store S) (fresh : S) (disk : Disk S) (effects : List Effect) :
    Except Error (Disk S) :=
  effects.foldlM (Effect.run store fresh) disk

/-- A flushable whose database is not opened before it is needed. -/
structure LazyFlushable where
  initialised : Bool
  modified : Modified

def LazyFlushable.new : LazyFlushable := ⟨false, .empty⟩

abbrev Wrappers := AList fun _ : Name => LazyFlushable

structure SyncedPool where
  wrappers : Wrappers
  queuedDrops : List Name

/-- The orders in which a flush walks over its maps. -/
structure Orders where
  drops : List Name
  dirty : List Name
  data : List Name
  clean : List Name

def markFlushID (name : Name) (key : Bytes) (pre : Fin 256) (flushID : Bytes) : Effect :=
  .put name key (pre :: flushID)

namespace SyncedPool

section Flush

variable {S : Type} (store : Store S) (flushIDKey : Bytes)

def dropEffects (wrappers : Wrappers) (order : List Name) : List Effect :=
  order.flatMap fun name =>
    match wrappers.lookup name with
    | none => []
    | some w => if w.initialised then [.close name, .drop name] else []

def initUnderlyingDb (name : Name) (w : LazyFlushable) : List Effect :=
  if w.initialised then [] else [.openDB name]

def dirtyEffects (wrappers : Wrappers) (id : Bytes) (order : List Name) : List Effect :=
  order.flatMap fun name =>
    match wrappers.lookup name with
    | none => []
    | some w => initUnderlyingDb name w ++ [markFlushID name flushIDKey dirtyPrefix id]

def dataEffects (wrappers : Wrappers) (order : List Name) : List Effect :=
  order.flatMap fun name =>
    match wrappers.lookup name with
    | none => []
    | some w => (Flushable.subBatches store w.modified.toList []).map (.write name)

def cleanEffects (wrappers : Wrappers) (id : Bytes) (order : List Name) : List Effect :=
  order.flatMap fun name =>
    match wrappers.lookup name with
    | none => []
    | some _ => [markFlushID name flushIDKey cleanPrefix id]

def remaining (pool : SyncedPool) : Wrappers :=
  pool.queuedDrops.foldl (fun wrappers name => wrappers.erase name) pool.wrappers

def flushEffects (pool : SyncedPool) (id : Bytes) (orders : Orders) : List Effect :=
  dropEffects pool.wrappers orders.drops ++ (dirtyEffects flushIDKey pool.remaining id orders.dirty ++
    (dataEffects store pool.remaining orders.data ++
      cleanEffects flushIDKey pool.remaining id orders.clean))

structure Walks (pool : SyncedPool) (orders : Orders) : Prop where
  drops : orders.drops.Perm pool.queuedDrops
  dirty : orders.dirty.Perm pool.remaining.keys
  data : orders.data.Perm pool.remaining.keys
  clean : orders.clean.Perm pool.remaining.keys

instance (pool : SyncedPool) (orders : Orders) : Decidable (pool.Walks orders) :=
  decidable_of_iff (orders.drops.Perm pool.queuedDrops ∧ orders.dirty.Perm pool.remaining.keys ∧
      orders.data.Perm pool.remaining.keys ∧ orders.clean.Perm pool.remaining.keys)
    ⟨fun ⟨drops, dirty, data, clean⟩ => ⟨drops, dirty, data, clean⟩,
      fun walks => ⟨walks.drops, walks.dirty, walks.data, walks.clean⟩⟩

def flushed (pool : SyncedPool) : SyncedPool :=
  ⟨pool.remaining.keys.foldl (fun wrappers name => wrappers.insert name ⟨true, .empty⟩)
    pool.remaining, []⟩

end Flush

def getDB (pool : SyncedPool) (name : Name) : LazyFlushable × SyncedPool :=
  match pool.wrappers.lookup name with
  | some w => (w, pool)
  | none => (.new, { pool with wrappers := pool.wrappers.insert name .new })

def enqueueDropDb (pool : SyncedPool) (name : Name) : SyncedPool :=
  { pool with queuedDrops :=
      if name ∈ pool.queuedDrops then pool.queuedDrops else pool.queuedDrops ++ [name] }

end SyncedPool

inductive CheckError where
  /-- "dirty state: %s" -/
  | dirtyState (descrs : List (Name × Bytes))
  /-- "not synced: %s != %s" -/
  | notSynced (flushID : Bytes) (descrs : List (Name × Bytes))
  /-- "non-initialized DB state" -/
  | nonInitialized
  | read (err : Error)
  deriving DecidableEq

def checkRest {S : Type} (store : Store S) (flushIDKey : Bytes) : List (Name × S) → Option Bytes →
    List (Name × Bytes) → Bool → Option Bytes × Option CheckError
  | [], flushID, _, nonInit =>
    if flushID.isSome ∧ nonInit then (flushID, some .nonInitialized) else (flushID, none)
  | (name, db) :: rest, flushID, descrs, nonInit =>
    match store.get db flushIDKey with
    | .error err => (flushID, some (.read err))
    | .ok none => checkRest store flushIDKey rest flushID descrs true
    | .ok (some mark) =>
      let descrs := descrs ++ [(name, mark)]
      if [dirtyPrefix] <+: mark then (flushID, some (.dirtyState descrs))
      else
        let flushID := flushID.getD mark
        if mark ≠ flushID then (some flushID, some (.notSynced flushID descrs))
        else checkRest store flushIDKey rest (some flushID) descrs nonInit

def checkDBsSynced {S : Type} (store : Store S) (dbs : List (Name × S)) (flushIDKey : Bytes)
    (flushID : Option Bytes) : Option Bytes × Option CheckError :=
  checkRest store flushIDKey dbs flushID [] false

structure Flushed where
  id : Bytes
  data : Name → Option Contents

/-- A pool, the databases under it, and the flushes so far, the last one first. -/
structure Session (S : Type) where
  disk : Disk S
  pool : SyncedPool
  flushes : List Flushed

namespace Session

variable {S : Type} (store : Store S) (fresh : S) (putting : Putting Bytes (Option Bytes))
  (contents : S → Contents) (flushIDKey : Bytes)

inductive Action where
  | openDB (name : Name)
  | getUnderlying (name : Name)
  | write (name : Name) (writes : List Write)
  | drop (name : Name)
  | flush (id : Bytes) (orders : Orders)
  | restart (dbNames : List Name)

def new : Session S := ⟨fun _ => none, ⟨∅, []⟩, []⟩

def getUnderlying (s : Session S) (name : Name) : Session S :=
  let (w, pool) := s.pool.getDB name
  let disk := if w.initialised then s.disk
    else Function.update s.disk name (some ((s.disk name).getD fresh))
  { s with disk := disk
           pool := { pool with wrappers := pool.wrappers.insert name { w with initialised := true } } }

def flushedData (s : Session S) (id : Bytes) (name : Name) : Option Contents :=
  match s.pool.remaining.lookup name with
  | some w =>
    let base := ((s.disk name).map contents).getD fun _ => none
    some ((overlay base w.modified).apply ⟨flushIDKey, some (cleanPrefix :: id)⟩)
  | none =>
    match s.pool.wrappers.lookup name with
    | some w => if w.initialised then none else (s.disk name).map contents
    | none => (s.disk name).map contents

/-- What the clients and the owner of the pool do; `restart` is a new pool that is initialised on the same disk. -/
def step (s : Session S) : Action → Option (Session S)
  | .openDB name => some { s with pool := (s.pool.getDB name).2 }
  | .getUnderlying name => some (s.getUnderlying fresh name)
  | .write name writes =>
    match s.pool.wrappers.lookup name with
    | none => none
    | some w =>
      let modified := writes.foldl (fun tree kv => putting.put tree kv.key kv.value) w.modified
      some { s with pool := { s.pool with
        wrappers := s.pool.wrappers.insert name { w with modified := modified } } }
  | .drop name => some { s with pool := s.pool.enqueueDropDb name }
  | .flush id orders =>
    if s.pool.Walks orders then
      match runEffects store fresh s.disk (s.pool.flushEffects store flushIDKey id orders) with
      | .error _ => none
      | .ok disk =>
        some { disk := disk, pool := s.pool.flushed
               flushes := ⟨id, s.flushedData contents flushIDKey id⟩ :: s.flushes }
    else none
  | .restart dbNames =>
    some (dbNames.foldl (fun s name => s.getUnderlying fresh name) { s with pool := ⟨∅, []⟩ })

end Session

end Lachesis.Kvdb
