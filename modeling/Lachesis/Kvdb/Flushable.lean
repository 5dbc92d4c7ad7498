import Lachesis.Kvdb.Store
import Lachesis.Library.SearchTree

/-!
`flushable.Flushable`: an overlay of not flushed writes over a parent store. The
red-black tree is third-party: it is any way to put pairs into ordered trees. A node is
known by its key.
-/

namespace Lachesis.Kvdb

open SearchTree

abbrev Modified := OrderedTree Bytes (Option Bytes)

/-- `modified` is nil once the store is closed. -/
structure Flushable (S : Type) where
  underlying : S
  modified : Option Modified
  sizeEstimation : Nat

def nextNode (tree : Modified) (node : Bytes) : Option Bytes :=
  match tree.tree.locate node [] with
  | some (.node _ _ _ right, parents) =>
    match right.leftmost with
    | some (key, _) => some key
    | none => (parents.find? fun parent => node ≤ parent.1).map Prod.fst
  | _ => none

def castToPair (tree : Modified) : Option Bytes → Bytes × Option Bytes
  | none => ([], none)
  | some node => (node, (tree.tree.find node).join)

structure ParentIterator where
  current : Option (Bytes × Bytes)
  rest : List (Bytes × Bytes)

def ParentIterator.next (it : ParentIterator) : Bool × ParentIterator :=
  match it.rest with
  | [] => (false, ⟨none, []⟩)
  | pair :: rest => (true, ⟨some pair, rest⟩)

def ParentIterator.pair (it : ParentIterator) : Bytes × Bytes := it.current.getD ([], [])

structure FlushableIterator where
  tree : Modified
  key : Bytes
  val : Bytes
  prevKey : Option Bytes
  parentIt : ParentIterator
  parentOk : Bool
  treeNode : Option Bytes
  treeOk : Bool
  start : Bytes
  pre : Bytes

namespace FlushableIterator

def init (it : FlushableIterator) : FlushableIterator :=
  let (parentOk, parentIt) := it.parentIt.next
  let treeNode := if it.start.length ≠ 0 then it.tree.tree.ceiling it.start none
    else it.tree.tree.leftmost
  { it with parentIt := parentIt, parentOk := parentOk
            treeNode := treeNode.map Prod.fst, treeOk := treeNode.isSome }

def isSuitable (it : FlushableIterator) (key : Bytes) : Bool × Bool :=
  -- check that prefixed. stop current iterating if it isn't
  if ¬ it.pre <+: key then (false, false)
  else (match it.prevKey with
    | none => true
    | some prevKey => prevKey < key, true)

def yield (it : FlushableIterator) (key val : Bytes) : FlushableIterator :=
  { it with key := key, val := val, prevKey := some key }

def advanceTree (it : FlushableIterator) (node : Bytes) : FlushableIterator :=
  if it.treeOk then
    let next := nextNode it.tree node
    { it with treeNode := next, treeOk := next.isSome }
  else it

def treeStep (it : FlushableIterator) (node : Bytes) (val : Option Bytes) :
    Bool × FlushableIterator :=
  match val with
  | some val =>
    let (ok, treeOk) := it.isSuitable node
    let it := { it with treeOk := treeOk }
    (ok, (if ok then it.yield node val else it).advanceTree node)
  -- next key must be greater than deleted, even if from parent
  | none => (false, { it with prevKey := some node }.advanceTree node)

def scanTree : Nat → FlushableIterator → Bool × FlushableIterator
  | 0, it => (false, it)
  | fuel + 1, it =>
    let (treeKey, treeVal) := castToPair it.tree it.treeNode
    if it.treeOk ∧ (it.parentOk = false ∨ treeKey ≤ it.parentIt.pair.1) then
      match it.treeStep treeKey treeVal with
      | (true, it) => (true, it)
      | (false, it) => scanTree fuel it
    else (false, it)

def parentStep (it : FlushableIterator) : Bool × FlushableIterator :=
  let (ok, parentOk) := it.isSuitable it.parentIt.pair.1
  let it := { it with parentOk := parentOk }
  let it := if ok then it.yield it.parentIt.pair.1 it.parentIt.pair.2 else it
  let it := if it.parentOk then
      let (parentOk, parentIt) := it.parentIt.next
      { it with parentOk := parentOk, parentIt := parentIt }
    else it
  (ok, it)

def scan : Nat → FlushableIterator → Bool × FlushableIterator
  | 0, it => (false, it)
  | fuel + 1, it =>
    if it.treeOk ∨ it.parentOk then
      -- tree has priority, so check it first
      match scanTree (it.tree.toList.length + 1) it with
      | (true, it) => (true, it)
      | (false, it) =>
        if it.parentOk then
          match it.parentStep with
          | (true, it) => (true, it)
          | (false, it) => scan fuel it
        else scan fuel it
    else (false, it)

/-- Each round of the loop takes a pair of the parent, up to two at the end. -/
def next (it : FlushableIterator) : Bool × FlushableIterator :=
  it.scan (it.parentIt.rest.length + 3)

def drain : Nat → FlushableIterator → List (Bytes × Bytes)
  | 0, _ => []
  | fuel + 1, it =>
    match it.next with
    | (true, it) => (it.key, it.val) :: it.drain fuel
    | (false, _) => []

end FlushableIterator

namespace Flushable

variable {S : Type} (store : Store S) (putting : Putting Bytes (Option Bytes))

def wrap (parent : S) : Flushable S := ⟨parent, some .empty, 0⟩

def putInner (w : Flushable S) (key value : Bytes) : Except Error (Flushable S) :=
  match w.modified with
  | none => .error .nilTree
  | some tree => .ok { w with
      modified := some (putting.put tree key (some value))
      sizeEstimation := w.sizeEstimation + (key.length + value.length + 128) }

def put (w : Flushable S) (key value : Option Bytes) : Except Error (Flushable S) :=
  match key, value with
  | some key, some value => w.putInner putting key value
  | _, _ => .error .nilKeyOrValue

def has (w : Flushable S) (key : Bytes) : Except Error Bool :=
  match w.modified with
  | none => .error .databaseClosed
  | some tree =>
    match tree.tree.find key with
    | some val => .ok val.isSome
    | none => store.has w.underlying key

def get (w : Flushable S) (key : Bytes) : Except Error (Option Bytes) :=
  match w.modified with
  | none => .error .databaseClosed
  | some tree =>
    match tree.tree.find key with
    | some entry => .ok entry
    | none => store.get w.underlying key

def deleteInner (w : Flushable S) (key : Bytes) : Except Error (Flushable S) :=
  match w.modified with
  | none => .error .nilTree
  | some tree => .ok { w with
      modified := some (putting.put tree key none)
      sizeEstimation := w.sizeEstimation + (key.length + 128) }

def delete (w : Flushable S) (key : Bytes) : Except Error (Flushable S) :=
  w.deleteInner putting key

def dropNotFlushed (w : Flushable S) : Except Error (Flushable S) :=
  match w.modified with
  | none => .error .nilTree
  | some _ => .ok { w with modified := some .empty, sizeEstimation := 0 }

def notFlushedPairs (w : Flushable S) : Option Nat := w.modified.map fun tree => tree.toList.length

def notFlushedSizeEst (w : Flushable S) : Nat := w.sizeEstimation

def subBatches : List (Bytes × Option Bytes) → List Write → List (List Write)
  | [], batch => [batch]
  | (key, value) :: rest, batch =>
    if idealBatchSize < store.valueSize (batch ++ [⟨key, value⟩]) then
      (batch ++ [⟨key, value⟩]) :: subBatches rest []
    else subBatches rest (batch ++ [⟨key, value⟩])

def writeBatches (s : S) : List (List Write) → Option Error × S
  | [] => (none, s)
  | batch :: rest =>
    match store.write s batch with
    | .error err => (some err, s)
    | .ok s => writeBatches s rest

def flush (w : Flushable S) : Option Error × Flushable S :=
  match w.modified with
  | none => (some .databaseClosed, w)
  | some tree =>
    match writeBatches store w.underlying (subBatches store tree.toList []) with
    | (some err, s) => (some err, { w with underlying := s })
    | (none, s) => (none, ⟨s, some .empty, 0⟩)

def iterator (w : Flushable S) (pre start : Bytes) : Except Error FlushableIterator :=
  match w.modified with
  | none => .error .databaseClosed
  | some tree =>
    match store.newIterator w.underlying pre start with
    | .error err => .error err
    | .ok pairs => .ok (FlushableIterator.init
        { tree := tree, key := [], val := [], prevKey := none
          parentIt := ⟨none, pairs⟩, parentOk := false
          treeNode := none, treeOk := false
          start := pre ++ start, pre := pre })

def newIterator (w : Flushable S) (pre start : Bytes) : Except Error (List (Bytes × Bytes)) :=
  match w.iterator store pre start with
  | .error err => .error err
  | .ok it => .ok (it.drain (it.tree.toList.length + it.parentIt.rest.length + 2))

def write (w : Flushable S) (writes : List Write) : Except Error (Flushable S) :=
  match w.modified with
  | none => .error .databaseClosed
  | some _ => writes.foldlM (fun w kv =>
    match kv.value with
    | none => w.deleteInner putting kv.key
    | some value => w.putInner putting kv.key value) w

def valueSize (writes : List Write) : Nat :=
  (writes.map fun kv => kv.key.length + (kv.value.getD []).length).sum

def asStore : Store (Flushable S) where
  has w key := w.has store key
  get w key := w.get store key
  newIterator w pre start := w.newIterator store pre start
  put w key value := w.put putting (some key) (some value)
  delete w key := w.delete putting key
  write w writes := w.write putting writes
  valueSize := valueSize

end Flushable

end Lachesis.Kvdb
