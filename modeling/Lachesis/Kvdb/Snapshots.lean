import Lachesis.Kvdb.FlushRetry

/-!
Snapshots of stores. The reads of a snapshot are made in whatever state the store is in by
then; a store's snapshots are frozen if these reads do not follow its writes. Flushables and
tables over a store with frozen snapshots have frozen snapshots, so they may be stacked.
-/

namespace Lachesis.Kvdb

open SearchTree

/-- `GetSnapshot` of a store, and the reads of a snapshot in a later state of the store. -/
structure Snapshots (S Snap : Type) where
  getSnapshot : S → Except Error Snap
  has : S → Snap → Bytes → Except Error Bool
  get : S → Snap → Bytes → Except Error (Option Bytes)
  newIterator : S → Snap → (pre start : Bytes) → Except Error (List (Bytes × Bytes))

variable {S Snap : Type}

/-- A snapshot where a store is expected: it can be read only. -/
def Snapshots.asStore (snaps : Snapshots S Snap) : Store (S × Snap) where
  has x := snaps.has x.1 x.2
  get x := snaps.get x.1 x.2
  newIterator x := snaps.newIterator x.1 x.2
  put _ _ _ := .error .unsupportedOp
  delete _ _ := .error .unsupportedOp
  write _ _ := .error .unsupportedOp
  valueSize _ := 0

structure Frozen {store : Store S} (map : ReadMap store) (snaps : Snapshots S Snap) where
  Holds : S → Snap → Contents → Prop
  take : ∀ {s}, map.Valid s → ∃ snap, snaps.getSnapshot s = .ok snap ∧ Holds s snap (map.contents s)
  has : ∀ {s snap m}, Holds s snap m → ∀ k, snaps.has s snap k = .ok (m k).isSome
  get : ∀ {s snap m}, Holds s snap m → ∀ k, snaps.get s snap k = .ok (m k)
  newIterator : ∀ {s snap m}, Holds s snap m → ∀ pre start,
    ∃ pairs, snaps.newIterator s snap pre start = .ok pairs ∧ m.Listing pre start pairs
  put : ∀ {s snap m}, Holds s snap m → ∀ {k v t}, store.put s k v = .ok t → Holds t snap m
  delete : ∀ {s snap m}, Holds s snap m → ∀ {k t}, store.delete s k = .ok t → Holds t snap m
  write : ∀ {s snap m}, Holds s snap m → ∀ {writes t}, store.write s writes = .ok t →
    Holds t snap m

def Frozen.readMap {store : Store S} {map : ReadMap store} {snaps : Snapshots S Snap}
    (frozen : Frozen map snaps) (m : Contents) : ReadMap snaps.asStore where
  Valid x := frozen.Holds x.1 x.2 m
  contents _ := m
  has holds := frozen.has holds
  get holds := frozen.get holds
  newIterator holds := frozen.newIterator holds

namespace Flushable

structure Snapshot (Snap : Type) where
  parentSnap : Snap
  modified : Option Modified

variable {store : Store S} (snaps : Snapshots S Snap) (putting : Putting Bytes (Option Bytes))

def copyModified (tree : Modified) : Modified :=
  tree.toList.foldl (fun modifiedCopy x => putting.put modifiedCopy x.1 x.2) .empty

def getSnapshot (w : Flushable S) : Except Error (Snapshot Snap) :=
  match snaps.getSnapshot w.underlying with
  | .error err => .error err
  | .ok parentSnap =>
    match w.modified with
    | none => .error .nilTree
    | some tree => .ok ⟨parentSnap, some (copyModified putting tree)⟩

def Snapshot.reader (snap : Snapshot Snap) (w : Flushable S) : Flushable (S × Snap) :=
  ⟨(w.underlying, snap.parentSnap), snap.modified, 0⟩

def snapshots : Snapshots (Flushable S) (Snapshot Snap) where
  getSnapshot w := w.getSnapshot snaps putting
  has w snap := (snap.reader w).has snaps.asStore
  get w snap := (snap.reader w).get snaps.asStore
  newIterator w snap := (snap.reader w).newIterator snaps.asStore

theorem find_copyModified (tree : Modified) (k : Bytes) :
    (copyModified putting tree).tree.find k = tree.tree.find k := by
  refine (tree.foldl_puts (fun t : Modified => t.tree.find) _ some (fun t x k => ?_) .empty k).trans ?_
  · exact putting.find_put t x.1 x.2 k
  · cases tree.tree.find k <;> rfl

theorem overlay_copyModified (base : Contents) (tree : Modified) :
    overlay base (copyModified putting tree) = overlay base tree := by
  funext k
  rw [overlay, overlay, find_copyModified]

section Underlying

variable {putting} {w w' : Flushable S}

theorem modify_underlying {kv : Write} (done : w.modify putting kv = .ok w') :
    w'.underlying = w.underlying := by
  obtain ⟨key, value⟩ := kv
  cases modified : w.modified <;> cases value <;>
    simp only [modify, deleteInner, putInner, modified] at done <;> cases done <;> rfl

theorem write_underlying {writes : List Write} (done : w.write putting writes = .ok w') :
    w'.underlying = w.underlying := by
  rw [write] at done
  split at done
  · cases done
  · change writes.foldlM (fun w kv => w.modify putting kv) w = .ok w' at done
    clear * - done
    induction writes generalizing w with
    | nil =>
      cases done
      rfl
    | cons kv rest ih =>
      rw [List.foldlM_cons] at done
      cases first : w.modify putting kv with
      | error err =>
        rw [first] at done
        cases done
      | ok w₁ =>
        rw [first] at done
        exact (ih done).trans (modify_underlying first)

end Underlying

variable {snaps} {map : ReadMap store}

/-- The parent's snapshot holds the base, and the snapshot's tree lies over it. -/
def SnapshotHolds (frozen : Frozen map snaps) (w : Flushable S) (snap : Snapshot Snap)
    (m : Contents) : Prop :=
  ∃ base tree, frozen.Holds w.underlying snap.parentSnap base ∧ snap.modified = some tree ∧
    m = overlay base tree

section Holds

variable {frozen : Frozen map snaps} {w w' : Flushable S} {snap : Snapshot Snap} {m : Contents}

theorem SnapshotHolds.opened (holds : SnapshotHolds frozen w snap m) :
    ∃ base tree, (snap.reader w).Opened (frozen.readMap base) tree ∧
      (snap.reader w).contents (frozen.readMap base) = m := by
  obtain ⟨base, tree, parent, modified, rfl⟩ := holds
  have opened : (snap.reader w).Opened (frozen.readMap base) tree := ⟨parent, modified⟩
  exact ⟨base, tree, opened, contents_opened opened⟩

theorem SnapshotHolds.of_underlying (holds : SnapshotHolds frozen w snap m)
    (same : w'.underlying = w.underlying) : SnapshotHolds frozen w' snap m := by
  obtain ⟨base, tree, parent, rest⟩ := holds
  exact ⟨base, tree, same ▸ parent, rest⟩

theorem getSnapshot_holds (frozen : Frozen map snaps) {tree : Modified}
    (opened : w.Opened map tree) :
    ∃ snap, w.getSnapshot snaps putting = .ok snap ∧
      SnapshotHolds frozen w snap (w.contents map) := by
  obtain ⟨parentSnap, taken, holds⟩ := frozen.take opened.1
  refine ⟨⟨parentSnap, some (copyModified putting tree)⟩, ?_, _, _, holds, rfl, ?_⟩
  · rw [getSnapshot, taken, opened.2]
  · rw [overlay_copyModified, contents_opened opened]

end Holds

def frozen (parent : Frozen map snaps) :
    Frozen (orderedMap putting map).toReadMap (snapshots snaps putting) where
  Holds := SnapshotHolds parent
  take := fun ⟨_, opened⟩ => getSnapshot_holds putting parent opened
  has holds k := by
    obtain ⟨_, _, opened, rfl⟩ := holds.opened
    exact has_opened opened k
  get holds k := by
    obtain ⟨_, _, opened, rfl⟩ := holds.opened
    exact get_opened opened k
  newIterator holds pre start := by
    obtain ⟨_, _, opened, rfl⟩ := holds.opened
    exact newIterator_opened opened pre start
  put {w _ _} holds {k v _} done :=
    holds.of_underlying (@modify_underlying _ putting w _ ⟨k, some v⟩ done)
  delete {w _ _} holds {k _} done :=
    holds.of_underlying (@modify_underlying _ putting w _ ⟨k, none⟩ done)
  write {_ _ _} holds {_ _} done := holds.of_underlying (write_underlying done)

end Flushable

namespace Table

variable {store : Store S} (snaps : Snapshots S Snap) (pre : Bytes)

def snapshots : Snapshots S Snap where
  getSnapshot := snaps.getSnapshot
  has s snap := (asStore snaps.asStore pre).has (s, snap)
  get s snap := (asStore snaps.asStore pre).get (s, snap)
  newIterator s snap := (asStore snaps.asStore pre).newIterator (s, snap)

variable {snaps} {map : OrderedMap store}

theorem read_part {S : Type} {store : Store S} (map : ReadMap store) {s : S} (valid : map.Valid s) :
    (∀ k, (asStore store pre).has s k = .ok (part pre (map.contents s) k).isSome) ∧
    (∀ k, (asStore store pre).get s k = .ok (part pre (map.contents s) k)) ∧
    ∀ itPrefix start, ∃ pairs, (asStore store pre).newIterator s itPrefix start = .ok pairs ∧
      (part pre (map.contents s)).Listing itPrefix start pairs := by
  refine ⟨fun k => ?_, fun k => ?_, fun itPrefix start => ?_⟩
  · rw [asStore, map.has valid, prefixed_eq]
    rfl
  · rw [asStore, map.get valid, prefixed_eq]
    rfl
  · obtain ⟨pairs, found, listing⟩ := map.newIterator valid (prefixed itPrefix pre) start
    exact ⟨_, by simp only [asStore, found], listing_part listing⟩

def frozen (parent : Frozen map.toReadMap snaps) :
    Frozen (orderedMap pre map).toReadMap (snapshots snaps pre) where
  Holds s snap m := ∃ whole, parent.Holds s snap whole ∧ m = part pre whole
  take valid := by
    obtain ⟨snap, taken, holds⟩ := parent.take valid
    exact ⟨snap, taken, _, holds, rfl⟩
  has := by
    rintro s snap _ ⟨whole, holds, rfl⟩
    exact (read_part pre (parent.readMap whole) (s := (s, snap)) holds).1
  get := by
    rintro s snap _ ⟨whole, holds, rfl⟩
    exact (read_part pre (parent.readMap whole) (s := (s, snap)) holds).2.1
  newIterator := by
    rintro s snap _ ⟨whole, holds, rfl⟩
    exact (read_part pre (parent.readMap whole) (s := (s, snap)) holds).2.2
  put := fun ⟨whole, holds, eq⟩ _ _ _ done => ⟨whole, parent.put holds done, eq⟩
  delete := fun ⟨whole, holds, eq⟩ _ _ done => ⟨whole, parent.delete holds done, eq⟩
  write := fun ⟨whole, holds, eq⟩ _ _ done => ⟨whole, parent.write holds done, eq⟩

end Table

namespace Flushable

variable {store : Store S} {snaps : Snapshots S Snap}

inductive Call where
  | put (key value : Bytes)
  | delete (key : Bytes)
  | write (writes : List Write)
  | flush (fault : Nat → Option Fault)
  | dropNotFlushed

def Call.after (store : Store S) (putting : Putting Bytes (Option Bytes)) (w : Flushable S) :
    Call → Flushable S
  | .put key value => (w.put putting (some key) (some value)).toOption.getD w
  | .delete key => (w.delete putting key).toOption.getD w
  | .write writes => (w.write putting writes).toOption.getD w
  | .flush fault => (w.flushFaulty store fault).2
  | .dropNotFlushed => w.dropNotFlushed.toOption.getD w

section Flush

variable {map : ReadMap store} {frozen : Frozen map snaps} {snap : Snap} {m : Contents}
  {fault : Nat → Option Fault}

theorem writeBatch_holds {s : S} (holds : frozen.Holds s snap m) (f : Option Fault)
    (batch : List Write) : frozen.Holds (writeBatch store f s batch).2 snap m := by
  cases f with
  | none =>
    rw [writeBatch]
    cases done : store.write s batch with
    | error err => exact holds
    | ok t => exact frozen.write holds done
  | some f =>
    rw [writeBatch]
    cases done : store.write s (batch.take f.applied) with
    | error err => exact holds
    | ok t => exact frozen.write holds done

theorem flushLoop_holds (entries : List (Bytes × Option Bytes)) (n : Nat) {s : S}
    (batch : List Write) (holds : frozen.Holds s snap m) :
    frozen.Holds (flushLoop store fault n s batch entries).2 snap m := by
  induction entries generalizing n s batch with
  | nil => exact writeBatch_holds holds (fault n) batch
  | cons first rest ih =>
    rw [flushLoop]
    cases fault n with
    | some f => exact holds
    | none =>
      dsimp only
      split
      · have written := writeBatch_holds holds (fault (n + 1)) (batch ++ [⟨first.1, first.2⟩])
        generalize writeBatch store (fault (n + 1)) s _ = result at written ⊢
        obtain ⟨_ | _, t⟩ := result
        · exact ih (n + 2) [] written
        · exact written
      · exact ih (n + 1) _ holds

theorem flushFaulty_holds {w : Flushable S} (holds : frozen.Holds w.underlying snap m) :
    frozen.Holds (w.flushFaulty store fault).2.underlying snap m := by
  rw [flushFaulty]
  split
  · exact holds
  · next tree _ =>
    have after : frozen.Holds (flushLoop store fault 0 w.underlying [] tree.toList).2 snap m :=
      flushLoop_holds tree.toList 0 [] holds
    generalize flushLoop store fault 0 w.underlying [] tree.toList = result at after ⊢
    obtain ⟨_ | _, t⟩ := result <;> exact after

end Flush

variable {map : ReadMap store} {frozen : Frozen map snaps} {snap : Snapshot Snap} {m : Contents}
  {w : Flushable S} {putting : Putting Bytes (Option Bytes)}

theorem SnapshotHolds.after (holds : SnapshotHolds frozen w snap m) (call : Call) :
    SnapshotHolds frozen (call.after store putting w) snap m := by
  have kept : ∀ {result : Except Error (Flushable S)},
      (∀ w', result = .ok w' → w'.underlying = w.underlying) →
      SnapshotHolds frozen (result.toOption.getD w) snap m := by
    intro result same
    cases result with
    | error err => exact holds
    | ok w' => exact holds.of_underlying (same w' rfl)
  cases call with
  | put key value => exact kept fun _ => @modify_underlying _ putting w _ ⟨key, some value⟩
  | delete key => exact kept fun _ => @modify_underlying _ putting w _ ⟨key, none⟩
  | write writes => exact kept fun _ => write_underlying
  | flush fault =>
    obtain ⟨base, tree, parent, rest⟩ := holds
    exact ⟨base, tree, flushFaulty_holds parent, rest⟩
  | dropNotFlushed =>
    apply kept
    intro w' done
    rw [dropNotFlushed] at done
    split at done
    · cases done
    · cases done
      rfl

theorem SnapshotHolds.run (holds : SnapshotHolds frozen w snap m) (calls : List Call) :
    SnapshotHolds frozen (calls.foldl (Call.after store putting) w) snap m := by
  induction calls generalizing w with
  | nil => exact holds
  | cons call rest ih => exact ih (holds.after call)

structure SameReads (store : Store S) (snaps : Snapshots S Snap)
    (putting : Putting Bytes (Option Bytes)) (snap : Snapshot Snap) (now then_ : Flushable S) :
    Prop where
  get : ∀ k, (snapshots snaps putting).get now snap k = then_.get store k
  has : ∀ k, (snapshots snaps putting).has now snap k = then_.has store k
  newIterator : ∀ pre start,
    (snapshots snaps putting).newIterator now snap pre start = then_.newIterator store pre start

/-- Snapshots can be taken of every open flushable over the store, and no calls on it change
what is read from them. -/
def SnapshotsStay (map : ReadMap store) (snaps : Snapshots S Snap)
    (putting : Putting Bytes (Option Bytes)) : Prop :=
  ∀ w tree, w.Opened map tree → ∃ snap, w.getSnapshot snaps putting = .ok snap ∧
    ∀ calls : List Call,
      SameReads store snaps putting snap (calls.foldl (Call.after store putting) w) w

theorem snapshots_stay (putting : Putting Bytes (Option Bytes)) (parent : Frozen map snaps) :
    SnapshotsStay map snaps putting := by
  intro w tree opened
  obtain ⟨snap, taken, holds⟩ := getSnapshot_holds putting parent opened
  refine ⟨snap, taken, fun calls => ?_⟩
  have later := @SnapshotHolds.run _ _ _ _ _ _ _ _ _ putting holds calls
  constructor
  · intro k
    rw [get_opened opened]
    exact (Flushable.frozen putting parent).get later k
  · intro k
    rw [has_opened opened]
    exact (Flushable.frozen putting parent).has later k
  · intro pre start
    obtain ⟨pairs, found, listing⟩ := newIterator_opened opened pre start
    obtain ⟨pairs', found', listing'⟩ :=
      (Flushable.frozen putting parent).newIterator later pre start
    rw [found, found', listing.unique listing']

end Flushable

/-- The snapshots of a flushable are frozen: over any ordered map whose snapshots are, over
another flushable, over a table, and over a table of a flushable. -/
theorem flushable_snapshots_frozen {store : Store S} {snaps : Snapshots S Snap}
    (map : OrderedMap store) (parent : Frozen map.toReadMap snaps)
    (putting : Putting Bytes (Option Bytes)) (pre : Bytes) :
    Flushable.SnapshotsStay map.toReadMap snaps putting ∧
    Flushable.SnapshotsStay (Flushable.orderedMap putting map.toReadMap).toReadMap
      (Flushable.snapshots snaps putting) putting ∧
    Flushable.SnapshotsStay (Table.orderedMap pre map).toReadMap (Table.snapshots snaps pre)
      putting ∧
    Flushable.SnapshotsStay
      (Table.orderedMap pre (Flushable.orderedMap putting map.toReadMap)).toReadMap
      (Table.snapshots (Flushable.snapshots snaps putting) pre) putting :=
  ⟨Flushable.snapshots_stay putting parent,
    Flushable.snapshots_stay putting (Flushable.frozen putting parent),
    Flushable.snapshots_stay putting (Table.frozen pre parent),
    Flushable.snapshots_stay putting (Table.frozen pre (Flushable.frozen putting parent))⟩

def devnulldb.snapshots : Snapshots Unit Unit where
  getSnapshot _ := .ok ()
  has _ := devnulldb.has
  get _ := devnulldb.get
  newIterator _ := devnulldb.newIterator

def devnulldb.frozen : Frozen devnulldb.readMap devnulldb.snapshots where
  Holds _ _ m := m = fun _ => none
  take _ := ⟨(), rfl, rfl⟩
  has := by
    rintro _ _ _ rfl k
    rfl
  get := by
    rintro _ _ _ rfl k
    rfl
  newIterator := by
    rintro _ _ _ rfl pre start
    exact ⟨[], rfl, .nil, by simp⟩
  put holds _ _ _ _ := holds
  delete holds _ _ _ := holds
  write holds _ _ _ := holds

/-- A snapshot over a memory database, before its key is deleted and the rest is flushed. -/
theorem flushable_snapshots_frozen_memorydb : ∃ snap,
    (Flushable.wrap (Flushable.wrap ())).getSnapshot
      (Flushable.snapshots devnulldb.snapshots (.plain _ _)) (.plain _ _) = .ok snap ∧
    (Flushable.snapshots (Flushable.snapshots devnulldb.snapshots (.plain _ _)) (.plain _ _)).get
      ([.put [1] [2], .flush fun _ => none, .delete [1]].foldl
        (Flushable.Call.after memorydb (.plain _ _)) (Flushable.wrap (Flushable.wrap ()))) snap [1] =
      (Flushable.wrap (Flushable.wrap ())).get memorydb [1] := by
  obtain ⟨snap, taken, stay⟩ := (flushable_snapshots_frozen memorydb.orderedMap
    (Flushable.frozen (.plain _ _) devnulldb.frozen) (.plain _ _) []).1
    (Flushable.wrap (Flushable.wrap ())) .empty ⟨⟨.empty, trivial, rfl⟩, rfl⟩
  exact ⟨snap, taken, (stay _).get [1]⟩

end Lachesis.Kvdb
