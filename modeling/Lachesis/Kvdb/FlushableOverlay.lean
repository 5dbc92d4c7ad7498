import Lachesis.Kvdb.FlushableIteration
import Lachesis.Kvdb.Table

/-!
A flushable over an ordered map is an ordered map again: the parent's contents overlaid
with the modified pairs. So flushables and tables may be stacked.
-/

namespace Lachesis.Kvdb

open SearchTree

def overlay (base : Contents) (tree : Modified) : Contents :=
  fun k => (tree.tree.find k).getD (base k)

theorem overlay_put (putting : Putting Bytes (Option Bytes)) (base : Contents) (tree : Modified)
    (w : Write) :
    overlay base (putting.put tree w.key w.value) = (overlay base tree).apply w := by
  funext k
  rw [overlay, putting.find_put, Contents.apply]
  by_cases same : k = w.key
  · subst same
    simp
  · rw [if_neg same, Function.update_of_ne same]
    rfl

theorem overlay_empty (base : Contents) : overlay base .empty = base := rfl

theorem applyAll_tree (base : Contents) (tree : Modified) :
    base.applyAll (tree.toList.map fun x => ⟨x.1, x.2⟩) = overlay base tree := by
  funext k
  rw [Contents.applyAll, List.foldl_map]
  refine (tree.foldl_puts (fun m : Contents => m) _ id (fun m x k => ?_) base k).trans ?_
  · rw [Contents.apply, Function.update_apply]
    congr
  · rw [Option.map_id]
    rfl

namespace Flushable

variable {S : Type} {store : Store S} (map : ReadMap store)
  (putting : Putting Bytes (Option Bytes))

def Opened (w : Flushable S) (tree : Modified) : Prop :=
  map.Valid w.underlying ∧ w.modified = some tree

def contents (w : Flushable S) : Contents :=
  match w.modified with
  | some tree => overlay (map.contents w.underlying) tree
  | none => map.contents w.underlying

variable {map} {w : Flushable S} {tree : Modified}

theorem contents_opened (opened : w.Opened map tree) :
    w.contents map = overlay (map.contents w.underlying) tree := by
  rw [contents, opened.2]

theorem has_opened (opened : w.Opened map tree) (k : Bytes) :
    w.has store k = .ok (w.contents map k).isSome := by
  rw [contents_opened opened, has, opened.2, overlay]
  dsimp only
  cases tree.tree.find k with
  | some val => rfl
  | none => exact map.has opened.1 k

theorem get_opened (opened : w.Opened map tree) (k : Bytes) :
    w.get store k = .ok (w.contents map k) := by
  rw [contents_opened opened, get, opened.2, overlay]
  dsimp only
  cases tree.tree.find k with
  | some val => rfl
  | none => exact map.get opened.1 k

theorem newIterator_opened (opened : w.Opened map tree) (pre start : Bytes) :
    ∃ pairs, w.newIterator store pre start = .ok pairs ∧
      (w.contents map).Listing pre start pairs := by
  obtain ⟨parents, found, listing⟩ := map.newIterator opened.1 pre start
  obtain ⟨valid, live⟩ := FlushableIterator.init_spec tree listing
  let it := (FlushableIterator.fresh tree parents pre start).init
  have start' : w.iterator store pre start = .ok it := by
    simp only [iterator, opened.2, found]
    rfl
  have enough : it.size < it.tree.toList.length + it.parentIt.rest.length + 2 := by
    have parent : it.parentRest.length ≤ it.parentIt.rest.length + 1 := by
      rw [FlushableIterator.parentRest]
      split <;> simp
    have treeRest := it.treeRest_length
    rw [FlushableIterator.size]
    omega
  obtain ⟨ascending, mem⟩ := FlushableIterator.drain_spec _ valid enough
  refine ⟨_, by rw [newIterator, start'], ascending, fun k v => ?_⟩
  rw [mem, live, contents_opened opened]
  rfl

def modify (w : Flushable S) (kv : Write) : Except Error (Flushable S) :=
  match kv.value with
  | none => w.deleteInner putting kv.key
  | some value => w.putInner putting kv.key value

theorem modify_opened (opened : w.Opened map tree) (kv : Write) :
    ∃ w', w.modify putting kv = .ok w' ∧ w'.underlying = w.underlying ∧
      w'.Opened map (putting.put tree kv.key kv.value) ∧
      w'.contents map = (w.contents map).apply kv := by
  have changed : ∃ w', w.modify putting kv = .ok w' ∧ w'.underlying = w.underlying ∧
      w'.modified = some (putting.put tree kv.key kv.value) := by
    obtain ⟨key, value⟩ := kv
    cases value with
    | none =>
      exact ⟨{ w with modified := some (putting.put tree key none)
                      sizeEstimation := w.sizeEstimation + (key.length + 128) },
        by simp only [modify, deleteInner, opened.2], rfl, rfl⟩
    | some value =>
      exact ⟨{ w with modified := some (putting.put tree key (some value))
                      sizeEstimation := w.sizeEstimation + (key.length + value.length + 128) },
        by simp only [modify, putInner, opened.2], rfl, rfl⟩
  obtain ⟨w', done, same, modified⟩ := changed
  have after : w'.Opened map (putting.put tree kv.key kv.value) := ⟨same ▸ opened.1, modified⟩
  refine ⟨w', done, same, after, ?_⟩
  rw [contents_opened after, contents_opened opened, overlay_put, same]

theorem modifyAll_opened (writes : List Write) : ∀ {w : Flushable S} {tree : Modified},
    w.Opened map tree → ∃ w' tree', writes.foldlM (fun w kv => w.modify putting kv) w = .ok w' ∧
      w'.underlying = w.underlying ∧ w'.Opened map tree' ∧
      w'.contents map = (w.contents map).applyAll writes := by
  induction writes with
  | nil => exact fun {w tree} opened => ⟨w, tree, rfl, rfl, opened, rfl⟩
  | cons kv rest ih =>
    intro w tree opened
    obtain ⟨w₁, done, same, opened₁, contents₁⟩ := modify_opened putting opened kv
    obtain ⟨w₂, tree₂, later, same₂, opened₂, contents₂⟩ := ih opened₁
    refine ⟨w₂, tree₂, ?_, same₂.trans same, opened₂, ?_⟩
    · rw [List.foldlM_cons, done]
      exact later
    · rw [contents₂, contents₁]
      rfl

theorem write_opened (opened : w.Opened map tree) (writes : List Write) :
    ∃ w' tree', w.write putting writes = .ok w' ∧ w'.underlying = w.underlying ∧
      w'.Opened map tree' ∧ w'.contents map = (w.contents map).applyAll writes := by
  obtain ⟨w', tree', done, rest⟩ := modifyAll_opened putting writes opened
  refine ⟨w', tree', ?_, rest⟩
  rw [write, opened.2]
  exact done

/-- A flushable over what reads as an ordered map is an ordered map. -/
def orderedMap (map : ReadMap store) : OrderedMap (asStore store putting) where
  Valid w := ∃ tree, w.Opened map tree
  contents w := w.contents map
  has := fun ⟨_, opened⟩ k => has_opened opened k
  get := fun ⟨_, opened⟩ k => get_opened opened k
  newIterator := fun ⟨_, opened⟩ pre start => newIterator_opened opened pre start
  put := fun ⟨_, opened⟩ k v => by
    obtain ⟨w', done, _, after, contents⟩ := modify_opened putting opened ⟨k, some v⟩
    exact ⟨w', done, ⟨_, after⟩, contents⟩
  delete := fun ⟨_, opened⟩ k => by
    obtain ⟨w', done, _, after, contents⟩ := modify_opened putting opened ⟨k, none⟩
    exact ⟨w', done, ⟨_, after⟩, contents⟩
  write := fun ⟨_, opened⟩ writes => by
    obtain ⟨w', tree', done, _, after, contents⟩ := write_opened putting opened writes
    exact ⟨w', done, ⟨_, after⟩, contents⟩

theorem subBatches_flatten (entries : List (Bytes × Option Bytes)) (batch : List Write) :
    (subBatches store entries batch).flatten = batch ++ entries.map fun x => ⟨x.1, x.2⟩ := by
  induction entries generalizing batch with
  | nil => simp [subBatches]
  | cons first rest ih =>
    rw [subBatches]
    split
    · rw [List.flatten_cons, ih]
      simp
    · rw [ih]
      simp

variable {map : OrderedMap store}

theorem writeBatches_spec (batches : List (List Write)) : ∀ {s : S}, map.Valid s →
    ∃ t, writeBatches store s batches = (none, t) ∧ map.Valid t ∧
      map.contents t = (map.contents s).applyAll batches.flatten := by
  induction batches with
  | nil => exact fun {s} valid => ⟨s, rfl, valid, rfl⟩
  | cons batch rest ih =>
    intro s valid
    obtain ⟨t, done, after, contents⟩ := map.write valid batch
    obtain ⟨u, later, last, contents'⟩ := ih after
    refine ⟨u, ?_, last, ?_⟩
    · rw [writeBatches, done]
      exact later
    · rw [contents', contents, List.flatten_cons, Contents.applyAll_append]

theorem flush_opened (opened : w.Opened map.toReadMap tree) :
    ∃ w', w.flush store = (none, w') ∧ w'.Opened map.toReadMap .empty ∧
      map.contents w'.underlying = w.contents map.toReadMap := by
  obtain ⟨t, done, valid, contents⟩ := writeBatches_spec (subBatches store tree.toList []) opened.1
  refine ⟨⟨t, some .empty, 0⟩, by rw [flush, opened.2]; simp only [done], ⟨valid, rfl⟩, ?_⟩
  rw [contents, subBatches_flatten, List.nil_append, applyAll_tree, contents_opened opened]

end Flushable

inductive Op where
  | put (key value : Bytes)
  | delete (key : Bytes)
  | write (writes : List Write)
  | flush
  | dropNotFlushed

def Op.run {S : Type} (store : Store S) (putting : Putting Bytes (Option Bytes))
    (w : Flushable S) : Op → Except Error (Flushable S)
  | .put key value => w.put putting (some key) (some value)
  | .delete key => w.delete putting key
  | .write writes => w.write putting writes
  | .flush =>
    match w.flush store with
    | (some err, _) => .error err
    | (none, w) => .ok w
  | .dropNotFlushed => w.dropNotFlushed

/-- What a flushable is for: a map and a copy of it that takes the writes. -/
structure Overlaid where
  base : Contents
  top : Contents

def Overlaid.step (m : Overlaid) : Op → Overlaid
  | .put key value => { m with top := m.top.apply ⟨key, some value⟩ }
  | .delete key => { m with top := m.top.apply ⟨key, none⟩ }
  | .write writes => { m with top := m.top.applyAll writes }
  | .flush => { m with base := m.top }
  | .dropNotFlushed => { m with top := m.base }

structure Shows {S : Type} {store : Store S} (map : OrderedMap store) (w : Flushable S)
    (m : Overlaid) : Prop where
  parent : map.Valid w.underlying
  base : map.contents w.underlying = m.base
  get : ∀ k, w.get store k = .ok (m.top k)
  has : ∀ k, w.has store k = .ok (m.top k).isSome
  iterate : ∀ pre start, ∃ pairs, w.newIterator store pre start = .ok pairs ∧
    m.top.Listing pre start pairs

/-- Every sequence of calls on a fresh flushable over a store behaves as the overlay. -/
def FaithfulOverlay {S : Type} {store : Store S} (map : OrderedMap store)
    (putting : Putting Bytes (Option Bytes)) : Prop :=
  ∀ s, map.Valid s → ∀ ops : List Op, ∃ w,
    ops.foldlM (Op.run store putting) (Flushable.wrap s) = .ok w ∧
    Shows map w (ops.foldl Overlaid.step ⟨map.contents s, map.contents s⟩)

section Faithful

variable {S : Type} {store : Store S} {map : OrderedMap store}
  (putting : Putting Bytes (Option Bytes)) {w : Flushable S} {m : Overlaid}

structure Tracks (map : OrderedMap store) (w : Flushable S) (m : Overlaid) : Prop where
  opened : ∃ tree, w.Opened map.toReadMap tree
  base : map.contents w.underlying = m.base
  top : w.contents map.toReadMap = m.top

theorem Tracks.shows (tracks : Tracks map w m) : Shows map w m := by
  obtain ⟨tree, opened⟩ := tracks.opened
  refine ⟨opened.1, tracks.base, ?_, ?_, ?_⟩
  · exact tracks.top ▸ Flushable.get_opened opened
  · exact tracks.top ▸ Flushable.has_opened opened
  · exact tracks.top ▸ Flushable.newIterator_opened opened

theorem Tracks.step (tracks : Tracks map w m) (op : Op) :
    ∃ w', Op.run store putting w op = .ok w' ∧ Tracks map w' (m.step op) := by
  obtain ⟨tree, opened⟩ := tracks.opened
  have one : ∀ kv : Write, ∃ w', w.modify putting kv = .ok w' ∧
      Tracks map w' { m with top := m.top.apply kv } := by
    intro kv
    obtain ⟨w', done, same, after, contents⟩ := Flushable.modify_opened putting opened kv
    exact ⟨w', done, ⟨_, after⟩, same ▸ tracks.base, by rw [contents, tracks.top]⟩
  cases op with
  | put key value => exact one ⟨key, some value⟩
  | delete key => exact one ⟨key, none⟩
  | write writes =>
    obtain ⟨w', tree', done, same, after, contents⟩ := Flushable.write_opened putting opened writes
    exact ⟨w', done, ⟨_, after⟩, same ▸ tracks.base, by rw [contents, tracks.top]; rfl⟩
  | flush =>
    obtain ⟨w', done, after, contents⟩ := Flushable.flush_opened opened
    refine ⟨w', by simp only [Op.run, done], ⟨_, after⟩, contents.trans tracks.top, ?_⟩
    rw [Flushable.contents_opened after, overlay_empty, contents, tracks.top]
    rfl
  | dropNotFlushed =>
    have after : ({ w with modified := some .empty, sizeEstimation := 0 } : Flushable S).Opened
        map.toReadMap .empty := ⟨opened.1, rfl⟩
    refine ⟨_, by rw [Op.run, Flushable.dropNotFlushed, opened.2], ⟨_, after⟩, tracks.base, ?_⟩
    rw [Flushable.contents_opened after, overlay_empty]
    exact tracks.base

theorem Tracks.run (ops : List Op) : ∀ {w : Flushable S} {m : Overlaid}, Tracks map w m →
    ∃ w', ops.foldlM (Op.run store putting) w = .ok w' ∧
      Tracks map w' (ops.foldl Overlaid.step m) := by
  induction ops with
  | nil => exact fun {w m} tracks => ⟨w, rfl, tracks⟩
  | cons op rest ih =>
    intro w m tracks
    obtain ⟨w₁, done, tracks₁⟩ := tracks.step putting op
    obtain ⟨w₂, later, tracks₂⟩ := ih tracks₁
    refine ⟨w₂, ?_, tracks₂⟩
    rw [List.foldlM_cons, done]
    exact later

theorem faithful_overlay (map : OrderedMap store) (putting : Putting Bytes (Option Bytes)) :
    FaithfulOverlay map putting := by
  intro s valid ops
  have start : Tracks map (Flushable.wrap s) ⟨map.contents s, map.contents s⟩ :=
    ⟨⟨.empty, valid, rfl⟩, rfl, overlay_empty _⟩
  obtain ⟨w, done, tracks⟩ := start.run putting ops
  exact ⟨w, done, tracks.shows⟩

end Faithful

def memorydb : Store (Flushable Unit) := Flushable.asStore devnulldb (.plain _ _)

def memorydb.orderedMap : OrderedMap memorydb := Flushable.orderedMap _ devnulldb.readMap

theorem creates_memorydb : Creates memorydb.orderedMap (.wrap ()) :=
  ⟨⟨.empty, trivial, rfl⟩, rfl⟩

/-- Over any ordered map, over a flushable, and over a table of one. -/
theorem flushable_faithful {S : Type} {store : Store S} (map : OrderedMap store)
    (putting : Putting Bytes (Option Bytes)) (pre : Bytes) :
    FaithfulOverlay map putting ∧
    FaithfulOverlay (Flushable.orderedMap putting map.toReadMap) putting ∧
    FaithfulOverlay (Table.orderedMap pre (Flushable.orderedMap putting map.toReadMap)) putting :=
  ⟨faithful_overlay _ _, faithful_overlay _ _, faithful_overlay _ _⟩

/-- A table over a memory database: a flushed pair, a hidden one and an empty key. -/
theorem flushable_faithful_memorydb : ∃ w,
    [Op.put [1] [2], .put [3] [4], .flush, .delete [1], .write [⟨[], some []⟩]].foldlM
      (Op.run (Table.asStore (Flushable.asStore memorydb (.plain _ _)) [7]) (.plain _ _))
      (Flushable.wrap (Flushable.wrap (Flushable.wrap ()))) = .ok w ∧
    w.get (Table.asStore (Flushable.asStore memorydb (.plain _ _)) [7]) [1] = .ok none ∧
    w.has (Table.asStore (Flushable.asStore memorydb (.plain _ _)) [7]) [3] = .ok true := by
  obtain ⟨w, done, shows⟩ := (flushable_faithful memorydb.orderedMap (.plain _ _) [7]).2.2
    (Flushable.wrap (Flushable.wrap ())) ⟨.empty, ⟨.empty, trivial, rfl⟩, rfl⟩
    [.put [1] [2], .put [3] [4], .flush, .delete [1], .write [⟨[], some []⟩]]
  exact ⟨w, done, shows.get [1], shows.has [3]⟩

end Lachesis.Kvdb
