import Lachesis.Kvdb.Snapshots

/-!
Tables as stores of their own: whole sequences of calls, batches that are replayed elsewhere,
snapshots, tables in tables, and tables beside each other.
-/

namespace Lachesis.Kvdb

inductive StoreOp where
  | put (key value : Bytes)
  | delete (key : Bytes)
  | write (writes : List Write)

namespace StoreOp

variable {S : Type}

def run (store : Store S) (s : S) : StoreOp → Except Error S
  | .put key value => store.put s key value
  | .delete key => store.delete s key
  | .write writes => store.write s writes

def step (m : Contents) : StoreOp → Contents
  | .put key value => m.apply ⟨key, some value⟩
  | .delete key => m.apply ⟨key, none⟩
  | .write writes => m.applyAll writes

theorem run_all {store : Store S} (map : OrderedMap store) (ops : List StoreOp) :
    ∀ {s : S}, map.Valid s → ∃ t, ops.foldlM (run store) s = .ok t ∧ map.Valid t ∧
      map.contents t = ops.foldl step (map.contents s) := by
  induction ops with
  | nil => exact fun {s} valid => ⟨s, rfl, valid, rfl⟩
  | cons op rest ih =>
    intro s valid
    have first : ∃ t, run store s op = .ok t ∧ map.Valid t ∧
        map.contents t = step (map.contents s) op := by
      cases op with
      | put key value => exact map.put valid key value
      | delete key => exact map.delete valid key
      | write writes => exact map.write valid writes
    obtain ⟨t, done, after, contents⟩ := first
    obtain ⟨u, later, last, contents'⟩ := ih after
    refine ⟨u, ?_, last, ?_⟩
    · rw [List.foldlM_cons, done]
      exact later
    · rw [contents', contents, List.foldl_cons]

end StoreOp

structure ReadsAs {S : Type} (store : Store S) (s : S) (m : Contents) : Prop where
  has : ∀ k, store.has s k = .ok (m k).isSome
  get : ∀ k, store.get s k = .ok (m k)
  newIterator : ∀ pre start, ∃ pairs, store.newIterator s pre start = .ok pairs ∧
    m.Listing pre start pairs

variable {S : Type} {s : S} {store : Store S}

theorem ReadMap.readsAs (map : ReadMap store) (valid : map.Valid s) :
    ReadsAs store s (map.contents s) :=
  ⟨map.has valid, map.get valid, map.newIterator valid⟩

structure ReadsEqual {S T : Type} (store : Store S) (s : S) (store' : Store T) (t : T) : Prop where
  has : ∀ k, store.has s k = store'.has t k
  get : ∀ k, store.get s k = store'.get t k
  newIterator : ∀ pre start, store.newIterator s pre start = store'.newIterator t pre start

theorem ReadsAs.equal {T : Type} {store' : Store T} {t : T} {m : Contents}
    (reads : ReadsAs store s m) (reads' : ReadsAs store' t m) : ReadsEqual store s store' t := by
  constructor
  · intro k
    rw [reads.has, reads'.has]
  · intro k
    rw [reads.get, reads'.get]
  · intro pre start
    obtain ⟨pairs, found, listing⟩ := reads.newIterator pre start
    obtain ⟨pairs', found', listing'⟩ := reads'.newIterator pre start
    rw [found, found', listing.unique listing']

structure Writer (W : Type) where
  put : W → Bytes → Bytes → Except Error W
  delete : W → Bytes → Except Error W

def Writer.replay {W : Type} (writer : Writer W) (writes : List Write) (w : W) : Except Error W :=
  writes.foldlM (fun w kv =>
    match kv.value with
    | none => writer.delete w kv.key
    | some value => writer.put w kv.key value) w

namespace Table

variable {S Snap : Type} {store : Store S} {snaps : Snapshots S Snap} {pre other : Bytes}

section Batch

variable {W : Type}

def batchAdd (pre : Bytes) (batch : List Write) (kv : Write) : List Write :=
  batch ++ [prefixedWrite pre kv]

def replayer (writer : Writer W) (pre : Bytes) : Writer W where
  put w key value := writer.put w (noPrefix key pre) value
  delete w key := writer.delete w (noPrefix key pre)

def batchReplay (pre : Bytes) (batch : List Write) (writer : Writer W) (w : W) : Except Error W :=
  (replayer writer pre).replay batch w

theorem foldl_batchAdd (writes batch : List Write) :
    writes.foldl (batchAdd pre) batch = batch ++ writes.map (prefixedWrite pre) := by
  induction writes generalizing batch with
  | nil => exact (List.append_nil batch).symm
  | cons kv rest ih => simp [batchAdd, ih]

theorem replay_prefixed (writer : Writer W) (writes : List Write) (w : W) :
    (replayer writer pre).replay (writes.map (prefixedWrite pre)) w = writer.replay writes w := by
  rw [Writer.replay, Writer.replay, List.foldlM_map]
  congr 1
  funext w kv
  obtain ⟨key, value⟩ := kv
  cases value <;> simp [prefixedWrite, replayer, prefixed_eq, noPrefix_append]

end Batch

theorem part_append (outer inner : Bytes) (m : Contents) :
    part inner (part outer m) = part (outer ++ inner) m := by
  funext k
  rw [part, part, part, List.append_assoc]

theorem prefixedWrite_append (outer inner : Bytes) (writes : List Write) :
    (writes.map (prefixedWrite inner)).map (prefixedWrite outer) =
      writes.map (prefixedWrite (outer ++ inner)) := by
  rw [List.map_map]
  congr 1
  funext kv
  simp [prefixedWrite, prefixed_eq]

structure Nested (store : Store S) (outer inner : Bytes) : Prop where
  put : (asStore (asStore store outer) inner).put = (asStore store (outer ++ inner)).put
  delete : (asStore (asStore store outer) inner).delete = (asStore store (outer ++ inner)).delete
  write : (asStore (asStore store outer) inner).write = (asStore store (outer ++ inner)).write
  valueSize : (asStore (asStore store outer) inner).valueSize =
    (asStore store (outer ++ inner)).valueSize

theorem nested (outer inner : Bytes) : Nested store outer inner := by
  constructor
  · funext s key value
    simp only [asStore, prefixed_eq, List.append_assoc]
  · funext s key
    simp only [asStore, prefixed_eq, List.append_assoc]
  · funext s writes
    simp only [asStore, prefixedWrite_append]
  · funext writes
    simp only [asStore, prefixedWrite_append]

theorem append_ne (apart : ¬ pre <+: other) (apart' : ¬ other <+: pre) (k l : Bytes) :
    pre ++ k ≠ other ++ l := by
  intro same
  rcases List.prefix_or_prefix_of_prefix (List.prefix_append pre k)
    (same ▸ List.prefix_append other l) with begins | begins
  · exact apart begins
  · exact apart' begins

theorem part_apply_other (apart : ¬ pre <+: other) (apart' : ¬ other <+: pre) (m : Contents)
    (kv : Write) : part other (m.apply (prefixedWrite pre kv)) = part other m := by
  funext k
  rw [part, Contents.apply, prefixedWrite, prefixed_eq]
  exact Function.update_of_ne (append_ne apart apart' kv.key k).symm ..

theorem part_applyAll_other (apart : ¬ pre <+: other) (apart' : ¬ other <+: pre)
    (writes : List Write) (m : Contents) :
    part other (m.applyAll (writes.map (prefixedWrite pre))) = part other m := by
  induction writes generalizing m with
  | nil => rfl
  | cons kv rest ih =>
    rw [List.map_cons, Contents.applyAll, List.foldl_cons, ← Contents.applyAll, ih,
      part_apply_other apart apart']

def underlyingOp (pre : Bytes) : StoreOp → StoreOp
  | .put key value => .put (prefixed key pre) value
  | .delete key => .delete (prefixed key pre)
  | .write writes => .write (writes.map (prefixedWrite pre))

theorem run_underlying (ops : List StoreOp) (s : S) :
    ops.foldlM (StoreOp.run (asStore store pre)) s =
      (ops.map (underlyingOp pre)).foldlM (StoreOp.run store) s := by
  rw [List.foldlM_map]
  congr 1
  funext s op
  cases op <;> rfl

theorem part_step (m : Contents) (op : StoreOp) :
    part pre (StoreOp.step m (underlyingOp pre op)) = StoreOp.step (part pre m) op := by
  cases op with
  | put key value => exact part_apply m ⟨key, some value⟩
  | delete key => exact part_apply m ⟨key, none⟩
  | write writes => exact part_applyAll m writes

theorem part_step_other (apart : ¬ pre <+: other) (apart' : ¬ other <+: pre) (m : Contents)
    (op : StoreOp) : part other (StoreOp.step m (underlyingOp pre op)) = part other m := by
  cases op with
  | put key value => exact part_apply_other apart apart' m ⟨key, some value⟩
  | delete key => exact part_apply_other apart apart' m ⟨key, none⟩
  | write writes => exact part_applyAll_other apart apart' writes m

theorem part_run (ops : List StoreOp) (m : Contents) :
    part pre ((ops.map (underlyingOp pre)).foldl StoreOp.step m) =
      ops.foldl StoreOp.step (part pre m) := by
  induction ops generalizing m with
  | nil => rfl
  | cons op rest ih => rw [List.map_cons, List.foldl_cons, ih, part_step, List.foldl_cons]

theorem part_run_other (apart : ¬ pre <+: other) (apart' : ¬ other <+: pre) (ops : List StoreOp)
    (m : Contents) :
    part other ((ops.map (underlyingOp pre)).foldl StoreOp.step m) = part other m := by
  induction ops generalizing m with
  | nil => rfl
  | cons op rest ih => rw [List.map_cons, List.foldl_cons, ih, part_step_other apart apart']

theorem holds_run {map : ReadMap store} (parent : Frozen map snaps) {snap : Snap} {m : Contents}
    (ops : List StoreOp) {s t : S} (holds : parent.Holds s snap m)
    (done : ops.foldlM (StoreOp.run store) s = .ok t) : parent.Holds t snap m := by
  induction ops generalizing s with
  | nil =>
    cases done
    exact holds
  | cons op rest ih =>
    rw [List.foldlM_cons] at done
    cases first : StoreOp.run store s op with
    | error err =>
      rw [first] at done
      cases done
    | ok u =>
      rw [first] at done
      refine ih ?_ done
      cases op with
      | put key value => exact parent.put holds first
      | delete key => exact parent.delete holds first
      | write writes => exact parent.write holds first

/-- Tables are faithful, isolated parts of an ordered map, and so are their batches, their snapshots and
the tables in them. -/
theorem tables_faithful {S Snap : Type} {store : Store S} {snaps : Snapshots S Snap}
    (map : OrderedMap store) (parent : Frozen map.toReadMap snaps) (pre : Bytes) {s : S}
    (valid : map.Valid s) :
    (∀ ops : List StoreOp, ∃ t, ops.foldlM (StoreOp.run (asStore store pre)) s = .ok t ∧
      map.Valid t ∧
      ReadsAs (asStore store pre) t (ops.foldl StoreOp.step (part pre (map.contents s))) ∧
      ∀ other, ¬ pre <+: other → ¬ other <+: pre →
        ReadsEqual (asStore store other) t (asStore store other) s) ∧
    (∀ {W : Type} (writer : Writer W) (writes : List Write) (w : W),
      batchReplay pre (writes.foldl (batchAdd pre) []) writer w = writer.replay writes w) ∧
    (∃ snap, (snapshots snaps pre).getSnapshot s = .ok snap ∧
      ∀ (ops : List StoreOp) t, ops.foldlM (StoreOp.run (asStore store pre)) s = .ok t →
        ReadsAs (snapshots snaps pre).asStore (t, snap) (part pre (map.contents s))) ∧
    ∀ inner, Nested store pre inner ∧
      ReadsEqual (asStore (asStore store pre) inner) s (asStore store (pre ++ inner)) s := by
  refine ⟨fun ops => ?_, fun writer writes w => ?_, ?_, fun inner => ⟨nested pre inner, ?_⟩⟩
  · obtain ⟨t, done, after, contents⟩ :=
      StoreOp.run_all map (ops.map (underlyingOp pre)) valid
    refine ⟨t, (run_underlying ops s).trans done, after, ?_, fun other apart apart' => ?_⟩
    · rw [← part_run, ← contents]
      exact (orderedMap pre map).readsAs after
    · have same : part other (map.contents t) = part other (map.contents s) := by
        rw [contents, part_run_other apart apart']
      refine ((orderedMap other map).readsAs after).equal ?_
      change ReadsAs _ s (part other (map.contents t))
      rw [same]
      exact (orderedMap other map).readsAs valid
  · rw [foldl_batchAdd, List.nil_append]
    exact replay_prefixed writer writes w
  · obtain ⟨snap, taken, holds⟩ := (Table.frozen pre parent).take valid
    refine ⟨snap, taken, fun ops t done => ?_⟩
    have later := holds_run (Table.frozen pre parent) ops holds done
    exact ⟨(Table.frozen pre parent).has later, (Table.frozen pre parent).get later,
      (Table.frozen pre parent).newIterator later⟩
  · refine ((orderedMap inner (orderedMap pre map)).readsAs valid).equal ?_
    change ReadsAs _ s (part inner (part pre (map.contents s)))
    rw [part_append]
    exact (orderedMap (pre ++ inner) map).readsAs valid

/-- Two tables over a memory database. -/
theorem tables_faithful_memorydb : ∃ t,
    [StoreOp.put [7] [8], .write [⟨[9], none⟩]].foldlM (StoreOp.run (asStore memorydb [1])) (.wrap ()) =
      .ok t ∧
    (asStore memorydb [1]).get t [7] = .ok (some [8]) ∧
    ReadsEqual (asStore memorydb [2]) t (asStore memorydb [2]) (.wrap ()) := by
  obtain ⟨t, done, _, reads, apart⟩ := (tables_faithful memorydb.orderedMap
    (Flushable.frozen (.plain _ _) devnulldb.frozen) [1] (s := .wrap ()) ⟨.empty, trivial, rfl⟩).1
    [.put [7] [8], .write [⟨[9], none⟩]]
  exact ⟨t, done, reads.get [7], apart [2] (by decide) (by decide)⟩

end Table

end Lachesis.Kvdb
