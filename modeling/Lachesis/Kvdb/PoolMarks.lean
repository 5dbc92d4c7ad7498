import Lachesis.Kvdb.SyncedPool
import Lachesis.Library.Transition

/-!
The flags that a flush leaves. A flush that was stopped before its end has changed nothing,
or it has left a database with a dirty flag or none; `CheckDBsSynced` accepts neither.
-/

namespace Lachesis.Kvdb

open SearchTree

section Check

variable {S : Type} {store : Store S} (map : ReadMap store) {flushIDKey : Bytes}

structure Synced (flushIDKey : Bytes) (dbs : List (Name × S)) (flushID accepted : Option Bytes) :
    Prop where
  marks : ∀ x ∈ dbs, ∀ mark, map.contents x.2 flushIDKey = some mark →
    ¬ [dirtyPrefix] <+: mark ∧ accepted = some mark
  given : ∀ id, flushID = some id → accepted = some id
  found : flushID = none → ∀ id, accepted = some id →
    ∃ x ∈ dbs, map.contents x.2 flushIDKey = some id
  all : accepted ≠ none → ∀ x ∈ dbs, map.contents x.2 flushIDKey ≠ none

variable {map}

variable {dbs : List (Name × S)}

theorem checkRest_iff (valid : ∀ x ∈ dbs, map.Valid x.2) (flushID accepted : Option Bytes)
    (descrs : List (Name × Bytes)) (nonInit : Bool) :
    checkRest store flushIDKey dbs flushID descrs nonInit = (accepted, none) ↔
      Synced map flushIDKey dbs flushID accepted ∧ (accepted ≠ none → nonInit = false) := by
  induction dbs generalizing flushID descrs nonInit with
  | nil =>
    have same : Synced map flushIDKey [] flushID accepted ↔ accepted = flushID := by
      constructor
      · intro synced
        cases flushID with
        | some id => exact synced.given id rfl
        | none =>
          cases accepted with
          | none => rfl
          | some id =>
            obtain ⟨_, absurd, _⟩ := synced.found rfl id rfl
            cases absurd
      · rintro rfl
        exact ⟨nofun, fun _ eq => eq, fun none id some => (nomatch none.symm.trans some), nofun⟩
    rw [checkRest, same]
    cases flushID <;> cases nonInit <;> simp +contextual [eq_comm]
  | cons x rest ih =>
    have own := valid x List.mem_cons_self
    have later := fun y inside => valid y (List.mem_cons_of_mem x inside)
    rw [checkRest, map.get own]
    cases mark : map.contents x.2 flushIDKey with
    | none =>
      dsimp only
      rw [ih later]
      constructor
      · rintro ⟨synced, init⟩
        have unset : accepted = none := not_not.mp fun set => (nomatch init set)
        subst unset
        refine ⟨⟨fun y inside m has => ?_, synced.given, nofun, fun set => absurd rfl set⟩,
          fun set => absurd rfl set⟩
        rcases List.mem_cons.mp inside with rfl | after
        · exact (nomatch mark.symm.trans has)
        · exact synced.marks y after m has
      · rintro ⟨synced, _⟩
        have unset : accepted = none := not_not.mp fun set =>
          synced.all set x List.mem_cons_self mark
        subst unset
        exact ⟨⟨fun y inside => synced.marks y (List.mem_cons_of_mem _ inside), synced.given,
          nofun, fun set => absurd rfl set⟩, fun set => absurd rfl set⟩
    | some m =>
      dsimp only
      split
      · next dirty =>
        refine ⟨nofun, fun ⟨synced, _⟩ => absurd dirty ?_⟩
        exact (synced.marks x List.mem_cons_self m mark).1
      · next clean =>
        split
        · next other =>
          refine ⟨nofun, fun ⟨synced, _⟩ => ?_⟩
          cases flushID with
          | none => exact absurd rfl other
          | some id =>
            have eq := (synced.given id rfl).symm.trans
              (synced.marks x List.mem_cons_self m mark).2
            exact absurd (Option.some.inj eq).symm other
        · next same =>
          have eq : flushID.getD m = m := (not_not.mp same).symm
          rw [eq, ih later]
          refine and_congr_left fun _ => ⟨fun synced => ⟨fun y inside m' has => ?_, ?_, ?_, ?_⟩,
            fun synced => ⟨?_, ?_, nofun, ?_⟩⟩
          · rcases List.mem_cons.mp inside with rfl | after
            · rw [mark] at has
              cases has
              exact ⟨clean, synced.given m rfl⟩
            · exact synced.marks y after m' has
          · rintro id rfl
            rw [synced.given m rfl, ← eq]
            rfl
          · intro _ id has
            cases (synced.given m rfl).symm.trans has
            exact ⟨x, List.mem_cons_self, mark⟩
          · intro set y inside
            rcases List.mem_cons.mp inside with rfl | after
            · rw [mark]
              nofun
            · exact synced.all set y after
          · exact fun y inside => synced.marks y (List.mem_cons_of_mem _ inside)
          · rintro _ ⟨⟩
            exact (synced.marks x List.mem_cons_self m mark).2
          · exact fun set y inside => synced.all set y (List.mem_cons_of_mem _ inside)

theorem checkDBsSynced_iff (valid : ∀ x ∈ dbs, map.Valid x.2) (flushID accepted : Option Bytes) :
    checkDBsSynced store dbs flushIDKey flushID = (accepted, none) ↔
      Synced map flushIDKey dbs flushID accepted := by
  rw [checkDBsSynced, checkRest_iff valid]
  exact and_iff_left fun _ => rfl

theorem Synced.perm {dbs' : List (Name × S)} {flushID accepted : Option Bytes}
    (perm : dbs.Perm dbs') (synced : Synced map flushIDKey dbs flushID accepted) :
    Synced map flushIDKey dbs' flushID accepted where
  marks x inside := synced.marks x (perm.mem_iff.mpr inside)
  given := synced.given
  found none id has := by
    obtain ⟨x, inside, mark⟩ := synced.found none id has
    exact ⟨x, perm.mem_iff.mp inside, mark⟩
  all set x inside := synced.all set x (perm.mem_iff.mpr inside)

end Check

section Effects

def Effect.target : Effect → Name
  | .openDB name => name
  | .put name _ _ => name
  | .write name _ => name
  | .close name => name
  | .drop name => name

def Effect.act : Effect → Option Contents → Option Contents
  | .openDB _, db => some (db.getD fun _ => none)
  | .put _ key value, db => db.map fun m => m.apply ⟨key, some value⟩
  | .write _ batch, db => db.map fun m => m.applyAll batch
  | .close _, db => db
  | .drop _, _ => none

variable {S : Type} {store : Store S} (map : OrderedMap store)

def DiskValid (disk : Disk S) : Prop := ∀ name db, disk name = some db → map.Valid db

def view (disk : Disk S) (name : Name) : Option Contents := (disk name).map map.contents

variable {map} {fresh : S} (creates : Creates map fresh) {disk disk' : Disk S}

theorem DiskValid.update (valid : DiskValid map disk) {name : Name} {db : Option S}
    (own : ∀ s, db = some s → map.Valid s) : DiskValid map (Function.update disk name db) := by
  intro other s has
  by_cases same : other = name
  · subst same
    rw [Function.update_self] at has
    exact own s has
  · rw [Function.update_of_ne same] at has
    exact valid other s has

theorem view_update (disk : Disk S) (name : Name) (db : Option S) (other : Name) :
    view map (Function.update disk name db) other =
      if name = other then db.map map.contents else view map disk other := by
  by_cases same : other = name
  · subst same
    simp [view]
  · rw [if_neg (Ne.symm same), view, Function.update_of_ne same]
    rfl

theorem Effect.view_own (e : Effect) {db : Option S}
    (own : db.map map.contents = e.act (view map disk e.target)) (name : Name) :
    view map (Function.update disk e.target db) name =
      if e.target = name then e.act (view map disk name) else view map disk name := by
  rw [view_update]
  by_cases same : e.target = name
  · rw [if_pos same, if_pos same, own, same]
  · rw [if_neg same, if_neg same]

include creates in
theorem Effect.run_view (valid : DiskValid map disk) {e : Effect}
    (run : e.run store fresh disk = .ok disk') : DiskValid map disk' ∧
      ∀ name, view map disk' name =
        if e.target = name then e.act (view map disk name) else view map disk name := by
  cases e with
  | openDB name =>
    cases run
    refine ⟨valid.update fun s eq => ?_, Effect.view_own (.openDB name) ?_⟩
    · cases eq
      cases known : disk name with
      | none => exact creates.valid
      | some db => exact valid name db known
    · rw [target, view]
      cases disk name with
      | none => simp [act, creates.empty]
      | some db => rfl
  | put name key value =>
    simp only [Effect.run] at run
    split at run
    · cases run
    · next db known =>
      obtain ⟨t, done, after, contents⟩ := map.put (valid name db known) key value
      rw [done] at run
      cases run
      refine ⟨valid.update fun s eq => by cases eq; exact after,
        Effect.view_own (.put name key value) ?_⟩
      rw [target, view, known, Option.map_some, contents]
      rfl
  | write name batch =>
    simp only [Effect.run] at run
    split at run
    · cases run
    · next db known =>
      obtain ⟨t, done, after, contents⟩ := map.write (valid name db known) batch
      rw [done] at run
      cases run
      refine ⟨valid.update fun s eq => by cases eq; exact after,
        Effect.view_own (.write name batch) ?_⟩
      rw [target, view, known, Option.map_some, contents]
      rfl
  | close name =>
    cases run
    exact ⟨valid, fun other => (ite_self _).symm⟩
  | drop name =>
    cases run
    exact ⟨valid.update (by simp), Effect.view_own (.drop name) rfl⟩

theorem runEffects_cons {e : Effect} {rest : List Effect}
    (run : runEffects store fresh disk (e :: rest) = .ok disk') :
    ∃ mid, e.run store fresh disk = .ok mid ∧ runEffects store fresh mid rest = .ok disk' := by
  rw [runEffects, List.foldlM_cons] at run
  cases first : e.run store fresh disk with
  | error err =>
    rw [first] at run
    cases run
  | ok mid =>
    rw [first] at run
    exact ⟨mid, rfl, run⟩

include creates in
theorem runEffects_view : ∀ {effects : List Effect} {disk : Disk S}, DiskValid map disk →
    runEffects store fresh disk effects = .ok disk' → DiskValid map disk' ∧
      ∀ name, view map disk' name =
        (effects.filter fun e => e.target = name).foldl (fun db e => e.act db)
          (view map disk name) := by
  intro effects
  induction effects with
  | nil =>
    intro disk valid run
    cases run
    exact ⟨valid, fun _ => rfl⟩
  | cons e rest ih =>
    intro disk valid run
    obtain ⟨mid, first, later⟩ := runEffects_cons run
    obtain ⟨validMid, viewMid⟩ := Effect.run_view creates valid first
    obtain ⟨valid', view'⟩ := ih validMid later
    refine ⟨valid', fun name => ?_⟩
    rw [view', viewMid]
    by_cases own : e.target = name
    · rw [if_pos own, List.filter_cons_of_pos (by simpa using own), List.foldl_cons]
    · rw [if_neg own, List.filter_cons_of_neg (by simpa using own)]

theorem filter_flatMap_own {order : List Name} (nodup : order.Nodup) {block : Name → List Effect}
    (own : ∀ name, ∀ e ∈ block name, e.target = name) (name : Name) :
    (order.flatMap block).filter (fun e => e.target = name) =
      if name ∈ order then block name else [] := by
  induction order with
  | nil => rfl
  | cons first rest ih =>
    obtain ⟨notLater, nodup⟩ := List.nodup_cons.mp nodup
    rw [List.flatMap_cons, List.filter_append, ih nodup]
    by_cases same : name = first
    · subst same
      rw [if_neg notLater, if_pos List.mem_cons_self, List.append_nil,
        List.filter_eq_self.mpr fun e inside => by simpa using own name e inside]
    · have none : (block first).filter (fun e => e.target = name) = [] :=
        List.filter_eq_nil_iff.mpr fun e inside => by
          simpa [own first e inside] using Ne.symm same
      rw [none, List.nil_append]
      simp [same]

end Effects

section Flush

open SyncedPool

variable {S : Type} {store : Store S} {flushIDKey : Bytes}

theorem lookup_foldl_erase (names : List Name) (wrappers : Wrappers) (name : Name) :
    (names.foldl (fun wrappers name => wrappers.erase name) wrappers).lookup name =
      if name ∈ names then none else wrappers.lookup name := by
  induction names generalizing wrappers with
  | nil => rfl
  | cons first rest ih =>
    rw [List.foldl_cons, ih]
    by_cases same : name = first
    · subst same
      simp
    · rw [AList.lookup_erase_ne same]
      simp [same]

theorem remaining_lookup (pool : SyncedPool) (name : Name) : pool.remaining.lookup name =
    if name ∈ pool.queuedDrops then none else pool.wrappers.lookup name :=
  lookup_foldl_erase ..

theorem lookup_foldl_insert (names : List Name) (w : LazyFlushable) (wrappers : Wrappers)
    (name : Name) : (names.foldl (fun wrappers name => wrappers.insert name w) wrappers).lookup name =
      if name ∈ names then some w else wrappers.lookup name := by
  induction names generalizing wrappers with
  | nil => rfl
  | cons first rest ih =>
    rw [List.foldl_cons, ih]
    by_cases same : name = first
    · subst same
      simp
    · rw [AList.lookup_insert_ne same]
      simp [same]

variable {name : Name} {w : LazyFlushable} {wrappers : Wrappers}

theorem mem_keys_of_lookup (found : wrappers.lookup name = some w) : name ∈ wrappers.keys :=
  AList.mem_keys.mp (AList.lookup_isSome.mp (Option.isSome_of_eq_some found))

theorem not_mem_keys_of_lookup (absent : wrappers.lookup name = none) : name ∉ wrappers.keys :=
  fun inside => AList.lookup_eq_none.mp absent (AList.mem_keys.mpr inside)

section Blocks

variable (wrappers : Wrappers) (id : Bytes) {order : List Name} (nodup : order.Nodup) (name : Name)

include nodup

theorem dropEffects_own : (dropEffects wrappers order).filter (fun e => e.target = name) =
    if name ∈ order then dropEffects wrappers [name] else [] := by
  rw [dropEffects, filter_flatMap_own nodup]
  · simp [dropEffects]
  · intro other e inside
    split at inside
    · cases inside
    · split at inside
      · rcases List.mem_pair.mp inside with rfl | rfl <;> rfl
      · cases inside

theorem dirtyEffects_own :
    (dirtyEffects flushIDKey wrappers id order).filter (fun e => e.target = name) =
      if name ∈ order then dirtyEffects flushIDKey wrappers id [name] else [] := by
  rw [dirtyEffects, filter_flatMap_own nodup]
  · simp [dirtyEffects]
  · intro other e inside
    split at inside
    · cases inside
    · rcases List.mem_append.mp inside with init | mark
      · rw [initUnderlyingDb] at init
        split at init
        · cases init
        · rw [List.mem_singleton.mp init]
          rfl
      · rw [List.mem_singleton.mp mark]
        rfl

theorem dataEffects_own : (dataEffects store wrappers order).filter (fun e => e.target = name) =
    if name ∈ order then dataEffects store wrappers [name] else [] := by
  rw [dataEffects, filter_flatMap_own nodup]
  · simp [dataEffects]
  · intro other e inside
    split at inside
    · cases inside
    · obtain ⟨_, _, rfl⟩ := List.mem_map.mp inside
      rfl

theorem cleanEffects_own :
    (cleanEffects flushIDKey wrappers id order).filter (fun e => e.target = name) =
      if name ∈ order then cleanEffects flushIDKey wrappers id [name] else [] := by
  rw [cleanEffects, filter_flatMap_own nodup]
  · simp [cleanEffects]
  · intro other e inside
    split at inside
    · cases inside
    · rw [List.mem_singleton.mp inside]
      rfl

end Blocks

theorem SyncedPool.Walks.nodup {pool : SyncedPool} {orders : Orders} (walks : pool.Walks orders) :
    orders.dirty.Nodup ∧ orders.data.Nodup ∧ orders.clean.Nodup :=
  ⟨walks.dirty.nodup_iff.mpr pool.remaining.keys_nodup,
    walks.data.nodup_iff.mpr pool.remaining.keys_nodup,
    walks.clean.nodup_iff.mpr pool.remaining.keys_nodup⟩

variable {pool : SyncedPool} {orders : Orders} {id : Bytes}

theorem flushEffects_kept (walks : pool.Walks orders) (queued : pool.queuedDrops.Nodup)
    (found : pool.remaining.lookup name = some w) :
    (pool.flushEffects store flushIDKey id orders).filter (fun e => e.target = name) =
      initUnderlyingDb name w ++ (markFlushID name flushIDKey dirtyPrefix id ::
        ((Flushable.subBatches store w.modified.toList []).map (Effect.write name) ++
          [markFlushID name flushIDKey cleanPrefix id])) := by
  obtain ⟨dirty, data, clean⟩ := walks.nodup
  have key := mem_keys_of_lookup found
  have notDropped : name ∉ orders.drops := fun inside => by
    rw [remaining_lookup, if_pos (walks.drops.mem_iff.mp inside)] at found
    cases found
  rw [flushEffects, List.filter_append, List.filter_append, List.filter_append,
    dropEffects_own _ (walks.drops.nodup_iff.mpr queued), if_neg notDropped,
    dirtyEffects_own _ _ dirty, if_pos (walks.dirty.mem_iff.mpr key),
    dataEffects_own _ data, if_pos (walks.data.mem_iff.mpr key),
    cleanEffects_own _ _ clean, if_pos (walks.clean.mem_iff.mpr key)]
  simp [dirtyEffects, dataEffects, cleanEffects, found]

theorem flushEffects_other (walks : pool.Walks orders) (queued : pool.queuedDrops.Nodup)
    (absent : pool.remaining.lookup name = none) :
    (pool.flushEffects store flushIDKey id orders).filter (fun e => e.target = name) =
      dropEffects pool.wrappers [name] := by
  obtain ⟨dirty, data, clean⟩ := walks.nodup
  have key := not_mem_keys_of_lookup absent
  rw [flushEffects, List.filter_append, List.filter_append, List.filter_append,
    dropEffects_own _ (walks.drops.nodup_iff.mpr queued),
    dirtyEffects_own _ _ dirty, if_neg fun inside => key (walks.dirty.mem_iff.mp inside),
    dataEffects_own _ data, if_neg fun inside => key (walks.data.mem_iff.mp inside),
    cleanEffects_own _ _ clean, if_neg fun inside => key (walks.clean.mem_iff.mp inside),
    List.append_nil, List.append_nil, List.append_nil]
  split
  · rfl
  · next notQueued =>
    have unknown : pool.wrappers.lookup name = none := by
      rw [remaining_lookup, if_neg fun inside => notQueued (walks.drops.mem_iff.mpr inside)] at absent
      exact absent
    simp [dropEffects, unknown]

theorem foldl_write (name : Name) (batches : List (List Write)) (m : Contents) :
    (batches.map (Effect.write name)).foldl (fun db e => e.act db) (some m) =
      some (m.applyAll batches.flatten) := by
  induction batches generalizing m with
  | nil => rfl
  | cons batch rest ih =>
    rw [List.map_cons, List.foldl_cons, List.flatten_cons, Contents.applyAll_append]
    exact ih _

theorem overlay_flags (base : Contents) (tree : Modified) (key : Bytes) (dirty clean : Bytes) :
    (overlay (base.apply ⟨key, some dirty⟩) tree).apply ⟨key, some clean⟩ =
      (overlay base tree).apply ⟨key, some clean⟩ := by
  funext k
  by_cases same : k = key
  · simp [Contents.apply, same]
  · simp only [Contents.apply, overlay, Function.update_of_ne same]

variable {map : OrderedMap store} {fresh : S}

theorem flush_view (creates : Creates map fresh) {s : Session S} {disk' : Disk S}
    (valid : DiskValid map s.disk) (queued : s.pool.queuedDrops.Nodup)
    (linked : ∀ name w, s.pool.remaining.lookup name = some w → w.initialised = true →
      (s.disk name).isSome) (walks : s.pool.Walks orders)
    (run : runEffects store fresh s.disk (s.pool.flushEffects store flushIDKey id orders) =
      .ok disk') (name : Name) :
    view map disk' name = s.flushedData map.contents flushIDKey id name := by
  rw [(runEffects_view creates valid run).2, Session.flushedData]
  cases found : s.pool.remaining.lookup name with
  | some w =>
    have opened : (initUnderlyingDb name w).foldl (fun db e => e.act db) (view map s.disk name) =
        some ((view map s.disk name).getD fun _ => none) := by
      rw [initUnderlyingDb]
      split
      · next ready =>
        obtain ⟨db, known⟩ := Option.isSome_iff_exists.mp (linked name w found ready)
        rw [view, known]
        rfl
      · rfl
    let base : Contents := (view map s.disk name).getD fun _ => none
    have marked : (markFlushID name flushIDKey dirtyPrefix id).act (some base) =
        some (base.apply ⟨flushIDKey, some (dirtyPrefix :: id)⟩) := rfl
    rw [flushEffects_kept walks queued found, List.foldl_append, opened, List.foldl_cons, marked,
      List.foldl_append, foldl_write, Flushable.subBatches_flatten, List.nil_append, applyAll_tree]
    exact congrArg some (overlay_flags base w.modified flushIDKey _ _)
  | none =>
    rw [flushEffects_other walks queued found, dropEffects, List.flatMap_singleton]
    cases s.pool.wrappers.lookup name with
    | none => rfl
    | some w =>
      dsimp only
      split <;> rfl

end Flush

section Torn

open SyncedPool

variable {S : Type} {store : Store S} {map : OrderedMap store} {fresh : S} {flushIDKey : Bytes}
  {pool : SyncedPool} {orders : Orders} {id : Bytes} {disk disk' : Disk S}

def Effect.Touches (flushIDKey : Bytes) (name : Name) (e : Effect) : Prop :=
  e = .drop name ∨ (∃ value, e = .put name flushIDKey value) ∨
    ∃ batch, e = .write name batch ∧ ∃ kv ∈ batch, kv.key = flushIDKey

theorem applyAll_untouched {m : Contents} {writes : List Write} {k : Bytes}
    (others : ∀ kv ∈ writes, kv.key ≠ k) : m.applyAll writes k = m k := by
  induction writes generalizing m with
  | nil => rfl
  | cons kv rest ih =>
    rw [Contents.applyAll, List.foldl_cons, ← Contents.applyAll,
      ih fun kv' inside => others kv' (List.mem_cons_of_mem kv inside)]
    exact Function.update_of_ne (others kv List.mem_cons_self).symm ..

def HasMark (map : OrderedMap store) (flushIDKey : Bytes) (disk : Disk S) (name : Name)
    (mark : Bytes) : Prop :=
  ∃ m, view map disk name = some m ∧ m flushIDKey = some mark

theorem HasMark.run (creates : Creates map fresh) (valid : DiskValid map disk) {name : Name}
    {mark : Bytes} (has : HasMark map flushIDKey disk name mark) {e : Effect}
    (run : e.run store fresh disk = .ok disk') (untouched : ¬ e.Touches flushIDKey name) :
    HasMark map flushIDKey disk' name mark := by
  obtain ⟨m, known, is⟩ := has
  have after := (Effect.run_view creates valid run).2 name
  by_cases own : e.target = name
  · rw [if_pos own, known] at after
    subst own
    cases e with
    | openDB name => exact ⟨m, after, is⟩
    | put name key value =>
      have other : flushIDKey ≠ key := fun same => untouched (.inr (.inl ⟨value, by rw [same]; rfl⟩))
      exact ⟨_, after, (Function.update_of_ne other ..).trans is⟩
    | write name batch =>
      refine ⟨_, after, (applyAll_untouched fun kv inside same => ?_).trans is⟩
      exact untouched (.inr (.inr ⟨batch, rfl, kv, inside, same⟩))
    | close name => exact ⟨m, after, is⟩
    | drop name => exact absurd (.inl rfl) untouched
  · rw [if_neg own, known] at after
    exact ⟨m, after, is⟩

variable {effects : List Effect}

theorem runEffects_snoc {e : Effect}
    (run : runEffects store fresh disk (effects ++ [e]) = .ok disk') :
    ∃ mid, runEffects store fresh disk effects = .ok mid ∧ e.run store fresh mid = .ok disk' := by
  rw [runEffects, List.foldlM_append] at run
  cases first : runEffects store fresh disk effects with
  | error err =>
    rw [← runEffects, first] at run
    cases run
  | ok mid =>
    rw [← runEffects, first] at run
    obtain ⟨last, done, rest⟩ := runEffects_cons run
    cases rest
    exact ⟨mid, rfl, done⟩

theorem mark_put (creates : Creates map fresh) (valid : DiskValid map disk) {name : Name}
    {mark : Bytes} (only : ∀ e ∈ effects, e.Touches flushIDKey name → e = .put name flushIDKey mark)
    (put : .put name flushIDKey mark ∈ effects)
    (run : runEffects store fresh disk effects = .ok disk') :
    HasMark map flushIDKey disk' name mark := by
  induction effects using List.reverseRecOn generalizing disk' with
  | nil => cases put
  | append_singleton effects e ih =>
    obtain ⟨mid, first, last⟩ := runEffects_snoc run
    have validMid := (runEffects_view creates valid first).1
    by_cases touches : e.Touches flushIDKey name
    · obtain rfl := only e (by simp) touches
      have after := (Effect.run_view creates validMid last).2 name
      rw [if_pos (show Effect.target (.put name flushIDKey mark) = name from rfl)] at after
      simp only [Effect.run] at last
      split at last
      · cases last
      · next db known =>
        rw [show view map mid name = some (map.contents db) by rw [view, known]; rfl] at after
        exact ⟨_, after, Function.update_self ..⟩
    · have earlier : .put name flushIDKey mark ∈ effects := by
        rcases List.mem_append.mp put with inside | here
        · exact inside
        · rw [← List.mem_singleton.mp here] at touches
          exact absurd (.inr (.inl ⟨mark, rfl⟩)) touches
      exact (ih (fun e inside => only e (List.mem_append_left _ inside)) earlier first).run creates
        validMid last touches

section Phases

variable (wrappers : Wrappers) {order : List Name}

variable {e : Effect} {name : Name}

theorem mem_dropEffects (inside : e ∈ dropEffects wrappers order) :
    ∃ name ∈ order, ∃ w, wrappers.lookup name = some w ∧ w.initialised = true ∧
      (e = .close name ∨ e = .drop name) := by
  obtain ⟨name, member, here⟩ := List.mem_flatMap.mp inside
  split at here
  · cases here
  · grind

theorem mem_dirtyEffects (inside : e ∈ dirtyEffects flushIDKey wrappers id order) :
    ∃ name w, wrappers.lookup name = some w ∧
      (e = markFlushID name flushIDKey dirtyPrefix id ∨ w.initialised = false ∧ e = .openDB name) := by
  obtain ⟨name, _, here⟩ := List.mem_flatMap.mp inside
  split at here
  · cases here
  · next w found =>
    refine ⟨name, w, found, ?_⟩
    rcases List.mem_append.mp here with init | mark
    · rw [initUnderlyingDb] at init
      split at init
      · cases init
      · next lazy => exact .inr ⟨Bool.eq_false_iff.mpr lazy, List.mem_singleton.mp init⟩
    · exact .inl (List.mem_singleton.mp mark)

theorem dirty_mem {w : LazyFlushable} (found : wrappers.lookup name = some w)
    (inside : name ∈ order) :
    markFlushID name flushIDKey dirtyPrefix id ∈ dirtyEffects flushIDKey wrappers id order :=
  List.mem_flatMap.mpr ⟨name, inside, by simp [found]⟩

theorem mem_dataEffects (inside : e ∈ dataEffects store wrappers order) :
    ∃ name w batch, wrappers.lookup name = some w ∧ e = .write name batch ∧
      batch ∈ Flushable.subBatches store w.modified.toList [] := by
  obtain ⟨name, _, here⟩ := List.mem_flatMap.mp inside
  split at here
  · cases here
  · grind

theorem mem_cleanEffects (inside : e ∈ cleanEffects flushIDKey wrappers id order) :
    ∃ name w, wrappers.lookup name = some w ∧ e = markFlushID name flushIDKey cleanPrefix id := by
  obtain ⟨name, _, here⟩ := List.mem_flatMap.mp inside
  split at here
  · cases here
  · next w found => exact ⟨name, w, found, List.mem_singleton.mp here⟩

theorem clean_once (nodup : order.Nodup) {before after : List Effect}
    (split : cleanEffects flushIDKey wrappers id order = before ++
      markFlushID name flushIDKey cleanPrefix id :: after) :
    markFlushID name flushIDKey cleanPrefix id ∉ before := by
  intro inside
  have own := @cleanEffects_own flushIDKey wrappers id order nodup name
  rw [split, List.filter_append, List.filter_cons_of_pos (by simp [markFlushID, Effect.target])] at own
  have length := congrArg List.length own
  have first : 0 < (before.filter fun e => e.target = name).length :=
    List.length_pos_of_mem (List.mem_filter.mpr ⟨inside, by simp [markFlushID, Effect.target]⟩)
  have most : (if name ∈ order then cleanEffects flushIDKey wrappers id [name] else []).length ≤ 1 := by
    rw [cleanEffects, List.flatMap_singleton]
    split
    · split <;> simp
    · simp
  simp only [List.length_append, List.length_cons] at length
  omega

end Phases

inductive Stopped (flushIDKey : Bytes) (wrappers : Wrappers) (id : Bytes) (done rest : List Effect) :
    Prop where
  | complete (nothing : rest = [])
  | dirty (name : Name) (w : LazyFlushable) (found : wrappers.lookup name = some w)
      (marked : markFlushID name flushIDKey dirtyPrefix id ∈ done)
      (unclean : markFlushID name flushIDKey cleanPrefix id ∉ done)
  | unmarked (opens : ∀ e ∈ done, ∃ name, e = .openDB name)

theorem dirty_ne_clean : dirtyPrefix ≠ cleanPrefix := by decide

theorem stopped {wrappers : Wrappers} {dirty data clean : List Name} (dirtyPerm : dirty.Perm wrappers.keys)
    (dataPerm : data.Perm wrappers.keys) (cleanPerm : clean.Perm wrappers.keys)
    {done rest : List Effect}
    (split : done ++ rest = dirtyEffects flushIDKey wrappers id dirty ++
      (dataEffects store wrappers data ++ cleanEffects flushIDKey wrappers id clean)) :
    Stopped flushIDKey wrappers id done rest := by
  have notDirty : ∀ name, markFlushID name flushIDKey cleanPrefix id ∉
      dirtyEffects flushIDKey wrappers id dirty := by
    intro name inside
    obtain ⟨other, w, _, mark | ⟨_, opened⟩⟩ := mem_dirtyEffects wrappers inside
    · simp [markFlushID, dirty_ne_clean.symm] at mark
    · cases opened
  have notData : ∀ name, markFlushID name flushIDKey cleanPrefix id ∉
      dataEffects store wrappers data := by
    intro name inside
    obtain ⟨other, w, batch, _, wrong, _⟩ := mem_dataEffects wrappers inside
    cases wrong
  rcases List.append_eq_append_iff.mp split with ⟨later, within, _⟩ | ⟨past, rfl, tail⟩
  -- the dirty flags are not finished
  · by_cases marked : ∃ name w, wrappers.lookup name = some w ∧
        markFlushID name flushIDKey dirtyPrefix id ∈ done
    · obtain ⟨name, w, found, inside⟩ := marked
      exact .dirty name w found inside fun wrong =>
        notDirty name (within ▸ List.mem_append_left _ wrong)
    · refine .unmarked fun e inside => ?_
      obtain ⟨name, w, found, rfl | ⟨_, rfl⟩⟩ :=
        mem_dirtyEffects wrappers (within ▸ List.mem_append_left later inside)
      · exact absurd ⟨name, w, found, inside⟩ marked
      · exact ⟨name, rfl⟩
  · have flagged : ∀ {name w}, wrappers.lookup name = some w →
        markFlushID name flushIDKey dirtyPrefix id ∈
          dirtyEffects flushIDKey wrappers id dirty ++ past := fun found =>
      List.mem_append_left _ (dirty_mem wrappers found
        (dirtyPerm.mem_iff.mpr (mem_keys_of_lookup found)))
    rcases List.append_eq_append_iff.mp tail.symm with ⟨later, within, _⟩ | ⟨cleaned, rfl, flags⟩
    -- the data is not finished
    · cases keys : wrappers.keys with
      | nil =>
        rw [keys] at dataPerm cleanPerm
        rw [dataPerm.eq_nil, cleanPerm.eq_nil] at tail
        exact .complete (List.append_eq_nil_iff.mp tail.symm).2
      | cons name more =>
        obtain ⟨w, found⟩ := Option.isSome_iff_exists.mp
          (AList.lookup_isSome.mpr (AList.mem_keys.mpr (keys ▸ List.mem_cons_self : name ∈ wrappers.keys)))
        refine .dirty name w found (flagged found) fun inside => ?_
        rcases List.mem_append.mp inside with wrong | wrong
        · exact notDirty name wrong
        · exact notData name (within ▸ List.mem_append_left _ wrong)
    -- the clean flags are not finished
    · cases rest with
      | nil => exact .complete rfl
      | cons e rest =>
        obtain ⟨name, w, found, rfl⟩ := mem_cleanEffects wrappers
          (flags ▸ List.mem_append_right cleaned List.mem_cons_self)
        refine .dirty name w found (flagged found) fun inside => ?_
        rcases List.mem_append.mp inside with wrong | wrong
        · exact notDirty name wrong
        · rcases List.mem_append.mp wrong with wrong | wrong
          · exact notData name wrong
          · exact clean_once wrappers (cleanPerm.nodup_iff.mpr wrappers.keys_nodup) flags wrong

end Torn

end Lachesis.Kvdb
