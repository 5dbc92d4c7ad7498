import Lachesis.Kvdb.PoolMarks

/-!
Every database that carries a clean flag holds what the last flush of that ID left in it.
So a check that finds one clean flag everywhere has found the databases of one flush.
-/

namespace Lachesis.Kvdb

open SearchTree SyncedPool Transition

namespace Session

variable {S : Type} {store : Store S} {map : OrderedMap store} {fresh : S} {flushIDKey : Bytes}
  {putting : Putting Bytes (Option Bytes)} {s t : Session S}

def FromFlush (flushIDKey : Bytes) (flushes : List Flushed) (name : Name) (m : Contents) : Prop :=
  ∃ f, flushes.find? (fun g => g.id = f.id) = some f ∧
    m flushIDKey = some (cleanPrefix :: f.id) ∧ f.data name = some m

/-- The disk is valid, and the databases that the pool has opened exist. -/
structure Sound (map : OrderedMap store) (s : Session S) : Prop where
  valid : DiskValid map s.disk
  queued : s.pool.queuedDrops.Nodup
  linked : ∀ name w, s.pool.wrappers.lookup name = some w → w.initialised = true →
    (s.disk name).isSome

structure Inv (map : OrderedMap store) (flushIDKey : Bytes) (s : Session S) : Prop
    extends Sound map s where
  reserved : ∀ name w, s.pool.wrappers.lookup name = some w →
    ∀ x ∈ w.modified.toList, x.1 ≠ flushIDKey
  marked : ∀ name m, view map s.disk name = some m →
    m flushIDKey = none ∨ FromFlush flushIDKey s.flushes name m

theorem inv_new : Inv map flushIDKey (new : Session S) where
  valid := nofun
  queued := List.nodup_nil
  linked := nofun
  reserved := nofun
  marked := nofun

theorem getDB_lookup (pool : SyncedPool) (name : Name) :
    (pool.getDB name).2.wrappers.lookup name = some (pool.getDB name).1 ∧
    (∀ other, other ≠ name → (pool.getDB name).2.wrappers.lookup other = pool.wrappers.lookup other) ∧
    (pool.getDB name).2.queuedDrops = pool.queuedDrops ∧
    (pool.wrappers.lookup name = some (pool.getDB name).1 ∨
      pool.wrappers.lookup name = none ∧ (pool.getDB name).1 = .new) := by
  unfold getDB
  cases found : pool.wrappers.lookup name with
  | some w => exact ⟨found, fun _ _ => rfl, rfl, .inl rfl⟩
  | none => simp_all

section Opening

theorem Sound.wrapper (sound : Sound map s) (name : Name) :
    (s.pool.getDB name).1.initialised = true → (s.disk name).isSome := by
  rcases (getDB_lookup s.pool name).2.2.2 with found | ⟨_, new⟩
  · exact sound.linked name _ found
  · rw [new]
    nofun

theorem Inv.unwritten (inv : Inv map flushIDKey s) (name : Name) :
    ∀ x ∈ (s.pool.getDB name).1.modified.toList, x.1 ≠ flushIDKey := by
  rcases (getDB_lookup s.pool name).2.2.2 with found | ⟨_, new⟩
  · exact inv.reserved name _ found
  · rw [new]
    nofun

theorem sound_openDB (sound : Sound map s) (name : Name) :
    Sound map { s with pool := (s.pool.getDB name).2 } := by
  obtain ⟨own, others, queued, _⟩ := getDB_lookup s.pool name
  refine ⟨sound.valid, queued ▸ sound.queued, fun other w found => ?_⟩
  by_cases same : other = name
  · subst same
    cases own.symm.trans found
    exact sound.wrapper other
  · exact sound.linked other w ((others other same).symm.trans found)

theorem inv_openDB (inv : Inv map flushIDKey s) (name : Name) :
    Inv map flushIDKey { s with pool := (s.pool.getDB name).2 } := by
  obtain ⟨own, others, _⟩ := getDB_lookup s.pool name
  refine ⟨sound_openDB inv.toSound name, fun other w found => ?_, inv.marked⟩
  by_cases same : other = name
  · subst same
    cases own.symm.trans found
    exact inv.unwritten other
  · exact inv.reserved other w ((others other same).symm.trans found)

theorem getUnderlying_lookup (s : Session S) (name : Name) :
    (s.getUnderlying fresh name).pool.wrappers.lookup name =
      some ⟨true, (s.pool.getDB name).1.modified⟩ ∧
    (∀ other, other ≠ name → (s.getUnderlying fresh name).pool.wrappers.lookup other =
      s.pool.wrappers.lookup other) ∧
    (s.getUnderlying fresh name).pool.queuedDrops = s.pool.queuedDrops := by
  obtain ⟨_, others, queued, _⟩ := getDB_lookup s.pool name
  refine ⟨AList.lookup_insert _, fun other different => ?_, queued⟩
  rw [getUnderlying, AList.lookup_insert_ne different, others other different]

theorem getUnderlying_disk (sound : Sound map s) (name : Name) :
    ((s.getUnderlying fresh name).disk = s.disk ∧ (s.disk name).isSome) ∨
      Effect.run store fresh s.disk (.openDB name) = .ok (s.getUnderlying fresh name).disk := by
  simp only [getUnderlying, Effect.run]
  split
  · next ready => exact .inl ⟨rfl, sound.wrapper name ready⟩
  · exact .inr rfl

theorem getUnderlying_view (creates : Creates map fresh) (sound : Sound map s) (name : Name) :
    DiskValid map (s.getUnderlying fresh name).disk ∧
    ∀ other, view map (s.getUnderlying fresh name).disk other =
      if name = other then some ((view map s.disk other).getD fun _ => none)
      else view map s.disk other := by
  rcases @getUnderlying_disk _ _ _ fresh _ sound name with ⟨same, known⟩ | run
  · rw [same]
    refine ⟨sound.valid, fun other => ?_⟩
    split
    · next own =>
      subst own
      obtain ⟨db, has⟩ := Option.isSome_iff_exists.mp known
      rw [view, has]
      rfl
    · rfl
  · exact Effect.run_view creates sound.valid run

theorem sound_getUnderlying (creates : Creates map fresh) (sound : Sound map s) (name : Name) :
    Sound map (s.getUnderlying fresh name) := by
  obtain ⟨_, others, queued⟩ := @getUnderlying_lookup _ fresh s name
  obtain ⟨valid, now⟩ := getUnderlying_view creates sound name
  refine ⟨valid, queued ▸ sound.queued, fun other w found ready => ?_⟩
  have exists_ : (view map (s.getUnderlying fresh name).disk other).isSome := by
    rw [now]
    by_cases same : name = other
    · rw [if_pos same]
      rfl
    · rw [if_neg same, view, Option.isSome_map]
      exact sound.linked other w ((others other (Ne.symm same)).symm.trans found) ready
  rwa [view, Option.isSome_map] at exists_

theorem inv_getUnderlying (creates : Creates map fresh) (inv : Inv map flushIDKey s) (name : Name) :
    Inv map flushIDKey (s.getUnderlying fresh name) := by
  obtain ⟨own, others, _⟩ := @getUnderlying_lookup _ fresh s name
  obtain ⟨_, now⟩ := getUnderlying_view creates inv.toSound name
  refine ⟨sound_getUnderlying creates inv.toSound name, fun other w found => ?_,
    fun other m known => ?_⟩
  · by_cases same : other = name
    · subst same
      cases own.symm.trans found
      exact inv.unwritten other
    · exact inv.reserved other w ((others other same).symm.trans found)
  · rw [now] at known
    split at known
    · cases before : view map s.disk other with
      | none =>
        rw [before] at known
        cases known
        exact .inl rfl
      | some m' =>
        rw [before] at known
        exact inv.marked other m (before.trans known)
    · exact inv.marked other m known

theorem inv_restart (creates : Creates map fresh) (inv : Inv map flushIDKey s)
    (dbNames : List Name) :
    Inv map flushIDKey (dbNames.foldl (fun s name => s.getUnderlying fresh name)
      { s with pool := ⟨∅, []⟩ }) := by
  have start : Inv map flushIDKey { s with pool := ⟨∅, []⟩ } :=
    ⟨⟨inv.valid, List.nodup_nil, nofun⟩, nofun, inv.marked⟩
  generalize ({ s with pool := ⟨∅, []⟩ } : Session S) = begun at start
  induction dbNames generalizing begun with
  | nil => exact start
  | cons name rest ih => exact ih _ (inv_getUnderlying creates start name)

end Opening

theorem mem_foldl_put (writes : List Write) (tree : Modified) {x : Bytes × Option Bytes}
    (inside : x ∈ (writes.foldl (fun tree kv => putting.put tree kv.key kv.value) tree).toList) :
    x ∈ tree.toList ∨ ∃ kv ∈ writes, x.1 = kv.key := by
  induction writes generalizing tree with
  | nil => exact .inl inside
  | cons kv rest ih =>
    rcases ih _ inside with before | ⟨kv', member, same⟩
    · rcases (putting.mem_put tree kv.key kv.value x).mp before with rfl | ⟨_, old⟩
      · exact .inr ⟨kv, List.mem_cons_self, rfl⟩
      · exact .inl old
    · exact .inr ⟨kv', List.mem_cons_of_mem _ member, same⟩

variable {name : Name} {w : LazyFlushable} {pool : SyncedPool}

theorem sound_write (sound : Sound map s) (found : s.pool.wrappers.lookup name = some w)
    (modified : Modified) : Sound map { s with pool := { s.pool with
      wrappers := s.pool.wrappers.insert name { w with modified := modified } } } := by
  refine ⟨sound.valid, sound.queued, fun other w' now => ?_⟩
  by_cases same : other = name
  · subst same
    rw [AList.lookup_insert] at now
    cases now
    exact sound.linked other w found
  · rw [AList.lookup_insert_ne same] at now
    exact sound.linked other w' now

theorem inv_write (inv : Inv map flushIDKey s) (found : s.pool.wrappers.lookup name = some w)
    {writes : List Write} (others : ∀ kv ∈ writes, kv.key ≠ flushIDKey) :
    Inv map flushIDKey { s with pool := { s.pool with
      wrappers := s.pool.wrappers.insert name { w with
        modified := writes.foldl (fun tree kv => putting.put tree kv.key kv.value) w.modified } } } := by
  refine ⟨sound_write inv.toSound found _, fun other w' now => ?_, inv.marked⟩
  by_cases same : other = name
  · subst same
    rw [AList.lookup_insert] at now
    cases now
    intro x inside
    rcases mem_foldl_put writes w.modified inside with old | ⟨kv, member, eq⟩
    · exact inv.reserved other w found x old
    · exact eq ▸ others kv member
  · rw [AList.lookup_insert_ne same] at now
    exact inv.reserved other w' now

theorem sound_drop (sound : Sound map s) (name : Name) :
    Sound map { s with pool := s.pool.enqueueDropDb name } := by
  refine ⟨sound.valid, ?_, sound.linked⟩
  rw [enqueueDropDb]
  split
  · exact sound.queued
  · next fresh =>
    refine List.nodup_append.mpr ⟨sound.queued, List.nodup_singleton name, ?_⟩
    rintro other old _ new rfl
    exact fresh (List.mem_singleton.mp new ▸ old)

theorem inv_drop (inv : Inv map flushIDKey s) (name : Name) :
    Inv map flushIDKey { s with pool := s.pool.enqueueDropDb name } :=
  ⟨sound_drop inv.toSound name, inv.reserved, inv.marked⟩

theorem remaining_of_lookup (found : pool.remaining.lookup name = some w) :
    pool.wrappers.lookup name = some w := by
  rw [remaining_lookup] at found
  split at found
  · cases found
  · exact found

variable {id : Bytes} {orders : Orders} {disk' : Disk S}

theorem Sound.flush_view (creates : Creates map fresh) (sound : Sound map s)
    (walks : s.pool.Walks orders)
    (run : runEffects store fresh s.disk (s.pool.flushEffects store flushIDKey id orders) =
      .ok disk') (name : Name) :
    view map disk' name = s.flushedData map.contents flushIDKey id name :=
  Kvdb.flush_view creates sound.valid sound.queued
    (fun name w found => sound.linked name w (remaining_of_lookup found)) walks run name

theorem flushedData_kept {name : Name} {w : LazyFlushable}
    (found : s.pool.remaining.lookup name = some w) : ∃ m,
      s.flushedData map.contents flushIDKey id name = some m ∧
      m flushIDKey = some (cleanPrefix :: id) := by
  rw [flushedData, found]
  exact ⟨_, rfl, Function.update_self ..⟩

theorem flushedData_other (absent : s.pool.remaining.lookup name = none) {m : Contents}
    (known : s.flushedData map.contents flushIDKey id name = some m) :
    view map s.disk name = some m := by
  rw [flushedData, absent] at known
  dsimp only at known
  split at known
  · split at known
    · cases known
    · exact known
  · exact known

theorem flushed_lookup (found : pool.flushed.wrappers.lookup name = some w) :
    (∃ before, pool.remaining.lookup name = some before) ∧ w = ⟨true, .empty⟩ := by
  rw [flushed, lookup_foldl_insert] at found
  split at found
  · next key =>
    cases found
    exact ⟨Option.isSome_iff_exists.mp (AList.lookup_isSome.mpr (AList.mem_keys.mpr key)), rfl⟩
  · next key => exact absurd (mem_keys_of_lookup found) key

theorem sound_flush (creates : Creates map fresh) (sound : Sound map s)
    (walks : s.pool.Walks orders)
    (run : runEffects store fresh s.disk (s.pool.flushEffects store flushIDKey id orders) =
      .ok disk') (flushes : List Flushed) : Sound map ⟨disk', s.pool.flushed, flushes⟩ := by
  refine ⟨(runEffects_view creates sound.valid run).1, List.nodup_nil, fun name w found _ => ?_⟩
  obtain ⟨before, kept⟩ := (flushed_lookup found).1
  obtain ⟨m, holds, _⟩ := @flushedData_kept _ _ map flushIDKey s id name before kept
  have known := (sound.flush_view creates walks run name).trans holds
  rw [view, Option.map_eq_some_iff] at known
  obtain ⟨db, has, _⟩ := known
  exact Option.isSome_of_eq_some has

theorem inv_flush (creates : Creates map fresh) (inv : Inv map flushIDKey s)
    (walks : s.pool.Walks orders)
    (run : runEffects store fresh s.disk (s.pool.flushEffects store flushIDKey id orders) =
      .ok disk') :
    Inv map flushIDKey ⟨disk', s.pool.flushed,
      ⟨id, s.flushedData map.contents flushIDKey id⟩ :: s.flushes⟩ := by
  refine ⟨sound_flush creates inv.toSound walks run _, fun name w found => ?_, fun name m known => ?_⟩
  · rw [(flushed_lookup found).2]
    nofun
  · rw [inv.flush_view creates walks run] at known
    have latest : m flushIDKey = some (cleanPrefix :: id) → FromFlush flushIDKey
        (⟨id, s.flushedData map.contents flushIDKey id⟩ :: s.flushes) name m := fun mark =>
      ⟨⟨id, s.flushedData map.contents flushIDKey id⟩, List.find?_cons_of_pos (by simp), mark, known⟩
    cases found : s.pool.remaining.lookup name with
    | some w =>
      obtain ⟨m', holds, mark⟩ := @flushedData_kept _ _ map flushIDKey s id name w found
      cases known.symm.trans holds
      exact .inr (latest mark)
    | none =>
      refine (inv.marked name m (flushedData_other found known)).imp_right fun ⟨f, last, mark, data⟩ => ?_
      by_cases same : f.id = id
      · exact latest (same ▸ mark)
      · exact ⟨f, (List.find?_cons_of_neg (by simpa using Ne.symm same)).trans last, mark, data⟩

def Reserved (flushIDKey : Bytes) (_ : Session S) : Action → Prop
  | .write _ writes => ∀ kv ∈ writes, kv.key ≠ flushIDKey
  | _ => True

theorem inv_step (creates : Creates map fresh) (inv : Inv map flushIDKey s) {a : Action}
    (reserved : Reserved flushIDKey s a)
    (move : s.step store fresh putting map.contents flushIDKey a = some t) :
    Inv map flushIDKey t := by
  cases a with
  | openDB name =>
    cases move
    exact inv_openDB inv name
  | getUnderlying name =>
    cases move
    exact inv_getUnderlying creates inv name
  | write name writes =>
    simp only [step] at move
    split at move
    · cases move
    · next w found =>
      cases move
      exact inv_write inv found reserved
  | drop name =>
    cases move
    exact inv_drop inv name
  | flush id orders =>
    simp only [step] at move
    split at move
    · next walks =>
      split at move
      · cases move
      · next disk' run =>
        cases move
        exact inv_flush creates inv walks run
    · cases move
  | restart dbNames =>
    cases move
    exact inv_restart creates inv dbNames

end Session

structure Enumerates {S : Type} (dbs : List (Name × S)) (disk : Disk S) : Prop where
  mem : ∀ name db, (name, db) ∈ dbs ↔ disk name = some db

theorem Enumerates.of_names {S : Type} {disk : Disk S} {names : List Name}
    (all : ∀ name, name ∉ names → disk name = none) :
    Enumerates (names.filterMap fun name => (disk name).map (name, ·)) disk := by
  refine ⟨fun name db => ?_⟩
  simp only [List.mem_filterMap, Option.map_eq_some_iff, Prod.mk.injEq]
  constructor
  · rintro ⟨_, _, _, has, rfl, rfl⟩
    exact has
  · grind

section Detection

open Session

variable {S : Type} {store : Store S} {map : OrderedMap store} {fresh : S} {flushIDKey : Bytes}
  {putting : Putting Bytes (Option Bytes)} {s : Session S} {id : Bytes} {orders : Orders}
  {disk' : Disk S} {dbs : List (Name × S)}

theorem mem_subBatches {entries : List (Bytes × Option Bytes)} {batch : List Write}
    (inside : batch ∈ Flushable.subBatches store entries []) {kv : Write} (member : kv ∈ batch) :
    ∃ x ∈ entries, x.1 = kv.key := by
  have all : kv ∈ (Flushable.subBatches store entries []).flatten :=
    List.mem_flatten.mpr ⟨batch, inside, member⟩
  rw [Flushable.subBatches_flatten, List.nil_append] at all
  obtain ⟨x, known, rfl⟩ := List.mem_map.mp all
  exact ⟨x, known, rfl⟩

theorem dirty_stays (creates : Creates map fresh) (inv : Inv map flushIDKey s)
    (walks : s.pool.Walks orders) {done rest : List Effect}
    (split : done ++ rest = s.pool.flushEffects store flushIDKey id orders)
    (run : runEffects store fresh s.disk done = .ok disk') {name : Name} {w : LazyFlushable}
    (kept : s.pool.remaining.lookup name = some w)
    (marked : markFlushID name flushIDKey dirtyPrefix id ∈ done)
    (unclean : markFlushID name flushIDKey cleanPrefix id ∉ done) :
    HasMark map flushIDKey disk' name (dirtyPrefix :: id) := by
  refine mark_put creates inv.valid (fun e inside touches => ?_) marked run
  have member : e ∈ s.pool.flushEffects store flushIDKey id orders :=
    split ▸ List.mem_append_left rest inside
  rcases List.mem_append.mp member with dropped | member
  · obtain ⟨other, order, _, _, _, rfl | rfl⟩ := mem_dropEffects _ dropped
    · rcases touches with wrong | ⟨value, wrong⟩ | ⟨batch, wrong, _⟩ <;> cases wrong
    · rcases touches with same | ⟨value, wrong⟩ | ⟨batch, wrong, _⟩
      · cases same
        rw [remaining_lookup, if_pos (walks.drops.mem_iff.mp order)] at kept
        cases kept
      · cases wrong
      · cases wrong
  rcases List.mem_append.mp member with dirty | member
  · obtain ⟨other, w, _, rfl | ⟨_, rfl⟩⟩ := mem_dirtyEffects _ dirty
    · rcases touches with wrong | ⟨value, eq⟩ | ⟨batch, wrong, _⟩
      · cases wrong
      · cases eq
        rfl
      · cases wrong
    · rcases touches with wrong | ⟨value, wrong⟩ | ⟨batch, wrong, _⟩ <;> cases wrong
  rcases List.mem_append.mp member with data | clean
  · obtain ⟨other, w, batch, found, rfl, known⟩ := mem_dataEffects _ data
    rcases touches with wrong | ⟨value, wrong⟩ | ⟨batch', eq, kv, inBatch, key⟩
    · cases wrong
    · cases wrong
    · cases eq
      obtain ⟨x, entry, same⟩ := mem_subBatches known inBatch
      exact absurd (same.trans key) (inv.reserved name w (remaining_of_lookup found) x entry)
  · obtain ⟨other, w, _, rfl⟩ := mem_cleanEffects _ clean
    rcases touches with wrong | ⟨value, eq⟩ | ⟨batch, wrong, _⟩
    · cases wrong
    · cases eq
      exact absurd inside unclean
    · cases wrong

theorem opens_view (creates : Creates map fresh) {disk : Disk S} (valid : DiskValid map disk)
    {effects : List Effect} (opens : ∀ e ∈ effects, ∃ name, e = .openDB name)
    (run : runEffects store fresh disk effects = .ok disk') (name : Name) :
    view map disk' name = view map disk name ∨ view map disk' name = some fun _ => none := by
  induction effects generalizing disk with
  | nil =>
    cases run
    exact .inl rfl
  | cons e rest ih =>
    obtain ⟨mid, first, later⟩ := runEffects_cons run
    obtain ⟨validMid, viewMid⟩ := Effect.run_view creates valid first
    have after := ih validMid (fun e inside => opens e (List.mem_cons_of_mem _ inside)) later
    obtain ⟨other, rfl⟩ := opens e List.mem_cons_self
    rw [viewMid] at after
    split at after
    · cases known : view map disk name with
      | none =>
        rw [known] at after
        exact .inr (after.elim id id)
      | some m =>
        rw [known] at after
        exact after
    · exact after

variable {x : Name × S} {accepted : Bytes}

theorem Synced.flags {flushID : Option Bytes}
    (synced : Synced map.toReadMap flushIDKey dbs flushID (some accepted)) (inside : x ∈ dbs) :
    map.contents x.2 flushIDKey = some accepted ∧ ¬ [dirtyPrefix] <+: accepted := by
  obtain ⟨mark, has⟩ := Option.ne_none_iff_exists'.mp (synced.all nofun x inside)
  obtain ⟨clean, same⟩ := synced.marks x inside mark has
  cases same
  exact ⟨has, clean⟩

theorem one_flush {flushes : List Flushed} (nonempty : dbs ≠ [])
    (from_ : ∀ x ∈ dbs, map.contents x.2 flushIDKey = some accepted ∧
      FromFlush flushIDKey flushes x.1 (map.contents x.2)) :
    ∃ f ∈ flushes, accepted = cleanPrefix :: f.id ∧
      ∀ x ∈ dbs, f.data x.1 = some (map.contents x.2) := by
  obtain ⟨first, inside⟩ := List.exists_mem_of_ne_nil dbs nonempty
  obtain ⟨has, f, last, mark, _⟩ := from_ first inside
  have accepted_eq : accepted = cleanPrefix :: f.id := Option.some.inj (has.symm.trans mark)
  refine ⟨f, List.mem_of_find?_eq_some last, accepted_eq, fun x member => ?_⟩
  obtain ⟨has', g, last', mark', data⟩ := from_ x member
  have same : g.id = f.id := by
    have eq := (has'.symm.trans mark').symm.trans (congrArg Option.some accepted_eq)
    simpa using eq
  rw [same] at last'
  rw [Option.some.inj (last.symm.trans last')]
  exact data

theorem Enumerates.view_mem (all : Enumerates dbs disk') (inside : x ∈ dbs) :
    view map disk' x.1 = some (map.contents x.2) := by
  rw [view, (all.mem x.1 x.2).mp inside]
  rfl

/-- Wherever a flush stops, the databases are accepted only with the data of one completed
flush, and in whatever order they are looked at. -/
theorem torn_flush_detected (creates : Creates map fresh) {actions : List Action}
    (run : Run (step store fresh putting map.contents flushIDKey) (Reserved flushIDKey) new actions s)
    (undropped : s.pool.queuedDrops = []) (walks : s.pool.Walks orders) {done rest : List Effect}
    (split : done ++ rest = s.pool.flushEffects store flushIDKey id orders)
    (stop : runEffects store fresh s.disk done = .ok disk') (all : Enumerates dbs disk')
    (flushID : Option Bytes) :
    (∀ accepted, checkDBsSynced store dbs flushIDKey flushID = (some accepted, none) → dbs = [] ∨
      ∃ f, (f ∈ s.flushes ∨ rest = [] ∧ f = ⟨id, s.flushedData map.contents flushIDKey id⟩) ∧
        accepted = cleanPrefix :: f.id ∧ ∀ x ∈ dbs, f.data x.1 = some (map.contents x.2)) ∧
    ∀ dbs', dbs.Perm dbs' → ∀ accepted,
      checkDBsSynced store dbs flushIDKey flushID = (accepted, none) ↔
        checkDBsSynced store dbs' flushIDKey flushID = (accepted, none) := by
  have inv : Inv map flushIDKey s :=
    run.invariant (fun _ _ _ inv reserved move => inv_step creates inv reserved move) inv_new
  have valid := (runEffects_view creates inv.valid stop).1
  have own : ∀ x ∈ dbs, map.Valid x.2 := fun x inside => valid x.1 x.2 ((all.mem x.1 x.2).mp inside)
  refine ⟨fun accepted check => ?_, fun dbs' perm accepted => ?_⟩
  · have synced := (checkDBsSynced_iff own flushID (some accepted)).mp check
    by_cases empty : dbs = []
    · exact .inl empty
    refine .inr ?_
    have nothing : orders.drops = [] := (undropped ▸ walks.drops).eq_nil
    have phases : done ++ rest = dirtyEffects flushIDKey s.pool.remaining id orders.dirty ++
        (dataEffects store s.pool.remaining orders.data ++
          cleanEffects flushIDKey s.pool.remaining id orders.clean) := by
      rw [split, flushEffects, nothing]
      rfl
    cases stopped walks.dirty walks.data walks.clean phases with
    | complete finished =>
      subst finished
      rw [List.append_nil] at split
      subst split
      have after := inv_flush creates inv walks stop
      obtain ⟨f, member, rest⟩ := one_flush empty fun x inside => by
        have flags := synced.flags inside
        have marked := after.marked x.1 _ (all.view_mem inside)
        exact ⟨flags.1, marked.resolve_left fun wrong => by cases wrong.symm.trans flags.1⟩
      exact ⟨f, (List.mem_cons.mp member).symm.imp_right fun eq => ⟨rfl, eq⟩, rest⟩
    | dirty name w found marked unclean =>
      obtain ⟨m, known, mark⟩ :=
        dirty_stays creates inv walks split stop found marked unclean
      rw [view, Option.map_eq_some_iff] at known
      obtain ⟨db, has, rfl⟩ := known
      have flags := synced.flags ((all.mem name db).mpr has)
      rw [flags.1] at mark
      cases mark
      exact absurd ⟨id, rfl⟩ flags.2
    | unmarked opens =>
      obtain ⟨f, member, rest⟩ := one_flush empty fun x inside => by
        have flags := synced.flags inside
        refine ⟨flags.1, ?_⟩
        have known : view map disk' x.1 = some (map.contents x.2) := all.view_mem inside
        rcases opens_view creates inv.valid opens stop x.1 with same | created
        · have marked := inv.marked x.1 _ (same.symm.trans known)
          exact marked.resolve_left fun wrong => by cases wrong.symm.trans flags.1
        · grind
      exact ⟨f, .inl member, rest⟩
  · have own' : ∀ x ∈ dbs', map.Valid x.2 := fun x inside => own x (perm.mem_iff.mpr inside)
    rw [checkDBsSynced_iff own, checkDBsSynced_iff own']
    exact ⟨.perm perm, .perm perm.symm⟩

structure SampleStop (later : List Session.Action) (id : Bytes) (orders : Orders) (count : Nat)
    (s : Session (Flushable Unit)) (disk' : Disk (Flushable Unit))
    (dbs : List (Name × Flushable Unit)) : Prop where
  session : (Action.openDB "a" :: .write "a" [⟨[1], some [2]⟩] ::
    .flush [1] ⟨[], ["a"], ["a"], ["a"]⟩ :: later).foldlM (step memorydb (.wrap ()) (.plain _ _) memorydb.orderedMap.contents [9]) new = some s
  walks : s.pool.Walks orders
  stop : runEffects memorydb (.wrap ()) s.disk
    ((s.pool.flushEffects memorydb [9] id orders).take count) = .ok disk'
  all : Enumerates dbs disk'

/-- A second database is opened, and the next flush is completed. -/
theorem torn_flush_detected_pair : ∃ s disk' dbs,
    SampleStop [.openDB "b", .write "a" [⟨[1], none⟩]] [2] ⟨[], ["b", "a"], ["a", "b"], ["b", "a"]⟩ 7
      s disk' dbs ∧ s.pool.queuedDrops = [] ∧ s.flushes.map Flushed.id = [[1]] ∧
    checkDBsSynced memorydb dbs [9] none = (some [0, 2], none) ∧
    ∀ x ∈ dbs, s.flushedData memorydb.orderedMap.contents [9] [2] x.1 =
      some (memorydb.orderedMap.contents x.2) := by
  obtain ⟨s, disk', dbs, sample, queued, ids, check, two⟩ : ∃ s disk' dbs,
      SampleStop [.openDB "b", .write "a" [⟨[1], none⟩]] [2] ⟨[], ["b", "a"], ["a", "b"], ["b", "a"]⟩ 7
        s disk' dbs ∧ s.pool.queuedDrops = [] ∧ s.flushes.map Flushed.id = [[1]] ∧
      checkDBsSynced memorydb dbs [9] none = (some [0, 2], none) ∧ dbs.length = 2 := by
    refine ⟨_, _, _, ⟨rfl, by decide, rfl, @Enumerates.of_names _ _ ["a", "b"] ?_⟩, rfl, rfl, rfl, rfl⟩
    intro name other
    rw [List.mem_cons, List.mem_singleton, not_or] at other
    simp [Function.update, other, new]
  refine ⟨s, disk', dbs, sample, queued, ids, check, ?_⟩
  have run := @Run.of_foldlM _ _ _ (Reserved [9]) _ _ _ (by simp [Reserved]) sample.session
  rcases (torn_flush_detected creates_memorydb run queued sample.walks (List.take_append_drop 7 _)
    sample.stop sample.all none).1 _ check with rfl | ⟨f, old | ⟨_, rfl⟩, id, data⟩
  · cases two
  · have known : f.id ∈ s.flushes.map Flushed.id := List.mem_map_of_mem old
    rw [ids, List.mem_singleton] at known
    rw [known] at id
    cases id
  · exact data

/-- A client writes the clean flag of the last flush; the next one stops after its data. -/
theorem forged_flag : ∃ s disk' dbs,
    SampleStop [.write "a" [⟨[1], none⟩, ⟨[9], some [0, 1]⟩]] [2] ⟨[], ["a"], ["a"], ["a"]⟩ 2
      s disk' dbs ∧ s.pool.queuedDrops = [] ∧ s.flushes.map Flushed.id = [[1]] ∧
    checkDBsSynced memorydb dbs [9] none = (some [0, 1], none) ∧
    ∃ x ∈ dbs, ∀ f ∈ s.flushes, f.data x.1 ≠ some (memorydb.orderedMap.contents x.2) := by
  refine ⟨_, _, _, ⟨rfl, by decide, rfl, @Enumerates.of_names _ _ ["a"] fun name other => ?_⟩, rfl, rfl,
    rfl, _, List.mem_singleton.mpr rfl, ?_⟩
  · rw [List.mem_singleton] at other
    simp [Function.update, other, new]
  · intro f inside same
    cases List.mem_singleton.mp inside
    cases congrFun (Option.some.inj same) [1]

end Detection

end Lachesis.Kvdb
