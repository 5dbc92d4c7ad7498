import Lachesis.Kvdb.PoolSessions

/-!
A flush carries the queued drops out before it writes the first dirty flag. A stop in between
leaves no trace but the databases that are gone, and the check accepts the others.
-/

namespace Lachesis.Kvdb

open SearchTree SyncedPool Transition Session

section Drops

variable {S : Type} {store : Store S}

/-- The same pairs, flags apart. A database that does not exist has none. -/
def SameData (flushIDKey : Bytes) (a b : Option Contents) : Prop :=
  ∀ k, k ≠ flushIDKey → a.bind (· k) = b.bind (· k)

/-- No queued drop has taken effect, and the data is the previous flush's. -/
structure Before (map : OrderedMap store) (flushIDKey : Bytes) (s : Session S) (disk' : Disk S) :
    Prop where
  kept : ∀ name ∈ s.pool.queuedDrops, (disk' name).isSome = (s.disk name).isSome
  data : ∀ name, SameData flushIDKey (view map disk' name) (view map s.disk name)

/-- Every queued drop has taken effect, and the data of the other databases is the new flush's. -/
structure After (map : OrderedMap store) (flushIDKey : Bytes) (s : Session S) (id : Bytes)
    (disk' : Disk S) : Prop where
  dropped : ∀ name ∈ s.pool.queuedDrops, disk' name = none
  data : ∀ name, name ∉ s.pool.queuedDrops →
    SameData flushIDKey (view map disk' name) (s.flushedData map.contents flushIDKey id name)

/-- Wherever the flush stops, the databases that exist then are refused or all old or all new. -/
def Atomic (map : OrderedMap store) (fresh : S) (flushIDKey : Bytes) (s : Session S) (id : Bytes)
    (orders : Orders) : Prop :=
  ∀ done rest, done ++ rest = s.pool.flushEffects store flushIDKey id orders →
    ∀ disk', runEffects store fresh s.disk done = .ok disk' → ∀ dbs, Enumerates dbs disk' →
      ∀ flushID, (checkDBsSynced store dbs flushIDKey flushID).2 = none →
        Before map flushIDKey s disk' ∨ After map flushIDKey s id disk'

def Opened (pool : SyncedPool) (name : Name) : Prop :=
  ∃ w, pool.wrappers.lookup name = some w ∧ w.initialised = true

def Quiet (map : OrderedMap store) (flushIDKey : Bytes) (s : Session S) (id : Bytes) : Prop :=
  ∀ name, name ∉ s.pool.queuedDrops →
    SameData flushIDKey (view map s.disk name) (s.flushedData map.contents flushIDKey id name)

/-- When a flush and its drops are atomic. -/
inductive DropsSafe (map : OrderedMap store) (flushIDKey : Bytes) (s : Session S) (id : Bytes) :
    Prop where
  /-- None of the queued databases exists. -/
  | nothing (absent : ∀ name ∈ s.pool.queuedDrops, s.disk name = none)
  /-- None was opened, so none will be dropped. -/
  | unopened (lazy : ∀ name ∈ s.pool.queuedDrops, ¬ Opened s.pool name)
      (seen : Quiet map flushIDKey s id ∨ ∃ name ∈ s.pool.queuedDrops, ∃ m,
        view map s.disk name = some m ∧ m flushIDKey ≠ some (cleanPrefix :: id))
  /-- There is one, and besides it there is nothing to do. -/
  | single (name : Name) (queued : name ∈ s.pool.queuedDrops) (opened : Opened s.pool name)
      (others : ∀ other ∈ s.pool.queuedDrops, other ≠ name → s.disk other = none)
      (quiet : Quiet map flushIDKey s id)

variable {map : OrderedMap store} {fresh : S} {flushIDKey : Bytes} {s : Session S} {id : Bytes}
  {orders : Orders} {disk' : Disk S} {dbs : List (Name × S)}

theorem SameData.refl (a : Option Contents) : SameData flushIDKey a a := fun _ _ => rfl

theorem SameData.trans {a b c : Option Contents} (first : SameData flushIDKey a b)
    (second : SameData flushIDKey b c) : SameData flushIDKey a c :=
  fun k other => (first k other).trans (second k other)

theorem view_eq_none {disk : Disk S} {name : Name} : view map disk name = none ↔ disk name = none :=
  Option.map_eq_none_iff

theorem view_isSome (disk : Disk S) (name : Name) :
    (view map disk name).isSome = (disk name).isSome := Option.isSome_map

def Early (pool : SyncedPool) (done : List Effect) : Prop :=
  ∀ e ∈ done, (∃ name ∈ pool.queuedDrops, Opened pool name ∧ (e = .close name ∨ e = .drop name)) ∨
    ∃ name, name ∉ pool.queuedDrops ∧ e = .openDB name

theorem early_view (creates : Creates map fresh) (valid : DiskValid map s.disk) {done : List Effect}
    (early : Early s.pool done) (run : runEffects store fresh s.disk done = .ok disk') (name : Name) :
    (name ∈ s.pool.queuedDrops →
      (.drop name ∈ done ∧ view map disk' name = none) ∨
      (.drop name ∉ done ∧ view map disk' name = view map s.disk name)) ∧
    (name ∉ s.pool.queuedDrops →
      SameData flushIDKey (view map disk' name) (view map s.disk name)) := by
  induction done using List.reverseRecOn generalizing disk' with
  | nil =>
    cases run
    exact ⟨fun _ => .inr ⟨nofun, rfl⟩, fun _ => .refl _⟩
  | append_singleton done e ih =>
    obtain ⟨mid, first, last⟩ := runEffects_snoc run
    have validMid := (runEffects_view creates valid first).1
    obtain ⟨queued, others⟩ := ih (fun e inside => early e (List.mem_append_left _ inside)) first
    have now := (Effect.run_view creates validMid last).2 name
    rcases early e (by simp) with ⟨other, member, _, rfl | rfl⟩ | ⟨other, member, rfl⟩
    · have same : view map disk' name = view map mid name := now.trans (ite_self _)
      rw [same]
      simpa using ⟨queued, others⟩
    · by_cases own : other = name
      · subst own
        rw [if_pos (show Effect.target (.drop other) = other from rfl)] at now
        exact ⟨fun _ => .inl ⟨by simp, now⟩, fun absent => absurd member absent⟩
      · rw [if_neg (show ¬ Effect.target (.drop other) = name from own)] at now
        rw [now]
        simpa [Ne.symm own] using ⟨queued, others⟩
    · by_cases own : other = name
      · subst own
        rw [if_pos (show Effect.target (.openDB other) = other from rfl)] at now
        refine ⟨fun inside => absurd inside member, fun absent => SameData.trans ?_ (others absent)⟩
        rw [now]
        intro k _
        cases view map mid other <;> rfl
      · rw [if_neg (show ¬ Effect.target (.openDB other) = name from own)] at now
        rw [now]
        simpa using ⟨queued, others⟩

inductive StoppedDropping (flushIDKey : Bytes) (pool : SyncedPool) (id : Bytes)
    (done rest : List Effect) : Prop where
  | early (only : Early pool done)
  | dirty (name : Name) (w : LazyFlushable) (kept : pool.remaining.lookup name = some w)
      (marked : markFlushID name flushIDKey dirtyPrefix id ∈ done)
      (unclean : markFlushID name flushIDKey cleanPrefix id ∉ done)
  | complete (nothing : rest = [])

variable {pool : SyncedPool} {name : Name} {w : LazyFlushable} {done : List Effect} {m : Contents}
  {flushID : Option Bytes}

theorem dropEffects_early (walks : pool.Walks orders) :
    Early pool (dropEffects pool.wrappers orders.drops) := by
  intro e inside
  obtain ⟨name, member, w, found, opened, kind⟩ := mem_dropEffects _ inside
  exact .inl ⟨name, walks.drops.mem_iff.mp member, ⟨w, found, opened⟩, kind⟩

theorem not_queued_of_remaining (kept : pool.remaining.lookup name = some w) :
    name ∉ pool.queuedDrops := by
  intro inside
  rw [remaining_lookup, if_pos inside] at kept
  cases kept

theorem stopped_dropping (walks : pool.Walks orders) {rest : List Effect}
    (split : done ++ rest = pool.flushEffects store flushIDKey id orders) :
    StoppedDropping flushIDKey pool id done rest := by
  have drops := dropEffects_early walks
  rcases List.append_eq_append_iff.mp split with ⟨later, within, _⟩ | ⟨past, rfl, tail⟩
  · exact .early fun e inside => drops e (within ▸ List.mem_append_left _ inside)
  have notDrop : ∀ name, markFlushID name flushIDKey cleanPrefix id ∉
      dropEffects pool.wrappers orders.drops := by
    intro name inside
    rcases drops _ inside with ⟨_, _, _, wrong | wrong⟩ | ⟨_, _, wrong⟩ <;> cases wrong
  have cases_ := stopped walks.dirty walks.data walks.clean tail.symm
  cases cases_ with
  | complete nothing => exact .complete nothing
  | dirty name w kept marked unclean =>
    refine .dirty name w kept (List.mem_append_right _ marked) fun inside => ?_
    exact (List.mem_append.mp inside).elim (notDrop name) unclean
  | unmarked opens =>
    refine .early fun e inside => ?_
    rcases List.mem_append.mp inside with dropped | opened
    · exact drops e dropped
    · obtain ⟨name, rfl⟩ := opens e opened
      have member : Effect.openDB name ∈ _ := tail ▸ List.mem_append_left rest opened
      rcases List.mem_append.mp member with flags | member
      · obtain ⟨_, w, kept, wrong | ⟨_, same⟩⟩ := mem_dirtyEffects _ flags
        · cases wrong
        · cases same
          exact .inr ⟨name, not_queued_of_remaining kept, rfl⟩
      rcases List.mem_append.mp member with data | flags
      · obtain ⟨_, _, _, _, wrong, _⟩ := mem_dataEffects _ data
        cases wrong
      · obtain ⟨_, _, _, wrong⟩ := mem_cleanEffects _ flags
        cases wrong

theorem refused {m' : Contents} {name' : Name} {mark : Bytes} (valid : DiskValid map disk')
    (all : Enumerates dbs disk') (check : (checkDBsSynced store dbs flushIDKey flushID).2 = none)
    (here : view map disk' name = some m) (has : m flushIDKey = some mark)
    (there : view map disk' name' = some m') :
    m' flushIDKey = some mark ∧ ¬ [dirtyPrefix] <+: mark := by
  have own : ∀ x ∈ dbs, map.Valid x.2 := fun x inside => valid x.1 x.2 ((all.mem x.1 x.2).mp inside)
  obtain ⟨accepted, verdict⟩ : ∃ accepted,
      checkDBsSynced store dbs flushIDKey flushID = (accepted, none) := ⟨_, Prod.ext rfl check⟩
  have synced := (checkDBsSynced_iff own flushID accepted).mp verdict
  obtain ⟨db, known, rfl⟩ := Option.map_eq_some_iff.mp here
  obtain ⟨db', known', rfl⟩ := Option.map_eq_some_iff.mp there
  obtain ⟨clean, rfl⟩ := synced.marks (name, db) ((all.mem name db).mpr known) mark has
  exact ⟨(synced.flags ((all.mem name' db').mpr known')).1, clean⟩

theorem flushedData_queued {name : Name} (queued : name ∈ s.pool.queuedDrops) :
    (Opened s.pool name → s.flushedData map.contents flushIDKey id name = none) ∧
    (¬ Opened s.pool name →
      s.flushedData map.contents flushIDKey id name = view map s.disk name) := by
  rw [flushedData, remaining_lookup, if_pos queued, Opened]
  cases s.pool.wrappers.lookup name with
  | none => exact ⟨by simp, fun _ => rfl⟩
  | some w => cases ready : w.initialised <;> simp [ready, view]

theorem flushedData_unknown {name : Name} (queued : name ∉ s.pool.queuedDrops)
    (unknown : s.pool.remaining.lookup name = none) :
    s.flushedData map.contents flushIDKey id name = view map s.disk name := by
  have absent : s.pool.wrappers.lookup name = none := by
    rw [remaining_lookup, if_neg queued] at unknown
    exact unknown
  rw [flushedData, unknown]
  simp only [absent]
  rfl

theorem early_atomic (creates : Creates map fresh) (inv : Inv map flushIDKey s)
    (safe : DropsSafe map flushIDKey s id) (early : Early s.pool done)
    (run : runEffects store fresh s.disk done = .ok disk') :
    Before map flushIDKey s disk' ∨ After map flushIDKey s id disk' := by
  have now := fun name => @early_view _ _ map fresh flushIDKey s disk' creates inv.valid done early run name
  have before : (∀ name ∈ s.pool.queuedDrops, .drop name ∉ done) → Before map flushIDKey s disk' := by
    intro undropped
    have same : ∀ name ∈ s.pool.queuedDrops, view map disk' name = view map s.disk name := by
      intro name queued
      exact (((now name).1 queued).resolve_left fun wrong => undropped name queued wrong.1).2
    refine ⟨fun name queued => ?_, fun name => ?_⟩
    · rw [← @view_isSome _ _ map, same name queued, view_isSome]
    · by_cases queued : name ∈ s.pool.queuedDrops
      · rw [same name queued]
        exact .refl _
      · exact (now name).2 queued
  have opened_of_drop : ∀ name, .drop name ∈ done → Opened s.pool name := by
    intro name inside
    rcases early _ inside with ⟨_, _, opened, wrong | same⟩ | ⟨_, _, wrong⟩
    · cases wrong
    · cases same
      exact opened
    · cases wrong
  cases safe with
  | nothing absent =>
    refine .inl (before fun name queued dropped => ?_)
    obtain ⟨w, found, ready⟩ := opened_of_drop name dropped
    have known := inv.linked name w found ready
    rw [absent name queued] at known
    cases known
  | unopened lazy _ =>
    exact .inl (before fun name queued dropped => lazy name queued (opened_of_drop name dropped))
  | single name queued opened others quiet =>
    have gone : ∀ other ∈ s.pool.queuedDrops, other ≠ name → view map disk' other = none := by
      intro other member different
      rcases (now other).1 member with ⟨_, none⟩ | ⟨_, same⟩
      · exact none
      · rw [same, view_eq_none]
        exact others other member different
    by_cases dropped : .drop name ∈ done
    · refine .inr ⟨fun other member => ?_, fun other absent => ((now other).2 absent).trans (quiet other absent)⟩
      rw [← @view_eq_none _ _ map]
      by_cases same : other = name
      · subst same
        exact (((now other).1 queued).resolve_right fun wrong => wrong.1 dropped).2
      · exact gone other member same
    · refine .inl (before fun other member wrong => ?_)
      by_cases same : other = name
      · exact dropped (same ▸ wrong)
      · obtain ⟨w, found, ready⟩ := opened_of_drop other wrong
        have known := inv.linked other w found ready
        rw [others other member same] at known
        cases known

theorem complete_atomic (creates : Creates map fresh) (inv : Inv map flushIDKey s)
    (walks : s.pool.Walks orders) (safe : DropsSafe map flushIDKey s id)
    (run : runEffects store fresh s.disk (s.pool.flushEffects store flushIDKey id orders) = .ok disk')
    (all : Enumerates dbs disk') (check : (checkDBsSynced store dbs flushIDKey flushID).2 = none) :
    Before map flushIDKey s disk' ∨ After map flushIDKey s id disk' := by
  have valid := (runEffects_view creates inv.valid run).1
  have now := inv.flush_view creates walks run
  have data : ∀ name, name ∉ s.pool.queuedDrops → SameData flushIDKey (view map disk' name)
      (s.flushedData map.contents flushIDKey id name) := fun name _ => by
    rw [now]
    exact .refl _
  have before : (∀ name ∈ s.pool.queuedDrops, ¬ Opened s.pool name) → Quiet map flushIDKey s id →
      Before map flushIDKey s disk' := by
    intro lazy quiet
    have same : ∀ name ∈ s.pool.queuedDrops, view map disk' name = view map s.disk name :=
      fun name queued => (now name).trans ((flushedData_queued queued).2 (lazy name queued))
    refine ⟨fun name queued => ?_, fun name => ?_⟩
    · rw [← @view_isSome _ _ map, same name queued, view_isSome]
    · by_cases queued : name ∈ s.pool.queuedDrops
      · rw [same name queued]
        exact .refl _
      · rw [now]
        exact fun k other => (quiet name queued k other).symm
  have gone : ∀ name ∈ s.pool.queuedDrops, Opened s.pool name ∨ s.disk name = none → disk' name = none := by
    intro name queued why
    rw [← @view_eq_none _ _ map, now]
    by_cases opened : Opened s.pool name
    · exact (flushedData_queued queued).1 opened
    · rw [(flushedData_queued queued).2 opened, view_eq_none]
      exact why.resolve_left opened
  cases safe with
  | nothing absent => exact .inr ⟨fun name queued => gone name queued (.inr (absent name queued)), data⟩
  | single name queued opened others _ =>
    refine .inr ⟨fun other member => gone other member ?_, data⟩
    by_cases same : other = name
    · exact .inl (same ▸ opened)
    · exact .inr (others other member same)
  | unopened lazy seen =>
    rcases seen with quiet | ⟨name, queued, m, known, other⟩
    · exact .inl (before lazy quiet)
    by_cases empty : ∃ kept w, s.pool.remaining.lookup kept = some w
    -- the database that stays has another flag than the new one
    · obtain ⟨kept, w, found⟩ := empty
      obtain ⟨m', holds, has⟩ := @flushedData_kept _ _ map flushIDKey s id kept w found
      have there := (now name).trans ((flushedData_queued queued).2 (lazy name queued))
      exact absurd (refused valid all check ((now kept).trans holds) has (there.trans known)).1 other
    · refine .inl (before lazy fun name absent => ?_)
      have unknown : s.pool.remaining.lookup name = none := by
        by_contra found
        obtain ⟨w, found⟩ := Option.ne_none_iff_exists'.mp found
        exact empty ⟨name, w, found⟩
      rw [flushedData_unknown absent unknown]
      exact .refl _

theorem safe_atomic (creates : Creates map fresh) (inv : Inv map flushIDKey s)
    (walks : s.pool.Walks orders) (safe : DropsSafe map flushIDKey s id) :
    Atomic map fresh flushIDKey s id orders := by
  intro done rest split disk' run dbs all flushID check
  cases stopped_dropping walks split with
  | early only => exact early_atomic creates inv safe only run
  | dirty name w kept marked unclean =>
    have valid := (runEffects_view creates inv.valid run).1
    obtain ⟨m, here, has⟩ := dirty_stays creates inv walks split run kept marked unclean
    exact absurd ⟨id, rfl⟩ (refused valid all check here has here).2
  | complete nothing =>
    subst nothing
    rw [List.append_nil] at split
    subst split
    exact complete_atomic creates inv walks safe run all check

theorem accepted {mark : Option Bytes} (valid : DiskValid map disk') (all : Enumerates dbs disk')
    (same : ∀ name m, view map disk' name = some m → m flushIDKey = mark)
    (clean : ∀ name m flag, view map disk' name = some m → m flushIDKey = some flag →
      ¬ [dirtyPrefix] <+: flag) :
    (checkDBsSynced store dbs flushIDKey none).2 = none := by
  have own : ∀ x ∈ dbs, map.Valid x.2 := fun x inside => valid x.1 x.2 ((all.mem x.1 x.2).mp inside)
  have flag : ∀ x ∈ dbs, map.contents x.2 flushIDKey = mark := fun x inside =>
    same x.1 _ (all.view_mem inside)
  have synced : Synced map.toReadMap flushIDKey dbs none (if dbs = [] then none else mark) := by
    split
    · next empty =>
      subst empty
      exact ⟨nofun, nofun, nofun, nofun⟩
    · next nonempty =>
      refine ⟨fun x inside id has => ?_, nofun, fun _ id is => ?_, fun set x inside => ?_⟩
      · exact ⟨clean x.1 _ id (all.view_mem inside) has, (flag x inside).symm.trans has⟩
      · obtain ⟨x, inside⟩ := List.exists_mem_of_ne_nil dbs nonempty
        exact ⟨x, inside, (flag x inside).trans is⟩
      · rw [flag x inside]
        exact set
  rw [(checkDBsSynced_iff own none _).mpr synced]

section Total

def Effect.Possible : Effect → Option Contents → Prop
  | .put _ _ _, db => db.isSome
  | .write _ _, db => db.isSome
  | _, _ => True

def Chain : List Effect → Option Contents → Prop
  | [], _ => True
  | e :: rest, db => e.Possible db ∧ Chain rest (e.act db)

theorem Effect.run_total {disk : Disk S} (valid : DiskValid map disk) {e : Effect}
    (possible : e.Possible (view map disk e.target)) : ∃ mid, e.run store fresh disk = .ok mid := by
  cases e with
  | put name key value =>
    obtain ⟨db, known⟩ := Option.isSome_iff_exists.mp ((view_isSome disk name).symm.trans possible)
    obtain ⟨t, done, _⟩ := map.put (valid name db known) key value
    exact ⟨Function.update disk name (some t), by simp only [Effect.run, known, done]⟩
  | write name batch =>
    obtain ⟨db, known⟩ := Option.isSome_iff_exists.mp ((view_isSome disk name).symm.trans possible)
    obtain ⟨t, done, _⟩ := map.write (valid name db known) batch
    exact ⟨Function.update disk name (some t), by simp only [Effect.run, known, done]⟩
  | openDB name => exact ⟨_, rfl⟩
  | close name => exact ⟨_, rfl⟩
  | drop name => exact ⟨_, rfl⟩

variable {effects : List Effect}

theorem runEffects_total (creates : Creates map fresh) {disk : Disk S} (valid : DiskValid map disk)
    (chains : ∀ name, Chain (effects.filter fun e => e.target = name) (view map disk name)) :
    ∃ disk', runEffects store fresh disk effects = .ok disk' := by
  induction effects generalizing disk with
  | nil => exact ⟨disk, rfl⟩
  | cons e rest ih =>
    have own := chains e.target
    rw [List.filter_cons_of_pos (by simp)] at own
    obtain ⟨mid, first⟩ := @Effect.run_total _ _ map fresh _ valid e own.1
    obtain ⟨validMid, now⟩ := Effect.run_view creates valid first
    obtain ⟨disk', later⟩ := ih validMid fun name => by
      rw [now]
      by_cases same : e.target = name
      · subst same
        rw [if_pos rfl]
        exact own.2
      · grind
    exact ⟨disk', by rw [runEffects, List.foldlM_cons, first]; exact later⟩

theorem chain_some {m : Contents}
    (writes : ∀ e ∈ effects, (∃ name key value, e = .put name key value) ∨ ∃ name batch, e =
      .write name batch) :
    Chain effects (some m) := by
  induction effects generalizing m with
  | nil => trivial
  | cons e rest ih =>
    have later := fun e inside => writes e (List.mem_cons_of_mem _ inside)
    rcases writes e List.mem_cons_self with ⟨_, _, _, rfl⟩ | ⟨_, _, rfl⟩
    · exact ⟨rfl, ih later⟩
    · exact ⟨rfl, ih later⟩

theorem flush_total (creates : Creates map fresh) (inv : Inv map flushIDKey s)
    (walks : s.pool.Walks orders) : ∃ disk',
      runEffects store fresh s.disk (s.pool.flushEffects store flushIDKey id orders) = .ok disk' := by
  refine runEffects_total creates inv.valid fun name => ?_
  cases found : s.pool.remaining.lookup name with
  | some w =>
    rw [flushEffects_kept walks inv.queued found]
    have marks : ∀ e ∈ markFlushID name flushIDKey dirtyPrefix id ::
        ((Flushable.subBatches store w.modified.toList []).map (Effect.write name) ++
          [markFlushID name flushIDKey cleanPrefix id]),
        (∃ name key value, e = .put name key value) ∨ ∃ name batch, e = .write name batch := by
      intro e inside
      rcases List.mem_cons.mp inside with rfl | inside
      · exact .inl ⟨_, _, _, rfl⟩
      rcases List.mem_append.mp inside with data | flag
      · obtain ⟨batch, _, rfl⟩ := List.mem_map.mp data
        exact .inr ⟨_, _, rfl⟩
      · exact .inl ⟨_, _, _, List.mem_singleton.mp flag⟩
    rw [initUnderlyingDb]
    split
    · next ready =>
      obtain ⟨db, known⟩ :=
        Option.isSome_iff_exists.mp (inv.linked name w (remaining_of_lookup found) ready)
      rw [view, known]
      exact chain_some marks
    · exact ⟨trivial, chain_some marks⟩
  | none =>
    rw [flushEffects_other walks inv.queued found, dropEffects, List.flatMap_singleton]
    split
    · trivial
    · split
      · exact ⟨trivial, trivial, trivial⟩
      · trivial

end Total

section Bounded

def Bounded (disk : Disk S) : Prop := ∃ names : List Name, ∀ name, name ∉ names → disk name = none

theorem Bounded.update {disk : Disk S} (bounded : Bounded disk) (name : Name) (db : Option S) :
    Bounded (Function.update disk name db) := by
  obtain ⟨names, others⟩ := bounded
  refine ⟨name :: names, fun other absent => ?_⟩
  rw [List.mem_cons, not_or] at absent
  rw [Function.update_of_ne absent.1]
  exact others other absent.2

variable {disk : Disk S}

theorem Bounded.runEffects {effects : List Effect} (bounded : Bounded disk)
    (run : Kvdb.runEffects store fresh disk effects = .ok disk') : Bounded disk' := by
  induction effects generalizing disk with
  | nil =>
    cases run
    exact bounded
  | cons e rest ih =>
    obtain ⟨mid, first, later⟩ := runEffects_cons run
    refine ih ?_ later
    cases e with
    | openDB name =>
      cases first
      exact bounded.update ..
    | put | write =>
      simp only [Effect.run] at first
      split at first
      · cases first
      · split at first
        · cases first
        · cases first
          exact bounded.update ..
    | close name =>
      cases first
      exact bounded
    | drop name =>
      cases first
      exact bounded.update ..

theorem Bounded.getUnderlying (bounded : Bounded s.disk) (name : Name) :
    Bounded (s.getUnderlying fresh name).disk := by
  rw [Session.getUnderlying]
  dsimp only
  split
  · exact bounded
  · exact bounded.update ..

theorem bounded_step {putting : Putting Bytes (Option Bytes)} {contents : S → Contents}
    {t : Session S} {a : Action} (bounded : Bounded s.disk)
    (move : s.step store fresh putting contents flushIDKey a = some t) : Bounded t.disk := by
  cases a with
  | openDB name =>
    cases move
    exact bounded
  | getUnderlying name =>
    cases move
    exact bounded.getUnderlying name
  | write name writes =>
    rw [step] at move
    split at move
    · cases move
    · cases move
      exact bounded
  | drop name =>
    cases move
    exact bounded
  | flush id orders =>
    rw [step] at move
    split at move
    · split at move
      · cases move
      · next disk' run =>
        cases move
        exact bounded.runEffects run
    · cases move
  | restart dbNames =>
    cases move
    have start : Bounded ({ s with pool := ⟨∅, []⟩ } : Session S).disk := bounded
    generalize ({ s with pool := ⟨∅, []⟩ } : Session S) = begun at start
    induction dbNames generalizing begun with
    | nil => exact start
    | cons name rest ih => exact ih _ (start.getUnderlying name)

theorem Bounded.enumerates (bounded : Bounded disk) : ∃ dbs, Enumerates dbs disk := by
  obtain ⟨names, others⟩ := bounded
  exact ⟨_, .of_names others⟩

end Bounded

def InSync (map : OrderedMap store) (flushIDKey : Bytes) (s : Session S) : Prop :=
  ∃ mark, ∀ name m, view map s.disk name = some m → m flushIDKey = mark

theorem dropEffects_first {wrappers : Wrappers} {order : List Name} (inside : name ∈ order)
    (found : wrappers.lookup name = some w) (ready : w.initialised = true) :
    ∃ first ∈ order, ∃ v rest, wrappers.lookup first = some v ∧ v.initialised = true ∧
      dropEffects wrappers order = .close first :: .drop first :: rest := by
  induction order with
  | nil => cases inside
  | cons head tail ih =>
    rw [dropEffects, List.flatMap_cons, ← dropEffects]
    by_cases opened : ∃ v, wrappers.lookup head = some v ∧ v.initialised = true
    · obtain ⟨v, known, ready⟩ := opened
      exact ⟨head, List.mem_cons_self, v, dropEffects wrappers tail, known, ready, by simp [known, ready]⟩
    · have later : name ∈ tail := by
        rcases List.mem_cons.mp inside with rfl | later
        · exact absurd ⟨w, found, ready⟩ opened
        · exact later
      obtain ⟨first, member, v, rest, known, ready, eq⟩ := ih later
      refine ⟨first, List.mem_cons_of_mem _ member, v, rest, known, ready, ?_⟩
      rw [eq]
      split
      · rfl
      · next u has =>
        rw [if_neg fun ready => opened ⟨u, has, ready⟩]
        rfl

theorem clean_flag (inv : Inv map flushIDKey s) {flag : Bytes}
    (known : view map s.disk name = some m) (has : m flushIDKey = some flag) :
    ¬ [dirtyPrefix] <+: flag := by
  rcases inv.marked name m known with none | ⟨f, _, is, _⟩
  · exact (nomatch none.symm.trans has)
  · rw [Option.some.inj (has.symm.trans is)]
    simp [dirty_ne_clean]

theorem atomic_single (creates : Creates map fresh) (inv : Inv map flushIDKey s)
    (bounded : Bounded s.disk) (walks : s.pool.Walks orders) (sync : InSync map flushIDKey s)
    (atomic : Atomic map fresh flushIDKey s id orders) (queued : name ∈ s.pool.queuedDrops)
    (opened : Opened s.pool name) : DropsSafe map flushIDKey s id := by
  obtain ⟨mark, same⟩ := sync
  obtain ⟨w, found, ready⟩ := opened
  obtain ⟨first, order, v, rest, registered, ready, eq⟩ :=
    dropEffects_first (walks.drops.mem_iff.mpr queued) found ready
  have queued := walks.drops.mem_iff.mp order
  have run : runEffects store fresh s.disk [.close first, .drop first] =
      .ok (Function.update s.disk first none) := rfl
  have valid := (runEffects_view creates inv.valid run).1
  obtain ⟨later, split⟩ : ∃ later, [Effect.close first, .drop first] ++ later =
      s.pool.flushEffects store flushIDKey id orders := ⟨rest ++ _, by rw [flushEffects, eq]; rfl⟩
  obtain ⟨dbs, all⟩ := (bounded.update first none).enumerates
  have others : ∀ name m, view map (Function.update s.disk first none) name = some m →
      view map s.disk name = some m := by
    intro name m holds
    rw [view_update] at holds
    split at holds
    · cases holds
    · exact holds
  have check := accepted valid all (fun name m holds => same name m (others name m holds))
    fun name m flag holds => clean_flag inv (others name m holds)
  rcases atomic _ _ split _ run dbs all none check with before | after
  · have kept := before.kept first queued
    rw [Function.update_self, inv.linked first v registered ready] at kept
    cases kept
  · refine .single first queued ⟨v, registered, ready⟩ (fun other member different => ?_)
      fun other absent => ?_
    · have gone := after.dropped other member
      rwa [Function.update_of_ne different] at gone
    · have data := after.data other absent
      have different : first ≠ other := fun eq => absent (eq ▸ queued)
      rwa [view_update, if_neg different] at data

theorem atomic_unopened (creates : Creates map fresh) (inv : Inv map flushIDKey s)
    (bounded : Bounded s.disk) (walks : s.pool.Walks orders) (sync : InSync map flushIDKey s)
    (atomic : Atomic map fresh flushIDKey s id orders)
    (lazy : ∀ name ∈ s.pool.queuedDrops, ¬ Opened s.pool name) : DropsSafe map flushIDKey s id := by
  by_cases absent : ∀ name ∈ s.pool.queuedDrops, s.disk name = none
  · exact .nothing absent
  refine .unopened lazy ?_
  by_contra unseen
  rw [not_or] at unseen
  obtain ⟨name, queued, existing⟩ : ∃ name ∈ s.pool.queuedDrops, s.disk name ≠ none := by
    simpa using absent
  obtain ⟨m, known⟩ := Option.ne_none_iff_exists'.mp fun none => existing ((@view_eq_none _ _ map _ _).mp none)
  obtain ⟨mark, same⟩ := sync
  have flag : mark = some (cleanPrefix :: id) := by
    by_contra other
    exact unseen.2 ⟨name, queued, m, known, same name m known ▸ other⟩
  obtain ⟨disk', run⟩ := @flush_total _ _ map fresh flushIDKey s id orders creates inv walks
  have now := inv.flush_view creates walks run
  obtain ⟨dbs, all⟩ := (bounded.runEffects run).enumerates
  have marked : ∀ name m, view map disk' name = some m → m flushIDKey = some (cleanPrefix :: id) := by
    intro name m holds
    rw [now] at holds
    cases found : s.pool.remaining.lookup name with
    | some w =>
      obtain ⟨m', is, has⟩ := @flushedData_kept _ _ map flushIDKey s id name w found
      cases holds.symm.trans is
      exact has
    | none => exact (same name m (flushedData_other found holds)).trans flag
  have check := accepted (runEffects_view creates inv.valid run).1 all marked
    fun name m flag holds has => by
      rw [Option.some.inj (has.symm.trans (marked name m holds))]
      simp [dirty_ne_clean]
  rcases atomic _ [] (List.append_nil _) _ run dbs all none check with before | after
  · refine unseen.1 fun name _ k other => ?_
    rw [← now]
    exact (before.data name k other).symm
  · have gone := after.dropped name queued
    rw [← @view_eq_none _ _ map, now, (flushedData_queued queued).2 (lazy name queued), known] at gone
    cases gone

/-- In a state that a pool can reach, a flush and its drops are atomic where that is safe; and where
the flags of the databases agree, they are not atomic otherwise. -/
theorem drops_atomic (creates : Creates map fresh) {putting : Putting Bytes (Option Bytes)}
    {actions : List Action}
    (run : Run (step store fresh putting map.contents flushIDKey) (Reserved flushIDKey) new actions s)
    (walks : s.pool.Walks orders) (id : Bytes) :
    (DropsSafe map flushIDKey s id → Atomic map fresh flushIDKey s id orders) ∧
    (InSync map flushIDKey s → Atomic map fresh flushIDKey s id orders →
      DropsSafe map flushIDKey s id) := by
  have inv : Inv map flushIDKey s :=
    run.invariant (fun _ _ _ inv reserved move => inv_step creates inv reserved move) inv_new
  have bounded : Bounded s.disk := @Run.invariant _ _ _ _ (fun s => Bounded s.disk)
    (fun _ _ _ bounded _ move => bounded_step bounded move) _ _ _ ⟨[], fun _ _ => rfl⟩ run
  refine ⟨safe_atomic creates inv walks, fun sync atomic => ?_⟩
  by_cases opened : ∃ name ∈ s.pool.queuedDrops, Opened s.pool name
  · obtain ⟨name, queued, opened⟩ := opened
    exact atomic_single creates inv bounded walks sync atomic queued opened
  · exact atomic_unopened creates inv bounded walks sync atomic fun name queued ready =>
      opened ⟨name, queued, ready⟩

theorem quiet_of_unmodified (unmodified : ∀ name w, s.pool.remaining.lookup name = some w →
    w.modified = .empty) : Quiet map flushIDKey s id := by
  intro name absent k other
  cases found : s.pool.remaining.lookup name with
  | none => rw [flushedData_unknown absent found]
  | some w =>
    rw [flushedData, found]
    dsimp only
    rw [unmodified name w found, overlay_empty, view, Option.bind_some, Contents.apply,
      Function.update_of_ne other]
    cases s.disk name <;> rfl

/-- A second database is flushed and then dropped: the stop after the drop. -/
theorem drops_atomic_single : ∃ s disk' dbs,
    SampleStop [.openDB "b", .flush [2] ⟨[], ["a", "b"], ["a", "b"], ["a", "b"]⟩, .drop "b"] [3]
      ⟨["b"], ["a"], ["a"], ["a"]⟩ 2 s disk' dbs ∧
    checkDBsSynced memorydb dbs [9] none = (some [0, 2], none) ∧
    (Before memorydb.orderedMap [9] s disk' ∨ After memorydb.orderedMap [9] s [3] disk') := by
  obtain ⟨s, disk', dbs, sample, check, safe⟩ : ∃ s disk' dbs,
      SampleStop [.openDB "b", .flush [2] ⟨[], ["a", "b"], ["a", "b"], ["a", "b"]⟩, .drop "b"] [3]
        ⟨["b"], ["a"], ["a"], ["a"]⟩ 2 s disk' dbs ∧
      checkDBsSynced memorydb dbs [9] none = (some [0, 2], none) ∧
      DropsSafe memorydb.orderedMap [9] s [3] := by
    refine ⟨_, _, _, ⟨rfl, by decide, rfl, @Enumerates.of_names _ _ ["a", "b"] ?_⟩, rfl, ?_⟩
    · intro name other
      rw [List.mem_cons, List.mem_singleton, not_or] at other
      simp [Function.update, other, new]
    · refine .single "b" (List.mem_singleton.mpr rfl) ⟨_, rfl, rfl⟩ ?_ ?_
      · intro other member different
        exact absurd (List.mem_singleton.mp member) different
      · refine quiet_of_unmodified fun name w found => ?_
        cases List.mem_singleton.mp (mem_keys_of_lookup found)
        cases found
        rfl
  refine ⟨s, disk', dbs, sample, check, ?_⟩
  have run := @Run.of_foldlM _ _ _ (Reserved [9]) _ _ _ (by simp [Reserved]) sample.session
  exact (drops_atomic creates_memorydb run sample.walks [3]).1 safe _ _
    (List.take_append_drop 2 _) _ sample.stop dbs sample.all none (congrArg Prod.snd check)

/-- A second database is flushed and dropped, and the first is written to: the stop after the drop
is accepted, with a database gone and the old data in the other. -/
theorem drop_window : ∃ s disk' dbs,
    SampleStop [.openDB "b", .flush [2] ⟨[], ["a", "b"], ["a", "b"], ["a", "b"]⟩, .drop "b",
      .write "a" [⟨[1], none⟩]] [3] ⟨["b"], ["a"], ["a"], ["a"]⟩ 2 s disk' dbs ∧
    checkDBsSynced memorydb dbs [9] none = (some [0, 2], none) ∧
    ¬ Before memorydb.orderedMap [9] s disk' ∧ ¬ After memorydb.orderedMap [9] s [3] disk' := by
  refine ⟨_, _, _, ⟨rfl, by decide, rfl, @Enumerates.of_names _ _ ["a", "b"] ?_⟩, rfl, ?_, ?_⟩
  · intro name other
    rw [List.mem_cons, List.mem_singleton, not_or] at other
    simp [Function.update, other, new]
  · intro before
    cases before.kept "b" (List.mem_singleton.mpr rfl)
  · intro after
    cases after.data "a" (by decide) [1] (by decide)

end Drops

end Lachesis.Kvdb
