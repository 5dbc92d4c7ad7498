import Lachesis.Kvdb.PoolDrops

/-!
The stores that the clients of a pool hold. `Drop` only queues the name; the wrapper stays
registered until the next flush, so a store that is opened in between is the old one.
-/

namespace Lachesis.Kvdb

open SearchTree SyncedPool Transition Session

structure Handle where
  name : Name
  number : Nat
  deriving DecidableEq

structure Clients (S : Type) where
  session : Session S
  made : Name → Nat

inductive Call where
  | openDB (name : Name)
  | getUnderlying (name : Name)
  | write (handle : Handle) (writes : List Write)
  | drop (handle : Handle)
  | flush (id : Bytes) (orders : Orders)

namespace Clients

variable {S : Type} (store : Store S) (fresh : S) (putting : Putting Bytes (Option Bytes))
  (contents : S → Contents) (flushIDKey : Bytes)

def start (disk : Disk S) (flushes : List Flushed) : Clients S :=
  ⟨⟨disk, ⟨∅, []⟩, flushes⟩, fun _ => 0⟩

def counted (c : Clients S) (name : Name) : Name → Nat :=
  match c.session.pool.wrappers.lookup name with
  | some _ => c.made
  | none => Function.update c.made name (c.made name + 1)

def Live (c : Clients S) (handle : Handle) : Prop :=
  (c.session.pool.wrappers.lookup handle.name).isSome ∧ c.made handle.name = handle.number

instance (c : Clients S) (handle : Handle) : Decidable (c.Live handle) :=
  inferInstanceAs (Decidable (_ ∧ _))

/-- A write to a closed wrapper does not return. -/
def step (c : Clients S) : Call → Option (Clients S)
  | .openDB name =>
    (c.session.step store fresh putting contents flushIDKey (.openDB name)).map (⟨·, c.counted name⟩)
  | .getUnderlying name =>
    (c.session.step store fresh putting contents flushIDKey (.getUnderlying name)).map
      (⟨·, c.counted name⟩)
  | .write handle writes =>
    if c.Live handle then
      (c.session.step store fresh putting contents flushIDKey (.write handle.name writes)).map
        (⟨·, c.made⟩)
    else none
  | .drop handle =>
    (c.session.step store fresh putting contents flushIDKey (.drop handle.name)).map (⟨·, c.made⟩)
  | .flush id orders =>
    (c.session.step store fresh putting contents flushIDKey (.flush id orders)).map (⟨·, c.made⟩)

def reads (c : Clients S) (name : Name) : Contents :=
  match c.session.pool.wrappers.lookup name with
  | some w =>
    let base : Contents := if w.initialised then ((c.session.disk name).map contents).getD fun _ => none
      else fun _ => none
    overlay base w.modified
  | none => fun _ => none

end Clients

def Call.writesTo (name : Name) : Call → List Write
  | .write handle writes => if handle.name = name then writes else []
  | _ => []

def Call.Drops (name : Name) : Call → Prop
  | .drop handle => handle.name = name
  | _ => False

/-- No store is opened while its name is queued, and a flush finds every queued database opened or
not existing. -/
def Careful {S : Type} (c : Clients S) : Call → Prop
  | .openDB name => name ∉ c.session.pool.queuedDrops
  | .flush _ _ => ∀ name ∈ c.session.pool.queuedDrops,
      Opened c.session.pool name ∨ c.session.disk name = none
  | _ => True

variable {a b : Contents} {flushIDKey : Bytes}

theorem SameData.apply (same : SameData flushIDKey (some a) (some b)) (w : Write) :
    SameData flushIDKey (some (a.apply w)) (some (b.apply w)) := by
  intro k other
  by_cases own : k = w.key
  · simp [Contents.apply, own]
  · simpa [Contents.apply, Function.update_of_ne own] using same k other

theorem SameData.applyAll (same : SameData flushIDKey (some a) (some b)) (writes : List Write) :
    SameData flushIDKey (some (a.applyAll writes)) (some (b.applyAll writes)) := by
  induction writes generalizing a b with
  | nil => exact same
  | cons w rest ih => exact ih (same.apply w)

namespace Clients

variable {S : Type} {store : Store S} {map : OrderedMap store} {fresh : S}
  {putting : Putting Bytes (Option Bytes)} {flushIDKey : Bytes} {c d : Clients S} {name : Name}

structure Holds (map : OrderedMap store) (flushIDKey : Bytes) (c : Clients S) (name : Name)
    (m : Contents) : Prop where
  reads : SameData flushIDKey (some (c.reads map.contents name)) (some m)
  absent : ¬ Opened c.session.pool name → c.session.disk name = none

theorem reads_none (unknown : c.session.pool.wrappers.lookup name = none) :
    c.reads map.contents name = fun _ => none := by
  rw [reads, unknown]

theorem reads_opened {w : LazyFlushable} (found : c.session.pool.wrappers.lookup name = some w)
    (absent : ¬ Opened c.session.pool name → c.session.disk name = none) :
    c.reads map.contents name =
      overlay ((view map c.session.disk name).getD fun _ => none) w.modified := by
  rw [reads, found, view]
  dsimp only
  split
  · rfl
  · next lazy =>
    have closed : ¬ Opened c.session.pool name := by
      rintro ⟨w', found', ready⟩
      cases found.symm.trans found'
      exact lazy ready
    rw [absent closed]
    rfl

theorem overlay_foldl_put (base : Contents) (tree : Modified) (writes : List Write) :
    overlay base (writes.foldl (fun tree kv => putting.put tree kv.key kv.value) tree) =
      (overlay base tree).applyAll writes := by
  induction writes generalizing tree with
  | nil => rfl
  | cons w rest ih =>
    rw [List.foldl_cons, ih, overlay_put]
    rfl

variable {call : Call} {m : Contents} {handle : Handle} {writes written : List Write}
  {calls : List Call}

theorem sound_step (creates : Creates map fresh) (sound : Sound map c.session)
    (move : c.step store fresh putting map.contents flushIDKey call = some d) :
    Sound map d.session := by
  cases call with
  | openDB name =>
    cases move
    exact sound_openDB sound name
  | getUnderlying name =>
    cases move
    exact sound_getUnderlying creates sound name
  | write handle writes =>
    rw [step] at move
    split at move
    · obtain ⟨t, move, rfl⟩ := Option.map_eq_some_iff.mp move
      rw [Session.step] at move
      split at move
      · cases move
      · next w found =>
        cases move
        exact sound_write sound found _
    · cases move
  | drop handle =>
    cases move
    exact sound_drop sound handle.name
  | flush id orders =>
    rw [step] at move
    obtain ⟨t, move, rfl⟩ := Option.map_eq_some_iff.mp move
    rw [Session.step] at move
    split at move
    · next walks =>
      split at move
      · cases move
      · next disk' run =>
        cases move
        exact sound_flush creates sound walks run _
    · cases move

theorem flush_cases (creates : Creates map fresh) (sound : Sound map c.session) {id : Bytes}
    {orders : Orders}
    (move : c.step store fresh putting map.contents flushIDKey (.flush id orders) = some d) :
    view map d.session.disk name = c.session.flushedData map.contents flushIDKey id name ∧
    d.session.pool.wrappers.lookup name =
      (c.session.pool.remaining.lookup name).map (fun _ => ⟨true, .empty⟩) ∧
    d.session.pool.queuedDrops = [] ∧ d.made = c.made := by
  rw [step] at move
  obtain ⟨t, move, rfl⟩ := Option.map_eq_some_iff.mp move
  rw [Session.step] at move
  split at move
  · next walks =>
    split at move
    · cases move
    · next disk' run =>
      cases move
      refine ⟨sound.flush_view creates walks run name, ?_, rfl, rfl⟩
      change c.session.pool.flushed.wrappers.lookup name = _
      rw [flushed, lookup_foldl_insert]
      cases kept : c.session.pool.remaining.lookup name with
      | none => rw [if_neg (not_mem_keys_of_lookup kept)]; rfl
      | some w => rw [if_pos (mem_keys_of_lookup kept)]; rfl
  · cases move

theorem flush_durable (creates : Creates map fresh) (sound : Sound map c.session) {id : Bytes}
    {orders : Orders} (holds : Holds map flushIDKey c name m)
    (unqueued : name ∉ c.session.pool.queuedDrops)
    (move : c.step store fresh putting map.contents flushIDKey (.flush id orders) = some d) :
    Holds map flushIDKey d name m ∧
    ((c.session.pool.wrappers.lookup name).isSome →
      view map d.session.disk name = some (d.reads map.contents name)) := by
  obtain ⟨disk, wrappers, _⟩ := @flush_cases _ _ _ _ _ _ _ _ name creates sound id orders move
  have same : c.session.pool.remaining.lookup name = c.session.pool.wrappers.lookup name := by
    rw [remaining_lookup, if_neg unqueued]
  cases found : c.session.pool.wrappers.lookup name with
  | none =>
    rw [flushedData_unknown unqueued (same.trans found)] at disk
    rw [same, found] at wrappers
    have closed : ¬ Opened c.session.pool name := fun ⟨_, has, _⟩ => (nomatch found.symm.trans has)
    refine ⟨⟨?_, fun _ => ?_⟩, nofun⟩
    · rw [reads_none wrappers, ← reads_none found]
      exact holds.reads
    · rw [← @view_eq_none _ _ map, disk, view_eq_none]
      exact holds.absent closed
  | some w =>
    rw [same, found] at wrappers
    have opened : Opened d.session.pool name := ⟨_, wrappers, rfl⟩
    have base : c.session.flushedData map.contents flushIDKey id name =
        some ((c.reads map.contents name).apply ⟨flushIDKey, some (cleanPrefix :: id)⟩) := by
      rw [flushedData, same, found, reads_opened found holds.absent]
      rfl
    have now : d.reads map.contents name =
        (c.reads map.contents name).apply ⟨flushIDKey, some (cleanPrefix :: id)⟩ := by
      rw [reads_opened wrappers fun closed => absurd opened closed, overlay_empty, disk, base]
      rfl
    refine ⟨⟨?_, fun closed => absurd opened closed⟩, fun _ => ?_⟩
    · rw [now]
      refine SameData.trans (fun k other => ?_) holds.reads
      simp [Contents.apply, Function.update_of_ne other]
    · rw [disk, base, now]

theorem Holds.frame (holds : Holds map flushIDKey c name m)
    (lookup : d.session.pool.wrappers.lookup name = c.session.pool.wrappers.lookup name)
    (disk : view map d.session.disk name = view map c.session.disk name) :
    Holds map flushIDKey d name m := by
  refine ⟨?_, fun closed => ?_⟩
  · have same : d.reads map.contents name = c.reads map.contents name := by
      rw [view, view] at disk
      rw [Clients.reads, Clients.reads, lookup, disk]
    rw [same]
    exact holds.reads
  · rw [Opened, lookup] at closed
    rw [← @view_eq_none _ _ map, disk, view_eq_none]
    exact holds.absent closed

theorem Holds.openDB (holds : Holds map flushIDKey c name m) :
    Holds map flushIDKey ⟨{ c.session with pool := (c.session.pool.getDB name).2 }, c.counted name⟩
      name m := by
  obtain ⟨own, _, _, found | ⟨unknown, new⟩⟩ := getDB_lookup c.session.pool name
  · exact holds.frame (own.trans found.symm) rfl
  · have closed : ¬ Opened c.session.pool name := fun ⟨_, has, _⟩ => (nomatch unknown.symm.trans has)
    refine ⟨?_, fun _ => holds.absent closed⟩
    rw [new] at own
    rw [Clients.reads, own]
    have before := holds.reads
    rw [reads_none unknown] at before
    exact before

theorem Holds.getUnderlying (creates : Creates map fresh) (sound : Sound map c.session)
    (holds : Holds map flushIDKey c name m) :
    Holds map flushIDKey ⟨c.session.getUnderlying fresh name, c.counted name⟩ name m := by
  obtain ⟨own, _⟩ := @getUnderlying_lookup _ fresh c.session name
  have disk := (getUnderlying_view creates sound name).2 name
  rw [if_pos rfl] at disk
  have opened : Opened (c.session.getUnderlying fresh name).pool name := ⟨_, own, rfl⟩
  refine ⟨?_, fun closed => absurd opened closed⟩
  rw [reads_opened own fun closed => absurd opened closed, disk, Option.getD_some]
  have before := holds.reads
  rcases (getDB_lookup c.session.pool name).2.2.2 with found | ⟨unknown, new⟩
  · rw [reads_opened found holds.absent] at before
    exact before
  · have closed : ¬ Opened c.session.pool name := fun ⟨_, has, _⟩ => (nomatch unknown.symm.trans has)
    rw [new, view, holds.absent closed]
    rw [reads_none unknown] at before
    exact before

theorem write_cases
    (move : c.step store fresh putting map.contents flushIDKey (.write handle writes) = some d) :
    c.Live handle ∧ d.session.disk = c.session.disk ∧
    d.session.pool.queuedDrops = c.session.pool.queuedDrops ∧ d.made = c.made ∧
    (∀ other, other ≠ handle.name → d.session.pool.wrappers.lookup other =
      c.session.pool.wrappers.lookup other) ∧
    ∃ w, c.session.pool.wrappers.lookup handle.name = some w ∧
      d.session.pool.wrappers.lookup handle.name = some { w with
        modified := writes.foldl (fun tree kv => putting.put tree kv.key kv.value) w.modified } := by
  rw [step] at move
  split at move
  · next live =>
    obtain ⟨t, move, rfl⟩ := Option.map_eq_some_iff.mp move
    rw [Session.step] at move
    split at move
    · cases move
    · next w found =>
      cases move
      exact ⟨live, rfl, rfl, rfl, fun other different => AList.lookup_insert_ne different, w, found,
        AList.lookup_insert _⟩
  · cases move

theorem reads_write {handle : Handle} {writes : List Write}
    (move : c.step store fresh putting map.contents flushIDKey (.write handle writes) = some d) :
    d.reads map.contents handle.name = (c.reads map.contents handle.name).applyAll writes := by
  obtain ⟨_, disk, _, _, _, w, found, now⟩ := write_cases move
  rw [reads, reads, found, now, disk]
  exact overlay_foldl_put ..

theorem Holds.write (holds : Holds map flushIDKey c handle.name m)
    (move : c.step store fresh putting map.contents flushIDKey (.write handle writes) = some d) :
    Holds map flushIDKey d handle.name (m.applyAll writes) := by
  refine ⟨?_, fun closed => ?_⟩
  · rw [reads_write move]
    exact holds.reads.applyAll writes
  · obtain ⟨_, disk, _, _, _, w, found, now⟩ := write_cases move
    rw [disk]
    refine holds.absent fun ⟨w', found', ready⟩ => closed ⟨_, now, ?_⟩
    cases found.symm.trans found'
    exact ready

theorem holds_step (creates : Creates map fresh) (sound : Sound map c.session) {m : Contents}
    (holds : Holds map flushIDKey c name m) (unqueued : name ∉ c.session.pool.queuedDrops)
    {call : Call} (kept : ¬ call.Drops name)
    (move : c.step store fresh putting map.contents flushIDKey call = some d) :
    Holds map flushIDKey d name (m.applyAll (call.writesTo name)) ∧
      name ∉ d.session.pool.queuedDrops := by
  cases call with
  | openDB other =>
    cases move
    obtain ⟨_, others, queued, _⟩ := getDB_lookup c.session.pool other
    refine ⟨?_, queued ▸ unqueued⟩
    by_cases same : name = other
    · exact same ▸ holds.openDB
    · exact holds.frame (others name same) rfl
  | getUnderlying other =>
    cases move
    obtain ⟨_, others, queued⟩ := @getUnderlying_lookup _ fresh c.session other
    refine ⟨?_, queued ▸ unqueued⟩
    by_cases same : name = other
    · exact same ▸ holds.getUnderlying creates sound
    · refine holds.frame (others name same) ?_
      rw [(getUnderlying_view creates sound other).2, if_neg (Ne.symm same)]
  | write handle writes =>
    obtain ⟨_, disk, queued, _, others, _⟩ := write_cases move
    refine ⟨?_, queued ▸ unqueued⟩
    rw [Call.writesTo]
    split
    · next same =>
      subst same
      exact holds.write move
    · next other => exact holds.frame (others name (Ne.symm other)) (by rw [view, view, disk])
  | drop handle =>
    cases move
    refine ⟨holds.frame rfl rfl, fun queued => ?_⟩
    change name ∈ (c.session.pool.enqueueDropDb handle.name).queuedDrops at queued
    rw [enqueueDropDb] at queued
    dsimp only at queued
    split at queued
    · exact unqueued queued
    · rcases List.mem_append.mp queued with old | new
      · exact unqueued old
      · exact kept (List.mem_singleton.mp new).symm
  | flush id orders =>
    refine ⟨(flush_durable creates sound holds unqueued move).1, ?_⟩
    rw [(@flush_cases _ _ _ _ _ _ _ _ name creates sound id orders move).2.2.1]
    exact List.not_mem_nil

theorem queued_step (creates : Creates map fresh) (sound : Sound map c.session)
    (queued : name ∈ c.session.pool.queuedDrops) (careful : Careful c call)
    (move : c.step store fresh putting map.contents flushIDKey call = some d) :
    name ∈ d.session.pool.queuedDrops ∨ Holds map flushIDKey d name fun _ => none := by
  cases call with
  | openDB other =>
    cases move
    exact .inl ((getDB_lookup c.session.pool other).2.2.1 ▸ queued)
  | getUnderlying other =>
    cases move
    exact .inl ((@getUnderlying_lookup _ fresh c.session other).2.2 ▸ queued)
  | write handle writes => exact .inl ((write_cases move).2.2.1 ▸ queued)
  | drop handle =>
    cases move
    refine .inl ?_
    change name ∈ (c.session.pool.enqueueDropDb handle.name).queuedDrops
    rw [enqueueDropDb]
    dsimp only
    split
    · exact queued
    · exact List.mem_append_left _ queued
  | flush id orders =>
    refine .inr ?_
    obtain ⟨disk, wrappers, _⟩ := @flush_cases _ _ _ _ _ _ _ _ name creates sound id orders move
    rw [remaining_lookup, if_pos queued] at wrappers
    refine ⟨?_, fun _ => ?_⟩
    · rw [reads_none wrappers]
      exact .refl _
    · rw [← @view_eq_none _ _ map, disk]
      by_cases opened : Opened c.session.pool name
      · exact (flushedData_queued queued).1 opened
      · rw [(flushedData_queued queued).2 opened, view_eq_none]
        exact (careful name queued).resolve_left opened

/-- Since a drop of the name: it is still queued, or all that is left was written since then. -/
def Purged (map : OrderedMap store) (flushIDKey : Bytes) (name : Name) (written : List Write)
    (c : Clients S) : Prop :=
  name ∈ c.session.pool.queuedDrops ∨
    ∃ left, left <:+ written ∧ Holds map flushIDKey c name (Contents.applyAll (fun _ => none) left)

theorem purged_step (creates : Creates map fresh) (sound : Sound map c.session)
    (purged : Purged map flushIDKey name written c) (careful : Careful c call)
    (move : c.step store fresh putting map.contents flushIDKey call = some d) :
    Purged map flushIDKey name (written ++ call.writesTo name) d := by
  by_cases queued : name ∈ c.session.pool.queuedDrops
  · refine (queued_step creates sound queued careful move).imp_right fun holds => ?_
    exact ⟨[], List.nil_suffix, holds⟩
  by_cases drops : call.Drops name
  · cases call with
    | drop handle =>
      cases drops
      cases move
      refine .inl ?_
      change handle.name ∈ (c.session.pool.enqueueDropDb handle.name).queuedDrops
      rw [enqueueDropDb, if_neg queued]
      simp
    | _ => cases drops
  · obtain ⟨left, suffix, holds⟩ := purged.resolve_left queued
    refine .inr ⟨left ++ call.writesTo name, ?_, ?_⟩
    · obtain ⟨earlier, rfl⟩ := suffix
      exact ⟨earlier, (List.append_assoc ..).symm⟩
    · rw [Contents.applyAll_append]
      exact (holds_step creates sound holds queued drops move).1

theorem sound_run (creates : Creates map fresh)
    (run : Run (step store fresh putting map.contents flushIDKey) Careful c calls d)
    (sound : Sound map c.session) : Sound map d.session :=
  @Run.invariant _ _ _ _ (fun c => Sound map c.session)
    (fun _ _ _ sound _ move => sound_step creates sound move) _ _ _ sound run

theorem purged_run (creates : Creates map fresh)
    (run : Run (step store fresh putting map.contents flushIDKey) Careful c calls d)
    (sound : Sound map c.session) (purged : Purged map flushIDKey name written c) :
    Purged map flushIDKey name (written ++ calls.flatMap (Call.writesTo name)) d := by
  induction run generalizing written with
  | nil => simpa using purged
  | cons careful move _ ih =>
    have later := ih (sound_step creates sound move) (purged_step creates sound purged careful move)
    rwa [List.append_assoc] at later

theorem live_step (creates : Creates map fresh) (sound : Sound map c.session) (live : c.Live handle)
    (unqueued : handle.name ∉ c.session.pool.queuedDrops)
    (move : c.step store fresh putting map.contents flushIDKey call = some d) : d.Live handle := by
  obtain ⟨registered, number⟩ := live
  obtain ⟨w, found⟩ := Option.isSome_iff_exists.mp registered
  have counted : ∀ other, c.counted other handle.name = c.made handle.name := by
    intro other
    rw [Clients.counted]
    cases known : c.session.pool.wrappers.lookup other with
    | some _ => rfl
    | none => grind
  have kept : ∀ {pool : SyncedPool} {other v}, pool.wrappers.lookup other = some v →
      (∀ name, name ≠ other → pool.wrappers.lookup name = c.session.pool.wrappers.lookup name) →
      (pool.wrappers.lookup handle.name).isSome := by
    intro pool other v own others
    by_cases same : handle.name = other
    · exact Option.isSome_of_eq_some (same ▸ own)
    · exact (congrArg Option.isSome (others handle.name same)).trans registered
  cases call with
  | openDB other =>
    cases move
    obtain ⟨own, others, _⟩ := getDB_lookup c.session.pool other
    exact ⟨kept own others, (counted other).trans number⟩
  | getUnderlying other =>
    cases move
    obtain ⟨own, others, _⟩ := @getUnderlying_lookup _ fresh c.session other
    exact ⟨kept own others, (counted other).trans number⟩
  | write other writes =>
    obtain ⟨_, _, _, made, others, _, _, now⟩ := write_cases move
    exact ⟨kept now others, (congrFun made handle.name).trans number⟩
  | drop other =>
    cases move
    exact ⟨registered, number⟩
  | flush id orders =>
    obtain ⟨_, wrappers, _, made⟩ :=
      @flush_cases _ _ _ _ _ _ _ _ handle.name creates sound id orders move
    refine ⟨?_, (congrFun made handle.name).trans number⟩
    rw [wrappers, remaining_lookup, if_neg unqueued, found]
    rfl

theorem kept_run (creates : Creates map fresh) {calls : List Call}
    (run : Run (step store fresh putting map.contents flushIDKey) Careful c calls d)
    (sound : Sound map c.session) {handle : Handle} (live : c.Live handle) {m : Contents}
    (holds : Holds map flushIDKey c handle.name m)
    (unqueued : handle.name ∉ c.session.pool.queuedDrops)
    (kept : ∀ call ∈ calls, ¬ call.Drops handle.name) :
    d.Live handle ∧ handle.name ∉ d.session.pool.queuedDrops ∧
      Holds map flushIDKey d handle.name (m.applyAll (calls.flatMap (Call.writesTo handle.name))) := by
  induction run generalizing m with
  | nil => exact ⟨live, unqueued, holds⟩
  | cons careful move _ ih =>
    obtain ⟨now, still⟩ := holds_step creates sound holds unqueued (kept _ List.mem_cons_self) move
    rw [List.flatMap_cons, Contents.applyAll_append]
    exact ih (sound_step creates sound move) (live_step creates sound live unqueued move) now still
      fun call inside => kept call (List.mem_cons_of_mem _ inside)

theorem write_possible {handle : Handle} (live : c.Live handle) (writes : List Write) :
    ∃ d, c.step store fresh putting map.contents flushIDKey (.write handle writes) = some d := by
  obtain ⟨w, found⟩ := Option.isSome_iff_exists.mp live.1
  rw [step, if_pos live, Session.step, found]
  exact ⟨_, rfl⟩

theorem openDB_live (move : c.step store fresh putting map.contents flushIDKey (.openDB name) = some d) :
    d.Live ⟨name, d.made name⟩ := by
  cases move
  exact ⟨Option.isSome_of_eq_some (getDB_lookup c.session.pool name).1, rfl⟩

/-- After a drop, a store that is opened under the same name shows only what was written since, and
keeps what is written to it. -/
theorem reopened_fresh (creates : Creates map fresh) {disk : Disk S} (valid : DiskValid map disk)
    {flushes : List Flushed} {before between : List Call} {a b : Clients S} {handle : Handle}
    (first : Run (step store fresh putting map.contents flushIDKey) Careful (start disk flushes) before a)
    (dropped : a.step store fresh putting map.contents flushIDKey (.drop handle) = some b)
    (middle : Run (step store fresh putting map.contents flushIDKey) Careful b between c)
    (careful : Careful c (.openDB handle.name))
    (reopened : c.step store fresh putting map.contents flushIDKey (.openDB handle.name) = some d) :
    (∃ left, left <:+ between.flatMap (Call.writesTo handle.name) ∧
      SameData flushIDKey (some (d.reads map.contents handle.name))
        (some (Contents.applyAll (fun _ => none) left))) ∧
    ∀ later e, Run (step store fresh putting map.contents flushIDKey) Careful d later e →
      (∀ call ∈ later, ¬ call.Drops handle.name) →
      e.Live ⟨handle.name, d.made handle.name⟩ ∧
      SameData flushIDKey (some (e.reads map.contents handle.name)) (some
        ((d.reads map.contents handle.name).applyAll (later.flatMap (Call.writesTo handle.name)))) ∧
      (∀ id orders f, e.step store fresh putting map.contents flushIDKey (.flush id orders) = some f →
        view map f.session.disk handle.name = some (f.reads map.contents handle.name) ∧
        SameData flushIDKey (some (f.reads map.contents handle.name))
          (some (e.reads map.contents handle.name)) ∧
        f.Live ⟨handle.name, d.made handle.name⟩) ∧
      ∀ writes, ∃ g, e.step store fresh putting map.contents flushIDKey
          (.write ⟨handle.name, d.made handle.name⟩ writes) = some g ∧
        g.reads map.contents handle.name = (e.reads map.contents handle.name).applyAll writes := by
  have soundA := sound_run creates first ⟨valid, List.nodup_nil, nofun⟩
  have soundB := sound_step creates soundA dropped
  have queued : Purged map flushIDKey handle.name [] b := by
    cases dropped
    refine .inl ?_
    change handle.name ∈ (a.session.pool.enqueueDropDb handle.name).queuedDrops
    rw [enqueueDropDb]
    dsimp only
    split
    · assumption
    · simp
  obtain ⟨left, suffix, holdsC⟩ := (purged_run creates middle soundB queued).resolve_left careful
  have soundC := sound_run creates middle soundB
  obtain ⟨holdsD, unqueued⟩ := @holds_step _ _ _ _ _ _ _ _ _ creates soundC _ holdsC careful
    (.openDB handle.name) (fun wrong => wrong) reopened
  have soundD := sound_step creates soundC reopened
  have live := openDB_live reopened
  refine ⟨⟨left, suffix, holdsD.reads⟩, fun later e run kept => ?_⟩
  have exactly : Holds map flushIDKey d handle.name (d.reads map.contents handle.name) :=
    ⟨.refl _, holdsD.absent⟩
  obtain ⟨liveE, unqueuedE, holdsE⟩ := @kept_run _ _ _ _ _ _ _ _ creates _ run soundD
    ⟨handle.name, d.made handle.name⟩ live _ exactly unqueued kept
  have soundE := sound_run creates run soundD
  refine ⟨liveE, holdsE.reads, fun id orders f move => ?_, fun writes => ?_⟩
  · have same : Holds map flushIDKey e handle.name (e.reads map.contents handle.name) :=
      ⟨.refl _, holdsE.absent⟩
    obtain ⟨holdsF, durable⟩ := flush_durable creates soundE same unqueuedE move
    exact ⟨durable liveE.1, holdsF.reads, live_step creates soundE liveE unqueuedE move⟩
  · obtain ⟨g, move⟩ := @write_possible _ store map fresh putting flushIDKey _ _ liveE writes
    exact ⟨g, move, @reads_write _ _ _ _ _ _ _ _ ⟨handle.name, d.made handle.name⟩ _ move⟩

def sampleStep : Clients (Flushable Unit) → Call → Option (Clients (Flushable Unit)) :=
  step memorydb (.wrap ()) (.plain _ _) memorydb.orderedMap.contents [9]

def sampleCalls : List Call :=
  [.openDB "a", .write ⟨"a", 1⟩ [⟨[1], some [2]⟩], .flush [1] ⟨[], ["a"], ["a"], ["a"]⟩]

/-- The drop is flushed, and the store that is opened then is empty. -/
theorem reopened_fresh_flushed : ∃ a b c d,
    Run sampleStep Careful (start (fun _ => none) []) sampleCalls a ∧
    sampleStep a (.drop ⟨"a", 1⟩) = some b ∧
    sampleStep b (.flush [2] ⟨["a"], [], [], []⟩) = some c ∧ sampleStep c (.openDB "a") = some d ∧
    d.reads memorydb.orderedMap.contents "a" [1] = none := by
  obtain ⟨a, b, c, d, first, drop, flush, reopened, unqueued, opened⟩ : ∃ a b c d,
      Run sampleStep Careful (start (fun _ => none) []) sampleCalls a ∧
      sampleStep a (.drop ⟨"a", 1⟩) = some b ∧
      sampleStep b (.flush [2] ⟨["a"], [], [], []⟩) = some c ∧ sampleStep c (.openDB "a") = some d ∧
      Careful c (.openDB "a") ∧ Careful b (.flush [2] ⟨["a"], [], [], []⟩) := by
    refine ⟨_, _, _, _, .cons ?_ rfl (.cons trivial rfl (.cons ?_ rfl (.nil _))), rfl, rfl, rfl, ?_, ?_⟩
    · exact List.not_mem_nil
    · exact fun name queued => (nomatch queued)
    · exact List.not_mem_nil
    · intro name queued
      cases List.mem_singleton.mp queued
      exact .inl ⟨_, rfl, rfl⟩
  have valid : DiskValid memorydb.orderedMap fun _ => none := fun _ _ wrong => (nomatch wrong)
  obtain ⟨left, suffix, same⟩ := (reopened_fresh creates_memorydb valid first drop
    (.cons opened flush (.nil _)) unqueued reopened).1
  cases List.suffix_nil.mp suffix
  exact ⟨a, b, c, d, first, drop, flush, reopened, same [1] (by decide)⟩

/-- The store is opened again before the drop is flushed: it shows the old pair, and what is written
to it is gone with the flush, and so is the store. -/
theorem reopened_stale : ∃ d e f : Clients (Flushable Unit),
    (sampleCalls ++ [Call.drop ⟨"a", 1⟩, .openDB "a"]).foldlM sampleStep (start (fun _ => none) []) =
      some d ∧
    d.reads memorydb.orderedMap.contents "a" [1] = some [2] ∧
    sampleStep d (.write ⟨"a", d.made "a"⟩ [⟨[3], some [4]⟩]) = some e ∧
    sampleStep e (.flush [2] ⟨["a"], [], [], []⟩) = some f ∧ f.session.disk "a" = none ∧
    ¬ f.Live ⟨"a", d.made "a"⟩ :=
  ⟨_, _, _, rfl, rfl, rfl, rfl, rfl, by decide⟩

end Clients

end Lachesis.Kvdb
