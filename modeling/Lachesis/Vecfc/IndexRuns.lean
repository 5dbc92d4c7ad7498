import Lachesis.Vecfc.IndexRefines

/-!
Whole runs of an index: events are added parents first and flushed one by one, and
`ForklessCause` and `GetMergedHighestBefore` are asked in between, in any order and with
caches of any size. The invariant ties what the index holds to the event graph.
-/

namespace Lachesis.Vecfc

open Dag Pos WeightedQuorum Vecengine Simplewlru Simulation

structure VecDb.Stores (db : VecDb) (vv : Validators) (bi : BranchesInfo) (t : Tables) : Prop where
  branch : ∀ id, db.eventBranch.lookup id = t.branch id
  before : ∀ id, db.highestBeforeSeq.lookup id = t.before id
  after : ∀ id, db.lowestAfterSeq.lookup id = t.after id
  info : (db.branchesInfo.lookup ()).getD (newInitialBranchesInfo vv) = bi

namespace Index

/-- The index works with the branches `bi` and the tables `t` over the database `db`. -/
structure Knows (vi : Index) (db : VecDb) (bi : BranchesInfo) (t : Tables) : Prop where
  shows : vi.store.Shows t
  persisted : vi.persisted = db
  info : vi.bi.getD ((vi.branchesInfo.get ()).getD (newInitialBranchesInfo vi.validators)) = bi
  unwritten : vi.branchesInfo.modified = []

variable {vi : Index} {db : VecDb} {bi : BranchesInfo} {t : Tables}

theorem initBranchesInfo_knows (knows : vi.Knows db bi t) :
    vi.initBranchesInfo = (bi, { vi with bi := some bi }) := by
  have info := knows.info
  unfold initBranchesInfo
  cases loaded : vi.bi with
  | none =>
    rw [loaded, Option.getD_none] at info
    simp only [info]
  | some bi' =>
    rw [loaded, Option.getD_some] at info
    subst bi'
    simp only [← loaded]

variable {t' : Tables} {vv : Validators}

theorem Knows.store (knows : vi.Knows db bi t) {store : VecStore} (shows : store.Shows t')
    (kept : store.underlying = vi.store.underlying) (later : BranchesInfo)
    (cache : Cache (EventID × EventID) Bool) :
    ({ vi with bi := some later, store := store, forklessCauseCache := cache } : Index).Knows
      db later t' := by
  refine ⟨shows, ?_, rfl, knows.unwritten⟩
  simp only [VecStore.underlying, Prod.mk.injEq] at kept
  rw [← knows.persisted]
  simp [Index.persisted, kept]

theorem add_knows (knows : vi.Knows db bi t) {e : Event} {later : BranchesInfo}
    (fill : fillEventVectors tables vi.source vi.validators bi t e = .ok (later, t')) :
    ∃ store, vi.add e = .ok { vi with bi := some later, store := store } ∧
      ({ vi with bi := some later, store := store } : Index).Knows db later t' := by
  have sim := fillEventVectors_simulates (callbacks_keep vi.store.underlying) vi.source
    vi.validators ⟨knows.shows, rfl⟩ bi e
  obtain ⟨⟨later', store⟩, run, same, shows, kept⟩ := related_ok sim fill
  simp only at same shows kept
  subst later'
  refine ⟨store, ?_, knows.store shows kept later vi.forklessCauseCache⟩
  simp [add, initBranchesInfo_knows knows, run, bind, Except.bind, pure, Except.pure]

theorem flush_knows (knows : vi.Knows db bi t) :
    vi.flush.Knows vi.flush.persisted bi t ∧ vi.flush.persisted.Stores vi.validators bi t := by
  have branch : ∀ id, vi.store.eventBranch.flush.get id = t.branch id := by
    intro id
    rw [Flushable.get_flush, knows.shows.branch]
  have before : ∀ id, vi.store.highestBeforeSeq.flush.get id = t.before id := by
    intro id
    rw [Flushable.get_flush, knows.shows.before]
  have after : ∀ id, vi.store.lowestAfterSeq.flush.get id = t.after id := by
    intro id
    rw [Flushable.get_flush, knows.shows.after]
  have info := knows.info
  have unwritten := knows.unwritten
  constructor
  · refine ⟨⟨branch, before, after, knows.shows.beforeCache, knows.shows.afterCache⟩, rfl, ?_, rfl⟩
    cases loaded : vi.bi <;> simpa [flush, loaded] using info
  · refine ⟨branch, before, after, ?_⟩
    cases loaded : vi.bi <;>
      simpa [flush, persisted, loaded, Flushable.flush, Flushable.put, Flushable.get, unwritten]
        using info

theorem dropNotFlushed_knows {bi' : BranchesInfo} (knows : vi.Knows db bi' t')
    (stores : db.Stores vi.validators bi t) : vi.dropNotFlushed.Knows db bi t := by
  obtain rfl := knows.persisted
  have info : (vi.branchesInfo.get ()).getD (newInitialBranchesInfo vi.validators) = bi := by
    rw [← stores.info]
    simp [Flushable.get, knows.unwritten, persisted]
  unfold dropNotFlushed
  split
  · exact ⟨⟨stores.branch, stores.before, stores.after, Cache.purge_holds, Cache.purge_holds⟩,
      rfl, stores.info, rfl⟩
  · next clean =>
    -- nothing was written, so the tables were those of the database all along
    have empty : vi.store.eventBranch.modified = [] ∧ vi.store.highestBeforeSeq.modified = [] ∧
        vi.store.lowestAfterSeq.modified = [] := by
      simpa [notFlushedPairs, Flushable.notFlushedPairs, knows.unwritten, and_assoc] using clean
    have branch : t'.branch = t.branch := by
      funext id
      rw [← knows.shows.branch, ← stores.branch]
      simp [Flushable.get, empty, persisted]
    have before : t'.before = t.before := by
      funext id
      rw [← knows.shows.before, ← stores.before]
      simp [Flushable.get, empty, persisted]
    have after : t'.after = t.after := by
      funext id
      rw [← knows.shows.after, ← stores.after]
      simp [Flushable.get, empty, persisted]
    have same : t' = t := by
      cases t'
      cases t
      simp_all
    exact ⟨same ▸ knows.shows, rfl, info, knows.unwritten⟩

theorem new_knows (cfg : IndexConfig) (source : EventSource) (stores : db.Stores vv bi t) :
    (Index.new cfg vv db source).Knows db bi t :=
  ⟨⟨stores.branch, stores.before, stores.after, Cache.new_holds _ _, Cache.new_holds _ _⟩, rfl,
    stores.info, rfl⟩

theorem reset_knows (vi : Index) (source : EventSource) (stores : db.Stores vv bi t) :
    (vi.reset vv db source).Knows db bi t :=
  ⟨⟨stores.branch, stores.before, stores.after, Cache.purge_holds, Cache.purge_holds⟩, rfl,
    stores.info, rfl⟩

structure Agrees (vi vi' : Index) : Prop where
  validators : vi'.validators = vi.validators
  source : vi'.source = vi.source
  loaded : vi'.bi = none → vi.bi = none

/-- An answer comes from the cache or is computed. What is cached afterwards was cached
before or is this answer. -/
theorem forklessCause_knows (knows : vi.Knows db bi t) {a b : EventID} {res : Bool}
    (answer : Vecfc.forklessCause tables vi.validators bi t a b = .ok (res, t))
    (hit : ∀ cached, (vi.forklessCauseCache.get (a, b)).1 = some cached → cached = res) :
    ∃ vi', vi.forklessCause a b = .ok (res, vi') ∧ vi'.Knows db bi t ∧ vi.Agrees vi' ∧
      ∀ p, vi.forklessCauseCache.Holds p → p (a, b) res → vi'.forklessCauseCache.Holds p := by
  rcases found : vi.forklessCauseCache.get (a, b) with ⟨cached, cache⟩
  have kept : ∀ p, vi.forklessCauseCache.Holds p → cache.Holds p := by
    intro p holds
    have := (Cache.get_holds holds (a, b)).1
    rwa [found] at this
  have knows' : ({ vi with forklessCauseCache := cache } : Index).Knows db bi t :=
    ⟨knows.shows, knows.persisted, knows.info, knows.unwritten⟩
  rw [found] at hit
  cases cached with
  | some cached =>
    have same := hit cached rfl
    subst same
    exact ⟨{ vi with forklessCauseCache := cache }, by simp [forklessCause, found], knows',
      ⟨rfl, rfl, id⟩, fun p holds _ => kept p holds⟩
  | none =>
    have sim := forklessCause_simulates (callbacks_keep vi.store.underlying) vi.validators
      ⟨knows.shows, rfl⟩ bi a b
    obtain ⟨⟨res', store⟩, run, same, shows, same'⟩ := related_ok sim answer
    simp only at same shows same'
    subst res'
    refine ⟨_, ?_, knows.store shows same' bi (cache.add (a, b) res 1),
      ⟨rfl, rfl, by simp⟩, fun p holds fits => ?_⟩
    · simp [forklessCause, found, initBranchesInfo_knows knows', run, bind, Except.bind, pure,
        Except.pure]
    · exact Cache.add_holds (fun ent member _ => kept p holds ent member) fits

theorem getMergedHighestBefore_knows (knows : vi.Knows db bi t) {id : EventID}
    {vec : HighestBeforeSeq}
    (answer : Vecfc.getMergedHighestBefore tables vi.validators bi t id = .ok (vec, t)) :
    ∃ vi', vi.getMergedHighestBefore id = .ok (vec, vi') ∧ vi'.Knows db bi t ∧ vi.Agrees vi' ∧
      vi'.forklessCauseCache = vi.forklessCauseCache := by
  have sim := getMergedHighestBefore_simulates (callbacks_keep vi.store.underlying) vi.validators
    ⟨knows.shows, rfl⟩ bi id
  obtain ⟨⟨vec', store⟩, run, same, shows, kept⟩ := related_ok sim answer
  simp only at same shows kept
  subst vec'
  refine ⟨_, ?_, knows.store shows kept bi vi.forklessCauseCache, ⟨rfl, rfl, by simp⟩, rfl⟩
  simp [getMergedHighestBefore, initBranchesInfo_knows knows, run, bind, Except.bind, pure,
    Except.pure]

theorem dropNotFlushed_rest (vi : Index) : vi.dropNotFlushed.validators = vi.validators ∧
    vi.dropNotFlushed.source = vi.source ∧
    vi.dropNotFlushed.forklessCauseCache = vi.forklessCauseCache := by
  unfold dropNotFlushed
  split
  · exact ⟨rfl, rfl, rfl⟩
  · exact ⟨rfl, rfl, rfl⟩

end Index

variable {vv : Validators} (D : EventDag vv)

/-- The index after the events of `L`, with nothing left to flush. -/
structure IndexAt (L : List Event) (vi : Index) (db : VecDb) (bi : BranchesInfo) (t : Tables) :
    Prop where
  group : vi.validators = vv
  source : D.HeldBy vi.source
  knows : vi.Knows db bi t
  stores : db.Stores vv bi t
  spec : Spec D bi t L

def Answered (pair : EventID × EventID) (res : Bool) : Prop :=
  ∀ x ∈ D.events, ∀ y ∈ D.events, x.id = pair.1 → y.id = pair.2 →
    (res = true ↔ ForklessCaused D.events vv x y)

structure Charts (bi : BranchesInfo) (t : Tables) (L : List Event) : Prop where
  spec : Spec D bi t L
  chains : Chains D bi t.branch L

def VecDb.Holds (db : VecDb) (L : List Event) : Prop :=
  ∃ bi t, db.Stores vv bi t ∧ Charts D bi t L

/-- The index has worked in the events of `L` and flushed those of `kept`. -/
structure IndexInv (kept L : List Event) (vi : Index) : Prop where
  received : D.Received L
  group : vi.validators = vv
  source : D.HeldBy vi.source
  state : ∃ bi t, vi.Knows vi.persisted bi t ∧ Charts D bi t L
  flushed : vi.persisted.Holds D kept
  loaded : vi.bi = none → kept = L
  answers : vi.forklessCauseCache.Holds (Answered D)

/-- The states of an index between two calls. Each event is flushed once it is added. -/
inductive Reached (cfg : IndexConfig) : List Event → Index → Prop where
  | start {source : EventSource} (held : D.HeldBy source) :
      Reached cfg [] (Index.new cfg vv .empty source)
  | add {L : List Event} {vi vi' : Index} {e : Event} (before : Reached cfg L vi)
      (received : D.Received (L ++ [e])) (run : vi.add e = .ok vi') :
      Reached cfg (L ++ [e]) vi'.flush
  | drop {L : List Event} {vi : Index} (before : Reached cfg L vi) : Reached cfg L vi.dropNotFlushed
  | ask {L : List Event} {vi vi' : Index} {a b : Event} {res : Bool} (before : Reached cfg L vi)
      (inA : a ∈ L) (inB : b ∈ L) (run : vi.forklessCause a.id b.id = .ok (res, vi')) :
      Reached cfg L vi'
  | merge {L : List Event} {vi vi' : Index} {a : Event} {vec : HighestBeforeSeq}
      (before : Reached cfg L vi) (inA : a ∈ L)
      (run : vi.getMergedHighestBefore a.id = .ok (vec, vi')) : Reached cfg L vi'

variable {D} {kept L : List Event} {vi : Index} {db : VecDb} {bi : BranchesInfo} {t : Tables}

theorem received_nil : D.Received [] := ⟨trivial, by simp⟩

theorem empty_stores : VecDb.empty.Stores vv (newInitialBranchesInfo vv) noTables :=
  ⟨fun _ => rfl, fun _ => rfl, fun _ => rfl, rfl⟩

theorem empty_holds : VecDb.empty.Holds D [] :=
  ⟨_, _, empty_stores, noTables_spec, noTables_chains⟩

variable {source : EventSource} {e a : Event}

theorem new_at (cfg : IndexConfig) (held : D.HeldBy source) :
    IndexAt D [] (Index.new cfg vv .empty source) .empty (newInitialBranchesInfo vv) noTables :=
  ⟨rfl, held, Index.new_knows cfg source empty_stores, empty_stores, noTables_spec⟩

theorem add_at (before : IndexAt D L vi db bi t) (received : D.Received (L ++ [e])) :
    ∃ vi' db' b later t', vi.add e = .ok vi' ∧ IndexAt D (L ++ [e]) vi'.flush db' later t' ∧
      Choice bi (vv.getIdx e.creator) (selfBranch t e) e b later ∧
      t'.branch = (t.withBranch e b).branch ∧ (∀ x ∈ L, t'.before x.id = t.before x.id) ∧
      vi'.flush.forklessCauseCache = vi.forklessCauseCache := by
  obtain ⟨b, later, t', fill, choice, _, branch, before', spec⟩ :=
    fillEventVectors_spec before.source before.spec received
  rw [← before.group] at fill
  obtain ⟨store, run, knows⟩ := Index.add_knows before.knows fill
  obtain ⟨flushed, stores⟩ := Index.flush_knows knows
  rw [show vi.validators = vv from before.group] at stores
  exact ⟨_, _, b, later, t', run, ⟨before.group, before.source, flushed, stores, spec⟩, choice,
    branch, before', rfl⟩

theorem new_inv (cfg : IndexConfig) (held : D.HeldBy source) (received : D.Received L)
    (holds : db.Holds D L) : IndexInv D L L (Index.new cfg vv db source) := by
  obtain ⟨bi, t, stores, charts⟩ := holds
  refine ⟨received, rfl, held, ⟨bi, t, ?_, charts⟩, ⟨bi, t, stores, charts⟩, fun _ => rfl,
    Cache.new_holds _ _⟩
  exact Index.new_knows cfg source stores

theorem add_inv (cap : WithinCap D) (inv : IndexInv D kept L vi) (received : D.Received (L ++ [e])) :
    ∃ vi', vi.add e = .ok vi' ∧ IndexInv D kept (L ++ [e]) vi' := by
  obtain ⟨bi, t, knows, charts⟩ := inv.state
  obtain ⟨b, later, t', fill, choice, _, branch, _, spec⟩ :=
    fillEventVectors_spec inv.source charts.spec received
  rw [← inv.group] at fill
  obtain ⟨store, run, knows'⟩ := Index.add_knows knows fill
  have room := (EventDag.selfTips_le received e.creator).trans (cap e.creator)
  have chains := chains_step charts.spec charts.chains received choice room
  rw [← branch] at chains
  have same := knows'.persisted
  rw [← same] at knows'
  exact ⟨_, run, received, inv.group, inv.source, ⟨later, t', knows', spec, chains⟩,
    same ▸ inv.flushed, by simp, inv.answers⟩

theorem flush_inv (inv : IndexInv D kept L vi) : IndexInv D L L vi.flush := by
  obtain ⟨bi, t, knows, charts⟩ := inv.state
  obtain ⟨flushed, stores⟩ := Index.flush_knows knows
  rw [inv.group] at stores
  exact ⟨inv.received, inv.group, inv.source, ⟨bi, t, flushed, charts⟩, ⟨bi, t, stores, charts⟩,
    fun _ => rfl, inv.answers⟩

theorem drop_inv (before : D.Received kept) (inv : IndexInv D kept L vi) :
    IndexInv D kept kept vi.dropNotFlushed := by
  obtain ⟨bi', t', knows, _⟩ := inv.state
  obtain ⟨bi, t, stores, charts⟩ := inv.flushed
  have dropped := Index.dropNotFlushed_knows knows (inv.group.symm ▸ stores)
  have same := dropped.persisted
  obtain ⟨group, source, answers⟩ := Index.dropNotFlushed_rest vi
  rw [← same] at dropped
  exact ⟨before, group.trans inv.group, source ▸ inv.source, ⟨bi, t, dropped, charts⟩,
    ⟨bi, t, same ▸ stores, charts⟩, fun _ => rfl, answers ▸ inv.answers⟩

theorem IndexInv.agrees (inv : IndexInv D kept L vi) {vi' : Index} (agrees : vi.Agrees vi')
    (knows : vi'.Knows vi.persisted bi t) (charts : Charts D bi t L)
    (answers : vi'.forklessCauseCache.Holds (Answered D)) : IndexInv D kept L vi' := by
  have same := knows.persisted
  rw [← same] at knows
  exact ⟨inv.received, agrees.validators.trans inv.group, agrees.source ▸ inv.source,
    ⟨bi, t, knows, charts⟩, same ▸ inv.flushed, fun empty => inv.loaded (agrees.loaded empty),
    answers⟩

theorem forklessCause_inv (inv : IndexInv D kept L vi) {b : Event} (inA : a ∈ L) (inB : b ∈ L) :
    ∃ res vi', vi.forklessCause a.id b.id = .ok (res, vi') ∧ IndexInv D kept L vi' ∧
      (res = true ↔ ForklessCaused D.events vv a b) ∧ vi.Agrees vi' ∧
      ∀ p, vi.forklessCauseCache.Holds p → p (a.id, b.id) res →
        vi'.forklessCauseCache.Holds p := by
  obtain ⟨bi, t, knows, charts⟩ := inv.state
  obtain ⟨res, answer, right⟩ :=
    forklessCause_tables charts.spec charts.chains inv.received inA inB
  rw [← inv.group] at answer
  have inA' := inv.received.inside a inA
  have inB' := inv.received.inside b inB
  have hit : ∀ cached, (vi.forklessCauseCache.get (a.id, b.id)).1 = some cached →
      cached = res := by
    intro cached found
    have answered := (Cache.get_holds inv.answers (a.id, b.id)).2 cached found
    exact Bool.eq_iff_iff.mpr ((answered a inA' b inB' rfl rfl).trans right.symm)
  have fits : Answered D (a.id, b.id) res := by
    intro x inX y inY sameX sameY
    rw [EventDag.ids inX inA' sameX, EventDag.ids inY inB' sameY]
    exact right
  obtain ⟨vi', run, knows', agrees, holds⟩ := Index.forklessCause_knows knows answer hit
  exact ⟨res, vi', run, inv.agrees agrees knows' charts (holds _ inv.answers fits), right, agrees,
    holds⟩

theorem getMergedHighestBefore_inv (inv : IndexInv D kept L vi) (inA : a ∈ L) :
    ∃ vec vi', vi.getMergedHighestBefore a.id = .ok (vec, vi') ∧ IndexInv D kept L vi' ∧
      (∀ v ∈ vv.sortedIDs, (vec.isForkDetected (vv.getIdx v) = true ↔ ForkSeen D.events a v) ∧
        (¬ ForkSeen D.events a v → IsGreatest
          (insert 0 {n | ∃ x, Observes D.events a x ∧ x.creator = v ∧ x.seq = n})
          (vec.seq (vv.getIdx v)))) ∧
      vi.Agrees vi' ∧ vi'.forklessCauseCache = vi.forklessCauseCache := by
  obtain ⟨bi, t, knows, charts⟩ := inv.state
  obtain ⟨vec, answer, merged⟩ := getMergedHighestBefore_tables charts.spec inv.received inA
  rw [← inv.group] at answer
  obtain ⟨vi', run, knows', agrees, cache⟩ := Index.getMergedHighestBefore_knows knows answer
  refine ⟨vec, vi', run, inv.agrees agrees knows' charts (cache ▸ inv.answers),
    fun v listed => ?_, agrees, cache⟩
  obtain ⟨marked, highest⟩ := merged _ (getIdx_lt listed)
  have seen := clash_iff_forkSeen charts.spec charts.chains inv.received inA listed
  have seqs : {m | ∃ b, bi.creatorIdx b = vv.getIdx v ∧ SeqOn D t a b m} =
      {n | ∃ x, Observes D.events a x ∧ x.creator = v ∧ x.seq = n} := by
    ext n
    constructor
    · rintro ⟨b, owner, x, sees, on, seq⟩
      obtain ⟨b', on', _, owner'⟩ := charts.spec.branch x (inv.received.observes inA sees)
      cases on.symm.trans on'
      have inX := inv.received.inside x (inv.received.observes inA sees)
      exact ⟨x, sees, getIdx_injective (D.valid x inX).listed listed (owner'.symm.trans owner), seq⟩
    · rintro ⟨x, sees, rfl, seq⟩
      obtain ⟨b, on, _, owner⟩ := charts.spec.branch x (inv.received.observes inA sees)
      exact ⟨b, owner, x, sees, on, seq⟩
  rw [marked, seen]
  exact ⟨Iff.rfl, fun quiet => seqs ▸ highest (seen.not.mpr quiet)⟩

theorem reached_inv (cap : WithinCap D) {cfg : IndexConfig} (reached : Reached D cfg L vi) :
    IndexInv D L L vi := by
  induction reached with
  | start held => exact new_inv cfg held received_nil empty_holds
  | add _ received run ih =>
    obtain ⟨vi', run', inv⟩ := add_inv cap ih received
    rw [run, Except.ok.injEq] at run'
    subst run'
    exact flush_inv inv
  | drop _ ih => exact drop_inv ih.received ih
  | ask _ inA inB run ih =>
    obtain ⟨res, vi', run', inv, _⟩ := forklessCause_inv ih inA inB
    rw [run, Except.ok.injEq, Prod.mk.injEq] at run'
    exact run'.2 ▸ inv
  | merge _ inA run ih =>
    obtain ⟨vec, vi', run', inv, _⟩ := getMergedHighestBefore_inv ih inA
    rw [run, Except.ok.injEq, Prod.mk.injEq] at run'
    exact run'.2 ▸ inv

theorem exists_reached (cap : WithinCap D) (cfg : IndexConfig) (received : D.Received L) :
    ∃ vi, Reached D cfg L vi := by
  induction L using List.reverseRecOn with
  | nil => exact ⟨_, .start EventDag.heldBy_source⟩
  | append_singleton L e ih =>
    obtain ⟨vi, reached⟩ := ih received.snoc.1
    obtain ⟨vi', run, _⟩ := add_inv cap (reached_inv cap reached) received
    exact ⟨_, .add reached received run⟩

/-- `ForklessCause` computes its graph definition at any moment of a run, and no step of
a run fails. -/
theorem forklessCause_iff_forklessCaused (cap : WithinCap D) {cfg : IndexConfig}
    (reached : Reached D cfg L vi) :
    (∀ e, D.Received (L ++ [e]) → ∃ vi', vi.add e = .ok vi') ∧
    ∀ a ∈ L, ∀ b ∈ L, ∃ res vi', vi.forklessCause a.id b.id = .ok (res, vi') ∧
      (res = true ↔ ForklessCaused D.events vv a b) := by
  have inv := reached_inv cap reached
  refine ⟨fun e received => ?_, fun a inA b inB => ?_⟩
  · obtain ⟨vi', run, _⟩ := add_inv cap inv received
    exact ⟨vi', run⟩
  · obtain ⟨res, vi', run, _, right, _⟩ := forklessCause_inv inv inA inB
    exact ⟨res, vi', run, right⟩

section Sample

def fourValidators : Validators where
  sortedArray := [⟨1, 1⟩, ⟨2, 1⟩, ⟨3, 1⟩, ⟨4, 1⟩]
  ordered := by decide
  distinct := by decide
  positive := by decide
  limited := by decide

def firstEvent (creator id : Nat) (parents : List EventID) : Event :=
  { epoch := 1
    seq := 1
    frame := 1
    creator := creator
    parents := parents
    lamport := 1 + parents.length
    id := BitVec.ofNat 256 id }

/-- Validator 4 forks; the other three observe one side of the fork, one after the other. -/
def forkedEvents : List Event :=
  [firstEvent 4 41 [], firstEvent 4 42 [], firstEvent 1 11 [41#256], firstEvent 2 21 [11#256],
    firstEvent 3 31 [21#256]]

theorem forkedEvents_first : ∀ e ∈ forkedEvents, e.selfParent = none ∧ e.seq = 1 ∧
    e.creator ∈ fourValidators.sortedIDs := by
  decide

def forkedDag : EventDag fourValidators where
  events := forkedEvents
  ordered := by decide
  valid := by
    intro e member
    obtain ⟨alone, first, listed⟩ := forkedEvents_first e member
    exact ⟨listed, fun _ => first, by simp [alone]⟩

theorem forkedDag_cap : WithinCap forkedDag := by
  intro v
  have few : forkedDag.events.length ≤ maxBranchesPerValidator := by decide
  exact (List.length_filter_le _ _).trans few

end Sample

theorem forklessCause_iff_forklessCaused_forked :
    ∃ vi, Reached forkedDag ⟨2, 3, 4⟩ forkedEvents vi ∧ ∃ res vi',
      vi.forklessCause 31#256 41#256 = .ok (res, vi') ∧
      (res = true ↔ ForklessCaused forkedEvents fourValidators (firstEvent 3 31 [21#256])
        (firstEvent 4 41 [])) := by
  obtain ⟨vi, reached⟩ := exists_reached forkedDag_cap ⟨2, 3, 4⟩ EventDag.received_events
  exact ⟨vi, reached, (forklessCause_iff_forklessCaused forkedDag_cap reached).2
    (firstEvent 3 31 [21#256]) (by decide) (firstEvent 4 41 []) (by decide)⟩

/-- Two instances, or one, never find both sides of a fork forkless caused. -/
theorem forklessCause_exclusive (cap : WithinCap D) (light : LightForks D.events vv)
    {cfg cfg' : IndexConfig} {L' : List Event} {vi' : Index} (reached : Reached D cfg L vi)
    (reached' : Reached D cfg' L' vi') {v : ValidatorID} {b b' : Event}
    (fork : Fork D.events v b b') (inB : b ∈ L) (inB' : b' ∈ L') {a a' : Event} (inA : a ∈ L)
    (inA' : a' ∈ L') {after after' : Index} :
    ¬ (vi.forklessCause a.id b.id = .ok (true, after) ∧
      vi'.forklessCause a'.id b'.id = .ok (true, after')) := by
  rintro ⟨run, run'⟩
  have inv := reached_inv cap reached
  have inv' := reached_inv cap reached'
  obtain ⟨res, _, answer, _, right, _⟩ := forklessCause_inv inv inA inB
  obtain ⟨res', _, answer', _, right', _⟩ := forklessCause_inv inv' inA' inB'
  rw [run, Except.ok.injEq, Prod.mk.injEq] at answer
  rw [run', Except.ok.injEq, Prod.mk.injEq] at answer'
  exact EventDag.forklessCaused_exclusive light (inv.received.inside a inA)
    (inv'.received.inside a' inA') fork (right.mp answer.1.symm) (right'.mp answer'.1.symm)

theorem forkedDag_fork : Fork forkedEvents 4 (firstEvent 4 41 []) (firstEvent 4 42 []) := by
  have stuck : ∀ x ∈ forkedEvents, ∀ y, SelfObserves forkedEvents x y → x = y := by
    intro x inside y path
    rcases Relation.ReflTransGen.cases_head path with same | ⟨z, step, _⟩
    · exact same
    · have self := step.2
      simp [(forkedEvents_first x inside).1] at self
  refine ⟨rfl, rfl, fun path => ?_, fun path => ?_⟩
  · exact absurd (stuck _ (by decide) _ path) (by decide)
  · exact absurd (stuck _ (by decide) _ path) (by decide)

theorem fourValidators_light {events : List Event}
    (only : forkers events fourValidators ⊆ {4}) : LightForks events fourValidators := by
  have bound := mass_mono fourValidators.get only
  have weight : mass fourValidators.get {4} = 1 := by decide
  have total : fourValidators.totalWeight = 4 := by decide
  unfold LightForks
  omega

theorem forkedDag_light : LightForks forkedEvents fourValidators :=
  fourValidators_light (forkers_subset (by decide))

theorem forklessCause_exclusive_forked :
    ∃ vi, Reached forkedDag ⟨2, 3, 4⟩ forkedEvents vi ∧ ∀ after after',
      ¬ (vi.forklessCause 31#256 41#256 = .ok (true, after) ∧
        vi.forklessCause 31#256 42#256 = .ok (true, after')) := by
  obtain ⟨vi, reached⟩ := exists_reached forkedDag_cap ⟨2, 3, 4⟩ EventDag.received_events
  have asker : firstEvent 3 31 [21#256] ∈ forkedEvents := by decide
  refine ⟨vi, reached, fun after after' => ?_⟩
  exact forklessCause_exclusive forkedDag_cap forkedDag_light reached reached forkedDag_fork
    (by decide) (by decide) asker asker

end Lachesis.Vecfc
