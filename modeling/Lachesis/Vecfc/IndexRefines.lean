import Lachesis.Library.Simulation
import Lachesis.Vecfc.Index

/-!
The index behaves as the engine does over plain tables. First, any store whose callbacks
read and write like the tables runs the engine like the tables; second, the flushable
store with its caches is such a store, as long as whatever is cached is what is stored.
-/

namespace Lachesis.Vecfc

open Dag Pos Vecengine Simplewlru Simulation

/-- The callbacks of `c` act on a store as the plain tables do. -/
structure Simulates {Store : Type} (c : Callbacks Store) (R : Store → Tables → Prop) : Prop where
  readBefore : ∀ s t id, R s t → Same R (c.getHighestBefore s id) (t.before id, t)
  readAfter : ∀ s t id, R s t → Same R (c.getLowestAfter s id) (t.after id, t)
  readBranch : ∀ s t id, R s t → c.readEventBranch s id = t.branch id
  writeBefore : ∀ s t id vec, R s t →
    R (c.setHighestBefore s id vec) (tables.setHighestBefore t id vec)
  writeAfter : ∀ s t id vec, R s t →
    R (c.setLowestAfter s id vec) (tables.setLowestAfter t id vec)
  writeBranch : ∀ s t id b, R s t →
    R (c.setEventBranchID s id b) (tables.setEventBranchID t id b)

theorem tables_before (t : Tables) (id : EventID) :
    tables.getHighestBefore t id = (t.before id, t) := rfl

theorem tables_after (t : Tables) (id : EventID) :
    tables.getLowestAfter t id = (t.after id, t) := rfl

section Engine

variable {Store : Type} {c : Callbacks Store} {R : Store → Tables → Prop}
  (sim : Simulates c R) (source : EventSource) (vv : Validators) {s : Store} {t : Tables}
include sim

theorem getEventBranchID_simulates (related : R s t) (id : EventID) :
    getEventBranchID c s id = getEventBranchID tables t id := by
  unfold getEventBranchID
  rw [sim.readBranch s t id related]
  rfl

theorem fillGlobalBranchID_simulates (related : R s t) (bi : BranchesInfo) (e : Event) (me : Nat) :
    fillGlobalBranchID c vv bi s e me = fillGlobalBranchID tables vv bi t e me := by
  unfold fillGlobalBranchID
  simp only [getEventBranchID_simulates sim related]

theorem loadParents_simulates : ∀ (parents : List EventID) (s : Store) (t : Tables), R s t →
    Related (Same R) (loadParents c parents s) (loadParents tables parents t) := by
  intro parents
  induction parents with
  | nil => intro s t related; exact ⟨rfl, related⟩
  | cons p rest ih =>
    intro s t related
    unfold loadParents
    rw [getEventBranchID_simulates sim related]
    refine related_bind (related_refl (fun _ => rfl) _) fun _ _ _ => ?_
    obtain ⟨same, next⟩ := sim.readBefore s t p related
    have tail := ih (c.getHighestBefore s p).2 t next
    refine related_bind tail ?_
    rintro ⟨vecs, s'⟩ ⟨vecs', t'⟩ ⟨vecsSame, related'⟩
    exact ⟨by simp_all [tables], related'⟩

theorem onWalk_simulates (b : Nat) (e : Event) (s : Store) (t : Tables) (walk : EventID)
    (related : R s t) :
    Related (Same R) (onWalk c source b e s walk) (onWalk tables source b e t walk) := by
  obtain ⟨same, next⟩ := sim.readAfter s t walk related
  unfold onWalk
  rw [tables_after]
  generalize c.getLowestAfter s walk = read at same next ⊢
  obtain ⟨_, s'⟩ := read
  obtain rfl := same
  cases t.after walk with
  | none => rfl
  | some vec =>
    dsimp only at next ⊢
    cases vec.visit b e with
    | none => exact ⟨rfl, next⟩
    | some vec' =>
      simp only
      cases source.getEvent walk with
      | none => rfl
      | some event => exact ⟨rfl, sim.writeAfter s' t walk vec' next⟩

theorem fillEventVectors_simulates (related : R s t) (bi : BranchesInfo) (e : Event) :
    Related (Same R) (fillEventVectors c source vv bi s e)
      (fillEventVectors tables source vv bi t e) := by
  simp only [fillEventVectors, fillGlobalBranchID_simulates sim vv related]
  refine related_bind (related_refl (fun _ => rfl) _) ?_
  rintro ⟨b, error, bi'⟩ _ rfl
  refine related_bind (loadParents_simulates sim e.parents s t related) ?_
  rintro ⟨vecs, s⟩ ⟨_, t⟩ ⟨rfl, related⟩
  refine related_bind (related_refl (fun _ => rfl) _) ?_
  rintro before _ rfl
  have walk := related_walk (onWalk_simulates sim source b e) .outOfFuel (dfsFuel source e)
    e.parents.reverse s t related
  refine related_bind walk fun s t related => ⟨rfl, ?_⟩
  exact sim.writeBranch _ _ _ _ (sim.writeAfter _ _ _ _ (sim.writeBefore _ _ _ _ related))

theorem forklessCause_simulates (related : R s t) (bi : BranchesInfo) (a b : EventID) :
    Related (Same R) (forklessCause c vv bi s a b) (forklessCause tables vv bi t a b) := by
  obtain ⟨same, next⟩ := sim.readBefore s t a related
  unfold forklessCause
  rw [tables_before]
  generalize c.getHighestBefore s a = read at same next ⊢
  obtain ⟨_, s'⟩ := read
  obtain rfl := same
  cases t.before a with
  | none => rfl
  | some vec =>
    dsimp only at next ⊢
    have cheater : observedCheater c vv bi s' vec b = observedCheater tables vv bi t vec b := by
      unfold observedCheater
      rw [getEventBranchID_simulates sim next]
    rw [cheater]
    refine related_bind (related_refl (fun _ => rfl) _) ?_
    rintro caught _ rfl
    cases caught with
    | true => exact ⟨rfl, next⟩
    | false =>
      obtain ⟨same', next'⟩ := sim.readAfter s' t b next
      simp only [Bool.false_eq_true, ↓reduceIte]
      rw [tables_after]
      generalize c.getLowestAfter s' b = read at same' next' ⊢
      obtain ⟨_, s''⟩ := read
      obtain rfl := same'
      cases t.after b with
      | none => rfl
      | some vec' => exact ⟨rfl, next'⟩

theorem getMergedHighestBefore_simulates (related : R s t) (bi : BranchesInfo) (id : EventID) :
    Related (Same R) (getMergedHighestBefore c vv bi s id)
      (getMergedHighestBefore tables vv bi t id) := by
  obtain ⟨same, next⟩ := sim.readBefore s t id related
  unfold getMergedHighestBefore
  rw [tables_before]
  generalize c.getHighestBefore s id = read at same next ⊢
  obtain ⟨_, s'⟩ := read
  obtain rfl := same
  cases t.before id with
  | none => rfl
  | some vec =>
    dsimp only
    split <;> exact ⟨rfl, next⟩

end Engine

/-- The store holds the tables `t`, and its caches hold nothing else. -/
structure VecStore.Shows (s : VecStore) (t : Tables) : Prop where
  branch : ∀ id, s.eventBranch.get id = t.branch id
  before : ∀ id, s.highestBeforeSeq.get id = t.before id
  after : ∀ id, s.lowestAfterSeq.get id = t.after id
  beforeCache : s.highestBeforeCache.Holds fun id vec => t.before id = some vec
  afterCache : s.lowestAfterCache.Holds fun id vec => t.after id = some vec

theorem callbacks_simulate : Simulates VecStore.callbacks VecStore.Shows where
  readBefore := by
    intro s t id related
    obtain ⟨kept, sound⟩ := Cache.get_holds related.beforeCache id
    simp only [VecStore.callbacks, VecStore.getHighestBefore, Same]
    rcases found : s.highestBeforeCache.get id with ⟨hit, cache⟩
    rw [found] at kept sound
    cases hit with
    | some vec =>
      exact ⟨(sound vec rfl).symm, related.branch, related.before, related.after, kept,
        related.afterCache⟩
    | none =>
      simp only
      cases stored : s.highestBeforeSeq.get id with
      | none =>
        exact ⟨(related.before id).symm.trans stored |>.symm, related.branch, related.before,
          related.after, kept, related.afterCache⟩
      | some vec =>
        have same := (related.before id).symm.trans stored
        exact ⟨same.symm, related.branch, related.before, related.after,
          Cache.add_holds (fun ent member _ => kept ent member) same, related.afterCache⟩
  readAfter := by
    intro s t id related
    obtain ⟨kept, sound⟩ := Cache.get_holds related.afterCache id
    simp only [VecStore.callbacks, VecStore.getLowestAfter, Same]
    rcases found : s.lowestAfterCache.get id with ⟨hit, cache⟩
    rw [found] at kept sound
    cases hit with
    | some vec =>
      exact ⟨(sound vec rfl).symm, related.branch, related.before, related.after,
        related.beforeCache, kept⟩
    | none =>
      simp only
      cases stored : s.lowestAfterSeq.get id with
      | none =>
        exact ⟨(related.after id).symm.trans stored |>.symm, related.branch, related.before,
          related.after, related.beforeCache, kept⟩
      | some vec =>
        have same := (related.after id).symm.trans stored
        exact ⟨same.symm, related.branch, related.before, related.after, related.beforeCache,
          Cache.add_holds (fun ent member _ => kept ent member) same⟩
  readBranch := fun s t id related => related.branch id
  writeBefore := by
    intro s t id vec related
    refine ⟨related.branch, fun other => ?_, related.after, ?_, related.afterCache⟩
    · by_cases same : other = id
      · simp [VecStore.callbacks, VecStore.setHighestBefore, tables, same]
      · simp [VecStore.callbacks, VecStore.setHighestBefore, tables, same, related.before]
    · refine Cache.add_holds (fun ent member different => ?_) (by simp [tables])
      simpa [tables, Function.update_of_ne different] using related.beforeCache ent member
  writeAfter := by
    intro s t id vec related
    refine ⟨related.branch, related.before, fun other => ?_, related.beforeCache, ?_⟩
    · by_cases same : other = id
      · simp [VecStore.callbacks, VecStore.setLowestAfter, tables, same]
      · simp [VecStore.callbacks, VecStore.setLowestAfter, tables, same, related.after]
    · refine Cache.add_holds (fun ent member different => ?_) (by simp [tables])
      simpa [tables, Function.update_of_ne different] using related.afterCache ent member
  writeBranch := by
    intro s t id b related
    refine ⟨fun other => ?_, related.before, related.after, related.beforeCache,
      related.afterCache⟩
    by_cases same : other = id
    · simp [VecStore.callbacks, tables, same]
    · simp [VecStore.callbacks, tables, same, related.branch]

def VecStore.underlying (s : VecStore) :
    List (EventID × Nat) × List (EventID × HighestBeforeSeq) × List (EventID × LowestAfterSeq) :=
  (s.eventBranch.underlying, s.highestBeforeSeq.underlying, s.lowestAfterSeq.underlying)

theorem callbacks_keep (flushed) : Simulates VecStore.callbacks
    fun s t => s.Shows t ∧ s.underlying = flushed where
  readBefore := by
    rintro s t id ⟨related, kept⟩
    obtain ⟨same, shows⟩ := callbacks_simulate.readBefore s t id related
    refine ⟨same, shows, ?_⟩
    rw [← kept]
    simp only [VecStore.callbacks, VecStore.getHighestBefore]
    rcases s.highestBeforeCache.get id with ⟨_ | vec, cache⟩
    · cases s.highestBeforeSeq.get id <;> rfl
    · rfl
  readAfter := by
    rintro s t id ⟨related, kept⟩
    obtain ⟨same, shows⟩ := callbacks_simulate.readAfter s t id related
    refine ⟨same, shows, ?_⟩
    rw [← kept]
    simp only [VecStore.callbacks, VecStore.getLowestAfter]
    rcases s.lowestAfterCache.get id with ⟨_ | vec, cache⟩
    · cases s.lowestAfterSeq.get id <;> rfl
    · rfl
  readBranch := fun s t id related => related.1.branch id
  writeBefore := fun s t id vec related =>
    ⟨callbacks_simulate.writeBefore s t id vec related.1, related.2⟩
  writeAfter := fun s t id vec related =>
    ⟨callbacks_simulate.writeAfter s t id vec related.1, related.2⟩
  writeBranch := fun s t id b related =>
    ⟨callbacks_simulate.writeBranch s t id b related.1, related.2⟩

end Lachesis.Vecfc
