import Lachesis.Abft.FrameClimb
import Lachesis.Abft.OrdererRules
import Lachesis.Abft.Lachesis
import Lachesis.Vecfc.IndexStays

/-!
What the store and the index of an `IndexedLachesis` hold between two calls, and that every call
keeps it: the roots are those of the events processed in the epoch, and the index has worked in these
events and flushed them. A block may seal the epoch, and then the next one starts from empty tables.
-/

namespace Lachesis.Abft

open Dag Pos Simplewlru Triples Vecfc Vecengine WeightedQuorum

/-- The epoch is that of `D`, its roots are those of the events of `R`, and its table of vectors is
`db`. The tables of the other epochs are empty. -/
structure Tabled {vv : Validators} (D : EventDag vv) (epoch : Nat) (R : List Event) (store : Store)
    (db : VecDb) : Prop where
  epochState : store.epochState = some ⟨epoch, vv⟩
  rooted : store.Rooted epoch (RootOf D R)
  others : ∀ n, n ≠ epoch → store.epochDBs n = .empty
  vectors : (store.epochDBs epoch).vectorIndex = db

/-- A new epoch: its tables are empty, the index is reset, and the election starts over. -/
structure Sealed {App : Type} (input : EventSource) (epoch : Nat) (vv : Validators)
    (p : Orderer (World App)) : Prop where
  callback : p.callback = indexedCallbacks input
  election : p.election = some (.reset vv firstFrame)
  lastDecidedState : p.store.lastDecidedState = some ⟨firstFrame - 1⟩
  epochState : p.store.epochState = some ⟨epoch, vv⟩
  opened : p.store.opened = some epoch
  tables : ∀ n, p.store.epochDBs n = .empty
  cache : ∃ c : Cache Nat (List RootAndSlot), p.store.frameRoots = c.purge
  index : ∃ vi : Index, p.world.dagIndexer = vi.reset vv .empty input

section Tables

variable {vv : Validators} {D : EventDag vv} {epoch : Nat} {L R : List Event} {e : Event}
  {store : Store} {db : VecDb}

theorem Tabled.getValidators (tabled : Tabled D epoch R store db) : store.getValidators = .ok vv := by
  rw [Store.getValidators, Store.getEpochState, tabled.epochState]
  rfl

theorem Tabled.looks (tabled : Tabled D epoch R store db) (f : Nat) :
    ∃ rr store', store.getFrameRoots f = .ok (rr, store') ∧ Tabled D epoch R store' db ∧
      Store.RootsIn (RootOf D R) f rr := by
  obtain ⟨rr, cache, run, roots, rooted⟩ := Store.getFrameRoots_rooted tabled.rooted f
  exact ⟨rr, _, run, ⟨tabled.epochState, rooted, tabled.others, tabled.vectors⟩, roots⟩

theorem Tabled.setEpochTable (tabled : Tabled D epoch R store db) (table : EpochDB)
    (same : table.roots = (store.epochDBs epoch).roots) :
    Tabled D epoch R (store.setEpochTable table) table.vectorIndex := by
  obtain ⟨lastDecided, state, dbs, current, frameRoots⟩ := store
  obtain rfl : current = some epoch := tabled.rooted.opened
  refine ⟨tabled.epochState, ⟨rfl, ?_, ?_, tabled.rooted.cached⟩, fun n ne => ?_, ?_⟩ <;>
    simp only [Store.setEpochTable, Function.update_self]
  · exact same ▸ tabled.rooted.nodup
  · exact same ▸ tabled.rooted.mem
  · rw [Function.update_of_ne ne]
    exact tabled.others n ne

theorem Tabled.setLastDecidedState (tabled : Tabled D epoch R store db) (state : LastDecidedState) :
    Tabled D epoch R (store.setLastDecidedState state) db :=
  ⟨tabled.epochState, ⟨tabled.rooted.opened, tabled.rooted.nodup, tabled.rooted.mem,
    tabled.rooted.cached⟩, tabled.others, tabled.vectors⟩

theorem Tabled.addRoots (tabled : Tabled D epoch L store db) (received : D.Received (L ++ [e])) :
    ∃ store', store.addRoots (spFrame D e) e = .ok store' ∧ Tabled D epoch (L ++ [e]) store' db := by
  obtain ⟨old, inE, _, fresh⟩ := received.snoc
  have new : ∀ f ∈ Store.slots (spFrame D e) e.frame, ¬ RootOf D L (rootAt e f) := fun f _ known =>
    fresh ((rootOf_rootAt old.inside inE).mp known).1
  obtain ⟨roots, cache, run, rooted⟩ := Store.addRoots_rooted tabled.rooted new
  refine ⟨_, run, tabled.epochState, rooted.congr fun r => rootOf_snoc.symm, fun n ne => ?_, ?_⟩
  · simp only [Store.withRoots, Function.update_of_ne ne]
    exact tabled.others n ne
  · simp only [Store.withRoots, Function.update_self]
    exact tabled.vectors

theorem Tabled.stay (tabled : Tabled D epoch L store db) (flat : e.frame ≤ spFrame D e) :
    Tabled D epoch (L ++ [e]) store db := by
  refine ⟨tabled.epochState, tabled.rooted.congr fun r => ?_, tabled.others, tabled.vectors⟩
  rw [rootOf_snoc]
  refine ⟨.inl, fun either => either.resolve_right ?_⟩
  rintro ⟨f, slot, _⟩
  have := mem_slots.mp slot
  omega

end Tables

theorem Framed.snoc {vv : Validators} {D : EventDag vv} {L : List Event} {e : Event} {top : Nat}
    (framed : Framed D L) (above : spFrame D e ≤ top) (is : e.frame = max top 1)
    (backed : ∀ f, spFrame D e ≤ f → f < top → vv.quorum ≤ mass vv.get (owners D L f)) :
    Framed D (L ++ [e]) := by
  have more : ∀ f, mass vv.get (owners D L f) ≤ mass vv.get (owners D (L ++ [e]) f) := fun f =>
    mass_mono vv.get (owners_mono (fun x inX => List.mem_append_left _ inX) f)
  constructor
  · intro x inX
    rcases List.mem_append.mp inX with old | new
    · exact framed.above x old
    · rw [List.mem_singleton.mp new]
      omega
  · intro x inX f isRoot positive
    rcases List.mem_append.mp inX with old | new
    · exact (framed.backed x old f isRoot positive).trans (more f)
    · obtain ⟨low, high⟩ := List.mem_singleton.mp new ▸ isRoot
      exact (backed f (by omega) (by omega)).trans (more f)

section Seals

variable {App : Type} {input : EventSource} {vv : Validators} {epoch : Nat}

theorem Sealed.settled {p : Orderer (World App)} (fresh : Sealed input epoch vv p) {D : EventDag vv}
    (held : D.HeldBy input) : Tabled D epoch [] p.store p.world.dagIndexer.persisted ∧
      Stays D [] [] [] p.world.dagIndexer := by
  obtain ⟨vi, reset⟩ := fresh.index
  obtain ⟨c, purged⟩ := fresh.cache
  have none : ∀ r, ¬ RootOf D [] r := by
    rintro r ⟨x, inX, _⟩
    exact absurd inX List.not_mem_nil
  have empty := fresh.tables epoch
  constructor
  · refine ⟨fresh.epochState, ⟨fresh.opened, ?_, fun r => ?_, ?_⟩, fun n _ => fresh.tables n, ?_⟩
    · rw [empty]
      exact List.nodup_nil
    · rw [empty]
      exact iff_of_false List.not_mem_nil (none r)
    · rw [purged]
      exact Cache.purge_holds
    · rw [empty, reset]
      rfl
  · rw [reset]
    exact reset_stays held received_nil ⟨_, _, empty_stores, empty_sketches⟩ vi

theorem resetEpochStore_sealed {p : Orderer (World App)} {old : Nat}
    (callback : p.callback = indexedCallbacks input)
    (epochState : p.store.epochState = some ⟨epoch, vv⟩) (opened : p.store.opened = some old)
    (others : ∀ n, n ≠ old → p.store.epochDBs n = .empty) :
    Sealed input epoch vv
      { p.resetEpochStore epoch with
        store := (p.resetEpochStore epoch).store.setLastDecidedState ⟨firstFrame - 1⟩
        election := some (.reset vv firstFrame) } := by
  obtain ⟨⟨lastDecided, state, dbs, current, frameRoots⟩, election, _, world⟩ := p
  obtain rfl : current = some old := opened
  obtain rfl : state = some ⟨epoch, vv⟩ := epochState
  subst callback
  have empty : ∀ n, Function.update dbs old .empty n = EpochDB.empty := by grind
  refine ⟨rfl, rfl, rfl, rfl, rfl, empty, ⟨frameRoots, rfl⟩, world.dagIndexer, ?_⟩
  change world.dagIndexer.reset vv (Function.update dbs old .empty epoch).vectorIndex input = _
  rw [empty]
  rfl

end Seals

section Undecided

variable {App : Type}

/-- What the application has been told, and the marks of the events it was told of. -/
structure Told (App : Type) where
  confirmedEvent : List (EventID × Nat)
  app : App
  blocks : List EmittedBlock

def toldOf (epoch : Nat) (store : Store) (w : World App) : Told App :=
  ⟨(store.epochDBs epoch).confirmedEvent, w.app, w.blocks⟩

/-- Between `p` and `q` nothing was decided: the application, the election and the main tables are
as before. -/
structure Steady (epoch : Nat) (p q : Orderer (World App)) : Prop where
  election : q.election = p.election
  callback : q.callback = p.callback
  epochState : q.store.epochState = p.store.epochState
  lastDecidedState : q.store.lastDecidedState = p.store.lastDecidedState
  told : toldOf epoch q.store q.world = toldOf epoch p.store p.world
  consensus : q.world.callback = p.world.callback

def ToldAs (epoch : Nat) (t : Told App) (cb : ConsensusCallbacks App) (store : Store) (w : World App) :
    Prop :=
  toldOf epoch store w = t ∧ w.callback = cb

variable {epoch : Nat} {t : Told App} {cb : ConsensusCallbacks App} {store : Store} {w : World App}

theorem forklessCause_toldAs (told : ToldAs epoch t cb store w) (a b : EventID) :
    Ensures (w.forklessCause a b) fun r => ToldAs epoch t cb store r.2 :=
  ensures_bind (ensures_any _) fun _ _ => ensures_ok told

theorem getFrameRoots_toldAs (told : ToldAs epoch t cb store w) (f : Nat) :
    Ensures (store.getFrameRoots f) fun r => ToldAs epoch t cb r.2 w := by
  refine ensures_mono (store.getFrameRoots_cache f) ?_
  rintro ⟨roots, _⟩ ⟨cache, rfl⟩
  exact told

variable {p : Orderer (World App)}

theorem checkAndSaveEvent_toldAs (input : EventSource) (told : ToldAs epoch t cb p.store p.world)
    (e : Event) : Ensures (p.checkAndSaveEvent World.forklessCause input e) fun r =>
      ToldAs epoch t cb r.2.store r.2.world := by
  refine Orderer.checkAndSaveEvent_holds (K := ToldAs epoch t cb)
    (fun _ _ b told => forklessCause_toldAs told e.id b)
    (fun _ _ f told => getFrameRoots_toldAs told f) (fun store w selfParentFrame told => ?_) told
  refine ensures_mono (store.addRoots_confirmed selfParentFrame e epoch) fun s kept => ?_
  exact ⟨(congrArg (Told.mk · w.app w.blocks) kept).trans told.1, told.2⟩

theorem build_toldAs (input : EventSource) (told : ToldAs epoch t cb p.store p.world) (e : Event) :
    Ensures (p.build World.forklessCause input e) fun r =>
      ToldAs epoch t cb r.2.store r.2.world := by
  refine ensures_mono (Orderer.build_holds (K := ToldAs epoch t cb) ?_ ?_ told) fun r kept => kept.1
  · exact fun _ _ b told => forklessCause_toldAs told e.id b
  · exact fun _ _ f told => getFrameRoots_toldAs told f

end Undecided

section Decisions

variable {App : Type} {input : EventSource} {vv : Validators} {D : EventDag vv} {epoch : Nat}
  {kept M : List Event} {cb : ConsensusCallbacks App}

/-- The events of `M` and their roots are known, and any of them may be asked about. -/
structure Settled (D : EventDag vv) (epoch : Nat) (kept M : List Event)
    (cb : ConsensusCallbacks App) (store : Store) (w : World App) : Prop where
  tabled : Tabled D epoch M store w.dagIndexer.persisted
  index : Stays D kept M M w.dagIndexer
  callback : w.callback = cb

def IdIn (M : List Event) (id : EventID) : Prop := ∃ x ∈ M, x.id = id

variable {atropos : EventID} {w : World App} {store : Store}

theorem applyAtropos_settled (settled : Settled D epoch kept M cb store w) (frame : Nat)
    (known : IdIn M atropos) : Ensures (applyAtropos input store w frame atropos) fun r =>
      Settled D epoch kept M cb store r.2.2 ∧ (cb.beginBlock = none → r.1 = none) := by
  obtain ⟨x, inX, rfl⟩ := known
  obtain ⟨vec, vi, merged, index, same, _⟩ := getMergedHighestBefore_stays settled.index inX
  have settled' : ∀ app blocks, Settled D epoch kept M cb store
      { w with dagIndexer := vi, app := app, blocks := blocks } := fun app blocks =>
    ⟨same.symm ▸ settled.tabled, index, settled.callback⟩
  have clock : Ensures (w.dagIndexer.getMergedHighestBefore x.id) fun r => r = (vec, vi) :=
    fun r run => Except.ok.inj (run.symm.trans merged)
  refine ensures_bind clock ?_
  rintro _ rfl
  refine ensures_bind (ensures_any _) fun validators _ => ensures_bind (ensures_any _) fun db _ => ?_
  dsimp only
  split
  · exact ensures_ok ⟨settled' w.app w.blocks, fun _ => rfl⟩
  · next beginBlock given =>
    rw [settled.callback] at given
    refine ensures_bind (ensures_any _) fun done _ => ensures_ok ⟨settled' _ _, fun empty => ?_⟩
    exact absurd (given.symm.trans empty) (by simp)

theorem onFrameDecided_settled {p : Orderer (World App)}
    (callback : p.callback = indexedCallbacks input)
    (settled : Settled D epoch kept M cb p.store p.world) (frame : Nat) (known : IdIn M atropos) :
    Ensures (p.onFrameDecided frame atropos) fun r =>
      if r.1 then cb.beginBlock ≠ none ∧ ∃ vv', Sealed input (epoch + 1) vv' r.2
      else r.2.callback = indexedCallbacks input ∧ Settled D epoch kept M cb r.2.store r.2.world := by
  have applied : Ensures (p.applyAtropos frame atropos) fun r =>
      r.2.callback = indexedCallbacks input ∧ Settled D epoch kept M cb r.2.store r.2.world ∧
        (cb.beginBlock = none → r.1 = none) := by
    rw [Orderer.applyAtropos, callback]
    refine ensures_bind (applyAtropos_settled settled frame known) ?_
    rintro ⟨newValidators, confirmedEvent, w⟩ ⟨settled, quiet⟩
    rw [settled.tabled.rooted.epochTable]
    refine ensures_ok ⟨rfl, ⟨?_, settled.index, settled.callback⟩, quiet⟩
    have written := settled.tabled.setEpochTable
      { p.store.epochDBs epoch with confirmedEvent := confirmedEvent } rfl
    rwa [show _ = w.dagIndexer.persisted from settled.tabled.vectors] at written
  refine ensures_bind applied ?_
  rintro ⟨newValidators, q⟩ ⟨callback, settled, quiet⟩
  refine ensures_bind (ensures_any _) fun _ _ => ?_
  have tabled := settled.tabled
  cases newValidators with
  | none =>
    dsimp only
    rw [tabled.getValidators]
    exact ensures_ok ⟨callback, tabled.setLastDecidedState _, settled.index, settled.callback⟩
  | some validators =>
    dsimp only
    rw [Orderer.sealEpoch, Store.getEpochState, tabled.epochState]
    refine ensures_ok ⟨fun empty => absurd (quiet empty) (by simp), validators, ?_⟩
    exact resetEpochStore_sealed
      (p := { q with store := q.store.setEpochState ⟨epoch + 1, validators⟩ }) callback rfl
      tabled.rooted.opened tabled.others

theorem forklessCause_settled (settled : Settled D epoch kept M cb store w) {a b : EventID}
    (first : IdIn M a) (second : IdIn M b) :
    Ensures (w.forklessCause a b) fun r => Settled D epoch kept M cb store r.2 := by
  obtain ⟨x, inX, rfl⟩ := first
  obtain ⟨y, inY, rfl⟩ := second
  obtain ⟨res, vi, run, index, same, _⟩ := forklessCause_stays settled.index inX inY (fun _ => id)
    fun K _ all _ => all
  rw [World.forklessCause, run]
  exact ensures_ok ⟨same.symm ▸ settled.tabled, index, settled.callback⟩

theorem settled_rule (D : EventDag vv) (epoch : Nat) (kept M : List Event)
    (cb : ConsensusCallbacks App) :
    Orderer.Rule World.forklessCause (indexedCallbacks input) (IdIn M)
      (Settled D epoch kept M cb)
      fun p => cb.beginBlock ≠ none ∧ ∃ vv', Sealed input (epoch + 1) vv' p where
  observes := fun _ _ _ _ settled first second => forklessCause_settled settled first second
  looks := by
    intro store w f settled
    obtain ⟨rr, store', run, tabled, roots⟩ := settled.tabled.looks f
    rw [run]
    refine ensures_ok ⟨⟨tabled, settled.index, settled.callback⟩, fun root member => ?_⟩
    obtain ⟨⟨x, inX, _, _, rfl⟩, _⟩ := (roots.mem root).mp member
    exact ⟨x, inX, rfl⟩
  decides := fun p lastDecidedFrame callback settled _ atropos known =>
    onFrameDecided_settled callback settled (lastDecidedFrame + 1) known

end Decisions

end Lachesis.Abft
