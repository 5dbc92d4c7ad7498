import Lachesis.Abft.Standing

/-!
The states an `IndexedLachesis` can be in between two calls, over its whole life: events are processed
or rejected, built and thrown away, blocks seal epochs, and the process is stopped and started again.
-/

namespace Lachesis.Abft

open Dag Pos Triples Vecfc Vecengine WeightedQuorum

section Checks

variable {App : Type} {input : EventSource} {vv : Validators} {D : EventDag vv} {epoch : Nat}
  {L : List Event} {e : Event} {cb : ConsensusCallbacks App}

structure Checking (D : EventDag vv) (epoch : Nat) (L : List Event) (e : Event)
    (cb : ConsensusCallbacks App) (store : Store) (w : World App) : Prop where
  tabled : Tabled D epoch L store w.dagIndexer.persisted
  index : Stays D L L (L ++ [e]) w.dagIndexer
  callback : w.callback = cb

theorem checking_answers :
    Orderer.Answers World.forklessCause D L e (Checking D epoch L e cb) (Capped (L ++ [e])) where
  validators := fun _ _ checking => checking.tabled.getValidators
  looks := by
    intro store w f checking
    obtain ⟨rr, store', run, tabled, roots⟩ := checking.tabled.looks f
    exact ⟨rr, store', run, ⟨tabled, checking.index, checking.callback⟩, roots⟩
  observes := by
    intro store w x checking inX
    obtain ⟨hit, vi, run, index, same, right⟩ := forklessCause_stays checking.index
      (show e ∈ L ++ [e] by simp) (List.mem_append_left [e] inX)
      (fun z inZ => List.mem_append_left _ inZ) fun K _ all self z inZ => by grind
    refine ⟨hit, { w with dagIndexer := vi }, ?_, ⟨same.symm ▸ checking.tabled, index,
      checking.callback⟩, right⟩
    rw [World.forklessCause, run]
    rfl

/-- The highest frame that can be claimed: the first from the self-parent's on without a quorum, but
at least the first frame. -/
def FrameLimit (D : EventDag vv) (L : List Event) (e : Event) (limit : Nat) : Prop :=
  ∃ f, IsLeast {f | spFrame D e ≤ f ∧ ¬ QuorumOn D L e f} f ∧ limit = max f 1

theorem exists_frameLimit (D : EventDag vv) (L : List Event) (e : Event) :
    ∃ limit, FrameLimit D L e limit := by
  classical
  obtain ⟨g, above, unmet⟩ := exists_not_quorumOn (D := D) L e (spFrame D e)
  have some : ∃ f, spFrame D e ≤ f ∧ ¬ QuorumOn D L e f := ⟨g, above, unmet⟩
  exact ⟨_, Nat.find some, ⟨Nat.find_spec some, fun f member => Nat.find_min' some member⟩, rfl⟩

theorem climbed_eq {top target f : Nat} (above : spFrame D e ≤ top)
    (below : top ≤ max (spFrame D e) target)
    (met : ∀ f, spFrame D e ≤ f → f < top → QuorumOn D L e f)
    (ends : top < target → ¬ QuorumOn D L e top)
    (least : IsLeast {f | spFrame D e ≤ f ∧ ¬ QuorumOn D L e f} f) :
    top = min f (max (spFrame D e) target) := by
  have low : top ≤ f := by
    by_contra past
    exact least.1.2 (met f least.1.1 (by omega))
  by_cases short : top < target
  · have := least.2 ⟨above, ends short⟩
    omega
  · omega

theorem checkAndSaveEvent_checks (held : D.HeldBy input) (received : D.Received (L ++ [e]))
    (framed : Framed D L) {p : Orderer (World App)}
    (checking : Checking D epoch L e cb p.store p.world) :
    ∃ checked q, p.checkAndSaveEvent World.forklessCause input e = .ok (checked, q) ∧
      Orderer.Beside p q ∧
      (checked = .error .wrongFrame ∧ Checking D epoch L e cb q.store q.world ∨
        checked = .ok (spFrame D e) ∧ Settled D epoch L (L ++ [e]) cb q.store q.world ∧
          Framed D (L ++ [e])) ∧
      (Capped (L ++ [e]) → ∀ limit, FrameLimit D L e limit →
        (checked = .ok (spFrame D e) ↔ max (spFrame D e) 1 ≤ e.frame ∧ e.frame ≤ limit)) := by
  obtain ⟨old, inE, _, _⟩ := received.snoc
  obtain ⟨top, q, calc', checking, beside, above, below, backed, exact'⟩ :=
    Orderer.calcFrameIdx_climbs checking_answers (Orderer.selfParentFrame_eq held inE) old.inside
      checking true
  simp only [↓reduceIte] at below exact'
  have accepts : Capped (L ++ [e]) → ∀ limit, FrameLimit D L e limit →
      (e.frame = max top 1 ↔ max (spFrame D e) 1 ≤ e.frame ∧ e.frame ≤ limit) := by
    rintro capped _ ⟨f, least, rfl⟩
    have is := climbed_eq above below (exact' capped).1 (exact' capped).2 least
    have zero : spFrame D e = 0 → f = 0 := by
      intro first
      have := least.2 (show _ ∧ _ from ⟨by omega, not_quorumOn_zero (D := D) (L := L) (e := e)⟩)
      omega
    have := least.1.1
    omega
  have run : ∀ {x}, (if e.frame ≠ max top 1 then pure (.error .wrongFrame, q)
      else if spFrame D e ≠ max top 1 then do
        let store ← q.store.addRoots (spFrame D e) e
        return (.ok (spFrame D e), { q with store := store })
      else pure (.ok (spFrame D e), q)) = x →
      p.checkAndSaveEvent World.forklessCause input e = x := by
    rintro x rfl
    rw [Orderer.checkAndSaveEvent, calc']
    rfl
  have index : Stays D L (L ++ [e]) (L ++ [e]) q.world.dagIndexer :=
    checking.index.widen fun z inZ => List.mem_append_left _ inZ
  by_cases wrong : e.frame ≠ max top 1
  · refine ⟨.error .wrongFrame, q, run (if_pos wrong), beside, .inl ⟨rfl, checking⟩,
      fun capped limit limited => ?_⟩
    rw [← accepts capped limit limited]
    exact iff_of_false (by simp) wrong
  · rw [not_not] at wrong
    have framed' := framed.snoc above wrong backed
    by_cases climbs : spFrame D e ≠ max top 1
    · obtain ⟨store, added, tabled⟩ := checking.tabled.addRoots received
      refine ⟨.ok (spFrame D e), { q with store := store }, run ?_, beside,
        .inr ⟨rfl, ⟨tabled, index, checking.callback⟩, framed'⟩, fun capped limit limited => ?_⟩
      · rw [if_neg (not_not.mpr wrong), if_pos climbs, added]
        rfl
      · rw [← accepts capped limit limited]
        exact iff_of_true rfl wrong
    · rw [not_not] at climbs
      have tabled := checking.tabled.stay (e := e) (by omega)
      refine ⟨.ok (spFrame D e), q, run ?_, beside,
        .inr ⟨rfl, ⟨tabled, index, checking.callback⟩, framed'⟩, fun capped limit limited => ?_⟩
      · rw [if_neg (not_not.mpr wrong), if_neg (not_not.mpr climbs)]
        rfl
      · rw [← accepts capped limit limited]
        exact iff_of_true rfl wrong

end Checks

section Calls

variable {App : Type} {input : EventSource} {vv : Validators} {D : EventDag vv} {epoch : Nat}
  {kept L M : List Event} {e : Event} {cb : ConsensusCallbacks App}

/-- The orderer between two calls, after the events of `L` in the epoch of `D`. -/
structure Standing (input : EventSource) (D : EventDag vv) (epoch : Nat) (L : List Event)
    (p : Orderer (World App)) : Prop where
  held : D.HeldBy input
  callback : p.callback = indexedCallbacks input
  framed : Framed D L
  settled : Settled D epoch L L p.world.callback p.store p.world
  running : Orderer.Running (IdIn L) p.store p.election

theorem framed_nil (D : EventDag vv) : Framed D [] :=
  ⟨fun _ inX => absurd inX List.not_mem_nil, fun _ inX => absurd inX List.not_mem_nil⟩

theorem Sealed.standing {p : Orderer (World App)} (fresh : Sealed input epoch vv p)
    (held : D.HeldBy input) : Standing input D epoch [] p := by
  obtain ⟨tabled, index⟩ := fresh.settled held
  refine ⟨held, fresh.callback, framed_nil D, ⟨tabled, index, rfl⟩, ?_⟩
  rw [fresh.election]
  exact Orderer.running_reset _ vv fresh.lastDecidedState

/-- A sealed epoch shows in the epoch state. -/
theorem Standing.moved {vv' : Validators} {p q : Orderer (World App)}
    (standing : Standing input D epoch L p) (fresh : Sealed input (epoch + 1) vv' q) :
    q.store.epochState ≠ p.store.epochState := by
  rw [fresh.epochState, standing.settled.tabled.epochState]
  simp

theorem Sealed.named {p : Orderer (World App)} {n : Nat} {vv' : Validators}
    (fresh : Sealed input n vv' p) (now : p.store.epochState = some ⟨epoch, vv⟩) :
    Sealed input epoch vv p := by
  obtain ⟨rfl, rfl⟩ := EpochState.mk.inj (Option.some.inj (fresh.epochState.symm.trans now))
  exact fresh

def flushed (epoch : Nat) (p : Orderer (World App)) : Orderer (World App) :=
  let vectorIndex := p.world.dagIndexer.flush.persisted
  { p with store := p.store.setEpochTable { p.store.epochDBs epoch with vectorIndex := vectorIndex }
           world := { p.world with dagIndexer := p.world.dagIndexer.flush } }

theorem Settled.flush {p : Orderer (World App)}
    (settled : Settled D epoch kept M cb p.store p.world) :
    IndexedLachesis.flush p = .ok (flushed epoch p) ∧
      Settled D epoch M M cb (flushed epoch p).store (flushed epoch p).world := by
  have tabled := settled.tabled
  constructor
  · rw [IndexedLachesis.flush, tabled.rooted.epochTable]
    rfl
  · exact ⟨tabled.setEpochTable _ rfl, flush_stays settled.index, settled.callback⟩

variable {store : Store} {p : IndexedLachesis App} {q : Orderer (World App)} {vi : Index}
  {disk : Disk}

theorem Settled.drop {w : World App} (settled : Settled D epoch M M cb store w) :
    Settled D epoch M M cb store w.dropNotFlushed := by
  obtain ⟨index, same⟩ := drop_stays settled.index.based
  exact ⟨same.symm ▸ settled.tabled, index, settled.callback⟩

theorem Sealed.flush {p : Orderer (World App)} (fresh : Sealed input epoch vv p) :
    ∃ q, IndexedLachesis.flush p = .ok q ∧
      Sealed input epoch vv { q with world := q.world.dropNotFlushed } := by
  obtain ⟨⟨lastDecided, state, dbs, current, frameRoots⟩, election, callback, world⟩ := p
  obtain ⟨callback', election', lastDecided', state', opened, tables, cache, vi, reset⟩ := fresh
  obtain rfl : current = some epoch := opened
  refine ⟨_, rfl, callback', election', lastDecided', state', rfl, fun n => ?_, cache, vi, ?_⟩
  · by_cases same : n = epoch
    · rw [same]
      change Function.update dbs epoch _ epoch = _
      rw [Function.update_self, tables epoch, reset]
      rfl
    · change Function.update dbs epoch _ n = _
      rw [Function.update_of_ne same]
      exact tables n
  · change world.dagIndexer.flush.dropNotFlushed = _
    rw [reset]
    rfl

theorem running_mono {election : Option Election}
    (running : Orderer.Running (IdIn L) store election) (part : ∀ x ∈ L, x ∈ M) :
    Orderer.Running (IdIn M) store election := by
  have more : ∀ vote, Election.Names (IdIn L) vote → Election.Names (IdIn M) vote := by
    intro vote names yes
    obtain ⟨x, inX, same⟩ := names yes
    exact ⟨x, part x inX, same⟩
  refine ⟨running.follows, fun el is => ?_⟩
  obtain ⟨votes, decided⟩ := running.named el is
  exact ⟨fun key vote found => more vote (votes key vote found),
    fun v vote found => more vote (decided v vote found)⟩

def IndexedLachesis.told (p : IndexedLachesis App) (vi : Index) : Orderer (World App) :=
  { p.lachesis with world := { p.lachesis.world with dagIndexer := vi } }

theorem IndexedLachesis.process_rejected {error : ProcessError}
    (added : p.lachesis.world.dagIndexer.add e = .ok vi)
    (check : (p.told vi).checkAndSaveEvent World.forklessCause input e = .ok (.error error, q)) :
    p.process input e =
      .ok (some error, { p with lachesis := { q with world := q.world.dropNotFlushed } }) := by
  unfold IndexedLachesis.told at check
  rw [IndexedLachesis.process, added]
  dsimp only [bind, Except.bind]
  rw [Orderer.process, check]
  rfl

def IndexedLachesis.conclude (p : IndexedLachesis App)
    (election : Except Halt (Except ElectionError Unit × Orderer (World App))) :
    Except Halt (Option ProcessError × IndexedLachesis App) := do
  let (handled, o) ← election
  match handled with
  | .error error => .error (.election error)
  | .ok () => do
      let o ← flush o
      return (none, { p with lachesis := { o with world := o.world.dropNotFlushed } })

theorem IndexedLachesis.process_accepted {selfParentFrame : Nat}
    (added : p.lachesis.world.dagIndexer.add e = .ok vi)
    (check : (p.told vi).checkAndSaveEvent World.forklessCause input e = .ok (.ok selfParentFrame, q)) :
    p.process input e = p.conclude (q.handleElection World.forklessCause selfParentFrame e) := by
  unfold IndexedLachesis.told at check
  rw [IndexedLachesis.process, IndexedLachesis.conclude, added]
  dsimp only [bind, Except.bind]
  rw [Orderer.process, check]
  dsimp only [bind, Except.bind]
  rcases q.handleElection World.forklessCause selfParentFrame e with fault | ⟨_ | _, o⟩ <;> rfl

theorem IndexedLachesis.conclude_ensures
    {election : Except Halt (Except ElectionError Unit × Orderer (World App))}
    {P : Except ElectionError Unit × Orderer (World App) → Prop} (handled : Ensures election P)
    {Q : Orderer (World App) → Prop}
    (ends : ∀ o, P (.ok (), o) → Ensures (flush o) fun q =>
      Q { q with world := q.world.dropNotFlushed }) :
    Ensures (p.conclude election) fun r => r.1 = none ∧ Q r.2.lachesis := by
  refine ensures_bind handled ?_
  rintro ⟨outcome, o⟩ kept
  dsimp only
  split
  · exact ensures_error
  · exact ensures_bind (ends o kept) fun q kept => ensures_ok ⟨rfl, kept⟩

/-- The frame is one that `Process` may accept. -/
def Fits (D : EventDag vv) (L : List Event) (e : Event) : Prop :=
  ∀ limit, FrameLimit D L e limit → max (spFrame D e) 1 ≤ e.frame ∧ e.frame ≤ limit

theorem process_checks (standing : Standing input D epoch L p.lachesis)
    (received : D.Received (L ++ [e])) :
    (∃ q, p.process input e = .ok (some .wrongFrame, { p with lachesis := q }) ∧
      Standing input D epoch L q ∧ Steady epoch p.lachesis q ∧
      (Capped (L ++ [e]) → ¬ Fits D L e)) ∨
    ∃ q, p.process input e = p.conclude (q.handleElection World.forklessCause (spFrame D e) e) ∧
      Settled D epoch L (L ++ [e]) p.lachesis.world.callback q.store q.world ∧
      Framed D (L ++ [e]) ∧ Steady epoch p.lachesis q ∧ (Capped (L ++ [e]) → Fits D L e) := by
  obtain ⟨vi, added, index, same⟩ := add_stays standing.settled.index received
  have checking : Checking D epoch L e p.lachesis.world.callback p.lachesis.store
      { p.lachesis.world with dagIndexer := vi } :=
    ⟨same.symm ▸ standing.settled.tabled, index, rfl⟩
  obtain ⟨checked, q, check, beside, ends, accepts⟩ := checkAndSaveEvent_checks standing.held received
    standing.framed (p := p.told vi) checking
  have quiet : Orderer.Quiet (fun _ => ()) (p.told vi) q :=
    Orderer.checkAndSaveEvent_quiet (fun _ _ _ _ _ => rfl) _ e _ check
  have told := checkAndSaveEvent_toldAs input (p := p.told vi)
    (show ToldAs epoch _ _ _ _ from ⟨rfl, rfl⟩) e _ check
  have steady : Steady epoch p.lachesis q :=
    ⟨beside.1, beside.2, quiet.epochState, quiet.lastDecidedState, told.1, told.2⟩
  rcases ends with ⟨rfl, checking⟩ | ⟨rfl, settled, framed⟩
  · -- the event is taken out of the index again
    obtain ⟨index, same⟩ := drop_stays checking.index.based
    refine .inl ⟨_, IndexedLachesis.process_rejected added check, ⟨standing.held, beside.2.trans standing.callback,
      standing.framed, ⟨same.symm ▸ checking.tabled, index, rfl⟩, ?_⟩, ?_, fun capped fits => ?_⟩
    · exact beside.1 ▸ standing.running.main quiet.lastDecidedState
    · exact ⟨steady.election, steady.callback, steady.epochState, steady.lastDecidedState, steady.told,
        steady.consensus⟩
    · obtain ⟨limit, limited⟩ := exists_frameLimit D L e
      exact absurd ((accepts capped limit limited).mpr (fits limit limited)) (by simp)
  · exact .inr ⟨q, IndexedLachesis.process_accepted added check, settled, framed, steady,
      fun capped limit limited => (accepts capped limit limited).mp rfl⟩

theorem Standing.flush {o : Orderer (World App)} (held : D.HeldBy input) (framed : Framed D M)
    (under : Orderer.Under (indexedCallbacks input) (IdIn M) (Settled D epoch kept M cb) o) :
    Ensures (IndexedLachesis.flush o) fun q =>
      Standing input D epoch M { q with world := q.world.dropNotFlushed } ∧
        Steady epoch o { q with world := q.world.dropNotFlushed } := by
  obtain ⟨wrote, settled⟩ := under.holds.flush
  have main := o.store.setEpochTable_main
    { o.store.epochDBs epoch with vectorIndex := o.world.dagIndexer.flush.persisted }
  rw [wrote]
  refine ensures_ok ⟨⟨held, under.callback, framed, ?_, under.running.main main.2⟩,
    rfl, rfl, main.1, main.2, ?_, rfl⟩
  · have dropped := settled.drop
    rwa [← settled.callback] at dropped
  · simp [toldOf, flushed, Store.setEpochTable, under.holds.tabled.rooted.opened, World.dropNotFlushed]

theorem process_standing (standing : Standing input D epoch L p.lachesis)
    (received : D.Received (L ++ [e])) : Ensures (p.process input e) fun r =>
      r.1 = some .wrongFrame ∧ Standing input D epoch L r.2.lachesis ∨
        r.1 = none ∧ (Standing input D epoch (L ++ [e]) r.2.lachesis ∨
          ∃ vv', Sealed input (epoch + 1) vv' r.2.lachesis) := by
  rcases process_checks standing received with ⟨q, rejected, standing', _⟩ |
    ⟨q, accepted, settled, framed, steady, _⟩
  · rw [rejected]
    exact ensures_ok (.inl ⟨rfl, standing'⟩)
  · rw [accepted]
    have running := steady.election ▸ standing.running.main steady.lastDecidedState
    have under : Orderer.Under (indexedCallbacks input) (IdIn (L ++ [e]))
        (Settled D epoch L (L ++ [e]) p.lachesis.world.callback) q :=
      ⟨steady.callback.trans standing.callback, settled,
        running_mono running fun x inX => List.mem_append_left _ inX⟩
    have handled := Orderer.handleElection_under (settled_rule D epoch L (L ++ [e]) _) under
      (spFrame D e) ⟨e, by simp, rfl⟩
    refine ensures_mono (IndexedLachesis.conclude_ensures handled
      (Q := fun o => Standing input D epoch (L ++ [e]) o ∨
        ∃ vv', Sealed input (epoch + 1) vv' o) ?_) fun r => .inr
    rintro o (under | ⟨_, vv', fresh⟩)
    · exact ensures_mono (Standing.flush standing.held framed under) fun q ends => .inl ends.1
    · obtain ⟨o', wrote, fresh⟩ := fresh.flush
      rw [wrote]
      exact ensures_ok (.inr ⟨vv', fresh⟩)

structure Building (D : EventDag vv) (epoch : Nat) (L : List Event) (cb : ConsensusCallbacks App)
    (store : Store) (w : World App) : Prop where
  tabled : Tabled D epoch L store w.dagIndexer.persisted
  based : Based D L L w.dagIndexer
  callback : w.callback = cb

/-- The temporary ID that `Build` gives to `e` is not the ID of an event. -/
def Unassigned (D : EventDag vv) (e : Event) (counter : Nat) : Prop :=
  ∀ x ∈ D.events, x.id ≠ (e.setID (sample counter)).id

theorem build_standing (standing : Standing input D epoch L p.lachesis)
    (foreign : Unassigned D e (p.uniqueDirtyID + 1)) :
    Ensures (p.build input e) fun r => Standing input D epoch L r.2.lachesis := by
  let Holds := Building D epoch L p.lachesis.world.callback
  refine ensures_bind (add_based standing.settled.index.based _) fun vi added => ?_
  have building : Holds p.lachesis.store { p.lachesis.world with dagIndexer := vi } :=
    ⟨added.2.symm ▸ standing.settled.tabled, added.1, rfl⟩
  have observes : ∀ store w b, Holds store w →
      Ensures (World.forklessCause w (e.setID (sample (p.uniqueDirtyID + 1))).id b)
        fun r => Holds store r.2 := by
    intro store w b building
    refine ensures_bind (forklessCause_based building.based foreign) ?_
    rintro ⟨res, vi⟩ ⟨based, same⟩
    exact ensures_ok ⟨same.symm ▸ building.tabled, based, building.callback⟩
  have looks : ∀ store w f, Holds store w → Ensures (store.getFrameRoots f) fun r => Holds r.2 w := by
    intro store w f building
    obtain ⟨rr, store', run, tabled, _⟩ := building.tabled.looks f
    rw [run]
    exact ensures_ok ⟨tabled, building.based, building.callback⟩
  have quiet : Ensures ((p.told vi).build World.forklessCause input
      (e.setID (sample (p.uniqueDirtyID + 1)))) fun r => Orderer.Quiet (fun _ => ()) (p.told vi) r.2 :=
    Orderer.build_quiet (fun _ _ _ _ _ => rfl) _ _
  refine ensures_bind (ensures_and (Orderer.build_holds observes looks building) quiet) ?_
  rintro ⟨e', q⟩ ⟨⟨building, beside⟩, quiet⟩
  obtain ⟨index, same⟩ := drop_stays building.based
  exact ensures_ok ⟨standing.held, beside.2.trans standing.callback, standing.framed,
    ⟨same.symm ▸ building.tabled, index, rfl⟩,
    beside.1 ▸ standing.running.main quiet.lastDecidedState⟩

theorem build_steady (input : EventSource) (p : IndexedLachesis App) (e : Event) (epoch : Nat) :
    Ensures (p.build input e) fun r => Steady epoch p.lachesis r.2.lachesis := by
  refine ensures_bind (ensures_any _) fun vi _ => ?_
  have beside : Ensures ((p.told vi).build World.forklessCause input
      (e.setID (sample (p.uniqueDirtyID + 1)))) fun r => True ∧ Orderer.Beside (p.told vi) r.2 :=
    Orderer.build_holds (K := fun _ _ => True)
      (fun _ _ _ _ => ensures_mono (ensures_any _) fun _ _ => trivial)
      (fun _ _ _ _ => ensures_mono (ensures_any _) fun _ _ => trivial) trivial
  have told := build_toldAs input (p := p.told vi) (show ToldAs epoch _ _ _ _ from ⟨rfl, rfl⟩)
    (e.setID (sample (p.uniqueDirtyID + 1)))
  have quiet : Ensures ((p.told vi).build World.forklessCause input
      (e.setID (sample (p.uniqueDirtyID + 1)))) fun r => Orderer.Quiet (fun _ => ()) (p.told vi) r.2 :=
    Orderer.build_quiet (fun _ _ _ _ _ => rfl) _ _
  refine ensures_bind (ensures_and beside (ensures_and told quiet)) ?_
  rintro ⟨e', q⟩ ⟨⟨_, beside⟩, told, quiet⟩
  exact ensures_ok
    ⟨beside.1, beside.2, quiet.epochState, quiet.lastDecidedState, told.1, told.2⟩

theorem reset_sealed (standing : Standing input D epoch L p.lachesis) (epoch' : Nat)
    (vv' : Validators) :
    Ensures (p.reset epoch' vv') fun r => Sealed input epoch' vv' r.lachesis := by
  have tabled := standing.settled.tabled
  have reset : Ensures (p.lachesis.reset epoch' vv') (Sealed input epoch' vv') := by
    have fresh := @resetEpochStore_sealed _ _ vv' epoch'
      { p.lachesis with store := p.lachesis.store.applyGenesis epoch' vv' } _ standing.callback rfl
      tabled.rooted.opened tabled.others
    rw [Orderer.reset]
    split
    · exact ensures_error
    · refine ensures_ok ?_
      obtain ⟨callback, election, _, epochState, opened, tables, cache, index⟩ := fresh
      refine ⟨callback, election, ?_, epochState, opened, tables, cache, index⟩
      have dropped := (p.lachesis.store.applyGenesis epoch' vv').setEpochTable_main .empty
      unfold Orderer.resetEpochStore
      split <;> exact dropped.2
  exact ensures_bind reset fun q fresh => ensures_ok fresh

structure Left (D : EventDag vv) (epoch : Nat) (L : List Event) (disk : Disk) : Prop where
  epochState : disk.epochState = some ⟨epoch, vv⟩
  nodup : (disk.epochDBs epoch).roots.Nodup
  mem : ∀ r, r ∈ (disk.epochDBs epoch).roots ↔ RootOf D L r
  others : ∀ n, n ≠ epoch → disk.epochDBs n = .empty
  vectors : ∃ bi t, (disk.epochDBs epoch).vectorIndex.Stores vv bi t ∧ Sketches D bi t L

theorem Standing.left {p : Orderer (World App)} (standing : Standing input D epoch L p) :
    Left D epoch L p.store.disk := by
  have tabled := standing.settled.tabled
  refine ⟨tabled.epochState, tabled.rooted.nodup, tabled.rooted.mem, tabled.others, ?_⟩
  rw [show (p.store.disk.epochDBs epoch).vectorIndex = _ from tabled.vectors]
  exact standing.settled.index.based.flushed

theorem genesis_left (D : EventDag vv) (epoch : Nat) (state : Option LastDecidedState) :
    Left D epoch [] ⟨state, some ⟨epoch, vv⟩, fun _ => .empty⟩ := by
  refine ⟨rfl, List.nodup_nil, fun r => iff_of_false List.not_mem_nil ?_, fun _ _ => rfl,
    _, _, empty_stores, empty_sketches⟩
  rintro ⟨x, inX, _⟩
  exact absurd inX List.not_mem_nil

theorem load_settled (held : D.HeldBy input) (received : D.Received L) (left : Left D epoch L disk)
    (storeCfg : StoreConfig) (indexCfg : IndexConfig) (noValidators : Validators) (app : App)
    (blocks : List EmittedBlock) :
    Ensures ((IndexedLachesis.new input storeCfg indexCfg disk noValidators app blocks).lachesis.load
      (indexedCallbacks input)) fun q =>
        q.callback = indexedCallbacks input ∧ Settled D epoch L L ⟨none⟩ q.store q.world ∧
        q.store.lastDecidedState = disk.lastDecidedState ∧
        toldOf epoch q.store q.world = ⟨(disk.epochDBs epoch).confirmedEvent, app, blocks⟩ ∧
        Orderer.Running (IdIn L) q.store q.election := by
  obtain ⟨lastDecided, state, dbs⟩ := disk
  obtain rfl : state = some ⟨epoch, vv⟩ := left.epochState
  have current : Ensures (Store.new storeCfg ⟨lastDecided, some ⟨epoch, vv⟩, dbs⟩).getEpoch
      fun n => n = epoch := ensures_ok rfl
  refine ensures_bind current ?_
  rintro _ rfl
  refine ensures_bind (ensures_any _) fun validators _ => ?_
  refine ensures_bind (Store.getLastDecidedFrame_ensures _) fun lastDecidedFrame decided => ?_
  refine ensures_ok ⟨rfl, ⟨?_, ?_, rfl⟩, rfl, rfl, ?_⟩
  · exact ⟨rfl, ⟨rfl, left.nodup, left.mem, Simplewlru.Cache.purge_holds⟩, left.others, rfl⟩
  · exact reset_stays held received left.vectors _
  · exact Orderer.running_reset _ _ decided

theorem bootstrap_under (new : p.lachesis.election = none) {K : Store → World App → Prop}
    {S : Orderer (World App) → Prop} {asks : EventID → Prop}
    (rule : Orderer.Rule World.forklessCause (indexedCallbacks input) asks K S) (never : ∀ q, ¬ S q)
    (loaded : Ensures (p.lachesis.load (indexedCallbacks input))
      (Orderer.Under (indexedCallbacks input) asks K))
    (callback : ConsensusCallbacks App) : Ensures (p.bootstrap input callback) fun r => r.1 = none →
      ∃ q, Orderer.Under (indexedCallbacks input) asks K q ∧
        r.2.lachesis = { q with world := { q.world with callback := callback } } := by
  have started : Ensures (p.lachesis.bootstrap World.forklessCause (indexedCallbacks input)) fun r =>
      r.1 = none → Orderer.Under (indexedCallbacks input) asks K r.2 := by
    rw [Orderer.bootstrap, new]
    refine ensures_bind loaded fun q under => ?_
    refine ensures_bind (Orderer.bootstrapElection_under rule under) ?_
    rintro ⟨outcome, o⟩ ends
    dsimp only at ends ⊢
    have under := ends.resolve_left fun sealed => never o sealed.2
    split
    · exact ensures_ok fun ok => (nomatch ok)
    · exact ensures_ok fun _ => under.2
  have wired : Ensures (bootstrapWithOrderer p.lachesis callback (indexedCallbacks input)) fun r =>
      r.1 = none → ∃ q, Orderer.Under (indexedCallbacks input) asks K q ∧
        r.2 = { q with world := { q.world with callback := callback } } := by
    refine ensures_bind started ?_
    rintro ⟨error, q⟩ under
    dsimp only at under ⊢
    split
    · exact ensures_ok fun ok => (nomatch ok)
    · exact ensures_ok fun _ => ⟨q, under rfl, rfl⟩
  refine ensures_bind wired ?_
  rintro ⟨error, q⟩ ends
  exact ensures_ok ends

theorem Standing.wired (held : D.HeldBy input) (framed : Framed D L)
    (under : Orderer.Under (indexedCallbacks input) (IdIn L) (Settled D epoch L L cb) q)
    (callback : ConsensusCallbacks App) :
    Standing input D epoch L { q with world := { q.world with callback := callback } } :=
  ⟨held, under.callback, framed, ⟨under.holds.tabled, under.holds.index, rfl⟩, under.running⟩

theorem onFrameDecided_untold {p : Orderer (World App)} (callback : p.callback = indexedCallbacks input)
    (settled : Settled D epoch L M (⟨none⟩ : ConsensusCallbacks App) p.store p.world) (frame : Nat)
    (atropos : EventID) : Ensures (p.onFrameDecided frame atropos) fun r =>
      toldOf epoch r.2.store r.2.world = toldOf epoch p.store p.world := by
  have opened := settled.tabled.rooted.opened
  have applied : Ensures (p.applyAtropos frame atropos) fun r =>
      r.1 = none ∧ toldOf epoch r.2.store r.2.world = toldOf epoch p.store p.world := by
    have skipped : Ensures (applyAtropos input p.store p.world frame atropos) fun r =>
        r.1 = none ∧ r.2.1 = (p.store.epochDBs epoch).confirmedEvent ∧
          r.2.2.app = p.world.app ∧ r.2.2.blocks = p.world.blocks := by
      refine ensures_bind (ensures_any _) fun clock _ => ensures_bind (ensures_any _) fun _ _ => ?_
      rw [settled.tabled.rooted.epochTable]
      dsimp only [bind, Except.bind]
      rw [settled.callback]
      exact ensures_ok ⟨rfl, rfl, rfl, rfl⟩
    rw [Orderer.applyAtropos, callback]
    refine ensures_bind skipped ?_
    rintro ⟨newValidators, confirmedEvent, w⟩ ⟨none_, marks, app, blocks⟩
    rw [settled.tabled.rooted.epochTable]
    refine ensures_ok ⟨none_, ?_⟩
    dsimp only at marks app blocks
    simp [toldOf, Store.setEpochTable, opened, marks, app, blocks]
  refine ensures_bind applied ?_
  rintro ⟨newValidators, q⟩ ⟨rfl, told⟩
  exact ensures_bind (ensures_any _) fun _ _ => ensures_bind (ensures_any _) fun _ _ => ensures_ok told

theorem bootstrap_told (held : D.HeldBy input) (received : D.Received L) (framed : Framed D L)
    {disk : Disk} (left : Left D epoch L disk) (storeCfg : StoreConfig) (indexCfg : IndexConfig)
    (noValidators : Validators) (app : App) (blocks : List EmittedBlock)
    (callback : ConsensusCallbacks App) :
    Ensures ((IndexedLachesis.new input storeCfg indexCfg disk noValidators app blocks).bootstrap
      input callback) fun r => r.1 = none → Standing input D epoch L r.2.lachesis ∧
        toldOf epoch r.2.lachesis.store r.2.lachesis.world =
          ⟨(disk.epochDBs epoch).confirmedEvent, app, blocks⟩ ∧
        r.2.lachesis.world.callback = callback ∧
        (L = [] → r.2.lachesis.store.lastDecidedState = disk.lastDecidedState) := by
  let K (store : Store) (w : World App) : Prop := Settled D epoch L L ⟨none⟩ store w ∧
    toldOf epoch store w = ⟨(disk.epochDBs epoch).confirmedEvent, app, blocks⟩ ∧
    (L = [] → store.lastDecidedState = disk.lastDecidedState)
  have rule : Orderer.Rule World.forklessCause (indexedCallbacks input) (IdIn L) K
      fun _ => False := by
    have known : Orderer.Rule World.forklessCause (indexedCallbacks input) (IdIn L)
      (Settled D epoch L L (⟨none⟩ : ConsensusCallbacks App)) _ := settled_rule D epoch L L ⟨none⟩
    constructor
    · rintro store w a b ⟨settled, told, kept⟩ first second r run
      have same := forklessCause_toldAs (show ToldAs epoch _ _ store w from ⟨rfl, rfl⟩) a b r run
      exact ⟨known.observes store w a b settled first second r run, same.1.trans told, kept⟩
    · rintro store w f ⟨settled, told, kept⟩ r run
      obtain ⟨settled', asked⟩ := known.looks store w f settled r run
      have same := getFrameRoots_toldAs (show ToldAs epoch _ _ store w from ⟨rfl, rfl⟩) f r run
      exact ⟨⟨settled', same.1.trans told, fun empty =>
        (store.getFrameRoots_main f r run).2.trans (kept empty)⟩, asked⟩
    · rintro p lastDecidedFrame wired ⟨settled, told, _⟩ decided atropos asked r run
      have ends := known.decides p lastDecidedFrame wired settled decided atropos asked r run
      have same := onFrameDecided_untold wired settled _ atropos r run
      obtain ⟨isSealed, q⟩ := r
      cases isSealed with
      | true => exact ends.1 rfl
      | false =>
        refine ⟨ends.1, ends.2, same.trans told, ?_⟩
        rintro rfl
        obtain ⟨x, inX, _⟩ := asked
        exact absurd inX List.not_mem_nil
  have loaded := ensures_mono
    (load_settled held received left storeCfg indexCfg noValidators app blocks)
    fun q ⟨wired, settled, decided, told, running⟩ =>
      (⟨wired, ⟨settled, told, fun _ => decided⟩, running⟩ :
        Orderer.Under (indexedCallbacks input) (IdIn L) K q)
  refine ensures_mono (bootstrap_under rfl rule (fun _ => id) loaded callback) fun r ends ok => ?_
  obtain ⟨q, ⟨wired, ⟨settled, told, kept⟩, running⟩, is⟩ := ends ok
  rw [is]
  exact ⟨.wired held framed ⟨wired, settled, running⟩ callback, told, rfl, kept⟩

theorem process_sealed {vv' : Validators} {n : Nat} {p' : IndexedLachesis App}
    (standing : Standing input D epoch L p.lachesis) (received : D.Received (L ++ [e]))
    (run : p.process input e = .ok (none, p'))
    (moved : p'.lachesis.store.epochState ≠ p.lachesis.store.epochState)
    (now : p'.lachesis.store.epochState = some ⟨n, vv'⟩) : Sealed input n vv' p'.lachesis := by
  rcases process_standing standing received _ run with ⟨failed, _⟩ | ⟨_, standing' | ⟨_, fresh⟩⟩
  · cases failed
  · exact absurd (standing'.settled.tabled.epochState.trans
      standing.settled.tabled.epochState.symm) moved
  · exact fresh.named now

end Calls

/-- An instance after the events of `L` in the epoch of `D`, whatever happened before. -/
inductive Lives {App : Type} (input : EventSource) :
    (vv : Validators) → EventDag vv → List Event → IndexedLachesis App → Prop where
  | genesis {vv : Validators} {D : EventDag vv} {p : IndexedLachesis App} (epoch : Nat)
      (storeCfg : StoreConfig) (indexCfg : IndexConfig) (noValidators : Validators) (app : App)
      (callback : ConsensusCallbacks App) (held : D.HeldBy input)
      (run : (IndexedLachesis.new input storeCfg indexCfg
        ⟨some ⟨firstFrame - 1⟩, some ⟨epoch, vv⟩, fun _ => .empty⟩ noValidators app []).bootstrap
          input callback = .ok (none, p)) : Lives input vv D [] p
  | accept {vv : Validators} {D : EventDag vv} {L : List Event} {p p' : IndexedLachesis App}
      {e : Event} (before : Lives input vv D L p) (received : D.Received (L ++ [e]))
      (run : p.process input e = .ok (none, p'))
      (same : p'.lachesis.store.epochState = p.lachesis.store.epochState) :
      Lives input vv D (L ++ [e]) p'
  | newEpoch {vv vv' : Validators} {D : EventDag vv} {D' : EventDag vv'} {L : List Event}
      {p p' : IndexedLachesis App} {e : Event} {epoch : Nat} (before : Lives input vv D L p)
      (received : D.Received (L ++ [e])) (run : p.process input e = .ok (none, p'))
      (moved : p'.lachesis.store.epochState ≠ p.lachesis.store.epochState)
      (now : p'.lachesis.store.epochState = some ⟨epoch, vv'⟩) (held : D'.HeldBy input) :
      Lives input vv' D' [] p'
  | reject {vv : Validators} {D : EventDag vv} {L : List Event} {p p' : IndexedLachesis App}
      {e : Event} {error : ProcessError} (before : Lives input vv D L p)
      (received : D.Received (L ++ [e])) (run : p.process input e = .ok (some error, p')) :
      Lives input vv D L p'
  | build {vv : Validators} {D : EventDag vv} {L : List Event} {p p' : IndexedLachesis App}
      {e e' : Event} (before : Lives input vv D L p)
      (foreign : Unassigned D e (p.uniqueDirtyID + 1)) (run : p.build input e = .ok (e', p')) : Lives input vv D L p'
  | restart {vv : Validators} {D : EventDag vv} {L : List Event} {p p' : IndexedLachesis App}
      (storeCfg : StoreConfig) (indexCfg : IndexConfig) (noValidators : Validators) (app : App)
      (callback : ConsensusCallbacks App) (before : Lives input vv D L p)
      (run : (IndexedLachesis.new input storeCfg indexCfg p.lachesis.store.disk noValidators app
        p.lachesis.world.blocks).bootstrap input callback = .ok (none, p')) : Lives input vv D L p'
  | reset {vv vv' : Validators} {D : EventDag vv} {D' : EventDag vv'} {L : List Event}
      {p p' : IndexedLachesis App} (epoch : Nat) (before : Lives input vv D L p)
      (run : p.reset epoch vv' = .ok p') (held : D'.HeldBy input) : Lives input vv' D' [] p'

theorem lives_standing {App : Type} {input : EventSource} {vv : Validators} {D : EventDag vv}
    {L : List Event} {p : IndexedLachesis App} (lives : Lives input vv D L p) :
    ∃ epoch, Standing input D epoch L p.lachesis := by
  induction lives with
  | genesis epoch storeCfg indexCfg noValidators app callback held run =>
    exact ⟨epoch, (bootstrap_told held received_nil (framed_nil _) (genesis_left _ epoch _)
      storeCfg indexCfg noValidators app [] callback _ run rfl).1⟩
  | accept _ received run same ih =>
    obtain ⟨epoch, standing⟩ := ih
    rcases process_standing standing received _ run with ⟨failed, _⟩ | ⟨_, standing' | ⟨vv', fresh⟩⟩
    · cases failed
    · exact ⟨epoch, standing'⟩
    · exact absurd same (standing.moved fresh)
  | newEpoch _ received run moved now held ih =>
    obtain ⟨epoch, standing⟩ := ih
    exact ⟨_, (process_sealed standing received run moved now).standing held⟩
  | reject _ received run ih =>
    obtain ⟨epoch, standing⟩ := ih
    rcases process_standing standing received _ run with ⟨_, standing'⟩ | ⟨failed, _⟩
    · exact ⟨epoch, standing'⟩
    · cases failed
  | build _ foreign run ih =>
    obtain ⟨epoch, standing⟩ := ih
    exact ⟨epoch, build_standing standing foreign _ run⟩
  | restart storeCfg indexCfg noValidators app callback _ run ih =>
    obtain ⟨epoch, standing⟩ := ih
    exact ⟨epoch, (bootstrap_told standing.held standing.settled.index.received standing.framed
      standing.left storeCfg indexCfg noValidators app _ callback _ run rfl).1⟩
  | reset epoch _ run held ih =>
    obtain ⟨_, standing⟩ := ih
    exact ⟨epoch, (reset_sealed standing epoch _ _ run).standing held⟩

end Lachesis.Abft
