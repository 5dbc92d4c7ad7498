import Lachesis.Abft.Delivery
import Lachesis.Abft.RootSlots

/-!
The blocks of an epoch and the events they confirm, over whole runs with `BeginBlock` set: every
decision delivers one more block, and marks what the walk of its Atropos enters.
-/

namespace Lachesis.Abft

open Dag Pos Triples Vecfc Vecengine

section Decisions

variable {App : Type} {input : EventSource} {vv : Validators} {D : EventDag vv} {epoch : Nat}
  {kept M : List Event} {cb : ConsensusCallbacks App}
  {beginBlock : App → Block → BlockCallbacks App × App}

variable {a : Event} {p : Orderer (World App)} {start : Told App} {blocks : List Block}

theorem applyAtropos_delivers (input : EventSource) {store : Store} {w : World App}
    (settled : Settled D epoch kept M cb store w) (frame : Nat) (inA : a ∈ M) :
    ∃ vi cheaters, Stays D kept M M vi ∧ vi.persisted = w.dagIndexer.persisted ∧
      (Capped M → cheaters = forkersSeen D a) ∧
      applyAtropos input store w frame a.id = do
        let (newValidators, t) ← announce input cb frame ⟨a.id, cheaters⟩ (toldOf epoch store w)
        return (newValidators, t.confirmedEvent,
          { w with dagIndexer := vi, app := t.app, blocks := t.blocks }) := by
  obtain ⟨vec, vi, merged, index, same, marks⟩ := getMergedHighestBefore_stays settled.index inA
  refine ⟨vi, cheaters vv vec, index, same, fun capped => ?_, ?_⟩
  · classical
    rw [cheaters_eq_filter, forkersSeen]
    refine List.filter_congr fun v listed => ?_
    rw [Bool.eq_iff_iff, marks capped v listed, decide_eq_true_eq]
  · rw [applyAtropos, merged]
    dsimp only [bind, Except.bind]
    rw [settled.tabled.getValidators, settled.tabled.rooted.epochTable]
    dsimp only
    rw [settled.callback, announce]
    cases cb.beginBlock with
    | none => rfl
    | some beginBlock =>
      dsimp only
      rw [deliver]
      dsimp only [bind, Except.bind, toldOf]
      rcases confirmEvents input frame a.id _ (store.epochDBs epoch).confirmedEvent _ with _ | done
      · rfl
      · rfl

theorem resetEpochStore_world (callback : p.callback = indexedCallbacks input) (epoch' : Nat) :
    (p.resetEpochStore epoch').world =
      { p.world with dagIndexer := (p.resetEpochStore epoch').world.dagIndexer } := by
  unfold Orderer.resetEpochStore
  rw [callback]
  dsimp only [indexedCallbacks, resetIndex]
  split <;> rfl

structure Telling (input : EventSource) (cb : ConsensusCallbacks App) (start : Told App) (epoch : Nat)
    (blocks : List Block) (store : Store) (w : World App) : Prop where
  replays : Replays input cb start blocks none (toldOf epoch store w)
  decided : store.lastDecidedState = some ⟨blocks.length⟩

def Closing (input : EventSource) (cb : ConsensusCallbacks App) (start : Told App)
    (blocks : List Block) (vv' : Validators) (w : World App) : Prop :=
  ∃ t, Replays input cb start blocks (some vv') t ∧ w.app = t.app ∧ w.blocks = t.blocks

theorem onFrameDecided_delivers (held : D.HeldBy input)
    (callback : p.callback = indexedCallbacks input)
    (settled : Settled D epoch kept M cb p.store p.world)
    (telling : Telling input cb start epoch blocks p.store p.world) (inA : a ∈ M) :
    ∃ cheaters isSealed q, p.onFrameDecided (blocks.length + 1) a.id = .ok (isSealed, q) ∧
      (Capped M → cheaters = forkersSeen D a) ∧ q.world.callback = cb ∧
      if isSealed then ∃ vv', Sealed input (epoch + 1) vv' q ∧
        Closing input cb start (blocks ++ [⟨a.id, cheaters⟩]) vv' q.world
      else q.callback = indexedCallbacks input ∧ Settled D epoch kept M cb q.store q.world ∧
        Telling input cb start epoch (blocks ++ [⟨a.id, cheaters⟩]) q.store q.world ∧
        q.election = some (.reset vv (blocks.length + 2)) := by
  obtain ⟨vi, cheaters, index, same, exact', applied⟩ :=
    applyAtropos_delivers input settled (blocks.length + 1) inA
  obtain ⟨newValidators, t, run⟩ := announce_total held cb (Nat.succ_pos blocks.length)
    (settled.index.received.inside a inA) (show a.id = (Block.mk a.id cheaters).atropos from rfl)
    (toldOf epoch p.store p.world)
  -- the orderer after `ApplyAtropos`
  let q : Orderer (World App) :=
    { p with store := p.store.setEpochTable
               { p.store.epochDBs epoch with confirmedEvent := t.confirmedEvent }
             world := { p.world with dagIndexer := vi, app := t.app, blocks := t.blocks } }
  have step : p.applyAtropos (blocks.length + 1) a.id = .ok (newValidators, q) := by
    have apply : p.callback.applyAtropos = some (applyAtropos input) := by rw [callback]; rfl
    rw [Orderer.applyAtropos, apply]
    dsimp only
    rw [applied, run]
    dsimp only [bind, Except.bind, pure, Except.pure]
    rw [settled.tabled.rooted.epochTable]
  have opened := settled.tabled.rooted.opened
  have settled' : Settled D epoch kept M cb q.store q.world := by
    refine ⟨?_, index, settled.callback⟩
    have written := settled.tabled.setEpochTable
      { p.store.epochDBs epoch with confirmedEvent := t.confirmedEvent } rfl
    rwa [show _ = vi.persisted from settled.tabled.vectors.trans same.symm] at written
  have recorded : toldOf epoch q.store q.world = t := by
    simp [toldOf, q, Store.setEpochTable, opened]
  have decided : q.store.lastDecidedState = some ⟨blocks.length⟩ :=
    (p.store.setEpochTable_main _).2.trans telling.decided
  rw [Orderer.onFrameDecided, step]
  dsimp only [bind, Except.bind]
  rw [Store.getLastDecidedState, decided]
  cases newValidators with
  | none =>
    dsimp only
    rw [settled'.tabled.getValidators]
    refine ⟨cheaters, false, _, rfl, exact', settled'.callback, callback,
      ⟨settled'.tabled.setLastDecidedState _, settled'.index, settled'.callback⟩, ⟨?_, ?_⟩, rfl⟩
    · exact .snoc telling.replays (run.trans (by rw [← recorded]; rfl))
    · rw [List.length_append]
      rfl
  | some vv' =>
    dsimp only
    rw [Orderer.sealEpoch, Store.getEpochState, settled'.tabled.epochState]
    let o : Orderer (World App) := { q with store := q.store.setEpochState ⟨epoch + 1, vv'⟩ }
    have kept : (o.resetEpochStore (epoch + 1)).world =
        { q.world with dagIndexer := (o.resetEpochStore (epoch + 1)).world.dagIndexer } :=
      resetEpochStore_world (show o.callback = _ from callback) (epoch + 1)
    refine ⟨cheaters, true, _, rfl, exact', ?_, vv', ?_, t, .snoc telling.replays run, ?_, ?_⟩
    · exact (congrArg World.callback kept).trans settled'.callback
    · exact resetEpochStore_sealed (p := o) callback rfl settled'.tabled.rooted.opened
        settled'.tabled.others
    · exact congrArg World.app kept
    · exact congrArg World.blocks kept

def TellingIn (input : EventSource) (cb : ConsensusCallbacks App) (start : Told App) (epoch : Nat)
    (M : List Event) (store : Store) (w : World App) : Prop :=
  ∃ blocks, Telling input cb start epoch blocks store w ∧ ∀ b ∈ blocks, IdIn M b.atropos

def ClosedBy (input : EventSource) (cb : ConsensusCallbacks App) (start : Told App) (epoch : Nat)
    (M : List Event) (p : Orderer (World App)) : Prop :=
  ∃ vv' blocks, Sealed input (epoch + 1) vv' p ∧ Closing input cb start blocks vv' p.world ∧
    ∀ b ∈ blocks, IdIn M b.atropos

theorem known_of_idIn (inside : ∀ x ∈ M, x ∈ D.events) (named : ∀ b ∈ blocks, IdIn M b.atropos) :
    ∀ b ∈ blocks, ∃ a ∈ D.events, a.id = b.atropos := by
  intro b member
  obtain ⟨a, inA, same⟩ := named b member
  exact ⟨a, inside a inA, same⟩

theorem telling_rule (held : D.HeldBy input) :
    Orderer.Rule World.forklessCause (indexedCallbacks input) (IdIn M)
      (fun store w => Settled D epoch kept M cb store w ∧ TellingIn input cb start epoch M store w)
      (ClosedBy input cb start epoch M) where
  observes := by
    rintro store w a b ⟨settled, blocks, telling, named⟩ first second
    refine fun r run => ⟨(@settled_rule _ input _ D epoch kept M cb).observes store w a b
      settled first second r run, blocks, ⟨?_, telling.decided⟩, named⟩
    have told := forklessCause_toldAs (show ToldAs epoch _ _ store w from ⟨rfl, rfl⟩) a b r run
    exact told.1 ▸ telling.replays
  looks := by
    rintro store w f ⟨settled, blocks, telling, named⟩ r run
    obtain ⟨settled', asked⟩ := (@settled_rule _ input _ D epoch kept M cb).looks store w f
      settled r run
    have told := getFrameRoots_toldAs (show ToldAs epoch _ _ store w from ⟨rfl, rfl⟩) f r run
    refine ⟨⟨settled', blocks, ⟨told.1 ▸ telling.replays, ?_⟩, named⟩, asked⟩
    exact (store.getFrameRoots_main f r run).2.trans telling.decided
  decides := by
    rintro p lastDecidedFrame callback ⟨settled, blocks, telling, named⟩ decided _ ⟨a, inA, rfl⟩
    obtain rfl : blocks.length = lastDecidedFrame := by
      have same := telling.decided.symm.trans decided
      rwa [Option.some.injEq, LastDecidedState.mk.injEq] at same
    obtain ⟨cheaters, isSealed, q, run, _, _, ends⟩ :=
      onFrameDecided_delivers held callback settled telling inA
    have named' : ∀ b ∈ blocks ++ [⟨a.id, cheaters⟩], IdIn M b.atropos :=
      List.forall_mem_append.mpr ⟨named, List.forall_mem_singleton.mpr ⟨a, inA, rfl⟩⟩
    rw [run]
    refine ensures_ok ?_
    cases isSealed with
    | true =>
      obtain ⟨vv', sealed, closing⟩ := ends
      exact ⟨vv', _, sealed, closing, named'⟩
    | false => exact ⟨ends.1, ends.2.1, _, ends.2.2.1, named'⟩

end Decisions

section Runs

variable {App : Type} {input : EventSource} {vv : Validators} {D : EventDag vv} {epoch : Nat}
  {L M : List Event} {e : Event} {cb : ConsensusCallbacks App} {start : Told App}

structure Delivering (input : EventSource) (D : EventDag vv) (cb : ConsensusCallbacks App)
    (start : Told App) (epoch : Nat) (L : List Event) (p : Orderer (World App)) : Prop where
  standing : Standing input D epoch L p
  consensus : p.world.callback = cb
  telling : TellingIn input cb start epoch L p.store p.world

variable {p : Orderer (World App)} {w : World App}

theorem Steady.telling {q : Orderer (World App)} (steady : Steady epoch p q)
    (telling : TellingIn input cb start epoch L p.store p.world) :
    TellingIn input cb start epoch L q.store q.world := by
  obtain ⟨blocks, ⟨replays, decided⟩, named⟩ := telling
  exact ⟨blocks, ⟨steady.told.symm ▸ replays, steady.lastDecidedState.trans decided⟩, named⟩

theorem TellingIn.mono {store : Store} (part : ∀ x ∈ L, x ∈ M)
    (telling : TellingIn input cb start epoch L store w) :
    TellingIn input cb start epoch M store w := by
  obtain ⟨blocks, told, named⟩ := telling
  refine ⟨blocks, told, fun b member => ?_⟩
  obtain ⟨a, inA, same⟩ := named b member
  exact ⟨a, part a inA, same⟩

theorem flush_world (p : Orderer (World App)) :
    Ensures (IndexedLachesis.flush p) fun q => ∃ vi, q.world = { p.world with dagIndexer := vi } :=
  ensures_bind (ensures_any _) fun _ _ => ensures_ok ⟨_, rfl⟩

theorem process_delivering {p : IndexedLachesis App}
    (delivering : Delivering input D cb start epoch L p.lachesis)
    (received : D.Received (L ++ [e])) :
    Ensures (p.process input e) fun r =>
      r.1 = some .wrongFrame ∧ Delivering input D cb start epoch L r.2.lachesis ∨
        r.1 = none ∧ (Delivering input D cb start epoch (L ++ [e]) r.2.lachesis ∨
          ClosedBy input cb start epoch (L ++ [e]) r.2.lachesis) := by
  obtain ⟨standing, consensus, telling⟩ := delivering
  rcases process_checks standing received with ⟨q, rejected, standing', steady, _⟩ |
    ⟨q, accepted, settled, framed, steady, _⟩
  · rw [rejected]
    exact ensures_ok (.inl ⟨rfl, standing', steady.consensus.trans consensus, steady.telling telling⟩)
  · rw [accepted]
    rw [consensus] at settled
    have more : ∀ x ∈ L, x ∈ L ++ [e] := fun x inX => List.mem_append_left _ inX
    have running := steady.election ▸ standing.running.main steady.lastDecidedState
    have under : Orderer.Under (indexedCallbacks input) (IdIn (L ++ [e]))
        (fun store w => Settled D epoch L (L ++ [e]) cb store w ∧
          TellingIn input cb start epoch (L ++ [e]) store w) q :=
      ⟨steady.callback.trans standing.callback, ⟨settled, (steady.telling telling).mono more⟩,
        running_mono running more⟩
    have handled := Orderer.handleElection_under (telling_rule standing.held) under (spFrame D e)
      ⟨e, by simp, rfl⟩
    refine ensures_mono (IndexedLachesis.conclude_ensures handled
      (Q := fun o => Delivering input D cb start epoch (L ++ [e]) o ∨
        ClosedBy input cb start epoch (L ++ [e]) o) ?_) fun r => .inr
    rintro o (⟨callback, ⟨settled, telling⟩, running⟩ | ⟨vv', blocks, sealed, closing, named⟩)
    · refine ensures_mono (Standing.flush standing.held framed ⟨callback, settled, running⟩) ?_
      rintro q ⟨standing', steady'⟩
      exact .inl ⟨standing', steady'.consensus.trans settled.callback, steady'.telling telling⟩
    · obtain ⟨q, wrote, sealed⟩ := sealed.flush
      obtain ⟨vi, same⟩ := flush_world o q wrote
      rw [wrote]
      refine ensures_ok (.inr ⟨vv', blocks, sealed, ?_, named⟩)
      rw [same]
      exact closing

/-- The instance begins an epoch with the validators, at the genesis or later in its life. -/
inductive Opens (input : EventSource) (vv : Validators) : IndexedLachesis App → Prop where
  | genesis {p : IndexedLachesis App} (epoch : Nat) (storeCfg : StoreConfig) (indexCfg : IndexConfig)
      (noValidators : Validators) (app : App) (callback : ConsensusCallbacks App)
      (run : (IndexedLachesis.new input storeCfg indexCfg
        ⟨some ⟨firstFrame - 1⟩, some ⟨epoch, vv⟩, fun _ => .empty⟩ noValidators app []).bootstrap
          input callback = .ok (none, p)) : Opens input vv p
  | reset {old : Validators} {D : EventDag old} {L : List Event} {p p' : IndexedLachesis App}
      (epoch : Nat) (before : Lives input old D L p) (run : p.reset epoch vv = .ok p') :
      Opens input vv p'
  | newEpoch {old : Validators} {D : EventDag old} {L : List Event} {p p' : IndexedLachesis App}
      {e : Event} {epoch : Nat} (before : Lives input old D L p) (received : D.Received (L ++ [e]))
      (run : p.process input e = .ok (none, p'))
      (moved : p'.lachesis.store.epochState ≠ p.lachesis.store.epochState)
      (now : p'.lachesis.store.epochState = some ⟨epoch, vv⟩) : Opens input vv p'

/-- A run within the epoch of `D`, with `BeginBlock` set. The application is not there while the
instance starts again, and so a frame must not be decided then. -/
inductive EpochRun (input : EventSource) (D : EventDag vv)
    (beginBlock : App → Block → BlockCallbacks App × App) (start : IndexedLachesis App) :
    List Event → IndexedLachesis App → Prop where
  | opens (held : D.HeldBy input) (opens : Opens input vv start)
      (begins : start.lachesis.world.callback.beginBlock = some beginBlock) :
      EpochRun input D beginBlock start [] start
  | accept {L : List Event} {p p' : IndexedLachesis App} {e : Event}
      (before : EpochRun input D beginBlock start L p) (received : D.Received (L ++ [e]))
      (run : p.process input e = .ok (none, p'))
      (same : p'.lachesis.store.epochState = p.lachesis.store.epochState) :
      EpochRun input D beginBlock start (L ++ [e]) p'
  | reject {L : List Event} {p p' : IndexedLachesis App} {e : Event} {error : ProcessError}
      (before : EpochRun input D beginBlock start L p) (received : D.Received (L ++ [e]))
      (run : p.process input e = .ok (some error, p')) : EpochRun input D beginBlock start L p'
  | build {L : List Event} {p p' : IndexedLachesis App} {e e' : Event}
      (before : EpochRun input D beginBlock start L p)
      (foreign : Unassigned D e (p.uniqueDirtyID + 1))
      (run : p.build input e = .ok (e', p')) : EpochRun input D beginBlock start L p'
  | restart {L : List Event} {p p' : IndexedLachesis App} (storeCfg : StoreConfig)
      (indexCfg : IndexConfig) (noValidators : Validators)
      (before : EpochRun input D beginBlock start L p)
      (run : (IndexedLachesis.new input storeCfg indexCfg p.lachesis.store.disk noValidators
        p.lachesis.world.app p.lachesis.world.blocks).bootstrap input ⟨some beginBlock⟩ =
          .ok (none, p'))
      (quiet : p'.lachesis.store.lastDecidedState = p.lachesis.store.lastDecidedState) :
      EpochRun input D beginBlock start L p'

theorem Sealed.opens (fresh : Sealed input epoch vv p) (held : D.HeldBy input) :
    Standing input D epoch [] p ∧
      p.store.lastDecidedState = some ⟨0⟩ ∧ (p.store.epochDBs epoch).confirmedEvent = [] :=
  ⟨fresh.standing held, fresh.lastDecidedState, by rw [fresh.tables]; rfl⟩

theorem opens_standing (held : D.HeldBy input) {p : IndexedLachesis App} (opens : Opens input vv p) :
    ∃ epoch, Standing input D epoch [] p.lachesis ∧
      p.lachesis.store.lastDecidedState = some ⟨0⟩ ∧
      (p.lachesis.store.epochDBs epoch).confirmedEvent = [] := by
  cases opens with
  | genesis epoch storeCfg indexCfg noValidators app callback run =>
    obtain ⟨standing, told, _, decided⟩ := bootstrap_told held received_nil (framed_nil D)
      (genesis_left D epoch _) storeCfg indexCfg noValidators app [] callback _ run rfl
    exact ⟨epoch, standing, decided rfl, congrArg Told.confirmedEvent told⟩
  | reset epoch before run =>
    obtain ⟨_, standing⟩ := lives_standing before
    exact ⟨epoch, (reset_sealed standing epoch vv _ run).opens held⟩
  | newEpoch before received run moved now =>
    obtain ⟨epoch, standing⟩ := lives_standing before
    exact ⟨_, (process_sealed standing received run moved now).opens held⟩

variable {beginBlock : App → Block → BlockCallbacks App × App} {p begun : IndexedLachesis App}

theorem epochRun_delivering (run : EpochRun input D beginBlock begun L p) :
    ∃ epoch start, start = toldOf epoch begun.lachesis.store begun.lachesis.world ∧
      (∀ id, Store.getEventConfirmedOn start.confirmedEvent id = 0) ∧
      Delivering input D ⟨some beginBlock⟩ start epoch L p.lachesis := by
  induction run with
  | opens held opens begins =>
    obtain ⟨epoch, standing, decided, blank⟩ := opens_standing held opens
    refine ⟨epoch, _, rfl, ?_, standing, congrArg ConsensusCallbacks.mk begins, [], ⟨.nil, decided⟩,
      by simp⟩
    simp [toldOf, blank, Store.getEventConfirmedOn]
  | accept _ received run same ih =>
    obtain ⟨epoch, start, is, blank, delivering⟩ := ih
    rcases process_delivering delivering received _ run with ⟨failed, _⟩ | ⟨_, goes | closed⟩
    · cases failed
    · exact ⟨epoch, start, is, blank, goes⟩
    · obtain ⟨vv', _, fresh, _⟩ := closed
      exact absurd same (delivering.standing.moved fresh)
  | reject _ received run ih =>
    obtain ⟨epoch, start, is, blank, delivering⟩ := ih
    rcases process_delivering delivering received _ run with ⟨_, stays⟩ | ⟨failed, _⟩
    · exact ⟨epoch, start, is, blank, stays⟩
    · cases failed
  | build _ foreign run ih =>
    obtain ⟨epoch, start, is, blank, standing, consensus, telling⟩ := ih
    have steady := build_steady input _ _ epoch _ run
    exact ⟨epoch, start, is, blank, build_standing standing foreign _ run,
      steady.consensus.trans consensus, steady.telling telling⟩
  | restart storeCfg indexCfg noValidators _ run quiet ih =>
    obtain ⟨epoch, start, is, blank, standing, _, blocks, ⟨replays, decided⟩, named⟩ := ih
    obtain ⟨standing', told, callback, _⟩ := bootstrap_told standing.held
      standing.settled.index.received standing.framed standing.left storeCfg indexCfg noValidators
      _ _ _ _ run rfl
    refine ⟨epoch, start, is, blank, standing', callback, blocks, ⟨?_, quiet.trans decided⟩, named⟩
    rw [told]
    exact replays

structure Accounted (D : EventDag vv) (beginBlock : App → Block → BlockCallbacks App × App)
    (start w : World App) (marks : List (EventID × Nat)) (new : List EmittedBlock) : Prop where
  told : w.blocks = start.blocks ++ new
  frames : new.map EmittedBlock.frame = List.range' 1 new.length
  app : w.app = new.foldl (tell beginBlock) start.app
  parts : Partitioned D marks new

theorem Recounted.accounted {blocks : List Block} {t : Told App} {new : List EmittedBlock}
    {first : World App} (recounted : Recounted D beginBlock start blocks t new)
    (begins : first.blocks = start.blocks ∧ first.app = start.app)
    (ends : w.app = t.app ∧ w.blocks = t.blocks) :
    Accounted D beginBlock first w t.confirmedEvent new := by
  have length : new.length = blocks.length := by rw [← recounted.listed, List.length_map]
  refine ⟨?_, length ▸ recounted.frames, ?_, recounted.parts⟩
  · rw [ends.2, begins.1]
    exact recounted.told
  · rw [ends.1, begins.2]
    exact recounted.app

/-- Each decided frame has told one block, and each event that the Atropoi observe was passed to
`ApplyEvent` once, with the block of the first Atropos that observes it. -/
theorem confirmed_in_blocks :
    (∀ {vv : Validators} {D : EventDag vv} {beginBlock : App → Block → BlockCallbacks App × App}
      {start p : IndexedLachesis App} {L : List Event}, EpochRun input D beginBlock start L p →
      (∃ db new, p.lachesis.store.epochTable = .ok db ∧
        p.lachesis.store.lastDecidedState = some ⟨new.length⟩ ∧
        Accounted D beginBlock start.lachesis.world p.lachesis.world db.confirmedEvent new) ∧
      ∀ {e : Event} {p' : IndexedLachesis App}, D.Received (L ++ [e]) →
        p.process input e = .ok (none, p') →
        p'.lachesis.store.epochState ≠ p.lachesis.store.epochState →
        ∃ marks new, Accounted D beginBlock start.lachesis.world p'.lachesis.world marks new) ∧
    ∀ (frame : Nat) (atropos : EventID) (applyEvent : Option (App → Event → App))
      (marks : List (EventID × Nat)) (app : App), firstFrame ≤ frame →
      (∀ id, Reaches input atropos id → ∃ e, input.getEvent id = some e) →
      ∃ done, confirmEvents input frame atropos applyEvent marks app = .ok done ∧
        done.app = applyEvents applyEvent app done.confirmed := by
  constructor
  · intro vv D beginBlock begun p L run
    obtain ⟨epoch, start, is, blank, delivering⟩ := epochRun_delivering run
    have begins : begun.lachesis.world.blocks = start.blocks ∧ begun.lachesis.world.app = start.app := by
      rw [is]
      exact ⟨rfl, rfl⟩
    have standing := delivering.standing
    have tabled := standing.settled.tabled
    have inside := standing.settled.index.received.inside
    constructor
    · obtain ⟨blocks, ⟨replays, decided⟩, named⟩ := delivering.telling
      obtain ⟨new, recounted⟩ := replays_recounted standing.held rfl blank replays
        (known_of_idIn inside named)
      refine ⟨_, new, tabled.rooted.epochTable, ?_, recounted.accounted begins ⟨rfl, rfl⟩⟩
      rw [decided, ← recounted.listed, List.length_map]
    · intro e p' received run moved
      rcases process_delivering delivering received _ run with ⟨failed, _⟩ | ⟨_, goes | closed⟩
      · cases failed
      · exact absurd (goes.standing.settled.tabled.epochState.trans tabled.epochState.symm) moved
      · obtain ⟨vv', blocks, _, ⟨t, replays, ends⟩, named⟩ := closed
        obtain ⟨new, recounted⟩ := replays_recounted standing.held rfl blank replays
          (known_of_idIn received.inside named)
        exact ⟨_, _, recounted.accounted begins ends⟩
  · intro frame atropos applyEvent marks app positive known
    obtain ⟨done, entered, run, marking, _⟩ := confirmEvents_walks applyEvent marks app positive known
    exact ⟨done, run, marking.app⟩

def recordBlocks (app : List EventID) (_ : Block) :
    BlockCallbacks (List EventID) × List EventID :=
  (⟨some fun app e => app ++ [e.id], none⟩, app)

set_option maxRecDepth 8000 in
/-- Two frames are decided, and the second one confirms both sides of the fork. -/
theorem confirmed_in_blocks_duo : ∃ start p : IndexedLachesis (List EventID),
    EpochRun duoInput duoDag recordBlocks start duoEvents p ∧ p.lachesis.world.app = [1, 2, 12, 11] ∧
    ∃ marks new, Accounted duoDag recordBlocks start.lachesis.world p.lachesis.world marks new ∧
      new.length = 2 := by
  have ready : EpochRun duoInput duoDag recordBlocks _ [] _ := .opens EventDag.heldBy_source
    (.genesis 1 ⟨100, 100⟩ ⟨10, 10, 10⟩ duoValidators [] ⟨some recordBlocks⟩ rfl) rfl
  have first := ready.accept (e := duoEvent 1) ⟨by decide, by decide⟩ rfl rfl
  have left := first.accept (e := duoFork 11) ⟨by decide, by decide⟩ rfl rfl
  have right := left.accept (e := duoFork 12) ⟨by decide, by decide⟩ rfl rfl
  have second := right.accept (e := duoEvent 2) ⟨by decide, by decide⟩ rfl rfl
  have third := second.accept (e := duoEvent 3) ⟨by decide, by decide⟩ rfl rfl
  have fourth := third.accept (e := duoEvent 4) ⟨by decide, by decide⟩ rfl rfl
  obtain ⟨⟨db, new, _, count, accounted⟩, _⟩ := confirmed_in_blocks.1 fourth
  exact ⟨_, _, fourth, rfl, _, new, accounted, (LastDecidedState.mk.inj (Option.some.inj count)).symm⟩

end Runs

end Lachesis.Abft
