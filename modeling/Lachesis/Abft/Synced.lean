import Lachesis.Abft.ElectionRuns

/-!
An instance between two calls, in step with the virtual votes: every frame that the processed events
decide has been told, and the election waits for more. `Process`, `Build` and `Bootstrap` keep it so,
and none of them fails.
-/

namespace Lachesis.Abft

open Dag Pos Triples Vecfc Vecengine WeightedQuorum VirtualVoting

section Chosen

variable {vv : Validators} {D : EventDag vv} {L M : List Event} {blocks blocks' : List Block}

def Waits (D : EventDag vv) (L : List Event) (blocks : List Block) : Prop :=
  ∀ a, ¬ Elected vv (epochGraph D) (blocks.length + 1) (RootOf D L) a

theorem chosen_agree (light : LightForks D.events vv) (approved : ∀ x ∈ L, Approved D x)
    (approved' : ∀ x ∈ M, Approved D x) (chosen : Chosen D L blocks) (chosen' : Chosen D M blocks')
    {k : Nat} {b b' : Block} (found : blocks[k]? = some b) (found' : blocks'[k]? = some b') : b = b' := by
  obtain ⟨a, inA, rfl, elected⟩ := chosen k b found
  obtain ⟨a', inA', rfl, elected'⟩ := chosen' k b' found'
  have same := elected_unique (epochGraph_sound light (Nat.succ_pos k))
    (fun r known => epochRoot_of approved known) (fun r known => epochRoot_of approved' known)
    elected elected'
  rw [EventDag.ids (approved a inA).1 (approved' a' inA').1 same]

/-- What one instance has told, the other has told or has yet to tell. -/
theorem chosen_comparable (light : LightForks D.events vv) (approved : ∀ x ∈ L, Approved D x)
    (approved' : ∀ x ∈ M, Approved D x) (chosen : Chosen D L blocks) (chosen' : Chosen D M blocks')
    (short : blocks.length ≤ blocks'.length) : blocks <+: blocks' := by
  rw [List.prefix_iff_eq_take]
  refine List.ext_getElem (by simp [short]) fun k low high => ?_
  rw [List.getElem_take]
  exact chosen_agree light approved approved' chosen chosen' (List.getElem?_eq_getElem low)
    (List.getElem?_eq_getElem (by omega))

theorem chosen_le (same : ∀ x ∈ M, x ∈ L) (waits : Waits D L blocks) (chosen : Chosen D M blocks') :
    blocks'.length ≤ blocks.length := by
  by_contra longer
  obtain ⟨b, found⟩ : ∃ b, blocks'[blocks.length]? = some b :=
    ⟨_, List.getElem?_eq_getElem (by omega)⟩
  obtain ⟨a, _, _, elected⟩ := chosen.mono same blocks.length b found
  exact waits a.id elected

theorem chosen_unique (light : LightForks D.events vv) (approved : ∀ x ∈ L, Approved D x)
    (approved' : ∀ x ∈ M, Approved D x) (same : ∀ x, x ∈ L ↔ x ∈ M) (chosen : Chosen D L blocks)
    (waits : Waits D L blocks) (chosen' : Chosen D M blocks') (waits' : Waits D M blocks') :
    blocks = blocks' := by
  have le := chosen_le (fun x => (same x).mp) waits' chosen
  have ge := chosen_le (fun x => (same x).mpr) waits chosen'
  exact (chosen_comparable light approved approved' chosen chosen' le).eq_of_length_le ge

end Chosen

section Calls

variable {App : Type} {input : EventSource} {vv : Validators} {D : EventDag vv} {epoch : Nat}
  {kept kept' L M : List Event} {e : Event} {cb : ConsensusCallbacks App} {start : Told App}
  {blocks : List Block} {fed : RootAndSlot → Prop}

/-- The instance after the events of `L`, in step with their votes. -/
structure Synced (input : EventSource) (D : EventDag vv) (epoch : Nat) (cb : ConsensusCallbacks App)
    (start : Told App) (L : List Event) (blocks : List Block) (p : Orderer (World App)) : Prop where
  standing : Standing input D epoch L p
  approved : ∀ x ∈ L, Approved D x
  chosen : Chosen D L blocks
  electing : ∃ fed, Electing input D epoch L L cb start blocks fed p ∧ AllFed D L blocks fed

variable {p q : Orderer (World App)}

theorem Electing.waits (electing : Electing input D epoch kept L cb start blocks fed p)
    (all : AllFed D L blocks fed) : Waits D L blocks :=
  fun a elected => electing.undecided a (elected_restrict all elected)

theorem Electing.steady (electing : Electing input D epoch kept L cb start blocks fed p)
    (steady : Steady epoch p q) (part : ∀ x ∈ L, x ∈ M)
    (settled : Settled D epoch kept' M cb q.store q.world) :
    Electing input D epoch kept' M cb start blocks fed q := by
  obtain ⟨⟨under, telling⟩, known, ⟨el, running, tracks⟩, undecided⟩ := electing
  have running' := steady.election ▸ under.running.main steady.lastDecidedState
  refine ⟨⟨⟨steady.callback.trans under.callback, settled, running_mono running' part⟩,
    steady.told.symm ▸ telling.replays, steady.lastDecidedState.trans telling.decided⟩, fun r isFed => ?_,
    ⟨el, steady.election.trans running, tracks⟩, undecided⟩
  obtain ⟨x, inX, f, isRoot, rfl⟩ := known r isFed
  exact ⟨x, part x inX, f, isRoot, rfl⟩

theorem Synced.consensus (synced : Synced input D epoch cb start L blocks p) :
    p.world.callback = cb := by
  obtain ⟨_, electing, _⟩ := synced.electing
  exact electing.onFrame.under.holds.callback

theorem Synced.telling (synced : Synced input D epoch cb start L blocks p) :
    Telling input cb start epoch blocks p.store p.world := by
  obtain ⟨_, electing, _⟩ := synced.electing
  exact electing.onFrame.telling

theorem Synced.waits (synced : Synced input D epoch cb start L blocks p) : Waits D L blocks := by
  obtain ⟨_, electing, all⟩ := synced.electing
  exact electing.waits all

theorem Synced.steady (synced : Synced input D epoch cb start L blocks p)
    (steady : Steady epoch p q) (standing : Standing input D epoch L q) :
    Synced input D epoch cb start L blocks q := by
  obtain ⟨fed, electing, all⟩ := synced.electing
  have settled := standing.settled
  rw [steady.consensus, synced.consensus] at settled
  exact ⟨standing, synced.approved, synced.chosen, fed,
    electing.steady steady (fun _ => id) settled, all⟩

/-- The epoch ends with the last of the blocks. -/
structure Ended (input : EventSource) (D : EventDag vv) (epoch : Nat) (cb : ConsensusCallbacks App)
    (start : Told App) (L : List Event) (blocks : List Block) (vv' : Validators)
    (p : Orderer (World App)) : Prop where
  sealed : Sealed input (epoch + 1) vv' p
  approved : ∀ x ∈ L, Approved D x
  chosen : Chosen D L blocks
  closing : Closing input cb start blocks vv' p.world
  consensus : p.world.callback = cb

theorem conclude_settles (orderly : Orderly D M) (held : D.HeldBy input) (p : IndexedLachesis App)
    {o : Orderer (World App)} {isSealed : Bool}
    (settles : Settles input D epoch kept M cb start isSealed o) :
    ∃ q blocks, p.conclude (.ok (.ok (), o)) = .ok (none, { p with lachesis := q }) ∧
      (Synced input D epoch cb start M blocks q ∨
        ∃ vv', Ended input D epoch cb start M blocks vv' q) := by
  obtain ⟨blocks, chosen, consensus, ends⟩ := settles
  cases isSealed with
  | true =>
    obtain ⟨vv', sealed, closing⟩ := ends
    obtain ⟨q, wrote, sealed'⟩ := sealed.flush
    obtain ⟨vi, same⟩ := flush_world o q wrote
    refine ⟨_, blocks, ?_, .inr ⟨vv', sealed', orderly.approved, chosen, ?_, ?_⟩⟩
    · dsimp only [IndexedLachesis.conclude, bind, Except.bind]
      rw [wrote]
      rfl
    · rw [same]
      exact closing
    · rw [same]
      exact consensus
  | false =>
    obtain ⟨fed, electing, all⟩ := ends
    have under := electing.onFrame.under
    have wrote := under.holds.flush.1
    obtain ⟨standing, steady⟩ := Standing.flush held orderly.framed under _ wrote
    refine ⟨_, blocks, ?_, .inl ⟨standing, orderly.approved, chosen, fed, ?_, all⟩⟩
    · dsimp only [IndexedLachesis.conclude, bind, Except.bind]
      rw [wrote]
      rfl
    · refine electing.steady steady (fun _ => id) ?_
      have settled := standing.settled
      rwa [steady.consensus, consensus] at settled

/-- The frame decides whether the event is processed, and all that it decides is told. -/
theorem process_synced (light : LightForks D.events vv) {p : IndexedLachesis App}
    (synced : Synced input D epoch cb start L blocks p.lachesis) (received : D.Received (L ++ [e]))
    (capped : Capped (L ++ [e])) :
    (¬ Fits D L e ∧ ∃ q, p.process input e = .ok (some .wrongFrame, { p with lachesis := q }) ∧
      Steady epoch p.lachesis q ∧ Synced input D epoch cb start L blocks q) ∨
    Fits D L e ∧ ∃ q blocks', p.process input e = .ok (none, { p with lachesis := q }) ∧
      (Synced input D epoch cb start (L ++ [e]) blocks' q ∨
        ∃ vv', Ended input D epoch cb start (L ++ [e]) blocks' vv' q) := by
  have standing := synced.standing
  rcases process_checks standing received with ⟨q, rejected, standing', steady, refused⟩ |
    ⟨q, accepted, settled, framed, steady, fits⟩
  · exact .inl ⟨refused capped, q, rejected, steady, synced.steady steady standing'⟩
  · refine .inr ⟨fits capped, ?_⟩
    have more : ∀ x ∈ L, x ∈ L ++ [e] := fun x inX => List.mem_append_left _ inX
    have orderly : Orderly D (L ++ [e]) :=
      ⟨light, capped, received, framed, approved_snoc synced.approved received (fits capped)⟩
    rw [synced.consensus] at settled
    obtain ⟨fed, electing, all⟩ := synced.electing
    obtain ⟨isSealed, o, run, settles⟩ := handleSlots_elects orderly standing.held
      (show e ∈ L ++ [e] by simp) (Store.slots (spFrame D e) e.frame) List.pairwise_lt_range'
      (fun f member => mem_slots.mp member) (electing.steady steady more settled)
      (synced.chosen.mono more) (by
        intro r known low
        rcases rootOf_snoc.mp known with old | new
        · exact .inl (all r old low)
        · exact .inr new)
    obtain ⟨q', blocks', done, ends⟩ := conclude_settles orderly standing.held p settles
    exact ⟨q', blocks', accepted.trans ((congrArg p.conclude run).trans done), ends⟩

theorem replays_silent {t : Told App} {next : Option Validators}
    (replays : Replays input ⟨none⟩ start blocks next t) : next = none ∧ t = start := by
  induction replays with
  | nil => exact ⟨rfl, rfl⟩
  | snoc _ run ih =>
    cases run
    exact ⟨rfl, ih.2⟩

theorem silent_replays (input : EventSource) (start : Told App) (blocks : List Block) :
    Replays input ⟨none⟩ start blocks none start := by
  induction blocks using List.reverseRecOn with
  | nil => exact .nil
  | append_singleton blocks b ih => exact .snoc ih rfl

/-- `Bootstrap` over what was left: the votes are counted again, and decide what they decided. -/
theorem bootstrap_synced (held : D.HeldBy input) (orderly : Orderly D L) {disk : Disk}
    (left : Left D epoch L disk) (decided : disk.lastDecidedState = some ⟨blocks.length⟩)
    (chosen : Chosen D L blocks) (waits : Waits D L blocks) (storeCfg : StoreConfig)
    (indexCfg : IndexConfig) (noValidators : Validators) (app : App) (emitted : List EmittedBlock)
    (replays : Replays input cb start blocks none ⟨(disk.epochDBs epoch).confirmedEvent, app, emitted⟩) :
    ∃ p, (IndexedLachesis.new input storeCfg indexCfg disk noValidators app emitted).bootstrap input
        cb = .ok (none, p) ∧ Synced input D epoch cb start L blocks p.lachesis := by
  let told : Told App := ⟨(disk.epochDBs epoch).confirmedEvent, app, emitted⟩
  let new := IndexedLachesis.new input storeCfg indexCfg disk noValidators app emitted
  obtain ⟨q, load, election⟩ : ∃ q, new.lachesis.load (indexedCallbacks input) = .ok q ∧
      q.election = some (.reset vv (blocks.length + 1)) := by
    obtain ⟨lastDecided, state, dbs⟩ := disk
    obtain rfl : state = some ⟨epoch, vv⟩ := left.epochState
    obtain rfl : lastDecided = some ⟨blocks.length⟩ := decided
    exact ⟨_, rfl, rfl⟩
  obtain ⟨wired, settled, decided', told', running⟩ := load_settled held orderly.received left storeCfg
    indexCfg noValidators app emitted q load
  have electing : Electing input D epoch L L ⟨none⟩ told blocks (fun _ => False) q := by
    refine ⟨⟨⟨wired, settled, running⟩, ?_, decided'.trans decided⟩, fun _ => False.elim,
      ⟨_, election, reset_tracks vv _ _⟩, ?_⟩
    · rw [told']
      exact silent_replays input told blocks
    · rintro a ⟨_, _, _, _, _, ⟨r, fed, _⟩, _⟩
      exact fed
  obtain ⟨isSealed, o, run, blocks', chosen', _, ends⟩ :=
    bootstrapElection_elects orderly held electing chosen
  cases isSealed with
  | true =>
    obtain ⟨_, _, t, replays', _⟩ := ends
    exact absurd (replays_silent replays').1 (by simp)
  | false =>
    obtain ⟨fed, electing', all⟩ := ends
    obtain rfl := chosen_unique orderly.light orderly.approved orderly.approved (fun _ => Iff.rfl)
      chosen waits chosen' (electing'.waits all)
    obtain ⟨⟨under, telling⟩, known, tracks, undecided⟩ := electing'
    let world := { o.world with callback := cb }
    have boots : new.bootstrap input cb =
        .ok (none, { new with lachesis := { o with world := world } }) := by
      rw [IndexedLachesis.bootstrap, bootstrapWithOrderer, Orderer.bootstrap,
        show new.lachesis.election = none from rfl]
      dsimp only [bind, Except.bind]
      rw [load]
      dsimp only
      rw [run]
      rfl
    have standing : Standing input D epoch L { o with world := world } :=
      .wired held orderly.framed under cb
    refine ⟨_, boots, standing, orderly.approved, chosen, fed, ⟨⟨⟨under.callback, standing.settled,
      under.running⟩, ?_, telling.decided⟩, known, tracks, undecided⟩, all⟩
    rw [show toldOf epoch o.store world = told from (replays_silent telling.replays).2]
    exact replays

end Calls

end Lachesis.Abft
