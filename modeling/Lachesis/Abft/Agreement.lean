import Lachesis.Abft.Synced

/-!
Two instances of one epoch. Whatever part of the events each of them gets, and in whatever order, one
has told the application what the other has told, and perhaps more.
-/

namespace Lachesis.Abft

open Dag Pos Triples Vecfc Vecengine

section Replays

variable {App : Type} {input input' : EventSource} {vv : Validators} {D : EventDag vv} {frame : Nat}
  {cb : ConsensusCallbacks App} {start t t' : Told App} {blocks blocks' : List Block}
  {next next' : Option Validators}

variable {block : Block}

theorem announce_source (held : D.HeldBy input) (held' : D.HeldBy input') (positive : 0 < frame)
    {a : Event} (inA : a ∈ D.events) (atropos : a.id = block.atropos) :
    announce input cb frame block t = announce input' cb frame block t := by
  cases begins : cb.beginBlock with
  | none => rw [announce, announce, begins]
  | some beginBlock =>
    rw [announce, announce, begins]
    dsimp only
    have walks : ∀ {input : EventSource}, D.HeldBy input → ∃ done,
        confirmEvents input frame block.atropos (beginBlock t.app block).1.applyEvent
          t.confirmedEvent (beginBlock t.app block).2 = .ok done := by
      intro input held
      obtain ⟨done, _, run, _⟩ := confirmEvents_walks (beginBlock t.app block).1.applyEvent
        t.confirmedEvent (beginBlock t.app block).2 positive (atropos ▸ ancestors_held held inA)
      exact ⟨done, run⟩
    obtain ⟨done, run⟩ := walks held
    obtain ⟨done', run'⟩ := walks held'
    have visits : ∀ {input : EventSource}, D.HeldBy input → ∀ s x, x ∈ D.events →
        confirmEvent input frame (beginBlock t.app block).1.applyEvent s x.id =
          confirmEvent D.source frame (beginBlock t.app block).1.applyEvent s x.id := by
      intro input held s x inX
      rw [confirmEvent, confirmEvent, held x inX, EventDag.heldBy_source x inX]
    have same : done = done' := by
      refine StackWalk.walk_agree (fun id => ∃ x ∈ D.events, x.id = id) ?_ ?_ ?_ run run'
      · rintro s _ ⟨x, inX, rfl⟩
        rw [visits held s x inX, visits held' s x inX]
      · rintro s _ pushed s' ⟨x, inX, rfl⟩ visited y member
        rw [confirmEvent, held x inX] at visited
        dsimp only at visited
        split at visited
        · cases visited
        · cases visited
          exact parentsFirst_closed D.ordered x inX y member
      · exact List.forall_mem_singleton.mpr ⟨a, inA, atropos⟩
    rw [deliver, deliver]
    dsimp only
    rw [run, run', same]

theorem replays_source (held : D.HeldBy input) (held' : D.HeldBy input')
    (known : ∀ b ∈ blocks, ∃ a ∈ D.events, a.id = b.atropos)
    (replays : Replays input cb start blocks next t) : Replays input' cb start blocks next t := by
  induction replays with
  | nil => exact .nil
  | snoc _ run ih =>
    obtain ⟨before, last⟩ := List.forall_mem_append.mp known
    obtain ⟨a, inA, atropos⟩ := last _ (List.mem_singleton_self _)
    refine .snoc (ih before) (Eq.trans ?_ run)
    exact (announce_source held held' (Nat.succ_pos _) inA atropos).symm

theorem replays_unique (replays : Replays input cb start blocks next t)
    (replays' : Replays input cb start blocks next' t') : next = next' ∧ t = t' := by
  induction replays generalizing next' t' with
  | nil =>
    generalize empty : ([] : List Block) = blocks at replays'
    cases replays' with
    | nil => exact ⟨rfl, rfl⟩
    | snoc => simp at empty
  | @snoc blocks block next t t' before run ih =>
    generalize same : blocks ++ [block] = blocks' at replays'
    cases replays' with
    | nil => simp at same
    | snoc before' run' =>
      obtain ⟨rfl, last⟩ := List.append_inj' same rfl
      cases last
      obtain ⟨_, rfl⟩ := ih before'
      cases run.symm.trans run'
      exact ⟨rfl, rfl⟩

theorem announce_blocks (run : announce input cb frame block t = .ok (next, t')) :
    t.blocks <+: t'.blocks := by
  rw [announce] at run
  split at run
  · cases run
    exact List.prefix_rfl
  · rw [deliver] at run
    dsimp only [bind, Except.bind] at run
    split at run
    · cases run
    · cases run
      exact List.prefix_append _ _

/-- Fewer blocks are a beginning of more, and none of them but the last can have sealed the epoch. -/
theorem replays_begins (replays : Replays input cb start blocks next t)
    (replays' : Replays input cb start blocks' next' t') (part : blocks <+: blocks') :
    t.blocks <+: t'.blocks ∧ (blocks.length < blocks'.length → next = none) := by
  induction replays' with
  | nil =>
    obtain rfl := List.prefix_nil.mp part
    obtain ⟨_, rfl⟩ := replays_unique replays .nil
    exact ⟨List.prefix_rfl, fun less => absurd less (Nat.not_lt_zero _)⟩
  | @snoc blocks' block next' t₁ t' before run ih =>
    rcases List.prefix_concat_iff.mp part with rfl | part
    · obtain ⟨_, rfl⟩ := replays_unique replays (.snoc before run)
      exact ⟨List.prefix_rfl, fun less => absurd less (lt_irrefl _)⟩
    · obtain ⟨told, open_⟩ := ih part
      refine ⟨told.trans (announce_blocks run), fun _ => ?_⟩
      rcases Nat.lt_or_eq_of_le part.length_le with less | same
      · exact open_ less
      · obtain rfl := part.eq_of_length same
        exact (replays_unique replays before).1

end Replays

section Runs

variable {App : Type} {input : EventSource} {vv : Validators} {D : EventDag vv} {epoch : Nat}
  {cb : ConsensusCallbacks App} {start : Told App} {L M : List Event} {blocks : List Block}

/-- The events are processed in turn. Once a block has sealed the epoch, the others are events of an old
epoch, which no longer pass the event checks. -/
def follow (input : EventSource) : IndexedLachesis App → List Event → Except Halt (IndexedLachesis App)
  | p, [] => .ok p
  | p, e :: rest => do
      let (_, q) ← p.process input e
      if q.lachesis.store.epochState = p.lachesis.store.epochState then follow input q rest
      else return q

/-- What has come out of a run: the epoch goes on, or a block has sealed it. -/
inductive Outcome (input : EventSource) (D : EventDag vv) (epoch : Nat) (cb : ConsensusCallbacks App)
    (start : Told App) (L : List Event) : List Block → Option Validators → Orderer (World App) → Prop where
  | goes {blocks : List Block} {p : Orderer (World App)}
      (synced : Synced input D epoch cb start L blocks p) : Outcome input D epoch cb start L blocks none p
  | ended {blocks : List Block} {p : Orderer (World App)} {M : List Event} {vv' : Validators}
      (part : ∀ x ∈ M, x ∈ L) (ended : Ended input D epoch cb start M blocks vv' p) :
      Outcome input D epoch cb start L blocks (some vv') p

theorem follow_outcome (light : LightForks D.events vv) (capped : WithinCap D)
    (fits : ∀ e ∈ D.events, Fits D (others D e) e) : ∀ (rest : List Event) {L : List Event}
    {blocks : List Block} {p : IndexedLachesis App}, Synced input D epoch cb start L blocks p.lachesis →
    D.Received (L ++ rest) → ∃ q blocks' next, follow input p rest = .ok q ∧
      Outcome input D epoch cb start (L ++ rest) blocks' next q.lachesis := by
  intro rest
  induction rest with
  | nil =>
    intro L blocks p synced _
    rw [List.append_nil]
    exact ⟨p, blocks, none, rfl, .goes synced⟩
  | cons e rest ih =>
    intro L blocks p synced received
    rw [show L ++ e :: rest = L ++ [e] ++ rest by simp] at received ⊢
    have first := received.left
    have capped' : Capped (L ++ [e]) := fun v => (EventDag.selfTips_le first v).trans (capped v)
    have inE := first.inside e (by simp)
    rw [follow]
    rcases process_synced light synced first capped' with ⟨refused, _⟩ | ⟨_, q, blocks', run, ends⟩
    · exact absurd ((fits_others first).mpr (fits e inE)) refused
    · rw [run]
      dsimp only [bind, Except.bind]
      rcases ends with synced' | ⟨vv', ended⟩
      · rw [if_pos (synced'.standing.settled.tabled.epochState.trans
          synced.standing.settled.tabled.epochState.symm)]
        exact ih synced' received
      · rw [if_neg (synced.standing.moved ended.sealed)]
        exact ⟨_, blocks', some vv', rfl, .ended (fun x inX => List.mem_append_left _ inX) ended⟩

theorem Outcome.facts {next : Option Validators} {p : Orderer (World App)}
    (outcome : Outcome input D epoch cb start L blocks next p) :
    ∃ M, (∀ x ∈ M, x ∈ L) ∧ (∀ x ∈ M, Approved D x) ∧ Chosen D M blocks ∧
      ∃ t, Replays input cb start blocks next t ∧ p.world.blocks = t.blocks := by
  cases outcome with
  | goes synced =>
    exact ⟨L, fun _ => id, synced.approved, synced.chosen, _, synced.telling.replays, rfl⟩
  | ended part ended =>
    obtain ⟨t, replays, _, told⟩ := ended.closing
    exact ⟨_, part, ended.approved, ended.chosen, t, replays, told⟩

theorem chosen_known {M : List Event} (approved : ∀ x ∈ M, Approved D x) (chosen : Chosen D M blocks) :
    ∀ b ∈ blocks, ∃ a ∈ D.events, a.id = b.atropos := by
  intro b member
  obtain ⟨k, found⟩ := List.mem_iff_getElem?.mp member
  obtain ⟨a, inA, rfl, _⟩ := chosen k b found
  exact ⟨a, (approved a inA).1, rfl⟩

theorem outcome_begins (light : LightForks D.events vv) {input' : EventSource} (held : D.HeldBy input)
    (held' : D.HeldBy input') {L' : List Event} {blocks' : List Block} {next next' : Option Validators}
    {p p' : Orderer (World App)} (outcome : Outcome input D epoch cb start L blocks next p)
    (outcome' : Outcome input' D epoch cb start L' blocks' next' p')
    (short : blocks.length ≤ blocks'.length) : p.world.blocks <+: p'.world.blocks := by
  obtain ⟨M, _, approved, chosen, t, replays, told⟩ := outcome.facts
  obtain ⟨M', _, approved', chosen', t', replays', told'⟩ := outcome'.facts
  have replays' := replays_source held' held (chosen_known approved' chosen') replays'
  have part := chosen_comparable light approved approved' chosen chosen' short
  rw [told, told']
  exact (replays_begins replays replays' part).1

def genesisDisk (epoch : Nat) (vv : Validators) : Disk :=
  ⟨some ⟨firstFrame - 1⟩, some ⟨epoch, vv⟩, fun _ => .empty⟩

theorem waits_nil : Waits D [] [] := by
  rintro a ⟨_, _, _, _, _, ⟨_, ⟨x, inX, _⟩, _⟩, _⟩
  exact absurd inX List.not_mem_nil

theorem genesis_synced (light : LightForks D.events vv) (held : D.HeldBy input) (epoch : Nat)
    (cb : ConsensusCallbacks App) (app : App) (storeCfg : StoreConfig) (indexCfg : IndexConfig)
    (noValidators : Validators) :
    ∃ p, (IndexedLachesis.new input storeCfg indexCfg (genesisDisk epoch vv) noValidators app
        []).bootstrap input cb = .ok (none, p) ∧
      Synced input D epoch cb ⟨[], app, []⟩ [] [] p.lachesis := by
  have orderly : Orderly D [] := ⟨light, fun v => Nat.zero_le _, received_nil, framed_nil D,
    fun x inX => absurd inX List.not_mem_nil⟩
  exact bootstrap_synced held orderly (genesis_left D epoch _) rfl chosen_nil waits_nil storeCfg
    indexCfg noValidators app [] .nil

def Acceptable (App : Type) (input : EventSource) (D : EventDag vv) (e : Event) : Prop :=
  ∃ (L : List Event) (p p' : IndexedLachesis App), Lives input vv D L p ∧ D.Received (L ++ [e]) ∧
    p.process input e = .ok (none, p')

theorem Acceptable.fits (capped : WithinCap D) {e : Event} (acceptable : Acceptable App input D e) :
    Fits D (others D e) e := by
  obtain ⟨L, p, p', lives, received, run⟩ := acceptable
  obtain ⟨epoch, standing⟩ := lives_standing lives
  rw [← fits_others received]
  rcases process_checks standing received with ⟨q, rejected, _⟩ | ⟨_, _, _, _, _, fits⟩
  · rw [rejected] at run
    cases run
  · exact fits fun v => (EventDag.selfTips_le received v).trans (capped v)

/-- Two instances with the same genesis and the same application process two parts of the events of an
epoch: what one of them has told is a beginning of what the other has told. -/
theorem instances_agree (light : LightForks D.events vv) (capped : WithinCap D) {input' : EventSource}
    (held : D.HeldBy input) (held' : D.HeldBy input')
    (accepted : ∀ e ∈ D.events, Acceptable App input D e) (epoch : Nat) (cb : ConsensusCallbacks App)
    (app : App) (storeCfg storeCfg' : StoreConfig) (indexCfg indexCfg' : IndexConfig)
    (noValidators noValidators' : Validators) {L L' : List Event} (received : D.Received L)
    (received' : D.Received L') :
    ∃ p p' q q' : IndexedLachesis App,
      (IndexedLachesis.new input storeCfg indexCfg (genesisDisk epoch vv) noValidators app
        []).bootstrap input cb = .ok (none, p) ∧
      (IndexedLachesis.new input' storeCfg' indexCfg' (genesisDisk epoch vv) noValidators' app
        []).bootstrap input' cb = .ok (none, p') ∧
      follow input p L = .ok q ∧ follow input' p' L' = .ok q' ∧
      (q.lachesis.world.blocks <+: q'.lachesis.world.blocks ∨
        q'.lachesis.world.blocks <+: q.lachesis.world.blocks) ∧
      ((∀ x, x ∈ L ↔ x ∈ L') →
        q.lachesis.store.epochState = p.lachesis.store.epochState →
        q'.lachesis.store.epochState = p'.lachesis.store.epochState →
        q.lachesis.world.blocks = q'.lachesis.world.blocks) := by
  have fits : ∀ e ∈ D.events, Fits D (others D e) e := fun e inE => (accepted e inE).fits capped
  obtain ⟨p, boots, synced⟩ := genesis_synced light held epoch cb app storeCfg indexCfg noValidators
  obtain ⟨p', boots', synced'⟩ :=
    genesis_synced light held' epoch cb app storeCfg' indexCfg' noValidators'
  obtain ⟨q, blocks, next, run, outcome⟩ := follow_outcome light capped fits L synced received
  obtain ⟨q', blocks', next', run', outcome'⟩ := follow_outcome light capped fits L' synced' received'
  refine ⟨p, p', q, q', boots, boots', run, run', ?_, fun same open_ open' => ?_⟩
  · rcases Nat.le_total blocks.length blocks'.length with le | ge
    · exact .inl (outcome_begins light held held' outcome outcome' le)
    · exact .inr (outcome_begins light held' held outcome' outcome ge)
  · have ended : ∀ {input L blocks vv'} {p q : Orderer (World App)},
        Synced input D epoch cb ⟨[], app, []⟩ [] [] p →
        q.store.epochState = p.store.epochState →
        ¬ Outcome input D epoch cb ⟨[], app, []⟩ L blocks (some vv') q := by
      rintro input L blocks vv' p q synced open_ ⟨⟩
      next part ended =>
      exact synced.standing.moved ended.sealed open_
    cases next with
    | some vv' => exact absurd outcome (ended synced open_)
    | none =>
      cases next' with
      | some vv' => exact absurd outcome' (ended synced' open')
      | none =>
        cases outcome with
        | goes here =>
          cases outcome' with
          | goes there =>
            obtain rfl := chosen_unique light here.approved there.approved same here.chosen
              here.waits there.chosen there.waits
            have le := outcome_begins light held held' (.goes here) (.goes there) le_rfl
            have ge := outcome_begins light held' held (.goes there) (.goes here) le_rfl
            exact le.eq_of_length_le ge.length_le

end Runs

section Duo

theorem duo_light : LightForks duoDag.events duoValidators := by
  have only : forkers duoDag.events duoValidators ⊆ {2} := by
    intro v member
    obtain ⟨listed, forks⟩ := mem_forkers.mp member
    rcases List.mem_pair.mp (show v ∈ [1, 2] from listed) with rfl | rfl
    · exact absurd forks (duo_line (k := 4) (by decide))
    · exact Finset.mem_singleton_self 2
  exact (Nat.mul_le_mul_left 3 (WeightedQuorum.mass_mono _ only)).trans_lt (by decide)

theorem duo_capped : WithinCap duoDag := fun v => (List.length_filter_le _ _).trans (by decide)

set_option maxRecDepth 8000 in
theorem duo_acceptable : ∀ e ∈ duoDag.events, Acceptable (List EventID) duoInput duoDag e := by
  have ready := Lives.genesis (D := duoDag) 1 ⟨100, 100⟩ ⟨10, 10, 10⟩ duoValidators []
    ⟨some recordBlocks⟩ EventDag.heldBy_source rfl
  have first := ready.accept (e := duoEvent 1) ⟨by decide, by decide⟩ rfl rfl
  have left := first.accept (e := duoFork 11) ⟨by decide, by decide⟩ rfl rfl
  have right := left.accept (e := duoFork 12) ⟨by decide, by decide⟩ rfl rfl
  have second := right.accept (e := duoEvent 2) ⟨by decide, by decide⟩ rfl rfl
  have third := second.accept (e := duoEvent 3) ⟨by decide, by decide⟩ rfl rfl
  intro e inE
  simp only [duoDag, duoEvents, List.mem_cons, List.not_mem_nil, or_false] at inE
  rcases inE with rfl | rfl | rfl | rfl | rfl | rfl
  · exact ⟨_, _, _, ready, ⟨by decide, by decide⟩, rfl⟩
  · exact ⟨_, _, _, first, ⟨by decide, by decide⟩, rfl⟩
  · exact ⟨_, _, _, left, ⟨by decide, by decide⟩, rfl⟩
  · exact ⟨_, _, _, right, ⟨by decide, by decide⟩, rfl⟩
  · exact ⟨_, _, _, second, ⟨by decide, by decide⟩, rfl⟩
  · exact ⟨_, _, _, third, ⟨by decide, by decide⟩, rfl⟩

/-- The events in an order in which the fork comes first. -/
def duoOrder : List Event := [duoFork 12, duoFork 11, duoEvent 1, duoEvent 2, duoEvent 3, duoEvent 4]

/-- One instance has all events, another has all but the last one in another order. -/
theorem instances_agree_duo : ∃ p p' q q' : IndexedLachesis (List EventID),
    (IndexedLachesis.new duoInput ⟨100, 100⟩ ⟨10, 10, 10⟩ (genesisDisk 1 duoValidators) duoValidators
      [] []).bootstrap duoInput ⟨some recordBlocks⟩ = .ok (none, p) ∧
    (IndexedLachesis.new duoInput ⟨1, 1⟩ ⟨2, 2, 2⟩ (genesisDisk 1 duoValidators) duoValidators
      [] []).bootstrap duoInput ⟨some recordBlocks⟩ = .ok (none, p') ∧
    follow duoInput p duoEvents = .ok q ∧ follow duoInput p' (duoOrder.take 5) = .ok q' ∧
    (q.lachesis.world.blocks <+: q'.lachesis.world.blocks ∨
      q'.lachesis.world.blocks <+: q.lachesis.world.blocks) := by
  obtain ⟨p, p', q, q', boots, boots', run, run', part, _⟩ := instances_agree duo_light duo_capped
    EventDag.heldBy_source EventDag.heldBy_source duo_acceptable 1 ⟨some recordBlocks⟩ []
    ⟨100, 100⟩ ⟨1, 1⟩ ⟨10, 10, 10⟩ ⟨2, 2, 2⟩ duoValidators duoValidators
    (show duoDag.Received duoEvents from ⟨by decide, by decide⟩)
    (show duoDag.Received (duoOrder.take 5) from ⟨by decide, by decide⟩)
  exact ⟨p, p', q, q', boots, boots', run, run', part⟩

end Duo

end Lachesis.Abft
