import Lachesis.Abft.Agreement

/-!
Calls that leave no trace. With light forks and within the branch cap, what an instance answers and tells
does not depend on the events it has built, on the events it has rejected, or on how often it was
restarted; and an epoch goes on after a seal or a reset as it would in a new instance.
-/

namespace Lachesis.Abft

open Dag Pos Triples Vecfc Vecengine

section Outcomes

variable {App : Type} {input : EventSource} {vv : Validators} {D : EventDag vv} {epoch : Nat}
  {cb : ConsensusCallbacks App} {start t : Told App} {L L' : List Event} {blocks blocks' : List Block}
  {next next' : Option Validators} {p p' : Orderer (World App)} {before : List EmittedBlock}

theorem replays_shift (replays : Replays input cb start blocks next t) (before : List EmittedBlock) :
    ∃ new, t.blocks = start.blocks ++ new ∧ Replays input cb { start with blocks := before } blocks next
      { t with blocks := before ++ new } := by
  induction replays with
  | nil =>
    refine ⟨[], (List.append_nil _).symm, ?_⟩
    rw [List.append_nil]
    exact .nil
  | @snoc blocks block next t t' _ run ih =>
    obtain ⟨new, told, ih⟩ := ih
    cases begins : cb.beginBlock with
    | none =>
      rw [announce, begins] at run
      cases run
      exact ⟨new, told, .snoc ih (by rw [announce, begins])⟩
    | some beginBlock =>
      simp only [announce, begins, deliver, bind, Except.bind] at run
      split at run
      · cases run
      · next done walked =>
        cases run
        refine ⟨new ++ [⟨blocks.length + 1, block, done.confirmed⟩], ?_, .snoc ih ?_⟩
        · rw [told, List.append_assoc]
        · simp only [announce, begins, deliver, bind, Except.bind, walked, List.append_assoc]
          rfl

theorem Outcome.seen (outcome : Outcome input D epoch cb start L blocks next p) :
    ∃ t, Replays input cb start blocks next t ∧ p.world.blocks = t.blocks ∧ p.world.app = t.app ∧
      p.store.epochState = some (next.elim ⟨epoch, vv⟩ fun vv' => ⟨epoch + 1, vv'⟩) ∧
      p.store.lastDecidedState = some ⟨next.elim blocks.length fun _ => firstFrame - 1⟩ := by
  cases outcome with
  | goes synced =>
    exact ⟨_, synced.telling.replays, rfl, rfl, synced.standing.settled.tabled.epochState,
      synced.telling.decided⟩
  | ended part ended =>
    obtain ⟨t, replays, app, told⟩ := ended.closing
    exact ⟨t, replays, told, app, ended.sealed.epochState, ended.sealed.lastDecidedState⟩

theorem outcome_le (light : LightForks D.events vv) (same : ∀ x, x ∈ L ↔ x ∈ L')
    (outcome : Outcome input D epoch cb start L blocks next p)
    (outcome' : Outcome input D epoch cb { start with blocks := before } L' blocks' next' p') :
    blocks'.length ≤ blocks.length := by
  by_contra longer
  obtain ⟨M, part, approved, chosen, t, replays, _⟩ := outcome.facts
  obtain ⟨M', part', approved', chosen', t', replays', _⟩ := outcome'.facts
  obtain ⟨_, _, shifted⟩ := replays_shift replays' start.blocks
  have begins := chosen_comparable light approved approved' chosen chosen' (by omega)
  have open_ : next = none := (replays_begins replays shifted begins).2 (by omega)
  cases outcome with
  | goes synced =>
    exact longer (chosen_le (fun x inX => (same x).mpr (part' x inX)) synced.waits chosen')
  | ended => cases open_

/-- Two instances show the same, apart from what they were told before. -/
structure Alike (before before' : List EmittedBlock) (p p' : Orderer (World App)) : Prop where
  blocks : ∃ new, p.world.blocks = before ++ new ∧ p'.world.blocks = before' ++ new
  app : p.world.app = p'.world.app
  epochState : p.store.epochState = p'.store.epochState
  lastDecidedState : p.store.lastDecidedState = p'.store.lastDecidedState

theorem outcome_alike (light : LightForks D.events vv) (same : ∀ x, x ∈ L ↔ x ∈ L')
    (outcome : Outcome input D epoch cb start L blocks next p)
    (outcome' : Outcome input D epoch cb { start with blocks := before } L' blocks' next' p') :
    blocks = blocks' ∧ next = next' ∧ Alike start.blocks before p p' := by
  have le := outcome_le light same outcome outcome'
  have ge := @outcome_le _ _ _ _ _ _ _ _ _ _ _ _ _ _ _ start.blocks light (fun x => (same x).symm)
    outcome' outcome
  obtain ⟨M, _, approved, chosen, _⟩ := outcome.facts
  obtain ⟨M', _, approved', chosen', _⟩ := outcome'.facts
  obtain rfl := (chosen_comparable light approved approved' chosen chosen' ge).eq_of_length_le le
  obtain ⟨t, replays, told, app, epochState, decided⟩ := outcome.seen
  obtain ⟨t', replays', told', app', epochState', decided'⟩ := outcome'.seen
  obtain ⟨new, since, shifted⟩ := replays_shift replays before
  obtain ⟨rfl, rfl⟩ := replays_unique shifted replays'
  exact ⟨rfl, rfl, ⟨new, told.trans since, told'⟩, app.trans app'.symm,
    epochState.trans epochState'.symm, decided.trans decided'.symm⟩

end Outcomes

inductive Request where
  | process (e : Event)
  | build (e : Event)
  | restart (storeCfg : StoreConfig) (indexCfg : IndexConfig) (noValidators : Validators)

section Calls

variable {App : Type}

/-- The request, with what `Process` returns. A restarted instance goes on with the databases and the
application of the old one. -/
def Request.run (input : EventSource) (cb : ConsensusCallbacks App) (p : IndexedLachesis App) :
    Request → Except Halt (Option (Event × Option ProcessError) × IndexedLachesis App)
  | .process e => do
      let (error, q) ← p.process input e
      return (some (e, error), q)
  | .build e => do
      let (_, q) ← p.build input e
      return (none, q)
  | .restart storeCfg indexCfg noValidators => do
      let w := p.lachesis.world
      let (_, q) ← (IndexedLachesis.new input storeCfg indexCfg p.lachesis.store.disk noValidators w.app
        w.blocks).bootstrap input cb
      return (none, q)

/-- The calls in turn, until a block seals the epoch. -/
def perform (input : EventSource) (cb : ConsensusCallbacks App) : IndexedLachesis App → List Request →
    Except Halt (List (Event × Option ProcessError) × IndexedLachesis App)
  | p, [] => .ok ([], p)
  | p, request :: rest => do
      let (answer, q) ← request.run input cb p
      if q.lachesis.store.epochState = p.lachesis.store.epochState then
        let (answers, r) ← perform input cb q rest
        return (answer.toList ++ answers, r)
      else return (answer.toList, q)

end Calls

section Thinning

variable {App : Type} {input : EventSource} {vv : Validators} {D : EventDag vv} {epoch : Nat}
  {cb : ConsensusCallbacks App} {start : Told App} {L M : List Event} {blocks blocks' : List Block}
  {e : Event} {p p' q r : IndexedLachesis App} {request : Request} {rest calls calls' : List Request}
  {answer : Option (Event × Option ProcessError)} {answers : List (Event × Option ProcessError)}

theorem perform_goes (run : request.run input cb p = .ok (answer, q))
    (synced : Synced input D epoch cb start L blocks p.lachesis)
    (after : Synced input D epoch cb start M blocks' q.lachesis) :
    perform input cb p (request :: rest) = .ok (answers, r) ↔
      ∃ later, perform input cb q rest = .ok (later, r) ∧ answer.toList ++ later = answers := by
  have same : q.lachesis.store.epochState = p.lachesis.store.epochState :=
    after.standing.settled.tabled.epochState.trans synced.standing.settled.tabled.epochState.symm
  rw [perform, run]
  dsimp only [bind, Except.bind]
  rw [if_pos same]
  cases perform input cb q rest with
  | error halt => simp
  | ok later => simp [pure, Except.pure, Prod.ext_iff, and_comm]

theorem perform_after (run : request.run input cb p = .ok (answer, q))
    (synced : Synced input D epoch cb start L blocks p.lachesis)
    (after : Synced input D epoch cb start M blocks' q.lachesis)
    (more : ∃ answers r, perform input cb q rest = .ok (answers, r)) :
    ∃ answers r, perform input cb p (request :: rest) = .ok (answers, r) := by
  obtain ⟨answers, r, more⟩ := more
  exact ⟨_, r, (perform_goes run synced after).mpr ⟨answers, more, rfl⟩⟩

theorem perform_ends (run : request.run input cb p = .ok (answer, q))
    (synced : Synced input D epoch cb start L blocks p.lachesis) {vv' : Validators}
    (after : Ended input D epoch cb start M blocks' vv' q.lachesis) :
    perform input cb p (request :: rest) = .ok (answer.toList, q) := by
  rw [perform, run]
  dsimp only [bind, Except.bind]
  rw [if_neg (synced.standing.moved after.sealed)]
  rfl

theorem build_synced (synced : Synced input D epoch cb start L blocks p.lachesis)
    (foreign : ∀ n, Unassigned D e n) :
    Ensures ((Request.build e).run input cb p) fun r =>
      r.1 = none ∧ Synced input D epoch cb start L blocks r.2.lachesis := by
  have built := ensures_and (build_standing synced.standing (foreign _)) (build_steady input p e epoch)
  exact ensures_bind built fun r kept => ensures_ok ⟨rfl, synced.steady kept.2 kept.1⟩

theorem restart_synced (light : LightForks D.events vv) (capped : WithinCap D)
    (synced : Synced input D epoch cb start L blocks p.lachesis) (storeCfg : StoreConfig)
    (indexCfg : IndexConfig) (noValidators : Validators) :
    ∃ q, (Request.restart storeCfg indexCfg noValidators).run input cb p = .ok (none, q) ∧
      Synced input D epoch cb start L blocks q.lachesis := by
  have received := synced.standing.settled.index.received
  have orderly : Orderly D L := ⟨light, fun v => (EventDag.selfTips_le received v).trans (capped v),
    received, synced.standing.framed, synced.approved⟩
  obtain ⟨q, boots, synced'⟩ := bootstrap_synced synced.standing.held orderly synced.standing.left
    synced.telling.decided synced.chosen synced.waits storeCfg indexCfg noValidators
    p.lachesis.world.app p.lachesis.world.blocks synced.telling.replays
  refine ⟨q, ?_, synced'⟩
  rw [Request.run]
  dsimp only [bind, Except.bind]
  rw [boots]
  rfl

/-- What `Process` answers and comes to is settled by the events processed before. -/
theorem process_outcome (light : LightForks D.events vv) (capped : WithinCap D)
    (synced : Synced input D epoch cb start L blocks p.lachesis) (received : D.Received (L ++ [e])) :
    ∃ error q M blocks' next, (Request.process e).run input cb p = .ok (some (e, error), q) ∧
      Outcome input D epoch cb start M blocks' next q.lachesis ∧
      (¬ Fits D L e ∧ error = some .wrongFrame ∧ M = L ∨ Fits D L e ∧ error = none ∧ M = L ++ [e]) := by
  have cap : Capped (L ++ [e]) := fun v => (EventDag.selfTips_le received v).trans (capped v)
  rcases process_synced light synced received cap with ⟨refused, q, run, _, after⟩ |
    ⟨fits, q, blocks', run, ends⟩
  · refine ⟨_, { p with lachesis := q }, L, blocks, none, ?_, .goes after, .inl ⟨refused, rfl, rfl⟩⟩
    rw [Request.run, run]
    rfl
  · have outcome : ∃ next, Outcome input D epoch cb start (L ++ [e]) blocks' next q := by
      rcases ends with after | ⟨vv', ended⟩
      · exact ⟨none, .goes after⟩
      · exact ⟨some vv', .ended (fun _ => id) ended⟩
    obtain ⟨next, outcome⟩ := outcome
    refine ⟨_, { p with lachesis := q }, L ++ [e], blocks', next, ?_, outcome, .inr ⟨fits, rfl, rfl⟩⟩
    rw [Request.run, run]
    rfl

/-- After the events of `L`, parents come before children, and the second list has the requests of the first
without the builds and restarts, and perhaps without some events that are rejected. A temporary ID is not
the ID of an event. -/
inductive Thins (D : EventDag vv) : List Event → List Request → List Request → Prop where
  | nil {L : List Event} : Thins D L [] []
  | process {L : List Event} {e : Event} {rest rest' : List Request} (received : D.Received (L ++ [e]))
      (fits : Fits D L e → Thins D (L ++ [e]) rest rest') (refused : ¬ Fits D L e → Thins D L rest rest') :
      Thins D L (.process e :: rest) (.process e :: rest')
  | rejected {L : List Event} {e : Event} {rest rest' : List Request} (received : D.Received (L ++ [e]))
      (refused : ¬ Fits D L e) (thins : Thins D L rest rest') : Thins D L (.process e :: rest) rest'
  | build {L : List Event} {e : Event} {rest rest' : List Request}
      (foreign : ∀ n, Unassigned D e n) (thins : Thins D L rest rest') :
      Thins D L (.build e :: rest) rest'
  | restart {L : List Event} {rest rest' : List Request} (storeCfg : StoreConfig) (indexCfg : IndexConfig)
      (noValidators : Validators) (thins : Thins D L rest rest') :
      Thins D L (.restart storeCfg indexCfg noValidators :: rest) rest'

/-- The second run returns if the first one does, and cannot be told from it. -/
def Indistinct (input : EventSource) (cb : ConsensusCallbacks App) (before : List EmittedBlock)
    (p p' : IndexedLachesis App) (calls calls' : List Request) : Prop :=
  ∀ answers q, perform input cb p calls = .ok (answers, q) →
    ∃ answers' q', perform input cb p' calls' = .ok (answers', q') ∧ answers'.Sublist answers ∧
      answers'.filter (·.2 = none) = answers.filter (·.2 = none) ∧
      Alike before before q.lachesis q'.lachesis

theorem thinned_indistinct (light : LightForks D.events vv) (capped : WithinCap D)
    (thins : Thins D L calls calls') : ∀ {blocks : List Block} {p p' : IndexedLachesis App},
    Synced input D epoch cb start L blocks p.lachesis → Synced input D epoch cb start L blocks p'.lachesis →
    Indistinct input cb start.blocks p p' calls calls' := by
  -- along the first run; the second one makes a step where it has the same request
  induction thins with
  | nil =>
    intro blocks p p' synced synced' answers q run
    cases run
    exact ⟨[], p', rfl, .refl _, rfl, (outcome_alike light (fun _ => .rfl) (.goes synced) (.goes synced')).2.2⟩
  | @process L e rest rest' received _ _ accepts refuses =>
    intro blocks p p' synced synced' answers q run
    obtain ⟨error, q₁, M, blocks₁, next, run₁, first, settles⟩ :=
      process_outcome light capped synced received
    obtain ⟨error', q₁', M', blocks₁', next', run₁', second, settles'⟩ :=
      process_outcome light capped synced' received
    have ih : ∀ {blocks : List Block} {p p' : IndexedLachesis App},
        Synced input D epoch cb start M blocks p.lachesis →
        Synced input D epoch cb start M blocks p'.lachesis →
        Indistinct input cb start.blocks p p' rest rest' := by
      rcases settles with ⟨refused, _, rfl⟩ | ⟨fits, _, rfl⟩
      · exact refuses refused
      · exact accepts fits
    obtain ⟨rfl, rfl⟩ : error = error' ∧ M = M' := by grind
    obtain ⟨rfl, rfl, alike⟩ := outcome_alike light (fun _ => .rfl) first second
    cases first with
    | goes after =>
      cases second with
      | goes after' =>
        obtain ⟨later, more, rfl⟩ := (perform_goes run₁ synced after).mp run
        obtain ⟨answers', q', run', sub, same, alike⟩ := ih after after' later q more
        exact ⟨_, q', (perform_goes run₁' synced' after').mpr ⟨answers', run', rfl⟩,
          sub.append_left _, by rw [List.filter_append, List.filter_append, same], alike⟩
    | ended _ after =>
      cases second with
      | ended _ after' =>
        rw [perform_ends run₁ synced after] at run
        cases run
        exact ⟨_, _, perform_ends run₁' synced' after', .refl _, rfl, alike⟩
  | rejected received refused _ ih =>
    intro blocks p p' synced synced' answers q run
    obtain ⟨error, q₁, M, _, _, run₁, first, ⟨_, rfl, rfl⟩ | ⟨fits, _⟩⟩ :=
      process_outcome light capped synced received
    · obtain ⟨rfl, rfl, _⟩ := outcome_alike light (fun _ => .rfl) first (.goes synced)
      cases first with
      | goes after =>
        obtain ⟨later, more, rfl⟩ := (perform_goes run₁ synced after).mp run
        obtain ⟨answers', q', run', sub, same, alike⟩ := ih after synced' later q more
        exact ⟨answers', q', run', sub.cons _, by simpa using same, alike⟩
    · exact absurd fits refused
  | @build L e rest rest' foreign _ ih =>
    intro blocks p p' synced synced' answers q run
    cases built : (Request.build e).run input cb p with
    | error halt =>
      rw [perform, built] at run
      cases run
    | ok r =>
      obtain ⟨none_, after⟩ := build_synced synced foreign r built
      obtain ⟨answer, r⟩ := r
      obtain rfl : answer = none := none_
      obtain ⟨later, more, rfl⟩ := (perform_goes built synced after).mp run
      exact ih after synced' later q more
  | restart storeCfg indexCfg noValidators _ ih =>
    intro blocks p p' synced synced' answers q run
    obtain ⟨r, boots, after⟩ := restart_synced light capped synced storeCfg indexCfg noValidators
    obtain ⟨later, more, rfl⟩ := (perform_goes boots synced after).mp run
    exact ih after synced' later q more

/-- Only a build can fail, of an event with unknown parents. -/
theorem perform_returns (light : LightForks D.events vv) (capped : WithinCap D)
    (thins : Thins D L calls calls') : (∀ e, Request.build e ∉ calls) →
    ∀ {blocks : List Block} {p : IndexedLachesis App}, Synced input D epoch cb start L blocks p.lachesis →
    ∃ answers q, perform input cb p calls = .ok (answers, q) := by
  induction thins with
  | nil => exact fun _ _ _ _ => ⟨_, _, rfl⟩
  | process received _ _ accepts refuses =>
    intro plain blocks p synced
    have later := fun e member => plain e (List.mem_cons_of_mem _ member)
    obtain ⟨error, q, M, _, next, run, outcome, settles⟩ := process_outcome light capped synced received
    cases outcome with
    | goes after =>
      rcases settles with ⟨refused, _, rfl⟩ | ⟨fits, _, rfl⟩
      · exact perform_after run synced after (refuses refused later after)
      · exact perform_after run synced after (accepts fits later after)
    | ended _ after => exact ⟨_, _, perform_ends run synced after⟩
  | rejected received refused _ ih =>
    intro plain blocks p synced
    have later := fun e member => plain e (List.mem_cons_of_mem _ member)
    obtain ⟨error, q, M, _, next, run, outcome, ⟨_, rfl, rfl⟩ | ⟨fits, _⟩⟩ :=
      process_outcome light capped synced received
    · cases outcome with
      | goes after => exact perform_after run synced after (ih later after)
      | ended _ after => exact ⟨_, _, perform_ends run synced after⟩
    · exact absurd fits refused
  | build => exact fun plain => absurd List.mem_cons_self (plain _)
  | restart storeCfg indexCfg noValidators _ ih =>
    intro plain blocks p synced
    obtain ⟨q, run, after⟩ := restart_synced light capped synced storeCfg indexCfg noValidators
    have later := fun e member => plain e (List.mem_cons_of_mem _ member)
    exact perform_after run synced after (ih later after)

/-- Two new instances get requests, one of them a list that was thinned out. If the first run returns, so
does the second; both accept the same events, tell the same blocks and end in the same states. Without
builds it does return. -/
theorem requests_transparent (light : LightForks D.events vv) (capped : WithinCap D)
    (held : D.HeldBy input) (epoch : Nat) (cb : ConsensusCallbacks App) (app : App)
    (storeCfg storeCfg' : StoreConfig) (indexCfg indexCfg' : IndexConfig)
    (noValidators noValidators' : Validators) {calls calls' : List Request} (thins : Thins D [] calls calls') :
    ∃ p p' : IndexedLachesis App,
      (IndexedLachesis.new input storeCfg indexCfg (genesisDisk epoch vv) noValidators app
        []).bootstrap input cb = .ok (none, p) ∧
      (IndexedLachesis.new input storeCfg' indexCfg' (genesisDisk epoch vv) noValidators' app
        []).bootstrap input cb = .ok (none, p') ∧ Indistinct input cb [] p p' calls calls' ∧
      ((∀ e, Request.build e ∉ calls) → ∃ answers q, perform input cb p calls = .ok (answers, q)) := by
  obtain ⟨p, boots, synced⟩ := genesis_synced light held epoch cb app storeCfg indexCfg noValidators
  obtain ⟨p', boots', synced'⟩ :=
    genesis_synced light held epoch cb app storeCfg' indexCfg' noValidators'
  exact ⟨p, p', boots, boots', thinned_indistinct light capped thins synced synced',
    fun plain => perform_returns light capped thins plain synced⟩

end Thinning

section Epochs

variable {App : Type} {input : EventSource} {vv vv' : Validators} {D : EventDag vv} {D' : EventDag vv'}
  {epoch : Nat} {L M : List Event} {p p' : IndexedLachesis App}

theorem Sealed.synced {p : Orderer (World App)} (fresh : Sealed input epoch vv p)
    (held : D.HeldBy input) :
    Synced input D epoch p.world.callback ⟨[], p.world.app, p.world.blocks⟩ [] [] p := by
  have standing := fresh.standing held
  have told : toldOf epoch p.store p.world = ⟨[], p.world.app, p.world.blocks⟩ := by
    rw [toldOf, fresh.tables]
    rfl
  refine ⟨standing, fun _ inX => absurd inX List.not_mem_nil, chosen_nil, fun _ => False,
    ⟨⟨⟨standing.callback, standing.settled, standing.running⟩, told ▸ .nil, fresh.lastDecidedState⟩,
      fun _ => False.elim, ⟨_, fresh.election, reset_tracks vv _ _⟩, ?_⟩, ?_⟩
  · rintro a ⟨_, _, _, _, _, ⟨r, fed, _⟩, _⟩
    exact fed
  · rintro r ⟨x, inX, _⟩
    exact absurd inX List.not_mem_nil

/-- The instance has just come to a new epoch, through a block that sealed the last one or by `Reset`. -/
def Enters (input : EventSource) (D : EventDag vv) (L : List Event) (p p' : IndexedLachesis App) : Prop :=
  (∃ e, D.Received (L ++ [e]) ∧ p.process input e = .ok (none, p') ∧
    p'.lachesis.store.epochState ≠ p.lachesis.store.epochState) ∨
  ∃ epoch vv', p.reset epoch vv' = .ok p'

theorem Enters.sealed (lives : Lives input vv D L p) (enters : Enters input D L p p')
    (now : p'.lachesis.store.epochState = some ⟨epoch, vv'⟩) : Sealed input epoch vv' p'.lachesis := by
  obtain ⟨old, standing⟩ := lives_standing lives
  rcases enters with ⟨e, received, run, moved⟩ | ⟨n, w, run⟩
  · exact process_sealed standing received run moved now
  · exact (reset_sealed standing n w _ run).named now

/-- Whatever an instance has lived through, in the epoch it comes to it tells what a new instance tells
whose genesis is that epoch. -/
theorem epochs_independent (lives : Lives input vv D L p) (enters : Enters input D L p p')
    (now : p'.lachesis.store.epochState = some ⟨epoch, vv'⟩) (light : LightForks D'.events vv')
    (capped : WithinCap D') (held : D'.HeldBy input)
    (accepted : ∀ e ∈ D'.events, Acceptable App input D' e) (received : D'.Received M)
    (storeCfg : StoreConfig) (indexCfg : IndexConfig) (noValidators : Validators) :
    ∃ r q q', (IndexedLachesis.new input storeCfg indexCfg (genesisDisk epoch vv') noValidators
        p'.lachesis.world.app []).bootstrap input p'.lachesis.world.callback = .ok (none, r) ∧
      follow input p' M = .ok q ∧ follow input r M = .ok q' ∧
      Alike p'.lachesis.world.blocks [] q.lachesis q'.lachesis := by
  have fits : ∀ e ∈ D'.events, Fits D' (others D' e) e := fun e inE => (accepted e inE).fits capped
  obtain ⟨r, boots, synced'⟩ := genesis_synced light held epoch p'.lachesis.world.callback
    p'.lachesis.world.app storeCfg indexCfg noValidators
  obtain ⟨q, _, _, run, outcome⟩ := follow_outcome light capped fits M
    ((enters.sealed lives now).synced held) received
  obtain ⟨q', _, _, run', outcome'⟩ := follow_outcome light capped fits M synced' received
  exact ⟨r, q, q', boots, run, run', (outcome_alike light (fun _ => .rfl) outcome outcome').2.2⟩

/-- Instances that process the same events, each in an order of its own, end alike, also where a block seals
the epoch on the way. -/
theorem orders_end_alike (light : LightForks D.events vv) (capped : WithinCap D) (held : D.HeldBy input)
    (accepted : ∀ e ∈ D.events, Acceptable App input D e) (epoch : Nat) (cb : ConsensusCallbacks App)
    (app : App) (storeCfg storeCfg' : StoreConfig) (indexCfg indexCfg' : IndexConfig)
    (noValidators noValidators' : Validators) (received : D.Received L) (received' : D.Received M)
    (same : ∀ x, x ∈ L ↔ x ∈ M) :
    ∃ p p' q q' : IndexedLachesis App,
      (IndexedLachesis.new input storeCfg indexCfg (genesisDisk epoch vv) noValidators app
        []).bootstrap input cb = .ok (none, p) ∧
      (IndexedLachesis.new input storeCfg' indexCfg' (genesisDisk epoch vv) noValidators' app
        []).bootstrap input cb = .ok (none, p') ∧
      follow input p L = .ok q ∧ follow input p' M = .ok q' ∧ Alike [] [] q.lachesis q'.lachesis := by
  have fits : ∀ e ∈ D.events, Fits D (others D e) e := fun e inE => (accepted e inE).fits capped
  obtain ⟨p, boots, synced⟩ := genesis_synced light held epoch cb app storeCfg indexCfg noValidators
  obtain ⟨p', boots', synced'⟩ :=
    genesis_synced light held epoch cb app storeCfg' indexCfg' noValidators'
  obtain ⟨q, _, _, run, outcome⟩ := follow_outcome light capped fits L synced received
  obtain ⟨q', _, _, run', outcome'⟩ := follow_outcome light capped fits M synced' received'
  exact ⟨p, p', q, q', boots, boots', run, run', (outcome_alike light same outcome outcome').2.2⟩

end Epochs

section Duo

theorem duo_fits {L : List Event} {e : Event} (received : duoDag.Received (L ++ [e])) :
    Fits duoDag L e :=
  (fits_others received).mpr ((duo_acceptable e (received.inside e (by simp))).fits duo_capped)

theorem duo_thins {L : List Event} {e : Event} {rest rest' : List Request}
    (received : duoDag.Received (L ++ [e])) (thins : Thins duoDag (L ++ [e]) rest rest') :
    Thins duoDag L (.process e :: rest) (.process e :: rest') :=
  .process received (fun _ => thins) fun refused => absurd (duo_fits received) refused

/-- The instance is restarted between the two sides of the fork and after its first frame. -/
theorem requests_transparent_duo : ∃ (p p' q q' : IndexedLachesis (List EventID)) (answers answers' : _),
    perform duoInput ⟨some recordBlocks⟩ p [.process (duoFork 12), .restart ⟨1, 1⟩ ⟨2, 2, 2⟩ duoValidators,
      .process (duoFork 11), .process (duoEvent 1), .restart ⟨3, 3⟩ ⟨4, 4, 4⟩ duoValidators,
      .process (duoEvent 2)] = .ok (answers, q) ∧
    perform duoInput ⟨some recordBlocks⟩ p' [.process (duoFork 12), .process (duoFork 11),
      .process (duoEvent 1), .process (duoEvent 2)] = .ok (answers', q') ∧
    Alike [] [] q.lachesis q'.lachesis := by
  have last := duo_thins (L := [duoFork 12, duoFork 11, duoEvent 1]) (e := duoEvent 2)
    ⟨by decide, by decide⟩ .nil
  have later := duo_thins (L := [duoFork 12]) (e := duoFork 11) ⟨by decide, by decide⟩
    (duo_thins (e := duoEvent 1) ⟨by decide, by decide⟩ (.restart ⟨3, 3⟩ ⟨4, 4, 4⟩ duoValidators last))
  obtain ⟨p, p', _, _, indistinct, returns⟩ := requests_transparent duo_light duo_capped
    EventDag.heldBy_source 1 ⟨some recordBlocks⟩ [] ⟨100, 100⟩ ⟨1, 1⟩ ⟨10, 10, 10⟩ ⟨2, 2, 2⟩
    duoValidators duoValidators (duo_thins (L := []) (e := duoFork 12) ⟨by decide, by decide⟩
      (.restart ⟨1, 1⟩ ⟨2, 2, 2⟩ duoValidators later))
  obtain ⟨answers, q, run⟩ := returns (by simp)
  obtain ⟨answers', q', run', _, _, alike⟩ := indistinct answers q run
  exact ⟨p, p', q, q', answers, answers', run, run', alike⟩

set_option maxRecDepth 8000 in
/-- The instance is reset in the middle of an epoch. -/
theorem epochs_independent_reset : ∃ p p' q q' : IndexedLachesis (List EventID),
    Lives duoInput duoValidators duoDag [duoFork 12, duoEvent 1] p ∧
    p.reset 2 duoValidators = .ok p' ∧ follow duoInput p' duoEvents = .ok q ∧
    Alike p'.lachesis.world.blocks [] q.lachesis q'.lachesis := by
  have ready := Lives.genesis (D := duoDag) 1 ⟨100, 100⟩ ⟨10, 10, 10⟩ duoValidators []
    ⟨some recordBlocks⟩ EventDag.heldBy_source rfl
  have fork := ready.accept (e := duoFork 12) ⟨by decide, by decide⟩ rfl rfl
  have first := fork.accept (e := duoEvent 1) ⟨by decide, by decide⟩ rfl rfl
  obtain ⟨_, q, q', _, run, _, alike⟩ := epochs_independent first (.inr ⟨2, duoValidators, rfl⟩) rfl
    duo_light duo_capped EventDag.heldBy_source duo_acceptable
    (show duoDag.Received duoEvents from ⟨by decide, by decide⟩) ⟨1, 1⟩ ⟨2, 2, 2⟩ duoValidators
  exact ⟨_, _, q, q', first, rfl, run, alike⟩

theorem orders_end_alike_duo : ∃ p p' q q' : IndexedLachesis (List EventID),
    follow duoInput p duoEvents = .ok q ∧ follow duoInput p' duoOrder = .ok q' ∧
    Alike [] [] q.lachesis q'.lachesis := by
  obtain ⟨p, p', q, q', _, _, run, run', alike⟩ := orders_end_alike duo_light duo_capped
    EventDag.heldBy_source duo_acceptable 1 ⟨some recordBlocks⟩ [] ⟨100, 100⟩ ⟨1, 1⟩ ⟨10, 10, 10⟩
    ⟨2, 2, 2⟩ duoValidators duoValidators
    (show duoDag.Received duoEvents from ⟨by decide, by decide⟩)
    (show duoDag.Received duoOrder from ⟨by decide, by decide⟩)
    fun _ => (show duoEvents.Perm duoOrder by decide).mem_iff
  exact ⟨p, p', q, q', run, run', alike⟩

end Duo

end Lachesis.Abft
